import Cdr.Proofs.AlikeSchemas

/-! # The order of the fields

Fields that give their ids may stand in any order in a declaration. A member has its place on the wire
by its id, an entry its place by its name, and a discriminator bears at most one label, so nothing is
left that the order of the fields could decide.
-/

namespace Cdr

variable {n k : Nat}

namespace Entries

variable {α : Type}

theorem get?_of_mem {pairs : List (String × α)} (hnames : (pairs.map Prod.fst).Nodup)
    {pair : String × α} (hpair : pair ∈ pairs) : get? pairs pair.1 = some pair.2 := by
  induction pairs with
  | nil => cases hpair
  | cons first rest ih =>
    obtain ⟨hfirst, hrest⟩ := List.nodup_cons.1 hnames
    rw [get?_cons]
    rcases List.mem_cons.1 hpair with rfl | hpair
    · rw [if_pos rfl]
    · rw [if_neg, ih hrest hpair]
      intro hsame
      exact hfirst (hsame ▸ List.mem_map_of_mem hpair)

/-- Entries under distinct names may be put in one after the other in any order. -/
theorem ofList_eq_of_perm {pairs others : List (String × α)} (h : pairs.Perm others)
    (hnames : (pairs.map Prod.fst).Nodup) : ofList pairs = ofList others := by
  have hnames' : (others.map Prod.fst).Nodup := (h.map Prod.fst).nodup_iff.1 hnames
  have hget : ∀ name, (insertAll others []).get? name =
      if name ∈ others.map Prod.fst then get? others name else none :=
    get?_insertAll (fun pair hpair => get?_of_mem hnames' hpair) []
  show insertAll pairs [] = insertAll others []
  apply insertAll_eq (sorted_insertAll List.Pairwise.nil others)
  · intro pair hpair
    have hother := h.mem_iff.1 hpair
    rw [hget, if_pos (List.mem_map_of_mem hother), get?_of_mem hnames' hother]
  · intro name hname
    by_contra hnot
    rw [(h.map Prod.fst).mem_iff] at hnot
    exact (get?_eq_none_iff _ _).1 ((hget name).trans (if_neg hnot)) hname

end Entries

/-- Where at most one item has a property, a search finds the same in any order. -/
theorem find?_eq_of_perm {α : Type} {p : α → Bool} {xs ys : List α} (h : xs.Perm ys)
    (hone : xs.countP p ≤ 1) : xs.find? p = ys.find? p := by
  have hfilter := h.filter p
  rw [List.countP_eq_length_filter] at hone
  rw [← List.head?_filter, ← List.head?_filter]
  match hxs : xs.filter p with
  | [] =>
    rw [hxs] at hfilter
    rw [hfilter.nil_eq]
  | [x] =>
    rw [hxs] at hfilter
    rw [List.singleton_perm.1 hfilter]
  | _ :: _ :: _ => simp [hxs] at hone

namespace StructType

/-- Members in another order are the same on the wire and have the same defaults, when their ids and
    their names are distinct. -/
theorem wireMembers_eq_of_perm {s s' : StructType n} (h : s.members.Perm s'.members)
    (hids : (s.members.map Member.id).Nodup) : s.wireMembers = s'.wireMembers := by
  have hids' : (s'.members.map Member.id).Nodup := (h.map Member.id).nodup_iff.1 hids
  have hperm := (s.perm_wireMembers.trans h).trans s'.perm_wireMembers.symm
  apply hperm.eq_of_pairwise _ (strict_wireMembers hids) (strict_wireMembers hids')
  intro a b _ _ hab hba
  exact absurd hba (UInt32.lt_asymm hab)

theorem defaultFields_eq_of_perm {s s' : StructType n} (h : s.members.Perm s'.members)
    (hnames : (s.members.map Member.name).Nodup) (ofType : Fin n → Value) :
    s.defaultFields ofType = s'.defaultFields ofType := by
  have hrequired := (List.filter_sublist (p := fun m => !m.optional) (l := s.members)).map Member.name
  apply Entries.ofList_eq_of_perm ((h.filter _).map _)
  rw [List.map_map]
  exact hrequired.nodup hnames

end StructType

namespace UnionType

/-- No two arms bear one label. -/
theorem countP_label_le_one {arms : List (UnionArm n)}
    (hlabels : (arms.flatMap UnionArm.labels).Nodup) (d : Int64) :
    (arms.countP fun arm => arm.labels.contains d) ≤ 1 := by
  induction arms with
  | nil => simp
  | cons arm rest ih =>
    rw [List.flatMap_cons, List.nodup_append] at hlabels
    obtain ⟨-, hrest, hapart⟩ := hlabels
    rw [List.countP_cons]
    split
    next hd =>
      have hnone : (rest.countP fun arm => arm.labels.contains d) = 0 := by
        rw [List.countP_eq_zero]
        intro other hother hd'
        rw [List.contains_iff_mem] at hd hd'
        exact hapart d hd d (List.mem_flatMap.2 ⟨other, hother, hd'⟩) rfl
      rw [hnone]
    next => exact ih hrest

theorem select_eq_of_perm {u u' : UnionType n} (h : u.arms.Perm u'.arms)
    (hlabels : (u.arms.flatMap UnionArm.labels).Nodup)
    (hdefault : u.arms.countP UnionArm.isDefault ≤ 1) (d : Int64) : u.select d = u'.select d := by
  unfold select
  rw [find?_eq_of_perm h (countP_label_le_one hlabels d), find?_eq_of_perm h hdefault]

end UnionType

/-! ## The same indices -/

@[simp] theorem MemberType.rename_id (t : MemberType n) : t.rename (fun i => i) = t := by
  induction t with
  | sequence element bound ih => simp only [rename, ih]
  | array element length ih => simp only [rename, ih]
  | _ => rfl

@[simp] theorem Member.rename_id (m : Member n) : m.rename (fun i => i) = m := by
  simp [rename]

@[simp] theorem UnionArm.rename_id (arm : UnionArm n) : arm.rename (fun i => i) = arm := by
  simp [rename]

namespace TypeBody

theorem alike_struct_of_perm {s s' : StructType n} (h : s.members.Perm s'.members)
    (hids : (s.members.map Member.id).Nodup) (hnames : (s.members.map Member.name).Nodup) :
    (TypeBody.struct s).Alike (fun i => i) (.struct s') := by
  refine .struct ?_ fun ofType => ?_
  · rw [List.map_id'' Member.rename_id, StructType.wireMembers_eq_of_perm h hids]
  · exact (StructType.defaultFields_eq_of_perm h hnames ofType).symm

theorem alike_union_of_perm {u u' : UnionType n} (hdisc : u'.discriminator = u.discriminator)
    (h : u.arms.Perm u'.arms) (hlabels : (u.arms.flatMap UnionArm.labels).Nodup)
    (hdefault : u.arms.countP UnionArm.isDefault ≤ 1) :
    (TypeBody.union u).Alike (fun i => i) (.union u') := by
  refine .union ?_ ?_ fun d => ?_
  · rw [hdisc, Member.rename_id]
  · rw [List.map_id'' UnionArm.rename_id]
    exact h.symm
  · rw [← UnionType.select_eq_of_perm h hlabels hdefault]
    cases u.select d <;> simp

/-- Bodies may be renamed first and compared then. -/
theorem Alike.of_rename {f : Fin n → Fin k} {body : TypeBody n} {body' : TypeBody k}
    (h : (body.rename f).Alike (fun i => i) body') : body.Alike f body' := by
  cases body with
  | struct s =>
    cases h with
    | struct members defaults =>
      refine .struct ?_ fun ofType => ?_
      · rw [members, List.map_id'' Member.rename_id, StructType.wireMembers_rename]
      · rw [defaults, StructType.defaultFields_rename]
  | union u =>
    cases h with
    | union discriminator arms select =>
      refine .union ?_ ?_ fun d => ?_
      · rw [discriminator, Member.rename_id]
        rfl
      · rw [List.map_id'' UnionArm.rename_id] at arms
        exact arms
      · rw [select, UnionType.select_rename]
        cases u.select d <;> simp
  | enumeration e =>
    cases h with
    | enumeration => exact .enumeration e

end TypeBody

/-! ## Declarations -/

namespace TypeDecl

/-- That two declarations differ at most in the order of their fields. -/
structure Reordered (t t' : TypeDecl) : Prop where
  name : t'.toTypeName = t.toTypeName
  kind : t'.kind = t.kind
  extensibility : t'.extensibility = t.extensibility
  enumerators : t'.enumerators = t.enumerators
  fields : t.fields.Perm t'.fields

/-- That the fields of a declaration give their ids and have distinct names. -/
structure Explicit (t : TypeDecl) : Prop where
  ids : ∀ f ∈ t.fields, f.id.isSome
  names : (t.fields.map FieldDecl.name).Nodup

variable {t t' : TypeDecl}

theorem Reordered.symm (h : t.Reordered t') : t'.Reordered t :=
  ⟨h.name.symm, h.kind.symm, h.extensibility.symm, h.enumerators.symm, h.fields.symm⟩

theorem Explicit.reordered (h : t.Explicit) (hreordered : t.Reordered t') : t'.Explicit where
  ids f hf := h.ids f (hreordered.fields.mem_iff.2 hf)
  names := (hreordered.fields.map FieldDecl.name).nodup_iff.1 h.names

end TypeDecl

/-- When related items are put in another order, so can be what they are related to. The places in
    which the items stand make no difference to the relation. -/
theorem exists_forall₂_of_perm {α β : Type} {p : α → Prop} {R R' : α × Nat → β → Prop}
    (hR : ∀ a i j b, p a → R (a, i) b → R' (a, j) b) {xs xs' : List (α × Nat)} {ys : List β}
    (hperm : (xs.map Prod.fst).Perm (xs'.map Prod.fst)) (hp : ∀ x ∈ xs', p x.1)
    (h : List.Forall₂ R xs ys) : ∃ ys', List.Forall₂ R' xs' ys' ∧ ys.Perm ys' := by
  have hitems : List.Forall₂ (fun a b => ∃ i, R (a, i) b) (xs.map Prod.fst) ys :=
    List.forall₂_map_left_iff.2 (h.imp fun x _ hx => ⟨x.2, hx⟩)
  obtain ⟨ys', hitems', hys⟩ := List.perm_comp_forall₂ hperm.symm hitems
  have hboth := (List.forall₂_and_left _ _).2 ⟨hp, List.forall₂_map_left_iff.1 hitems'⟩
  refine ⟨ys', hboth.imp fun x b hx => ?_, hys.symm⟩
  obtain ⟨hpx, i, hi⟩ := hx
  exact hR x.1 i x.2 b hpx hi

namespace Compile

variable {decls : Fin n → TypeDecl} {owner owner' : TypeDecl}

/-- The type of a field hangs on the name of its owner only. -/
theorem memberType_of_name (hname : owner'.toTypeName = owner.toTypeName) (field : FieldDecl)
    (e : TypeExpr) : memberType decls owner' field e = memberType decls owner field e := by
  induction e with
  | sequence element bound ih => simp only [memberType, ih]
  | list element ih => simp only [memberType, ih]
  | array element length ih => simp only [memberType, ih, invalidType, hname]
  | _ => simp only [memberType, invalidType, hname]

/-- A field that gives its id declares the same member in any place. -/
theorem member_of_explicit (hname : owner'.toTypeName = owner.toTypeName) {field : FieldDecl}
    (hid : field.id.isSome) (index other : Nat) :
    member decls owner' other field = member decls owner index field := by
  obtain ⟨id, hid⟩ := Option.isSome_iff_exists.1 hid
  simp only [member, invalidType, memberType_of_name hname, hname, hid, Option.getD_some]

variable (hreordered : owner.Reordered owner') (hexplicit : owner.Explicit)

include hreordered hexplicit

theorem structMembers_reordered {ms : List (Member n)}
    (h : structMembers decls owner 0 [] owner.fields = .ok ms) :
    ∃ ms', structMembers decls owner' 0 [] owner'.fields = .ok ms' ∧ ms.Perm ms' := by
  rw [structMembers_eq_ok_iff] at h
  obtain ⟨hplain, hmembers, hfresh⟩ := h
  have hids' := (hexplicit.reordered hreordered).ids
  have hfields : (owner.fields.zipIdx.map Prod.fst).Perm (owner'.fields.zipIdx.map Prod.fst) := by
    simpa only [List.zipIdx_map_fst] using hreordered.fields
  obtain ⟨ms', hmembers', hperm⟩ : ∃ ms', List.Forall₂
      (fun f m => member decls owner' f.2 f.1 = .ok m) owner'.fields.zipIdx ms' ∧ ms.Perm ms' := by
    refine exists_forall₂_of_perm (p := fun f => f.id.isSome) ?_ hfields ?_ hmembers
    · intro f i j m hid hm
      exact (member_of_explicit hreordered.name hid i j).trans hm
    · intro x hx
      exact hids' x.1 (List.fst_mem_of_mem_zipIdx hx)
  refine ⟨ms', structMembers_eq_ok_iff.2 ⟨?_, hmembers', ?_⟩, hperm⟩
  · intro f hf
    exact hplain f (hreordered.fields.mem_iff.2 hf)
  · rw [fresh_start] at hfresh ⊢
    exact (hperm.map Member.id).nodup_iff.1 hfresh

/-- A union has the same discriminator and the same arms with its fields in another order. -/
theorem unionType_reordered {u : UnionType n} (h : unionType decls owner = .ok u) :
    ∃ u', unionType decls owner' = .ok u' ∧ u'.discriminator = u.discriminator ∧
      u.arms.Perm u'.arms := by
  obtain ⟨⟨field, index⟩, hu⟩ := unionType_eq_ok_iff.1 h
  have hids' := (hexplicit.reordered hreordered).ids
  have hmarked (p : FieldDecl → Bool) :
      ((owner.fields.zipIdx.filter fun f => p f.1).map Prod.fst).Perm
        ((owner'.fields.zipIdx.filter fun f => p f.1).map Prod.fst) := by
    rw [map_fst_filter_zipIdx, map_fst_filter_zipIdx]
    exact hreordered.fields.filter p
  have honly := hmarked fun f => f.annotations.discriminator
  rw [hu.only, List.map_singleton, List.singleton_perm] at honly
  obtain ⟨⟨field', index'⟩, honly', hfield⟩ := List.map_eq_singleton_iff.1 honly.symm
  cases hfield
  have hfield : field.id.isSome := by
    have hmem : (field, index') ∈ owner'.fields.zipIdx.filter fun f =>
        f.1.annotations.discriminator := by
      rw [honly']
      exact List.mem_singleton_self _
    exact hids' field (List.fst_mem_of_mem_zipIdx (List.mem_of_mem_filter hmem))
  obtain ⟨arms', harms', hperm⟩ : ∃ arms', List.Forall₂ (ArmOf decls owner')
      (owner'.fields.zipIdx.filter fun f => !f.1.annotations.discriminator) arms' ∧
        u.arms.Perm arms' := by
    refine exists_forall₂_of_perm (p := fun f => f.id.isSome) ?_
      (hmarked fun f => !f.annotations.discriminator) ?_ hu.arms
    · intro f i j arm hid harm
      exact ⟨(member_of_explicit hreordered.name hid i j).trans harm.member, harm.required,
        harm.labeled, harm.labels, harm.isDefault⟩
    · intro x hx
      exact hids' x.1 (List.fst_mem_of_mem_zipIdx (List.mem_of_mem_filter hx))
  refine ⟨⟨u.discriminator, arms'⟩, unionType_eq_ok_iff.2 ⟨(field, index'), honly', ?_, hu.required,
    hu.type, harms', ?_, ?_, ?_⟩, rfl, hperm⟩
  · exact (member_of_explicit hreordered.name hfield index index').trans hu.discriminator
  · exact ((hperm.map fun arm => arm.member.id).cons _).nodup_iff.1 hu.ids
  · exact (hperm.flatMap_right UnionArm.labels).nodup_iff.1 hu.labels
  · rw [← hperm.countP_eq]
    exact hu.default

/-- With its fields in another order a declaration has a body that is alike. -/
theorem typeBody_reordered (hdistinct : Function.Injective fun i => (decls i).full)
    {body : TypeBody n} (h : typeBody decls owner = .ok body) :
    ∃ body', typeBody decls owner' = .ok body' ∧ body.Alike (fun i => i) body' := by
  unfold typeBody at h ⊢
  rw [hreordered.kind]
  cases hkind : owner.kind with
  | struct =>
    simp only [hkind, bind_eq_ok_iff, pure_eq_ok_iff] at h ⊢
    obtain ⟨ms, hms, rfl⟩ := h
    obtain ⟨ms', hms', hperm⟩ := structMembers_reordered hreordered hexplicit hms
    refine ⟨_, ⟨ms', hms', rfl⟩, TypeBody.alike_struct_of_perm hperm ?_ ?_⟩
    · exact fresh_start.1 (structMembers_eq_ok_iff.1 hms).2.2
    · have hnames : ms.map Member.name = (owner.fields.zipIdx.map Prod.fst).map FieldDecl.name := by
        rw [List.map_map]
        apply map_eq_of_forall₂ _ (structMembers_eq_ok_iff.1 hms).2.1
        intro f m hm
        exact ((member_eq_ok_iff hdistinct).1 hm).2.1
      rw [hnames, List.zipIdx_map_fst]
      exact hexplicit.names
  | union =>
    simp only [hkind, bind_eq_ok_iff, pure_eq_ok_iff] at h ⊢
    obtain ⟨u, hu, rfl⟩ := h
    obtain ⟨u', hu', hdisc, hperm⟩ := unionType_reordered hreordered hexplicit hu
    obtain ⟨field, hunion⟩ := unionType_eq_ok_iff.1 hu
    exact ⟨_, ⟨u', hu', rfl⟩,
      TypeBody.alike_union_of_perm hdisc hperm hunion.labels hunion.default⟩
  | enumeration =>
    simp only [hkind, bind_eq_ok_iff, pure_eq_ok_iff] at h ⊢
    obtain ⟨es, hes, rfl⟩ := h
    refine ⟨_, ⟨es, ?_, rfl⟩, .enumeration _⟩
    rw [enumerators_eq_ok_iff] at hes ⊢
    rw [hreordered.enumerators]
    exact hes

end Compile

/-! ## Documents -/

namespace Document

variable {doc doc' : Document}

theorem get_of_reordered (h : List.Forall₂ TypeDecl.Reordered doc.types doc'.types)
    (i : Fin doc.types.length) :
    (doc.types.get i).Reordered (doc'.types.get (finCongr h.length_eq i)) :=
  h.get i.isLt (finCongr h.length_eq i).isLt

/-- With the fields of its types in another order a document agrees with what it was. The bodies are
    renamed first, since the types may be declared in another order as well for all that is known of
    their indices. -/
theorem agree_of_reordered (h : List.Forall₂ TypeDecl.Reordered doc.types doc'.types)
    (hexplicit : ∀ t ∈ doc.types, t.Explicit) (hnames : (doc.types.map fun t => t.full).Nodup) :
    doc.Agree doc' (finCongr h.length_eq) := by
  have hget := get_of_reordered h
  have hrenumbered : Compile.Renumbered (finCongr h.length_eq) doc.types.get doc'.types.get :=
    ⟨fun i => (hget i).name, fun i => (hget i).kind, full_injective hnames⟩
  refine ⟨fun i => (hget i).name, fun i => (hget i).extensibility, ?_⟩
  intro i body hbody
  have hrenamed := Compile.typeBody_renumbered hrenumbered hbody
  obtain ⟨body', hbody', halike⟩ := Compile.typeBody_reordered (hget i)
    (hexplicit _ (List.get_mem _ i)) hrenumbered.symm.distinct hrenamed
  exact ⟨body', hbody', halike.of_rename⟩

theorem compiles_of_reordered (h : List.Forall₂ TypeDecl.Reordered doc.types doc'.types)
    (hexplicit : ∀ t ∈ doc.types, t.Explicit) (hcompile : ∃ schema, doc.compile = .ok schema) :
    ∃ schema, doc'.compile = .ok schema := by
  obtain ⟨schema, hschema⟩ := hcompile
  exact (agree_of_reordered h hexplicit (nodup_names_of_compile hschema)).compiles ⟨schema, hschema⟩

/-- The order of the fields matters to nothing on the wire when they give their ids and have distinct
    names. With the fields of its types in another order a document is compiled if it was before, and
    values of its types are counted, written and read as before. -/
theorem compile_of_reordered (h : List.Forall₂ TypeDecl.Reordered doc.types doc'.types)
    (hexplicit : ∀ t ∈ doc.types, t.Explicit) :
    ((∃ schema, doc.compile = .ok schema) ↔ ∃ schema, doc'.compile = .ok schema) ∧
      ∀ schema schema', doc.compile = .ok schema → doc'.compile = .ok schema' →
        schema.size = schema'.size ∧ ∀ (i : Fin schema.size) (j : Fin schema'.size),
          i.val = j.val → (schema'.get j).full = (schema.get i).full ∧
            schema.SamePasses i schema' j := by
  have hback : List.Forall₂ TypeDecl.Reordered doc'.types doc.types :=
    List.Forall₂.flip (h.imp fun _ _ => TypeDecl.Reordered.symm)
  have hexplicit' : ∀ t ∈ doc'.types, t.Explicit := by
    intro t ht
    obtain ⟨before, hbefore, hreordered⟩ := exists_left_of_mem h ht
    exact (hexplicit before hbefore).reordered hreordered
  refine ⟨⟨compiles_of_reordered h hexplicit, compiles_of_reordered hback hexplicit'⟩, ?_⟩
  intro schema schema' hcompile hcompile'
  obtain ⟨hnames, bodies, order, hbodies, horder, rfl⟩ := compile_eq_ok_iff.1 hcompile
  obtain ⟨hnames', bodies', order', hbodies', horder', rfl⟩ := compile_eq_ok_iff.1 hcompile'
  have hagree := agree_of_reordered h hexplicit hnames
  have halike := hagree.alike bodies bodies' (Compile.storedLayout bodies order)
    (Compile.storedLayout bodies' order') (hagree.alike_bodies hbodies hbodies')
  refine ⟨h.length_eq, ?_⟩
  intro i j hij
  have hsame : j = finCongr h.length_eq i := Fin.ext hij.symm
  subst hsame
  exact ⟨halike.full i, halike.samePasses i⟩

/-- Paths of steps, which are lines or paths again, with ids that go against the order of the
    fields. -/
def pathDoc : Document where
  types := [
    { name := "Path"
      scope := ""
      extensibility := .appendable
      fields := [(FieldDecl.new "steps" "sequence<Step>").withId 7,
        (FieldDecl.new "name" "string").withId 2, (FieldDecl.new "closed" "boolean?").withId 4] },
    { name := "Step"
      scope := ""
      kind := .union
      fields := [((FieldDecl.new "line" "double[2]").withId 3).case [1, 2],
        ((FieldDecl.new "path" "Path").withId 1).defaultCase,
        ((FieldDecl.new "kind" "int16").withId 2).discriminator] }]

/-- The paths with the fields of all types the other way round. -/
def reversedPathDoc : Document where
  types := pathDoc.types.map fun t => { t with fields := t.fields.reverse }

/-- Paths with their fields the other way round are the same on the wire. -/
theorem compile_of_reordered_path :
    List.Forall₂ TypeDecl.Reordered pathDoc.types reversedPathDoc.types ∧
      (∀ t ∈ pathDoc.types, t.Explicit) ∧
        ∃ schema schema', pathDoc.compile = .ok schema ∧ reversedPathDoc.compile = .ok schema' ∧
          schema.size = schema'.size ∧ ∀ (i : Fin schema.size) (j : Fin schema'.size),
            i.val = j.val → (schema'.get j).full = (schema.get i).full ∧
              schema.SamePasses i schema' j := by
  have hreordered : List.Forall₂ TypeDecl.Reordered pathDoc.types reversedPathDoc.types := by
    refine List.forall₂_map_right_iff.2 (List.forall₂_same.2 fun t _ => ?_)
    exact ⟨rfl, rfl, rfl, rfl, (List.reverse_perm t.fields).symm⟩
  have hexplicit : ∀ t ∈ pathDoc.types, t.Explicit := by
    have hfields : ∀ t ∈ pathDoc.types,
        (∀ f ∈ t.fields, f.id.isSome) ∧ (t.fields.map FieldDecl.name).Nodup := by decide
    exact fun t ht => ⟨(hfields t ht).1, (hfields t ht).2⟩
  have hsome : pathDoc.compile.toOption.isSome := by decide +kernel
  obtain ⟨hcompiles, hsame⟩ := compile_of_reordered hreordered hexplicit
  cases h : pathDoc.compile with
  | error fault => simp [h, Except.toOption] at hsome
  | ok schema =>
    obtain ⟨schema', h'⟩ := hcompiles.1 ⟨schema, h⟩
    exact ⟨hreordered, hexplicit, schema, schema', rfl, h', hsame schema schema' h h'⟩

end Document

end Cdr
