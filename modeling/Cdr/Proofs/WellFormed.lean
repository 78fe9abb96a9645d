import Cdr.Proofs.DefaultImage
import Cdr.Schema.Compile

/-! # What a compiled schema guarantees

A walk that meets no open node again lists every node behind those it points to. So the types of a
compiled schema hold each other by value without a cycle, and the default of every type is built
within as many levels as there are types. Discriminators are of integral types or enumerations.
-/

namespace Cdr

namespace Graph

variable {n : Nat} {next : Fin n → List (Fin n)}

/-- Every node, latest first, stands in front of those it points to. -/
def Ordered (next : Fin n → List (Fin n)) : List (Fin n) → Prop
  | [] => True
  | node :: rest => (∀ other ∈ next node, other ∈ rest) ∧ Ordered next rest

namespace Walk

/-- What a walk without a loop has done: all that was done before, in order still. -/
structure Extends (next : Fin n → List (Fin n)) (before after : Walk n) : Prop where
  loop : before.loop = none
  done : ∀ node ∈ before.done, node ∈ after.done
  ordered : Ordered next before.done → Ordered next after.done

theorem Extends.refl {walk : Walk n} (h : walk.loop = none) : Extends next walk walk :=
  ⟨h, fun _ hmem => hmem, id⟩

theorem Extends.trans {first second third : Walk n} (h : Extends next first second)
    (hnext : Extends next second third) : Extends next first third where
  loop := h.loop
  done := fun node hmem => hnext.done node (h.done node hmem)
  ordered := fun hordered => hnext.ordered (h.ordered hordered)

/-- Steps that reach their nodes, one after the other, reach all of them. -/
theorem extends_foldl (step : Fin n → Walk n → Walk n)
    (hstep : ∀ node (walk : Walk n), (step node walk).loop = none →
      Extends next walk (step node walk) ∧ node ∈ (step node walk).done)
    (nodes : List (Fin n)) (walk : Walk n)
    (hloop : (nodes.foldl (fun walk node => step node walk) walk).loop = none) :
    Extends next walk (nodes.foldl (fun walk node => step node walk) walk) ∧
      ∀ node ∈ nodes, node ∈ (nodes.foldl (fun walk node => step node walk) walk).done := by
  induction nodes generalizing walk with
  | nil => exact ⟨.refl hloop, nofun⟩
  | cons first rest ih =>
    rw [List.foldl_cons] at hloop ⊢
    obtain ⟨hrest, hreached⟩ := ih (step first walk) hloop
    obtain ⟨hfirst, hdone⟩ := hstep first walk hrest.loop
    refine ⟨hfirst.trans hrest, ?_⟩
    intro node hmem
    rcases List.mem_cons.1 hmem with rfl | hmem
    · exact hrest.done node hdone
    · exact hreached node hmem

/-- A visit that meets no open node reaches its own. The open nodes differ from each other, so
    they are too few for the levels to run out. -/
theorem extends_visit (levels : Nat) (path : List (Fin n)) (node : Fin n) (walk : Walk n)
    (hpath : path.Nodup) (hlevels : n < levels + path.length)
    (hloop : (visit next levels path node walk).loop = none) :
    Extends next walk (visit next levels path node walk) ∧
      node ∈ (visit next levels path node walk).done := by
  induction levels generalizing path node walk with
  | zero =>
    have hfew := hpath.length_le_card
    rw [Fintype.card_fin] at hfew
    omega
  | succ levels ih =>
    unfold visit at hloop ⊢
    by_cases hdone : node ∈ walk.done
    · rw [if_pos hdone] at hloop ⊢
      exact ⟨.refl hloop, hdone⟩
    · rw [if_neg hdone] at hloop ⊢
      by_cases hopen : node ∈ path
      · rw [if_pos hopen] at hloop
        simp at hloop
      · rw [if_neg hopen] at hloop ⊢
        have hmore : (node :: path).Nodup := List.nodup_cons.2 ⟨hopen, hpath⟩
        have hdeep : n < levels + (node :: path).length := by
          rw [List.length_cons]
          omega
        obtain ⟨hextends, hreached⟩ := extends_foldl (visit next levels (node :: path))
          (fun other walk => ih (node :: path) other walk hmore hdeep) (next node) walk hloop
        refine ⟨⟨hextends.loop, ?_, ?_⟩, List.mem_cons_self⟩
        · intro other hmem
          exact List.mem_cons_of_mem node (hextends.done other hmem)
        · intro hordered
          exact ⟨hreached, hextends.ordered hordered⟩

end Walk

/-- A walk over all nodes that finds no loop has all of them in order. -/
theorem ordered_walk (hloop : (walk next).loop = none) :
    Ordered next (walk next).done ∧ ∀ node, node ∈ (walk next).done := by
  have hdeep : n < n + 1 + ([] : List (Fin n)).length := Nat.lt_succ_self n
  obtain ⟨hextends, hreached⟩ := Walk.extends_foldl (Walk.visit next (n + 1) [])
    (fun node walk => Walk.extends_visit (n + 1) [] node walk List.nodup_nil hdeep)
    (List.finRange n) Walk.start hloop
  exact ⟨hextends.ordered trivial, fun node => hreached node (List.mem_finRange node)⟩

end Graph

theorem MemberType.groundedWith_of_embedded {n : Nat} {p : Fin n → Prop} {t : MemberType n}
    (h : ∀ i ∈ t.embedded, p i) : t.GroundedWith p := by
  induction t with
  | array element length ih => exact .inr (ih h)
  | type i => exact h i List.mem_cons_self
  | _ => trivial

namespace TypeBody

variable {n : Nat} {i : Fin n}

theorem embedded_of_member {s : StructType n} {m : Member n} (hm : m ∈ s.members)
    (hoptional : m.optional = false) (hi : i ∈ m.type.embedded) : i ∈ (struct s).embedded := by
  refine List.mem_flatMap.2 ⟨m, List.mem_filter.2 ⟨hm, ?_⟩, hi⟩
  rw [hoptional]
  rfl

theorem embedded_of_discriminator {u : UnionType n} (hi : i ∈ u.discriminator.type.embedded) :
    i ∈ (union u).embedded :=
  List.mem_append_left _ hi

theorem embedded_of_arm {u : UnionType n} {arm : UnionArm n} (harm : arm ∈ u.arms)
    (hi : i ∈ arm.member.type.embedded) : i ∈ (union u).embedded :=
  List.mem_append_right _ (List.mem_flatMap.2 ⟨arm, harm, hi⟩)

end TypeBody

namespace Schema

variable {schema : Schema}

/-- Where types stand behind those they hold by value, their defaults take no more levels than
    there are types behind them. -/
theorem groundedWithin_of_ordered {order : List (Fin schema.size)}
    (h : Graph.Ordered (fun i => (schema.get i).body.embedded) order) :
    ∀ i ∈ order, schema.GroundedWithin order.length i := by
  induction order with
  | nil => nofun
  | cons node rest ih =>
    obtain ⟨hnode, hrest⟩ := h
    intro i hi
    rw [List.length_cons]
    rcases List.mem_cons.1 hi with rfl | hi
    · simp only [GroundedWithin]
      split
      next s hbody =>
        intro m hm hoptional
        apply MemberType.groundedWith_of_embedded
        intro j hj
        apply ih hrest j
        apply hnode
        simp only [hbody]
        exact TypeBody.embedded_of_member hm hoptional hj
      next => trivial
    · exact schema.groundedWithin_succ rest.length i (ih hrest i hi)

/-- Whether a type may be the discriminator of a union. -/
def IsDiscriminator (schema : Schema) (t : MemberType schema.size) : Prop :=
  match t with
  | .primitive p => p.isIntegral = true
  | .type i => ∃ e, (schema.get i).body = .enumeration e
  | _ => False

/-- What the passes over values rely on: no type holds itself by value, and discriminators are
    integers or enumerations. -/
structure WellFormed (schema : Schema) : Prop where
  grounded : ∀ i, schema.GroundedWithin schema.size i
  discriminators : ∀ i u, (schema.get i).body = .union u →
    schema.IsDiscriminator u.discriminator.type

end Schema

/-- Whether no two members of a struct bear one name. -/
def TypeBody.DistinctNames {n : Nat} : TypeBody n → Prop
  | struct s => (s.members.map Member.name).Nodup
  | _ => True

instance {n : Nat} (body : TypeBody n) : Decidable body.DistinctNames :=
  match body with
  | .struct s => inferInstanceAs (Decidable (s.members.map Member.name).Nodup)
  | .union _ => .isTrue trivial
  | .enumeration _ => .isTrue trivial

namespace Schema

/-- Whether no struct has two members of one name, which compiling does not check. -/
def DistinctNames (schema : Schema) : Prop :=
  ∀ i, (schema.get i).body.DistinctNames

instance (schema : Schema) : Decidable schema.DistinctNames :=
  inferInstanceAs (Decidable (∀ i, (schema.get i).body.DistinctNames))

theorem DistinctNames.nodup {schema : Schema} (h : schema.DistinctNames) {i : Fin schema.size}
    {s : StructType schema.size} (hbody : (schema.get i).body = .struct s) :
    (s.members.map Member.name).Nodup := by
  have hi := h i
  rw [hbody] at hi
  exact hi

end Schema

namespace Compile

/-- What is computed for all indices is computed for each of them. -/
theorem ofFnM_eq_ok {ε α : Type} {n : Nat} {f : Fin n → Except ε α} {xs : Vector α n}
    (h : Vector.ofFnM f = .ok xs) (i : Fin n) : f i = .ok (xs.get i) := by
  change f i = .ok xs[i]
  induction n with
  | zero => exact i.elim0
  | succ n ih =>
    rw [Vector.ofFnM_succ] at h
    cases hinit : Vector.ofFnM fun i : Fin n => f i.castSucc with
    | error fault =>
      rw [hinit] at h
      cases h
    | ok front =>
      rw [hinit] at h
      cases hlast : f (Fin.last n) with
      | error fault =>
        simp only [hlast, bind, Except.bind] at h
        cases h
      | ok last =>
        simp only [hlast, bind, Except.bind, pure, Except.pure] at h
        cases h
        cases i using Fin.lastCases with
        | last => simpa using hlast
        | cast i => simpa using ih hinit i

variable {n : Nat} {decls : Fin n → TypeDecl} {owner : TypeDecl}

/-- The body of a declared type is of the kind that is declared. -/
theorem typeBody_of_enumeration {body : TypeBody n} (h : typeBody decls owner = .ok body)
    (hkind : owner.kind = .enumeration) : ∃ e, body = .enumeration e := by
  unfold typeBody at h
  rw [hkind] at h
  simp only [] at h
  cases hnames : enumerators owner 0 [] owner.enumerators with
  | error fault =>
    rw [hnames] at h
    cases h
  | ok es =>
    rw [hnames] at h
    cases h
    exact ⟨_, rfl⟩

theorem unionType_eq_ok {u : UnionType n} (h : unionType decls owner = .ok u) :
    isDiscriminatorType decls u.discriminator.type = true := by
  unfold unionType at h
  split at h
  next => cases h
  next field index hfields =>
    cases hmember : member decls owner index field with
    | error fault =>
      rw [hmember] at h
      cases h
    | ok m =>
      rw [hmember] at h
      simp only [bind, Except.bind] at h
      split at h
      next => cases h
      next htype =>
        cases harms : unionArms decls owner 0 [m.id] [] false owner.fields with
        | error fault =>
          rw [harms] at h
          cases h
        | ok arms =>
          rw [harms] at h
          cases h
          simp only [Bool.or_eq_true, not_or, Bool.not_eq_true, Bool.not_eq_false'] at htype
          exact htype.2
  next => cases h

theorem typeBody_of_union {u : UnionType n} (h : typeBody decls owner = .ok (.union u)) :
    isDiscriminatorType decls u.discriminator.type = true := by
  unfold typeBody at h
  split at h
  next =>
    cases hmembers : structMembers decls owner 0 [] owner.fields with
    | error fault =>
      rw [hmembers] at h
      cases h
    | ok members =>
      rw [hmembers] at h
      cases h
  next =>
    cases hunion : unionType decls owner with
    | error fault =>
      rw [hunion] at h
      cases h
    | ok other =>
      rw [hunion] at h
      cases h
      exact unionType_eq_ok hunion
  next =>
    cases hnames : enumerators owner 0 [] owner.enumerators with
    | error fault =>
      rw [hnames] at h
      cases h
    | ok es =>
      rw [hnames] at h
      cases h

end Compile

namespace Document

/-- A schema is compiled from declarations. Its types are their bodies, none of which holds itself
    by value. -/
theorem compile_eq_ok {doc : Document} {schema : Schema} (h : doc.compile = .ok schema) :
    ∃ decls : Fin schema.size → TypeDecl,
      (∀ i, Compile.typeBody decls (decls i) = .ok (schema.get i).body) ∧
        (Graph.walk fun i => (schema.get i).body.embedded).loop = none := by
  simp only [compile] at h
  split at h
  next => cases h
  next =>
    cases hbodies : Vector.ofFnM fun i =>
        Compile.typeBody (fun i => doc.types.get i) (doc.types.get i) with
    | error fault =>
      rw [hbodies] at h
      cases h
    | ok bodies =>
      rw [hbodies] at h
      cases horder : Compile.dependencyOrder fun i => bodies[i] with
      | error i =>
        simp only [horder, bind, Except.bind] at h
        cases h
      | ok order =>
        simp only [horder, bind, Except.bind] at h
        cases h
        refine ⟨fun i => doc.types.get i, ?_, ?_⟩
        · intro i
          have hbody : Compile.typeBody _ _ = .ok bodies[i] := Compile.ofFnM_eq_ok hbodies i
          simpa only [Schema.get, Fin.getElem_fin, Vector.getElem_ofFn] using hbody
        · simp only [Schema.get, Fin.getElem_fin, Vector.getElem_ofFn]
          simp only [Compile.dependencyOrder, Fin.getElem_fin] at horder
          split at horder
          · cases horder
          · assumption

end Document

namespace Schema

/-- What is compiled is well formed. -/
theorem wellFormed_of_compile {doc : Document} {schema : Schema} (h : doc.compile = .ok schema) :
    schema.WellFormed := by
  obtain ⟨decls, hbodies, hloop⟩ := Document.compile_eq_ok h
  refine ⟨?_, ?_⟩
  · intro i
    obtain ⟨hordered, hreached⟩ := Graph.ordered_walk hloop
    exact schema.groundedWithin_size (groundedWithin_of_ordered hordered i (hreached i))
  · intro i u hbody
    have hbodyi := hbodies i
    rw [hbody] at hbodyi
    have htype := Compile.typeBody_of_union hbodyi
    cases hdisc : u.discriminator.type with
    | primitive p =>
      rw [hdisc] at htype
      exact htype
    | type j =>
      rw [hdisc] at htype
      exact Compile.typeBody_of_enumeration (hbodies j) (by simpa [Compile.isDiscriminatorType]
        using htype)
    | _ =>
      rw [hdisc] at htype
      cases htype

end Schema

end Cdr
