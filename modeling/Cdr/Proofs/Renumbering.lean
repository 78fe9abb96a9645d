import Cdr.Proofs.StoredLayouts

/-! # Types under other indices

A compiled type names others by their index, which is their place among the declarations. Where the
same types are declared in other places, names are resolved to the types that have them there, and so
a body is compiled to the same one but for the indices in it.
-/

namespace Cdr

variable {n k : Nat}

namespace MemberType

/-- The type with other indices for those it names. -/
def rename (f : Fin n → Fin k) : MemberType n → MemberType k
  | primitive p => .primitive p
  | string bound => .string bound
  | fixedString capacity => .fixedString capacity
  | sequence element bound => .sequence (element.rename f) bound
  | array element length => .array (element.rename f) length
  | type i => .type (f i)

variable {f : Fin n → Fin k}

@[simp] theorem blittable?_rename (t : MemberType n) : (t.rename f).blittable? = t.blittable? := by
  cases t <;> rfl

theorem embedded_rename (t : MemberType n) : (t.rename f).embedded = t.embedded.map f := by
  induction t with
  | array element length ih => exact ih
  | _ => rfl

theorem defaultWith_rename (ofType : Fin k → Value) (t : MemberType n) :
    (t.rename f).defaultWith ofType = t.defaultWith fun i => ofType (f i) := by
  induction t with
  | array element length ih => simp only [rename, defaultWith, ih]
  | _ => rfl

theorem minSizeWith_rename (ofType : Fin k → Nat) (t : MemberType n) :
    (t.rename f).minSizeWith ofType = t.minSizeWith fun i => ofType (f i) := by
  induction t with
  | array element length ih => simp only [rename, minSizeWith, ih]
  | _ => rfl

theorem extentWith_rename (ofType : Fin k → Extent) (t : MemberType n) :
    (t.rename f).extentWith ofType = t.extentWith fun i => ofType (f i) := by
  induction t with
  | array element length ih => simp only [rename, extentWith, ih]
  | _ => rfl

end MemberType

def Member.rename (f : Fin n → Fin k) (m : Member n) : Member k :=
  ⟨m.name, m.id, m.type.rename f, m.optional, m.key⟩

def UnionArm.rename (f : Fin n → Fin k) (arm : UnionArm n) : UnionArm k :=
  ⟨arm.member.rename f, arm.labels, arm.isDefault⟩

def StructType.rename (f : Fin n → Fin k) (s : StructType n) : StructType k :=
  ⟨s.members.map (Member.rename f)⟩

def UnionType.rename (f : Fin n → Fin k) (u : UnionType n) : UnionType k :=
  ⟨u.discriminator.rename f, u.arms.map (UnionArm.rename f)⟩

/-- The body with other indices for the types that it names. -/
def TypeBody.rename (f : Fin n → Fin k) : TypeBody n → TypeBody k
  | struct s => .struct (s.rename f)
  | union u => .union (u.rename f)
  | enumeration e => .enumeration e

/-- The type with other indices for those it names. Its layout names none. -/
def CompiledType.rename (f : Fin n → Fin k) (t : CompiledType n) : CompiledType k :=
  { t.toTypeName with
    extensibility := t.extensibility
    body := t.body.rename f
    layout := t.layout }

namespace StructType

theorem insertById_rename (f : Fin n → Fin k) (m : Member n) (ms : List (Member n)) :
    insertById (m.rename f) (ms.map (Member.rename f)) =
      (insertById m ms).map (Member.rename f) := by
  induction ms with
  | nil => rfl
  | cons other rest ih =>
    have hid : (m.rename f).id < (other.rename f).id ↔ m.id < other.id := Iff.rfl
    by_cases hlt : m.id < other.id
    · simp only [List.map_cons, insertById, hid, hlt, if_true]
    · simp only [List.map_cons, insertById, hid, hlt, if_false, ih]

/-- Members stand on the wire by their ids, whatever they are of. -/
theorem wireMembers_rename (f : Fin n → Fin k) (s : StructType n) :
    (s.rename f).wireMembers = s.wireMembers.map (Member.rename f) := by
  have hstep : ∀ (ms sorted : List (Member n)),
      (ms.map (Member.rename f)).foldl (fun sorted m => insertById m sorted)
          (sorted.map (Member.rename f)) =
        (ms.foldl (fun sorted m => insertById m sorted) sorted).map (Member.rename f) := by
    intro ms
    induction ms with
    | nil => exact fun sorted => rfl
    | cons m rest ih =>
      intro sorted
      simp only [List.map_cons, List.foldl_cons, insertById_rename, ih]
  exact hstep s.members []

end StructType

theorem UnionType.select_rename (f : Fin n → Fin k) (u : UnionType n) (d : Int64) :
    (u.rename f).select d = (u.select d).map (UnionArm.rename f) := by
  simp only [select, rename, List.find?_map, Option.map_or]
  rfl

namespace TypeBody

theorem embedded_rename (f : Fin n → Fin k) (body : TypeBody n) :
    (body.rename f).embedded = body.embedded.map f := by
  cases body with
  | struct s =>
    simp only [rename, embedded, StructType.rename, List.filter_map, List.flatMap_map,
      List.map_flatMap]
    exact List.flatMap_congr fun m _ => m.type.embedded_rename
  | union u =>
    simp only [rename, embedded, UnionType.rename, List.flatMap_map, List.map_append,
      List.map_flatMap]
    exact congrArg₂ _ u.discriminator.type.embedded_rename
      (List.flatMap_congr fun arm _ => arm.member.type.embedded_rename)
  | enumeration e => rfl

theorem layoutWith_rename (f : Fin n → Fin k) (ofType : Fin k → Extent) (body : TypeBody n) :
    (body.rename f).layoutWith ofType = body.layoutWith fun i => ofType (f i) := by
  have hpart : ∀ m : Member n, (m.rename f).part ofType = m.part fun i => ofType (f i) := by
    intro m
    simp only [Member.part, Member.rename, m.type.extentWith_rename]
  cases body with
  | struct s =>
    simp only [rename, layoutWith, StructType.rename, List.map_map, Function.comp_def, hpart]
  | union u =>
    simp only [rename, layoutWith, UnionType.rename, List.map_map, Function.comp_def, hpart,
      UnionArm.rename]
  | enumeration e => rfl

end TypeBody

namespace Compile

/-- What is made of a result may be changed before or after it is made. -/
theorem map_bind_pure {ε α α' β β' : Type} {g : α → α'} {g' : β → β'} {wrap : α → β}
    {wrap' : α' → β'} (hwrap : ∀ a, wrap' (g a) = g' (wrap a)) (x : Except ε α) :
    (do let a ← x.map g; return wrap' a) = (do let a ← x; return wrap a).map g' := by
  cases x with
  | error fault => rfl
  | ok a => exact congrArg Except.ok (hwrap a)

/-- That types of the same names and kinds are declared at other indices. -/
structure Renumbered (f : Fin n ≃ Fin k) (decls : Fin n → TypeDecl) (decls' : Fin k → TypeDecl) :
    Prop where
  name : ∀ i, (decls' (f i)).toTypeName = (decls i).toTypeName
  kind : ∀ i, (decls' (f i)).kind = (decls i).kind
  distinct : Function.Injective fun i => (decls i).full

variable {f : Fin n ≃ Fin k} {decls : Fin n → TypeDecl} {decls' : Fin k → TypeDecl}

theorem Renumbered.symm (h : Renumbered f decls decls') : Renumbered f.symm decls' decls := by
  have hname : ∀ j, (decls (f.symm j)).toTypeName = (decls' j).toTypeName := by
    intro j
    rw [← h.name, f.apply_symm_apply]
  have hkind : ∀ j, (decls (f.symm j)).kind = (decls' j).kind := by
    intro j
    rw [← h.kind, f.apply_symm_apply]
  refine ⟨hname, hkind, ?_⟩
  intro i j hij
  have hfull : (decls (f.symm i)).full = (decls (f.symm j)).full := by
    rw [hname i, hname j]
    exact hij
  exact f.symm.injective (h.distinct hfull)

variable (h : Renumbered f decls decls')

include h

theorem refers_renumbered {scope name : String} {i : Fin n} :
    Refers decls' scope name (f i) ↔ Refers decls scope name i := by
  have hnear : ∀ i, IsNear decls' scope name (f i) ↔ IsNear decls scope name i := by
    intro i
    simp only [IsNear, h.name]
  have hnotNear : (∀ j, ¬IsNear decls' scope name j) ↔ ∀ j, ¬IsNear decls scope name j := by
    simp only [← f.forall_congr_right, hnear]
  have hnotFull : (∀ j, (decls' j).full ≠ name) ↔ ∀ j, (decls j).full ≠ name := by
    simp only [← f.forall_congr_right, h.name]
  have honly : (∀ j, (decls' j).name = name → j = f i) ↔ ∀ j, (decls j).name = name → j = i := by
    simp only [← f.forall_congr_right, h.name, f.apply_eq_iff_eq]
  constructor
  · rintro (here | ⟨notNear, here⟩ | ⟨notNear, notFull, here, only⟩)
    · exact .near ((hnear i).1 here)
    · exact .full (hnotNear.1 notNear) (by rwa [h.name] at here)
    · exact .simple (hnotNear.1 notNear) (hnotFull.1 notFull) (by rwa [h.name] at here)
        (honly.1 only)
  · rintro (here | ⟨notNear, here⟩ | ⟨notNear, notFull, here, only⟩)
    · exact .near ((hnear i).2 here)
    · exact .full (hnotNear.2 notNear) (by rwa [h.name])
    · exact .simple (hnotNear.2 notNear) (hnotFull.2 notFull) (by rwa [h.name]) (honly.2 only)

theorem resolve_renumbered (scope name : String) :
    resolve decls' scope name = (resolve decls scope name).map f := by
  apply Option.ext
  intro j
  obtain ⟨i, rfl⟩ := f.surjective j
  rw [resolve_eq_some_iff h.symm.distinct, refers_renumbered h, ← resolve_eq_some_iff h.distinct,
    Option.map_eq_some_iff]
  simp only [f.apply_eq_iff_eq, exists_eq_right]

theorem memberType_renumbered (owner : TypeDecl) (field : FieldDecl) (e : TypeExpr) :
    memberType decls' owner field e = (memberType decls owner field e).map (MemberType.rename f) := by
  induction e with
  | named name =>
    simp only [memberType, resolve_renumbered h]
    cases Primitive.ofName? name with
    | some p => rfl
    | none =>
      cases resolve decls owner.scope name with
      | some i => rfl
      | none =>
        cases ManagedType.ofName? name with
        | none => rfl
        | some m =>
          simp only [Option.map_none, Except.map, ManagedType.memberType]
          split <;> rfl
  | string bound => rfl
  | fixedString capacity => rfl
  | sequence element bound ih =>
    simp only [memberType, ih]
    apply map_bind_pure
    exact fun _ => rfl
  | list element ih =>
    simp only [memberType, ih]
    apply map_bind_pure
    exact fun _ => rfl
  | array element length ih =>
    simp only [memberType, ih]
    split
    · rfl
    · apply map_bind_pure
      exact fun _ => rfl
  | optional inner => rfl

theorem member_renumbered (owner : TypeDecl) (index : Nat) (field : FieldDecl) :
    member decls' owner index field = (member decls owner index field).map (Member.rename f) := by
  unfold member
  cases TypeExpr.parse field.typeText with
  | error fault => rfl
  | ok e =>
    simp only [memberType_renumbered h]
    apply map_bind_pure
    exact fun _ => rfl

/-- What is found for the fields of one declaration may be renamed, whatever is found for one. -/
theorem member_eq_rename {owner : TypeDecl} {index : Nat} {field : FieldDecl} {m : Member n}
    (hm : member decls owner index field = .ok m) :
    member decls' owner index field = .ok (m.rename f) := by
  rw [member_renumbered h, hm]
  rfl

theorem discriminates_rename {t : MemberType n} (ht : Discriminates decls t) :
    Discriminates decls' (t.rename f) := by
  cases ht with
  | primitive integral => exact .primitive integral
  | enumeration kind => exact .enumeration ((h.kind _).trans kind)

theorem structMembers_renumbered {owner : TypeDecl} {ms : List (Member n)}
    (hms : structMembers decls owner 0 [] owner.fields = .ok ms) :
    structMembers decls' owner 0 [] owner.fields = .ok (ms.map (Member.rename f)) := by
  rw [structMembers_eq_ok_iff] at hms ⊢
  obtain ⟨hplain, hmembers, hfresh⟩ := hms
  refine ⟨hplain, ?_, ?_⟩
  · exact List.forall₂_map_right_iff.2 (hmembers.imp fun _ _ => member_eq_rename h)
  · rw [List.map_map]
    exact hfresh

theorem unionType_renumbered {owner : TypeDecl} {u : UnionType n}
    (hu : unionType decls owner = .ok u) : unionType decls' owner = .ok (u.rename f) := by
  rw [unionType_eq_ok_iff] at hu ⊢
  obtain ⟨field, hu⟩ := hu
  refine ⟨field, hu.only, member_eq_rename h hu.discriminator, hu.required,
    discriminates_rename h hu.type, ?_, ?_, ?_, ?_⟩
  · refine List.forall₂_map_right_iff.2 (hu.arms.imp fun field arm harm => ?_)
    exact ⟨member_eq_rename h harm.member, harm.required, harm.labeled, harm.labels, harm.isDefault⟩
  · simp only [UnionType.rename, List.map_map]
    exact hu.ids
  · simp only [UnionType.rename, List.flatMap_map]
    exact hu.labels
  · simp only [UnionType.rename, List.countP_map]
    exact hu.default

/-- A declaration is compiled to the same body but for the indices. -/
theorem typeBody_renumbered {owner : TypeDecl} {body : TypeBody n}
    (hbody : typeBody decls owner = .ok body) :
    typeBody decls' owner = .ok (body.rename f) := by
  unfold typeBody at hbody ⊢
  cases hkind : owner.kind with
  | struct =>
    simp only [hkind, bind_eq_ok_iff, pure_eq_ok_iff] at hbody ⊢
    obtain ⟨ms, hms, rfl⟩ := hbody
    exact ⟨_, structMembers_renumbered h hms, rfl⟩
  | union =>
    simp only [hkind, bind_eq_ok_iff, pure_eq_ok_iff] at hbody ⊢
    obtain ⟨u, hu, rfl⟩ := hbody
    exact ⟨_, unionType_renumbered h hu, rfl⟩
  | enumeration =>
    simp only [hkind, bind_eq_ok_iff, pure_eq_ok_iff] at hbody ⊢
    obtain ⟨es, hes, rfl⟩ := hbody
    exact ⟨es, hes, rfl⟩

end Compile

end Cdr
