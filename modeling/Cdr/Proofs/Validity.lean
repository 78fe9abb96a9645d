import Cdr.Proofs.Cycles

/-! # Valid documents

What a document must satisfy to be compiled, said of its declarations alone: which type a name refers
to, which type a field declares, and what the fields of a struct, the fields of a union and the
enumerators of an enumeration must have in common.
-/

namespace Cdr

section

variable {n : Nat} (decls : Fin n → TypeDecl) (scope : String)

/-- That a declared type has a name in a scope. -/
def IsNear (name : String) (i : Fin n) : Prop :=
  scope ≠ "" ∧ (decls i).full = scope ++ "." ++ name

/-- That a name inside a scope refers to a declared type: to the one of that name in the scope, else
    to the one with that full name, else to the only one with that simple name. -/
inductive Refers (name : String) (i : Fin n) : Prop
  | near (here : IsNear decls scope name i)
  | full (notNear : ∀ j, ¬IsNear decls scope name j) (here : (decls i).full = name)
  | simple (notNear : ∀ j, ¬IsNear decls scope name j) (notFull : ∀ j, (decls j).full ≠ name)
    (here : (decls i).name = name) (only : ∀ j, (decls j).name = name → j = i)

/-- The type that an expression denotes inside a scope. Primitives come before declared types, and
    declared types before value types. There is no array without elements, and nothing is optional
    inside of a type. -/
inductive Denotes : TypeExpr → MemberType n → Prop
  | primitive {name : String} {p : Primitive} (spelled : Primitive.ofName? name = some p) :
    Denotes (.named name) (.primitive p)
  | type {name : String} {i : Fin n} (unspelled : Primitive.ofName? name = none)
    (refers : Refers decls scope name i) : Denotes (.named name) (.type i)
  | managed {name : String} {m : ManagedType} (unspelled : Primitive.ofName? name = none)
    (undeclared : ∀ i, ¬Refers decls scope name i) (spelled : ManagedType.ofName? name = some m) :
    Denotes (.named name) m.memberType
  | string (bound : Option UInt32) : Denotes (.string bound) (.string bound)
  | fixedString (capacity : UInt32) : Denotes (.fixedString capacity) (.fixedString capacity)
  | sequence {element : TypeExpr} {t : MemberType n} (bound : Option UInt32)
    (denotes : Denotes element t) : Denotes (.sequence element bound) (.sequence t bound)
  | list {element : TypeExpr} {t : MemberType n} (denotes : Denotes element t) :
    Denotes (.list element) (.sequence t none)
  | array {element : TypeExpr} {t : MemberType n} {length : UInt32} (nonempty : length ≠ 0)
    (denotes : Denotes element t) : Denotes (.array element length) (.array t length)

/-- That a field declares a member of a type, which is optional or not. -/
inductive FieldDecl.Declares (f : FieldDecl) : Bool → MemberType n → Prop
  | required {e : TypeExpr} {t : MemberType n} (reads : TypeExpr.parse f.typeText = .ok e)
    (denotes : Denotes decls scope (e.annotate f.annotations) t) : Declares f false t
  | optional {e inner : TypeExpr} {t : MemberType n} (reads : TypeExpr.parse f.typeText = .ok e)
    (marked : e.annotate f.annotations = .optional inner)
    (denotes : Denotes decls scope inner t) : Declares f true t

/-- Whether a type may be the discriminator of a union: an integral primitive, which a value type of
    one integer is too, or an enumeration. -/
inductive Discriminates : MemberType n → Prop
  | primitive {p : Primitive} (integral : p.isIntegral = true) : Discriminates (.primitive p)
  | enumeration {i : Fin n} (kind : (decls i).kind = .enumeration) : Discriminates (.type i)

end

/-- The id of the member that the field with the given index declares. -/
def FieldDecl.idAt (f : FieldDecl) (index : Nat) : UInt32 :=
  f.id.getD (UInt32.ofNat index)

/-- Enumerators with their values, where `next` is the value of one that gives none: that of the
    enumerator before plus one, at the end of the 32-bit range from its start. -/
def Enumerator.number : Int32 → List Enumerator → List (String × Int32)
  | _, [] => []
  | next, e :: rest => (e.name, e.value.getD next) :: number (e.value.getD next + 1) rest

namespace TypeDecl

def ids (t : TypeDecl) : List UInt32 :=
  t.fields.zipIdx.map fun f => f.1.idAt f.2

/-- The fields of a union that are no discriminators. -/
def arms (t : TypeDecl) : List FieldDecl :=
  t.fields.filter fun f => !f.annotations.discriminator

def values (t : TypeDecl) : List Int32 :=
  (Enumerator.number 0 t.enumerators).map Prod.snd

variable {n : Nat} (decls : Fin n → TypeDecl)

structure ValidStruct (t : TypeDecl) : Prop where
  fields : ∀ f ∈ t.fields, ∃ optional type, f.Declares decls t.scope optional type
  plain : ∀ f ∈ t.fields, f.annotations.discriminator = false
  ids : t.ids.Nodup

/-- What holds of the fields of a union. Labels on its discriminator mean nothing. -/
structure ValidUnion (t : TypeDecl) : Prop where
  discriminator : ∃ f type, (t.fields.filter fun f => f.annotations.discriminator) = [f] ∧
    f.Declares decls t.scope false type ∧ Discriminates decls type
  arms : ∀ f ∈ t.arms, ∃ type, f.Declares decls t.scope false type
  labeled : ∀ f ∈ t.arms, f.annotations.labels ≠ [] ∨ f.annotations.isDefault = true
  ids : t.ids.Nodup
  labels : (t.arms.flatMap fun f => f.annotations.labels).Nodup
  default : (t.arms.countP fun f => f.annotations.isDefault) ≤ 1

def Valid (t : TypeDecl) : Prop :=
  match t.kind with
  | .struct => t.ValidStruct decls
  | .union => t.ValidUnion decls
  | .enumeration => t.values.Nodup

/-- That a declaration embeds a type by value, maybe many times in an array. Optional members and
    the elements of sequences stand behind a reference. -/
def Embeds (t : TypeDecl) (i : Fin n) : Prop :=
  t.kind ≠ .enumeration ∧
    ∃ f ∈ t.fields, ∃ type, f.Declares decls t.scope false type ∧ i ∈ type.embedded

end TypeDecl

structure Document.Valid (doc : Document) : Prop where
  names : (doc.types.map fun t => t.full).Nodup
  types : ∀ t ∈ doc.types, t.Valid doc.types.get
  acyclic : ∀ i, ¬Relation.TransGen (fun i j => (doc.types.get i).Embeds doc.types.get j) i i

/-! ## Names -/

section

variable {n : Nat}

/-- Where at most one index has a property, the first one that has it is any that does. -/
theorem find?_eq_some_iff_of_unique {p : Fin n → Bool} (honly : ∀ i j, p i → p j → i = j)
    (i : Fin n) : (List.finRange n).find? p = some i ↔ p i := by
  constructor
  · exact List.find?_some
  · intro hi
    cases hfind : (List.finRange n).find? p with
    | none => exact absurd hi (List.find?_eq_none.1 hfind i (List.mem_finRange i))
    | some j => rw [honly j i (List.find?_some hfind) hi]

theorem filter_eq_singleton_iff {p : Fin n → Bool} (i : Fin n) :
    (List.finRange n).filter p = [i] ↔ p i ∧ ∀ j, p j → j = i := by
  rw [← List.perm_singleton, List.perm_ext_iff_of_nodup
    ((List.nodup_finRange n).filter p) (List.nodup_singleton i)]
  simp only [List.mem_filter, List.mem_finRange, true_and, List.mem_singleton]
  constructor
  · intro h
    exact ⟨(h i).2 rfl, fun j => (h j).1⟩
  · rintro ⟨hi, honly⟩ j
    exact ⟨honly j, fun hj => hj ▸ hi⟩

theorem findFull?_eq_some_iff {names : Fin n → TypeName}
    (hnames : Function.Injective fun i => (names i).full) {name : String} {i : Fin n} :
    findFull? names name = some i ↔ (names i).full = name := by
  unfold findFull?
  rw [find?_eq_some_iff_of_unique]
  · exact beq_iff_eq
  · intro i j hi hj
    simp only [beq_iff_eq] at hi hj
    exact hnames (hi.trans hj.symm)

theorem findSimple?_eq_some_iff {names : Fin n → TypeName} {name : String} {i : Fin n} :
    findSimple? names name = some i ↔
      (names i).name = name ∧ ∀ j, (names j).name = name → j = i := by
  have hone : findSimple? names name = some i ↔
      ((List.finRange n).filter fun i => (names i).name == name) = [i] := by
    unfold findSimple?
    split <;> simp_all
  rw [hone, filter_eq_singleton_iff]
  simp

end

namespace Compile

section

variable {n : Nat} {decls : Fin n → TypeDecl}

/-- Names are resolved to what they refer to. -/
theorem resolve_eq_some_iff (hnames : Function.Injective fun i => (decls i).full)
    {scope name : String} {i : Fin n} :
    resolve decls scope name = some i ↔ Refers decls scope name i := by
  have hnear : ∀ i, (if scope.isEmpty then none else
      findFull? (fun i => (decls i).toTypeName) (scope ++ "." ++ name)) = some i ↔
        IsNear decls scope name i := by
    intro i
    by_cases hscope : scope = ""
    · simp [hscope, IsNear]
    · simp [hscope, IsNear, findFull?_eq_some_iff hnames]
  have hfull : ∀ i, findFull? (fun i => (decls i).toTypeName) name = some i ↔
      (decls i).full = name := fun i => findFull?_eq_some_iff hnames
  simp only [resolve, Option.or_eq_some_iff, Option.or_eq_none_iff]
  simp only [Option.eq_none_iff_forall_ne_some, ne_eq, hnear, hfull, findSimple?_eq_some_iff]
  constructor
  · rintro ((h | ⟨hnot, h⟩) | ⟨⟨hnot, hother⟩, h, honly⟩)
    · exact .near h
    · exact .full hnot h
    · exact .simple hnot hother h honly
  · rintro (h | ⟨hnot, h⟩ | ⟨hnot, hother, h, honly⟩)
    · exact .inl (.inl h)
    · exact .inl (.inr ⟨hnot, h⟩)
    · exact .inr ⟨⟨hnot, hother⟩, h, honly⟩

end

theorem bind_eq_ok_iff {ε α β : Type} {x : Except ε α} {f : α → Except ε β} {b : β} :
    x >>= f = .ok b ↔ ∃ a, x = .ok a ∧ f a = .ok b := by
  cases x <;> simp [bind, Except.bind]

theorem pure_eq_ok_iff {ε α : Type} {a b : α} : (pure a : Except ε α) = .ok b ↔ a = b := by
  simp [pure, Except.pure]

theorem exists_map_eq_ok_iff {ε α β : Type} {x : Except ε α} {f : α → β} :
    (∃ b, (do let a ← x; return f a) = .ok b) ↔ ∃ a, x = .ok a := by
  simp only [bind_eq_ok_iff, pure_eq_ok_iff]
  rw [exists_comm]
  simp

theorem check_eq_ok_iff {ε α : Type} {c : Prop} [Decidable c] {fault : ε} {x : Except ε α} {a : α} :
    (if c then .error fault else x) = .ok a ↔ ¬c ∧ x = .ok a := by
  by_cases hc : c <;> simp [hc]

section

variable {n : Nat} {decls : Fin n → TypeDecl}
  (hnames : Function.Injective fun i => (decls i).full) {owner : TypeDecl} {field : FieldDecl}

include hnames

theorem memberType_named_iff {name : String} {t : MemberType n} :
    memberType decls owner field (.named name) = .ok t ↔ Denotes decls owner.scope (.named name) t := by
  have hrefers : ∀ i, resolve decls owner.scope name = some i ↔ Refers decls owner.scope name i :=
    fun i => resolve_eq_some_iff hnames
  constructor
  · intro h
    simp only [memberType] at h
    split at h
    next p hspelled =>
      cases h
      exact .primitive hspelled
    next hunspelled =>
      split at h
      next i hresolve =>
        cases h
        exact .type hunspelled ((hrefers i).1 hresolve)
      next hresolve =>
        split at h
        next m hspelled =>
          cases h
          refine .managed hunspelled ?_ hspelled
          intro i hi
          rw [(hrefers i).2 hi] at hresolve
          cases hresolve
        next => cases h
  · intro h
    cases h with
    | primitive spelled => simp [memberType, spelled]
    | type unspelled refers => simp [memberType, unspelled, (hrefers _).2 refers]
    | managed unspelled undeclared spelled =>
      have hresolve : resolve decls owner.scope name = none :=
        Option.eq_none_iff_forall_ne_some.2 fun i hi => undeclared i ((hrefers i).1 hi)
      simp [memberType, unspelled, hresolve, spelled]

/-- The type of a member is what its expression denotes. -/
theorem memberType_eq_ok_iff {e : TypeExpr} {t : MemberType n} :
    memberType decls owner field e = .ok t ↔ Denotes decls owner.scope e t := by
  induction e generalizing t with
  | named name => exact memberType_named_iff hnames
  | string bound =>
    constructor
    · rintro ⟨⟩
      exact .string bound
    · rintro ⟨⟩
      rfl
  | fixedString capacity =>
    constructor
    · rintro ⟨⟩
      exact .fixedString capacity
    · rintro ⟨⟩
      rfl
  | sequence element bound ih =>
    simp only [memberType, bind_eq_ok_iff, pure_eq_ok_iff, ih]
    constructor
    · rintro ⟨t, h, rfl⟩
      exact .sequence bound h
    · rintro ⟨⟩
      exact ⟨_, ‹_›, rfl⟩
  | list element ih =>
    simp only [memberType, bind_eq_ok_iff, pure_eq_ok_iff, ih]
    constructor
    · rintro ⟨t, h, rfl⟩
      exact .list h
    · rintro ⟨⟩
      exact ⟨_, ‹_›, rfl⟩
  | array element length ih =>
    simp only [memberType, check_eq_ok_iff, bind_eq_ok_iff, pure_eq_ok_iff, ih]
    constructor
    · rintro ⟨hlength, t, h, rfl⟩
      exact .array hlength h
    · rintro ⟨⟩
      exact ⟨‹_›, _, ‹_›, rfl⟩
  | optional inner =>
    constructor <;> rintro ⟨⟩

/-- A member is made of what its field declares. -/
theorem member_eq_ok_iff {index : Nat} {m : Member n} :
    member decls owner index field = .ok m ↔
      field.Declares decls owner.scope m.optional m.type ∧ m.name = field.name ∧
        m.id = field.idAt index ∧ m.key = field.annotations.key := by
  obtain ⟨name, id, type, optional, key⟩ := m
  cases hparse : TypeExpr.parse field.typeText with
  | error fault =>
    simp only [member, hparse, bind_eq_ok_iff, reduceCtorEq, false_and, exists_false, false_iff]
    rintro ⟨⟨reads, -⟩ | ⟨reads, -, -⟩, -⟩
    · rw [hparse] at reads
      cases reads
    · rw [hparse] at reads
      cases reads
  | ok e =>
    simp only [member, hparse, bind_eq_ok_iff, Except.ok.injEq, exists_eq_left', pure_eq_ok_iff,
      memberType_eq_ok_iff hnames]
    constructor
    · rintro ⟨t, hdenotes, hmember⟩
      cases hmarked : e.annotate field.annotations with
      | optional inner =>
        rw [hmarked] at hdenotes hmember
        cases hmember
        exact ⟨.optional hparse hmarked hdenotes, rfl, rfl, rfl⟩
      | _ =>
        rw [hmarked] at hdenotes hmember
        cases hmember
        exact ⟨.required hparse (hmarked ▸ hdenotes), rfl, rfl, rfl⟩
    · rintro ⟨hdeclares, rfl, rfl, rfl⟩
      refine ⟨type, ?_⟩
      cases hdeclares with
      | required reads denotes =>
        rw [hparse] at reads
        cases reads
        cases hmarked : e.annotate field.annotations with
        | optional inner =>
          rw [hmarked] at denotes
          cases denotes
        | _ =>
          rw [hmarked] at denotes
          exact ⟨denotes, rfl⟩
      | optional reads marked denotes =>
        rw [hparse] at reads
        cases reads
        rw [marked]
        exact ⟨denotes, rfl⟩

end

end Compile

end Cdr
