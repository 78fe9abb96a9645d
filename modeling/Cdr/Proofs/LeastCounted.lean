import Cdr.Proofs.Correspondence
import Cdr.Proofs.ImageBytes

/-! # What is counted at least

A step of sizing adds at least a number of bytes that is known without the value. Steps that follow
each other add at least the sum of these, and a value at least the fewest bytes of its type. A
member that may stay away adds nothing to them, and neither does what stands behind the length of a
body.
-/

namespace Cdr

namespace SizeM

/-- That at least so many bytes are counted, wherever the count begins and whatever its limit. -/
def Adds {α : Type} (s : SizeM α) (least : Nat) : Prop :=
  ∀ tally a after, s.run tally = .ok (a, after) → tally.total + least ≤ after.total

variable {α β : Type} {s : SizeM α} {k : α → SizeM β} {least more : Nat}

theorem Adds.mono (h : s.Adds more) (hle : least ≤ more) : s.Adds least := by
  intro tally a after hrun
  have hmore := h tally a after hrun
  omega

theorem adds_pure (a : α) : (pure a : SizeM α).Adds 0 := by
  intro tally b after hrun
  cases hrun
  exact Nat.le_refl _

theorem adds_throw (fault : WireError) (least : Nat) : (throw fault : SizeM α).Adds least := by
  intro tally a after hrun
  cases hrun

theorem adds_bind (hs : s.Adds least) (hk : ∀ a, (k a).Adds more) :
    (s >>= k).Adds (least + more) := by
  intro tally b after hrun
  rw [StateT.run_bind] at hrun
  cases hfirst : s.run tally with
  | error fault =>
    rw [hfirst] at hrun
    cases hrun
  | ok result =>
    obtain ⟨a, mid⟩ := result
    rw [hfirst] at hrun
    have hmid := hs tally a mid hfirst
    have hafter := hk a mid b after hrun
    omega

/-- What comes first is counted, whatever comes behind it. -/
theorem adds_first (hs : s.Adds least) (hk : ∀ a, (k a).Adds 0) : (s >>= k).Adds least :=
  adds_bind hs hk

/-- What comes last is counted, whatever stands in front of it. -/
theorem adds_last (hs : s.Adds 0) (hk : ∀ a, (k a).Adds more) : (s >>= k).Adds more :=
  (adds_bind hs hk).mono (Nat.le_of_eq (Nat.zero_add more).symm)

theorem adds_checked {check : Except WireError α} (hk : ∀ a, check = .ok a → (k a).Adds more) :
    (MonadExcept.ofExcept check >>= k : SizeM β).Adds more := by
  cases check with
  | error fault => exact adds_throw fault more
  | ok a => exact hk a rfl

theorem adds_forM {ι : Type} {each : ι → SizeM Unit} (h : ∀ x, (each x).Adds least) (xs : List ι) :
    (xs.forM each).Adds (xs.length * least) := by
  induction xs with
  | nil => exact (adds_pure ()).mono (Nat.le_of_eq (Nat.zero_mul least))
  | cons x xs ih =>
    rw [List.length_cons, Nat.succ_mul, Nat.add_comm]
    exact adds_bind (h x) fun _ => ih

variable (rules : SizeRules)

theorem adds_add (n : Nat) : (rules.add n).Adds n := by
  intro tally a after hrun
  simp only [SizeRules.add, StateT.run] at hrun
  split at hrun
  · cases hrun
  · cases hrun
    exact Nat.le_refl _

theorem adds_pad (alignment : Nat) : (rules.pad alignment).Adds 0 := by
  intro tally a after hrun
  exact (adds_add rules (padding tally.position alignment)).mono (Nat.zero_le _) tally a after hrun

theorem adds_scalar (p : Primitive) : (rules.addScalar p).Adds p.size :=
  adds_last (adds_pad rules _) fun _ => adds_add rules _

theorem adds_delimiter (extensibility : Extensibility) :
    (rules.addDelimiter extensibility).Adds
      (if rules.repr.isDelimited extensibility then 4 else 0) := by
  unfold SizeRules.addDelimiter
  split
  · exact adds_scalar rules .uint32
  · exact adds_pure ()

theorem adds_elements {each : Value → SizeM Unit} (heach : ∀ v, (each v).Adds least)
    (field : String) {run : Option Primitive} (hrun : ∀ p, run = some p → p.size = least)
    (items : List Value) :
    (addElements rules each field run items).Adds (items.length * least) := by
  cases run with
  | none => exact adds_forM heach items
  | some p =>
    rw [← hrun p rfl, Nat.mul_comm]
    cases items with
    | nil => exact (adds_pure ()).mono (Nat.le_of_eq (Nat.mul_zero p.size))
    | cons v vs =>
      simp only [addElements, List.isEmpty_cons, Bool.false_eq_true, if_false]
      split
      · exact adds_throw _ _
      · exact adds_last (adds_pad rules _) fun _ => adds_add rules _

end SizeM

/-- The scalars of a run are as large as its type says. -/
theorem MemberType.size_of_blittable? {n : Nat} {t : MemberType n} {least : Fin n → Nat}
    {p : Primitive} (h : t.blittable? = some p) : p.size = t.minSizeWith least := by
  obtain ⟨rfl, -⟩ := eq_of_blittable? h
  rfl

/-- The sum of the fewest bytes of the members that are always there. -/
def Member.leastOf {n : Nat} (least : Fin n → Nat) (ms : List (Member n)) : Nat :=
  ((ms.filter fun m => !m.optional).map fun m => m.type.minSizeWith least).foldr (· + ·) 0

namespace Member

variable {n : Nat} {least : Fin n → Nat} {m : Member n} (rest : List (Member n))

theorem leastOf_optional (h : m.optional = true) :
    leastOf least (m :: rest) = leastOf least rest := by
  unfold leastOf
  rw [List.filter_cons_of_neg (by simp [h])]

theorem leastOf_required (h : m.optional = false) :
    leastOf least (m :: rest) = m.type.minSizeWith least + leastOf least rest := by
  unfold leastOf
  rw [List.filter_cons_of_pos (by simp [h])]
  rfl

end Member

open SizeM

section

variable {schema : Schema} {rules : SizeRules} {least : Fin schema.size → Nat}
  {addType : String → Fin schema.size → Value → SizeM Unit}
  (htype : ∀ field i v, (addType field i v).Adds (least i))

include htype

theorem adds_value (field : String) (t : MemberType schema.size) (v : Value) :
    (addValue schema rules addType field t v).Adds (t.minSizeWith least) := by
  induction t generalizing v with
  | primitive p =>
    simp only [addValue]
    split
    · exact adds_scalar rules p
    · exact adds_throw _ _
  | string bound =>
    cases v with
    | string text =>
      refine adds_checked fun _ _ => adds_first (adds_scalar rules .uint32) fun _ => ?_
      exact (adds_add rules _).mono (Nat.zero_le _)
    | _ => exact adds_throw _ _
  | fixedString capacity =>
    cases v with
    | string text => exact adds_checked fun _ _ => adds_add rules _
    | _ => exact adds_throw _ _
  | sequence element bound ih =>
    cases v with
    | sequence items =>
      refine adds_checked fun _ _ => adds_first (adds_scalar rules .uint32) fun _ => ?_
      have helements := adds_elements rules ih field (fun _ => MemberType.size_of_blittable?) items
      exact helements.mono (Nat.zero_le _)
    | _ => exact adds_throw _ _
  | array element length ih =>
    cases v with
    | sequence items =>
      refine adds_checked fun _ hlength => ?_
      rw [MemberType.minSizeWith, ← checkLength_eq_ok hlength, Nat.mul_comm]
      exact adds_elements rules ih field (fun _ => MemberType.size_of_blittable?) items
    | _ => exact adds_throw _ _
  | type i => exact htype field i v

theorem adds_members (typeName : String) (fields : Entries Value) (ms : List (Member schema.size)) :
    (ms.forM (addMember schema rules addType typeName fields)).Adds (Member.leastOf least ms) := by
  induction ms with
  | nil => exact adds_pure ()
  | cons m rest ih =>
    have hvalue : ∀ v, (addValue schema rules addType m.name m.type v).Adds _ :=
      adds_value htype m.name m.type
    cases hoptional : m.optional with
    | true =>
      rw [Member.leastOf_optional rest hoptional]
      refine adds_last ?_ fun _ => ih
      unfold addMember
      cases fields.get? m.name with
      | none =>
        simp only [hoptional, if_true]
        exact adds_pure ()
      | some v =>
        simp only [hoptional, if_true]
        refine adds_last (adds_pad rules 4) fun _ => ?_
        refine adds_last ((adds_add rules 4).mono (Nat.zero_le _)) fun _ => ?_
        exact (hvalue v).mono (Nat.zero_le _)
    | false =>
      rw [Member.leastOf_required rest hoptional]
      refine adds_bind ?_ fun _ => ih
      unfold addMember
      cases fields.get? m.name with
      | none =>
        simp only [hoptional, Bool.false_eq_true, if_false]
        exact adds_throw _ _
      | some v =>
        simp only [hoptional, Bool.false_eq_true, if_false]
        exact hvalue v

theorem adds_union (u : UnionType schema.size) (d : Int64) (arm : Option (String × Value)) :
    (addUnion schema rules addType u d arm).Adds (u.discriminator.type.minSizeWith least) := by
  refine adds_checked fun disc _ => adds_first (adds_value htype _ _ disc) fun _ => ?_
  refine adds_checked fun active _ => ?_
  cases active with
  | none => exact adds_pure ()
  | some selected => exact (adds_value htype _ _ selected.2).mono (Nat.zero_le _)

end

/-- What a framed type takes at least stands in front of its body. -/
theorem adds_framed (rules : SizeRules) {extensibility : Extensibility} {body : SizeM Unit}
    {least : Nat} (hbody : body.Adds least) :
    (do rules.addDelimiter extensibility; body : SizeM Unit).Adds
      (if rules.repr.isDelimited extensibility then 4 else least) := by
  refine (adds_bind (adds_delimiter rules extensibility) fun _ => hbody).mono ?_
  split <;> omega

namespace Schema

theorem minSizeWithin_struct {schema : Schema} {i : Fin schema.size} {s : StructType schema.size}
    (hbody : (schema.get i).body = .struct s) (repr : Representation) (deep : Nat) :
    schema.minSizeWithin repr (deep + 1) i =
      if repr.isDelimited (schema.get i).extensibility then 4
      else Member.leastOf (schema.minSizeWithin repr deep) s.wireMembers := by
  simp only [minSizeWithin, hbody, StructType.sum_required, Member.leastOf]

theorem minSizeWithin_union {schema : Schema} {i : Fin schema.size} {u : UnionType schema.size}
    (hbody : (schema.get i).body = .union u) (repr : Representation) (deep : Nat) :
    schema.minSizeWithin repr (deep + 1) i =
      if repr.isDelimited (schema.get i).extensibility then 4
      else u.discriminator.type.minSizeWith (schema.minSizeWithin repr deep) := by
  simp only [minSizeWithin, hbody]

theorem minSizeWithin_enumeration {schema : Schema} {i : Fin schema.size} {e : EnumType}
    (hbody : (schema.get i).body = .enumeration e) (repr : Representation) (deep : Nat) :
    schema.minSizeWithin repr (deep + 1) i = 4 := by
  simp only [minSizeWithin, hbody, ite_self]

end Schema

/-- Counting a value of a declared type adds what the type needs, however deep this is looked
    for. -/
theorem adds_type (schema : Schema) (rules : SizeRules) (levels deep : Nat) (field : String)
    (i : Fin schema.size) (v : Value) :
    (addType schema rules levels field i v).Adds (schema.minSizeWithin rules.repr deep i) := by
  induction levels generalizing deep field i v with
  | zero => exact adds_throw _ _
  | succ levels ih =>
    have hdeeper : ∀ deep, (addType schema rules (levels + 1) field i v).Adds
        (schema.minSizeWithin rules.repr (deep + 1) i) := by
      intro deep
      simp only [addType]
      cases hbody : (schema.get i).body with
      | struct s =>
        rw [Schema.minSizeWithin_struct hbody]
        cases v with
        | struct fields => exact adds_framed rules (adds_members (ih deep) _ fields _)
        | _ => exact adds_throw _ _
      | union u =>
        rw [Schema.minSizeWithin_union hbody]
        cases v with
        | union d arm => exact adds_framed rules (adds_union (ih deep) u d arm)
        | _ => exact adds_throw _ _
      | enumeration e =>
        rw [Schema.minSizeWithin_enumeration hbody]
        cases v with
        | enumeration n => exact adds_scalar rules .int32
        | _ => exact adds_throw _ _
    cases deep with
    | zero => exact (hdeeper 0).mono (Nat.zero_le _)
    | succ deep => exact hdeeper deep

end Cdr
