import Cdr.Proofs.LeastCounted
import Cdr.Proofs.SizeImage

/-! # Counting under a limit

Under a limit, sizing looks at its count with every step. As the count never goes down, a step that
stays within the limit has been preceded by such steps only, and so the count is stopped exactly
when it would have ended beyond the limit. Where sizing without a limit finds a fault, the limit may
be reached first.
-/

namespace Cdr

namespace SizeM

/-- What counting comes to under a limit, given what it comes to without one. -/
def Capped (limit : Nat) : Except WireError (Unit × Tally) → Except WireError (Unit × Tally) → Prop
  | .ok result, under =>
    under = if result.2.total ≤ limit then .ok result else .error .sizeLimit
  | .error fault, under => under = .error fault ∨ under = .error .sizeLimit

/-- That two steps of sizing are the same step, the second one taken under a limit. -/
structure Caps (limit : Nat) (free under : SizeM Unit) : Prop where
  grows : free.Adds 0
  capped : ∀ tally, tally.total ≤ limit → Capped limit (free.run tally) (under.run tally)

variable {limit : Nat} {free under free' under' : SizeM Unit}

theorem caps_nothing : Caps limit (pure ()) (pure ()) where
  grows := adds_pure ()
  capped _ h := (if_pos h).symm

theorem caps_throw (fault : WireError) : Caps limit (throw fault) (throw fault) where
  grows := adds_throw fault 0
  capped _ _ := .inl rfl

/-- A first step beyond the limit is not made up for by a second one. -/
theorem caps_andThen (hfirst : Caps limit free under) (hsecond : Caps limit free' under') :
    Caps limit (do free; free') (do under; under') where
  grows := adds_last hfirst.grows fun _ => hsecond.grows
  capped tally h := by
    have first := hfirst.capped tally h
    simp only [StateT.run_bind]
    cases hfree : free.run tally with
    | error fault =>
      rw [hfree] at first
      rcases first with heq | heq <;> rw [heq]
      · exact .inl rfl
      · exact .inr rfl
    | ok result =>
      obtain ⟨⟨⟩, mid⟩ := result
      rw [hfree] at first
      rw [show under.run tally = _ from first]
      by_cases hmid : mid.total ≤ limit
      · rw [if_pos hmid]
        exact hsecond.capped mid hmid
      · rw [if_neg hmid]
        show Capped limit (free'.run mid) (.error .sizeLimit)
        cases hrest : free'.run mid with
        | error fault => exact .inr rfl
        | ok result =>
          have hgrows := hsecond.grows mid result.1 result.2 hrest
          exact (if_neg (by omega)).symm

theorem caps_checked {α : Type} (check : Except WireError α) {free under : α → SizeM Unit}
    (h : ∀ a, Caps limit (free a) (under a)) :
    Caps limit (MonadExcept.ofExcept check >>= free) (MonadExcept.ofExcept check >>= under) := by
  cases check with
  | error fault => exact caps_throw fault
  | ok a => exact h a

theorem caps_each {α : Type} {free under : α → SizeM Unit} (h : ∀ x, Caps limit (free x) (under x))
    (xs : List α) : Caps limit (xs.forM free) (xs.forM under) := by
  induction xs with
  | nil => exact caps_nothing
  | cons x xs ih => exact caps_andThen (h x) ih

end SizeM

open SizeM

namespace SizeRules

/-- Sizing that may count up to a limit. -/
abbrev limited (repr : Representation) (limit : Nat) : SizeRules := ⟨repr, some limit⟩

variable (repr : Representation) {limit : Nat}

theorem caps_add (n : Nat) : Caps limit ((unlimited repr).add n) ((limited repr limit).add n) where
  grows := (adds_add _ n).mono (Nat.zero_le n)
  capped tally _ := by
    by_cases hover : limit < tally.total + n
    · simp [add, StateT.run, Capped, hover]
    · simp [add, StateT.run, Capped, hover, Nat.le_of_not_lt hover]

theorem caps_pad (alignment : Nat) :
    Caps limit ((unlimited repr).pad alignment) ((limited repr limit).pad alignment) where
  grows := adds_pad _ alignment
  capped tally h := (caps_add repr (padding tally.position alignment)).capped tally h

theorem caps_scalar (p : Primitive) :
    Caps limit ((unlimited repr).addScalar p) ((limited repr limit).addScalar p) :=
  caps_andThen (caps_pad repr _) (caps_add repr _)

theorem caps_delimiter (extensibility : Extensibility) :
    Caps limit ((unlimited repr).addDelimiter extensibility)
      ((limited repr limit).addDelimiter extensibility) := by
  unfold addDelimiter
  split
  · exact caps_scalar repr .uint32
  · exact caps_nothing

theorem caps_elements {free under : Value → SizeM Unit} (h : ∀ v, Caps limit (free v) (under v))
    (field : String) (run : Option Primitive) (items : List Value) :
    Caps limit (addElements (unlimited repr) free field run items)
      (addElements (limited repr limit) under field run items) := by
  cases run with
  | none => exact caps_each h items
  | some p =>
    simp only [addElements]
    split
    · exact caps_nothing
    · split
      · exact caps_throw _
      · exact caps_andThen (caps_pad repr _) (caps_add repr _)

end SizeRules

open SizeRules

section

variable {schema : Schema} {repr : Representation} {limit : Nat}
  {free under : String → Fin schema.size → Value → SizeM Unit}
  (htype : ∀ field i v, Caps limit (free field i v) (under field i v))

include htype

theorem caps_value (field : String) (type : MemberType schema.size) (v : Value) :
    Caps limit (addValue schema (unlimited repr) free field type v)
      (addValue schema (limited repr limit) under field type v) := by
  induction type generalizing v with
  | primitive p =>
    simp only [addValue]
    split
    · exact caps_scalar repr p
    · exact caps_throw _
  | string bound =>
    cases v with
    | string text =>
      exact caps_checked _ fun _ => caps_andThen (caps_scalar repr .uint32) (caps_add repr _)
    | _ => exact caps_throw _
  | fixedString capacity =>
    cases v with
    | string text => exact caps_checked _ fun _ => caps_add repr _
    | _ => exact caps_throw _
  | sequence element bound ih =>
    cases v with
    | sequence items =>
      exact caps_checked _ fun _ =>
        caps_andThen (caps_scalar repr .uint32) (caps_elements repr ih field _ items)
    | _ => exact caps_throw _
  | array element length ih =>
    cases v with
    | sequence items => exact caps_checked _ fun _ => caps_elements repr ih field _ items
    | _ => exact caps_throw _
  | type i => exact htype field i v

theorem caps_member (typeName : String) (fields : Entries Value) (m : Member schema.size) :
    Caps limit (addMember schema (unlimited repr) free typeName fields m)
      (addMember schema (limited repr limit) under typeName fields m) := by
  unfold addMember
  cases fields.get? m.name with
  | none =>
    simp only []
    split
    · exact caps_nothing
    · exact caps_throw _
  | some v =>
    simp only []
    have hvalue : Caps limit (addValue schema (unlimited repr) free m.name m.type v)
        (addValue schema (limited repr limit) under m.name m.type v) :=
      caps_value htype m.name m.type v
    by_cases hoptional : m.optional
    · simp only [hoptional, if_true]
      exact caps_andThen (caps_pad repr 4) (caps_andThen (caps_add repr 4) hvalue)
    · simp only [hoptional, Bool.false_eq_true, if_false]
      exact hvalue

theorem caps_union (u : UnionType schema.size) (d : Int64) (arm : Option (String × Value)) :
    Caps limit (addUnion schema (unlimited repr) free u d arm)
      (addUnion schema (limited repr limit) under u d arm) := by
  refine caps_checked _ fun disc => caps_andThen (caps_value htype _ _ disc) ?_
  refine caps_checked _ fun active => ?_
  cases active with
  | none => exact caps_nothing
  | some selected => exact caps_value htype _ _ selected.2

end

theorem caps_type (schema : Schema) (repr : Representation) (limit levels : Nat) (field : String)
    (i : Fin schema.size) (v : Value) :
    Caps limit (addType schema (unlimited repr) levels field i v)
      (addType schema (limited repr limit) levels field i v) := by
  induction levels generalizing field i v with
  | zero => exact caps_throw _
  | succ levels ih =>
    simp only [addType]
    cases (schema.get i).body with
    | struct s =>
      cases v with
      | struct fields =>
        exact caps_andThen (caps_delimiter repr _) (caps_each (caps_member ih _ fields) _)
      | _ => exact caps_throw _
    | union u =>
      cases v with
      | union d arm => exact caps_andThen (caps_delimiter repr _) (caps_union ih u d arm)
      | _ => exact caps_throw _
    | enumeration _ =>
      cases v with
      | enumeration n => exact caps_scalar repr .int32
      | _ => exact caps_throw _

namespace Schema

variable (schema : Schema) (repr : Representation) (limit : Nat) (i : Fin schema.size) (v : Value)

theorem sizeOf_eq_map (rules : SizeRules) (offset : Nat) :
    schema.sizeOf rules i v offset =
      ((addType schema rules maxDepth "" i v).run ⟨offset, 0⟩).map fun counted => counted.2.total :=
  rfl

/-- Up to the limit a body is counted as without it, and beyond it there is no count. -/
theorem sizeOf_limited_of_ok {offset n : Nat}
    (h : schema.sizeOf (unlimited repr) i v offset = .ok n) :
    schema.sizeOf (limited repr limit) i v offset =
      if n ≤ limit then .ok n else .error .sizeLimit := by
  have hcaps := (caps_type schema repr limit maxDepth "" i v).capped ⟨offset, 0⟩ (Nat.zero_le limit)
  rw [sizeOf_eq_map] at h ⊢
  cases hfree : (addType schema (unlimited repr) maxDepth "" i v).run ⟨offset, 0⟩ with
  | error fault =>
    rw [hfree] at h
    cases h
  | ok result =>
    rw [hfree] at h hcaps
    cases h
    rw [show (addType schema (limited repr limit) maxDepth "" i v).run _ = _ from hcaps]
    split <;> rfl

theorem sizeOf_limited_of_error {offset : Nat} {fault : WireError}
    (h : schema.sizeOf (unlimited repr) i v offset = .error fault) :
    schema.sizeOf (limited repr limit) i v offset = .error fault ∨
      schema.sizeOf (limited repr limit) i v offset = .error .sizeLimit := by
  have hcaps := (caps_type schema repr limit maxDepth "" i v).capped ⟨offset, 0⟩ (Nat.zero_le limit)
  rw [sizeOf_eq_map] at h ⊢
  cases hfree : (addType schema (unlimited repr) maxDepth "" i v).run ⟨offset, 0⟩ with
  | ok result =>
    rw [hfree] at h
    cases h
  | error other =>
    rw [hfree] at h hcaps
    cases h
    rcases hcaps with hunder | hunder <;> rw [hunder]
    · exact .inl rfl
    · exact .inr rfl

theorem payloadSize_eq_ok {n : Nat} (h : schema.payloadSize repr i v = .ok n) :
    ∃ body, schema.sizeOf (unlimited repr) i v 0 = .ok body ∧ n = headerSize + body := by
  cases hbody : schema.sizeOf (unlimited repr) i v 0 with
  | error fault =>
    rw [payloadSize, hbody] at h
    cases h
  | ok body =>
    rw [payloadSize, hbody] at h
    cases h
    exact ⟨body, rfl, rfl⟩

/-- The same for a payload, whose header has to fit as well. -/
theorem payloadSizeWithin_of_ok {n : Nat} (h : schema.payloadSize repr i v = .ok n) :
    schema.payloadSizeWithin repr limit i v = if n ≤ limit then .ok n else .error .sizeLimit := by
  obtain ⟨body, hbody, rfl⟩ := schema.payloadSize_eq_ok repr i v h
  unfold payloadSizeWithin
  by_cases hheader : limit < headerSize
  · rw [if_pos hheader, if_neg (by omega)]
  · rw [if_neg hheader, schema.sizeOf_limited_of_ok repr (limit - headerSize) i v hbody]
    by_cases hfits : body ≤ limit - headerSize
    · rw [if_pos hfits, if_pos (by omega)]
      rfl
    · rw [if_neg hfits, if_neg (by omega)]
      rfl

theorem payloadSizeWithin_of_error {fault : WireError}
    (h : schema.payloadSize repr i v = .error fault) :
    schema.payloadSizeWithin repr limit i v = .error fault ∨
      schema.payloadSizeWithin repr limit i v = .error .sizeLimit := by
  have hbody : schema.sizeOf (unlimited repr) i v 0 = .error fault := by
    cases hbody : schema.sizeOf (unlimited repr) i v 0 with
    | ok body =>
      rw [payloadSize, hbody] at h
      cases h
    | error other =>
      rw [payloadSize, hbody] at h
      cases h
      rfl
  unfold payloadSizeWithin
  by_cases hheader : limit < headerSize
  · rw [if_pos hheader]
    exact .inr rfl
  · rw [if_neg hheader]
    rcases schema.sizeOf_limited_of_error repr (limit - headerSize) i v hbody with heq | heq <;>
      rw [heq]
    · exact .inl rfl
    · exact .inr rfl

theorem payloadSizeWithin_eq_ok_iff {n : Nat} :
    schema.payloadSizeWithin repr limit i v = .ok n ↔
      schema.payloadSize repr i v = .ok n ∧ n ≤ limit := by
  cases hsize : schema.payloadSize repr i v with
  | error fault =>
    rcases schema.payloadSizeWithin_of_error repr limit i v hsize with heq | heq <;>
      simp [heq]
  | ok size =>
    rw [schema.payloadSizeWithin_of_ok repr limit i v hsize]
    by_cases hle : size ≤ limit
    · rw [if_pos hle]
      constructor
      · rintro ⟨⟩
        exact ⟨rfl, hle⟩
      · exact fun h => h.1
    · rw [if_neg hle]
      constructor
      · rintro ⟨⟩
      · rintro ⟨⟨⟩, hle'⟩
        exact absurd hle' hle

end Schema

end Cdr
