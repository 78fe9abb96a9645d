import Cdr.Wire.Error

/-! # Size limits

How many bytes may still be touched.
-/

namespace Cdr

inductive Limit where
  | infinite
  | bounded (left : Nat)
  deriving DecidableEq, Repr

namespace Limit

/-- Takes bytes off the limit. -/
def charge (bytes : Nat) : Limit → Except WireError Limit
  | infinite => .ok infinite
  | bounded left => if bytes ≤ left then .ok (bounded (left - bytes)) else .error .sizeLimit

/-- The bytes left, if there is a limit. -/
def left? : Limit → Option Nat
  | infinite => none
  | bounded left => some left

theorem charge_infinite (bytes : Nat) : infinite.charge bytes = .ok infinite := rfl

theorem charge_bounded_of_le {bytes left : Nat} (h : bytes ≤ left) :
    (bounded left).charge bytes = .ok (bounded (left - bytes)) := by
  simp [charge, h]

theorem charge_eq_error_iff (limit : Limit) (bytes : Nat) :
    limit.charge bytes = .error .sizeLimit ↔ ∃ left, limit = bounded left ∧ left < bytes := by
  cases limit with
  | infinite => simp [charge]
  | bounded left =>
    by_cases h : bytes ≤ left
    · simp [charge, h]
    · simp [charge, h]
      omega

end Limit

end Cdr
