/-! # Alignment

Rounding positions up to boundaries. An alignment is a power of two, so both functions work on
the bits below the boundary.
-/

namespace Cdr

/-- The least multiple of `alignment` that is not below `position`. -/
def alignUp (position alignment : Nat) : Nat :=
  let mask := alignment - 1
  (position + mask) - ((position + mask) &&& mask)

/-- The number of bytes between `position` and the next boundary. -/
def padding (position alignment : Nat) : Nat :=
  match position &&& (alignment - 1) with
  | 0 => 0
  | past => alignment - past

theorem and_pred_two_pow (position exponent : Nat) :
    position &&& (1 <<< exponent - 1) = position % 1 <<< exponent := by
  rw [Nat.one_shiftLeft]
  exact Nat.and_two_pow_sub_one_eq_mod position exponent

theorem padding_two_pow (position exponent : Nat) :
    padding position (1 <<< exponent) =
      if position % 1 <<< exponent = 0 then 0 else 1 <<< exponent - position % 1 <<< exponent := by
  rw [padding, and_pred_two_pow]
  cases h : position % 1 <<< exponent <;> simp

theorem alignUp_two_pow (position exponent : Nat) :
    alignUp position (1 <<< exponent) =
      position + (1 <<< exponent - 1) - (position + (1 <<< exponent - 1)) % 1 <<< exponent := by
  simp only [alignUp, and_pred_two_pow]

/-- What is rounded up stands on a boundary. -/
theorem dvd_alignUp (position exponent : Nat) :
    1 <<< exponent ∣ alignUp position (1 <<< exponent) := by
  rw [alignUp_two_pow]
  exact Nat.dvd_sub_mod _

theorem padding_of_dvd {position exponent : Nat} (h : 1 <<< exponent ∣ position) :
    padding position (1 <<< exponent) = 0 := by
  rw [padding_two_pow, if_pos (Nat.mod_eq_zero_of_dvd h)]

/-- Behind the padding stands a boundary. -/
theorem dvd_add_padding (position exponent : Nat) :
    1 <<< exponent ∣ position + padding position (1 <<< exponent) := by
  have hpos : 0 < 1 <<< exponent := by
    rw [Nat.one_shiftLeft]
    exact Nat.two_pow_pos exponent
  have hlt := Nat.mod_lt position hpos
  have hsum := Nat.mod_add_div position (1 <<< exponent)
  rw [padding_two_pow]
  split
  next hzero => exact Nat.dvd_of_mod_eq_zero hzero
  next =>
    refine ⟨position / 1 <<< exponent + 1, ?_⟩
    rw [Nat.mul_succ]
    omega

theorem padding_one (position : Nat) : padding position 1 = 0 := by
  have h := padding_two_pow position 0
  simpa [Nat.mod_one] using h

end Cdr
