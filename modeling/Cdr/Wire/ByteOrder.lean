/-! # Byte order

Numbers as a fixed count of bytes. `decode_encode` and `encode_decode` say that the two directions
undo each other.
-/

namespace Cdr

/-- The lowest `width` bytes of a number, least significant first. -/
def littleBytes : Nat → Nat → List UInt8
  | 0, _ => []
  | width + 1, n => UInt8.ofNat n :: littleBytes width (n / 256)

/-- The number that bytes with the least significant first denote. -/
def ofLittleBytes : List UInt8 → Nat
  | [] => 0
  | b :: bs => b.toNat + 256 * ofLittleBytes bs

inductive ByteOrder where
  | little
  | big
  deriving DecidableEq, Repr

namespace ByteOrder

/-- The lowest `width` bytes of a number. -/
def encode (order : ByteOrder) (width n : Nat) : List UInt8 :=
  match order with
  | little => littleBytes width n
  | big => (littleBytes width n).reverse

/-- The number that bytes denote. -/
def decode (order : ByteOrder) (bytes : List UInt8) : Nat :=
  match order with
  | little => ofLittleBytes bytes
  | big => ofLittleBytes bytes.reverse

theorem length_littleBytes (width n : Nat) : (littleBytes width n).length = width := by
  induction width generalizing n with
  | zero => rfl
  | succ width ih => simp [littleBytes, ih]

theorem shiftLeft_succ_bytes (width : Nat) : 1 <<< (8 * (width + 1)) = 256 * 1 <<< (8 * width) := by
  rw [Nat.mul_succ, Nat.shiftLeft_add]
  omega

theorem ofLittleBytes_littleBytes (width n : Nat) :
    ofLittleBytes (littleBytes width n) = n % 1 <<< (8 * width) := by
  induction width generalizing n with
  | zero => simp [littleBytes, ofLittleBytes, Nat.mod_one]
  | succ width ih =>
    simp only [littleBytes, ofLittleBytes, ih, UInt8.toNat_ofNat']
    rw [shiftLeft_succ_bytes, Nat.mod_mul]

theorem ofLittleBytes_lt (bytes : List UInt8) :
    ofLittleBytes bytes < 1 <<< (8 * bytes.length) := by
  induction bytes with
  | nil => simp [ofLittleBytes]
  | cons b bs ih =>
    have hb : b.toNat < 256 := b.toNat_lt
    simp only [ofLittleBytes, List.length_cons, shiftLeft_succ_bytes]
    omega

theorem littleBytes_ofLittleBytes (bytes : List UInt8) :
    littleBytes bytes.length (ofLittleBytes bytes) = bytes := by
  induction bytes with
  | nil => rfl
  | cons b bs ih =>
    have hb : b.toNat < 256 := b.toNat_lt
    have hdiv : (b.toNat + 256 * ofLittleBytes bs) / 256 = ofLittleBytes bs := by omega
    have hlow : UInt8.ofNat (b.toNat + 256 * ofLittleBytes bs) = b := by
      apply UInt8.toNat_inj.1
      rw [UInt8.toNat_ofNat']
      omega
    simp only [List.length_cons, ofLittleBytes, littleBytes, hdiv, hlow, ih]

theorem length_encode (order : ByteOrder) (width n : Nat) :
    (order.encode width n).length = width := by
  cases order <;> simp [encode, length_littleBytes]

theorem decode_encode (order : ByteOrder) {width n : Nat} (h : n < 1 <<< (8 * width)) :
    order.decode (order.encode width n) = n := by
  cases order <;>
    simp [encode, decode, ofLittleBytes_littleBytes, Nat.mod_eq_of_lt h]

theorem decode_lt (order : ByteOrder) (bytes : List UInt8) :
    order.decode bytes < 1 <<< (8 * bytes.length) := by
  cases order
  · exact ofLittleBytes_lt bytes
  · simpa [decode] using ofLittleBytes_lt bytes.reverse

theorem encode_decode (order : ByteOrder) (bytes : List UInt8) :
    order.encode bytes.length (order.decode bytes) = bytes := by
  cases order
  · exact littleBytes_ofLittleBytes bytes
  · have h := littleBytes_ofLittleBytes bytes.reverse
    rw [List.length_reverse] at h
    simp [encode, decode, h]

end ByteOrder

end Cdr
