import Cdr.Primitive

/-! # Scalars

The values of the primitive types, the bit pattern of each, and their use as the discriminator of
a union. Floating-point numbers are kept as their bits, so that no sign or payload of a NaN is
lost.
-/

namespace Cdr

inductive Scalar where
  | bool (b : Bool)
  | char (c : Char)
  | octet (n : UInt8)
  | int8 (n : Int8)
  | int16 (n : Int16)
  | uint16 (n : UInt16)
  | int32 (n : Int32)
  | uint32 (n : UInt32)
  | int64 (n : Int64)
  | uint64 (n : UInt64)
  | float32 (bits : UInt32)
  | float64 (bits : UInt64)
  deriving DecidableEq, Repr

namespace Scalar

/-- The type of a scalar. -/
def primitive : Scalar → Primitive
  | bool _ => .bool
  | char _ => .char
  | octet _ => .octet
  | int8 _ => .int8
  | int16 _ => .int16
  | uint16 _ => .uint16
  | int32 _ => .int32
  | uint32 _ => .uint32
  | int64 _ => .int64
  | uint64 _ => .uint64
  | float32 _ => .float32
  | float64 _ => .float64

/-- The bits of a scalar as an unsigned number. -/
def bits : Scalar → Nat
  | bool b => b.toNat
  | char c => c.toNat
  | octet n => n.toNat
  | int8 n => n.toUInt8.toNat
  | int16 n => n.toUInt16.toNat
  | uint16 n => n.toNat
  | int32 n => n.toUInt32.toNat
  | uint32 n => n.toNat
  | int64 n => n.toUInt64.toNat
  | uint64 n => n.toNat
  | float32 n => n.toNat
  | float64 n => n.toNat

/-- The scalar with the given bits. A boolean is 0 or 1, and a character is ASCII. -/
def ofBits? (p : Primitive) (n : Nat) : Option Scalar :=
  match p with
  | .bool => if n = 0 then some (bool false) else if n = 1 then some (bool true) else none
  | .char => if n < 0x80 then some (char (Char.ofNat n)) else none
  | .octet => some (octet (UInt8.ofNat n))
  | .int8 => some (int8 (UInt8.ofNat n).toInt8)
  | .int16 => some (int16 (UInt16.ofNat n).toInt16)
  | .uint16 => some (uint16 (UInt16.ofNat n))
  | .int32 => some (int32 (UInt32.ofNat n).toInt32)
  | .uint32 => some (uint32 (UInt32.ofNat n))
  | .int64 => some (int64 (UInt64.ofNat n).toInt64)
  | .uint64 => some (uint64 (UInt64.ofNat n))
  | .float32 => some (float32 (UInt32.ofNat n))
  | .float64 => some (float64 (UInt64.ofNat n))

/-- The character of a scalar that has no wire form, which only a character outside of ASCII is. -/
def wideChar? : Scalar → Option Char
  | char c => if c.toNat < 0x80 then none else some c
  | _ => none

/-- The value of a type when nothing gives it another. -/
def zero : Primitive → Scalar
  | .bool => bool false
  | .char => char '\x00'
  | .octet => octet 0
  | .int8 => int8 0
  | .int16 => int16 0
  | .uint16 => uint16 0
  | .int32 => int32 0
  | .uint32 => uint32 0
  | .int64 => int64 0
  | .uint64 => uint64 0
  | .float32 => float32 0
  | .float64 => float64 0

/-- Whether two numbers given by their bits are equal as floating-point numbers whose infinity has
    the bits `infinity` and whose sign is the bit of weight `sign`: a NaN equals nothing, and the
    two zeros are equal. -/
def floatBitsEq (infinity sign a b : Nat) : Bool :=
  let magnitude (n : Nat) := n % sign
  magnitude a ≤ infinity && magnitude b ≤ infinity &&
    (a == b || (magnitude a == 0 && magnitude b == 0))

/-- Equality, that of floating-point numbers for two of them. -/
def same : Scalar → Scalar → Bool
  | float32 a, float32 b => floatBitsEq 0x7f800000 0x80000000 a.toNat b.toNat
  | float64 a, float64 b => floatBitsEq 0x7ff0000000000000 0x8000000000000000 a.toNat b.toNat
  | a, b => a == b

/-- The discriminator `d` as a scalar of the type `p`; `none` outside of its range. An unsigned
    64-bit discriminator carries the bits of `d`. -/
def ofDiscriminator? (p : Primitive) (d : Int64) : Option Scalar :=
  let within (low high : Int) (s : Scalar) : Option Scalar :=
    if low ≤ d.toInt ∧ d.toInt ≤ high then some s else none
  match p with
  | .bool => within 0 1 (bool (d = 1))
  | .char => within 0 0x7f (char (Char.ofNat d.toInt.toNat))
  | .octet => within 0 0xff (octet d.toUInt64.toUInt8)
  | .int8 => within (-0x80) 0x7f (int8 d.toInt8)
  | .int16 => within (-0x8000) 0x7fff (int16 d.toInt16)
  | .uint16 => within 0 0xffff (uint16 d.toUInt64.toUInt16)
  | .int32 => within (-0x80000000) 0x7fffffff (int32 d.toInt32)
  | .uint32 => within 0 0xffffffff (uint32 d.toUInt64.toUInt32)
  | .int64 => some (int64 d)
  | .uint64 => some (uint64 d.toUInt64)
  | .float32 | .float64 => none

/-- The discriminator a scalar stands for; floating-point numbers stand for none. -/
def discriminator? : Scalar → Option Int64
  | bool b => some (if b then 1 else 0)
  | char c => some (Int64.ofNat c.toNat)
  | octet n => some n.toUInt64.toInt64
  | int8 n => some n.toInt64
  | int16 n => some n.toInt64
  | uint16 n => some n.toUInt64.toInt64
  | int32 n => some n.toInt64
  | uint32 n => some n.toUInt64.toInt64
  | int64 n => some n
  | uint64 n => some n.toInt64
  | float32 _ | float64 _ => none

theorem primitive_zero (p : Primitive) : (zero p).primitive = p := by
  cases p <;> rfl

theorem primitive_of_ofBits? {p : Primitive} {n : Nat} {s : Scalar} (h : ofBits? p n = some s) :
    s.primitive = p := by
  cases p with
  | bool =>
    simp only [ofBits?] at h
    split at h
    · cases h
      rfl
    · split at h
      · cases h
        rfl
      · cases h
  | char =>
    simp only [ofBits?] at h
    split at h
    · cases h
      rfl
    · cases h
  | _ =>
    cases h
    rfl

end Scalar

end Cdr
