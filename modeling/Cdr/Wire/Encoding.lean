import Cdr.Representation
import Cdr.Value.Scalar
import Cdr.Wire.ByteOrder
import Cdr.Wire.Error

/-! # Encodings

A representation with a byte order, and the bytes of scalars under it.
-/

namespace Cdr

structure Encoding where
  repr : Representation
  order : ByteOrder
  deriving DecidableEq, Repr

namespace Encoding

/-- The boundary on which a scalar stands. -/
def alignmentOf (e : Encoding) (p : Primitive) : Nat :=
  e.repr.alignmentOf p.size

/-- The bytes of a scalar, which is no character outside of ASCII. -/
def scalarBytes (e : Encoding) (s : Scalar) : List UInt8 :=
  e.order.encode s.primitive.size s.bits

/-- The four bytes of a count or a length. -/
def wordBytes (e : Encoding) (n : Nat) : List UInt8 :=
  e.order.encode Primitive.uint32.size n

/-- The scalar that bytes hold. -/
def readScalar (e : Encoding) (p : Primitive) (bytes : List UInt8) : Except WireError Scalar :=
  let n := e.order.decode bytes
  match p, Scalar.ofBits? p n with
  | _, some s => .ok s
  | .bool, none => .error (.boolByte (UInt8.ofNat n))
  | _, none => .error (.charByte (UInt8.ofNat n))

end Encoding

end Cdr
