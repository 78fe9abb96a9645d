import Cdr.Text.Blank

/-! # Primitive types

The fixed-width scalars with an encoding of their own, the spellings that name them, and the value
types that travel as a fixed run of one of them.
-/

namespace Cdr

inductive Primitive where
  | bool
  | char
  | octet
  | int8
  | int16
  | uint16
  | int32
  | uint32
  | int64
  | uint64
  | float32
  | float64
  deriving DecidableEq, Repr

/-- How values of a type stand on the wire: a run of `size` bytes on an `alignment` boundary that
    holds elements of one primitive. -/
structure WireRun where
  element : Primitive
  size : Nat
  alignment : Nat
  /-- Whether the run is also the memory of the value. -/
  blittable : Bool
  deriving DecidableEq, Repr

namespace Primitive

/-- The width in bytes, on the wire and in memory. -/
def size : Primitive → Nat
  | bool | char | octet | int8 => 1
  | int16 | uint16 => 2
  | int32 | uint32 | float32 => 4
  | int64 | uint64 | float64 => 8

/-- Whether a run of such values may be moved as one block. Booleans and characters may not: each
    of their bytes is checked when it is read. -/
def isBlittable : Primitive → Bool
  | bool | char => false
  | _ => true

/-- Whether the type may be the discriminator of a union. -/
def isIntegral : Primitive → Bool
  | float32 | float64 => false
  | _ => true

def wireRun (p : Primitive) : WireRun :=
  ⟨p, p.size, p.size, p.isBlittable⟩

/-- The name of the type in IDL. -/
def idlName : Primitive → String
  | bool => "boolean"
  | char => "char"
  | octet => "octet"
  | int8 => "int8"
  | int16 => "short"
  | uint16 => "unsigned short"
  | int32 => "long"
  | uint32 => "unsigned long"
  | int64 => "long long"
  | uint64 => "unsigned long long"
  | float32 => "float"
  | float64 => "double"

def all : List Primitive :=
  [bool, char, octet, int8, int16, uint16, int32, uint32, int64, uint64, float32, float64]

/-- The spellings that name the type. `long` and `ulong` name 64-bit integers, as managed runtimes
    have it; the 32-bit integer that IDL calls `long` is `int` or `int32`. -/
def spellings : Primitive → List String
  | bool => ["bool", "boolean", "Boolean"]
  | char => ["char", "char8", "Char"]
  | octet => ["octet", "byte", "uint8", "u8", "Byte"]
  | int8 => ["int8", "sbyte", "i8", "SByte"]
  | int16 => ["short", "int16", "i16", "Int16"]
  | uint16 => ["unsigned short", "ushort", "uint16", "u16", "UInt16"]
  | int32 => ["int", "int32", "i32", "Int32"]
  | uint32 => ["unsigned long", "uint", "uint32", "u32", "UInt32"]
  | int64 => ["long", "long long", "int64", "i64", "Int64"]
  | uint64 => ["unsigned long long", "ulong", "uint64", "u64", "UInt64"]
  | float32 => ["float", "float32", "f32", "Single"]
  | float64 => ["double", "float64", "f64", "Double"]

/-- The primitive that a name spells, blanks around it aside. -/
def ofName? (name : String) : Option Primitive :=
  all.find? fun p => p.spellings.contains (Text.trim name)

theorem mem_all (p : Primitive) : p ∈ all := by
  cases p <;> decide

theorem size_pos (p : Primitive) : 0 < p.size := by
  cases p <;> decide

end Primitive

/-- A value type of a managed runtime that travels as a run of `count` elements. -/
structure ManagedType where
  element : Primitive
  count : UInt32
  /-- Whether the run is also the memory of the value. -/
  blittable : Bool
  deriving DecidableEq, Repr

namespace ManagedType

/-- The value types by the spellings that name them. Dates and spans of time are counts of ticks;
    a date with an offset is the ticks and the offset in minutes. -/
def table : List (List String × ManagedType) :=
  [(["Guid", "System.Guid"], ⟨.octet, 16, true⟩),
    (["DateTime", "System.DateTime"], ⟨.int64, 1, false⟩),
    (["TimeSpan", "System.TimeSpan"], ⟨.int64, 1, false⟩),
    (["DateTimeOffset", "System.DateTimeOffset"], ⟨.int64, 2, false⟩),
    (["Vector2", "System.Numerics.Vector2"], ⟨.float32, 2, true⟩),
    (["Vector3", "System.Numerics.Vector3"], ⟨.float32, 3, true⟩),
    (["Vector4", "System.Numerics.Vector4"], ⟨.float32, 4, true⟩),
    (["Quaternion", "System.Numerics.Quaternion"], ⟨.float32, 4, true⟩),
    (["Matrix4x4", "System.Numerics.Matrix4x4"], ⟨.float32, 16, true⟩)]

/-- The value type that a name spells, blanks around it aside. -/
def ofName? (name : String) : Option ManagedType :=
  (table.find? fun row => row.1.contains (Text.trim name)).map Prod.snd

def wireRun (m : ManagedType) : WireRun :=
  ⟨m.element, m.element.size * m.count.toNat, m.element.size, m.blittable⟩

end ManagedType

namespace WireRun

/-- The run of the primitive or value type that a name spells; `none` for a name of anything else,
    which has a codec of its own. -/
def ofName? (name : String) : Option WireRun :=
  match Primitive.ofName? name with
  | some p => some p.wireRun
  | none => (ManagedType.ofName? name).map ManagedType.wireRun

/-- Whether a name spells a type whose memory is its run. -/
def isBlittableName (name : String) : Bool :=
  (ofName? name).any WireRun.blittable

end WireRun

end Cdr
