import Cdr.Entries
import Cdr.Value.Scalar

/-! # Values

Dynamic instances of the types of a schema. A struct holds its members by name, and an optional
member is absent when it has no entry.
-/

namespace Cdr

inductive Value where
  | scalar (s : Scalar)
  | string (text : String)
  | enumeration (n : Int32)
  /-- A sequence, a list or an array. -/
  | sequence (items : List Value)
  /-- The members by name, names ascending. -/
  | struct (fields : List (String × Value))
  /-- A discriminator with the name and the value of the arm it selects, if it selects one. -/
  | union (discriminator : Int64) (arm : Option (String × Value))
  deriving Repr, Inhabited

namespace Value

/-- What a value is, in the words of an error message. -/
def kindName : Value → String
  | scalar s => s.primitive.idlName
  | string _ => "string"
  | enumeration _ => "enum"
  | sequence _ => "sequence"
  | struct _ => "struct"
  | union _ _ => "union"

/-- The primitive type of a scalar. -/
def primitive? : Value → Option Primitive
  | scalar s => some s.primitive
  | _ => none

def struct? : Value → Option (Entries Value)
  | struct fields => some fields
  | _ => none

def union? : Value → Option (Int64 × Option (String × Value))
  | union discriminator arm => some (discriminator, arm)
  | _ => none

def sequence? : Value → Option (List Value)
  | sequence items => some items
  | _ => none

def string? : Value → Option String
  | string text => some text
  | _ => none

mutual

/-- Equality, that of floating-point numbers for those inside. -/
def same : Value → Value → Bool
  | scalar a, scalar b => a.same b
  | string a, string b => a == b
  | enumeration a, enumeration b => a == b
  | sequence a, sequence b => sameItems a b
  | struct a, struct b => sameFields a b
  | union d a, union e b => d == e && sameArm a b
  | _, _ => false

/-- Equality of sequences, item by item. -/
def sameItems : List Value → List Value → Bool
  | [], [] => true
  | a :: as, b :: bs => same a b && sameItems as bs
  | _, _ => false

/-- Equality of structs, entry by entry. -/
def sameFields : List (String × Value) → List (String × Value) → Bool
  | [], [] => true
  | (name, a) :: as, (other, b) :: bs => name == other && same a b && sameFields as bs
  | _, _ => false

/-- Equality of the arms of unions. -/
def sameArm : Option (String × Value) → Option (String × Value) → Bool
  | none, none => true
  | some (name, a), some (other, b) => name == other && same a b
  | _, _ => false

end

end Value

end Cdr
