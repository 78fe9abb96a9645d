import Cdr.Text.Numeral
import Cdr.Text.Utf8

/-! # Codec errors

What can go wrong when a value is measured, written or read. A `field` is the name of a member,
and empty for the value itself.
-/

namespace Cdr

/-- How many structs, unions and enumerations deep a value may be. -/
def maxDepth : Nat := 100

/-- What a sink refuses. -/
inductive SinkError where
  /-- The bytes do not fit. -/
  | full
  /-- The bytes to replace would begin before the first one. -/
  | beforeStart
  /-- The bytes to replace would reach behind the last one. -/
  | pastEnd
  deriving DecidableEq, Repr

namespace SinkError

def message : SinkError → String
  | full => "failed to write whole buffer"
  | beforeStart => "patch before start"
  | pastEnd => "patch past end"

end SinkError

inductive WireError where
  | sink (fault : SinkError)
  /-- A byte read for a boolean is neither 0 nor 1. -/
  | boolByte (b : UInt8)
  /-- A character to be written is not ASCII. -/
  | wideChar (c : Char)
  /-- A byte read for a character is not ASCII. -/
  | charByte (b : UInt8)
  /-- The first two bytes of a payload name no representation. -/
  | encapsulation (first second : UInt8)
  | utf8 (fault : Text.Utf8Fault)
  | outOfRange
  | sizeLimit
  | truncated (field : String) (offset needed remaining : Nat)
  | boundExceeded (field : String) (count : Nat) (bound : UInt32)
  /-- A read reaches behind the body of a type into bytes that follow it. -/
  | overrun (typeName : String) (stop position : Nat)
  | depthExceeded (field : String)
  | missingField (typeName field : String)
  | mismatch (field expected found : String)
  /-- A union carries another arm than its discriminator selects. -/
  | otherArm (field selected : String)
  /-- A union carries an arm although its discriminator selects none. -/
  | unselectedArm (field : String) (discriminator : Int64)
  | arrayLength (field : String) (expected : UInt32) (found : Nat)
  | fixedStringOverflow (field : String) (capacity : UInt32) (found : Nat)
  deriving DecidableEq, Repr

namespace WireError

/-- The words that say what a field wants and has. -/
def expectation (field expected found : String) : String :=
  "`" ++ field ++ "` expects " ++ expected ++ ", found " ++ found

def message : WireError → String
  | sink fault => fault.message
  | boolByte b => "expected 0 or 1, found " ++ Text.decimal b.toNat
  | wideChar c => "expected char of width 1, found " ++ String.singleton c
  | charByte b => "char is not valid ASCII, found 0x" ++ Text.hexByte b
  | encapsulation first second =>
    "encapsulation [" ++ Text.hexByte first ++ ", " ++ Text.hexByte second ++ "] is not valid"
  | utf8 fault => fault.message
  | outOfRange => "number is out of range"
  | sizeLimit => "the size limit has been reached"
  | truncated field offset needed remaining =>
    "truncated buffer: `" ++ field ++ "` needs " ++ Text.decimal needed ++ " bytes at offset " ++
      Text.decimal offset ++ ", " ++ Text.decimal remaining ++ " remaining"
  | boundExceeded field count bound =>
    "`" ++ field ++ "` holds " ++ Text.decimal count ++ " elements, exceeding its bound of " ++
      Text.decimal bound.toNat
  | overrun typeName stop position =>
    "`" ++ typeName ++ "` body ends at " ++ Text.decimal stop ++ " but reading reached " ++
      Text.decimal position
  | depthExceeded field =>
    "`" ++ field ++ "` nests more than " ++ Text.decimal maxDepth ++ " types deep"
  | missingField typeName field => "missing field `" ++ field ++ "` in `" ++ typeName ++ "`"
  | mismatch field expected found => expectation field expected found
  | otherArm field selected =>
    expectation field ("arm `" ++ selected ++ "`") "another union arm"
  | unselectedArm field discriminator =>
    expectation field ("no arm for discriminator " ++ Text.signedDecimal discriminator.toInt)
      "union arm"
  | arrayLength field expected found =>
    "array `" ++ field ++ "` expects " ++ Text.decimal expected.toNat ++ " elements, found " ++
      Text.decimal found
  | fixedStringOverflow field capacity found =>
    "fixed string `" ++ field ++ "` holds at most " ++ Text.decimal capacity.toNat ++
      " bytes, found " ++ Text.decimal found

/-- Whether a read did not fit into the bytes it had. -/
def isShort : WireError → Bool
  | truncated .. => true
  | overrun .. => true
  | _ => false

end WireError

/-- Checks a count against the bound of a sequence or a string. -/
def checkBound (field : String) (count : Nat) : Option UInt32 → Except WireError Unit
  | none => .ok ()
  | some bound => if bound.toNat < count then .error (.boundExceeded field count bound) else .ok ()

/-- Checks the count of elements of an array. -/
def checkLength (field : String) (found : Nat) (expected : UInt32) : Except WireError Unit :=
  if found = expected.toNat then .ok () else .error (.arrayLength field expected found)

/-- Checks the bytes of a fixed-size string. -/
def checkCapacity (field : String) (found : Nat) (capacity : UInt32) : Except WireError Unit :=
  if capacity.toNat < found then .error (.fixedStringOverflow field capacity found) else .ok ()

theorem checkBound_eq_ok {field : String} {count : Nat} {bound : Option UInt32}
    (h : checkBound field count bound = .ok ()) {most : UInt32} (hbound : bound = some most) :
    count ≤ most.toNat := by
  subst hbound
  by_cases hlt : most.toNat < count
  · rw [checkBound, if_pos hlt] at h
    cases h
  · exact Nat.le_of_not_lt hlt

theorem checkLength_eq_ok {field : String} {found : Nat} {expected : UInt32}
    (h : checkLength field found expected = .ok ()) : found = expected.toNat := by
  by_cases heq : found = expected.toNat
  · exact heq
  · rw [checkLength, if_neg heq] at h
    cases h

theorem checkCapacity_eq_ok {field : String} {found : Nat} {capacity : UInt32}
    (h : checkCapacity field found capacity = .ok ()) : found ≤ capacity.toNat := by
  by_cases hlt : capacity.toNat < found
  · rw [checkCapacity, if_pos hlt] at h
    cases h
  · exact Nat.le_of_not_lt hlt

end Cdr
