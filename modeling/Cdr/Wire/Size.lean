import Cdr.Alignment
import Cdr.Wire.Arm
import Cdr.Wire.Encoding

/-! # Sizes

How many bytes a value takes on the wire. The pass goes over a value as a writer does and counts;
under a limit it fails as soon as the count passes the limit.
-/

namespace Cdr

/-- What is counted, under which representation and up to which limit. -/
structure SizeRules where
  repr : Representation
  limit : Option Nat
  deriving DecidableEq, Repr

structure Tally where
  /-- The position of the next byte, counted from the alignment origin. -/
  position : Nat
  /-- The bytes counted. -/
  total : Nat
  deriving DecidableEq, Repr

abbrev SizeM := StateT Tally (Except WireError)

namespace SizeRules

/-- Counts bytes. -/
def add (rules : SizeRules) (bytes : Nat) : SizeM Unit := fun tally =>
  if rules.limit.any fun limit => limit < tally.total + bytes then .error .sizeLimit
  else .ok ((), ⟨tally.position + bytes, tally.total + bytes⟩)

/-- Counts the bytes up to the next boundary. -/
def pad (rules : SizeRules) (alignment : Nat) : SizeM Unit := do
  let tally ← get
  rules.add (padding tally.position alignment)

def addScalar (rules : SizeRules) (p : Primitive) : SizeM Unit := do
  rules.pad (rules.repr.alignmentOf p.size)
  rules.add p.size

/-- Counts the length in front of a framed body. -/
def addDelimiter (rules : SizeRules) (extensibility : Extensibility) : SizeM Unit :=
  if rules.repr.isDelimited extensibility then rules.addScalar .uint32 else pure ()

end SizeRules

namespace Schema

/-- What a member type is called in an error message. -/
def describe (schema : Schema) : MemberType schema.size → String
  | .primitive p => p.idlName
  | .string _ => "string"
  | .fixedString _ => "string"
  | .sequence _ _ => "sequence"
  | .array _ _ => "sequence"
  | .type i => (schema.get i).full

end Schema

/-- The kind of the first value that is no scalar of the given type. -/
def firstOther? (p : Primitive) (items : List Value) : Option String :=
  (items.find? fun v => v.primitive? != some p).map Value.kindName

/-- Counts elements: a run as one block, all others one by one. -/
def addElements (rules : SizeRules) (each : Value → SizeM Unit) (field : String)
    (run : Option Primitive) (items : List Value) : SizeM Unit :=
  match run with
  | some p =>
    if items.isEmpty then pure ()
    else
      match firstOther? p items with
      | some found => throw (.mismatch field p.idlName found)
      | none => do
        rules.pad (rules.repr.alignmentOf p.size)
        rules.add (p.size * items.length)
  | none => items.forM each

section

variable (schema : Schema) (rules : SizeRules)
  (addType : String → Fin schema.size → Value → SizeM Unit)

/-- Counts the value of a member, where `addType` counts those of declared types. -/
def addValue (field : String) : MemberType schema.size → Value → SizeM Unit
  | .primitive p, v =>
    if v.primitive? = some p then rules.addScalar p
    else throw (.mismatch field p.idlName v.kindName)
  | .string bound, .string text => do
    MonadExcept.ofExcept (checkBound field text.utf8ByteSize bound)
    rules.addScalar .uint32
    rules.add (text.utf8ByteSize + 1)
  | .fixedString capacity, .string text => do
    MonadExcept.ofExcept (checkCapacity field text.utf8ByteSize capacity)
    rules.add capacity.toNat
  | .sequence element bound, .sequence items => do
    MonadExcept.ofExcept (checkBound field items.length bound)
    rules.addScalar .uint32
    addElements rules (addValue field element) field element.blittable? items
  | .array element length, .sequence items => do
    MonadExcept.ofExcept (checkLength field items.length length)
    addElements rules (addValue field element) field element.blittable? items
  | .type i, v => addType field i v
  | type, v => throw (.mismatch field (schema.describe type) v.kindName)

/-- Counts a member of a struct. A present optional member stands behind a header of four bytes. -/
def addMember (typeName : String) (fields : Entries Value) (m : Member schema.size) :
    SizeM Unit :=
  match fields.get? m.name with
  | some v => do
    if m.optional then
      rules.pad 4
      rules.add 4
    addValue schema rules addType m.name m.type v
  | none => if m.optional then pure () else throw (.missingField typeName m.name)

/-- Counts a union: its discriminator and the arm that goes with it. -/
def addUnion (u : UnionType schema.size) (d : Int64) (arm : Option (String × Value)) :
    SizeM Unit := do
  let disc ← MonadExcept.ofExcept (discriminatorValue u.discriminator d)
  addValue schema rules addType u.discriminator.name u.discriminator.type disc
  match ← MonadExcept.ofExcept (activeArm schema u d arm) with
  | some (m, v) => addValue schema rules addType m.name m.type v
  | none => pure ()

end

/-- Counts a value of a declared type that may be `levels` types deep. -/
def addType (schema : Schema) (rules : SizeRules) :
    Nat → String → Fin schema.size → Value → SizeM Unit
  | 0, field, _, _ => throw (.depthExceeded field)
  | levels + 1, field, i, v =>
    let t := schema.get i
    match t.body, v with
    | .struct s, .struct fields => do
      rules.addDelimiter t.extensibility
      s.wireMembers.forM (addMember schema rules (addType schema rules levels) t.full fields)
    | .union u, .union d arm => do
      rules.addDelimiter t.extensibility
      addUnion schema rules (addType schema rules levels) u d arm
    | .enumeration _, .enumeration _ => rules.addScalar .int32
    | _, v => throw (.mismatch field t.full v.kindName)

/-- The bytes of the header in front of a payload. -/
def headerSize : Nat := 4

namespace Schema

variable (schema : Schema)

/-- The bytes that the body of a payload takes when it begins `offset` bytes behind the alignment
    origin. -/
def sizeOf (rules : SizeRules) (i : Fin schema.size) (v : Value) (offset : Nat) :
    Except WireError Nat := do
  let ((), tally) ← addType schema rules maxDepth "" i v ⟨offset, 0⟩
  return tally.total

/-- The bytes that a payload takes with its header. -/
def payloadSize (repr : Representation) (i : Fin schema.size) (v : Value) : Except WireError Nat :=
  do
    let body ← schema.sizeOf ⟨repr, none⟩ i v 0
    return headerSize + body

/-- The bytes that a payload takes with its header, if they are not more than `limit`. -/
def payloadSizeWithin (repr : Representation) (limit : Nat) (i : Fin schema.size) (v : Value) :
    Except WireError Nat :=
  if limit < headerSize then .error .sizeLimit
  else do
    let body ← schema.sizeOf ⟨repr, some (limit - headerSize)⟩ i v 0
    return headerSize + body

end Schema

end Cdr
