import Cdr.Alignment
import Cdr.Wire.Arm
import Cdr.Wire.Encoding
import Cdr.Wire.Event
import Cdr.Wire.Limit

/-! # Reading

Bytes as values. The body of a framed type narrows the end of what may be read until the body is
done; members that the body does not reach take their defaults, and what it holds beyond the known
members is skipped. An optional member stands where a header with its id is followed by a value of
exactly the announced length, and otherwise the reader goes back.
-/

namespace Cdr

/-- The bytes that are read. The first one lies `origin` bytes behind the alignment origin. -/
structure Source where
  bytes : Array UInt8
  encoding : Encoding
  origin : Nat
  deriving Repr

/-- Where a reader stands. -/
structure Cursor where
  position : Nat
  /-- The end of the innermost framed body, or of the bytes. -/
  stop : Nat
  /-- The type whose body ends at `stop`. -/
  owner : Option String
  /-- The furthest position that was charged to the limit. -/
  highWater : Nat
  limit : Limit
  /-- What happened, latest first. -/
  events : List Event
  deriving Repr

namespace Cursor

/-- The bytes left before the end of the innermost framed body. -/
def remaining (c : Cursor) : Nat :=
  c.stop - c.position

end Cursor

abbrev ReadM := EStateM WireError Cursor

namespace ReadM

/-- Charges the bytes behind the furthest position so far to the limit. -/
def charge : ReadM Unit := fun c =>
  if c.highWater < c.position then
    match c.limit.charge (c.position - c.highWater) with
    | .ok limit => .ok () { c with limit, highWater := c.position }
    | .error fault => .error fault c
  else .ok () c

/-- Whether the innermost framed body is consumed. -/
def atEnd : ReadM Bool := do
  let c ← get
  return c.stop ≤ c.position

def report (event : Event) : ReadM Unit :=
  modify fun c => { c with events := event :: c.events }

end ReadM

open ReadM

namespace Source

/-- The error of a read that does not fit: it overruns the body of a type when the bytes behind
    that body could serve it, and otherwise the bytes are truncated. -/
def shortRead (src : Source) (c : Cursor) (field : String) (size : Nat) : WireError :=
  match c.owner with
  | some typeName =>
    if size ≤ src.bytes.size - c.position then .overrun typeName c.stop (c.position + size)
    else .truncated field c.position size c.remaining
  | none => .truncated field c.position size c.remaining

/-- Reads bytes. -/
def take (src : Source) (field : String) (size : Nat) : ReadM (List UInt8) := do
  let c ← get
  if c.remaining < size then throw (src.shortRead c field size)
  else
    set { c with position := c.position + size }
    charge
    return (src.bytes.extract c.position (c.position + size)).toList

/-- Reads the bytes up to the next boundary, whatever they hold. -/
def skipPadding (src : Source) (field : String) (alignment : Nat) : ReadM Unit := do
  let c ← get
  let _ ← src.take field (padding (src.origin + c.position) alignment)

/-- Reads a scalar. -/
def scalar (src : Source) (field : String) (p : Primitive) : ReadM Scalar := do
  src.skipPadding field (src.encoding.alignmentOf p)
  let bytes ← src.take field p.size
  MonadExcept.ofExcept (src.encoding.readScalar p bytes)

/-- Reads a count, a length or a header. -/
def word (src : Source) (field : String) : ReadM Nat := do
  src.skipPadding field (src.encoding.alignmentOf .uint32)
  let bytes ← src.take field Primitive.uint32.size
  return src.encoding.order.decode bytes

/-- The scalars that stand one behind the other. -/
def scalars (e : Encoding) (p : Primitive) : Nat → List UInt8 → Except WireError (List Value)
  | 0, _ => .ok []
  | count + 1, bytes => do
    let s ← e.readScalar p (bytes.take p.size)
    let rest ← scalars e p count (bytes.drop p.size)
    return .scalar s :: rest

/-- Reads as many values as asked for, behind those in `rev`, which holds the latest first. -/
def many (each : ReadM Value) : Nat → List Value → ReadM (List Value)
  | 0, rev => return rev.reverse
  | count + 1, rev => do
    let v ← each
    many each count (v :: rev)

/-- Reads elements: a run as one block, all others one by one. -/
def elements (src : Source) (each : ReadM Value) (field : String) (run : Option Primitive)
    (count : Nat) : ReadM Value := do
  match run with
  | some p =>
    if count = 0 then return .sequence []
    else
      src.skipPadding field (src.encoding.alignmentOf p)
      let bytes ← src.take field (count * p.size)
      let items ← MonadExcept.ofExcept (scalars src.encoding p count bytes)
      return .sequence items
  | none =>
    let items ← many each count []
    return .sequence items

/-- Reads the text that bytes hold. -/
def text (bytes : List UInt8) : ReadM Value :=
  match Text.readUtf8 bytes with
  | .ok text => return .string text
  | .error fault => throw (.utf8 fault)

end Source

/-- The bytes without the zero they may end with. -/
def dropTerminator (bytes : List UInt8) : List UInt8 :=
  if bytes.getLast? = some 0 then bytes.dropLast else bytes

namespace MemberType

variable {n : Nat}

/-- The fewest bytes of a value besides padding, given those of every type. -/
def minSizeWith (ofType : Fin n → Nat) : MemberType n → Nat
  | primitive p => p.size
  | string _ => 4
  | fixedString capacity => capacity.toNat
  | sequence _ _ => 4
  | array element length => element.minSizeWith ofType * length.toNat
  | type index => ofType index

end MemberType

namespace Schema

/-- The fewest bytes of a value of a declared type that holds others at most `levels` deep.
    Optional members and the arms of unions may be away, and a framed body may be empty. -/
def minSizeWithin (schema : Schema) (repr : Representation) : Nat → Fin schema.size → Nat
  | 0, _ => 0
  | levels + 1, i =>
    let t := schema.get i
    let ofMember (m : Member schema.size) := m.type.minSizeWith (schema.minSizeWithin repr levels)
    if repr.isDelimited t.extensibility then 4
    else
      match t.body with
      | .struct s => ((s.members.filter fun m => !m.optional).map ofMember).foldr (· + ·) 0
      | .union u => ofMember u.discriminator
      | .enumeration _ => 4

/-- The fewest bytes of a value, padding aside. -/
def minSize (schema : Schema) (repr : Representation) (type : MemberType schema.size) : Nat :=
  type.minSizeWith (schema.minSizeWithin repr schema.size)

end Schema

/-- The greatest count of bytes that is told apart. -/
def maxByteCount : Nat := 0xffffffffffffffff

/-- The extent of a framed body that is read, and of what lies around it. -/
structure Frame where
  stop : Nat
  outerStop : Nat
  outerOwner : Option String
  deriving Repr

section

variable (schema : Schema) (src : Source)

/-- Refuses a count of elements that what is left cannot hold. Elements that may take no bytes count
    as one byte each. -/
def checkCount (field : String) (element : MemberType schema.size) (count : Nat) : ReadM Unit := do
  let c ← get
  let each := max (schema.minSize src.encoding.repr element) 1
  let needed := min (count * each) maxByteCount
  if c.remaining < needed then throw (.truncated field c.position needed c.remaining)
  else pure ()

/-- Reads the length of a body and narrows what may be read to it, when the type is framed. -/
def openFrame (typeName : String) (extensibility : Extensibility) : ReadM (Option Frame) := do
  if src.encoding.repr.isDelimited extensibility then
    let length ← src.word typeName
    let c ← get
    if c.remaining < length then throw (.truncated typeName c.position length c.remaining)
    else
      let stop := c.position + length
      set { c with stop, owner := some typeName }
      return some ⟨stop, c.stop, c.owner⟩
  else return none

/-- Skips what a body holds beyond the known members and widens the end again. -/
def closeFrame (typeName : String) : Option Frame → ReadM Unit
  | none => pure ()
  | some frame => do
    let c ← get
    if frame.stop < c.position then throw (.overrun typeName frame.stop c.position)
    else
      if c.position < frame.stop then
        report (.skipped (frame.stop - c.position) typeName)
        modify fun c => { c with position := frame.stop }
        charge
      modify fun c => { c with stop := frame.outerStop, owner := frame.outerOwner }

end

section

variable (schema : Schema) (src : Source) (readType : String → Fin schema.size → ReadM Value)

/-- Reads the value of a member, where `readType` reads those of declared types. -/
def readValue (field : String) : MemberType schema.size → ReadM Value
  | .primitive p => do
    let s ← src.scalar field p
    return .scalar s
  | .string bound => do
    let count ← src.word field
    if count = 0 then return .string ""
    else
      MonadExcept.ofExcept (checkBound field (count - 1) bound)
      let bytes ← src.take field count
      Source.text (dropTerminator bytes)
  | .fixedString capacity => do
    let bytes ← src.take field capacity.toNat
    Source.text (bytes.takeWhile (· != 0))
  | .sequence element bound => do
    let count ← src.word field
    MonadExcept.ofExcept (checkBound field count bound)
    checkCount schema src field element count
    src.elements (readValue field element) field element.blittable? count
  | .array element length =>
    src.elements (readValue field element) field element.blittable? length.toNat
  | .type i => readType field i

/-- Reads a member with the end narrowed to `stop`. A value that does not end exactly there, or
    does not fit, is none. -/
def readWithin (m : Member schema.size) (stop : Nat) : ReadM (Option Value) := fun c =>
  match readValue schema src readType m.name m.type { c with stop } with
  | .ok v after =>
    .ok (if after.position = stop then some v else none)
      { after with stop := c.stop, owner := c.owner }
  | .error fault after =>
    let after := { after with stop := c.stop, owner := c.owner }
    if fault.isShort then .ok none after else .error fault after

/-- Reads the header of an optional member and the value behind it, if they stand here. -/
def readPresent (m : Member schema.size) : ReadM (Option Value) := do
  let mark := (← get).position
  let start := mark + padding (src.origin + mark) 4
  if start + 4 ≤ (← get).stop then
    let header ← src.word m.name
    let length := header / 8
    let c ← get
    if header % 8 = m.id.toNat % 8 && length ≤ c.remaining then
      readWithin schema src readType m (c.position + length)
    else return none
  else return none

/-- Reads an optional member. When it is absent, the reader stands where it stood. -/
def readOptional (m : Member schema.size) : ReadM (Option Value) := do
  let mark := (← get).position
  match ← readPresent schema src readType m with
  | some v => return some v
  | none =>
    modify fun c => { c with position := mark }
    report (.absent m.name mark)
    return none

/-- Reads members into the fields of a struct. Those that a framed body does not reach take their
    defaults, or stay away when they are optional. -/
def readMembers (framed : Bool) : List (Member schema.size) → Entries Value → ReadM (Entries Value)
  | [], fields => return fields
  | m :: rest, fields => do
    if framed && (← atEnd) then
      let fields := if m.optional then fields else fields.insert m.name (schema.default m.type)
      readMembers framed rest fields
    else if m.optional then
      match ← readOptional schema src readType m with
      | some v => readMembers framed rest (fields.insert m.name v)
      | none => readMembers framed rest fields
    else
      let v ← readValue schema src readType m.name m.type
      readMembers framed rest (fields.insert m.name v)

/-- Reads a struct. -/
def readStruct (typeName : String) (extensibility : Extensibility) (s : StructType schema.size) :
    ReadM Value := do
  let frame ← openFrame src typeName extensibility
  let fields ← readMembers schema src readType frame.isSome s.wireMembers []
  closeFrame typeName frame
  return .struct fields

/-- Reads the arm that a discriminator selects. -/
def readArm (typeName : String) (framed : Bool) (u : UnionType schema.size) (d : Int64) :
    ReadM (Option (String × Value)) := do
  match u.select d with
  | some arm =>
    let m := arm.member
    if framed && (← atEnd) then return some (m.name, schema.default m.type)
    else
      let v ← readValue schema src readType m.name m.type
      return some (m.name, v)
  | none =>
    report (.noArm d typeName)
    return none

/-- Reads a union. An empty body stands for the discriminator 0 and no arm. -/
def readUnion (typeName : String) (extensibility : Extensibility) (u : UnionType schema.size) :
    ReadM Value := do
  let frame ← openFrame src typeName extensibility
  if frame.isSome && (← atEnd) then
    closeFrame typeName frame
    return .union 0 none
  else
    let m := u.discriminator
    let disc ← readValue schema src readType m.name m.type
    match discriminatorOf? disc with
    | some d =>
      let arm ← readArm schema src readType typeName frame.isSome u d
      closeFrame typeName frame
      return .union d arm
    | none => throw (.mismatch m.name "discriminator" disc.kindName)

end

/-- Reads a value of a declared type that may be `levels` types deep. -/
def readType (schema : Schema) (src : Source) : Nat → String → Fin schema.size → ReadM Value
  | 0, field, _ => throw (.depthExceeded field)
  | levels + 1, field, i =>
    let t := schema.get i
    match t.body with
    | .struct s => readStruct schema src (readType schema src levels) t.full t.extensibility s
    | .union u => readUnion schema src (readType schema src levels) t.full t.extensibility u
    | .enumeration _ => do
      match ← src.scalar field .int32 with
      | .int32 n => return .enumeration n
      | s => throw (.mismatch field "long" s.primitive.idlName)

/-- A result with what happened on the way to it. -/
structure Reading (α : Type) where
  result : Except WireError α
  events : List Event

namespace ReadM

/-- The result of a read, and the cursor it leaves. -/
def outcome {α : Type} (m : ReadM α) (c : Cursor) : Except WireError α × Cursor :=
  match m.run c with
  | .ok a c => (.ok a, c)
  | .error fault c => (.error fault, c)

end ReadM

namespace Source

/-- The cursor at the first byte. -/
def start (src : Source) (limit : Limit) : Cursor :=
  ⟨0, src.bytes.size, none, 0, limit, []⟩

end Source

namespace Schema

variable (schema : Schema) (src : Source)

/-- Reads a value of a declared type for a field. -/
def read (field : String) (i : Fin schema.size) : ReadM Value :=
  readType schema src maxDepth field i

/-- Reads a value of any type that a member may have. -/
def readMemberValue (field : String) (type : MemberType schema.size) : ReadM Value :=
  readValue schema src (readType schema src maxDepth) field type

/-- Reads the body of a payload, and counts the bytes it takes. What follows it is left alone. -/
def decode (i : Fin schema.size) (limit : Limit) : Reading (Value × Nat) :=
  let (result, c) := (schema.read src "" i).outcome (src.start limit)
  ⟨result.map fun v => (v, c.position), c.events.reverse⟩

end Schema

end Cdr
