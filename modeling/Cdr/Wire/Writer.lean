import Cdr.Wire.Sink
import Cdr.Wire.Size

/-! # Writing

Values as bytes. The length of a framed body and the header of an optional member are written as
zeros first and replaced when what stands behind them is complete. After an error the sink holds
what was written up to it.
-/

namespace Cdr

structure Writer where
  sink : Sink
  /-- The position of the next byte, counted from the alignment origin. It counts the writes that
      were completed. -/
  position : Nat
  deriving DecidableEq, Repr

abbrev WriteM := EStateM WireError Writer

namespace WriteM

/-- Writes bytes at the head of the sink. -/
def emit (bytes : List UInt8) : WriteM Unit := fun ⟨sink, position⟩ =>
  match sink.write bytes with
  | (sink, none) => .ok () ⟨sink, position + bytes.length⟩
  | (sink, some fault) => .error (.sink fault) ⟨sink, position⟩

/-- Replaces the bytes that begin `back` bytes before the head. -/
def patch (back : Nat) (bytes : List UInt8) : WriteM Unit := fun ⟨sink, position⟩ =>
  match sink.patch back bytes with
  | (sink, none) => .ok () ⟨sink, position⟩
  | (sink, some fault) => .error (.sink fault) ⟨sink, position⟩

def position : WriteM Nat := do
  return (← get).position

/-- Writes zeros up to the next boundary. -/
def pad (alignment : Nat) : WriteM Unit := do
  let zeros := padding (← position) alignment
  if 0 < zeros then emit (List.replicate zeros 0) else pure ()

end WriteM

open WriteM

namespace Encoding

/-- Writes a count or a length. -/
def writeWord (e : Encoding) (n : Nat) : WriteM Unit := do
  pad (e.alignmentOf .uint32)
  emit (e.wordBytes n)

/-- Writes a count, which has to fit into 32 bits. -/
def writeCount (e : Encoding) (n : Nat) : WriteM Unit :=
  if n < 0x100000000 then e.writeWord n else throw .outOfRange

/-- Writes a scalar of the given type. -/
def writeScalar (e : Encoding) (field : String) (p : Primitive) (v : Value) : WriteM Unit := do
  pad (e.alignmentOf p)
  match v with
  | .scalar s =>
    if s.primitive = p then
      match s.wideChar? with
      | some c => throw (.wideChar c)
      | none => emit (e.scalarBytes s)
    else throw (.mismatch field p.idlName v.kindName)
  | v => throw (.mismatch field p.idlName v.kindName)

/-- The bytes of a run that are written at once. -/
def chunkSize : Nat := 256

/-- Writes the scalars of a run behind those staged in `chunk`, a full chunk at a time. -/
def writeRun (e : Encoding) (field : String) (p : Primitive) (chunk : List UInt8) :
    List Value → WriteM Unit
  | [] => if chunk.isEmpty then pure () else emit chunk
  | v :: vs =>
    match v with
    | .scalar s =>
      if s.primitive = p then
        let chunk := chunk ++ e.scalarBytes s
        if chunk.length < chunkSize then e.writeRun field p chunk vs
        else do
          emit chunk
          e.writeRun field p [] vs
      else throw (.mismatch field p.idlName v.kindName)
    | v => throw (.mismatch field p.idlName v.kindName)

/-- Writes elements: a run without padding between them, all others one by one. -/
def writeElements (e : Encoding) (each : Value → WriteM Unit) (field : String)
    (run : Option Primitive) (items : List Value) : WriteM Unit :=
  match run with
  | some p =>
    if items.isEmpty then pure ()
    else do
      pad (e.alignmentOf p)
      e.writeRun field p [] items
  | none => items.forM each

/-- Writes a body, behind its length when the type is framed. -/
def writeDelimited (e : Encoding) (extensibility : Extensibility) (body : WriteM Unit) :
    WriteM Unit :=
  if e.repr.isDelimited extensibility then do
    e.writeWord 0
    let start ← position
    body
    let length := (← position) - start
    if length < 0x100000000 then patch (length + 4) (e.wordBytes length) else throw .outOfRange
  else body

/-- Writes the value of an optional member behind a header, which holds the length of the value
    and the lowest three bits of the member id. -/
def writeOptional (e : Encoding) (id : UInt32) (value : WriteM Unit) : WriteM Unit := do
  e.writeWord 0
  let start ← position
  value
  let length := (← position) - start
  if length < 0x20000000 then patch (length + 4) (e.wordBytes (length * 8 + id.toNat % 8))
  else throw .outOfRange

end Encoding

section

variable (schema : Schema) (e : Encoding)
  (writeType : String → Fin schema.size → Value → WriteM Unit)

/-- Writes the value of a member, where `writeType` writes those of declared types. -/
def writeValue (field : String) : MemberType schema.size → Value → WriteM Unit
  | .primitive p, v => e.writeScalar field p v
  | .string bound, .string text => do
    MonadExcept.ofExcept (checkBound field text.utf8ByteSize bound)
    e.writeCount (text.utf8ByteSize + 1)
    emit (Text.utf8 text)
    emit [0]
  | .fixedString capacity, .string text => do
    MonadExcept.ofExcept (checkCapacity field text.utf8ByteSize capacity)
    emit (Text.utf8 text)
    let zeros := capacity.toNat - text.utf8ByteSize
    if 0 < zeros then emit (List.replicate zeros 0) else pure ()
  | .sequence element bound, .sequence items => do
    MonadExcept.ofExcept (checkBound field items.length bound)
    e.writeCount items.length
    e.writeElements (writeValue field element) field element.blittable? items
  | .array element length, .sequence items => do
    MonadExcept.ofExcept (checkLength field items.length length)
    e.writeElements (writeValue field element) field element.blittable? items
  | .type i, v => writeType field i v
  | type, v => throw (.mismatch field (schema.describe type) v.kindName)

/-- Writes a member of a struct. -/
def writeMember (typeName : String) (fields : Entries Value) (m : Member schema.size) :
    WriteM Unit :=
  match fields.get? m.name with
  | some v =>
    let value := writeValue schema e writeType m.name m.type v
    if m.optional then e.writeOptional m.id value else value
  | none => if m.optional then pure () else throw (.missingField typeName m.name)

/-- Writes the discriminator of a union and the arm that goes with it. -/
def writeUnion (u : UnionType schema.size) (d : Int64) (arm : Option (String × Value)) :
    WriteM Unit := do
  let disc ← MonadExcept.ofExcept (discriminatorValue u.discriminator d)
  writeValue schema e writeType u.discriminator.name u.discriminator.type disc
  match ← MonadExcept.ofExcept (activeArm schema u d arm) with
  | some (m, v) => writeValue schema e writeType m.name m.type v
  | none => pure ()

end

/-- Writes a value of a declared type that may be `levels` types deep. -/
def writeType (schema : Schema) (e : Encoding) :
    Nat → String → Fin schema.size → Value → WriteM Unit
  | 0, field, _, _ => throw (.depthExceeded field)
  | levels + 1, field, i, v =>
    let t := schema.get i
    match t.body, v with
    | .struct s, .struct fields =>
      e.writeDelimited t.extensibility
        (s.wireMembers.forM (writeMember schema e (writeType schema e levels) t.full fields))
    | .union u, .union d arm =>
      e.writeDelimited t.extensibility (writeUnion schema e (writeType schema e levels) u d arm)
    | .enumeration _, .enumeration n => e.writeScalar field .int32 (.scalar (.int32 n))
    | _, v => throw (.mismatch field t.full v.kindName)

/-- The result of a write, and the writer it leaves. -/
def WriteM.outcome {α : Type} (m : WriteM α) (w : Writer) : Except WireError α × Writer :=
  match m.run w with
  | .ok a w => (.ok a, w)
  | .error fault w => (.error fault, w)

namespace Schema

variable (schema : Schema) (e : Encoding)

/-- Writes a value of a declared type for a field. -/
def write (field : String) (i : Fin schema.size) (v : Value) : WriteM Unit :=
  writeType schema e maxDepth field i v

/-- Writes a value of any type that a member may have. -/
def writeMemberValue (field : String) (type : MemberType schema.size) (v : Value) : WriteM Unit :=
  writeValue schema e (writeType schema e maxDepth) field type v

/-- Writes the body of a payload that begins `offset` bytes behind the alignment origin, and counts
    its bytes. -/
def encode (sink : Sink) (i : Fin schema.size) (v : Value) (offset : Nat) :
    Except WireError Nat × Sink :=
  let (result, w) := (schema.write e "" i v).outcome ⟨sink, offset⟩
  (result.map fun _ => w.position - offset, w.sink)

end Schema

end Cdr
