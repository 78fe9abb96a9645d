import Cdr.Wire.Reader
import Cdr.Wire.Writer

/-! # Payloads

A body behind the four bytes that name its representation and byte order.
-/

namespace Cdr

/-- The header of a payload. -/
structure Header where
  encoding : Encoding
  options : UInt8 × UInt8
  deriving DecidableEq, Repr

namespace Encoding

/-- The first two bytes of a payload whose type has the given extensibility. -/
def headerId (e : Encoding) (extensibility : Extensibility) : List UInt8 :=
  let scheme : UInt8 := match e.repr with
    | .xcdr1 => 0x00
    | .xcdr2 => if e.repr.isDelimited extensibility then 0x08 else 0x06
  let order : UInt8 := match e.order with
    | .little => 1
    | .big => 0
  [0, scheme + order]

end Encoding

namespace Header

/-- The representation that the second byte of a payload names, if it names one. -/
def representation? (scheme : UInt8) : Option Representation :=
  if scheme = 0x00 ∨ scheme = 0x01 then some .xcdr1
  else if 0x06 ≤ scheme ∧ scheme ≤ 0x09 then some .xcdr2
  else none

/-- Reads the header at the front of bytes. -/
def parse (bytes : List UInt8) : Except WireError Header :=
  match bytes with
  | first :: scheme :: option₁ :: option₂ :: _ =>
    match representation? scheme with
    | some repr =>
      if first = 0 then
        let order := if scheme % 2 = 1 then .little else .big
        .ok ⟨⟨repr, order⟩, (option₁, option₂)⟩
      else .error (.encapsulation first scheme)
    | none => .error (.encapsulation first scheme)
  | _ => .error (.truncated "encapsulation" 0 headerSize bytes.length)

end Header

namespace Schema

variable (schema : Schema)

/-- Writes a payload. Under a limit it is measured first, and nothing is written when it is too
    large or cannot be measured. -/
def serializeInto (e : Encoding) (limit : Limit) (sink : Sink) (i : Fin schema.size) (v : Value) :
    Except WireError Unit × Sink :=
  let measured : Except WireError Unit := match limit with
    | .infinite => .ok ()
    | .bounded left => (schema.payloadSizeWithin e.repr left i v).map fun _ => ()
  match measured with
  | .error fault => (.error fault, sink)
  | .ok () =>
    let header : WriteM Unit := do
      WriteM.emit (e.headerId (schema.get i).extensibility)
      WriteM.emit [0, 0]
    match header.outcome ⟨sink, 0⟩ with
    | (.error fault, w) => (.error fault, w.sink)
    | (.ok (), w) =>
      let (result, sink) := schema.encode e w.sink i v 0
      (result.map fun _ => (), sink)

/-- The bytes of a payload, which is measured first. -/
def serialize (e : Encoding) (limit : Limit) (i : Fin schema.size) (v : Value) :
    Except WireError (Array UInt8) := do
  let _ ← match limit with
    | .infinite => schema.payloadSize e.repr i v
    | .bounded left => schema.payloadSizeWithin e.repr left i v
  let (result, sink) := schema.serializeInto e .infinite (.appendingTo #[]) i v
  result.map fun _ => sink.bytes

/-- Reads a payload as its header says. -/
def deserialize (limit : Limit) (i : Fin schema.size) (bytes : Array UInt8) : Reading Value :=
  let opened : Except WireError (Header × Limit) := do
    let header ← Header.parse (bytes.extract 0 headerSize).toList
    let limit ← limit.charge headerSize
    return (header, limit)
  match opened with
  | .error fault => ⟨.error fault, []⟩
  | .ok (header, limit) =>
    let src := ⟨bytes.extract headerSize bytes.size, header.encoding, 0⟩
    let reading := schema.decode src i limit
    ⟨reading.result.map Prod.fst, reading.events⟩

end Schema

end Cdr
