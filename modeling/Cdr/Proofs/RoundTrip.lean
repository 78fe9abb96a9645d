import Cdr.Proofs.ImageOrder
import Cdr.Proofs.ReadAcross
import Cdr.Schema.Compile
import Cdr.Wire.Payload

/-! # Round trip

A canonical value comes back from the bytes it is written as, and from its payload in either byte
order.
-/

namespace Cdr

open SizeRules

/-- The bytes in front of the body of a payload. -/
def Encoding.header (e : Encoding) (extensibility : Extensibility) : List UInt8 :=
  e.headerId extensibility ++ [0, 0]

namespace Header

/-- The header of a payload names its encoding. -/
theorem parse_header (e : Encoding) (extensibility : Extensibility) :
    Header.parse (e.header extensibility) = .ok ⟨e, (0, 0)⟩ := by
  obtain ⟨repr, order⟩ := e
  cases repr <;> cases extensibility <;> cases order <;> decide

theorem length_header (e : Encoding) (extensibility : Extensibility) :
    (e.header extensibility).length = headerSize := rfl

theorem run_emit (bytes : Array UInt8) (chunk : List UInt8) (position : Nat) :
    (WriteM.emit chunk).run ⟨.appendingTo bytes, position⟩ =
      .ok () ⟨.appendingTo (bytes ++ chunk), position + chunk.length⟩ := rfl

theorem outcome_writeHeader (e : Encoding) (extensibility : Extensibility) :
    WriteM.outcome (do WriteM.emit (e.headerId extensibility); WriteM.emit [0, 0])
      ⟨.appendingTo #[], 0⟩ =
        (.ok (), ⟨.appendingTo (e.header extensibility).toArray, headerSize⟩) := by
  simp only [WriteM.outcome, EStateM.run_bind, run_emit]
  rfl

end Header

namespace Schema

variable (schema : Schema) (e : Encoding) (i : Fin schema.size) (v : Value)

/-- A value with an image is serialized as its header with its image behind it. -/
theorem serialize_of_image {b : List UInt8} (himage : schema.image e i v 0 = .ok b) :
    schema.serialize e .infinite i v =
      .ok (e.header (schema.get i).extensibility ++ b).toArray := by
  have hsize : schema.payloadSize e.repr i v = .ok (headerSize + b.length) := by
    have h := schema.sizeOf_of_image e i v himage
    unfold payloadSize
    rw [show schema.sizeOf ⟨e.repr, none⟩ i v 0 = .ok b.length from h]
    rfl
  have hencode := schema.encode_of_image e i v (e.header (schema.get i).extensibility).toArray
    himage
  have hbytes : (e.header (schema.get i).extensibility).toArray ++ b =
      (e.header (schema.get i).extensibility ++ b).toArray := by
    apply Array.toList_inj.1
    simp
  simp only [serialize, serializeInto, hsize, Header.outcome_writeHeader, hencode, hbytes]
  rfl

/-- A payload is read from behind its header, in the encoding that this names. -/
theorem deserialize_payload (extensibility : Extensibility) (b : List UInt8) :
    (schema.deserialize .infinite i (e.header extensibility ++ b).toArray).result =
      (schema.decode ⟨b.toArray, e, 0⟩ i .infinite).result.map Prod.fst := by
  have hlength := Header.length_header e extensibility
  have hfront : ((e.header extensibility ++ b).toArray.extract 0 headerSize).toList =
      e.header extensibility := by
    rw [Array.toList_extract, List.extract_eq_take_drop, List.drop_zero]
    exact List.take_left' hlength
  have hback : (e.header extensibility ++ b).toArray.extract headerSize
      (e.header extensibility ++ b).toArray.size = b.toArray := by
    apply Array.toList_inj.1
    rw [Array.toList_extract, List.extract_eq_take_drop, List.drop_left' hlength]
    apply List.take_of_length_le
    rw [List.size_toArray, List.length_append, hlength, Nat.add_sub_cancel_left]
  simp only [deserialize, hfront, hback, Header.parse_header, Limit.charge_infinite]
  rfl

/-- A canonical value comes back from the payload it is serialized as. -/
theorem deserialize_of_image {b : List UInt8} (himage : schema.image e i v 0 = .ok b)
    (hcanonical : schema.Canonical e i v 0) : ∃ payload,
      schema.serialize e .infinite i v = .ok payload ∧
        (schema.deserialize .infinite i payload).result = .ok v := by
  refine ⟨_, schema.serialize_of_image e i v himage, ?_⟩
  rw [schema.deserialize_payload e i (schema.get i).extensibility b,
    schema.decode_of_image e i v himage hcanonical]
  rfl

/-- A canonical value that is written without fault is what its bytes are decoded as, and all of
    them are taken. The body of a payload stands at the alignment origin. A value that is canonical
    there is what its payloads are read as, in both byte orders. -/
theorem canonical_round_trip (offset n : Nat) (sink : Sink)
    (hwritten : schema.encode e (.appendingTo #[]) i v offset = (.ok n, sink))
    (hcanonical : schema.Canonical e i v offset) :
    n = sink.bytes.size ∧
      (schema.decode ⟨sink.bytes, e, offset⟩ i .infinite).result = .ok (v, n) ∧
      (offset = 0 → ∀ order, ∃ payload,
        schema.serialize ⟨e.repr, order⟩ .infinite i v = .ok payload ∧
          (schema.deserialize .infinite i payload).result = .ok v) := by
  cases himage : schema.image e i v offset with
  | error obstacle =>
    obtain ⟨rest, hencode⟩ := schema.encode_of_obstacle e i v #[] himage
    rw [hencode] at hwritten
    cases hwritten
  | ok b =>
    have hencode := schema.encode_of_image e i v #[] himage
    rw [hencode] at hwritten
    cases hwritten
    have hbytes : (#[] : Array UInt8) ++ b = b.toArray := by
      apply Array.toList_inj.1
      simp
    simp only [Sink.appendingTo, hbytes]
    refine ⟨rfl, schema.decode_of_image e i v himage hcanonical, ?_⟩
    rintro rfl order
    obtain ⟨b', himage'⟩ := schema.image_of_order himage order
    exact schema.deserialize_of_image _ i v himage' (schema.canonical_of_order hcanonical order)

/-- A log of readings, each of which may lack its value. -/
def journalDoc : Document where
  types := [
    { name := "Reading", scope := "", fields := [(FieldDecl.new "value" "double").optional] },
    { name := "Log", scope := "", fields := [FieldDecl.new "readings" "sequence<Reading>"] }]

def journal : Schema where
  size := 2
  types := #v[
    { name := "Reading"
      scope := ""
      extensibility := .final
      layout := .struct [("value", .pointer)]
      body := .struct ⟨[⟨"value", 0, .primitive .float64, true, false⟩]⟩ },
    { name := "Log"
      scope := ""
      extensibility := .final
      layout := .struct [("readings", .sequence)]
      body := .struct
        ⟨[⟨"readings", 0, .sequence (.type ⟨0, Nat.zero_lt_two⟩) none, false, false⟩]⟩ }]

/-- A log whose first reading has a value, with some behind it that have none. -/
def journalLog (blanks : Nat) : Value :=
  .struct [("readings", .sequence (.struct [("value", .scalar (.float64 0x3ff8000000000000))] ::
    List.replicate blanks (.struct [])))]

/-- A log that comes back from its bytes and from both of its payloads. -/
theorem canonical_round_trip_journal :
    let e : Encoding := ⟨.xcdr1, .little⟩
    let log : Fin journal.size := ⟨1, by decide⟩
    let sink := Sink.appendingTo #[4, 0, 0, 0, 0x40, 0, 0, 0, 0, 0, 0, 0, 0, 0, 0xf8, 0x3f]
    journal.encode e (.appendingTo #[]) log (journalLog 3) 0 = (.ok 16, sink) ∧
      journal.Canonical e log (journalLog 3) 0 ∧
      (journal.decode ⟨sink.bytes, e, 0⟩ log .infinite).result = .ok (journalLog 3, 16) ∧
      ∀ order, ∃ payload,
        journal.serialize ⟨.xcdr1, order⟩ .infinite log (journalLog 3) = .ok payload ∧
          (journal.deserialize .infinite log payload).result = .ok (journalLog 3) := by
  intro e log sink
  have hwritten : journal.encode e (.appendingTo #[]) log (journalLog 3) 0 = (.ok 16, sink) := by
    decide +kernel
  have hcanonical : journal.Canonical e log (journalLog 3) 0 := by decide +kernel
  obtain ⟨-, hdecode, hpayload⟩ :=
    canonical_round_trip journal e log (journalLog 3) 0 16 sink hwritten hcanonical
  exact ⟨hwritten, hcanonical, hdecode, hpayload rfl⟩

/-- What is canonical at one place need not be so at another. Behind four other bytes, padding
    stands between the header and the value of the first reading, and the 13 readings have 16 bytes.
    In a payload there is no such padding: 12 bytes are left, and the count is refused. -/
theorem payload_of_canonical_elsewhere :
    journalDoc.compile = .ok journal ∧
      let e : Encoding := ⟨.xcdr1, .little⟩
      let log : Fin journal.size := ⟨1, by decide⟩
      let v := journalLog 12
      journal.Canonical e log v 4 ∧
        (journal.encode e (.appendingTo #[]) log v 4).1 = .ok 20 ∧
        ∃ payload, journal.serialize e .infinite log v = .ok payload ∧
          (journal.deserialize .infinite log payload).result =
            .error (.truncated "readings" 4 13 12) := by
  refine ⟨by decide +kernel, by decide +kernel, by decide +kernel, ?_⟩
  exact ⟨#[0, 1, 0, 0, 13, 0, 0, 0, 0x40, 0, 0, 0, 0, 0, 0, 0, 0, 0, 0xf8, 0x3f],
    by decide +kernel, by decide +kernel⟩

end Schema

end Cdr
