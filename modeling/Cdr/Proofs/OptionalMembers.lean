import Cdr.Proofs.ComesBack
import Mathlib

/-! # Optional members in a round trip

A value that is canonical but for its absent members comes back from its payload just when nothing
behind these is taken for them. A reader has the lowest three bits of an id and a length to go by,
so that some plain numbers will do for the header of a member.
-/

namespace Cdr

open Image ReadM SizeRules

namespace Schema

section

variable (schema : Schema) (e : Encoding) (i : Fin schema.size) (v : Value)

/-- Whether the bytes of a value leave no doubt of it, but for its absent members. -/
def Plain (offset : Nat) : Prop :=
  ∀ b, schema.image e i v offset = .ok b →
    typeDemandBy schema e (unasked schema.size) maxDepth "" i v offset (offset + b.length)

/-- Whether the bytes of a value leave no doubt of it, as nothing in them is taken for an absent
    member. -/
def Unmistakable (offset : Nat) : Prop :=
  ∀ b, schema.image e i v offset = .ok b →
    typeDemandBy schema e (untaken schema ⟨b.toArray, e, offset⟩) maxDepth "" i v offset
      (offset + b.length)

instance decidablePlain (offset : Nat) : Decidable (schema.Plain e i v offset) :=
  inferInstanceAs (Decidable (∀ b, schema.image e i v offset = .ok b →
    typeDemandBy schema e (unasked schema.size) maxDepth "" i v offset (offset + b.length)))

instance decidableUnmistakable (offset : Nat) : Decidable (schema.Unmistakable e i v offset) :=
  inferInstanceAs (Decidable (∀ b, schema.image e i v offset = .ok b →
    typeDemandBy schema e (untaken schema ⟨b.toArray, e, offset⟩) maxDepth "" i v offset
      (offset + b.length)))

end

section

variable {schema : Schema} {e : Encoding} {i : Fin schema.size} {v : Value}

theorem decode_of_unmistakable {offset : Nat} {b : List UInt8}
    (himage : schema.image e i v offset = .ok b) (h : schema.Unmistakable e i v offset) :
    (schema.decode ⟨b.toArray, e, offset⟩ i .infinite).result = .ok (v, b.length) :=
  decode_across (.same e.repr schema) (untaken_tells schema _) rfl himage (h b himage)

theorem unmistakable_of_decode (hnames : schema.DistinctNames) {offset count : Nat} {b : List UInt8}
    (himage : schema.image e i v offset = .ok b) (hplain : schema.Plain e i v offset)
    (hdecode : (schema.decode ⟨b.toArray, e, offset⟩ i .infinite).result = .ok (v, count)) :
    schema.Unmistakable e i v offset := by
  intro b' himage'
  rw [himage] at himage'
  cases himage'
  let src : Source := ⟨b.toArray, e, offset⟩
  have hread : Returns (readType schema src maxDepth "" i) (src.start .infinite) v :=
    run_of_decode hdecode
  exact untaken_of_readType hnames src maxDepth "" i v (src.start .infinite) b (.start b e offset) himage
    (hplain b himage) hread

/-- What a value is serialized as is its header with its image behind it. -/
theorem image_of_serialize {payload : Array UInt8}
    (h : schema.serialize e .infinite i v = .ok payload) :
    ∃ b, schema.image e i v 0 = .ok b ∧
      payload = (e.header (schema.get i).extensibility ++ b).toArray := by
  cases himage : schema.image e i v 0 with
  | ok b =>
    rw [schema.serialize_of_image e i v himage] at h
    cases h
    exact ⟨b, rfl, rfl⟩
  | error obstacle =>
    obtain ⟨rest, hencode⟩ := schema.encode_of_obstacle e i v
      (e.header (schema.get i).extensibility).toArray himage
    simp only [serialize, serializeInto, Header.outcome_writeHeader, hencode] at h
    cases hsize : schema.payloadSize e.repr i v with
    | error fault =>
      rw [hsize] at h
      cases h
    | ok size =>
      rw [hsize] at h
      cases h

end

/-- A value that is plain comes back from its payload when nothing in it is taken for an absent
    member. Where no struct has two members of one name, it does so only then. -/
theorem round_trip_iff_unmistakable (schema : Schema) (e : Encoding) (i : Fin schema.size)
    (v : Value) {payload : Array UInt8}
    (hpayload : schema.serialize e .infinite i v = .ok payload) (hplain : schema.Plain e i v 0) :
    (schema.Unmistakable e i v 0 → (schema.deserialize .infinite i payload).result = .ok v) ∧
      (schema.DistinctNames → (schema.deserialize .infinite i payload).result = .ok v →
        schema.Unmistakable e i v 0) := by
  obtain ⟨b, himage, rfl⟩ := image_of_serialize hpayload
  rw [schema.deserialize_payload e i]
  refine ⟨fun h => ?_, fun hnames hback => ?_⟩
  · rw [decode_of_unmistakable himage h]
    rfl
  · cases hdecode : (schema.decode ⟨b.toArray, e, 0⟩ i .infinite).result with
    | error fault =>
      rw [hdecode] at hback
      cases hback
    | ok result =>
      obtain ⟨w, count⟩ := result
      rw [hdecode] at hback
      cases hback
      exact unmistakable_of_decode hnames himage hplain hdecode

/-- A gauge that may have a limit in front of its level. -/
def gaugeDoc : Document where
  types := [
    { name := "Gauge"
      scope := ""
      extensibility := .appendable
      fields := [(FieldDecl.new "limit" "int32").optional, FieldDecl.new "level" "int32",
        FieldDecl.new "time" "int32"] }]

def gauge : Schema where
  size := 1
  types := #v[
    { name := "Gauge"
      scope := ""
      extensibility := .appendable
      layout := .struct [("limit", .pointer), ("level", ⟨4, 4⟩), ("time", ⟨4, 4⟩)]
      body := .struct ⟨[⟨"limit", 0, .primitive .int32, true, false⟩,
        ⟨"level", 1, .primitive .int32, false, false⟩,
        ⟨"time", 2, .primitive .int32, false, false⟩]⟩ }]

/-- A gauge without a limit. -/
def gaugeAt (level time : Int32) : Value :=
  .struct [("level", .scalar (.int32 level)), ("time", .scalar (.int32 time))]

/-- The level 8 looks like the header of a limit of a single byte, which is too short for one. -/
theorem round_trip_iff_unmistakable_gauge :
    let e : Encoding := ⟨.xcdr2, .little⟩
    let top : Fin gauge.size := ⟨0, by decide⟩
    let payload := #[0, 9, 0, 0, 8, 0, 0, 0, 8, 0, 0, 0, 7, 0, 0, 0]
    gaugeDoc.compile = .ok gauge ∧ gauge.DistinctNames ∧
      gauge.serialize e .infinite top (gaugeAt 8 7) = .ok payload ∧
      gauge.Plain e top (gaugeAt 8 7) 0 ∧
      (gauge.deserialize .infinite top payload).result = .ok (gaugeAt 8 7) ∧
      gauge.Unmistakable e top (gaugeAt 8 7) 0 := by
  intro e top payload
  have hnames : gauge.DistinctNames := by decide
  have hpayload : gauge.serialize e .infinite top (gaugeAt 8 7) = .ok payload := by
    decide +kernel
  have hplain : gauge.Plain e top (gaugeAt 8 7) 0 := by decide +kernel
  have hunmistakable : gauge.Unmistakable e top (gaugeAt 8 7) 0 := by decide +kernel
  obtain ⟨hback, honly⟩ := round_trip_iff_unmistakable gauge e top (gaugeAt 8 7) hpayload hplain
  have hread := hback hunmistakable
  exact ⟨by decide +kernel, hnames, hpayload, hplain, hread, honly hnames hread⟩

/-- The level 32 looks like the header of a limit of four bytes. The time behind it is taken for the
    limit, and nothing is left for the members that it and the level belong to. -/
theorem gauge_taken_for_limit :
    gaugeDoc.compile = .ok gauge ∧
      let e : Encoding := ⟨.xcdr2, .little⟩
      let top : Fin gauge.size := ⟨0, by decide⟩
      let payload := #[0, 9, 0, 0, 8, 0, 0, 0, 32, 0, 0, 0, 7, 0, 0, 0]
      gauge.Plain e top (gaugeAt 32 7) 0 ∧
        gauge.serialize e .infinite top (gaugeAt 32 7) = .ok payload ∧
        (gauge.deserialize .infinite top payload).result = .ok (.struct
          [("level", .scalar (.int32 0)), ("limit", .scalar (.int32 7)),
            ("time", .scalar (.int32 0))]) ∧
        (gauge.deserialize .infinite top payload).result ≠ .ok (gaugeAt 32 7) := by
  refine ⟨by decide +kernel, ?_⟩
  intro e top payload
  have hread : (gauge.deserialize .infinite top payload).result = .ok (.struct
      [("level", .scalar (.int32 0)), ("limit", .scalar (.int32 7)),
        ("time", .scalar (.int32 0))]) := by cbv
  refine ⟨by decide +kernel, by decide +kernel, hread, ?_⟩
  intro hback
  rw [hread] at hback
  cases hback

end Schema

end Cdr
