import Cdr.Proofs.OptionalMembers
import Cdr.Proofs.SinkReach

/-! # Writing into a slice

A slice takes what fits and then refuses. A balanced script puts its bytes over as many others when
there are so many behind the head, and its patches always find their placeholders, as these have
been taken as a whole. Where there is less room, it is a write that is refused and never a patch.
-/

namespace Cdr

namespace Sink

/-- A slice whose head stands between two parts of its bytes. -/
def slice (front rest : List UInt8) : Sink := ⟨.fixed, (front ++ rest).toArray, front.length⟩

variable {front old rest slot chunk body : List UInt8}

/-- Bytes that fit are put over as many others. -/
theorem write_slice (h : chunk.length = old.length) :
    (slice front (old ++ rest)).write chunk = (slice (front ++ chunk) rest, none) := by
  have hfits : min chunk.length ((front ++ (old ++ rest)).toArray.size - front.length) =
      chunk.length := by
    simp only [List.size_toArray, List.length_append]
    omega
  have hover : overwrite (front ++ (old ++ rest)).toArray front.length chunk =
      (front ++ chunk ++ rest).toArray := by
    apply Array.toList_inj.1
    rw [toList_overwrite h (List.toList_toArray), List.append_assoc]
  simp only [write, slice, hfits, List.take_length, hover, Nat.lt_irrefl, if_false,
    List.length_append]

/-- Bytes that do not fit are refused. -/
theorem write_slice_short (h : rest.length < chunk.length) :
    ((slice front rest).write chunk).2 = some .full := by
  simp only [write, slice, List.size_toArray, List.length_append]
  exact if_pos (by omega)

/-- A patch over a slot replaces it, whatever was written behind it. -/
theorem patch_slice (h : chunk.length = slot.length) :
    (slice (front ++ slot ++ body) rest).patch (body.length + slot.length) chunk =
      (slice (front ++ chunk ++ body) rest, none) := by
  have hhead : (slice (front ++ slot ++ body) rest).head =
      front.length + slot.length + body.length := by
    simp only [slice, head, List.length_append]
  have hstart : front.length + slot.length + body.length - (body.length + slot.length) =
      front.length := by
    omega
  have hbytes : (front ++ slot ++ body ++ rest).toArray.toList =
      front ++ (slot ++ (body ++ rest)) := by
    simp only [List.append_assoc]
  have hover : overwrite (front ++ slot ++ body ++ rest).toArray front.length chunk =
      (front ++ chunk ++ body ++ rest).toArray := by
    apply Array.toList_inj.1
    rw [toList_overwrite h hbytes]
    simp only [List.append_assoc]
  have hinside : ¬(slice (front ++ slot ++ body) rest).bytes.size <
      front.length + chunk.length := by
    simp only [slice, List.size_toArray, List.length_append]
    omega
  simp only [patch, hhead, hstart]
  rw [if_neg (by omega), if_neg hinside]
  simp only [slice, hover, List.length_append, h]

end Sink

open Sink

namespace WriteM

/-- That a writer fails because its sink is full. -/
def Overflows (m : WriteM Unit) (w : Writer) : Prop :=
  ∃ after, m.run w = .error (.sink .full) after

variable {front old rest chunk : List UInt8} {m k : WriteM Unit} {w mid : Writer}

theorem Overflows.first (h : Overflows m w) : Overflows (do m; k) w := by
  obtain ⟨after, hrun⟩ := h
  refine ⟨after, ?_⟩
  rw [EStateM.run_bind, hrun]

theorem Overflows.behind (hm : m.run w = .ok () mid) (h : Overflows k mid) :
    Overflows (do m; k) w := by
  obtain ⟨after, hrun⟩ := h
  refine ⟨after, ?_⟩
  rw [EStateM.run_bind, hm]
  exact hrun

theorem run_emit_slice (h : chunk.length = old.length) (position : Nat) :
    (emit chunk).run ⟨slice front (old ++ rest), position⟩ =
      .ok () ⟨slice (front ++ chunk) rest, position + chunk.length⟩ := by
  simp only [emit, EStateM.run, write_slice h]

theorem run_patch_slice {slot word body : List UInt8} (h : word.length = slot.length)
    (position : Nat) :
    (WriteM.patch (body.length + slot.length) word).run
        ⟨slice (front ++ slot ++ body) rest, position⟩ =
      .ok () ⟨slice (front ++ word ++ body) rest, position⟩ := by
  simp only [WriteM.patch, EStateM.run, patch_slice h]

theorem overflows_emit (h : rest.length < chunk.length) (position : Nat) :
    Overflows (emit chunk) ⟨slice front rest, position⟩ := by
  have hfull := @write_slice_short front rest chunk h
  rcases hwrite : (slice front rest).write chunk with ⟨sink, fault⟩
  rw [hwrite] at hfull
  subst hfull
  refine ⟨⟨sink, position⟩, ?_⟩
  simp only [emit, EStateM.run, hwrite]

end WriteM

open WriteM

theorem exists_append_of_le_length {bytes : List UInt8} {n : Nat} (h : n ≤ bytes.length) :
    ∃ first second, bytes = first ++ second ∧ first.length = n :=
  ⟨bytes.take n, bytes.drop n, (List.take_append_drop n bytes).symm, List.length_take_of_le h⟩

theorem exists_append_of_add_eq_length {bytes : List UInt8} {m n : Nat} (h : m + n = bytes.length) :
    ∃ first second, bytes = first ++ second ∧ m = first.length ∧ n = second.length := by
  obtain ⟨first, second, rfl, hfirst⟩ :=
    exists_append_of_le_length (Nat.le_of_add_right_le (Nat.le_of_eq h))
  rw [List.length_append] at h
  exact ⟨first, second, rfl, hfirst.symm, by omega⟩

namespace Script

variable {ops : Script} {b front old rest : List UInt8}

/-- A balanced script puts its bytes over as many others. -/
theorem Balanced.perform_slice (h : Balanced ops b) (hfits : b.length = old.length)
    (position : Nat) :
    (perform ops).run ⟨slice front (old ++ rest), position⟩ =
      .ok () ⟨slice (front ++ b) rest, position + b.length⟩ := by
  induction h generalizing front old rest position with
  | nil =>
    rw [List.eq_nil_of_length_eq_zero hfits.symm]
    simp [perform]
  | @emit chunk tailOps b tail ih =>
    rw [List.length_append] at hfits
    obtain ⟨first, second, rfl, hfirst, hsecond⟩ := exists_append_of_add_eq_length hfits
    simp only [perform, SinkOp.run, EStateM.run_bind, List.append_assoc,
      run_emit_slice hfirst, ih hsecond, List.length_append, Nat.add_assoc]
  | @patched word inner tailOps body b width inside tail ihInside ihTail =>
    -- The bytes to be written over fall into a slot, those under the body and those behind it.
    rw [List.length_append, List.length_append, width] at hfits
    obtain ⟨slot, behind, rfl, hslot, hbehind⟩ := exists_append_of_add_eq_length hfits
    obtain ⟨first, second, rfl, hfirst, hsecond⟩ := exists_append_of_add_eq_length hbehind
    have hsplit : slot ++ (first ++ second) ++ rest = slot ++ (first ++ (second ++ rest)) := by
      simp only [List.append_assoc]
    have hpatched := @run_patch_slice front (second ++ rest) placeholder word body width
    rw [hsplit]
    simp only [perform, perform_append, SinkOp.run, EStateM.run_bind,
      run_emit_slice hslot, ihInside hfirst]
    rw [show body.length + 4 = body.length + placeholder.length from rfl, hpatched]
    simp only [ihTail hsecond, List.append_assoc, List.length_append, Nat.add_assoc, width]

/-- Where there is less room, it fails, as some write does not find enough of it. -/
theorem Balanced.overflows_slice (h : Balanced ops b) (front : List UInt8)
    (hshort : rest.length < b.length) (position : Nat) :
    Overflows (perform ops) ⟨slice front rest, position⟩ := by
  induction h generalizing front rest position with
  | nil => exact absurd hshort (Nat.not_lt_zero _)
  | @emit chunk tailOps b tail ih =>
    rw [List.length_append] at hshort
    by_cases hfits : chunk.length ≤ rest.length
    · obtain ⟨first, second, rfl, hfirst⟩ := exists_append_of_le_length hfits
      rw [List.length_append] at hshort
      exact .behind (run_emit_slice hfirst.symm position) (ih _ (by omega) _)
    · exact .first (overflows_emit (Nat.lt_of_not_le hfits) position)
  | @patched word inner tailOps body b width inside tail ihInside ihTail =>
    -- The slice ends inside of the placeholder, inside of the body, or behind the patch, which is
    -- then done on bytes that were all taken.
    simp only [List.length_append, width] at hshort
    by_cases hslot : placeholder.length ≤ rest.length
    · obtain ⟨slot, behind, rfl, hlength⟩ := exists_append_of_le_length hslot
      rw [List.length_append] at hshort
      refine .behind (run_emit_slice hlength.symm position) ?_
      rw [perform_append]
      by_cases hbody : body.length ≤ behind.length
      · obtain ⟨first, second, rfl, hfirst⟩ := exists_append_of_le_length hbody
        rw [List.length_append] at hshort
        refine .behind (inside.perform_slice hfirst.symm _) ?_
        exact .behind (run_patch_slice width _) (ihTail _ (by omega) _)
      · exact .first (ihInside _ (Nat.lt_of_not_le hbody) _)
    · exact .first (overflows_emit (Nat.lt_of_not_le hslot) position)

end Script

/-- The front of some bytes in two parts, and what is behind it. -/
theorem exists_front_parts (bytes : Array UInt8) {m n : Nat} (h : m + n ≤ bytes.size) :
    ∃ first second, bytes.toList =
        first ++ (second ++ (bytes.extract (m + n) bytes.size).toList) ∧
      first.length = m ∧ second.length = n := by
  have hlength : bytes.toList.length = bytes.size := Array.length_toList
  have hrest : (bytes.extract (m + n) bytes.size).toList = bytes.toList.drop (m + n) := by
    rw [Array.toList_extract, List.extract_eq_take_drop]
    exact List.take_of_length_le (by rw [List.length_drop, hlength])
  refine ⟨bytes.toList.take m, (bytes.toList.drop m).take n, ?_, ?_, ?_⟩
  · rw [hrest, ← List.drop_drop, List.take_append_drop, List.take_append_drop]
  · exact List.length_take_of_le (by omega)
  · exact List.length_take_of_le (by rw [List.length_drop]; omega)

namespace Schema

section

variable (schema : Schema) (e : Encoding) (i : Fin schema.size) (v : Value)
  {b rest : List UInt8}

/-- The header is two writes, which is a balanced script. -/
theorem exists_header_script (extensibility : Extensibility) :
    ∃ ops, Script.Balanced ops (e.header extensibility) ∧
      (do emit (e.headerId extensibility); emit [0, 0] : WriteM Unit) = Script.perform ops := by
  refine ⟨[.emit (e.headerId extensibility), .emit [0, 0]],
    .emit _ (Script.balanced_single [0, 0]), ?_⟩
  simp only [Script.perform, SinkOp.run, bind_pure_unit]

theorem exists_body_script (himage : schema.image e i v 0 = .ok b) :
    ∃ ops, Script.Balanced ops b ∧ ∀ sink,
      (schema.write e "" i v).run ⟨sink, 0⟩ = (Script.perform ops).run ⟨sink, 0⟩ := by
  have h := writes_type schema e maxDepth "" i v 0
  rw [show typeImage schema e maxDepth "" i v 0 = .ok b from himage] at h
  exact h

theorem serializeInto_slice_of_fits (himage : schema.image e i v 0 = .ok b) {bytes : Array UInt8}
    (hfits : (e.header (schema.get i).extensibility ++ b).length ≤ bytes.size) :
    schema.serializeInto e .infinite (slice [] bytes.toList) i v =
      (.ok (), slice (e.header (schema.get i).extensibility ++ b)
        (bytes.extract (e.header (schema.get i).extensibility ++ b).length bytes.size).toList) := by
  obtain ⟨header, hheader, heq⟩ := exists_header_script e (schema.get i).extensibility
  obtain ⟨ops, hops, hrun⟩ := schema.exists_body_script e i v himage
  rw [List.length_append] at hfits ⊢
  obtain ⟨first, second, hbytes, hfirst, hsecond⟩ := exists_front_parts bytes hfits
  rw [hbytes]
  simp only [serializeInto, encode, heq, outcome, hheader.perform_slice hfirst.symm, hrun,
    hops.perform_slice hsecond.symm, List.nil_append, Except.map]

theorem serializeInto_slice_of_short (himage : schema.image e i v 0 = .ok b)
    (hshort : rest.length < (e.header (schema.get i).extensibility ++ b).length) :
    (schema.serializeInto e .infinite (slice [] rest) i v).1 = .error (.sink .full) := by
  obtain ⟨header, hheader, heq⟩ := exists_header_script e (schema.get i).extensibility
  obtain ⟨ops, hops, hrun⟩ := schema.exists_body_script e i v himage
  rw [List.length_append] at hshort
  by_cases hfits : (e.header (schema.get i).extensibility).length ≤ rest.length
  · obtain ⟨first, second, rfl, hfirst⟩ := exists_append_of_le_length hfits
    rw [List.length_append] at hshort
    obtain ⟨after, hafter⟩ := hops.overflows_slice (e.header (schema.get i).extensibility)
      (show second.length < b.length by omega) 0
    simp only [serializeInto, encode, heq, outcome, hheader.perform_slice hfirst.symm,
      List.nil_append, hrun, hafter, Except.map]
  · obtain ⟨after, hafter⟩ := hheader.overflows_slice [] (Nat.lt_of_not_le hfits) 0
    simp only [serializeInto, heq, outcome, hafter]

end

/-- What can be serialized goes into a slice if and only if the slice is large enough for it. Then
    the payload stands at the front of the slice, with the bytes behind it as they were; otherwise
    the slice is full before the write is done. -/
theorem serializeInto_slice (schema : Schema) (e : Encoding) (i : Fin schema.size) (v : Value)
    {payload : Array UInt8} (h : schema.serialize e .infinite i v = .ok payload)
    (bytes : Array UInt8) :
    ((schema.serializeInto e .infinite ⟨.fixed, bytes, 0⟩ i v).1 = .ok () ↔
      payload.size ≤ bytes.size) ∧
    (payload.size ≤ bytes.size → schema.serializeInto e .infinite ⟨.fixed, bytes, 0⟩ i v =
      (.ok (), ⟨.fixed, payload ++ bytes.extract payload.size bytes.size, payload.size⟩)) ∧
    (bytes.size < payload.size →
      (schema.serializeInto e .infinite ⟨.fixed, bytes, 0⟩ i v).1 = .error (.sink .full)) := by
  obtain ⟨b, himage, rfl⟩ := image_of_serialize h
  have hslice : (⟨.fixed, bytes, 0⟩ : Sink) = slice [] bytes.toList := rfl
  have hresult : ∀ front : List UInt8, slice front (bytes.extract front.length bytes.size).toList =
      ⟨.fixed, front.toArray ++ bytes.extract front.length bytes.size, front.length⟩ := by
    intro front
    simp [slice]
  have hfits := @serializeInto_slice_of_fits schema e i v b himage bytes
  have hshort := @serializeInto_slice_of_short schema e i v b bytes.toList himage
  rw [hresult] at hfits
  rw [Array.length_toList] at hshort
  rw [hslice, List.size_toArray]
  refine ⟨⟨fun hok => ?_, fun hle => by rw [hfits hle]⟩, hfits, hshort⟩
  refine Nat.le_of_not_lt fun hlt => ?_
  rw [hshort hlt] at hok
  cases hok

/-- The payload of a gauge takes 16 bytes. It goes into a slice of 18, and into none of 13, where
    the slice ends inside of the last number. -/
theorem serializeInto_slice_gauge :
    let e : Encoding := ⟨.xcdr2, .little⟩
    let top : Fin gauge.size := ⟨0, by decide⟩
    let payload := #[0, 9, 0, 0, 8, 0, 0, 0, 8, 0, 0, 0, 7, 0, 0, 0]
    gaugeDoc.compile = .ok gauge ∧
      gauge.serialize e .infinite top (gaugeAt 8 7) = .ok payload ∧
      gauge.serializeInto e .infinite ⟨.fixed, .replicate 18 1, 0⟩ top (gaugeAt 8 7) =
        (.ok (), ⟨.fixed, payload ++ #[1, 1], 16⟩) ∧
      (gauge.serializeInto e .infinite ⟨.fixed, .replicate 13 1, 0⟩ top (gaugeAt 8 7)).1 =
        .error (.sink .full) := by
  intro e top payload
  have hpayload : gauge.serialize e .infinite top (gaugeAt 8 7) = .ok payload := by
    decide +kernel
  obtain ⟨-, hfits, -⟩ :=
    serializeInto_slice gauge e top (gaugeAt 8 7) hpayload (.replicate 18 1)
  obtain ⟨-, -, hshort⟩ :=
    serializeInto_slice gauge e top (gaugeAt 8 7) hpayload (.replicate 13 1)
  exact ⟨by decide +kernel, hpayload, hfits (by decide), hshort (by decide)⟩

end Schema

end Cdr
