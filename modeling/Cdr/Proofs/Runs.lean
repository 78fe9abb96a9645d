import Cdr.Proofs.ImageBytes
import Cdr.Proofs.Lockstep
import Cdr.Proofs.Presence

/-! # Runs

A run is passed over as one block behind the padding of its first element. This comes to the same as
passing over it element by element: an element is as large as a multiple of its boundary, so behind
one that stands on a boundary the next does, too, and its own padding is empty.
-/

namespace Cdr

open Image ReadM

/-! ## Boundaries -/

namespace Encoding

variable (e : Encoding) (p : Primitive)

theorem alignmentOf_eq_shift : ∃ exponent, e.alignmentOf p = 1 <<< exponent := by
  obtain ⟨repr, order⟩ := e
  cases repr <;> cases p
  all_goals first | exact ⟨0, rfl⟩ | exact ⟨1, rfl⟩ | exact ⟨2, rfl⟩ | exact ⟨3, rfl⟩

/-- A scalar is as large as a multiple of its boundary. -/
theorem alignmentOf_dvd_size : e.alignmentOf p ∣ p.size := by
  obtain ⟨repr, order⟩ := e
  show repr.alignmentOf p.size ∣ p.size
  cases repr <;> cases p <;> decide

variable {e p} {x : Nat}

theorem padding_of_aligned (h : e.alignmentOf p ∣ x) : padding x (e.alignmentOf p) = 0 := by
  obtain ⟨exponent, hshift⟩ := e.alignmentOf_eq_shift p
  rw [hshift] at h ⊢
  exact padding_of_dvd h

variable (e p x)

theorem aligned_padded : e.alignmentOf p ∣ x + padding x (e.alignmentOf p) := by
  obtain ⟨exponent, hshift⟩ := e.alignmentOf_eq_shift p
  rw [hshift]
  exact dvd_add_padding x exponent

end Encoding

/-! ## Writing and counting -/

namespace Encoding

variable {e : Encoding} {p : Primitive} {field : String}

/-- On a boundary there are no zeros. -/
theorem zeros_andThen_of_aligned {x : Nat} (h : e.alignmentOf p ∣ x) (f : Image) :
    (zeros (e.alignmentOf p)).andThen f x = f x := by
  simp only [andThen, zeros, padding_of_aligned h, List.replicate_zero, bind, Except.bind,
    List.length_nil, Nat.add_zero, pure, Except.pure, List.nil_append]
  cases f x <;> rfl

/-- Zeros behind zeros are none. -/
theorem zeros_andThen_zeros (f : Image) :
    (zeros (e.alignmentOf p)).andThen ((zeros (e.alignmentOf p)).andThen f) =
      (zeros (e.alignmentOf p)).andThen f := by
  funext x
  have hpadded := zeros_andThen_of_aligned (e.aligned_padded p x) f
  simp only [andThen, zeros, bind, Except.bind, List.length_replicate] at hpadded ⊢
  rw [hpadded]

/-- The zeros in front of an element are its own. -/
theorem zeros_andThen_scalarImage (v : Value) :
    (zeros (e.alignmentOf p)).andThen (e.scalarImage field p v) = e.scalarImage field p v := by
  cases v with
  | scalar s =>
    simp only [scalarImage]
    split
    · cases s.wideChar? with
      | some c => exact zeros_andThen_fail _ _
      | none => exact zeros_andThen_zeros _
    · exact zeros_andThen_fail _ _
  | _ => exact zeros_andThen_fail _ _

variable (hp : p.isBlittable = true)

include hp

/-- From a boundary on, elements stand where those of a run do. -/
theorem each_scalarImage_of_aligned (items : List Value) {x : Nat} (hx : e.alignmentOf p ∣ x) :
    each (e.scalarImage field p) items x = e.runImage field p items x := by
  induction items generalizing x with
  | nil => rfl
  | cons v vs ih =>
    cases v with
    | scalar s =>
      simp only [each, scalarImage, runImage]
      by_cases hs : s.primitive = p
      · have hnext : e.alignmentOf p ∣ x + (e.scalarBytes s).length := by
          rw [length_scalarBytes, hs]
          exact Nat.dvd_add hx (e.alignmentOf_dvd_size p)
        rw [if_pos hs, if_pos hs, Source.wideChar?_of_isBlittable (hs ▸ hp)]
        simp only []
        rw [andThen_assoc, zeros_andThen_of_aligned hx]
        simp only [andThen, bytes, bind, Except.bind, ih hnext]
      · rw [if_neg hs, if_neg hs]
        rfl
    | _ => rfl

/-- The elements of a run, each on its boundary, are its block behind the zeros in front. -/
theorem each_scalarImage (ofItem : Value → Image) (items : List Value) :
    each (e.scalarImage field p) items = e.elementsImage ofItem field (some p) items := by
  cases items with
  | nil => rfl
  | cons v vs =>
    have hzeros : each (e.scalarImage field p) (v :: vs) =
        (zeros (e.alignmentOf p)).andThen (each (e.scalarImage field p) (v :: vs)) := by
      simp only [each]
      rw [← andThen_assoc, zeros_andThen_scalarImage]
    rw [hzeros]
    funext x
    simp only [elementsImage, List.isEmpty_cons, Bool.false_eq_true, if_false]
    have halike : each (e.scalarImage field p) (v :: vs) (x + padding x (e.alignmentOf p)) = _ :=
      each_scalarImage_of_aligned hp (v :: vs) (e.aligned_padded p x)
    simp only [andThen, zeros, bind, Except.bind, List.length_replicate]
    rw [halike]

omit hp

/-- A run is refused for an element of another type only. -/
theorem refused_of_run {ofItem : Value → Image} {items : List Value} {x : Nat} {obstacle : Obstacle}
    (h : e.elementsImage ofItem field (some p) items x = .error obstacle) :
    ∃ fault, obstacle = .refused fault := by
  simp only [elementsImage] at h
  split at h
  · cases h
  · rcases SizeRules.runImage_eq e field p items with ⟨b, hb, -⟩ | ⟨found, hfail, -⟩
    · rw [hb] at h
      cases h
    · rw [hfail, zeros_andThen_fail] at h
      cases h
      exact ⟨_, rfl⟩

end Encoding

/-! ## Reading -/

namespace Cursor

/-- A position that is charged already is reached as it is. -/
theorem reach_self {c : Cursor} (h : c.position ≤ c.highWater) : c.reach c.position = c := by
  simp only [reach, Nat.max_eq_left h]

end Cursor

section

variable (bytes : Array UInt8) (start front back : Nat)

theorem take_extract : (bytes.extract start (start + (front + back))).toList.take front =
    (bytes.extract start (start + front)).toList := by
  simp only [Array.toList_extract, List.extract_eq_take_drop, List.take_take,
    Nat.add_sub_cancel_left, Nat.min_eq_left (Nat.le_add_right front back)]

theorem drop_extract : (bytes.extract start (start + (front + back))).toList.drop front =
    (bytes.extract (start + front) (start + front + back)).toList := by
  simp only [Array.toList_extract, List.extract_eq_take_drop, List.drop_take, List.drop_drop,
    Nat.add_sub_cancel_left]

end

theorem Encoding.readScalar_of_isBlittable (e : Encoding) {p : Primitive}
    (hp : p.isBlittable = true) (bytes : List UInt8) : ∃ s, e.readScalar p bytes = .ok s := by
  cases p with
  | bool => cases hp
  | char => cases hp
  | _ => exact ⟨_, rfl⟩

namespace Source

variable {src : Source} {field : String} {p : Primitive} {c : Cursor}

theorem run_skipPadding_reach {alignment : Nat} (hlimit : c.limit = .infinite)
    (h : padding (src.origin + c.position) alignment ≤ c.remaining) :
    (src.skipPadding field alignment).run c =
      .ok () (c.reach (c.position + padding (src.origin + c.position) alignment)) := by
  simp only [skipPadding, EStateM.run_bind, EStateM.run_get, src.run_take_reach field h hlimit]
  rfl

theorem run_skipPadding_short {alignment : Nat}
    (h : c.remaining < padding (src.origin + c.position) alignment) :
    (src.skipPadding field alignment).run c =
      .error (src.shortRead c field (padding (src.origin + c.position) alignment)) c := by
  simp only [skipPadding, EStateM.run_bind, EStateM.run_get, src.run_take_of_lt field h]

/-- That the cursor stands on a boundary of the type, with all bytes in front of it charged, and no
    limit ends the read. -/
structure AtBoundary (src : Source) (p : Primitive) (c : Cursor) : Prop where
  aligned : src.encoding.alignmentOf p ∣ src.origin + c.position
  charged : c.position ≤ c.highWater
  unlimited : c.limit = .infinite

theorem AtBoundary.run_skipPadding (h : AtBoundary src p c) :
    (src.skipPadding field (src.encoding.alignmentOf p)).run c = .ok () c := by
  have hpad := Encoding.padding_of_aligned h.aligned
  rw [run_skipPadding_reach h.unlimited (by omega), hpad, Nat.add_zero, c.reach_self h.charged]

theorem atBoundary_reach {position : Nat} (hlimit : c.limit = .infinite)
    (h : src.encoding.alignmentOf p ∣ src.origin + position) : AtBoundary src p (c.reach position) :=
  ⟨h, Nat.le_max_right _ _, hlimit⟩

theorem atBoundary_padded (p : Primitive) (hlimit : c.limit = .infinite) :
    AtBoundary src p (c.reach (c.position +
      padding (src.origin + c.position) (src.encoding.alignmentOf p))) := by
  refine atBoundary_reach hlimit ?_
  rw [← Nat.add_assoc]
  exact src.encoding.aligned_padded p _

/-- Behind an element the next one needs no padding. -/
theorem AtBoundary.next (h : AtBoundary src p c) :
    AtBoundary src p (c.reach (c.position + p.size)) := by
  refine atBoundary_reach h.unlimited ?_
  rw [← Nat.add_assoc]
  exact Nat.dvd_add h.aligned (src.encoding.alignmentOf_dvd_size p)

variable (field) (schema : Schema) (readType : String → Fin schema.size → ReadM Value)

/-- The padding of an element may be skipped before it is read. -/
theorem run_readValue_padded (hlimit : c.limit = .infinite)
    (h : padding (src.origin + c.position) (src.encoding.alignmentOf p) ≤ c.remaining) :
    (readValue schema src readType field (.primitive p)).run c =
      (readValue schema src readType field (.primitive p)).run
        (c.reach (c.position +
          padding (src.origin + c.position) (src.encoding.alignmentOf p))) := by
  have hstart : AtBoundary src p (c.reach (c.position + _)) := atBoundary_padded p hlimit
  simp only [readValue, scalar, EStateM.run_bind, run_skipPadding_reach hlimit h,
    hstart.run_skipPadding]

variable (hp : p.isBlittable = true)

include hp

/-- Where no padding is needed, an element is read when there is room for it. -/
theorem AtBoundary.run_readValue (h : AtBoundary src p c) :
    (∃ s, src.encoding.readScalar p
        (src.bytes.extract c.position (c.position + p.size)).toList = .ok s ∧
      p.size ≤ c.remaining ∧
      (readValue schema src readType field (.primitive p)).run c =
        .ok (.scalar s) (c.reach (c.position + p.size))) ∨
    (c.remaining < p.size ∧ (readValue schema src readType field (.primitive p)).run c =
      .error (src.shortRead c field p.size) c) := by
  simp only [readValue, scalar, EStateM.run_bind, h.run_skipPadding]
  by_cases hroom : p.size ≤ c.remaining
  · obtain ⟨s, hs⟩ := src.encoding.readScalar_of_isBlittable hp
      (src.bytes.extract c.position (c.position + p.size)).toList
    refine .inl ⟨s, hs, hroom, ?_⟩
    simp only [src.run_take_reach field hroom h.unlimited, hs]
    rfl
  · have hshort : c.remaining < p.size := Nat.lt_of_not_le hroom
    refine .inr ⟨hshort, ?_⟩
    simp only [src.run_take_of_lt field hshort]

/-- From a place without padding on, elements are read where the scalars of a block are. -/
theorem AtBoundary.run_many (h : AtBoundary src p c) (count : Nat) (rev : List Value) :
    (∃ vs, scalars src.encoding p count
        (src.bytes.extract c.position (c.position + count * p.size)).toList = .ok vs ∧
      count * p.size ≤ c.remaining ∧
      (many (readValue schema src readType field (.primitive p)) count rev).run c =
        .ok (rev.reverse ++ vs) (c.reach (c.position + count * p.size))) ∨
    (c.remaining < count * p.size ∧ ∃ fault after,
      (many (readValue schema src readType field (.primitive p)) count rev).run c =
        .error fault after ∧ fault.isShort = true) := by
  induction count generalizing c rev with
  | zero =>
    refine .inl ⟨[], rfl, by omega, ?_⟩
    rw [Nat.zero_mul, Nat.add_zero, c.reach_self h.charged, List.append_nil]
    rfl
  | succ count ih =>
    rw [Nat.succ_mul, Nat.add_comm (count * p.size)]
    rcases h.run_readValue field schema readType hp with ⟨s, hs, hroom, hrun⟩ | ⟨hshort, hrun⟩
    · have hleft : (c.reach (c.position + p.size)).remaining = c.remaining - p.size := by
        simp only [Cursor.remaining, Cursor.reach, Nat.sub_sub]
      have hmore := ih h.next (.scalar s :: rev)
      rw [hleft] at hmore
      rcases hmore with ⟨vs, hvs, hfits, hmany⟩ | ⟨hshort, fault, after, hmany, hfault⟩
      · refine .inl ⟨.scalar s :: vs, ?_, by omega, ?_⟩
        · have hvs : scalars src.encoding p count (src.bytes.extract (c.position + p.size)
            (c.position + p.size + count * p.size)).toList = .ok vs := hvs
          simp only [scalars, take_extract, drop_extract, hs, hvs]
          rfl
        · simp only [many, EStateM.run_bind, hrun, hmany, List.reverse_cons, List.append_assoc,
            List.singleton_append]
          rw [← Nat.add_assoc, ← c.reach_reach (Nat.le_add_right (c.position + p.size) _)]
          rfl
      · refine .inr ⟨by omega, fault, after, ?_, hfault⟩
        simp only [many, EStateM.run_bind, hrun, hmany]
    · refine .inr ⟨by omega, _, c, ?_, isShort_shortRead src c field p.size⟩
      simp only [many, EStateM.run_bind, hrun]

/-- A block is read where its elements can be read one by one, and as the same values. -/
theorem run_elements_of_blittable (hlimit : c.limit = .infinite) (count : Nat) :
    let each := readValue schema src readType field (.primitive p)
    (∃ items after, (src.elements each field (some p) count).run c = .ok (.sequence items) after ∧
      (many each count []).run c = .ok items after) ∨
    ∃ fault other mid last, (src.elements each field (some p) count).run c = .error fault mid ∧
      (many each count []).run c = .error other last ∧
      fault.isShort = true ∧ other.isShort = true := by
  intro each
  cases count with
  | zero => exact .inl ⟨[], c, rfl, rfl⟩
  | succ count =>
    have hcount : count + 1 ≠ 0 := Nat.succ_ne_zero count
    let gap := padding (src.origin + c.position) (src.encoding.alignmentOf p)
    by_cases hgap : gap ≤ c.remaining
    · -- Both ways skip the same padding first, so they are compared from behind it.
      let start := c.reach (c.position + gap)
      have hstart : AtBoundary src p start := atBoundary_padded p hlimit
      have hpadded : (many each (count + 1) []).run c = (many each (count + 1) []).run start := by
        simp only [many, EStateM.run_bind]
        rw [show each.run c = each.run start from
          run_readValue_padded field schema readType hlimit hgap]
      rw [hpadded]
      simp only [elements, if_neg hcount, EStateM.run_bind, run_skipPadding_reach hlimit hgap]
      rcases hstart.run_many field schema readType hp (count + 1) [] with
        ⟨items, hitems, hroom, hmany⟩ | ⟨hshort, other, last, hmany, hother⟩
      · refine .inl ⟨items, _, ?_, hmany⟩
        rw [src.run_take_reach field hroom hstart.unlimited]
        simp only [hitems]
        rfl
      · have htake := src.run_take_of_lt field hshort
        have hfault := isShort_shortRead src start field ((count + 1) * p.size)
        refine .inr ⟨_, other, start, last, ?_, hmany, hfault, hother⟩
        rw [htake]
    · have hshort : c.remaining < gap := Nat.lt_of_not_le hgap
      have hfault : (src.shortRead c field gap).isShort = true := isShort_shortRead src c field gap
      refine .inr ⟨_, _, c, c, ?_, ?_, hfault, hfault⟩
      · simp only [elements, if_neg hcount, EStateM.run_bind, run_skipPadding_short hshort]
        rfl
      · simp only [many, each, readValue, scalar, EStateM.run_bind, run_skipPadding_short hshort]
        rfl

end Source

theorem MemberType.blittable?_primitive {n : Nat} {p : Primitive} (hp : p.isBlittable = true) :
    (primitive p : MemberType n).blittable? = some p := by
  simp only [blittable?, hp, if_true]

section

variable (schema : Schema) (field : String) {p : Primitive} (hp : p.isBlittable = true)

include hp

/-- Both ways of counting count the bytes of one image. -/
theorem addElements_of_blittable (repr : Representation)
    (addType : String → Fin schema.size → Value → SizeM Unit) (items : List Value) :
    let each := addValue schema (SizeRules.unlimited repr) addType field (.primitive p)
    addElements (SizeRules.unlimited repr) each field (some p) items = items.forM each := by
  intro each
  let e : Encoding := ⟨repr, .little⟩
  have heach : ∀ v, SizeRules.Counts (each v) (e.scalarImage field p v) :=
    SizeRules.counts_scalar field p
  funext ⟨position, total⟩
  have hblock : SizeRules.Counted (addElements _ each field (some p) items) position total
      (e.elementsImage (e.scalarImage field p) field (some p) items position) :=
    SizeRules.counts_elements heach field (some p) items position total
  have hsingle : SizeRules.Counted (items.forM each) position total
      (Image.each (e.scalarImage field p) items position) :=
    SizeRules.counts_each (fun v _ => heach v) position total
  rw [Encoding.each_scalarImage hp (e.scalarImage field p)] at hsingle
  cases himage : e.elementsImage (e.scalarImage field p) field (some p) items position with
  | ok b =>
    rw [himage] at hblock hsingle
    exact hblock.trans hsingle.symm
  | error obstacle =>
    obtain ⟨fault, rfl⟩ := Encoding.refused_of_run himage
    rw [himage] at hblock hsingle
    exact (hblock.resolve_left id).trans (hsingle.resolve_left id).symm

/-- Both ways of writing write one image. -/
theorem writeElements_of_blittable (e : Encoding)
    (writeType : String → Fin schema.size → Value → WriteM Unit) (items : List Value)
    (bytes : Array UInt8) (position : Nat) :
    let each := writeValue schema e writeType field (.primitive p)
    let w : Writer := ⟨.appendingTo bytes, position⟩
    (∃ after, (e.writeElements each field (some p) items).run w = .ok () after ∧
      (items.forM each).run w = .ok () after) ∨
    ∃ fault mid last, (e.writeElements each field (some p) items).run w = .error fault mid ∧
      (items.forM each).run w = .error fault last := by
  intro each w
  have heach : ∀ v, WriteM.Writes (each v) (e.scalarImage field p v) := e.writes_scalar field p
  have hsingle : WriteM.Writes (items.forM each) (Image.each (e.scalarImage field p) items) :=
    WriteM.writes_each fun v _ => heach v
  rw [Encoding.each_scalarImage hp (e.scalarImage field p)] at hsingle
  have hblock := e.writes_elements heach field (some p) items
  cases himage : e.elementsImage (e.scalarImage field p) field (some p) items position with
  | ok b =>
    exact .inl ⟨_, hblock.run_of_image himage bytes, hsingle.run_of_image himage bytes⟩
  | error obstacle =>
    obtain ⟨mid, hfail⟩ := hblock.run_of_obstacle himage bytes
    obtain ⟨last, hfail'⟩ := hsingle.run_of_obstacle himage bytes
    exact .inr ⟨_, _, _, hfail, hfail'⟩

end

/-- For scalars that a run is made of, the way over a block is that over its elements. Counted
    without a limit they come to the same total or the same error. Written to the end of bytes they
    are the same bytes and end at the same position, or fail with the same error. Read without a
    limit, from wherever the reader stands, they are the same values and leave it at the same place,
    or are too few bytes for both. -/
theorem run_as_elements (schema : Schema) (field : String) {p : Primitive}
    (hp : p.isBlittable = true) :
    let t : MemberType schema.size := .primitive p
    (∀ repr levels items,
      let rules : SizeRules := ⟨repr, none⟩
      let each := addValue schema rules (addType schema rules levels) field t
      addElements rules each field t.blittable? items = items.forM each) ∧
    (∀ e levels items bytes position,
      let each := writeValue schema e (writeType schema e levels) field t
      let block := (e.writeElements each field t.blittable? items).run
        ⟨.appendingTo bytes, position⟩
      let single := (items.forM each).run ⟨.appendingTo bytes, position⟩
      (∃ after, block = .ok () after ∧ single = .ok () after) ∨
        ∃ fault mid last, block = .error fault mid ∧ single = .error fault last) ∧
    ∀ src levels count (c : Cursor), c.limit = .infinite →
      let each := readValue schema src (readType schema src levels) field t
      let block := (src.elements each field t.blittable? count).run c
      let single := (Source.many each count []).run c
      (∃ items after, block = .ok (.sequence items) after ∧ single = .ok items after) ∨
        ∃ fault other mid last, block = .error fault mid ∧ single = .error other last ∧
          fault.isShort = true ∧ other.isShort = true := by
  intro t
  rw [show t.blittable? = some p from MemberType.blittable?_primitive hp]
  refine ⟨?counted, ?written, ?read⟩
  case counted =>
    intro repr levels items
    exact addElements_of_blittable schema field hp repr _ items
  case written =>
    intro e levels items bytes position
    exact writeElements_of_blittable schema field hp e _ items bytes position
  case read =>
    intro src levels count c hlimit
    exact Source.run_elements_of_blittable field schema _ hp hlimit count

/-- Two numbers behind a byte, which the first of them is padded from. -/
theorem run_as_elements_pair :
    let t : MemberType Schema.gauge.size := .primitive .uint16
    let e : Encoding := ⟨.xcdr1, .big⟩
    let src : Source := ⟨#[9, 0, 1, 2, 3, 4], e, 0⟩
    let pair : List Value := [.scalar (.uint16 0x0102), .scalar (.uint16 0x0304)]
    let add := addValue Schema.gauge ⟨e.repr, none⟩ (addType Schema.gauge ⟨e.repr, none⟩ 1) "x" t
    let write := writeValue Schema.gauge e (writeType Schema.gauge e 1) "x" t
    let read := readValue Schema.gauge src (readType Schema.gauge src 1) "x" t
    Primitive.uint16.isBlittable = true ∧
      (pair.forM add).run ⟨1, 0⟩ = .ok ((), ⟨6, 5⟩) ∧
      (pair.forM write).run ⟨.appendingTo #[9], 1⟩ = .ok () ⟨.appendingTo src.bytes, 6⟩ ∧
      ∃ after, (Source.many read 2 []).run ⟨1, 6, none, 1, .infinite, []⟩ = .ok pair after ∧
        after.position = 6 := by
  intro t e src pair add write read
  obtain ⟨hcounted, hwritten, hread⟩ := run_as_elements Schema.gauge "x" (p := .uint16) rfl
  refine ⟨rfl, ?_, ?_, ?_⟩
  · rw [← hcounted]
    cbv
  · have hblock : (e.writeElements write "x" (some .uint16) pair).run ⟨.appendingTo #[9], 1⟩ =
        .ok () ⟨.appendingTo src.bytes, 6⟩ := by cbv
    rcases hwritten e 1 pair #[9] 1 with ⟨after, hdone, hsingle⟩ | ⟨fault, mid, last, hfail, -⟩
    · cases hblock.symm.trans hdone
      exact hsingle
    · cases hblock.symm.trans hfail
  · have hblock : (src.elements read "x" (some .uint16) 2).run ⟨1, 6, none, 1, .infinite, []⟩ =
        .ok (.sequence pair) ⟨6, 6, none, 6, .infinite, []⟩ := by cbv
    rcases hread src 1 2 ⟨1, 6, none, 1, .infinite, []⟩ rfl with
      ⟨items, after, hdone, hsingle⟩ | ⟨fault, other, mid, last, hfail, -⟩
    · cases hblock.symm.trans hdone
      exact ⟨_, hsingle, rfl⟩
    · cases hblock.symm.trans hfail

end Cdr
