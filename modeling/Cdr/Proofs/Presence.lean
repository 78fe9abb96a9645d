import Cdr.Proofs.OptionalMembers

/-! # Whether an optional member is present

An optional member is present where a word with the lowest bits of its id stands, and behind it a
value that ends just where the word says. A reader that finds anything else goes back to where it
stood, with the end and the owner it had, however many frames the attempt had opened. Only bytes
that are refused for another reason than being too few are not gone back from.
-/

namespace Cdr

open ReadM

namespace Cursor

variable {c : Cursor} {p q : Nat}

/-- The cursor at a position to which all bytes are charged. -/
def reach (c : Cursor) (position : Nat) : Cursor :=
  { c with position, highWater := max c.highWater position }

theorem reach_reach (h : p ≤ q) : (c.reach p).reach q = c.reach q := by
  simp only [reach, Nat.max_assoc, Nat.max_eq_right h]

end Cursor

namespace Source

/-- Where the header of an optional member begins that is looked for at a position. -/
def headerStart (src : Source) (position : Nat) : Nat :=
  position + padding (src.origin + position) 4

/-- The word that is read as the header of an optional member. -/
def headerWord (src : Source) (position : Nat) : Nat :=
  let start := src.headerStart position
  src.encoding.order.decode (src.bytes.extract start (start + 4)).toList

/-- Where the value of an optional member begins that is looked for at a position. -/
def valueStart (src : Source) (position : Nat) : Nat :=
  src.headerStart position + 4

/-- Where this value ends, if the header is to be believed. -/
def valueStop (src : Source) (position : Nat) : Nat :=
  src.valueStart position + src.headerWord position / 8

/-- Whether the header of a member stands at the cursor: a whole word with the lowest three bits of
    the member id, and as many bytes behind it as it announces. -/
structure Announces {n : Nat} (src : Source) (m : Member n) (c : Cursor) : Prop where
  header_le : src.valueStart c.position ≤ c.stop
  id_eq : src.headerWord c.position % 8 = m.id.toNat % 8
  value_le : src.valueStop c.position ≤ c.stop

variable (src : Source) (field : String) {c : Cursor} {size : Nat}

theorem run_take_reach (h : size ≤ c.remaining) (hlimit : c.limit = .infinite) :
    (src.take field size).run c =
      .ok (src.bytes.extract c.position (c.position + size)).toList
        (c.reach (c.position + size)) := by
  have hcharge : charge.run { c with position := c.position + size } =
      .ok () (c.reach (c.position + size)) := by
    by_cases hpast : c.highWater < c.position + size
    · simp only [EStateM.run, charge, if_pos hpast, hlimit, Limit.charge_infinite, Cursor.reach,
        Nat.max_eq_right (Nat.le_of_lt hpast)]
    · simp only [EStateM.run, charge, if_neg hpast, Cursor.reach,
        Nat.max_eq_left (Nat.le_of_not_lt hpast)]
  simp only [take, EStateM.run_bind, EStateM.run_get, if_neg (Nat.not_lt.2 h), EStateM.run_set,
    hcharge]
  rfl

/-- A word is read with the padding before it, where there is room for both. -/
theorem run_word_reach (hroom : src.valueStart c.position ≤ c.stop) (hlimit : c.limit = .infinite) :
    (src.word field).run c =
      .ok (src.headerWord c.position) (c.reach (src.valueStart c.position)) := by
  have hroom : src.headerStart c.position + 4 ≤ c.stop := hroom
  have hgap : padding (src.origin + c.position) 4 ≤ c.remaining := by
    unfold Cursor.remaining
    unfold headerStart at hroom
    omega
  have hskip : (src.take field (padding (src.origin + c.position) 4)).run c =
      .ok _ (c.reach (src.headerStart c.position)) :=
    src.run_take_reach field hgap hlimit
  have hword : 4 ≤ (c.reach (src.headerStart c.position)).remaining := by
    show 4 ≤ c.stop - src.headerStart c.position
    omega
  have htake : (src.take field 4).run (c.reach (src.headerStart c.position)) =
      .ok _ ((c.reach (src.headerStart c.position)).reach (src.valueStart c.position)) :=
    src.run_take_reach field hword hlimit
  have hle : src.headerStart c.position ≤ src.valueStart c.position := Nat.le_add_right _ _
  rw [Cursor.reach_reach hle] at htake
  simp only [word, skipPadding, Encoding.alignmentOf_uint32, EStateM.run_bind, EStateM.run_get,
    EStateM.run_pure, hskip, Primitive.size, htake]
  rfl

end Source

section

variable (schema : Schema) (src : Source) (readType : String → Fin schema.size → ReadM Value)
  (m : Member schema.size) {c : Cursor}

/-- Behind the header of a member its value is tried, with the end narrowed to where it has to
    end. -/
theorem run_readPresent_of_announces (h : src.Announces m c) (hlimit : c.limit = .infinite) :
    (readPresent schema src readType m).run c =
      (readWithin schema src readType m (src.valueStop c.position)).run
        (c.reach (src.valueStart c.position)) := by
  have hword := src.run_word_reach m.name h.header_le hlimit
  have hfits : src.headerWord c.position / 8 ≤
      (c.reach (src.valueStart c.position)).remaining := by
    have hlast := h.value_le
    unfold Source.valueStop at hlast
    show src.headerWord c.position / 8 ≤ c.stop - src.valueStart c.position
    omega
  have hroom : c.position + padding (src.origin + c.position) 4 + 4 ≤ c.stop := h.header_le
  rw [run_readPresent, if_pos hroom]
  simp only [EStateM.run_bind, EStateM.run_get, hword, h.id_eq, hfits, decide_true, Bool.and_self,
    if_true]
  rfl

/-- Without a header, no value is tried. -/
theorem run_readPresent_of_not_announces (h : ¬src.Announces m c) (hlimit : c.limit = .infinite) :
    ∃ after, (readPresent schema src readType m).run c = .ok none after := by
  rw [run_readPresent]
  by_cases hroom : c.position + padding (src.origin + c.position) 4 + 4 ≤ c.stop
  · have hword := src.run_word_reach m.name hroom hlimit
    have hcond : (src.headerWord c.position % 8 = m.id.toNat % 8 &&
        src.headerWord c.position / 8 ≤
          (c.reach (src.valueStart c.position)).remaining) = false := by
      refine Bool.eq_false_iff.2 fun hmatch => h ?_
      obtain ⟨hid, hfits⟩ := Bool.and_eq_true_iff.1 hmatch
      have hfits : src.headerWord c.position / 8 ≤ c.stop - src.valueStart c.position :=
        of_decide_eq_true hfits
      have hstart : src.valueStart c.position ≤ c.stop := hroom
      refine ⟨hroom, of_decide_eq_true hid, ?_⟩
      unfold Source.valueStop
      omega
    refine ⟨c.reach (src.valueStart c.position), ?_⟩
    rw [if_pos hroom]
    simp only [EStateM.run_bind, EStateM.run_get, hword, hcond, Bool.false_eq_true, if_false]
    rfl
  · exact ⟨c, by rw [if_neg hroom]; rfl⟩

/-- What is made of an attempt to read an optional member, by the cursor from before it. -/
theorem run_readOptional (c : Cursor) :
    (readOptional schema src readType m).run c =
      match (readPresent schema src readType m).run c with
      | .ok (some v) after => .ok (some v) after
      | .ok none after => .ok none { after with
          position := c.position
          events := .absent m.name c.position :: after.events }
      | .error fault after => .error fault after := by
  simp only [readOptional, EStateM.run_bind, EStateM.run_get]
  cases (readPresent schema src readType m).run c with
  | error fault after => rfl
  | ok found after => cases found <;> rfl

/-- A value that is read behind the header is the member's when it ends where the header says. -/
theorem run_readOptional_of_value (h : src.Announces m c) (hlimit : c.limit = .infinite) {v : Value}
    {mid : Cursor}
    (hvalue : (readValue schema src readType m.name m.type).run
      { c.reach (src.valueStart c.position) with stop := src.valueStop c.position } = .ok v mid) :
    (readOptional schema src readType m).run c =
      if mid.position = src.valueStop c.position then
        .ok (some v) { mid with stop := c.stop, owner := c.owner }
      else
        .ok none { mid with
          position := c.position
          stop := c.stop
          owner := c.owner
          events := .absent m.name c.position :: mid.events } := by
  simp only [EStateM.run] at hvalue
  rw [run_readOptional, run_readPresent_of_announces schema src readType m h hlimit]
  simp only [EStateM.run, readWithin, hvalue]
  by_cases hend : mid.position = src.valueStop c.position
  · simp only [if_pos hend]
    rfl
  · simp only [if_neg hend]
    rfl

/-- A value that cannot be read behind the header is none when it only has too few bytes. -/
theorem run_readOptional_of_fault (h : src.Announces m c) (hlimit : c.limit = .infinite)
    {fault : WireError} {mid : Cursor}
    (hvalue : (readValue schema src readType m.name m.type).run
      { c.reach (src.valueStart c.position) with stop := src.valueStop c.position } =
        .error fault mid) :
    (readOptional schema src readType m).run c =
      if fault.isShort then
        .ok none { mid with
          position := c.position
          stop := c.stop
          owner := c.owner
          events := .absent m.name c.position :: mid.events }
      else .error fault { mid with stop := c.stop, owner := c.owner } := by
  simp only [EStateM.run] at hvalue
  rw [run_readOptional, run_readPresent_of_announces schema src readType m h hlimit]
  simp only [EStateM.run, readWithin, hvalue]
  cases fault.isShort <;> rfl

/-- Without a header the member is absent. -/
theorem run_readOptional_of_not_announces (h : ¬src.Announces m c) (hlimit : c.limit = .infinite) :
    ∃ after, (readOptional schema src readType m).run c = .ok none after := by
  obtain ⟨after, hrun⟩ := run_readPresent_of_not_announces schema src readType m h hlimit
  rw [run_readOptional, hrun]
  exact ⟨_, rfl⟩

/-- An absent member leaves the reader where it was. -/
theorem restored_of_absent
    (htype : ∀ field i (c : Cursor), c.Sound src → Keeps src (readType field i) c)
    (hsound : c.Sound src) {after : Cursor}
    (h : (readOptional schema src readType m).run c = .ok none after) :
    after.position = c.position ∧ after.stop = c.stop ∧ after.owner = c.owner := by
  obtain ⟨-, -, hstop, howner⟩ := (keeps_readOptional htype m hsound).of_ok h
  refine ⟨?_, hstop, howner⟩
  rw [run_readOptional] at h
  cases hpresent : (readPresent schema src readType m).run c with
  | error fault last =>
    rw [hpresent] at h
    cases h
  | ok found last =>
    rw [hpresent] at h
    cases found <;> cases h
    rfl

end

/-- An optional member is read just where its header stands and its value ends where the header
    says. It is refused just where the header stands and the value is refused for another reason
    than too few bytes. Everywhere else it is absent. In any case the end and the owner are those
    from before, and the reader stands behind the value, or where it stood when there is none. -/
theorem readOptional_decides (schema : Schema) (src : Source) (levels : Nat)
    (m : Member schema.size) {c : Cursor} (hsound : c.Sound src) (hlimit : c.limit = .infinite) :
    let value := readValue schema src (readType schema src levels) m.name m.type
    let optional := readOptional schema src (readType schema src levels) m
    let start := src.valueStart c.position
    let last := src.valueStop c.position
    let inner : Cursor :=
      { c with position := start, stop := last, highWater := max c.highWater start }
    (∀ v after, optional.run c = .ok (some v) after ↔
      src.Announces m c ∧ ∃ mid, value.run inner = .ok v mid ∧ mid.position = last ∧
        after = { mid with stop := c.stop, owner := c.owner }) ∧
    (∀ fault after, optional.run c = .error fault after ↔
      src.Announces m c ∧ fault.isShort = false ∧ ∃ mid, value.run inner = .error fault mid ∧
        after = { mid with stop := c.stop, owner := c.owner }) ∧
    ((∃ after, optional.run c = .ok none after) ↔
      ¬src.Announces m c ∨ (∃ v mid, value.run inner = .ok v mid ∧ mid.position ≠ last) ∨
        ∃ fault mid, value.run inner = .error fault mid ∧ fault.isShort = true) ∧
    (∀ after, optional.run c = .ok none after →
      after.position = c.position ∧ after.stop = c.stop ∧ after.owner = c.owner) := by
  intro value optional start last inner
  have hback : ∀ after, optional.run c = .ok none after →
      after.position = c.position ∧ after.stop = c.stop ∧ after.owner = c.owner :=
    fun after => restored_of_absent schema src _ m (keeps_readType schema src levels) hsound
  by_cases hstands : src.Announces m c
  · cases hvalue : value.run inner with
    | ok v mid =>
      have hrun : optional.run c = _ :=
        run_readOptional_of_value schema src _ m hstands hlimit hvalue
      by_cases hend : mid.position = last
      · rw [if_pos hend] at hrun
        refine ⟨fun w after => ?_, fun fault after => by simp [hrun], by simp [hrun, hstands, hend],
          hback⟩
        simp only [hrun, hstands, EStateM.Result.ok.injEq, Option.some.injEq, true_and]
        constructor
        · rintro ⟨rfl, rfl⟩
          exact ⟨mid, ⟨rfl, rfl⟩, hend, rfl⟩
        · rintro ⟨-, ⟨rfl, rfl⟩, -, rfl⟩
          exact ⟨rfl, rfl⟩
      · rw [if_neg hend] at hrun
        exact ⟨fun w after => by simp [hrun, hend], fun fault after => by simp [hrun],
          by simp [hrun, hend], hback⟩
    | error fault mid =>
      have hrun : optional.run c = _ :=
        run_readOptional_of_fault schema src _ m hstands hlimit hvalue
      cases hshort : fault.isShort with
      | true =>
        rw [if_pos hshort] at hrun
        refine ⟨fun w after => by simp [hrun], fun other after => ?_, by simp [hrun, hshort], hback⟩
        simp only [hrun, EStateM.Result.error.injEq, false_iff, reduceCtorEq]
        rintro ⟨-, hother, -, ⟨rfl, -⟩, -⟩
        rw [hshort] at hother
        cases hother
      | false =>
        rw [if_neg (Bool.eq_false_iff.1 hshort)] at hrun
        refine ⟨fun w after => by simp [hrun], fun other after => ?_,
          by simp [hrun, hstands, hshort], hback⟩
        simp only [hrun, hstands, EStateM.Result.error.injEq, true_and]
        constructor
        · rintro ⟨rfl, rfl⟩
          exact ⟨hshort, mid, ⟨rfl, rfl⟩, rfl⟩
        · rintro ⟨-, -, ⟨rfl, rfl⟩, rfl⟩
          exact ⟨rfl, rfl⟩
  · obtain ⟨after, hrun⟩ :=
      run_readOptional_of_not_announces schema src (readType schema src levels) m hstands hlimit
    change optional.run c = .ok none after at hrun
    exact ⟨fun v after => by simp [hrun, hstands], fun fault after => by simp [hrun, hstands],
      by simp [hrun, hstands], hback⟩

/-- The word 32 announces four bytes for the member with the id 0, and four bytes follow it. -/
theorem readOptional_decides_gauge :
    let src : Source := ⟨#[8, 0, 0, 0, 32, 0, 0, 0, 7, 0, 0, 0], ⟨.xcdr2, .little⟩, 0⟩
    let c : Cursor := ⟨4, 12, some "Gauge", 4, .infinite, []⟩
    let limit : Member Schema.gauge.size := ⟨"limit", 0, .primitive .int32, true, false⟩
    Schema.gaugeDoc.compile = .ok Schema.gauge ∧ c.Sound src ∧ c.limit = .infinite ∧
      ∃ after,
        (readOptional Schema.gauge src (readType Schema.gauge src (maxDepth - 1)) limit).run c =
          .ok (some (.scalar (.int32 7))) after ∧ after.position = 12 ∧ after.stop = 12 ∧
          after.owner = some "Gauge" := by
  intro src c limit
  have hsound : c.Sound src := ⟨by decide, by decide⟩
  have hstands : src.Announces limit c := ⟨by decide, by decide, by decide⟩
  obtain ⟨hread, -⟩ := readOptional_decides Schema.gauge src (maxDepth - 1) limit hsound rfl
  let behind : Cursor := ⟨12, 12, some "Gauge", 12, .infinite, []⟩
  have hvalue : (readValue Schema.gauge src (readType Schema.gauge src (maxDepth - 1)) limit.name
      limit.type).run { c with
        position := src.valueStart c.position
        stop := src.valueStop c.position
        highWater := max c.highWater (src.valueStart c.position) } =
          .ok (.scalar (.int32 7)) behind := by
    cbv
  have hsome := (hread (.scalar (.int32 7)) behind).2 ⟨hstands, behind, hvalue, by decide, rfl⟩
  exact ⟨by decide +kernel, hsound, rfl, _, hsome, rfl, rfl, rfl⟩

end Cdr
