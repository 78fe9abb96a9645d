import Cdr.Wire.Reader

/-! # What a reader keeps

The position never passes the end of what may be read, and that end never passes the end of the
bytes. Every routine keeps this, whatever the bytes hold, and a routine that succeeds leaves the
end and its owner as it found them. A routine that fails may leave the end narrowed, but it fails
with an error that tells the truth.
-/

namespace Cdr

/-- The position lies before the end, and the end inside of the bytes. -/
structure Cursor.Sound (src : Source) (c : Cursor) : Prop where
  position_le : c.position ≤ c.stop
  stop_le : c.stop ≤ src.bytes.size

/-- What an error says of where it happened is so, when there are `size` bytes. -/
def WireError.Truthful (size : Nat) : WireError → Prop
  | truncated _ offset needed remaining => remaining < needed ∧ offset + remaining ≤ size
  | overrun _ stop position => stop < position ∧ position ≤ size
  | _ => True

namespace ReadM

/-- Whatever a read comes to, the cursor is sound and lies not before `outer`. A read that succeeds
    leaves the end and the owner of `outer`, and one that fails does so with a truthful error. -/
def Restores {α : Type} (src : Source) (outer : Cursor) (m : ReadM α) (c : Cursor) : Prop :=
  match m.run c with
  | .ok _ after =>
    after.Sound src ∧ outer.position ≤ after.position ∧ after.stop = outer.stop ∧
      after.owner = outer.owner
  | .error fault after =>
    after.Sound src ∧ outer.position ≤ after.position ∧ after.stop ≤ outer.stop ∧
      fault.Truthful src.bytes.size

/-- A read that leaves the end and the owner that it found. -/
def Keeps {α : Type} (src : Source) (m : ReadM α) (c : Cursor) : Prop :=
  Restores src c m c

variable {α β : Type} {src : Source} {c : Cursor}

theorem Keeps.of_ok {m : ReadM α} {a : α} {after : Cursor} (h : Keeps src m c)
    (hrun : m.run c = .ok a after) :
    after.Sound src ∧ c.position ≤ after.position ∧ after.stop = c.stop ∧
      after.owner = c.owner := by
  simpa only [Keeps, Restores, hrun] using h

theorem Keeps.of_error {m : ReadM α} {fault : WireError} {after : Cursor} (h : Keeps src m c)
    (hrun : m.run c = .error fault after) :
    after.Sound src ∧ c.position ≤ after.position ∧ after.stop ≤ c.stop ∧
      fault.Truthful src.bytes.size := by
  simpa only [Keeps, Restores, hrun] using h

theorem Keeps.intro_ok {m : ReadM α} {a : α} {after : Cursor} (hrun : m.run c = .ok a after)
    (hsound : after.Sound src) (hposition : c.position ≤ after.position)
    (hstop : after.stop = c.stop) (howner : after.owner = c.owner) : Keeps src m c := by
  simpa only [Keeps, Restores, hrun] using ⟨hsound, hposition, hstop, howner⟩

theorem Keeps.intro_error {m : ReadM α} {fault : WireError} {after : Cursor}
    (hrun : m.run c = .error fault after) (hsound : after.Sound src)
    (hposition : c.position ≤ after.position) (hstop : after.stop ≤ c.stop)
    (hfault : fault.Truthful src.bytes.size) : Keeps src m c := by
  simpa only [Keeps, Restores, hrun] using ⟨hsound, hposition, hstop, hfault⟩

theorem keeps_pure (hc : c.Sound src) (a : α) : Keeps src (pure a) c :=
  ⟨hc, Nat.le_refl _, rfl, rfl⟩

theorem keeps_throw (hc : c.Sound src) {fault : WireError} (h : fault.Truthful src.bytes.size) :
    Keeps src (throw fault : ReadM α) c :=
  ⟨hc, Nat.le_refl _, Nat.le_refl _, h⟩

/-- What comes next is entered at a sound cursor with the same end and owner. -/
theorem keeps_bind {m : ReadM α} {k : α → ReadM β} (hm : Keeps src m c)
    (hk : ∀ a after, m.run c = .ok a after → after.Sound src → Keeps src (k a) after) :
    Keeps src (m >>= k) c := by
  cases hrun : m.run c with
  | error fault after =>
    have hbind : (m >>= k).run c = .error fault after := by
      rw [EStateM.run_bind, hrun]
    simpa only [Keeps, Restores, hbind] using hm.of_error hrun
  | ok a after =>
    have hbind : (m >>= k).run c = (k a).run after := by
      rw [EStateM.run_bind, hrun]
    obtain ⟨hsound, hposition, hstop, howner⟩ := hm.of_ok hrun
    have hnext := hk a after hrun hsound
    simp only [Keeps, Restores, hbind] at hnext ⊢
    rw [hstop, howner] at hnext
    cases hlast : (k a).run after with
    | error fault last =>
      simp only [hlast] at hnext ⊢
      exact ⟨hnext.1, Nat.le_trans hposition hnext.2.1, hnext.2.2⟩
    | ok b last =>
      simp only [hlast] at hnext ⊢
      exact ⟨hnext.1, Nat.le_trans hposition hnext.2.1, hnext.2.2⟩

theorem keeps_ofExcept (hc : c.Sound src) {result : Except WireError α}
    (h : ∀ fault, result = .error fault → fault.Truthful src.bytes.size) :
    Keeps src (MonadExcept.ofExcept result) c := by
  cases result with
  | ok a => exact keeps_pure hc a
  | error fault => exact keeps_throw hc (h fault rfl)

theorem keeps_get (hc : c.Sound src) : Keeps src (get : ReadM Cursor) c :=
  .intro_ok (EStateM.run_get c) hc (Nat.le_refl _) rfl rfl

theorem keeps_checkBound (hc : c.Sound src) (field : String) (count : Nat)
    (bound : Option UInt32) :
    Keeps src (MonadExcept.ofExcept (checkBound field count bound)) c := by
  refine keeps_ofExcept hc fun fault h => ?_
  cases bound with
  | none => cases h
  | some bound =>
    simp only [checkBound] at h
    split at h
    · cases h
      trivial
    · cases h

theorem keeps_report (hc : c.Sound src) (event : Event) : Keeps src (report event) c :=
  .intro_ok (EStateM.run_modify _ c) ⟨hc.position_le, hc.stop_le⟩ (Nat.le_refl _) rfl rfl

/-- Charging moves nothing, and fails with the limit only. -/
theorem run_charge (c : Cursor) :
    (∃ limit highWater, charge.run c = .ok () { c with limit, highWater }) ∨
      charge.run c = .error .sizeLimit c := by
  by_cases h : c.highWater < c.position
  · cases hcharge : c.limit.charge (c.position - c.highWater) with
    | ok limit =>
      refine .inl ⟨limit, c.position, ?_⟩
      simp only [EStateM.run, charge, if_pos h, hcharge]
    | error fault =>
      have hfault : fault = .sizeLimit := by
        cases hlimit : c.limit with
        | infinite => simp [hlimit, Limit.charge] at hcharge
        | bounded left =>
          rw [hlimit, Limit.charge] at hcharge
          split at hcharge
          · cases hcharge
          · cases hcharge
            rfl
      refine .inr ?_
      simp only [EStateM.run, charge, if_pos h, hcharge, hfault]
  · refine .inl ⟨c.limit, c.highWater, ?_⟩
    simp only [EStateM.run, charge, if_neg h]

end ReadM

open ReadM

namespace Source

variable {src : Source} {c : Cursor}

theorem truthful_shortRead (hc : c.Sound src) (field : String) {size : Nat}
    (h : c.remaining < size) : (src.shortRead c field size).Truthful src.bytes.size := by
  have hposition := hc.position_le
  have hstop := hc.stop_le
  have htruncated : (WireError.truncated field c.position size c.remaining).Truthful
      src.bytes.size := by
    refine ⟨h, ?_⟩
    unfold Cursor.remaining
    omega
  unfold shortRead
  cases c.owner with
  | none => exact htruncated
  | some typeName =>
    simp only []
    split
    next hfits =>
      unfold Cursor.remaining at h
      exact ⟨by omega, by omega⟩
    next => exact htruncated

/-- A read that fits moves the position behind what it reads. -/
theorem run_take_of_le (src : Source) (field : String) {size : Nat} (h : size ≤ c.remaining) :
    (∃ limit highWater, (src.take field size).run c =
      .ok (src.bytes.extract c.position (c.position + size)).toList
        { c with position := c.position + size, limit, highWater }) ∨
    (src.take field size).run c = .error .sizeLimit { c with position := c.position + size } := by
  have hrun : (src.take field size).run c =
      (do charge; return (src.bytes.extract c.position (c.position + size)).toList :
        ReadM (List UInt8)).run { c with position := c.position + size } := by
    simp only [take, EStateM.run_bind, EStateM.run_get, if_neg (Nat.not_lt.2 h), EStateM.run_set]
  rw [hrun, EStateM.run_bind]
  rcases run_charge { c with position := c.position + size } with
    ⟨limit, highWater, hcharge⟩ | hcharge
  · rw [hcharge]
    exact .inl ⟨limit, highWater, rfl⟩
  · rw [hcharge]
    exact .inr rfl

theorem run_take_of_lt (src : Source) (field : String) {size : Nat} (h : c.remaining < size) :
    (src.take field size).run c = .error (src.shortRead c field size) c := by
  simp only [take, EStateM.run_bind, EStateM.run_get, if_pos h]
  rfl

theorem keeps_take (hc : c.Sound src) (field : String) (size : Nat) :
    Keeps src (src.take field size) c := by
  rcases Nat.lt_or_ge c.remaining size with h | h
  · exact .intro_error (run_take_of_lt src field h) hc (Nat.le_refl _) (Nat.le_refl _)
      (truthful_shortRead hc field h)
  · have hposition := hc.position_le
    have hend : c.position + size ≤ c.stop := by
      unfold Cursor.remaining at h
      omega
    rcases run_take_of_le src field h with ⟨limit, highWater, hrun⟩ | hrun
    · exact .intro_ok hrun ⟨hend, hc.stop_le⟩ (Nat.le_add_right _ _) rfl rfl
    · exact .intro_error hrun ⟨hend, hc.stop_le⟩ (Nat.le_add_right _ _) (Nat.le_refl _) trivial

/-- A read that succeeds has as many bytes as it asked for, all from inside of the source. -/
theorem length_of_take (hc : c.Sound src) {field : String} {size : Nat} {bytes : List UInt8}
    {after : Cursor} (h : (src.take field size).run c = .ok bytes after) :
    bytes.length = size ∧ c.position + size ≤ src.bytes.size := by
  have hstop := hc.stop_le
  have hposition := hc.position_le
  rcases Nat.lt_or_ge c.remaining size with hlt | hge
  · rw [run_take_of_lt src field hlt] at h
    cases h
  · have hend : c.position + size ≤ src.bytes.size := by
      unfold Cursor.remaining at hge
      omega
    rcases run_take_of_le src field hge with ⟨limit, highWater, hrun⟩ | hrun
    · rw [hrun] at h
      cases h
      rw [Array.length_toList, Array.size_extract]
      omega
    · rw [hrun] at h
      cases h

theorem keeps_skipPadding (hc : c.Sound src) (field : String) (alignment : Nat) :
    Keeps src (src.skipPadding field alignment) c := by
  have htake := keeps_take hc field (padding (src.origin + c.position) alignment)
  have hrun : (src.skipPadding field alignment).run c =
      (do
        let _ ← src.take field (padding (src.origin + c.position) alignment)
        : ReadM Unit).run c := by
    simp only [skipPadding, EStateM.run_bind, EStateM.run_get]
  have hkeeps := keeps_bind htake fun bytes after _ hafter => keeps_pure (α := Unit) hafter ()
  simpa only [Keeps, Restores, hrun] using hkeeps

theorem truthful_readScalar {e : Encoding} {p : Primitive} {bytes : List UInt8} {fault : WireError}
    (h : e.readScalar p bytes = .error fault) (size : Nat) : fault.Truthful size := by
  simp only [Encoding.readScalar] at h
  split at h
  · cases h
  · cases h
    trivial
  · cases h
    trivial

theorem keeps_scalar (hc : c.Sound src) (field : String) (p : Primitive) :
    Keeps src (src.scalar field p) c := by
  refine keeps_bind (keeps_skipPadding hc field _) fun _ after _ hafter => ?_
  refine keeps_bind (keeps_take hafter field _) fun bytes last _ hlast => ?_
  exact keeps_ofExcept hlast fun fault h => truthful_readScalar h _

theorem keeps_word (hc : c.Sound src) (field : String) : Keeps src (src.word field) c := by
  refine keeps_bind (keeps_skipPadding hc field _) fun _ after _ hafter => ?_
  refine keeps_bind (keeps_take hafter field _) fun bytes last _ hlast => ?_
  exact keeps_pure hlast _

theorem truthful_scalars {e : Encoding} {p : Primitive} {count : Nat} {bytes : List UInt8}
    {fault : WireError} (h : scalars e p count bytes = .error fault) (size : Nat) :
    fault.Truthful size := by
  induction count generalizing bytes with
  | zero => cases h
  | succ count ih =>
    simp only [scalars, bind, Except.bind] at h
    cases hfirst : e.readScalar p (bytes.take p.size) with
    | error other =>
      rw [hfirst] at h
      cases h
      exact truthful_readScalar hfirst size
    | ok s =>
      rw [hfirst] at h
      simp only [] at h
      cases hrest : scalars e p count (bytes.drop p.size) with
      | error other =>
        rw [hrest] at h
        cases h
        exact ih hrest
      | ok rest =>
        rw [hrest] at h
        cases h

theorem keeps_many {each : ReadM Value} (heach : ∀ c : Cursor, c.Sound src → Keeps src each c)
    (hc : c.Sound src) (count : Nat) (rev : List Value) : Keeps src (many each count rev) c := by
  induction count generalizing c rev with
  | zero => exact keeps_pure hc _
  | succ count ih =>
    exact keeps_bind (heach c hc) fun v after _ hafter => ih hafter (v :: rev)

theorem keeps_elements {each : ReadM Value} (heach : ∀ c : Cursor, c.Sound src → Keeps src each c)
    (hc : c.Sound src) (field : String) (run : Option Primitive) (count : Nat) :
    Keeps src (src.elements each field run count) c := by
  unfold elements
  cases run with
  | none => exact keeps_bind (keeps_many heach hc count []) fun items _ _ h => keeps_pure h _
  | some p =>
    simp only []
    split
    · exact keeps_pure hc _
    · refine keeps_bind (keeps_skipPadding hc field _) fun _ after _ hafter => ?_
      refine keeps_bind (keeps_take hafter field _) fun bytes last _ hlast => ?_
      refine keeps_bind (keeps_ofExcept hlast fun fault h => truthful_scalars h _) ?_
      exact fun items _ _ h => keeps_pure h _

theorem keeps_text (hc : c.Sound src) (bytes : List UInt8) : Keeps src (text bytes) c := by
  unfold text
  split
  · exact keeps_pure hc _
  · exact keeps_throw hc trivial

end Source

namespace Frame

/-- How the cursor inside of a body stands to the one from before its frame was opened. A frame
    ends inside of what lies around it. -/
def Around (outer : Cursor) (frame : Option Frame) (c : Cursor) : Prop :=
  match frame with
  | none => c.stop = outer.stop ∧ c.owner = outer.owner
  | some f =>
    c.stop = f.stop ∧ f.stop ≤ f.outerStop ∧ f.outerStop = outer.stop ∧ f.outerOwner = outer.owner

theorem Around.stop_le {outer c : Cursor} {frame : Option Frame} (h : Around outer frame c) :
    c.stop ≤ outer.stop := by
  cases frame with
  | none => exact Nat.le_of_eq h.1
  | some f =>
    obtain ⟨hstop, hle, houter, -⟩ := h
    omega

theorem Around.congr {outer c after : Cursor} {frame : Option Frame} (h : Around outer frame c)
    (hstop : after.stop = c.stop) (howner : after.owner = c.owner) : Around outer frame after := by
  cases frame with
  | none => exact ⟨hstop.trans h.1, howner.trans h.2⟩
  | some f => exact ⟨hstop.trans h.1, h.2⟩

end Frame

namespace ReadM

open Cdr.Frame

variable {α β : Type} {src : Source} {outer c : Cursor} {frame : Option Frame}

/-- Inside of a body, what comes next is entered inside of that body. -/
theorem restores_bind {m : ReadM α} {k : α → ReadM β} (hm : Keeps src m c)
    (hposition : outer.position ≤ c.position) (haround : Around outer frame c)
    (hk : ∀ a after, m.run c = .ok a after → after.Sound src → outer.position ≤ after.position →
      Around outer frame after → Restores src outer (k a) after) :
    Restores src outer (m >>= k) c := by
  cases hrun : m.run c with
  | error fault after =>
    obtain ⟨hsound, hle, hstop, hfault⟩ := hm.of_error hrun
    simp only [Restores, EStateM.run_bind, hrun]
    exact ⟨hsound, Nat.le_trans hposition hle, Nat.le_trans hstop haround.stop_le, hfault⟩
  | ok a after =>
    obtain ⟨hsound, hle, hstop, howner⟩ := hm.of_ok hrun
    have hnext := hk a after hrun hsound (Nat.le_trans hposition hle) (haround.congr hstop howner)
    simpa only [Restores, EStateM.run_bind, hrun] using hnext

theorem keeps_atEnd (hc : c.Sound src) : Keeps src atEnd c :=
  .intro_ok (a := decide (c.stop ≤ c.position)) rfl hc (Nat.le_refl _) rfl rfl

end ReadM

section

open Cdr.Frame

variable {src : Source} {outer c : Cursor} {frame : Option Frame}

theorem keeps_checkCount (schema : Schema) (hc : c.Sound src) (field : String)
    (element : MemberType schema.size) (count : Nat) :
    Keeps src (checkCount schema src field element count) c := by
  have hposition := hc.position_le
  have hstop := hc.stop_le
  refine keeps_bind (keeps_get hc) ?_
  intro a after hrun hafter
  cases hrun
  simp only []
  split
  next h =>
    refine keeps_throw hc ⟨h, ?_⟩
    unfold Cursor.remaining
    omega
  next => exact keeps_pure hc ()

theorem openFrame_of_delimited {typeName : String} {extensibility : Extensibility}
    (h : src.encoding.repr.isDelimited extensibility) :
    openFrame src typeName extensibility = (do
      let length ← src.word typeName
      let c ← get
      if c.remaining < length then throw (.truncated typeName c.position length c.remaining)
      else
        let stop := c.position + length
        set { c with stop, owner := some typeName }
        return some ⟨stop, c.stop, c.owner⟩) := by
  unfold openFrame
  rw [if_pos h]

theorem run_openFrame_of_fits {typeName : String} {extensibility : Extensibility} {length : Nat}
    {after : Cursor} (h : src.encoding.repr.isDelimited extensibility)
    (hword : (src.word typeName).run c = .ok length after) (hfits : ¬after.remaining < length) :
    (openFrame src typeName extensibility).run c =
      .ok (some ⟨after.position + length, after.stop, after.owner⟩)
        { after with stop := after.position + length, owner := some typeName } := by
  rw [openFrame_of_delimited h, EStateM.run_bind, hword]
  simp only [EStateM.run_bind, EStateM.run_get, if_neg hfits, EStateM.run_set]
  rfl

theorem run_openFrame_of_not {typeName : String} {extensibility : Extensibility}
    (h : ¬src.encoding.repr.isDelimited extensibility) :
    (openFrame src typeName extensibility).run c = .ok none c := by
  unfold openFrame
  rw [if_neg h]
  rfl

/-- A frame is opened only when it ends inside of what lies around it. -/
theorem run_openFrame (hc : c.Sound src) (typeName : String) (extensibility : Extensibility) :
    (∃ frame after, (openFrame src typeName extensibility).run c = .ok frame after ∧
      after.Sound src ∧ c.position ≤ after.position ∧ Around c frame after) ∨
    (∃ fault after, (openFrame src typeName extensibility).run c = .error fault after ∧
      after.Sound src ∧ c.position ≤ after.position ∧ after.stop ≤ c.stop ∧
      fault.Truthful src.bytes.size) := by
  by_cases hframed : src.encoding.repr.isDelimited extensibility
  · have hkeeps := Source.keeps_word hc typeName
    cases hword : (src.word typeName).run c with
    | error fault after =>
      refine .inr ⟨fault, after, ?_, hkeeps.of_error hword⟩
      rw [openFrame_of_delimited hframed, EStateM.run_bind, hword]
    | ok length after =>
      obtain ⟨hsound, hle, hstop, howner⟩ := hkeeps.of_ok hword
      have hposition := hsound.position_le
      have hbytes := hsound.stop_le
      by_cases hfits : after.remaining < length
      · have hrun : (openFrame src typeName extensibility).run c =
            .error (.truncated typeName after.position length after.remaining) after := by
          rw [openFrame_of_delimited hframed, EStateM.run_bind, hword]
          simp only [EStateM.run_bind, EStateM.run_get, if_pos hfits]
          rfl
        refine .inr ⟨_, _, hrun, hsound, hle, Nat.le_of_eq hstop, hfits, ?_⟩
        unfold Cursor.remaining
        omega
      · have hrun := run_openFrame_of_fits hframed hword hfits
        unfold Cursor.remaining at hfits
        have hend : after.position + length ≤ after.stop := by omega
        refine .inl ⟨_, _, hrun, ⟨?_, ?_⟩, hle, rfl, hend, hstop, howner⟩
        · exact Nat.le_add_right _ _
        · exact Nat.le_trans hend hbytes
  · exact .inl ⟨none, c, run_openFrame_of_not hframed, hc, Nat.le_refl _, rfl, rfl⟩

theorem keeps_openFrame {α : Type} (hc : c.Sound src) (typeName : String)
    (extensibility : Extensibility) {k : Option Frame → ReadM α}
    (hk : ∀ frame after, after.Sound src → c.position ≤ after.position → Around c frame after →
      Restores src c (k frame) after) :
    Keeps src (openFrame src typeName extensibility >>= k) c := by
  rcases run_openFrame hc typeName extensibility with
    ⟨frame, after, hrun, hsound, hle, haround⟩ | ⟨fault, after, hrun, hsound, hle, hstop, hfault⟩
  · have hnext := hk frame after hsound hle haround
    simpa only [Keeps, Restores, EStateM.run_bind, hrun] using hnext
  · refine .intro_error ?_ hsound hle hstop hfault
    rw [EStateM.run_bind, hrun]

/-- The body of a frame is skipped to its end, which the position has not passed. -/
theorem run_closeFrame (typeName : String) (hc : c.Sound src) (houter : outer.Sound src)
    (hposition : outer.position ≤ c.position) (haround : Around outer frame c) :
    (∃ after, (closeFrame typeName frame).run c = .ok () after ∧ after.Sound src ∧
      outer.position ≤ after.position ∧ after.stop = outer.stop ∧ after.owner = outer.owner) ∨
    (∃ after, (closeFrame typeName frame).run c = .error .sizeLimit after ∧ after.Sound src ∧
      outer.position ≤ after.position ∧ after.stop ≤ outer.stop) := by
  have hle := hc.position_le
  have hbytes := houter.stop_le
  cases frame with
  | none => exact .inl ⟨c, rfl, hc, hposition, haround.1, haround.2⟩
  | some f =>
    obtain ⟨hstop, hinside, houterStop, howner⟩ := id haround
    have hreached : ¬f.stop < c.position := by omega
    by_cases hskip : c.position < f.stop
    · -- What lies beyond the known members is charged when it is skipped.
      have hrun : (closeFrame typeName (some f)).run c = (do
          charge
          modify fun c => { c with stop := f.outerStop, owner := f.outerOwner } : ReadM Unit).run
            { c with
              position := f.stop
              events := .skipped (f.stop - c.position) typeName :: c.events } := by
        simp only [closeFrame, EStateM.run_bind, EStateM.run_get, if_neg hreached, if_pos hskip,
          report, EStateM.run_modify]
      rw [hrun, EStateM.run_bind]
      rcases run_charge { c with
          position := f.stop
          events := .skipped (f.stop - c.position) typeName :: c.events } with
        ⟨limit, highWater, hcharge⟩ | hcharge
      · rw [hcharge]
        refine .inl ⟨_, rfl, ⟨?_, ?_⟩, ?_, houterStop, howner⟩
        · exact hinside
        · simpa only [houterStop] using hbytes
        · exact Nat.le_trans hposition (Nat.le_of_lt hskip)
      · rw [hcharge]
        refine .inr ⟨_, rfl, ⟨?_, hc.stop_le⟩, ?_, haround.stop_le⟩
        · exact Nat.le_of_eq haround.1.symm
        · exact Nat.le_trans hposition (Nat.le_of_lt hskip)
    · have hrun : (closeFrame typeName (some f)).run c =
          .ok () { c with stop := f.outerStop, owner := f.outerOwner } := by
        simp only [closeFrame, EStateM.run_bind, EStateM.run_get, if_neg hreached, if_neg hskip,
          EStateM.run_modify]
      refine .inl ⟨_, hrun, ⟨?_, ?_⟩, hposition, houterStop, howner⟩
      · exact Nat.le_trans (Nat.le_of_not_lt hreached) hinside
      · simpa only [houterStop] using hbytes

theorem restores_closeFrame {α : Type} (typeName : String) (hc : c.Sound src)
    (houter : outer.Sound src) (hposition : outer.position ≤ c.position)
    (haround : Around outer frame c) (a : α) :
    Restores src outer (do closeFrame typeName frame; return a) c := by
  rcases run_closeFrame typeName hc houter hposition haround with
    ⟨after, hrun, hsound, hle, hstop, howner⟩ | ⟨after, hrun, hsound, hle, hstop⟩
  · simp only [Restores, EStateM.run_bind, hrun, EStateM.run_pure]
    exact ⟨hsound, hle, hstop, howner⟩
  · simp only [Restores, EStateM.run_bind, hrun]
    exact ⟨hsound, hle, hstop, trivial⟩

end

/-- A header is read only where there is room for one. -/
theorem run_readPresent (schema : Schema) (src : Source)
    (readType : String → Fin schema.size → ReadM Value) (m : Member schema.size) (c : Cursor) :
    (readPresent schema src readType m).run c =
      (if c.position + padding (src.origin + c.position) 4 + 4 ≤ c.stop then do
        let header ← src.word m.name
        let c ← get
        if header % 8 = m.id.toNat % 8 && header / 8 ≤ c.remaining then
          readWithin schema src readType m (c.position + header / 8)
        else return none
      else return none : ReadM (Option Value)).run c := rfl

section

open Cdr.Frame

variable {schema : Schema} {src : Source} {readType : String → Fin schema.size → ReadM Value}
  (htype : ∀ field i (c : Cursor), c.Sound src → Keeps src (readType field i) c)

include htype

theorem keeps_readValue (field : String) (type : MemberType schema.size) {c : Cursor}
    (hc : c.Sound src) : Keeps src (readValue schema src readType field type) c := by
  induction type generalizing c with
  | primitive p =>
    exact keeps_bind (Source.keeps_scalar hc field p) fun s _ _ hafter => keeps_pure hafter _
  | string bound =>
    refine keeps_bind (Source.keeps_word hc field) fun count after _ hafter => ?_
    split
    · exact keeps_pure hafter _
    · refine keeps_bind (keeps_checkBound hafter field _ bound) fun _ checked _ hchecked => ?_
      refine keeps_bind (Source.keeps_take hchecked field count) fun bytes last _ hlast => ?_
      exact Source.keeps_text hlast _
  | fixedString capacity =>
    refine keeps_bind (Source.keeps_take hc field _) fun bytes after _ hafter => ?_
    exact Source.keeps_text hafter _
  | sequence element bound ih =>
    refine keeps_bind (Source.keeps_word hc field) fun count after _ hafter => ?_
    refine keeps_bind (keeps_checkBound hafter field count bound) fun _ bounded _ hbounded => ?_
    refine keeps_bind (keeps_checkCount schema hbounded field element count) ?_
    exact fun _ checked _ hchecked => Source.keeps_elements (fun _ h => ih h) hchecked field _ count
  | array element length ih => exact Source.keeps_elements (fun _ h => ih h) hc field _ _
  | type i => exact htype field i c hc

/-- The end is narrowed for a member and put back behind it, whether or not it could be read. -/
theorem keeps_readWithin (m : Member schema.size) {c : Cursor} (hc : c.Sound src) {stop : Nat}
    (hposition : c.position ≤ stop) (hstop : stop ≤ c.stop) :
    Keeps src (readWithin schema src readType m stop) c := by
  have hnarrow : Cursor.Sound src { c with stop } := ⟨hposition, Nat.le_trans hstop hc.stop_le⟩
  have hvalue := keeps_readValue htype m.name m.type hnarrow
  cases hrun : (readValue schema src readType m.name m.type).run { c with stop } with
  | ok v after =>
    obtain ⟨hsound, hle, hend, -⟩ := hvalue.of_ok hrun
    have hlast : (readWithin schema src readType m stop).run c =
        .ok (if after.position = stop then some v else none)
          { after with stop := c.stop, owner := c.owner } := by
      simp only [EStateM.run] at hrun
      simp only [EStateM.run, readWithin, hrun]
    refine .intro_ok hlast ⟨?_, hc.stop_le⟩ hle rfl rfl
    exact Nat.le_trans hsound.position_le (Nat.le_trans (Nat.le_of_eq hend) hstop)
  | error fault after =>
    obtain ⟨hsound, hle, hend, hfault⟩ := hvalue.of_error hrun
    have hlast : (readWithin schema src readType m stop).run c =
        if fault.isShort then .ok none { after with stop := c.stop, owner := c.owner }
        else .error fault { after with stop := c.stop, owner := c.owner } := by
      simp only [EStateM.run] at hrun
      simp only [EStateM.run, readWithin, hrun]
    have hwide : Cursor.Sound src { after with stop := c.stop, owner := c.owner } := by
      refine ⟨?_, hc.stop_le⟩
      exact Nat.le_trans hsound.position_le (Nat.le_trans hend hstop)
    split at hlast
    · exact .intro_ok hlast hwide hle rfl rfl
    · exact .intro_error hlast hwide hle (Nat.le_refl _) hfault

theorem keeps_readPresent (m : Member schema.size) {c : Cursor} (hc : c.Sound src) :
    Keeps src (readPresent schema src readType m) c := by
  have hkeeps : Keeps src (if c.position + padding (src.origin + c.position) 4 + 4 ≤ c.stop then do
        let header ← src.word m.name
        let c ← get
        if header % 8 = m.id.toNat % 8 && header / 8 ≤ c.remaining then
          readWithin schema src readType m (c.position + header / 8)
        else return none
      else return none : ReadM (Option Value)) c := by
    split
    · refine keeps_bind (Source.keeps_word hc m.name) fun header after _ hafter => ?_
      refine keeps_bind (keeps_get hafter) ?_
      intro seen last hseen hlast
      cases hseen
      split
      next hmatch =>
        obtain ⟨-, hfits⟩ := Bool.and_eq_true_iff.1 hmatch
        have hfits : header / 8 ≤ after.remaining := of_decide_eq_true hfits
        have hposition := hlast.position_le
        unfold Cursor.remaining at hfits
        exact keeps_readWithin htype m hlast (Nat.le_add_right _ _) (by omega)
      next => exact keeps_pure hlast none
    · exact keeps_pure hc none
  simpa only [Keeps, Restores, run_readPresent] using hkeeps

/-- An optional member that is absent leaves the position where it was. -/
theorem keeps_readOptional (m : Member schema.size) {c : Cursor} (hc : c.Sound src) :
    Keeps src (readOptional schema src readType m) c := by
  have hpresent := keeps_readPresent htype m hc
  cases hrun : (readPresent schema src readType m).run c with
  | error fault after =>
    obtain ⟨hsound, hle, hstop, hfault⟩ := hpresent.of_error hrun
    refine .intro_error ?_ hsound hle hstop hfault
    simp only [readOptional, EStateM.run_bind, EStateM.run_get, hrun]
  | ok found after =>
    obtain ⟨hsound, hle, hstop, howner⟩ := hpresent.of_ok hrun
    cases found with
    | some v =>
      have hread : (readOptional schema src readType m).run c = .ok (some v) after := by
        simp only [readOptional, EStateM.run_bind, EStateM.run_get, hrun]
        rfl
      exact .intro_ok hread hsound hle hstop howner
    | none =>
      have hback : (readOptional schema src readType m).run c =
          .ok none { after with
            position := c.position
            events := .absent m.name c.position :: after.events } := by
        simp only [readOptional, EStateM.run_bind, EStateM.run_get, hrun, EStateM.run_modify,
          report]
        rfl
      refine .intro_ok hback ⟨?_, hsound.stop_le⟩ (Nat.le_refl _) hstop howner
      exact Nat.le_trans hc.position_le (Nat.le_of_eq hstop.symm)

theorem keeps_readMembers (framed : Bool) (ms : List (Member schema.size)) (fields : Entries Value)
    {c : Cursor} (hc : c.Sound src) :
    Keeps src (readMembers schema src readType framed ms fields) c := by
  induction ms generalizing fields c with
  | nil => exact keeps_pure hc fields
  | cons m rest ih =>
    unfold readMembers
    refine keeps_bind (keeps_atEnd hc) fun ended after _ hafter => ?_
    split
    · exact ih _ hafter
    · split
      · refine keeps_bind (keeps_readOptional htype m hafter) fun found last _ hlast => ?_
        cases found with
        | some v => exact ih _ hlast
        | none => exact ih _ hlast
      · refine keeps_bind (keeps_readValue htype m.name m.type hafter) fun v last _ hlast => ?_
        exact ih _ hlast

theorem keeps_readStruct (typeName : String) (extensibility : Extensibility)
    (s : StructType schema.size) {c : Cursor} (hc : c.Sound src) :
    Keeps src (readStruct schema src readType typeName extensibility s) c := by
  refine keeps_openFrame hc typeName extensibility fun frame after hafter hle haround => ?_
  refine restores_bind (keeps_readMembers htype _ _ _ hafter) hle haround ?_
  intro fields last _ hlast hposition haround
  exact restores_closeFrame typeName hlast hc hposition haround _

theorem keeps_readArm (typeName : String) (framed : Bool) (u : UnionType schema.size) (d : Int64)
    {c : Cursor} (hc : c.Sound src) :
    Keeps src (readArm schema src readType typeName framed u d) c := by
  unfold readArm
  cases u.select d with
  | none => exact keeps_bind (keeps_report hc _) fun _ _ _ hafter => keeps_pure hafter none
  | some arm =>
    refine keeps_bind (keeps_atEnd hc) fun ended after _ hafter => ?_
    split
    · exact keeps_pure hafter _
    · refine keeps_bind (keeps_readValue htype _ _ hafter) fun v last _ hlast => ?_
      exact keeps_pure hlast _

theorem keeps_readUnion (typeName : String) (extensibility : Extensibility)
    (u : UnionType schema.size) {c : Cursor} (hc : c.Sound src) :
    Keeps src (readUnion schema src readType typeName extensibility u) c := by
  refine keeps_openFrame hc typeName extensibility fun frame after hafter hle haround => ?_
  refine restores_bind (keeps_atEnd hafter) hle haround ?_
  intro ended inner _ hinner hle haround
  split
  · exact restores_closeFrame typeName hinner hc hle haround _
  · refine restores_bind (keeps_readValue htype _ _ hinner) hle haround ?_
    intro disc behind _ hbehind hle haround
    cases discriminatorOf? disc with
    | none =>
      refine ⟨hbehind, hle, haround.stop_le, trivial⟩
    | some d =>
      refine restores_bind (keeps_readArm htype _ _ u d hbehind) hle haround ?_
      intro arm last _ hlast hle haround
      exact restores_closeFrame typeName hlast hc hle haround _

end

theorem keeps_readType (schema : Schema) (src : Source) (levels : Nat) (field : String)
    (i : Fin schema.size) (c : Cursor) (hc : c.Sound src) :
    Keeps src (readType schema src levels field i) c := by
  induction levels generalizing field i c with
  | zero => exact keeps_throw hc trivial
  | succ levels ih =>
    simp only [readType]
    cases (schema.get i).body with
    | struct s => exact keeps_readStruct ih _ _ s hc
    | union u => exact keeps_readUnion ih _ _ u hc
    | enumeration _ =>
      refine keeps_bind (Source.keeps_scalar hc field .int32) fun s after _ hafter => ?_
      split
      · exact keeps_pure hafter _
      · exact keeps_throw hafter trivial

namespace Schema

variable {schema : Schema} {src : Source} {i : Fin schema.size} {limit : Limit}

theorem run_of_decode {v : Value} {n : Nat} (h : (schema.decode src i limit).result = .ok (v, n)) :
    ∃ after, (readType schema src maxDepth "" i).run (src.start limit) = .ok v after := by
  simp only [decode, read, outcome] at h
  cases hrun : (readType schema src maxDepth "" i).run (src.start limit) with
  | error fault after =>
    rw [hrun] at h
    cases h
  | ok w after =>
    rw [hrun] at h
    cases h
    exact ⟨after, rfl⟩

/-- The bytes that are counted are those up to where the read ends. -/
theorem position_of_decode {v w : Value} {n : Nat} {after : Cursor}
    (h : (schema.decode src i limit).result = .ok (v, n))
    (hrun : (readType schema src maxDepth "" i).run (src.start limit) = .ok w after) :
    after.position = n := by
  simp only [decode, read, outcome] at h
  rw [hrun] at h
  cases h
  rfl

end Schema

end Cdr
