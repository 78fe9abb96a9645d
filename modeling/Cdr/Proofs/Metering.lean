import Cdr.Proofs.Surfacing

/-! # Metered routines

A routine under a limit is run side by side with the same routine under none. What is left of the
limit is always what the high-water mark of the other run leaves of it, so that mark decides alone
how the two runs compare. The way back from where an optional member does not stand lowers no mark,
and coming to the same bytes again raises none.
-/

namespace Cdr

open ReadM Cdr.Frame

/-- A cursor without a limit that was nowhere behind its high-water mark. -/
structure Cursor.Unlimited (src : Source) (c : Cursor) : Prop where
  limit_eq : c.limit = .infinite
  position_le : c.position ≤ c.highWater
  highWater_le : c.highWater ≤ src.bytes.size
  stop_le : c.stop ≤ src.bytes.size

/-- The cursor with what a limit of `n` bytes has left where it stands. -/
def Cursor.under (n : Nat) (c : Cursor) : Cursor :=
  { c with limit := .bounded (n - c.highWater) }

namespace Cursor.Unlimited

variable {src : Source} {c : Cursor}

theorem start (src : Source) : (src.start .infinite).Unlimited src :=
  ⟨rfl, Nat.le_refl _, Nat.zero_le _, Nat.le_refl _⟩

theorem end_le (h : c.Unlimited src) {size : Nat} (hfits : size ≤ c.remaining) :
    c.position + size ≤ src.bytes.size := by
  have hposition := h.position_le
  have hhighWater := h.highWater_le
  have hstop := h.stop_le
  unfold remaining at hfits
  omega

/-- Only the end and its owner change, as where a body begins or ends. -/
theorem move_stop (h : c.Unlimited src) {stop : Nat} (hstop : stop ≤ src.bytes.size)
    (owner : Option String) : Unlimited src { c with stop, owner } :=
  ⟨h.limit_eq, h.position_le, h.highWater_le, hstop⟩

theorem go_back (h : c.Unlimited src) {position : Nat} (hposition : position ≤ c.highWater) :
    Unlimited src { c with position } :=
  ⟨h.limit_eq, hposition, h.highWater_le, h.stop_le⟩

end Cursor.Unlimited

namespace ReadM

variable {α β : Type} {src : Source} {c : Cursor}

/-- How a read under a limit follows the one without. Where the limit covers the high-water mark
    that the latter leaves, both come to the same, and otherwise the limit is the error. -/
structure Metered (src : Source) (m : ReadM α) (c : Cursor) : Prop where
  unlimited : (m.outcome c).2.Unlimited src
  grows : c.highWater ≤ (m.outcome c).2.highWater
  noLimit : (m.outcome c).1 ≠ .error .sizeLimit
  covered : ∀ n, (m.outcome c).2.highWater ≤ n →
    m.outcome (c.under n) = ((m.outcome c).1, (m.outcome c).2.under n)
  exhausted : ∀ n, c.highWater ≤ n → n < (m.outcome c).2.highWater →
    (m.outcome (c.under n)).1 = .error .sizeLimit

/-- A read that is another one at another cursor, with and without a limit. -/
theorem Metered.of_outcome {m other : ReadM α} {there : Cursor} (h : Metered src other there)
    (hmark : there.highWater = c.highWater) (houtcome : m.outcome c = other.outcome there)
    (hunder : ∀ n, m.outcome (c.under n) = other.outcome (there.under n)) : Metered src m c where
  unlimited := by rw [houtcome]; exact h.unlimited
  grows := by rw [houtcome, ← hmark]; exact h.grows
  noLimit := by rw [houtcome]; exact h.noLimit
  covered n hn := by
    rw [houtcome] at hn ⊢
    rw [hunder]
    exact h.covered n hn
  exhausted n hreached hn := by
    rw [houtcome] at hn
    rw [hunder]
    exact h.exhausted n (by rw [hmark]; exact hreached) hn

/-- A read that needs no bytes and does the same under every limit. -/
theorem Metered.free {m : ReadM α} {result : Except WireError α} {after : Cursor}
    (hafter : after.Unlimited src) (hmark : after.highWater = c.highWater)
    (houtcome : m.outcome c = (result, after))
    (hunder : ∀ n, m.outcome (c.under n) = (result, after.under n))
    (hresult : result ≠ .error .sizeLimit) : Metered src m c where
  unlimited := by rw [houtcome]; exact hafter
  grows := by rw [houtcome, ← hmark]
  noLimit := by rw [houtcome]; exact hresult
  covered n _ := by rw [houtcome]; exact hunder n
  exhausted n hreached hn := by
    rw [houtcome, hmark] at hn
    omega

theorem metered_pure (hc : c.Unlimited src) (a : α) : Metered src (pure a) c := by
  refine .free hc rfl rfl (fun _ => rfl) ?_
  nofun

theorem metered_throw (hc : c.Unlimited src) {fault : WireError} (h : fault ≠ .sizeLimit) :
    Metered src (throw fault : ReadM α) c := by
  refine .free hc rfl rfl (fun _ => rfl) ?_
  intro heq
  cases heq
  exact h rfl

theorem metered_modify {f : Cursor → Cursor}
    (hafter : (f c).Unlimited src) (hmark : (f c).highWater = c.highWater)
    (hunder : ∀ n, f (c.under n) = (f c).under n) :
    Metered src (modify f : ReadM Unit) c := by
  refine .free hafter hmark rfl (fun n => ?_) nofun
  rw [← hunder n]
  rfl

theorem metered_report (hc : c.Unlimited src) (event : Event) : Metered src (report event) c :=
  metered_modify ⟨hc.limit_eq, hc.position_le, hc.highWater_le, hc.stop_le⟩ rfl fun _ => rfl

theorem metered_ofExcept (hc : c.Unlimited src) {result : Except WireError α}
    (h : ∀ fault, result = .error fault → fault ≠ .sizeLimit) :
    Metered src (MonadExcept.ofExcept result) c := by
  cases result with
  | ok a => exact metered_pure hc a
  | error fault => exact metered_throw hc (h fault rfl)

/-- What comes next looks at the cursor, but not at its limit. -/
theorem metered_get {k : Cursor → ReadM α} (hk : ∀ n, k (c.under n) = k c)
    (h : Metered src (k c) c) : Metered src (get >>= k) c := by
  refine h.of_outcome rfl rfl fun n => ?_
  rw [← hk n]
  rfl

theorem metered_bind {m : ReadM α} {k : α → ReadM β} (hm : Metered src m c)
    (hk : ∀ a mid, m.outcome c = (.ok a, mid) → mid.Unlimited src → Metered src (k a) mid) :
    Metered src (m >>= k) c := by
  obtain ⟨hunlimited, hgrows, hnoLimit, hcovered, hexhausted⟩ := hm
  rcases hfirst : m.outcome c with ⟨fault | a, mid⟩
  · have hbind : (m >>= k).outcome c = (.error fault, mid) := by rw [outcome_bind, hfirst]
    rw [hfirst] at hunlimited hgrows hnoLimit hcovered hexhausted
    refine ⟨by rwa [hbind], by rwa [hbind], ?_, ?_, ?_⟩
    · rw [hbind]
      intro heq
      cases heq
      exact hnoLimit rfl
    · intro n hn
      rw [hbind] at hn ⊢
      rw [outcome_bind, hcovered n hn]
    · intro n hreached hn
      rw [hbind] at hn
      have hstop := hexhausted n hreached hn
      rcases hlimited : m.outcome (c.under n) with ⟨result, last⟩
      rw [hlimited] at hstop
      cases hstop
      rw [outcome_bind, hlimited]
  · have hbind : (m >>= k).outcome c = (k a).outcome mid := by rw [outcome_bind, hfirst]
    rw [hfirst] at hunlimited hgrows hcovered hexhausted
    have hnext := hk a mid hfirst hunlimited
    refine ⟨?_, ?_, ?_, ?_, ?_⟩
    · rw [hbind]
      exact hnext.unlimited
    · rw [hbind]
      exact Nat.le_trans hgrows hnext.grows
    · rw [hbind]
      exact hnext.noLimit
    · intro n hn
      rw [hbind] at hn ⊢
      rw [outcome_bind, hcovered n (Nat.le_trans hnext.grows hn)]
      exact hnext.covered n hn
    · intro n hreached hn
      rw [hbind] at hn
      -- The limit is met by the first part or else by what comes next.
      by_cases hmid : mid.highWater ≤ n
      · rw [outcome_bind, hcovered n hmid]
        exact hnext.exhausted n hmid hn
      · have hstop := hexhausted n hreached (Nat.lt_of_not_le hmid)
        rcases hlimited : m.outcome (c.under n) with ⟨result, last⟩
        rw [hlimited] at hstop
        cases hstop
        rw [outcome_bind, hlimited]

theorem metered_atEnd (hc : c.Unlimited src) : Metered src atEnd c :=
  metered_get (fun _ => rfl) (metered_pure hc _)

theorem charge_unlimited (hlimit : c.limit = .infinite) :
    charge.outcome c = (.ok (), { c with highWater := max c.highWater c.position }) := by
  by_cases h : c.highWater < c.position
  · have hmark : max c.highWater c.position = c.position := Nat.max_eq_right (Nat.le_of_lt h)
    simp only [outcome, EStateM.run, charge, if_pos h, hlimit, Limit.charge, hmark]
  · have hmark : max c.highWater c.position = c.highWater := Nat.max_eq_left (Nat.le_of_not_lt h)
    simp only [outcome, EStateM.run, charge, if_neg h, hmark]

theorem charge_under (n : Nat) (c : Cursor) (hn : c.highWater ≤ n) :
    charge.outcome (c.under n) =
      if max c.highWater c.position ≤ n then
        (.ok (), Cursor.under n { c with highWater := max c.highWater c.position })
      else (.error .sizeLimit, c.under n) := by
  by_cases h : c.highWater < c.position
  · have hmark : max c.highWater c.position = c.position := Nat.max_eq_right (Nat.le_of_lt h)
    have hleft : c.position - c.highWater ≤ n - c.highWater ↔ c.position ≤ n := by omega
    simp only [outcome, EStateM.run, charge, Cursor.under, if_pos h, Limit.charge, hmark, hleft]
    by_cases hfits : c.position ≤ n
    · have hrest : n - c.highWater - (c.position - c.highWater) = n - c.position := by omega
      simp only [if_pos hfits, hrest]
    · simp only [if_neg hfits]
  · have hmark : max c.highWater c.position = c.highWater := Nat.max_eq_left (Nat.le_of_not_lt h)
    rw [hmark, if_pos hn]
    have hrun : charge.run (c.under n) = .ok () (c.under n) := if_neg h
    simp only [outcome, hrun]

/-- A position ahead of the high-water mark is charged up to where it is. -/
theorem metered_charge (hlimit : c.limit = .infinite) (hposition : c.position ≤ src.bytes.size)
    (hmark : c.highWater ≤ src.bytes.size) (hstop : c.stop ≤ src.bytes.size) :
    Metered src charge c := by
  have hrun := charge_unlimited hlimit
  refine ⟨?_, ?_, ?_, ?_, ?_⟩
  · rw [hrun]
    exact ⟨hlimit, Nat.le_max_right _ _, Nat.max_le.2 ⟨hmark, hposition⟩, hstop⟩
  · rw [hrun]
    exact Nat.le_max_left _ _
  · rw [hrun]
    nofun
  · intro n hn
    rw [hrun] at hn ⊢
    rw [charge_under n c (Nat.le_trans (Nat.le_max_left _ _) hn), if_pos hn]
  · intro n hreached hn
    rw [hrun] at hn
    rw [charge_under n c hreached, if_neg (Nat.not_le.2 hn)]

end ReadM

namespace Source

variable {src : Source} {c : Cursor}

theorem metered_take (hc : c.Unlimited src) (field : String) (size : Nat) :
    Metered src (src.take field size) c := by
  by_cases hlt : c.remaining < size
  · have hshort : src.shortRead c field size ≠ .sizeLimit := by
      unfold shortRead
      cases c.owner with
      | none => nofun
      | some typeName =>
        simp only []
        split
        · nofun
        · nofun
    have hrun : ∀ n, (src.take field size).outcome (c.under n) =
        (throw (src.shortRead c field size) : ReadM (List UInt8)).outcome (c.under n) := by
      intro n
      have hlt : (c.under n).remaining < size := hlt
      simp only [outcome, run_take_of_lt src field hlt]
      rfl
    refine (metered_throw hc hshort).of_outcome rfl ?_ hrun
    simp only [outcome, run_take_of_lt src field hlt]
    rfl
  · have hend := hc.end_le (Nat.le_of_not_lt hlt)
    have hcharge : Metered src charge { c with position := c.position + size } :=
      metered_charge hc.limit_eq hend hc.highWater_le hc.stop_le
    have hread : Metered src (do
        charge
        return (src.bytes.extract c.position (c.position + size)).toList)
        { c with position := c.position + size } :=
      metered_bind hcharge fun _ mid _ hmid => metered_pure hmid _
    refine hread.of_outcome rfl ?_ fun n => ?_
    · simp only [outcome, take, EStateM.run_bind, EStateM.run_get, if_neg hlt, EStateM.run_set]
    · have hlt : ¬(c.under n).remaining < size := hlt
      simp only [outcome, take, EStateM.run_bind, EStateM.run_get, if_neg hlt, EStateM.run_set]
      rfl

theorem metered_skipPadding (hc : c.Unlimited src) (field : String) (alignment : Nat) :
    Metered src (src.skipPadding field alignment) c := by
  refine metered_get (fun _ => rfl) ?_
  exact metered_bind (metered_take hc field _) fun _ mid _ hmid => metered_pure hmid ()

theorem readScalar_ne_sizeLimit {e : Encoding} {p : Primitive} {bytes : List UInt8}
    {fault : WireError} (h : e.readScalar p bytes = .error fault) : fault ≠ .sizeLimit := by
  simp only [Encoding.readScalar] at h
  split at h
  · cases h
  · cases h
    simp
  · cases h
    simp

theorem metered_scalar (hc : c.Unlimited src) (field : String) (p : Primitive) :
    Metered src (src.scalar field p) c := by
  refine metered_bind (metered_skipPadding hc field _) fun _ mid _ hmid => ?_
  refine metered_bind (metered_take hmid field _) fun bytes last _ hlast => ?_
  exact metered_ofExcept hlast fun fault h => readScalar_ne_sizeLimit h

theorem metered_word (hc : c.Unlimited src) (field : String) :
    Metered src (src.word field) c := by
  refine metered_bind (metered_skipPadding hc field _) fun _ mid _ hmid => ?_
  exact metered_bind (metered_take hmid field _) fun bytes last _ hlast => metered_pure hlast _

theorem scalars_ne_sizeLimit {e : Encoding} {p : Primitive} {count : Nat} {bytes : List UInt8}
    {fault : WireError} (h : scalars e p count bytes = .error fault) : fault ≠ .sizeLimit := by
  induction count generalizing bytes with
  | zero => cases h
  | succ count ih =>
    simp only [scalars, bind, Except.bind] at h
    cases hfirst : e.readScalar p (bytes.take p.size) with
    | error other =>
      rw [hfirst] at h
      cases h
      exact readScalar_ne_sizeLimit hfirst
    | ok s =>
      rw [hfirst] at h
      simp only [] at h
      cases hrest : scalars e p count (bytes.drop p.size) with
      | error other =>
        rw [hrest] at h
        cases h
        exact ih hrest
      | ok rest =>
        rw [hrest] at h
        cases h

theorem metered_many {each : ReadM Value}
    (heach : ∀ c : Cursor, c.Unlimited src → Metered src each c) (hc : c.Unlimited src)
    (count : Nat) (rev : List Value) : Metered src (many each count rev) c := by
  induction count generalizing c rev with
  | zero => exact metered_pure hc _
  | succ count ih => exact metered_bind (heach c hc) fun v mid _ hmid => ih hmid (v :: rev)

theorem metered_elements {each : ReadM Value}
    (heach : ∀ c : Cursor, c.Unlimited src → Metered src each c) (hc : c.Unlimited src)
    (field : String) (run : Option Primitive) (count : Nat) :
    Metered src (src.elements each field run count) c := by
  unfold elements
  cases run with
  | none =>
    exact metered_bind (metered_many heach hc count []) fun items mid _ hmid => metered_pure hmid _
  | some p =>
    simp only []
    by_cases hcount : count = 0
    · rw [if_pos hcount]
      exact metered_pure hc _
    · rw [if_neg hcount]
      refine metered_bind (metered_skipPadding hc field _) fun _ mid _ hmid => ?_
      refine metered_bind (metered_take hmid field _) fun bytes read _ hread => ?_
      refine metered_bind (metered_ofExcept hread fun fault h => scalars_ne_sizeLimit h) ?_
      exact fun items last _ hlast => metered_pure hlast _

theorem metered_text (hc : c.Unlimited src) (bytes : List UInt8) :
    Metered src (text bytes) c := by
  unfold text
  split
  · exact metered_pure hc _
  · exact metered_throw hc nofun

end Source

section

variable {schema : Schema} {src : Source} {c : Cursor}

theorem metered_checkBound (hc : c.Unlimited src) (field : String) (count : Nat)
    (bound : Option UInt32) :
    Metered src (MonadExcept.ofExcept (checkBound field count bound)) c := by
  refine metered_ofExcept hc fun fault h => ?_
  cases bound with
  | none => cases h
  | some bound =>
    simp only [checkBound] at h
    split at h
    · cases h
      simp
    · cases h

theorem metered_checkCount (hc : c.Unlimited src) (field : String)
    (element : MemberType schema.size) (count : Nat) :
    Metered src (checkCount schema src field element count) c := by
  refine metered_get (fun _ => rfl) ?_
  simp only []
  split
  · exact metered_throw hc nofun
  · exact metered_pure hc ()

/-- Where a frame ends, and what lies around it, is inside of the bytes. -/
def Frame.Inside (src : Source) : Option Frame → Prop
  | none => True
  | some frame => frame.stop ≤ src.bytes.size ∧ frame.outerStop ≤ src.bytes.size

/-- What is skipped is charged as if it had been read. -/
theorem metered_closeFrame (hc : c.Unlimited src) (typeName : String) {frame : Option Frame}
    (hinside : Frame.Inside src frame) : Metered src (closeFrame typeName frame) c := by
  cases frame with
  | none => exact metered_pure hc ()
  | some f =>
    obtain ⟨hstop, houter⟩ := hinside
    have hleave : ∀ last : Cursor, last.Unlimited src →
        Metered src (modify fun c => { c with stop := f.outerStop, owner := f.outerOwner }) last :=
      fun last hlast => metered_modify (hlast.move_stop houter _) rfl fun _ => rfl
    refine metered_get (fun _ => rfl) ?_
    by_cases hpassed : f.stop < c.position
    · rw [if_pos hpassed]
      exact metered_throw hc nofun
    · rw [if_neg hpassed]
      by_cases hskip : c.position < f.stop
      · rw [if_pos hskip]
        have hcharge : Metered src charge { c with
            position := f.stop
            events := .skipped (f.stop - c.position) typeName :: c.events } :=
          metered_charge hc.limit_eq hstop hc.highWater_le hc.stop_le
        have hskipped := metered_bind hcharge fun _ last _ hlast => hleave last hlast
        exact hskipped.of_outcome rfl rfl fun _ => rfl
      · rw [if_neg hskip]
        exact hleave c hc

theorem metered_inFrame {α : Type} {body : Bool → ReadM α} (hc : c.Unlimited src)
    (typeName : String) (extensibility : Extensibility)
    (hbody : ∀ framed (c : Cursor), c.Unlimited src → Metered src (body framed) c) :
    Metered src (inFrame src typeName extensibility body) c := by
  by_cases hframed : src.encoding.repr.isDelimited extensibility = true
  · unfold inFrame
    rw [openFrame_of_delimited hframed, bind_assoc]
    refine metered_bind (Source.metered_word hc typeName) fun length mid _ hmid => ?_
    by_cases hlt : mid.remaining < length
    · have hshort : Metered src (throw (WireError.truncated typeName mid.position length
          mid.remaining) : ReadM α) mid := metered_throw hmid nofun
      refine hshort.of_outcome rfl ?_ fun n => ?_
      · simp only [outcome, EStateM.run_bind, EStateM.run_get, if_pos hlt]
        rfl
      · have hlt : (mid.under n).remaining < length := hlt
        simp only [outcome, EStateM.run_bind, EStateM.run_get, if_pos hlt]
        rfl
    · have hend := hmid.end_le (Nat.le_of_not_lt hlt)
      have hinner : Metered src (do
          let a ← body true
          closeFrame typeName (some ⟨mid.position + length, mid.stop, mid.owner⟩)
          return a) { mid with stop := mid.position + length, owner := some typeName } := by
        refine metered_bind (hbody true _ (hmid.move_stop hend _)) fun a inner _ hinner => ?_
        refine metered_bind (metered_closeFrame hinner typeName ⟨hend, hmid.stop_le⟩) ?_
        exact fun _ last _ hlast => metered_pure hlast a
      refine hinner.of_outcome rfl ?_ fun n => ?_
      · simp only [outcome, EStateM.run_bind, EStateM.run_get, if_neg hlt, EStateM.run_set]
        rfl
      · have hlt : ¬(mid.under n).remaining < length := hlt
        simp only [outcome, EStateM.run_bind, EStateM.run_get, if_neg hlt, EStateM.run_set]
        rfl
  · rw [inFrame_bare src hframed]
    exact hbody false c hc

end

theorem ReadM.settle_under {stop n : Nat} {outer : Cursor}
    {tried : Except WireError Value × Cursor} :
    settle stop (outer.under n) (tried.1, tried.2.under n) =
      ((settle stop outer tried).1, (settle stop outer tried).2.under n) := by
  rcases tried with ⟨fault | v, after⟩
  · rfl
  · rfl

section

variable {schema : Schema} {src : Source} {readType : String → Fin schema.size → ReadM Value}
  (htype : ∀ field i (c : Cursor), c.Unlimited src → Metered src (readType field i) c)

include htype

theorem metered_readValue (field : String) (type : MemberType schema.size) {c : Cursor}
    (hc : c.Unlimited src) : Metered src (readValue schema src readType field type) c := by
  induction type generalizing c with
  | primitive p =>
    exact metered_bind (Source.metered_scalar hc field p) fun s _ _ hmid => metered_pure hmid _
  | string bound =>
    refine metered_bind (Source.metered_word hc field) fun count mid _ hmid => ?_
    by_cases hcount : count = 0
    · rw [if_pos hcount]
      exact metered_pure hmid _
    · rw [if_neg hcount]
      refine metered_bind (metered_checkBound hmid field _ bound) fun _ checked _ hchecked => ?_
      refine metered_bind (Source.metered_take hchecked field count) fun bytes last _ hlast => ?_
      exact Source.metered_text hlast _
  | fixedString capacity =>
    refine metered_bind (Source.metered_take hc field _) fun bytes mid _ hmid => ?_
    exact Source.metered_text hmid _
  | sequence element bound ih =>
    refine metered_bind (Source.metered_word hc field) fun count mid _ hmid => ?_
    refine metered_bind (metered_checkBound hmid field count bound) fun _ bounded _ hbounded => ?_
    refine metered_bind (metered_checkCount hbounded field element count) ?_
    exact fun _ checked _ hchecked =>
      Source.metered_elements (fun _ h => ih h) hchecked field _ count
  | array element length ih => exact Source.metered_elements (fun _ h => ih h) hc field _ _
  | type i => exact htype field i c hc

theorem metered_readWithin (m : Member schema.size) {c : Cursor} (hc : c.Unlimited src)
    {stop : Nat} (hstop : stop ≤ src.bytes.size) :
    Metered src (readWithin schema src readType m stop) c := by
  have hnarrow : Cursor.Unlimited src { c with stop } := hc.move_stop hstop c.owner
  obtain ⟨hunlimited, hgrows, hnoLimit, hcovered, hexhausted⟩ :=
    metered_readValue htype m.name m.type hnarrow
  refine ⟨?_, ?_, ?_, ?_, ?_⟩
  · rw [outcome_readWithin, settle_cursor]
    exact hunlimited.move_stop hc.stop_le _
  · rw [outcome_readWithin, settle_cursor]
    exact hgrows
  · rw [outcome_readWithin]
    intro heq
    exact hnoLimit (settle_eq_error.1 heq).1
  · intro n hn
    rw [outcome_readWithin, settle_cursor] at hn
    rw [outcome_readWithin, outcome_readWithin]
    exact (congrArg (settle stop (c.under n)) (hcovered n hn)).trans settle_under
  · intro n hreached hn
    rw [outcome_readWithin, settle_cursor] at hn
    rw [outcome_readWithin]
    exact settle_eq_error.2 ⟨hexhausted n hreached hn, rfl⟩

theorem metered_readPresent (m : Member schema.size) {c : Cursor} (hc : c.Unlimited src) :
    Metered src (readPresent schema src readType m) c := by
  have hread : Metered src (if c.position + padding (src.origin + c.position) 4 + 4 ≤ c.stop then do
        let header ← src.word m.name
        let c ← get
        if header % 8 = m.id.toNat % 8 && header / 8 ≤ c.remaining then
          readWithin schema src readType m (c.position + header / 8)
        else return none
      else return none : ReadM (Option Value)) c := by
    by_cases hroom : c.position + padding (src.origin + c.position) 4 + 4 ≤ c.stop
    · rw [if_pos hroom]
      refine metered_bind (Source.metered_word hc m.name) fun header mid _ hmid => ?_
      refine metered_get (fun _ => rfl) ?_
      split
      next hmatch =>
        obtain ⟨-, hfits⟩ := Bool.and_eq_true_iff.1 hmatch
        exact metered_readWithin htype m hmid (hmid.end_le (of_decide_eq_true hfits))
      next => exact metered_pure hmid none
    · rw [if_neg hroom]
      exact metered_pure hc none
  exact hread.of_outcome rfl rfl fun _ => rfl

/-- The reader goes back behind its high-water mark, which stays. -/
theorem metered_readOptional (m : Member schema.size) {c : Cursor} (hc : c.Unlimited src) :
    Metered src (readOptional schema src readType m) c := by
  have hpresent := metered_readPresent htype m hc
  refine metered_get (fun _ => rfl) ?_
  refine metered_bind hpresent fun found mid hrun hmid => ?_
  cases found with
  | some v => exact metered_pure hmid _
  | none =>
    have hmark : c.position ≤ mid.highWater := by
      have hgrows := hpresent.grows
      rw [hrun] at hgrows
      exact Nat.le_trans hc.position_le hgrows
    have hback := hmid.go_back hmark
    refine metered_bind (metered_modify hback rfl fun _ => rfl) fun _ back _ hback => ?_
    exact metered_bind (metered_report hback _) fun _ last _ hlast => metered_pure hlast none

theorem metered_readMembers (framed : Bool) (ms : List (Member schema.size))
    (fields : Entries Value) {c : Cursor} (hc : c.Unlimited src) :
    Metered src (readMembers schema src readType framed ms fields) c := by
  induction ms generalizing fields c with
  | nil => exact metered_pure hc fields
  | cons m rest ih =>
    unfold readMembers
    refine metered_bind (metered_atEnd hc) fun ended mid _ hmid => ?_
    split
    · exact ih _ hmid
    · split
      · refine metered_bind (metered_readOptional htype m hmid) fun found last _ hlast => ?_
        cases found with
        | some v => exact ih _ hlast
        | none => exact ih _ hlast
      · refine metered_bind (metered_readValue htype m.name m.type hmid) fun v last _ hlast => ?_
        exact ih _ hlast

theorem metered_readArm (typeName : String) (framed : Bool) (u : UnionType schema.size) (d : Int64)
    {c : Cursor} (hc : c.Unlimited src) :
    Metered src (readArm schema src readType typeName framed u d) c := by
  unfold readArm
  cases u.select d with
  | none =>
    exact metered_bind (metered_report hc _) fun _ mid _ hmid => metered_pure hmid none
  | some arm =>
    refine metered_bind (metered_atEnd hc) fun ended mid _ hmid => ?_
    split
    · exact metered_pure hmid _
    · refine metered_bind (metered_readValue htype _ _ hmid) fun v last _ hlast => ?_
      exact metered_pure hlast _

theorem metered_readUnionBody (typeName : String) (u : UnionType schema.size) (framed : Bool)
    {c : Cursor} (hc : c.Unlimited src) :
    Metered src (readUnionBody schema src readType typeName u framed) c := by
  refine metered_bind (metered_atEnd hc) fun ended mid _ hmid => ?_
  split
  · exact metered_pure hmid _
  · refine metered_bind (metered_readValue htype _ _ hmid) fun disc behind _ hbehind => ?_
    cases discriminatorOf? disc with
    | none => exact metered_throw hbehind nofun
    | some d =>
      refine metered_bind (metered_readArm htype _ _ u d hbehind) fun arm last _ hlast => ?_
      exact metered_pure hlast _

end

theorem metered_readType (schema : Schema) (src : Source) (levels : Nat) (field : String)
    (i : Fin schema.size) (c : Cursor) (hc : c.Unlimited src) :
    Metered src (readType schema src levels field i) c := by
  induction levels generalizing field i c with
  | zero => exact metered_throw hc nofun
  | succ levels ih =>
    simp only [readType]
    cases (schema.get i).body with
    | struct s =>
      simp only [readStruct_eq]
      refine metered_inFrame hc _ _ fun framed inner hinner => ?_
      refine metered_bind (metered_readMembers ih framed _ _ hinner) fun fields last _ hlast => ?_
      exact metered_pure hlast _
    | union u =>
      simp only [readUnion_eq]
      exact metered_inFrame hc _ _ fun framed inner hinner =>
        metered_readUnionBody ih _ u framed hinner
    | enumeration _ =>
      refine metered_bind (Source.metered_scalar hc field .int32) fun s mid _ hmid => ?_
      split
      · exact metered_pure hmid _
      · exact metered_throw hmid (by simp)

end Cdr
