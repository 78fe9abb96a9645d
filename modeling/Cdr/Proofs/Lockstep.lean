import Cdr.Proofs.Frames

/-! # Reading in step

Two readers of bytes that agree up to the end of what may be read do the same. Where they stand, what
they read and whether they fall short is all one; who owns the body around them, how far they have
been and what lies behind the end does not show.
-/

namespace Cdr

open ReadM

/-- The source with other bytes. -/
abbrev Source.over (src : Source) (bytes : Array UInt8) : Source := { src with bytes }

/-- Two cursors at one position, neither under a limit. -/
structure Cursor.Beside (c d : Cursor) : Prop where
  position : d.position = c.position
  left : c.limit = .infinite
  right : d.limit = .infinite

/-- Two cursors at one position with one end, up to which the bytes are known. -/
structure Cursor.Alike (reach : Nat) (c d : Cursor) : Prop extends c.Beside d where
  stop : d.stop = c.stop
  position_le : c.position ≤ c.stop
  stop_le : c.stop ≤ reach

namespace Cursor

variable {reach : Nat} {c d : Cursor}

theorem Alike.remaining (h : c.Alike reach d) : d.remaining = c.remaining := by
  simp only [Cursor.remaining, h.position, h.stop]

theorem Alike.moved {after after' : Cursor} {count : Nat} (h : c.Alike reach d)
    (hafter : c.Moved count after) (hafter' : d.Moved count after')
    (hfits : c.position + count ≤ c.stop) : after.Alike reach after' where
  position := by rw [hafter.position, hafter'.position, h.position]
  left := hafter.limit.trans h.left
  right := hafter'.limit.trans h.right
  stop := by rw [hafter.stop, hafter'.stop, h.stop]
  position_le := by
    rw [hafter.position, hafter.stop]
    exact hfits
  stop_le := by
    rw [hafter.stop]
    exact h.stop_le

theorem Alike.sound {src : Source} (h : c.Alike reach d) (hreach : reach ≤ src.bytes.size) :
    c.Sound src :=
  ⟨h.position_le, Nat.le_trans h.stop_le hreach⟩

end Cursor

namespace ReadM

variable {α β γ δ : Type} {reach : Nat} {R : α → β → Prop} {S : γ → δ → Prop}

/-- How the results of two readers stand to each other. -/
def Paired (reach : Nat) (R : α → β → Prop) :
    EStateM.Result WireError Cursor α → EStateM.Result WireError Cursor β → Prop
  | .ok a c, .ok b d => R a b ∧ c.Alike reach d
  | .error f c, .error g d => g.isShort = f.isShort ∧ c.Beside d
  | _, _ => False

/-- Two readers that come to related results wherever they stand alike. -/
def InStep (reach : Nat) (R : α → β → Prop) (m : ReadM α) (m' : ReadM β) : Prop :=
  ∀ c d, c.Alike reach d → Paired reach R (m.run c) (m'.run d)

theorem inStep_pure {a : α} {b : β} (h : R a b) : InStep reach R (pure a) (pure b) :=
  fun _ _ halike => ⟨h, halike⟩

theorem inStep_throw {f g : WireError} (h : g.isShort = f.isShort) :
    InStep reach R (throw f : ReadM α) (throw g : ReadM β) :=
  fun _ _ halike => ⟨h, halike.toBeside⟩

theorem inStep_bind {m : ReadM α} {m' : ReadM β} {k : α → ReadM γ} {k' : β → ReadM δ}
    (hm : InStep reach R m m') (hk : ∀ a b, R a b → InStep reach S (k a) (k' b)) :
    InStep reach S (m >>= k) (m' >>= k') := by
  intro c d halike
  have hfirst := hm c d halike
  rw [EStateM.run_bind, EStateM.run_bind]
  cases hrun : m.run c with
  | ok a after =>
    rw [hrun] at hfirst
    cases hrun' : m'.run d with
    | ok b after' =>
      rw [hrun'] at hfirst
      exact hk a b hfirst.1 after after' hfirst.2
    | error g after' =>
      rw [hrun'] at hfirst
      exact hfirst.elim
  | error f after =>
    rw [hrun] at hfirst
    cases hrun' : m'.run d with
    | ok b after' =>
      rw [hrun'] at hfirst
      exact hfirst.elim
    | error g after' =>
      rw [hrun'] at hfirst
      exact hfirst

theorem inStep_get : InStep reach (Cursor.Alike reach) get get :=
  fun _ _ halike => ⟨halike, halike⟩

/-- What is read next may go by where the cursors stand. -/
theorem inStep_here {k : Cursor → ReadM γ} {k' : Cursor → ReadM δ}
    (hk : ∀ c d, c.Alike reach d → Paired reach S ((k c).run c) ((k' d).run d)) :
    InStep reach S (get >>= k) (get >>= k') := by
  intro c d halike
  rw [EStateM.run_bind, EStateM.run_bind, EStateM.run_get, EStateM.run_get]
  exact hk c d halike

theorem inStep_set {s t : Cursor} (h : s.Alike reach t) :
    InStep reach (fun _ _ => True) (set s) (set t) :=
  fun _ _ _ => ⟨trivial, h⟩

theorem inStep_ofExcept {result : Except WireError α} :
    InStep reach Eq (MonadExcept.ofExcept result) (MonadExcept.ofExcept result) := by
  cases result with
  | ok a => exact inStep_pure rfl
  | error fault => exact inStep_throw rfl

theorem inStep_report (event event' : Event) :
    InStep reach Eq (report event) (report event') :=
  fun _ _ h => ⟨rfl, ⟨h.position, h.left, h.right⟩, h.stop, h.position_le, h.stop_le⟩

theorem inStep_atEnd : InStep reach Eq atEnd atEnd := by
  refine inStep_bind inStep_get fun c d h => inStep_pure ?_
  simp only [h.position, h.stop]

end ReadM

namespace Source

variable {src : Source} {other : Array UInt8} {reach : Nat}

theorem isShort_shortRead (src : Source) (c : Cursor) (field : String) (size : Nat) :
    (src.shortRead c field size).isShort = true := by
  unfold shortRead
  cases c.owner with
  | none => rfl
  | some typeName =>
    simp only []
    split <;> rfl

/-- What lies before the end of agreeing bytes is the same in both. -/
theorem extract_of_agree (hagree : other.toList.take reach = src.bytes.toList.take reach)
    {start stop : Nat} (h : stop ≤ reach) :
    (other.extract start stop).toList = (src.bytes.extract start stop).toList := by
  have htake : ∀ bytes : Array UInt8,
      (bytes.extract start stop).toList = ((bytes.toList.take reach).drop start).take (stop - start) := by
    intro bytes
    rw [Array.toList_extract, List.extract_eq_take_drop, List.drop_take, List.take_take,
      Nat.min_eq_left (by omega)]
  rw [htake, htake, hagree]

variable (hagree : other.toList.take reach = src.bytes.toList.take reach)

include hagree

theorem inStep_take (field : String) (size : Nat) :
    InStep reach Eq (src.take field size) ((src.over other).take field size) := by
  intro c d h
  rcases Nat.lt_or_ge c.remaining size with hlt | hge
  · have hlt' : d.remaining < size := by
      rw [h.remaining]
      exact hlt
    rw [run_take_of_lt src field hlt, run_take_of_lt (src.over other) field hlt']
    exact ⟨by rw [isShort_shortRead, isShort_shortRead], h.toBeside⟩
  · have hge' : size ≤ d.remaining := by
      rw [h.remaining]
      exact hge
    have hfits : c.position + size ≤ c.stop := by
      have hle := h.position_le
      unfold Cursor.remaining at hge
      omega
    obtain ⟨after, hrun, hmoved⟩ := run_take_infinite src field hge h.left
    obtain ⟨after', hrun', hmoved'⟩ := run_take_infinite (src.over other) field hge' h.right
    rw [hrun, hrun', h.position]
    refine ⟨?_, h.moved hmoved hmoved' hfits⟩
    exact (extract_of_agree hagree (Nat.le_trans hfits h.stop_le)).symm

theorem inStep_skipPadding (field : String) (alignment : Nat) :
    InStep reach Eq (src.skipPadding field alignment)
      ((src.over other).skipPadding field alignment) := by
  refine inStep_bind inStep_get fun c d h => ?_
  rw [h.position]
  exact inStep_bind (inStep_take hagree field _) fun _ _ _ => inStep_pure rfl

theorem inStep_scalar (field : String) (p : Primitive) :
    InStep reach Eq (src.scalar field p) ((src.over other).scalar field p) := by
  refine inStep_bind (inStep_skipPadding hagree field _) fun _ _ _ => ?_
  refine inStep_bind (inStep_take hagree field _) fun bytes _ hbytes => ?_
  subst hbytes
  exact inStep_ofExcept

theorem inStep_word (field : String) :
    InStep reach Eq (src.word field) ((src.over other).word field) := by
  refine inStep_bind (inStep_skipPadding hagree field _) fun _ _ _ => ?_
  refine inStep_bind (inStep_take hagree field _) fun bytes _ hbytes => ?_
  subst hbytes
  exact inStep_pure rfl

omit hagree in
theorem inStep_many {each each' : ReadM Value} (heach : InStep reach Eq each each') (count : Nat)
    (rev : List Value) : InStep reach Eq (many each count rev) (many each' count rev) := by
  induction count generalizing rev with
  | zero => exact inStep_pure rfl
  | succ count ih =>
    refine inStep_bind heach fun v w hv => ?_
    subst hv
    exact ih (v :: rev)

theorem inStep_elements {each each' : ReadM Value} (heach : InStep reach Eq each each')
    (field : String) (run : Option Primitive) (count : Nat) :
    InStep reach Eq (src.elements each field run count)
      ((src.over other).elements each' field run count) := by
  unfold elements
  cases run with
  | none =>
    refine inStep_bind (inStep_many heach count []) fun items _ hitems => ?_
    subst hitems
    exact inStep_pure rfl
  | some p =>
    simp only []
    split
    · exact inStep_pure rfl
    · refine inStep_bind (inStep_skipPadding hagree field _) fun _ _ _ => ?_
      refine inStep_bind (inStep_take hagree field _) fun bytes _ hbytes => ?_
      subst hbytes
      refine inStep_bind inStep_ofExcept fun items _ hitems => ?_
      subst hitems
      exact inStep_pure rfl

omit hagree in
theorem inStep_text (bytes : List UInt8) : InStep reach Eq (text bytes) (text bytes) := by
  unfold text
  split
  · exact inStep_pure rfl
  · exact inStep_throw rfl

end Source

/-- Two frames with the same extent. -/
def Frame.Alike (reach : Nat) : Option Frame → Option Frame → Prop
  | none, none => True
  | some f, some g =>
    g.stop = f.stop ∧ g.outerStop = f.outerStop ∧ f.stop ≤ f.outerStop ∧ f.outerStop ≤ reach
  | _, _ => False

theorem Frame.Alike.isSome {reach : Nat} {frame frame' : Option Frame}
    (h : Frame.Alike reach frame frame') : frame'.isSome = frame.isSome := by
  cases frame with
  | none =>
    cases frame' with
    | none => rfl
    | some g => exact h.elim
  | some f =>
    cases frame' with
    | none => exact h.elim
    | some g => rfl

section

variable {src : Source} {other : Array UInt8} {reach : Nat}

theorem inStep_checkCount (schema : Schema) (field : String) (element : MemberType schema.size)
    (count : Nat) :
    InStep reach Eq (checkCount schema src field element count)
      (checkCount schema (src.over other) field element count) := by
  refine inStep_bind inStep_get fun c d h => ?_
  simp only [h.remaining]
  split
  · exact inStep_throw rfl
  · exact inStep_pure rfl

/-- What may be read is narrowed to a body of one length. -/
theorem inStep_narrow (typeName : String) (length : Nat) :
    InStep reach (Frame.Alike reach)
      (do
        let c ← get
        if c.remaining < length then throw (.truncated typeName c.position length c.remaining)
        else
          set { c with stop := c.position + length, owner := some typeName }
          return some ⟨c.position + length, c.stop, c.owner⟩)
      (do
        let c ← get
        if c.remaining < length then throw (.truncated typeName c.position length c.remaining)
        else
          set { c with stop := c.position + length, owner := some typeName }
          return some ⟨c.position + length, c.stop, c.owner⟩) := by
  refine inStep_bind inStep_get fun c d h => ?_
  simp only [h.remaining]
  split
  next => exact inStep_throw rfl
  next hfits =>
    have hle := h.position_le
    have hreach := h.stop_le
    unfold Cursor.remaining at hfits
    have hend : c.position + length ≤ c.stop := by omega
    refine inStep_bind (inStep_set ?_) fun _ _ _ => inStep_pure ?_
    · exact ⟨⟨h.position, h.left, h.right⟩, congrArg (· + length) h.position,
        Nat.le_add_right _ _, Nat.le_trans hend hreach⟩
    · exact ⟨congrArg (· + length) h.position, h.stop, hend, hreach⟩

theorem inStep_openFrame (hagree : other.toList.take reach = src.bytes.toList.take reach)
    (typeName : String) (extensibility : Extensibility) :
    InStep reach (Frame.Alike reach) (openFrame src typeName extensibility)
      (openFrame (src.over other) typeName extensibility) := by
  unfold openFrame
  split
  · refine inStep_bind (Source.inStep_word hagree typeName) fun length _ hlength => ?_
    subst hlength
    exact inStep_narrow typeName length
  · exact inStep_pure trivial

theorem inStep_closeFrame (typeName : String) {frame frame' : Option Frame}
    (hframe : Frame.Alike reach frame frame') :
    InStep reach Eq (closeFrame typeName frame) (closeFrame typeName frame') := by
  cases frame with
  | none =>
    cases frame' with
    | none => exact inStep_pure rfl
    | some g => exact hframe.elim
  | some f =>
    cases frame' with
    | none => exact hframe.elim
    | some g =>
      obtain ⟨hstop, houter, hinside, hreach⟩ := hframe
      intro c d h
      rcases Nat.lt_or_ge f.stop c.position with hpast | hwithin
      · have hpast' : g.stop < d.position := by
          rw [hstop, h.position]
          exact hpast
        rw [run_closeFrame_of_lt typeName hpast, run_closeFrame_of_lt typeName hpast']
        exact ⟨rfl, h.toBeside⟩
      · have hwithin' : d.position ≤ g.stop := by
          rw [hstop, h.position]
          exact hwithin
        obtain ⟨final, hrun, hposition, hend, -, hlimit⟩ :=
          run_closeFrame_of_le typeName hwithin h.left
        obtain ⟨final', hrun', hposition', hend', -, hlimit'⟩ :=
          run_closeFrame_of_le typeName hwithin' h.right
        rw [hrun, hrun']
        refine ⟨rfl, ⟨by rw [hposition', hposition, hstop], hlimit, hlimit'⟩,
          by rw [hend', hend, houter], ?_, ?_⟩
        · rw [hposition, hend]
          exact hinside
        · rw [hend]
          exact hreach

end

section

variable {α : Type} {reach : Nat} {body body' : Bool → ReadM α}
  (hbody : ∀ framed, InStep reach Eq (body framed) (body' framed))

include hbody

/-- A body is read in an open frame, which is closed then. -/
theorem inStep_inside (typeName : String) {frame frame' : Option Frame}
    (hframe : Frame.Alike reach frame frame') :
    InStep reach Eq (do let a ← body frame.isSome; closeFrame typeName frame; return a)
      (do let a ← body' frame'.isSome; closeFrame typeName frame'; return a) := by
  rw [hframe.isSome]
  refine inStep_bind (hbody _) fun a _ ha => ?_
  subst ha
  exact inStep_bind (inStep_closeFrame typeName hframe) fun _ _ _ => inStep_pure rfl

theorem inStep_inFrame {src : Source} {other : Array UInt8}
    (hagree : other.toList.take reach = src.bytes.toList.take reach) (typeName : String)
    (extensibility : Extensibility) :
    InStep reach Eq (inFrame src typeName extensibility body)
      (inFrame (src.over other) typeName extensibility body') :=
  inStep_bind (inStep_openFrame hagree typeName extensibility) fun _ _ hframe =>
    inStep_inside hbody typeName hframe

end

section

variable {schema : Schema} {src : Source} {other : Array UInt8} {reach levels : Nat}
  (hreach : reach ≤ src.bytes.size)
  (hagree : other.toList.take reach = src.bytes.toList.take reach)
  (htype : ∀ field i, InStep reach Eq (readType schema src levels field i)
    (readType schema (src.over other) levels field i))

include hagree htype

theorem inStep_readValue (field : String) (t : MemberType schema.size) :
    InStep reach Eq (readValue schema src (readType schema src levels) field t)
      (readValue schema (src.over other) (readType schema (src.over other) levels) field t) := by
  induction t with
  | primitive p =>
    refine inStep_bind (Source.inStep_scalar hagree field p) fun s _ hs => ?_
    subst hs
    exact inStep_pure rfl
  | string bound =>
    refine inStep_bind (Source.inStep_word hagree field) fun count _ hcount => ?_
    subst hcount
    split
    · exact inStep_pure rfl
    · refine inStep_bind inStep_ofExcept fun _ _ _ => ?_
      refine inStep_bind (Source.inStep_take hagree field count) fun bytes _ hbytes => ?_
      subst hbytes
      exact Source.inStep_text _
  | fixedString capacity =>
    refine inStep_bind (Source.inStep_take hagree field _) fun bytes _ hbytes => ?_
    subst hbytes
    exact Source.inStep_text _
  | sequence element bound ih =>
    refine inStep_bind (Source.inStep_word hagree field) fun count _ hcount => ?_
    subst hcount
    refine inStep_bind inStep_ofExcept fun _ _ _ => ?_
    refine inStep_bind (inStep_checkCount schema field element count) fun _ _ _ => ?_
    exact Source.inStep_elements hagree ih field _ count
  | array element length ih => exact Source.inStep_elements hagree ih field _ _
  | type i => exact htype field i

include hreach

/-- The value of an optional member is there for both or for neither. -/
theorem inStep_readWithin (m : Member schema.size) {stop : Nat} {c d : Cursor}
    (h : c.Alike reach d) (hposition : c.position ≤ stop) (hstop : stop ≤ c.stop) :
    Paired reach Eq ((readWithin schema src (readType schema src levels) m stop).run c)
      ((readWithin schema (src.over other) (readType schema (src.over other) levels) m stop).run
        d) := by
  have hnarrow : Cursor.Alike reach { c with stop } { d with stop } :=
    ⟨⟨h.position, h.left, h.right⟩, rfl, hposition, Nat.le_trans hstop h.stop_le⟩
  have hvalue := inStep_readValue hagree htype m.name m.type { c with stop } { d with stop } hnarrow
  have hkeeps := keeps_readValue (keeps_readType schema src levels) m.name m.type
    (hnarrow.sound hreach)
  simp only [EStateM.run] at hvalue
  cases hrun : readValue schema src (readType schema src levels) m.name m.type { c with stop } with
  | ok v after =>
    rw [hrun] at hvalue
    obtain ⟨hsound, -, hend, -⟩ := hkeeps.of_ok hrun
    have hle : after.position ≤ c.stop :=
      Nat.le_trans hsound.position_le (Nat.le_trans (Nat.le_of_eq hend) hstop)
    cases hrun' : readValue schema (src.over other) (readType schema (src.over other) levels) m.name
        m.type { d with stop } with
    | ok w after' =>
      rw [hrun'] at hvalue
      obtain ⟨hv, halike⟩ := hvalue
      simp only [EStateM.run, readWithin, hrun, hrun']
      refine ⟨?_, ⟨halike.position, halike.left, halike.right⟩, h.stop, hle, h.stop_le⟩
      rw [halike.position, hv]
    | error g after' =>
      rw [hrun'] at hvalue
      exact hvalue.elim
  | error f after =>
    rw [hrun] at hvalue
    obtain ⟨hsound, -, hend, -⟩ := hkeeps.of_error hrun
    have hle : after.position ≤ c.stop :=
      Nat.le_trans hsound.position_le (Nat.le_trans hend hstop)
    cases hrun' : readValue schema (src.over other) (readType schema (src.over other) levels) m.name
        m.type { d with stop } with
    | ok w after' =>
      rw [hrun'] at hvalue
      exact hvalue.elim
    | error g after' =>
      rw [hrun'] at hvalue
      obtain ⟨hshort, hbeside⟩ := hvalue
      simp only [EStateM.run, readWithin, hrun, hrun', hshort]
      split
      · exact ⟨rfl, ⟨hbeside.position, hbeside.left, hbeside.right⟩, h.stop, hle, h.stop_le⟩
      · exact ⟨hshort, hbeside.position, hbeside.left, hbeside.right⟩

theorem inStep_readPresent (m : Member schema.size) :
    InStep reach Eq (readPresent schema src (readType schema src levels) m)
      (readPresent schema (src.over other) (readType schema (src.over other) levels) m) := by
  intro c d h
  rw [run_readPresent, run_readPresent, h.position, h.stop]
  split
  · refine inStep_bind (Source.inStep_word hagree m.name) (fun header _ hheader => ?_) c d h
    subst hheader
    refine inStep_here fun here there hhere => ?_
    rw [hhere.remaining, hhere.position]
    split
    next hmatch =>
      obtain ⟨-, hfits⟩ := Bool.and_eq_true_iff.1 hmatch
      have hfits : header / 8 ≤ here.remaining := of_decide_eq_true hfits
      have hposition := hhere.position_le
      unfold Cursor.remaining at hfits
      exact inStep_readWithin hreach hagree htype m hhere (Nat.le_add_right _ _) (by omega)
    next => exact inStep_pure rfl here there hhere
  · exact inStep_pure rfl c d h

theorem inStep_readOptional (m : Member schema.size) :
    InStep reach Eq (readOptional schema src (readType schema src levels) m)
      (readOptional schema (src.over other) (readType schema (src.over other) levels) m) := by
  refine inStep_here fun c d h => ?_
  have hpresent := inStep_readPresent hreach hagree htype m c d h
  have hkeeps := keeps_readPresent (keeps_readType schema src levels) m (h.sound hreach)
  rw [EStateM.run_bind, EStateM.run_bind]
  cases hrun : (readPresent schema src (readType schema src levels) m).run c with
  | error f after =>
    rw [hrun] at hpresent
    cases hrun' : (readPresent schema (src.over other) (readType schema (src.over other) levels)
        m).run d with
    | error g after' =>
      rw [hrun'] at hpresent
      exact hpresent
    | ok found' after' =>
      rw [hrun'] at hpresent
      exact hpresent.elim
  | ok found after =>
    rw [hrun] at hpresent
    cases hrun' : (readPresent schema (src.over other) (readType schema (src.over other) levels)
        m).run d with
    | error g after' =>
      rw [hrun'] at hpresent
      exact hpresent.elim
    | ok found' after' =>
      rw [hrun'] at hpresent
      obtain ⟨rfl, halike⟩ := hpresent
      obtain ⟨-, -, hstop, -⟩ := hkeeps.of_ok hrun
      cases found with
      | some v => exact ⟨rfl, halike⟩
      | none =>
        -- Both go back to where the member would stand.
        refine ⟨rfl, ⟨h.position, halike.left, halike.right⟩, halike.stop, ?_, halike.stop_le⟩
        exact Nat.le_trans h.position_le (Nat.le_of_eq hstop.symm)

theorem inStep_readMembers (framed : Bool) (ms : List (Member schema.size))
    (fields : Entries Value) :
    InStep reach Eq (readMembers schema src (readType schema src levels) framed ms fields)
      (readMembers schema (src.over other) (readType schema (src.over other) levels) framed ms
        fields) := by
  induction ms generalizing fields with
  | nil => exact inStep_pure rfl
  | cons m rest ih =>
    unfold readMembers
    refine inStep_bind inStep_atEnd fun ended _ hended => ?_
    subst hended
    split
    · exact ih _
    · split
      · refine inStep_bind (inStep_readOptional hreach hagree htype m) fun found _ hfound => ?_
        subst hfound
        cases found with
        | some v => exact ih _
        | none => exact ih _
      · refine inStep_bind (inStep_readValue hagree htype m.name m.type) fun v _ hv => ?_
        subst hv
        exact ih _

omit hreach in
theorem inStep_readArm (typeName : String) (framed : Bool) (u : UnionType schema.size)
    (d : Int64) :
    InStep reach Eq (readArm schema src (readType schema src levels) typeName framed u d)
      (readArm schema (src.over other) (readType schema (src.over other) levels) typeName framed u
        d) := by
  unfold readArm
  cases u.select d with
  | none => exact inStep_bind (inStep_report _ _) fun _ _ _ => inStep_pure rfl
  | some arm =>
    refine inStep_bind inStep_atEnd fun ended _ hended => ?_
    subst hended
    split
    · exact inStep_pure rfl
    · refine inStep_bind (inStep_readValue hagree htype _ _) fun v _ hv => ?_
      subst hv
      exact inStep_pure rfl

omit hreach in
theorem inStep_readUnionBody (typeName : String) (u : UnionType schema.size) (framed : Bool) :
    InStep reach Eq (readUnionBody schema src (readType schema src levels) typeName u framed)
      (readUnionBody schema (src.over other) (readType schema (src.over other) levels) typeName u
        framed) := by
  refine inStep_bind inStep_atEnd fun ended _ hended => ?_
  subst hended
  split
  · exact inStep_pure rfl
  · refine inStep_bind (inStep_readValue hagree htype _ _) fun disc _ hdisc => ?_
    subst hdisc
    cases discriminatorOf? disc with
    | none => exact inStep_throw rfl
    | some d =>
      refine inStep_bind (inStep_readArm hagree htype _ _ u d) fun arm _ harm => ?_
      subst harm
      exact inStep_pure rfl

end

/-- Values of declared types are read in step. -/
theorem inStep_readType (schema : Schema) {src : Source} {other : Array UInt8} {reach : Nat}
    (hreach : reach ≤ src.bytes.size)
    (hagree : other.toList.take reach = src.bytes.toList.take reach) (levels : Nat)
    (field : String) (i : Fin schema.size) :
    InStep reach Eq (readType schema src levels field i)
      (readType schema (src.over other) levels field i) := by
  induction levels generalizing field i with
  | zero => exact inStep_throw rfl
  | succ levels ih =>
    simp only [readType]
    cases (schema.get i).body with
    | struct s =>
      simp only [readStruct_eq]
      refine inStep_inFrame (fun framed => ?_) hagree _ _
      refine inStep_bind (inStep_readMembers hreach hagree ih framed s.wireMembers []) ?_
      intro fields _ hfields
      subst hfields
      exact inStep_pure rfl
    | union u =>
      simp only [readUnion_eq]
      exact inStep_inFrame (inStep_readUnionBody hagree ih _ u) hagree _ _
    | enumeration _ =>
      refine inStep_bind (Source.inStep_scalar hagree field .int32) fun s _ hs => ?_
      subst hs
      split
      · exact inStep_pure rfl
      · exact inStep_throw rfl

end Cdr
