import Cdr.Proofs.ReaderInvariant

/-! # The steps of a reader

The calls that the routines of a reader make to each other while bytes are read, each with the
cursor at which it is made and the ends that lie around it. Which call comes next, and at which
cursor, is what the routines before it come to. The depth of a value is an argument of a call, so
none can change it for those that follow.
-/

namespace Cdr

open ReadM Cdr.Frame

/-- A call to a routine of a reader, where `levels` is how much deeper declared types may nest. -/
inductive Call (n : Nat) where
  /-- Bytes, whatever they hold. -/
  | bytes (field : String) (size : Nat)
  /-- Bytes behind the padding up to a boundary. -/
  | block (field : String) (alignment size : Nat)
  | type (levels : Nat) (field : String) (i : Fin n)
  | value (levels : Nat) (field : String) (type : MemberType n)
  | items (levels : Nat) (field : String) (element : MemberType n) (count : Nat)
  | members (levels : Nat) (framed : Bool) (ms : List (Member n)) (fields : Entries Value)
  | optional (levels : Nat) (m : Member n)
  /-- The end of a body. -/
  | close (typeName : String) (frame : Option Frame)

namespace Call

variable (schema : Schema) (src : Source)

/-- The call without what it returns. -/
def run : Call schema.size → ReadM Unit
  | bytes field size => do
    let _ ← src.take field size
  | block field alignment size => do
    src.skipPadding field alignment
    let _ ← src.take field size
  | type levels field i => do
    let _ ← readType schema src levels field i
  | value levels field t => do
    let _ ← readValue schema src (readType schema src levels) field t
  | items levels field element count => do
    let _ ← src.elements (readValue schema src (readType schema src levels) field element) field
      element.blittable? count
  | members levels framed ms fields => do
    let _ ← readMembers schema src (readType schema src levels) framed ms fields
  | optional levels m => do
    let _ ← readOptional schema src (readType schema src levels) m
  | close typeName frame => closeFrame typeName frame

end Call

/-- The ends around a body: that of what lies around its frame comes first, if it has one. -/
def enclosing (frame : Option Frame) (outer : Cursor) (ends : List Nat) : List Nat :=
  if frame.isSome then outer.stop :: ends else ends

/-- The calls made when a value of a declared type is read, with the ends around each. -/
inductive Reaches (schema : Schema) (src : Source) (i : Fin schema.size) (limit : Limit) :
    List Nat → Call schema.size → Cursor → Prop where
  | start : Reaches schema src i limit [] (.type maxDepth "" i) (src.start limit)
  -- Blocks
  | gap {ends field alignment size c}
      (here : Reaches schema src i limit ends (.block field alignment size) c) :
      Reaches schema src i limit ends
        (.bytes field (padding (src.origin + c.position) alignment)) c
  | content {ends field alignment size c after}
      (here : Reaches schema src i limit ends (.block field alignment size) c)
      (padded : (src.skipPadding field alignment).run c = .ok () after) :
      Reaches schema src i limit ends (.bytes field size) after
  -- Declared types
  | enumeration {ends levels field j e c}
      (here : Reaches schema src i limit ends (.type (levels + 1) field j) c)
      (body : (schema.get j).body = .enumeration e) :
      Reaches schema src i limit ends
        (.block field (src.encoding.alignmentOf .int32) Primitive.int32.size) c
  | length {ends levels field j c}
      (here : Reaches schema src i limit ends (.type (levels + 1) field j) c)
      (body : ∀ e, (schema.get j).body ≠ .enumeration e)
      (delimited : src.encoding.repr.isDelimited (schema.get j).extensibility) :
      Reaches schema src i limit ends (.block (schema.get j).full
        (src.encoding.alignmentOf .uint32) Primitive.uint32.size) c
  | structBody {ends levels field j s c frame after}
      (here : Reaches schema src i limit ends (.type (levels + 1) field j) c)
      (body : (schema.get j).body = .struct s)
      (opened : (openFrame src (schema.get j).full (schema.get j).extensibility).run c =
        .ok frame after) :
      Reaches schema src i limit (enclosing frame c ends)
        (.members levels frame.isSome s.wireMembers []) after
  | structEnd {ends levels field j s c frame after fields last}
      (here : Reaches schema src i limit ends (.type (levels + 1) field j) c)
      (body : (schema.get j).body = .struct s)
      (opened : (openFrame src (schema.get j).full (schema.get j).extensibility).run c =
        .ok frame after)
      (members : (readMembers schema src (readType schema src levels) frame.isSome s.wireMembers
        []).run after = .ok fields last) :
      Reaches schema src i limit (enclosing frame c ends) (.close (schema.get j).full frame) last
  | emptyUnion {ends levels field j u c frame after}
      (here : Reaches schema src i limit ends (.type (levels + 1) field j) c)
      (body : (schema.get j).body = .union u)
      (opened : (openFrame src (schema.get j).full (schema.get j).extensibility).run c =
        .ok frame after)
      (ended : frame.isSome ∧ after.stop ≤ after.position) :
      Reaches schema src i limit (enclosing frame c ends) (.close (schema.get j).full frame) after
  | discriminator {ends levels field j u c frame after}
      (here : Reaches schema src i limit ends (.type (levels + 1) field j) c)
      (body : (schema.get j).body = .union u)
      (opened : (openFrame src (schema.get j).full (schema.get j).extensibility).run c =
        .ok frame after)
      (more : ¬(frame.isSome ∧ after.stop ≤ after.position)) :
      Reaches schema src i limit (enclosing frame c ends)
        (.value levels u.discriminator.name u.discriminator.type) after
  | arm {ends levels field j u c frame after disc behind d arm}
      (here : Reaches schema src i limit ends (.type (levels + 1) field j) c)
      (body : (schema.get j).body = .union u)
      (opened : (openFrame src (schema.get j).full (schema.get j).extensibility).run c =
        .ok frame after)
      (more : ¬(frame.isSome ∧ after.stop ≤ after.position))
      (read : (readValue schema src (readType schema src levels) u.discriminator.name
        u.discriminator.type).run after = .ok disc behind)
      (known : discriminatorOf? disc = some d) (selected : u.select d = some arm)
      (rest : ¬(frame.isSome ∧ behind.stop ≤ behind.position)) :
      Reaches schema src i limit (enclosing frame c ends)
        (.value levels arm.member.name arm.member.type) behind
  | unionEnd {ends levels field j u c frame after disc behind d arm last}
      (here : Reaches schema src i limit ends (.type (levels + 1) field j) c)
      (body : (schema.get j).body = .union u)
      (opened : (openFrame src (schema.get j).full (schema.get j).extensibility).run c =
        .ok frame after)
      (more : ¬(frame.isSome ∧ after.stop ≤ after.position))
      (read : (readValue schema src (readType schema src levels) u.discriminator.name
        u.discriminator.type).run after = .ok disc behind)
      (known : discriminatorOf? disc = some d)
      (armed : (readArm schema src (readType schema src levels) (schema.get j).full frame.isSome u
        d).run behind = .ok arm last) :
      Reaches schema src i limit (enclosing frame c ends) (.close (schema.get j).full frame) last
  -- Values of members
  | primitive {ends levels field p c}
      (here : Reaches schema src i limit ends (.value levels field (.primitive p)) c) :
      Reaches schema src i limit ends (.block field (src.encoding.alignmentOf p) p.size) c
  | stringCount {ends levels field bound c}
      (here : Reaches schema src i limit ends (.value levels field (.string bound)) c) :
      Reaches schema src i limit ends
        (.block field (src.encoding.alignmentOf .uint32) Primitive.uint32.size) c
  | stringBytes {ends levels field bound c count after}
      (here : Reaches schema src i limit ends (.value levels field (.string bound)) c)
      (counted : (src.word field).run c = .ok count after) (some_bytes : count ≠ 0)
      (bounded : checkBound field (count - 1) bound = .ok ()) :
      Reaches schema src i limit ends (.bytes field count) after
  | fixedString {ends levels field capacity c}
      (here : Reaches schema src i limit ends (.value levels field (.fixedString capacity)) c) :
      Reaches schema src i limit ends (.bytes field capacity.toNat) c
  | sequenceCount {ends levels field element bound c}
      (here : Reaches schema src i limit ends (.value levels field (.sequence element bound)) c) :
      Reaches schema src i limit ends
        (.block field (src.encoding.alignmentOf .uint32) Primitive.uint32.size) c
  | sequenceItems {ends levels field element bound c count after last}
      (here : Reaches schema src i limit ends (.value levels field (.sequence element bound)) c)
      (counted : (src.word field).run c = .ok count after)
      (bounded : checkBound field count bound = .ok ())
      (fits : (checkCount schema src field element count).run after = .ok () last) :
      Reaches schema src i limit ends (.items levels field element count) last
  | arrayItems {ends levels field element length c}
      (here : Reaches schema src i limit ends (.value levels field (.array element length)) c) :
      Reaches schema src i limit ends (.items levels field element length.toNat) c
  | declared {ends levels field j c}
      (here : Reaches schema src i limit ends (.value levels field (.type j)) c) :
      Reaches schema src i limit ends (.type levels field j) c
  -- Items
  | run {ends levels field element count p c}
      (here : Reaches schema src i limit ends (.items levels field element count) c)
      (blittable : element.blittable? = some p) (some_items : count ≠ 0) :
      Reaches schema src i limit ends
        (.block field (src.encoding.alignmentOf p) (count * p.size)) c
  | item {ends levels field element count c}
      (here : Reaches schema src i limit ends (.items levels field element (count + 1)) c)
      (single : element.blittable? = none) :
      Reaches schema src i limit ends (.value levels field element) c
  | nextItems {ends levels field element count c v after}
      (here : Reaches schema src i limit ends (.items levels field element (count + 1)) c)
      (single : element.blittable? = none)
      (read : (readValue schema src (readType schema src levels) field element).run c =
        .ok v after) :
      Reaches schema src i limit ends (.items levels field element count) after
  -- Members of a struct
  | skipped {ends levels framed m rest fields c}
      (here : Reaches schema src i limit ends (.members levels framed (m :: rest) fields) c)
      (ended : framed = true ∧ c.stop ≤ c.position) :
      Reaches schema src i limit ends (.members levels framed rest
        (if m.optional then fields else fields.insert m.name (schema.default m.type))) c
  | required {ends levels framed m rest fields c}
      (here : Reaches schema src i limit ends (.members levels framed (m :: rest) fields) c)
      (more : ¬(framed = true ∧ c.stop ≤ c.position)) (always : m.optional = false) :
      Reaches schema src i limit ends (.value levels m.name m.type) c
  | afterRequired {ends levels framed m rest fields c v after}
      (here : Reaches schema src i limit ends (.members levels framed (m :: rest) fields) c)
      (more : ¬(framed = true ∧ c.stop ≤ c.position)) (always : m.optional = false)
      (read : (readValue schema src (readType schema src levels) m.name m.type).run c =
        .ok v after) :
      Reaches schema src i limit ends
        (.members levels framed rest (fields.insert m.name v)) after
  | optional {ends levels framed m rest fields c}
      (here : Reaches schema src i limit ends (.members levels framed (m :: rest) fields) c)
      (more : ¬(framed = true ∧ c.stop ≤ c.position)) (sometimes : m.optional = true) :
      Reaches schema src i limit ends (.optional levels m) c
  | afterOptional {ends levels framed m rest fields c found after}
      (here : Reaches schema src i limit ends (.members levels framed (m :: rest) fields) c)
      (more : ¬(framed = true ∧ c.stop ≤ c.position)) (sometimes : m.optional = true)
      (read : (readOptional schema src (readType schema src levels) m).run c = .ok found after) :
      Reaches schema src i limit ends (.members levels framed rest
        (match found with
          | some v => fields.insert m.name v
          | none => fields)) after
  -- Optional members
  | header {ends levels m c}
      (here : Reaches schema src i limit ends (.optional levels m) c)
      (room : c.position + padding (src.origin + c.position) 4 + 4 ≤ c.stop) :
      Reaches schema src i limit ends
        (.block m.name (src.encoding.alignmentOf .uint32) Primitive.uint32.size) c
  | present {ends levels m c header after}
      (here : Reaches schema src i limit ends (.optional levels m) c)
      (room : c.position + padding (src.origin + c.position) 4 + 4 ≤ c.stop)
      (read : (src.word m.name).run c = .ok header after)
      (same : header % 8 = m.id.toNat % 8) (fits : header / 8 ≤ after.remaining) :
      Reaches schema src i limit (after.stop :: ends) (.value levels m.name m.type)
        { after with stop := after.position + header / 8 }

section

variable {schema : Schema} {src : Source}

/-- The ends from the current one outward, up to that of the bytes. -/
def Source.boundaries (src : Source) (c : Cursor) (ends : List Nat) : List Nat :=
  c.stop :: (ends ++ [src.bytes.size])

/-- What holds at each step: the cursor is sound, every end lies inside of the one around it, and a
    body is closed by the frame it was opened with. -/
structure StepInvariant (src : Source) (ends : List Nat) (call : Call schema.size) (c : Cursor) :
    Prop where
  sound : c.Sound src
  nested : (src.boundaries c ends).Pairwise (· ≤ ·)
  around : ∀ typeName frame, call = .close typeName frame →
    ∃ outer : Cursor, outer.Sound src ∧ outer.position ≤ c.position ∧ Around outer frame c

theorem nested_congr {ends : List Nat} {c after : Cursor}
    (h : (src.boundaries c ends).Pairwise (· ≤ ·)) (hstop : after.stop = c.stop) :
    (src.boundaries after ends).Pairwise (· ≤ ·) := by
  unfold Source.boundaries
  rw [hstop]
  exact h

/-- An end put in front of the others, inside of the innermost. -/
theorem nested_narrow {ends : List Nat} {c after : Cursor}
    (h : (src.boundaries c ends).Pairwise (· ≤ ·)) (hstop : after.stop ≤ c.stop) :
    (src.boundaries after (c.stop :: ends)).Pairwise (· ≤ ·) := by
  unfold Source.boundaries at h ⊢
  rw [List.cons_append]
  refine List.pairwise_cons.2 ⟨?_, h⟩
  intro stop hmem
  rcases List.mem_cons.1 hmem with rfl | hmem
  · exact hstop
  · exact Nat.le_trans hstop (List.rel_of_pairwise_cons h hmem)

theorem nested_enclosing {ends : List Nat} {c after : Cursor} {frame : Option Frame}
    (h : (src.boundaries c ends).Pairwise (· ≤ ·)) (haround : Around c frame after) :
    (src.boundaries after (enclosing frame c ends)).Pairwise (· ≤ ·) := by
  cases frame with
  | none => exact nested_congr h haround.1
  | some f => exact nested_narrow h haround.stop_le

namespace StepInvariant

variable {α : Type} {ends : List Nat} {call next : Call schema.size} {c after : Cursor} {a : α}

/-- A call made at the same cursor. -/
theorem here (h : StepInvariant src ends call c) (hnext : ∀ name frame, next ≠ .close name frame) :
    StepInvariant src ends next c :=
  ⟨h.sound, h.nested, fun name frame heq => absurd heq (hnext name frame)⟩

/-- A call made behind a read that leaves the end as it was. -/
theorem behind (h : StepInvariant src ends call c) {m : ReadM α} (hm : Keeps src m c)
    (hrun : m.run c = .ok a after) (hnext : ∀ name frame, next ≠ .close name frame) :
    StepInvariant src ends next after := by
  obtain ⟨hsound, -, hstop, -⟩ := hm.of_ok hrun
  exact ⟨hsound, nested_congr h.nested hstop, fun name frame heq => absurd heq (hnext name frame)⟩

/-- A call made at the front of a body. -/
theorem inside (h : StepInvariant src ends call c) {typeName : String}
    {extensibility : Extensibility} {frame : Option Frame}
    (hopen : (openFrame src typeName extensibility).run c = .ok frame after) :
    after.Sound src ∧ c.position ≤ after.position ∧ Around c frame after ∧
      (src.boundaries after (enclosing frame c ends)).Pairwise (· ≤ ·) := by
  rcases run_openFrame h.sound typeName extensibility with
    ⟨other, last, hrun, hsound, hle, haround⟩ | ⟨fault, last, hrun, -⟩
  · rw [hopen] at hrun
    cases hrun
    exact ⟨hsound, hle, haround, nested_enclosing h.nested haround⟩
  · rw [hopen] at hrun
    cases hrun

end StepInvariant

theorem keeps_value (levels : Nat) (field : String) (t : MemberType schema.size) {c : Cursor}
    (hc : c.Sound src) : Keeps src (readValue schema src (readType schema src levels) field t) c :=
  keeps_readValue (keeps_readType schema src levels) field t hc

/-- The invariant holds at every call that is reached. -/
theorem Reaches.invariant {i : Fin schema.size} {limit : Limit} {ends : List Nat}
    {call : Call schema.size} {c : Cursor} (h : Reaches schema src i limit ends call c) :
    StepInvariant src ends call c := by
  induction h with
  | start =>
    refine ⟨⟨Nat.zero_le _, Nat.le_refl _⟩, ?_, nofun⟩
    simp [Source.boundaries, Source.start]
  | gap _ ih => exact ih.here nofun
  | content _ padded ih =>
    exact ih.behind (Source.keeps_skipPadding ih.sound _ _) padded nofun
  | enumeration _ _ ih => exact ih.here nofun
  | length _ _ _ ih => exact ih.here nofun
  | structBody _ _ opened ih =>
    obtain ⟨hsound, -, -, hnested⟩ := ih.inside opened
    exact ⟨hsound, hnested, nofun⟩
  | @structEnd ends levels field j s c frame after fields last _ _ opened members ih =>
    obtain ⟨hsound, hle, haround, hnested⟩ := ih.inside opened
    have hkeeps := keeps_readMembers (keeps_readType schema src levels) frame.isSome s.wireMembers
      [] hsound
    obtain ⟨hlast, hmore, hstop, howner⟩ := hkeeps.of_ok members
    refine ⟨hlast, nested_congr hnested hstop, ?_⟩
    rintro _ _ ⟨⟩
    exact ⟨c, ih.sound, Nat.le_trans hle hmore, haround.congr hstop howner⟩
  | @emptyUnion ends levels field j u c frame after _ _ opened _ ih =>
    obtain ⟨hsound, hle, haround, hnested⟩ := ih.inside opened
    refine ⟨hsound, hnested, ?_⟩
    rintro _ _ ⟨⟩
    exact ⟨c, ih.sound, hle, haround⟩
  | discriminator _ _ opened _ ih =>
    obtain ⟨hsound, -, -, hnested⟩ := ih.inside opened
    exact ⟨hsound, hnested, nofun⟩
  | arm _ _ opened _ read _ _ _ ih =>
    obtain ⟨hsound, -, -, hnested⟩ := ih.inside opened
    obtain ⟨hbehind, -, hstop, -⟩ := (keeps_value _ _ _ hsound).of_ok read
    exact ⟨hbehind, nested_congr hnested hstop, nofun⟩
  | @unionEnd ends levels field j u c frame after disc behind d arm last _ _ opened _ read _ armed
      ih =>
    obtain ⟨hsound, hle, haround, hnested⟩ := ih.inside opened
    obtain ⟨hbehind, hdisc, hstop, howner⟩ := (keeps_value _ _ _ hsound).of_ok read
    have hkeeps := keeps_readArm (keeps_readType schema src levels) (schema.get j).full
      frame.isSome u d hbehind
    obtain ⟨hlast, hmore, hend, hsame⟩ := hkeeps.of_ok armed
    refine ⟨hlast, nested_congr (nested_congr hnested hstop) hend, ?_⟩
    rintro _ _ ⟨⟩
    exact ⟨c, ih.sound, Nat.le_trans hle (Nat.le_trans hdisc hmore),
      (haround.congr hstop howner).congr hend hsame⟩
  | primitive _ ih => exact ih.here nofun
  | stringCount _ ih => exact ih.here nofun
  | stringBytes _ counted _ _ ih => exact ih.behind (Source.keeps_word ih.sound _) counted nofun
  | fixedString _ ih => exact ih.here nofun
  | sequenceCount _ ih => exact ih.here nofun
  | sequenceItems _ counted _ fits ih =>
    have hcounted : StepInvariant src _ (.bytes "" 0) _ :=
      ih.behind (Source.keeps_word ih.sound _) counted nofun
    exact hcounted.behind (keeps_checkCount schema hcounted.sound _ _ _) fits nofun
  | arrayItems _ ih => exact ih.here nofun
  | declared _ ih => exact ih.here nofun
  | run _ _ _ ih => exact ih.here nofun
  | item _ _ ih => exact ih.here nofun
  | nextItems _ _ read ih => exact ih.behind (keeps_value _ _ _ ih.sound) read nofun
  | skipped _ _ ih => exact ih.here nofun
  | required _ _ _ ih => exact ih.here nofun
  | afterRequired _ _ _ read ih => exact ih.behind (keeps_value _ _ _ ih.sound) read nofun
  | optional _ _ _ ih => exact ih.here nofun
  | @afterOptional ends levels framed m rest fields c found after _ _ _ read ih =>
    exact ih.behind (keeps_readOptional (keeps_readType schema src levels) m ih.sound) read nofun
  | header _ _ ih => exact ih.here nofun
  | @present ends levels m c header after _ _ read _ fits ih =>
    have hread : StepInvariant src ends (.bytes "" 0) after :=
      ih.behind (Source.keeps_word ih.sound _) read nofun
    have hposition := hread.sound.position_le
    unfold Cursor.remaining at fits
    have hend : after.position + header / 8 ≤ after.stop := by omega
    refine ⟨⟨Nat.le_add_right _ _, Nat.le_trans hend hread.sound.stop_le⟩, ?_, nofun⟩
    exact nested_narrow hread.nested hend

/-- Every call but the one that ends a body leaves the end and its owner as it found them. -/
theorem Call.keeps_run {call : Call schema.size} {c : Cursor} (hc : c.Sound src)
    (hother : ∀ name frame, call ≠ .close name frame) : Keeps src (call.run schema src) c := by
  have hdone : ∀ {α : Type} {m : ReadM α}, Keeps src m c →
      Keeps src (do let _ ← m : ReadM Unit) c := by
    intro α m hm
    exact keeps_bind hm fun _ _ _ hafter => keeps_pure hafter ()
  cases call with
  | bytes field size => exact hdone (Source.keeps_take hc field size)
  | block field alignment size =>
    refine keeps_bind (Source.keeps_skipPadding hc field alignment) fun _ after _ hafter => ?_
    exact keeps_bind (Source.keeps_take hafter field size) fun _ _ _ h => keeps_pure h ()
  | type levels field i => exact hdone (keeps_readType schema src levels field i c hc)
  | value levels field t => exact hdone (keeps_value levels field t hc)
  | items levels field element count =>
    refine hdone (Source.keeps_elements (fun _ h => ?_) hc field _ count)
    exact keeps_value levels field element h
  | members levels framed ms fields =>
    exact hdone (keeps_readMembers (keeps_readType schema src levels) framed ms fields hc)
  | optional levels m => exact hdone (keeps_readOptional (keeps_readType schema src levels) m hc)
  | close name frame => exact absurd rfl (hother name frame)

/-- A body that is closed at a step has not been left: only the limit can stand in its way. -/
theorem StepInvariant.close {ends : List Nat} {c : Cursor} {name : String} {frame : Option Frame}
    (h : StepInvariant src ends (.close name frame : Call schema.size) c) :
    (∀ f, frame = some f → c.position ≤ f.stop ∧ f.stop ≤ f.outerStop) ∧
      (∀ after, (closeFrame name frame).run c = .ok () after → after.Sound src ∧
        ∀ f, frame = some f → after.stop = f.outerStop ∧ after.owner = f.outerOwner) ∧
      (∀ fault after, (closeFrame name frame).run c = .error fault after →
        fault = .sizeLimit ∧ after.Sound src) := by
  obtain ⟨outer, houter, hposition, haround⟩ := h.around name frame rfl
  have hfits : ∀ f, frame = some f → c.position ≤ f.stop ∧ f.stop ≤ f.outerStop := by
    rintro f rfl
    obtain ⟨hstop, hinside, -⟩ := haround
    exact ⟨Nat.le_trans h.sound.position_le (Nat.le_of_eq hstop), hinside⟩
  refine ⟨hfits, ?_, ?_⟩
  · intro after hrun
    rcases run_closeFrame name h.sound houter hposition haround with
      ⟨last, hclose, hsound, -, hstop, howner⟩ | ⟨last, hclose, -⟩
    · rw [hrun] at hclose
      cases hclose
      refine ⟨hsound, ?_⟩
      rintro f rfl
      obtain ⟨-, -, houterStop, houterOwner⟩ := haround
      exact ⟨hstop.trans houterStop.symm, howner.trans houterOwner.symm⟩
    · rw [hrun] at hclose
      cases hclose
  · intro fault after hrun
    rcases run_closeFrame name h.sound houter hposition haround with
      ⟨last, hclose, -⟩ | ⟨last, hclose, hsound, -⟩
    · rw [hrun] at hclose
      cases hclose
    · rw [hrun] at hclose
      cases hclose
      exact ⟨rfl, hsound⟩

/-- A call that fails at a step does so at a sound cursor and with a truthful error. -/
theorem Reaches.fails {i : Fin schema.size} {limit : Limit} {ends : List Nat}
    {call : Call schema.size} {c after : Cursor} {fault : WireError}
    (h : Reaches schema src i limit ends call c)
    (hrun : (call.run schema src).run c = .error fault after) :
    after.Sound src ∧ fault.Truthful src.bytes.size := by
  have hstep := h.invariant
  by_cases hclose : ∃ name frame, call = .close name frame
  · obtain ⟨name, frame, rfl⟩ := hclose
    obtain ⟨hfault, hsound⟩ := hstep.close.2.2 fault after hrun
    subst hfault
    exact ⟨hsound, trivial⟩
  · have hother : ∀ name frame, call ≠ .close name frame := by
      intro name frame heq
      exact hclose ⟨name, frame, heq⟩
    obtain ⟨hsound, -, -, hfault⟩ := (Call.keeps_run hstep.sound hother).of_error hrun
    exact ⟨hsound, hfault⟩

end

namespace Schema

theorem truthful_decode (schema : Schema) (src : Source) (i : Fin schema.size) (limit : Limit)
    {fault : WireError} (h : (schema.decode src i limit).result = .error fault) :
    fault.Truthful src.bytes.size := by
  have hstart : (src.start limit).Sound src := ⟨Nat.zero_le _, Nat.le_refl _⟩
  have hkeeps := keeps_readType schema src maxDepth "" i _ hstart
  simp only [decode, read, outcome] at h
  cases hrun : (readType schema src maxDepth "" i).run (src.start limit) with
  | ok v after =>
    rw [hrun] at h
    cases h
  | error other after =>
    rw [hrun] at h
    cases h
    exact (hkeeps.of_error hrun).2.2.2

/-- At every step of reading a value of a declared type, whatever the bytes hold, the position lies
    before the end of what may be read, and that end inside of all those around it, the last of
    which is the end of the bytes. A call that succeeds leaves the end and its owner as it found
    them, the one that closes a body those from before the body, and a call that fails does so
    with a truthful error. So no bytes are taken from outside of the source, and the end of a body
    is never found to be passed. -/
theorem decode_keeps_cursor (schema : Schema) (src : Source) (i : Fin schema.size)
    (limit : Limit) :
    (∀ ends call c, Reaches schema src i limit ends call c →
      c.position ≤ c.stop ∧ c.stop ≤ src.bytes.size ∧
        (src.boundaries c ends).Pairwise (· ≤ ·)) ∧
    (∀ ends call c after, Reaches schema src i limit ends call c →
      (∀ name frame, call ≠ .close name frame) → (call.run schema src).run c = .ok () after →
        after.position ≤ after.stop ∧ after.stop = c.stop ∧ after.owner = c.owner) ∧
    (∀ ends name frame c after, Reaches schema src i limit ends (.close name (some frame)) c →
      (closeFrame name (some frame)).run c = .ok () after →
        after.position ≤ after.stop ∧ after.stop = frame.outerStop ∧
          after.owner = frame.outerOwner) ∧
    (∀ ends call c fault after, Reaches schema src i limit ends call c →
      (call.run schema src).run c = .error fault after →
        after.position ≤ after.stop ∧ after.stop ≤ src.bytes.size ∧
          fault.Truthful src.bytes.size) ∧
    (∀ ends field size c bytes after, Reaches schema src i limit ends (.bytes field size) c →
      (src.take field size).run c = .ok bytes after →
        bytes.length = size ∧ c.position + size ≤ src.bytes.size) ∧
    (∀ ends name frame c, Reaches schema src i limit ends (.close name (some frame)) c →
      c.position ≤ frame.stop ∧ frame.stop ≤ frame.outerStop ∧
        ∀ fault after, (closeFrame name (some frame)).run c = .error fault after →
          fault = .sizeLimit) ∧
    ∀ fault, (schema.decode src i limit).result = .error fault →
      fault.Truthful src.bytes.size := by
  refine ⟨?steps, ?results, ?closed, ?faults, ?slices, ?reached, ?truthful⟩
  case steps =>
    intro ends call c h
    have hstep := h.invariant
    exact ⟨hstep.sound.position_le, hstep.sound.stop_le, hstep.nested⟩
  case results =>
    intro ends call c after h hother hrun
    obtain ⟨hsound, -, hstop, howner⟩ := (Call.keeps_run h.invariant.sound hother).of_ok hrun
    exact ⟨hsound.position_le, hstop, howner⟩
  case closed =>
    intro ends name frame c after h hrun
    obtain ⟨hsound, hwide⟩ := h.invariant.close.2.1 after hrun
    exact ⟨hsound.position_le, hwide frame rfl⟩
  case faults =>
    intro ends call c fault after h hrun
    obtain ⟨hsound, hfault⟩ := h.fails hrun
    exact ⟨hsound.position_le, hsound.stop_le, hfault⟩
  case slices =>
    intro ends field size c bytes after h hrun
    exact Source.length_of_take h.invariant.sound hrun
  case reached =>
    intro ends name frame c h
    obtain ⟨hfits, -, hlimit⟩ := h.invariant.close
    obtain ⟨hposition, hinside⟩ := hfits frame rfl
    exact ⟨hposition, hinside, fun fault after hrun => (hlimit fault after hrun).1⟩
  case truthful =>
    intro fault h
    exact truthful_decode schema src i limit h

end Schema

end Cdr
