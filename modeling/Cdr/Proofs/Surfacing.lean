import Cdr.Proofs.Frames
import Cdr.Proofs.ReaderSteps

/-! # Errors that surface

An optional member that turns out to be too short for where it stands is given up, and its error
with it. No other error is given up: one that a call comes to is what the whole read comes to,
however deep the call is.
-/

namespace Cdr

open ReadM Cdr.Frame

namespace ReadM

/-- The read ends with the fault. -/
def Fails {α : Type} (m : ReadM α) (c : Cursor) (fault : WireError) : Prop :=
  (m.outcome c).1 = .error fault

variable {α β : Type} {m : ReadM α} {k : α → ReadM β} {c mid : Cursor} {a : α}
  {fault : WireError}

theorem outcome_bind (m : ReadM α) (k : α → ReadM β) (c : Cursor) :
    (m >>= k).outcome c =
      match m.outcome c with
      | (.ok a, mid) => (k a).outcome mid
      | (.error fault, mid) => (.error fault, mid) := by
  unfold outcome
  rw [EStateM.run_bind]
  cases m.run c <;> rfl

theorem outcome_of_run_ok (h : m.run c = .ok a mid) : m.outcome c = (.ok a, mid) := by
  rw [outcome, h]

theorem Fails.of_run (h : m.run c = .error fault mid) : Fails m c fault := by
  rw [Fails, outcome, h]

/-- What comes to the same as another read fails as this does. -/
theorem Fails.of_run_eq {other : ReadM α} (hrun : m.run c = other.run mid)
    (h : Fails other mid fault) : Fails m c fault := by
  unfold Fails outcome at h ⊢
  rw [hrun]
  exact h

theorem Fails.first (h : Fails m c fault) : Fails (m >>= k) c fault := by
  unfold Fails at h ⊢
  rcases hm : m.outcome c with ⟨result, last⟩
  rw [hm] at h
  cases h
  rw [outcome_bind, hm]

theorem Fails.after (hm : m.run c = .ok a mid) (h : Fails (k a) mid fault) :
    Fails (m >>= k) c fault := by
  unfold Fails at h ⊢
  rw [outcome_bind, outcome_of_run_ok hm]
  exact h

theorem fails_bind_iff : Fails (m >>= k) c fault ↔
    Fails m c fault ∨ ∃ a mid, m.run c = .ok a mid ∧ Fails (k a) mid fault := by
  constructor
  · intro h
    unfold Fails at h ⊢
    rw [outcome_bind] at h
    cases hm : m.run c with
    | error other last =>
      have houtcome : m.outcome c = (.error other, last) := by rw [outcome, hm]
      rw [houtcome] at h ⊢
      cases h
      exact .inl rfl
    | ok a mid =>
      rw [outcome_of_run_ok hm] at h
      exact .inr ⟨a, mid, rfl, h⟩
  · rintro (h | ⟨a, mid, hm, h⟩)
    · exact h.first
    · exact .after hm h

/-- A read whose result is dropped fails where the read does. -/
theorem Fails.undrop (h : Fails (do let _ ← m : ReadM Unit) c fault) : Fails m c fault := by
  rcases fails_bind_iff.1 h with hm | ⟨a, mid, -, hpure⟩
  · exact hm
  · cases hpure

/-- What a value that was tried with a narrower end comes to: the value if it ends there, nothing
    if it does not, or is too short, and otherwise its error. -/
def settle (stop : Nat) (outer : Cursor) :
    Except WireError Value × Cursor → Except WireError (Option Value) × Cursor
  | (.ok v, after) =>
    (.ok (if after.position = stop then some v else none),
      { after with stop := outer.stop, owner := outer.owner })
  | (.error fault, after) =>
    (if fault.isShort then .ok none else .error fault,
      { after with stop := outer.stop, owner := outer.owner })

variable {stop : Nat} {outer : Cursor} {tried : Except WireError Value × Cursor}

theorem settle_cursor :
    (settle stop outer tried).2 = { tried.2 with stop := outer.stop, owner := outer.owner } := by
  rcases tried with ⟨fault | v, after⟩
  · rfl
  · rfl

theorem settle_eq_error {fault : WireError} :
    (settle stop outer tried).1 = .error fault ↔
      tried.1 = .error fault ∧ fault.isShort = false := by
  rcases tried with ⟨other | v, after⟩
  · by_cases hshort : other.isShort = true
    · simp only [settle, if_pos hshort, reduceCtorEq, Except.error.injEq, false_iff]
      rintro ⟨rfl, hlong⟩
      rw [hshort] at hlong
      cases hlong
    · simp only [settle, if_neg hshort, Except.error.injEq]
      constructor
      · rintro rfl
        exact ⟨rfl, Bool.eq_false_iff.2 hshort⟩
      · exact And.left
  · simp only [settle, reduceCtorEq, false_and]

end ReadM

section

variable {schema : Schema} {src : Source} {fault : WireError}

/-- A read that begins with a block fails where the block does. -/
theorem fails_block {α : Type} {field : String} {alignment size : Nat} {c : Cursor}
    {k : List UInt8 → ReadM α}
    (h : Fails (Call.run schema src (.block field alignment size)) c fault) :
    Fails (do
      src.skipPadding field alignment
      let bytes ← src.take field size
      k bytes) c fault := by
  rcases fails_bind_iff.1 h with hgap | ⟨_, mid, hgap, htake⟩
  · exact hgap.first
  · exact .after hgap htake.undrop.first

theorem outcome_readWithin {readType : String → Fin schema.size → ReadM Value}
    (m : Member schema.size) (stop : Nat) (c : Cursor) :
    (readWithin schema src readType m stop).outcome c =
      settle stop c ((readValue schema src readType m.name m.type).outcome { c with stop }) := by
  unfold outcome
  cases hrun : (readValue schema src readType m.name m.type).run { c with stop } with
  | ok v after =>
    simp only [EStateM.run] at hrun
    simp only [EStateM.run, readWithin, hrun, settle]
  | error fault after =>
    simp only [EStateM.run] at hrun
    by_cases hshort : fault.isShort = true
    · simp only [EStateM.run, readWithin, hrun, settle, if_pos hshort]
    · simp only [EStateM.run, readWithin, hrun, settle, if_neg hshort]

/-- Whether items fail does not depend on those read before them. -/
theorem fails_many {each : ReadM Value} {count : Nat} {rev other : List Value} {c : Cursor}
    (h : Fails (Source.many each count rev) c fault) :
    Fails (Source.many each count other) c fault := by
  induction count generalizing rev other c with
  | zero => cases h
  | succ count ih =>
    rcases fails_bind_iff.1 h with heach | ⟨v, mid, heach, hrest⟩
    · exact heach.first
    · exact .after heach (ih hrest)

/-- Items fail behind the first of them where the rest do. -/
theorem fails_elements_behind {each : ReadM Value} {field : String} {count : Nat} {v : Value}
    {c after : Cursor} (hread : each.run c = .ok v after)
    (h : Fails (src.elements each field none count) after fault) :
    Fails (src.elements each field none (count + 1)) c fault := by
  rcases fails_bind_iff.1 h with hmany | ⟨items, mid, -, hpure⟩
  · exact Fails.first (.after hread (fails_many hmany))
  · cases hpure

/-! ## Bodies -/

section

variable {α : Type} {typeName : String} {extensibility : Extensibility} {body : Bool → ReadM α}
  {frame : Option Frame} {c after last : Cursor} {a : α}

/-- A body fails in its frame where it does by itself. -/
theorem fails_inFrame_body (hopen : (openFrame src typeName extensibility).run c = .ok frame after)
    (h : Fails (body frame.isSome) after fault) :
    Fails (inFrame src typeName extensibility body) c fault :=
  .after hopen h.first

theorem fails_inFrame_close (hopen : (openFrame src typeName extensibility).run c = .ok frame after)
    (hbody : (body frame.isSome).run after = .ok a last)
    (h : Fails (closeFrame typeName frame) last fault) :
    Fails (inFrame src typeName extensibility body) c fault :=
  .after hopen (.after hbody h.first)

end

/-- What has a frame fails where the length in front of it does. -/
theorem fails_readType_length {levels : Nat} {field : String} {j : Fin schema.size} {c : Cursor}
    (hbody : ∀ e, (schema.get j).body ≠ .enumeration e)
    (hdelimited : src.encoding.repr.isDelimited (schema.get j).extensibility)
    (h : Fails (Call.run schema src (.block (schema.get j).full
      (src.encoding.alignmentOf .uint32) Primitive.uint32.size)) c fault) :
    Fails (readType schema src (levels + 1) field j) c fault := by
  have hopen : Fails (openFrame src (schema.get j).full (schema.get j).extensibility) c fault := by
    rw [openFrame_of_delimited hdelimited]
    exact (fails_block h).first
  cases hkind : (schema.get j).body with
  | struct s =>
    rw [readType_struct hkind]
    exact hopen.first
  | union u =>
    rw [readType_union hkind]
    exact hopen.first
  | enumeration e => exact absurd hkind (hbody e)

section

variable {readType : String → Fin schema.size → ReadM Value} {typeName : String}
  {u : UnionType schema.size} {framed : Bool} {disc : Value} {d : Int64} {c after last : Cursor}

theorem fails_readUnionBody_discriminator (hmore : ¬(framed = true ∧ c.stop ≤ c.position))
    (h : Fails (readValue schema src readType u.discriminator.name u.discriminator.type) c fault) :
    Fails (readUnionBody schema src readType typeName u framed) c fault :=
  .of_run_eq (run_readUnionBody_more (Bool.eq_false_iff.2 (bodyEnded_iff.not.2 hmore))) h.first

theorem fails_readUnionBody_arm (hmore : ¬(framed = true ∧ c.stop ≤ c.position))
    (hread : (readValue schema src readType u.discriminator.name u.discriminator.type).run c =
      .ok disc after) (hknown : discriminatorOf? disc = some d) {arm : UnionArm schema.size}
    (hselect : u.select d = some arm) (hrest : ¬(framed = true ∧ after.stop ≤ after.position))
    (h : Fails (readValue schema src readType arm.member.name arm.member.type) after fault) :
    Fails (readUnionBody schema src readType typeName u framed) c fault := by
  have harm : Fails (readArm schema src readType typeName framed u d) after fault :=
    .of_run_eq (run_readArm_more hselect hrest) h.first
  exact .of_run_eq (run_readUnionBody_arm hmore hread hknown) harm.first

theorem run_readUnionBody_armed (hmore : ¬(framed = true ∧ c.stop ≤ c.position))
    (hread : (readValue schema src readType u.discriminator.name u.discriminator.type).run c =
      .ok disc after) (hknown : discriminatorOf? disc = some d)
    {arm : Option (String × Value)}
    (harm : (readArm schema src readType typeName framed u d).run after = .ok arm last) :
    (readUnionBody schema src readType typeName u framed).run c = .ok (.union d arm) last := by
  rw [run_readUnionBody_arm hmore hread hknown, EStateM.run_bind, harm]
  rfl

end

/-! ## Members -/

theorem fails_readPresent {readType : String → Fin schema.size → ReadM Value}
    {m : Member schema.size} {c : Cursor}
    (hroom : c.position + padding (src.origin + c.position) 4 + 4 ≤ c.stop)
    (h : Fails (do
      let header ← src.word m.name
      let c ← get
      if header % 8 = m.id.toNat % 8 && header / 8 ≤ c.remaining then
        readWithin schema src readType m (c.position + header / 8)
      else return none) c fault) :
    Fails (readPresent schema src readType m) c fault := by
  rw [Fails, outcome, run_readPresent, if_pos hroom]
  exact h

/-- An optional member that is there fails where its value does, unless this is too short. -/
theorem fails_readPresent_value {readType : String → Fin schema.size → ReadM Value}
    {m : Member schema.size} {header : Nat} {c after : Cursor} (hlong : fault.isShort = false)
    (hroom : c.position + padding (src.origin + c.position) 4 + 4 ≤ c.stop)
    (hread : (src.word m.name).run c = .ok header after)
    (hsame : header % 8 = m.id.toNat % 8) (hfits : header / 8 ≤ after.remaining)
    (h : Fails (readValue schema src readType m.name m.type)
      { after with stop := after.position + header / 8 } fault) :
    Fails (readPresent schema src readType m) c fault := by
  refine fails_readPresent hroom (.after hread (.after (EStateM.run_get _) ?_))
  have hmatch : (decide (header % 8 = m.id.toNat % 8) &&
      decide (header / 8 ≤ after.remaining)) = true := by
    rw [Bool.and_eq_true_iff]
    exact ⟨decide_eq_true hsame, decide_eq_true hfits⟩
  rw [if_pos hmatch, Fails, outcome_readWithin]
  exact settle_eq_error.2 ⟨h, hlong⟩

/-- An optional member fails where it does if it is there. -/
theorem fails_readOptional {readType : String → Fin schema.size → ReadM Value}
    {m : Member schema.size} {c : Cursor} (h : Fails (readPresent schema src readType m) c fault) :
    Fails (readOptional schema src readType m) c fault :=
  .after (EStateM.run_get c) h.first

/-- A fault that is not that something is too short surfaces from every call. -/
theorem Reaches.surfaces {i : Fin schema.size} {limit : Limit} {ends : List Nat}
    {call : Call schema.size} {c : Cursor} (hcall : Reaches schema src i limit ends call c)
    (hlong : fault.isShort = false) (h : Fails (call.run schema src) c fault) :
    Fails (schema.read src "" i) (src.start limit) fault := by
  induction hcall with
  | start => exact h.undrop
  | @gap ends field alignment size c _ ih =>
    have hskip : Fails (src.skipPadding field alignment) c fault :=
      .after (EStateM.run_get c) h.undrop.first
    exact ih hskip.first
  | content _ padded ih => exact ih (.after padded h)
  | enumeration _ body ih =>
    refine ih (Fails.first ?_)
    simp only [readType, body]
    exact (fails_block h).first
  | length _ body delimited ih => exact ih (fails_readType_length body delimited h).first
  | structBody _ body opened ih =>
    refine ih (Fails.first ?_)
    rw [readType_struct body]
    exact fails_inFrame_body opened h.undrop.first
  | @structEnd ends levels field j s c frame after fields last _ body opened members ih =>
    have hstruct : (do
        let fields ← readMembers schema src (readType schema src levels) frame.isSome
          s.wireMembers []
        return Value.struct fields : ReadM Value).run after = .ok (.struct fields) last := by
      rw [EStateM.run_bind, members]
      rfl
    refine ih (Fails.first ?_)
    rw [readType_struct body]
    exact fails_inFrame_close opened hstruct h
  | emptyUnion _ body opened ended ih =>
    refine ih (Fails.first ?_)
    rw [readType_union body]
    exact fails_inFrame_close opened (run_readUnionBody_ended ended) h
  | discriminator _ body opened more ih =>
    refine ih (Fails.first ?_)
    rw [readType_union body]
    exact fails_inFrame_body opened (fails_readUnionBody_discriminator more h.undrop)
  | arm _ body opened more read known selected rest ih =>
    refine ih (Fails.first ?_)
    rw [readType_union body]
    exact fails_inFrame_body opened
      (fails_readUnionBody_arm more read known selected rest h.undrop)
  | unionEnd _ body opened more read known armed ih =>
    refine ih (Fails.first ?_)
    rw [readType_union body]
    exact fails_inFrame_close opened (run_readUnionBody_armed more read known armed) h
  | primitive _ ih => exact ih (fails_block h).first.first
  | stringCount _ ih => exact ih (fails_block h).first.first
  | stringBytes _ counted some_bytes bounded ih =>
    refine ih (Fails.first (.after counted ?_))
    rw [if_neg some_bytes, bounded]
    exact .after rfl h.undrop.first
  | fixedString _ ih => exact ih h.undrop.first.first
  | sequenceCount _ ih => exact ih (fails_block h).first.first
  | sequenceItems _ counted bounded fits ih =>
    refine ih (Fails.first (.after counted ?_))
    rw [bounded]
    exact .after rfl (.after fits h.undrop)
  | arrayItems _ ih => exact ih h
  | declared _ ih => exact ih h
  | run _ blittable some_items ih =>
    refine ih (Fails.first ?_)
    simp only [Source.elements, blittable, if_neg some_items]
    exact fails_block h
  | item _ single ih =>
    refine ih (Fails.first ?_)
    simp only [Source.elements, single]
    exact h.undrop.first.first
  | nextItems _ single read ih =>
    refine ih (Fails.first ?_)
    have hitems := h.undrop
    rw [single] at hitems ⊢
    exact fails_elements_behind read hitems
  | skipped _ ended ih =>
    exact ih (Fails.first (.of_run_eq (run_readMembers_ended (bodyEnded_iff.2 ended)) h.undrop))
  | required _ more always ih =>
    exact ih (Fails.first (.of_run_eq (run_readMembers_required more always) h.undrop.first))
  | afterRequired _ more always read ih =>
    exact ih (Fails.first (.of_run_eq (run_readMembers_required more always)
      (.after read h.undrop)))
  | optional _ more sometimes ih =>
    exact ih (Fails.first (.of_run_eq (run_readMembers_optional more sometimes) h.undrop.first))
  | @afterOptional ends levels framed m rest fields c found after _ more sometimes read ih =>
    refine ih (Fails.first (.of_run_eq (run_readMembers_optional more sometimes) (.after read ?_)))
    cases found with
    | some v => exact h.undrop
    | none => exact h.undrop
  | header _ room ih =>
    exact ih (fails_readOptional (fails_readPresent room (fails_block h).first)).first
  | present _ room read same fits ih =>
    exact ih (fails_readOptional (fails_readPresent_value hlong room read same fits h.undrop)).first

end

end Cdr
