import Cdr.Proofs.Lockstep
import Cdr.Proofs.ReadAcross
import Cdr.Proofs.RoundTrip

/-! # Absent members and the bytes behind them

A reader finds an optional member by the four bytes where its header would stand: they have to hold
the lowest three bits of the member id and a length, and the value has to have this length. Where a
member is absent, what follows may happen to look like that. Apart from this, a value comes back from
its bytes, whatever follows its absent members.
-/

namespace Cdr

open Image ReadM

/-- Where there is room for a word, it is read. -/
theorem Source.run_word_infinite (src : Source) (field : String) {c : Cursor}
    (hroom : c.position + padding (src.origin + c.position) 4 + 4 ≤ c.stop)
    (hlimit : c.limit = .infinite) :
    let start := c.position + padding (src.origin + c.position) 4
    ∃ after, (src.word field).run c =
        .ok (src.encoding.order.decode (src.bytes.extract start (start + 4)).toList) after ∧
      c.Moved (padding (src.origin + c.position) 4 + 4) after := by
  have hgap : padding (src.origin + c.position) 4 ≤ c.remaining := by
    unfold Cursor.remaining
    omega
  obtain ⟨mid, hskip, hmid⟩ := run_take_infinite src field hgap hlimit
  have hfour : Primitive.uint32.size ≤ mid.remaining := by
    unfold Cursor.remaining
    rw [hmid.position, hmid.stop]
    exact Nat.le_sub_of_add_le (by rw [Nat.add_comm]; exact hroom)
  obtain ⟨after, htake, hafter⟩ := run_take_infinite src field hfour (hmid.limit.trans hlimit)
  refine ⟨after, ?_, hmid.trans hafter⟩
  rw [hmid.position] at htake
  simp only [word, skipPadding, Encoding.alignmentOf_uint32, EStateM.run_bind, EStateM.run_get,
    EStateM.run_pure, hskip, htake]
  rfl

section

variable (schema : Schema) (src : Source) (levels : Nat) (m : Member schema.size)

/-- Whether the bytes between two positions are taken for a value of the member: one is read that
    ends with them, or they are refused for another reason than being too few. -/
def fills (position stop : Nat) : Bool :=
  match (readValue schema src (readType schema src levels) m.name m.type).outcome
    ⟨position, stop, none, 0, .infinite, []⟩ with
  | (.ok _, after) => after.position == stop
  | (.error fault, _) => !fault.isShort

/-- Whether the bytes at a position, in a region that ends at `stop`, are taken for the header and
    the value of an optional member. -/
def TakenFor (position stop : Nat) : Prop :=
  let start := position + padding (src.origin + position) 4
  let header := src.encoding.order.decode (src.bytes.extract start (start + 4)).toList
  let last := start + 4 + header / 8
  start + 4 ≤ stop ∧ header % 8 = m.id.toNat % 8 ∧ last ≤ stop ∧
    fills schema src levels m (start + 4) last = true

instance decidableTakenFor (position stop : Nat) :
    Decidable (TakenFor schema src levels m position stop) :=
  inferInstanceAs (Decidable (_ ∧ _ ∧ _ ∧ _))

end

section

variable {schema : Schema} (src : Source) (levels : Nat) {m : Member schema.size} {p : Primitive}
  (htype : m.type = .primitive p) (hnumber : p.isBlittable = true) {position stop : Nat}

include htype hnumber

/-- Bytes are taken for a number when there are as many as it has, on its boundary. -/
theorem fills_number_iff (hposition : position ≤ stop) :
    fills schema src levels m position stop = true ↔ stop =
      position + padding (src.origin + position) (src.encoding.alignmentOf p) + p.size := by
  let here : Cursor := ⟨position, stop, none, 0, .infinite, []⟩
  let gap := padding (src.origin + position) (src.encoding.alignmentOf p)
  have hevery : ∀ bytes, ∃ s, src.encoding.readScalar p bytes = .ok s := by
    intro bytes
    cases p with
    | bool => cases hnumber
    | char => cases hnumber
    | _ => exact ⟨_, rfl⟩
  simp only [fills, outcome, htype, readValue, Source.scalar, Source.skipPadding,
    EStateM.run_bind, EStateM.run_get]
  by_cases hgap : gap ≤ stop - position
  · obtain ⟨mid, hskip, hmid⟩ := src.run_take_infinite (c := here) m.name hgap rfl
    have hat : mid.position = position + gap := hmid.position
    have hend : mid.stop = stop := hmid.stop
    rw [hskip]
    by_cases hsize : p.size ≤ mid.remaining
    · obtain ⟨after, htake, hafter⟩ := src.run_take_infinite m.name hsize (hmid.limit.trans rfl)
      obtain ⟨s, hs⟩ := hevery (src.bytes.extract mid.position (mid.position + p.size)).toList
      have hlast : after.position = position + gap + p.size := by rw [hafter.position, hat]
      simp only [htake, hs, MonadExcept.ofExcept, EStateM.run_pure, hlast, beq_iff_eq]
      exact eq_comm
    · have hfew : stop < position + gap + p.size := by
        unfold Cursor.remaining at hsize
        omega
      have htake := Source.run_take_of_lt src m.name (Nat.lt_of_not_le hsize)
      simp only [EStateM.run_pure, htake, Source.isShort_shortRead, Bool.not_true,
        Bool.false_eq_true, false_iff]
      exact Nat.ne_of_lt hfew
  · have hfew : stop < position + gap + p.size := by omega
    have htake := Source.run_take_of_lt src m.name (c := here) (Nat.lt_of_not_le hgap)
    rw [htake]
    simp only [Source.isShort_shortRead, Bool.not_true, Bool.false_eq_true, false_iff]
    exact Nat.ne_of_lt hfew

/-- A number is taken to be there exactly where a word with its lowest id bits and its size stands,
    with as many bytes behind it. -/
theorem takenFor_number_iff :
    let start := position + padding (src.origin + position) 4
    let length := padding (src.origin + (start + 4)) (src.encoding.alignmentOf p) + p.size
    TakenFor schema src levels m position stop ↔
      src.encoding.order.decode (src.bytes.extract start (start + 4)).toList =
          length * 8 + m.id.toNat % 8 ∧ start + 4 + length ≤ stop := by
  intro start length
  let header := src.encoding.order.decode (src.bytes.extract start (start + 4)).toList
  show (start + 4 ≤ stop ∧ header % 8 = m.id.toNat % 8 ∧ start + 4 + header / 8 ≤ stop ∧
    fills schema src levels m (start + 4) (start + 4 + header / 8) = true) ↔
      header = length * 8 + m.id.toNat % 8 ∧ start + 4 + length ≤ stop
  have hfills := fills_number_iff src levels htype hnumber
    (Nat.le_add_right (start + 4) (header / 8))
  rw [Nat.add_assoc (start + 4), Nat.add_left_cancel_iff] at hfills
  constructor
  · rintro ⟨-, hid, hlast, htaken⟩
    have hlength : header / 8 = length := hfills.1 htaken
    refine ⟨by omega, ?_⟩
    rw [← hlength]
    exact hlast
  · rintro ⟨hword, hroom⟩
    have hlength : header / 8 = length := by omega
    refine ⟨by omega, by omega, ?_, hfills.2 hlength⟩
    rw [hlength]
    exact hroom

end

/-- Nothing is asked where a member is absent. -/
def unasked (n : Nat) : Absence n := fun _ _ _ _ _ _ _ => True

/-- That an absent member is not taken to be there. -/
def untaken (schema : Schema) (src : Source) : Absence schema.size :=
  fun levels _ _ m _ x stop => ¬TakenFor schema src levels m (x - src.origin) (stop - src.origin)

instance decidableUnasked {n : Nat} (levels : Nat) (typeName : String) (fields : Entries Value)
    (m : Member n) (rest : List (Member n)) (x stop : Nat) :
    Decidable (unasked n levels typeName fields m rest x stop) :=
  .isTrue trivial

instance decidableUntaken (schema : Schema) (src : Source) (levels : Nat) (typeName : String)
    (fields : Entries Value) (m : Member schema.size) (rest : List (Member schema.size))
    (x stop : Nat) : Decidable (untaken schema src levels typeName fields m rest x stop) :=
  inferInstanceAs (Decidable (¬TakenFor schema src levels m (x - src.origin) (stop - src.origin)))

section

variable (schema : Schema) (src : Source) (levels : Nat) (m : Member schema.size) {c : Cursor}

/-- Who owns the body and what was read before does not show in whether bytes are taken for a
    value. -/
theorem run_readWithin_none_iff {stop : Nat} (hsound : c.Sound src) (hlimit : c.limit = .infinite)
    (hposition : c.position ≤ stop) (hstop : stop ≤ c.stop) :
    (∃ last, (readWithin schema src (readType schema src levels) m stop).run c = .ok none last) ↔
      ¬fills schema src levels m c.position stop = true := by
  let here : Cursor := ⟨c.position, stop, none, 0, .infinite, []⟩
  have halike : Cursor.Alike src.bytes.size { c with stop } here :=
    ⟨⟨rfl, hlimit, rfl⟩, rfl, hposition, Nat.le_trans hstop hsound.stop_le⟩
  have hstep : InStep src.bytes.size Eq
      (readValue schema src (readType schema src levels) m.name m.type)
      (readValue schema src (readType schema src levels) m.name m.type) :=
    inStep_readValue rfl (inStep_readType schema (Nat.le_refl _) rfl levels) m.name m.type
  have hpaired := hstep { c with stop } here halike
  simp only [EStateM.run] at hpaired
  simp only [fills, outcome, EStateM.run, readWithin]
  cases hrun : readValue schema src (readType schema src levels) m.name m.type { c with stop } with
  | ok v after =>
    rw [hrun] at hpaired
    cases hhere : readValue schema src (readType schema src levels) m.name m.type here with
    | error fault after' =>
      rw [hhere] at hpaired
      exact hpaired.elim
    | ok w after' =>
      rw [hhere] at hpaired
      obtain ⟨-, hafter⟩ := hpaired
      by_cases hend : after.position = stop
      · simp [hend, hafter.position]
      · simp [hend, hafter.position]
  | error fault after =>
    rw [hrun] at hpaired
    cases hhere : readValue schema src (readType schema src levels) m.name m.type here with
    | ok w after' =>
      rw [hhere] at hpaired
      exact hpaired.elim
    | error fault' after' =>
      rw [hhere] at hpaired
      obtain ⟨hshort, -⟩ := hpaired
      cases h : fault.isShort with
      | true => simp [hshort, h]
      | false => simp [hshort, h]

/-- An optional member is found to be absent just where the bytes are not taken for it. -/
theorem run_readPresent_none_iff (hsound : c.Sound src) (hlimit : c.limit = .infinite) :
    (∃ last, (readPresent schema src (readType schema src levels) m).run c = .ok none last) ↔
      ¬TakenFor schema src levels m c.position c.stop := by
  by_cases hroom : c.position + padding (src.origin + c.position) 4 + 4 ≤ c.stop
  · obtain ⟨after, hword, hmoved⟩ := src.run_word_infinite m.name hroom hlimit
    have hposition : c.position + padding (src.origin + c.position) 4 + 4 = after.position := by
      rw [hmoved.position, Nat.add_assoc]
    have hroom' : after.position ≤ after.stop := by
      rw [← hposition, hmoved.stop]
      exact hroom
    have hsound' : after.Sound src := ⟨hroom', hmoved.stop ▸ hsound.stop_le⟩
    unfold TakenFor
    generalize hheader : src.encoding.order.decode _ = header at hword
    have hstep : (readPresent schema src (readType schema src levels) m).run c =
        (if header % 8 = m.id.toNat % 8 && header / 8 ≤ after.remaining then
          readWithin schema src (readType schema src levels) m (after.position + header / 8)
        else return none : ReadM (Option Value)).run after := by
      rw [run_readPresent, if_pos hroom, EStateM.run_bind, hword]
      rfl
    have hfits : header / 8 ≤ after.remaining ↔ after.position + header / 8 ≤ c.stop := by
      unfold Cursor.remaining
      rw [← hmoved.stop]
      omega
    rw [hposition] at hheader
    rw [hstep]
    simp only [hposition, hheader, hmoved.stop ▸ hroom', true_and]
    by_cases hmatch : header % 8 = m.id.toNat % 8 ∧ after.position + header / 8 ≤ c.stop
    · obtain ⟨hid, hlast⟩ := hmatch
      have hiff := run_readWithin_none_iff schema src levels m hsound'
        (hmoved.limit.trans hlimit) (Nat.le_add_right _ (header / 8)) (hmoved.stop ▸ hlast)
      simp [hid, hfits.2 hlast, hlast, hiff]
    · have hcond : (header % 8 = m.id.toNat % 8 && header / 8 ≤ after.remaining) = false := by
        rw [Bool.and_eq_false_iff]
        by_cases hid : header % 8 = m.id.toNat % 8
        · exact .inr (decide_eq_false fun h => hmatch ⟨hid, hfits.1 h⟩)
        · exact .inl (decide_eq_false hid)
      rw [hcond]
      exact iff_of_true ⟨after, rfl⟩ fun h => hmatch ⟨h.1, h.2.1⟩
  · rw [run_readPresent, if_neg hroom]
    exact iff_of_true ⟨c, rfl⟩ fun h => hroom h.1

/-- A reader without a limit goes back to where an absent member would stand. -/
theorem run_readOptional_of_untaken (hsound : c.Sound src) (hlimit : c.limit = .infinite)
    (h : ¬TakenFor schema src levels m c.position c.stop) :
    ∃ after, (readOptional schema src (readType schema src levels) m).run c = .ok none after ∧
      c.Moved 0 after := by
  obtain ⟨last, hrun⟩ := (run_readPresent_none_iff schema src levels m hsound hlimit).2 h
  obtain ⟨-, -, hstop, howner⟩ :=
    (keeps_readPresent (keeps_readType schema src levels) m hsound).of_ok hrun
  have halike : c.Alike src.bytes.size c :=
    ⟨⟨rfl, hlimit, hlimit⟩, rfl, hsound.position_le, hsound.stop_le⟩
  have hstep : InStep src.bytes.size Eq
      (readPresent schema src (readType schema src levels) m)
      (readPresent schema src (readType schema src levels) m) :=
    inStep_readPresent (Nat.le_refl _) rfl (inStep_readType schema (Nat.le_refl _) rfl levels) m
  have hpaired := hstep c c halike
  rw [hrun] at hpaired
  exact run_readOptional_of_none m hrun hstop howner (hpaired.2.left.trans hlimit.symm)

end

theorem MemberType.eq_of_corresponds {n : Nat} {t t' : MemberType n} (h : t.Corresponds Eq t') :
    t' = t := by
  induction h with
  | sequence bound _ ih => rw [ih]
  | array length _ ih => rw [ih]
  | type heq => rw [heq]
  | _ => rfl

/-- Where bytes are not taken for an absent member, a reader finds it absent. -/
theorem untaken_tells (schema : Schema) (src : Source) :
    (untaken schema src).Tells src (.same src.encoding.repr schema) := by
  intro levels typeName fields m m' rest c b hm hholds _ h
  refine run_readOptional_of_untaken schema src levels m' hholds.sound hholds.unlimited ?_
  refine fun htaken => h ?_
  rw [Nat.add_sub_cancel_left, Nat.add_sub_cancel_left]
  unfold TakenFor fills at htaken ⊢
  rw [hm.name, hm.id, MemberType.eq_of_corresponds hm.type] at htaken
  exact htaken

/-! ## At the end of a region

A value without bytes at the end of a region leaves no doubt of its absent members, as nothing stands
behind them.
-/

section

variable {schema : Schema} {e : Encoding} {ofType : String → Fin schema.size → Value → Image}
  {ask ask' : String → Fin schema.size → Value → Demand} {x stop : Nat}

theorem each_intro_of_no_bytes {α : Type} {f : α → Image} {demand : α → Demand} {items : List α}
    (h : ∀ a ∈ items, f a x = .ok [] ∧ demand a x stop) : Demand.each f demand items x stop := by
  induction items with
  | nil => trivial
  | cons a as ih =>
    obtain ⟨hbytes, hdemand⟩ := h a List.mem_cons_self
    refine ⟨hdemand, fun b hb => ?_⟩
    rw [hbytes] at hb
    cases hb
    exact ih fun c hc => h c (List.mem_cons_of_mem a hc)

/-- Nothing is asked of scalars. -/
theorem each_of_primitive {f : Value → Image} {field : String} {p : Primitive}
    {items : List Value} :
    Demand.each f (valueDemand schema e ofType ask field (.primitive p)) items x stop := by
  induction items generalizing x with
  | nil => trivial
  | cons v vs ih => exact ⟨trivial, fun _ _ => ih⟩

theorem valueDemand_of_no_bytes
    (htype : ∀ field i v, ofType field i v x = .ok [] → ask field i v x stop →
      ask' field i v x stop)
    {field : String} {t : MemberType schema.size} {v : Value}
    (h : valueImage schema e ofType field t v x = .ok [])
    (hdemand : valueDemand schema e ofType ask field t v x stop) :
    valueDemand schema e ofType ask' field t v x stop := by
  induction t generalizing v with
  | primitive p => trivial
  | string bound => trivial
  | fixedString capacity =>
    cases v with
    | string text => exact hdemand
    | _ => trivial
  | sequence element bound _ =>
    have hle := minSizeWith_le_length (fun _ _ _ _ _ _ => Nat.zero_le _) h
    exact absurd hle (by decide : ¬4 ≤ 0)
  | array element length ih =>
    cases v with
    | sequence items =>
      obtain ⟨-, h⟩ := checked_eq_ok h
      cases hrun : element.blittable? with
      | some p =>
        obtain ⟨rfl, -⟩ := MemberType.eq_of_blittable? hrun
        exact each_of_primitive
      | none =>
        rw [hrun] at h
        have hitems := each_of_no_bytes h hdemand
        exact each_intro_of_no_bytes fun item hitem =>
          ⟨(hitems item hitem).1, ih (hitems item hitem).1 (hitems item hitem).2⟩
    | _ => cases h
  | type i => exact htype field i v h hdemand

theorem membersDemand_of_no_bytes
    (htype : ∀ field i v, ofType field i v x = .ok [] → ask field i v x stop →
      ask' field i v x stop)
    {absence absence' : Member schema.size → List (Member schema.size) → Demand}
    (habsence : ∀ m rest, absence' m rest x stop) {typeName : String} {fields : Entries Value}
    {ms : List (Member schema.size)}
    (h : Image.each (memberImage schema e ofType typeName fields) ms x = .ok [])
    (hdemand : membersDemandBy schema e ofType ask absence typeName fields ms x stop) :
    membersDemandBy schema e ofType ask' absence' typeName fields ms x stop := by
  induction ms with
  | nil => trivial
  | cons m rest ih =>
    obtain ⟨first, others, hfirst, hothers, hnil⟩ := andThen_eq_ok h
    obtain ⟨rfl, rfl⟩ := List.append_eq_nil_iff.1 hnil.symm
    obtain ⟨hm, hrest⟩ := hdemand
    refine ⟨?_, fun b hb => ?_⟩
    · rcases memberImage_eq_ok hfirst with ⟨hget, -, -⟩ | ⟨v, hget, halways, hvalue⟩ |
        ⟨v, inner, -, -, -, -, hbytes⟩
      · rw [hget]
        exact habsence m rest
      · simp only [hget, halways, Bool.false_eq_true, if_false] at hm ⊢
        exact valueDemand_of_no_bytes htype hvalue hm
      · exact absurd hbytes.symm (e.append_wordBytes_ne_nil _ _ _)
    · rw [hfirst] at hb
      cases hb
      exact ih hothers (hrest [] hfirst)

end

theorem typeDemand_of_no_bytes (schema : Schema) (e : Encoding)
    {absence absence' : Absence schema.size}
    (habsence : ∀ levels typeName fields m rest x stop, stop ≤ x →
      absence' levels typeName fields m rest x stop)
    (levels : Nat) (field : String) (i : Fin schema.size) (v : Value) {x stop : Nat}
    (hend : stop ≤ x) (h : typeImage schema e levels field i v x = .ok [])
    (hdemand : typeDemandBy schema e absence levels field i v x stop) :
    typeDemandBy schema e absence' levels field i v x stop := by
  induction levels generalizing field i v with
  | zero => trivial
  | succ levels ih =>
    rcases typeImage_eq_ok h with ⟨s, fields, hbody, rfl, himage⟩ |
      ⟨u, d, arm, hbody, rfl, himage⟩ | ⟨enum, n, hbody, rfl, himage⟩
    · obtain ⟨hunframed, hmembers⟩ := Encoding.delimitedImage_eq_nil himage
      simp only [typeDemandBy, hbody, Demand.delimited, hunframed, Bool.false_eq_true, if_false]
        at hdemand ⊢
      obtain ⟨hsorted, hnames, hdemand⟩ := hdemand
      refine ⟨hsorted, hnames, ?_⟩
      exact membersDemand_of_no_bytes ih (fun m rest => habsence _ _ _ m rest _ _ hend) hmembers
        hdemand
    · exact absurd (Encoding.delimitedImage_eq_nil himage).2 unionImage_ne_nil
    · have hpos := Encoding.length_scalarImage_pos himage
      exact absurd hpos (Nat.lt_irrefl 0)

/-- At the end of a region, nothing is taken for an absent member. -/
theorem untaken_at_end (schema : Schema) (src : Source) {levels : Nat} {typeName : String}
    {fields : Entries Value} {m : Member schema.size} {rest : List (Member schema.size)}
    {x stop : Nat} (hend : stop ≤ x) :
    untaken schema src levels typeName fields m rest x stop := by
  rintro ⟨hroom, -⟩
  omega

/-- A value without bytes at the end of a region has no bytes that might be taken for its absent
    members. -/
theorem untaken_of_no_bytes (schema : Schema) (src : Source) (levels : Nat) {x stop : Nat}
    (hend : stop ≤ x) (field : String) (i : Fin schema.size) (v : Value)
    (himage : typeImage schema src.encoding levels field i v x = .ok [])
    (hdemand : typeDemandBy schema src.encoding (unasked schema.size) levels field i v x stop) :
    typeDemandBy schema src.encoding (untaken schema src) levels field i v x stop :=
  typeDemand_of_no_bytes schema src.encoding
    (fun _ _ _ _ _ _ _ hend => untaken_at_end schema src hend) levels field i v hend himage hdemand

end Cdr
