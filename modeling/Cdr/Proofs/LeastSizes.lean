import Cdr.Proofs.Frames
import Cdr.Proofs.LeastCounted
import Cdr.Proofs.Nesting

/-! # The fewest bytes of a value

The fewest bytes of a type are found from the type alone. Whatever value of it is counted, and
whatever bytes it is read from, takes no fewer. So the bytes that are left for elements which can be
read are enough for their count, and a count is never refused in front of such elements.
-/

namespace Cdr

/-- That a reader has moved over at least so many bytes, not past the end, which it has kept. -/
structure Cursor.Passes (c : Cursor) (least : Nat) (after : Cursor) : Prop where
  stop_eq : after.stop = c.stop
  least_le : c.position + least ≤ after.position
  position_le : after.position ≤ max c.position c.stop

namespace Cursor.Passes

variable {c mid after : Cursor} {least more : Nat}

theorem refl (c : Cursor) : c.Passes 0 c :=
  ⟨rfl, Nat.le_refl _, Nat.le_max_left _ _⟩

theorem mono (h : c.Passes more after) (hle : least ≤ more) : c.Passes least after :=
  ⟨h.stop_eq, Nat.le_trans (Nat.add_le_add_left hle _) h.least_le, h.position_le⟩

theorem trans (h : c.Passes least mid) (hnext : mid.Passes more after) :
    c.Passes (least + more) after := by
  obtain ⟨hstop, hleast, hposition⟩ := h
  obtain ⟨hlast, hmore, hend⟩ := hnext
  exact ⟨hlast.trans hstop, by omega, by omega⟩

/-- What a reader has moved over was left to it. -/
theorem le_remaining (h : c.Passes least after) : least ≤ c.remaining := by
  obtain ⟨-, hleast, hposition⟩ := h
  unfold Cursor.remaining
  omega

end Cursor.Passes

open ReadM

namespace ReadM

/-- That a read takes at least so many bytes when it succeeds, wherever the reader stands. -/
def Takes {α : Type} (m : ReadM α) (least : Nat) : Prop :=
  ∀ c a after, m.run c = .ok a after → c.Passes least after

variable {α β : Type} {m : ReadM α} {k : α → ReadM β} {least more : Nat}

theorem Takes.mono (h : m.Takes more) (hle : least ≤ more) : m.Takes least :=
  fun c a after hrun => (h c a after hrun).mono hle

theorem takes_pure (a : α) : (pure a : ReadM α).Takes 0 := by
  intro c b after hrun
  cases hrun
  exact .refl c

theorem takes_throw (fault : WireError) (least : Nat) : (throw fault : ReadM α).Takes least := by
  intro c a after hrun
  cases hrun

theorem takes_bind (hm : m.Takes least) (hk : ∀ a, (k a).Takes more) :
    (m >>= k).Takes (least + more) := by
  intro c b after hrun
  rw [EStateM.run_bind] at hrun
  cases hfirst : m.run c with
  | error fault mid =>
    rw [hfirst] at hrun
    cases hrun
  | ok a mid =>
    rw [hfirst] at hrun
    exact (hm c a mid hfirst).trans (hk a mid b after hrun)

theorem takes_first (hm : m.Takes least) (hk : ∀ a, (k a).Takes 0) : (m >>= k).Takes least :=
  takes_bind hm hk

theorem takes_last (hm : m.Takes 0) (hk : ∀ a, (k a).Takes more) : (m >>= k).Takes more :=
  (takes_bind hm hk).mono (Nat.le_of_eq (Nat.zero_add more).symm)

theorem takes_ofExcept (result : Except WireError α) :
    (MonadExcept.ofExcept result : ReadM α).Takes 0 := by
  cases result with
  | error fault => exact takes_throw fault 0
  | ok a => exact takes_pure a

theorem takes_get : (get : ReadM Cursor).Takes 0 := by
  intro c a after hrun
  cases hrun
  exact .refl c

theorem takes_atEnd : atEnd.Takes 0 :=
  takes_first takes_get fun _ => takes_pure _

theorem takes_report (event : Event) : (report event).Takes 0 := by
  intro c a after hrun
  cases hrun
  exact ⟨rfl, Nat.le_refl _, Nat.le_max_left _ _⟩

end ReadM

namespace Source

variable (src : Source) (field : String) {least : Nat}

theorem takes_take (size : Nat) : (src.take field size).Takes size := by
  intro c a after hrun
  rcases Nat.lt_or_ge c.remaining size with hlt | hge
  · rw [run_take_of_lt src field hlt] at hrun
    cases hrun
  · rcases run_take_of_le src field hge with ⟨limit, highWater, htake⟩ | htake
    · rw [htake] at hrun
      cases hrun
      unfold Cursor.remaining at hge
      exact ⟨rfl, Nat.le_refl _, by simp only []; omega⟩
    · rw [htake] at hrun
      cases hrun

theorem takes_skipPadding (alignment : Nat) : (src.skipPadding field alignment).Takes 0 := by
  refine takes_last takes_get fun c => ?_
  exact takes_first ((src.takes_take field _).mono (Nat.zero_le _)) fun _ => takes_pure ()

theorem takes_scalar (p : Primitive) : (src.scalar field p).Takes p.size := by
  refine takes_last (src.takes_skipPadding field _) fun _ => ?_
  exact takes_first (src.takes_take field p.size) fun _ => takes_ofExcept _

theorem takes_word : (src.word field).Takes 4 := by
  refine takes_last (src.takes_skipPadding field _) fun _ => ?_
  exact takes_first (src.takes_take field 4) fun _ => takes_pure _

theorem takes_text (bytes : List UInt8) : (text bytes).Takes 0 := by
  unfold text
  split
  · exact takes_pure _
  · exact takes_throw _ _

theorem takes_many {each : ReadM Value} (heach : each.Takes least) (count : Nat)
    (rev : List Value) : (many each count rev).Takes (count * least) := by
  induction count generalizing rev with
  | zero => exact (takes_pure _).mono (Nat.le_of_eq (Nat.zero_mul least))
  | succ count ih =>
    rw [Nat.succ_mul, Nat.add_comm (count * least)]
    exact takes_bind heach fun v => ih (v :: rev)

theorem takes_elements {each : ReadM Value} (heach : each.Takes least) {run : Option Primitive}
    (hrun : ∀ p, run = some p → p.size = least) (count : Nat) :
    (src.elements each field run count).Takes (count * least) := by
  unfold elements
  cases run with
  | none => exact takes_first (takes_many heach count []) fun _ => takes_pure _
  | some p =>
    rw [← hrun p rfl]
    simp only []
    split
    next hzero =>
      rw [hzero, Nat.zero_mul]
      exact takes_pure _
    next =>
      refine takes_last (src.takes_skipPadding field _) fun _ => ?_
      refine takes_first (src.takes_take field _) fun _ => ?_
      exact takes_first (takes_ofExcept _) fun _ => takes_pure _

end Source

theorem takes_checkCount (schema : Schema) (src : Source) (field : String)
    (element : MemberType schema.size) (count : Nat) :
    (checkCount schema src field element count).Takes 0 := by
  refine takes_first takes_get fun c => ?_
  dsimp only
  split
  · exact takes_throw _ _
  · exact takes_pure ()

/-- Where there is room for as many elements of the fewest bytes, their count is let through. -/
theorem checkCount_of_room {schema : Schema} {src : Source} (field : String)
    {element : MemberType schema.size} {count : Nat} {c : Cursor}
    (hpos : 0 < schema.minSize src.encoding.repr element)
    (hroom : count * schema.minSize src.encoding.repr element ≤ c.remaining) :
    (checkCount schema src field element count).run c = .ok () c := by
  have hfits : ¬c.remaining <
      min (count * max (schema.minSize src.encoding.repr element) 1) maxByteCount := by
    rw [Nat.max_eq_left hpos]
    omega
  simp only [checkCount, EStateM.run_bind, EStateM.run_get, if_neg hfits]
  rfl

/-- A framed body is left behind its length, whatever was read of it. -/
theorem takes_framed {α : Type} {src : Source} (typeName : String) {extensibility : Extensibility}
    (body : Bool → ReadM α) (hframed : src.encoding.repr.isDelimited extensibility = true) :
    (inFrame src typeName extensibility body).Takes 4 := by
  intro c a after hrun
  obtain ⟨length, mid, last, hword, hfits, -, hclose⟩ := run_inFrame_eq_ok hframed hrun
  obtain ⟨hposition, hstop⟩ := run_closeFrame_eq_ok hclose
  have hposition : after.position = mid.position + length := hposition
  have hbehind : mid.Passes 0 after := by
    unfold Cursor.remaining at hfits
    exact ⟨hstop, by omega, by omega⟩
  exact (src.takes_word typeName c length mid hword).trans hbehind

section

variable {schema : Schema} {src : Source} {readType : String → Fin schema.size → ReadM Value}

/-- A member that is found ends where it was to end, and the end around it is put back. -/
theorem run_readWithin_eq_ok {m : Member schema.size} {stop : Nat} {c after : Cursor}
    {found : Option Value} (h : (readWithin schema src readType m stop).run c = .ok found after) :
    after.stop = c.stop ∧ ∀ v, found = some v → after.position = stop := by
  cases hvalue : (readValue schema src readType m.name m.type).run { c with stop } with
  | ok v last =>
    simp only [EStateM.run] at hvalue
    simp only [EStateM.run, readWithin, hvalue] at h
    cases h
    refine ⟨rfl, fun w hw => ?_⟩
    by_contra hne
    rw [if_neg hne] at hw
    cases hw
  | error fault last =>
    simp only [EStateM.run] at hvalue
    simp only [EStateM.run, readWithin, hvalue] at h
    cases hshort : fault.isShort with
    | true =>
      rw [hshort, if_pos rfl] at h
      cases h
      refine ⟨rfl, fun v hv => ?_⟩
      cases hv
    | false =>
      rw [hshort, if_neg Bool.false_ne_true] at h
      cases h

/-- A member that is found lies behind its header. -/
theorem run_readPresent_eq_ok {m : Member schema.size} {c after : Cursor} {found : Option Value}
    (h : (readPresent schema src readType m).run c = .ok found after) :
    after.stop = c.stop ∧ ∀ v, found = some v → c.Passes 0 after := by
  rw [run_readPresent] at h
  split at h
  next =>
    rw [EStateM.run_bind] at h
    cases hword : (src.word m.name).run c with
    | error fault mid =>
      rw [hword] at h
      cases h
    | ok header mid =>
      have hmid := src.takes_word m.name c header mid hword
      simp only [hword, EStateM.run_bind, EStateM.run_get] at h
      split at h
      next hmatch =>
        have hfits : header / 8 ≤ mid.remaining :=
          of_decide_eq_true (Bool.and_eq_true_iff.1 hmatch).2
        obtain ⟨hstop, hfound⟩ := run_readWithin_eq_ok h
        refine ⟨hstop.trans hmid.stop_eq, fun v hv => ?_⟩
        have hposition := hfound v hv
        have hbehind : mid.Passes 0 after := by
          unfold Cursor.remaining at hfits
          exact ⟨hstop, by omega, by omega⟩
        exact (hmid.trans hbehind).mono (Nat.zero_le _)
      next =>
        cases h
        refine ⟨hmid.stop_eq, fun v hv => ?_⟩
        cases hv
  next =>
    cases h
    refine ⟨rfl, fun v hv => ?_⟩
    cases hv

/-- An optional member takes bytes when it is there, and leaves the reader where it was when it is
    not. -/
theorem takes_readOptional (m : Member schema.size) :
    (readOptional schema src readType m).Takes 0 := by
  intro c found after hrun
  simp only [readOptional, EStateM.run_bind, EStateM.run_get] at hrun
  cases hlast : (readPresent schema src readType m).run c with
  | error fault last =>
    rw [hlast] at hrun
    cases hrun
  | ok found last =>
    obtain ⟨hstop, hpasses⟩ := run_readPresent_eq_ok hlast
    rw [hlast] at hrun
    cases found with
    | some v =>
      cases hrun
      exact hpasses v rfl
    | none =>
      cases hrun
      exact ⟨hstop, Nat.le_refl _, Nat.le_max_left _ _⟩

variable {least : Fin schema.size → Nat} (htype : ∀ field i, (readType field i).Takes (least i))

include htype

theorem takes_readValue (field : String) (t : MemberType schema.size) :
    (readValue schema src readType field t).Takes (t.minSizeWith least) := by
  induction t with
  | primitive p => exact takes_first (src.takes_scalar field p) fun _ => takes_pure _
  | string bound =>
    refine takes_first (src.takes_word field) fun count => ?_
    split
    · exact takes_pure _
    · refine takes_last (takes_ofExcept _) fun _ => ?_
      exact takes_last ((src.takes_take field count).mono (Nat.zero_le _)) fun _ =>
        Source.takes_text _
  | fixedString capacity =>
    exact takes_first (src.takes_take field _) fun _ => Source.takes_text _
  | sequence element bound ih =>
    refine takes_first (src.takes_word field) fun count => ?_
    refine takes_last (takes_ofExcept _) fun _ => ?_
    refine takes_last (takes_checkCount schema src field element count) fun _ => ?_
    exact (src.takes_elements field ih (fun _ => MemberType.size_of_blittable?) count).mono
      (Nat.zero_le _)
  | array element length ih =>
    rw [MemberType.minSizeWith, Nat.mul_comm]
    exact src.takes_elements field ih (fun _ => MemberType.size_of_blittable?) _
  | type i => exact htype field i

theorem takes_readMembers (ms : List (Member schema.size)) (fields : Entries Value) :
    (readMembers schema src readType false ms fields).Takes (Member.leastOf least ms) := by
  induction ms generalizing fields with
  | nil => exact takes_pure fields
  | cons m rest ih =>
    unfold readMembers
    refine takes_last takes_atEnd fun ended => ?_
    simp only [Bool.false_and, Bool.false_eq_true, if_false]
    cases hoptional : m.optional with
    | true =>
      rw [Member.leastOf_optional rest hoptional]
      refine takes_last (takes_readOptional m) fun found => ?_
      cases found with
      | some v => exact ih _
      | none => exact ih _
    | false =>
      rw [Member.leastOf_required rest hoptional]
      exact takes_bind (takes_readValue htype m.name m.type) fun v => ih _

theorem takes_readUnionBody (typeName : String) (u : UnionType schema.size) :
    (readUnionBody schema src readType typeName u false).Takes
      (u.discriminator.type.minSizeWith least) := by
  rw [readUnionBody_bare]
  refine takes_first (takes_readValue htype _ _) fun disc => ?_
  cases discriminatorOf? disc with
  | none => exact takes_throw _ _
  | some d =>
    refine takes_first ?_ fun _ => takes_pure _
    unfold readArm
    cases u.select d with
    | none => exact takes_first (takes_report _) fun _ => takes_pure _
    | some arm =>
      refine takes_last takes_atEnd fun ended => ?_
      simp only [Bool.false_and, Bool.false_eq_true, if_false]
      have hvalue : (readValue schema src readType arm.member.name arm.member.type).Takes _ :=
        takes_readValue htype _ _
      exact takes_first (hvalue.mono (Nat.zero_le _)) fun _ => takes_pure _

end

/-- Reading a value of a declared type takes what the type needs, however deep this is looked
    for. -/
theorem takes_readType (schema : Schema) (src : Source) (levels deep : Nat) (field : String)
    (i : Fin schema.size) :
    (readType schema src levels field i).Takes (schema.minSizeWithin src.encoding.repr deep i) := by
  induction levels generalizing deep field i with
  | zero => exact takes_throw _ _
  | succ levels ih =>
    have hdeeper : ∀ deep, (readType schema src (levels + 1) field i).Takes
        (schema.minSizeWithin src.encoding.repr (deep + 1) i) := by
      intro deep
      simp only [readType]
      cases hbody : (schema.get i).body with
      | struct s =>
        simp only [Schema.minSizeWithin_struct hbody, readStruct_eq]
        split
        next hframed => exact takes_framed _ _ hframed
        next hbare =>
          rw [inFrame_bare src hbare]
          exact takes_first (takes_readMembers (ih deep) _ _) fun _ => takes_pure _
      | union u =>
        simp only [Schema.minSizeWithin_union hbody, readUnion_eq]
        split
        next hframed => exact takes_framed _ _ hframed
        next hbare =>
          rw [inFrame_bare src hbare]
          exact takes_readUnionBody (ih deep) _ u
      | enumeration e =>
        rw [Schema.minSizeWithin_enumeration hbody]
        refine takes_first (src.takes_scalar field .int32) fun s => ?_
        split
        · exact takes_pure _
        · exact takes_throw _ _
    cases deep with
    | zero => exact (hdeeper 0).mono (Nat.zero_le _)
    | succ deep => exact hdeeper deep

/-! ## The depth of the search -/

theorem MemberType.minSizeWith_congr {n : Nat} {f g : Fin n → Nat} {t : MemberType n}
    (h : ∀ i ∈ t.embedded, f i = g i) : t.minSizeWith f = t.minSizeWith g := by
  induction t with
  | array element length ih => simp only [minSizeWith, ih h]
  | type i => exact h i List.mem_cons_self
  | _ => rfl

namespace Schema

variable {schema : Schema}

/-- Behind the end of all chains of types nothing more is found. -/
theorem minSizeWithin_of_chains (repr : Representation) {levels deep : Nat} (hle : levels ≤ deep)
    {i : Fin schema.size} (h : schema.ChainsWithin levels i) :
    schema.minSizeWithin repr deep i = schema.minSizeWithin repr levels i := by
  induction levels generalizing deep i with
  | zero => exact h.elim
  | succ levels ih =>
    obtain ⟨deep, rfl⟩ : ∃ more, deep = more + 1 := Nat.exists_eq_succ_of_ne_zero (by omega)
    have hsame : ∀ j ∈ (schema.get i).body.embedded,
        schema.minSizeWithin repr deep j = schema.minSizeWithin repr levels j :=
      fun j hj => ih (Nat.le_of_succ_le_succ hle) (h j hj)
    simp only [minSizeWithin]
    cases hbody : (schema.get i).body with
    | struct s =>
      have hmembers : ∀ m ∈ s.members.filter fun m => !m.optional,
          m.type.minSizeWith (schema.minSizeWithin repr deep) =
            m.type.minSizeWith (schema.minSizeWithin repr levels) := by
        intro m hm
        apply MemberType.minSizeWith_congr
        intro j hj
        apply hsame
        rw [hbody]
        exact List.mem_flatMap.2 ⟨m, hm, hj⟩
      simp only [List.map_congr_left hmembers]
    | union u =>
      have hdisc : u.discriminator.type.minSizeWith (schema.minSizeWithin repr deep) =
          u.discriminator.type.minSizeWith (schema.minSizeWithin repr levels) := by
        apply MemberType.minSizeWith_congr
        intro j hj
        apply hsame
        rw [hbody]
        exact List.mem_append_left _ hj
      simp only [hdisc]
    | enumeration e => rfl

/-- The fewest bytes of a type bound what is counted for each of its values, from any place and
    under any limit, and what is taken by each read of one, from any place in any bytes. In a
    compiled schema they are the same however deep they are looked for, if only as deep as there are
    types. So when as many elements as a count says can be read where a reader stands, one by one or
    as a block, the check of the count lets them through, unless they may be empty. -/
theorem minSize_lower_bound (schema : Schema) :
    (∀ doc : Document, doc.compile = .ok schema → ∀ repr i deep, schema.size ≤ deep →
      schema.minSizeWithin repr deep i = schema.minSizeWithin repr schema.size i) ∧
    (∀ (rules : SizeRules) levels field t v tally after,
      (addValue schema rules (addType schema rules levels) field t v).run tally = .ok ((), after) →
        tally.total + schema.minSize rules.repr t ≤ after.total) ∧
    (∀ (src : Source) levels field t c v after,
      (readValue schema src (readType schema src levels) field t).run c = .ok v after →
        c.position + schema.minSize src.encoding.repr t ≤ after.position) ∧
    ∀ (src : Source) levels field t c count, 0 < schema.minSize src.encoding.repr t →
      let each := readValue schema src (readType schema src levels) field t
      (∃ items after, (Source.many each count []).run c = .ok items after) ∨
        (∃ v after, (src.elements each field t.blittable? count).run c = .ok v after) →
      (checkCount schema src field t count).run c = .ok () c := by
  refine ⟨?deep, ?counted, ?read, ?checked⟩
  case deep =>
    intro doc hcompile repr i deep hle
    exact minSizeWithin_of_chains repr hle (chainsWithin_of_compile hcompile i)
  case counted =>
    intro rules levels field t v tally after hrun
    exact adds_value (adds_type schema rules levels schema.size) field t v tally () after hrun
  case read =>
    intro src levels field t c v after hrun
    exact (takes_readValue (takes_readType schema src levels schema.size) field t c v after
      hrun).least_le
  case checked =>
    intro src levels field t c count hpos each hread
    have heach : each.Takes (schema.minSize src.encoding.repr t) :=
      takes_readValue (takes_readType schema src levels schema.size) field t
    refine checkCount_of_room field hpos ?_
    rcases hread with ⟨items, after, hrun⟩ | ⟨v, after, hrun⟩
    · exact (Source.takes_many heach count [] c items after hrun).le_remaining
    · have hsize : ∀ p, t.blittable? = some p → p.size = schema.minSize src.encoding.repr t :=
        fun _ => MemberType.size_of_blittable?
      exact (src.takes_elements field heach hsize count c v after hrun).le_remaining

end Schema

end Cdr
