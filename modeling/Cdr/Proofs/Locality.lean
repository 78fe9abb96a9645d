import Cdr.Proofs.Lockstep
import Cdr.Schema.Compile
import Mathlib

/-! # What lies outside does not show

The bytes that a value takes decide what it is read as. Longer bytes with the same front are read as
the same value, and where bytes of it are missing the reader says that they are truncated. A body
whose length stands in front of it takes what that announces, whatever it ends with. An optional
member is looked for in all the bytes left, so this holds of types whose optional members stand in
such bodies.
-/

namespace Cdr

open ReadM

namespace Schema

variable (schema : Schema) (repr : Representation)

/-- Whether a body stands behind its length, which an enumeration has none of. -/
def Framed (i : Fin schema.size) : Prop :=
  match (schema.get i).body with
  | .enumeration _ => False
  | _ => repr.isDelimited (schema.get i).extensibility = true

/-- The types that a type names, directly or through others, without a framed body around them. -/
inductive Exposed (i : Fin schema.size) : Fin schema.size → Prop where
  | here : Exposed i i
  | inside {j k : Fin schema.size} (exposed : Exposed i j) (bare : ¬schema.Framed repr j)
    (mentioned : k ∈ (schema.get j).body.mentioned) : Exposed i k

/-- Whether all structs with optional members that a type holds have framed bodies, or stand
    inside of one. -/
def Enclosed (i : Fin schema.size) : Prop :=
  ∀ j s, schema.Exposed repr i j → ¬schema.Framed repr j → (schema.get j).body = .struct s →
    ∀ m ∈ s.members, m.optional = false

/-- A framed type may have optional members, and so may all that it holds. -/
theorem enclosed_of_framed {i : Fin schema.size} (h : schema.Framed repr i) :
    schema.Enclosed repr i := by
  intro j s hexposed hbare
  have honly : j = i := by
    induction hexposed with
    | here => rfl
    | inside exposed bare mentioned ih =>
      obtain rfl := ih bare
      exact absurd h bare
  subst honly
  exact absurd h hbare

end Schema

/-! ## Reading other bytes with the same front -/

/-- Two cursors at one position outside of all frames, the bytes in front of which are known. -/
structure Cursor.Abreast (src : Source) (other : Array UInt8) (reach : Nat) (c d : Cursor) : Prop
    extends c.Beside d where
  known : c.position ≤ reach
  stop : c.stop = src.bytes.size
  stop' : d.stop = other.size
  free : d.owner = none

theorem Cursor.Abreast.sound {src : Source} {other : Array UInt8} {reach : Nat} {c d : Cursor}
    (h : c.Abreast src other reach d) (hsrc : reach ≤ src.bytes.size) : c.Sound src where
  position_le := by
    rw [h.stop]
    exact Nat.le_trans h.known hsrc
  stop_le := Nat.le_of_eq h.stop

namespace ReadM

/-- What the second reader does where the first comes to `a` at `after`: the same, when all of it is
    known; or it finds its bytes truncated, when they are fewer. Nothing is said where more than
    what is known was read and more is there. -/
inductive Outcome {α : Type} (src : Source) (other : Array UInt8) (reach : Nat) (a : α)
    (after : Cursor) : EStateM.Result WireError Cursor α → Prop where
  | same {after' : Cursor} (abreast : after.Abreast src other reach after') :
    Outcome src other reach a after (.ok a after')
  | truncated {field : String} {offset needed remaining : Nat} {d : Cursor}
    (shorter : other.size < src.bytes.size) :
    Outcome src other reach a after (.error (.truncated field offset needed remaining) d)
  | unknown {result : EStateM.Result WireError Cursor α} (past : reach < after.position)
    (more : other.size ≠ reach) : Outcome src other reach a after result

/-- A reader that does on other bytes what the first does on those of the source. -/
structure Follows {α : Type} (src : Source) (other : Array UInt8) (reach : Nat) (m m' : ReadM α) :
    Prop where
  keeps : ∀ c : Cursor, c.Sound src → Keeps src m c
  outcome : ∀ (c d : Cursor) (a : α) (after : Cursor), c.Abreast src other reach d →
    m.run c = .ok a after → Outcome src other reach a after (m'.run d)

variable {α β : Type} {src : Source} {other : Array UInt8} {reach : Nat}
  (hsrc : reach ≤ src.bytes.size)

theorem follows_pure (a : α) : Follows src other reach (pure a) (pure a) where
  keeps := fun _ hc => keeps_pure hc a
  outcome := by
    intro c d b after habreast hrun
    cases hrun
    exact .same habreast

theorem follows_throw {fault : WireError} (h : ∀ size, fault.Truthful size) (m' : ReadM α) :
    Follows src other reach (throw fault) m' where
  keeps := fun _ hc => keeps_throw hc (h _)
  outcome := by
    intro c d a after _ hrun
    cases hrun

theorem follows_ofExcept {result : Except WireError α}
    (h : ∀ fault, result = .error fault → ∀ size, fault.Truthful size) :
    Follows src other reach (MonadExcept.ofExcept result) (MonadExcept.ofExcept result) := by
  cases result with
  | ok a => exact follows_pure a
  | error fault => exact follows_throw (h fault rfl) _

theorem follows_report (event event' : Event) :
    Follows src other reach (report event) (report event') where
  keeps := fun _ hc => keeps_report hc event
  outcome := by
    intro c d a after h hrun
    cases hrun
    exact .same ⟨⟨h.position, h.left, h.right⟩, h.known, h.stop, h.stop', h.free⟩

include hsrc in
theorem follows_bind {m m' : ReadM α} {k k' : α → ReadM β} (hm : Follows src other reach m m')
    (hk : ∀ a, Follows src other reach (k a) (k' a)) :
    Follows src other reach (m >>= k) (m' >>= k') where
  keeps := fun c hc => keeps_bind (hm.keeps c hc) fun a after _ hafter => (hk a).keeps after hafter
  outcome := by
    intro c d b last habreast hrun
    rw [EStateM.run_bind] at hrun ⊢
    cases hfirst : m.run c with
    | error fault after =>
      rw [hfirst] at hrun
      cases hrun
    | ok a after =>
      rw [hfirst] at hrun
      have hrun : (k a).run after = .ok b last := hrun
      obtain ⟨hsound, -, -, -⟩ := (hm.keeps c (habreast.sound hsrc)).of_ok hfirst
      obtain ⟨-, hforward, -, -⟩ := ((hk a).keeps after hsound).of_ok hrun
      have hnext := hm.outcome c d a after habreast hfirst
      generalize m'.run d = result at hnext ⊢
      cases hnext with
      | same hafter => exact (hk a).outcome after _ b last hafter hrun
      | truncated hshorter => exact .truncated hshorter
      | unknown hpast hmore => exact .unknown (Nat.lt_of_lt_of_le hpast hforward) hmore

end ReadM

namespace Source

variable {src : Source} {other : Array UInt8} {reach : Nat} (hsrc : reach ≤ src.bytes.size)
  (hother : reach ≤ other.size)
  (hagree : other.toList.take reach = src.bytes.toList.take reach)

include hsrc hother hagree

theorem follows_take (field : String) (size : Nat) :
    Follows src other reach (src.take field size) ((src.over other).take field size) where
  keeps := fun _ hc => keeps_take hc field size
  outcome := by
    intro c d bytes after h hrun
    have hroom : size ≤ c.remaining := by
      rcases Nat.lt_or_ge c.remaining size with hlt | hge
      · rw [run_take_of_lt src field hlt] at hrun
        cases hrun
      · exact hge
    obtain ⟨mid, htake, hmoved⟩ := run_take_infinite src field hroom h.left
    rw [htake] at hrun
    cases hrun
    have hposition := h.position
    have hknown := h.known
    have hstop := h.stop
    have hstop' := h.stop'
    unfold Cursor.remaining at hroom
    rcases Nat.lt_or_ge reach (c.position + size) with hpast | hwithin
    · by_cases hmore : other.size = reach
      · have hshort : d.remaining < size := by
          unfold Cursor.remaining
          omega
        rw [run_take_of_lt (src.over other) field hshort]
        simp only [shortRead, h.free]
        exact .truncated (by omega)
      · refine .unknown ?_ hmore
        rw [hmoved.position]
        exact hpast
    · have hroom' : size ≤ d.remaining := by
        unfold Cursor.remaining
        omega
      obtain ⟨mid', htake', hmoved'⟩ := run_take_infinite (src.over other) field hroom' h.right
      rw [htake', h.position, extract_of_agree hagree hwithin]
      refine .same ⟨⟨?_, hmoved.limit.trans h.left, hmoved'.limit.trans h.right⟩, ?_,
        hmoved.stop.trans hstop, hmoved'.stop.trans hstop', hmoved'.owner.trans h.free⟩
      · rw [hmoved.position, hmoved'.position, hposition]
      · rw [hmoved.position]
        exact hwithin

theorem follows_skipPadding (field : String) (alignment : Nat) :
    Follows src other reach (src.skipPadding field alignment)
      ((src.over other).skipPadding field alignment) where
  keeps := fun _ hc => keeps_skipPadding hc field alignment
  outcome := by
    intro c d a after h hrun
    have htake := follows_bind hsrc (follows_take hsrc hother hagree field
      (padding (src.origin + c.position) alignment)) fun _ => follows_pure ()
    have hnext := htake.outcome c d a after h hrun
    rw [← h.position] at hnext
    exact hnext

theorem follows_scalar (field : String) (p : Primitive) :
    Follows src other reach (src.scalar field p) ((src.over other).scalar field p) := by
  refine follows_bind hsrc (follows_skipPadding hsrc hother hagree field _) fun _ => ?_
  refine follows_bind hsrc (follows_take hsrc hother hagree field _) fun bytes => ?_
  exact follows_ofExcept fun fault h size => truthful_readScalar h size

theorem follows_word (field : String) :
    Follows src other reach (src.word field) ((src.over other).word field) := by
  refine follows_bind hsrc (follows_skipPadding hsrc hother hagree field _) fun _ => ?_
  refine follows_bind hsrc (follows_take hsrc hother hagree field _) fun bytes => ?_
  exact follows_pure _

omit hother hagree in
theorem follows_many {each each' : ReadM Value} (heach : Follows src other reach each each')
    (count : Nat) (rev : List Value) :
    Follows src other reach (many each count rev) (many each' count rev) := by
  induction count generalizing rev with
  | zero => exact follows_pure _
  | succ count ih => exact follows_bind hsrc heach fun v => ih (v :: rev)

theorem follows_elements {each each' : ReadM Value} (heach : Follows src other reach each each')
    (field : String) (run : Option Primitive) (count : Nat) :
    Follows src other reach (src.elements each field run count)
      ((src.over other).elements each' field run count) := by
  unfold elements
  cases run with
  | none => exact follows_bind hsrc (follows_many hsrc heach count []) fun items => follows_pure _
  | some p =>
    simp only []
    split
    · exact follows_pure _
    · refine follows_bind hsrc (follows_skipPadding hsrc hother hagree field _) fun _ => ?_
      refine follows_bind hsrc (follows_take hsrc hother hagree field _) fun bytes => ?_
      refine follows_bind hsrc (follows_ofExcept fun fault h size => truthful_scalars h size) ?_
      exact fun items => follows_pure _

omit hsrc hother hagree in
theorem follows_text (bytes : List UInt8) :
    Follows src other reach (text bytes) (text bytes) := by
  unfold text
  split
  · exact follows_pure _
  · refine follows_throw (fun size => ?_) _
    trivial

end Source

theorem follows_checkBound {src : Source} {other : Array UInt8} {reach : Nat} (field : String)
    (count : Nat) (bound : Option UInt32) :
    Follows src other reach (MonadExcept.ofExcept (checkBound field count bound))
      (MonadExcept.ofExcept (checkBound field count bound)) := by
  refine follows_ofExcept fun fault h size => ?_
  cases bound with
  | none => cases h
  | some bound =>
    simp only [checkBound] at h
    split at h
    · cases h
      trivial
    · cases h

section

variable {schema : Schema} {src : Source} {other : Array UInt8} {reach : Nat}
  (hsrc : reach ≤ src.bytes.size) (hother : reach ≤ other.size)
  (hagree : other.toList.take reach = src.bytes.toList.take reach)

/-- A count that bytes can hold is refused by fewer of them only. -/
theorem follows_checkCount (field : String) (element : MemberType schema.size) (count : Nat) :
    Follows src other reach (checkCount schema src field element count)
      (checkCount schema (src.over other) field element count) where
  keeps := fun _ hc => keeps_checkCount schema hc field element count
  outcome := by
    intro c d a after h hrun
    simp only [checkCount, EStateM.run_bind, EStateM.run_get] at hrun ⊢
    split at hrun
    next => cases hrun
    next hroom =>
      cases hrun
      have hposition := h.position
      have hstop := h.stop
      have hstop' := h.stop'
      split
      next hshort =>
        refine .truncated ?_
        unfold Cursor.remaining at hroom hshort
        omega
      next => exact .same h

include hsrc hother hagree

/-- A framed body lies before the bytes that are known, or the announced length does not fit. -/
theorem follows_inFrame {α : Type} {typeName : String} {extensibility : Extensibility}
    {body body' : Bool → ReadM α} (hframed : src.encoding.repr.isDelimited extensibility = true)
    (hkeeps : ∀ c : Cursor, c.Sound src → Keeps src (inFrame src typeName extensibility body) c)
    (hbody : InStep reach Eq (body true) (body' true)) :
    Follows src other reach (inFrame src typeName extensibility body)
      (inFrame (src.over other) typeName extensibility body') where
  keeps := hkeeps
  outcome := by
    intro c d a final h hrun
    obtain ⟨length, mid, last, hword, hfits, hinner, hclose⟩ := run_inFrame_eq_ok hframed hrun
    obtain ⟨hend, -⟩ := run_closeFrame_eq_ok hclose
    have hnext := (Source.follows_word hsrc hother hagree typeName).outcome c d length mid h hword
    have hframed' : (src.over other).encoding.repr.isDelimited extensibility = true := hframed
    unfold inFrame
    rw [openFrame_of_delimited hframed', EStateM.run_bind, EStateM.run_bind]
    generalize ((src.over other).word typeName).run d = result at hnext ⊢
    cases hnext with
    | truncated hshorter => exact .truncated hshorter
    | unknown hpast hmore =>
      refine .unknown ?_ hmore
      rw [hend]
      exact Nat.lt_of_lt_of_le hpast (Nat.le_add_right _ _)
    | same habreast =>
      rename_i mid'
      have hposition := habreast.position
      have hknown := habreast.known
      have hstop := habreast.stop
      have hstop' := habreast.stop'
      unfold Cursor.remaining at hfits
      rcases Nat.lt_or_ge reach (mid.position + length) with hpast | hwithin
      · by_cases hmore : other.size = reach
        · have hshort : mid'.remaining < length := by
            unfold Cursor.remaining
            omega
          simp only [EStateM.run_bind, EStateM.run_get, if_pos hshort]
          exact .truncated (by omega)
        · refine .unknown ?_ hmore
          rw [hend]
          exact hpast
      · have hroom : ¬mid'.remaining < length := by
          unfold Cursor.remaining
          omega
        simp only [EStateM.run_bind, EStateM.run_get, if_neg hroom, EStateM.run_set,
          EStateM.run_pure, Option.isSome_some]
        have hpaired := hbody { mid with stop := mid.position + length, owner := some typeName }
          { mid' with stop := mid'.position + length, owner := some typeName }
          ⟨⟨hposition, habreast.left, habreast.right⟩, congrArg (· + length) hposition,
            Nat.le_add_right _ _, hwithin⟩
        rw [hinner] at hpaired
        generalize (body' true).run _ = result at hpaired ⊢
        cases result with
        | error fault last' => exact hpaired.elim
        | ok b last' =>
          obtain ⟨rfl, halike⟩ := hpaired
          have hdone : last.position ≤ mid.position + length := by
            apply Nat.le_of_not_lt
            intro hpast
            rw [run_closeFrame_of_lt typeName hpast] at hclose
            cases hclose
          have hdone' : last'.position ≤ mid'.position + length := by
            rw [halike.position, hposition]
            exact hdone
          let outer : Frame := ⟨mid.position + length, mid.stop, mid.owner⟩
          let outer' : Frame := ⟨mid'.position + length, mid'.stop, mid'.owner⟩
          obtain ⟨closed, hclosed, -, houter, -, hlimit⟩ :=
            run_closeFrame_of_le typeName (show last.position ≤ outer.stop from hdone) halike.left
          obtain ⟨closed', hclosed', hend', houter', howner', hlimit'⟩ :=
            run_closeFrame_of_le typeName (show last'.position ≤ outer'.stop from hdone')
              halike.right
          rw [hclose] at hclosed
          cases hclosed
          simp only [outer'] at hclosed'
          simp only [hclosed']
          refine .same ⟨⟨?_, hlimit, hlimit'⟩, ?_, houter.trans hstop, houter'.trans hstop',
            howner'.trans habreast.free⟩
          · rw [hend, hend']
            exact congrArg (· + length) hposition
          · rw [hend]
            exact hwithin

end

section

variable {schema : Schema} {src : Source} {other : Array UInt8} {reach levels : Nat}
  (hsrc : reach ≤ src.bytes.size) (hother : reach ≤ other.size)
  (hagree : other.toList.take reach = src.bytes.toList.take reach)
  {exposed : Fin schema.size → Prop}
  (htype : ∀ field i, exposed i → Follows src other reach (readType schema src levels field i)
    (readType schema (src.over other) levels field i))

include hsrc hother hagree htype

theorem follows_readValue (field : String) {t : MemberType schema.size}
    (ht : ∀ i ∈ t.mentioned, exposed i) :
    Follows src other reach (readValue schema src (readType schema src levels) field t)
      (readValue schema (src.over other) (readType schema (src.over other) levels) field t) := by
  induction t with
  | primitive p =>
    exact follows_bind hsrc (Source.follows_scalar hsrc hother hagree field p) fun s =>
      follows_pure _
  | string bound =>
    refine follows_bind hsrc (Source.follows_word hsrc hother hagree field) fun count => ?_
    split
    · exact follows_pure _
    · refine follows_bind hsrc (follows_checkBound field _ bound) fun _ => ?_
      refine follows_bind hsrc (Source.follows_take hsrc hother hagree field _) fun bytes => ?_
      exact Source.follows_text _
  | fixedString capacity =>
    refine follows_bind hsrc (Source.follows_take hsrc hother hagree field _) fun bytes => ?_
    exact Source.follows_text _
  | sequence element bound ih =>
    refine follows_bind hsrc (Source.follows_word hsrc hother hagree field) fun count => ?_
    refine follows_bind hsrc (follows_checkBound field _ bound) fun _ => ?_
    refine follows_bind hsrc (follows_checkCount field element count) fun _ => ?_
    exact Source.follows_elements hsrc hother hagree (ih ht) field _ count
  | array element length ih => exact Source.follows_elements hsrc hother hagree (ih ht) field _ _
  | type i => exact htype field i (ht i List.mem_cons_self)

/-- Without a frame around them, members that are always there are read one behind the other. -/
theorem follows_readMembers {ms : List (Member schema.size)} (fields : Entries Value)
    (halways : ∀ m ∈ ms, m.optional = false)
    (hms : ∀ m ∈ ms, ∀ i ∈ m.type.mentioned, exposed i) :
    Follows src other reach (readMembers schema src (readType schema src levels) false ms fields)
      (readMembers schema (src.over other) (readType schema (src.over other) levels) false ms
        fields) := by
  induction ms generalizing fields with
  | nil => exact follows_pure _
  | cons m rest ih =>
    have hm := halways m List.mem_cons_self
    rw [readMembers_bare schema src _ hm, readMembers_bare schema (src.over other) _ hm]
    refine follows_bind hsrc (follows_readValue hsrc hother hagree htype m.name
      (hms m List.mem_cons_self)) fun v => ?_
    exact ih _ (fun m' hm => halways m' (List.mem_cons_of_mem m hm))
      fun m' hm => hms m' (List.mem_cons_of_mem m hm)

theorem follows_readArm (typeName : String) {u : UnionType schema.size} (d : Int64)
    (hu : ∀ arm ∈ u.arms, ∀ i ∈ arm.member.type.mentioned, exposed i) :
    Follows src other reach
      (readArm schema src (readType schema src levels) typeName false u d)
      (readArm schema (src.over other) (readType schema (src.over other) levels) typeName false u
        d) := by
  cases hselect : u.select d with
  | none =>
    simp only [readArm, hselect]
    exact follows_bind hsrc (follows_report _ _) fun _ => follows_pure _
  | some arm =>
    rw [readArm_bare schema src _ typeName hselect,
      readArm_bare schema (src.over other) _ typeName hselect]
    have harm : arm ∈ u.arms := by
      unfold UnionType.select at hselect
      rcases Option.or_eq_some_iff.1 hselect with h | ⟨-, h⟩
      · exact List.mem_of_find?_eq_some h
      · exact List.mem_of_find?_eq_some h
    exact follows_bind hsrc
      (follows_readValue hsrc hother hagree htype arm.member.name (hu arm harm)) fun v =>
        follows_pure _

theorem follows_readUnionBody (typeName : String) {u : UnionType schema.size}
    (hdisc : ∀ i ∈ u.discriminator.type.mentioned, exposed i)
    (hu : ∀ arm ∈ u.arms, ∀ i ∈ arm.member.type.mentioned, exposed i) :
    Follows src other reach
      (readUnionBody schema src (readType schema src levels) typeName u false)
      (readUnionBody schema (src.over other) (readType schema (src.over other) levels) typeName u
        false) := by
  rw [readUnionBody_bare, readUnionBody_bare]
  refine follows_bind hsrc (follows_readValue hsrc hother hagree htype _ hdisc) fun disc => ?_
  cases discriminatorOf? disc with
  | none =>
    refine follows_throw (fun size => ?_) _
    trivial
  | some d =>
    exact follows_bind hsrc (follows_readArm hsrc hother hagree htype typeName d hu) fun arm =>
      follows_pure _

end

/-- A value of a declared type is read from other bytes with the same front as from those of the
    source. -/
theorem follows_readType (schema : Schema) {src : Source} {other : Array UInt8} {reach : Nat}
    (hsrc : reach ≤ src.bytes.size) (hother : reach ≤ other.size)
    (hagree : other.toList.take reach = src.bytes.toList.take reach) {t : Fin schema.size}
    (henclosed : schema.Enclosed src.encoding.repr t) (levels : Nat) (field : String)
    (i : Fin schema.size) (hi : schema.Exposed src.encoding.repr t i) :
    Follows src other reach (readType schema src levels field i)
      (readType schema (src.over other) levels field i) := by
  induction levels generalizing field i with
  | zero =>
    refine follows_throw (fun size => ?_) _
    trivial
  | succ levels ih =>
    have hkeeps := keeps_readType schema src (levels + 1) field i
    have htypes := inStep_readType schema hsrc hagree levels
    simp only [readType] at hkeeps ⊢
    cases hbody : (schema.get i).body with
    | enumeration e =>
      simp only []
      refine follows_bind hsrc (Source.follows_scalar hsrc hother hagree field .int32) fun s => ?_
      split
      · exact follows_pure _
      · refine follows_throw (fun size => ?_) _
        trivial
    | struct s =>
      simp only [hbody] at hkeeps ⊢
      rw [readStruct_eq] at hkeeps ⊢
      rw [readStruct_eq]
      by_cases hframed : src.encoding.repr.isDelimited (schema.get i).extensibility = true
      · refine follows_inFrame hsrc hother hagree hframed hkeeps ?_
        refine inStep_bind (inStep_readMembers hsrc hagree htypes true s.wireMembers []) ?_
        intro fields _ hfields
        subst hfields
        exact inStep_pure rfl
      · have hbare : ¬schema.Framed src.encoding.repr i := by
          rw [Schema.Framed, hbody]
          exact hframed
        rw [inFrame_bare src hframed, inFrame_bare (src.over other) hframed]
        refine follows_bind hsrc (follows_readMembers hsrc hother hagree
          (fun field j hj => ih field j hj) [] ?_ ?_) fun fields => follows_pure _
        · intro m hm
          exact henclosed i s hi hbare hbody m (s.perm_wireMembers.mem_iff.1 hm)
        · intro m hm j hj
          refine hi.inside hbare ?_
          rw [hbody]
          exact List.mem_flatMap.2 ⟨m, s.perm_wireMembers.mem_iff.1 hm, hj⟩
    | union u =>
      simp only [hbody] at hkeeps ⊢
      rw [readUnion_eq] at hkeeps ⊢
      rw [readUnion_eq]
      by_cases hframed : src.encoding.repr.isDelimited (schema.get i).extensibility = true
      · exact follows_inFrame hsrc hother hagree hframed hkeeps
          (inStep_readUnionBody hagree htypes _ u true)
      · have hbare : ¬schema.Framed src.encoding.repr i := by
          rw [Schema.Framed, hbody]
          exact hframed
        rw [inFrame_bare src hframed, inFrame_bare (src.over other) hframed]
        refine follows_readUnionBody hsrc hother hagree (fun field j hj => ih field j hj) _ ?_ ?_
        · intro j hj
          refine hi.inside hbare ?_
          rw [hbody]
          exact List.mem_append_left _ hj
        · intro arm harm j hj
          refine hi.inside hbare ?_
          rw [hbody]
          exact List.mem_append_right _ (List.mem_flatMap.2 ⟨arm, harm, hj⟩)

namespace Schema

variable (schema : Schema) (e : Encoding) (i : Fin schema.size)

/-- What a framed type takes is what stands in front of its body, and as many bytes as the length
    there announces. -/
theorem position_of_framed {src : Source} {levels : Nat} {field : String} {c after : Cursor}
    {v : Value} (hframed : schema.Framed src.encoding.repr i)
    (hrun : (readType schema src levels field i).run c = .ok v after) :
    let start := c.position + padding (src.origin + c.position) 4
    after.position =
      start + 4 + src.encoding.order.decode (src.bytes.extract start (start + 4)).toList := by
  have hend : ∀ {name : String} {body : Bool → ReadM Value},
      src.encoding.repr.isDelimited (schema.get i).extensibility = true →
      (inFrame src name (schema.get i).extensibility body).run c = .ok v after →
      after.position = c.position + padding (src.origin + c.position) 4 + 4 +
        src.encoding.order.decode (src.bytes.extract
          (c.position + padding (src.origin + c.position) 4)
          (c.position + padding (src.origin + c.position) 4 + 4)).toList := by
    intro name body hdelimited hbody
    obtain ⟨length, mid, last, hword, -, -, hclose⟩ := run_inFrame_eq_ok hdelimited hbody
    obtain ⟨rfl, hmid⟩ := Source.word_eq_ok hword
    rw [(run_closeFrame_eq_ok hclose).1, hmid]
  cases levels with
  | zero => cases hrun
  | succ levels =>
    simp only [readType] at hrun
    unfold Framed at hframed
    cases hbody : (schema.get i).body with
    | enumeration e =>
      rw [hbody] at hframed
      exact hframed.elim
    | struct s =>
      rw [hbody] at hframed
      rw [hbody] at hrun
      simp only [readStruct_eq] at hrun
      exact hend hframed hrun
    | union u =>
      rw [hbody] at hframed
      rw [hbody] at hrun
      simp only [readUnion_eq] at hrun
      exact hend hframed hrun

/-- The bytes that a value takes are all that decides what it is read as. Longer bytes that begin
    with them are read as the same value; with fewer of them the reader says that they are
    truncated; and where a type is framed they are what its length announces. -/
theorem decode_local (bytes : Array UInt8) (offset : Nat) (v : Value) (count : Nat)
    (henclosed : schema.Enclosed e.repr i)
    (hread : (schema.decode ⟨bytes, e, offset⟩ i .infinite).result = .ok (v, count)) :
    (∀ other : Array UInt8, bytes.size ≤ other.size →
      other.toList.take count = bytes.toList.take count →
      (schema.decode ⟨other, e, offset⟩ i .infinite).result = .ok (v, count)) ∧
    (∀ k, k < count → ∃ field position needed remaining,
      (schema.decode ⟨bytes.extract 0 k, e, offset⟩ i .infinite).result =
        .error (.truncated field position needed remaining)) ∧
    (schema.Framed e.repr i →
      let start := padding offset 4
      count = start + 4 + e.order.decode (bytes.extract start (start + 4)).toList) := by
  let src : Source := ⟨bytes, e, offset⟩
  simp only [decode, read, outcome] at hread
  cases hrun : (readType schema src maxDepth "" i).run (src.start .infinite) with
  | error fault after =>
    rw [hrun] at hread
    cases hread
  | ok w after =>
    rw [hrun] at hread
    cases hread
    have hsound : (src.start .infinite).Sound src := ⟨Nat.zero_le _, Nat.le_refl _⟩
    obtain ⟨hafter, -, hstop, -⟩ := (keeps_readType schema src maxDepth "" i _ hsound).of_ok hrun
    have hfits : after.position ≤ bytes.size := Nat.le_trans hafter.position_le hafter.stop_le
    have hclosed : schema.Enclosed src.encoding.repr i := henclosed
    have houtcome : ∀ {other : Array UInt8} {reach : Nat}, reach ≤ bytes.size →
        reach ≤ other.size → other.toList.take reach = bytes.toList.take reach →
        Outcome src other reach v after ((readType schema (src.over other) maxDepth "" i).run
          ((src.over other).start .infinite)) := by
      intro other reach hsrc hother hagree
      have hfollows : Follows src other reach (readType schema src maxDepth "" i) _ :=
        follows_readType schema hsrc hother hagree hclosed maxDepth "" i .here
      exact hfollows.outcome (src.start .infinite) ((src.over other).start .infinite) v after
        ⟨⟨rfl, rfl, rfl⟩, Nat.zero_le _, rfl, rfl, rfl⟩ hrun
    refine ⟨?_, ?_, ?_⟩
    · intro other hlong hagree
      have hnext := houtcome hfits (Nat.le_trans hfits hlong) hagree
      simp only [decode, read, outcome]
      generalize (readType schema ⟨other, e, offset⟩ maxDepth "" i).run _ = result at hnext ⊢
      cases hnext with
      | same habreast => simp only [Except.map, habreast.position]
      | truncated hshorter => exact absurd hshorter (Nat.not_lt.2 hlong)
      | unknown hpast hmore => exact absurd hpast (Nat.lt_irrefl _)
    · intro k hk
      have hk : k < after.position := hk
      have hsize : (bytes.extract 0 k).size = k := by
        rw [Array.size_extract]
        omega
      have hfront : (bytes.extract 0 k).toList.take k = bytes.toList.take k := by
        rw [Array.toList_extract, List.extract_eq_take_drop, List.drop_zero, Nat.sub_zero,
          List.take_take, Nat.min_self]
      have hnext := houtcome (Nat.le_trans (Nat.le_of_lt hk) hfits) (Nat.le_of_eq hsize.symm) hfront
      simp only [decode, read, outcome]
      generalize (readType schema ⟨bytes.extract 0 k, e, offset⟩ maxDepth "" i).run _ = result
        at hnext ⊢
      cases hnext with
      | same habreast => exact absurd hk (Nat.not_lt.2 habreast.known)
      | truncated hshorter => exact ⟨_, _, _, _, rfl⟩
      | unknown hpast hmore => exact absurd hsize hmore
    · intro hframed
      have hend := schema.position_of_framed i hframed hrun
      simp only [Source.start, Nat.zero_add, Nat.add_zero] at hend
      exact hend

/-- A measurement that a note may go with. -/
def probeDoc : Document where
  types := [
    { name := "Probe"
      scope := ""
      extensibility := .appendable
      fields := [FieldDecl.new "x" "int32", (FieldDecl.new "note" "string").optional] }]

def probes : Schema where
  size := 1
  types := #v[
    { name := "Probe"
      scope := ""
      extensibility := .appendable
      layout := .struct [("x", ⟨4, 4⟩), ("note", .pointer)]
      body := .struct ⟨[⟨"x", 0, .primitive .int32, false, false⟩,
        ⟨"note", 1, .string none, true, false⟩]⟩ }]

/-- The body of a probe of 17 bytes, the last two of which are unknown, and a byte behind it. -/
def probeBytes (after : UInt8) : Array UInt8 :=
  #[17, 0, 0, 0, 7, 0, 0, 0, 0x39, 0, 0, 0, 3, 0, 0, 0, 0x68, 0x69, 0, 0xff, 0xff, after]

def probe : Fin probes.size := ⟨0, by decide⟩

def probeValue : Value :=
  .struct [("note", .string "hi"), ("x", .scalar (.int32 7))]

/-- A probe that is read with one byte behind it. All of its 21 bytes are needed, and whatever else
    stands behind them instead, it is read as the same. -/
theorem decode_local_probe :
    probeDoc.compile = .ok probes ∧ probes.Enclosed .xcdr2 probe ∧
      (probes.decode ⟨probeBytes 1, ⟨.xcdr2, .little⟩, 0⟩ probe .infinite).result =
        .ok (probeValue, 21) ∧
      (∀ after : UInt8, (probes.decode ⟨probeBytes after, ⟨.xcdr2, .little⟩, 0⟩ probe
        .infinite).result = .ok (probeValue, 21)) ∧
      (∀ k, k < 21 → ∃ field position needed remaining,
        (probes.decode ⟨(probeBytes 1).extract 0 k, ⟨.xcdr2, .little⟩, 0⟩ probe
          .infinite).result = .error (.truncated field position needed remaining)) := by
  have hframed : probes.Framed .xcdr2 probe := rfl
  have henclosed := probes.enclosed_of_framed .xcdr2 hframed
  have hread : (probes.decode ⟨probeBytes 1, ⟨.xcdr2, .little⟩, 0⟩ probe .infinite).result =
      .ok (probeValue, 21) := by cbv
  obtain ⟨hsame, htruncated, -⟩ := decode_local probes ⟨.xcdr2, .little⟩ probe
    (probeBytes 1) 0 probeValue 21 henclosed hread
  refine ⟨by decide +kernel, henclosed, hread, ?_, htruncated⟩
  intro after
  exact hsame (probeBytes after) (Nat.le_refl _) rfl

end Schema

end Cdr
