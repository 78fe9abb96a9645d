import Cdr.Proofs.Correspondence
import Cdr.Proofs.Lockstep

/-! # Boundaries

A value stands on a boundary that its type tells, behind padding that a reader skips without a look.
It is read as well from any other place with the same boundary in front of it.
-/

namespace Cdr

/-- The boundary that a value is moved up to, given those of declared types. A text of fixed length
    is left where it stands, and so is an array without elements. -/
def MemberType.boundaryWith {n : Nat} (e : Encoding) (ofType : Fin n → Nat) : MemberType n → Nat
  | primitive p => e.alignmentOf p
  | string _ => 4
  | fixedString _ => 1
  | sequence _ _ => 4
  | array element length => if length.toNat = 0 then 1 else element.boundaryWith e ofType
  | type i => ofType i

/-- The boundary that a value is moved up to that may be so many types deep. A bare struct is moved
    with its first member, unless this is optional: a reader that does not find it goes back to
    where it stood. -/
def Schema.boundaryWithin (schema : Schema) (e : Encoding) : Nat → Fin schema.size → Nat
  | 0, _ => 1
  | levels + 1, i =>
    let t := schema.get i
    let ofMember (m : Member schema.size) := m.type.boundaryWith e (schema.boundaryWithin e levels)
    if e.repr.isDelimited t.extensibility then 4
    else
      match t.body with
      | .struct s => s.wireMembers.head?.elim 1 fun m => if m.optional then 1 else ofMember m
      | .union u => ofMember u.discriminator
      | .enumeration _ => 4

theorem MemberType.Corresponds.boundaryWith_eq {n k : Nat} {e : Encoding}
    {Meets : Fin n → Fin k → Prop} {f : Fin n → Nat} {g : Fin k → Nat}
    (hfg : ∀ i j, Meets i j → g j = f i) {t : MemberType n} {t' : MemberType k}
    (h : t.Corresponds Meets t') : t'.boundaryWith e g = t.boundaryWith e f := by
  induction h with
  | array length _ ih => simp only [boundaryWith, ih]
  | type hmeets => exact hfg _ _ hmeets
  | _ => rfl

/-- Types that go together stand on the same boundaries. -/
theorem Crossing.boundaryWithin_eq {e : Encoding} {writer reader : Schema}
    (x : Crossing e.repr writer reader) (levels : Nat) (i : Fin writer.size) (j : Fin reader.size)
    (h : x.Meets i j) : reader.boundaryWithin e levels j = writer.boundaryWithin e levels i := by
  induction levels generalizing i j with
  | zero => rfl
  | succ levels ih =>
    simp only [Schema.boundaryWithin, x.delimited h]
    cases hframed : e.repr.isDelimited (writer.get i).extensibility with
    | true => rfl
    | false =>
      cases hbody : (writer.get i).body with
      | struct s =>
        obtain ⟨s', own, beyond, common, missing, hbody', hoverlap, -⟩ := x.struct h hbody
        obtain ⟨rfl, rfl⟩ := hoverlap.bare hframed
        have hcommon := hoverlap.common
        simp only [hbody', Bool.false_eq_true, if_false]
        rw [hoverlap.written, hoverlap.known, List.append_nil, List.append_nil]
        cases hcommon with
        | nil => rfl
        | cons hm _ =>
          simp only [List.head?_cons, Option.elim_some, hm.optional, hm.type.boundaryWith_eq ih]
      | union u =>
        obtain ⟨u', hbody', hu, -⟩ := x.union h hbody
        simp only [hbody', hu.discriminator.type.boundaryWith_eq ih]
      | enumeration e =>
        obtain ⟨⟨e', hbody'⟩, -⟩ := x.enumeration h hbody
        simp only [hbody']

/-- Two cursors with the same boundary in front of them and the same end, neither under a limit. -/
structure Cursor.Level (src : Source) (boundary : Nat) (c d : Cursor) : Prop
    extends c.Sound src where
  boundary : d.position + padding (src.origin + d.position) boundary =
    c.position + padding (src.origin + c.position) boundary
  stop : d.stop = c.stop
  left : c.limit = .infinite
  right : d.limit = .infinite

namespace ReadM

open Source

variable {α β : Type} {src : Source} {boundary : Nat}

/-- A read that comes to its value from any place with the same boundary in front of it. -/
def Steady (src : Source) (boundary : Nat) (m : ReadM α) : Prop :=
  ∀ c d x after, c.Level src boundary d → m.run c = .ok x after →
    ∃ after', m.run d = .ok x after' ∧ after.Alike src.bytes.size after'

theorem InStep.run_eq_ok {reach : Nat} {m : ReadM α} (h : InStep reach Eq m m) {c d after : Cursor}
    {x : α} (halike : c.Alike reach d) (hrun : m.run c = .ok x after) :
    ∃ after', m.run d = .ok x after' ∧ after.Alike reach after' := by
  have hpaired := h c d halike
  rw [hrun] at hpaired
  cases hrun' : m.run d with
  | ok y after' =>
    rw [hrun'] at hpaired
    obtain ⟨rfl, hafter⟩ := hpaired
    exact ⟨after', rfl, hafter⟩
  | error fault after' =>
    rw [hrun'] at hpaired
    exact hpaired.elim

/-- Every place is a boundary of single bytes. -/
theorem InStep.steady {m : ReadM α} (h : InStep src.bytes.size Eq m m) : Steady src 1 m := by
  intro c d x after hlevel hrun
  have hposition := hlevel.boundary
  rw [padding_one, padding_one, Nat.add_zero, Nat.add_zero] at hposition
  exact h.run_eq_ok ⟨⟨hposition, hlevel.left, hlevel.right⟩, hlevel.stop, hlevel.position_le,
    hlevel.stop_le⟩ hrun

theorem steady_throw (fault : WireError) : Steady src boundary (throw fault : ReadM α) := by
  intro c d x after _ hrun
  cases hrun

theorem steady_bind {m : ReadM α} {k : α → ReadM β} (hm : Steady src boundary m)
    (hk : ∀ x, InStep src.bytes.size Eq (k x) (k x)) : Steady src boundary (m >>= k) := by
  intro c d y last hlevel hrun
  rw [EStateM.run_bind] at hrun ⊢
  cases hfirst : m.run c with
  | error fault after =>
    rw [hfirst] at hrun
    cases hrun
  | ok x after =>
    rw [hfirst] at hrun
    obtain ⟨after', hfirst', halike⟩ := hm c d x after hlevel hfirst
    rw [hfirst']
    exact (hk x).run_eq_ok halike hrun

theorem steady_skipPadding (field : String) (boundary : Nat) :
    Steady src boundary (src.skipPadding field boundary) := by
  intro c d x after hlevel hrun
  let gap := padding (src.origin + c.position) boundary
  let gap' := padding (src.origin + d.position) boundary
  have hboundary : d.position + gap' = c.position + gap := hlevel.boundary
  have hstop := hlevel.stop
  have hwithin := hlevel.position_le
  simp only [skipPadding, EStateM.run_bind, EStateM.run_get] at hrun ⊢
  rcases Nat.lt_or_ge c.remaining gap with hlt | hge
  · rw [run_take_of_lt src field hlt] at hrun
    cases hrun
  · have hend : c.position + gap ≤ c.stop := by
      unfold Cursor.remaining at hge
      omega
    have hge' : gap' ≤ d.remaining := by
      unfold Cursor.remaining
      omega
    obtain ⟨mid, htake, hmoved⟩ := run_take_infinite src field hge hlevel.left
    obtain ⟨mid', htake', hmoved'⟩ := run_take_infinite src field hge' hlevel.right
    rw [htake] at hrun
    cases hrun
    rw [htake']
    refine ⟨mid', rfl, ⟨?_, hmoved.limit.trans hlevel.left, hmoved'.limit.trans hlevel.right⟩, ?_,
      ?_, ?_⟩
    · rw [hmoved.position, hmoved'.position, hboundary]
    · rw [hmoved.stop, hmoved'.stop, hstop]
    · rw [hmoved.position, hmoved.stop]
      exact hend
    · rw [hmoved.stop]
      exact hlevel.stop_le

theorem steady_scalar (field : String) (p : Primitive) :
    Steady src (src.encoding.alignmentOf p) (src.scalar field p) := by
  refine steady_bind (steady_skipPadding field _) fun _ => ?_
  refine inStep_bind (inStep_take rfl field _) fun bytes _ hbytes => ?_
  subst hbytes
  exact inStep_ofExcept

theorem steady_word (field : String) : Steady src 4 (src.word field) := by
  unfold word
  rw [Encoding.alignmentOf_uint32]
  refine steady_bind (steady_skipPadding field 4) fun _ => ?_
  refine inStep_bind (inStep_take rfl field _) fun bytes _ hbytes => ?_
  subst hbytes
  exact inStep_pure rfl

end ReadM

open ReadM

section

variable (schema : Schema) (src : Source) (levels : Nat)

theorem steady_elements {field : String} {element : MemberType schema.size} {count : Nat}
    (hcount : count ≠ 0) {each : ReadM Value} (hstep : InStep src.bytes.size Eq each each)
    {ofType : Fin schema.size → Nat}
    (heach : Steady src (element.boundaryWith src.encoding ofType) each) :
    Steady src (element.boundaryWith src.encoding ofType)
      (src.elements each field element.blittable? count) := by
  unfold Source.elements
  cases hrun : element.blittable? with
  | none =>
    obtain ⟨count, rfl⟩ := Nat.exists_eq_succ_of_ne_zero hcount
    simp only [Source.many, bind_assoc]
    refine steady_bind heach fun v => ?_
    refine inStep_bind (Source.inStep_many hstep count [v]) fun items _ hitems => ?_
    subst hitems
    exact inStep_pure rfl
  | some p =>
    obtain ⟨rfl, -⟩ := MemberType.eq_of_blittable? hrun
    simp only [if_neg hcount]
    refine steady_bind (steady_skipPadding field _) fun _ => ?_
    refine inStep_bind (Source.inStep_take rfl field _) fun bytes _ hbytes => ?_
    subst hbytes
    refine inStep_bind inStep_ofExcept fun items _ hitems => ?_
    subst hitems
    exact inStep_pure rfl

variable {schema src levels}

theorem steady_readValue
    (htype : ∀ field i, Steady src (schema.boundaryWithin src.encoding levels i)
      (readType schema src levels field i)) (field : String) (t : MemberType schema.size) :
    Steady src (t.boundaryWith src.encoding (schema.boundaryWithin src.encoding levels))
      (readValue schema src (readType schema src levels) field t) := by
  have hstep : ∀ t, InStep src.bytes.size Eq
      (readValue schema src (readType schema src levels) field t)
      (readValue schema src (readType schema src levels) field t) := fun t =>
    inStep_readValue rfl (inStep_readType schema (Nat.le_refl _) rfl levels) field t
  induction t with
  | primitive p => exact steady_bind (steady_scalar field p) fun s => inStep_pure rfl
  | string bound =>
    refine steady_bind (steady_word field) fun count => ?_
    split
    · exact inStep_pure rfl
    · refine inStep_bind inStep_ofExcept fun _ _ _ => ?_
      refine inStep_bind (Source.inStep_take rfl field count) fun bytes _ hbytes => ?_
      subst hbytes
      exact Source.inStep_text _
  | fixedString capacity => exact (hstep _).steady
  | sequence element bound _ =>
    refine steady_bind (steady_word field) fun count => ?_
    refine inStep_bind inStep_ofExcept fun _ _ _ => ?_
    refine inStep_bind (inStep_checkCount schema field element count) fun _ _ _ => ?_
    exact Source.inStep_elements rfl (hstep element) field _ count
  | array element length ih =>
    by_cases hnone : length.toNat = 0
    · simp only [MemberType.boundaryWith, if_pos hnone]
      exact (hstep _).steady
    · simp only [MemberType.boundaryWith, if_neg hnone]
      exact steady_elements schema src hnone (hstep element) ih
  | type i => exact htype field i

end

/-- A frame starts with its length. -/
theorem steady_inFrame {α : Type} {src : Source} {extensibility : Extensibility}
    (hframed : src.encoding.repr.isDelimited extensibility = true) (typeName : String)
    {body : Bool → ReadM α}
    (hbody : ∀ framed, InStep src.bytes.size Eq (body framed) (body framed)) :
    Steady src 4 (inFrame src typeName extensibility body) := by
  unfold inFrame
  rw [openFrame_of_delimited hframed, bind_assoc]
  refine steady_bind (steady_word typeName) fun length => ?_
  exact inStep_bind (inStep_narrow typeName length) fun _ _ hframe =>
    inStep_inside hbody typeName hframe

section

variable {schema : Schema} {src : Source} {levels : Nat}

/-- A bare struct is read as its first member is. -/
theorem steady_readMembers
    (htype : ∀ field i, Steady src (schema.boundaryWithin src.encoding levels i)
      (readType schema src levels field i)) (ms : List (Member schema.size)) :
    Steady src
      (ms.head?.elim 1 fun m => if m.optional then 1
        else m.type.boundaryWith src.encoding (schema.boundaryWithin src.encoding levels))
      (readMembers schema src (readType schema src levels) false ms []) := by
  have hstep := inStep_readMembers (Nat.le_refl src.bytes.size) rfl
    (inStep_readType schema (Nat.le_refl src.bytes.size) rfl levels) false
  cases ms with
  | nil => exact (hstep [] []).steady
  | cons m rest =>
    rw [List.head?_cons, Option.elim_some]
    cases hoptional : m.optional with
    | true =>
      rw [if_pos rfl]
      exact (hstep (m :: rest) []).steady
    | false =>
      rw [if_neg Bool.false_ne_true, readMembers_bare _ _ _ hoptional]
      exact steady_bind (steady_readValue htype m.name m.type) fun v => hstep rest _

end

/-- A value of a declared type is read from any place with the boundary in front of it that it
    stands on. -/
theorem steady_readType (schema : Schema) (src : Source) (levels : Nat) (field : String)
    (i : Fin schema.size) :
    Steady src (schema.boundaryWithin src.encoding levels i)
      (readType schema src levels field i) := by
  induction levels generalizing field i with
  | zero => exact steady_throw _
  | succ levels ih =>
    have hstep := inStep_readType schema (Nat.le_refl src.bytes.size) rfl levels
    simp only [readType, Schema.boundaryWithin]
    cases hbody : (schema.get i).body with
    | struct s =>
      have hfields : ∀ framed, InStep src.bytes.size Eq _ _ := fun framed =>
        inStep_bind (inStep_readMembers (Nat.le_refl _) rfl hstep framed s.wireMembers [])
          fun fields _ hfields => inStep_pure (congrArg Value.struct hfields)
      simp only [readStruct_eq]
      cases hframed : src.encoding.repr.isDelimited (schema.get i).extensibility with
      | true => exact steady_inFrame hframed _ hfields
      | false =>
        rw [inFrame_bare src (Bool.eq_false_iff.1 hframed)]
        exact steady_bind (steady_readMembers ih s.wireMembers) fun fields => inStep_pure rfl
    | union u =>
      simp only [readUnion_eq]
      have hunion : ∀ framed, InStep src.bytes.size Eq
          (readUnionBody schema src (readType schema src levels) (schema.get i).full u framed)
          (readUnionBody schema src (readType schema src levels) (schema.get i).full u framed) :=
        inStep_readUnionBody rfl hstep (schema.get i).full u
      cases hframed : src.encoding.repr.isDelimited (schema.get i).extensibility with
      | true => exact steady_inFrame hframed _ hunion
      | false =>
        rw [inFrame_bare src (Bool.eq_false_iff.1 hframed), readUnionBody_bare]
        refine steady_bind (steady_readValue ih _ _) fun disc => ?_
        cases discriminatorOf? disc with
        | none => exact inStep_throw rfl
        | some d =>
          refine inStep_bind (inStep_readArm rfl hstep _ _ u d) fun arm _ harm => ?_
          subst harm
          exact inStep_pure rfl
    | enumeration enum =>
      have halign : src.encoding.alignmentOf .int32 = 4 := src.encoding.alignmentOf_uint32
      simp only [ite_self]
      rw [← halign]
      refine steady_bind (steady_scalar field .int32) fun s => ?_
      split
      · exact inStep_pure rfl
      · exact inStep_throw rfl

end Cdr
