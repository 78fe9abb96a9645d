import Cdr.Proofs.Runs

/-! # Offsets a whole period apart

A boundary divides the widest one of its representation, so a position needs the padding of any
other that lies a multiple of the widest boundary behind it. Nothing but padding depends on where a
body begins: a pass that begins whole periods later counts and writes the same, with all its
positions as much later, and a reader is the same reader.
-/

namespace Cdr

theorem padding_add_of_dvd {exponent shift : Nat} (h : 1 <<< exponent ∣ shift) (position : Nat) :
    padding (position + shift) (1 <<< exponent) = padding position (1 <<< exponent) := by
  have hmod : (position + shift) % 1 <<< exponent = position % 1 <<< exponent := by
    rw [Nat.add_mod, Nat.mod_eq_zero_of_dvd h, Nat.add_zero, Nat.mod_mod]
  rw [padding_two_pow, padding_two_pow, hmod]

namespace Representation

variable {repr : Representation} {shift : Nat}

/-- The boundary of a scalar divides the widest one. -/
theorem padding_alignmentOf (h : repr.maxAlignment ∣ shift) (p : Primitive) (position : Nat) :
    padding (position + shift) (repr.alignmentOf p.size) =
      padding position (repr.alignmentOf p.size) := by
  obtain ⟨exponent, hshift⟩ := Encoding.alignmentOf_eq_shift ⟨repr, .little⟩ p
  have halignment : repr.alignmentOf p.size = 1 <<< exponent := hshift
  have hdvd : repr.alignmentOf p.size ∣ repr.maxAlignment := by
    cases repr <;> cases p <;> decide
  rw [halignment] at hdvd ⊢
  exact padding_add_of_dvd (hdvd.trans h) position

theorem padding_four (h : repr.maxAlignment ∣ shift) (position : Nat) :
    padding (position + shift) 4 = padding position 4 := by
  have hword := padding_alignmentOf h .uint32 position
  have hfour : repr.alignmentOf Primitive.uint32.size = 4 :=
    Encoding.alignmentOf_uint32 ⟨repr, .little⟩
  rwa [hfour] at hword

end Representation

/-! ## Sizes -/

/-- What was counted, seen from a body that begins `shift` bytes later. -/
def Tally.later (shift : Nat) (tally : Tally) : Tally :=
  { tally with position := tally.position + shift }

namespace SizeM

variable {α β : Type} {shift : Nat}

/-- Counting that begins `shift` bytes later comes to the same, `shift` bytes later. -/
def Shifts (shift : Nat) (m : SizeM α) : Prop :=
  ∀ tally, m.run (tally.later shift) = (m.run tally).map (Prod.map id (Tally.later shift))

theorem shifts_pure (a : α) : Shifts shift (pure a : SizeM α) :=
  fun _ => rfl

theorem shifts_throw (fault : WireError) : Shifts shift (throw fault : SizeM α) :=
  fun _ => rfl

theorem shifts_ofExcept (result : Except WireError α) :
    Shifts shift (MonadExcept.ofExcept result : SizeM α) := by
  cases result with
  | ok a => exact shifts_pure a
  | error fault => exact shifts_throw fault

theorem shifts_bind {m : SizeM α} {k : α → SizeM β} (hm : Shifts shift m)
    (hk : ∀ a, Shifts shift (k a)) : Shifts shift (m >>= k) := by
  intro tally
  rw [StateT.run_bind, StateT.run_bind, hm tally]
  cases m.run tally with
  | error fault => rfl
  | ok first => exact hk first.1 first.2

theorem shifts_forM {f : α → SizeM Unit} {xs : List α} (h : ∀ x ∈ xs, Shifts shift (f x)) :
    Shifts shift (xs.forM f) := by
  induction xs with
  | nil => exact shifts_pure ()
  | cons x xs ih =>
    apply shifts_bind
    · exact h x List.mem_cons_self
    · exact fun _ => ih fun y hy => h y (List.mem_cons_of_mem x hy)

end SizeM

section

open SizeM SizeRules

variable {rules : SizeRules} {shift : Nat}

theorem shifts_add (bytes : Nat) : SizeM.Shifts shift (rules.add bytes) := by
  intro tally
  by_cases hlimit : rules.limit.any fun limit => limit < tally.total + bytes
  · have hrun : (rules.add bytes).run tally = .error .sizeLimit := if_pos hlimit
    rw [hrun]
    exact if_pos hlimit
  · have hrun : (rules.add bytes).run tally =
        .ok ((), ⟨tally.position + bytes, tally.total + bytes⟩) := if_neg hlimit
    have hlater : (rules.add bytes).run (tally.later shift) =
        .ok ((), ⟨tally.position + shift + bytes, tally.total + bytes⟩) := if_neg hlimit
    rw [hrun, hlater, Nat.add_right_comm]
    rfl

theorem shifts_pad {alignment : Nat}
    (h : ∀ position, padding (position + shift) alignment = padding position alignment) :
    SizeM.Shifts shift (rules.pad alignment) := by
  intro tally
  have hrun : ∀ tally : Tally, (rules.pad alignment).run tally =
      (rules.add (padding tally.position alignment)).run tally := fun _ => rfl
  rw [hrun, hrun, ← shifts_add]
  exact congrArg (fun bytes => (rules.add bytes).run (tally.later shift)) (h tally.position)

variable (hshift : rules.repr.maxAlignment ∣ shift)

include hshift

theorem shifts_addScalar (p : Primitive) : SizeM.Shifts shift (rules.addScalar p) := by
  apply shifts_bind
  · exact shifts_pad (Representation.padding_alignmentOf hshift p)
  · exact fun _ => shifts_add p.size

theorem shifts_addDelimiter (extensibility : Extensibility) :
    SizeM.Shifts shift (rules.addDelimiter extensibility) := by
  unfold addDelimiter
  split
  · exact shifts_addScalar hshift .uint32
  · exact shifts_pure ()

theorem shifts_addElements {each : Value → SizeM Unit} (heach : ∀ v, SizeM.Shifts shift (each v))
    (field : String) (run : Option Primitive) (items : List Value) :
    SizeM.Shifts shift (addElements rules each field run items) := by
  unfold addElements
  cases run with
  | none => exact shifts_forM fun v _ => heach v
  | some p =>
    simp only []
    split
    · exact shifts_pure ()
    · split
      · exact shifts_throw _
      · apply shifts_bind
        · exact shifts_pad (Representation.padding_alignmentOf hshift p)
        · exact fun _ => shifts_add _

variable {schema : Schema} {sizeType : String → Fin schema.size → Value → SizeM Unit}
  (htype : ∀ field i v, SizeM.Shifts shift (sizeType field i v))

include htype

theorem shifts_addValue (field : String) (type : MemberType schema.size) (v : Value) :
    SizeM.Shifts shift (addValue schema rules sizeType field type v) := by
  induction type generalizing v with
  | primitive p =>
    unfold addValue
    split
    · exact shifts_addScalar hshift p
    · exact shifts_throw _
  | string bound =>
    cases v with
    | string text =>
      refine shifts_bind (shifts_ofExcept _) fun _ => ?_
      exact shifts_bind (shifts_addScalar hshift .uint32) fun _ => shifts_add _
    | _ => exact shifts_throw _
  | fixedString capacity =>
    cases v with
    | string text => exact shifts_bind (shifts_ofExcept _) fun _ => shifts_add _
    | _ => exact shifts_throw _
  | sequence element bound ih =>
    cases v with
    | sequence items =>
      refine shifts_bind (shifts_ofExcept _) fun _ => ?_
      apply shifts_bind
      · exact shifts_addScalar hshift .uint32
      · exact fun _ => shifts_addElements hshift ih field _ items
    | _ => exact shifts_throw _
  | array element length ih =>
    cases v with
    | sequence items =>
      exact shifts_bind (shifts_ofExcept _) fun _ => shifts_addElements hshift ih field _ items
    | _ => exact shifts_throw _
  | type i => exact htype field i v

theorem shifts_addMember (typeName : String) (fields : Entries Value) (m : Member schema.size) :
    SizeM.Shifts shift (addMember schema rules sizeType typeName fields m) := by
  unfold addMember
  cases fields.get? m.name with
  | some v =>
    have hvalue := shifts_addValue hshift htype m.name m.type v
    by_cases hoptional : m.optional
    · simp only [hoptional, if_true]
      apply shifts_bind
      · exact shifts_pad (Representation.padding_four hshift)
      · exact fun _ => shifts_bind (shifts_add 4) fun _ => hvalue
    · simp only [hoptional, Bool.false_eq_true, if_false]
      exact shifts_bind (shifts_pure PUnit.unit) fun _ => hvalue
  | none =>
    simp only []
    split
    · exact shifts_pure ()
    · exact shifts_throw _

theorem shifts_addUnion (u : UnionType schema.size) (d : Int64) (arm : Option (String × Value)) :
    SizeM.Shifts shift (addUnion schema rules sizeType u d arm) := by
  refine shifts_bind (shifts_ofExcept _) fun disc => ?_
  refine shifts_bind (shifts_addValue hshift htype _ _ disc) fun _ => ?_
  refine shifts_bind (shifts_ofExcept _) fun active => ?_
  cases active with
  | none => exact shifts_pure ()
  | some selected => exact shifts_addValue hshift htype _ _ selected.2

omit htype in
theorem shifts_addType (levels : Nat) (field : String) (i : Fin schema.size) (v : Value) :
    SizeM.Shifts shift (addType schema rules levels field i v) := by
  induction levels generalizing field i v with
  | zero => exact shifts_throw _
  | succ levels ih =>
    simp only [addType]
    cases (schema.get i).body with
    | struct s =>
      cases v with
      | struct fields =>
        apply shifts_bind
        · exact shifts_addDelimiter hshift _
        · exact fun _ => shifts_forM fun m _ => shifts_addMember hshift ih _ fields m
      | _ => exact shifts_throw _
    | union u =>
      cases v with
      | union d arm =>
        apply shifts_bind
        · exact shifts_addDelimiter hshift _
        · exact fun _ => shifts_addUnion hshift ih u d arm
      | _ => exact shifts_throw _
    | enumeration _ =>
      cases v with
      | enumeration n => exact shifts_addScalar hshift .int32
      | _ => exact shifts_throw _

end

/-! ## Bytes -/

/-- A writer with the same sink whose body begins `shift` bytes later. -/
def Writer.later (shift : Nat) (w : Writer) : Writer :=
  { w with position := w.position + shift }

namespace WriteM

variable {α β : Type} {shift : Nat}

/-- Writing that begins `shift` bytes later does the same to the sink, fails with the same error if
    it fails, and ends `shift` bytes later. -/
def Shifts (shift : Nat) (m : WriteM α) : Prop :=
  ∀ w, m.outcome (w.later shift) = Prod.map id (Writer.later shift) (m.outcome w)

theorem outcome_bind (m : WriteM α) (k : α → WriteM β) (w : Writer) :
    (m >>= k).outcome w =
      match m.outcome w with
      | (.ok a, mid) => (k a).outcome mid
      | (.error fault, mid) => (.error fault, mid) := by
  unfold outcome
  rw [EStateM.run_bind]
  cases m.run w <;> rfl

theorem shifts_pure (a : α) : Shifts shift (pure a : WriteM α) :=
  fun _ => rfl

theorem shifts_throw (fault : WireError) : Shifts shift (throw fault : WriteM α) :=
  fun _ => rfl

theorem shifts_ofExcept (result : Except WireError α) :
    Shifts shift (MonadExcept.ofExcept result : WriteM α) := by
  cases result with
  | ok a => exact shifts_pure a
  | error fault => exact shifts_throw fault

theorem shifts_bind {m : WriteM α} {k : α → WriteM β} (hm : Shifts shift m)
    (hk : ∀ a, Shifts shift (k a)) : Shifts shift (m >>= k) := by
  intro w
  rw [outcome_bind, outcome_bind, hm w]
  rcases m.outcome w with ⟨fault | a, mid⟩
  · rfl
  · exact hk a mid

theorem shifts_forM {f : α → WriteM Unit} {xs : List α} (h : ∀ x ∈ xs, Shifts shift (f x)) :
    Shifts shift (xs.forM f) := by
  induction xs with
  | nil => exact shifts_pure ()
  | cons x xs ih =>
    apply shifts_bind
    · exact h x List.mem_cons_self
    · exact fun _ => ih fun y hy => h y (List.mem_cons_of_mem x hy)

theorem shifts_emit (bytes : List UInt8) : Shifts shift (emit bytes) := by
  intro w
  cases hwrite : w.sink.write bytes with
  | mk sink fault =>
    cases fault with
    | none =>
      simp only [outcome, EStateM.run, emit, Writer.later, hwrite, Prod.map, id_eq]
      rw [Nat.add_right_comm]
    | some fault =>
      simp only [outcome, EStateM.run, emit, Writer.later, hwrite, Prod.map, id_eq]

theorem shifts_patch (back : Nat) (bytes : List UInt8) : Shifts shift (patch back bytes) := by
  intro w
  cases hpatch : w.sink.patch back bytes with
  | mk sink fault =>
    cases fault with
    | none => simp only [outcome, EStateM.run, patch, Writer.later, hpatch, Prod.map, id_eq]
    | some fault => simp only [outcome, EStateM.run, patch, Writer.later, hpatch, Prod.map, id_eq]

theorem shifts_pad {alignment : Nat}
    (h : ∀ position, padding (position + shift) alignment = padding position alignment) :
    Shifts shift (pad alignment) := by
  intro w
  have hpad : ∀ w : Writer, (pad alignment).outcome w =
      (if 0 < padding w.position alignment then
        emit (List.replicate (padding w.position alignment) 0) else pure ()).outcome w :=
    fun _ => rfl
  have hposition : (w.later shift).position = w.position + shift := rfl
  rw [hpad, hpad, hposition, h]
  split
  · exact shifts_emit _ w
  · exact shifts_pure () w

/-- What is done with the number of bytes that were written does not depend on where they began. -/
theorem shifts_measured {m : WriteM Unit} {k : Nat → WriteM α} (hm : Shifts shift m)
    (hk : ∀ length, Shifts shift (k length)) :
    Shifts shift (do
      let start ← position
      m
      let length := (← position) - start
      k length) := by
  intro w
  have hrun : ∀ w : Writer, (do
      let start ← position
      m
      let length := (← position) - start
      k length : WriteM α).outcome w =
        (do m; k ((← position) - w.position) : WriteM α).outcome w := fun _ => rfl
  rw [hrun, hrun, outcome_bind, outcome_bind, hm w]
  rcases m.outcome w with ⟨fault | u, mid⟩
  · rfl
  · have hlength : mid.position + shift - (w.position + shift) = mid.position - w.position :=
      Nat.add_sub_add_right _ _ _
    have hsame := congrArg (fun length => (k length).outcome (mid.later shift)) hlength
    exact hsame.trans (hk _ mid)

end WriteM

open WriteM

namespace Encoding

variable {e : Encoding} {shift : Nat} (hshift : e.repr.maxAlignment ∣ shift)

include hshift

theorem shifts_writeWord (n : Nat) : WriteM.Shifts shift (e.writeWord n) := by
  apply shifts_bind
  · exact WriteM.shifts_pad (Representation.padding_alignmentOf hshift .uint32)
  · exact fun _ => shifts_emit _

theorem shifts_writeCount (n : Nat) : WriteM.Shifts shift (e.writeCount n) := by
  unfold writeCount
  split
  · exact shifts_writeWord hshift n
  · exact shifts_throw _

theorem shifts_writeScalar (field : String) (p : Primitive) (v : Value) :
    WriteM.Shifts shift (e.writeScalar field p v) := by
  apply shifts_bind
  · exact WriteM.shifts_pad (Representation.padding_alignmentOf hshift p)
  · intro _
    cases v with
    | scalar s =>
      simp only []
      split
      · cases s.wideChar? with
        | some c => exact shifts_throw _
        | none => exact shifts_emit _
      · exact shifts_throw _
    | _ => exact shifts_throw _

omit hshift in
theorem shifts_writeRun (field : String) (p : Primitive) (chunk : List UInt8) (items : List Value) :
    WriteM.Shifts shift (e.writeRun field p chunk items) := by
  induction items generalizing chunk with
  | nil =>
    unfold writeRun
    split
    · exact shifts_pure ()
    · exact shifts_emit _
  | cons v vs ih =>
    cases v with
    | scalar s =>
      simp only [writeRun]
      split
      · split
        · exact ih _
        · exact shifts_bind (shifts_emit _) fun _ => ih _
      · exact shifts_throw _
    | _ => exact shifts_throw _

theorem shifts_writeElements {each : Value → WriteM Unit}
    (heach : ∀ v, WriteM.Shifts shift (each v)) (field : String) (run : Option Primitive)
    (items : List Value) : WriteM.Shifts shift (e.writeElements each field run items) := by
  unfold writeElements
  cases run with
  | none => exact shifts_forM fun v _ => heach v
  | some p =>
    simp only []
    split
    · exact shifts_pure ()
    · apply shifts_bind
      · exact WriteM.shifts_pad (Representation.padding_alignmentOf hshift p)
      · exact fun _ => shifts_writeRun field p [] items

theorem shifts_writeDelimited {body : WriteM Unit} (hbody : WriteM.Shifts shift body)
    (extensibility : Extensibility) :
    WriteM.Shifts shift (e.writeDelimited extensibility body) := by
  unfold writeDelimited
  split
  · refine shifts_bind (shifts_writeWord hshift 0) fun _ => ?_
    refine shifts_measured hbody (k := fun length => if length < 0x100000000 then
      patch (length + 4) (e.wordBytes length) else throw .outOfRange) fun length => ?_
    split
    · exact shifts_patch _ _
    · exact shifts_throw _
  · exact hbody

theorem shifts_writeOptional {value : WriteM Unit} (hvalue : WriteM.Shifts shift value)
    (id : UInt32) : WriteM.Shifts shift (e.writeOptional id value) := by
  refine shifts_bind (shifts_writeWord hshift 0) fun _ => ?_
  refine shifts_measured hvalue (k := fun length => if length < 0x20000000 then
    patch (length + 4) (e.wordBytes (length * 8 + id.toNat % 8)) else throw .outOfRange)
    fun length => ?_
  split
  · exact shifts_patch _ _
  · exact shifts_throw _

end Encoding

section

open Encoding

variable {schema : Schema} {e : Encoding} {shift : Nat}
  {write : String → Fin schema.size → Value → WriteM Unit}
  (hshift : e.repr.maxAlignment ∣ shift)
  (hwrite : ∀ field i v, WriteM.Shifts shift (write field i v))

include hshift hwrite

theorem shifts_writeValue (field : String) (type : MemberType schema.size) (v : Value) :
    WriteM.Shifts shift (writeValue schema e write field type v) := by
  induction type generalizing v with
  | primitive p => exact shifts_writeScalar hshift field p v
  | string bound =>
    cases v with
    | string text =>
      refine shifts_bind (shifts_ofExcept _) fun _ => ?_
      refine shifts_bind (shifts_writeCount hshift _) fun _ => ?_
      exact shifts_bind (shifts_emit _) fun _ => shifts_emit _
    | _ => exact shifts_throw _
  | fixedString capacity =>
    cases v with
    | string text =>
      refine shifts_bind (shifts_ofExcept _) fun _ => ?_
      refine shifts_bind (shifts_emit _) fun _ => ?_
      simp only []
      split
      · exact shifts_emit _
      · exact shifts_pure ()
    | _ => exact shifts_throw _
  | sequence element bound ih =>
    cases v with
    | sequence items =>
      refine shifts_bind (shifts_ofExcept _) fun _ => ?_
      apply shifts_bind
      · exact shifts_writeCount hshift _
      · exact fun _ => shifts_writeElements hshift ih field _ items
    | _ => exact shifts_throw _
  | array element length ih =>
    cases v with
    | sequence items =>
      exact shifts_bind (shifts_ofExcept _) fun _ => shifts_writeElements hshift ih field _ items
    | _ => exact shifts_throw _
  | type i => exact hwrite field i v

theorem shifts_writeMember (typeName : String) (fields : Entries Value) (m : Member schema.size) :
    WriteM.Shifts shift (writeMember schema e write typeName fields m) := by
  unfold writeMember
  cases fields.get? m.name with
  | some v =>
    have hvalue := shifts_writeValue hshift hwrite m.name m.type v
    simp only []
    split
    · exact shifts_writeOptional hshift hvalue m.id
    · exact hvalue
  | none =>
    simp only []
    split
    · exact shifts_pure ()
    · exact shifts_throw _

theorem shifts_writeUnion (u : UnionType schema.size) (d : Int64) (arm : Option (String × Value)) :
    WriteM.Shifts shift (writeUnion schema e write u d arm) := by
  refine shifts_bind (shifts_ofExcept _) fun disc => ?_
  refine shifts_bind (shifts_writeValue hshift hwrite _ _ disc) fun _ => ?_
  refine shifts_bind (shifts_ofExcept _) fun active => ?_
  cases active with
  | none => exact shifts_pure ()
  | some selected => exact shifts_writeValue hshift hwrite _ _ selected.2

omit hwrite in
theorem shifts_writeType (levels : Nat) (field : String) (i : Fin schema.size) (v : Value) :
    WriteM.Shifts shift (writeType schema e levels field i v) := by
  induction levels generalizing field i v with
  | zero => exact shifts_throw _
  | succ levels ih =>
    simp only [writeType]
    cases (schema.get i).body with
    | struct s =>
      cases v with
      | struct fields =>
        apply shifts_writeDelimited hshift
        exact shifts_forM fun m _ => shifts_writeMember hshift ih _ fields m
      | _ => exact shifts_throw _
    | union u =>
      cases v with
      | union d arm => exact shifts_writeDelimited hshift (shifts_writeUnion hshift ih u d arm) _
      | _ => exact shifts_throw _
    | enumeration _ =>
      cases v with
      | enumeration n => exact shifts_writeScalar hshift field .int32 _
      | _ => exact shifts_throw _

end

/-! ## Readers -/

/-- The same bytes, the first of which lies `shift` bytes further behind the alignment origin. -/
def Source.later (shift : Nat) (src : Source) : Source :=
  { src with origin := src.origin + shift }

section

variable {src : Source} {shift : Nat}

namespace Source

theorem skipPadding_later {alignment : Nat}
    (h : ∀ position, padding (position + shift) alignment = padding position alignment)
    (field : String) :
    (src.later shift).skipPadding field alignment = src.skipPadding field alignment := by
  have horigin : ∀ c : Cursor, padding ((src.later shift).origin + c.position) alignment =
      padding (src.origin + c.position) alignment := by
    intro c
    show padding (src.origin + shift + c.position) alignment = _
    rw [Nat.add_right_comm, h]
  simp only [skipPadding, horigin]
  rfl

variable (hshift : src.encoding.repr.maxAlignment ∣ shift)

include hshift

theorem skipPadding_scalar (field : String) (p : Primitive) :
    (src.later shift).skipPadding field ((src.later shift).encoding.alignmentOf p) =
      src.skipPadding field (src.encoding.alignmentOf p) :=
  skipPadding_later (Representation.padding_alignmentOf hshift p) field

theorem scalar_later (field : String) (p : Primitive) :
    (src.later shift).scalar field p = src.scalar field p := by
  simp only [scalar, skipPadding_scalar hshift]
  rfl

theorem word_later (field : String) : (src.later shift).word field = src.word field := by
  simp only [word, skipPadding_scalar hshift]
  rfl

theorem elements_later (each : ReadM Value) (field : String) (run : Option Primitive)
    (count : Nat) :
    (src.later shift).elements each field run count = src.elements each field run count := by
  cases run with
  | none => rfl
  | some p =>
    simp only [elements, skipPadding_scalar hshift]
    rfl

end Source

section

variable {schema : Schema} {read : String → Fin schema.size → ReadM Value}
  (hshift : src.encoding.repr.maxAlignment ∣ shift)

include hshift

theorem openFrame_later (typeName : String) (extensibility : Extensibility) :
    openFrame (src.later shift) typeName extensibility = openFrame src typeName extensibility := by
  simp only [openFrame, Source.word_later hshift]
  rfl

theorem readValue_later (field : String) (type : MemberType schema.size) :
    readValue schema (src.later shift) read field type = readValue schema src read field type := by
  induction type with
  | primitive p => simp only [readValue, Source.scalar_later hshift]
  | string bound =>
    simp only [readValue, Source.word_later hshift]
    rfl
  | fixedString capacity => rfl
  | sequence element bound ih =>
    simp only [readValue, Source.word_later hshift, Source.elements_later hshift, ih]
    rfl
  | array element length ih => simp only [readValue, Source.elements_later hshift, ih]
  | type i => rfl

theorem readPresent_later (m : Member schema.size) :
    readPresent schema (src.later shift) read m = readPresent schema src read m := by
  have hwithin : readWithin schema (src.later shift) read m = readWithin schema src read m := by
    funext stop c
    simp only [readWithin, readValue_later hshift]
  have hheader : ∀ mark, padding ((src.later shift).origin + mark) 4 =
      padding (src.origin + mark) 4 := by
    intro mark
    show padding (src.origin + shift + mark) 4 = _
    rw [Nat.add_right_comm, Representation.padding_four hshift]
  simp only [readPresent, hwithin, hheader, Source.word_later hshift]

theorem readMembers_later (framed : Bool) (ms : List (Member schema.size))
    (fields : Entries Value) :
    readMembers schema (src.later shift) read framed ms fields =
      readMembers schema src read framed ms fields := by
  induction ms generalizing fields with
  | nil => rfl
  | cons m rest ih =>
    simp only [readMembers, readOptional, readPresent_later hshift, readValue_later hshift, ih]

theorem readStruct_later (typeName : String) (extensibility : Extensibility)
    (s : StructType schema.size) :
    readStruct schema (src.later shift) read typeName extensibility s =
      readStruct schema src read typeName extensibility s := by
  simp only [readStruct, openFrame_later hshift, readMembers_later hshift]

theorem readUnion_later (typeName : String) (extensibility : Extensibility)
    (u : UnionType schema.size) :
    readUnion schema (src.later shift) read typeName extensibility u =
      readUnion schema src read typeName extensibility u := by
  simp only [readUnion, readArm, openFrame_later hshift, readValue_later hshift]

theorem readType_later (levels : Nat) (field : String) (i : Fin schema.size) :
    readType schema (src.later shift) levels field i = readType schema src levels field i := by
  induction levels generalizing field i with
  | zero => rfl
  | succ levels ih =>
    have hread : readType schema (src.later shift) levels = readType schema src levels := by
      funext field i
      exact ih field i
    simp only [readType, hread, readStruct_later hshift, readUnion_later hshift,
      Source.scalar_later hshift]

end

end

/-! ## All passes -/

namespace Schema

/-- Only the offset up to a multiple of the widest boundary matters: behind whole periods a body is
    counted, written and read with the same results, errors and all. No errors hold positions that
    count from the alignment origin, and the sink is left with the same bytes after a fault, too. -/
theorem passes_periodic (schema : Schema) (i : Fin schema.size) (offset k : Nat) :
    (∀ rules v, schema.sizeOf rules i v (offset + k * rules.repr.maxAlignment) =
      schema.sizeOf rules i v offset) ∧
    (∀ e sink v, schema.encode e sink i v (offset + k * e.repr.maxAlignment) =
      schema.encode e sink i v offset) ∧
    (∀ bytes (e : Encoding) limit,
      schema.decode ⟨bytes, e, offset + k * e.repr.maxAlignment⟩ i limit =
        schema.decode ⟨bytes, e, offset⟩ i limit) := by
  refine ⟨?size, ?write, ?read⟩
  case size =>
    intro rules v
    have hshifts := shifts_addType (Nat.dvd_mul_left rules.repr.maxAlignment k) maxDepth "" i v
    have hrun := hshifts ⟨offset, 0⟩
    simp only [StateT.run, Tally.later] at hrun
    simp only [sizeOf, hrun]
    cases addType schema rules maxDepth "" i v ⟨offset, 0⟩ <;> rfl
  case write =>
    intro e sink v
    have hshifts := shifts_writeType (Nat.dvd_mul_left e.repr.maxAlignment k) maxDepth "" i v
    have hrun := hshifts ⟨sink, offset⟩
    simp only [Writer.later] at hrun
    simp only [encode, write, hrun]
    rcases (writeType schema e maxDepth "" i v).outcome ⟨sink, offset⟩ with ⟨result, w⟩
    have hlength : w.position + k * e.repr.maxAlignment - (offset + k * e.repr.maxAlignment) =
        w.position - offset := Nat.add_sub_add_right _ _ _
    simp only [Prod.map, id_eq, Writer.later, hlength]
  case read =>
    intro bytes e limit
    have hread : readType schema (Source.later (k * e.repr.maxAlignment) ⟨bytes, e, offset⟩)
        maxDepth "" i = readType schema ⟨bytes, e, offset⟩ maxDepth "" i :=
      readType_later (Nat.dvd_mul_left e.repr.maxAlignment k) maxDepth "" i
    simp only [Source.later] at hread
    simp only [decode, read, hread]
    rfl

end Schema

end Cdr
