import Cdr.Proofs.CountLimit
import Cdr.Proofs.SinkReach
import Cdr.Schema.Compile
import Cdr.Wire.Payload

/-! # What sizing foresees of a write

Where sizing ends without a fault, a writer takes as many bytes as were counted, or it fails before
it has taken them all. So a limit on the count is one on what is written, also where the writer
minds something that sizing does not look for and however the sink behaves.
-/

namespace Cdr

open SizeRules

namespace WriteM

/-- That a writer ends `count` positions behind where it began, or fails no further than there. -/
def Advances (m : WriteM Unit) (w : Writer) (count : Nat) : Prop :=
  match m.run w with
  | .ok _ after => after.position = w.position + count
  | .error _ after => after.position ≤ w.position + count

/-- That a writer advances by what is counted, wherever the count begins. -/
def Foreseen (s : SizeM Unit) (m : WriteM Unit) : Prop :=
  ∀ (w : Writer) total after, s.run ⟨w.position, total⟩ = .ok ((), after) →
    ∃ count, after = ⟨w.position + count, total + count⟩ ∧ Advances m w count

variable {m k : WriteM Unit} {s t : SizeM Unit} {w : Writer} {a b count : Nat}

theorem Advances.position_le (h : Advances m w count) :
    (m.outcome w).2.position ≤ w.position + count := by
  unfold Advances at h
  unfold outcome
  cases hrun : m.run w with
  | ok u after =>
    rw [hrun] at h
    exact Nat.le_of_eq h
  | error fault after =>
    rw [hrun] at h
    exact h

theorem advances_nothing (w : Writer) : Advances (pure ()) w 0 :=
  rfl

theorem advances_throw (fault : WireError) (w : Writer) (count : Nat) :
    Advances (throw fault) w count :=
  Nat.le_add_right w.position count

theorem advances_andThen (hm : Advances m w a)
    (hk : ∀ mid : Writer, mid.position = w.position + a → Advances k mid b) :
    Advances (do m; k) w (a + b) := by
  unfold Advances at hm ⊢
  rw [EStateM.run_bind]
  cases hrun : m.run w with
  | error fault after =>
    rw [hrun] at hm
    exact Nat.le_trans hm (by omega)
  | ok u mid =>
    rw [hrun] at hm
    have hrest := hk mid hm
    unfold Advances at hrest
    rw [hm, Nat.add_assoc] at hrest
    exact hrest

theorem advances_emit (chunk : List UInt8) (w : Writer) : Advances (emit chunk) w chunk.length := by
  unfold Advances
  rcases hsink : w.sink.write chunk with ⟨sink, fault | fault⟩
  · simp only [emit, EStateM.run, hsink]
  · simp only [emit, EStateM.run, hsink]
    exact Nat.le_add_right _ _

theorem advances_patch (back : Nat) (chunk : List UInt8) (w : Writer) :
    Advances (patch back chunk) w 0 := by
  unfold Advances
  rcases hsink : w.sink.patch back chunk with ⟨sink, fault | fault⟩ <;>
    simp only [patch, EStateM.run, hsink, Nat.add_zero, Nat.le_refl]

theorem advances_zeros (n : Nat) (w : Writer) :
    Advances (if 0 < n then emit (List.replicate n 0) else pure ()) w n := by
  split
  next =>
    have h := advances_emit (List.replicate n 0) w
    rwa [List.length_replicate] at h
  next h =>
    rw [Nat.eq_zero_of_not_pos h]
    exact advances_nothing w

/-! ## Foresight -/

theorem foreseen_nothing : Foreseen (pure ()) (pure ()) := by
  intro w total after h
  cases h
  exact ⟨0, rfl, advances_nothing w⟩

/-- Where sizing fails, nothing is foreseen. -/
theorem foreseen_of_throw (fault : WireError) (m : WriteM Unit) : Foreseen (throw fault) m := by
  intro w total after h
  cases h

/-- A fault that only the writer finds does not take it further. -/
theorem Foreseen.throw (h : Foreseen s m) (fault : WireError) : Foreseen s (throw fault) := by
  intro w total after hs
  obtain ⟨count, hafter, -⟩ := h w total after hs
  exact ⟨count, hafter, advances_throw fault w count⟩

theorem foreseen_andThen (hm : Foreseen s m) (hk : Foreseen t k) :
    Foreseen (do s; t) (do m; k) := by
  intro w total after h
  rw [StateT.run_bind] at h
  cases hs : s.run ⟨w.position, total⟩ with
  | error fault =>
    rw [hs] at h
    cases h
  | ok result =>
    obtain ⟨⟨⟩, mid⟩ := result
    rw [hs] at h
    obtain ⟨a, rfl, hfirst⟩ := hm w total mid hs
    -- The second count is known also where the first writer fails, so it is asked for on any sink.
    obtain ⟨b, rfl, -⟩ := hk ⟨w.sink, w.position + a⟩ (total + a) after h
    refine ⟨a + b, by simp only [Nat.add_assoc], advances_andThen hfirst fun last hlast => ?_⟩
    obtain ⟨b', hb', hsecond⟩ := hk last (total + a) _ (by rw [hlast]; exact h)
    have heq : b = b' := by
      have hposition := congrArg Tally.position hb'
      simp only [hlast] at hposition
      omega
    rwa [heq]

/-- What follows without a step forward does not have to be counted. -/
theorem foreseen_closed (hm : Foreseen s m) {close : Unit → WriteM Unit}
    (hclose : ∀ w, Advances (close ()) w 0) : Foreseen s (m >>= close) := by
  intro w total after h
  obtain ⟨count, hafter, hfirst⟩ := hm w total after h
  exact ⟨count, hafter, advances_andThen hfirst fun mid _ => hclose mid⟩

theorem foreseen_position {rest : Nat → WriteM Unit} (h : ∀ start, Foreseen s (rest start)) :
    Foreseen s (position >>= rest) :=
  fun w => h w.position w

theorem foreseen_checked {α : Type} {check : Except WireError α} {s : α → SizeM Unit}
    {m : α → WriteM Unit} (h : ∀ a, check = .ok a → Foreseen (s a) (m a)) :
    Foreseen (MonadExcept.ofExcept check >>= s) (MonadExcept.ofExcept check >>= m) := by
  cases check with
  | error fault => exact foreseen_of_throw fault _
  | ok a => exact h a rfl

theorem foreseen_each {α : Type} {s : α → SizeM Unit} {m : α → WriteM Unit}
    (h : ∀ x, Foreseen (s x) (m x)) (xs : List α) : Foreseen (xs.forM s) (xs.forM m) := by
  induction xs with
  | nil => exact foreseen_nothing
  | cons x xs ih => exact foreseen_andThen (h x) ih

variable (repr : Representation)

theorem foreseen_add {n : Nat} (h : ∀ w, Advances m w n) : Foreseen ((unlimited repr).add n) m := by
  intro w total after hs
  cases hs
  exact ⟨n, rfl, h w⟩

theorem foreseen_emit {n : Nat} {chunk : List UInt8} (h : chunk.length = n) :
    Foreseen ((unlimited repr).add n) (emit chunk) :=
  foreseen_add repr fun w => h ▸ advances_emit chunk w

theorem foreseen_pad (alignment : Nat) :
    Foreseen ((unlimited repr).pad alignment) (WriteM.pad alignment) := by
  intro w total after hs
  cases hs
  exact ⟨_, rfl, advances_zeros (padding w.position alignment) w⟩

end WriteM

open WriteM

namespace Encoding

variable (e : Encoding)

theorem foreseen_word (n : Nat) :
    Foreseen ((unlimited e.repr).addScalar .uint32) (e.writeWord n) :=
  foreseen_andThen (foreseen_pad e.repr _) (foreseen_emit e.repr (e.length_wordBytes n))

theorem foreseen_count (n : Nat) :
    Foreseen ((unlimited e.repr).addScalar .uint32) (e.writeCount n) := by
  unfold writeCount
  split
  · exact e.foreseen_word n
  · exact (e.foreseen_word n).throw .outOfRange

/-- A character that is too wide is found behind the padding, in place of the scalar. -/
theorem foreseen_scalar (field : String) (p : Primitive) (v : Value) :
    Foreseen (if v.primitive? = some p then (unlimited e.repr).addScalar p
      else throw (.mismatch field p.idlName v.kindName)) (e.writeScalar field p v) := by
  split
  next hv =>
    refine foreseen_andThen (foreseen_pad e.repr _) (foreseen_add e.repr fun w => ?_)
    cases v with
    | scalar s =>
      have hp : s.primitive = p := Option.some.inj hv
      simp only [if_pos hp]
      cases s.wideChar? with
      | some c => exact advances_throw _ w _
      | none =>
        have h := advances_emit (e.scalarBytes s) w
        rwa [e.length_scalarBytes, hp] at h
    | _ => cases hv
  next => exact foreseen_of_throw _ _

/-- The chunks in which a run is written are as long together as the run. -/
theorem advances_run (field : String) (p : Primitive) {items : List Value}
    (hall : firstOther? p items = none) (chunk : List UInt8) (w : Writer) :
    Advances (e.writeRun field p chunk items) w (chunk.length + p.size * items.length) := by
  induction items generalizing chunk w with
  | nil =>
    simp only [writeRun]
    split
    next hempty =>
      rw [List.isEmpty_iff.1 hempty]
      exact advances_nothing w
    next => exact advances_emit chunk w
  | cons v vs ih =>
    obtain ⟨hv, hrest⟩ : v.primitive? = some p ∧ firstOther? p vs = none := by
      simpa [firstOther?] using hall
    cases v with
    | scalar s =>
      have hp : s.primitive = p := Option.some.inj hv
      have hlength : (chunk ++ e.scalarBytes s).length = chunk.length + p.size := by
        rw [List.length_append, e.length_scalarBytes, hp]
      have hsum : chunk.length + p.size * (Value.scalar s :: vs).length =
          (chunk ++ e.scalarBytes s).length + p.size * vs.length := by
        rw [hlength, List.length_cons, Nat.mul_succ]
        omega
      simp only [writeRun, if_pos hp]
      rw [hsum]
      split
      next => exact ih hrest _ w
      next =>
        refine advances_andThen (advances_emit _ w) fun mid _ => ?_
        have h := ih hrest [] mid
        rwa [List.length_nil, Nat.zero_add] at h
    | _ => cases hv

theorem foreseen_elements {addItem : Value → SizeM Unit} {writeItem : Value → WriteM Unit}
    (h : ∀ v, Foreseen (addItem v) (writeItem v)) (field : String) (run : Option Primitive)
    (items : List Value) :
    Foreseen (addElements (unlimited e.repr) addItem field run items)
      (e.writeElements writeItem field run items) := by
  cases run with
  | none => exact foreseen_each h items
  | some p =>
    simp only [addElements, writeElements]
    split
    · exact foreseen_nothing
    · cases hall : firstOther? p items with
      | some found => exact foreseen_of_throw _ _
      | none =>
        refine foreseen_andThen (foreseen_pad e.repr _) (foreseen_add e.repr fun w => ?_)
        have h := e.advances_run field p hall [] w
        rwa [List.length_nil, Nat.zero_add] at h

/-- The header in front of a body is counted with the zeros that stand there first, and filling it
    in later takes no further bytes. -/
theorem foreseen_headed {s : SizeM Unit} {m : WriteM Unit} (hm : Foreseen s m) (limit : Nat)
    (header : Nat → Nat) : Foreseen (do (unlimited e.repr).addScalar .uint32; s) (do
      e.writeWord 0
      let start ← position
      m
      let length := (← position) - start
      if length < limit then patch (length + 4) (e.wordBytes (header length))
      else throw .outOfRange) := by
  refine foreseen_andThen (e.foreseen_word 0) (foreseen_position fun start => ?_)
  refine foreseen_closed hm fun w => ?_
  show Advances (if w.position - start < limit then _ else _) w 0
  split
  · exact advances_patch _ _ w
  · exact advances_throw _ w 0

theorem foreseen_delimited {s : SizeM Unit} {m : WriteM Unit} (hm : Foreseen s m)
    (extensibility : Extensibility) :
    Foreseen (do (unlimited e.repr).addDelimiter extensibility; s)
      (e.writeDelimited extensibility m) := by
  unfold SizeRules.addDelimiter writeDelimited
  split
  · exact e.foreseen_headed hm 0x100000000 fun length => length
  · rw [pure_bind]
    exact hm

theorem foreseen_optional {s : SizeM Unit} {m : WriteM Unit} (hm : Foreseen s m) (id : UInt32) :
    Foreseen (do (unlimited e.repr).pad 4; (unlimited e.repr).add 4; s) (e.writeOptional id m) := by
  have halignment := e.alignmentOf_uint32
  have hheaded := e.foreseen_headed hm 0x20000000 fun length => length * 8 + id.toNat % 8
  unfold SizeRules.addScalar at hheaded
  rw [show (unlimited e.repr).repr.alignmentOf Primitive.uint32.size = 4 from halignment,
    bind_assoc] at hheaded
  exact hheaded

end Encoding

section

variable {schema : Schema} {e : Encoding}
  {addType : String → Fin schema.size → Value → SizeM Unit}
  {writeType : String → Fin schema.size → Value → WriteM Unit}
  (htype : ∀ field i v, Foreseen (addType field i v) (writeType field i v))

include htype

theorem foreseen_value (field : String) (type : MemberType schema.size) (v : Value) :
    Foreseen (addValue schema (unlimited e.repr) addType field type v)
      (writeValue schema e writeType field type v) := by
  induction type generalizing v with
  | primitive p => exact e.foreseen_scalar field p v
  | string bound =>
    cases v with
    | string text =>
      refine foreseen_checked fun _ _ => foreseen_andThen (e.foreseen_count _) ?_
      refine foreseen_add e.repr fun w => ?_
      have htext := advances_emit (Text.utf8 text) w
      rw [Text.length_utf8] at htext
      exact advances_andThen htext fun mid _ => advances_emit [0] mid
    | _ => exact foreseen_of_throw _ _
  | fixedString capacity =>
    cases v with
    | string text =>
      refine foreseen_checked fun _ hcapacity => foreseen_add e.repr fun w => ?_
      have hfits := checkCapacity_eq_ok hcapacity
      have htext := advances_emit (Text.utf8 text) w
      rw [Text.length_utf8] at htext
      have h := advances_andThen htext fun mid _ =>
        advances_zeros (capacity.toNat - text.utf8ByteSize) mid
      rwa [Nat.add_sub_cancel' hfits] at h
    | _ => exact foreseen_of_throw _ _
  | sequence element bound ih =>
    cases v with
    | sequence items =>
      exact foreseen_checked fun _ _ =>
        foreseen_andThen (e.foreseen_count _) (e.foreseen_elements ih field _ items)
    | _ => exact foreseen_of_throw _ _
  | array element length ih =>
    cases v with
    | sequence items => exact foreseen_checked fun _ _ => e.foreseen_elements ih field _ items
    | _ => exact foreseen_of_throw _ _
  | type i => exact htype field i v

theorem foreseen_member (typeName : String) (fields : Entries Value) (m : Member schema.size) :
    Foreseen (addMember schema (unlimited e.repr) addType typeName fields m)
      (writeMember schema e writeType typeName fields m) := by
  unfold addMember writeMember
  cases fields.get? m.name with
  | some v =>
    simp only []
    have hvalue : Foreseen (addValue schema (unlimited e.repr) addType m.name m.type v)
        (writeValue schema e writeType m.name m.type v) := foreseen_value htype m.name m.type v
    by_cases hoptional : m.optional
    · simp only [hoptional, if_true]
      exact e.foreseen_optional hvalue m.id
    · simp only [hoptional, Bool.false_eq_true, if_false]
      exact hvalue
  | none =>
    simp only []
    split
    · exact foreseen_nothing
    · exact foreseen_of_throw _ _

theorem foreseen_union (u : UnionType schema.size) (d : Int64) (arm : Option (String × Value)) :
    Foreseen (addUnion schema (unlimited e.repr) addType u d arm)
      (writeUnion schema e writeType u d arm) := by
  refine foreseen_checked fun disc _ => foreseen_andThen (foreseen_value htype _ _ disc) ?_
  refine foreseen_checked fun active _ => ?_
  cases active with
  | none => exact foreseen_nothing
  | some selected => exact foreseen_value htype _ _ selected.2

end

theorem foreseen_type (schema : Schema) (e : Encoding) (levels : Nat) (field : String)
    (i : Fin schema.size) (v : Value) :
    Foreseen (addType schema (unlimited e.repr) levels field i v)
      (writeType schema e levels field i v) := by
  induction levels generalizing field i v with
  | zero => exact foreseen_of_throw _ _
  | succ levels ih =>
    simp only [addType, writeType]
    cases (schema.get i).body with
    | struct s =>
      cases v with
      | struct fields =>
        exact e.foreseen_delimited (foreseen_each (foreseen_member ih _ fields) _) _
      | _ => exact foreseen_of_throw _ _
    | union u =>
      cases v with
      | union d arm => exact e.foreseen_delimited (foreseen_union ih u d arm) _
      | _ => exact foreseen_of_throw _ _
    | enumeration _ =>
      cases v with
      | enumeration n => exact e.foreseen_scalar field .int32 (.scalar (.int32 n))
      | _ => exact foreseen_of_throw _ _

/-! ## What is written under a limit -/

namespace WriteM

/-- Whatever hinders a writer, what it does to its sink is a script. -/
theorem Performs.script {m : WriteM Unit} {position : Nat}
    {image : Except Obstacle (List UInt8)} (h : Performs m position image) :
    ∃ ops, Script.Torn ops ∧ ∀ sink,
      (m.outcome ⟨sink, position⟩).2 = ((Script.perform ops).outcome ⟨sink, position⟩).2 := by
  cases image with
  | ok b =>
    obtain ⟨ops, balanced, hrun⟩ := h
    exact ⟨ops, .whole balanced, fun sink => by rw [outcome, outcome, hrun]⟩
  | error obstacle =>
    obtain ⟨ops, torn, hrun⟩ := h
    refine ⟨ops, torn, fun sink => ?_⟩
    rw [outcome, outcome, hrun, EStateM.run_bind]
    cases (Script.perform ops).run ⟨sink, position⟩ <;> rfl

/-- A writer that goes no further than was counted on a sink that takes everything goes no further
    on any sink, as it performs the same script there. -/
theorem withinReach_of_foreseen {s : SizeM Unit} {m : WriteM Unit} {image : Image}
    (hwrites : Writes m image) (hforeseen : Foreseen s m) {position : Nat} {after : Tally}
    (hcount : s.run ⟨position, 0⟩ = .ok ((), after)) (sink : Sink) :
    sink.WithinReach (m.outcome ⟨sink, position⟩).2.sink after.total := by
  obtain ⟨ops, torn, hscript⟩ := (hwrites position).script
  obtain ⟨count, rfl, hadvances⟩ := hforeseen ⟨.appendingTo #[], position⟩ 0 after hcount
  have hlength : Script.advance ops ≤ count := by
    obtain ⟨b, hrun⟩ := torn.perform_appendingTo #[] position
    have hend : ((Script.perform ops).outcome ⟨.appendingTo #[], position⟩).2.position =
        position + Script.advance ops := by
      rw [outcome, hrun]
      exact Script.position_of_perform hrun
    have hle := hadvances.position_le
    rw [hscript, hend] at hle
    exact Nat.le_of_add_le_add_left hle
  rw [hscript, Nat.zero_add]
  exact (torn.confined ⟨sink, position⟩).mono hlength

end WriteM

namespace Schema

section

variable (schema : Schema) (e : Encoding) (i : Fin schema.size) (v : Value)

theorem withinReach_encode {offset n : Nat}
    (h : schema.sizeOf (unlimited e.repr) i v offset = .ok n) (sink : Sink) :
    sink.WithinReach (schema.encode e sink i v offset).2 n := by
  rw [sizeOf_eq_map] at h
  cases hcount : (addType schema (unlimited e.repr) maxDepth "" i v).run ⟨offset, 0⟩ with
  | error fault =>
    rw [hcount] at h
    cases h
  | ok counted =>
    obtain ⟨⟨⟩, after⟩ := counted
    rw [hcount] at h
    cases h
    exact withinReach_of_foreseen (writes_type schema e maxDepth "" i v)
      (foreseen_type schema e maxDepth "" i v) hcount sink

/-- A payload that can be measured is written over as many bytes as it measures, or fewer. -/
theorem withinReach_serializeInto {n : Nat} (h : schema.payloadSize e.repr i v = .ok n)
    (sink : Sink) :
    sink.WithinReach (schema.serializeInto e .infinite sink i v).2 n := by
  obtain ⟨body, hbody, rfl⟩ := schema.payloadSize_eq_ok e.repr i v h
  have hheader : Confined (do emit (e.headerId (schema.get i).extensibility); emit [0, 0])
      headerSize := confined_andThen (confined_emit _) (confined_emit _)
  have hfront := hheader ⟨sink, 0⟩
  unfold serializeInto
  simp only []
  rcases houtcome : WriteM.outcome
      (do emit (e.headerId (schema.get i).extensibility); emit [0, 0]) ⟨sink, 0⟩ with
    ⟨fault | ⟨⟩, w⟩
  · rw [houtcome] at hfront
    exact hfront.mono (Nat.le_add_right _ _)
  · rw [houtcome] at hfront
    exact hfront.trans (schema.withinReach_encode e i v hbody w.sink)

variable {limit : Nat}

/-- Where measuring fails, nothing is written. -/
theorem serializeInto_of_refused {fault : WireError}
    (h : schema.payloadSizeWithin e.repr limit i v = .error fault) (sink : Sink) :
    schema.serializeInto e (.bounded limit) sink i v = (.error fault, sink) := by
  simp only [serializeInto, h]
  rfl

theorem serializeInto_of_measured {n : Nat}
    (h : schema.payloadSizeWithin e.repr limit i v = .ok n) (sink : Sink) :
    schema.serializeInto e (.bounded limit) sink i v =
      schema.serializeInto e .infinite sink i v := by
  simp only [serializeInto, h]
  rfl

theorem size_serialize_bounded {payload : Array UInt8}
    (h : schema.serialize e (.bounded limit) i v = .ok payload) : payload.size ≤ limit := by
  cases hwithin : schema.payloadSizeWithin e.repr limit i v with
  | error fault =>
    simp only [serialize, hwithin] at h
    cases h
  | ok n =>
    obtain ⟨hsize, hle⟩ := (schema.payloadSizeWithin_eq_ok_iff e.repr limit i v).1 hwithin
    have hreach := (schema.withinReach_serializeInto e i v hsize (.appendingTo #[])).size
    rcases hwritten : schema.serializeInto e .infinite (.appendingTo #[]) i v with
      ⟨fault | ⟨⟩, sink⟩
    · simp only [serialize, hwithin, hwritten] at h
      cases h
    · simp only [serialize, hwithin, hwritten] at h
      cases h
      rw [hwritten] at hreach
      have hsmall : sink.bytes.size ≤ n := by
        simpa [Sink.appendingTo, Sink.head] using hreach
      exact Nat.le_trans hsmall hle

end

/-- Measuring up to a limit is measuring, and refuses what is larger: an error stays one, though the
    limit may be what is found first. So nothing larger than the limit is written, into whatever
    sink and whether or not the write comes to its end, and where measuring fails the sink stays as
    it was. -/
theorem bounded_payload (schema : Schema) (e : Encoding) (i : Fin schema.size) (v : Value)
    (limit : Nat) :
    (∀ n, schema.payloadSizeWithin e.repr limit i v = .ok n ↔
      schema.payloadSize e.repr i v = .ok n ∧ n ≤ limit) ∧
    (∀ n, schema.payloadSize e.repr i v = .ok n → limit < n →
      schema.payloadSizeWithin e.repr limit i v = .error .sizeLimit) ∧
    (∀ fault, schema.payloadSize e.repr i v = .error fault →
      schema.payloadSizeWithin e.repr limit i v = .error fault ∨
        schema.payloadSizeWithin e.repr limit i v = .error .sizeLimit) ∧
    (∀ payload, schema.serialize e (.bounded limit) i v = .ok payload → payload.size ≤ limit) ∧
    (∀ sink : Sink,
      sink.WithinReach (schema.serializeInto e (.bounded limit) sink i v).2 limit) ∧
    ∀ fault, schema.payloadSizeWithin e.repr limit i v = .error fault → ∀ sink,
      schema.serializeInto e (.bounded limit) sink i v = (.error fault, sink) := by
  refine ⟨fun n => schema.payloadSizeWithin_eq_ok_iff e.repr limit i v, fun n hn hlt => ?_,
    fun fault => schema.payloadSizeWithin_of_error e.repr limit i v,
    fun payload => schema.size_serialize_bounded e i v, fun sink => ?_,
    fun fault => schema.serializeInto_of_refused e i v⟩
  · rw [schema.payloadSizeWithin_of_ok e.repr limit i v hn, if_neg (Nat.not_le_of_lt hlt)]
  · cases hwithin : schema.payloadSizeWithin e.repr limit i v with
    | error fault =>
      rw [schema.serializeInto_of_refused e i v hwithin]
      exact (Sink.WithinReach.refl sink).mono (Nat.zero_le limit)
    | ok n =>
      obtain ⟨hsize, hle⟩ := (schema.payloadSizeWithin_eq_ok_iff e.repr limit i v).1 hwithin
      rw [schema.serializeInto_of_measured e i v hwithin]
      exact (schema.withinReach_serializeInto e i v hsize sink).mono hle

/-- A number and a sign. -/
def entryDoc : Document where
  types := [
    { name := "Entry"
      scope := ""
      extensibility := .final
      fields := [FieldDecl.new "number" "octet", FieldDecl.new "sign" "char"] }]

def entries : Schema where
  size := 1
  types := #v[
    { name := "Entry"
      scope := ""
      extensibility := .final
      layout := .struct [("number", ⟨1, 1⟩), ("sign", ⟨1, 1⟩)]
      body := .struct ⟨[⟨"number", 0, .primitive .octet, false, false⟩,
        ⟨"sign", 1, .primitive .char, false, false⟩]⟩ }]

/-- Sizing does not look at the sign, which is no character of ASCII. The writer gets as far as the
    number, unless a limit below the size that was counted keeps it from writing at all. -/
theorem bounded_payload_entry :
    let e : Encoding := ⟨.xcdr1, .little⟩
    let entry : Fin entries.size := ⟨0, by decide⟩
    let v : Value := .struct [("number", .scalar (.octet 7)), ("sign", .scalar (.char 'é'))]
    let sink : Sink := ⟨.fixed, #[9, 9, 9, 9, 9, 9, 9, 9], 1⟩
    entryDoc.compile = .ok entries ∧ entries.payloadSize e.repr entry v = .ok 6 ∧
      entries.payloadSizeWithin e.repr 6 entry v = .ok 6 ∧
      entries.serializeInto e (.bounded 6) sink entry v =
        (.error (.wideChar 'é'), ⟨.fixed, #[9, 0, 1, 0, 0, 7, 9, 9], 6⟩) ∧
      sink.WithinReach (entries.serializeInto e (.bounded 6) sink entry v).2 6 ∧
      entries.payloadSizeWithin e.repr 5 entry v = .error .sizeLimit ∧
      entries.serializeInto e (.bounded 5) sink entry v = (.error .sizeLimit, sink) := by
  intro e entry v sink
  have hsize : entries.payloadSize e.repr entry v = .ok 6 := by decide +kernel
  obtain ⟨hiff, -, -, -, hreach, -⟩ := bounded_payload entries e entry v 6
  obtain ⟨-, hover, -, -, -, hrefused⟩ := bounded_payload entries e entry v 5
  have hlimit := hover 6 hsize (by decide)
  exact ⟨by decide +kernel, hsize, (hiff 6).2 ⟨hsize, Nat.le_refl 6⟩, by decide +kernel,
    hreach sink, hlimit, hrefused _ hlimit sink⟩

end Schema

end Cdr
