import Cdr.Proofs.Conforming
import Cdr.Proofs.Limits
import Cdr.Proofs.OptionalMembers

/-! # What a read fails with

A read fails with seven kinds of faults and, under a limit, with that of the limit. It never finds
a value that is not what its type says, as the kinds of discriminators were settled when the schema
was compiled. Bodies are overrun only where bodies are framed.
-/

namespace Cdr

open ReadM

/-- Whether a type of this name has framed bodies. -/
def Schema.Frames (schema : Schema) (repr : Representation) (typeName : String) : Prop :=
  repr = .xcdr2 ∧ ∃ i, (schema.get i).full = typeName ∧ (schema.get i).extensibility ≠ .final

/-- The faults of a read that has no limit. -/
inductive ReadFault (schema : Schema) (repr : Representation) : WireError → Prop where
  | truncated {field : String} {offset needed remaining : Nat} :
    ReadFault schema repr (.truncated field offset needed remaining)
  | overrun {typeName : String} {stop position : Nat} (framed : schema.Frames repr typeName) :
    ReadFault schema repr (.overrun typeName stop position)
  | boundExceeded {field : String} {count : Nat} {bound : UInt32} :
    ReadFault schema repr (.boundExceeded field count bound)
  | depthExceeded {field : String} : ReadFault schema repr (.depthExceeded field)
  | boolByte {b : UInt8} : ReadFault schema repr (.boolByte b)
  | charByte {b : UInt8} : ReadFault schema repr (.charByte b)
  | utf8 {fault : Text.Utf8Fault} : ReadFault schema repr (.utf8 fault)

/-- Whether the body that ends at the end of the cursor, if there is one, is that of a type with
    framed bodies. -/
def Cursor.Owned (schema : Schema) (repr : Representation) (c : Cursor) : Prop :=
  ∀ typeName, c.owner = some typeName → schema.Frames repr typeName

namespace ReadM

/-- Inside of framed bodies, a read succeeds inside of framed bodies with what is so, or it fails
    with a fault of reads or with that of the limit. -/
def Safe {α : Type} (schema : Schema) (repr : Representation) (m : ReadM α) (P : α → Prop) : Prop :=
  ∀ c : Cursor, c.Owned schema repr →
    match m.run c with
    | .ok a after => after.Owned schema repr ∧ P a
    | .error fault _ => ReadFault schema repr fault ∨ fault = .sizeLimit

variable {α β : Type} {schema : Schema} {repr : Representation} {m : ReadM α} {k : α → ReadM β}
  {P P' : α → Prop} {Q : β → Prop}

theorem safe_pure {a : α} (h : P a) : Safe schema repr (pure a) P :=
  fun _ howned => ⟨howned, h⟩

theorem safe_throw {fault : WireError} (h : ReadFault schema repr fault) :
    Safe schema repr (throw fault : ReadM α) P :=
  fun _ _ => .inl h

theorem safe_bind (hm : Safe schema repr m P) (hk : ∀ a, P a → Safe schema repr (k a) Q) :
    Safe schema repr (m >>= k) Q := by
  intro c howned
  have hfirst := hm c howned
  rw [EStateM.run_bind]
  cases hrun : m.run c with
  | error fault after =>
    rw [hrun] at hfirst
    exact hfirst
  | ok a after =>
    rw [hrun] at hfirst
    exact hk a hfirst.2 after hfirst.1

/-- A read is safe with all that it yields. -/
theorem Safe.and_yields (hm : Safe schema repr m P) (hyields : Yields m P') :
    Safe schema repr m P' := by
  intro c howned
  have hsafe := hm c howned
  cases hrun : m.run c with
  | error fault after =>
    rw [hrun] at hsafe
    exact hsafe
  | ok a after =>
    rw [hrun] at hsafe
    exact ⟨hsafe.1, hyields c a after hrun⟩

theorem safe_ofExcept {result : Except WireError α} (hok : ∀ a, result = .ok a → P a)
    (herror : ∀ fault, result = .error fault → ReadFault schema repr fault) :
    Safe schema repr (MonadExcept.ofExcept result) P := by
  cases result with
  | ok a => exact safe_pure (hok a rfl)
  | error fault => exact safe_throw (herror fault rfl)

theorem safe_modify {f : Cursor → Cursor} (h : ∀ c, (f c).owner = c.owner) :
    Safe schema repr (modify f : ReadM PUnit) fun _ => True := by
  intro c howned
  refine ⟨fun typeName hname => howned typeName ?_, trivial⟩
  rw [← h c]
  exact hname

theorem safe_get : Safe schema repr (get : ReadM Cursor) (Cursor.Owned schema repr) :=
  fun _ howned => ⟨howned, howned⟩

theorem safe_atEnd : Safe schema repr atEnd fun _ => True :=
  safe_bind safe_get fun _ _ => safe_pure trivial

theorem safe_charge : Safe schema repr charge fun _ => True := by
  intro c howned
  rcases run_charge c with ⟨limit, highWater, hrun⟩ | hrun
  · rw [hrun]
    exact ⟨howned, trivial⟩
  · rw [hrun]
    exact .inr rfl

theorem safe_checkBound (field : String) (count : Nat) (bound : Option UInt32) :
    Safe schema repr (MonadExcept.ofExcept (checkBound field count bound)) fun _ => True := by
  refine safe_ofExcept (fun _ _ => trivial) fun fault h => ?_
  cases bound with
  | none => cases h
  | some bound =>
    simp only [checkBound] at h
    split at h
    · cases h
      exact .boundExceeded
    · cases h

end ReadM

namespace Source

variable {schema : Schema} (src : Source)

theorem readFault_shortRead {c : Cursor} (howned : c.Owned schema src.encoding.repr)
    (field : String) (size : Nat) :
    ReadFault schema src.encoding.repr (src.shortRead c field size) := by
  unfold shortRead
  split
  next typeName hname =>
    split
    · exact .overrun (howned typeName hname)
    · exact .truncated
  next => exact .truncated

theorem safe_take (field : String) (size : Nat) :
    Safe schema src.encoding.repr (src.take field size) fun _ => True := by
  intro c howned
  rcases Nat.lt_or_ge c.remaining size with hlt | hge
  · rw [run_take_of_lt src field hlt]
    exact .inl (readFault_shortRead src howned field size)
  · rcases run_take_of_le src field hge with ⟨limit, highWater, hrun⟩ | hrun
    · rw [hrun]
      exact ⟨howned, trivial⟩
    · rw [hrun]
      exact .inr rfl

theorem safe_skipPadding (field : String) (alignment : Nat) :
    Safe schema src.encoding.repr (src.skipPadding field alignment) fun _ => True :=
  safe_bind safe_get fun _ _ => safe_bind (src.safe_take field _) fun _ _ => safe_pure trivial

theorem readFault_readScalar {repr : Representation} {e : Encoding} {p : Primitive}
    {bytes : List UInt8} {fault : WireError} (h : e.readScalar p bytes = .error fault) :
    ReadFault schema repr fault := by
  simp only [Encoding.readScalar] at h
  split at h
  · cases h
  · cases h
    exact .boolByte
  · cases h
    exact .charByte

theorem safe_scalar (field : String) (p : Primitive) :
    Safe schema src.encoding.repr (src.scalar field p) fun s => s.primitive = p := by
  refine safe_bind (src.safe_skipPadding field _) fun _ _ => ?_
  refine safe_bind (src.safe_take field _) fun bytes _ => ?_
  exact safe_ofExcept (fun s hs => (readScalar_eq_ok hs).1) fun _ => readFault_readScalar

theorem safe_word (field : String) :
    Safe schema src.encoding.repr (src.word field) fun _ => True := by
  refine safe_bind (src.safe_skipPadding field _) fun _ _ => ?_
  exact safe_bind (src.safe_take field _) fun _ _ => safe_pure trivial

theorem readFault_scalars {repr : Representation} {e : Encoding} {p : Primitive} {count : Nat}
    {bytes : List UInt8} {fault : WireError} (h : scalars e p count bytes = .error fault) :
    ReadFault schema repr fault := by
  induction count generalizing bytes with
  | zero => cases h
  | succ count ih =>
    simp only [scalars, bind, Except.bind] at h
    cases hfirst : e.readScalar p (bytes.take p.size) with
    | error other =>
      rw [hfirst] at h
      cases h
      exact readFault_readScalar hfirst
    | ok s =>
      rw [hfirst] at h
      cases hrest : scalars e p count (bytes.drop p.size) with
      | error other =>
        rw [hrest] at h
        cases h
        exact ih hrest
      | ok rest =>
        rw [hrest] at h
        cases h

theorem safe_many {each : ReadM Value} (heach : Safe schema src.encoding.repr each fun _ => True)
    (count : Nat) (rev : List Value) :
    Safe schema src.encoding.repr (many each count rev) fun _ => True := by
  induction count generalizing rev with
  | zero => exact safe_pure trivial
  | succ count ih => exact safe_bind heach fun v _ => ih (v :: rev)

theorem safe_elements {each : ReadM Value}
    (heach : Safe schema src.encoding.repr each fun _ => True) (field : String)
    (run : Option Primitive) (count : Nat) :
    Safe schema src.encoding.repr (src.elements each field run count) fun _ => True := by
  unfold elements
  cases run with
  | none => exact safe_bind (src.safe_many heach count []) fun _ _ => safe_pure trivial
  | some p =>
    simp only []
    split
    · exact safe_pure trivial
    · refine safe_bind (src.safe_skipPadding field _) fun _ _ => ?_
      refine safe_bind (src.safe_take field _) fun bytes _ => ?_
      refine safe_bind (P := fun _ => True) ?_ fun _ _ => safe_pure trivial
      exact safe_ofExcept (fun _ _ => trivial) fun _ => readFault_scalars

theorem safe_text {repr : Representation} (bytes : List UInt8) :
    Safe schema repr (text bytes) fun _ => True := by
  unfold text
  split
  · exact safe_pure trivial
  · exact safe_throw .utf8

end Source

section

variable {schema : Schema} {src : Source}

theorem safe_checkCount {repr : Representation} (field : String) (element : MemberType schema.size)
    (count : Nat) : Safe schema repr (checkCount schema src field element count) fun _ => True := by
  refine safe_bind safe_get fun c _ => ?_
  simp only []
  split
  · exact safe_throw .truncated
  · exact safe_pure trivial

/-- What is kept to close a frame is the owner of what lies around it. -/
theorem safe_openFrame {typeName : String} {extensibility : Extensibility}
    (hframes : src.encoding.repr.isDelimited extensibility = true →
      schema.Frames src.encoding.repr typeName) :
    Safe schema src.encoding.repr (openFrame src typeName extensibility) fun frame? =>
      ∀ frame, frame? = some frame → schema.Frames src.encoding.repr typeName ∧
        ∀ outer, frame.outerOwner = some outer → schema.Frames src.encoding.repr outer := by
  unfold openFrame
  split
  next hframed =>
    have hname := hframes hframed
    refine safe_bind (src.safe_word typeName) fun length _ => ?_
    refine safe_bind safe_get fun c hc => ?_
    split
    · exact safe_throw .truncated
    · intro inner _
      refine ⟨?_, ?_⟩
      · rintro _ ⟨⟩
        exact hname
      · rintro _ ⟨⟩
        exact ⟨hname, hc⟩
  next => exact safe_pure nofun

theorem safe_closeFrame {repr : Representation} {typeName : String} {frame? : Option Frame}
    (h : ∀ frame, frame? = some frame → schema.Frames repr typeName ∧
      ∀ outer, frame.outerOwner = some outer → schema.Frames repr outer) :
    Safe schema repr (closeFrame typeName frame?) fun _ => True := by
  cases frame? with
  | none => exact safe_pure trivial
  | some frame =>
    obtain ⟨hname, houter⟩ := h frame rfl
    have hwiden : Safe schema repr
        (modify fun c => { c with stop := frame.outerStop, owner := frame.outerOwner } :
          ReadM PUnit) fun _ => True :=
      fun c _ => ⟨houter, trivial⟩
    refine safe_bind safe_get fun c _ => ?_
    simp only []
    split
    · exact safe_throw (.overrun hname)
    · split
      · refine safe_bind (safe_modify fun _ => rfl) fun _ _ => ?_
        refine safe_bind (safe_modify fun _ => rfl) fun _ _ => ?_
        exact safe_bind safe_charge fun _ _ => hwiden
      · exact hwiden

theorem safe_inFrame {α : Type} {P : α → Prop} {typeName : String} {extensibility : Extensibility}
    {body : Bool → ReadM α}
    (hframes : src.encoding.repr.isDelimited extensibility = true →
      schema.Frames src.encoding.repr typeName)
    (hbody : ∀ framed, Safe schema src.encoding.repr (body framed) P) :
    Safe schema src.encoding.repr (inFrame src typeName extensibility body) P := by
  refine safe_bind (safe_openFrame hframes) fun frame? hframe => ?_
  refine safe_bind (hbody frame?.isSome) fun a ha => ?_
  exact safe_bind (safe_closeFrame hframe) fun _ _ => safe_pure ha

end

/-! ## Values -/

section

variable {schema : Schema} {src : Source} {readType : String → Fin schema.size → ReadM Value}
  (htype : ∀ field i, Safe schema src.encoding.repr (readType field i) fun _ => True)

include htype

theorem safe_readValue (field : String) (t : MemberType schema.size) :
    Safe schema src.encoding.repr (readValue schema src readType field t) fun _ => True := by
  induction t with
  | primitive p => exact safe_bind (src.safe_scalar field p) fun _ _ => safe_pure trivial
  | string bound =>
    refine safe_bind (src.safe_word field) fun count _ => ?_
    split
    · exact safe_pure trivial
    · refine safe_bind (safe_checkBound field _ bound) fun _ _ => ?_
      exact safe_bind (src.safe_take field count) fun bytes _ => Source.safe_text _
  | fixedString capacity =>
    exact safe_bind (src.safe_take field _) fun bytes _ => Source.safe_text _
  | sequence element bound ih =>
    refine safe_bind (src.safe_word field) fun count _ => ?_
    refine safe_bind (safe_checkBound field count bound) fun _ _ => ?_
    refine safe_bind (safe_checkCount field element count) fun _ _ => ?_
    exact src.safe_elements ih field _ count
  | array element length ih => exact src.safe_elements ih field _ _
  | type i => exact htype field i

theorem safe_readWithin (m : Member schema.size) (stop : Nat) :
    Safe schema src.encoding.repr (readWithin schema src readType m stop) fun _ => True := by
  intro c howned
  have hvalue := safe_readValue htype m.name m.type { c with stop } howned
  simp only [EStateM.run] at hvalue
  simp only [EStateM.run, readWithin]
  cases hrun : readValue schema src readType m.name m.type { c with stop } with
  | ok v after => exact ⟨howned, trivial⟩
  | error fault after =>
    rw [hrun] at hvalue
    by_cases hshort : fault.isShort = true
    · simp only [if_pos hshort]
      exact ⟨howned, trivial⟩
    · simp only [if_neg hshort]
      exact hvalue

theorem safe_readOptional (m : Member schema.size) :
    Safe schema src.encoding.repr (readOptional schema src readType m) fun _ => True := by
  have hpresent : Safe schema src.encoding.repr (readPresent schema src readType m)
      fun _ => True := by
    refine safe_bind safe_get fun c _ => safe_bind safe_get fun _ _ => ?_
    split
    · refine safe_bind (src.safe_word m.name) fun header _ => ?_
      refine safe_bind safe_get fun behind _ => ?_
      split
      · exact safe_readWithin htype m _
      · exact safe_pure trivial
    · exact safe_pure trivial
  refine safe_bind safe_get fun mark _ => safe_bind hpresent fun found _ => ?_
  cases found with
  | some v => exact safe_pure trivial
  | none =>
    refine safe_bind (safe_modify fun _ => rfl) fun _ _ => ?_
    exact safe_bind (safe_modify fun _ => rfl) fun _ _ => safe_pure trivial

theorem safe_readMembers (framed : Bool) (ms : List (Member schema.size)) (fields : Entries Value) :
    Safe schema src.encoding.repr (readMembers schema src readType framed ms fields)
      fun _ => True := by
  induction ms generalizing fields with
  | nil => exact safe_pure trivial
  | cons m rest ih =>
    unfold readMembers
    refine safe_bind safe_atEnd fun ended _ => ?_
    split
    · exact ih _
    · split
      · refine safe_bind (safe_readOptional htype m) fun found _ => ?_
        cases found with
        | some v => exact ih _
        | none => exact ih _
      · exact safe_bind (safe_readValue htype m.name m.type) fun v _ => ih _

theorem safe_readArm (typeName : String) (framed : Bool) (u : UnionType schema.size) (d : Int64) :
    Safe schema src.encoding.repr (readArm schema src readType typeName framed u d)
      fun _ => True := by
  unfold readArm
  cases u.select d with
  | none => exact safe_bind (safe_modify fun _ => rfl) fun _ _ => safe_pure trivial
  | some arm =>
    refine safe_bind safe_atEnd fun ended _ => ?_
    split
    · exact safe_pure trivial
    · exact safe_bind (safe_readValue htype _ _) fun v _ => safe_pure trivial

/-- The discriminator of a union is found to be one, as its type is that of discriminators. -/
theorem safe_readUnionBody (typeName : String) (framed : Bool) {u : UnionType schema.size}
    (hdisc : Yields (readValue schema src readType u.discriminator.name u.discriminator.type)
      fun v => ∃ d, discriminatorOf? v = some d) :
    Safe schema src.encoding.repr (readUnionBody schema src readType typeName u framed)
      fun _ => True := by
  refine safe_bind safe_atEnd fun ended _ => ?_
  split
  · exact safe_pure trivial
  · have hread := (safe_readValue htype u.discriminator.name u.discriminator.type).and_yields hdisc
    refine safe_bind hread fun disc hd => ?_
    obtain ⟨d, hd⟩ := hd
    simp only [hd]
    exact safe_bind (safe_readArm htype typeName framed u d) fun _ _ => safe_pure trivial

end

theorem discriminator?_of_isIntegral {s : Scalar} (h : s.primitive.isIntegral = true) :
    ∃ d, s.discriminator? = some d := by
  cases s with
  | float32 n => cases h
  | float64 n => cases h
  | _ => exact ⟨_, rfl⟩

theorem yields_enumeration {schema : Schema} {src : Source} (levels : Nat) (field : String)
    {i : Fin schema.size} {e : EnumType} (hbody : (schema.get i).body = .enumeration e) :
    Yields (readType schema src levels field i) fun v => ∃ n, v = .enumeration n := by
  cases levels with
  | zero => exact yields_throw _
  | succ levels =>
    simp only [readType, hbody]
    refine yields_bind (yields_any _) fun s _ => ?_
    cases s with
    | int32 n => exact yields_pure ⟨n, rfl⟩
    | _ => exact yields_throw _

/-- What is read for a discriminator stands for one. -/
theorem yields_discriminator {schema : Schema} {src : Source} (levels : Nat) (field : String)
    {t : MemberType schema.size} (h : schema.IsDiscriminator t) :
    Yields (readValue schema src (readType schema src levels) field t)
      fun v => ∃ d, discriminatorOf? v = some d := by
  cases t with
  | primitive p =>
    refine yields_bind (Source.yields_scalar field p) fun s hs => ?_
    obtain ⟨rfl, -⟩ := hs
    exact yields_pure (discriminator?_of_isIntegral h)
  | type i =>
    obtain ⟨e, hbody⟩ := h
    intro c v after hrun
    obtain ⟨n, rfl⟩ := yields_enumeration levels field hbody c v after hrun
    exact ⟨_, rfl⟩
  | _ => exact h.elim

theorem safe_readType {schema : Schema} (hschema : schema.WellFormed) (src : Source) (levels : Nat)
    (field : String) (i : Fin schema.size) :
    Safe schema src.encoding.repr (readType schema src levels field i) fun _ => True := by
  induction levels generalizing field i with
  | zero => exact safe_throw .depthExceeded
  | succ levels ih =>
    have hframes : src.encoding.repr.isDelimited (schema.get i).extensibility = true →
        schema.Frames src.encoding.repr (schema.get i).full := by
      intro hframed
      obtain ⟨hrepr, hopen⟩ := (Representation.isDelimited_iff _ _).1 hframed
      exact ⟨hrepr, i, rfl, hopen⟩
    cases hbody : (schema.get i).body with
    | struct s =>
      rw [readType_struct hbody]
      refine safe_inFrame hframes fun framed => ?_
      exact safe_bind (safe_readMembers ih framed _ []) fun _ _ => safe_pure trivial
    | union u =>
      rw [readType_union hbody]
      refine safe_inFrame hframes fun framed => ?_
      exact safe_readUnionBody ih _ framed
        (yields_discriminator levels _ (hschema.discriminators i u hbody))
    | enumeration e =>
      simp only [readType, hbody]
      refine safe_bind (src.safe_scalar field .int32) fun s hs => ?_
      cases s with
      | int32 n => exact safe_pure trivial
      | _ => cases hs

/-! ## Counts -/

/-- A count that is read has four bytes. -/
theorem Source.word_lt {src : Source} {field : String} {c after : Cursor} {n : Nat}
    (h : (src.word field).run c = .ok n after) : n < 0x100000000 := by
  obtain ⟨rfl, -⟩ := word_eq_ok h
  refine Nat.lt_of_lt_of_le (src.encoding.order.decode_lt _) ?_
  rw [Nat.one_shiftLeft, Array.length_toList, Array.size_extract]
  exact Nat.pow_le_pow_right (by decide) (by omega : _ ≤ 32)

/-- As many elements are read as a count of four bytes can say. -/
theorem Reaches.count_lt {schema : Schema} {src : Source} {i : Fin schema.size} {limit : Limit}
    {ends : List Nat} {levels count : Nat} {field : String} {element : MemberType schema.size}
    {c : Cursor} (h : Reaches schema src i limit ends (.items levels field element count) c) :
    count < 0x100000000 := by
  generalize hcall : Call.items levels field element count = call at h
  induction h generalizing count with
  | sequenceItems _ counted =>
    cases hcall
    exact Source.word_lt counted
  | @arrayItems _ _ _ _ length =>
    cases hcall
    exact length.toNat_lt
  | nextItems _ _ _ ih =>
    cases hcall
    exact Nat.lt_of_succ_lt (ih rfl)
  | _ => cases hcall

/-- The bytes of a run of elements are counted without overflow. -/
theorem Reaches.run_size_le {schema : Schema} {src : Source} {i : Fin schema.size} {limit : Limit}
    {ends : List Nat} {levels count : Nat} {field : String} {element : MemberType schema.size}
    {c : Cursor} (h : Reaches schema src i limit ends (.items levels field element count) c)
    (p : Primitive) : count * p.size ≤ maxByteCount := by
  have hsize : p.size ≤ 8 := by cases p <;> decide
  have hcount := Nat.mul_le_mul (Nat.le_of_lt h.count_lt) hsize
  exact Nat.le_trans hcount (by decide)

/-! ## Schemas that were compiled -/

namespace Schema

variable {schema : Schema} {i : Fin schema.size}

theorem readFault_of_decode (hschema : schema.WellFormed) {src : Source} {limit : Limit}
    {fault : WireError} (h : (schema.decode src i limit).result = .error fault) :
    ReadFault schema src.encoding.repr fault ∨ fault = .sizeLimit ∧ limit ≠ .infinite := by
  have hsafe := safe_readType hschema src maxDepth "" i (src.start limit) nofun
  have hfault : ReadFault schema src.encoding.repr fault ∨ fault = .sizeLimit := by
    simp only [decode, read, outcome] at h
    cases hrun : (readType schema src maxDepth "" i).run (src.start limit) with
    | ok v after =>
      rw [hrun] at h
      cases h
    | error other after =>
      rw [hrun] at h hsafe
      cases h
      exact hsafe
  refine hfault.imp_right fun hlimit => ⟨hlimit, ?_⟩
  rintro rfl
  exact decode_unlimited src i (hlimit ▸ h)

theorem parse_eq_error {bytes : List UInt8} {fault : WireError}
    (h : Header.parse bytes = .error fault) :
    (fault = .truncated "encapsulation" 0 headerSize bytes.length ∧ bytes.length < headerSize) ∨
      ∃ first second, fault = .encapsulation first second := by
  unfold Header.parse at h
  split at h
  next first second _ _ _ =>
    refine .inr ⟨first, second, ?_⟩
    split at h
    · split at h
      · cases h
      · cases h
        rfl
    · cases h
      rfl
  next hfew =>
    cases h
    refine .inl ⟨rfl, Nat.lt_of_not_le fun hlong => ?_⟩
    match bytes, hlong with
    | first :: second :: third :: fourth :: rest, _ => exact hfew first second third fourth rest rfl

/-- What a payload is refused for: its header, the limit, or what its body is refused for. -/
theorem refused_of_deserialize {limit : Limit} {bytes : Array UInt8} {fault : WireError}
    (h : (schema.deserialize limit i bytes).result = .error fault) :
    (fault = .truncated "encapsulation" 0 headerSize bytes.size ∧ bytes.size < headerSize) ∨
    (∃ first second, fault = .encapsulation first second) ∨
    (fault = .sizeLimit ∧ limit ≠ .infinite) ∨
    ∃ header left, Header.parse (bytes.extract 0 headerSize).toList = .ok header ∧
      (limit = .infinite → left = .infinite) ∧
      (schema.decode ⟨bytes.extract headerSize bytes.size, header.encoding, 0⟩ i left).result =
        .error fault := by
  cases hparse : Header.parse (bytes.extract 0 headerSize).toList with
  | error other =>
    rw [deserialize_of_parse_error limit hparse] at h
    cases h
    rcases parse_eq_error hparse with ⟨rfl, hshort⟩ | hother
    · have hlength : (bytes.extract 0 headerSize).toList.length = min headerSize bytes.size := by
        rw [Array.length_toList, Array.size_extract, Nat.sub_zero]
      rw [hlength] at hshort ⊢
      have hsize : bytes.size < headerSize := by omega
      exact .inl ⟨by rw [Nat.min_eq_right (Nat.le_of_lt hsize)], hsize⟩
    · exact .inr (.inl hother)
  | ok header =>
    cases hcharge : limit.charge headerSize with
    | error other =>
      have hother : other = fault := by
        simp only [deserialize, hparse, hcharge] at h
        cases h
        rfl
      subst hother
      cases limit with
      | infinite => cases hcharge
      | bounded n =>
        have hbounded : Limit.bounded n ≠ .infinite := by
          intro h
          cases h
        rw [Limit.charge] at hcharge
        split at hcharge
        · cases hcharge
        · cases hcharge
          exact .inr (.inr (.inl ⟨rfl, hbounded⟩))
    | ok left =>
      rw [deserialize_of_charge hparse hcharge] at h
      refine .inr (.inr (.inr ⟨header, left, rfl, ?_, map_eq_error h⟩))
      rintro rfl
      cases hcharge
      rfl

/-- A read of a compiled type fails with faults of reads only, which name a framed type where a body
    is overrun, and under a limit with that of the limit. The same holds of payloads, which may also
    be refused for their header. No call on the way fails with another fault that an optional member
    might keep to itself, and no count of bytes on the way overflows. -/
theorem read_faults {doc : Document} {schema : Schema} (hcompile : doc.compile = .ok schema)
    (i : Fin schema.size) :
    (∀ src limit fault, (schema.decode src i limit).result = .error fault →
      ReadFault schema src.encoding.repr fault ∨ fault = .sizeLimit ∧ limit ≠ .infinite) ∧
    (∀ limit (bytes : Array UInt8) fault, (schema.deserialize limit i bytes).result = .error fault →
      (∃ header, Header.parse (bytes.extract 0 headerSize).toList = .ok header ∧
        ReadFault schema header.encoding.repr fault) ∨
      (fault = .truncated "encapsulation" 0 headerSize bytes.size ∧ bytes.size < headerSize) ∨
      (∃ first second, fault = .encapsulation first second) ∨
      fault = .sizeLimit ∧ limit ≠ .infinite) ∧
    (∀ src limit ends call c fault after, Reaches schema src i limit ends call c →
      (call.run schema src).run c = .error fault after →
      fault.isShort = true ∨ ReadFault schema src.encoding.repr fault ∨ fault = .sizeLimit) ∧
    ∀ src limit ends levels field element count c,
      Reaches schema src i limit ends (.items levels field element count) c →
      ∀ p : Primitive, count * p.size ≤ maxByteCount := by
  have hschema := wellFormed_of_compile hcompile
  refine ⟨?bodies, ?payloads, ?calls, ?counts⟩
  case bodies =>
    intro src limit fault h
    exact readFault_of_decode hschema h
  case payloads =>
    intro limit bytes fault h
    rcases refused_of_deserialize h with hshort | hheader | hlimit |
      ⟨header, left, hparse, hleft, hbody⟩
    · exact .inr (.inl hshort)
    · exact .inr (.inr (.inl hheader))
    · exact .inr (.inr (.inr hlimit))
    · rcases readFault_of_decode hschema hbody with hfault | ⟨hfault, hbounded⟩
      · exact .inl ⟨header, hparse, hfault⟩
      · exact .inr (.inr (.inr ⟨hfault, fun hinfinite => hbounded (hleft hinfinite)⟩))
  case calls =>
    intro src limit ends call c fault after hcall hrun
    cases hshort : fault.isShort with
    | true => exact .inl rfl
    | false =>
      have hread : Fails (schema.read src "" i) (src.start limit) fault :=
        hcall.surfaces hshort (.of_run hrun)
      have hdecode : (schema.decode src i limit).result = .error fault := by
        unfold Fails at hread
        simp only [decode, hread]
        rfl
      exact .inr ((readFault_of_decode hschema hdecode).imp_right And.left)
  case counts =>
    intro src limit ends levels field element count c hcall p
    exact hcall.run_size_le p

/-- A body of two bytes is too short for a level, which the bytes behind the body would complete. -/
theorem read_faults_gauge :
    let src : Source := ⟨#[2, 0, 0, 0, 1, 0, 9, 9], ⟨.xcdr2, .little⟩, 0⟩
    let top : Fin gauge.size := ⟨0, by decide⟩
    gaugeDoc.compile = .ok gauge ∧
      (gauge.decode src top .infinite).result = .error (.overrun "Gauge" 6 8) ∧
      ReadFault gauge .xcdr2 (.overrun "Gauge" 6 8) := by
  intro src top
  have hcompile : gaugeDoc.compile = .ok gauge := by decide +kernel
  have hdecode : (gauge.decode src top .infinite).result = .error (.overrun "Gauge" 6 8) := by
    cbv
  obtain ⟨hbodies, -⟩ := read_faults hcompile top
  rcases hbodies src .infinite _ hdecode with hfault | ⟨hfault, -⟩
  · exact ⟨hcompile, hdecode, hfault⟩
  · cases hfault

end Schema

end Cdr
