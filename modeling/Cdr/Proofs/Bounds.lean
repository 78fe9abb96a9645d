import Cdr.Proofs.ConformingSize

/-! # Bounds of what was read

A reader holds sequences to their bounds, but a text only to one byte more: it takes the last of the
bytes that are counted on the wire for a terminator before it has seen whether there is one. A text
without a terminator that fills its bound and the byte behind it is read, and refused when it is
to be written.
-/

namespace Cdr

open ReadM SizeRules

/-- A text within its bound, or one byte longer and not ending in a zero. -/
def NearBound (bound : Option UInt32) (text : String) : Prop :=
  ∀ most, bound = some most → text.utf8ByteSize ≤ most.toNat ∨
    text.utf8ByteSize = most.toNat + 1 ∧ (Text.utf8 text).getLast? ≠ some 0

mutual

/-- The values of a type whose sequences are within their bounds, at every node, and whose texts are
    near theirs. -/
inductive KeepsBounds (schema : Schema) : MemberType schema.size → Value → Prop where
  | primitive {p : Primitive} {s : Scalar} : KeepsBounds schema (.primitive p) (.scalar s)
  | string {bound : Option UInt32} {text : String} (near : NearBound bound text) :
    KeepsBounds schema (.string bound) (.string text)
  | fixedString {capacity : UInt32} {text : String} :
    KeepsBounds schema (.fixedString capacity) (.string text)
  | sequence {element : MemberType schema.size} {bound : Option UInt32} {items : List Value}
    (few : ∀ most, bound = some most → items.length ≤ most.toNat)
    (each : ∀ v ∈ items, KeepsBounds schema element v) :
    KeepsBounds schema (.sequence element bound) (.sequence items)
  | array {element : MemberType schema.size} {length : UInt32} {items : List Value}
    (each : ∀ v ∈ items, KeepsBounds schema element v) :
    KeepsBounds schema (.array element length) (.sequence items)
  | struct {i : Fin schema.size} {s : StructType schema.size} {fields : Entries Value}
    (body : (schema.get i).body = .struct s) (accounted : Accounted schema s.members fields) :
    KeepsBounds schema (.type i) (.struct fields)
  | arm {i : Fin schema.size} {u : UnionType schema.size} {d : Int64}
    {selected : UnionArm schema.size} {v : Value} (body : (schema.get i).body = .union u)
    (select : u.select d = some selected) (keeps : KeepsBounds schema selected.member.type v) :
    KeepsBounds schema (.type i) (.union d (some (selected.member.name, v)))
  | noArm {i : Fin schema.size} {u : UnionType schema.size} {d : Int64}
    (body : (schema.get i).body = .union u) : KeepsBounds schema (.type i) (.union d none)
  | enumeration {i : Fin schema.size} {e : EnumType} {n : Int32}
    (body : (schema.get i).body = .enumeration e) : KeepsBounds schema (.type i) (.enumeration n)

/-- Entries that are each the value of a member with their name. -/
inductive Accounted (schema : Schema) : List (Member schema.size) → Entries Value → Prop where
  | nil {ms : List (Member schema.size)} : Accounted schema ms []
  | cons {ms : List (Member schema.size)} {m : Member schema.size} {v : Value}
    {rest : Entries Value} (mem : m ∈ ms) (keeps : KeepsBounds schema m.type v)
    (others : Accounted schema ms rest) : Accounted schema ms ((m.name, v) :: rest)

end

namespace Entries

theorem mem_insert {α : Type} {entries : Entries α} {name : String} {value : α}
    {entry : String × α} (h : entry ∈ insert name value entries) :
    entry = (name, value) ∨ entry ∈ entries := by
  induction entries with
  | nil => exact .inl (List.mem_singleton.1 h)
  | cons first rest ih =>
    unfold insert at h
    split at h
    · exact List.mem_cons.1 h
    · split at h
      · exact (List.mem_cons.1 h).imp id (List.mem_cons_of_mem first)
      · rcases List.mem_cons.1 h with rfl | h
        · exact .inr List.mem_cons_self
        · exact (ih h).imp id (List.mem_cons_of_mem first)

theorem mem_of_get? {α : Type} {entries : Entries α} {name : String} {value : α}
    (h : entries.get? name = some value) : (name, value) ∈ entries := by
  obtain ⟨entry, hfind, rfl⟩ := Option.map_eq_some_iff.1 h
  have hname : entry.1 = name := by simpa using List.find?_some hfind
  subst hname
  exact List.mem_of_find?_eq_some hfind

end Entries

section

variable {schema : Schema} {ms : List (Member schema.size)} {m : Member schema.size}
  {fields : Entries Value}

theorem accounted_iff : Accounted schema ms fields ↔
    ∀ entry ∈ fields, ∃ m ∈ ms, m.name = entry.1 ∧ KeepsBounds schema m.type entry.2 := by
  induction fields with
  | nil => exact ⟨fun _ => nofun, fun _ => .nil⟩
  | cons entry rest ih =>
    rw [List.forall_mem_cons, ← ih]
    constructor
    · intro h
      cases h with
      | cons mem keeps others => exact ⟨⟨_, mem, rfl, keeps⟩, others⟩
    · obtain ⟨name, v⟩ := entry
      rintro ⟨⟨m, mem, rfl, keeps⟩, others⟩
      exact .cons mem keeps others

theorem Accounted.insert (h : Accounted schema ms fields) (hm : m ∈ ms) {v : Value}
    (hv : KeepsBounds schema m.type v) :
    Accounted schema ms (Entries.insert m.name v fields) := by
  refine accounted_iff.2 fun entry hmem => ?_
  rcases Entries.mem_insert hmem with rfl | hold
  · exact ⟨m, hm, rfl, hv⟩
  · exact accounted_iff.1 h entry hold

theorem Accounted.insertAll {chosen : List (Member schema.size)} {f : MemberType schema.size → Value}
    (hchosen : ∀ m ∈ chosen, m ∈ ms ∧ KeepsBounds schema m.type (f m.type))
    (h : Accounted schema ms fields) :
    Accounted schema ms (Entries.insertAll (chosen.map fun m => (m.name, f m.type)) fields) := by
  induction chosen generalizing fields with
  | nil => exact h
  | cons first rest ih =>
    obtain ⟨⟨hm, hv⟩, hrest⟩ := List.forall_mem_cons.1 hchosen
    exact ih hrest (h.insert hm hv)

/-! ## Defaults -/

theorem keepsBounds_defaultWith {p : Fin schema.size → Prop} {f : Fin schema.size → Value}
    (hf : ∀ i, p i → KeepsBounds schema (.type i) (f i)) {t : MemberType schema.size}
    (ht : t.GroundedWith p) : KeepsBounds schema t (t.defaultWith f) := by
  induction t with
  | primitive q => exact .primitive
  | string bound => exact .string fun _ _ => .inl (Nat.zero_le _)
  | fixedString capacity => exact .fixedString
  | sequence element bound => exact .sequence (fun _ _ => Nat.zero_le _) nofun
  | array element length ih =>
    refine .array fun v hv => ?_
    obtain ⟨hsome, rfl⟩ := List.mem_replicate.1 hv
    exact ih (ht.resolve_left hsome)
  | type i => exact hf i ht

theorem keepsBounds_defaultWithin (levels : Nat) (i : Fin schema.size)
    (h : schema.GroundedWithin levels i) :
    KeepsBounds schema (.type i) (schema.defaultWithin levels i) := by
  induction levels generalizing i with
  | zero => exact h.elim
  | succ levels ih =>
    simp only [Schema.GroundedWithin, Schema.defaultWithin] at h ⊢
    cases hbody : (schema.get i).body with
    | struct s =>
      rw [hbody] at h
      refine .struct hbody (Accounted.insertAll (fun m hm => ?_) .nil)
      obtain ⟨hmem, hrequired⟩ := List.mem_filter.1 hm
      refine ⟨hmem, keepsBounds_defaultWith ih (h m hmem ?_)⟩
      simpa using hrequired
    | union u => exact .noArm hbody
    | enumeration e => exact .enumeration hbody

theorem keepsBounds_default (hschema : schema.WellFormed) (t : MemberType schema.size) :
    KeepsBounds schema t (schema.default t) := by
  have hground : t.GroundedWith (schema.GroundedWithin schema.size) :=
    MemberType.groundedWith_of_embedded fun i _ => hschema.grounded i
  exact keepsBounds_defaultWith (keepsBounds_defaultWithin schema.size) hground

end

/-! ## Reading -/

/-- The text in as many bytes as a bound allows with a terminator is near the bound, with or without
    one. -/
theorem nearBound_of_readUtf8 {field : String} {bound : Option UInt32} {count : Nat}
    {bytes : List UInt8} {text : String} (hcheck : checkBound field (count - 1) bound = .ok ())
    (hbytes : bytes.length ≤ count) (htext : Text.readUtf8 (dropTerminator bytes) = .ok text) :
    NearBound bound text := by
  intro most hbound
  have hcount : count - 1 ≤ most.toNat := checkBound_eq_ok hcheck hbound
  rw [Text.utf8ByteSize_of_readUtf8 htext, Text.utf8_of_readUtf8 htext]
  by_cases hzero : bytes.getLast? = some 0
  · left
    rw [dropTerminator, if_pos hzero, List.length_dropLast]
    omega
  · rw [dropTerminator, if_neg hzero]
    by_cases hlength : bytes.length ≤ most.toNat
    · exact .inl hlength
    · exact .inr ⟨by omega, hzero⟩

section

variable {schema : Schema} {src : Source} {readType : String → Fin schema.size → ReadM Value}
  (htype : ∀ field i, Yields (readType field i) (KeepsBounds schema (.type i)))

include htype

theorem bounds_readValue (field : String) (t : MemberType schema.size) :
    Yields (readValue schema src readType field t) (KeepsBounds schema t) := by
  have hrun : ∀ (element : MemberType schema.size) (s : Scalar),
      element.blittable? = some s.primitive → KeepsBounds schema element (.scalar s) := by
    intro element s hrun
    obtain ⟨rfl, -⟩ := MemberType.eq_of_blittable? hrun
    exact .primitive
  induction t with
  | primitive p => exact yields_bind (yields_any _) fun s _ => yields_pure .primitive
  | string bound =>
    refine yields_bind (yields_any _) fun count _ => ?_
    split
    · exact yields_pure (.string fun _ _ => .inl (Nat.zero_le _))
    · refine yields_bind (P := fun _ => checkBound field (count - 1) bound = .ok ())
        (yields_ofExcept fun _ hcheck => hcheck) fun _ hcheck => ?_
      refine yields_bind (Source.length_take_le field count) fun bytes hbytes c v after hread => ?_
      obtain ⟨text, rfl, htext⟩ := Source.yields_text _ c v after hread
      exact .string (nearBound_of_readUtf8 hcheck hbytes htext)
  | fixedString capacity =>
    refine yields_bind (yields_any _) fun bytes _ c v after hread => ?_
    obtain ⟨text, rfl, -⟩ := Source.yields_text _ c v after hread
    exact .fixedString
  | sequence element bound ih =>
    refine yields_bind (yields_any _) fun count _ => ?_
    refine yields_bind (P := fun _ => ∀ most, bound = some most → count ≤ most.toNat)
      (yields_ofExcept fun _ hcheck _ hmost => checkBound_eq_ok hcheck hmost) fun _ hfew => ?_
    refine yields_bind (yields_any _) fun _ _ c v after hread => ?_
    obtain ⟨items, rfl, rfl, hitems⟩ :=
      Source.yields_elements ih field (fun s h _ => hrun element s h) count c v after hread
    exact .sequence hfew hitems
  | array element length ih =>
    intro c v after hread
    obtain ⟨items, rfl, -, hitems⟩ :=
      Source.yields_elements ih field (fun s h _ => hrun element s h) length.toNat c v after hread
    exact .array hitems
  | type i => exact htype field i

theorem bounds_readOptional (m : Member schema.size) :
    Yields (readOptional schema src readType m) fun found =>
      ∀ v, found = some v → KeepsBounds schema m.type v :=
  yields_optional m (bounds_readValue htype m.name m.type)

variable (hschema : schema.WellFormed)

include hschema

/-- What is read into entries is the value of a member with their name, whether it is read or gets its
    default. -/
theorem bounds_readMembers (framed : Bool) {all ms : List (Member schema.size)}
    {fields : Entries Value} (hms : ∀ m ∈ ms, m ∈ all) (h : Accounted schema all fields) :
    Yields (readMembers schema src readType framed ms fields) (Accounted schema all) := by
  induction ms generalizing fields with
  | nil => exact yields_pure h
  | cons m rest ih =>
    obtain ⟨hm, hrest⟩ := List.forall_mem_cons.1 hms
    unfold readMembers
    refine yields_bind (yields_any _) fun ended _ => ?_
    split
    · -- The body has ended.
      cases m.optional with
      | true => exact ih hrest h
      | false => exact ih hrest (h.insert hm (keepsBounds_default hschema m.type))
    · split
      · refine yields_bind (bounds_readOptional htype m) fun found hfound => ?_
        cases found with
        | some v => exact ih hrest (h.insert hm (hfound v rfl))
        | none => exact ih hrest h
      · refine yields_bind (bounds_readValue htype m.name m.type) fun v hv => ?_
        exact ih hrest (h.insert hm hv)

theorem bounds_readStruct (typeName : String) (extensibility : Extensibility)
    {i : Fin schema.size} {s : StructType schema.size} (hbody : (schema.get i).body = .struct s) :
    Yields (readStruct schema src readType typeName extensibility s)
      (KeepsBounds schema (.type i)) := by
  refine yields_bind (yields_any _) fun frame _ => ?_
  have hwire : ∀ m ∈ s.wireMembers, m ∈ s.members := fun m => s.perm_wireMembers.mem_iff.1
  refine yields_bind (bounds_readMembers htype hschema frame.isSome hwire .nil) fun fields h => ?_
  refine yields_bind (yields_any _) fun _ _ => ?_
  exact yields_pure (.struct hbody h)

theorem bounds_readUnion (typeName : String) (extensibility : Extensibility)
    {i : Fin schema.size} {u : UnionType schema.size} (hbody : (schema.get i).body = .union u) :
    Yields (readUnion schema src readType typeName extensibility u)
      (KeepsBounds schema (.type i)) := by
  have harm : ∀ framed d, Yields (readArm schema src readType typeName framed u d) fun arm =>
      KeepsBounds schema (.type i) (.union d arm) := by
    intro framed d
    unfold readArm
    cases hselect : u.select d with
    | none => exact yields_bind (yields_any _) fun _ _ => yields_pure (.noArm hbody)
    | some selected =>
      refine yields_bind (yields_any _) fun ended _ => ?_
      split
      · exact yields_pure (.arm hbody hselect (keepsBounds_default hschema _))
      · refine yields_bind (bounds_readValue htype _ _) fun v hv => ?_
        exact yields_pure (.arm hbody hselect hv)
  refine yields_bind (yields_any _) fun frame _ => ?_
  refine yields_bind (yields_any _) fun ended _ => ?_
  split
  · exact yields_bind (yields_any _) fun _ _ => yields_pure (.noArm hbody)
  · refine yields_bind (yields_any _) fun disc _ => ?_
    cases discriminatorOf? disc with
    | none => exact yields_throw _
    | some d =>
      refine yields_bind (harm frame.isSome d) fun arm hkeeps => ?_
      exact yields_bind (yields_any _) fun _ _ => yields_pure hkeeps

end

theorem bounds_readType {schema : Schema} (hschema : schema.WellFormed) (src : Source)
    (levels : Nat) (field : String) (i : Fin schema.size) :
    Yields (readType schema src levels field i) (KeepsBounds schema (.type i)) := by
  induction levels generalizing field i with
  | zero => exact yields_throw _
  | succ levels ih =>
    cases hbody : (schema.get i).body with
    | struct s =>
      simp only [readType, hbody]
      exact bounds_readStruct ih hschema _ _ hbody
    | union u =>
      simp only [readType, hbody]
      exact bounds_readUnion ih hschema _ _ hbody
    | enumeration e =>
      simp only [readType, hbody]
      refine yields_bind (yields_any _) fun s _ => ?_
      cases s with
      | int32 n => exact yields_pure (.enumeration hbody)
      | _ => exact yields_throw _

/-! ## Writing again -/

theorem KeepsBounds.of_arm {schema : Schema} {i : Fin schema.size} {u : UnionType schema.size}
    {d : Int64} {name : String} {v : Value} (hbody : (schema.get i).body = .union u)
    (h : KeepsBounds schema (.type i) (.union d (some (name, v)))) :
    ∃ selected, u.select d = some selected ∧ KeepsBounds schema selected.member.type v := by
  cases h with
  | arm body select keeps =>
    rw [hbody] at body
    cases body
    exact ⟨_, select, keeps⟩

/-- A text in a value that keeps its bounds is near its own. -/
theorem KeepsBounds.near_of_within {schema : Schema} (hnames : schema.DistinctNames)
    {name : String} {bound : Option UInt32} {text field : String} {t : MemberType schema.size}
    {v : Value} (hwithin : Within schema name (.string bound) (.string text) field t v)
    (h : KeepsBounds schema t v) : NearBound bound text := by
  induction hwithin with
  | here =>
    cases h with
    | string near => exact near
  | sequence mem within ih =>
    cases h with
    | sequence few each => exact ih (each _ mem)
  | array mem within ih =>
    cases h with
    | array each => exact ih (each _ mem)
  | @member field i s fields m v body mem entry within ih =>
    cases h with
    | struct body' accounted =>
      rw [body] at body'
      cases body'
      obtain ⟨other, hother, hname, hkeeps⟩ :=
        accounted_iff.1 accounted _ (Entries.mem_of_get? entry)
      have hsame : other = m :=
        List.inj_on_of_nodup_map (hnames.nodup body) hother mem hname
      subst hsame
      exact ih hkeeps
  | arm body select within ih =>
    obtain ⟨selected, select', keeps⟩ := h.of_arm body
    rw [select] at select'
    cases select'
    exact ih keeps

namespace Schema

variable {schema : Schema} {i : Fin schema.size} {v : Value}

theorem run_of_sizeOf {rules : SizeRules} {offset : Nat} {fault : WireError}
    (h : schema.sizeOf rules i v offset = .error fault) :
    (addType schema rules maxDepth "" i v).run ⟨offset, 0⟩ = .error fault := by
  simp only [sizeOf] at h
  cases hrun : (addType schema rules maxDepth "" i v).run ⟨offset, 0⟩ with
  | ok result =>
    simp only [StateT.run] at hrun
    rw [hrun] at h
    cases h
  | error other =>
    simp only [StateT.run] at hrun
    rw [hrun] at h
    cases h
    rfl

/-- A writer minds a bound only when sizing does. -/
theorem sizeOf_of_encode {e : Encoding} {bytes : Array UInt8} {offset : Nat} {field : String}
    {count : Nat} {bound : UInt32}
    (h : (schema.encode e (.appendingTo bytes) i v offset).1 =
      .error (.boundExceeded field count bound)) :
    schema.sizeOf (unlimited e.repr) i v offset = .error (.boundExceeded field count bound) := by
  cases himage : schema.image e i v offset with
  | ok b =>
    rw [schema.encode_of_image e i v bytes himage] at h
    cases h
  | error obstacle =>
    obtain ⟨rest, hencode⟩ := schema.encode_of_obstacle e i v bytes himage
    rw [hencode] at h
    have herror : obstacle.error = .boundExceeded field count bound := Except.error.inj h
    rcases schema.sizeOf_of_obstacle e i v himage with honly | hsize
    · cases obstacle with
      | refused fault => exact honly.elim
      | _ => cases herror
    · rw [hsize, herror]

/-- Whatever bytes a compiled schema reads, the sequences in the value are within their bounds, and
    the texts as well but for those of one byte more that had no terminator. Where names are distinct
    in each struct, such a text is also the only thing whose bound sizing and writing the value can
    find exceeded. -/
theorem decode_keeps_bounds (doc : Document) (schema : Schema) (hcompile : doc.compile = .ok schema)
    (src : Source) (limit : Limit) (i : Fin schema.size) (v : Value) (n : Nat)
    (hread : (schema.decode src i limit).result = .ok (v, n)) :
    KeepsBounds schema (.type i) v ∧
      (schema.DistinctNames → ∀ field count bound,
        ((∃ repr offset, schema.sizeOf (unlimited repr) i v offset =
            .error (.boundExceeded field count bound)) ∨
          ∃ e bytes offset, (schema.encode e (.appendingTo bytes) i v offset).1 =
            .error (.boundExceeded field count bound)) →
        ∃ text, Within schema field (.string (some bound)) (.string text) "" (.type i) v ∧
          count = text.utf8ByteSize ∧ count = bound.toNat + 1 ∧
            (Text.utf8 text).getLast? ≠ some 0) := by
  have hschema := wellFormed_of_compile hcompile
  obtain ⟨after, hrun⟩ := run_of_decode hread
  have hkeeps : KeepsBounds schema (.type i) v :=
    bounds_readType hschema src maxDepth "" i _ _ _ hrun
  refine ⟨hkeeps, ?_⟩
  intro hnames field count bound hrefused
  have hconforms : Conforms schema (.type i) v :=
    yields_readType hschema hnames src maxDepth "" i _ _ _ hrun
  have hsize : ∃ repr offset, schema.sizeOf (unlimited repr) i v offset =
      .error (.boundExceeded field count bound) := by
    rcases hrefused with hsize | ⟨e, bytes, offset, hencode⟩
    · exact hsize
    · exact ⟨e.repr, offset, sizeOf_of_encode hencode⟩
  obtain ⟨repr, offset, hsize⟩ := hsize
  rcases failsOnly_addType hschema hnames repr maxDepth "" i v hconforms _ _
    (run_of_sizeOf hsize) with ⟨deep, hdeep⟩ | ⟨name, text, most, hwithin, hlong, hfault⟩
  · cases hdeep
  · cases hfault
    refine ⟨text, hwithin, rfl, ?_⟩
    rcases hkeeps.near_of_within hnames hwithin bound rfl with hshort | hnear
    · omega
    · exact hnear

/-- The label is read although it is longer than its bound, and what the bound finds wrong with it is
    the last byte that is no terminator. -/
theorem decode_keeps_bounds_label :
    let label : Fin labels.size := ⟨0, by decide⟩
    let src : Source := ⟨#[3, 0, 0, 0, 0x61, 0x62, 0x63], ⟨.xcdr2, .little⟩, 0⟩
    let v : Value := .struct [("text", .string "abc")]
    (labels.decode src label .infinite).result = .ok (v, 7) ∧ KeepsBounds labels (.type label) v ∧
      ∃ text, Within labels "text" (.string (some 2)) (.string text) "" (.type label) v ∧
        3 = text.utf8ByteSize ∧ (Text.utf8 text).getLast? ≠ some 0 := by
  intro label src v
  have hcompile : labelDoc.compile = .ok labels := by decide +kernel
  have hnames : labels.DistinctNames := by decide +kernel
  have hread : (labels.decode ⟨#[3, 0, 0, 0, 0x61, 0x62, 0x63], ⟨.xcdr2, .little⟩, 0⟩
      ⟨0, by decide⟩ .infinite).result = .ok (.struct [("text", .string "abc")], 7) := by rfl
  have hsize : labels.sizeOf (unlimited .xcdr2) label v 0 = .error (.boundExceeded "text" 3 2) := by
    decide +kernel
  obtain ⟨hkeeps, hrefused⟩ :=
    decode_keeps_bounds labelDoc labels hcompile src .infinite label v 7 hread
  obtain ⟨text, hwithin, hcount, -, hlast⟩ :=
    hrefused hnames "text" 3 2 (.inl ⟨.xcdr2, 0, hsize⟩)
  exact ⟨hread, hkeeps, text, hwithin, hcount, hlast⟩

/-- Not every text that is read is within its bound, nor can everything be written that is read. -/
theorem bound_exceeded_without_terminator :
    ¬∀ (doc : Document) (schema : Schema) (src : Source) (i : Fin schema.size) (v : Value) (n : Nat),
      doc.compile = .ok schema → (schema.decode src i .infinite).result = .ok (v, n) →
        (∀ name bound text, Within schema name (.string (some bound)) (.string text) "" (.type i) v →
          text.utf8ByteSize ≤ bound.toNat) ∧
        ∀ field count bound, schema.sizeOf (unlimited src.encoding.repr) i v src.origin ≠
          .error (.boundExceeded field count bound) := by
  intro hall
  have hread : (labels.decode ⟨#[3, 0, 0, 0, 0x61, 0x62, 0x63], ⟨.xcdr2, .little⟩, 0⟩
      ⟨0, by decide⟩ .infinite).result = .ok (.struct [("text", .string "abc")], 7) := by rfl
  have hsize : labels.sizeOf (unlimited .xcdr2) ⟨0, by decide⟩ (.struct [("text", .string "abc")]) 0 =
      .error (.boundExceeded "text" 3 2) := by decide +kernel
  have hcompile : labelDoc.compile = .ok labels := by decide +kernel
  exact (hall labelDoc labels _ _ _ _ hcompile hread).2 "text" 3 2 hsize

end Schema

end Cdr
