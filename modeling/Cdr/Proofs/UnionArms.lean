import Cdr.Proofs.Discriminators
import Cdr.Proofs.ReadDepth

/-! # Arms of what was read

A union that is read has the arm that its discriminator selects, and none where it selects none. A
body that ends behind the discriminator leaves the arm its default. But a union of which nothing is
read, be it that its body is empty or that it stands in what a body does not reach, is the one with
the discriminator 0 and without an arm, whatever 0 selects.
-/

namespace Cdr

open ReadM

/-- The values of a type in which every union has the arm that its discriminator selects, and no arm
    if none is selected. A union of a type that is `Unarmed` may also be without the arm that the
    discriminator 0 selects. -/
inductive Coherent (schema : Schema) (Unarmed : Fin schema.size → Prop) :
    MemberType schema.size → Value → Prop where
  | primitive {p : Primitive} {s : Scalar} : Coherent schema Unarmed (.primitive p) (.scalar s)
  | string {bound : Option UInt32} {text : String} :
    Coherent schema Unarmed (.string bound) (.string text)
  | fixedString {capacity : UInt32} {text : String} :
    Coherent schema Unarmed (.fixedString capacity) (.string text)
  | sequence {element : MemberType schema.size} {bound : Option UInt32} {items : List Value}
    (each : ∀ v ∈ items, Coherent schema Unarmed element v) :
    Coherent schema Unarmed (.sequence element bound) (.sequence items)
  | array {element : MemberType schema.size} {length : UInt32} {items : List Value}
    (each : ∀ v ∈ items, Coherent schema Unarmed element v) :
    Coherent schema Unarmed (.array element length) (.sequence items)
  | struct {i : Fin schema.size} {s : StructType schema.size} {fields : Entries Value}
    (body : (schema.get i).body = .struct s)
    (member : ∀ entry ∈ fields, Member schema.size)
    (declared : ∀ entry h, member entry h ∈ s.members ∧ (member entry h).name = entry.1)
    (each : ∀ entry h, Coherent schema Unarmed (member entry h).type entry.2) :
    Coherent schema Unarmed (.type i) (.struct fields)
  | arm {i : Fin schema.size} {u : UnionType schema.size} {d : Int64}
    {selected : UnionArm schema.size} {v : Value} (body : (schema.get i).body = .union u)
    (select : u.select d = some selected)
    (held : Coherent schema Unarmed selected.member.type v) :
    Coherent schema Unarmed (.type i) (.union d (some (selected.member.name, v)))
  | noArm {i : Fin schema.size} {u : UnionType schema.size} {d : Int64}
    (body : (schema.get i).body = .union u) (select : u.select d = none) :
    Coherent schema Unarmed (.type i) (.union d none)
  | unread {i : Fin schema.size} {u : UnionType schema.size}
    (body : (schema.get i).body = .union u) (unarmed : Unarmed i) :
    Coherent schema Unarmed (.type i) (.union 0 none)
  | enumeration {i : Fin schema.size} {e : EnumType} {n : Int32}
    (body : (schema.get i).body = .enumeration e) :
    Coherent schema Unarmed (.type i) (.enumeration n)

section

variable {schema : Schema} {Unarmed : Fin schema.size → Prop} {i : Fin schema.size}

/-- A union in a coherent value is without an arm if and only if none is selected, unless it is one
    of which nothing was read. -/
theorem Coherent.arm_eq_none_iff {u : UnionType schema.size} {d : Int64}
    {arm : Option (String × Value)} (hbody : (schema.get i).body = .union u)
    (h : Coherent schema Unarmed (.type i) (.union d arm)) :
    (arm = none ↔ u.select d = none) ∨ Unarmed i ∧ d = 0 ∧ arm = none := by
  cases h with
  | arm body select =>
    rw [hbody] at body
    cases body
    rw [select]
    exact .inl (iff_of_false nofun nofun)
  | noArm body select =>
    rw [hbody] at body
    cases body
    exact .inl (iff_of_true rfl select)
  | unread body unarmed => exact .inr ⟨unarmed, rfl, rfl⟩

/-- Where the discriminator 0 selects no arm, unions of which nothing was read are no exception. -/
theorem Coherent.of_unselected {t : MemberType schema.size} {v : Value}
    (hzero : ∀ j u, Unarmed j → (schema.get j).body = .union u → u.select 0 = none)
    (h : Coherent schema Unarmed t v) : Coherent schema (fun _ => False) t v := by
  induction h with
  | primitive => exact .primitive
  | string => exact .string
  | fixedString => exact .fixedString
  | sequence each ih => exact .sequence ih
  | array each ih => exact .array ih
  | struct body member declared each ih => exact .struct body member declared ih
  | arm body select held ih => exact .arm body select ih
  | noArm body select => exact .noArm body select
  | unread body unarmed => exact .noArm body (hzero _ _ unarmed body)
  | enumeration body => exact .enumeration body

theorem coherent_of_nestsWith {t : MemberType schema.size} {v : Value}
    (h : t.NestsWith (fun j w => Coherent schema Unarmed (.type j) w) v) :
    Coherent schema Unarmed t v := by
  induction t generalizing v with
  | type j => exact h
  | primitive p =>
    cases v with
    | scalar s => exact .primitive
    | _ => exact h.elim
  | string bound =>
    cases v with
    | string text => exact .string
    | _ => exact h.elim
  | fixedString capacity =>
    cases v with
    | string text => exact .fixedString
    | _ => exact h.elim
  | sequence element bound ih =>
    cases v with
    | sequence items => exact .sequence fun item hitem => ih (h item hitem)
    | _ => exact h.elim
  | array element length ih =>
    cases v with
    | sequence items => exact .array fun item hitem => ih (h item hitem)
    | _ => exact h.elim

theorem coherent_struct {s : StructType schema.size} {fields : Entries Value}
    (hbody : (schema.get i).body = .struct s)
    (h : ∀ entry ∈ fields, ∃ m ∈ s.members, m.name = entry.1 ∧
      m.type.NestsWith (fun j w => Coherent schema Unarmed (.type j) w) entry.2) :
    Coherent schema Unarmed (.type i) (.struct fields) := by
  choose member hmem hname hnests using h
  exact .struct hbody member (fun entry hentry => ⟨hmem entry hentry, hname entry hentry⟩)
    fun entry hentry => coherent_of_nestsWith (hnests entry hentry)

end

namespace Schema

/-! ## Values of which nothing was read -/

/-- The types of which a reader may return the default, as nothing was read of them: those whose
    body may be empty, those that members are of which a body may not reach, and those of an arm
    that it may not reach. -/
inductive Supplied (schema : Schema) (repr : Representation) : Fin schema.size → Prop where
  | framed {i : Fin schema.size}
    (delimited : repr.isDelimited (schema.get i).extensibility = true) : Supplied schema repr i
  | member {i j : Fin schema.size} {s : StructType schema.size} {m : Member schema.size}
    (outer : Supplied schema repr i) (body : (schema.get i).body = .struct s)
    (mem : m ∈ s.members) (required : m.optional = false) (held : j ∈ m.type.embedded) :
    Supplied schema repr j
  | arm {i j : Fin schema.size} {u : UnionType schema.size} {selected : UnionArm schema.size}
    (delimited : repr.isDelimited (schema.get i).extensibility = true)
    (body : (schema.get i).body = .union u) (mem : selected ∈ u.arms)
    (held : j ∈ selected.member.type.embedded) : Supplied schema repr j

/-- The older representation frames no body, so everything is read. -/
theorem not_supplied_xcdr1 {schema : Schema} (i : Fin schema.size) :
    ¬schema.Supplied .xcdr1 i := by
  have hframes : ∀ extensibility, Representation.xcdr1.isDelimited extensibility ≠ true := by
    intro extensibility hframed
    obtain ⟨hrepr, -⟩ := (Representation.isDelimited_iff _ _).1 hframed
    cases hrepr
  intro h
  induction h with
  | framed delimited => exact hframes _ delimited
  | member _ _ _ _ _ ih => exact ih
  | arm delimited => exact hframes _ delimited

section

variable {schema : Schema} {repr : Representation}

/-- A default is made of defaults of the types that it holds by value. Its unions have no arm, and
    stand in types of which nothing was read. -/
theorem coherent_defaultWithin {levels : Nat} {i : Fin schema.size}
    (hchains : schema.ChainsWithin levels i) (h : schema.Supplied repr i) :
    Coherent schema (schema.Supplied repr) (.type i) (schema.defaultWithin levels i) := by
  induction levels generalizing i with
  | zero => exact hchains.elim
  | succ levels ih =>
    cases hbody : (schema.get i).body with
    | struct s =>
      simp only [defaultWithin, hbody]
      refine coherent_struct hbody fun entry hentry => ?_
      obtain ⟨m, hm, hrequired, rfl⟩ := StructType.mem_needed hentry
      refine ⟨m, hm, rfl, nestsWith_defaultWith fun j hj => ih (hchains j ?_) ?_⟩
      · rw [hbody]
        exact TypeBody.embedded_of_member hm hrequired hj
      · exact .member h hbody hm hrequired hj
    | union u =>
      simp only [defaultWithin, hbody]
      exact .unread hbody h
    | enumeration e =>
      simp only [defaultWithin, hbody]
      exact .enumeration hbody

theorem coherent_default (hchains : ∀ i, schema.ChainsWithin schema.size i)
    {t : MemberType schema.size} (h : ∀ j ∈ t.embedded, schema.Supplied repr j) :
    t.NestsWith (fun j w => Coherent schema (schema.Supplied repr) (.type j) w)
      (schema.default t) :=
  nestsWith_defaultWith fun j hj => coherent_defaultWithin (hchains j) (h j hj)

/-! ## Reading -/

variable (hchains : ∀ i, schema.ChainsWithin schema.size i) {src : Source}
  {readType : String → Fin schema.size → ReadM Value}
  (htype : ∀ field i, Yields (readType field i)
    (Coherent schema (schema.Supplied src.encoding.repr) (.type i)))

include hchains htype

theorem coherent_readStruct (typeName : String) {i : Fin schema.size} {s : StructType schema.size}
    (hbody : (schema.get i).body = .struct s) :
    Yields (readStruct schema src readType typeName (schema.get i).extensibility s)
      (Coherent schema (schema.Supplied src.encoding.repr) (.type i)) := by
  refine yields_bind (isDelimited_of_openFrame typeName _) fun frame hframe => ?_
  have hwire : ∀ m ∈ s.wireMembers, m ∈ s.members := fun m => s.perm_wireMembers.mem_iff.1
  refine yields_bind (nests_readMembers htype hwire (fun hframed m hm hrequired =>
    coherent_default hchains fun j hj => .member (.framed (hframe hframed)) hbody hm hrequired hj)
    fun _ hnone => absurd hnone List.not_mem_nil) fun fields hfields => ?_
  exact yields_bind (yields_any _) fun _ _ => yields_pure (coherent_struct hbody hfields)

/-- The arm that is read is the selected one, if there is one, be it that a body ends in front of
    it. -/
theorem coherent_readArm (typeName : String) {framed : Bool} {i : Fin schema.size}
    {u : UnionType schema.size} (d : Int64) (hbody : (schema.get i).body = .union u)
    (hframed : framed = true →
      src.encoding.repr.isDelimited (schema.get i).extensibility = true) :
    Yields (readArm schema src readType typeName framed u d) fun arm =>
      Coherent schema (schema.Supplied src.encoding.repr) (.type i) (.union d arm) := by
  intro c arm after hrun
  have hname := yields_selected schema src readType typeName framed u d c arm after hrun
  obtain ⟨active, hactive, hnests⟩ := nests_readArm htype typeName (fun hended selected hmem =>
    coherent_default hchains fun j hj => .arm (hframed hended) hbody hmem hj) c arm after hrun
  cases activeArm_eq_ok hactive with
  | unselected hselect => exact .noArm hbody hselect
  | missing hselect =>
    rw [hselect] at hname
    cases hname
  | present hselect => exact .arm hbody hselect (coherent_of_nestsWith (hnests _ _ rfl))

theorem coherent_readUnion (typeName : String) {i : Fin schema.size} {u : UnionType schema.size}
    (hbody : (schema.get i).body = .union u) :
    Yields (readUnion schema src readType typeName (schema.get i).extensibility u)
      (Coherent schema (schema.Supplied src.encoding.repr) (.type i)) := by
  refine yields_bind (isDelimited_of_openFrame typeName _) fun frame hframe => ?_
  refine yields_bind (yields_any _) fun ended _ => ?_
  split
  next hended =>
    obtain ⟨hframed, -⟩ := Bool.and_eq_true_iff.1 hended
    refine yields_bind (yields_any _) fun _ _ => yields_pure ?_
    exact .unread hbody (.framed (hframe hframed))
  next =>
    refine yields_bind (yields_any _) fun disc _ => ?_
    cases discriminatorOf? disc with
    | none => exact yields_throw _
    | some d =>
      refine yields_bind (coherent_readArm hchains htype typeName d hbody hframe) fun arm harm => ?_
      exact yields_bind (yields_any _) fun _ _ => yields_pure harm

end

theorem coherent_readType {schema : Schema} (hchains : ∀ i, schema.ChainsWithin schema.size i)
    (src : Source) (levels : Nat) (field : String) (i : Fin schema.size) :
    Yields (readType schema src levels field i)
      (Coherent schema (schema.Supplied src.encoding.repr) (.type i)) := by
  induction levels generalizing field i with
  | zero => exact yields_throw _
  | succ levels ih =>
    cases hbody : (schema.get i).body with
    | struct s =>
      simp only [readType, hbody]
      exact coherent_readStruct hchains ih _ hbody
    | union u =>
      simp only [readType, hbody]
      exact coherent_readUnion hchains ih _ hbody
    | enumeration e =>
      simp only [readType, hbody]
      refine yields_bind (yields_any _) fun s _ => ?_
      cases s with
      | int32 n => exact yields_pure (.enumeration hbody)
      | _ => exact yields_throw _

/-! ## Empty bodies -/

/-- What a body that is not empty is read as has the arm that its discriminator selects. -/
theorem ended_of_unarmed {schema : Schema} {src : Source} {levels : Nat} {typeName : String}
    {u : UnionType schema.size} {framed : Bool} {c after : Cursor} {d : Int64}
    (hselect : u.select d ≠ none)
    (hrun : (readUnionBody schema src (readType schema src levels) typeName u framed).run c =
      .ok (.union d none) after) :
    d = 0 ∧ (framed && decide (c.stop ≤ c.position)) = true := by
  cases hended : framed && decide (c.stop ≤ c.position) with
  | true =>
    rw [run_readUnionBody_ended (bodyEnded_iff.1 hended)] at hrun
    cases hrun
    exact ⟨rfl, rfl⟩
  | false =>
    rw [run_readUnionBody_more hended] at hrun
    refine absurd (yields_bind (Q := fun v => ∀ d, v = .union d none → u.select d = none)
      (yields_any _) (fun disc _ => ?_) c _ after hrun d rfl) hselect
    cases discriminatorOf? disc with
    | none => exact yields_throw _
    | some d =>
      refine yields_bind (yields_selected schema src _ typeName framed u d) fun arm harm => ?_
      refine yields_pure ?_
      rintro _ ⟨⟩
      exact Option.map_eq_none_iff.1 harm.symm

/-- Only an empty body is read as a union without the arm that its discriminator selects. -/
theorem empty_of_unarmed {schema : Schema} {i : Fin schema.size} {u : UnionType schema.size}
    (hbody : (schema.get i).body = .union u) {src : Source} {levels : Nat} {field : String}
    {c after : Cursor} {d : Int64} (hselect : u.select d ≠ none)
    (hrun : (readType schema src (levels + 1) field i).run c = .ok (.union d none) after) :
    src.encoding.repr.isDelimited (schema.get i).extensibility = true ∧ d = 0 ∧
      after.position = c.position + padding (src.origin + c.position) 4 + 4 := by
  rw [readType_union hbody] at hrun
  cases hframed : src.encoding.repr.isDelimited (schema.get i).extensibility with
  | false =>
    rw [inFrame_bare src (Bool.eq_false_iff.1 hframed)] at hrun
    obtain ⟨-, hended⟩ := ended_of_unarmed hselect hrun
    cases hended
  | true =>
    obtain ⟨length, mid, last, hword, -, hread, hclose⟩ := run_inFrame_eq_ok hframed hrun
    obtain ⟨rfl, hended⟩ := ended_of_unarmed hselect hread
    have hempty : mid.position + length ≤ mid.position :=
      of_decide_eq_true (Bool.and_eq_true_iff.1 hended).2
    obtain ⟨hposition, -⟩ := run_closeFrame_eq_ok hclose
    have hposition : after.position = mid.position + length := hposition
    obtain ⟨-, hstart⟩ := Source.word_eq_ok hword
    exact ⟨rfl, rfl, by omega⟩

/-- An empty body is read as the union with the discriminator 0 and without an arm, wherever it
    stands and whatever 0 selects. -/
theorem reads_empty_union {schema : Schema} {i : Fin schema.size} {u : UnionType schema.size}
    (hbody : (schema.get i).body = .union u) (src : Source) (levels : Nat) (field : String)
    (hframed : src.encoding.repr.isDelimited (schema.get i).extensibility = true) (c : Cursor) :
    Reads src (readType schema src (levels + 1) field i) c
      (List.replicate (padding (src.origin + c.position) 4) 0 ++ src.encoding.wordBytes 0)
      (.union 0 none) := by
  intro hholds
  have himage : src.encoding.delimitedImage (schema.get i).extensibility (Image.bytes [])
      (src.origin + c.position) = .ok
        (List.replicate (padding (src.origin + c.position) 4) 0 ++ src.encoding.wordBytes 0) := by
    rw [Encoding.delimitedImage, if_pos hframed, Image.headed_ok rfl (by decide), List.append_nil]
    rfl
  obtain ⟨frame, inner, mid, hopen, hinner, henters, -⟩ :=
    run_frame (schema.get i).full rfl himage hholds
  cases hinner
  have hended : (frame.isSome && decide (mid.stop ≤ mid.position)) = true := by
    rw [henters.opened, hframed, Bool.true_and]
    exact decide_eq_true (Nat.le_of_eq (henters.stop hframed))
  obtain ⟨final, hclose, hmoved⟩ := henters.leave 0 mid (.refl mid) (Nat.zero_le _) fun _ => rfl
  refine ⟨final, ?_, hmoved⟩
  simp only [readType, hbody, readUnion, EStateM.run_bind, hopen, run_atEnd, hended, if_true,
    hclose]
  rfl

theorem decode_empty_union {schema : Schema} {i : Fin schema.size} {u : UnionType schema.size}
    (hbody : (schema.get i).body = .union u) {e : Encoding}
    (hframed : e.repr.isDelimited (schema.get i).extensibility = true) {offset : Nat}
    {b : List UInt8} (hb : b = List.replicate (padding offset 4) 0 ++ e.wordBytes 0) :
    (schema.decode ⟨b.toArray, e, offset⟩ i .infinite).result =
      .ok (.union 0 none, b.length) := by
  refine decode_of_reads ?_
  have hreads := reads_empty_union hbody ⟨b.toArray, e, offset⟩ (maxDepth - 1) "" hframed
    (Source.start ⟨b.toArray, e, offset⟩ .infinite)
  rw [hb]
  rw [hb] at hreads
  exact hreads

/-- In a value that a compiled type reads, at every node, a union has the arm that its discriminator
    selects, and no arm if and only if it selects none, but for unions of which nothing was read.
    These have the discriminator 0 and no arm, so that they are no exception where 0 selects none.
    In the older representation there are no such unions. Where the value itself is one, all that
    was read is the length of an empty body. -/
theorem decode_coherent {doc : Document} {schema : Schema} (hcompile : doc.compile = .ok schema)
    {src : Source} {limit : Limit} {i : Fin schema.size} {v : Value} {n : Nat}
    (hread : (schema.decode src i limit).result = .ok (v, n)) :
    Coherent schema (schema.Supplied src.encoding.repr) (.type i) v ∧
    ((∀ j u, schema.Supplied src.encoding.repr j → (schema.get j).body = .union u →
      u.select 0 = none) → Coherent schema (fun _ => False) (.type i) v) ∧
    (src.encoding.repr = .xcdr1 → Coherent schema (fun _ => False) (.type i) v) ∧
    (∀ u d, (schema.get i).body = .union u → v = .union d none → u.select d ≠ none →
      src.encoding.repr.isDelimited (schema.get i).extensibility = true ∧ d = 0 ∧
        n = padding src.origin 4 + 4) := by
  have hchains := chainsWithin_of_compile hcompile
  obtain ⟨after, hrun⟩ := run_of_decode hread
  have hcoherent := coherent_readType hchains src maxDepth "" i _ _ _ hrun
  refine ⟨hcoherent, fun hzero => hcoherent.of_unselected hzero, fun hrepr => ?_, ?_⟩
  · refine hcoherent.of_unselected fun j u hsupplied => ?_
    rw [hrepr] at hsupplied
    exact absurd hsupplied (not_supplied_xcdr1 j)
  · rintro u d hbody rfl hselect
    obtain ⟨hframed, hzero, hposition⟩ := empty_of_unarmed hbody hselect hrun
    rw [position_of_decode hread hrun] at hposition
    refine ⟨hframed, hzero, hposition.trans ?_⟩
    simp only [Source.start, Nat.zero_add, Nat.add_zero]

/-- A body that ends behind the discriminator leaves a signal the level that this selects. -/
theorem decode_coherent_signal :
    let src : Source := ⟨#[2, 0, 0, 0, 0, 0], ⟨.xcdr2, .little⟩, 0⟩
    let signal : Fin signals.size := ⟨0, by decide⟩
    let v : Value := .union 0 (some ("level", .scalar (.int32 0)))
    signalDoc.compile = .ok signals ∧ (signals.decode src signal .infinite).result = .ok (v, 6) ∧
      Coherent signals (signals.Supplied .xcdr2) (.type signal) v := by
  intro src signal v
  have hcompile : signalDoc.compile = .ok signals := by decide +kernel
  have hread : (signals.decode ⟨#[2, 0, 0, 0, 0, 0], ⟨.xcdr2, .little⟩, 0⟩ ⟨0, by decide⟩
      .infinite).result = .ok (.union 0 (some ("level", .scalar (.int32 0))), 6) := by
    rfl
  exact ⟨hcompile, hread, (decode_coherent hcompile hread).1⟩

/-- An empty body leaves a signal without the level that its discriminator selects. -/
theorem no_level_of_empty_body :
    let signal : Fin signals.size := ⟨0, by decide⟩
    signalDoc.compile = .ok signals ∧
      (signals.decode ⟨#[0, 0, 0, 0], ⟨.xcdr2, .little⟩, 0⟩ signal .infinite).result =
        .ok (.union 0 none, 4) ∧
      (signalUnion.select 0).map (fun selected => selected.member.name) = some "level" ∧
      ¬Coherent signals (fun _ => False) (.type signal) (.union 0 none) := by
  intro signal
  have hbody : (signals.get signal).body = .union signalUnion := rfl
  have hselect : (signalUnion.select 0).map (fun selected => selected.member.name) =
      some "level" := by
    decide
  refine ⟨by decide +kernel, ?_, hselect, fun hcoherent => ?_⟩
  · exact decode_empty_union (e := ⟨.xcdr2, .little⟩) (b := [0, 0, 0, 0]) hbody rfl rfl
  · rcases hcoherent.arm_eq_none_iff hbody with hiff | ⟨hfalse, -⟩
    · have hnone : signalUnion.select 0 = none := hiff.1 rfl
      rw [hnone] at hselect
      cases hselect
    · exact hfalse

end Schema

end Cdr
