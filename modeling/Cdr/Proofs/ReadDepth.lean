import Cdr.Proofs.PassDepth

/-! # How deep what is read nests

A reader counts the levels of what it reads, and it does not count those of the defaults that it
fills in where a framed body ends early. What it returns may nest deeper by as much as a default
does, and then it is refused when it is sized or written. Where nothing but scalars and texts can be
filled in, this cannot happen.
-/

namespace Cdr

open ReadM SizeRules

section

variable {schema : Schema} {src : Source} {readType : String → Fin schema.size → ReadM Value}
  {p : Fin schema.size → Value → Prop} (htype : ∀ field i, Yields (readType field i) (p i))

include htype

theorem nests_readValue (field : String) (t : MemberType schema.size) :
    Yields (readValue schema src readType field t) (t.NestsWith p) := by
  have hrun : ∀ (element : MemberType schema.size) (s : Scalar),
      element.blittable? = some s.primitive → element.NestsWith p (.scalar s) := by
    intro element s hrun
    obtain ⟨rfl, -⟩ := MemberType.eq_of_blittable? hrun
    trivial
  induction t with
  | primitive q => exact yields_bind (yields_any _) fun s _ => yields_pure trivial
  | string bound =>
    refine yields_bind (yields_any _) fun count _ => ?_
    split
    · exact yields_pure trivial
    · refine yields_bind (yields_any _) fun _ _ => ?_
      refine yields_bind (yields_any _) fun bytes _ c v after hread => ?_
      obtain ⟨text, rfl, -⟩ := Source.yields_text _ c v after hread
      trivial
  | fixedString capacity =>
    refine yields_bind (yields_any _) fun bytes _ c v after hread => ?_
    obtain ⟨text, rfl, -⟩ := Source.yields_text _ c v after hread
    trivial
  | sequence element bound ih =>
    refine yields_bind (yields_any _) fun count _ => ?_
    refine yields_bind (yields_any _) fun _ _ => ?_
    refine yields_bind (yields_any _) fun _ _ c v after hread => ?_
    obtain ⟨items, rfl, -, hitems⟩ :=
      Source.yields_elements ih field (fun s h _ => hrun element s h) count c v after hread
    exact hitems
  | array element length ih =>
    intro c v after hread
    obtain ⟨items, rfl, -, hitems⟩ :=
      Source.yields_elements ih field (fun s h _ => hrun element s h) length.toNat c v after hread
    exact hitems
  | type i => exact htype field i

/-- What is read into entries nests as the values of members do, and as their defaults where the
    body of a frame may end early. -/
theorem nests_readMembers {framed : Bool} {all ms : List (Member schema.size)}
    {fields : Entries Value} (hms : ∀ m ∈ ms, m ∈ all)
    (hdefault : framed = true → ∀ m ∈ all, m.optional = false →
      m.type.NestsWith p (schema.default m.type))
    (h : ∀ entry ∈ fields, ∃ m ∈ all, m.name = entry.1 ∧ m.type.NestsWith p entry.2) :
    Yields (readMembers schema src readType framed ms fields) fun fields =>
      ∀ entry ∈ fields, ∃ m ∈ all, m.name = entry.1 ∧ m.type.NestsWith p entry.2 := by
  induction ms generalizing fields with
  | nil => exact yields_pure h
  | cons m rest ih =>
    obtain ⟨hm, hrest⟩ := List.forall_mem_cons.1 hms
    have hinsert : ∀ v, m.type.NestsWith p v → ∀ entry ∈ Entries.insert m.name v fields,
        ∃ m ∈ all, m.name = entry.1 ∧ m.type.NestsWith p entry.2 := by
      intro v hv entry hentry
      rcases Entries.mem_insert hentry with rfl | hold
      · exact ⟨m, hm, rfl, hv⟩
      · exact h entry hold
    unfold readMembers
    refine yields_bind (yields_any _) fun ended _ => ?_
    split
    next hended =>
      obtain ⟨hframed, -⟩ := Bool.and_eq_true_iff.1 hended
      cases hoptional : m.optional with
      | true => exact ih hrest h
      | false => exact ih hrest (hinsert _ (hdefault hframed m hm hoptional))
    next =>
      split
      · refine yields_bind (yields_optional m (nests_readValue htype m.name m.type)) ?_
        intro found hfound
        cases found with
        | some v => exact ih hrest (hinsert v (hfound v rfl))
        | none => exact ih hrest h
      · refine yields_bind (nests_readValue htype m.name m.type) fun v hv => ?_
        exact ih hrest (hinsert v hv)

theorem nests_readArm (typeName : String) {framed : Bool} {u : UnionType schema.size} {d : Int64}
    (hdefault : framed = true → ∀ arm ∈ u.arms,
      arm.member.type.NestsWith p (schema.default arm.member.type)) :
    Yields (readArm schema src readType typeName framed u d) fun arm =>
      ∃ active, activeArm schema u d arm = .ok active ∧
        ∀ m v, active = some (m, v) → m.type.NestsWith p v := by
  unfold readArm activeArm
  cases hselect : u.select d with
  | none =>
    refine yields_bind (yields_any _) fun _ _ => ?_
    exact yields_pure ⟨none, rfl, nofun⟩
  | some selected =>
    refine yields_bind (yields_any _) fun ended _ => ?_
    split
    next hended =>
      obtain ⟨hframed, -⟩ := Bool.and_eq_true_iff.1 hended
      refine yields_pure ⟨_, if_pos rfl, ?_⟩
      rintro m v ⟨⟩
      exact hdefault hframed selected (u.mem_of_select hselect)
    next =>
      refine yields_bind (nests_readValue htype _ _) fun w hw => ?_
      refine yields_pure ⟨_, if_pos rfl, ?_⟩
      rintro m v ⟨⟩
      exact hw

end

theorem isDelimited_of_openFrame {src : Source} (typeName : String)
    (extensibility : Extensibility) :
    Yields (openFrame src typeName extensibility) fun frame =>
      frame.isSome = true → src.encoding.repr.isDelimited extensibility = true := by
  unfold openFrame
  split
  next hframed => exact fun _ _ _ _ _ => hframed
  next => exact yields_pure nofun

namespace Schema

variable (schema : Schema)

/-- Whether the defaults that fill framed bodies up nest within `fill` levels. -/
def FilledWithin (repr : Representation) (fill : Nat) : Prop :=
  ∀ i, repr.isDelimited (schema.get i).extensibility = true →
    ∀ j ∈ (schema.get i).body.embedded, schema.ChainsWithin fill j

variable {schema} {repr : Representation} {fill : Nat} {i : Fin schema.size}

theorem FilledWithin.struct (h : schema.FilledWithin repr fill) (hschema : schema.WellFormed)
    (hframed : repr.isDelimited (schema.get i).extensibility = true) {s : StructType schema.size}
    (hbody : (schema.get i).body = .struct s) {m : Member schema.size} (hm : m ∈ s.members)
    (hoptional : m.optional = false) :
    m.type.NestsWith (schema.NestsWithin fill) (schema.default m.type) := by
  refine nestsWith_default hschema fun j hj => h i hframed j ?_
  rw [hbody]
  exact TypeBody.embedded_of_member hm hoptional hj

theorem FilledWithin.arm (h : schema.FilledWithin repr fill) (hschema : schema.WellFormed)
    (hframed : repr.isDelimited (schema.get i).extensibility = true) {u : UnionType schema.size}
    (hbody : (schema.get i).body = .union u) {arm : UnionArm schema.size} (harm : arm ∈ u.arms) :
    arm.member.type.NestsWith (schema.NestsWithin fill) (schema.default arm.member.type) := by
  refine nestsWith_default hschema fun j hj => h i hframed j ?_
  rw [hbody]
  exact TypeBody.embedded_of_arm harm hj

/-- The older representation frames no body, so nothing is filled in. -/
theorem filledWithin_xcdr1 : schema.FilledWithin .xcdr1 0 := by
  intro i hframed
  obtain ⟨hrepr, -⟩ := (Representation.isDelimited_iff _ _).1 hframed
  cases hrepr

/-- What is read nests as deep as the reader may go, and deeper only by what it fills in. -/
theorem nests_readType (hschema : schema.WellFormed) (src : Source)
    (hfilled : schema.FilledWithin src.encoding.repr fill) (levels : Nat) (field : String)
    (i : Fin schema.size) :
    Yields (readType schema src levels field i) (schema.NestsWithin (levels + fill) i) := by
  induction levels generalizing field i with
  | zero => exact yields_throw _
  | succ levels ih =>
    rw [Nat.succ_add]
    have hle : fill ≤ levels + fill := Nat.le_add_left fill levels
    have hmore : ∀ {t : MemberType schema.size} {v : Value},
        t.NestsWith (schema.NestsWithin fill) v →
          t.NestsWith (schema.NestsWithin (levels + fill)) v :=
      fun hv => hv.mono fun j w => nestsWithin_of_le hle
    cases hbody : (schema.get i).body with
    | struct s =>
      simp only [readType, hbody, readStruct]
      refine yields_bind (isDelimited_of_openFrame _ _) fun frame hframe => ?_
      have hwire : ∀ m ∈ s.wireMembers, m ∈ s.members := fun m => s.perm_wireMembers.mem_iff.1
      refine yields_bind (nests_readMembers ih hwire (fun hframed m hm hoptional =>
        hmore (hfilled.struct hschema (hframe hframed) hbody hm hoptional))
        fun _ hnone => absurd hnone List.not_mem_nil) ?_
      intro fields hfields
      refine yields_bind (yields_any _) fun _ _ => yields_pure ?_
      simp only [NestsWithin, hbody]
      exact hfields
    | union u =>
      simp only [readType, hbody, readUnion]
      refine yields_bind (isDelimited_of_openFrame _ _) fun frame hframe => ?_
      refine yields_bind (yields_any _) fun ended _ => ?_
      split
      next hended =>
        -- Nothing was read, but sizing and writing take the discriminator and the arm for 0.
        obtain ⟨hframed, -⟩ := Bool.and_eq_true_iff.1 hended
        refine yields_bind (yields_any _) fun _ _ => yields_pure ?_
        exact nestsWithin_of_le (Nat.succ_le_succ hle) (nestsWithin_unarmed hschema hbody
          (hfilled i (hframe hframed)) (fun j => nestsWithin_defaultWithin hschema) 0)
      next =>
        refine yields_bind (nests_readValue ih _ _) fun disc hdisc => ?_
        cases discriminatorOf? disc with
        | none => exact yields_throw _
        | some d =>
          refine yields_bind (nests_readArm ih _ fun hframed arm harm =>
            hmore (hfilled.arm hschema (hframe hframed) hbody harm)) fun arm harm => ?_
          refine yields_bind (yields_any _) fun _ _ => yields_pure ?_
          simp only [NestsWithin, hbody]
          refine ⟨fun _ => nestsWith_discriminator hschema hbody fun j hj hzero => ?_, harm⟩
          rw [hj, hzero] at hdisc
          exact hdisc
    | enumeration e =>
      simp only [readType, hbody]
      refine yields_bind (yields_any _) fun s _ => ?_
      cases s with
      | int32 n =>
        refine yields_pure ?_
        simp only [NestsWithin, hbody]
      | _ => exact yields_throw _

/-- A value that a compiled type reads nests no deeper than a reader may go, but for the defaults
    that it fills in, which never nest deeper than there are types. Where there are no levels to be
    filled in, and names are distinct in each struct, sizing and writing the value do not find it too
    deep, whatever the representation, the limit and the sink. -/
theorem decode_nests {doc : Document} {schema : Schema} (hcompile : doc.compile = .ok schema)
    {src : Source} {limit : Limit} {i : Fin schema.size} {v : Value} {n : Nat}
    (hread : (schema.decode src i limit).result = .ok (v, n)) :
    schema.FilledWithin src.encoding.repr schema.size ∧
    (∀ fill, schema.FilledWithin src.encoding.repr fill → v.levels ≤ maxDepth + fill) ∧
    (schema.DistinctNames → schema.FilledWithin src.encoding.repr 0 →
      (∀ rules offset field, schema.sizeOf rules i v offset ≠ .error (.depthExceeded field)) ∧
      ∀ e sink offset field, (schema.encode e sink i v offset).1 ≠
        .error (.depthExceeded field)) := by
  have hschema := wellFormed_of_compile hcompile
  obtain ⟨after, hrun⟩ := run_of_decode hread
  have hnests : ∀ fill, schema.FilledWithin src.encoding.repr fill →
      schema.NestsWithin (maxDepth + fill) i v :=
    fun fill hfilled => nests_readType hschema src hfilled maxDepth "" i _ _ _ hrun
  refine ⟨fun _ _ j _ => chainsWithin_of_compile hcompile j,
    fun fill hfilled => levels_le (hnests fill hfilled), fun hnames hfilled => ⟨?_, ?_⟩⟩
  · exact sizeOf_of_nestsWithin hnames (hnests 0 hfilled)
  · exact encode_of_nestsWithin hnames (hnests 0 hfilled)

/-- Folders in folders, each with its content two types deeper. -/
def folderDoc : Document where
  types := [
    { name := "Listing"
      scope := ""
      extensibility := .final
      fields := [FieldDecl.new "folders" "sequence<Folder>"] },
    { name := "Content"
      scope := ""
      extensibility := .final
      fields := [FieldDecl.new "listing" "Listing"] },
    { name := "Folder"
      scope := ""
      extensibility := .appendable
      fields := [FieldDecl.new "content" "Content"] }]

def folders : Schema where
  size := 3
  types := #v[
    { name := "Listing"
      scope := ""
      extensibility := .final
      layout := .struct [("folders", .sequence)]
      body := .struct ⟨[⟨"folders", 0, .sequence (.type 2) none, false, false⟩]⟩ },
    { name := "Content"
      scope := ""
      extensibility := .final
      layout := .struct [("listing", .sequence)]
      body := .struct ⟨[⟨"listing", 0, .type 0, false, false⟩]⟩ },
    { name := "Folder"
      scope := ""
      extensibility := .appendable
      layout := .struct [("content", .sequence)]
      body := .struct ⟨[⟨"content", 0, .type 1, false, false⟩]⟩ }]

/-- A folder that holds no folders, in the older representation. -/
theorem decode_nests_folder :
    let src : Source := ⟨#[0, 0, 0, 0], ⟨.xcdr1, .little⟩, 0⟩
    let folder : Fin folders.size := ⟨2, by decide⟩
    let v : Value :=
      .struct [("content", .struct [("listing", .struct [("folders", .sequence [])])])]
    folderDoc.compile = .ok folders ∧
      (folders.decode src folder .infinite).result = .ok (v, 4) ∧ folders.DistinctNames ∧
      folders.FilledWithin .xcdr1 0 ∧ v.levels ≤ maxDepth ∧
      ∀ rules offset field,
        folders.sizeOf rules folder v offset ≠ .error (.depthExceeded field) := by
  intro src folder v
  have hcompile : folderDoc.compile = .ok folders := by decide +kernel
  have hread : (folders.decode ⟨#[0, 0, 0, 0], ⟨.xcdr1, .little⟩, 0⟩ ⟨2, by decide⟩
      .infinite).result = .ok (.struct [("content", .struct [("listing", .struct
        [("folders", .sequence [])])])], 4) := by
    rfl
  have hnames : folders.DistinctNames := by decide +kernel
  obtain ⟨-, hlevels, hpasses⟩ := decode_nests hcompile hread
  exact ⟨hcompile, hread, hnames, filledWithin_xcdr1, hlevels 0 filledWithin_xcdr1,
    (hpasses hnames filledWithin_xcdr1).1⟩

/-- The bytes of a folder with `count` folders inside of it, one in the other. The innermost folder
    has an empty body. -/
def folderBytes (e : Encoding) : Nat → List UInt8
  | 0 => e.wordBytes 0
  | count + 1 => e.wordBytes (8 * (count + 1)) ++ (e.wordBytes 1 ++ folderBytes e count)

/-- The innermost of 34 folders is as deep as a reader may go, and its content is filled in behind
    that. What is read so is two levels deeper than values may be, and sizing refuses it. -/
theorem filled_in_too_deep :
    let e : Encoding := ⟨.xcdr2, .little⟩
    let src : Source := ⟨(folderBytes e 33).toArray, e, 0⟩
    let folder : Fin folders.size := ⟨2, by decide⟩
    folderDoc.compile = .ok folders ∧
      ∃ v, (folders.decode src folder .infinite).result = .ok (v, 268) ∧
        v.levels = maxDepth + 2 ∧
        folders.sizeOf (unlimited .xcdr2) folder v 0 = .error (.depthExceeded "content") := by
  intro e src folder
  -- Values have no decidable equality, so that what is read of the bytes is looked at by what is
  -- made of it.
  have hfacts : ((folders.decode src folder .infinite).result.map fun read =>
      (read.2, read.1.levels, folders.sizeOf (unlimited .xcdr2) folder read.1 0)).toOption =
        some (268, maxDepth + 2, .error (.depthExceeded "content")) := by
    decide +kernel
  refine ⟨by decide +kernel, ?_⟩
  cases hread : (folders.decode src folder .infinite).result with
  | error fault =>
    rw [hread] at hfacts
    cases hfacts
  | ok read =>
    obtain ⟨v, n⟩ := read
    rw [hread] at hfacts
    have hfacts := Option.some.inj hfacts
    simp only [Prod.mk.injEq] at hfacts
    obtain ⟨rfl, hlevels, hsize⟩ := hfacts
    exact ⟨v, rfl, hlevels, hsize⟩

end Schema

end Cdr
