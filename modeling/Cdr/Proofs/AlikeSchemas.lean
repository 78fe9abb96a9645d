import Cdr.Proofs.Renumbering
import Cdr.Wire.Writer

/-! # Schemas that are alike

What a pass does with a value depends on a few things about its type: on the members of a struct in
their order on the wire and on their defaults, on the arm that a discriminator selects. Two schemas
that have these in common, whatever else they differ in, give the same sizes, bytes and values, and
the same errors.
-/

namespace Cdr

variable {n k : Nat}

/-- The entries of a struct whose members all have their defaults. -/
def StructType.defaultFields (s : StructType n) (ofType : Fin n → Value) : Entries Value :=
  Entries.ofList ((s.members.filter fun m => !m.optional).map fun m =>
    (m.name, m.type.defaultWith ofType))

/-- Bodies that agree in all that a pass looks at, when the types that they name go together. -/
inductive TypeBody.Alike (f : Fin n → Fin k) : TypeBody n → TypeBody k → Prop
  | struct {s : StructType n} {s' : StructType k}
    (members : s'.wireMembers = s.wireMembers.map (Member.rename f))
    (defaults : ∀ ofType, s'.defaultFields ofType = s.defaultFields fun i => ofType (f i)) :
    Alike f (.struct s) (.struct s')
  | union {u : UnionType n} {u' : UnionType k}
    (discriminator : u'.discriminator = u.discriminator.rename f)
    (arms : u'.arms.Perm (u.arms.map (UnionArm.rename f)))
    (select : ∀ d, u'.select d = (u.select d).map (UnionArm.rename f)) :
    Alike f (.union u) (.union u')
  | enumeration (e : EnumType) : Alike f (.enumeration e) (.enumeration e)

theorem StructType.defaultFields_rename (f : Fin n → Fin k) (s : StructType n)
    (ofType : Fin k → Value) :
    (s.rename f).defaultFields ofType = s.defaultFields fun i => ofType (f i) := by
  simp only [defaultFields, rename, List.filter_map, List.map_map]
  refine congrArg Entries.ofList (List.map_congr_left fun m _ => ?_)
  exact congrArg (m.name, ·) (m.type.defaultWith_rename ofType)

theorem TypeBody.alike_rename (f : Fin n → Fin k) (body : TypeBody n) :
    body.Alike f (body.rename f) := by
  cases body with
  | struct s => exact .struct (s.wireMembers_rename f) (s.defaultFields_rename f)
  | union u => exact .union rfl (.refl _) (u.select_rename f)
  | enumeration e => exact .enumeration e

/-- Bodies that are alike embed types that go together. -/
theorem TypeBody.Alike.mem_embedded {f : Fin n → Fin k} {body : TypeBody n} {body' : TypeBody k}
    (h : body.Alike f body') (j : Fin k) : j ∈ body'.embedded ↔ ∃ i ∈ body.embedded, f i = j := by
  cases h with
  | @struct s s' members defaults =>
    have hperm : (s'.members).Perm (s.members.map (Member.rename f)) := by
      refine s'.perm_wireMembers.symm.trans ?_
      rw [members]
      exact s.perm_wireMembers.map _
    have hmem : j ∈ (TypeBody.struct s').embedded ↔
        j ∈ (TypeBody.struct (s.rename f)).embedded :=
      ((hperm.filter _).flatMap_right _).mem_iff
    rw [hmem, show TypeBody.struct (s.rename f) = (TypeBody.struct s).rename f from rfl,
      embedded_rename, List.mem_map]
  | @union u u' discriminator arms select =>
    have hmem : j ∈ (TypeBody.union u').embedded ↔
        j ∈ (TypeBody.union (u.rename f)).embedded := by
      simp only [embedded, discriminator, List.mem_append, (arms.flatMap_right _).mem_iff]
      rfl
    rw [hmem, show TypeBody.union (u.rename f) = (TypeBody.union u).rename f from rfl,
      embedded_rename, List.mem_map]
  | enumeration e => simp [embedded]

theorem discriminatorValue_rename (f : Fin n → Fin k) (m : Member n) (d : Int64) :
    discriminatorValue (m.rename f) d = discriminatorValue m d := by
  obtain ⟨name, id, type, optional, key⟩ := m
  cases type with
  | _ => rfl

namespace Schema

/-- Schemas whose types go together, each with one of the same name that is framed alike. -/
structure Alike (schema other : Schema) (f : Fin schema.size ≃ Fin other.size) : Prop where
  full : ∀ i, (other.get (f i)).full = (schema.get i).full
  extensibility : ∀ i, (other.get (f i)).extensibility = (schema.get i).extensibility
  body : ∀ i, (schema.get i).body.Alike f (other.get (f i)).body

end Schema

theorem Schema.Alike.size_eq {schema other : Schema} {f : Fin schema.size ≃ Fin other.size}
    (_ : schema.Alike other f) : other.size = schema.size :=
  (Fin.equiv_iff_eq.1 ⟨f⟩).symm

section

variable {schema other : Schema} {f : Fin schema.size ≃ Fin other.size}

namespace Schema

theorem defaultWithin_alike (h : schema.Alike other f) (levels : Nat) (i : Fin schema.size) :
    other.defaultWithin levels (f i) = schema.defaultWithin levels i := by
  induction levels generalizing i with
  | zero => rfl
  | succ levels ih =>
    have hlevel : (fun i => other.defaultWithin levels (f i)) = schema.defaultWithin levels :=
      funext ih
    have hbody := h.body i
    unfold defaultWithin
    generalize (schema.get i).body = body, (other.get (f i)).body = body' at hbody
    cases hbody with
    | struct members defaults =>
      have hfields := defaults (other.defaultWithin levels)
      rw [hlevel] at hfields
      exact congrArg Value.struct hfields
    | _ => rfl

theorem default_alike (h : schema.Alike other f) (t : MemberType schema.size) :
    other.default (t.rename f) = schema.default t := by
  have htype : (fun i => other.defaultWithin other.size (f i)) =
      schema.defaultWithin schema.size := by
    funext i
    rw [defaultWithin_alike h, h.size_eq]
  rw [Schema.default, t.defaultWith_rename, htype]
  rfl

theorem minSizeWithin_alike (h : schema.Alike other f) (repr : Representation) (levels : Nat)
    (i : Fin schema.size) :
    other.minSizeWithin repr levels (f i) = schema.minSizeWithin repr levels i := by
  induction levels generalizing i with
  | zero => rfl
  | succ levels ih =>
    have hmember : ∀ m : Member schema.size,
        (m.rename f).type.minSizeWith (other.minSizeWithin repr levels) =
          m.type.minSizeWith (schema.minSizeWithin repr levels) := by
      intro m
      rw [Member.rename, m.type.minSizeWith_rename, funext ih]
    have hbody := h.body i
    simp only [minSizeWithin, h.extensibility i]
    generalize (schema.get i).body = body, (other.get (f i)).body = body' at hbody
    cases hbody with
    | struct members defaults =>
      simp only [StructType.sum_required, members, List.filter_map, List.map_map,
        Function.comp_def, hmember]
      rfl
    | union discriminator arms select => simp only [discriminator, hmember]
    | enumeration e => rfl

theorem minSize_alike (h : schema.Alike other f) (repr : Representation)
    (t : MemberType schema.size) : other.minSize repr (t.rename f) = schema.minSize repr t := by
  have htype : (fun i => other.minSizeWithin repr other.size (f i)) =
      schema.minSizeWithin repr schema.size := by
    funext i
    rw [minSizeWithin_alike h, h.size_eq]
  rw [minSize, t.minSizeWith_rename, htype]
  rfl

end Schema

theorem activeArm_alike (h : schema.Alike other f) {u : UnionType schema.size}
    {u' : UnionType other.size} (hselect : ∀ d, u'.select d = (u.select d).map (UnionArm.rename f))
    (d : Int64) (arm : Option (String × Value)) :
    activeArm other u' d arm =
      (activeArm schema u d arm).map (Option.map (Prod.map (Member.rename f) id)) := by
  unfold activeArm
  rw [hselect]
  cases u.select d with
  | none => cases arm <;> rfl
  | some selected =>
    cases arm with
    | none =>
      simp only [Option.map_some, UnionArm.rename, Member.rename, Schema.default_alike h]
      rfl
    | some arm =>
      simp only [Option.map_some, UnionArm.rename, Member.rename]
      split <;> rfl

/-! ## Sizes -/

section

variable (rules : SizeRules) {add : String → Fin schema.size → Value → SizeM Unit}
  {add' : String → Fin other.size → Value → SizeM Unit}
  (hadd : ∀ field i v, add' field (f i) v = add field i v)

include hadd

theorem addValue_alike (field : String) (t : MemberType schema.size) (v : Value) :
    addValue other rules add' field (t.rename f) v = addValue schema rules add field t v := by
  induction t generalizing v with
  | primitive p => rfl
  | string bound => cases v <;> rfl
  | fixedString capacity => cases v <;> rfl
  | sequence element bound ih =>
    cases v with
    | sequence items =>
      simp only [MemberType.rename, addValue, MemberType.blittable?_rename, funext ih]
    | _ => rfl
  | array element length ih =>
    cases v with
    | sequence items =>
      simp only [MemberType.rename, addValue, MemberType.blittable?_rename, funext ih]
    | _ => rfl
  | type i => exact hadd field i v

theorem addMember_alike (typeName : String) (fields : Entries Value) (m : Member schema.size) :
    addMember other rules add' typeName fields (m.rename f) =
      addMember schema rules add typeName fields m := by
  simp only [addMember, Member.rename, addValue_alike rules hadd]
  rfl

theorem addUnion_alike (h : schema.Alike other f) {u : UnionType schema.size}
    {u' : UnionType other.size} (hdisc : u'.discriminator = u.discriminator.rename f)
    (hselect : ∀ d, u'.select d = (u.select d).map (UnionArm.rename f)) (d : Int64)
    (arm : Option (String × Value)) :
    addUnion other rules add' u' d arm = addUnion schema rules add u d arm := by
  unfold addUnion
  rw [hdisc, discriminatorValue_rename, activeArm_alike h hselect]
  simp only [Member.rename, addValue_alike rules hadd]
  refine bind_congr fun disc => bind_congr fun _ => ?_
  cases activeArm schema u d arm with
  | error fault => rfl
  | ok active =>
    cases active with
    | none => rfl
    | some active => exact addValue_alike rules hadd _ _ _

end

theorem addType_alike (h : schema.Alike other f) (rules : SizeRules) (levels : Nat)
    (field : String) (i : Fin schema.size) (v : Value) :
    addType other rules levels field (f i) v = addType schema rules levels field i v := by
  induction levels generalizing field i v with
  | zero => rfl
  | succ levels ih =>
    have hbody := h.body i
    unfold addType
    simp only [h.full i, h.extensibility i]
    generalize (schema.get i).body = body, (other.get (f i)).body = body' at hbody
    cases hbody with
    | struct members defaults =>
      cases v with
      | struct fields =>
        simp only [members, List.forM_eq_forM, List.forM_map, addMember_alike rules ih]
      | _ => rfl
    | union discriminator arms select =>
      cases v with
      | union d arm => simp only [addUnion_alike rules ih h discriminator select]
      | _ => rfl
    | enumeration e => cases v <;> rfl

/-! ## Writing -/

section

variable (e : Encoding) {write : String → Fin schema.size → Value → WriteM Unit}
  {write' : String → Fin other.size → Value → WriteM Unit}
  (hwrite : ∀ field i v, write' field (f i) v = write field i v)

include hwrite

theorem writeValue_alike (field : String) (t : MemberType schema.size) (v : Value) :
    writeValue other e write' field (t.rename f) v = writeValue schema e write field t v := by
  induction t generalizing v with
  | primitive p => rfl
  | string bound => cases v <;> rfl
  | fixedString capacity => cases v <;> rfl
  | sequence element bound ih =>
    cases v with
    | sequence items =>
      simp only [MemberType.rename, writeValue, MemberType.blittable?_rename, funext ih]
    | _ => rfl
  | array element length ih =>
    cases v with
    | sequence items =>
      simp only [MemberType.rename, writeValue, MemberType.blittable?_rename, funext ih]
    | _ => rfl
  | type i => exact hwrite field i v

theorem writeMember_alike (typeName : String) (fields : Entries Value) (m : Member schema.size) :
    writeMember other e write' typeName fields (m.rename f) =
      writeMember schema e write typeName fields m := by
  simp only [writeMember, Member.rename, writeValue_alike e hwrite]
  rfl

theorem writeUnion_alike (h : schema.Alike other f) {u : UnionType schema.size}
    {u' : UnionType other.size} (hdisc : u'.discriminator = u.discriminator.rename f)
    (hselect : ∀ d, u'.select d = (u.select d).map (UnionArm.rename f)) (d : Int64)
    (arm : Option (String × Value)) :
    writeUnion other e write' u' d arm = writeUnion schema e write u d arm := by
  unfold writeUnion
  rw [hdisc, discriminatorValue_rename, activeArm_alike h hselect]
  simp only [Member.rename, writeValue_alike e hwrite]
  refine bind_congr fun disc => bind_congr fun _ => ?_
  cases activeArm schema u d arm with
  | error fault => rfl
  | ok active =>
    cases active with
    | none => rfl
    | some active => exact writeValue_alike e hwrite _ _ _

end

theorem writeType_alike (h : schema.Alike other f) (e : Encoding) (levels : Nat)
    (field : String) (i : Fin schema.size) (v : Value) :
    writeType other e levels field (f i) v = writeType schema e levels field i v := by
  induction levels generalizing field i v with
  | zero => rfl
  | succ levels ih =>
    have hbody := h.body i
    unfold writeType
    simp only [h.full i, h.extensibility i]
    generalize (schema.get i).body = body, (other.get (f i)).body = body' at hbody
    cases hbody with
    | struct members defaults =>
      cases v with
      | struct fields =>
        simp only [members, List.forM_eq_forM, List.forM_map, writeMember_alike e ih]
      | _ => rfl
    | union discriminator arms select =>
      cases v with
      | union d arm => simp only [writeUnion_alike e ih h discriminator select]
      | _ => rfl
    | enumeration es => cases v <;> rfl

/-! ## Reading -/

section

variable (src : Source) {read : String → Fin schema.size → ReadM Value}
  {read' : String → Fin other.size → ReadM Value} (h : schema.Alike other f)
  (hread : ∀ field i, read' field (f i) = read field i)

include h hread

theorem readValue_alike (field : String) (t : MemberType schema.size) :
    readValue other src read' field (t.rename f) = readValue schema src read field t := by
  induction t with
  | sequence element bound ih =>
    simp only [MemberType.rename, readValue, MemberType.blittable?_rename, ih, checkCount,
      Schema.minSize_alike h]
  | array element length ih =>
    simp only [MemberType.rename, readValue, MemberType.blittable?_rename, ih]
  | type i => exact hread field i
  | _ => rfl

theorem readOptional_alike (m : Member schema.size) :
    readOptional other src read' (m.rename f) = readOptional schema src read m := by
  have hvalue : readValue other src read' (m.rename f).name (m.rename f).type =
      readValue schema src read m.name m.type := readValue_alike src h hread m.name m.type
  have hwithin : readWithin other src read' (m.rename f) = readWithin schema src read m := by
    funext stop c
    simp only [readWithin, hvalue]
  simp only [readOptional, readPresent, hwithin]
  rfl

theorem readMembers_alike (framed : Bool) (ms : List (Member schema.size))
    (fields : Entries Value) :
    readMembers other src read' framed (ms.map (Member.rename f)) fields =
      readMembers schema src read framed ms fields := by
  induction ms generalizing fields with
  | nil => rfl
  | cons m rest ih =>
    have hname : (m.rename f).name = m.name := rfl
    have hoptional : (m.rename f).optional = m.optional := rfl
    have htype : (m.rename f).type = m.type.rename f := rfl
    simp only [List.map_cons, readMembers, ih, hname, hoptional, htype, Schema.default_alike h,
      readOptional_alike src h hread, readValue_alike src h hread]

theorem readStruct_alike (typeName : String) (extensibility : Extensibility)
    {s : StructType schema.size} {s' : StructType other.size}
    (hmembers : s'.wireMembers = s.wireMembers.map (Member.rename f)) :
    readStruct other src read' typeName extensibility s' =
      readStruct schema src read typeName extensibility s := by
  simp only [readStruct, hmembers, readMembers_alike src h hread]

theorem readUnion_alike (typeName : String) (extensibility : Extensibility)
    {u : UnionType schema.size} {u' : UnionType other.size}
    (hdisc : u'.discriminator = u.discriminator.rename f)
    (hselect : ∀ d, u'.select d = (u.select d).map (UnionArm.rename f)) :
    readUnion other src read' typeName extensibility u' =
      readUnion schema src read typeName extensibility u := by
  have harm : ∀ framed d,
      readArm other src read' typeName framed u' d = readArm schema src read typeName framed u d := by
    intro framed d
    unfold readArm
    rw [hselect]
    cases u.select d with
    | none => rfl
    | some arm =>
      simp only [Option.map_some, UnionArm.rename, Member.rename, Schema.default_alike h,
        readValue_alike src h hread]
  have hname : (u.discriminator.rename f).name = u.discriminator.name := rfl
  have htype : (u.discriminator.rename f).type = u.discriminator.type.rename f := rfl
  simp only [readUnion, hdisc, harm, hname, htype, readValue_alike src h hread]

end

theorem readType_alike (h : schema.Alike other f) (src : Source) (levels : Nat) (field : String)
    (i : Fin schema.size) :
    readType other src levels field (f i) = readType schema src levels field i := by
  induction levels generalizing field i with
  | zero => rfl
  | succ levels ih =>
    have hbody := h.body i
    unfold readType
    simp only [h.full i, h.extensibility i]
    generalize (schema.get i).body = body, (other.get (f i)).body = body' at hbody
    cases hbody with
    | struct members defaults => exact readStruct_alike src h ih _ _ members
    | union discriminator arms select => exact readUnion_alike src h ih _ _ discriminator select
    | enumeration e => rfl

end

/-! ## All passes -/

/-- That values of one type are counted, written and read just like those of another one. -/
structure Schema.SamePasses (schema : Schema) (i : Fin schema.size) (other : Schema)
    (j : Fin other.size) : Prop where
  size : ∀ rules v offset, other.sizeOf rules j v offset = schema.sizeOf rules i v offset
  write : ∀ e sink v offset, other.encode e sink j v offset = schema.encode e sink i v offset
  read : ∀ src limit, other.decode src j limit = schema.decode src i limit

/-- Schemas that are alike cannot be told apart on the wire. -/
theorem Schema.Alike.samePasses {schema other : Schema} {f : Fin schema.size ≃ Fin other.size}
    (h : schema.Alike other f) (i : Fin schema.size) : schema.SamePasses i other (f i) where
  size rules v offset := by simp only [sizeOf, addType_alike h]
  write e sink v offset := by simp only [encode, Schema.write, writeType_alike h]
  read src limit := by simp only [decode, Schema.read, readType_alike h]

/-! ## Documents -/

/-- A graph has no cycle when it is mapped into one that has none. -/
theorem Graph.acyclic_of_edges {next : Fin n → List (Fin n)} {next' : Fin k → List (Fin k)}
    (f : Fin n ≃ Fin k) (hedges : ∀ i, ∀ j ∈ next' (f i), f.symm j ∈ next i)
    (hacyclic : Acyclic next) : Acyclic next' := by
  intro node hcycle
  apply hacyclic (f.symm node)
  refine Relation.TransGen.lift f.symm ?_ node node hcycle
  intro a b hedge
  apply hedges
  rw [f.apply_symm_apply]
  exact hedge

namespace Document

theorem nodup_names_iff {doc : Document} :
    (doc.types.map fun t => t.full).Nodup ↔
      Function.Injective fun i => (doc.types.get i).full := by
  rw [← List.nodup_ofFn]
  conv_lhs => rw [← List.ofFn_get doc.types, List.map_ofFn]
  rfl

/-- Documents whose types go together, each with one of the same name that is framed alike, and which
    has a body like the other when that has one. -/
structure Agree (doc doc' : Document) (f : Fin doc.types.length ≃ Fin doc'.types.length) : Prop where
  name : ∀ i, (doc'.types.get (f i)).toTypeName = (doc.types.get i).toTypeName
  extensibility : ∀ i, (doc'.types.get (f i)).extensibility = (doc.types.get i).extensibility
  body : ∀ i body, Compile.typeBody doc.types.get (doc.types.get i) = .ok body →
    ∃ body', Compile.typeBody doc'.types.get (doc'.types.get (f i)) = .ok body' ∧
      body.Alike f body'

variable {doc doc' : Document} {f : Fin doc.types.length ≃ Fin doc'.types.length}

theorem Agree.nodup_names (h : doc.Agree doc' f) (hnames : (doc.types.map fun t => t.full).Nodup) :
    (doc'.types.map fun t => t.full).Nodup := by
  rw [nodup_names_iff] at hnames ⊢
  intro i j hij
  obtain ⟨i, rfl⟩ := f.surjective i
  obtain ⟨j, rfl⟩ := f.surjective j
  simp only [h.name] at hij
  exact congrArg f (hnames hij)

/-- Names are distinct, bodies are found and nothing holds itself in the one as in the other. -/
theorem Agree.compiles (h : doc.Agree doc' f) (hcompile : ∃ schema, doc.compile = .ok schema) :
    ∃ schema, doc'.compile = .ok schema := by
  obtain ⟨schema, hcompile⟩ := hcompile
  have hnames := nodup_names_of_compile hcompile
  obtain ⟨bodies, hbodies, hacyclic⟩ := (compile_of_names hnames).1 ⟨schema, hcompile⟩
  choose bodies' hbodies' halike using fun i => h.body i (bodies i) (hbodies i)
  rw [compile_of_names (h.nodup_names hnames)]
  refine ⟨fun j => bodies' (f.symm j), ?_, ?_⟩
  · intro j
    have hbody := hbodies' (f.symm j)
    rw [f.apply_symm_apply] at hbody
    exact hbody
  · apply Graph.acyclic_of_edges f _ hacyclic
    intro i j hj
    simp only [f.symm_apply_apply, (halike i).mem_embedded] at hj
    obtain ⟨other, hother, rfl⟩ := hj
    rwa [f.symm_apply_apply]

/-- The bodies that are found in documents that agree are alike. -/
theorem Agree.alike_bodies (h : doc.Agree doc' f)
    {bodies : Fin doc.types.length → TypeBody doc.types.length}
    {bodies' : Fin doc'.types.length → TypeBody doc'.types.length}
    (hbodies : ∀ i, Compile.typeBody doc.types.get (doc.types.get i) = .ok (bodies i))
    (hbodies' : ∀ j, Compile.typeBody doc'.types.get (doc'.types.get j) = .ok (bodies' j))
    (i : Fin doc.types.length) : (bodies i).Alike f (bodies' (f i)) := by
  obtain ⟨body', hbody', halike⟩ := h.body i (bodies i) (hbodies i)
  rw [hbodies' (f i)] at hbody'
  cases hbody'
  exact halike

theorem Agree.alike (h : doc.Agree doc' f)
    (bodies : Fin doc.types.length → TypeBody doc.types.length)
    (bodies' : Fin doc'.types.length → TypeBody doc'.types.length)
    (layouts : Fin doc.types.length → NativeLayout) (layouts' : Fin doc'.types.length → NativeLayout)
    (hbodies : ∀ i, (bodies i).Alike f (bodies' (f i))) :
    (doc.assemble bodies layouts).Alike (doc'.assemble bodies' layouts') f where
  full i := by
    have hname := congrArg CompiledType.toTypeName (get_assemble doc bodies layouts i)
    have hname' := congrArg CompiledType.toTypeName (get_assemble doc' bodies' layouts' (f i))
    exact congrArg TypeName.full ((hname'.trans (h.name i)).trans hname.symm)
  extensibility i := by
    have hext := congrArg CompiledType.extensibility (get_assemble doc bodies layouts i)
    have hext' := congrArg CompiledType.extensibility (get_assemble doc' bodies' layouts' (f i))
    exact (hext'.trans (h.extensibility i)).trans hext.symm
  body i := by
    have hbody := congrArg CompiledType.body (get_assemble doc bodies layouts i)
    have hbody' := congrArg CompiledType.body (get_assemble doc' bodies' layouts' (f i))
    exact hbody.symm ▸ hbody'.symm ▸ hbodies i

end Document

end Cdr
