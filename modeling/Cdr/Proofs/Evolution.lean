import Cdr.Proofs.ReadAcross
import Cdr.Proofs.WellFormed

/-! # Schemas that grow

A later version of a schema may add members to the framed structs of an earlier one, behind those
that are there. A reader of the earlier version drops them from every struct, and a reader of the
later one gives them their defaults.
-/

namespace Cdr

namespace Entries

variable {α β : Type}

/-- Puts other values under the same names. -/
def mapValues (f : String → α → β) (entries : Entries α) : Entries β :=
  entries.map fun entry => (entry.1, f entry.1 entry.2)

@[simp] theorem names_mapValues (f : String → α → β) (entries : Entries α) :
    (entries.mapValues f).names = entries.names := by
  simp [names, mapValues]

theorem sorted_mapValues {entries : Entries α} (h : entries.Sorted) (f : String → α → β) :
    (entries.mapValues f).Sorted :=
  List.pairwise_map.2 h

theorem get?_mapValues (f : String → α → β) (entries : Entries α) (name : String) :
    (entries.mapValues f).get? name = (entries.get? name).map (f name) := by
  induction entries with
  | nil => rfl
  | cons entry rest ih =>
    have hcons : mapValues f (entry :: rest) = (entry.1, f entry.1 entry.2) :: mapValues f rest :=
      rfl
    rw [hcons, get?_cons, get?_cons]
    by_cases h : entry.1 = name
    · subst h
      simp
    · simp [h, ih]

theorem get?_filter (p : String → Bool) (entries : Entries α) (name : String) :
    get? (entries.filter fun entry => p entry.1) name =
      if p name then entries.get? name else none := by
  induction entries with
  | nil => simp [get?_nil]
  | cons entry rest ih =>
    by_cases hname : entry.1 = name
    · subst hname
      by_cases hp : p entry.1 <;> simp [hp, get?_cons, ih]
    · by_cases hp : p entry.1 <;> simp [hp, get?_cons, ih, hname]

/-- Whatever is put in has a name of its own or one that was there. -/
theorem mem_names_insertAll {pairs : List (String × α)} {entries : Entries α} {name : String}
    (h : name ∈ (insertAll pairs entries).names) :
    name ∈ pairs.map Prod.fst ∨ name ∈ entries.names := by
  induction pairs generalizing entries with
  | nil => exact .inr h
  | cons pair rest ih =>
    have h : name ∈ (insertAll rest (insert pair.1 pair.2 entries)).names := h
    rcases ih h with hrest | hfirst
    · exact .inl (List.mem_cons_of_mem _ hrest)
    · obtain ⟨entry, hentry, rfl⟩ := List.mem_map.1 hfirst
      rcases mem_insert_name hentry with hname | hmem
      · exact .inl (hname ▸ List.mem_cons_self)
      · exact .inr (List.mem_map_of_mem hmem)

end Entries

namespace StructType

variable {n : Nat}

/-- The type of the first member with a name. -/
def typeOf? (s : StructType n) (name : String) : Option (MemberType n) :=
  (s.members.find? fun m => m.name == name).map Member.type

theorem typeOf?_eq {s : StructType n} (hdistinct : (s.members.map Member.name).Nodup)
    {m : Member n} (hm : m ∈ s.members) : s.typeOf? m.name = some m.type := by
  unfold typeOf?
  generalize s.members = ms at hdistinct hm
  induction ms with
  | nil => cases hm
  | cons first rest ih =>
    obtain ⟨hfirst, hrest⟩ := List.nodup_cons.1 hdistinct
    rcases List.mem_cons.1 hm with rfl | hm
    · simp
    · have hne : first.name ≠ m.name := fun h => hfirst (h ▸ List.mem_map_of_mem hm)
      simp [hne, ih hrest hm]

end StructType

namespace Schema

/-- The entries of a struct with the values of its members seen as `view` tells. -/
def viewed {n : Nat} (s : StructType n) (view : Fin n → Value → Value) (fields : Entries Value) :
    Entries Value :=
  Entries.mapValues (fun name v => (s.typeOf? name).elim v fun t => t.mapWith view v) fields

/-- Rebuilds every struct in a value that may be so many types deep. `entries` makes its entries of
    those that its members have been rebuilt to. -/
def rebuildWithin (schema : Schema)
    (entries : StructType schema.size → Entries Value → Entries Value) :
    Nat → Fin schema.size → Value → Value
  | 0, _, v => v
  | levels + 1, i, v =>
    let view := rebuildWithin schema entries levels
    match (schema.get i).body, v with
    | .struct s, .struct fields => .struct (entries s (viewed s view fields))
    | .union u, .union d arm =>
      .union d (arm.map fun entry => (entry.1, (u.select d).elim entry.2
        fun selected => selected.member.type.mapWith view entry.2))
    | _, v => v

section

variable {schema : Schema} {entries : StructType schema.size → Entries Value → Entries Value}
  {i : Fin schema.size}

theorem rebuildWithin_struct {s : StructType schema.size}
    (hbody : (schema.get i).body = .struct s) (levels : Nat) (fields : Entries Value) :
    schema.rebuildWithin entries (levels + 1) i (.struct fields) =
      .struct (entries s (viewed s (schema.rebuildWithin entries levels) fields)) := by
  simp only [rebuildWithin, hbody]

theorem rebuildWithin_union_none {u : UnionType schema.size}
    (hbody : (schema.get i).body = .union u) (levels : Nat) (d : Int64) :
    schema.rebuildWithin entries (levels + 1) i (.union d none) = .union d none := by
  simp only [rebuildWithin, hbody, Option.map_none]

theorem rebuildWithin_union_some {u : UnionType schema.size}
    (hbody : (schema.get i).body = .union u) (levels : Nat) (d : Int64) (name : String) (v : Value)
    (arm : UnionArm schema.size) (hselect : u.select d = some arm) :
    schema.rebuildWithin entries (levels + 1) i (.union d (some (name, v))) =
      .union d (some (name, arm.member.type.mapWith (schema.rebuildWithin entries levels) v)) := by
  simp only [rebuildWithin, hbody, Option.map_some, hselect, Option.elim]

theorem rebuildWithin_enumeration {e : EnumType} (hbody : (schema.get i).body = .enumeration e)
    (levels : Nat) (number : Int32) :
    schema.rebuildWithin entries (levels + 1) i (.enumeration number) = .enumeration number := by
  simp only [rebuildWithin, hbody]

end

/-- The entries that a struct has members for. -/
def known {n : Nat} (s : StructType n) (fields : Entries Value) : Entries Value :=
  fields.filter fun entry => s.members.any fun m => m.name == entry.1

/-- The entries of a struct, with the default for each member without one that is not optional. -/
def complete (schema : Schema) (s : StructType schema.size) (fields : Entries Value) :
    Entries Value :=
  Entries.insertAll ((s.members.filter fun m => !m.optional && (fields.get? m.name).isNone).map
    fun m => (m.name, schema.default m.type)) fields

/-- A value without the entries that its structs have no members for. -/
def restrict (schema : Schema) (i : Fin schema.size) (v : Value) : Value :=
  schema.rebuildWithin known maxDepth i v

/-- A value with the defaults of those members that its structs lack, optional ones apart. -/
def extend (schema : Schema) (i : Fin schema.size) (v : Value) : Value :=
  schema.rebuildWithin schema.complete maxDepth i v

end Schema

/-- How what a type is made of may change from one version to the next. Members that are added to a
    framed struct stand behind the others on the wire. -/
inductive TypeBody.Evolves {n k : Nat} (Meets : Fin n → Fin k → Prop) (framed : Bool) :
    TypeBody n → TypeBody k → Prop
  | struct {s : StructType n} {s' : StructType k} (common extras : List (Member k))
    (hwire : s'.wireMembers = common ++ extras)
    (hcommon : List.Forall₂ (Member.Corresponds Meets) s.wireMembers common)
    (hbare : framed = false → extras = []) : Evolves Meets framed (.struct s) (.struct s')
  | union {u : UnionType n} {u' : UnionType k} (h : u.Corresponds Meets u') :
    Evolves Meets framed (.union u) (.union u')
  | enumeration (e : EnumType) : Evolves Meets framed (.enumeration e) (.enumeration e)

/-- Which types of a schema have become which of a later version. -/
structure Schema.Evolves (old new : Schema) (Meets : Fin old.size → Fin new.size → Prop) :
    Prop where
  delimited : ∀ i j, Meets i j →
    Representation.xcdr2.isDelimited (new.get j).extensibility =
      Representation.xcdr2.isDelimited (old.get i).extensibility
  body : ∀ i j, Meets i j → (old.get i).body.Evolves Meets
    (Representation.xcdr2.isDelimited (old.get i).extensibility) (new.get j).body

namespace Schema

section

variable {schema : Schema} {s : StructType schema.size} {fields : Entries Value}
  {view : Fin schema.size → Value → Value}

theorem get?_viewed (hdistinct : (s.members.map Member.name).Nodup) {m : Member schema.size}
    (hm : m ∈ s.members) :
    (viewed s view fields).get? m.name = (fields.get? m.name).map (m.type.mapWith view) := by
  rw [viewed, Entries.get?_mapValues, StructType.typeOf?_eq hdistinct hm]
  rfl

theorem sorted_known (s : StructType schema.size) (hsorted : fields.Sorted) :
    (known s fields).Sorted :=
  List.Pairwise.filter _ hsorted

theorem names_known {name : String} (h : name ∈ (known s fields).names) :
    name ∈ s.wireMembers.map Member.name := by
  obtain ⟨entry, hentry, rfl⟩ := List.mem_map.1 h
  obtain ⟨m, hm, heq⟩ := List.any_eq_true.1 (List.mem_filter.1 hentry).2
  exact List.mem_map.2 ⟨m, s.perm_wireMembers.mem_iff.2 hm, eq_of_beq heq⟩

theorem get?_known {m : Member schema.size} (hm : m ∈ s.members) :
    (known s fields).get? m.name = fields.get? m.name := by
  have hknown : (s.members.any fun other => other.name == m.name) = true :=
    List.any_eq_true.2 ⟨m, hm, beq_self_eq_true _⟩
  rw [known, Entries.get?_filter (fun name => s.members.any fun other => other.name == name),
    if_pos hknown]

/-- Of a struct, the entries of the known members are seen, and no others. -/
theorem shows_known (hdistinct : (s.members.map Member.name).Nodup) (hsorted : fields.Sorted) :
    schema.Shows view s.wireMembers [] fields (known s (viewed s view fields)) where
  sorted := sorted_known s (Entries.sorted_mapValues hsorted _)
  names := by
    intro name hname
    rw [List.append_nil]
    exact names_known hname
  common := by
    intro m hm
    have hm := s.perm_wireMembers.mem_iff.1 hm
    rw [get?_known hm]
    exact get?_viewed hdistinct hm
  missing := by simp

/-- What a look-up finds in a completed struct. -/
theorem get?_complete (hdistinct : (s.members.map Member.name).Nodup) {m : Member schema.size}
    (hm : m ∈ s.members) :
    (complete schema s fields).get? m.name =
      if !m.optional && (fields.get? m.name).isNone then some (schema.default m.type)
      else fields.get? m.name := by
  let find : String → Option Value := fun name => (s.typeOf? name).map schema.default
  let lacking := s.members.filter fun m => !m.optional && (fields.get? m.name).isNone
  have hfind : ∀ pair ∈ lacking.map fun m => (m.name, schema.default m.type),
      find pair.1 = some pair.2 := by
    intro pair hpair
    obtain ⟨other, hother, rfl⟩ := List.mem_map.1 hpair
    simp only [find, StructType.typeOf?_eq hdistinct (List.mem_filter.1 hother).1, Option.map_some]
  have hlacking : m.name ∈ (lacking.map fun m => (m.name, schema.default m.type)).map Prod.fst ↔
      (!m.optional && (fields.get? m.name).isNone) = true := by
    rw [List.map_map, List.mem_map]
    refine ⟨?_, fun h => ⟨m, List.mem_filter.2 ⟨hm, h⟩, rfl⟩⟩
    rintro ⟨other, hother, hname⟩
    obtain ⟨hmem, hother⟩ := List.mem_filter.1 hother
    rw [← List.inj_on_of_nodup_map hdistinct hmem hm hname]
    exact hother
  have hget := Entries.get?_insertAll hfind fields m.name
  simp only [find, StructType.typeOf?_eq hdistinct hm, Option.map_some, hlacking] at hget
  exact hget

/-- A struct with entries for its first members is seen with the defaults of the others. -/
theorem shows_complete {common missing : List (Member schema.size)}
    (hdistinct : (s.members.map Member.name).Nodup) (hwire : s.wireMembers = common ++ missing)
    (hsorted : fields.Sorted) (hnames : ∀ name ∈ fields.names, name ∈ common.map Member.name)
    (hrequired : ∀ m ∈ common, m.optional = false → (fields.get? m.name).isSome) :
    schema.Shows view common missing fields (complete schema s (viewed s view fields)) where
  sorted := Entries.sorted_insertAll (Entries.sorted_mapValues hsorted _) _
  names := by
    intro name hname
    rcases Entries.mem_names_insertAll hname with hmissing | hthere
    · rw [List.map_map] at hmissing
      obtain ⟨m, hm, rfl⟩ := List.mem_map.1 hmissing
      rw [← hwire]
      exact List.mem_map_of_mem (s.perm_wireMembers.mem_iff.2 (List.mem_filter.1 hm).1)
    · rw [viewed, Entries.names_mapValues] at hthere
      rw [List.map_append]
      exact List.mem_append_left _ (hnames name hthere)
  common := by
    intro m hm
    have hmem : m ∈ s.members := by
      rw [← s.perm_wireMembers.mem_iff, hwire]
      exact List.mem_append_left _ hm
    rw [get?_complete hdistinct hmem, get?_viewed hdistinct hmem]
    cases hoptional : m.optional with
    | true => simp
    | false =>
      obtain ⟨v, hget⟩ := Option.isSome_iff_exists.1 (hrequired m hm hoptional)
      simp [hget]
  missing := by
    intro m hm
    have hmem : m ∈ s.members := by
      rw [← s.perm_wireMembers.mem_iff, hwire]
      exact List.mem_append_right _ hm
    have hfresh : fields.get? m.name = none := by
      rw [Entries.get?_eq_none_iff]
      intro hname
      have hnodup : ((common ++ missing).map Member.name).Nodup := by
        rw [← hwire]
        exact (s.perm_wireMembers.map Member.name).nodup_iff.2 hdistinct
      rw [List.map_append] at hnodup
      exact List.disjoint_of_nodup_append hnodup (hnames _ hname) (List.mem_map_of_mem hm)
    rw [get?_complete hdistinct hmem, get?_viewed hdistinct hmem, hfresh]
    cases m.optional with
    | true => rfl
    | false => rfl

end

namespace Evolves

variable {old new : Schema} {Meets : Fin old.size → Fin new.size → Prop}

/-- What is written under the later version is read under the earlier one without what this does not
    know. -/
def backward (h : old.Evolves new Meets) (hdistinct : old.DistinctNames) :
    Crossing .xcdr2 new old where
  Meets := fun j i => Meets i j
  view := old.rebuildWithin known
  delimited := fun hmeets => (h.delimited _ _ hmeets).symm
  struct := by
    intro j i s' hmeets hbody'
    have hevolves := h.body i j hmeets
    rw [hbody'] at hevolves
    generalize hbody : (old.get i).body = body at hevolves
    cases hevolves with
    | @struct s _ common extras hwire hcommon hbare =>
      refine ⟨s, common, extras, s.wireMembers, [], rfl, ?_, ?_⟩
      · refine ⟨hwire, (List.append_nil _).symm, ?_, .inr rfl, ?_⟩
        · exact List.Forall₂.flip (hcommon.imp fun _ _ hm => hm.flip)
        · rw [h.delimited i j hmeets]
          exact fun hunframed => ⟨hbare hunframed, rfl⟩
      · intro levels fields hsorted _ _
        exact ⟨_, rebuildWithin_struct hbody levels fields,
          shows_known (hdistinct.nodup hbody) hsorted⟩
  union := by
    intro j i u' hmeets hbody'
    have hevolves := h.body i j hmeets
    rw [hbody'] at hevolves
    generalize hbody : (old.get i).body = body at hevolves
    cases hevolves with
    | @union u _ hu =>
      exact ⟨u, rfl, hu.flip, rebuildWithin_union_none hbody, rebuildWithin_union_some hbody⟩
  enumeration := by
    intro j i e hmeets hbody'
    have hevolves := h.body i j hmeets
    rw [hbody'] at hevolves
    generalize hbody : (old.get i).body = body at hevolves
    cases hevolves
    exact ⟨⟨e, rfl⟩, rebuildWithin_enumeration hbody⟩

/-- What is written under the earlier version is read under the later one with the defaults of what
    is new. -/
def forward (h : old.Evolves new Meets) (hdistinct : new.DistinctNames) :
    Crossing .xcdr2 old new where
  Meets := Meets
  view := new.rebuildWithin new.complete
  delimited := h.delimited _ _
  struct := by
    intro i j s hmeets hbody
    have hevolves := h.body i j hmeets
    rw [hbody] at hevolves
    generalize hbody' : (new.get j).body = body at hevolves
    cases hevolves with
    | @struct _ s' common extras hwire hcommon hbare =>
      refine ⟨s', s.wireMembers, [], common, extras, rfl, ?_, ?_⟩
      · exact ⟨(List.append_nil _).symm, hwire, hcommon, .inl rfl,
          fun hunframed => ⟨rfl, hbare hunframed⟩⟩
      · intro levels fields hsorted hnames hrequired
        refine ⟨_, rebuildWithin_struct hbody' levels fields,
          shows_complete (hdistinct.nodup hbody') hwire hsorted ?_ ?_⟩
        · intro name hname
          obtain ⟨m, hm, rfl⟩ := List.mem_map.1 (hnames name hname)
          obtain ⟨m', hm', hcorresponds⟩ :=
            exists_right_of_mem hcommon (s.perm_wireMembers.mem_iff.2 hm)
          exact List.mem_map.2 ⟨m', hm', hcorresponds.name⟩
        · intro m' hm' halways
          obtain ⟨m, hm, hcorresponds⟩ := exists_left_of_mem hcommon hm'
          rw [hcorresponds.name]
          exact hrequired m (s.perm_wireMembers.mem_iff.1 hm)
            (hcorresponds.optional.symm.trans halways)
  union := by
    intro i j u hmeets hbody
    have hevolves := h.body i j hmeets
    rw [hbody] at hevolves
    generalize hbody' : (new.get j).body = body at hevolves
    cases hevolves with
    | @union _ u' hu =>
      exact ⟨u', rfl, hu, rebuildWithin_union_none hbody', rebuildWithin_union_some hbody'⟩
  enumeration := by
    intro i j e hmeets hbody
    have hevolves := h.body i j hmeets
    rw [hbody] at hevolves
    generalize hbody' : (new.get j).body = body at hevolves
    cases hevolves
    exact ⟨⟨e, rfl⟩, rebuildWithin_enumeration hbody'⟩

end Evolves

/-- A canonical value that is written under one schema is decoded under another as the crossing
    tells. -/
theorem decode_of_encode_across {writer reader : Schema} {e : Encoding}
    (across : Crossing e.repr writer reader) {i : Fin writer.size} {j : Fin reader.size}
    (hmeets : across.Meets i j) {v : Value} {offset n : Nat} {sink : Sink}
    (hwritten : writer.encode e (.appendingTo #[]) i v offset = (.ok n, sink))
    (hcanonical : writer.Canonical e i v offset) :
    n = sink.bytes.size ∧ (reader.decode ⟨sink.bytes, e, offset⟩ j .infinite).result =
      .ok (across.view maxDepth j v, n) := by
  obtain ⟨b, himage, rfl, hbytes⟩ := writer.image_of_encode e i v hwritten
  have hdemand := hcanonical b himage
  rw [typeDemand_eq] at hdemand
  rw [hbytes]
  have htells := announced_tells (⟨b.toArray, e, offset⟩ : Source) across
  exact ⟨rfl, decode_across across htells hmeets himage hdemand⟩

/-- Versions of a schema read what each other writes. A canonical value that is written under the
    later one is decoded under the earlier one without the entries this has no members for, and a
    canonical value that is written under the earlier one is decoded under the later one with the
    defaults of the members that are new. All the bytes are taken in both cases. -/
theorem decode_evolved {old new : Schema} {Meets : Fin old.size → Fin new.size → Prop}
    (h : old.Evolves new Meets) (hold : old.DistinctNames) (hnew : new.DistinctNames)
    {i : Fin old.size} {j : Fin new.size} (hmeets : Meets i j) (order : ByteOrder) (offset : Nat) :
    let e : Encoding := ⟨.xcdr2, order⟩
    (∀ v n sink, new.encode e (.appendingTo #[]) j v offset = (.ok n, sink) →
      new.Canonical e j v offset →
      n = sink.bytes.size ∧
        (old.decode ⟨sink.bytes, e, offset⟩ i .infinite).result = .ok (old.restrict i v, n)) ∧
    (∀ v n sink, old.encode e (.appendingTo #[]) i v offset = (.ok n, sink) →
      old.Canonical e i v offset →
      n = sink.bytes.size ∧
        (new.decode ⟨sink.bytes, e, offset⟩ j .infinite).result = .ok (new.extend j v, n)) := by
  intro e
  let backward : Crossing e.repr new old := h.backward hold
  let forward : Crossing e.repr old new := h.forward hnew
  exact ⟨fun _ _ _ => decode_of_encode_across backward hmeets,
    fun _ _ _ => decode_of_encode_across forward hmeets⟩

/-- A track of points that may bear a note. -/
def trackDoc : Document where
  types := [
    { name := "Point"
      scope := ""
      extensibility := .appendable
      fields := [FieldDecl.new "x" "int32", (FieldDecl.new "note" "string").optional] },
    { name := "Track"
      scope := ""
      extensibility := .appendable
      fields := [FieldDecl.new "points" "sequence<Point>"] }]

def track : Schema where
  size := 2
  types := #v[
    { name := "Point"
      scope := ""
      extensibility := .appendable
      layout := .struct [("x", ⟨4, 4⟩), ("note", .pointer)]
      body := .struct ⟨[⟨"x", 0, .primitive .int32, false, false⟩,
        ⟨"note", 1, .string none, true, false⟩]⟩ },
    { name := "Track"
      scope := ""
      extensibility := .appendable
      layout := .struct [("points", .sequence)]
      body := .struct ⟨[⟨"points", 0, .sequence (.type 0) none, false, false⟩]⟩ }]

/-- The track of a later version, with a label and with more told of every point. -/
def labelledDoc : Document where
  types := [
    { name := "Point"
      scope := ""
      extensibility := .appendable
      fields := [FieldDecl.new "x" "int32", (FieldDecl.new "note" "string").optional,
        FieldDecl.new "y" "double", (FieldDecl.new "tag" "int32").optional] },
    { name := "Track"
      scope := ""
      extensibility := .appendable
      fields := [FieldDecl.new "points" "sequence<Point>", FieldDecl.new "label" "string"] }]

def labelled : Schema where
  size := 2
  types := #v[
    { name := "Point"
      scope := ""
      extensibility := .appendable
      layout := .struct [("x", ⟨4, 4⟩), ("note", .pointer), ("y", ⟨8, 8⟩), ("tag", .pointer)]
      body := .struct ⟨[⟨"x", 0, .primitive .int32, false, false⟩,
        ⟨"note", 1, .string none, true, false⟩, ⟨"y", 2, .primitive .float64, false, false⟩,
        ⟨"tag", 3, .primitive .int32, true, false⟩]⟩ },
    { name := "Track"
      scope := ""
      extensibility := .appendable
      layout := .struct [("points", .sequence), ("label", .pointer)]
      body := .struct ⟨[⟨"points", 0, .sequence (.type 0) none, false, false⟩,
        ⟨"label", 1, .string none, false, false⟩]⟩ }]

/-- The types of one version have become those of the other, in their order. -/
theorem track_evolves_labelled : track.Evolves labelled fun i j => i.val = j.val where
  delimited := by decide
  body := by
    rintro ⟨_ | _ | i, hi⟩ ⟨j, hj⟩ rfl
    · refine .struct [⟨"x", 0, .primitive .int32, false, false⟩,
        ⟨"note", 1, .string none, true, false⟩] _ rfl (.cons ?_ (.cons ?_ .nil)) nofun
      · exact ⟨rfl, rfl, rfl, .primitive .int32⟩
      · exact ⟨rfl, rfl, rfl, .string none⟩
    · refine .struct [⟨"points", 0, .sequence (.type ⟨0, by decide⟩) none, false, false⟩] _ rfl
        (.cons ?_ .nil) nofun
      exact ⟨rfl, rfl, rfl, .sequence none (.type rfl)⟩
    · exact absurd hi (by simp [track])
/-- A track as each version knows it, with its bytes. -/
def plainTrack : Value :=
  .struct [("points", .sequence [
    .struct [("note", .string "hi"), ("x", .scalar (.int32 1))],
    .struct [("x", .scalar (.int32 2))]])]

def plainBytes : Array UInt8 :=
  #[32, 0, 0, 0, 2, 0, 0, 0, 15, 0, 0, 0, 1, 0, 0, 0, 0x39, 0, 0, 0, 3, 0, 0, 0, 0x68, 0x69, 0, 0,
    4, 0, 0, 0, 2, 0, 0, 0]

def labelledTrack : Value :=
  .struct [("label", .string "a"), ("points", .sequence [
    .struct [("note", .string ""), ("tag", .scalar (.int32 7)), ("x", .scalar (.int32 2)),
      ("y", .scalar (.float64 0x3fe0000000000000))]])]

def labelledBytes : Array UInt8 :=
  #[46, 0, 0, 0, 1, 0, 0, 0, 32, 0, 0, 0, 2, 0, 0, 0, 0x29, 0, 0, 0, 1, 0, 0, 0, 0, 0, 0, 0,
    0, 0, 0, 0, 0, 0, 0xe0, 0x3f, 0x23, 0, 0, 0, 7, 0, 0, 0, 2, 0, 0, 0, 0x61, 0]

/-- The earlier version drops the label, and of the point what it does not know. The later one gives
    a track without a label an empty one, and points without a height the height 0. -/
theorem decode_evolved_track :
    trackDoc.compile = .ok track ∧ labelledDoc.compile = .ok labelled ∧
      let e : Encoding := ⟨.xcdr2, .little⟩
      let earlier : Fin track.size := ⟨1, by decide⟩
      let later : Fin labelled.size := ⟨1, by decide⟩
      labelled.encode e (.appendingTo #[]) later labelledTrack 0 =
          (.ok 50, .appendingTo labelledBytes) ∧
        (track.decode ⟨labelledBytes, e, 0⟩ earlier .infinite).result =
          .ok (.struct [("points", .sequence [
            .struct [("note", .string ""), ("x", .scalar (.int32 2))]])], 50) ∧
        track.encode e (.appendingTo #[]) earlier plainTrack 0 =
          (.ok 36, .appendingTo plainBytes) ∧
        (labelled.decode ⟨plainBytes, e, 0⟩ later .infinite).result =
          .ok (.struct [("label", .string ""), ("points", .sequence [
            .struct [("note", .string "hi"), ("x", .scalar (.int32 1)), ("y", .scalar (.float64 0))],
            .struct [("x", .scalar (.int32 2)), ("y", .scalar (.float64 0))]])], 36) := by
  refine ⟨by decide +kernel, by decide +kernel, ?_⟩
  intro e earlier later
  have hmeets : earlier.val = later.val := rfl
  obtain ⟨hbackward, hforward⟩ := decode_evolved track_evolves_labelled (by decide) (by decide)
    hmeets .little 0
  have hlater : labelled.encode e (.appendingTo #[]) later labelledTrack 0 =
      (.ok 50, .appendingTo labelledBytes) := by decide +kernel
  have hearlier : track.encode e (.appendingTo #[]) earlier plainTrack 0 =
      (.ok 36, .appendingTo plainBytes) := by decide +kernel
  have hdropped := (hbackward labelledTrack 50 _ hlater (by decide +kernel)).2
  have hfilled := (hforward plainTrack 36 _ hearlier (by decide +kernel)).2
  exact ⟨hlater, hdropped, hearlier, hfilled⟩

end Schema

end Cdr
