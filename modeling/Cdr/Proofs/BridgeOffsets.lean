import Cdr.Layout.Bridge
import Cdr.Proofs.DeclaredMembers
import Mathlib.Data.List.Dedup

/-! # Offsets by name

A foreign runtime is told where the fields of a type lie by their names. Of fields with one name the
last one displaces the others, so each name has one offset, and no field is lost where the names are
distinct. Compiling sees to that for the ids of the members only, not for their names.
-/

namespace Cdr

namespace Entries

variable {α : Type} {pairs : List (String × α)}

theorem get?_append (pairs others : List (String × α)) (name : String) :
    get? (pairs ++ others) name = (get? pairs name).or (get? others name) := by
  simp only [get?, List.find?_append, Option.map_or]

/-- What is put in last under a name is what stays. -/
theorem get?_insertAll_reverse (pairs : List (String × α)) (entries : Entries α) (name : String) :
    (insertAll pairs entries).get? name = (get? pairs.reverse name).or (entries.get? name) := by
  induction pairs generalizing entries with
  | nil => rfl
  | cons pair pairs ih =>
    have hstep : insertAll (pair :: pairs) entries =
        insertAll pairs (insert pair.1 pair.2 entries) := rfl
    rw [hstep, ih, get?_insert, List.reverse_cons, get?_append, get?_cons, get?_nil]
    by_cases hname : pair.1 = name
    · rw [if_pos hname, if_pos hname, Option.or_assoc, Option.some_or]
    · rw [if_neg hname, if_neg hname, Option.or_none]

theorem get?_ofList (pairs : List (String × α)) (name : String) :
    (ofList pairs).get? name = get? pairs.reverse name := by
  show (insertAll pairs []).get? name = _
  rw [get?_insertAll_reverse, get?_nil, Option.or_none]

theorem sorted_ofList (pairs : List (String × α)) : (ofList pairs).Sorted :=
  sorted_insertAll List.Pairwise.nil pairs

theorem nodup_names {entries : Entries α} (h : entries.Sorted) : entries.names.Nodup := by
  refine List.pairwise_map.2 (h.imp fun hlt heq => ?_)
  rw [heq] at hlt
  exact String.lt_irrefl _ hlt

theorem mem_names_ofList {name : String} :
    name ∈ (ofList pairs).names ↔ name ∈ pairs.map Prod.fst := by
  rw [← not_iff_not, ← get?_eq_none_iff, get?_ofList, get?_eq_none_iff, names, List.map_reverse,
    List.mem_reverse]

/-- There are as many entries as there are names. -/
theorem length_ofList (pairs : List (String × α)) :
    (ofList pairs).length = (pairs.map Prod.fst).dedup.length := by
  have hperm : (ofList pairs).names.Perm (pairs.map Prod.fst).dedup := by
    rw [List.perm_ext_iff_of_nodup (nodup_names (sorted_ofList pairs)) (List.nodup_dedup _)]
    intro name
    rw [mem_names_ofList, List.mem_dedup]
  rw [← hperm.length_eq, names, List.length_map]

theorem length_ofList_eq_iff : (ofList pairs).length = pairs.length ↔
    (pairs.map Prod.fst).Nodup := by
  have hlength : pairs.length = (pairs.map Prod.fst).length := (List.length_map Prod.fst).symm
  rw [length_ofList, ← List.dedup_eq_self, hlength]
  constructor
  · intro hlength
    exact (List.dedup_sublist _).eq_of_length hlength
  · intro hself
    rw [hself]

/-- Of the pairs with one name the last one stays. -/
theorem get?_ofList_of_last {before after : List (String × α)} {pair : String × α}
    (hpairs : pairs = before ++ pair :: after) (hlast : pair.1 ∉ after.map Prod.fst) :
    (ofList pairs).get? pair.1 = some pair.2 := by
  have hbehind : get? after.reverse pair.1 = none := by
    rw [get?_eq_none_iff, names, List.map_reverse, List.mem_reverse]
    exact hlast
  rw [get?_ofList, hpairs, List.reverse_append, List.reverse_cons, List.append_assoc, get?_append,
    hbehind, Option.none_or, List.singleton_append, get?_cons, if_pos rfl]

theorem mem_of_get?_ofList {name : String} {value : α}
    (h : (ofList pairs).get? name = some value) : (name, value) ∈ pairs := by
  rw [get?_ofList, get?, Option.map_eq_some_iff] at h
  obtain ⟨pair, hfind, rfl⟩ := h
  have hname := List.find?_some hfind
  rw [← eq_of_beq hname]
  exact List.mem_reverse.1 (List.mem_of_find?_eq_some hfind)

end Entries

namespace NativeLayout

def names (layout : NativeLayout) : List String :=
  layout.fields.map FieldLayout.name

/-- What a table of offsets by name has of the fields of a layout. -/
structure Tells (layout : NativeLayout) (offsets : Entries Nat) : Prop where
  sorted : offsets.Sorted
  names : ∀ name, name ∈ offsets.names ↔ name ∈ layout.names
  last : ∀ before f after, layout.fields = before ++ f :: after →
    (∀ g ∈ after, g.name ≠ f.name) → offsets.get? f.name = some f.offset
  count : offsets.length = layout.fields.length ↔ layout.names.Nodup
  offset : (∀ f ∈ layout.fields, offsets.get? f.name = some f.offset) ↔
    ∀ f ∈ layout.fields, ∀ g ∈ layout.fields, f.name = g.name → f.offset = g.offset

variable {layout : NativeLayout}

theorem tells_ofList (layout : NativeLayout) :
    layout.Tells (.ofList (layout.fields.map fun f => (f.name, f.offset))) := by
  let pairs := layout.fields.map fun f => (f.name, f.offset)
  have hnames : pairs.map Prod.fst = layout.names := by
    rw [List.map_map]
    rfl
  refine ⟨Entries.sorted_ofList pairs, fun name => ?names, ?last, ?count, ?offset⟩
  case names =>
    rw [Entries.mem_names_ofList, hnames]
  case last =>
    intro before f after hfields hlast
    have hsplit : pairs = before.map (fun f => (f.name, f.offset)) ++
        (f.name, f.offset) :: after.map fun f => (f.name, f.offset) := by
      show layout.fields.map (fun f => (f.name, f.offset)) = _
      rw [hfields, List.map_append, List.map_cons]
    exact Entries.get?_ofList_of_last hsplit (by simpa using hlast)
  case count =>
    rw [← hnames, ← Entries.length_ofList_eq_iff, List.length_map]
  case offset =>
    constructor
    · intro hall f hf g hg hname
      have hoffset := hall f hf
      rw [hname, hall g hg] at hoffset
      exact (Option.some.inj hoffset).symm
    · intro hagree f hf
      have hmem : f.name ∈ (Entries.ofList pairs).names := by
        rw [Entries.mem_names_ofList, hnames]
        exact List.mem_map_of_mem hf
      cases hget : (Entries.ofList pairs).get? f.name with
      | none => exact absurd hmem ((Entries.get?_eq_none_iff _ _).1 hget)
      | some offset =>
        obtain ⟨g, hg, hpair⟩ := List.mem_map.1 (Entries.mem_of_get?_ofList hget)
        obtain ⟨hname, rfl⟩ := Prod.mk.inj hpair
        rw [hagree f hf g hg hname.symm]

/-- Where the names are distinct, every field is found under its name. -/
theorem Tells.offset_of_nodup {offsets : Entries Nat} (h : layout.Tells offsets)
    (hnames : layout.names.Nodup) : ∀ f ∈ layout.fields, offsets.get? f.name = some f.offset := by
  rw [h.offset]
  intro f hf g hg hname
  rw [List.inj_on_of_nodup_map hnames hf hg hname]

end NativeLayout

theorem Schema.LayoutEquations.names {schema : Schema} {i : Fin schema.size}
    (h : schema.LayoutEquations i) :
    (schema.get i).layout.names = (schema.get i).body.inMemory.map Member.name := by
  have hparts := congrArg (List.map Prod.fst) h.parts
  rw [NativeLayout.parts, List.map_map, List.map_map] at hparts
  exact hparts

namespace Document

/-- The fields of a layout are named as the fields of the declaration. The foreign runtime is told
    one offset for each name, that of the last field which bears it. So no field is lost exactly when
    the declaration gives each of its members a name of its own, and then every field is told by its
    name. -/
theorem bridgeLayout_tells {doc : Document} {schema : Schema} (h : doc.compile = .ok schema)
    (i : Fin schema.size) :
    ∃ t, doc.types[i.val]? = some t ∧
      (schema.get i).layout.names.Perm (t.memberFields.map FieldDecl.name) ∧
      (schema.get i).layout.Tells (schema.get i).bridgeLayout.offsets ∧
      ((schema.get i).bridgeLayout.offsets.length = (schema.get i).layout.fields.length ↔
        (t.memberFields.map FieldDecl.name).Nodup) ∧
      ((t.memberFields.map FieldDecl.name).Nodup → ∀ f ∈ (schema.get i).layout.fields,
        (schema.get i).bridgeLayout.offsets.get? f.name = some f.offset) := by
  obtain ⟨decls, hdecls, hdistinct, hbodies⟩ := declarations_of_compile h
  have hnames : (schema.get i).layout.names.Perm
      ((decls i).memberFields.map FieldDecl.name) := by
    rw [((layouts_consistent h).2 i).names]
    exact Compile.names_inMemory hdistinct (hbodies i)
  have htells : (schema.get i).layout.Tells (schema.get i).bridgeLayout.offsets :=
    NativeLayout.tells_ofList _
  refine ⟨decls i, hdecls i, hnames, htells, ?_, ?_⟩
  · rw [htells.count, hnames.nodup_iff]
  · intro hnodup
    exact htells.offset_of_nodup (hnames.nodup_iff.2 hnodup)

/-- Every type of the drawings gives its members names of their own, so all offsets are told. -/
theorem bridgeLayout_tells_drawing :
    ∃ schema, drawingDoc.compile = .ok schema ∧
      (∀ i, ∀ f ∈ (schema.get i).layout.fields,
        (schema.get i).bridgeLayout.offsets.get? f.name = some f.offset) ∧
      schema.types.toList.map (fun t => t.bridgeLayout.offsets) =
        [[("parent", 56), ("parts", 64), ("shapes", 8), ("tag", 0)],
          [("at", 8), ("kind", 0), ("text", 8)], [("x", 0), ("y", 8)], []] := by
  have hoffsets : drawingDoc.compile.toOption.map (fun schema =>
      schema.types.toList.map fun t => t.bridgeLayout.offsets) =
        some [[("parent", 56), ("parts", 64), ("shapes", 8), ("tag", 0)],
          [("at", 8), ("kind", 0), ("text", 8)], [("x", 0), ("y", 8)], []] := by decide +kernel
  have hnames : ∀ t ∈ drawingDoc.types, (t.memberFields.map FieldDecl.name).Nodup := by decide
  cases h : drawingDoc.compile with
  | error fault => simp [h, Except.toOption] at hoffsets
  | ok schema =>
    refine ⟨schema, rfl, fun i => ?_, by simpa [h, Except.toOption] using hoffsets⟩
    obtain ⟨t, ht, -, -, -, hall⟩ := bridgeLayout_tells h i
    exact hall (hnames t (List.mem_of_getElem? ht))

/-- A byte and a wider number under one name. -/
def namesakeDoc : Document where
  types := [
    { name := "Pair"
      scope := ""
      fields := [FieldDecl.new "x" "int8", FieldDecl.new "x" "int32"] }]

def namesakes : Schema where
  size := 1
  types := #v[
    { name := "Pair"
      scope := ""
      extensibility := .final
      layout := .struct [("x", ⟨1, 1⟩), ("x", ⟨4, 4⟩)]
      body := .struct ⟨[⟨"x", 0, .primitive .int8, false, false⟩,
        ⟨"x", 1, .primitive .int32, false, false⟩]⟩ }]

/-- The members of a struct may bear one name, and then the offset of the first is lost. -/
theorem bridgeLayout_loses_namesake :
    ¬∀ (doc : Document) (schema : Schema) (i : Fin schema.size), doc.compile = .ok schema →
      (schema.get i).bridgeLayout.offsets.length = (schema.get i).layout.fields.length ∧
        ∀ f ∈ (schema.get i).layout.fields,
          (schema.get i).bridgeLayout.offsets.get? f.name = some f.offset := by
  intro hall
  have hcompile : namesakeDoc.compile = .ok namesakes := by decide +kernel
  let pair : Fin namesakes.size := ⟨0, by decide⟩
  have hfields : (namesakes.get pair).layout.fields = [⟨"x", 0, 1, 1⟩, ⟨"x", 4, 4, 4⟩] := rfl
  have hoffsets : (namesakes.get pair).bridgeLayout.offsets = [("x", 4)] := rfl
  obtain ⟨hcount, -⟩ := hall namesakeDoc namesakes pair hcompile
  rw [hfields, hoffsets] at hcount
  cases hcount

end Document

end Cdr
