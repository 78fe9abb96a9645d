import Cdr.Proofs.AlikeSchemas
import Mathlib.Data.List.NodupEquivFin

/-! # The order of the declarations

A document may declare its types in any order. The order is only seen in the indices of the types:
the same types are compiled, with the same layouts, and no pass tells them apart.
-/

namespace Cdr

variable {n k : Nat}

/-- Distinct items in another order are the same items at other indices. -/
theorem exists_equiv_of_perm {α : Type} [DecidableEq α] {xs ys : List α} (h : xs.Perm ys)
    (hnodup : xs.Nodup) :
    ∃ f : Fin xs.length ≃ Fin ys.length, ∀ i, ys.get (f i) = xs.get i := by
  let among : { x // x ∈ xs } ≃ { y // y ∈ ys } := Equiv.subtypeEquivRight fun _ => h.mem_iff
  have hnodup' := h.nodup_iff.1 hnodup
  refine ⟨((hnodup.getEquiv xs).trans among).trans (hnodup'.getEquiv ys).symm, ?_⟩
  intro i
  exact congrArg Subtype.val
    ((hnodup'.getEquiv ys).apply_symm_apply (among (hnodup.getEquiv xs i)))

/-- Bodies that are the same but for the indices have the same layouts, in whatever order they are
    laid out. -/
theorem Compile.storedLayout_renumbered {f : Fin n ≃ Fin k} {bodies : Fin n → TypeBody n}
    {bodies' : Fin k → TypeBody k} {order : List (Fin n)} {order' : List (Fin k)}
    (horder : dependencyOrder bodies = .ok order) (horder' : dependencyOrder bodies' = .ok order')
    (hbodies : ∀ i, bodies' (f i) = (bodies i).rename f) (i : Fin n) :
    storedLayout bodies' order' (f i) = storedLayout bodies order i := by
  obtain ⟨hordered, hall⟩ := ordered_of_dependencyOrder horder
  have hsame : ∀ j ∈ order.reverse,
      storedLayout bodies' order' (f j) = storedLayout bodies order j := by
    refine Graph.induction_of_ordered
      (p := fun j => storedLayout bodies' order' (f j) = storedLayout bodies order j) hordered ?_
    intro j hembedded
    rw [storedLayout_eq horder', storedLayout_eq horder, hbodies, TypeBody.layoutWith_rename]
    apply TypeBody.layoutWith_congr
    intro other hother
    rw [hembedded other hother]
  exact hsame i (List.mem_reverse.2 (hall i))

namespace Document

variable {doc doc' : Document}

theorem renumbered {f : Fin doc.types.length ≃ Fin doc'.types.length}
    (hget : ∀ i, doc'.types.get (f i) = doc.types.get i)
    (hnames : (doc.types.map fun t => t.full).Nodup) :
    Compile.Renumbered f doc.types.get doc'.types.get where
  name i := by rw [hget]
  kind i := by rw [hget]
  distinct := full_injective hnames

theorem typeBody_of_get {f : Fin doc.types.length ≃ Fin doc'.types.length}
    (hget : ∀ i, doc'.types.get (f i) = doc.types.get i)
    (hnames : (doc.types.map fun t => t.full).Nodup) {i : Fin doc.types.length}
    {body : TypeBody doc.types.length}
    (hbody : Compile.typeBody doc.types.get (doc.types.get i) = .ok body) :
    Compile.typeBody doc'.types.get (doc'.types.get (f i)) = .ok (body.rename f) := by
  rw [hget]
  exact Compile.typeBody_renumbered (renumbered hget hnames) hbody

theorem agree_of_get {f : Fin doc.types.length ≃ Fin doc'.types.length}
    (hget : ∀ i, doc'.types.get (f i) = doc.types.get i)
    (hnames : (doc.types.map fun t => t.full).Nodup) : doc.Agree doc' f where
  name i := by rw [hget]
  extensibility i := by rw [hget]
  body i body hbody := ⟨body.rename f, typeBody_of_get hget hnames hbody, body.alike_rename f⟩

theorem compiles_of_perm (h : doc.types.Perm doc'.types)
    (hcompile : ∃ schema, doc.compile = .ok schema) : ∃ schema, doc'.compile = .ok schema := by
  obtain ⟨schema, hschema⟩ := hcompile
  have hnames := nodup_names_of_compile hschema
  obtain ⟨f, hget⟩ := exists_equiv_of_perm h hnames.of_map
  exact (agree_of_get hget hnames).compiles ⟨schema, hschema⟩

/-- The order of the declarations matters to nothing but the indices of the types. With the types in
    another order a document is compiled if it was before, and to a schema with the same types under
    other indices: of the same members, which name the same types, and with the same layouts. Values
    are counted, written and read as before. -/
theorem compile_of_perm (h : doc.types.Perm doc'.types) :
    ((∃ schema, doc.compile = .ok schema) ↔ ∃ schema, doc'.compile = .ok schema) ∧
      ∀ schema schema', doc.compile = .ok schema → doc'.compile = .ok schema' →
        ∃ f : Fin schema.size ≃ Fin schema'.size, ∀ i,
          (∀ j, (schema'.get j).full = (schema.get i).full ↔ j = f i) ∧
            schema'.get (f i) = (schema.get i).rename f ∧ schema.SamePasses i schema' (f i) := by
  refine ⟨⟨compiles_of_perm h, compiles_of_perm h.symm⟩, ?_⟩
  intro schema schema' hcompile hcompile'
  obtain ⟨hnames, bodies, order, hbodies, horder, rfl⟩ := compile_eq_ok_iff.1 hcompile
  obtain ⟨hnames', bodies', order', hbodies', horder', rfl⟩ := compile_eq_ok_iff.1 hcompile'
  obtain ⟨f, hget⟩ := exists_equiv_of_perm h hnames.of_map
  have hrenamed : ∀ i, bodies' (f i) = (bodies i).rename f := by
    intro i
    have hbody := typeBody_of_get hget hnames (hbodies i)
    rw [hbodies' (f i)] at hbody
    exact Except.ok.inj hbody
  have halike := (agree_of_get hget hnames).alike bodies bodies'
    (Compile.storedLayout bodies order) (Compile.storedLayout bodies' order')
    fun i => hrenamed i ▸ (bodies i).alike_rename f
  have hfull' : ∀ j : Fin doc'.types.length,
      ((doc'.assemble bodies' (Compile.storedLayout bodies' order')).get j).full =
        (doc'.types.get j).full := by
    intro j
    rw [get_assemble]
  have hrename : ∀ i : Fin doc.types.length,
      (doc'.assemble bodies' (Compile.storedLayout bodies' order')).get (f i) =
        ((doc.assemble bodies (Compile.storedLayout bodies order)).get i).rename f := by
    intro i
    rw [get_assemble, get_assemble, hget, hrenamed,
      Compile.storedLayout_renumbered horder horder' hrenamed]
    rfl
  refine ⟨f, fun i => ⟨fun j => ⟨?_, ?_⟩, hrename i, halike.samePasses i⟩⟩
  · intro hsame
    apply full_injective hnames'
    exact ((hfull' j).symm.trans (hsame.trans (halike.full i).symm)).trans (hfull' (f i))
  · rintro rfl
    exact halike.full i

/-- The drawings with their types the other way round, each of them ahead of those that hold it. -/
def reversedDrawingDoc : Document where
  types := drawingDoc.types.reverse

/-- The first type of the drawings is the last one when they are reversed. -/
theorem compile_of_perm_drawing :
    ∃ schema schema', drawingDoc.compile = .ok schema ∧ reversedDrawingDoc.compile = .ok schema' ∧
      drawingDoc.types.map TypeDecl.toTypeName ≠ reversedDrawingDoc.types.map TypeDecl.toTypeName ∧
        ∃ f : Fin schema.size ≃ Fin schema'.size, ∀ i,
          (∀ j, (schema'.get j).full = (schema.get i).full ↔ j = f i) ∧
            schema'.get (f i) = (schema.get i).rename f ∧ schema.SamePasses i schema' (f i) := by
  have hperm : drawingDoc.types.Perm reversedDrawingDoc.types := (List.reverse_perm _).symm
  have hsome : drawingDoc.compile.toOption.isSome := by decide +kernel
  obtain ⟨hcompiles, hsame⟩ := compile_of_perm hperm
  cases h : drawingDoc.compile with
  | error fault => simp [h, Except.toOption] at hsome
  | ok schema =>
    obtain ⟨schema', h'⟩ := hcompiles.1 ⟨schema, h⟩
    exact ⟨schema, schema', rfl, h', by decide, hsame schema schema' h h'⟩

end Document

end Cdr
