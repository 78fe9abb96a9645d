import Cdr.Proofs.Acceptance

/-! # What a document is compiled to

A compiled schema has a type for each declaration, in their order: its name and extensibility as they
are declared, its body by the resolved names, and its layout.
-/

namespace Cdr

/-- The layout that is stored for a type when all types have been laid out in an order. -/
def Compile.storedLayout {n : Nat} (bodies : Fin n → TypeBody n) (order : List (Fin n))
    (i : Fin n) : NativeLayout :=
  ((layoutTable bodies order).get i).getD .empty

namespace Document

/-- The schema with the names of a document, and with bodies and layouts for its types. -/
def assemble (doc : Document) (bodies : Fin doc.types.length → TypeBody doc.types.length)
    (layouts : Fin doc.types.length → NativeLayout) : Schema where
  size := doc.types.length
  types := Vector.ofFn fun i =>
    { (doc.types.get i).toTypeName with
      extensibility := (doc.types.get i).extensibility
      body := bodies i
      layout := layouts i }

theorem get_assemble (doc : Document) (bodies : Fin doc.types.length → TypeBody doc.types.length)
    (layouts : Fin doc.types.length → NativeLayout) (i : Fin doc.types.length) :
    (doc.assemble bodies layouts).get i =
      { (doc.types.get i).toTypeName with
        extensibility := (doc.types.get i).extensibility
        body := bodies i
        layout := layouts i } := by
  exact Vector.getElem_ofFn i.isLt

/-- A document is compiled when its names are distinct, all its types have bodies and these can be
    put in order, and to the schema that is made of them. -/
theorem compile_eq_ok_iff {doc : Document} {schema : Schema} :
    doc.compile = .ok schema ↔
      (doc.types.map fun t => t.full).Nodup ∧ ∃ bodies order,
        (∀ i, Compile.typeBody doc.types.get (doc.types.get i) = .ok (bodies i)) ∧
          Compile.dependencyOrder bodies = .ok order ∧
            schema = doc.assemble bodies (Compile.storedLayout bodies order) := by
  rw [← fresh_start, ← Compile.duplicateName?_eq_none_iff]
  unfold compile
  cases hnames : Compile.duplicateName? [] (doc.types.map fun t => t.full) with
  | some name => simp
  | none =>
    simp only [true_and, Compile.bind_eq_ok_iff]
    constructor
    · rintro ⟨bodies, hbodies, h⟩
      split at h
      next => cases h
      next order horder =>
        cases h
        exact ⟨bodies.get, order, Compile.ofFnM_eq_ok hbodies, horder, rfl⟩
    · rintro ⟨bodies, order, hbodies, horder, rfl⟩
      refine ⟨Vector.ofFn bodies, Compile.ofFnM_of_eq_ok hbodies, ?_⟩
      have hbody : (fun i : Fin doc.types.length => (Vector.ofFn bodies)[i]) = bodies := by
        funext i
        simp
      simp only [hbody, horder]
      simp only [Fin.getElem_fin, Vector.getElem_ofFn]
      rfl

end Document

end Cdr
