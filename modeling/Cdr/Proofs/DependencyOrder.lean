import Cdr.Proofs.StoredLayouts

/-! # The order of dependencies

The types are put in an order by a walk over what they hold by value. It lists each of them once,
behind all that it holds, unless a cycle is in its way. Then it tells a type on that cycle, by whose
name the document is refused.
-/

namespace Cdr

open Relation

namespace Compile

variable {n : Nat} {bodies : Fin n → TypeBody n}

theorem perm_of_dependencyOrder {order : List (Fin n)} (h : dependencyOrder bodies = .ok order) :
    order.Perm (List.finRange n) := by
  obtain ⟨-, hall⟩ := ordered_of_dependencyOrder h
  have hnodup : order.Nodup := by
    simp only [dependencyOrder] at h
    split at h
    next => cases h
    next =>
      cases h
      exact List.nodup_reverse.2 (Graph.clean_walk _).nodup
  refine (List.perm_ext_iff_of_nodup hnodup (List.nodup_finRange n)).2 fun i => ?_
  simp only [hall i, List.mem_finRange]

/-- What a type holds by value stands in front of it, wherever it stands. -/
theorem embedded_before {order : List (Fin n)} (h : dependencyOrder bodies = .ok order)
    {before after : List (Fin n)} {node : Fin n} (hsplit : order = before ++ node :: after) :
    ∀ other ∈ (bodies node).embedded, other ∈ before := by
  obtain ⟨hordered, -⟩ := ordered_of_dependencyOrder h
  have hreverse : order.reverse = after.reverse ++ node :: before.reverse := by
    rw [hsplit, List.reverse_append, List.reverse_cons, List.append_assoc, List.singleton_append]
  rw [hreverse] at hordered
  intro other hother
  exact List.mem_reverse.1 ((Graph.ordered_of_append hordered).1 other hother)

theorem cyclic_of_dependencyOrder {node : Fin n} (h : dependencyOrder bodies = .error node) :
    TransGen (Graph.Edge fun i => (bodies i).embedded) node node := by
  simp only [dependencyOrder] at h
  split at h
  next other hloop =>
    cases h
    exact (Graph.clean_walk _).cyclic node hloop
  next => cases h

end Compile

/-- A document with distinct names whose types all have bodies is refused for its dependencies or
    not at all. -/
theorem Document.compile_eq_error {doc : Document} (hnames : (doc.types.map fun t => t.full).Nodup)
    {bodies : Fin doc.types.length → TypeBody doc.types.length}
    (hbodies : ∀ i, Compile.typeBody doc.types.get (doc.types.get i) = .ok (bodies i))
    {fault : SchemaError} (h : doc.compile = .error fault) :
    ∃ node, Compile.dependencyOrder bodies = .error node ∧
      fault = .circularDependency (doc.types.get node).full := by
  cases horder : Compile.dependencyOrder bodies with
  | ok order =>
    rw [compile_eq_ok_iff.2 ⟨hnames, bodies, order, hbodies, horder, rfl⟩] at h
    cases h
  | error node =>
    refine ⟨node, rfl, ?_⟩
    have hresolved : Vector.ofFnM (fun i => Compile.typeBody doc.types.get (doc.types.get i)) =
        .ok (Vector.ofFn bodies) := Compile.ofFnM_of_eq_ok hbodies
    have hget : (fun i : Fin doc.types.length => (Vector.ofFn bodies)[i]) = bodies := by
      funext i
      exact Vector.getElem_ofFn i.isLt
    rw [← fresh_start, ← Compile.duplicateName?_eq_none_iff] at hnames
    simp only [compile, hnames, hresolved, bind, Except.bind, hget, horder] at h
    cases h
    rfl

/-- The types are put in order exactly when none holds itself by value, over however many others.
    Then each is listed once, behind all that it holds by value. Otherwise the type that is told
    holds itself, and a document that is refused for it is refused with its name. -/
theorem dependencyOrder_sorts :
    (∀ (n : Nat) (bodies : Fin n → TypeBody n),
      let edge := Graph.Edge fun i => (bodies i).embedded
      ((∃ order, Compile.dependencyOrder bodies = .ok order) ↔
        ∀ node, ¬TransGen edge node node) ∧
      (∀ order, Compile.dependencyOrder bodies = .ok order →
        order.Perm (List.finRange n) ∧
          ∀ (before : List (Fin n)) node after, order = before ++ node :: after →
            ∀ other ∈ (bodies node).embedded, other ∈ before) ∧
      ∀ node, Compile.dependencyOrder bodies = .error node → TransGen edge node node) ∧
    ∀ (doc : Document) (bodies : Fin doc.types.length → TypeBody doc.types.length),
      (doc.types.map fun t => t.full).Nodup →
      (∀ i, Compile.typeBody doc.types.get (doc.types.get i) = .ok (bodies i)) →
      ∀ fault, doc.compile = .error fault →
        ∃ node, fault = .circularDependency (doc.types.get node).full ∧
          TransGen (Graph.Edge fun i => (bodies i).embedded) node node := by
  refine ⟨fun n bodies => ⟨?exact, ?sorted, ?blamed⟩, ?document⟩
  case exact => exact Compile.exists_order_iff
  case sorted =>
    intro order horder
    refine ⟨Compile.perm_of_dependencyOrder horder, ?_⟩
    intro before node after hsplit
    exact Compile.embedded_before horder hsplit
  case blamed => exact fun node => Compile.cyclic_of_dependencyOrder
  case document =>
    intro doc bodies hnames hbodies fault h
    obtain ⟨node, horder, hfault⟩ := doc.compile_eq_error hnames hbodies h
    exact ⟨node, hfault, Compile.cyclic_of_dependencyOrder horder⟩

end Cdr
