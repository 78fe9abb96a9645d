import Cdr.Proofs.WellFormed

/-! # Where a walk finds a loop

A walk meets an open node again exactly when the graph has a cycle. One direction is the order that
the walk leaves behind, whose nodes point only to nodes behind them. The other is the path of open
nodes, each of which leads to the node that is visited.
-/

namespace Cdr.Graph

open Relation

variable {n : Nat} {next : Fin n → List (Fin n)}

/-- That an edge leads from one node to another. -/
def Edge (next : Fin n → List (Fin n)) (a b : Fin n) : Prop :=
  b ∈ next a

def Acyclic (next : Fin n → List (Fin n)) : Prop :=
  ∀ node, ¬TransGen (Edge next) node node

theorem mem_of_ordered {order : List (Fin n)} (h : Ordered next order) {a b : Fin n}
    (ha : a ∈ order) (hedge : Edge next a b) : b ∈ order := by
  induction order with
  | nil => cases ha
  | cons node rest ih =>
    obtain ⟨hnode, hrest⟩ := h
    apply List.mem_cons_of_mem
    rcases List.mem_cons.1 ha with rfl | ha
    · exact hnode b hedge
    · exact ih hrest ha

theorem mem_of_reachable {order : List (Fin n)} (h : Ordered next order) {a b : Fin n}
    (ha : a ∈ order) (hpath : ReflTransGen (Edge next) a b) : b ∈ order := by
  induction hpath with
  | refl => exact ha
  | tail _ hedge ih => exact mem_of_ordered h ih hedge

/-- A node that stands in an order is on no cycle: whatever it points to stands behind it, and so
    does all that can be reached from there. -/
theorem not_cyclic_of_ordered {order : List (Fin n)} (h : Ordered next order) :
    ∀ node ∈ order, ¬TransGen (Edge next) node node := by
  induction order with
  | nil => nofun
  | cons first rest ih =>
    obtain ⟨hfirst, hrest⟩ := h
    intro node hnode hcycle
    by_cases hbehind : node ∈ rest
    · exact ih hrest node hbehind hcycle
    · rcases List.mem_cons.1 hnode with rfl | hmem
      · obtain ⟨other, hedge, hback⟩ := TransGen.head'_iff.1 hcycle
        exact hbehind (mem_of_reachable hrest (hfirst other hedge) hback)
      · exact hbehind hmem

namespace Walk

/-- What holds below a path of open nodes, whether or not a loop was met: no node is done twice,
    none that is open is done, and the node that is told is on a cycle. -/
structure Clean (next : Fin n → List (Fin n)) (path : List (Fin n)) (walk : Walk n) : Prop where
  nodup : walk.done.Nodup
  unfinished : ∀ node ∈ path, node ∉ walk.done
  cyclic : ∀ node, walk.loop = some node → TransGen (Edge next) node node

theorem clean_start (next : Fin n → List (Fin n)) : Clean next [] start :=
  ⟨List.nodup_nil, nofun, nofun⟩

theorem Clean.opened {path : List (Fin n)} {walk : Walk n} {node : Fin n}
    (h : Clean next path walk) (hnode : node ∉ walk.done) : Clean next (node :: path) walk where
  nodup := h.nodup
  unfinished := List.forall_mem_cons.2 ⟨hnode, h.unfinished⟩
  cyclic := h.cyclic

theorem Clean.closed {path : List (Fin n)} {walk : Walk n} {node : Fin n}
    (h : Clean next (node :: path) walk) (hnode : node ∉ path) :
    Clean next path ⟨node :: walk.done, walk.loop⟩ where
  nodup := List.nodup_cons.2 ⟨h.unfinished node List.mem_cons_self, h.nodup⟩
  unfinished := by
    intro other hother hdone
    rcases List.mem_cons.1 hdone with rfl | hdone
    · exact hnode hother
    · exact h.unfinished other (List.mem_cons_of_mem node hother) hdone
  cyclic := h.cyclic

theorem Clean.met {path : List (Fin n)} {walk : Walk n} {node : Fin n}
    (h : Clean next path walk) (hcycle : TransGen (Edge next) node node) :
    Clean next path ⟨walk.done, walk.loop.or (some node)⟩ where
  nodup := h.nodup
  unfinished := h.unfinished
  cyclic := by
    intro other hother
    rcases Option.or_eq_some_iff.1 hother with hfirst | ⟨-, hlast⟩
    · exact h.cyclic other hfirst
    · cases hlast
      exact hcycle

/-- A visit keeps this, when every open node leads to the node visited. -/
theorem clean_visit (levels : Nat) (path : List (Fin n)) (node : Fin n) (walk : Walk n)
    (hpath : ∀ other ∈ path, TransGen (Edge next) other node) (h : Clean next path walk) :
    Clean next path (visit next levels path node walk) := by
  induction levels generalizing path node walk with
  | zero => exact h
  | succ levels ih =>
    unfold visit
    by_cases hdone : node ∈ walk.done
    · rw [if_pos hdone]
      exact h
    · rw [if_neg hdone]
      by_cases hopen : node ∈ path
      · rw [if_pos hopen]
        exact h.met (hpath node hopen)
      · rw [if_neg hopen]
        refine Clean.closed ?_ hopen
        apply List.foldlRecOn (motive := Clean next (node :: path))
        · exact h.opened hdone
        · -- The edge that is followed leads on from the new open node and from all that lead to it.
          intro walk hwalk other hother
          have hedge : Edge next node other := hother
          refine ih _ _ _ (List.forall_mem_cons.2 ⟨.single hedge, ?_⟩) hwalk
          exact fun before hbefore => (hpath before hbefore).tail hedge

end Walk

theorem clean_walk (next : Fin n → List (Fin n)) : Walk.Clean next [] (walk next) := by
  unfold walk
  apply List.foldlRecOn (motive := Walk.Clean next [])
  · exact Walk.clean_start next
  · intro walk hwalk node _
    exact Walk.clean_visit (n + 1) [] node walk nofun hwalk

/-- A walk finds a loop exactly when there is a cycle. -/
theorem loop_eq_none_iff : (walk next).loop = none ↔ Acyclic next := by
  constructor
  · intro hloop node
    obtain ⟨hordered, hreached⟩ := ordered_walk hloop
    exact not_cyclic_of_ordered hordered node (hreached node)
  · intro hacyclic
    cases hloop : (walk next).loop with
    | none => rfl
    | some node => exact absurd ((clean_walk next).cyclic node hloop) (hacyclic node)

end Cdr.Graph
