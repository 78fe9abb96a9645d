/-! # Depth-first post-order

A walk over the nodes `0, …, n - 1` of a graph that lists every node behind the nodes it points
to, and tells the first node that is met again while it is still open. Such a node lies on a
cycle; where the graph has none, the order is a topological one.
-/

namespace Cdr.Graph

/-- What a walk has seen. -/
structure Walk (n : Nat) where
  /-- The nodes that are done, latest first. -/
  done : List (Fin n)
  /-- The first node that was met again while it was open. -/
  loop : Option (Fin n)
  deriving DecidableEq, Repr

namespace Walk

variable {n : Nat}

def start : Walk n := ⟨[], none⟩

/-- Walks from a node while the nodes of `path` are open. Every level opens a node that was not
    open before, so no walk is deeper than the graph is large, and the last level that `n + 1`
    allow meets an open or a finished node. -/
def visit (next : Fin n → List (Fin n)) : Nat → List (Fin n) → Fin n → Walk n → Walk n
  | 0, _, _, walk => walk
  | levels + 1, path, node, walk =>
    if node ∈ walk.done then walk
    else if node ∈ path then ⟨walk.done, walk.loop.or (some node)⟩
    else
      let below := (next node).foldl (fun walk other => visit next levels (node :: path) other walk)
        walk
      ⟨node :: below.done, below.loop⟩

/-- The nodes in the order in which they were done. -/
def order (walk : Walk n) : List (Fin n) :=
  walk.done.reverse

end Walk

/-- Walks from every node, the lowest first. -/
def walk {n : Nat} (next : Fin n → List (Fin n)) : Walk n :=
  (List.finRange n).foldl (fun walk node => Walk.visit next (n + 1) [] node walk) Walk.start

end Cdr.Graph
