import Lineage.Hierarchy.Basic

/-!
# The traversal order

A hierarchy is traversed from the root, each type after all of its parents: a
type keeps count of the parents that are still to be visited, and is entered
once the count has come down to zero. Among the types that may be entered the
one released last is the first to be visited, with the children of a type in
the order of their insertion.
-/

namespace Lineage.Hierarchy

variable (h : Hierarchy)

/-- The state of a traversal. -/
structure Walk where
  /-- For each node, how many of its parents are still to be visited. -/
  pending : List Nat
  /-- The positions of the nodes that may be visited, the next one first. -/
  ready : List Nat
  deriving DecidableEq

/-- Counts down the parents of a child that are still to be visited, and makes
    it ready if this was the last one. There is no outcome if the child has no
    position, or if none of its parents were left to be visited. -/
def release (w : Walk) (child : TypeKey) : Option Walk := do
  let i ← h.position? child
  match ← w.pending[i]? with
  | 0 => none
  | 1 => some ⟨w.pending.set i 0, i :: w.ready⟩
  | n + 2 => some ⟨w.pending.set i (n + 1), w.ready⟩

/-- Visits nodes, at most the given number, until none is ready. There is no
    outcome if nodes are left, or if a count goes wrong. -/
def walk? : Nat → Walk → Option (List Nat)
  | _, ⟨_, []⟩ => some []
  | 0, _ => none
  | fuel + 1, ⟨pending, i :: ready⟩ => do
    let n ← h.nodes[i]?
    let w ← n.children.reverse.foldlM h.release ⟨pending, ready⟩
    return i :: (← walk? fuel w)

/-- The start of a traversal: only the root is ready. -/
def start : Walk where
  pending := h.nodes.map fun n => n.parents.length
  ready := [0]

/-- The positions of all nodes in traversal order. -/
def order : List Nat :=
  (h.walk? h.nodes.length h.start).getD []

/-- The nodes in traversal order. -/
def toList : List Node :=
  h.order.filterMap fun i => h.nodes[i]?

/-- The keys of all types in traversal order. -/
def keys : List TypeKey :=
  h.toList.map Node.key

end Lineage.Hierarchy
