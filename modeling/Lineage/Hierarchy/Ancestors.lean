import Lineage.Hierarchy.Basic

/-!
# Ancestors and subtypes

The ancestors of a type are the types that one or more steps to a parent lead
to. They are found breadth first and listed by descending depth, so that the
root comes last; among types of one depth the first found is the first listed.
-/

namespace Lineage.Hierarchy

variable (h : Hierarchy)

/-- Adds the nodes that are not among those found, each once. -/
def addNew (found : List Node) (ns : List Node) : List Node :=
  ns.foldl (fun found n => if found.any (·.key = n.key) then found else found ++ [n]) found

/-- Climbs from the nodes in the queue, at most the given number of them. The
    nodes found are those in `found`, and the ones above. There is no outcome
    if nodes are left in the queue. -/
def climb? : Nat → (queue found : List Node) → Option (List Node)
  | _, [], found => some found
  | 0, _ :: _, _ => none
  | fuel + 1, n :: queue, found =>
    let found' := addNew found (h.parents n)
    climb? fuel (queue ++ found'.drop found.length) found'

/-- The ancestors of a type, the deepest first. -/
def ancestors (k : TypeKey) : List Node :=
  match h.locate? k with
  | none => []
  | some n =>
    ((h.climb? (h.nodes.length + 1) [n] []).getD []).mergeSort fun a b => b.depth ≤ a.depth

/-- Whether the first type is the second one, or descends from it. -/
def isSubtypeOf (k ancestor : TypeKey) : Bool :=
  (k = ancestor && h.contains k) || (h.ancestors k).any (·.key = ancestor)

end Lineage.Hierarchy
