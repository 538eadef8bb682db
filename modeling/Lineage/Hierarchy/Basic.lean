import Lineage.Descriptor

/-!
# The hierarchy of resource types

The resource types form an acyclic graph with a single root, the root marker.
A type points to its *parents*, those of its supertypes that are resource types
themselves, and back to its *children*. Its *depth* is the length of the longest
chain of parents that leads up to the root.

Hierarchies are made by `Hierarchy.Builder`, and never change afterwards.
-/

namespace Lineage

/-- A resource type in a hierarchy. -/
structure Node where
  /-- The key of the type. -/
  key : TypeKey
  /-- Its kind. -/
  kind : TypeKind
  /-- Whether it is abstract. -/
  isAbstract : Bool
  /-- Its direct supertypes in the hierarchy, the superclass first. -/
  parents : List TypeKey := []
  /-- Its direct subtypes in the hierarchy, in the order of their insertion. -/
  children : List TypeKey := []
  /-- The length of the longest chain of parents up to the root. -/
  depth : Nat := 0
  deriving DecidableEq, Inhabited

namespace Node

/-- Only the root has no parents. -/
def isRoot (n : Node) : Bool :=
  n.parents.isEmpty

/-- The node of the root marker, an abstract interface. -/
def ofRoot (root : TypeKey) : Node where
  key := root
  kind := .interfaceType
  isAbstract := true

end Node

/-- A hierarchy of resource types. -/
structure Hierarchy where
  /-- The types, in the order of their insertion, the root first. -/
  nodes : List Node
  /-- The position of each type among the nodes. -/
  index : List (TypeKey × Nat)

namespace Hierarchy

variable (h : Hierarchy)

/-- The position of a type. -/
def position? (k : TypeKey) : Option Nat :=
  h.index.lookup k

/-- The node of a type. -/
def locate? (k : TypeKey) : Option Node := do
  h.nodes[← h.position? k]?

/-- Whether the type is in the hierarchy. -/
def contains (k : TypeKey) : Bool :=
  (h.position? k).isSome

/-- The root node. -/
def root? : Option Node :=
  h.nodes.head?

/-- The number of types, the root included. -/
def size : Nat :=
  h.nodes.length

/-- Whether there is no type but the root. -/
def isEmpty : Bool :=
  h.size = 1

/-- The nodes of the parents. -/
def parents (n : Node) : List Node :=
  n.parents.filterMap h.locate?

/-- The nodes of the children. -/
def children (n : Node) : List Node :=
  n.children.filterMap h.locate?

end Hierarchy

end Lineage
