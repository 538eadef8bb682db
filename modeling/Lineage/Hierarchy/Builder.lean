import Lineage.Discovery
import Lineage.Hierarchy.Basic

/-!
# Building the hierarchy

A builder starts with the root and takes one type at a time
(`Builder.addType`). The supertypes that are missing so far are looked up with
discovery and inserted first, so a node always stands behind its parents.
Supertypes that do not descend from the root are left out.

Before anything is inserted the supertypes are searched for cycles
(`Builder.searchCycles`). A type is refused, and the builder stays as it was, if
a cycle is found, or if no supertype descends from the root.

All recursions are bounded by `Discovery.depthBound`, which counts the types
that discovery describes: going deeper would mean going round in a cycle.
-/

namespace Lineage.Hierarchy

/-- A hierarchy that is being built. -/
structure Builder where
  /-- The types so far, in the order of their insertion, the root first. -/
  nodes : List Node
  /-- The position of each type among the nodes. -/
  index : List (TypeKey × Nat)
  /-- The types that are known to descend from the root. -/
  reachesRoot : List TypeKey
  deriving DecidableEq

namespace Builder

/-- The builder that holds the root only. -/
def new (root : TypeKey) : Builder where
  nodes := [.ofRoot root]
  index := [(root, 0)]
  reachesRoot := [root]

variable (b : Builder)

/-- The position of a type. -/
def position? (k : TypeKey) : Option Nat :=
  b.index.lookup k

/-- Whether the type has been inserted. -/
def contains (k : TypeKey) : Bool :=
  (b.position? k).isSome

/-- The number of types so far, the root included. -/
def size : Nat :=
  b.nodes.length

/-- Whether there is no type but the root so far. -/
def isEmpty : Bool :=
  b.size = 1

/-- The hierarchy that has been built. -/
def toHierarchy : Hierarchy where
  nodes := b.nodes
  index := b.index

/-! ### The search for cycles -/

/-- The state of a search for cycles. -/
structure Trail where
  /-- The types visited so far. -/
  visited : List TypeKey := []
  /-- The types whose supertypes are being visited, the innermost first. -/
  path : List TypeKey := []
  deriving DecidableEq

namespace Trail

/-- Starts on the supertypes of a type. -/
def enter (t : Trail) (k : TypeKey) : Trail :=
  ⟨k :: t.visited, k :: t.path⟩

/-- Is done with the supertypes of a type. -/
def leave (t : Trail) (k : TypeKey) : Trail :=
  { t with path := t.path.erase k }

end Trail

variable (p : Discovery)

/-- Searches the supertypes of a type for cycles, at most to the given depth.
    Types in the hierarchy were searched when they were added. The error is the
    type at which a cycle closes. -/
def searchCycles : Nat → TypeDescriptor → Trail → Bounded TypeKey Trail
  | 0, _, _ => (none : Option _)
  | fuel + 1, d, trail => do
    let visit (t : Trail) (parent : TypeKey) : Bounded TypeKey Trail :=
      if t.path.contains parent then throw parent
      else if t.visited.contains parent || b.contains parent then return t
      else match p.describe? parent with
        | none => return t
        | some d' => searchCycles fuel d' t
    return (← d.supertypes.foldlM visit (trail.enter d.key)).leave d.key

/-! ### Insertion -/

/-- Whether the type descends from the root, searched at most to the given
    depth. The state holds the types known to do so, to which those found are
    added. -/
def searchRoot : Nat → TypeKey → StateT (List TypeKey) Option Bool
  | 0, _ => fun _ => none
  | fuel + 1, k => do
    if (← get).contains k then return true
    match p.describe? k with
    | none => return false
    | some d =>
      let found ← d.supertypes.anyM (searchRoot fuel)
      if found then modify (k :: ·)
      return found

/-- A step of the building: it may change the builder and fail, or go deeper
    than its bound. -/
abbrev Step (α : Type) := ExceptT ConfigurationFault (StateT Builder Option) α

/-- Whether the type descends from the root, keeping what is found out. -/
def descendsFromRoot (k : TypeKey) : Step Bool :=
  ExceptT.mk fun b => do
    let (found, known) ← (searchRoot p p.depthBound k).run b.reachesRoot
    return (.ok found, { b with reachesRoot := known })

/-- The builder with a node for the type, below the parents at the given
    positions. -/
def insert (d : TypeDescriptor) (parents : List Nat) : Builder :=
  let above := parents.filterMap fun i => b.nodes[i]?
  let node : Node :=
    { key := d.key
      kind := d.kind
      isAbstract := d.isAbstract
      parents := above.map Node.key
      depth := (above.map Node.depth).foldl max 0 + 1 }
  let addChild (nodes : List Node) (i : Nat) : List Node :=
    nodes.modify i fun n => { n with children := n.children ++ [d.key] }
  { nodes := parents.foldl addChild b.nodes ++ [node]
    index := (d.key, b.nodes.length) :: b.index
    reachesRoot := if b.reachesRoot.contains d.key then b.reachesRoot
      else d.key :: b.reachesRoot }

/-- Inserts a type after those of its supertypes that descend from the root, at
    most to the given depth, and gives its position. -/
def attach : Nat → TypeDescriptor → Step Nat
  | 0, _ => ExceptT.mk fun _ => none
  | fuel + 1, d => do
    match (← get).position? d.key with
    | some i => return i
    | none =>
      let place (parents : List Nat) (parent : TypeKey) : Step (List Nat) := do
        if ← descendsFromRoot p parent then
          let i ← match (← get).position? parent with
            | some i => pure i
            | none => match p.describe? parent with
              | none => throw (.unknownType parent)
              | some d' => attach fuel d'
          return if parents.contains i then parents else parents ++ [i]
        else return parents
      let parents ← d.supertypes.foldlM place []
      if parents.isEmpty then throw (.unreachable d.key)
      modifyGet fun b => (b.nodes.length, b.insert d parents)

/-- Adds a type, unless it has been inserted: a search for cycles, then the
    insertion. -/
def add (d : TypeDescriptor) : Step Unit := do
  if (← get).contains d.key then return
  match (searchCycles (← get) p p.depthBound d {}).run with
  | none => ExceptT.mk fun _ => none
  | some (.error k) => throw (.cycle k)
  | some (.ok _) => discard (attach p p.depthBound d)

/-- Adds a type. The builder that results is given also if the type is refused.
    (Where a recursion went deeper than its bound the type would be in a cycle;
    it never does.) -/
def addType (d : TypeDescriptor) : Except ConfigurationFault Unit × Builder :=
  ((add p d).run b).getD (.error (.cycle d.key), b)

/-- Adds types one after the other, up to the first that is refused. -/
def addTypes (ds : List TypeDescriptor) : Except ConfigurationFault Builder :=
  ds.foldlM (fun b d => match addType b p d with
    | (.ok (), b') => .ok b'
    | (.error fault, _) => .error fault) b

end Builder

/-- The hierarchy of all types that discovery finds below the root. -/
def discover (p : Discovery) : Except Fault Hierarchy := do
  let found ← p.find p.root
  let b ← ((Builder.new p.root).addTypes p found).mapError Fault.configuration
  return b.toHierarchy

end Lineage.Hierarchy
