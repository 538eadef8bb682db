import Lineage.Catalogue.Basic

/-!
# Inheriting attributes

A type shows the attributes of its parents, parent after parent, and its own.
An own attribute takes the place of the inherited one with its name, which it
has to match in kind. Where an inherited component is replaced, the attributes
nested in the old one go with it.

Parents may show the same name in different shapes. This is a *conflict*, and
the type has to settle it by an own attribute of that name, of any kind.
-/

namespace Lineage.Catalogue

/-- An attribute that two parents show in shapes that do not agree. -/
structure Conflict where
  /-- The name of the attribute. -/
  name : String
  /-- The shape that the earlier parent shows. -/
  first : Shape
  /-- The shape that the later parent shows. -/
  second : Shape
  deriving DecidableEq

/-- What the parents of a type show together. -/
structure Merge where
  /-- The attributes; of several with one name the first. -/
  attributes : Attributes := []
  /-- The conflicts, in the order in which they were met. -/
  conflicts : List Conflict := []
  deriving DecidableEq

namespace Merge

/-- Adds an attribute that a parent shows. -/
def add (m : Merge) (a : Attribute) : Merge :=
  match m.attributes.get? a.name with
  | none => { m with attributes := m.attributes ++ [a] }
  | some b =>
    if b.shape.agrees a.shape then m
    else { m with conflicts := m.conflicts ++ [⟨a.name, b.shape, a.shape⟩] }

/-- What parents with the given attributes show together. -/
def ofParents (parents : List Attributes) : Merge :=
  parents.flatten.foldl add {}

/-- Whether the parents are in conflict about a name. -/
def inConflict (m : Merge) (name : String) : Bool :=
  m.conflicts.any (·.name = name)

end Merge

/-- The inherited attributes without those nested in a component that an own
    attribute replaces. -/
def dropReplaced (inherited own : Attributes) : Attributes :=
  let roots := (own.filter fun a => !a.isNested).map Attribute.name
  inherited.filter fun a =>
    !(a.isNested && a.path.head?.any roots.contains && !own.has a.name)

/-- Puts an own attribute among the inherited ones, unless it differs in kind
    from one that the parents agree on. -/
def redeclare (key : TypeKey) (m : Merge) (as : Attributes) (a : Attribute) :
    Except ConfigurationFault Attributes :=
  match as.get? a.name with
  | none => .ok (as.put a)
  | some b =>
    if m.inConflict a.name || b.kind = a.kind then .ok (as.put a)
    else .error (.incompatibleRedeclaration key a.name b.kind a.kind)

/-- The attributes of a type, from those that its parents show and its own. -/
def inherit (key : TypeKey) (parents : List Attributes) (own : Attributes) :
    Except ConfigurationFault Attributes :=
  let m := Merge.ofParents parents
  let inherited := dropReplaced m.attributes own
  match m.conflicts.find? fun c => !own.has c.name && inherited.has c.name with
  | some c => .error (.conflictingInheritance key c.name c.first c.second)
  | none => own.foldlM (redeclare key m) inherited

end Lineage.Catalogue
