import Lineage.Catalogue.Flatten
import Lineage.Catalogue.Inheritance
import Lineage.Hierarchy.Order

/-!
# Building the metadata

The catalogues of a hierarchy are built in traversal order, so those of the
parents are at hand when a type is reached. Afterwards the structural
requirements are checked: a type that descends from a marker has to have the
attribute that the marker requires. The marker may be any type, and descent
runs through described supertypes, in the hierarchy or not.
-/

namespace Lineage

/-- A demand on all types that descend from a marker. -/
structure Requirement where
  /-- The marker. -/
  marker : TypeKey
  /-- The name of the attribute that they need. -/
  field : String
  deriving DecidableEq, Inhabited

namespace Metadata

variable (h : Hierarchy) (p : Discovery) (r : FieldReader)

/-- The attributes that a type declares itself. The root need not be
    described. -/
def ownAttributes (n : Node) : Except ConfigurationFault Attributes :=
  match p.describe? n.key with
  | some d => Catalogue.ownAttributes h p r d
  | none => if n.isRoot then .ok [] else .error (.unknownType n.key)

/-- The catalogue of a type, from those of its parents. -/
def catalogueOf (m : Metadata) (n : Node) : Except ConfigurationFault Catalogue := do
  let own ← ownAttributes h p r n
  let parents := (n.parents.filterMap m.get?).map Catalogue.attributes
  let attributes ← Catalogue.inherit n.key parents own
  return { key := n.key, isAbstract := n.isAbstract, attributes }

/-- Adds the catalogue of a type. -/
def extend (m : Metadata) (n : Node) : Except ConfigurationFault Metadata := do
  return ⟨m.catalogues ++ [← catalogueOf h p r m n]⟩

/-- The catalogues of all types, before the requirements are checked. -/
def ofHierarchy : Except ConfigurationFault Metadata :=
  h.toList.foldlM (extend h p r) {}

/-- Whether a type falls under a requirement without meeting it. -/
def offends (m : Metadata) (q : Requirement) (k : TypeKey) : Bool :=
  k ≠ q.marker && p.descends k q.marker && !(m.get? k).any (·.has q.field)

/-- Checks the requirements of one type after the other, each in their order. -/
def check (m : Metadata) (requirements : List Requirement) : Except ConfigurationFault Unit :=
  h.keys.forM fun k => requirements.forM fun q =>
    if m.offends p q k then .error (.missingAttribute k q.marker q.field) else .ok ()

/-- The metadata of a hierarchy. -/
def build (requirements : List Requirement) : Except ConfigurationFault Metadata := do
  let m ← ofHierarchy h p r
  m.check h p requirements
  return m

end Metadata

end Lineage
