import Lineage.Fault

/-!
# Catalogues

The catalogue of a resource type lists its attributes, its own and the inherited
ones, by distinct names. The metadata of a hierarchy holds a catalogue for each
of its types.
-/

namespace Lineage

/-- A list of attributes with distinct names. -/
abbrev Attributes := List Attribute

namespace Attributes

/-- The attribute with the given name. -/
def get? (as : Attributes) (name : String) : Option Attribute :=
  as.find? (·.name = name)

/-- Whether there is an attribute with the given name. -/
def has (as : Attributes) (name : String) : Bool :=
  as.any (·.name = name)

/-- Puts an attribute in the place of the one with its name, or at the end if
    there is none. -/
def put (as : Attributes) (a : Attribute) : Attributes :=
  if has as a.name then as.map fun b => if b.name = a.name then a else b else as ++ [a]

/-- The names of the attributes. -/
def names (as : Attributes) : List String :=
  as.map Attribute.name

end Attributes

/-- The attributes of a resource type. -/
structure Catalogue where
  /-- The type. -/
  key : TypeKey
  /-- Whether the type is abstract. -/
  isAbstract : Bool
  /-- Its attributes. -/
  attributes : Attributes
  deriving DecidableEq, Inhabited

namespace Catalogue

variable (c : Catalogue)

/-- The number of attributes. -/
def size : Nat :=
  c.attributes.length

/-- Whether there are no attributes. -/
def isEmpty : Bool :=
  c.attributes.isEmpty

/-- The names of the attributes. -/
def names : List String :=
  c.attributes.names

/-- The attribute with the given name. -/
def get? (name : String) : Option Attribute :=
  c.attributes.get? name

/-- Whether there is an attribute with the given name. -/
def has (name : String) : Bool :=
  c.attributes.has name

/-- Whether the named attribute refers to resources. -/
def isAssociation (name : String) : Bool :=
  (c.get? name).any (·.kind.isAssociation)

/-- Whether the named attribute is an embedded value object. -/
def isComponent (name : String) : Bool :=
  (c.get? name).any (·.kind = .component)

/-- Whether the named attribute refers to resources and may be without any. -/
def isOptionalAssociation (name : String) : Bool :=
  (c.get? name).any fun a => a.kind.isAssociation && a.optional

/-- The type of the values of the named attribute. -/
def typeOf? (name : String) : Option ValueType :=
  (c.get? name).map Attribute.valueType

/-- The names of the attributes that are not loaded on demand. -/
def eagerNames : List String :=
  (c.attributes.filter fun a => !a.isLazy).map Attribute.name

/-- The first attribute that identifies an instance. -/
def identifier? : Option Attribute :=
  c.attributes.find? Attribute.identifier

end Catalogue

/-- The catalogues of the types in a hierarchy. -/
structure Metadata where
  /-- The catalogues, one for each type. -/
  catalogues : List Catalogue := []
  deriving DecidableEq, Inhabited

namespace Metadata

variable (m : Metadata)

/-- The catalogue of a type. -/
def get? (k : TypeKey) : Option Catalogue :=
  m.catalogues.find? (·.key = k)

/-- The catalogue of a type that is asked for in a request. -/
def require (k : TypeKey) : Except AccessFault Catalogue :=
  match m.get? k with
  | some c => .ok c
  | none => .error (.unknownType k)

/-- The number of catalogues. -/
def size : Nat :=
  m.catalogues.length

/-- Whether there are no catalogues. -/
def isEmpty : Bool :=
  m.catalogues.isEmpty

end Metadata

end Lineage
