import Lineage.Descriptor

/-!
# Attributes

An attribute is what a resource type shows of a stored field, its own, an
inherited one, or one of a value object embedded in it. Such *nested*
attributes are named by the path that leads to them, joined by dots.
-/

namespace Lineage

/-- The kinds of attributes. -/
inductive AttributeKind where
  /-- A value. -/
  | plain
  /-- An embedded value object, whose own fields are nested attributes. -/
  | component
  /-- A reference to a resource. -/
  | singularAssociation
  /-- References to several resources. -/
  | pluralAssociation
  deriving DecidableEq, Inhabited

namespace AttributeKind

/-- Whether attributes of the kind refer to resources. -/
def isAssociation : AttributeKind → Bool
  | singularAssociation | pluralAssociation => true
  | plain | component => false

/-- The kind as it is written in messages. -/
def render : AttributeKind → String
  | plain => "plain"
  | component => "component"
  | singularAssociation => "singular association"
  | pluralAssociation => "plural association"

instance : ToString AttributeKind := ⟨render⟩

/-- The word for the kind in JSON. -/
def word : AttributeKind → String
  | plain => "plain"
  | component => "component"
  | singularAssociation => "singular_association"
  | pluralAssociation => "plural_association"

/-- The kinds of attributes. -/
def all : List AttributeKind :=
  [plain, component, singularAssociation, pluralAssociation]

end AttributeKind

/-- An attribute of a resource type. -/
structure Attribute where
  /-- The name: the path, joined by dots. -/
  name : String
  /-- The names of the fields that lead to the value. -/
  path : List String
  /-- The type of its values. -/
  valueType : ValueType
  /-- Its kind. -/
  kind : AttributeKind
  /-- Whether it may be without a value. -/
  optional : Bool
  /-- Whether it is loaded on demand. -/
  isLazy : Bool
  /-- Whether it identifies an instance. -/
  identifier : Bool
  /-- The type that declares it. -/
  declaredBy : TypeKey
  deriving DecidableEq, Inhabited

/-- The structure of an attribute, as far as it matters to where it is
    inherited. -/
structure Shape where
  /-- The kind of the attribute. -/
  kind : AttributeKind
  /-- The type of its values. -/
  valueType : ValueType
  deriving DecidableEq, Inhabited

namespace Shape

/-- Whether two shapes agree: in kind, and of components in the value object
    too. -/
def agrees (a b : Shape) : Bool :=
  a.kind = b.kind && (a.kind ≠ .component || a.valueType = b.valueType)

instance : ToString Shape := ⟨fun s => s!"{s.kind} ({s.valueType})"⟩

end Shape

namespace Attribute

variable (a : Attribute)

/-- Whether the attribute is nested in a component. -/
def isNested : Bool :=
  a.path.length > 1

/-- The type of the resources that an association refers to. -/
def target? : Option TypeKey :=
  match a.kind with
  | .singularAssociation => a.valueType.key?
  | .pluralAssociation => a.valueType.element? >>= ValueType.key?
  | .plain | .component => none

/-- The shape of the attribute. -/
def shape : Shape :=
  ⟨a.kind, a.valueType⟩

end Attribute

end Lineage
