import Lineage.Discovery
import Lineage.Hierarchy.Basic
import Lineage.Catalogue.Basic

/-!
# Flattening fields to attributes

The stored fields of a type become its own attributes. A field that holds a
value object is followed by the attributes of the value object's own stored
fields, in depth-first order: their path is that of the component extended by
the name of the field, and they are optional or lazy as soon as some field on
the path is (`flatten`).

Value objects may not contain each other in a cycle, and no two paths may join
to the same name. So the state holds, next to the attributes so far, the value
objects whose fields are being flattened: each is put there before its fields
(`Flattening.enter`), and taken out after them (`Flattening.leave`).
-/

namespace Lineage.Catalogue

/-- Where a field sits while it is being flattened. -/
structure Scope where
  /-- The path of the enclosing components. -/
  path : List String := []
  /-- Whether some of them may be without a value. -/
  optional : Bool := false
  /-- Whether some of them are loaded on demand. -/
  isLazy : Bool := false

/-- The scope of the fields of the value object that an attribute holds. -/
def Scope.inside (a : Attribute) : Scope where
  path := a.path
  optional := a.optional
  isLazy := a.isLazy

/-- The state while fields are being flattened. -/
structure Flattening where
  /-- The attributes so far. -/
  attributes : Attributes := []
  /-- The value objects whose fields are being flattened, the innermost first. -/
  opened : List TypeKey := []
  deriving DecidableEq

namespace Flattening

/-- Adds an attribute behind those that are there. -/
def add (t : Flattening) (a : Attribute) : Flattening :=
  { t with attributes := t.attributes ++ [a] }

/-- Starts on the fields of a value object. -/
def enter (t : Flattening) (k : TypeKey) : Flattening :=
  { t with opened := k :: t.opened }

/-- Is done with the fields of a value object. -/
def leave (t : Flattening) (k : TypeKey) : Flattening :=
  { t with opened := t.opened.erase k }

end Flattening

variable (h : Hierarchy) (p : Discovery)

/-- The kind of the attributes with a value type, and for components the value
    object. References to resources, or to a collection or array of them, are
    associations. -/
def classify : ValueType → AttributeKind × Option TypeDescriptor
  | .scalar _ => (.plain, none)
  | .named k =>
    if h.contains k then (.singularAssociation, none)
    else match p.describe? k with
      | none => (.plain, none)
      | some d => if d.kind = .valueObject then (.component, some d) else (.plain, none)
  | .collection t | .array t =>
    match t with
    | .named k => if h.contains k then (.pluralAssociation, none) else (.plain, none)
    | .scalar _ | .collection _ | .array _ => (.plain, none)

/-- The attribute that a field makes in its scope. -/
def attributeOf (owner : TypeKey) (scope : Scope) (f : Field) : Attribute :=
  let path := scope.path ++ [f.name]
  { name := ".".intercalate path
    path := path
    valueType := f.valueType
    kind := (classify h p f.valueType).1
    optional := scope.optional || f.modifiers.isNullable
    isLazy := scope.isLazy || f.modifiers.isLazy
    identifier := scope.path.isEmpty && f.modifiers.isIdentifier
    declaredBy := owner }

variable (r : FieldReader)

/-- Adds the attributes of a field, its own first and then those nested in it,
    at most to the given depth. -/
def flatten (owner : TypeKey) : Nat → Scope → Flattening → Field →
    Bounded ConfigurationFault Flattening
  | 0, _, _, _ => (none : Option _)
  | fuel + 1, scope, t, f => do
    let a := attributeOf h p owner scope f
    if t.attributes.has a.name then throw (.duplicateAttribute owner a.name)
    let t := t.add a
    match (classify h p f.valueType).2 with
    | none => return t
    | some d =>
      if t.opened.contains d.key then throw (.cycle d.key)
      let nested := (r.declared d).filter Field.isPersistent
      return (← nested.foldlM (flatten owner fuel (.inside a)) (t.enter d.key)).leave d.key

/-- The attributes that a type declares itself: those of its stored fields, the
    authoritative ones if the type is managed. (Value objects that nest deeper
    than there are described types would contain each other in a cycle; such a
    cycle is found before.) -/
def ownAttributes (d : TypeDescriptor) : Except ConfigurationFault Attributes :=
  let stored := (r.fields d).filter Field.isPersistent
  let result := (stored.foldlM (flatten h p r d.key p.depthBound {}) {}).run
  (result.getD (.error (.cycle d.key))).map Flattening.attributes

end Lineage.Catalogue
