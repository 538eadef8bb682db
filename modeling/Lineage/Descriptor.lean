import Lineage.Ident

/-!
# Type descriptors

What discovery tells of a type: its key and kind, its supertypes, and the
fields that it declares, each with a value type and modifiers. Descriptors are
plain data; a supertype is only named and need not be described itself.
-/

namespace Lineage

/-- The type of the values that a field holds. -/
inductive ValueType where
  /-- A value without structure of its own. -/
  | scalar (name : String)
  /-- A value of a type known by its key. -/
  | named (key : TypeKey)
  /-- A collection of values. -/
  | collection (element : ValueType)
  /-- An array of values. -/
  | array (element : ValueType)
  deriving DecidableEq, Inhabited

namespace ValueType

/-- The type of the values in a collection or array. -/
def element? : ValueType → Option ValueType
  | collection t | array t => some t
  | scalar _ | named _ => none

/-- The key of a value type that is given by one. -/
def key? : ValueType → Option TypeKey
  | named k => some k
  | scalar _ | collection _ | array _ => none

/-- The collection of the values of a type known by its key. -/
def collectionOf (k : TypeKey) : ValueType :=
  collection (named k)

/-- The value type as it is written in messages. -/
def render : ValueType → String
  | scalar name => name
  | named k => k.name
  | collection t => s!"Collection<{t.render}>"
  | array t => s!"[{t.render}]"

instance : ToString ValueType := ⟨render⟩

end ValueType

/-- The modifiers that a field may carry, as a set. -/
structure Modifiers where
  /-- The field belongs to the type, not to its instances. -/
  isStatic : Bool := false
  /-- The field is not stored. -/
  isTransient : Bool := false
  /-- The field may be without a value. -/
  isNullable : Bool := false
  /-- The field is loaded on demand. -/
  isLazy : Bool := false
  /-- The field identifies an instance. -/
  isIdentifier : Bool := false
  deriving DecidableEq, Inhabited

namespace Modifiers

/-- No modifiers. -/
def empty : Modifiers := {}

/-- The modifiers in either set. -/
def union (a b : Modifiers) : Modifiers where
  isStatic := a.isStatic || b.isStatic
  isTransient := a.isTransient || b.isTransient
  isNullable := a.isNullable || b.isNullable
  isLazy := a.isLazy || b.isLazy
  isIdentifier := a.isIdentifier || b.isIdentifier

/-- The modifiers by name, each with whether it is in the set, in the order of
    their bits. -/
def flags (m : Modifiers) : List (String × Bool) :=
  [("STATIC", m.isStatic), ("TRANSIENT", m.isTransient), ("NULLABLE", m.isNullable),
   ("LAZY", m.isLazy), ("IDENTIFIER", m.isIdentifier)]

/-- The names of the modifiers in the set. -/
def names (m : Modifiers) : List String :=
  m.flags.filterMap fun (name, given) => if given then some name else none

/-- The set as a number, each modifier a bit, `STATIC` the lowest. -/
def bits (m : Modifiers) : Nat :=
  m.flags.foldr (fun f n => f.2.toNat + 2 * n) 0

/-- The set of one modifier, by its name. -/
def ofName? : String → Option Modifiers
  | "STATIC" => some { isStatic := true }
  | "TRANSIENT" => some { isTransient := true }
  | "NULLABLE" => some { isNullable := true }
  | "LAZY" => some { isLazy := true }
  | "IDENTIFIER" => some { isIdentifier := true }
  | _ => none

end Modifiers

/-- A field that a type declares. -/
structure Field where
  /-- The name of the field. -/
  name : String
  /-- The type of its values. -/
  valueType : ValueType
  /-- Its modifiers. -/
  modifiers : Modifiers := .empty
  deriving DecidableEq, Inhabited

namespace Field

/-- The field with further modifiers. -/
def adding (f : Field) (m : Modifiers) : Field :=
  { f with modifiers := f.modifiers.union m }

/-- Whether the field is part of the stored state of an instance. -/
def isPersistent (f : Field) : Bool :=
  !f.modifiers.isStatic && !f.modifiers.isTransient

end Field

/-- The kinds of types. -/
inductive TypeKind where
  | classType
  | interfaceType
  /-- A type whose values are embedded in the instances of other types. -/
  | valueObject
  deriving DecidableEq, Inhabited

namespace TypeKind

/-- The name of the kind. -/
def name : TypeKind → String
  | classType => "Class"
  | interfaceType => "Interface"
  | valueObject => "ValueObject"

/-- The kinds by name. -/
def all : List (String × TypeKind) :=
  [classType, interfaceType, valueObject].map fun k => (k.name, k)

end TypeKind

/-- What discovery tells of a type. -/
structure TypeDescriptor where
  /-- The key of the type. -/
  key : TypeKey
  /-- Its kind. -/
  kind : TypeKind
  /-- The type it extends, if any. -/
  superclass : Option TypeKey := none
  /-- The interfaces it implements, in order of declaration. -/
  interfaces : List TypeKey := []
  /-- The fields it declares, in order. -/
  fields : List Field := []
  /-- Whether it has no instances of its own. -/
  isAbstract : Bool := false
  deriving DecidableEq, Inhabited

namespace TypeDescriptor

/-- A type of the given kind without supertypes and fields. Interfaces are
    abstract. -/
def ofKind (key : TypeKey) (kind : TypeKind) : TypeDescriptor :=
  { key, kind, isAbstract := kind = .interfaceType }

/-- The type made abstract. -/
def asAbstract (d : TypeDescriptor) : TypeDescriptor :=
  { d with isAbstract := true }

/-- The types that it directly descends from, the superclass first. -/
def supertypes (d : TypeDescriptor) : List TypeKey :=
  d.superclass.toList ++ d.interfaces

end TypeDescriptor

end Lineage
