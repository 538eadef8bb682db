import Lineage.Attribute

/-!
# Faults

What can go wrong, by cause. *Configuration* faults arise while the substrate is
being built and abort it. *Access* faults answer a single request to read. All
else is a *runtime* fault, which is only a text.

The wording of every fault is fixed by `Fault.message`.
-/

namespace Lineage

/-- A fault in what the substrate is built from. -/
inductive ConfigurationFault where
  /-- A discovered contributor names no type to contribute to. -/
  | missingTarget (contributor : String)
  /-- A contributor names a target that is no resource type. -/
  | unknownTarget (contributor : String) (target : TypeKey)
  /-- No supertype of the type descends from the root. -/
  | unreachable (key : TypeKey)
  /-- The type is referred to but not described. -/
  | unknownType (key : TypeKey)
  /-- The type is its own supertype, or its values contain each other. -/
  | cycle (key : TypeKey)
  /-- Two different types are registered by the same key. -/
  | duplicateType (key : TypeKey)
  /-- A subtype of the marker lacks the attribute that the marker requires. -/
  | missingAttribute (key marker : TypeKey) (name : String)
  /-- The type redeclares an inherited attribute as one of another kind. -/
  | incompatibleRedeclaration (key : TypeKey) (name : String)
      (inherited declared : AttributeKind)
  /-- Two fields of the type lead to attributes of the same name. -/
  | duplicateAttribute (key : TypeKey) (name : String)
  /-- A rule or alias names an attribute that the type does not have. -/
  | unknownAttribute (key : TypeKey) (name : String)
  /-- The alias stands for two attributes, or is the name of another one. -/
  | aliasCollision (key : TypeKey) (scope newName : String)
  /-- The type inherits an attribute in shapes that do not agree. -/
  | conflictingInheritance (key : TypeKey) (name : String) (first second : Shape)
  deriving DecidableEq

/-- A fault in a request to read. -/
inductive AccessFault where
  /-- The caller may read nothing of the type. -/
  | nothingAuthorized (key : TypeKey) (credential : Credential)
  /-- The request names attributes that are unknown or not to be read. -/
  | unauthorized (key : TypeKey) (credential : Credential) (offenders : List String)
  /-- The type is no resource type. -/
  | unknownType (key : TypeKey)
  deriving DecidableEq

/-- Anything that can go wrong. -/
inductive Fault where
  | configuration (cause : ConfigurationFault)
  | access (cause : AccessFault)
  | runtime (text : String)
  deriving DecidableEq

instance : Inhabited Fault := ⟨.runtime ""⟩

/-- The wording of a configuration fault. -/
def ConfigurationFault.message : ConfigurationFault → String
  | missingTarget c => s!"Contributor '{c}' does not declare a target resource type"
  | unknownTarget c t => s!"Contributor '{c}' targets unknown resource type {t}"
  | unreachable k => s!"Type {k} has no path to the resource root"
  | unknownType k => s!"Unknown type: {k}"
  | cycle k => s!"Cycle detected in the type hierarchy at {k}"
  | duplicateType k => s!"Duplicate type: {k}"
  | missingAttribute k m a => s!"Type {k} implements {m} but declares no '{a}' attribute"
  | incompatibleRedeclaration k a inherited declared =>
    s!"Type {k} redeclares attribute '{a}' as {declared}, inherited as {inherited}"
  | duplicateAttribute k a => s!"Type {k} declares attribute '{a}' more than once"
  | unknownAttribute k a => s!"Type {k} has no attribute '{a}'"
  | aliasCollision k scope newName =>
    s!"Alias '{newName}' is not unique for {k} under credential {scope}"
  | conflictingInheritance k a first second =>
    s!"Type {k} inherits attribute '{a}' as both {first} and {second}"

/-- The wording of an access fault. -/
def AccessFault.message : AccessFault → String
  | nothingAuthorized k c => s!"Credential {c} is not authorized to read any attribute of {k}"
  | unauthorized k c offenders =>
    let names := ", ".intercalate offenders
    s!"Unknown or unauthorized attributes for {k} under {c}: {names}"
  | unknownType k => s!"Unknown resource type: {k}"

namespace Fault

/-- The wording of a fault. -/
def message : Fault → String
  | configuration cause => "Configuration error: " ++ cause.message
  | access cause => "Authorization error: " ++ cause.message
  | runtime text => "Runtime error: " ++ text

/-- Whether the fault aborts the start of the application: faults of
    configuration do. -/
def isFatal : Fault → Bool
  | configuration _ => true
  | access _ | runtime _ => false

end Fault

end Lineage
