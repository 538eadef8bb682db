import Lineage.Discovery
import Lineage.Table

/-!
# The type registry

A registry holds the types that an application registers, in the order of their
registration, and the authoritative fields of the types that it manages. It is
the usual source of discovery (`Registry.toDiscovery`) and of fields
(`Registry.toFieldReader`).

A key is registered once: registering the same type again changes nothing, and
another type under the same key is refused.
-/

namespace Lineage

/-- The registered types. -/
structure Registry where
  /-- The marker from which all resource types descend. -/
  root : TypeKey
  /-- The registered types, in order of registration, the root first. -/
  types : List TypeDescriptor
  /-- The authoritative fields of managed types. -/
  managed : Table TypeKey (List Field) := []

namespace Registry

/-- The registry that holds the root marker only, as an interface. -/
def new (root : TypeKey) : Registry where
  root := root
  types := [.ofKind root .interfaceType]

variable (r : Registry)

/-- The registered type with the given key. -/
def find? (k : TypeKey) : Option TypeDescriptor :=
  r.types.find? (·.key = k)

/-- Registers a type. -/
def register (d : TypeDescriptor) : Except Fault Registry :=
  match r.find? d.key with
  | none => .ok { r with types := r.types ++ [d] }
  | some known =>
    if known = d then .ok r else .error (.configuration (.duplicateType d.key))

/-- Sets the authoritative fields of a type. -/
def setManaged (k : TypeKey) (fields : List Field) : Registry :=
  { r with managed := r.managed.set k fields }

/-- The number of registered types, the root included. -/
def size : Nat :=
  r.types.length

/-- Whether no type but the root is registered. -/
def isEmpty : Bool :=
  r.size ≤ 1

/-- The registered types as described ones, with no search of their own. -/
def describing : Discovery where
  root := r.root
  described := r.types
  find _ := .ok []

/-- The registered types that descend from a marker, other than itself, in order
    of registration. -/
def findDescending (marker : TypeKey) : List TypeDescriptor :=
  r.types.filter fun d => d.key ≠ marker && r.describing.descends d.key marker

/-- Discovery of the registered types. -/
def toDiscovery : Discovery :=
  { r.describing with find := fun marker => .ok (r.findDescending marker) }

/-- Reads the fields of registered types. -/
def toFieldReader : FieldReader where
  declared := TypeDescriptor.fields
  managed d := r.managed.get? d.key

end Registry

end Lineage
