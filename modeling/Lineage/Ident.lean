/-!
# Identifiers

The names by which types and callers are known. Both are plain texts; keeping
them apart in the types keeps a credential from being looked up as a type.

Names are ordered by code point, first difference first, which is the order of
`String`.
-/

namespace Lineage

/-- The key of a type: of a resource type, or of any type that discovery knows. -/
structure TypeKey where
  /-- The name of the type. -/
  name : String
  deriving DecidableEq, Inhabited

/-- The identity of a caller, such as a role name, for which read rules are kept. -/
structure Credential where
  /-- The name of the caller's role. -/
  name : String
  deriving DecidableEq, Inhabited

namespace TypeKey

instance : ToString TypeKey := ⟨name⟩

/-- The key, marked as one: `TypeKey(Dog)`. -/
def marked (k : TypeKey) : String :=
  s!"TypeKey({k.name})"

/-- The order of keys is that of their names. -/
def le (a b : TypeKey) : Bool :=
  decide (a.name ≤ b.name)

/-- The keys in ascending order, repetitions kept. -/
def sort (keys : List TypeKey) : List TypeKey :=
  keys.mergeSort le

end TypeKey

namespace Credential

instance : ToString Credential := ⟨name⟩

/-- The credential, marked as one: `Credential(ADMIN)`. -/
def marked (c : Credential) : String :=
  s!"Credential({c.name})"

/-- The order of credentials is that of their names. -/
def le (a b : Credential) : Bool :=
  decide (a.name ≤ b.name)

/-- The distinct credentials, in ascending order. -/
def sortDistinct (credentials : List Credential) : List Credential :=
  (credentials.mergeSort le).eraseDups

end Credential

end Lineage
