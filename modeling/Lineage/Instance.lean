import Lineage.Ident
import Lineage.Json.Basic

/-!
# Instances

An instance is a value of a resource type at run time: free-form values by
attribute name. A `null` value counts as missing.
-/

namespace Lineage

/-- A value of a resource type. -/
structure Instance where
  /-- The type. -/
  typeKey : TypeKey
  /-- The values by attribute name, in normal form. -/
  values : Json.Members := []
  deriving DecidableEq, Inhabited

namespace Instance

variable (i : Instance)

/-- The value of an attribute, unless it is missing. -/
def get? (name : String) : Option Json :=
  (i.values.get? name).filter (· ≠ .null)

/-- The instance with the value of an attribute set. -/
def set (name : String) (v : Json) : Instance :=
  { i with values := i.values.set name v }

end Instance

end Lineage
