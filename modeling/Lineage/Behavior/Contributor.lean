import Lineage.Discovery
import Lineage.Behavior.Compose

/-!
# Contributors

A contributor offers a behavior for a type. Contributors are collected in
registries, under a tag for each capability, and found by a provider
(`ContributorSource`), which may fail. Which type a contributor is meant for is
read off it by a `TagReader`; contributors without a target are *untagged*.
-/

namespace Lineage

/-- What a contributor tells of itself. -/
structure ContributorTag where
  /-- The name of the contributor. -/
  name : String
  /-- The type that it is meant for. -/
  target : Option TypeKey
  deriving DecidableEq, Inhabited

/-- The offer of a behavior. -/
structure Contributor (β : Type) where
  /-- What the contributor tells of itself. -/
  tag : ContributorTag
  /-- The behavior. -/
  shared : Shared β

/-- Reads off a contributor which type it is meant for. -/
abbrev TagReader := ContributorTag → Option TypeKey

namespace TagReader

/-- Takes the contributor's word. -/
def declared : TagReader := ContributorTag.target

/-- Looks the contributor's name up in a table. -/
def ofTable (table : List (String × TypeKey)) : TagReader :=
  fun tag => table.lookup tag.name

end TagReader

/-- Finds the contributors collected under a tag. -/
abbrev ContributorSource (β : Type) := String → Except Fault (List (Contributor β))

/-- Contributors, each under a tag, in the order of their registration. -/
abbrev ContributorRegistry (β : Type) := List (String × Contributor β)

namespace ContributorRegistry

variable {β : Type}

/-- Registers a contributor under a tag. -/
def register (r : ContributorRegistry β) (tag : String) (c : Contributor β) :
    ContributorRegistry β :=
  r ++ [(tag, c)]

/-- The contributors under a tag. -/
def get (r : ContributorRegistry β) (tag : String) : List (Contributor β) :=
  (r.filter (·.1 = tag)).map Prod.snd

/-- The registry as a source of contributors. -/
def toSource (r : ContributorRegistry β) : ContributorSource β :=
  fun tag => .ok (r.get tag)

end ContributorRegistry

end Lineage
