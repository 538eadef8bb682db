import Lineage.Ident

/-!
# Read rules

A rule concerns one attribute of one type, as one caller sees it: it grants or
hides the attribute, gives it another name, or both. It also holds for the
subtypes of the type. An alias of the type gives an attribute another name for
all callers.
-/

namespace Lineage

/-- A rule on how a caller sees an attribute. -/
structure ReadRule where
  /-- The type that the rule is declared on. -/
  typeKey : TypeKey
  /-- The caller. -/
  credential : Credential
  /-- The name of the attribute. -/
  name : String
  /-- Whether the attribute is granted or hidden; `none` says nothing on it. -/
  visible : Option Bool := none
  /-- The name under which the caller knows the attribute, if another. -/
  newName : Option String := none
  deriving DecidableEq, Inhabited

/-- Another name of an attribute, for all callers. -/
structure TypeAlias where
  /-- The type that the alias is declared on. -/
  typeKey : TypeKey
  /-- The name of the attribute. -/
  name : String
  /-- The name under which it is known. -/
  newName : String
  deriving DecidableEq, Inhabited

/-- Rules and aliases, in the order of their contribution. -/
structure RuleSet where
  /-- The rules. -/
  rules : List ReadRule := []
  /-- The aliases. -/
  aliases : List TypeAlias := []
  deriving DecidableEq, Inhabited

namespace RuleSet

variable (s : RuleSet)

/-- Adds a rule. -/
def add (r : ReadRule) : RuleSet :=
  { s with rules := s.rules ++ [r] }

/-- Hides an attribute from a caller. -/
def hide (k : TypeKey) (c : Credential) (name : String) : RuleSet :=
  s.add { typeKey := k, credential := c, name, visible := some false }

/-- Grants an attribute to a caller. -/
def grant (k : TypeKey) (c : Credential) (name : String) : RuleSet :=
  s.add { typeKey := k, credential := c, name, visible := some true }

/-- Gives an attribute another name for a caller. -/
def rename (k : TypeKey) (c : Credential) (name newName : String) : RuleSet :=
  s.add { typeKey := k, credential := c, name, newName := some newName }

/-- Gives an attribute another name for all callers. -/
def addAlias (a : TypeAlias) : RuleSet :=
  { s with aliases := s.aliases ++ [a] }

/-- The rules and aliases of both. -/
def append (t : RuleSet) : RuleSet :=
  ⟨s.rules ++ t.rules, s.aliases ++ t.aliases⟩

/-- The number of rules; aliases do not count. -/
def size : Nat :=
  s.rules.length

/-- Whether there are neither rules nor aliases. -/
def isEmpty : Bool :=
  s.rules.isEmpty && s.aliases.isEmpty

end RuleSet

end Lineage
