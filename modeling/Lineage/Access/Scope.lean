import Lineage.Access.Rule
import Lineage.Catalogue.Basic
import Lineage.Table

/-!
# Scopes

The *rules in effect* on a type say for each caller and attribute whether it is
granted or hidden, and its other name (`EffectiveRules`). They are inherited
from the parents, the first parent with a rule on a caller and attribute before
the others, and overridden by the type's own rules, separately in visibility and
name.

From them follows the *scope* of a caller: which attributes it may read and
under which names (`Scope.compile`).

* Without rules the caller may read the whole catalogue.
* As soon as some attribute is granted, it may read the granted ones only.
* Otherwise it may read all but the hidden ones.

An alias has to be unique in its scope and may not be the name of another
attribute.
-/

namespace Lineage

/-- The rule in effect on an attribute. -/
structure RuleState where
  /-- Whether the attribute is granted or hidden, if anything is said on it. -/
  visible : Option Bool := none
  /-- Its other name, if it has one. -/
  newName : Option String := none
  deriving DecidableEq, Inhabited

/-- Overrides the rule by what the second one says, separately in visibility and
    name. -/
def RuleState.override (s t : RuleState) : RuleState where
  visible := t.visible <|> s.visible
  newName := t.newName <|> s.newName

/-- The rules on the attributes of a type, as one caller sees it. -/
abbrev CallerRules := Table String RuleState

namespace CallerRules

/-- Overrides the rule on an attribute. -/
def override (rules : CallerRules) (name : String) (s : RuleState) : CallerRules :=
  rules.alter name fun old => (old.getD {}).override s

/-- Overrides the rules on all attributes of the second table. -/
def overrideAll (rules new : CallerRules) : CallerRules :=
  new.foldl (fun rules e => rules.override e.1 e.2) rules

end CallerRules

/-- The rules on a type, its own or those in effect. -/
structure EffectiveRules where
  /-- The rules by caller. -/
  callers : Table Credential CallerRules := []
  /-- The other names of attributes for all callers. -/
  aliases : Table String String := []
  deriving DecidableEq, Inhabited

namespace EffectiveRules

/-- Adds a rule. -/
def add (e : EffectiveRules) (r : ReadRule) : EffectiveRules :=
  { e with
    callers := e.callers.alter r.credential fun old =>
      CallerRules.override (old.getD []) r.name ⟨r.visible, r.newName⟩ }

/-- Adds an alias. -/
def addAlias (e : EffectiveRules) (a : TypeAlias) : EffectiveRules :=
  { e with aliases := e.aliases.set a.name a.newName }

/-- Adds the rules of a further parent, where there are none yet. -/
def inherit (e parent : EffectiveRules) : EffectiveRules where
  callers := parent.callers.foldl
    (fun t c => t.alter c.1 fun old => Table.extend (old.getD []) c.2) e.callers
  aliases := e.aliases.extend parent.aliases

/-- Overrides the inherited rules by the type's own. -/
def override (e own : EffectiveRules) : EffectiveRules where
  callers := own.callers.foldl
    (fun t c => t.alter c.1 fun old => CallerRules.overrideAll (old.getD []) c.2) e.callers
  aliases := e.aliases.overlay own.aliases

end EffectiveRules

/-- What a caller may read of a type, and under which names. -/
structure Scope where
  /-- The names of the attributes that it may read, in catalogue order. -/
  authorized : List String
  /-- The other names of attributes. -/
  aliases : Table String String
  deriving DecidableEq, Inhabited

namespace Scope

/-- The names of the attributes that a caller may read under the given rules. -/
def authorizedBy (names : List String) (rules : CallerRules) : List String :=
  let visible (name : String) : Option Bool := (rules.get? name).bind RuleState.visible
  if rules.any fun e => e.2.visible = some true then
    names.filter fun name => visible name = some true
  else
    names.filter fun name => visible name ≠ some false

/-- The other names of attributes: those for all callers, overridden by those
    for one. -/
def aliasesBy (aliases : Table String String) (rules : CallerRules) : Table String String :=
  rules.foldl (fun t e => match e.2.newName with
    | some newName => t.set e.1 newName
    | none => t) aliases

/-- An alias that collides: it is the name of another attribute, or the alias of an
    earlier one, which are given by their aliases. Which alias is named where several
    collide is unspecified; here it is the first one in the order of the table. -/
def collision? (names : List String) : List String → Table String String → Option String
  | _, [] => none
  | earlier, (name, newName) :: rest =>
    if (newName ≠ name ∧ names.contains newName) ∨ earlier.contains newName then some newName
    else collision? names (newName :: earlier) rest

/-- The scope of a caller under the rules on it. The label stands for the caller
    in faults. -/
def compile (c : Catalogue) (label : String) (rules : CallerRules)
    (aliases : Table String String) : Except ConfigurationFault Scope :=
  let aliases := aliasesBy aliases rules
  match collision? c.names [] aliases with
  | some newName => .error (.aliasCollision c.key label newName)
  | none => .ok { authorized := authorizedBy c.names rules, aliases }

variable (s : Scope)

/-- The attribute that a requested name stands for: the one with that alias, or
    else the one of that name. -/
def resolve (name : String) : String :=
  match s.aliases.find? (·.2 = name) with
  | some e => e.1
  | none => name

/-- The name under which an attribute is known. -/
def aliasOf (name : String) : String :=
  (s.aliases.get? name).getD name

/-- The names of attributes, each with the one under which it is known. A
    repeated name is listed once. -/
def translate (names : List String) : Table String String :=
  names.foldl (fun t name => t.set name (s.aliasOf name)) []

/-- Whether a requested name stands for an attribute that may be read. -/
def permits (name : String) : Bool :=
  s.authorized.contains (s.resolve name)

end Scope

end Lineage
