import Lineage.Access.Policy
import Lineage.Access.Scope
import Lineage.Hierarchy.Order

/-!
# The read guard

The guard answers which attributes of a type a caller may read. Its scopes are
compiled once from all rules, type after type in traversal order, so the rules
on the parents are at hand when a type is reached (`ReadGuard.build`). A caller
without rules on a type has its unrestricted scope.

A request (`ReadGuard.check`) names attributes, or their aliases. If the caller
may read them all, their proper names are served; otherwise the handler of
denials decides. An empty request asks for all that may be read.
-/

namespace Lineage

/-- The compiled rules on a type. -/
structure TypeScopes where
  /-- The scope of callers without rules. -/
  unrestricted : Scope
  /-- The scopes of the other callers. -/
  callers : Table Credential Scope
  deriving DecidableEq, Inhabited

/-- The scope of a caller. -/
def TypeScopes.scope (t : TypeScopes) (c : Credential) : Scope :=
  (t.callers.get? c).getD t.unrestricted

/-- Answers what callers may read. -/
structure ReadGuard where
  /-- The compiled rules on each type. -/
  types : List (TypeKey × TypeScopes)
  /-- What becomes of denials. -/
  handler : DenialHandler

namespace ReadGuard

/-! ### Compiling the rules -/

/-- The label of the scope of all callers. -/
def anyCaller : String := "*"

/-- Makes sure that an attribute exists. -/
def requireAttribute (m : Metadata) (k : TypeKey) (name : String) :
    Except ConfigurationFault Unit :=
  match m.get? k with
  | none => .error (.unknownType k)
  | some c => if c.has name then .ok () else .error (.unknownAttribute k name)

/-- Makes sure that the attributes of all rules and aliases exist. -/
def validate (m : Metadata) (s : RuleSet) : Except ConfigurationFault Unit := do
  s.rules.forM fun r => requireAttribute m r.typeKey r.name
  s.aliases.forM fun a => requireAttribute m a.typeKey a.name

/-- The rules that are declared on a type. -/
def ownRules (s : RuleSet) (k : TypeKey) : EffectiveRules :=
  let declared := (s.rules.filter (·.typeKey = k)).foldl .add {}
  (s.aliases.filter (·.typeKey = k)).foldl .addAlias declared

/-- The rules in effect on a type, from those on its parents. -/
def effective (resolved : List (TypeKey × EffectiveRules)) (s : RuleSet) (n : Node) :
    EffectiveRules :=
  let parents := n.parents.filterMap fun k => resolved.lookup k
  (parents.foldl EffectiveRules.inherit {}).override (ownRules s n.key)

/-- The scopes of all callers on a type. -/
def compile (c : Catalogue) (e : EffectiveRules) : Except ConfigurationFault TypeScopes := do
  let unrestricted ← Scope.compile c anyCaller [] e.aliases
  let callers ← e.callers.mapM fun (caller, rules) => do
    return (caller, ← Scope.compile c caller.name rules e.aliases)
  return { unrestricted, callers }

/-- The state of compiling the rules. -/
structure Progress where
  /-- The rules in effect on the types so far. -/
  resolved : List (TypeKey × EffectiveRules) := []
  /-- The compiled rules on them. -/
  types : List (TypeKey × TypeScopes) := []

/-- Reaches a type: finds the rules in effect on it and compiles them. -/
def extend (m : Metadata) (s : RuleSet) (p : Progress) (n : Node) :
    Except ConfigurationFault Progress :=
  match m.get? n.key with
  | none => .error (.unknownType n.key)
  | some c => do
    let e := effective p.resolved s n
    let scopes ← compile c e
    return { resolved := p.resolved ++ [(n.key, e)], types := p.types ++ [(n.key, scopes)] }

/-- Compiles the rules over a hierarchy. -/
def build (h : Hierarchy) (m : Metadata) (s : RuleSet) (handler : DenialHandler) :
    Except ConfigurationFault ReadGuard := do
  validate m s
  let p ← h.toList.foldlM (extend m s) {}
  return { types := p.types, handler }

/-! ### Requests -/

variable (g : ReadGuard)

/-- The scope of a caller on a type. -/
def scope (k : TypeKey) (c : Credential) : Except Fault Scope :=
  match g.types.lookup k with
  | some t => .ok (t.scope c)
  | none => .error (.access (.unknownType k))

/-- Checks a request: the attributes to serve, or a fault. -/
def check (k : TypeKey) (requested : List String) (c : Credential) :
    Except Fault (List String) := do
  let s ← g.scope k c
  if s.authorized.isEmpty then throw (.access (.nothingAuthorized k c))
  if requested.isEmpty then return s.authorized
  let offenders := requested.filter fun name => !s.permits name
  if offenders.isEmpty then return requested.map s.resolve
  g.handler { typeKey := k, credential := c, offenders, authorized := s.authorized }

/-- The names of the attributes that a caller may read, in catalogue order. -/
def authorized (k : TypeKey) (c : Credential) : Except Fault (List String) :=
  return (← g.scope k c).authorized

/-- Whether there is a rule on the caller for the type. -/
def isRestricted (k : TypeKey) (c : Credential) : Bool :=
  (g.types.lookup k).any fun t => (t.callers.get? c).isSome

/-- The names under which attributes are known to callers without rules. -/
def translate (k : TypeKey) (names : List String) : Except Fault (Table String String) :=
  match g.types.lookup k with
  | some t => .ok (t.unrestricted.translate names)
  | none => .error (.access (.unknownType k))

/-- The names under which attributes are known to a caller. -/
def translateFor (k : TypeKey) (c : Credential) (names : List String) :
    Except Fault (Table String String) :=
  return (← g.scope k c).translate names

/-- The number of types. -/
def size : Nat :=
  g.types.length

/-- Whether there are no types. -/
def isEmpty : Bool :=
  g.types.isEmpty

/-- Describes the guard by the number of its types. -/
def describe : String :=
  s!"ReadSecurityManager \x7b types: {g.size}, .. \x7d"

end ReadGuard

end Lineage
