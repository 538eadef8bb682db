import Lineage.Behavior.Contributor
import Lineage.Catalogue.Basic
import Lineage.Hierarchy.Order

/-!
# The behaviors of a hierarchy

The contributors of a capability are composed to one behavior for each type:

1. every contributor is paired with its target, those found by discovery before
   those fixed beforehand; the target has to be a resource type;
2. of contributions with the same name and target only the first counts
   (`join`);
3. each type takes over what its parents have, each once, and adds the
   contributions made for itself, or a placeholder if there are none (`collect`);
4. placeholders are dropped where there is anything else (`elide`);
5. what is left is put into the order of the capability and composed (`passOn`).

Types with the same contributions in the same order share one composite
(`Pool`).
-/

namespace Lineage

/-- What identifies a contribution, or the lack of any. -/
inductive ContributionKey where
  /-- Nothing is registered. -/
  | noOp
  /-- The contribution of a name to a target. -/
  | named (name : String) (target : TypeKey)
  deriving DecidableEq, Inhabited

/-- The key as it is written: `name@target`. -/
def ContributionKey.render : ContributionKey → String
  | noOp => "no-op"
  | named name target => s!"{name}@{target}"

instance : ToString ContributionKey := ⟨ContributionKey.render⟩

/-- A behavior contributed to a type. -/
structure Contribution (β : Type) where
  /-- The name of the contributor. -/
  name : String
  /-- The type that it was made for. -/
  target : TypeKey
  /-- The depth of that type. -/
  depth : Nat
  /-- Its position among all collected contributors. -/
  rank : Nat
  /-- The behavior. -/
  shared : Shared β

/-- The identity of a contribution. -/
def Contribution.key {β : Type} (c : Contribution β) : ContributionKey :=
  .named c.name c.target

/-- Adds elements, except those whose keys are already there. -/
def addNew {α κ : Type} [DecidableEq κ] (key : α → κ) (found new : List α) : List α :=
  new.foldl (fun found a => if found.any (key · = key a) then found else found ++ [a]) found

/-- Contributions with distinct keys. -/
abbrev Contributions (β : Type) := List (Contribution β)

/-- What a type has: a contribution, or the placeholder for not having any. -/
abbrev Entry (β : Type) := Option (Contribution β)

namespace Entry

variable {β : Type}

/-- The identity of an entry. -/
def key : Entry β → ContributionKey
  | some c => c.key
  | none => .noOp

/-- Where an entry comes in the order by depth: by the depth of its target and then
    by its rank. The placeholder has the depth of the root and comes last there. -/
def le : Entry β → Entry β → Bool
  | some a, some b => a.depth < b.depth || (a.depth = b.depth && a.rank ≤ b.rank)
  | some a, none => a.depth = 0
  | none, some b => 0 < b.depth
  | none, none => true

/-- The behavior of an entry. -/
def slot (e : Entry β) : Slot β :=
  e.map Contribution.shared

end Entry

/-- Entries with distinct keys. -/
abbrev Entries (β : Type) := List (Entry β)

/-- The contributions as entries; where there are none, the placeholder. -/
def Contributions.entries {β : Type} : Contributions β → Entries β
  | [] => [none]
  | c :: cs => some c :: cs.map some

namespace Entries

variable {β : Type}

/-- The entries in the order in which they run. -/
def sortBy (precedence : Precedence) (es : Entries β) : Entries β :=
  match precedence with
  | .propagation => es
  | .depth => es.mergeSort Entry.le

/-- The keys of the entries. -/
def keys (es : Entries β) : List ContributionKey :=
  es.map Entry.key

end Entries

/-- The behavior of a type. -/
structure Composite (β : Type) where
  /-- The composed behavior. -/
  shared : Shared β
  /-- What it was composed of, in the order in which it runs. -/
  contributors : List ContributionKey

namespace Composite

variable {β : Type} (c : Composite β)

/-- Whether nothing is registered for the type. -/
def isNoOp : Bool :=
  c.contributors = [.noOp]

/-- Whether two composites are the same behavior. -/
def same (d : Composite β) : Bool :=
  c.shared.handle = d.shared.handle

end Composite

/-- The composites made so far. Each has got their number as its serial. -/
abbrev Pool (β : Type) := List (Composite β)

namespace Pool

variable {β : Type}

/-- The composite of the given entries, made if there is none yet. -/
def obtain (pool : Pool β) (c : Capability β) (es : Entries β) : Composite β × Pool β :=
  match pool.find? (·.contributors = es.keys) with
  | some composite => (composite, pool)
  | none =>
    let shared := c.compose (.composed pool.length) (es.map Entry.slot)
    let composite : Composite β := ⟨shared, es.keys⟩
    (composite, pool ++ [composite])

end Pool

/-- The behaviors of all types in a hierarchy. -/
structure Factory (β : Type) where
  /-- The capability. -/
  capability : Capability β
  /-- The behavior of each type. -/
  composites : List (TypeKey × Composite β)
  /-- The behavior of a type for which nothing is registered. -/
  noOp : Composite β

namespace Factory

variable {β : Type}

/-! ### Joining -/

/-- Pairs discovered contributors with their targets. -/
def pair (tags : TagReader) (discovered : List (Contributor β)) :
    Except ConfigurationFault (List (TypeKey × Contributor β)) :=
  discovered.mapM fun c => match tags c.tag with
    | some target => .ok (target, c)
    | none => .error (.missingTarget c.tag.name)

/-- The contribution of a contributor at the given position, if its target is a
    resource type. -/
def contribution (h : Hierarchy) (m : Metadata) (rank : Nat) (target : TypeKey)
    (c : Contributor β) : Except ConfigurationFault (Contribution β) :=
  match h.locate? target, m.get? target with
  | some n, some _ =>
    .ok { name := c.tag.name, target, depth := n.depth, rank, shared := c.shared }
  | _, _ => .error (.unknownTarget c.tag.name target)

/-- The contributions of all contributors, each key once. -/
def join (h : Hierarchy) (m : Metadata) (paired : List (TypeKey × Contributor β)) :
    Except ConfigurationFault (Contributions β) := do
  let cs ← paired.zipIdx.mapM fun ((target, c), rank) => contribution h m rank target c
  return addNew Contribution.key [] cs

/-! ### Passing on -/

/-- The state of passing contributions on. -/
structure Progress (β : Type) where
  /-- The entries of the types so far, in the order in which they run. -/
  resolved : List (TypeKey × Entries β) := []
  /-- The composites made so far. -/
  pool : Pool β := []
  /-- The behaviors of the types so far. -/
  composites : List (TypeKey × Composite β) := []

/-- The entries of a type: those of its parents, then the contributions made for
    itself, or the placeholder if there are none. Placeholders are dropped if there
    is anything else. -/
def collect (p : Progress β) (own : Contributions β) (n : Node) : Entries β :=
  let inherited := addNew Entry.key [] (n.parents.flatMap fun k => (p.resolved.lookup k).getD [])
  elide (addNew Entry.key inherited (Contributions.entries (own.filter (·.target = n.key))))

/-- Reaches a type: collects its entries and composes them. -/
def passOn (c : Capability β) (own : Contributions β) (p : Progress β) (n : Node) :
    Progress β :=
  let es := (collect p own n).sortBy c.precedence
  let (composite, pool) := p.pool.obtain c es
  { resolved := p.resolved ++ [(n.key, es)]
    pool := pool
    composites := p.composites ++ [(n.key, composite)] }

/-- The behaviors of all types from the contributions to them. If nothing is
    registered for the root then its behavior is the one that does nothing, and
    otherwise there is a new one. -/
def ofContributions (c : Capability β) (h : Hierarchy) (own : Contributions β) : Factory β :=
  let p := h.toList.foldl (passOn c own) {}
  let fresh : Composite β := ⟨⟨.composed p.pool.length, c.noOp⟩, [.noOp]⟩
  let root := h.root?.bind fun r => p.composites.lookup r.key
  { capability := c
    composites := p.composites
    noOp := (root.filter Composite.isNoOp).getD fresh }

/-- The behaviors of all types, from the discovered contributors and those fixed
    beforehand. -/
def build (c : Capability β) (h : Hierarchy) (m : Metadata) (tags : TagReader)
    (discovered : List (Contributor β)) (fixed : List (TypeKey × Contributor β)) :
    Except ConfigurationFault (Factory β) := do
  let paired ← pair tags discovered
  return ofContributions c h (← join h m (paired ++ fixed))

/-! ### Look-up -/

variable (f : Factory β)

/-- The behavior of a type. -/
def get? (k : TypeKey) : Option (Composite β) :=
  f.composites.lookup k

/-- The behavior of a type; of any other, the one that does nothing. -/
def getOrNoOp (k : TypeKey) : Composite β :=
  (f.get? k).getD f.noOp

/-- The number of types. -/
def size : Nat :=
  f.composites.length

/-- Whether there are no types. -/
def isEmpty : Bool :=
  f.composites.isEmpty

end Factory

end Lineage
