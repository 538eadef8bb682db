import Lineage.Access.Guard
import Lineage.Behavior.Factory
import Lineage.Catalogue.Metadata
import Lineage.Config
import Lineage.Hierarchy.Builder

/-!
# The substrate

The substrate brings the hierarchy, its metadata, the behaviors of both
capabilities and the read guard together. It is built in phases, each from the
ones before (`Blueprint.build`), or not at all: the first step that fails
determines the fault. What it is built from is gathered choice by choice, starting
from a configuration (`Blueprint.ofChoices`).
-/

namespace Lineage

/-- The phases of building the substrate. -/
inductive Phase where
  | hierarchy
  | metadata
  | behaviors
  | access
  | complete
  deriving DecidableEq, Inhabited

namespace Phase

/-- The number of the phase. -/
def number : Phase → Nat
  | hierarchy => 0
  | metadata => 1
  | behaviors => 2
  | access => 3
  | complete => 4

/-- What is built in the phase. -/
def title : Phase → String
  | hierarchy => "resource graph"
  | metadata => "metadata"
  | behaviors => "behaviors"
  | access => "read security"
  | complete => "complete"

/-- The word for the phase in JSON. -/
def word : Phase → String
  | hierarchy => "Graph"
  | metadata => "Metadata"
  | behaviors => "Behaviors"
  | access => "Security"
  | complete => "Complete"

/-- The phases, in order. -/
def all : List Phase := [hierarchy, metadata, behaviors, access, complete]

instance : ToString Phase := ⟨title⟩

instance : Json.Codec Phase where
  encode p := .str p.word
  decode? := Json.word? (all.map fun p => (p.word, p))

end Phase

/-- Why the substrate cannot be built. -/
inductive BootstrapFault where
  /-- The configuration is invalid. -/
  | config (fault : ConfigFault)
  /-- There is no discovery. -/
  | missingDiscovery
  /-- Discovery starts at another root than the configured one. -/
  | rootMismatch (expected found : String)
  /-- The contributors of a kind cannot be found. -/
  | undiscovered (kind : String) (cause : Fault)
  /-- A phase fails. -/
  | phaseFailed (phase : Phase) (cause : Fault)
  deriving DecidableEq

namespace BootstrapFault

/-- The wording of a fault, without its cause. -/
def message : BootstrapFault → String
  | config fault => fault.message
  | missingDiscovery => "No discovery provider configured"
  | rootMismatch expected found =>
    s!"Discovery provider roots at {found}, configuration expects {expected}"
  | undiscovered kind _ => s!"Failed to discover {kind}"
  | phaseFailed phase _ => s!"Phase {phase.number} bootstrap failed: {phase}"

/-- The cause of a fault, if it has one. -/
def cause? : BootstrapFault → Option Fault
  | undiscovered _ cause | phaseFailed _ cause => some cause
  | config _ | missingDiscovery | rootMismatch _ _ => none

end BootstrapFault

/-- What the substrate is built from. -/
structure Blueprint where
  /-- The settings. -/
  config : Config := {}
  /-- Discovery, if there is any. -/
  discovery : Option Discovery := none
  /-- How fields are read. -/
  fields : FieldReader := .ofDescriptor
  /-- How targets of contributors are read. -/
  tags : TagReader := .declared
  /-- Where validators are found, if anywhere. -/
  validators : Option (ContributorSource Validator) := none
  /-- Where hooks are found, if anywhere. -/
  hooks : Option (ContributorSource Hook) := none
  /-- The validators fixed beforehand. -/
  fixedValidators : List (TypeKey × Contributor Validator) := []
  /-- The hooks fixed beforehand. -/
  fixedHooks : List (TypeKey × Contributor Hook) := []
  /-- The read rules. -/
  rules : RuleSet := {}
  /-- What becomes of denials, in place of the configured policy. -/
  handler : Option DenialHandler := none

/-- A choice of something that the substrate is built from. -/
inductive Choice where
  /-- The discovery. -/
  | discovery (p : Discovery)
  /-- How fields are read. -/
  | fields (r : FieldReader)
  /-- How targets of contributors are read. -/
  | tags (t : TagReader)
  /-- Where validators are found. -/
  | validators (source : ContributorSource Validator)
  /-- Where hooks are found. -/
  | hooks (source : ContributorSource Hook)
  /-- A validator fixed beforehand. -/
  | fixedValidator (target : TypeKey) (c : Contributor Validator)
  /-- A hook fixed beforehand. -/
  | fixedHook (target : TypeKey) (c : Contributor Hook)
  /-- Read rules. -/
  | rules (s : RuleSet)
  /-- What becomes of denials. -/
  | handler (f : DenialHandler)

/-- The substrate. -/
structure Substrate where
  /-- The settings that it was built with. -/
  config : Config
  /-- The resource types. -/
  hierarchy : Hierarchy
  /-- Their attributes. -/
  metadata : Metadata
  /-- Their validators. -/
  validators : Factory Validator
  /-- Their hooks. -/
  hooks : Factory Hook
  /-- Who may read them. -/
  guard : ReadGuard

namespace Blueprint

/-! ### Choices -/

/-- Takes a choice into account. Fixed contributors and rules come after those there
    are; of anything else there is one only, which is replaced. -/
def choose (b : Blueprint) : Choice → Blueprint
  | .discovery p => { b with discovery := some p }
  | .fields r => { b with fields := r }
  | .tags t => { b with tags := t }
  | .validators source => { b with validators := some source }
  | .hooks source => { b with hooks := some source }
  | .fixedValidator target c => { b with fixedValidators := b.fixedValidators ++ [(target, c)] }
  | .fixedHook target c => { b with fixedHooks := b.fixedHooks ++ [(target, c)] }
  | .rules s => { b with rules := b.rules.append s }
  | .handler f => { b with handler := some f }

/-- What comes of a configuration and choices, made in order. -/
def ofChoices (config : Config) (choices : List Choice) : Blueprint :=
  choices.foldl choose { config }

/-! ### Building -/

/-- A step of a phase. -/
def step {α : Type} (phase : Phase) (result : Except ConfigurationFault α) :
    Except BootstrapFault α :=
  result.mapError fun fault => .phaseFailed phase (.configuration fault)

/-- The behaviors of a capability: the contributors are found, then composed. -/
def behaviors {β : Type} (c : Capability β) (kind : String) (h : Hierarchy) (m : Metadata)
    (tags : TagReader) (source : Option (ContributorSource β))
    (fixed : List (TypeKey × Contributor β)) : Except BootstrapFault (Factory β) := do
  let discovered ← match source with
    | none => .ok []
    | some source => (source c.name).mapError (.undiscovered kind)
  step .behaviors (Factory.build c h m tags discovered fixed)

variable (b : Blueprint)

/-- The discovery, provided that it starts at the configured root. -/
def rootedDiscovery : Except BootstrapFault Discovery :=
  match b.discovery with
  | none => .error .missingDiscovery
  | some p =>
    if p.root.name = b.config.rootMarker then .ok p
    else .error (.rootMismatch b.config.rootMarker p.root.name)

/-- What becomes of denials. -/
def denialHandler : DenialHandler :=
  b.handler.getD b.config.failurePolicy.handler

/-- Builds the substrate. -/
def build : Except BootstrapFault Substrate := do
  b.config.validate.mapError .config
  let p ← b.rootedDiscovery
  let h ← (Hierarchy.discover p).mapError (.phaseFailed .hierarchy)
  let m ← step .metadata (Metadata.build h p b.fields b.config.requirements)
  let validators ← behaviors .validation "validators" h m b.tags b.validators b.fixedValidators
  let hooks ← behaviors .logic "logic hooks" h m b.tags b.hooks b.fixedHooks
  let guard ← step .access (ReadGuard.build h m b.rules b.denialHandler)
  return { config := b.config, hierarchy := h, metadata := m, validators, hooks, guard }

end Blueprint

namespace Substrate

variable (s : Substrate)

/-- The outcome for an instance of a type that is no resource type. -/
def unknownType (k : TypeKey) : Outcome :=
  .failure s!"Unknown resource type {k}"

/-- Validates an instance by the behavior of its type. -/
def validate (i : Instance) : Outcome :=
  match s.validators.get? i.typeKey with
  | some c => c.shared.behavior i
  | none => unknownType i.typeKey

/-- Runs the hooks of an instance's type. -/
def applyHooks (i : Instance) (op : Operation) : Outcome × Instance :=
  match s.hooks.get? i.typeKey with
  | some c => c.shared.behavior i op
  | none => (unknownType i.typeKey, i)

/-- Checks a request by the guard. -/
def check (k : TypeKey) (requested : List String) (c : Credential) :
    Except Fault (List String) :=
  s.guard.check k requested c

end Substrate

end Lineage
