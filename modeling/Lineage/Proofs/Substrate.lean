import Lineage.Behavior.Stock
import Lineage.Proofs.Behavior.Contributions
import Lineage.Proofs.Registry
import Lineage.Substrate
import Mathlib.Data.List.Induction

/-!
# The substrate and its subsystems

A substrate is what its subsystems are when they are built one by one, from the same
inputs (`Blueprint.build_ofChoices`):

* the choices that were made are what it is built from: of those that replace each other
  the last one, of those that add up all, in their order (`Blueprint.Gathers`);
* it is built if and only if each subsystem is built from those before, and it consists
  of them (`Blueprint.Assembled`);
* otherwise the fault is that of the first step that fails (`Blueprint.FailsFirst`). No
  later step has a say in it, as a step fails first only if all steps before it have
  succeeded.

The steps that have succeeded so far are gathered in structures, each of which extends
the one before. So the premises of a fault are the steps before it and its own failure.
-/

namespace Lineage

open Blueprint

/-! ### What is gathered from choices -/

namespace Choice

/-- The discovery that is chosen. -/
def discovery? : Choice → Option Discovery
  | discovery p => some p
  | _ => none

/-- The reader of fields that is chosen. -/
def fields? : Choice → Option FieldReader
  | fields r => some r
  | _ => none

/-- The reader of targets that is chosen. -/
def tags? : Choice → Option TagReader
  | tags t => some t
  | _ => none

/-- The source of validators that is chosen. -/
def validators? : Choice → Option (ContributorSource Validator)
  | validators source => some source
  | _ => none

/-- The source of hooks that is chosen. -/
def hooks? : Choice → Option (ContributorSource Hook)
  | hooks source => some source
  | _ => none

/-- The validator that is fixed. -/
def fixedValidator? : Choice → Option (TypeKey × Contributor Validator)
  | fixedValidator target c => some (target, c)
  | _ => none

/-- The hook that is fixed. -/
def fixedHook? : Choice → Option (TypeKey × Contributor Hook)
  | fixedHook target c => some (target, c)
  | _ => none

/-- The rules that are added. -/
def rules? : Choice → Option RuleSet
  | rules s => some s
  | _ => none

/-- The handler of denials that is chosen. -/
def handler? : Choice → Option DenialHandler
  | handler f => some f
  | _ => none

end Choice

/-- The last choice of a kind, if there is one. -/
def lastChoice {α : Type} (kind : Choice → Option α) (choices : List Choice) : Option α :=
  (choices.filterMap kind).getLast?

/-- One more choice of a kind replaces those before it. One of another kind changes nothing. -/
theorem lastChoice_concat {α : Type} (kind : Choice → Option α) (choices : List Choice)
    (x : Choice) : lastChoice kind (choices ++ [x]) = (kind x).or (lastChoice kind choices) := by
  rw [lastChoice, lastChoice, List.filterMap_append, List.getLast?_append]
  cases hx : kind x with
  | none => simp [hx]
  | some a => simp [hx]

namespace Blueprint

/-- What is built from is what has been chosen. -/
structure Gathers (config : Config) (choices : List Choice) (b : Blueprint) : Prop where
  config : b.config = config
  discovery : b.discovery = lastChoice Choice.discovery? choices
  fields : b.fields = (lastChoice Choice.fields? choices).getD .ofDescriptor
  tags : b.tags = (lastChoice Choice.tags? choices).getD .declared
  validators : b.validators = lastChoice Choice.validators? choices
  hooks : b.hooks = lastChoice Choice.hooks? choices
  fixedValidators : b.fixedValidators = choices.filterMap Choice.fixedValidator?
  fixedHooks : b.fixedHooks = choices.filterMap Choice.fixedHook?
  rules : b.rules.rules = (choices.filterMap Choice.rules?).flatMap RuleSet.rules
  aliases : b.rules.aliases = (choices.filterMap Choice.rules?).flatMap RuleSet.aliases
  handler : b.handler = lastChoice Choice.handler? choices

/-- One more choice is gathered on top of those before it, whatever its kind. -/
theorem Gathers.choose {config : Config} {choices : List Choice} {b : Blueprint}
    (hb : Gathers config choices b) (x : Choice) :
    Gathers config (choices ++ [x]) (b.choose x) where
  config := by cases x <;> exact hb.config
  discovery := by
    rw [lastChoice_concat, ← hb.discovery]
    cases x <;> rfl
  fields := by
    rw [lastChoice_concat]
    cases x <;> first | exact hb.fields | rfl
  tags := by
    rw [lastChoice_concat]
    cases x <;> first | exact hb.tags | rfl
  validators := by
    rw [lastChoice_concat, ← hb.validators]
    cases x <;> rfl
  hooks := by
    rw [lastChoice_concat, ← hb.hooks]
    cases x <;> rfl
  fixedValidators := by
    rw [List.filterMap_append, ← hb.fixedValidators]
    cases x <;> simp [Blueprint.choose, Choice.fixedValidator?]
  fixedHooks := by
    rw [List.filterMap_append, ← hb.fixedHooks]
    cases x <;> simp [Blueprint.choose, Choice.fixedHook?]
  rules := by
    rw [List.filterMap_append, List.flatMap_append, ← hb.rules]
    cases x <;> simp [Blueprint.choose, RuleSet.append, Choice.rules?]
  aliases := by
    rw [List.filterMap_append, List.flatMap_append, ← hb.aliases]
    cases x <;> simp [Blueprint.choose, RuleSet.append, Choice.rules?]
  handler := by
    rw [lastChoice_concat, ← hb.handler]
    cases x <;> rfl

/-- All choices are gathered, by induction on how many have been made. -/
theorem gathers_ofChoices (config : Config) (choices : List Choice) :
    Gathers config choices (ofChoices config choices) := by
  induction choices using List.reverseRecOn with
  | nil => constructor <;> rfl
  | append_singleton choices x ih =>
    rw [ofChoices, List.foldl_concat]
    exact ih.choose x

/-! ### Steps -/

theorem step_eq_ok {α : Type} {phase : Phase} {x : Except ConfigurationFault α} {a : α} :
    step phase x = .ok a ↔ x = .ok a :=
  mapError_eq_ok

theorem step_eq_error {α : Type} {phase : Phase} {x : Except ConfigurationFault α}
    {e : BootstrapFault} : step phase x = .error e ↔
      ∃ cause, x = .error cause ∧ .phaseFailed phase (.configuration cause) = e :=
  mapError_eq_error

section Behaviors

variable {β : Type} (c : Capability β) (kind : String) (h : Hierarchy) (m : Metadata)
  (tags : TagReader) (source : Option (ContributorSource β))
  (fixed : List (TypeKey × Contributor β))

/-- The contributors that a source finds for a capability. Without a source there are
    none. -/
def found : Option (ContributorSource β) → Except Fault (List (Contributor β))
  | none => .ok []
  | some source => source c.name

/-- The behaviors of a capability are built, from what is found and what is fixed. -/
def Composes (f : Factory β) : Prop :=
  ∃ discovered, found c source = .ok discovered ∧
    Factory.build c h m tags discovered fixed = .ok f

theorem behaviors_eq : behaviors c kind h m tags source fixed =
    (found c source).mapError (.undiscovered kind) >>= fun discovered =>
      step .behaviors (Factory.build c h m tags discovered fixed) := by
  cases source <;> rfl

variable {c kind h m tags source fixed}

theorem behaviors_eq_ok {f : Factory β} :
    behaviors c kind h m tags source fixed = .ok f ↔ Composes c h m tags source fixed f := by
  simp only [behaviors_eq, bind_eq_ok, mapError_eq_ok, step_eq_ok, Composes]

/-- Behaviors are not built if their source fails, or if what it finds cannot be composed. The
    first is no fault of a phase. -/
theorem behaviors_eq_error {e : BootstrapFault} :
    behaviors c kind h m tags source fixed = .error e ↔
      (∃ cause, found c source = .error cause ∧ .undiscovered kind cause = e) ∨
      ∃ discovered, found c source = .ok discovered ∧ ∃ cause,
        Factory.build c h m tags discovered fixed = .error cause ∧
          .phaseFailed .behaviors (.configuration cause) = e := by
  simp only [behaviors_eq, bind_eq_error, mapError_eq_ok, mapError_eq_error, step_eq_error]

/-- Exactly the types of the hierarchy have a behavior. -/
theorem Composes.isSome_get? {f : Factory β} (hf : Composes c h m tags source fixed f)
    {root : TypeKey} (hw : h.WellFormed root) (k : TypeKey) :
    (f.get? k).isSome = h.contains k := by
  obtain ⟨_, _, hf⟩ := hf
  obtain ⟨own, rfl, _⟩ := Factory.build_eq_ok hf
  exact Factory.isSome_get? hw

end Behaviors

variable {b : Blueprint}

theorem rootedDiscovery_eq_ok {p : Discovery} : b.rootedDiscovery = .ok p ↔
    b.discovery = some p ∧ p.root.name = b.config.rootMarker := by
  unfold rootedDiscovery
  cases b.discovery with
  | none => simp
  | some q =>
    dsimp only
    split_ifs with hroot
    · rw [Except.ok.injEq, Option.some.injEq]
      exact (and_iff_left_of_imp fun h => h ▸ hroot).symm
    · refine iff_of_false (fun h => nomatch h) ?_
      rintro ⟨h, hp⟩
      exact hroot (Option.some.inj h ▸ hp)

/-- Discovery has to be chosen, and to start at the root that is configured. -/
theorem rootedDiscovery_eq_error {e : BootstrapFault} : b.rootedDiscovery = .error e ↔
    b.discovery = none ∧ .missingDiscovery = e ∨
    ∃ p, b.discovery = some p ∧ p.root.name ≠ b.config.rootMarker ∧
      .rootMismatch b.config.rootMarker p.root.name = e := by
  unfold rootedDiscovery
  cases b.discovery with
  | none => simp
  | some q =>
    dsimp only
    split_ifs with hroot <;> simp [hroot]

/-! ### The steps so far -/

/-- The configuration is valid, and discovery starts at the configured root. -/
structure Rooted (b : Blueprint) (p : Discovery) : Prop where
  valid : b.config.validate = .ok ()
  discovery : b.discovery = some p
  root : p.root.name = b.config.rootMarker

/-- The hierarchy is built. -/
structure Discovered (b : Blueprint) (p : Discovery) (h : Hierarchy) : Prop
    extends Rooted b p where
  hierarchy : Hierarchy.discover p = .ok h

/-- The metadata is built, with the requirements of the configuration. -/
structure Described (b : Blueprint) (p : Discovery) (h : Hierarchy) (m : Metadata) : Prop
    extends Discovered b p h where
  metadata : Metadata.build h p b.fields b.config.requirements = .ok m

/-- The validators are built. -/
structure Validated (b : Blueprint) (p : Discovery) (h : Hierarchy) (m : Metadata)
    (validators : Factory Validator) : Prop extends Described b p h m where
  validators : Composes .validation h m b.tags b.validators b.fixedValidators validators

/-- The hooks are built. -/
structure Hooked (b : Blueprint) (p : Discovery) (h : Hierarchy) (m : Metadata)
    (validators : Factory Validator) (hooks : Factory Hook) : Prop
    extends Validated b p h m validators where
  hooks : Composes .logic h m b.tags b.hooks b.fixedHooks hooks

/-- The substrate consists of what is built. Its guard has the handler of denials that was
    given, or else the one of the configured policy. -/
structure Assembled (b : Blueprint) (p : Discovery) (s : Substrate) : Prop
    extends Hooked b p s.hierarchy s.metadata s.validators s.hooks where
  config : s.config = b.config
  guard : ReadGuard.build s.hierarchy s.metadata b.rules
    (b.handler.getD b.config.failurePolicy.handler) = .ok s.guard

/-- The fault of the step that fails first. Those of the phases tell the number of the
    phase and what has caused them. -/
inductive FailsFirst (b : Blueprint) : BootstrapFault → Prop
  | config {fault : ConfigFault} (fails : b.config.validate = .error fault) :
      FailsFirst b (.config fault)
  | missingDiscovery (valid : b.config.validate = .ok ()) (fails : b.discovery = none) :
      FailsFirst b .missingDiscovery
  | rootMismatch {p : Discovery} (valid : b.config.validate = .ok ())
      (discovery : b.discovery = some p) (fails : p.root.name ≠ b.config.rootMarker) :
      FailsFirst b (.rootMismatch b.config.rootMarker p.root.name)
  | hierarchy {p : Discovery} {phase : Phase} {cause : Fault} (rooted : b.Rooted p)
      (fails : Hierarchy.discover p = .error cause) (number : phase.number = 0) :
      FailsFirst b (.phaseFailed phase cause)
  | metadata {p : Discovery} {h : Hierarchy} {phase : Phase} {cause : ConfigurationFault}
      (discovered : b.Discovered p h)
      (fails : Metadata.build h p b.fields b.config.requirements = .error cause)
      (number : phase.number = 1) :
      FailsFirst b (.phaseFailed phase (.configuration cause))
  | undiscoveredValidators {p : Discovery} {h : Hierarchy} {m : Metadata} {cause : Fault}
      (described : b.Described p h m) (fails : found .validation b.validators = .error cause) :
      FailsFirst b (.undiscovered "validators" cause)
  | validators {p : Discovery} {h : Hierarchy} {m : Metadata}
      {vs : List (Contributor Validator)} {phase : Phase} {cause : ConfigurationFault}
      (described : b.Described p h m) (finds : found .validation b.validators = .ok vs)
      (fails : Factory.build .validation h m b.tags vs b.fixedValidators = .error cause)
      (number : phase.number = 2) :
      FailsFirst b (.phaseFailed phase (.configuration cause))
  | undiscoveredHooks {p : Discovery} {h : Hierarchy} {m : Metadata}
      {validators : Factory Validator} {cause : Fault}
      (validated : b.Validated p h m validators)
      (fails : found .logic b.hooks = .error cause) :
      FailsFirst b (.undiscovered "logic hooks" cause)
  | hooks {p : Discovery} {h : Hierarchy} {m : Metadata} {validators : Factory Validator}
      {hs : List (Contributor Hook)} {phase : Phase} {cause : ConfigurationFault}
      (validated : b.Validated p h m validators) (finds : found .logic b.hooks = .ok hs)
      (fails : Factory.build .logic h m b.tags hs b.fixedHooks = .error cause)
      (number : phase.number = 2) :
      FailsFirst b (.phaseFailed phase (.configuration cause))
  | access {p : Discovery} {h : Hierarchy} {m : Metadata} {validators : Factory Validator}
      {hooks : Factory Hook} {phase : Phase} {cause : ConfigurationFault}
      (hooked : b.Hooked p h m validators hooks)
      (fails : ReadGuard.build h m b.rules (b.handler.getD b.config.failurePolicy.handler) =
        .error cause)
      (number : phase.number = 3) :
      FailsFirst b (.phaseFailed phase (.configuration cause))

/-- The phase of a fault is known by its number. -/
theorem phaseFailed_eq {p q : Phase} (cause : Fault) (number : q.number = p.number) :
    BootstrapFault.phaseFailed p cause = .phaseFailed q cause := by
  cases p <;> cases q <;> first | rfl | exact nomatch number

/-- A substrate is built if and only if it can be assembled, step by step. -/
theorem build_eq_ok {s : Substrate} : b.build = .ok s ↔ ∃ p, b.Assembled p s := by
  simp only [build, bind_eq_ok, mapError_eq_ok, rootedDiscovery_eq_ok, step_eq_ok,
    behaviors_eq_ok, pure_eq_ok]
  constructor
  · rintro ⟨⟨⟩, valid, p, ⟨discovery, root⟩, h, hierarchy, m, metadata, vs, validators,
      hs, hooks, g, guard, rfl⟩
    exact ⟨p, { valid, discovery, root, hierarchy, metadata, validators, hooks, guard
                config := rfl }⟩
  · rintro ⟨p, hs⟩
    refine ⟨(), hs.valid, p, ⟨hs.discovery, hs.root⟩, _, hs.hierarchy, _, hs.metadata, _,
      hs.validators, _, hs.hooks, _, hs.guard, ?_⟩
    rw [← hs.config]

/-- A fault is that of the first step that fails. The steps before it are gone through one by
    one, and each that has not failed is added to those that have succeeded. -/
theorem failsFirst_of_build {e : BootstrapFault} (he : b.build = .error e) :
    b.FailsFirst e := by
  obtain he | ⟨⟨⟩, hvalid, he⟩ := bind_eq_error.1 he
  · obtain ⟨_, fails, rfl⟩ := mapError_eq_error.1 he
    exact .config fails
  have valid := mapError_eq_ok.1 hvalid
  obtain he | ⟨p, hp, he⟩ := bind_eq_error.1 he
  · obtain ⟨fails, rfl⟩ | ⟨p, discovery, fails, rfl⟩ := rootedDiscovery_eq_error.1 he
    · exact .missingDiscovery valid fails
    · exact .rootMismatch valid discovery fails
  obtain ⟨discovery, root⟩ := rootedDiscovery_eq_ok.1 hp
  have rooted : b.Rooted p := { valid, discovery, root }
  obtain he | ⟨h, hh, he⟩ := bind_eq_error.1 he
  · obtain ⟨_, fails, rfl⟩ := mapError_eq_error.1 he
    exact .hierarchy rooted fails rfl
  have discovered : b.Discovered p h := { rooted with hierarchy := mapError_eq_ok.1 hh }
  obtain he | ⟨m, hm, he⟩ := bind_eq_error.1 he
  · obtain ⟨_, fails, rfl⟩ := step_eq_error.1 he
    exact .metadata discovered fails rfl
  have described : b.Described p h m := { discovered with metadata := step_eq_ok.1 hm }
  obtain he | ⟨validators, hv, he⟩ := bind_eq_error.1 he
  · obtain ⟨_, fails, rfl⟩ | ⟨_, finds, _, fails, rfl⟩ := behaviors_eq_error.1 he
    · exact .undiscoveredValidators described fails
    · exact .validators described finds fails rfl
  have validated : b.Validated p h m validators :=
    { described with validators := behaviors_eq_ok.1 hv }
  obtain he | ⟨hooks, hf, he⟩ := bind_eq_error.1 he
  · obtain ⟨_, fails, rfl⟩ | ⟨_, finds, _, fails, rfl⟩ := behaviors_eq_error.1 he
    · exact .undiscoveredHooks validated fails
    · exact .hooks validated finds fails rfl
  obtain he | ⟨_, _, he⟩ := bind_eq_error.1 he
  · obtain ⟨_, fails, rfl⟩ := step_eq_error.1 he
    exact .access { validated with hooks := behaviors_eq_ok.1 hf } fails rfl
  · exact nomatch he

/-- Conversely, the first step that fails is the one that is reported. -/
theorem build_of_failsFirst {e : BootstrapFault} (he : b.FailsFirst e) :
    b.build = .error e := by
  simp only [build, bind_eq_error, mapError_eq_ok, mapError_eq_error, rootedDiscovery_eq_ok,
    rootedDiscovery_eq_error, step_eq_ok, step_eq_error, behaviors_eq_ok, behaviors_eq_error]
  -- the steps that have succeeded are passed by, up to the one that fails
  cases he with
  | config fails => exact .inl ⟨_, fails, rfl⟩
  | missingDiscovery valid fails => exact .inr ⟨(), valid, .inl (.inl ⟨fails, rfl⟩)⟩
  | rootMismatch valid discovery fails =>
    exact .inr ⟨(), valid, .inl (.inr ⟨_, discovery, fails, rfl⟩)⟩
  | hierarchy r fails number =>
    exact .inr ⟨(), r.valid, .inr ⟨_, ⟨r.discovery, r.root⟩,
      .inl ⟨_, fails, phaseFailed_eq _ number⟩⟩⟩
  | metadata r fails number =>
    exact .inr ⟨(), r.valid, .inr ⟨_, ⟨r.discovery, r.root⟩, .inr ⟨_, r.hierarchy,
      .inl ⟨_, fails, phaseFailed_eq _ number⟩⟩⟩⟩
  | undiscoveredValidators r fails =>
    exact .inr ⟨(), r.valid, .inr ⟨_, ⟨r.discovery, r.root⟩, .inr ⟨_, r.hierarchy,
      .inr ⟨_, r.metadata, .inl (.inl ⟨_, fails, rfl⟩)⟩⟩⟩⟩
  | validators r finds fails number =>
    exact .inr ⟨(), r.valid, .inr ⟨_, ⟨r.discovery, r.root⟩, .inr ⟨_, r.hierarchy,
      .inr ⟨_, r.metadata, .inl (.inr ⟨_, finds, _, fails, phaseFailed_eq _ number⟩)⟩⟩⟩⟩
  | undiscoveredHooks r fails =>
    exact .inr ⟨(), r.valid, .inr ⟨_, ⟨r.discovery, r.root⟩, .inr ⟨_, r.hierarchy,
      .inr ⟨_, r.metadata, .inr ⟨_, r.validators, .inl (.inl ⟨_, fails, rfl⟩)⟩⟩⟩⟩⟩
  | hooks r finds fails number =>
    exact .inr ⟨(), r.valid, .inr ⟨_, ⟨r.discovery, r.root⟩, .inr ⟨_, r.hierarchy,
      .inr ⟨_, r.metadata, .inr ⟨_, r.validators,
        .inl (.inr ⟨_, finds, _, fails, phaseFailed_eq _ number⟩)⟩⟩⟩⟩⟩
  | access r fails number =>
    exact .inr ⟨(), r.valid, .inr ⟨_, ⟨r.discovery, r.root⟩, .inr ⟨_, r.hierarchy,
      .inr ⟨_, r.metadata, .inr ⟨_, r.validators, .inr ⟨_, r.hooks,
        .inl ⟨_, fails, phaseFailed_eq _ number⟩⟩⟩⟩⟩⟩⟩

end Blueprint

/-! ### Answers -/

namespace Substrate

/-- What becomes of an instance and of a request is decided by the subsystems: by the
    behaviors of the instance's type if that is in the hierarchy, and by the guard. -/
structure Answers (s : Substrate) : Prop where
  known : ∀ i : Instance, s.hierarchy.contains i.typeKey = true →
    (∃ v, s.validators.get? i.typeKey = some v ∧ s.validate i = v.shared.behavior i) ∧
    ∃ g, s.hooks.get? i.typeKey = some g ∧ ∀ op, s.applyHooks i op = g.shared.behavior i op
  unknown : ∀ i : Instance, s.hierarchy.contains i.typeKey = false →
    s.validate i = .failure s!"Unknown resource type {i.typeKey}" ∧
    ∀ op, s.applyHooks i op = (.failure s!"Unknown resource type {i.typeKey}", i)
  check : ∀ k requested c, s.check k requested c = s.guard.check k requested c

/-- A substrate that is assembled has a behavior of each kind for exactly the types of its
    hierarchy, so no answer is left open. -/
theorem answers {b : Blueprint} {p : Discovery} {s : Substrate} (hs : b.Assembled p s) :
    s.Answers := by
  obtain ⟨root, hw⟩ := (Hierarchy.sealed_of_discover hs.hierarchy).wellFormed
  refine ⟨fun i hi => ?_, fun i hi => ?_, fun _ _ _ => rfl⟩
  · obtain ⟨v, hv⟩ := Option.isSome_iff_exists.1
      ((hs.validators.isSome_get? hw i.typeKey).trans hi)
    obtain ⟨g, hg⟩ := Option.isSome_iff_exists.1 ((hs.hooks.isSome_get? hw i.typeKey).trans hi)
    refine ⟨⟨v, hv, ?_⟩, g, hg, fun op => ?_⟩
    · rw [validate, hv]
    · rw [applyHooks, hg]
  · have hv := (hs.validators.isSome_get? hw i.typeKey).trans hi
    have hg := (hs.hooks.isSome_get? hw i.typeKey).trans hi
    rw [Option.isSome_eq_false_iff, Option.isNone_iff_eq_none] at hv hg
    refine ⟨?_, fun op => ?_⟩
    · rw [validate, hv, unknownType]
    · rw [applyHooks, hg, unknownType]

end Substrate

/-- From a configuration and choices a substrate is built if and only if all of its
    subsystems are, each from those before it, and it consists of them and answers by them.
    Otherwise the fault is that of the first step that fails. -/
theorem Blueprint.build_ofChoices (config : Config) (choices : List Choice) :
    let b := ofChoices config choices
    Gathers config choices b ∧
    (∀ s, b.build = .ok s ↔ ∃ p, b.Assembled p s) ∧
    (∀ e, b.build = .error e ↔ b.FailsFirst e) ∧
    ∀ s, b.build = .ok s → s.Answers := by
  intro b
  refine ⟨gathers_ofChoices config choices, fun s => build_eq_ok, fun e => ?_, fun s hs => ?_⟩
  · exact ⟨failsFirst_of_build, build_of_failsFirst⟩
  · obtain ⟨p, hs⟩ := build_eq_ok.1 hs
    exact Substrate.answers hs

/-! ### A kennel -/

namespace Kennel

open Hierarchy.Zoo

/-- Dogs are discovered. Pets that bite are refused. -/
def choices : List Choice := [
  .discovery ((Registry.new ⟨"Resource"⟩).registerAll [dog, animal, pet]).toDiscovery,
  .fixedValidator pet.key ⟨⟨"tame", none⟩, ⟨.contributed 0, .refuse "bites"⟩⟩,
  .handler .reject]

/-- A validator that does not tell what it is meant for. -/
def stray : Contributor Validator where
  tag := ⟨"stray", none⟩
  shared := ⟨.contributed 1, .noOp⟩

end Kennel

open Kennel in
/-- A kennel is built. With a validator of which nobody knows what it is meant for it is
    not, although the guard that would be built from the rules is not to be had either. -/
theorem Blueprint.build_ofChoices_kennel :
    (∃ s, (ofChoices {} choices).build = .ok s ∧ s.Answers) ∧
    (ofChoices {} (choices ++ [.validators fun _ => .ok [stray],
      .rules (RuleSet.hide {} ⟨"Cat"⟩ ⟨"CLERK"⟩ "name")])).FailsFirst
        (.phaseFailed .behaviors (.configuration (.missingTarget "stray"))) := by
  obtain ⟨s, hs⟩ : ∃ s, (ofChoices {} choices).build = .ok s := ⟨_, rfl⟩
  obtain ⟨_, _, _, hanswers⟩ := build_ofChoices {} choices
  refine ⟨⟨s, hs, hanswers s hs⟩, ?_⟩
  obtain ⟨_, _, hfails, _⟩ := build_ofChoices {} (choices ++ _)
  exact (hfails _).1 rfl

end Lineage
