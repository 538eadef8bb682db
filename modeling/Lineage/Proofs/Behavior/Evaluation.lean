import Lineage.Behavior.Stock
import Lineage.Proofs.Behavior.Joining
import Mathlib

/-!
# What a behavior does

The behavior of a type runs the contributions to the type one after the other
(`Factory.runs_of_build`). Validators find what each of them finds, in order. Hooks
are run each on the instance that the one before has left, whatever violations there
are (`Hook.Runs`).

Composites are looked up by the keys of their contributions, and the behaviors
themselves are not compared. This is right since among the joined contributions a key
tells which one it is (`Contributions.keys_inj`): what is found does what would have
been composed (`Pool.Sound`).
-/

namespace Lineage

/-! ### Running behaviors one after the other -/

/-- Runs of hooks: from an instance, the hooks find the violations and leave the other
    instance. -/
inductive Hook.Runs (op : Operation) : List Hook → Instance → List Violation → Instance → Prop
  /-- Without hooks the instance stays as it is. -/
  | nil (i : Instance) : Runs op [] i [] i
  /-- The first hook runs, and then the others on what it has left. -/
  | cons {hook : Hook} {hooks : List Hook} {i i' : Instance} {vs : List Violation} :
      Runs op hooks (hook i op).2 vs i' →
      Runs op (hook :: hooks) i ((hook i op).1.violations ++ vs) i'

namespace Capability

variable {β : Type} (c : Capability β)

/-- The behavior that a list of behaviors is composed to. -/
def sequence : List β → β
  | [] => c.noOp
  | b :: bs => bs.foldl c.both b

theorem behavior_compose (handle : Handle) (ss : List (Shared β)) :
    (c.compose handle (ss.map some)).behavior = c.sequence (ss.map Shared.behavior) := by
  have hslots : (ss.map some).reduceOption = ss := by simp [List.reduceOption]
  rw [compose, reduceOption_elide, hslots]
  rcases ss with _ | ⟨s, _ | ⟨s', rest⟩⟩
  all_goals rfl

theorem violations_both (v w : Validator) (i : Instance) :
    (validation.both v w i).violations = (v i).violations ++ (w i).violations :=
  rfl

/-- Composed validators find what each of them finds. -/
theorem violations_sequence (vs : List Validator) (i : Instance) :
    (validation.sequence vs i).violations = vs.flatMap fun v => (v i).violations := by
  cases vs with
  | nil => rfl
  | cons v vs =>
    rw [sequence, List.flatMap_cons]
    induction vs generalizing v with
    | nil => exact (List.append_nil _).symm
    | cons w vs ih =>
      rw [List.foldl_cons, ih, violations_both, List.flatMap_cons, List.append_assoc]

theorem logic_both (g h : Hook) (i : Instance) (op : Operation) :
    logic.both g h i op =
      (⟨(g i op).1.violations ++ (h (g i op).2 op).1.violations⟩, (h (g i op).2 op).2) :=
  rfl

/-- Composed hooks run each on what the one before has left. -/
theorem runs_sequence (hooks : List Hook) (i : Instance) (op : Operation) :
    Hook.Runs op hooks i (logic.sequence hooks i op).1.violations
      (logic.sequence hooks i op).2 := by
  cases hooks with
  | nil => exact .nil i
  | cons hook hooks =>
    -- what is composed so far, followed by the rest
    suffices ∃ vs, (hooks.foldl logic.both hook i op).1.violations =
        (hook i op).1.violations ++ vs ∧
          Hook.Runs op hooks (hook i op).2 vs (hooks.foldl logic.both hook i op).2 by
      obtain ⟨vs, hvs, hruns⟩ := this
      rw [sequence, hvs]
      exact .cons hruns
    induction hooks generalizing hook with
    | nil => exact ⟨[], (List.append_nil _).symm, .nil _⟩
    | cons next hooks ih =>
      obtain ⟨vs, hvs, hruns⟩ := ih (logic.both hook next)
      rw [logic_both] at hvs hruns
      refine ⟨(next (hook i op).2 op).1.violations ++ vs, ?_, .cons hruns⟩
      rw [List.foldl_cons, hvs, List.append_assoc]

end Capability

/-! ### Looking composites up -/

namespace Contributions

variable {β : Type}

/-- Among contributions with distinct keys, the keys tell which they are. -/
theorem keys_inj {own cs cs' : Contributions β} (hown : (own.map Contribution.key).Nodup)
    (hcs : cs ⊆ own) (hcs' : cs' ⊆ own) (e : cs.keys = cs'.keys) : cs = cs' := by
  by_cases hnil : cs = []
  · exact hnil.trans (keys_eq_noOp.1 (e.symm.trans (keys_eq_noOp.2 hnil))).symm
  have hnil' : cs' ≠ [] := fun h => hnil (keys_eq_noOp.1 (e.trans (keys_eq_noOp.2 h)))
  rw [keys_eq_ite, keys_eq_ite, if_neg (by simpa using hnil), if_neg (by simpa using hnil')] at e
  clear hnil hnil'
  induction cs generalizing cs' with
  | nil => exact (List.map_eq_nil_iff.1 e.symm).symm
  | cons b cs ih =>
    obtain ⟨b', cs', rfl, hb, e⟩ := List.map_eq_cons_iff.1 e.symm
    obtain ⟨hmem, hcs⟩ := List.cons_subset.1 hcs
    obtain ⟨hmem', hcs'⟩ := List.cons_subset.1 hcs'
    rw [List.inj_on_of_nodup_map hown hmem hmem' hb.symm, ih hcs hcs' e.symm]

/-- The behavior that runs the contributions one after the other. -/
def behavior (c : Capability β) (cs : Contributions β) : β :=
  c.sequence (cs.map fun b => b.shared.behavior)

end Contributions

variable {β : Type} {c : Capability β} {own : Contributions β}

/-- The composites do what the contributions with their keys do. -/
def Pool.Sound (c : Capability β) (own : Contributions β) (pool : Pool β) : Prop :=
  ∀ x ∈ pool, ∃ cs, cs ⊆ own ∧ x.contributors = cs.keys ∧ x.shared.behavior = cs.behavior c

/-- What is looked up does what would have been composed. -/
theorem Pool.Sound.obtain {pool : Pool β} (hpool : pool.Sound c own)
    (hown : (own.map Contribution.key).Nodup) {cs : Contributions β} (hcs : cs ⊆ own) :
    (pool.obtain c cs.entries).1.shared.behavior = cs.behavior c ∧
      (pool.obtain c cs.entries).2.Sound c own := by
  rw [Pool.obtain]
  split
  next x hfind =>
    obtain ⟨cs', hcs', hkeys, hx⟩ := hpool x (List.mem_of_find?_eq_some hfind)
    have e : x.contributors = cs.entries.keys := by simpa using List.find?_some hfind
    rw [hx, Contributions.keys_inj hown hcs' hcs (hkeys.symm.trans e)]
    exact ⟨rfl, hpool⟩
  next =>
    have hbehavior : (c.compose (.composed pool.length) (cs.entries.map Entry.slot)).behavior =
        cs.behavior c := by
      rw [Contributions.compose_entries, c.behavior_compose, List.map_map]
      rfl
    refine ⟨hbehavior, fun x hx => ?_⟩
    rcases List.mem_append.1 hx with hx | hx
    · exact hpool x hx
    · obtain rfl := List.mem_singleton.1 hx
      exact ⟨cs, hcs, rfl, hbehavior⟩

namespace Factory

variable {h : Hierarchy} {m : Metadata} {tags : TagReader}

variable {resolved : List (TypeKey × Contributions β)} {p : Progress β}

/-- The state of passing contributions on: the behaviors so far do what the
    contributions so far do. -/
structure Progress.Sound (c : Capability β) (own : Contributions β)
    (resolved : List (TypeKey × Contributions β)) (p : Progress β) : Prop where
  marked : Marked resolved p
  subset : ∀ e ∈ resolved, e.2 ⊆ own
  pool : p.pool.Sound c own
  behaviors : List.Forall₂ (fun a b => a.1 = b.1 ∧ b.2.shared.behavior = a.2.behavior c)
    resolved p.composites

theorem Progress.Sound.nil (c : Capability β) (own : Contributions β) :
    Progress.Sound c own [] {} where
  marked := rfl
  subset _ he := absurd he List.not_mem_nil
  pool _ hx := absurd hx List.not_mem_nil
  behaviors := .nil

theorem gather_subset (hresolved : ∀ e ∈ resolved, e.2 ⊆ own) (n : Node) :
    gather c own resolved n ⊆ own := by
  intro b hb
  rw [gather, (Contributions.sortBy_perm ..).mem_iff] at hb
  obtain hb | hb := mem_of_mem_addNew _ hb
  · obtain ⟨k, _, hb⟩ := List.mem_flatMap.1 (mem_of_mem_addNew_nil _ hb)
    cases hk : resolved.lookup k with
    | none => simp [hk] at hb
    | some cs =>
      rw [hk] at hb
      exact hresolved _ (Table.mem_of_get? hk) hb
  · exact (List.mem_filter.1 hb).1

theorem Progress.Sound.passOn (hp : p.Sound c own resolved)
    (hown : (own.map Contribution.key).Nodup) (n : Node) :
    (passOn c own p n).Sound c own (resolved ++ [(n.key, gather c own resolved n)]) := by
  have hcs : gather c own resolved n ⊆ own := gather_subset hp.subset n
  obtain ⟨hbehavior, hpool⟩ := hp.pool.obtain hown hcs
  have heq := hp.marked.passOn_eq c own n
  constructor
  · exact hp.marked.passOn c own n
  · exact List.forall_mem_append.2 ⟨hp.subset, List.forall_mem_singleton.2 hcs⟩
  · rw [heq]
    exact hpool
  · rw [heq]
    exact List.rel_append hp.behaviors (.cons ⟨rfl, hbehavior⟩ .nil)

theorem Progress.Sound.foldl_passOn (hp : p.Sound c own resolved)
    (hown : (own.map Contribution.key).Nodup) (ns : List Node) :
    (ns.foldl (Factory.passOn c own) p).Sound c own
      (ns.foldl (fun resolved n => resolved ++ [(n.key, gather c own resolved n)]) resolved) := by
  induction ns generalizing resolved p with
  | nil => exact hp
  | cons n ns ih => exact ih (hp.passOn hown n)

/-- Each composite does what the contributions to its type do. -/
theorem behaviors_ofContributions (hown : (own.map Contribution.key).Nodup) :
    List.Forall₂ (fun a b => a.1 = b.1 ∧ b.2.shared.behavior = a.2.behavior c)
      (h.passDown (gather c own)) (ofContributions c h own).composites :=
  ((Progress.Sound.nil c own).foldl_passOn hown h.toList).behaviors

/-- The behavior for no contributions is that of the root, if nothing is registered
    for the root, and is otherwise made for the purpose. -/
theorem noOp_eq_ite {r : Node} (hr : h.root? = some r) {b : Composite β}
    (hb : (ofContributions c h own).get? r.key = some b) :
    (ofContributions c h own).noOp = if b.isNoOp = true then b else
      ⟨⟨.composed (h.toList.foldl (passOn c own) {}).pool.length, c.noOp⟩, [.noOp]⟩ := by
  have hroot : (h.root?.bind fun r =>
      (h.toList.foldl (passOn c own) {}).composites.lookup r.key) = some b := by
    rw [hr]
    exact hb
  rw [ofContributions]
  dsimp only
  rw [hroot, Option.filter_some]
  split_ifs <;> rfl

/-- The behavior of a type does what the contributions to the type do. -/
theorem exists_behavior {root : TypeKey} (hw : h.WellFormed root)
    (hown : (own.map Contribution.key).Nodup) {n : Node} (hn : n ∈ h.nodes) :
    ∃ b, (ofContributions c h own).get? n.key = some b ∧
      b.contributors = (contributionsTo c h own n.key).keys ∧
      b.shared.behavior = (contributionsTo c h own n.key).behavior c := by
  obtain ⟨b, hb, hkeys⟩ := exists_get? (c := c) hw hn
  have hrel : Option.Rel
      (fun cs (b : Composite β) => b.shared.behavior = Contributions.behavior c cs)
      ((h.passDown (gather c own)).lookup n.key) ((ofContributions c h own).get? n.key) :=
    Table.rel_lookup (R := fun _ cs (b : Composite β) =>
      b.shared.behavior = Contributions.behavior c cs) (behaviors_ofContributions hown) n.key
  rw [(lookup_gather hw c own).2 n hn, ← contributionsTo_eq hw hn, hb] at hrel
  cases hrel with
  | some hbehavior => exact ⟨b, hb, hkeys, hbehavior⟩

/-! ### Registered behaviors -/

/-- The behaviors are those registered under the keys: under each the first that was
    offered. Nothing is registered under the key for no contributions. -/
def Registered (offered : List (ContributionKey × Shared β)) (keys : List ContributionKey)
    (bs : List β) : Prop :=
  List.Forall₂ (fun k b => (offered.lookup k).map Shared.behavior = some b)
    (keys.filter (· ≠ .noOp)) bs

theorem registered_keys {offered : List (ContributionKey × Shared β)}
    (hj : Joined h offered own) {cs : Contributions β} (hcs : cs ⊆ own) :
    Registered offered cs.keys (cs.map fun b => b.shared.behavior) := by
  have hreal : cs.keys.filter (· ≠ .noOp) = cs.map Contribution.key := by
    rw [Contributions.keys_eq_ite]
    split_ifs with hempty
    · rw [List.isEmpty_iff.1 hempty]
      rfl
    · refine List.filter_eq_self.2 fun k hk => ?_
      obtain ⟨b, _, rfl⟩ := List.mem_map.1 hk
      rfl
  rw [Registered, hreal, List.forall₂_map_left_iff, List.forall₂_map_right_iff,
    List.forall₂_same]
  intro b hb
  rw [hj.shared b (hcs hb), Option.map_some]

/-- The behavior of a type is composed of what is registered under its keys. -/
theorem exists_registered {discovered : List (Contributor β)}
    {fixed : List (TypeKey × Contributor β)} {f : Factory β} (hs : h.Sealed)
    (hf : build c h m tags discovered fixed = .ok f) :
    (∀ n ∈ h.nodes, ∃ b bs, f.get? n.key = some b ∧
      Registered (offers tags discovered fixed) b.contributors bs ∧
      b.shared.behavior = c.sequence bs ∧ (b.isNoOp = true → bs = [])) ∧
    f.noOp.shared.behavior = c.noOp := by
  obtain ⟨root, hw⟩ := hs.wellFormed
  obtain ⟨own, rfl, hj⟩ := exists_joined hf
  have hall : ∀ n ∈ h.nodes, ∃ b bs, (ofContributions c h own).get? n.key = some b ∧
      Registered (offers tags discovered fixed) b.contributors bs ∧
      b.shared.behavior = c.sequence bs ∧ (b.isNoOp = true → bs = []) := by
    intro n hn
    obtain ⟨b, hb, hkeys, hbehavior⟩ := exists_behavior hw hj.nodup hn
    refine ⟨b, _, hb, hkeys ▸ registered_keys hj (contributionsTo_subset hw n hn), hbehavior,
      fun hnoOp => ?_⟩
    have hnil : contributionsTo c h own n.key = [] :=
      Contributions.keys_eq_noOp.1 (hkeys ▸ of_decide_eq_true hnoOp)
    rw [hnil, List.map_nil]
  refine ⟨hall, ?_⟩
  obtain ⟨r, hrmem, hr, _⟩ := hw.exists_root?
  obtain ⟨b, bs, hb, _, hbehavior, hnil⟩ := hall r hrmem
  rw [noOp_eq_ite hr hb]
  split_ifs with hnoOp
  · rw [hbehavior, hnil hnoOp]
    rfl
  · rfl

/-- The behavior of a type runs what is registered under its keys one after the other.
    Validators find what each of them finds, in order; hooks run each on the instance
    that the one before has left. The behavior for no contributions accepts
    everything, and leaves every instance as it is. -/
theorem runs_of_build (hs : h.Sealed) (m : Metadata) (tags : TagReader) :
    (∀ discovered fixed f, build .validation h m tags discovered fixed = .ok f →
      (∀ n ∈ h.nodes, ∃ b vs, f.get? n.key = some b ∧
        Registered (offers tags discovered fixed) b.contributors vs ∧
        (∀ i, (b.shared.behavior i).violations = vs.flatMap fun v => (v i).violations) ∧
        (b.isNoOp = true → ∀ i, b.shared.behavior i = .success)) ∧
      ∀ i, f.noOp.shared.behavior i = .success) ∧
    ∀ discovered fixed f, build .logic h m tags discovered fixed = .ok f →
      (∀ n ∈ h.nodes, ∃ b hooks, f.get? n.key = some b ∧
        Registered (offers tags discovered fixed) b.contributors hooks ∧
        (∀ i op, Hook.Runs op hooks i (b.shared.behavior i op).1.violations
          (b.shared.behavior i op).2) ∧
        (b.isNoOp = true → ∀ i op, b.shared.behavior i op = (.success, i))) ∧
      ∀ i op, f.noOp.shared.behavior i op = (.success, i) := by
  constructor <;> intro discovered fixed f hf
  · obtain ⟨hall, hnone⟩ := exists_registered hs hf
    refine ⟨fun n hn => ?_, fun i => by rw [hnone]; rfl⟩
    obtain ⟨b, vs, hb, hregistered, hbehavior, hnil⟩ := hall n hn
    refine ⟨b, vs, hb, hregistered, ?_, fun hnoOp i => ?_⟩
    · rw [hbehavior]
      exact Capability.violations_sequence vs
    · rw [hbehavior, hnil hnoOp]
      rfl
  · obtain ⟨hall, hnone⟩ := exists_registered hs hf
    refine ⟨fun n hn => ?_, fun i op => by rw [hnone]; rfl⟩
    obtain ⟨b, hooks, hb, hregistered, hbehavior, hnil⟩ := hall n hn
    refine ⟨b, hooks, hb, hregistered, ?_, fun hnoOp i op => ?_⟩
    · rw [hbehavior]
      exact Capability.runs_sequence hooks
    · rw [hbehavior, hnil hnoOp]
      rfl

/-! ### Hooks for dogs -/

namespace Dogs

/-- A hook for pets that refuses to go on. -/
def tamed : Contributor Hook where
  tag := ⟨"tamed", some pet⟩
  shared := ⟨.contributed 0, .forbid "create" "is wild"⟩

/-- A hook for dogs that notes what is done. -/
def noted : Contributor Hook where
  tag := ⟨"noted", some dog⟩
  shared := ⟨.contributed 1, .stamp "note"⟩

/-- Another hook of the same name for dogs. -/
def notedTwice : Contributor Hook where
  tag := ⟨"noted", none⟩
  shared := ⟨.contributed 2, .assign "note" (.str "twice")⟩

end Dogs

open Dogs in
/-- Of two hooks of one name for dogs the first runs, after the one for pets and though
    that finds a violation. -/
theorem runs_of_build_dogs :
    ∃ f b hooks, build .logic (.built discovery) metadata .declared [noted, tamed]
        [(dog, notedTwice)] = .ok f ∧ f.get? dog = some b ∧
      b.contributors = [.named "tamed" pet, .named "noted" dog] ∧
      Registered (offers .declared [noted, tamed] [(dog, notedTwice)]) b.contributors hooks ∧
      hooks = [.forbid "create" "is wild", .stamp "note"] ∧
      ∀ i op, Hook.Runs op hooks i (b.shared.behavior i op).1.violations
        (b.shared.behavior i op).2 := by
  obtain ⟨f, hf⟩ : ∃ f, build .logic (.built discovery) metadata .declared [noted, tamed]
      [(dog, notedTwice)] = .ok f := ⟨_, rfl⟩
  obtain ⟨n, hn, hkey⟩ : ∃ n ∈ (Hierarchy.built discovery).nodes, n.key = dog := by decide
  obtain ⟨b, hooks, hb, hregistered, hruns, _⟩ :=
    ((runs_of_build (Hierarchy.sealed_built _) metadata .declared).2 _ _ f hf).1 n hn
  rw [hkey] at hb
  have hcontributors : b.contributors = [.named "tamed" pet, .named "noted" dog] := by
    obtain rfl := Except.ok.inj hf
    obtain rfl := Option.some.inj hb
    cbv
  refine ⟨f, b, hooks, hf, hb, hcontributors, hregistered, ?_, hruns⟩
  rw [hcontributors] at hregistered
  obtain _ | ⟨h₁, _ | ⟨h₂, _ | _⟩⟩ := hregistered
  obtain rfl := Option.some.inj h₁
  obtain rfl := Option.some.inj h₂
  rfl

end Factory

end Lineage
