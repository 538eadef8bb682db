import Lineage.Proofs.Access.Rules
import Mathlib.Data.List.Induction

/-!
# Declared rules and rules in effect

The rule in effect on an attribute of a type, as a caller sees it, is read off the
declared rules by climbing the hierarchy (`RuleSet.InEffect`): the first parent
that has one passes it on, and the rules declared on the type itself override it,
one after the other. This is what the guard finds by passing tables down from the
root (`ReadGuard.inEffect_iff`).

Two things follow from what is declared on a type and above it:

* there is a rule in effect exactly where one has been declared
  (`ReadGuard.isSome_state?_iff`);
* what it says of visibility has been declared by some type
  (`ReadGuard.exists_verdict_of_visibility`), the type itself before its parents
  (`ReadGuard.visibility_rulesInEffect`).
-/

namespace Lineage

/-! ### One rule after the other -/

namespace RuleState

/-- The rule, if there is one, overridden by declared ones, one after the other. -/
def overlay (s : Option RuleState) (rs : List ReadRule) : Option RuleState :=
  rs.foldl (fun old r => some ((old.getD {}).override ⟨r.visible, r.newName⟩)) s

theorem overlay_append_singleton (s : Option RuleState) (rs : List ReadRule) (r : ReadRule) :
    overlay s (rs ++ [r]) = some (((overlay s rs).getD {}).override ⟨r.visible, r.newName⟩) :=
  List.foldl_concat ..

theorem override_assoc (s t u : RuleState) :
    (s.override t).override u = s.override (t.override u) := by
  simp only [override, Option.orElse_eq_orElse, Option.orElse_eq_or, Option.or_assoc]

/-- It makes no difference whether declared rules override the inherited one, or
    each other first. -/
theorem overrideBy_overlay (s : Option RuleState) (rs : List ReadRule) :
    overrideBy s (overlay none rs) = overlay s rs := by
  induction rs using List.reverseRecOn with
  | nil => rfl
  | append_singleton rs r ih =>
    -- the last rule overrides the others, and so comes after all of them in both
    rw [overlay_append_singleton, overlay_append_singleton, ← ih]
    cases overlay none rs with
    | none => exact congrArg some (override_assoc (s.getD {}) {} _).symm
    | some t => exact congrArg some (override_assoc (s.getD {}) t _).symm

theorem isSome_overlay (s : Option RuleState) (rs : List ReadRule) :
    (overlay s rs).isSome = true ↔ s.isSome = true ∨ rs ≠ [] := by
  induction rs using List.reverseRecOn with
  | nil => simp [overlay]
  | append_singleton rs r => simp [overlay_append_singleton]

/-- The last rule that says anything of visibility decides. -/
theorem visible_overlay (s : Option RuleState) (rs : List ReadRule) :
    (overlay s rs).bind visible =
      ((rs.filterMap ReadRule.visible).getLast? <|> s.bind visible) := by
  induction rs using List.reverseRecOn with
  | nil => rfl
  | append_singleton rs r ih =>
    have hold : ((overlay s rs).getD {}).visible = (overlay s rs).bind visible := by
      cases overlay s rs <;> rfl
    rw [overlay_append_singleton, Option.bind_some, override, hold, ih, List.filterMap_append]
    cases hr : r.visible with
    | none => simp [hr]
    | some v => simp [hr]

end RuleState

/-! ### Declarations -/

namespace RuleSet

variable (h : Hierarchy) (s : RuleSet) (c : Credential) (attr : String)

/-- The rule in effect on an attribute of a type, if there is one: the first parent
    that has one passes it on, and the rules that are declared on the type override
    it. -/
inductive InEffect : TypeKey → Option RuleState → Prop
  | of_parents {n : Node} {above : TypeKey → Option RuleState} (hn : n ∈ h.nodes)
      (habove : ∀ k ∈ n.parents, InEffect k (above k)) :
      InEffect n.key (RuleState.overlay (n.parents.findSome? above) (s.rulesOn n.key c attr))

/-- Some rule on the caller and the attribute is declared on the type or on an
    ancestor. -/
def Governs (k : TypeKey) : Prop :=
  ∃ u, (u = k ∨ h.IsAncestor u k) ∧ s.rulesOn u c attr ≠ []

/-- What the rules that are declared on a type say of the visibility of an
    attribute, the last of them that says anything. -/
def verdict? (k : TypeKey) : Option Bool :=
  ((s.rulesOn k c attr).filterMap ReadRule.visible).getLast?

variable {s c attr} in
theorem mem_rulesOn {k : TypeKey} {r : ReadRule} :
    r ∈ s.rulesOn k c attr ↔
      r ∈ s.rules ∧ r.typeKey = k ∧ r.credential = c ∧ r.name = attr := by
  simp [rulesOn]

end RuleSet

namespace ReadGuard

variable {h : Hierarchy} {s : RuleSet} {c : Credential} {attr : String} {root : TypeKey}
  (hw : h.WellFormed root) {n : Node} (hn : n ∈ h.nodes)
include hw hn

/-- Climbing and passing down come to the same. -/
theorem state?_eq_overlay :
    (rulesInEffect h s n.key).state? c attr =
      RuleState.overlay (n.parents.findSome? fun k => (rulesInEffect h s k).state? c attr)
        (s.rulesOn n.key c attr) := by
  rw [state?_rulesInEffect s hw hn, state?_ownRules]
  exact RuleState.overrideBy_overlay _ _

theorem inEffect_iff {st : Option RuleState} :
    s.InEffect h c attr n.key st ↔ st = (rulesInEffect h s n.key).state? c attr := by
  constructor
  · -- by induction on the climb: what it finds on the parents is in effect there
    intro hst
    clear hn
    generalize n.key = k at hst
    induction hst with
    | @of_parents n above hn _ ih => rw [state?_eq_overlay hw hn, findSome?_congr ih]
  · rintro rfl
    revert n
    refine @(hw.parents_induction fun n hn ih => ?_)
    rw [state?_eq_overlay hw hn]
    refine .of_parents hn fun k hk => ?_
    obtain ⟨m, hm, rfl⟩ := hw.exists_parent hn hk
    exact ih m (hw.mem_parents.2 ⟨hm, hk⟩)

theorem visibility_rulesInEffect :
    (rulesInEffect h s n.key).visibility c attr = (s.verdict? c attr n.key <|>
      (n.parents.findSome? fun k => (rulesInEffect h s k).state? c attr).bind
        RuleState.visible) := by
  rw [EffectiveRules.visibility, state?_eq_overlay hw hn, RuleState.visible_overlay]
  rfl

/-- A rule is in effect exactly where one has been declared. -/
theorem isSome_state?_iff :
    ((rulesInEffect h s n.key).state? c attr).isSome = true ↔ s.Governs h c attr n.key := by
  revert n
  refine @(hw.parents_induction fun n hn ih => ?_)
  rw [state?_eq_overlay hw hn, RuleState.isSome_overlay, List.isSome_findSome?, List.any_eq_true]
  constructor
  · rintro (⟨k, hk, hsome⟩ | hown)
    · obtain ⟨m, hm, rfl⟩ := hw.exists_parent hn hk
      obtain ⟨u, hu, hrules⟩ := (ih m (hw.mem_parents.2 ⟨hm, hk⟩)).1 hsome
      exact ⟨u, .inr (hw.isAncestor_of_parent hn hk hu), hrules⟩
    · exact ⟨n.key, .inl rfl, hown⟩
  · -- a rule on an ancestor is declared on a parent or above it
    rintro ⟨u, rfl | ha, hrules⟩
    · exact .inr hrules
    · obtain ⟨k, hk, hu⟩ := hw.exists_parent_of_isAncestor hn ha
      obtain ⟨m, hm, rfl⟩ := hw.exists_parent hn hk
      exact .inl ⟨m.key, hk, (ih m (hw.mem_parents.2 ⟨hm, hk⟩)).2 ⟨u, hu, hrules⟩⟩

theorem state?_eq_none_iff :
    (rulesInEffect h s n.key).state? c attr = none ↔ ¬ s.Governs h c attr n.key := by
  rw [← isSome_state?_iff hw hn, Option.not_isSome_iff_eq_none]

/-- What is in effect on visibility has been declared. -/
theorem exists_verdict_of_visibility {v : Bool}
    (hv : (rulesInEffect h s n.key).visibility c attr = some v) :
    ∃ u, (u = n.key ∨ h.IsAncestor u n.key) ∧ s.verdict? c attr u = some v := by
  revert n
  refine @(hw.parents_induction fun n hn ih hv => ?_)
  rw [visibility_rulesInEffect hw hn] at hv
  cases hown : s.verdict? c attr n.key with
  | some w =>
    rw [hown] at hv
    exact ⟨n.key, .inl rfl, hown.trans hv⟩
  | none =>
    rw [hown] at hv
    obtain ⟨st, hst, hvisible⟩ := Option.bind_eq_some_iff.1 hv
    obtain ⟨k, hk, hstate⟩ := List.exists_of_findSome?_eq_some hst
    obtain ⟨m, hm, rfl⟩ := hw.exists_parent hn hk
    obtain ⟨u, hu, hverdict⟩ := ih m (hw.mem_parents.2 ⟨hm, hk⟩)
      (Option.bind_eq_some_iff.2 ⟨st, hstate, hvisible⟩)
    exact ⟨u, .inr (hw.isAncestor_of_parent hn hk hu), hverdict⟩

end ReadGuard

end Lineage
