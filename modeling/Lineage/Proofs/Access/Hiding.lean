import Lineage.Proofs.Access.Guard

/-!
# Hiding an attribute

One more rule that hides an attribute from a caller changes nothing for other
callers, nor what is said of other attributes. The attribute itself becomes
hidden on some types, and stays as it was on the others
(`ReadGuard.hides_rulesInEffect`).

So the caller may read less than before, with one exception. If the attribute was
the only one granted to it on a type, and becomes hidden there
(`EffectiveRules.LosesLastGrant`), the caller is no longer bound to granted
attributes, and may read exactly those that are not hidden
(`ReadGuard.authorized_hide`).
-/

namespace Lineage

namespace RuleState

/-- What the second rule says of visibility is the same, or that the attribute is
    hidden. -/
def SameOrHidden (s t : Option RuleState) : Prop :=
  (t.isSome = s.isSome ∧ t.bind visible = s.bind visible) ∨ t.bind visible = some false

theorem visible_overrideBy (s : Option RuleState) (t : RuleState) :
    (overrideBy s (some t)).bind visible = (t.visible <|> s.bind visible) := by
  cases s <;> rfl

theorem SameOrHidden.overrideBy {s t : Option RuleState} (h : SameOrHidden s t)
    (own : Option RuleState) : SameOrHidden (overrideBy s own) (overrideBy t own) := by
  cases own with
  | none => exact h
  | some own =>
    rw [SameOrHidden, visible_overrideBy, visible_overrideBy]
    obtain ⟨_, h⟩ | h := h
    · exact .inl ⟨rfl, by rw [h]⟩
    · rw [h]
      cases own.visible with
      | none => exact .inr rfl
      | some v => exact .inl ⟨rfl, rfl⟩

theorem SameOrHidden.findSome? {f g : TypeKey → Option RuleState} {ks : List TypeKey}
    (h : ∀ k ∈ ks, SameOrHidden (f k) (g k)) :
    SameOrHidden (ks.findSome? f) (ks.findSome? g) := by
  induction ks with
  | nil => exact .inl ⟨rfl, rfl⟩
  | cons k ks ih =>
    obtain ⟨hk, h⟩ := List.forall_mem_cons.1 h
    rw [List.findSome?_cons, List.findSome?_cons]
    cases hf : f k <;> cases hg : g k <;> simp_all [SameOrHidden]

end RuleState

/-- The second rules say the same as the first ones, except that one attribute
    may be hidden from one caller. -/
structure EffectiveRules.Hides (c : Credential) (attr : String) (e e' : EffectiveRules) :
    Prop where
  /-- Nothing changes for other callers and attributes. -/
  others : ∀ c' name, ¬ (c' = c ∧ name = attr) → e'.state? c' name = e.state? c' name
  /-- The attribute may be hidden from the caller. -/
  hidden : RuleState.SameOrHidden (e.state? c attr) (e'.state? c attr)

/-- The first rules grant the caller the attribute and no other one, and the second
    rules hide it. -/
structure EffectiveRules.LosesLastGrant (c : Credential) (attr : String)
    (e e' : EffectiveRules) : Prop where
  /-- No other attribute is granted. -/
  only : ∀ name, e.visibility c name = some true ↔ name = attr
  /-- The attribute is hidden now. -/
  hidden : e'.visibility c attr = some false

namespace ReadGuard

variable {h : Hierarchy} {m : Metadata} {s : RuleSet} {root : TypeKey}

/-- The rules in effect on a type change as stated, or not at all, as those on
    its parents do. -/
theorem hides_rulesInEffect (hw : h.WellFormed root) (u : TypeKey) (c : Credential)
    (attr : String) : ∀ n ∈ h.nodes,
      (rulesInEffect h s n.key).Hides c attr (rulesInEffect h (s.hide u c attr) n.key) := by
  refine hw.parents_induction fun n hn ih => ?_
  have hparent {k : TypeKey} (hk : k ∈ n.parents) :
      (rulesInEffect h s k).Hides c attr (rulesInEffect h (s.hide u c attr) k) := by
    obtain ⟨m, hm, rfl⟩ := hw.exists_parent hn hk
    exact ih m (hw.mem_parents.2 ⟨hm, hk⟩)
  constructor
  · intro c' name hne
    rw [state?_rulesInEffect _ hw hn, state?_rulesInEffect _ hw hn, RuleSet.hide,
      state?_ownRules_add, if_neg fun hr => hne hr.2]
    have hsame : ∀ k ∈ n.parents, (rulesInEffect h (s.hide u c attr) k).state? c' name =
        (rulesInEffect h s k).state? c' name := fun k hk => (hparent hk).others c' name hne
    rw [RuleSet.hide] at hsame
    rw [findSome?_congr hsame]
    rfl
  · have hinherited : RuleState.SameOrHidden
        (n.parents.findSome? fun k => (rulesInEffect h s k).state? c attr)
        (n.parents.findSome? fun k => (rulesInEffect h (s.hide u c attr) k).state? c attr) :=
      .findSome? fun k hk => (hparent hk).hidden
    rw [state?_rulesInEffect _ hw hn, state?_rulesInEffect _ hw hn]
    by_cases hu : n.key = u
    · -- the type of the rule: its own rules hide the attribute, whatever is inherited
      refine .inr ?_
      rw [RuleSet.hide, state?_ownRules_add, if_pos ⟨hu, rfl, rfl⟩]
      rfl
    · have hown : (ownRules (s.hide u c attr) n.key).state? c attr =
          (ownRules s n.key).state? c attr := by
        rw [RuleSet.hide, state?_ownRules_add, if_neg fun hr => hu hr.1]
        rfl
      rw [hown]
      exact hinherited.overrideBy _

section Authorized

variable {e e' : EffectiveRules} {c : Credential} {attr : String}

theorem visibility_of_hides (hh : e.Hides c attr e') {name : String} (hne : name ≠ attr) :
    e'.visibility c name = e.visibility c name := by
  rw [EffectiveRules.visibility, hh.others c name fun hr => hne hr.2, EffectiveRules.visibility]

/-- Where the attribute is hidden now, what is not hidden are the other attributes
    that were not hidden before. -/
theorem visibility_ne_some_false_iff (hh : e.Hides c attr e')
    (hhidden : e'.visibility c attr = some false) (name : String) :
    e'.visibility c name ≠ some false ↔ name ≠ attr ∧ e.visibility c name ≠ some false := by
  by_cases hne : name = attr
  · simp [hne, hhidden]
  · simp [hne, visibility_of_hides hh hne]

/-- If what is hidden was the only attribute granted, the caller may read all others
    that are not hidden. -/
theorem authorizedBy_of_losesLastGrant (he' : e'.Distinct) (hh : e.Hides c attr e')
    (hl : e.LosesLastGrant c attr e') (names : List String) :
    Scope.authorizedBy names ((e'.callers.get? c).getD []) =
      names.filter fun name => name ≠ attr ∧ e.visibility c name ≠ some false := by
  have hnone : ∀ name, e'.visibility c name ≠ some true := by
    intro name hname
    by_cases hne : name = attr
    · rw [hne, hl.hidden] at hname
      exact absurd hname (by decide)
    · -- the grant would have been there before
      rw [visibility_of_hides hh hne] at hname
      exact hne ((hl.only name).1 hname)
  rw [EffectiveRules.authorizedBy_of_not_granted he' names hnone]
  refine List.filter_congr fun name _ => decide_eq_decide.2 ?_
  exact visibility_ne_some_false_iff hh hl.hidden name

/-- Otherwise the caller may read no more than before. -/
theorem authorizedBy_sublist (he : e.Distinct) (he' : e'.Distinct) (hh : e.Hides c attr e')
    (hl : ¬ e.LosesLastGrant c attr e') (names : List String) :
    (Scope.authorizedBy names ((e'.callers.get? c).getD [])).Sublist
      (Scope.authorizedBy names ((e.callers.get? c).getD [])) := by
  obtain ⟨_, hsame⟩ | hhidden := hh.hidden
  · have hv : ∀ name, e'.visibility c name = e.visibility c name := fun name => by
      by_cases hne : name = attr
      · rw [hne]
        exact hsame
      · exact visibility_of_hides hh hne
    rw [authorizedBy_congr he he' hv names]
  have hhidden : e'.visibility c attr = some false := hhidden
  by_cases hg' : ∃ name, e'.visibility c name = some true
  · -- what is granted now was granted before, so only granted attributes count
    have hgranted : ∀ name, e'.visibility c name = some true → e.visibility c name = some true := by
      intro name hname
      have hne : name ≠ attr := fun e => by simp [e, hhidden] at hname
      rwa [← visibility_of_hides hh hne]
    obtain ⟨name, hname⟩ := hg'
    rw [EffectiveRules.authorizedBy_of_granted he names ⟨name, hgranted name hname⟩,
      EffectiveRules.authorizedBy_of_granted he' names ⟨name, hname⟩]
    exact List.monotone_filter_right names fun name => by simpa using hgranted name
  -- nothing is granted now, and so nothing was before: it would have been the last grant
  have hg' := not_exists.1 hg'
  have hg : ∀ name, e.visibility c name ≠ some true := by
    intro x hx
    have honly : ∀ name, e.visibility c name = some true → name = attr := fun name hname =>
      by_contra fun hne => hg' name (visibility_of_hides hh hne ▸ hname)
    refine hl ⟨fun name => ⟨honly name, fun e => ?_⟩, hhidden⟩
    rwa [e, ← honly x hx]
  rw [EffectiveRules.authorizedBy_of_not_granted he names hg,
    EffectiveRules.authorizedBy_of_not_granted he' names hg']
  refine List.monotone_filter_right names fun name => ?_
  rw [decide_eq_true_iff, decide_eq_true_iff, visibility_ne_some_false_iff hh hhidden]
  exact And.right

end Authorized

/-- Hiding an attribute from a caller leaves what other callers may read as it
    was. The caller itself may read no more of a type than before, unless the
    attribute was the only one granted to it there and is now hidden. Then it
    may read exactly the other attributes that are not hidden. -/
theorem authorized_hide {handler handler' : DenialHandler} {g g' : ReadGuard} (hs : h.Sealed)
    {u : TypeKey} {c : Credential} {attr : String} (hg : build h m s handler = .ok g)
    (hg' : build h m (s.hide u c attr) handler' = .ok g') (k : TypeKey) :
    (∀ c' ≠ c, g'.authorized k c' = g.authorized k c') ∧
    (h.contains k = false → g'.authorized k c = g.authorized k c) ∧
    (h.contains k = true → ∃ cat names names', m.get? k = some cat ∧
      g.authorized k c = .ok names ∧ g'.authorized k c = .ok names' ∧
      (¬ (rulesInEffect h s k).LosesLastGrant c attr (rulesInEffect h (s.hide u c attr) k) →
        names'.Sublist names) ∧
      ((rulesInEffect h s k).LosesLastGrant c attr (rulesInEffect h (s.hide u c attr) k) →
        names' = cat.names.filter fun name =>
          name ≠ attr ∧ (rulesInEffect h s k).visibility c name ≠ some false)) := by
  obtain ⟨root, hw⟩ := hs.wellFormed
  cases hk : h.contains k with
  | false =>
    have hsame (c' : Credential) : g'.authorized k c' = g.authorized k c' := by
      rw [authorized_of_contains_eq_false hw hg hk, authorized_of_contains_eq_false hw hg' hk]
    exact ⟨fun c' _ => hsame c', fun _ => hsame c, fun hk => nomatch hk⟩
  | true =>
    obtain ⟨n, hn, rfl⟩ := hw.contains_iff.1 hk
    obtain ⟨cat, hcat, hnames⟩ := exists_authorized hw hg hn
    obtain ⟨cat', hcat', hnames'⟩ := exists_authorized hw hg' hn
    obtain rfl : cat = cat' := Option.some.inj (hcat.symm.trans hcat')
    have hh := hides_rulesInEffect (s := s) hw u c attr n hn
    have he := distinct_rulesInEffect s hw hn
    have he' := distinct_rulesInEffect (s.hide u c attr) hw hn
    refine ⟨fun c' hc' => ?_, fun hk => (nomatch hk), fun _ => ?_⟩
    · rw [hnames, hnames']
      refine congrArg Except.ok (authorizedBy_congr he he' (fun name => ?_) cat.names)
      rw [EffectiveRules.visibility, hh.others c' name fun hr => hc' hr.1,
        EffectiveRules.visibility]
    · exact ⟨cat, _, _, hcat, hnames c, hnames' c,
        fun hl => authorizedBy_sublist he he' hh hl cat.names,
        fun hl => authorizedBy_of_losesLastGrant he' hh hl cat.names⟩

open Invoices in
theorem losesLastGrant_invoices :
    (rulesInEffect hierarchy rules invoice).LosesLastGrant clerk "number"
      (rulesInEffect hierarchy (rules.hide invoice clerk "number") invoice) where
  only name := by
    have hrules : (rulesInEffect hierarchy rules invoice).callers.get? clerk =
        some [("number", ⟨some true, some "no"⟩)] := rfl
    rw [EffectiveRules.visibility, EffectiveRules.state?, hrules, Option.bind_some,
      Table.get?_cons, Table.get?_nil]
    by_cases hname : name = "number"
    · rw [if_pos hname]
      exact iff_of_true rfl hname
    · rw [if_neg hname]
      exact iff_of_false (by decide) hname
  hidden := rfl

open Invoices in
/-- The number is the only attribute of invoices that clerks are granted. If it is hidden from
    them they may read the total instead, which nobody has said anything about. -/
theorem authorized_hide_invoices :
    ∃ g g', build hierarchy metadata rules FailurePolicy.lenient.handler = .ok g ∧
      build hierarchy metadata (rules.hide invoice clerk "number") FailurePolicy.lenient.handler =
        .ok g' ∧
      (∀ c ≠ clerk, g'.authorized invoice c = g.authorized invoice c) ∧
      (rulesInEffect hierarchy rules invoice).LosesLastGrant clerk "number"
        (rulesInEffect hierarchy (rules.hide invoice clerk "number") invoice) ∧
      g.authorized invoice clerk = .ok ["number"] ∧
      g'.authorized invoice clerk = .ok ["total"] := by
  obtain ⟨g, hg⟩ : ∃ g, build hierarchy metadata rules FailurePolicy.lenient.handler = .ok g :=
    ⟨_, rfl⟩
  obtain ⟨g', hg'⟩ : ∃ g', build hierarchy metadata (rules.hide invoice clerk "number")
      FailurePolicy.lenient.handler = .ok g' := ⟨_, rfl⟩
  have hs : hierarchy.Sealed := Hierarchy.sealed_built discovery
  obtain ⟨hothers, _, hclerk⟩ := authorized_hide hs hg hg' invoice
  obtain ⟨cat, names, names', hcat, hnames, hnames', _, hlast⟩ := hclerk (by decide +kernel)
  refine ⟨g, g', hg, hg', hothers, losesLastGrant_invoices, ?_, ?_⟩
  · obtain rfl := Except.ok.inj hg
    rfl
  · rw [hnames', hlast losesLastGrant_invoices]
    obtain rfl := Option.some.inj hcat
    rfl

open Invoices in
/-- Hiding may reveal attributes: where the number is the only attribute granted,
    hiding it reveals the total. -/
theorem not_forall_authorized_hide_subset :
    ¬ ∀ (h : Hierarchy) (p : Discovery) (r : FieldReader) (q : List Requirement) (m : Metadata)
        (s : RuleSet) (u : TypeKey) (c : Credential) (attr : String) (g g' : ReadGuard),
      h.Sealed → Metadata.build h p r q = .ok m →
      build h m s FailurePolicy.lenient.handler = .ok g →
      build h m (s.hide u c attr) FailurePolicy.lenient.handler = .ok g' →
      ∀ k names names', g.authorized k c = .ok names → g'.authorized k c = .ok names' →
        names' ⊆ names := by
  intro hall
  have hsub := hall hierarchy discovery .ofDescriptor [] metadata rules invoice clerk "number" _ _
    (Hierarchy.sealed_built discovery) metadata_build rfl rfl invoice ["number"] ["total"] rfl rfl
  exact absurd hsub (by decide)

end ReadGuard

end Lineage
