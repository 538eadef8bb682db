import Lineage.Proofs.Access.Boundary

/-!
# Names do not grant or hide

An alias, or a rule that only gives an attribute another name, says nothing of
whether the attribute is granted or hidden. Adding one, at any position, should
change nothing of what callers may read:

* aliases are kept apart from the rules, so this holds for them;
* of a rule that only gives a name it holds for all other callers, and for the
  caller of the rule as well as long as nothing is shadowed
  (`ReadGuard.authorized_of_names`).

The obstacle are types with several parents. A type inherits the rule in effect as
a whole, from the first parent that has one. If this parent has one only because
of the new name, whatever a later parent would have passed on is lost
(`RuleSet.Shadows`), and an attribute that was hidden may be read
(`ReadGuard.authorized_note_of_renamed_in_draft`).
-/

namespace Lineage

namespace RuleSet

/-- The second set has one more alias, at some position. -/
structure AddsAlias (s s' : RuleSet) (a : TypeAlias) : Prop where
  rules : s'.rules = s.rules
  aliases : ∃ before after, s.aliases = before ++ after ∧ s'.aliases = before ++ a :: after

/-- The second set has one more rule, at some position, and the rule only gives a
    name. -/
structure AddsName (s s' : RuleSet) (r : ReadRule) : Prop where
  rules : ∃ before after, s.rules = before ++ after ∧ s'.rules = before ++ r :: after
  aliases : s'.aliases = s.aliases
  visible : r.visible = none

/-- By the second set, the type inherits the rule on an attribute from a parent that
    has none by the first one, and misses a later parent, with a rule on
    visibility declared on it or above. -/
def Shadows (h : Hierarchy) (s s' : RuleSet) (c : Credential) (attr : String) (k : TypeKey) :
    Prop :=
  ∃ n ∈ h.nodes, n.key = k ∧ ∃ before parent after, n.parents = before ++ parent :: after ∧
    s'.Governs h c attr parent ∧ (∀ u ∈ before ++ [parent], ¬ s.Governs h c attr u) ∧
      ∃ later ∈ after, ∃ u, (u = later ∨ h.IsAncestor u later) ∧ s.verdict? c attr u ≠ none

variable {s s' : RuleSet} {r : ReadRule} {a : TypeAlias} {c : Credential} {attr : String}

theorem AddsAlias.rulesOn_eq (hadd : s.AddsAlias s' a) (k : TypeKey) :
    s'.rulesOn k c attr = s.rulesOn k c attr := by
  rw [rulesOn, rulesOn, hadd.rules]

/-- The rules on other attributes and callers stay as they are. -/
theorem AddsName.rulesOn_eq (hadd : s.AddsName s' r) (hne : ¬ (c = r.credential ∧ attr = r.name))
    (k : TypeKey) : s'.rulesOn k c attr = s.rulesOn k c attr := by
  obtain ⟨before, after, hrules, hrules'⟩ := hadd.rules
  have hr : ¬ (r.typeKey = k ∧ r.credential = c ∧ r.name = attr) := by
    rintro ⟨_, rfl, rfl⟩
    exact hne ⟨rfl, rfl⟩
  simp [rulesOn, hrules, hrules', hr]

theorem AddsName.verdict?_eq (hadd : s.AddsName s' r) (k : TypeKey) :
    s'.verdict? c attr k = s.verdict? c attr k := by
  obtain ⟨before, after, hrules, hrules'⟩ := hadd.rules
  simp only [verdict?, rulesOn, hrules, hrules', List.filter_append, List.filter_cons]
  split <;> simp [hadd.visible]

theorem AddsName.governs {h : Hierarchy} (hadd : s.AddsName s' r) {k : TypeKey}
    (hgoverns : s.Governs h c attr k) : s'.Governs h c attr k := by
  obtain ⟨u, hu, hrulesOn⟩ := hgoverns
  obtain ⟨before, after, hrules, hrules'⟩ := hadd.rules
  obtain ⟨r', hr'⟩ := List.exists_mem_of_ne_nil _ hrulesOn
  obtain ⟨hmem, hkey⟩ := mem_rulesOn.1 hr'
  refine ⟨u, hu, List.ne_nil_of_mem (mem_rulesOn.2 ⟨?_, hkey⟩)⟩
  rw [hrules']
  rw [hrules] at hmem
  exact List.mem_append.2 ((List.mem_append.1 hmem).imp_right (List.mem_cons_of_mem r))

end RuleSet

/-- Two ways to look up the first rule on a list say the same of visibility, if they
    do so on each element, and if the second one misses nothing by finding a rule
    earlier. -/
theorem RuleState.visible_findSome?_congr {f f' : TypeKey → Option RuleState} {ks : List TypeKey}
    (hnone : ∀ k ∈ ks, f' k = none → f k = none)
    (hvisible : ∀ k ∈ ks, (f' k).bind visible = (f k).bind visible)
    (hmissed : ∀ before k after, ks = before ++ k :: after → f' k ≠ none →
      (∀ u ∈ before ++ [k], f u = none) → ∀ u ∈ after, (f u).bind visible = none) :
    (ks.findSome? f').bind visible = (ks.findSome? f).bind visible := by
  induction ks with
  | nil => rfl
  | cons k ks ih =>
    obtain ⟨hk, hnone⟩ := List.forall_mem_cons.1 hnone
    obtain ⟨hvk, hvisible⟩ := List.forall_mem_cons.1 hvisible
    rw [List.findSome?_cons, List.findSome?_cons]
    cases hf' : f' k with
    | none =>
      rw [hk hf']
      refine ih hnone hvisible fun before u after hsplit hu hbefore => ?_
      refine hmissed (k :: before) u after (by rw [hsplit, List.cons_append]) hu ?_
      exact List.forall_mem_cons.2 ⟨hk hf', hbefore⟩
    | some t =>
      rw [hf'] at hvk
      cases hf : f k with
      | some _ => rwa [hf] at hvk
      | none =>
        -- the second way stops here, and the first one goes on without finding anything
        have hlater := hmissed [] k ks rfl (by simp [hf']) (by simp [hf])
        rw [hf] at hvk
        refine hvk.trans (Eq.symm (Option.eq_none_iff_forall_ne_some.2 fun v hv => ?_))
        obtain ⟨st, hst, hv⟩ := Option.bind_eq_some_iff.1 hv
        obtain ⟨u, hu, hstate⟩ := List.exists_of_findSome?_eq_some hst
        exact Option.some_ne_none v (hv.symm.trans (by rw [← hlater u hu, hstate]; rfl))

namespace ReadGuard

variable {h : Hierarchy} {m : Metadata} {s s' : RuleSet} {handler handler' : DenialHandler}
  {g g' : ReadGuard} {root : TypeKey} {c : Credential} {attr : String}

/-- What is in effect on visibility stays the same, if what is declared on it does
    and no type on or above this one misses a rule. -/
theorem visibility_congr (hw : h.WellFormed root)
    (hverdict : ∀ u, s'.verdict? c attr u = s.verdict? c attr u)
    (hgoverns : ∀ u, s.Governs h c attr u → s'.Governs h c attr u) : ∀ n ∈ h.nodes,
      (∀ u, (u = n.key ∨ h.IsAncestor u n.key) → ¬ s.Shadows h s' c attr u) →
        (rulesInEffect h s' n.key).visibility c attr =
          (rulesInEffect h s n.key).visibility c attr := by
  refine hw.parents_induction fun n hn ih hshadows => ?_
  have hnone (s : RuleSet) {k : TypeKey} (hk : k ∈ n.parents) :
      (rulesInEffect h s k).state? c attr = none ↔ ¬ s.Governs h c attr k := by
    obtain ⟨p, hp, rfl⟩ := hw.exists_parent hn hk
    exact state?_eq_none_iff hw hp
  rw [visibility_rulesInEffect hw hn, visibility_rulesInEffect hw hn, hverdict]
  refine congrArg _ (funext fun _ => RuleState.visible_findSome?_congr (fun k hk => ?_)
    (fun k hk => ?_) fun before parent after hsplit hparent hbefore later hlater => ?_)
  · rw [hnone s' hk, hnone s hk]
    exact mt (hgoverns k)
  · obtain ⟨p, hp, rfl⟩ := hw.exists_parent hn hk
    exact ih p (hw.mem_parents.2 ⟨hp, hk⟩) fun u hu =>
      hshadows u (.inr (hw.isAncestor_of_parent hn hk hu))
  · have hmem {k : TypeKey} (hk : k ∈ before ++ [parent] ++ after) : k ∈ n.parents := by
      simpa [hsplit] using hk
    -- a verdict on a later parent or above it would be shadowed
    obtain ⟨q, hq, rfl⟩ := hw.exists_parent hn (hmem (List.mem_append_right _ hlater))
    refine Option.eq_none_iff_forall_ne_some.2 fun v hv => hshadows n.key (.inl rfl) ?_
    obtain ⟨u, hu, hverdict⟩ := exists_verdict_of_visibility hw hq hv
    refine ⟨n, hn, rfl, before, parent, after, hsplit, ?_, fun k hk => ?_, q.key, hlater, u, hu,
      by simp [hverdict]⟩
    · exact not_not.1 (mt (hnone s' (hmem (by simp))).2 hparent)
    · exact (hnone s (hmem (List.mem_append_left _ hk))).1 (hbefore k hk)

/-- So it does, if all rules on the attribute do. -/
theorem visibility_congr_of_rulesOn (hw : h.WellFormed root)
    (hrules : ∀ u, s'.rulesOn u c attr = s.rulesOn u c attr) {n : Node} (hn : n ∈ h.nodes) :
    (rulesInEffect h s' n.key).visibility c attr = (rulesInEffect h s n.key).visibility c attr := by
  have hgoverns (u : TypeKey) : s'.Governs h c attr u ↔ s.Governs h c attr u := by
    simp only [RuleSet.Governs, hrules]
  refine visibility_congr hw (fun u => by rw [RuleSet.verdict?, RuleSet.verdict?, hrules])
    (fun u => (hgoverns u).2) n hn ?_
  rintro u - ⟨_, -, -, _, parent, _, -, hparent, hnot, -⟩
  exact hnot parent (by simp) ((hgoverns parent).1 hparent)

/-- Two guards let a caller read the same, if the same is in effect on visibility. -/
theorem authorized_congr (hw : h.WellFormed root) (hg : build h m s handler = .ok g)
    (hg' : build h m s' handler' = .ok g') {k : TypeKey}
    (hvisibility : ∀ n ∈ h.nodes, n.key = k → ∀ attr,
      (rulesInEffect h s' k).visibility c attr = (rulesInEffect h s k).visibility c attr) :
    g'.authorized k c = g.authorized k c := by
  cases hk : h.contains k with
  | false =>
    rw [authorized_of_contains_eq_false hw hg hk, authorized_of_contains_eq_false hw hg' hk]
  | true =>
    obtain ⟨n, hn, rfl⟩ := hw.contains_iff.1 hk
    obtain ⟨cat, hcat, hnames⟩ := exists_authorized hw hg hn
    obtain ⟨cat', hcat', hnames'⟩ := exists_authorized hw hg' hn
    obtain rfl : cat = cat' := Option.some.inj (hcat.symm.trans hcat')
    rw [hnames, hnames', authorizedBy_congr (distinct_rulesInEffect s hw hn)
      (distinct_rulesInEffect s' hw hn) (hvisibility n hn rfl)]

/-- An alias changes nothing of what callers may read. A rule that only gives a name
    changes nothing for other callers, nor for its own caller on a type, if the type
    and its ancestors do not shadow a rule on visibility. -/
theorem authorized_of_names (hs : h.Sealed) (hg : build h m s handler = .ok g)
    (hg' : build h m s' handler' = .ok g') :
    (∀ a, s.AddsAlias s' a → ∀ k c, g'.authorized k c = g.authorized k c) ∧
    (∀ r, s.AddsName s' r → ∀ k c, (c = r.credential → ∀ u, (u = k ∨ h.IsAncestor u k) →
      ¬ s.Shadows h s' c r.name u) → g'.authorized k c = g.authorized k c) := by
  obtain ⟨root, hw⟩ := hs.wellFormed
  constructor
  · rintro a hadd k c
    refine authorized_congr hw hg hg' fun n hn hk attr => ?_
    subst hk
    exact visibility_congr_of_rulesOn hw hadd.rulesOn_eq hn
  · intro r hadd k c hshadows
    refine authorized_congr hw hg hg' fun n hn hk attr => ?_
    subst hk
    by_cases hr : c = r.credential ∧ attr = r.name
    · obtain ⟨hc, rfl⟩ := hr
      exact visibility_congr hw hadd.verdict?_eq (fun u => hadd.governs) n hn (hshadows hc)
    · exact visibility_congr_of_rulesOn hw (hadd.rulesOn_eq hr) hn

namespace Minutes

/-- The note is hidden in records. -/
def hiddenInRecord : RuleSet :=
  RuleSet.hide {} record clerk "note"

/-- Moreover, it has another name in drafts, for all callers. -/
def aliasedInDraft : RuleSet :=
  hiddenInRecord.addAlias ⟨draft, "note", "remark"⟩

/-- It has another name in records, given before it is hidden. -/
def renamedInRecord : RuleSet :=
  (RuleSet.rename {} record clerk "note" "remark").hide record clerk "note"

/-- It has another name in drafts, for the caller. -/
def renamedInDraft : RuleSet :=
  hiddenInRecord.rename draft clerk "note" "remark"

/-- There was a rule on the note of records before. -/
theorem not_shadows_renamedInRecord (k : TypeKey) :
    ¬ hiddenInRecord.Shadows hierarchy renamedInRecord clerk "note" k := by
  rintro ⟨_, -, -, _, parent, _, -, ⟨u, hu, hrules⟩, hnot, -⟩
  obtain ⟨r, hr⟩ := List.exists_mem_of_ne_nil _ hrules
  obtain ⟨hmem, rfl, -⟩ := RuleSet.mem_rulesOn.1 hr
  have hrecord : ∀ r ∈ renamedInRecord.rules, r.typeKey = record := by decide
  rw [hrecord r hmem] at hu
  exact hnot parent (by simp) ⟨record, hu, by decide⟩

end Minutes

open Minutes in
theorem authorized_of_names_minutes :
    ∃ g, hierarchy.Sealed ∧
      build hierarchy metadata hiddenInRecord FailurePolicy.lenient.handler = .ok g ∧
      (∃ g', build hierarchy metadata aliasedInDraft FailurePolicy.lenient.handler = .ok g' ∧
        g'.authorized minutes clerk = g.authorized minutes clerk) ∧
      ∃ g', build hierarchy metadata renamedInRecord FailurePolicy.lenient.handler = .ok g' ∧
        g'.authorized minutes clerk = g.authorized minutes clerk := by
  have hs : hierarchy.Sealed := Hierarchy.sealed_built discovery
  obtain ⟨g, hg⟩ : ∃ g, build hierarchy metadata hiddenInRecord FailurePolicy.lenient.handler =
    .ok g := ⟨_, rfl⟩
  obtain ⟨ga, hga⟩ : ∃ g, build hierarchy metadata aliasedInDraft FailurePolicy.lenient.handler =
    .ok g := ⟨_, rfl⟩
  obtain ⟨gn, hgn⟩ : ∃ g, build hierarchy metadata renamedInRecord FailurePolicy.lenient.handler =
    .ok g := ⟨_, rfl⟩
  refine ⟨g, hs, hg, ⟨ga, hga, ?_⟩, gn, hgn, ?_⟩
  · exact (authorized_of_names hs hg hga).1 ⟨draft, "note", "remark"⟩
      ⟨rfl, [], [], rfl, rfl⟩ minutes clerk
  · exact (authorized_of_names hs hg hgn).2
      { typeKey := record, credential := clerk, name := "note", newName := some "remark" }
      ⟨⟨[], _, rfl, rfl⟩, rfl, rfl⟩ minutes clerk
      fun _ u _ => not_shadows_renamedInRecord u

open Minutes in
/-- The new name in drafts makes the note readable in minutes, which are drafts
    first: that it is hidden in records is lost. -/
theorem authorized_note_of_renamed_in_draft :
    hierarchy.Sealed ∧ Metadata.build hierarchy discovery .ofDescriptor [] = .ok metadata ∧
      (∃ r, hiddenInRecord.AddsName renamedInDraft r ∧ r.newName = some "remark") ∧
      ∃ g g', build hierarchy metadata hiddenInRecord FailurePolicy.lenient.handler = .ok g ∧
        build hierarchy metadata renamedInDraft FailurePolicy.lenient.handler = .ok g' ∧
        g.authorized minutes clerk = .ok ["title"] ∧
        g'.authorized minutes clerk = .ok ["title", "note"] := by
  refine ⟨Hierarchy.sealed_built discovery, metadata_build, ?_, _, _, rfl, rfl, rfl, rfl⟩
  exact ⟨_, ⟨⟨_, [], (List.append_nil _).symm, rfl⟩, rfl, rfl⟩, rfl⟩

end ReadGuard

end Lineage
