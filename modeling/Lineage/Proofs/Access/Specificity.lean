import Lineage.Proofs.Access.Boundary

/-!
# The most specific rule

Of the types that say something of the visibility of an attribute to a caller, for
a given type, there may be a lowest one, below all the others (`RuleSet.Lowest`).
On a single line of ancestors it is the one that decides. If a type has several
parents, a rule that the lowest one overrides may also arrive on another way, and
it is the order of the parents that decides: the rule in effect comes from the
first parent with a rule declared on it or above (`RuleSet.FirstGoverned`).

So the lowest type decides if it is met on the climb that always goes to this
parent (`ReadGuard.authorized_of_lowest`). If an earlier parent just inherits the
overridden rule, this is the one in effect
(`ReadGuard.authorized_note_of_hidden_in_record`).
-/

namespace Lineage

open Relation

namespace RuleSet

variable (h : Hierarchy) (s : RuleSet) (c : Credential) (attr : String)

/-- The parent is the first one of the type with a rule declared on it or above. -/
def FirstGoverned (k parent : TypeKey) : Prop :=
  ∃ n ∈ h.nodes, n.key = k ∧ ∃ before after, n.parents = before ++ parent :: after ∧
    s.Governs h c attr parent ∧ ∀ u ∈ before, ¬ s.Governs h c attr u

/-- Among a type and its ancestors, one says whether the attribute is granted or
    hidden, and it is below all others that say something on it. -/
structure Lowest (k lowest : TypeKey) (v : Bool) : Prop where
  /-- The last of its rules on visibility. -/
  verdict : s.verdict? c attr lowest = some v
  /-- It is the type itself or an ancestor. -/
  above : lowest = k ∨ h.IsAncestor lowest k
  /-- The others are its ancestors. -/
  below : ∀ u, (u = k ∨ h.IsAncestor u k) → s.verdict? c attr u ≠ none →
    lowest = u ∨ h.IsAncestor u lowest

variable {h s c attr} {k parent lowest : TypeKey} {v : Bool}

theorem FirstGoverned.isParent (hf : s.FirstGoverned h c attr k parent) :
    h.IsParent parent k := by
  obtain ⟨n, hn, hk, before, after, hparents, _⟩ := hf
  exact ⟨n, hn, hk, by simp [hparents]⟩

/-- The climb leads upwards. -/
theorem eq_or_isAncestor_of_climb (hclimb : ReflTransGen (s.FirstGoverned h c attr) k lowest) :
    lowest = k ∨ h.IsAncestor lowest k := by
  induction hclimb with
  | refl => exact .inl rfl
  | tail _ hf ih =>
    refine .inr ?_
    rcases ih with rfl | ha
    · exact .single hf.isParent
    · exact .head hf.isParent ha

/-- What is lowest stays so for a parent on the climb. -/
theorem Lowest.climb (hl : s.Lowest h c attr k lowest v)
    (hf : s.FirstGoverned h c attr k parent)
    (hclimb : ReflTransGen (s.FirstGoverned h c attr) parent lowest) :
    s.Lowest h c attr parent lowest v where
  verdict := hl.verdict
  above := eq_or_isAncestor_of_climb hclimb
  below u hu := hl.below u (.inr (hf.isParent.isAncestor hu))

/-- Below the lowest type nothing is said. -/
theorem Lowest.verdict?_eq_none {root : TypeKey} (hw : h.WellFormed root)
    (hl : s.Lowest h c attr k lowest v) (ha : h.IsAncestor lowest k) :
    s.verdict? c attr k = none := by
  by_contra hk
  obtain rfl | hk := hl.below k (.inl rfl) hk
  · exact hw.not_isAncestor_self _ ha
  · exact hw.not_isAncestor_self _ (hk.trans ha)

end RuleSet

namespace ReadGuard

variable {h : Hierarchy} {m : Metadata} {s : RuleSet} {handler : DenialHandler} {g : ReadGuard}
  {root : TypeKey} {c : Credential} {attr : String} {k parent lowest : TypeKey} {v : Bool}

/-- The rule that a type inherits is the one in effect on the first parent with a
    rule declared on it or above. -/
theorem inherited_of_firstGoverned (hw : h.WellFormed root) {n : Node} (hn : n ∈ h.nodes)
    (hf : s.FirstGoverned h c attr n.key parent) :
    (n.parents.findSome? fun u => (rulesInEffect h s u).state? c attr) =
      (rulesInEffect h s parent).state? c attr := by
  obtain ⟨n', hn', hkey, before, after, hparents, hgoverns, hbefore⟩ := hf
  obtain rfl := hw.eq_of_key_eq hn' hn hkey
  have hnode {u : TypeKey} (hu : u ∈ before ++ parent :: after) : ∃ p ∈ h.nodes, p.key = u :=
    hw.exists_parent hn (hparents ▸ hu)
  obtain ⟨p, hp, rfl⟩ := hnode (u := parent) (by simp)
  obtain ⟨st, hst⟩ := Option.isSome_iff_exists.1 ((isSome_state?_iff hw hp).2 hgoverns)
  -- no earlier parent has a rule in effect
  rw [hst, List.findSome?_eq_some_iff]
  refine ⟨before, p.key, after, hparents, hst, fun u hu => ?_⟩
  obtain ⟨p', hp', rfl⟩ := hnode (List.mem_append_left _ hu)
  exact (state?_eq_none_iff hw hp').2 (hbefore p'.key hu)

/-- The lowest type decides if the climb meets it. -/
theorem visibility_of_lowest (hw : h.WellFormed root) (hk : h.contains k = true)
    (hl : s.Lowest h c attr k lowest v)
    (hclimb : ReflTransGen (s.FirstGoverned h c attr) k lowest) :
    (rulesInEffect h s k).visibility c attr = some v := by
  induction hclimb using ReflTransGen.head_induction_on with
  | refl =>
    obtain ⟨n, hn, rfl⟩ := hw.contains_iff.1 hk
    rw [visibility_rulesInEffect hw hn, hl.verdict]
    rfl
  | @head k parent hf hclimb ih =>
    obtain ⟨n, hn, rfl⟩ := hw.contains_iff.1 hk
    -- nothing is said yet, so what the parent passes on is in effect
    have hl' := hl.climb hf hclimb
    have habove : h.IsAncestor lowest n.key := hf.isParent.isAncestor hl'.above
    have hparent : h.contains parent = true :=
      hw.contains_iff.2 (hw.exists_parent hn ((hw.isParent_key hn).1 hf.isParent))
    rw [visibility_rulesInEffect hw hn, hl.verdict?_eq_none hw habove,
      inherited_of_firstGoverned hw hn hf]
    exact ih hparent hl'

/-- A restricted caller may read an attribute that it is granted and may not read
    one that is hidden from it. -/
theorem Readable.mem_iff {cat : Catalogue} {state : String → Option RuleState}
    {names : List String} (hr : Readable cat true state names) (hattr : attr ∈ cat.names)
    (hv : (state attr).bind RuleState.visible = some v) : attr ∈ names ↔ v = true := by
  by_cases hgranted : ∃ name, (state name).bind RuleState.visible = some true
  · simp [hr.granted rfl hgranted, hattr, hv]
  · simp [hr.not_hidden rfl (not_exists.1 hgranted), hattr, hv]

/-- Whether a caller may read an attribute of the catalogue is decided by the lowest
    type that says something of it, if this type is met on the climb that always
    goes to the first parent with a rule declared on it or above. -/
theorem authorized_of_lowest (hs : h.Sealed) (hg : build h m s handler = .ok g)
    (hk : h.contains k = true) {cat : Catalogue} (hcat : m.get? k = some cat)
    (hattr : attr ∈ cat.names) (hl : s.Lowest h c attr k lowest v)
    (hclimb : ReflTransGen (s.FirstGoverned h c attr) k lowest) :
    ∃ names, g.authorized k c = .ok names ∧ (attr ∈ names ↔ v = true) := by
  obtain ⟨root, hw⟩ := hs.wellFormed
  have hv := visibility_of_lowest hw hk hl hclimb
  obtain ⟨n, hn, rfl⟩ := hw.contains_iff.1 hk
  obtain ⟨cat', names, hcat', hnames, hreadable⟩ := readable_of_build (c := c) hw hg hn
  obtain rfl : cat = cat' := Option.some.inj (hcat.symm.trans hcat')
  -- what decides is a rule on the caller, so the caller is restricted
  have hrestricted : g.isRestricted n.key c = true := by
    obtain ⟨st, hst, _⟩ := Option.bind_eq_some_iff.1 hv
    exact (isRestricted_iff hw hg hn).2 ⟨attr, (isSome_state?_iff hw hn).1 (by rw [hst]; rfl)⟩
  rw [hrestricted] at hreadable
  exact ⟨names, hnames, hreadable.mem_iff hattr hv⟩

namespace Minutes

/-- The note is hidden in documents, but granted to the caller in drafts. -/
def grantedInDraft : RuleSet :=
  (RuleSet.hide {} document clerk "note").grant draft clerk "note"

theorem exists_minutes : ∃ n ∈ hierarchy.nodes, n.key = minutes ∧ n.parents = [draft, record] := by
  decide +kernel

theorem isParent_of_document : ∀ k ∈ [draft, record], hierarchy.IsParent document k := by
  unfold Hierarchy.IsParent
  decide +kernel

theorem isParent_of_minutes : ∀ k ∈ [draft, record], hierarchy.IsParent k minutes := by
  unfold Hierarchy.IsParent
  decide +kernel

/-- Of the types that have been mentioned, a document is above all others. -/
theorem lowest_minutes {s : RuleSet} {k : TypeKey} {v : Bool} (hk : k ∈ [draft, record])
    (hv : s.verdict? clerk "note" k = some v)
    (honly : ∀ r ∈ s.rules, r.name = "note" → r.typeKey = k ∨ r.typeKey = document) :
    s.Lowest hierarchy clerk "note" minutes k v where
  verdict := hv
  above := .inr (.single (isParent_of_minutes k hk))
  below u _ hu := by
    have hne : s.rulesOn u clerk "note" ≠ [] := fun hnil => hu (by rw [RuleSet.verdict?, hnil]; rfl)
    obtain ⟨r, hr⟩ := List.exists_mem_of_ne_nil _ hne
    obtain ⟨hmem, rfl, _, hname⟩ := RuleSet.mem_rulesOn.1 hr
    obtain hu | hu := honly r hmem hname
    · exact .inl hu.symm
    · exact .inr (hu ▸ .single (isParent_of_document k hk))

end Minutes

open Minutes in
theorem authorized_of_lowest_draft :
    ∃ g cat, hierarchy.Sealed ∧
      build hierarchy metadata grantedInDraft FailurePolicy.strict.handler = .ok g ∧
      hierarchy.contains minutes = true ∧ metadata.get? minutes = some cat ∧ "note" ∈ cat.names ∧
      grantedInDraft.Lowest hierarchy clerk "note" minutes draft true ∧
      ReflTransGen (grantedInDraft.FirstGoverned hierarchy clerk "note") minutes draft ∧
      ∃ names, g.authorized minutes clerk = .ok names ∧ ("note" ∈ names ↔ true = true) := by
  have hs : hierarchy.Sealed := Hierarchy.sealed_built discovery
  obtain ⟨g, hg⟩ : ∃ g, build hierarchy metadata grantedInDraft FailurePolicy.strict.handler =
    .ok g := ⟨_, rfl⟩
  have hk : hierarchy.contains minutes = true := by decide +kernel
  obtain ⟨cat, hcat, hattr⟩ : ∃ cat, metadata.get? minutes = some cat ∧ "note" ∈ cat.names :=
    ⟨_, rfl, by decide +kernel⟩
  have hl : grantedInDraft.Lowest hierarchy clerk "note" minutes draft true :=
    lowest_minutes (by decide) (by decide +kernel) (by decide +kernel)
  have hclimb : grantedInDraft.FirstGoverned hierarchy clerk "note" minutes draft := by
    obtain ⟨n, hn, hkey, hparents⟩ := exists_minutes
    exact ⟨n, hn, hkey, [], [record], hparents, ⟨draft, .inl rfl, by decide +kernel⟩, by simp⟩
  exact ⟨g, cat, hs, hg, hk, hcat, hattr, hl, .single hclimb,
    authorized_of_lowest hs hg hk hcat hattr hl (.single hclimb)⟩

open Minutes in
/-- Records are the lowest type that says something of the note, and hide it. But
    minutes are drafts first, and so they are granted the note, as all documents
    are. -/
theorem authorized_note_of_hidden_in_record :
    hierarchy.Sealed ∧ Metadata.build hierarchy discovery .ofDescriptor [] = .ok metadata ∧
      rules.Lowest hierarchy clerk "note" minutes record false ∧
      ∃ g names, build hierarchy metadata rules FailurePolicy.strict.handler = .ok g ∧
        g.authorized minutes clerk = .ok names ∧ "note" ∈ names := by
  refine ⟨Hierarchy.sealed_built discovery, metadata_build, ?_, _, ["title", "note"], rfl, rfl, ?_⟩
  · exact lowest_minutes (by decide) (by decide +kernel) (by decide +kernel)
  · decide

end ReadGuard

end Lineage
