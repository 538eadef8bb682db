import Lineage.Proofs.Access.Declared
import Lineage.Proofs.Access.Independence

/-!
# Who may read what

A caller is restricted on a type as soon as a rule on it is declared on the type or
on an ancestor, whichever attribute the rule is about. A caller that is not
restricted may read the whole catalogue. One that is may read the attributes
granted to it, if any attribute is, even one that is not in the catalogue; and
otherwise those that are not hidden from it (`ReadGuard.boundary_of_build`).

What is granted and hidden is read off the declared rules by climbing the
hierarchy (`RuleSet.InEffect`).
-/

namespace Lineage.ReadGuard

variable {h : Hierarchy} {m : Metadata} {s : RuleSet} {handler : DenialHandler} {g : ReadGuard}
  {root : TypeKey} {c : Credential}

/-- What a caller may read of a type, from the rules in effect on the attributes. -/
structure Readable (cat : Catalogue) (restricted : Bool) (state : String → Option RuleState)
    (names : List String) : Prop where
  /-- Without restrictions, everything. -/
  everything : restricted = false → names = cat.names
  /-- If any attribute is granted, those that are. -/
  granted : restricted = true → (∃ attr, (state attr).bind RuleState.visible = some true) →
    names = cat.names.filter fun attr => (state attr).bind RuleState.visible = some true
  /-- Otherwise those that are not hidden. -/
  not_hidden : restricted = true → (∀ attr, (state attr).bind RuleState.visible ≠ some true) →
    names = cat.names.filter fun attr => (state attr).bind RuleState.visible ≠ some false

/-- How far a caller may read a type. -/
structure Boundary (h : Hierarchy) (m : Metadata) (s : RuleSet) (g : ReadGuard) (k : TypeKey)
    (c : Credential) : Prop where
  /-- It is restricted if a rule on it is declared on the type or on an ancestor. -/
  restricted : g.isRestricted k c = true ↔ ∃ r ∈ s.rules, r.credential = c ∧
    (r.typeKey = k ∨ ∃ a ∈ h.ancestors k, a.key = r.typeKey)
  /-- What it may read follows from the rules in effect, one state for each
      attribute. -/
  readable : ∃ cat names state, m.get? k = some cat ∧ g.authorized k c = .ok names ∧
    (∀ attr st, s.InEffect h c attr k st ↔ st = state attr) ∧
    Readable cat (g.isRestricted k c) state names

section Built

variable (hw : h.WellFormed root) (hg : build h m s handler = .ok g) {n : Node} (hn : n ∈ h.nodes)
include hw hg hn

/-- A caller is restricted if some attribute has a rule in effect on it. -/
theorem isRestricted_iff :
    g.isRestricted n.key c = true ↔ ∃ attr, s.Governs h c attr n.key := by
  obtain ⟨cat, t, _, ht, hcompile⟩ := exists_types hw hg hn
  rw [isRestricted, ht, Option.any_some, isSome_callers hcompile,
    (occupied_rulesInEffect hw s n hn).isSome_iff]
  exact exists_congr fun attr => isSome_state?_iff hw hn

theorem readable_of_build : ∃ cat names, m.get? n.key = some cat ∧
    g.authorized n.key c = .ok names ∧
    Readable cat (g.isRestricted n.key c) ((rulesInEffect h s n.key).state? c) names := by
  obtain ⟨cat, hcat, hnames⟩ := exists_authorized hw hg hn
  have hd := distinct_rulesInEffect s hw hn
  refine ⟨cat, _, hcat, hnames c, fun hopen => ?_, fun _ hgranted => ?_, fun _ hgranted => ?_⟩
  · -- no rule is in effect, so nothing is granted and nothing is hidden
    have hnone (attr : String) : (rulesInEffect h s n.key).visibility c attr = none := by
      have hgoverns : ¬ s.Governs h c attr n.key := fun hgoverns =>
        Bool.eq_false_iff.1 hopen ((isRestricted_iff hw hg hn).2 ⟨attr, hgoverns⟩)
      rw [EffectiveRules.visibility, (state?_eq_none_iff hw hn).2 hgoverns, Option.bind_none]
    rw [EffectiveRules.authorizedBy_of_not_granted hd cat.names fun attr => by simp [hnone attr]]
    exact List.filter_eq_self.2 fun attr _ => by simp [hnone attr]
  · exact EffectiveRules.authorizedBy_of_granted hd cat.names hgranted
  · exact EffectiveRules.authorizedBy_of_not_granted hd cat.names hgranted

end Built

/-- Whether a caller is restricted on a type, and what it may read of it, is decided
    by the rules that are declared on the type and its ancestors. -/
theorem boundary_of_build (hs : h.Sealed) (hg : build h m s handler = .ok g) {k : TypeKey}
    (hk : h.contains k = true) (c : Credential) : Boundary h m s g k c := by
  obtain ⟨root, hw⟩ := hs.wellFormed
  obtain ⟨n, hn, rfl⟩ := hw.contains_iff.1 hk
  constructor
  · -- a rule counts for the attribute that it is about, whichever this is
    rw [isRestricted_iff hw hg hn]
    constructor
    · rintro ⟨attr, u, hu, hrules⟩
      obtain ⟨r, hr⟩ := List.exists_mem_of_ne_nil _ hrules
      obtain ⟨hmem, rfl, hc, _⟩ := RuleSet.mem_rulesOn.1 hr
      exact ⟨r, hmem, hc, hu.imp_right hw.isAncestor_iff.1⟩
    · rintro ⟨r, hr, hc, hu⟩
      refine ⟨r.name, r.typeKey, hu.imp_right hw.isAncestor_iff.2, ?_⟩
      exact List.ne_nil_of_mem (RuleSet.mem_rulesOn.2 ⟨hr, rfl, hc, rfl⟩)
  · obtain ⟨cat, names, hcat, hnames, hreadable⟩ := readable_of_build (c := c) hw hg hn
    exact ⟨cat, names, _, hcat, hnames, fun attr st => inEffect_iff hw hn, hreadable⟩

/-! ### Minutes of meetings -/

namespace Minutes

/-- The type of documents. -/
def document : TypeKey := ⟨"Document"⟩

/-- The type of drafts. -/
def draft : TypeKey := ⟨"Draft"⟩

/-- The type of what is put on record. -/
def record : TypeKey := ⟨"Record"⟩

/-- The type of minutes. -/
def minutes : TypeKey := ⟨"Minutes"⟩

/-- A caller. -/
def clerk : Credential := ⟨"CLERK"⟩

/-- Documents have a title and a note. Drafts and records are documents, and minutes
    are both. -/
def discovery : Discovery where
  root := ⟨"Resource"⟩
  described := [
    { key := document
      kind := .interfaceType
      interfaces := [⟨"Resource"⟩]
      fields := [⟨"title", .scalar "text", .empty⟩, ⟨"note", .scalar "text", .empty⟩]
      isAbstract := true },
    { key := draft
      kind := .classType
      interfaces := [document] },
    { key := record
      kind := .interfaceType
      interfaces := [document]
      isAbstract := true },
    { key := minutes
      kind := .classType
      superclass := some draft
      interfaces := [record] }]
  find _ := .ok []

/-- The hierarchy of documents. -/
def hierarchy : Hierarchy :=
  .built discovery

/-- The metadata of the hierarchy. -/
def metadata : Metadata :=
  (Metadata.build hierarchy discovery .ofDescriptor []).toOption.getD {}

theorem metadata_build :
    Metadata.build hierarchy discovery .ofDescriptor [] = .ok metadata :=
  rfl

/-- The attributes of documents are granted to the caller, but the note is hidden in
    records. -/
def rules : RuleSet :=
  ((RuleSet.grant {} document clerk "title").grant document clerk "note").hide record clerk "note"

/-- Minutes are drafts first, and so the caller may read their notes. -/
example : ((build hierarchy metadata rules FailurePolicy.strict.handler).toOption.map fun g =>
    (g.authorized minutes clerk).toOption) = some (some ["title", "note"]) := by
  decide +kernel

end Minutes

open Minutes in
theorem boundary_of_build_minutes :
    hierarchy.Sealed ∧ hierarchy.contains minutes = true ∧
      ∃ g, build hierarchy metadata rules FailurePolicy.strict.handler = .ok g ∧
        Boundary hierarchy metadata rules g minutes clerk := by
  have hs : hierarchy.Sealed := Hierarchy.sealed_built discovery
  have hk : hierarchy.contains minutes = true := by decide +kernel
  obtain ⟨g, hg⟩ : ∃ g, build hierarchy metadata rules FailurePolicy.strict.handler = .ok g :=
    ⟨_, rfl⟩
  exact ⟨hs, hk, g, hg, boundary_of_build hs hg hk clerk⟩

end Lineage.ReadGuard
