import Lineage.Proofs.Access.Rules

/-!
# Scopes

In a compiled scope a requested name stands for at most one attribute, its own
name or its alias: no alias is the name of another attribute, and no two
attributes share one (`Scope.collision?_eq_none`). So it does not matter that
aliases are looked up first (`Scope.Denotes.resolve_eq`,
`Scope.not_permits_iff`).

If the rules in effect grant some attribute to a caller, it may read the granted
ones, and otherwise all that are not hidden
(`EffectiveRules.authorizedBy_of_granted`,
`EffectiveRules.authorizedBy_of_not_granted`).
-/

namespace Lineage

namespace Scope

/-- The requested name stands for the attribute: it is its name, or its alias. -/
def Denotes (s : Scope) (name attr : String) : Prop :=
  name = attr ∨ (attr, name) ∈ s.aliases

instance (s : Scope) (name attr : String) : Decidable (s.Denotes name attr) :=
  inferInstanceAs (Decidable (_ ∨ _))

/-- Each requested name stands for an attribute that may be read, the one in the
    same place. -/
abbrev Resolves (s : Scope) (requested attrs : List String) : Prop :=
  List.Forall₂ (fun name attr => attr ∈ s.authorized ∧ s.Denotes name attr) requested attrs

/-- The requested name stands for no attribute that may be read. -/
def Offends (s : Scope) (name : String) : Prop :=
  ∀ attr ∈ s.authorized, ¬ s.Denotes name attr

instance (s : Scope) (name : String) : Decidable (s.Offends name) :=
  inferInstanceAs (Decidable (∀ attr ∈ s.authorized, ¬ s.Denotes name attr))

theorem Resolves.subset {s : Scope} {requested attrs : List String}
    (h : s.Resolves requested attrs) : attrs ⊆ s.authorized := by
  induction h with
  | nil => exact List.nil_subset _
  | cons hname _ ih => exact List.cons_subset.2 ⟨hname.1, ih⟩

/-! ### Aliases -/

/-- Aliases without a collision are not the names of other attributes, and no
    two of them are the same. -/
theorem collision?_eq_none {names earlier : List String} {aliases : Table String String} :
    collision? names earlier aliases = none ↔
      (∀ e ∈ aliases, e.2 ∈ names → e.2 = e.1) ∧ (∀ e ∈ aliases, e.2 ∉ earlier) ∧
        (aliases.map Prod.snd).Nodup := by
  induction aliases generalizing earlier with
  | nil => simp [collision?]
  | cons e aliases ih =>
    obtain ⟨name, newName⟩ := e
    rw [collision?]
    split_ifs with hc
    · refine iff_of_false (by simp) fun ⟨hnames, hearlier, _⟩ => ?_
      rcases hc with ⟨hne, hmem⟩ | hmem
      · exact hne (hnames _ List.mem_cons_self (List.contains_iff_mem.1 hmem))
      · exact hearlier _ List.mem_cons_self (List.contains_iff_mem.1 hmem)
    · rw [not_or, not_and, List.contains_iff_mem, List.contains_iff_mem] at hc
      obtain ⟨hname, hnew⟩ := hc
      rw [ih, List.forall_mem_cons, List.forall_mem_cons, List.map_cons, List.nodup_cons,
        List.mem_map]
      simp only [List.mem_cons, not_or]
      constructor
      · rintro ⟨hnames, hearlier, hnd⟩
        refine ⟨⟨fun h => by_contra fun hne => hname hne h, hnames⟩, ⟨hnew, fun e he => ?_⟩, ?_, hnd⟩
        · exact (hearlier e he).2
        · rintro ⟨e, he, h⟩
          exact (hearlier e he).1 h
      · rintro ⟨⟨_, hnames⟩, ⟨_, hearlier⟩, hnot, hnd⟩
        exact ⟨hnames, fun e he => ⟨fun h => hnot ⟨e, he, h⟩, hearlier e he⟩, hnd⟩

/-- What a scope is compiled to. -/
theorem compile_eq_ok {c : Catalogue} {label : String} {rules : CallerRules}
    {aliases : Table String String} {s : Scope} :
    compile c label rules aliases = .ok s ↔
      collision? c.names [] (aliasesBy aliases rules) = none ∧
        s = ⟨authorizedBy c.names rules, aliasesBy aliases rules⟩ := by
  rw [compile]
  cases collision? c.names [] (aliasesBy aliases rules) <;> simp [eq_comm]

theorem resolve_eq_self {s : Scope} {name : String} (h : ∀ attr, (attr, name) ∉ s.aliases) :
    s.resolve name = name := by
  rw [resolve]
  cases hf : s.aliases.find? (·.2 = name) with
  | none => rfl
  | some e =>
    have hname : e.2 = name := by simpa using List.find?_some hf
    exact absurd (hname ▸ List.mem_of_find?_eq_some hf) (h e.1)

section Compiled

variable {c : Catalogue} {label : String} {rules : CallerRules} {aliases : Table String String}
  {s : Scope} (hs : compile c label rules aliases = .ok s)
include hs

/-- What may be read are attributes of the catalogue, in its order. -/
theorem authorized_sublist : s.authorized.Sublist c.names := by
  rw [(compile_eq_ok.1 hs).2, authorizedBy]
  split_ifs <;> exact List.filter_sublist

theorem resolve_eq_of_mem_aliases {attr name : String}
    (h : (attr, name) ∈ s.aliases) : s.resolve name = attr := by
  obtain ⟨hc, rfl⟩ := compile_eq_ok.1 hs
  obtain ⟨_, _, hnd⟩ := collision?_eq_none.1 hc
  rw [resolve]
  cases hf : List.find? (fun e => decide (e.2 = name)) (aliasesBy aliases rules) with
  | none =>
    have := List.find?_eq_none.1 hf _ h
    simp at this
  | some e =>
    have hname : e.2 = name := by simpa using List.find?_some hf
    have := List.inj_on_of_nodup_map hnd (List.mem_of_find?_eq_some hf) h hname
    rw [this]

/-- An attribute is found under its own name, which is not captured by the alias
    of another. -/
theorem resolve_eq_of_mem_names {name : String} (h : name ∈ c.names) : s.resolve name = name := by
  obtain ⟨hc, rfl⟩ := compile_eq_ok.1 hs
  obtain ⟨hnames, _, _⟩ := collision?_eq_none.1 hc
  -- an alias of that name can only be the attribute's own
  by_cases ha : ∃ attr, (attr, name) ∈ aliasesBy aliases rules
  · obtain ⟨attr, ha⟩ := ha
    rw [resolve_eq_of_mem_aliases hs ha]
    exact (hnames _ ha h).symm
  · exact resolve_eq_self (not_exists.1 ha)

theorem resolve_eq_of_mem_authorized {name : String} (h : name ∈ s.authorized) :
    s.resolve name = name :=
  resolve_eq_of_mem_names hs ((authorized_sublist hs).subset h)

/-- A name that stands for an attribute that may be read is resolved to it. -/
theorem Denotes.resolve_eq {name attr : String} (h : s.Denotes name attr)
    (hmem : attr ∈ s.authorized) : s.resolve name = attr := by
  obtain rfl | ha := h
  · exact resolve_eq_of_mem_authorized hs hmem
  · exact resolve_eq_of_mem_aliases hs ha

theorem denotes_resolve (name : String) : s.Denotes name (s.resolve name) := by
  by_cases ha : ∃ attr, (attr, name) ∈ s.aliases
  · obtain ⟨attr, ha⟩ := ha
    exact .inr (resolve_eq_of_mem_aliases hs ha ▸ ha)
  · exact .inl (resolve_eq_self (not_exists.1 ha)).symm

/-- The names that are not permitted are those that offend. -/
theorem not_permits_iff {name : String} : (!s.permits name) = true ↔ s.Offends name := by
  rw [Bool.not_eq_true', ← Bool.not_eq_true, permits, List.contains_iff_mem]
  constructor
  · intro hnot attr hmem h
    exact hnot (h.resolve_eq hs hmem ▸ hmem)
  · intro h hmem
    exact h _ hmem (denotes_resolve hs name)

theorem Resolves.map_resolve_eq {requested attrs : List String} (h : s.Resolves requested attrs) :
    requested.map s.resolve = attrs := by
  induction h with
  | nil => rfl
  | cons hname _ ih => rw [List.map_cons, ih, hname.2.resolve_eq hs hname.1]

/-- A request resolves if no name offends. -/
theorem exists_resolves {requested : List String} :
    (∃ attrs, s.Resolves requested attrs) ↔ ∀ name ∈ requested, ¬ s.Offends name := by
  constructor
  · rintro ⟨attrs, h⟩
    induction h with
    | nil => exact fun _ h => absurd h List.not_mem_nil
    | cons hname _ ih => exact List.forall_mem_cons.2 ⟨fun h => h _ hname.1 hname.2, ih⟩
  · intro h
    refine ⟨requested.map s.resolve, ?_⟩
    rw [Resolves, List.forall₂_map_right_iff, List.forall₂_same]
    intro name hname
    refine ⟨?_, denotes_resolve hs name⟩
    have := mt (not_permits_iff hs).1 (h name hname)
    simpa [permits] using this

end Compiled

end Scope

/-! ### What may be read -/

namespace EffectiveRules

variable {e : EffectiveRules} (he : e.Distinct) {c : Credential} (names : List String)
include he

theorem any_granted :
    (((e.callers.get? c).getD []).any fun r => r.2.visible = some true) = true ↔
      ∃ name, e.visibility c name = some true := by
  simp only [List.any_eq_true, decide_eq_true_eq, visibility, state?_eq,
    Option.bind_eq_some_iff, Prod.exists]
  exact exists_congr fun name => exists_congr fun r => and_congr_left fun _ =>
    (he.getD c).mem_iff

/-- If some attribute is granted, the granted ones may be read. -/
theorem authorizedBy_of_granted (hg : ∃ name, e.visibility c name = some true) :
    Scope.authorizedBy names ((e.callers.get? c).getD []) =
      names.filter fun name => e.visibility c name = some true := by
  rw [Scope.authorizedBy, if_pos ((any_granted he).2 hg)]
  simp only [visibility, state?_eq]

/-- Otherwise all may be read that are not hidden. -/
theorem authorizedBy_of_not_granted (hg : ∀ name, e.visibility c name ≠ some true) :
    Scope.authorizedBy names ((e.callers.get? c).getD []) =
      names.filter fun name => e.visibility c name ≠ some false := by
  rw [Scope.authorizedBy, if_neg (mt (any_granted he).1 (not_exists.2 hg))]
  simp only [visibility, state?_eq]

end EffectiveRules

/-- What may be read depends on the visibility of attributes only. -/
theorem ReadGuard.authorizedBy_congr {e e' : EffectiveRules} {c' : Credential} (he : e.Distinct)
    (he' : e'.Distinct) (hv : ∀ name, e'.visibility c' name = e.visibility c' name)
    (names : List String) :
    Scope.authorizedBy names ((e'.callers.get? c').getD []) =
      Scope.authorizedBy names ((e.callers.get? c').getD []) := by
  by_cases hg : ∃ name, e.visibility c' name = some true
  · rw [EffectiveRules.authorizedBy_of_granted he names hg,
      EffectiveRules.authorizedBy_of_granted he' names (by simpa only [hv] using hg)]
    simp only [hv]
  · have hg := not_exists.1 hg
    rw [EffectiveRules.authorizedBy_of_not_granted he names hg,
      EffectiveRules.authorizedBy_of_not_granted he' names (by simpa only [hv] using hg)]
    simp only [hv]

end Lineage
