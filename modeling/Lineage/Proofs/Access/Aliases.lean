import Lineage.Proofs.Access.Guard

/-!
# The aliases in effect

An attribute has another name for a caller if a rule on the caller says so, and
otherwise if an alias for all callers does (`EffectiveRules.newName?`). Aliases
for all callers are inherited like rules: a type's own ones come first, and then
those of its parents, the first parent first
(`ReadGuard.get?_aliases_rulesInEffect`).

The rules on a type can be compiled if for every caller, and for callers without
rules, the other names are unambiguous
(`ReadGuard.exists_compile_iff`). The order in which the rules are kept does not
matter for this.
-/

namespace Lineage

/-- The aliases of an attribute that are declared on a type, in order. -/
def RuleSet.aliasesOn (s : RuleSet) (k : TypeKey) (attr : String) : List TypeAlias :=
  s.aliases.filter fun a => a.typeKey = k ∧ a.name = attr

namespace EffectiveRules

variable (e : EffectiveRules)

/-- The other name of an attribute for a caller. -/
def newName? (c : Credential) (attr : String) : Option String :=
  (e.state? c attr).bind RuleState.newName <|> e.aliases.get? attr

variable {e}

theorem aliases_foldl_add (rs : List ReadRule) : (rs.foldl add e).aliases = e.aliases := by
  induction rs generalizing e with
  | nil => rfl
  | cons r rs ih => exact ih

/-- The last alias of an attribute counts. -/
theorem get?_aliases_foldl_addAlias (as : List TypeAlias) (attr : String) :
    (as.foldl addAlias e).aliases.get? attr =
      ((as.filter (·.name = attr)).getLast?.map TypeAlias.newName <|> e.aliases.get? attr) := by
  induction as generalizing e with
  | nil => rfl
  | cons a as ih =>
    rw [List.foldl_cons, ih, addAlias, Table.set, Table.get?_alter]
    by_cases ha : a.name = attr
    · rw [List.filter_cons_of_pos (by simpa using ha), List.getLast?_cons, if_pos ha.symm]
      cases (as.filter (·.name = attr)).getLast? <;> rfl
    · rw [List.filter_cons_of_neg (by simpa using ha), if_neg (Ne.symm ha)]

theorem distinct_aliases_foldl_addAlias (he : e.aliases.Distinct) (as : List TypeAlias) :
    (as.foldl addAlias e).aliases.Distinct := by
  induction as generalizing e with
  | nil => exact he
  | cons a as ih => exact ih (he.alter a.name _)

theorem distinct_aliases_foldl_inherit (he : e.aliases.Distinct) (parents : List EffectiveRules) :
    (parents.foldl inherit e).aliases.Distinct := by
  induction parents generalizing e with
  | nil => exact he
  | cons parent parents ih => exact ih (he.foldl_alter (fun v => (·.getD v)) parent.aliases)

/-- Aliases inherited from several parents are those of the first parent that has
    one. -/
theorem get?_aliases_foldl_inherit {parents : List EffectiveRules}
    (hp : ∀ parent ∈ parents, parent.aliases.Distinct) (attr : String) :
    (parents.foldl inherit e).aliases.get? attr =
      (e.aliases.get? attr <|> parents.findSome? (·.aliases.get? attr)) := by
  induction parents generalizing e with
  | nil =>
    rw [List.foldl_nil, List.findSome?_nil]
    cases e.aliases.get? attr <;> rfl
  | cons parent parents ih =>
    rcases List.forall_mem_cons.1 hp with ⟨hparent, hp⟩
    rw [List.foldl_cons, ih hp, inherit, Table.get?_extend hparent, List.findSome?_cons]
    cases e.aliases.get? attr <;> cases parent.aliases.get? attr <;> rfl

end EffectiveRules

/-! ### Unambiguous names -/

namespace Scope

theorem get?_aliasesBy {rules : CallerRules} (hr : rules.Distinct) (aliases : Table String String)
    (attr : String) :
    (aliasesBy aliases rules).get? attr =
      ((rules.get? attr).bind RuleState.newName <|> aliases.get? attr) := by
  induction rules generalizing aliases with
  | nil => rfl
  | cons r rules ih =>
    obtain ⟨hnone, hr⟩ := Table.distinct_cons.1 hr
    rw [aliasesBy, List.foldl_cons]
    refine (ih hr _).trans ?_
    rw [Table.get?_cons]
    cases hnew : r.2.newName with
    | none =>
      split_ifs with ha
      · rw [ha, hnone, Option.bind_some, hnew]
        rfl
      · rfl
    | some newName =>
      dsimp only
      rw [Table.set, Table.get?_alter]
      split_ifs with ha
      · rw [ha, hnone, Option.bind_some, hnew]
        rfl
      · rfl

theorem distinct_aliasesBy {aliases : Table String String} (ha : aliases.Distinct)
    (rules : CallerRules) : (aliasesBy aliases rules).Distinct := by
  induction rules generalizing aliases with
  | nil => exact ha
  | cons r rules ih =>
    rw [aliasesBy, List.foldl_cons]
    refine ih ?_
    split
    · exact ha.alter r.1 _
    · exact ha

/-- The other names of attributes are not the names of other attributes, and no
    two attributes share one. -/
structure Unambiguous (names : List String) (newName? : String → Option String) : Prop where
  /-- If another name is the name of an attribute, then of the same. -/
  own : ∀ attr newName, newName? attr = some newName → newName ∈ names → newName = attr
  /-- Different attributes have different other names. -/
  inj : ∀ a b newName, newName? a = some newName → newName? b = some newName → a = b

/-- A scope can be compiled if the other names in it are unambiguous. -/
theorem exists_compile_iff {c : Catalogue} {label : String} {rules : CallerRules}
    (hr : rules.Distinct) {aliases : Table String String} (ha : aliases.Distinct) :
    (∃ s, compile c label rules aliases = .ok s) ↔
      Unambiguous c.names fun attr =>
        (rules.get? attr).bind RuleState.newName <|> aliases.get? attr := by
  have hd := distinct_aliasesBy ha rules
  simp only [compile_eq_ok, exists_and_left, exists_eq, and_true, collision?_eq_none,
    hd.nodup_map_snd, get?_aliasesBy hr, List.not_mem_nil, not_false_iff, implies_true, true_and]
  constructor
  · rintro ⟨hown, hinj⟩
    refine ⟨fun attr newName hnew => ?_, hinj⟩
    exact hown (attr, newName) (hd.mem_iff.2 ((get?_aliasesBy hr aliases attr).trans hnew))
  · intro hu
    refine ⟨fun e he => ?_, hu.inj⟩
    exact hu.own e.1 e.2 ((get?_aliasesBy hr aliases e.1).symm.trans (hd.mem_iff.1 he))

end Scope

namespace ReadGuard

/-- The rules on a type can be compiled if they leave the other names unambiguous
    for every caller. -/
theorem exists_compile_iff {cat : Catalogue} {e : EffectiveRules} (he : e.Distinct)
    (ha : e.aliases.Distinct) :
    (∃ t, compile cat e = .ok t) ↔
      Scope.Unambiguous cat.names e.aliases.get? ∧
        ∀ c, Scope.Unambiguous cat.names (e.newName? c) := by
  have hcaller (c : Credential) (label : String) :
      (∃ sc, Scope.compile cat label ((e.callers.get? c).getD []) e.aliases = .ok sc) ↔
        Scope.Unambiguous cat.names (e.newName? c) := by
    rw [Scope.exists_compile_iff (he.getD c) ha]
    simp only [← EffectiveRules.state?_eq]
    rfl
  constructor
  · rintro ⟨t, ht⟩
    refine ⟨?_, fun c => ?_⟩
    · exact (Scope.exists_compile_iff Table.distinct_nil ha).1 ⟨_, compile_unrestricted ht⟩
    · obtain ⟨label, hsc⟩ := compile_scope ht c
      exact (hcaller c label).1 ⟨_, hsc⟩
  · rintro ⟨hu, hc⟩
    obtain ⟨unrestricted, hu⟩ : ∃ sc, Scope.compile cat anyCaller [] e.aliases = .ok sc :=
      (Scope.exists_compile_iff Table.distinct_nil ha).2 hu
    have hcompile : ∀ entry ∈ e.callers, ∃ compiled,
        (do return (entry.1, ← Scope.compile cat entry.1.name entry.2 e.aliases) :
          Except ConfigurationFault (Credential × Scope)) = .ok compiled := by
      intro entry hmem
      -- the rules listed with a caller are the ones that are looked up for it
      obtain ⟨sc, hsc⟩ := (hcaller entry.1 entry.1.name).2 (hc entry.1)
      rw [he.callers.mem_iff.1 hmem, Option.getD_some] at hsc
      exact ⟨(entry.1, sc), bind_eq_ok.2 ⟨sc, hsc, rfl⟩⟩
    obtain ⟨callers, hcallers⟩ := exists_mapM_eq_ok hcompile
    exact ⟨_, bind_eq_ok.2 ⟨_, hu, bind_eq_ok.2 ⟨_, hcallers, rfl⟩⟩⟩

/-! ### Inheritance over the hierarchy -/

variable {h : Hierarchy} (s : RuleSet)

/-- A type's own aliases: the last one of each attribute. -/
theorem get?_aliases_ownRules (k : TypeKey) (attr : String) :
    (ownRules s k).aliases.get? attr = (s.aliasesOn k attr).getLast?.map TypeAlias.newName := by
  have hfilter : (s.aliases.filter (·.typeKey = k)).filter (·.name = attr) = s.aliasesOn k attr := by
    rw [RuleSet.aliasesOn, List.filter_filter]
    refine List.filter_congr fun a _ => ?_
    rw [← Bool.decide_and]
    exact decide_eq_decide.2 and_comm
  rw [ownRules, EffectiveRules.get?_aliases_foldl_addAlias, EffectiveRules.aliases_foldl_add,
    hfilter, Table.get?_nil]
  cases (s.aliasesOn k attr).getLast? <;> rfl

theorem distinct_aliases_ownRules (k : TypeKey) : (ownRules s k).aliases.Distinct := by
  refine EffectiveRules.distinct_aliases_foldl_addAlias ?_ _
  rw [EffectiveRules.aliases_foldl_add]
  exact Table.distinct_nil

variable {root : TypeKey} (hw : h.WellFormed root) {n : Node} (hn : n ∈ h.nodes)
include hw hn

theorem distinct_aliases_rulesInEffect : (rulesInEffect h s n.key).aliases.Distinct := by
  rw [rulesInEffect_eq s hw hn]
  exact (EffectiveRules.distinct_aliases_foldl_inherit Table.distinct_nil _).foldl_alter
    (fun v _ => v) _

/-- The aliases in effect on a type are its own, and otherwise those of the first
    parent that has one. -/
theorem get?_aliases_rulesInEffect (attr : String) :
    (rulesInEffect h s n.key).aliases.get? attr =
      ((ownRules s n.key).aliases.get? attr <|>
        n.parents.findSome? fun k => (rulesInEffect h s k).aliases.get? attr) := by
  have hd : ∀ parent ∈ n.parents.map (rulesInEffect h s), parent.aliases.Distinct := by
    intro parent hp
    obtain ⟨k, hk, rfl⟩ := List.mem_map.1 hp
    obtain ⟨m, hm, rfl⟩ := hw.exists_parent hn hk
    exact distinct_aliases_rulesInEffect s hw hm
  rw [rulesInEffect_eq s hw hn, EffectiveRules.override,
    Table.get?_overlay (distinct_aliases_ownRules s n.key),
    EffectiveRules.get?_aliases_foldl_inherit hd, List.findSome?_map]
  rfl

end ReadGuard

end Lineage
