import Lineage.Access.Guard
import Lineage.Proofs.Hierarchy.Traversal
import Lineage.Proofs.Table

/-!
# The rules in effect

What the rules in effect on a type say of a caller and an attribute
(`EffectiveRules.state?`) is what the first of its parents with a rule on them
says, overridden by what the type's own rules say
(`ReadGuard.state?_rulesInEffect`). No other rules matter, nor does the order in
which the types are traversed.

The tables in which the rules are kept stay without repeated keys all the time
(`EffectiveRules.Distinct`).
-/

namespace Lineage

/-- The rules on an attribute of a type that are declared for a caller, in
    order. -/
def RuleSet.rulesOn (s : RuleSet) (k : TypeKey) (c : Credential) (name : String) :
    List ReadRule :=
  s.rules.filter fun r => r.typeKey = k ∧ r.credential = c ∧ r.name = name

/-- Overrides a rule, if there is one, by another, if there is one. -/
def RuleState.overrideBy : Option RuleState → Option RuleState → Option RuleState
  | s, none => s
  | s, some t => some ((s.getD {}).override t)

/-- Rules on a caller are overridden attribute by attribute. -/
theorem CallerRules.get?_overrideAll {new : CallerRules} (hnew : new.Distinct)
    (rules : CallerRules) (name : String) :
    (rules.overrideAll new).get? name =
      RuleState.overrideBy (rules.get? name) (new.get? name) := by
  rw [overrideAll]
  refine (Table.get?_foldl_alter (fun s old => (old.getD {}).override s) hnew rules name).trans ?_
  cases new.get? name <;> rfl

theorem CallerRules.distinct_overrideAll {rules : CallerRules} (hr : rules.Distinct)
    (new : CallerRules) : (rules.overrideAll new).Distinct :=
  hr.foldl_alter (fun s old => (old.getD {}).override s) new

namespace EffectiveRules

variable (e : EffectiveRules)

/-- The rule on an attribute, as a caller sees it. -/
def state? (c : Credential) (name : String) : Option RuleState :=
  (e.callers.get? c).bind (·.get? name)

/-- Whether the attribute is granted to the caller or hidden from it, if
    anything is said on it. -/
def visibility (c : Credential) (name : String) : Option Bool :=
  (e.state? c name).bind RuleState.visible

/-- No caller and no attribute of a caller occurs twice. -/
structure Distinct : Prop where
  /-- No caller occurs twice. -/
  callers : e.callers.Distinct
  /-- For no caller an attribute occurs twice. -/
  rules : ∀ c rules, e.callers.get? c = some rules → rules.Distinct

variable {e}

theorem state?_eq (c : Credential) (name : String) :
    e.state? c name = ((e.callers.get? c).getD []).get? name := by
  rw [state?]
  cases e.callers.get? c <;> rfl

theorem Distinct.getD (he : e.Distinct) (c : Credential) :
    ((e.callers.get? c).getD []).Distinct := by
  cases hc : e.callers.get? c with
  | none => exact Table.distinct_nil
  | some rules => exact he.rules c rules hc

theorem distinct_empty : Distinct {} :=
  ⟨Table.distinct_nil, fun _ _ h => absurd h (by simp)⟩

/-! ### A type's own rules -/

/-- One more rule overrides what is said of its caller and its attribute, and nothing else. -/
theorem state?_add (r : ReadRule) (c : Credential) (name : String) :
    (e.add r).state? c name = RuleState.overrideBy (e.state? c name)
      (if c = r.credential ∧ name = r.name then some ⟨r.visible, r.newName⟩ else none) := by
  rw [state?_eq, state?_eq, add, Table.get?_alter]
  by_cases hc : c = r.credential
  · subst hc
    rw [if_pos rfl, Option.getD_some, CallerRules.override, Table.get?_alter]
    by_cases hn : name = r.name
    · rw [if_pos hn, if_pos ⟨rfl, hn⟩, hn, RuleState.overrideBy]
    · rw [if_neg hn, if_neg fun h => hn h.2, RuleState.overrideBy]
  · rw [if_neg hc, if_neg fun h => hc h.1, RuleState.overrideBy]

/-- Of the rules that are added those on the caller and the attribute matter, one
    after the other. -/
theorem state?_foldl_add (rs : List ReadRule) (c : Credential) (name : String) :
    (rs.foldl EffectiveRules.add e).state? c name =
      (rs.filter fun r => r.credential = c ∧ r.name = name).foldl
        (fun old r => RuleState.overrideBy old (some ⟨r.visible, r.newName⟩)) (e.state? c name) := by
  induction rs generalizing e with
  | nil => rfl
  | cons r rs ih =>
    rw [List.foldl_cons, ih, state?_add]
    by_cases hr : r.credential = c ∧ r.name = name
    · rw [List.filter_cons_of_pos (by simpa using hr), List.foldl_cons,
        if_pos ⟨hr.1.symm, hr.2.symm⟩]
    · rw [List.filter_cons_of_neg (by simpa using hr),
        if_neg fun h => hr ⟨h.1.symm, h.2.symm⟩, RuleState.overrideBy]

theorem Distinct.add (he : e.Distinct) (r : ReadRule) : (e.add r).Distinct where
  callers := he.callers.alter r.credential _
  rules c rules hc := by
    rw [EffectiveRules.add, Table.get?_alter] at hc
    split_ifs at hc with h
    · rw [← Option.some.inj hc]
      exact (he.getD r.credential).alter r.name _
    · exact he.rules c rules hc

theorem Distinct.foldl_add (he : e.Distinct) (rs : List ReadRule) :
    (rs.foldl EffectiveRules.add e).Distinct := by
  induction rs generalizing e with
  | nil => exact he
  | cons r rs ih => exact ih (he.add r)

theorem callers_foldl_addAlias (as : List TypeAlias) :
    (as.foldl addAlias e).callers = e.callers := by
  induction as generalizing e with
  | nil => rfl
  | cons a as ih => exact ih

/-! ### Inheriting and overriding -/

/-- What is said already stays, and where nothing is the rule of the parent is taken over. -/
theorem state?_inherit {parent : EffectiveRules} (hp : parent.Distinct) (c : Credential)
    (name : String) :
    (e.inherit parent).state? c name = (e.state? c name <|> parent.state? c name) := by
  rw [state?_eq, state?_eq, state?, inherit]
  rw [Table.get?_foldl_alter (fun rules old => Table.extend (old.getD []) rules) hp.callers]
  cases hc : parent.callers.get? c with
  | none => cases Table.get? ((e.callers.get? c).getD []) name <;> rfl
  | some rules => exact Table.get?_extend (hp.rules c rules hc) _ name

theorem Distinct.inherit (he : e.Distinct) {parent : EffectiveRules} (hp : parent.Distinct) :
    (e.inherit parent).Distinct where
  callers := he.callers.foldl_alter (fun rules old => Table.extend (old.getD []) rules) _
  rules c rules hc := by
    rw [EffectiveRules.inherit,
      Table.get?_foldl_alter (fun rules old => Table.extend (old.getD []) rules) hp.callers] at hc
    split at hc
    next new _ =>
      rw [← Option.some.inj hc]
      exact (he.getD c).foldl_alter (fun v => (·.getD v)) new
    next => exact he.rules c rules hc

/-- Rules inherited from several parents are those of the first parent that has
    one. -/
theorem state?_foldl_inherit {parents : List EffectiveRules}
    (hp : ∀ parent ∈ parents, parent.Distinct) (c : Credential) (name : String) :
    (parents.foldl inherit e).state? c name =
      (e.state? c name <|> parents.findSome? (·.state? c name)) := by
  induction parents generalizing e with
  | nil =>
    rw [List.foldl_nil, List.findSome?_nil]
    cases e.state? c name <;> rfl
  | cons parent parents ih =>
    obtain ⟨hparent, hp⟩ := List.forall_mem_cons.1 hp
    rw [List.foldl_cons, ih hp, state?_inherit hparent, List.findSome?_cons]
    cases e.state? c name <;> cases parent.state? c name <;> rfl

theorem Distinct.foldl_inherit (he : e.Distinct) {parents : List EffectiveRules}
    (hp : ∀ parent ∈ parents, parent.Distinct) :
    (parents.foldl EffectiveRules.inherit e).Distinct := by
  induction parents generalizing e with
  | nil => exact he
  | cons parent parents ih =>
    obtain ⟨hparent, hp⟩ := List.forall_mem_cons.1 hp
    exact ih (he.inherit hparent) hp

/-- A type's own rules override what is inherited, each on its caller and its attribute. -/
theorem state?_override {own : EffectiveRules} (ho : own.Distinct) (c : Credential)
    (name : String) :
    (e.override own).state? c name =
      RuleState.overrideBy (e.state? c name) (own.state? c name) := by
  rw [state?_eq, state?_eq, state?, override]
  rw [Table.get?_foldl_alter (fun rules old => CallerRules.overrideAll (old.getD []) rules)
    ho.callers]
  cases hc : own.callers.get? c with
  | none => rfl
  | some rules => exact CallerRules.get?_overrideAll (ho.rules c rules hc) _ name

theorem Distinct.override (he : e.Distinct) {own : EffectiveRules} (ho : own.Distinct) :
    (e.override own).Distinct where
  callers := he.callers.foldl_alter (fun rules old => CallerRules.overrideAll (old.getD []) rules) _
  rules c rules hc := by
    rw [EffectiveRules.override,
      Table.get?_foldl_alter (fun rules old => CallerRules.overrideAll (old.getD []) rules)
        ho.callers] at hc
    split at hc
    next new _ =>
      rw [← Option.some.inj hc]
      exact CallerRules.distinct_overrideAll (he.getD c) new
    next => exact he.rules c rules hc

end EffectiveRules

namespace ReadGuard

variable (h : Hierarchy) (s : RuleSet)

theorem distinct_ownRules (k : TypeKey) : (ownRules s k).Distinct := by
  have hd := EffectiveRules.distinct_empty.foldl_add (s.rules.filter (·.typeKey = k))
  have hc := EffectiveRules.callers_foldl_addAlias
    (e := (s.rules.filter (·.typeKey = k)).foldl .add {}) (s.aliases.filter (·.typeKey = k))
  exact ⟨hc ▸ hd.callers, hc ▸ hd.rules⟩

/-- A type's own rules say of an attribute what those on the caller and the
    attribute say, one after the other. -/
theorem state?_ownRules (k : TypeKey) (c : Credential) (name : String) :
    (ownRules s k).state? c name = (s.rulesOn k c name).foldl
      (fun old r => RuleState.overrideBy old (some ⟨r.visible, r.newName⟩)) none := by
  have hfilter : ((s.rules.filter (·.typeKey = k)).filter fun r =>
      r.credential = c ∧ r.name = name) = s.rulesOn k c name := by
    rw [RuleSet.rulesOn, List.filter_filter]
    refine List.filter_congr fun r _ => ?_
    rw [← Bool.decide_and]
    exact decide_eq_decide.2 and_comm
  rw [ownRules, EffectiveRules.state?, EffectiveRules.callers_foldl_addAlias,
    ← EffectiveRules.state?, EffectiveRules.state?_foldl_add, hfilter]
  rfl

/-- What one more rule changes in the rules of its own type. -/
theorem state?_ownRules_add (r : ReadRule) (k : TypeKey) (c : Credential) (name : String) :
    (ownRules (s.add r) k).state? c name = RuleState.overrideBy ((ownRules s k).state? c name)
      (if k = r.typeKey ∧ c = r.credential ∧ name = r.name then some ⟨r.visible, r.newName⟩
        else none) := by
  have hstate (s : RuleSet) : (ownRules s k).state? c name =
      ((s.rules.filter (·.typeKey = k)).foldl .add ({} : EffectiveRules)).state? c name := by
    rw [EffectiveRules.state?, EffectiveRules.state?, ownRules,
      EffectiveRules.callers_foldl_addAlias]
  rw [hstate, hstate, RuleSet.add, List.filter_append]
  by_cases hk : r.typeKey = k
  · rw [List.filter_cons_of_pos (by simpa using hk), List.filter_nil, List.foldl_append,
      List.foldl_cons, List.foldl_nil, EffectiveRules.state?_add]
    simp only [hk, true_and]
  · rw [List.filter_cons_of_neg (by simpa using hk), List.filter_nil, List.append_nil,
      if_neg fun h => hk h.1.symm, RuleState.overrideBy]

/-! ### Inheritance over the hierarchy -/

/-- The rules in effect on all types, in traversal order. -/
def resolved : List (TypeKey × EffectiveRules) :=
  h.passDown fun resolved n => effective resolved s n

/-- The rules in effect on a type. -/
def rulesInEffect (k : TypeKey) : EffectiveRules :=
  ((resolved h s).lookup k).getD {}

variable {h} {root : TypeKey} (hw : h.WellFormed root)
include hw

theorem lookup_resolved :
    (∀ k, ((resolved h s).lookup k).isSome = h.contains k) ∧
      ∀ n ∈ h.nodes, (resolved h s).lookup n.key = some (effective (resolved h s) s n) :=
  hw.lookup_passDown (f := fun resolved n => effective resolved s n) fun made made' n hsame => by
    rw [effective, effective, List.filterMap_congr hsame]

theorem rulesInEffect_eq_effective {n : Node} (hn : n ∈ h.nodes) :
    rulesInEffect h s n.key = effective (resolved h s) s n := by
  rw [rulesInEffect, (lookup_resolved s hw).2 n hn, Option.getD_some]

theorem mem_resolved {e : TypeKey × EffectiveRules} (he : e ∈ resolved h s) :
    ∃ n ∈ h.nodes, (n.key, rulesInEffect h s n.key) = e := by
  have hkeys := Hierarchy.map_fst_passDown (f := fun resolved n => effective resolved s n) h
  have hd : Table.Distinct (resolved h s) := by
    rw [Table.Distinct, resolved, hkeys]
    exact hw.traverses_toList.1.nodup.1
  obtain ⟨n, hn, hk⟩ : ∃ n ∈ h.toList, n.key = e.1 := by
    rw [← List.mem_map, ← Hierarchy.keys, ← hkeys]
    exact List.mem_map_of_mem he
  have hrules : (resolved h s).lookup e.1 = some e.2 := hd.mem_iff.1 he
  refine ⟨n, hw.toList_perm.mem_iff.1 hn, ?_⟩
  rw [rulesInEffect, hk, hrules, Option.getD_some]

variable {n : Node} (hn : n ∈ h.nodes)
include hn

/-- The rules in effect on a type are those on its parents, overridden by its
    own. -/
theorem rulesInEffect_eq :
    rulesInEffect h s n.key =
      EffectiveRules.override ((n.parents.map (rulesInEffect h s)).foldl EffectiveRules.inherit {})
        (ownRules s n.key) := by
  have hparents : n.parents.filterMap (fun k => (resolved h s).lookup k) =
      n.parents.map (rulesInEffect h s) := by
    rw [← List.filterMap_eq_map]
    refine List.filterMap_congr fun k hk => ?_
    obtain ⟨m, hm, rfl⟩ := hw.exists_parent hn hk
    rw [(lookup_resolved s hw).2 m hm, Function.comp_apply, rulesInEffect_eq_effective s hw hm]
  rw [rulesInEffect_eq_effective s hw hn, effective, hparents]

theorem distinct_rulesInEffect : (rulesInEffect h s n.key).Distinct := by
  revert n
  refine @(hw.parents_induction fun n hn ih => ?_)
  rw [rulesInEffect_eq s hw hn]
  refine (EffectiveRules.distinct_empty.foldl_inherit fun parent hp => ?_).override
    (distinct_ownRules s n.key)
  obtain ⟨k, hk, rfl⟩ := List.mem_map.1 hp
  obtain ⟨m, hm, rfl⟩ := hw.exists_parent hn hk
  exact ih m (hw.mem_parents.2 ⟨hm, hk⟩)

/-- What is said of a caller and an attribute is what the first parent with a
    rule on them says, overridden by the type's own rules. -/
theorem state?_rulesInEffect (c : Credential) (name : String) :
    (rulesInEffect h s n.key).state? c name = RuleState.overrideBy
      (n.parents.findSome? fun k => (rulesInEffect h s k).state? c name)
      ((ownRules s n.key).state? c name) := by
  have hd : ∀ parent ∈ n.parents.map (rulesInEffect h s), parent.Distinct := by
    intro parent hp
    obtain ⟨k, hk, rfl⟩ := List.mem_map.1 hp
    obtain ⟨m, hm, rfl⟩ := hw.exists_parent hn hk
    exact distinct_rulesInEffect s hw hm
  rw [rulesInEffect_eq s hw hn, EffectiveRules.state?_override (distinct_ownRules s n.key),
    EffectiveRules.state?_foldl_inherit hd, List.findSome?_map]
  rfl

end ReadGuard

end Lineage
