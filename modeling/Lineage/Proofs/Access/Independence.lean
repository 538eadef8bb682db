import Lineage.Proofs.Access.Aliases
import Lineage.Proofs.Hierarchy.Ancestors

/-!
# What the answers depend on

What a guard answers to a caller on a type depends on the rules on this caller
and on the aliases that are declared on the type and its ancestors. Rules on
other callers and other types do not matter, nor does the order in which rules
and aliases of different attributes were contributed
(`ReadGuard.sameAnswers_of_agreeOn`).

The rules in effect on a type are found from the rules on the parents. So it is
enough that they agree on a type if they do on its parents
(`ReadGuard.agreeFor_rulesInEffect`), and that scopes which are compiled from
rules that agree answer the same (`ReadGuard.agreeFor_compile`).
-/

namespace Lineage

/-- Both sets have the same rules on a caller and the same aliases on a type, each
    attribute's in the same order. -/
structure RuleSet.AgreeOn (s s' : RuleSet) (k : TypeKey) (c : Credential) : Prop where
  rules : ∀ attr, s.rulesOn k c attr = s'.rulesOn k c attr
  aliases : ∀ attr, s.aliasesOn k attr = s'.aliasesOn k attr

namespace EffectiveRules

variable {e e' : EffectiveRules} {c : Credential}

/-- Both say the same of every attribute, as the caller sees it. -/
structure AgreeFor (c : Credential) (e e' : EffectiveRules) : Prop where
  state : ∀ attr, e.state? c attr = e'.state? c attr
  aliases : ∀ attr, e.aliases.get? attr = e'.aliases.get? attr

theorem AgreeFor.newName?_eq (ha : AgreeFor c e e') : e.newName? c = e'.newName? c := by
  funext attr
  rw [newName?, newName?, ha.state, ha.aliases]

/-- Rules that agree for a caller grant it and hide from it the same attributes. -/
theorem AgreeFor.visibility_eq (ha : AgreeFor c e e') (attr : String) :
    e'.visibility c attr = e.visibility c attr := by
  rw [visibility, visibility, ha.state]

/-- A caller is only listed if there is a rule on it. -/
def Occupied (e : EffectiveRules) : Prop :=
  ∀ c, (e.callers.get? c).isSome = true → ∃ attr, (e.state? c attr).isSome = true

theorem Occupied.isSome_iff (he : e.Occupied) :
    (e.callers.get? c).isSome = true ↔ ∃ attr, (e.state? c attr).isSome = true := by
  refine ⟨he c, fun ⟨attr, hattr⟩ => ?_⟩
  rw [state?] at hattr
  exact Option.isSome_of_isSome_bind hattr

theorem occupied_empty : Occupied {} :=
  fun _ hc => nomatch hc

/-- A rule that is added is one on its caller, and those on the others are left. -/
theorem Occupied.add (he : e.Occupied) (r : ReadRule) : (e.add r).Occupied := by
  intro c hc
  by_cases hr : c = r.credential
  · refine ⟨r.name, ?_⟩
    rw [state?_add, if_pos ⟨hr, rfl⟩]
    rfl
  · rw [EffectiveRules.add, Table.get?_alter, if_neg hr] at hc
    rcases he c hc with ⟨attr, hattr⟩
    refine ⟨attr, ?_⟩
    rwa [state?_add, if_neg fun h => hr h.1]

theorem Occupied.foldl_add (he : e.Occupied) (rs : List ReadRule) :
    (rs.foldl EffectiveRules.add e).Occupied := by
  induction rs generalizing e with
  | nil => exact he
  | cons r rs ih => exact ih (he.add r)

/-- A caller that a parent lists has a rule there, which is taken over unless there is one
    already. -/
theorem Occupied.inherit (he : e.Occupied) {parent : EffectiveRules} (hd : parent.Distinct)
    (hp : parent.Occupied) : (e.inherit parent).Occupied := by
  intro c hc
  rw [EffectiveRules.inherit,
    Table.get?_foldl_alter (fun rules old => Table.extend (old.getD []) rules) hd.callers] at hc
  simp only [state?_inherit hd]
  cases hparent : parent.callers.get? c with
  | none =>
    rw [hparent] at hc
    rcases he c hc with ⟨attr, hattr⟩
    exact ⟨attr, by simp [hattr]⟩
  | some rules =>
    rcases hp c (by rw [hparent]; rfl) with ⟨attr, hattr⟩
    exact ⟨attr, by simp [hattr]⟩

theorem Occupied.foldl_inherit (he : e.Occupied) {parents : List EffectiveRules}
    (hp : ∀ parent ∈ parents, parent.Distinct ∧ parent.Occupied) :
    (parents.foldl EffectiveRules.inherit e).Occupied := by
  induction parents generalizing e with
  | nil => exact he
  | cons parent parents ih =>
    rcases List.forall_mem_cons.1 hp with ⟨⟨hd, hparent⟩, hp⟩
    exact ih (he.inherit hd hparent) hp

theorem Occupied.override (he : e.Occupied) {own : EffectiveRules} (hd : own.Distinct)
    (ho : own.Occupied) : (e.override own).Occupied := by
  intro c hc
  rw [EffectiveRules.override,
    Table.get?_foldl_alter (fun rules old => CallerRules.overrideAll (old.getD []) rules)
      hd.callers] at hc
  simp only [state?_override hd]
  cases hown : own.callers.get? c with
  | none =>
    rw [hown] at hc
    rcases he c hc with ⟨attr, hattr⟩
    refine ⟨attr, ?_⟩
    cases own.state? c attr with
    | none => exact hattr
    | some t => rfl
  | some rules =>
    rcases ho c (by rw [hown]; rfl) with ⟨attr, hattr⟩
    refine ⟨attr, ?_⟩
    rcases Option.isSome_iff_exists.1 hattr with ⟨t, ht⟩
    rw [ht]
    rfl

end EffectiveRules

/-! ### Scopes -/

/-- Names are resolved alike in scopes with the same aliases, kept in any order. -/
theorem Scope.resolve_congr {cat cat' : Catalogue} {label label' : String}
    {rules rules' : CallerRules} {aliases aliases' : Table String String} {s s' : Scope}
    (hs : compile cat label rules aliases = .ok s)
    (hs' : compile cat' label' rules' aliases' = .ok s') (hd : s.aliases.Distinct)
    (hd' : s'.aliases.Distinct)
    (hget : ∀ attr, s.aliases.get? attr = s'.aliases.get? attr) (name : String) :
    s.resolve name = s'.resolve name := by
  have hmem (attr : String) : (attr, name) ∈ s.aliases ↔ (attr, name) ∈ s'.aliases := by
    rw [hd.mem_iff, hd'.mem_iff, hget]
  by_cases ha : ∃ attr, (attr, name) ∈ s.aliases
  · -- the attribute with that alias is the only one in either scope
    obtain ⟨attr, ha⟩ := ha
    rw [resolve_eq_of_mem_aliases hs ha, resolve_eq_of_mem_aliases hs' ((hmem attr).1 ha)]
  · have ha' (attr : String) : (attr, name) ∉ s'.aliases := fun h => ha ⟨attr, (hmem attr).2 h⟩
    rw [resolve_eq_self (not_exists.1 ha), resolve_eq_self ha']

/-- Both answer the same to the caller. -/
structure TypeScopes.AgreeFor (c : Credential) (t t' : TypeScopes) : Prop where
  authorized : (t.scope c).authorized = (t'.scope c).authorized
  resolve : ∀ name, (t.scope c).resolve name = (t'.scope c).resolve name
  aliasOf : ∀ attr, (t.scope c).aliasOf attr = (t'.scope c).aliasOf attr
  unrestricted : ∀ attr, t.unrestricted.aliasOf attr = t'.unrestricted.aliasOf attr
  listed : (t.callers.get? c).isSome = (t'.callers.get? c).isSome

namespace ReadGuard

variable {cat : Catalogue} {e e' : EffectiveRules} {t t' : TypeScopes} {c : Credential}

/-- The callers on a type are those with rules in effect. -/
theorem isSome_callers (ht : compile cat e = .ok t) (c : Credential) :
    (t.callers.get? c).isSome = (e.callers.get? c).isSome := by
  obtain ⟨unrestricted, _, ht⟩ := bind_eq_ok.1 ht
  obtain ⟨callers, hcallers, ht⟩ := bind_eq_ok.1 ht
  obtain rfl := pure_eq_ok.1 ht
  have hrel : List.Forall₂ (fun a b => a.1 = b.1 ∧ True) e.callers callers := by
    refine (mapM_eq_ok.1 hcallers).imp fun a b hab => ?_
    obtain ⟨scope, _, hb⟩ := bind_eq_ok.1 hab
    obtain rfl := pure_eq_ok.1 hb
    exact ⟨rfl, trivial⟩
  have hlookup := Table.rel_lookup (R := fun _ _ _ => True) hrel c
  generalize e.callers.get? c = rules, Table.get? callers c = scope at hlookup ⊢
  cases hlookup <;> rfl

theorem get?_aliases_scope (ht : compile cat e = .ok t) (he : e.Distinct) (attr : String) :
    (t.scope c).aliases.get? attr = e.newName? c attr := by
  obtain ⟨label, hsc⟩ := compile_scope ht c
  rw [(Scope.compile_eq_ok.1 hsc).2, Scope.get?_aliasesBy (he.getD c), ← EffectiveRules.state?_eq]
  rfl

theorem distinct_aliases_scope (ht : compile cat e = .ok t) (ha : e.aliases.Distinct)
    (c : Credential) : (t.scope c).aliases.Distinct := by
  obtain ⟨label, hsc⟩ := compile_scope ht c
  rw [(Scope.compile_eq_ok.1 hsc).2]
  exact Scope.distinct_aliasesBy ha _

/-- Scopes that are compiled from rules which agree answer the same. -/
theorem agreeFor_compile (ht : compile cat e = .ok t) (ht' : compile cat e' = .ok t')
    (he : e.Distinct) (he' : e'.Distinct) (ha : e.aliases.Distinct) (ha' : e'.aliases.Distinct)
    (ho : e.Occupied) (ho' : e'.Occupied) (hagree : EffectiveRules.AgreeFor c e e') :
    TypeScopes.AgreeFor c t t' := by
  obtain ⟨label, hsc⟩ := compile_scope ht c
  obtain ⟨label', hsc'⟩ := compile_scope ht' c
  have hget (attr : String) : (t.scope c).aliases.get? attr = (t'.scope c).aliases.get? attr := by
    rw [get?_aliases_scope ht he, get?_aliases_scope ht' he', hagree.newName?_eq]
  refine ⟨?_, fun name => ?_, fun attr => ?_, fun attr => ?_, ?_⟩
  · rw [(Scope.compile_eq_ok.1 hsc).2, (Scope.compile_eq_ok.1 hsc').2]
    exact (authorizedBy_congr he he' hagree.visibility_eq cat.names).symm
  · exact Scope.resolve_congr hsc hsc' (distinct_aliases_scope ht ha c)
      (distinct_aliases_scope ht' ha' c) hget name
  · rw [Scope.aliasOf, Scope.aliasOf, hget]
  · rw [(Scope.compile_eq_ok.1 (compile_unrestricted ht)).2,
      (Scope.compile_eq_ok.1 (compile_unrestricted ht')).2, Scope.aliasOf, Scope.aliasOf,
      Scope.get?_aliasesBy Table.distinct_nil, Scope.get?_aliasesBy Table.distinct_nil,
      hagree.aliases]
  · rw [isSome_callers ht, isSome_callers ht', Bool.eq_iff_iff, ho.isSome_iff, ho'.isSome_iff]
    simp only [hagree.state]

/-! ### Rules that agree -/

variable {h : Hierarchy} {m : Metadata} {s s' : RuleSet} {root : TypeKey}

theorem occupied_ownRules (s : RuleSet) (k : TypeKey) : (ownRules s k).Occupied := by
  have ho := EffectiveRules.occupied_empty.foldl_add (s.rules.filter (·.typeKey = k))
  intro c
  simp only [EffectiveRules.state?, ownRules, EffectiveRules.callers_foldl_addAlias]
  exact ho c

/-- A type's own rules agree for a caller if the sets have the same rules on it. -/
theorem agreeFor_ownRules {k : TypeKey} (hagree : s.AgreeOn s' k c) :
    EffectiveRules.AgreeFor c (ownRules s k) (ownRules s' k) where
  state attr := by rw [state?_ownRules, state?_ownRules, hagree.rules]
  aliases attr := by rw [get?_aliases_ownRules, get?_aliases_ownRules, hagree.aliases]

section Hierarchy

variable (hw : h.WellFormed root)
include hw

theorem occupied_rulesInEffect (s : RuleSet) :
    ∀ n ∈ h.nodes, (rulesInEffect h s n.key).Occupied := by
  refine hw.parents_induction fun n hn ih => ?_
  rw [rulesInEffect_eq s hw hn]
  refine (EffectiveRules.occupied_empty.foldl_inherit fun parent hp => ?_).override
    (distinct_ownRules s n.key) (occupied_ownRules s n.key)
  obtain ⟨k, hk, rfl⟩ := List.mem_map.1 hp
  obtain ⟨m, hm, rfl⟩ := hw.exists_parent hn hk
  exact ⟨distinct_rulesInEffect s hw hm, ih m (hw.mem_parents.2 ⟨hm, hk⟩)⟩

/-- The rules in effect on a type agree if the sets agree on the type and its
    ancestors. -/
theorem agreeFor_rulesInEffect (c : Credential) : ∀ n ∈ h.nodes,
    (∀ u, u = n.key ∨ h.IsAncestor u n.key → s.AgreeOn s' u c) →
      EffectiveRules.AgreeFor c (rulesInEffect h s n.key) (rulesInEffect h s' n.key) := by
  refine hw.parents_induction fun n hn ih hagree => ?_
  have hown := agreeFor_ownRules (hagree n.key (.inl rfl))
  -- what is above a parent is above the type, so the induction hypothesis applies
  have hparents : ∀ k ∈ n.parents,
      EffectiveRules.AgreeFor c (rulesInEffect h s k) (rulesInEffect h s' k) := by
    intro k hk
    obtain ⟨m, hm, rfl⟩ := hw.exists_parent hn hk
    exact ih m (hw.mem_parents.2 ⟨hm, hk⟩) fun u hu =>
      hagree u (.inr (hw.isAncestor_of_parent hn hk hu))
  constructor
  · intro attr
    rw [state?_rulesInEffect s hw hn, state?_rulesInEffect s' hw hn, hown.state,
      findSome?_congr fun k hk => (hparents k hk).state attr]
  · intro attr
    rw [get?_aliases_rulesInEffect s hw hn, get?_aliases_rulesInEffect s' hw hn, hown.aliases,
      findSome?_congr fun k hk => (hparents k hk).aliases attr]

/-- Whether the rules on a type can be compiled depends on what they say, not on
    the order in which they are kept. -/
theorem exists_compile_congr (hagree : ∀ u c, s.AgreeOn s' u c) {n : Node} (hn : n ∈ h.nodes)
    (cat : Catalogue) :
    (∃ t, compile cat (rulesInEffect h s n.key) = .ok t) ↔
      ∃ t, compile cat (rulesInEffect h s' n.key) = .ok t := by
  have heffect (c : Credential) :=
    agreeFor_rulesInEffect hw c n hn fun u _ => hagree u c
  have haliases : (rulesInEffect h s n.key).aliases.get? =
      (rulesInEffect h s' n.key).aliases.get? := funext (heffect default).aliases
  rw [exists_compile_iff (distinct_rulesInEffect s hw hn) (distinct_aliases_rulesInEffect s hw hn),
    exists_compile_iff (distinct_rulesInEffect s' hw hn)
      (distinct_aliases_rulesInEffect s' hw hn), haliases]
  simp only [(heffect _).newName?_eq]

end Hierarchy

/-- Whether a set of rules is valid does not depend on the order in which it is kept. -/
theorem validate_congr (hagree : ∀ u c, s.AgreeOn s' u c) :
    validate m s = .ok () ↔ validate m s' = .ok () := by
  have hrule (r : ReadRule) : r ∈ s.rules ↔ r ∈ s'.rules := by
    have hmem (s : RuleSet) : r ∈ s.rules ↔ r ∈ s.rulesOn r.typeKey r.credential r.name := by
      simp [RuleSet.rulesOn]
    rw [hmem, hmem, (hagree r.typeKey r.credential).rules]
  have halias (a : TypeAlias) : a ∈ s.aliases ↔ a ∈ s'.aliases := by
    have hmem (s : RuleSet) : a ∈ s.aliases ↔ a ∈ s.aliasesOn a.typeKey a.name := by
      simp [RuleSet.aliasesOn]
    rw [hmem, hmem, (hagree a.typeKey default).aliases]
  rw [validate_eq_ok, validate_eq_ok]
  simp only [hrule, halias]

/-! ### Answers -/

variable {g g' : ReadGuard} {k : TypeKey}

/-- The guards answer the same to a caller on a type. -/
structure SameAnswers (g g' : ReadGuard) (k : TypeKey) (c : Credential) : Prop where
  check : ∀ requested, g.check k requested c = g'.check k requested c
  authorized : g.authorized k c = g'.authorized k c
  isRestricted : g.isRestricted k c = g'.isRestricted k c
  translate : ∀ names, g.translate k names = g'.translate k names
  translateFor : ∀ names, g.translateFor k c names = g'.translateFor k c names

theorem check_congr (hhandler : g.handler = g'.handler) {sc sc' : Scope}
    (hscope : g.scope k c = .ok sc) (hscope' : g'.scope k c = .ok sc')
    (hauthorized : sc.authorized = sc'.authorized)
    (hresolve : ∀ name, sc.resolve name = sc'.resolve name) (requested : List String) :
    g.check k requested c = g'.check k requested c := by
  have hpermits (name : String) : sc.permits name = sc'.permits name := by
    rw [Scope.permits, Scope.permits, hauthorized, hresolve]
  have hmap : requested.map sc.resolve = requested.map sc'.resolve :=
    List.map_congr_left fun name _ => hresolve name
  rw [check_eq hscope, check_eq hscope', hauthorized, hhandler, hmap]
  simp only [hpermits]

theorem sameAnswers_of_lookup (hhandler : g.handler = g'.handler)
    (hrel : Option.Rel (TypeScopes.AgreeFor c) (g.types.lookup k) (g'.types.lookup k)) :
    SameAnswers g g' k c := by
  generalize ht : g.types.lookup k = t, ht' : g'.types.lookup k = t' at hrel
  cases hrel with
  | none =>
    -- neither knows the type
    have hscope : g.scope k c = g'.scope k c := by rw [scope, scope, ht, ht']
    constructor
    · exact fun requested => by rw [check, check, hscope, hhandler]
    · rw [authorized, authorized, hscope]
    · rw [isRestricted, isRestricted, ht, ht']
    · exact fun names => by rw [translate, translate, ht, ht']
    · exact fun names => by rw [translateFor, translateFor, hscope]
  | @some t t' ha =>
    have hscope : g.scope k c = .ok (t.scope c) := by rw [scope, ht]
    have hscope' : g'.scope k c = .ok (t'.scope c) := by rw [scope, ht']
    constructor
    · exact check_congr hhandler hscope hscope' ha.authorized ha.resolve
    · rw [authorized, authorized, hscope, hscope', ok_bind, ok_bind, ha.authorized]
    · rw [isRestricted, isRestricted, ht, ht', Option.any_some, Option.any_some, ha.listed]
    · intro names
      simp only [translate, ht, ht', Scope.translate, ha.unrestricted]
    · intro names
      simp only [translateFor, hscope, hscope', ok_bind, Scope.translate, ha.aliasOf]

/-- Two sets of rules give the same answers to a caller on a type if they have the
    same rules on the caller and the same aliases on the type and on its
    ancestors, those of each attribute in the same order. If they agree in this
    way everywhere, and so differ in the order only, a guard can be built from
    both or from neither. -/
theorem sameAnswers_of_agreeOn (hs : h.Sealed) (m : Metadata) (s s' : RuleSet)
    (handler : DenialHandler) :
    (∀ g g', build h m s handler = .ok g → build h m s' handler = .ok g' → ∀ k c,
      (∀ u, (u = k ∨ ∃ a ∈ h.ancestors k, a.key = u) → s.AgreeOn s' u c) →
        SameAnswers g g' k c) ∧
    ((∀ u c, s.AgreeOn s' u c) →
      ((∃ g, build h m s handler = .ok g) ↔ ∃ g, build h m s' handler = .ok g)) := by
  obtain ⟨root, hw⟩ := hs.wellFormed
  constructor
  · intro g g' hg hg' k c hagree
    refine sameAnswers_of_lookup ((handler_eq hg).trans (handler_eq hg').symm) ?_
    cases hk : h.contains k with
    | false =>
      rw [lookup_types_eq_none hw hg hk, lookup_types_eq_none hw hg' hk]
      exact .none
    | true =>
      obtain ⟨n, hn, rfl⟩ := hw.contains_iff.1 hk
      obtain ⟨cat, t, hcat, ht, hcompile⟩ := exists_types hw hg hn
      obtain ⟨cat', t', hcat', ht', hcompile'⟩ := exists_types hw hg' hn
      obtain rfl : cat = cat' := Option.some.inj (hcat.symm.trans hcat')
      rw [ht, ht']
      refine .some (agreeFor_compile hcompile hcompile' (distinct_rulesInEffect s hw hn)
        (distinct_rulesInEffect s' hw hn) (distinct_aliases_rulesInEffect s hw hn)
        (distinct_aliases_rulesInEffect s' hw hn) (occupied_rulesInEffect hw s n hn)
        (occupied_rulesInEffect hw s' n hn) (agreeFor_rulesInEffect hw c n hn fun u hu => ?_))
      exact hagree u (hu.imp_right hw.isAncestor_iff.1)
  · intro hagree
    rw [exists_build_iff hw, exists_build_iff hw, validate_congr hagree]
    refine and_congr_right fun _ => forall₂_congr fun n hn => exists_congr fun cat => ?_
    exact and_congr_right fun _ => exists_compile_congr hw hagree hn cat

namespace Invoices

/-- Another caller. -/
def guest : Credential := ⟨"GUEST"⟩

/-- The rules, and one on the other caller. -/
def withGuest : RuleSet :=
  rules.hide invoice guest "total"

/-- The same rules, the one on the other caller first. -/
def guestFirst : RuleSet :=
  (RuleSet.hide {} invoice guest "total").append rules

theorem agreeOn_withGuest (u : TypeKey) : rules.AgreeOn withGuest u clerk where
  rules attr := by
    have hguest : guest ≠ clerk := by decide
    simp [RuleSet.rulesOn, withGuest, RuleSet.hide, RuleSet.add, hguest]
  aliases _ := rfl

theorem agreeOn_guestFirst (u : TypeKey) (c : Credential) : withGuest.AgreeOn guestFirst u c where
  rules attr := by
    have hclerk : ∀ r ∈ rules.rules, r.credential = clerk := by decide
    have hguest : guest ≠ clerk := by decide
    simp only [RuleSet.rulesOn, withGuest, guestFirst, RuleSet.hide, RuleSet.add, RuleSet.append,
      List.filter_append, List.nil_append]
    -- rules on the two callers are never on the same caller
    by_cases hc : c = clerk
    · simp [hc, hguest]
    · have : rules.rules.filter (fun r => r.typeKey = u ∧ r.credential = c ∧ r.name = attr) = [] :=
        List.filter_eq_nil_iff.2 fun r hr => by simp [hclerk r hr, Ne.symm hc]
      rw [this, List.nil_append, List.append_nil]
  aliases _ := rfl

end Invoices

open Invoices in
theorem sameAnswers_of_agreeOn_invoices :
    (∃ g g', build hierarchy metadata rules FailurePolicy.strict.handler = .ok g ∧
      build hierarchy metadata withGuest FailurePolicy.strict.handler = .ok g' ∧
      SameAnswers g g' invoice clerk) ∧
    ((∃ g, build hierarchy metadata withGuest FailurePolicy.strict.handler = .ok g) ↔
      ∃ g, build hierarchy metadata guestFirst FailurePolicy.strict.handler = .ok g) := by
  have hs : hierarchy.Sealed := Hierarchy.sealed_built discovery
  obtain ⟨g, hg⟩ : ∃ g, build hierarchy metadata rules FailurePolicy.strict.handler = .ok g :=
    ⟨_, rfl⟩
  obtain ⟨g', hg'⟩ : ∃ g', build hierarchy metadata withGuest FailurePolicy.strict.handler =
    .ok g' := ⟨_, rfl⟩
  refine ⟨⟨g, g', hg, hg', ?_⟩, ?_⟩
  · exact (sameAnswers_of_agreeOn hs metadata rules withGuest _).1 g g' hg hg' invoice clerk
      fun u _ => agreeOn_withGuest u
  · exact (sameAnswers_of_agreeOn hs metadata withGuest guestFirst _).2 agreeOn_guestFirst

end ReadGuard

end Lineage
