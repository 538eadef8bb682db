import Lineage.Catalogue.Metadata
import Lineage.Proofs.Access.Scope
import Lineage.Proofs.Fallible
import Lineage.Proofs.Hierarchy.Building

/-!
# The read guard

A guard that has been built knows all types of the hierarchy and no others, and
each caller's scope on a type is compiled from the rules in effect on it
(`ReadGuard.exists_scope`).

From this follows what the guard answers to any request
(`ReadGuard.check_of_build`): whether the type exists and the caller may read
anything of it comes before everything else; names are served if each of them
stands for an attribute that may be read, and otherwise the policy decides.
Nothing is served that may not be read, and what has been served may be requested
again.
-/

namespace Lineage.ReadGuard

variable {h : Hierarchy} {m : Metadata} {s : RuleSet} {handler : DenialHandler} {g : ReadGuard}
  {root : TypeKey}

/-! ### Compiling the rules -/

/-- The rules on each type so far have been compiled with its catalogue. -/
def Compiled (m : Metadata) (p : Progress) : Prop :=
  List.Forall₂ (fun a b => a.1 = b.1 ∧ ∃ cat, m.get? a.1 = some cat ∧ compile cat a.2 = .ok b.2)
    p.resolved p.types

theorem extend_eq_ok {p p' : Progress} {n : Node} (hp : extend m s p n = .ok p')
    (hc : Compiled m p) :
    p'.resolved = p.resolved ++ [(n.key, effective p.resolved s n)] ∧ Compiled m p' := by
  rw [extend] at hp
  cases hcat : m.get? n.key with
  | none =>
    rw [hcat] at hp
    exact nomatch hp
  | some cat =>
    simp only [hcat, bind_eq_ok, pure_eq_ok] at hp
    obtain ⟨scopes, hscopes, rfl⟩ := hp
    refine ⟨rfl, List.rel_append hc ?_⟩
    exact .cons ⟨rfl, cat, hcat, hscopes⟩ .nil

theorem foldlM_extend {p p' : Progress} {ns : List Node}
    (hp : ns.foldlM (extend m s) p = .ok p') (hc : Compiled m p) :
    p'.resolved = ns.foldl (fun resolved n => resolved ++ [(n.key, effective resolved s n)])
      p.resolved ∧ Compiled m p' := by
  induction ns generalizing p with
  | nil =>
    obtain rfl := pure_eq_ok.1 hp
    exact ⟨rfl, hc⟩
  | cons n ns ih =>
    obtain ⟨p₁, hp₁, hp⟩ := bind_eq_ok.1 hp
    obtain ⟨hresolved, hc₁⟩ := extend_eq_ok hp₁ hc
    rw [List.foldl_cons, ← hresolved]
    exact ih hp hc₁

/-- What a guard has been built from: the rules in effect on each type, compiled
    with its catalogue. -/
theorem rel_types (hg : build h m s handler = .ok g) (k : TypeKey) :
    Option.Rel (fun e t => ∃ cat, m.get? k = some cat ∧ compile cat e = .ok t)
      ((resolved h s).lookup k) (g.types.lookup k) := by
  obtain ⟨_, _, hg⟩ := bind_eq_ok.1 hg
  obtain ⟨p, hp, hg⟩ := bind_eq_ok.1 hg
  obtain rfl := pure_eq_ok.1 hg
  obtain ⟨hresolved, hc⟩ := foldlM_extend hp .nil
  rw [resolved, Hierarchy.passDown, ← hresolved]
  exact Table.rel_lookup
    (R := fun k e t => ∃ cat, m.get? k = some cat ∧ compile cat e = .ok t) hc k

theorem validate_eq_ok :
    validate m s = .ok () ↔ (∀ r ∈ s.rules, requireAttribute m r.typeKey r.name = .ok ()) ∧
      ∀ a ∈ s.aliases, requireAttribute m a.typeKey a.name = .ok () := by
  rw [validate, bind_eq_ok, ← forM_eq_ok, ← forM_eq_ok]
  exact ⟨fun ⟨_, hrules, haliases⟩ => ⟨hrules, haliases⟩, fun ⟨hr, ha⟩ => ⟨(), hr, ha⟩⟩

/-- Nothing fails if the rules in effect on each type can be compiled. -/
theorem exists_foldlM_extend {p : Progress} {ns : List Node}
    (hall : ∀ e ∈ ns.foldl (fun resolved n => resolved ++ [(n.key, effective resolved s n)])
      p.resolved, ∃ cat, m.get? e.1 = some cat ∧ ∃ t, compile cat e.2 = .ok t) :
    ∃ p', ns.foldlM (extend m s) p = .ok p' := by
  induction ns generalizing p with
  | nil => exact ⟨p, rfl⟩
  | cons n ns ih =>
    have hmem : (n.key, effective p.resolved s n) ∈ (n :: ns).foldl
        (fun resolved n => resolved ++ [(n.key, effective resolved s n)]) p.resolved :=
      Hierarchy.subset_foldl_passDown _ ns _ (List.mem_append_right _ (List.mem_singleton_self _))
    obtain ⟨cat, hcat, t, ht⟩ := hall _ hmem
    have hstep : extend m s p n =
        .ok ⟨p.resolved ++ [(n.key, effective p.resolved s n)], p.types ++ [(n.key, t)]⟩ := by
      simp only [extend, hcat, ht, ok_bind]
      rfl
    obtain ⟨p', hp'⟩ := ih (p := ⟨_, p.types ++ [(n.key, t)]⟩) hall
    exact ⟨p', bind_eq_ok.2 ⟨_, hstep, hp'⟩⟩

theorem handler_eq (hg : build h m s handler = .ok g) : g.handler = handler := by
  obtain ⟨_, _, hg⟩ := bind_eq_ok.1 hg
  obtain ⟨p, _, hg⟩ := bind_eq_ok.1 hg
  rw [← pure_eq_ok.1 hg]

/-- The scope of callers without rules is compiled from the aliases only. -/
theorem compile_unrestricted {cat : Catalogue} {e : EffectiveRules} {t : TypeScopes}
    (ht : compile cat e = .ok t) :
    Scope.compile cat anyCaller [] e.aliases = .ok t.unrestricted := by
  obtain ⟨unrestricted, hu, ht⟩ := bind_eq_ok.1 ht
  obtain ⟨callers, _, ht⟩ := bind_eq_ok.1 ht
  obtain rfl := pure_eq_ok.1 ht
  exact hu

/-- Each caller's scope on a type is compiled from the rules on it. -/
theorem compile_scope {cat : Catalogue} {e : EffectiveRules} {t : TypeScopes}
    (ht : compile cat e = .ok t) (c : Credential) :
    ∃ label, Scope.compile cat label ((e.callers.get? c).getD []) e.aliases = .ok (t.scope c) := by
  obtain ⟨unrestricted, hu, ht⟩ := bind_eq_ok.1 ht
  obtain ⟨callers, hcallers, ht⟩ := bind_eq_ok.1 ht
  obtain rfl := pure_eq_ok.1 ht
  have hrel : List.Forall₂ (fun a b => a.1 = b.1 ∧
      Scope.compile cat a.1.name a.2 e.aliases = .ok b.2) e.callers callers := by
    refine (mapM_eq_ok.1 hcallers).imp fun a b hab => ?_
    obtain ⟨scope, hscope, hb⟩ := bind_eq_ok.1 hab
    obtain rfl := pure_eq_ok.1 hb
    exact ⟨rfl, hscope⟩
  have hlookup := Table.rel_lookup
    (R := fun c rules scope => Scope.compile cat c.name rules e.aliases = .ok scope) hrel c
  rw [TypeScopes.scope]
  -- a caller without rules has the unrestricted scope, which is compiled from none
  generalize e.callers.get? c = rules, Table.get? callers c = scope at hlookup ⊢
  cases hlookup with
  | none => exact ⟨anyCaller, hu⟩
  | some hscope => exact ⟨c.name, hscope⟩

section Built

variable (hw : h.WellFormed root) (hg : build h m s handler = .ok g)
include hw hg

/-- The guard knows the types of the hierarchy only. -/
theorem lookup_types_eq_none {k : TypeKey} (hk : h.contains k = false) :
    g.types.lookup k = none := by
  have hrel := rel_types hg k
  have hnone : (resolved h s).lookup k = none := by
    rw [← Option.not_isSome_iff_eq_none, (lookup_resolved s hw).1, hk]
    exact Bool.false_ne_true
  rw [hnone] at hrel
  generalize g.types.lookup k = t at hrel ⊢
  cases hrel
  rfl

theorem scope_of_contains_eq_false {k : TypeKey} (hk : h.contains k = false) (c : Credential) :
    g.scope k c = .error (.access (.unknownType k)) := by
  rw [scope, lookup_types_eq_none hw hg hk]

/-- On each type of the hierarchy the scopes are compiled from the rules in effect
    on the type. -/
theorem exists_types {n : Node} (hn : n ∈ h.nodes) :
    ∃ cat t, m.get? n.key = some cat ∧ g.types.lookup n.key = some t ∧
      compile cat (rulesInEffect h s n.key) = .ok t := by
  have hrel := rel_types hg n.key
  rw [(lookup_resolved s hw).2 n hn, ← rulesInEffect_eq_effective s hw hn] at hrel
  generalize g.types.lookup n.key = t at hrel ⊢
  cases hrel with
  | some ht =>
    obtain ⟨cat, hcat, ht⟩ := ht
    exact ⟨cat, _, hcat, rfl, ht⟩

/-- On each type of the hierarchy a caller's scope is compiled from the rules in
    effect on the type. -/
theorem exists_scope {n : Node} (hn : n ∈ h.nodes) (c : Credential) :
    ∃ cat label sc, m.get? n.key = some cat ∧ g.scope n.key c = .ok sc ∧
      Scope.compile cat label (((rulesInEffect h s n.key).callers.get? c).getD [])
        (rulesInEffect h s n.key).aliases = .ok sc := by
  obtain ⟨cat, t, hcat, ht, hcompile⟩ := exists_types hw hg hn
  obtain ⟨label, hsc⟩ := compile_scope hcompile c
  exact ⟨cat, label, _, hcat, by rw [scope, ht], hsc⟩

theorem authorized_of_contains_eq_false {k : TypeKey} (hk : h.contains k = false)
    (c : Credential) : g.authorized k c = .error (.access (.unknownType k)) := by
  rw [authorized, scope_of_contains_eq_false hw hg hk]
  rfl

/-- Which attributes a caller may read follows from the rules in effect. -/
theorem exists_authorized {n : Node} (hn : n ∈ h.nodes) :
    ∃ cat, m.get? n.key = some cat ∧ ∀ c, g.authorized n.key c = .ok
      (Scope.authorizedBy cat.names (((rulesInEffect h s n.key).callers.get? c).getD [])) := by
  obtain ⟨cat, _, _, hcat, _⟩ := exists_scope hw hg hn default
  refine ⟨cat, hcat, fun c => ?_⟩
  obtain ⟨cat', label, sc, hcat', hscope, hsc⟩ := exists_scope hw hg hn c
  obtain rfl : cat = cat' := Option.some.inj (hcat.symm.trans hcat')
  rw [authorized, hscope, (Scope.compile_eq_ok.1 hsc).2]
  rfl

end Built

/-- The guard can be built if all rules are on attributes that exist, and if on
    each type the rules in effect can be compiled. -/
theorem exists_build_iff (hw : h.WellFormed root) :
    (∃ g, build h m s handler = .ok g) ↔ validate m s = .ok () ∧
      ∀ n ∈ h.nodes, ∃ cat, m.get? n.key = some cat ∧
        ∃ t, compile cat (rulesInEffect h s n.key) = .ok t := by
  constructor
  · rintro ⟨g, hg⟩
    obtain ⟨_, hvalid, _⟩ := bind_eq_ok.1 hg
    refine ⟨hvalid, fun n hn => ?_⟩
    obtain ⟨cat, t, hcat, _, ht⟩ := exists_types hw hg hn
    exact ⟨cat, hcat, t, ht⟩
  · rintro ⟨hvalid, hall⟩
    obtain ⟨p, hp⟩ : ∃ p, h.toList.foldlM (extend m s) {} = .ok p := by
      refine exists_foldlM_extend fun e he => ?_
      obtain ⟨n, hn, rfl⟩ := mem_resolved s hw he
      exact hall n hn
    exact ⟨⟨p.types, handler⟩, bind_eq_ok.2 ⟨(), hvalid, bind_eq_ok.2 ⟨p, hp, rfl⟩⟩⟩

/-! ### Requests -/

/-- What a guard answers to a caller with the given scope on a type. -/
structure Answers (g : ReadGuard) (policy : FailurePolicy) (k : TypeKey) (c : Credential)
    (sc : Scope) : Prop where
  /-- Every request fails if nothing may be read. -/
  nothing : ∀ requested,
    g.check k requested c = .error (.access (.nothingAuthorized k c)) ↔ sc.authorized = []
  /-- An empty request asks for all that may be read. -/
  everything : sc.authorized ≠ [] → g.check k [] c = .ok sc.authorized
  /-- Names that stand for attributes that may be read are served as these, in
      the order of the request. -/
  resolved : sc.authorized ≠ [] → ∀ requested answer, requested ≠ [] →
    sc.Resolves requested answer → g.check k requested c = .ok answer
  /-- If some name stands for none, the lenient policy serves all that may be
      read. -/
  lenient : sc.authorized ≠ [] → policy = .lenient → ∀ requested,
    (∃ name ∈ requested, sc.Offends name) → g.check k requested c = .ok sc.authorized
  /-- The strict policy fails, and gives all such names. -/
  strict : sc.authorized ≠ [] → policy = .strict → ∀ requested,
    (∃ name ∈ requested, sc.Offends name) →
      g.check k requested c =
        .error (.access (.unauthorized k c (requested.filter fun name => sc.Offends name)))
  /-- Nothing is served that may not be read. -/
  subset : ∀ requested answer, g.check k requested c = .ok answer → answer ⊆ sc.authorized
  /-- What has been served may be requested again. -/
  again : ∀ requested answer, g.check k requested c = .ok answer → g.check k answer c = .ok answer

section Scoped

variable {policy : FailurePolicy} (hpolicy : g.handler = policy.handler) {k : TypeKey}
  {c : Credential} {cat : Catalogue} {label : String} {rules : CallerRules}
  {aliases : Table String String} {sc : Scope} (hscope : g.scope k c = .ok sc)
  (hsc : Scope.compile cat label rules aliases = .ok sc)
include hscope

theorem check_eq (requested : List String) :
    g.check k requested c =
      if sc.authorized = [] then .error (.access (.nothingAuthorized k c))
      else if requested = [] then .ok sc.authorized
      else if requested.filter (fun name => !sc.permits name) = [] then
        .ok (requested.map sc.resolve)
      else g.handler ⟨k, c, requested.filter fun name => !sc.permits name, sc.authorized⟩ := by
  simp only [check, hscope, ok_bind, List.isEmpty_iff]
  split_ifs <;> rfl

include hsc

theorem check_of_resolves (hne : sc.authorized ≠ []) {requested answer : List String}
    (hreq : requested ≠ []) (hr : sc.Resolves requested answer) :
    g.check k requested c = .ok answer := by
  have hpermits : requested.filter (fun name => !sc.permits name) = [] :=
    List.filter_eq_nil_iff.2 fun name hname =>
      mt (Scope.not_permits_iff hsc).1 ((Scope.exists_resolves hsc).1 ⟨answer, hr⟩ name hname)
  rw [check_eq hscope, if_neg hne, if_neg hreq, if_pos hpermits, hr.map_resolve_eq hsc]

theorem check_of_offends (hne : sc.authorized ≠ []) {requested : List String}
    (hex : ∃ name ∈ requested, sc.Offends name) :
    g.check k requested c =
      g.handler ⟨k, c, requested.filter fun name => sc.Offends name, sc.authorized⟩ := by
  have hoffends : requested.filter (fun name => !sc.permits name) =
      requested.filter fun name => sc.Offends name :=
    List.filter_congr fun name _ =>
      Bool.eq_iff_iff.2 ((Scope.not_permits_iff hsc).trans decide_eq_true_iff.symm)
  obtain ⟨name, hname, hnot⟩ := hex
  have hreq : requested ≠ [] := List.ne_nil_of_mem hname
  have hoffenders : requested.filter (fun name => sc.Offends name) ≠ [] :=
    List.ne_nil_of_mem (List.mem_filter.2 ⟨hname, decide_eq_true hnot⟩)
  rw [check_eq hscope, if_neg hne, if_neg hreq, hoffends, if_neg hoffenders]

include hpolicy

/-- If anything may be read, some of it is served, or names have offended. -/
theorem check_cases (hne : sc.authorized ≠ []) (requested : List String) :
    (∃ answer, g.check k requested c = .ok answer ∧ answer ≠ [] ∧ answer ⊆ sc.authorized) ∨
      ∃ offenders, g.check k requested c = .error (.access (.unauthorized k c offenders)) := by
  by_cases hreq : requested = []
  · refine .inl ⟨sc.authorized, ?_, hne, List.Subset.refl _⟩
    rw [check_eq hscope, if_neg hne, if_pos hreq]
  by_cases hex : ∃ name ∈ requested, sc.Offends name
  · rw [check_of_offends hscope hsc hne hex, hpolicy]
    cases policy with
    | lenient => exact .inl ⟨sc.authorized, rfl, hne, List.Subset.refl _⟩
    | strict => exact .inr ⟨_, rfl⟩
  · push Not at hex
    obtain ⟨attrs, hr⟩ := (Scope.exists_resolves hsc).2 hex
    refine .inl ⟨attrs, check_of_resolves hscope hsc hne hreq hr, fun hnil => ?_, hr.subset⟩
    exact hreq (List.forall₂_nil_right_iff.1 (hnil ▸ hr))

/-- What is served may be read, and is not empty. -/
theorem subset_of_check_eq_ok {requested answer : List String}
    (hok : g.check k requested c = .ok answer) :
    sc.authorized ≠ [] ∧ answer ≠ [] ∧ answer ⊆ sc.authorized := by
  by_cases h0 : sc.authorized = []
  · rw [check_eq hscope, if_pos h0] at hok
    exact nomatch hok
  rcases check_cases hpolicy hscope hsc h0 requested with ⟨answer', hans, hsub⟩ | ⟨_, herr⟩
  · obtain rfl := Except.ok.inj (hans.symm.trans hok)
    exact ⟨h0, hsub⟩
  · exact nomatch herr.symm.trans hok

/-- What the guard answers, if the policy is a built-in one. -/
theorem answers_of_scope : Answers g policy k c sc where
  nothing requested := by
    refine ⟨fun herr => by_contra fun hne => ?_, fun h0 => by rw [check_eq hscope, if_pos h0]⟩
    rcases check_cases hpolicy hscope hsc hne requested with ⟨_, hans, _⟩ | ⟨_, hans⟩
    all_goals exact nomatch hans.symm.trans herr
  everything hne := by
    rw [check_eq hscope, if_neg hne, if_pos rfl]
  resolved hne _ _ hreq hr := check_of_resolves hscope hsc hne hreq hr
  lenient hne hp requested hex := by
    rw [check_of_offends hscope hsc hne hex, hpolicy, hp, FailurePolicy.handler]
  strict hne hp requested hex := by
    rw [check_of_offends hscope hsc hne hex, hpolicy, hp, FailurePolicy.handler]
  subset _ _ hok := (subset_of_check_eq_ok hpolicy hscope hsc hok).2.2
  again requested answer hok := by
    obtain ⟨hne, hanswer, hsub⟩ := subset_of_check_eq_ok hpolicy hscope hsc hok
    refine check_of_resolves hscope hsc hne hanswer (List.forall₂_same.2 fun attr hattr => ?_)
    exact ⟨hsub hattr, .inl rfl⟩

theorem check_ne_unknownType (requested : List String) :
    g.check k requested c ≠ .error (.access (.unknownType k)) := by
  intro herr
  by_cases h0 : sc.authorized = []
  · rw [check_eq hscope, if_pos h0] at herr
    exact nomatch herr
  rcases check_cases hpolicy hscope hsc h0 requested with ⟨_, hans, _⟩ | ⟨_, hans⟩
  all_goals exact nomatch hans.symm.trans herr

end Scoped

/-- A guard with a built-in policy fails on exactly the types that are not in the
    hierarchy. On the others it answers by a scope that has been compiled
    against the type's catalogue. -/
theorem check_of_build (hs : h.Sealed) {policy : FailurePolicy}
    (hg : build h m s policy.handler = .ok g) (k : TypeKey) (c : Credential) :
    (∀ requested, g.check k requested c = .error (.access (.unknownType k)) ↔
      h.contains k = false) ∧
    (h.contains k = true → ∃ cat sc, m.get? k = some cat ∧ g.scope k c = .ok sc ∧
      g.authorized k c = .ok sc.authorized ∧ sc.authorized.Sublist cat.names ∧
      Answers g policy k c sc) := by
  obtain ⟨root, hw⟩ := hs.wellFormed
  cases hk : h.contains k with
  | false =>
    have hscope := scope_of_contains_eq_false hw hg hk c
    refine ⟨fun requested => iff_of_true ?_ rfl, fun h => nomatch h⟩
    rw [check, hscope]
    rfl
  | true =>
    obtain ⟨n, hn, rfl⟩ := hw.contains_iff.1 hk
    obtain ⟨cat, label, sc, hcat, hscope, hsc⟩ := exists_scope hw hg hn c
    have hpolicy := handler_eq hg
    refine ⟨fun requested => iff_of_false ?_ (by simp), fun _ => ⟨cat, sc, hcat, hscope, ?_⟩⟩
    · exact check_ne_unknownType hpolicy hscope hsc requested
    · refine ⟨?_, Scope.authorized_sublist hsc, answers_of_scope hpolicy hscope hsc⟩
      rw [authorized, hscope]
      rfl

/-! ### Invoices -/

namespace Invoices

/-- The type of invoices. -/
def invoice : TypeKey := ⟨"Invoice"⟩

/-- A caller. -/
def clerk : Credential := ⟨"CLERK"⟩

/-- Discovery knows invoices only. They have a number and a total. -/
def discovery : Discovery where
  root := ⟨"Resource"⟩
  described := [
    { key := invoice
      kind := .classType
      superclass := some ⟨"Resource"⟩
      fields := [⟨"number", .scalar "text", .empty⟩, ⟨"total", .scalar "money", .empty⟩] }]
  find _ := .ok []

/-- The hierarchy of invoices. -/
def hierarchy : Hierarchy :=
  .built discovery

/-- An attribute of invoices. -/
def attributeNamed (name : String) (type : String) : Attribute where
  name := name
  path := [name]
  valueType := .scalar type
  kind := .plain
  optional := false
  isLazy := false
  identifier := false
  declaredBy := invoice

/-- The metadata of the hierarchy. -/
def metadata : Metadata where
  catalogues := [⟨⟨"Resource"⟩, true, []⟩,
    ⟨invoice, false, [attributeNamed "number" "text", attributeNamed "total" "money"]⟩]

theorem metadata_build :
    Metadata.build hierarchy discovery .ofDescriptor [] = .ok metadata := by
  rfl

/-- The number of an invoice is granted to the caller, as `no`. -/
def rules : RuleSet :=
  (RuleSet.grant {} invoice clerk "number").rename invoice clerk "number" "no"

end Invoices

open Invoices in
theorem check_of_build_invoices :
    ∃ g, build hierarchy metadata rules FailurePolicy.strict.handler = .ok g ∧
      ∃ cat sc, metadata.get? invoice = some cat ∧ g.scope invoice clerk = .ok sc ∧
        g.authorized invoice clerk = .ok sc.authorized ∧ sc.authorized.Sublist cat.names ∧
        Answers g .strict invoice clerk sc := by
  obtain ⟨g, hg⟩ : ∃ g, build hierarchy metadata rules FailurePolicy.strict.handler = .ok g :=
    ⟨_, rfl⟩
  have hs : hierarchy.Sealed := Hierarchy.sealed_built ..
  exact ⟨g, hg, (check_of_build hs hg invoice clerk).2 (by decide +kernel)⟩

end Lineage.ReadGuard
