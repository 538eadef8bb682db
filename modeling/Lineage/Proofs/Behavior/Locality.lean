import Lineage.Proofs.Behavior.Evaluation
import Lineage.Proofs.Behavior.Order

/-!
# What a behavior depends on

The behavior of a type depends on no other contributions than those made for the type and its
ancestors, of each name and target the first (`Factory.offersTo`). If these are the same for two
lists of contributors then so are the behaviors, whatever else is contributed, and whatever the
contributions are numbered (`Factory.locality_of_build`).

* As passed on, contributions are joined by their keys. So types with the same contributions, by
  their keys and behaviors, pass on the same (`Contributions.map_addNew`), and it is enough that
  the contributions for each single target are the same
  (`Factory.map_labelled_of_propagation`).
* By depth, contributions are sorted by numbers that count all offers, those for other types as
  well. But of two contributions to the type the one with the smaller number is the one that
  comes first among those to the type (`Factory.map_labelled_of_depth`).
-/

namespace Lineage

/-! ### The first of each key -/

/-- Of the entries with one key the first. -/
def firsts {γ : Type} : List (ContributionKey × γ) → List (ContributionKey × γ)
  | [] => []
  | e :: es => e :: (firsts es).filter (·.1 ≠ e.1)

section Firsts

variable {γ : Type}

/-- Which entries are the first ones of their keys does not depend on entries with other keys. -/
theorem filter_firsts (p : ContributionKey → Bool) (es : List (ContributionKey × γ)) :
    (firsts es).filter (fun e => p e.1) = firsts (es.filter fun e => p e.1) := by
  induction es with
  | nil => rfl
  | cons e es ih =>
    rw [firsts, List.filter_cons, List.filter_cons, List.filter_filter]
    by_cases he : p e.1 = true
    · rw [if_pos he, if_pos he, firsts, ← ih, List.filter_filter]
      simp only [Bool.and_comm]
    · -- what is dropped for its key would not have been kept
      rw [if_neg he, if_neg he, ← ih]
      refine List.filter_congr fun e' _ => ?_
      by_cases hkey : e'.1 = e.1 <;> simp [hkey, he]

theorem firsts_append (es es' : List (ContributionKey × γ)) :
    firsts (es ++ es') = firsts es ++ (firsts es').filter (·.1 ∉ es.map Prod.fst) := by
  induction es with
  | nil => simp [firsts]
  | cons e es ih =>
    rw [List.cons_append, firsts, ih, List.filter_append, List.filter_filter, firsts,
      List.cons_append]
    simp only [List.map_cons, List.mem_cons, not_or, Bool.decide_and]

/-- An entry with a key that is there already is not among the first ones. -/
theorem firsts_append_cons {es es' : List (ContributionKey × γ)} {e : ContributionKey × γ}
    (he : e.1 ∈ es.map Prod.fst) : firsts (es ++ e :: es') = firsts (es ++ es') := by
  rw [firsts_append, firsts_append, firsts, List.filter_cons_of_neg (by simpa using he),
    List.filter_filter]
  refine congrArg _ (List.filter_congr fun e' _ => ?_)
  by_cases hkey : e'.1 = e.1
  · simp only [hkey, he, not_true_eq_false, decide_false, Bool.false_and]
  · simp only [hkey, ne_eq, not_false_eq_true, decide_true, Bool.and_true]

end Firsts

namespace Contributions

variable {β γ : Type}

/-- If the labels tell the keys, then adding contributions adds their labels, of each key that is
    not there yet the first. -/
theorem map_addNew {label : Contribution β → ContributionKey × γ}
    (hlabel : ∀ b, (label b).1 = b.key) (cs new : Contributions β) :
    (addNew Contribution.key cs new).map label =
      cs.map label ++ (firsts (new.map label)).filter (·.1 ∉ cs.map Contribution.key) := by
  induction new generalizing cs with
  | nil => exact (List.append_nil _).symm
  | cons a new ih =>
    rw [List.map_cons, firsts, List.filter_cons, List.filter_filter]
    simp only [hlabel]
    by_cases ha : a.key ∈ cs.map Contribution.key
    · rw [addNew_cons_of_mem _ ha, if_neg (by simpa using ha), ih]
      refine congrArg _ (List.filter_congr fun e _ => ?_)
      by_cases he : e.1 = a.key
      · simp only [he, ha, not_true_eq_false, decide_false, Bool.false_and]
      · simp only [he, ne_eq, not_false_eq_true, decide_true, Bool.and_true]
    · rw [addNew_cons_of_not_mem _ ha, if_pos (by simpa using ha), ih, List.map_append,
        List.append_assoc]
      refine congrArg _ (congrArg _ (List.filter_congr fun e _ => ?_))
      simp only [List.map_append, List.map_cons, List.map_nil, List.mem_append, List.mem_singleton,
        not_or, Bool.decide_and, ne_eq]

theorem map_addNew_congr {label : Contribution β → ContributionKey × γ}
    (hlabel : ∀ b, (label b).1 = b.key) {cs cs' new new' : Contributions β}
    (hcs : cs.map label = cs'.map label) (hnew : new.map label = new'.map label) :
    (addNew Contribution.key cs new).map label = (addNew Contribution.key cs' new').map label := by
  have hkeys (cs : Contributions β) : cs.map Contribution.key = (cs.map label).map Prod.fst := by
    rw [List.map_map]
    exact List.map_congr_left fun b _ => (hlabel b).symm
  rw [map_addNew hlabel, map_addNew hlabel, hkeys, hkeys, hcs, hnew]

end Contributions

/-! ### Contributions by their keys and behaviors -/

/-- What there is of a contribution in the behavior of a type. -/
def Contribution.labelled {β : Type} (b : Contribution β) : ContributionKey × β :=
  (b.key, b.shared.behavior)

variable {β : Type} {c : Capability β} {own own' : Contributions β}

namespace Contributions

theorem map_key_eq_of_labelled {cs cs' : Contributions β}
    (e : cs.map Contribution.labelled = cs'.map Contribution.labelled) :
    cs.map Contribution.key = cs'.map Contribution.key := by
  have hkeys := congrArg (List.map Prod.fst) e
  rwa [List.map_map, List.map_map] at hkeys

theorem keys_eq_of_labelled {cs cs' : Contributions β}
    (e : cs.map Contribution.labelled = cs'.map Contribution.labelled) : cs.keys = cs'.keys := by
  have hempty : cs.isEmpty = cs'.isEmpty := by
    rw [← List.isEmpty_map (f := Contribution.labelled), e, List.isEmpty_map]
  rw [keys_eq_ite, keys_eq_ite, hempty, map_key_eq_of_labelled e]

theorem behavior_eq_of_labelled {cs cs' : Contributions β}
    (e : cs.map Contribution.labelled = cs'.map Contribution.labelled) :
    cs.behavior c = cs'.behavior c := by
  have hbehaviors := congrArg (List.map Prod.snd) e
  rw [List.map_map, List.map_map] at hbehaviors
  exact congrArg c.sequence hbehaviors

end Contributions

namespace Factory

variable {h : Hierarchy} {m : Metadata} {tags : TagReader}
  {discovered discovered' : List (Contributor β)} {fixed fixed' : List (TypeKey × Contributor β)}
  {offered offered' : List (ContributionKey × Shared β)}

/-! ### Offers to a type -/

/-- The contribution is made for the type or one of its ancestors. -/
def concerns (h : Hierarchy) (k : TypeKey) (key : ContributionKey) : Bool :=
  key.target?.any (h.isSubtypeOf k)

/-- What is offered to the type and its ancestors, of each key the first. -/
def offersTo (h : Hierarchy) (k : TypeKey) (offered : List (ContributionKey × Shared β)) :
    List (ContributionKey × β) :=
  ((firsts offered).filter (concerns h k ·.1)).map fun o => (o.1, o.2.behavior)

theorem concerns_key {root : TypeKey} (hw : h.WellFormed root) {n : Node} (hn : n ∈ h.nodes)
    {b : Contribution β} :
    concerns h n.key b.key = true ↔ b.target = n.key ∨ h.IsAncestor b.target n.key := by
  have hk : h.contains n.key = true := hw.contains_iff.2 ⟨n, hn, rfl⟩
  rw [concerns, b.target?_key, Option.any_some, hw.isSubtypeOf_iff, and_iff_left hk, eq_comm]

/-- What has been joined are the first offers of their keys. -/
theorem map_join {paired : List (TypeKey × Contributor β)}
    (hp : pair tags discovered = .ok paired) (hj : join h m (paired ++ fixed) = .ok own) :
    own.map (fun b => (b.key, b.shared)) = firsts (offers tags discovered fixed) := by
  obtain ⟨cs, rfl, hoffers, _⟩ := exists_contributions_of_join hj
  rw [offers_of_pair hp, hoffers, Contributions.map_addNew fun _ => rfl]
  simp

theorem labelled_filter_concerns (hown : own.map (fun b => (b.key, b.shared)) = firsts offered)
    (k : TypeKey) :
    (own.filter (concerns h k ·.key)).map Contribution.labelled = offersTo h k offered := by
  rw [offersTo, ← hown, List.filter_map, List.map_map]
  rfl

/-! ### Contributions as passed on -/

section PassingOn

variable {root : TypeKey} (hw : h.WellFormed root) (hj : Joined h offered own)
  (hj' : Joined h offered' own')
include hw hj hj'

/-- As passed on, the contributions to a type depend on those made for each single target. -/
theorem map_labelled_of_propagation (hc : c.precedence = .propagation) : ∀ n ∈ h.nodes,
    (∀ target, target = n.key ∨ h.IsAncestor target n.key →
      (own.filter (·.target = target)).map Contribution.labelled =
        (own'.filter (·.target = target)).map Contribution.labelled) →
    (contributionsTo c h own n.key).map Contribution.labelled =
      (contributionsTo c h own' n.key).map Contribution.labelled := by
  refine hw.parents_induction fun n hn ih htargets => ?_
  have hinherited : (n.parents.flatMap (contributionsTo c h own)).map Contribution.labelled =
      (n.parents.flatMap (contributionsTo c h own')).map Contribution.labelled := by
    rw [List.map_flatMap, List.map_flatMap]
    refine List.flatMap_congr fun k hk => ?_
    obtain ⟨m, hm, rfl⟩ := hw.exists_parent hn hk
    exact ih m (hw.mem_parents.2 ⟨hm, hk⟩) fun target ht =>
      htargets target (.inr (hw.isAncestor_of_parent hn hk ht))
  rw [contributionsTo_eq_append hw hj hn hc, contributionsTo_eq_append hw hj' hn hc,
    List.map_append, List.map_append, htargets n.key (.inl rfl),
    Contributions.map_addNew_congr (fun _ => rfl) rfl hinherited]

end PassingOn

/-! ### Contributions by depth -/

section Depth

variable {root : TypeKey} (hw : h.WellFormed root) {n : Node} (hn : n ∈ h.nodes)
include hw hn

theorem contributionsTo_perm (hown : (own.map Contribution.key).Nodup) :
    (contributionsTo c h own n.key).Perm (own.filter (concerns h n.key ·.key)) := by
  refine (List.perm_ext_iff_of_nodup (.of_map _ (nodup_contributionsTo hw hn))
    ((List.Nodup.of_map _ hown).filter _)).2 fun b => ?_
  rw [mem_contributionsTo hw hown hn, List.mem_filter, concerns_key hw hn]

/-- Of two contributions to a type as deep as each other the first is the one that was offered
    first, and so the one that comes first among those to the type. -/
theorem pairwise_labelled_of_depth (hj : Joined h offered own) (hc : c.precedence = .depth)
    {keys : List ContributionKey}
    (hkeys : (own.filter (concerns h n.key ·.key)).map Contribution.key = keys) :
    ((contributionsTo c h own n.key).map Contribution.labelled).Pairwise fun x y =>
      toLex (targetDepth h x.1, keys.idxOf x.1) < toLex (targetDepth h y.1, keys.idxOf y.1) := by
  have hordered : keys.Pairwise fun k k' => ¬ firstOffer offered k' < firstOffer offered k := by
    rw [← hkeys, List.pairwise_map]
    refine (List.Pairwise.and_mem.1 (hj.ordered.filter _)).imp fun {a b} ⟨ha, hb, hlt⟩ => ?_
    rw [hj.rank a (List.mem_filter.1 ha).1, hj.rank b (List.mem_filter.1 hb).1] at hlt
    exact Nat.lt_asymm hlt
  have hmem {b : Contribution β} (hb : b ∈ contributionsTo c h own n.key) : b.key ∈ keys :=
    hkeys ▸ List.mem_map_of_mem ((contributionsTo_perm hw hn hj.nodup).mem_iff.1 hb)
  rw [List.pairwise_map]
  refine (List.Pairwise.and_mem.1 (List.pairwise_map.1 (pairwise_of_depth hw hj hn hc))).imp ?_
  rintro a b ⟨ha, hb, hlt⟩
  rw [Prod.Lex.toLex_lt_toLex] at hlt ⊢
  refine hlt.imp_right fun ⟨hdepth, hfirst⟩ => ⟨hdepth, ?_⟩
  exact idxOf_lt_idxOf_of_pairwise (R := fun k k' => firstOffer offered k < firstOffer offered k')
    hordered (fun _ => Nat.lt_irrefl _) (hmem ha) (hmem hb) hfirst

/-- By depth, the contributions to a type depend on those made for the type and its ancestors. -/
theorem map_labelled_of_depth (hj : Joined h offered own) (hj' : Joined h offered' own')
    (hc : c.precedence = .depth)
    (e : (own.filter (concerns h n.key ·.key)).map Contribution.labelled =
      (own'.filter (concerns h n.key ·.key)).map Contribution.labelled) :
    (contributionsTo c h own n.key).map Contribution.labelled =
      (contributionsTo c h own' n.key).map Contribution.labelled := by
  have hperm : ((contributionsTo c h own n.key).map Contribution.labelled).Perm
      ((contributionsTo c h own' n.key).map Contribution.labelled) := by
    refine ((contributionsTo_perm hw hn hj.nodup).map _).trans ?_
    rw [e]
    exact ((contributionsTo_perm hw hn hj'.nodup).map _).symm
  exact hperm.eq_of_pairwise (fun _ _ _ _ hlt hgt => absurd hgt (lt_asymm hlt))
    (pairwise_labelled_of_depth hw hn hj hc rfl)
    (pairwise_labelled_of_depth hw hn hj' hc (Contributions.map_key_eq_of_labelled e).symm)

end Depth

/-! ### Behaviors of two factories -/

/-- Both factories have a behavior for the type, and the behaviors are composed of the same
    contributors and do the same. -/
def SameAt (f f' : Factory β) (k : TypeKey) : Prop :=
  ∃ b b', f.get? k = some b ∧ f'.get? k = some b' ∧ b.contributors = b'.contributors ∧
    b.shared.behavior = b'.shared.behavior

section SameAt

variable {root : TypeKey} (hw : h.WellFormed root) {n : Node} (hn : n ∈ h.nodes)
include hw hn

theorem sameAt_of_labelled (hown : (own.map Contribution.key).Nodup)
    (hown' : (own'.map Contribution.key).Nodup)
    (e : (contributionsTo c h own n.key).map Contribution.labelled =
      (contributionsTo c h own' n.key).map Contribution.labelled) :
    SameAt (ofContributions c h own) (ofContributions c h own') n.key := by
  obtain ⟨b, hb, hkeys, hbehavior⟩ := exists_behavior (c := c) hw hown hn
  obtain ⟨b', hb', hkeys', hbehavior'⟩ := exists_behavior (c := c) hw hown' hn
  refine ⟨b, b', hb, hb', ?_, ?_⟩
  · rw [hkeys, hkeys', Contributions.keys_eq_of_labelled e]
  · rw [hbehavior, hbehavior', Contributions.behavior_eq_of_labelled e]

/-- The offers to a type for one target. -/
theorem filter_offersTo (hown : own.map (fun b => (b.key, b.shared)) = firsts offered)
    {target : TypeKey} (ht : target = n.key ∨ h.IsAncestor target n.key) :
    (offersTo h n.key offered).filter (·.1.target? = some target) =
      (own.filter (·.target = target)).map Contribution.labelled := by
  rw [← labelled_filter_concerns hown, List.filter_map, List.filter_filter]
  refine congrArg _ (List.filter_congr fun b _ => ?_)
  rw [Function.comp_apply, Bool.eq_iff_iff, Bool.and_eq_true, concerns_key hw hn]
  simp only [Contribution.labelled, Contribution.target?_key, Option.some.injEq,
    decide_eq_true_eq]
  exact and_iff_left_of_imp fun e => e ▸ ht

variable (hj : Joined h offered own) (hj' : Joined h offered' own')
  (hown : own.map (fun b => (b.key, b.shared)) = firsts offered)
  (hown' : own'.map (fun b => (b.key, b.shared)) = firsts offered')
include hj hj' hown hown'

theorem sameAt_of_targets (hc : c.precedence = .propagation)
    (e : ∀ target, (offersTo h n.key offered).filter (·.1.target? = some target) =
      (offersTo h n.key offered').filter (·.1.target? = some target)) :
    SameAt (ofContributions c h own) (ofContributions c h own') n.key := by
  refine sameAt_of_labelled hw hn hj.nodup hj'.nodup ?_
  refine map_labelled_of_propagation hw hj hj' hc n hn fun target ht => ?_
  rw [← filter_offersTo hw hn hown ht, ← filter_offersTo hw hn hown' ht, e]

theorem sameAt_of_offersTo (e : offersTo h n.key offered = offersTo h n.key offered') :
    SameAt (ofContributions c h own) (ofContributions c h own') n.key := by
  cases hc : c.precedence with
  | propagation => exact sameAt_of_targets hw hn hj hj' hown hown' hc fun target => by rw [e]
  | depth =>
    refine sameAt_of_labelled hw hn hj.nodup hj'.nodup (map_labelled_of_depth hw hn hj hj' hc ?_)
    rw [labelled_filter_concerns hown, labelled_filter_concerns hown', e]

end SameAt

/-! ### Offers that do not matter -/

/-- One more offer, which is not made for the type or an ancestor, or has the key of an earlier
    one. -/
def Adds (h : Hierarchy) (k : TypeKey) (offered offered' : List (ContributionKey × Shared β)) :
    Prop :=
  ∃ before o after, offered = before ++ after ∧ offered' = before ++ o :: after ∧
    (o.1 ∈ before.map Prod.fst ∨ concerns h k o.1 = false)

theorem Adds.offersTo_eq {k : TypeKey} (ha : Adds h k offered offered') :
    offersTo h k offered' = offersTo h k offered := by
  obtain ⟨before, o, after, rfl, rfl, ho | ho⟩ := ha
  · rw [offersTo, firsts_append_cons ho, offersTo]
  · rw [offersTo, filter_firsts, List.filter_append, List.filter_cons_of_neg (by simp [ho]),
      ← List.filter_append, ← filter_firsts, offersTo]

theorem offersTo_of_adds {k : TypeKey} (ha : Relation.ReflTransGen (Adds h k) offered offered') :
    offersTo h k offered' = offersTo h k offered := by
  induction ha with
  | refl => rfl
  | tail _ ha ih => exact ha.offersTo_eq.trans ih

/-- The behavior of a type depends on what is offered to the type and its ancestors, of each key
    the first. As passed on, it is enough that this is the same for each single target, whatever
    the order of different targets. So offers for other types do not matter, nor do later ones
    with the same name and target, even of another behavior. -/
theorem locality_of_build {f f' : Factory β} (hs : h.Sealed)
    (hf : build c h m tags discovered fixed = .ok f)
    (hf' : build c h m tags discovered' fixed' = .ok f') {n : Node} (hn : n ∈ h.nodes) :
    (offersTo h n.key (offers tags discovered fixed) =
        offersTo h n.key (offers tags discovered' fixed') → SameAt f f' n.key) ∧
    (c.precedence = .propagation →
      (∀ target, (offersTo h n.key (offers tags discovered fixed)).filter
          (·.1.target? = some target) =
        (offersTo h n.key (offers tags discovered' fixed')).filter (·.1.target? = some target)) →
      SameAt f f' n.key) ∧
    ∀ offered, Relation.ReflTransGen (Adds h n.key) offered (offers tags discovered fixed) →
      Relation.ReflTransGen (Adds h n.key) offered (offers tags discovered' fixed') →
      SameAt f f' n.key := by
  obtain ⟨root, hw⟩ := hs.wellFormed
  obtain ⟨paired, own, hp, hjoin, rfl⟩ := exists_join_of_build hf
  obtain ⟨paired', own', hp', hjoin', rfl⟩ := exists_join_of_build hf'
  have hj := joined_offers hp hjoin
  have hj' := joined_offers hp' hjoin'
  have hown := map_join hp hjoin
  have hown' := map_join hp' hjoin'
  have hall := sameAt_of_offersTo (c := c) hw hn hj hj' hown hown'
  exact ⟨hall, sameAt_of_targets hw hn hj hj' hown hown', fun offered ha ha' =>
    hall ((offersTo_of_adds ha).trans (offersTo_of_adds ha').symm)⟩

open Dogs in
/-- Pets do not notice a hook for dogs, and dogs do not notice another one of the same name. For
    validation it does not matter to dogs in which order those for dogs and those for all types
    were discovered. -/
theorem locality_of_build_dogs :
    (∃ f f', build .logic (.built discovery) metadata .declared [tamed] [] = .ok f ∧
      build .logic (.built discovery) metadata .declared [noted, tamed] [] = .ok f' ∧
      SameAt f f' pet) ∧
    (∃ f f', build .logic (.built discovery) metadata .declared [noted, tamed] [] = .ok f ∧
      build .logic (.built discovery) metadata .declared [noted, tamed] [(dog, notedTwice)] =
        .ok f' ∧ SameAt f f' dog) ∧
    ∃ f f', build .validation (.built discovery) metadata .declared [trained, named] [] = .ok f ∧
      build .validation (.built discovery) metadata .declared [named, trained] [] = .ok f' ∧
      SameAt f f' dog := by
  obtain ⟨n, hn, hkey⟩ : ∃ n ∈ (Hierarchy.built discovery).nodes, n.key = dog := by decide
  obtain ⟨p, hp, hpet⟩ : ∃ n ∈ (Hierarchy.built discovery).nodes, n.key = pet := by decide
  refine ⟨?_, ?_, ?_⟩
  · obtain ⟨f, hf⟩ : ∃ f, build .logic (.built discovery) metadata .declared [tamed] [] = .ok f :=
      ⟨_, rfl⟩
    obtain ⟨f', hf'⟩ : ∃ f, build .logic (.built discovery) metadata .declared [noted, tamed] [] =
        .ok f := ⟨_, rfl⟩
    have hother : concerns (.built discovery) p.key (.named "noted" dog) = false := by
      rw [hpet]
      cbv
    have hsame := (locality_of_build (Hierarchy.sealed_built _) hf hf' hp).2.2 _ .refl
      (.single ⟨[], offer (dog, noted), _, rfl, rfl, .inr hother⟩)
    exact ⟨f, f', hf, hf', hpet ▸ hsame⟩
  · obtain ⟨f, hf⟩ : ∃ f, build .logic (.built discovery) metadata .declared [noted, tamed] [] =
        .ok f := ⟨_, rfl⟩
    obtain ⟨f', hf'⟩ : ∃ f, build .logic (.built discovery) metadata .declared [noted, tamed]
        [(dog, notedTwice)] = .ok f := ⟨_, rfl⟩
    have hlater : Adds (.built discovery) n.key (offers .declared [noted, tamed] [])
        (offers .declared [noted, tamed] [(dog, notedTwice)]) :=
      ⟨_, offer (dog, notedTwice), [], (List.append_nil _).symm, rfl, .inl (by decide)⟩
    have hsame := (locality_of_build (Hierarchy.sealed_built _) hf hf' hn).1 hlater.offersTo_eq.symm
    exact ⟨f, f', hf, hf', hkey ▸ hsame⟩
  · obtain ⟨f, hf⟩ : ∃ f, build .validation (.built discovery) metadata .declared
        [trained, named] [] = .ok f := ⟨_, rfl⟩
    obtain ⟨f', hf'⟩ : ∃ f, build .validation (.built discovery) metadata .declared
        [named, trained] [] = .ok f := ⟨_, rfl⟩
    have hsame := (locality_of_build (Hierarchy.sealed_built _) hf hf' hn).2.1 rfl
    rw [hkey] at hsame
    have hoffers : offersTo (.built discovery) dog (offers .declared [trained, named] []) =
        [(.named "trained" dog, .noOp), (.named "named" ⟨"Resource"⟩, .noOp)] := by cbv
    have hoffers' : offersTo (.built discovery) dog (offers .declared [named, trained] []) =
        [(.named "named" ⟨"Resource"⟩, .noOp), (.named "trained" dog, .noOp)] := by cbv
    refine ⟨f, f', hf, hf', hsame fun target => ?_⟩
    rw [hoffers, hoffers']
    by_cases ht : dog = target
    · subst ht
      rfl
    · simp [List.filter_cons, ContributionKey.target?, ht]

end Factory

end Lineage
