import Lineage.Proofs.Behavior.Joining
import Mathlib.Data.Prod.Lex

/-!
# The order in which contributions run

A contribution runs after those made for the ancestors of its target, and after
those that were offered for its target before it (`Factory.Precedes`). Both ways of
ordering contributions keep to that (`Factory.order_of_build`):

* *By depth* the contributions are sorted, and ancestors are less deep. No two are
  alike, since of the offers with one key only the first counts.
* *As passed on* nothing is sorted. What a parent passes on is complete: together
  with a contribution it holds all that have to run before it. So where the lists of
  the parents are joined, what the later parents add does not have to run before
  anything that is there already (`Factory.Arranged.join`).
-/

namespace Lineage

/-- The target of a contribution. -/
def ContributionKey.target? : ContributionKey → Option TypeKey
  | noOp => none
  | named _ target => some target

@[simp]
theorem Contribution.target?_key {β : Type} (b : Contribution β) : b.key.target? = some b.target :=
  rfl

/-- In a list where nothing has to stand before what precedes it, what has to stand
    before something else does so. -/
theorem idxOf_lt_idxOf_of_pairwise {α : Type} [DecidableEq α] {R : α → α → Prop} {l : List α}
    (hl : l.Pairwise fun a b => ¬ R b a) (hirrefl : ∀ a, ¬ R a a) {a b : α} (ha : a ∈ l)
    (hb : b ∈ l) (hab : R a b) : l.idxOf a < l.idxOf b := by
  by_contra hle
  rcases Nat.lt_or_eq_of_le (Nat.le_of_not_lt hle) with hlt | heq
  · have := List.pairwise_iff_getElem.1 hl _ _ (List.idxOf_lt_length_of_mem hb)
      (List.idxOf_lt_length_of_mem ha) hlt
    rw [List.getElem_idxOf, List.getElem_idxOf] at this
    exact this hab
  · exact hirrefl a ((List.idxOf_inj hb).1 heq ▸ hab)

namespace Contributions

variable {β : Type}

theorem pairwise_sortBy_depth (cs : Contributions β) :
    (cs.sortBy .depth).Pairwise fun a b => toLex (a.depth, a.rank) ≤ toLex (b.depth, b.rank) := by
  have hle (a b : Contribution β) :
      (a.depth < b.depth || (a.depth = b.depth && a.rank ≤ b.rank) : Bool) = true ↔
        toLex (a.depth, a.rank) ≤ toLex (b.depth, b.rank) := by
    simp [Prod.Lex.toLex_le_toLex]
  refine (List.pairwise_mergeSort (fun a b c => ?_) (fun a b => ?_) cs).imp (hle _ _).1
  · simp only [hle]
    exact le_trans
  · simp only [Bool.or_eq_true, hle]
    exact le_total _ _

end Contributions

namespace Factory

variable {β : Type} {c : Capability β} {h : Hierarchy} {m : Metadata} {tags : TagReader}
  {discovered : List (Contributor β)} {fixed : List (TypeKey × Contributor β)}
  {offered : List (ContributionKey × Shared β)}

/-! ### What has to run first -/

/-- The position of the first offer with the given key. -/
def firstOffer (offered : List (ContributionKey × Shared β)) (k : ContributionKey) : Nat :=
  (offered.map Prod.fst).idxOf k

/-- The depth of the target of a contribution. -/
def targetDepth (h : Hierarchy) (k : ContributionKey) : Nat :=
  (k.target?.bind h.locate?).elim 0 Node.depth

/-- The first contribution has to run before the second: the target of the second is
    a proper descendant of that of the first, or they have the same target and the
    first was offered first. -/
def Precedes (h : Hierarchy) (offered : List (ContributionKey × Shared β))
    (k k' : ContributionKey) : Prop :=
  ∃ target target', k.target? = some target ∧ k'.target? = some target' ∧
    (h.IsAncestor target target' ∨
      target = target' ∧ firstOffer offered k < firstOffer offered k')

theorem precedes_key {a b : Contribution β} :
    Precedes h offered a.key b.key ↔ h.IsAncestor a.target b.target ∨
      a.target = b.target ∧ firstOffer offered a.key < firstOffer offered b.key := by
  simp [Precedes]

theorem not_precedes_self {root : TypeKey} (hw : h.WellFormed root) (k : ContributionKey) :
    ¬ Precedes h offered k k := by
  rintro ⟨target, target', ht, ht', hp⟩
  obtain rfl : target = target' := Option.some.inj (ht.symm.trans ht')
  rcases hp with ha | ⟨_, hlt⟩
  · exact hw.not_isAncestor_self _ ha
  · exact Nat.lt_irrefl _ hlt

/-- What has to run first is less deep, or as deep and offered first. -/
theorem Precedes.lex_lt {root : TypeKey} (hw : h.WellFormed root) {k k' : ContributionKey}
    (hp : Precedes h offered k k') :
    toLex (targetDepth h k, firstOffer offered k) <
      toLex (targetDepth h k', firstOffer offered k') := by
  obtain ⟨target, target', ht, ht', hp⟩ := hp
  rw [Prod.Lex.toLex_lt_toLex, targetDepth, targetDepth, ht, ht']
  rcases hp with ha | ⟨rfl, hlt⟩
  · obtain ⟨m, hm, n, hn, rfl, rfl, hdepth⟩ := hw.exists_of_isAncestor ha
    rw [Option.bind_some, Option.bind_some, hw.locate?_key hm, hw.locate?_key hn]
    exact .inl hdepth
  · exact .inr ⟨rfl, hlt⟩

theorem Joined.targetDepth_key {own : Contributions β} (hj : Joined h offered own)
    {b : Contribution β} (hb : b ∈ own) : targetDepth h b.key = b.depth := by
  obtain ⟨n, hn, hdepth⟩ := hj.located b hb
  rw [hdepth, targetDepth, b.target?_key, Option.bind_some, hn]
  rfl

/-- Nothing in the list has to run before what stands in front of it. -/
def InOrder (h : Hierarchy) (offered : List (ContributionKey × Shared β))
    (cs : Contributions β) : Prop :=
  cs.Pairwise fun a b => ¬ Precedes h offered b.key a.key

/-- Contributions that are in order, with all that have to run before them. -/
structure Arranged (h : Hierarchy) (offered : List (ContributionKey × Shared β))
    (own cs : Contributions β) : Prop where
  subset : cs ⊆ own
  inOrder : InOrder h offered cs
  closed : ∀ b ∈ cs, ∀ a ∈ own, Precedes h offered a.key b.key → a ∈ cs

namespace Arranged

variable {own cs new : Contributions β}

theorem nil : Arranged h offered own [] where
  subset := List.nil_subset own
  inOrder := .nil
  closed _ hb := absurd hb List.not_mem_nil

theorem join (hj : Joined h offered own) (hcs : Arranged h offered own cs)
    (hnew : Arranged h offered own new) :
    Arranged h offered own (addNew Contribution.key cs new) := by
  obtain ⟨added, hadded, hsub, hmem⟩ := exists_addNew Contribution.key cs new
  rw [hadded]
  refine ⟨List.append_subset.2 ⟨hcs.subset, fun b hb => hnew.subset (hsub.subset hb)⟩, ?_, ?_⟩
  · refine List.pairwise_append.2 ⟨hcs.inOrder, hnew.inOrder.sublist hsub, ?_⟩
    intro a ha b hb hab
    have hnot : b.key ∉ cs.map Contribution.key := ((hmem b).1 hb).1
    exact hnot (List.mem_map_of_mem (hcs.closed a ha b (hnew.subset (hsub.subset hb)) hab))
  · intro b hb a ha hab
    rw [List.mem_append] at hb ⊢
    rcases hb with hb | hb
    · exact .inl (hcs.closed b hb a ha hab)
    · -- what is added comes from the other list, which is complete
      have ha' : a ∈ new := hnew.closed b (hsub.subset hb) a ha hab
      refine or_iff_not_imp_left.2 fun hnot => (hmem a).2 ⟨fun hkey => hnot ?_, ?_⟩
      · obtain ⟨a', ha', e⟩ := List.mem_map.1 hkey
        exact hj.eq_of_key_eq (hcs.subset ha') ha e ▸ ha'
      · cases hfind : new.find? (·.key = a.key) with
        | none => simpa using List.find?_eq_none.1 hfind a ha'
        | some a' =>
          have e : a'.key = a.key := by simpa using List.find?_some hfind
          rw [hj.eq_of_key_eq (hnew.subset (List.mem_of_find?_eq_some hfind)) ha e]

/-- What several types pass on. -/
theorem join_flatMap (hj : Joined h offered own) {passed : TypeKey → Contributions β}
    (ks : List TypeKey) (hks : ∀ k ∈ ks, Arranged h offered own (passed k))
    (hcs : Arranged h offered own cs) :
    Arranged h offered own (addNew Contribution.key cs (ks.flatMap passed)) := by
  induction ks generalizing cs with
  | nil => exact hcs
  | cons k ks ih =>
    obtain ⟨hk, hks⟩ := List.forall_mem_cons.1 hks
    rw [List.flatMap_cons, addNew_append]
    exact ih hks (hcs.join hj hk)

end Arranged

/-! ### Contributions to a type -/

section PassingOn

variable {own : Contributions β} {root : TypeKey} (hw : h.WellFormed root)
  (hj : Joined h offered own) {n : Node} (hn : n ∈ h.nodes)
include hw hj hn

/-- What the parents pass on was made for proper ancestors. -/
theorem isAncestor_of_mem_inherited {b : Contribution β}
    (hb : b ∈ n.parents.flatMap (contributionsTo c h own)) : h.IsAncestor b.target n.key := by
  obtain ⟨k, hk, hb⟩ := List.mem_flatMap.1 hb
  obtain ⟨m, hm, rfl⟩ := hw.exists_parent hn hk
  exact hw.isAncestor_of_parent hn hk ((mem_contributionsTo hw hj.nodup hm).1 hb).2

theorem contributionsTo_eq_append (hc : c.precedence = .propagation) :
    contributionsTo c h own n.key =
      addNew Contribution.key [] (n.parents.flatMap (contributionsTo c h own)) ++
        own.filter (·.target = n.key) := by
  rw [contributionsTo_eq hw hn, gather, hc]
  refine addNew_eq_append _ ?_
  rw [List.map_append]
  refine (nodup_addNew_nil _ _).append
    (hj.nodup.sublist (List.filter_sublist.map _)) fun key hkey hkey' => ?_
  -- what is inherited was not made for the type itself
  obtain ⟨a, ha, rfl⟩ := List.mem_map.1 ((mem_map_addNew_nil _ _).1 hkey)
  obtain ⟨b, hb, e⟩ := List.mem_map.1 hkey'
  have htarget : b.target = n.key := of_decide_eq_true (List.mem_filter.1 hb).2
  have hab : b.target = a.target := (ContributionKey.named.inj e).2
  have hanc := isAncestor_of_mem_inherited hw hj hn ha
  rw [← hab, htarget] at hanc
  exact hw.not_isAncestor_self n.key hanc

/-- With a contribution to a type, all that have to run before it are contributions to
    the type. -/
theorem closed_contributionsTo {a b : Contribution β} (hb : b ∈ contributionsTo c h own n.key)
    (ha : a ∈ own) (hab : Precedes h offered a.key b.key) :
    a ∈ contributionsTo c h own n.key := by
  rw [mem_contributionsTo hw hj.nodup hn] at hb ⊢
  refine ⟨ha, ?_⟩
  rcases precedes_key.1 hab with hab | ⟨hab, _⟩
  · exact .inr (hb.2.elim (fun e => e ▸ hab) hab.trans)
  · exact hab ▸ hb.2

omit hn in
/-- As passed on, contributions are in order: along the parents. -/
theorem inOrder_of_propagation (hc : c.precedence = .propagation) :
    ∀ n ∈ h.nodes, InOrder h offered (contributionsTo c h own n.key) := by
  refine hw.parents_induction fun n hn ih => ?_
  have hparents : ∀ k ∈ n.parents, Arranged h offered own (contributionsTo c h own k) := by
    intro k hk
    obtain ⟨m, hm, rfl⟩ := hw.exists_parent hn hk
    exact ⟨contributionsTo_subset hw m hm, ih m (hw.mem_parents.2 ⟨hm, hk⟩),
      fun b hb a ha => closed_contributionsTo hw hj hm hb ha⟩
  have hinherited := Arranged.join_flatMap hj n.parents hparents .nil
  rw [contributionsTo_eq_append hw hj hn hc]
  refine List.pairwise_append.2 ⟨hinherited.inOrder, ?_, fun a ha b hb hba => ?_⟩
  · -- those made for the type itself are in the order of the offers
    refine (List.Pairwise.and_mem.1 (hj.ordered.filter _)).imp fun {a b} ⟨ha, hb, hlt⟩ hba => ?_
    obtain ⟨ha, hta⟩ := List.mem_filter.1 ha
    obtain ⟨hb, htb⟩ := List.mem_filter.1 hb
    rcases precedes_key.1 hba with hanc | ⟨_, hlt'⟩
    · rw [of_decide_eq_true hta, of_decide_eq_true htb] at hanc
      exact hw.not_isAncestor_self n.key hanc
    · rw [hj.rank a ha, hj.rank b hb] at hlt
      exact Nat.lt_asymm hlt hlt'
  · have ha' := mem_of_mem_addNew_nil _ ha
    have hanc := isAncestor_of_mem_inherited hw hj hn ha'
    rw [← of_decide_eq_true (List.mem_filter.1 hb).2] at hanc
    rcases precedes_key.1 hba with hba | ⟨hba, _⟩
    · exact hw.not_isAncestor_self _ (hba.trans hanc)
    · rw [hba] at hanc
      exact hw.not_isAncestor_self _ hanc

/-- By depth, contributions are sorted, and no two are alike. -/
theorem pairwise_of_depth (hc : c.precedence = .depth) :
    ((contributionsTo c h own n.key).map Contribution.key).Pairwise fun k k' =>
      toLex (targetDepth h k, firstOffer offered k) <
        toLex (targetDepth h k', firstOffer offered k') := by
  have hkeys : (contributionsTo c h own n.key).Pairwise fun a b => a.key ≠ b.key :=
    List.pairwise_map.1 (nodup_contributionsTo hw hn)
  have hsorted : (contributionsTo c h own n.key).Pairwise fun a b =>
      toLex (a.depth, a.rank) ≤ toLex (b.depth, b.rank) := by
    rw [contributionsTo_eq hw hn, gather, hc]
    exact Contributions.pairwise_sortBy_depth _
  rw [List.pairwise_map]
  refine (List.Pairwise.and_mem.1 (hsorted.and hkeys)).imp ?_
  rintro a b ⟨ha, hb, hle, hne⟩
  have ha := contributionsTo_subset hw n hn ha
  have hb := contributionsTo_subset hw n hn hb
  rw [hj.targetDepth_key ha, hj.targetDepth_key hb, firstOffer, firstOffer, ← hj.rank a ha,
    ← hj.rank b hb]
  refine lt_of_le_of_ne hle fun e => hne ((List.idxOf_inj (hj.key_mem ha)).1 ?_)
  rw [← hj.rank a ha, ← hj.rank b hb]
  exact congrArg (fun x => (ofLex x).2) e

theorem inOrder_of_depth (hc : c.precedence = .depth) :
    InOrder h offered (contributionsTo c h own n.key) :=
  (List.pairwise_map.1 (pairwise_of_depth hw hj hn hc)).imp
    fun hlt (hba : Precedes h offered _ _) => lt_asymm hlt (hba.lex_lt hw)

/-- However contributions are ordered, they are in order. -/
theorem inOrder_contributionsTo : InOrder h offered (contributionsTo c h own n.key) := by
  cases hc : c.precedence with
  | propagation => exact inOrder_of_propagation hw hj hc n hn
  | depth => exact inOrder_of_depth hw hj hn hc

/-- As passed on, the contributions to the first parent come first. -/
theorem prefix_contributionsTo (hc : c.precedence = .propagation) {p : TypeKey}
    (hp : n.parents.head? = some p) :
    contributionsTo c h own p <+: contributionsTo c h own n.key := by
  obtain ⟨ks, hks⟩ := List.head?_eq_some_iff.1 hp
  obtain ⟨m, hm, rfl⟩ := hw.exists_parent hn (hks ▸ List.mem_cons_self)
  rw [contributionsTo_eq_append hw hj hn hc, hks, List.flatMap_cons, addNew_append,
    addNew_nil_of_nodup _ (nodup_contributionsTo hw hm)]
  exact (prefix_addNew _ _ _).trans (List.prefix_append _ _)

/-- As passed on, the contributions made for the type itself come last. -/
theorem exists_append_contributionsTo (hc : c.precedence = .propagation) :
    ∃ before last, contributionsTo c h own n.key = before ++ last ∧
      (∀ b ∈ before, b.target ≠ n.key) ∧ ∀ b ∈ last, b.target = n.key := by
  refine ⟨_, _, contributionsTo_eq_append hw hj hn hc, fun b hb e => ?_, fun b hb => ?_⟩
  · have hb := mem_of_mem_addNew_nil _ hb
    have hanc := isAncestor_of_mem_inherited hw hj hn hb
    rw [e] at hanc
    exact hw.not_isAncestor_self _ hanc
  · exact of_decide_eq_true (List.mem_filter.1 hb).2

end PassingOn

/-! ### The order of the keys -/

theorem pairwise_keys {R : ContributionKey → ContributionKey → Prop} {cs : Contributions β}
    (hcs : (cs.map Contribution.key).Pairwise R) : cs.keys.Pairwise R := by
  rw [Contributions.keys_eq_ite]
  split_ifs
  · exact List.pairwise_singleton R _
  · exact hcs

theorem keys_prefix {cs cs' : Contributions β} (hcs : cs ≠ []) (hpre : cs <+: cs') :
    cs.keys <+: cs'.keys := by
  have hcs' : cs' ≠ [] := by
    rintro rfl
    exact hcs (List.prefix_nil.1 hpre)
  rw [Contributions.keys_eq_ite, Contributions.keys_eq_ite, if_neg (by simpa using hcs),
    if_neg (by simpa using hcs')]
  exact hpre.map _

/-- What comes last among the contributions comes last among the keys. -/
theorem exists_append_keys {cs before last : Contributions β} {k : TypeKey}
    (hcs : cs = before ++ last) (hbefore : ∀ b ∈ before, b.target ≠ k)
    (hlast : ∀ b ∈ last, b.target = k) :
    ∃ front, cs.keys = front ++ cs.keys.filter (·.target? = some k) ∧
      ∀ key ∈ front, key.target? ≠ some k := by
  subst hcs
  rw [Contributions.keys_eq_ite]
  split_ifs with hempty
  · exact ⟨[.noOp], rfl, by simp [ContributionKey.target?]⟩
  · refine ⟨before.map Contribution.key, ?_, ?_⟩
    · rw [List.map_append, List.filter_append, List.filter_eq_nil_iff.2, List.filter_eq_self.2,
        List.nil_append]
      · simpa using hlast
      · simpa using hbefore
    · simpa using hbefore

/-- In the behavior of a type, ancestors' contributions come before descendants', and
    those for one target come as they were first offered. By depth, they are sorted
    by the depths of their targets and then by their first offers. As passed on, those
    to the first parent come first, and those made for the type itself last. -/
theorem order_of_build {f : Factory β} (hs : h.Sealed)
    (hf : build c h m tags discovered fixed = .ok f) {n : Node} (hn : n ∈ h.nodes) :
    ∃ b, f.get? n.key = some b ∧
      (∀ k ∈ b.contributors, ∀ k' ∈ b.contributors,
        Precedes h (offers tags discovered fixed) k k' →
          b.contributors.idxOf k < b.contributors.idxOf k') ∧
      (c.precedence = .depth → b.contributors.Pairwise fun k k' =>
        toLex (targetDepth h k, firstOffer (offers tags discovered fixed) k) <
          toLex (targetDepth h k', firstOffer (offers tags discovered fixed) k')) ∧
      (c.precedence = .propagation →
        (∀ p, n.parents.head? = some p → ∃ b', f.get? p = some b' ∧
          (b'.isNoOp = false → b'.contributors <+: b.contributors)) ∧
        ∃ front, b.contributors = front ++ b.contributors.filter (·.target? = some n.key) ∧
          ∀ k ∈ front, k.target? ≠ some n.key) := by
  obtain ⟨root, hw⟩ := hs.wellFormed
  obtain ⟨own, rfl, hj⟩ := exists_joined hf
  obtain ⟨b, hb, hkeys⟩ := exists_get? (c := c) hw hn
  refine ⟨b, hb, fun k hk k' hk' hp => ?_, fun hc => ?_, fun hc => ⟨fun p hp => ?_, ?_⟩⟩
  · have hin : b.contributors.Pairwise fun k k' =>
        ¬ Precedes h (offers tags discovered fixed) k' k := by
      rw [hkeys]
      exact pairwise_keys (List.pairwise_map.2 (inOrder_contributionsTo hw hj hn))
    exact idxOf_lt_idxOf_of_pairwise hin (not_precedes_self hw) hk hk' hp
  · rw [hkeys]
    exact pairwise_keys (pairwise_of_depth hw hj hn hc)
  · have hparent : p ∈ n.parents := List.mem_of_mem_head? hp
    obtain ⟨m, hm, rfl⟩ := hw.exists_parent hn hparent
    obtain ⟨b', hb', hkeys'⟩ := exists_get? (c := c) hw hm
    refine ⟨b', hb', fun hreal => ?_⟩
    rw [hkeys, hkeys']
    refine keys_prefix (fun hnil => ?_) (prefix_contributionsTo hw hj hn hc hp)
    rw [Composite.isNoOp, hkeys', Contributions.keys_eq_noOp.2 hnil] at hreal
    simp at hreal
  · obtain ⟨before, last, happ, hbefore, hlast⟩ := exists_append_contributionsTo hw hj hn hc
    rw [hkeys]
    exact exists_append_keys happ hbefore hlast

/-! ### Dogs -/

namespace Dogs

/-- A contributor for all types. -/
def named : Contributor Validator where
  tag := ⟨"named", some ⟨"Resource"⟩⟩
  shared := ⟨.contributed 0, .noOp⟩

/-- A contributor for dogs. -/
def trained : Contributor Validator where
  tag := ⟨"trained", some dog⟩
  shared := ⟨.contributed 2, .noOp⟩

end Dogs

open Dogs in
/-- What was made for dogs runs last, though it was discovered first. -/
theorem order_of_build_dogs :
    ∃ f b, build .validation (.built discovery) metadata .declared [trained, named] [(pet, tame)] =
        .ok f ∧ f.get? dog = some b ∧
      b.contributors =
        [.named "named" ⟨"Resource"⟩, .named "tame" pet, .named "trained" dog] ∧
      b.contributors.idxOf (.named "named" ⟨"Resource"⟩) <
        b.contributors.idxOf (.named "trained" dog) ∧
      ∃ b', f.get? animal = some b' ∧ b'.contributors <+: b.contributors := by
  obtain ⟨f, hf⟩ : ∃ f, build .validation (.built discovery) metadata .declared [trained, named]
      [(pet, tame)] = .ok f := ⟨_, rfl⟩
  obtain ⟨n, hn, hkey, hhead⟩ : ∃ n ∈ (Hierarchy.built discovery).nodes, n.key = dog ∧
      n.parents.head? = some animal := by decide
  obtain ⟨b, hb, hfirst, _, hlast⟩ := order_of_build (Hierarchy.sealed_built _) hf hn
  rw [hkey] at hb
  have hcontributors : b.contributors =
      [.named "named" ⟨"Resource"⟩, .named "tame" pet, .named "trained" dog] := by
    obtain rfl := Except.ok.inj hf
    obtain rfl := Option.some.inj hb
    rfl
  refine ⟨f, b, hf, hb, hcontributors, hfirst _ ?_ _ ?_ ?_, ?_⟩
  · simp [hcontributors]
  · simp [hcontributors]
  · refine ⟨⟨"Resource"⟩, dog, rfl, rfl, .inl (.tail (b := animal) (.single ?_) ?_)⟩
    all_goals
      unfold Hierarchy.IsParent
      decide
  · obtain ⟨b', hb', hprefix⟩ := (hlast rfl).1 animal hhead
    refine ⟨b', hb', hprefix ?_⟩
    obtain rfl := Except.ok.inj hf
    obtain rfl := Option.some.inj hb'
    rfl

end Factory

end Lineage
