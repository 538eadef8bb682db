import Lineage.Proofs.Behavior.Contributions

/-!
# Joining contributions

What contributors offer is collected in one list, what was discovered before what
was fixed beforehand (`Factory.offers`). Of the offers with the same name and
target only the first becomes a contribution (`Factory.Joined`): it has the
behavior of the first, and its rank is the position of the first.

The contributions to a type are those of them whose target is the type or one of
its ancestors (`Factory.mem_contributionsTo`). So the key of a contribution to a
type tells which one it is, also in another type.
-/

namespace Lineage

namespace Factory

variable {β : Type} {c : Capability β} {h : Hierarchy} {m : Metadata} {tags : TagReader}
  {discovered : List (Contributor β)} {fixed : List (TypeKey × Contributor β)}

/-! ### Offers -/

/-- What a contributor with a target offers, under the key of the contribution. -/
def offer (e : TypeKey × Contributor β) : ContributionKey × Shared β :=
  (.named e.2.tag.name e.1, e.2.shared)

/-- What the contributors offer: first those that were discovered, then those fixed
    beforehand. -/
def offers (tags : TagReader) (discovered : List (Contributor β))
    (fixed : List (TypeKey × Contributor β)) : List (ContributionKey × Shared β) :=
  (discovered.filterMap fun x => (tags x.tag).map fun target => offer (target, x)) ++
    fixed.map offer

theorem offers_of_pair {paired : List (TypeKey × Contributor β)}
    (hp : pair tags discovered = .ok paired) (fixed : List (TypeKey × Contributor β)) :
    offers tags discovered fixed = (paired ++ fixed).map offer := by
  rw [offers, List.map_append, ← List.filterMap_eq_map, List.append_left_inj]
  rw [pair, mapM_eq_ok] at hp
  induction hp with
  | nil => rfl
  | @cons x e _ _ hxe _ ih =>
    cases ht : tags x.tag with
    | none => simp [ht] at hxe
    | some target =>
      obtain rfl : (target, x) = e := by simpa [ht] using hxe
      simpa [ht] using ih

/-- What has been joined from offers: of each key the first. -/
structure Joined (h : Hierarchy) (offered : List (ContributionKey × Shared β))
    (own : Contributions β) : Prop where
  /-- No key occurs twice. -/
  nodup : (own.map Contribution.key).Nodup
  /-- A contribution is the first offer with its key. -/
  shared : ∀ b ∈ own, offered.lookup b.key = some b.shared
  /-- Its rank is the position of that offer. -/
  rank : ∀ b ∈ own, b.rank = (offered.map Prod.fst).idxOf b.key
  /-- The contributions are in the order of the offers. -/
  ordered : own.Pairwise fun a b => a.rank < b.rank
  /-- The targets are types, of the depths that are noted. -/
  located : ∀ b ∈ own, ∃ n, h.locate? b.target = some n ∧ b.depth = n.depth

/-- A contribution is made for a target that is a type, with the depth of that type. -/
theorem exists_located_of_contribution {rank : Nat} {target : TypeKey} {x : Contributor β}
    {b : Contribution β} (hb : contribution h m rank target x = .ok b) :
    ∃ n, h.locate? target = some n ∧ b = ⟨x.tag.name, target, n.depth, rank, x.shared⟩ := by
  rw [contribution] at hb
  split at hb
  next n _ hn _ => exact ⟨n, hn, (Except.ok.inj hb).symm⟩
  next => exact absurd hb (by simp)

/-- Before any are dropped there is one contribution for each offer, with its place
    as its rank. -/
theorem exists_contributions_of_join {paired : List (TypeKey × Contributor β)}
    {own : Contributions β} (hj : join h m paired = .ok own) :
    ∃ cs, own = addNew Contribution.key [] cs ∧
      paired.map offer = cs.map (fun b => (b.key, b.shared)) ∧
      cs.map Contribution.rank = List.range cs.length ∧
      ∀ b ∈ cs, ∃ n, h.locate? b.target = some n ∧ b.depth = n.depth := by
  obtain ⟨cs, hcs, hown⟩ := bind_eq_ok.1 hj
  have heach (e : (TypeKey × Contributor β) × Nat) (b : Contribution β)
      (hb : contribution h m e.2 e.1.1 e.1.2 = .ok b) :
      offer e.1 = (b.key, b.shared) ∧ e.2 = b.rank ∧
        ∃ n, h.locate? b.target = some n ∧ b.depth = n.depth := by
    obtain ⟨n, hn, rfl⟩ := exists_located_of_contribution hb
    exact ⟨rfl, rfl, n, hn, rfl⟩
  have hlength := (mapM_eq_ok.1 hcs).length_eq
  refine ⟨cs, (pure_eq_ok.1 hown).symm, ?_, ?_, fun b hb => ?_⟩
  · rw [← map_eq_of_mapM_eq_ok (g := fun e => offer e.1) hcs fun e b hb => (heach e b hb).1,
      ← Function.comp_def, ← List.map_map, List.zipIdx_map_fst]
  · rw [← map_eq_of_mapM_eq_ok (g := Prod.snd) hcs fun e b hb => (heach e b hb).2.1,
      List.zipIdx_map_snd, ← hlength, List.length_zipIdx, List.range_eq_range']
  · obtain ⟨e, _, hb⟩ := (exists_of_mapM_eq_ok hcs).2 b hb
    exact (heach e b hb).2.2

theorem joined_of_join {paired : List (TypeKey × Contributor β)} {own : Contributions β}
    (hj : join h m paired = .ok own) : Joined h (paired.map offer) own := by
  obtain ⟨cs, rfl, hoffers, hranks, hlocated⟩ := exists_contributions_of_join hj
  have hnodup := nodup_addNew_nil Contribution.key cs
  obtain ⟨own, hown, hsub, hmem⟩ := exists_addNew Contribution.key [] cs
  rw [List.nil_append] at hown
  rw [hown] at hnodup ⊢
  rw [hoffers]
  have hfirst : ∀ b ∈ own, ∃ before after, cs = before ++ b :: after ∧
      ∀ a ∈ before, a.key ≠ b.key := by
    intro b hb
    obtain ⟨_, before, after, e, hne⟩ := List.find?_eq_some_iff_append.1 ((hmem b).1 hb).2
    exact ⟨before, after, e, by simpa using hne⟩
  refine ⟨hnodup, fun b hb => ?_, fun b hb => ?_, ?_, fun b hb => hlocated b (hsub.subset hb)⟩
  · obtain ⟨before, after, rfl, hne⟩ := hfirst b hb
    refine List.lookup_eq_some_iff.2 ⟨before.map fun b => (b.key, b.shared),
      after.map fun b => (b.key, b.shared), by simp, fun e he => ?_⟩
    obtain ⟨a, ha, rfl⟩ := List.mem_map.1 he
    simpa using (hne a ha).symm
  · -- its rank is its place before any were dropped
    obtain ⟨before, after, rfl, hne⟩ := hfirst b hb
    have hkeys : b.key ∉ before.map Contribution.key := by simpa using hne
    have hrank : b.rank = before.length := by
      have := congrArg (·[before.length]?) hranks
      simpa using this
    rw [List.map_map, hrank]
    change _ = (List.map Contribution.key _).idxOf b.key
    rw [List.map_append, List.map_cons, List.idxOf_append_of_notMem hkeys, List.idxOf_cons_self,
      List.length_map, Nat.add_zero]
  · have : cs.Pairwise fun a b => a.rank < b.rank := by
      rw [← List.pairwise_map (f := Contribution.rank) (R := (· < ·)), hranks]
      exact List.pairwise_lt_range
    exact this.sublist hsub

theorem joined_offers {paired : List (TypeKey × Contributor β)} {own : Contributions β}
    (hp : pair tags discovered = .ok paired) (hj : join h m (paired ++ fixed) = .ok own) :
    Joined h (offers tags discovered fixed) own := by
  rw [offers_of_pair hp]
  exact joined_of_join hj

/-- A factory is made of the contributions joined from what is offered. -/
theorem exists_joined {f : Factory β} (hf : build c h m tags discovered fixed = .ok f) :
    ∃ own, f = ofContributions c h own ∧ Joined h (offers tags discovered fixed) own := by
  obtain ⟨paired, own, hp, hj, hf⟩ := exists_join_of_build hf
  exact ⟨own, hf, joined_offers hp hj⟩

theorem Joined.eq_of_key_eq {offered : List (ContributionKey × Shared β)} {own : Contributions β}
    (hj : Joined h offered own) {a b : Contribution β} (ha : a ∈ own) (hb : b ∈ own)
    (e : a.key = b.key) : a = b :=
  List.inj_on_of_nodup_map hj.nodup ha hb e

theorem Joined.key_mem {offered : List (ContributionKey × Shared β)} {own : Contributions β}
    (hj : Joined h offered own) {b : Contribution β} (hb : b ∈ own) :
    b.key ∈ offered.map Prod.fst := by
  obtain ⟨before, after, e, _⟩ := List.lookup_eq_some_iff.1 (hj.shared b hb)
  rw [e, List.map_append, List.map_cons]
  exact List.mem_append_right _ List.mem_cons_self

/-! ### Contributions to a type -/

section PassingOn

variable {own : Contributions β} {root : TypeKey} (hw : h.WellFormed root)
include hw

theorem contributionsTo_subset : ∀ n ∈ h.nodes, contributionsTo c h own n.key ⊆ own := by
  refine hw.parents_induction fun n hn ih b hb => ?_
  rw [contributionsTo_eq hw hn, gather, (Contributions.sortBy_perm ..).mem_iff] at hb
  obtain hb | hb := mem_of_mem_addNew _ hb
  · obtain ⟨k, hk, hb⟩ := List.mem_flatMap.1 (mem_of_mem_addNew_nil _ hb)
    obtain ⟨m, hm, rfl⟩ := hw.exists_parent hn hk
    exact ih m (hw.mem_parents.2 ⟨hm, hk⟩) hb
  · exact (List.mem_filter.1 hb).1

/-- The contributions to a type are those whose target is the type or one of its
    ancestors. -/
theorem mem_contributionsTo (hown : (own.map Contribution.key).Nodup) {n : Node}
    (hn : n ∈ h.nodes) {b : Contribution β} :
    b ∈ contributionsTo c h own n.key ↔
      b ∈ own ∧ (b.target = n.key ∨ h.IsAncestor b.target n.key) := by
  have hsub : contributionsTo c h own n.key ⊆ own := contributionsTo_subset hw n hn
  constructor
  · intro hb
    obtain ⟨b', hb', hkey, htarget⟩ :=
      (mem_map_key_contributionsTo hw n hn).1 (List.mem_map_of_mem hb)
    exact ⟨hsub hb, List.inj_on_of_nodup_map hown hb' (hsub hb) hkey ▸ htarget⟩
  · rintro ⟨hb, htarget⟩
    obtain ⟨b', hb', hkey⟩ := List.mem_map.1
      ((mem_map_key_contributionsTo (c := c) hw n hn).2 ⟨b, hb, rfl, htarget⟩)
    exact List.inj_on_of_nodup_map hown (hsub hb') hb hkey ▸ hb'

theorem exists_get? {n : Node} (hn : n ∈ h.nodes) :
    ∃ b, (ofContributions c h own).get? n.key = some b ∧
      b.contributors = (contributionsTo c h own n.key).keys := by
  have hk : ((ofContributions c h own).get? n.key).isSome = true :=
    (isSome_get? hw).trans (hw.contains_iff.2 ⟨n, hn, rfl⟩)
  obtain ⟨b, hb⟩ := Option.isSome_iff_exists.1 hk
  obtain ⟨_, _, _, hkeys⟩ := contributors_eq hw hb
  exact ⟨b, hb, hkeys⟩

end PassingOn

end Factory

end Lineage
