import Lineage.Proofs.Behavior.Evaluation
import Lineage.Proofs.Behavior.Order
import Lineage.Proofs.Hierarchy.AncestorOrder

/-!
# Types that share a behavior

Two types have one and the same behavior if and only if the same contributions are made to
them, in the same order (`Factory.sharing_of_build`). This is told by the handles alone, whatever
the behaviors do.

* Composites are kept in a pool, and one that is there already is not made again. So no two of
  them have the same contributors. That no two have the same handle needs more, since a single
  contribution is not composed, but is the composite itself (`Capability.compose_cases`). Its
  handle is not among those that the pool gives out, and by no other contribution, if the
  contributors offer different behaviors (`Contributions.Apart`, `Pool.Exact.obtain`).
* The composites of all types are in one pool, together with the one for no contributions
  (`Factory.exists_pool`).

The behavior that does nothing is looked up at the root, and not in the pool. Where nothing is
registered for the root, it is the one of the root. Otherwise it is a new one, and this is right
only because then there is none in the pool (`Factory.noOp_eq_obtain`): what was made for the root
reaches every type, so if any type has no contributions then the root has none.
-/

namespace Lineage

/-! ### Composites and their handles -/

/-- The composite of a single contribution is the contribution. Any other has the given
    handle. -/
theorem Capability.compose_cases {β : Type} (c : Capability β) (handle : Handle)
    (cs : Contributions β) :
    (∃ b, cs = [b] ∧ c.compose handle (cs.entries.map Entry.slot) = b.shared) ∨
      (c.compose handle (cs.entries.map Entry.slot)).handle = handle := by
  have hslots : ((cs.map Contribution.shared).map some).reduceOption =
      cs.map Contribution.shared := by
    simp [List.reduceOption]
  rw [Contributions.compose_entries, compose, reduceOption_elide, hslots]
  rcases cs with _ | ⟨b, _ | ⟨b', rest⟩⟩
  · exact .inr rfl
  · exact .inl ⟨b, rfl, rfl⟩
  · exact .inr rfl

theorem Composite.same_iff {β : Type} {x y : Composite β} :
    x.same y = true ↔ x.shared.handle = y.shared.handle :=
  decide_eq_true_iff

theorem Composite.isNoOp_iff {β : Type} {x : Composite β} :
    x.isNoOp = true ↔ x.contributors = [.noOp] :=
  decide_eq_true_iff

variable {β : Type} {c : Capability β} {own : Contributions β}

/-- The contributions can be told apart by their handles, and from what is composed. -/
structure Contributions.Apart (own : Contributions β) : Prop where
  contributed : ∀ b ∈ own, ∃ serial, b.shared.handle = .contributed serial
  inj : ∀ a ∈ own, ∀ b ∈ own, a.shared.handle = b.shared.handle → a = b

/-- What is in order stays as it is. -/
theorem Contributions.sortBy_sortBy (precedence : Precedence) (cs : Contributions β) :
    (cs.sortBy precedence).sortBy precedence = cs.sortBy precedence := by
  cases precedence with
  | propagation => rfl
  | depth =>
    refine List.mergeSort_of_pairwise ((pairwise_sortBy_depth cs).imp fun {a b} hle => ?_)
    simpa [Prod.Lex.toLex_le_toLex] using hle

namespace Pool

variable {pool : Pool β}

/-- No two composites of the pool have the same contributors, and no two the same handle. -/
structure Exact (own : Contributions β) (pool : Pool β) : Prop where
  contributors : (pool.map Composite.contributors).Nodup
  handles : (pool.map fun x => x.shared.handle).Nodup
  /-- A composite is a contribution, or has got a number as its handle. -/
  origin : ∀ x ∈ pool,
    (∃ b ∈ own, x.contributors = [b.key] ∧ x.shared.handle = b.shared.handle) ∨
      ∃ serial < pool.length, x.shared.handle = .composed serial

theorem exact_nil (own : Contributions β) : Exact own [] where
  contributors := List.nodup_nil
  handles := List.nodup_nil
  origin _ hx := absurd hx List.not_mem_nil

theorem Exact.eq_of_contributors_eq (hp : pool.Exact own) {x y : Composite β} (hx : x ∈ pool)
    (hy : y ∈ pool) (h : x.contributors = y.contributors) : x = y :=
  List.inj_on_of_nodup_map hp.contributors hx hy h

theorem Exact.same_iff (hp : pool.Exact own) {x y : Composite β} (hx : x ∈ pool) (hy : y ∈ pool) :
    x.same y = true ↔ x.contributors = y.contributors := by
  rw [Composite.same_iff]
  constructor
  · intro h
    rw [List.inj_on_of_nodup_map hp.handles hx hy h]
  · intro h
    rw [hp.eq_of_contributors_eq hx hy h]

/-- A composite with new contributors, and with the handle of a contribution or the next number,
    can be added. -/
theorem Exact.append (hp : pool.Exact own) (hown : own.Apart) {x : Composite β}
    (hnew : x.contributors ∉ pool.map Composite.contributors)
    (hx : (∃ b ∈ own, x.contributors = [b.key] ∧ x.shared.handle = b.shared.handle) ∨
      x.shared.handle = .composed pool.length) :
    Exact own (pool ++ [x]) := by
  have hhandle : ∀ y ∈ pool, y.shared.handle ≠ x.shared.handle := by
    intro y hy h
    rcases hx with ⟨b, hb, hkeys, hxb⟩ | hx
    · obtain ⟨n, hn⟩ := hown.contributed b hb
      rcases hp.origin y hy with ⟨b', hb', hkeys', hyb'⟩ | ⟨serial, _, hserial⟩
      · -- the same contribution would have the same key
        obtain rfl := hown.inj b' hb' b hb (by rw [← hyb', h, hxb])
        exact hnew (List.mem_map.2 ⟨y, hy, hkeys'.trans hkeys.symm⟩)
      · rw [hserial, hxb, hn] at h
        exact nomatch h
    · rcases hp.origin y hy with ⟨b', hb', _, hyb'⟩ | ⟨serial, hlt, hserial⟩
      · obtain ⟨n, hn⟩ := hown.contributed b' hb'
        rw [hyb', hn, hx] at h
        exact nomatch h
      · rw [hserial, hx] at h
        exact Nat.lt_irrefl _ (Handle.composed.inj h ▸ hlt)
  refine ⟨?_, ?_, ?_⟩
  · rw [List.map_append]
    exact hp.contributors.append (List.nodup_singleton _) (List.disjoint_singleton.2 hnew)
  · rw [List.map_append]
    refine hp.handles.append (List.nodup_singleton _) (List.disjoint_singleton.2 fun h => ?_)
    obtain ⟨y, hy, h⟩ := List.mem_map.1 h
    exact hhandle y hy h
  · rw [List.length_append, List.length_singleton]
    refine List.forall_mem_append.2 ⟨fun y hy => ?_, List.forall_mem_singleton.2 ?_⟩
    · exact (hp.origin y hy).imp_right fun ⟨serial, hlt, h⟩ => ⟨serial, Nat.lt_succ_of_lt hlt, h⟩
    · exact hx.imp_right fun h => ⟨pool.length, Nat.lt_succ_self _, h⟩

/-- What is in the pool is obtained from there. -/
theorem Exact.obtain_of_mem (hp : pool.Exact own) {x : Composite β} (hx : x ∈ pool)
    {es : Entries β} (hkeys : x.contributors = es.keys) : (pool.obtain c es).1 = x := by
  rw [Pool.obtain]
  split
  next y hfind =>
    have hy : y.contributors = es.keys := by simpa using List.find?_some hfind
    exact hp.eq_of_contributors_eq (List.mem_of_find?_eq_some hfind) hx (hy.trans hkeys.symm)
  next hnone => exact absurd (decide_eq_true hkeys) (List.find?_eq_none.1 hnone x hx)

/-- What is not in the pool is made. -/
theorem obtain_of_forall_ne {es : Entries β} (hnew : ∀ x ∈ pool, x.contributors ≠ es.keys) :
    (pool.obtain c es).1 =
      ⟨c.compose (.composed pool.length) (es.map Entry.slot), es.keys⟩ := by
  have hnone : pool.find? (·.contributors = es.keys) = none :=
    List.find?_eq_none.2 fun x hx => by simpa using hnew x hx
  rw [Pool.obtain, hnone]

/-- What is obtained is in the pool, which stays exact. -/
theorem Exact.obtain (hp : pool.Exact own) (hown : own.Apart) {cs : Contributions β}
    (hcs : cs ⊆ own) :
    (pool.obtain c cs.entries).2.Exact own ∧
      (pool.obtain c cs.entries).1 ∈ (pool.obtain c cs.entries).2 ∧
      ∀ x, x ∈ (pool.obtain c cs.entries).2 ↔ x ∈ pool ∨ x = (pool.obtain c cs.entries).1 := by
  rw [Pool.obtain]
  split
  next x hfind =>
    have hx := List.mem_of_find?_eq_some hfind
    exact ⟨hp, hx, fun y => (or_iff_left_of_imp fun e => e ▸ hx).symm⟩
  next hnone =>
    refine ⟨hp.append hown ?_ ?_, List.mem_append_right _ List.mem_cons_self, fun y => ?_⟩
    · intro hmem
      obtain ⟨x, hx, h⟩ := List.mem_map.1 hmem
      exact absurd h (by simpa using List.find?_eq_none.1 hnone x hx)
    · refine (c.compose_cases _ cs).imp_left ?_
      intro hsingle
      obtain ⟨b, rfl, hshared⟩ := hsingle
      exact ⟨b, hcs List.mem_cons_self, rfl, congrArg Shared.handle hshared⟩
    · rw [List.mem_append, List.mem_singleton]

end Pool

namespace Factory

variable {h : Hierarchy} {m : Metadata} {tags : TagReader} {discovered : List (Contributor β)}
  {fixed : List (TypeKey × Contributor β)}

/-! ### Contributors that offer different behaviors -/

/-- No two contributors offer the same behavior, and none offers one that has been composed. -/
structure DistinctOffers (discovered : List (Contributor β))
    (fixed : List (TypeKey × Contributor β)) : Prop where
  nodup : ((discovered ++ fixed.map Prod.snd).map fun x => x.shared.handle).Nodup
  contributed : ∀ x ∈ discovered ++ fixed.map Prod.snd,
    ∃ serial, x.shared.handle = .contributed serial

/-- What is offered are the behaviors of the contributors, in their order, without those of
    contributors that have no target. -/
theorem offers_sublist (tags : TagReader) (discovered : List (Contributor β))
    (fixed : List (TypeKey × Contributor β)) :
    ((offers tags discovered fixed).map Prod.snd).Sublist
      ((discovered ++ fixed.map Prod.snd).map Contributor.shared) := by
  rw [offers, List.map_append, List.map_append, List.map_map, List.map_map]
  refine List.Sublist.append ?_ (List.Sublist.refl _)
  induction discovered with
  | nil => exact .slnil
  | cons x discovered ih =>
    rw [List.filterMap_cons, List.map_cons]
    cases tags x.tag with
    | none => exact ih.cons _
    | some target => exact ih.cons_cons _

theorem DistinctOffers.apart (hd : DistinctOffers discovered fixed)
    (hj : Joined h (offers tags discovered fixed) own) : own.Apart := by
  have hsub := offers_sublist tags discovered fixed
  have hmem {b : Contribution β} (hb : b ∈ own) :
      (b.key, b.shared) ∈ offers tags discovered fixed :=
    Table.mem_of_get? (hj.shared b hb)
  constructor
  · intro b hb
    obtain ⟨x, hx, hshared⟩ := List.mem_map.1 (hsub.subset (List.mem_map_of_mem (hmem hb)))
    obtain ⟨serial, hserial⟩ := hd.contributed x hx
    exact ⟨serial, (congrArg Shared.handle hshared).symm.trans hserial⟩
  · intro a ha b hb e
    have hnodup : ((offers tags discovered fixed).map fun o => o.2.handle).Nodup := by
      have := hd.nodup
      rw [← Function.comp_def Shared.handle Contributor.shared, ← List.map_map] at this
      rw [← Function.comp_def Shared.handle Prod.snd, ← List.map_map]
      exact this.sublist (hsub.map _)
    have := List.inj_on_of_nodup_map hnodup (hmem ha) (hmem hb) e
    exact hj.eq_of_key_eq ha hb (congrArg Prod.fst this)

/-! ### One pool for all types -/

section OnePool

variable {resolved : List (TypeKey × Contributions β)} {p : Progress β}

/-- The pool is exact and holds the composites so far, and no others. -/
structure Progress.Exact (own : Contributions β) (p : Progress β) : Prop where
  pool : p.pool.Exact own
  composites : ∀ x, x ∈ p.pool ↔ x ∈ p.composites.map Prod.snd

theorem Progress.Exact.nil (own : Contributions β) : Progress.Exact own {} where
  pool := Pool.exact_nil own
  composites _ := Iff.rfl

theorem Progress.Exact.passOn (hp : p.Exact own) (hs : p.Sound c own resolved)
    (hown : own.Apart) (n : Node) : (passOn c own p n).Exact own := by
  have hcs : gather c own resolved n ⊆ own := gather_subset hs.subset n
  obtain ⟨hpool, _, hmem⟩ := hp.pool.obtain (c := c) hown hcs
  rw [hs.marked.passOn_eq]
  refine ⟨hpool, fun x => ?_⟩
  rw [hmem, hp.composites, List.map_append, List.mem_append, List.map_singleton,
    List.mem_singleton]

theorem Progress.Exact.foldl_passOn (hp : p.Exact own) (hs : p.Sound c own resolved)
    (hown : own.Apart) (hnodup : (own.map Contribution.key).Nodup) (ns : List Node) :
    (ns.foldl (Factory.passOn c own) p).Exact own := by
  induction ns generalizing resolved p with
  | nil => exact hp
  | cons n ns ih => exact ih (hp.passOn hs hown n) (hs.passOn hnodup n)

end OnePool

/-! ### Inheriting a behavior -/

/-- A type takes the contributions over as they are if it has one parent and none of its own. -/
theorem contributionsTo_of_parents_eq {root : TypeKey} (hw : h.WellFormed root) {n : Node}
    (hn : n ∈ h.nodes) {p : TypeKey} (hp : n.parents = [p])
    (hnone : ∀ b ∈ own, b.target ≠ n.key) :
    contributionsTo c h own n.key = contributionsTo c h own p := by
  obtain ⟨m, hm, rfl⟩ := hw.exists_parent hn (hp ▸ List.mem_cons_self)
  have hown : own.filter (·.target = n.key) = [] :=
    List.filter_eq_nil_iff.2 fun b hb => by simpa using hnone b hb
  have hinherited : gather c own (h.passDown (gather c own)) n =
      (contributionsTo c h own m.key).sortBy c.precedence := by
    rw [gather, hown, hp, List.flatMap_singleton]
    exact congrArg _ (addNew_nil_of_nodup _ (nodup_contributionsTo hw hm))
  rw [contributionsTo_eq hw hn, hinherited, contributionsTo_eq hw hm, gather,
    Contributions.sortBy_sortBy]

/-- What was made for the root reaches every type. -/
theorem contributionsTo_root_subset {root : TypeKey} (hw : h.WellFormed root)
    (hown : (own.map Contribution.key).Nodup) {r : Node} (hr : h.root? = some r) {n : Node}
    (hn : n ∈ h.nodes) : contributionsTo c h own r.key ⊆ contributionsTo c h own n.key := by
  intro b hb
  obtain ⟨r', hrmem, hr', rfl⟩ := hw.exists_root?
  obtain rfl : r' = r := Option.some.inj (hr'.symm.trans hr)
  by_cases hroot : n.key = r'.key
  · rwa [hroot]
  · have hanc : h.IsAncestor r'.key n.key := hw.isAncestor_root hn hroot
    obtain ⟨hb, htarget⟩ := (mem_contributionsTo hw hown hrmem).1 hb
    refine (mem_contributionsTo hw hown hn).2 ⟨hb, .inr ?_⟩
    obtain htarget | htarget := htarget
    · exact htarget ▸ hanc
    · exact htarget.trans hanc

/-- If nothing is registered for some type then nothing is for the root. -/
theorem isNoOp_root {root : TypeKey} (hw : h.WellFormed root)
    (hown : (own.map Contribution.key).Nodup) {r : Node} (hr : h.root? = some r)
    {b b' : Composite β} (hb : (ofContributions c h own).get? r.key = some b) {k : TypeKey}
    (hb' : (ofContributions c h own).get? k = some b') (hnoOp : b'.isNoOp = true) :
    b.isNoOp = true := by
  obtain ⟨n, hn, rfl, hkeys'⟩ := contributors_eq hw hb'
  obtain ⟨_, _, _, hkeys⟩ := contributors_eq hw hb
  have hnil : contributionsTo c h own n.key = [] :=
    Contributions.keys_eq_noOp.1 (hkeys' ▸ Composite.isNoOp_iff.1 hnoOp)
  rw [Composite.isNoOp_iff, hkeys, Contributions.keys_eq_noOp]
  exact List.subset_nil.1 (hnil ▸ contributionsTo_root_subset hw hown hr hn)

/-! ### The behavior that does nothing -/

/-- The behavior for no contributions is the one that is in the pool for them, or would be made
    for them. It is looked up at the root, and not in the pool, but what is there for any type is
    there for the root as well. -/
theorem noOp_eq_obtain {root : TypeKey} (hw : h.WellFormed root) (hown : own.Apart)
    (hnodup : (own.map Contribution.key).Nodup) :
    (ofContributions c h own).noOp =
      ((h.toList.foldl (passOn c own) {}).pool.obtain c (Contributions.entries [])).1 := by
  have hend := (Progress.Exact.nil own).foldl_passOn (.nil c own) hown hnodup h.toList
  obtain ⟨r, hrmem, hr, _⟩ := hw.exists_root?
  obtain ⟨b, hb⟩ := Option.isSome_iff_exists.1
    ((isSome_get? (c := c) hw).trans (hw.contains_iff.2 ⟨r, hrmem, rfl⟩))
  rw [noOp_eq_ite hr hb]
  symm
  split_ifs with hnoOp
  · have hpooled : b ∈ (h.toList.foldl (passOn c own) {}).pool :=
      (hend.composites b).2 (List.mem_map_of_mem (Table.mem_of_get? hb))
    exact hend.pool.obtain_of_mem hpooled (Composite.isNoOp_iff.1 hnoOp)
  · refine (Pool.obtain_of_forall_ne fun x hx hkeys => hnoOp ?_).trans rfl
    -- it would be the behavior of some type, and the root would have one like it
    obtain ⟨⟨k, y⟩, hk, rfl⟩ := List.mem_map.1 ((hend.composites x).1 hx)
    have hdistinct : Table.Distinct (ofContributions c h own).composites :=
      (map_fst_composites hw c own).nodup_iff.2 hw.distinct
    exact isNoOp_root hw hnodup hr hb (hdistinct.mem_iff.1 hk) (Composite.isNoOp_iff.2 hkeys)

/-- The composites of all types are in one pool, with the one for no contributions. -/
theorem exists_pool {root : TypeKey} (hw : h.WellFormed root) (hown : own.Apart)
    (hnodup : (own.map Contribution.key).Nodup) :
    ∃ pool : Pool β, pool.Exact own ∧
      (∀ k b, (ofContributions c h own).get? k = some b → b ∈ pool) ∧
      (ofContributions c h own).noOp ∈ pool ∧
      (ofContributions c h own).noOp.contributors = [.noOp] := by
  have hend := (Progress.Exact.nil own).foldl_passOn (.nil c own) hown hnodup h.toList
  obtain ⟨hpool, hmem, hall⟩ := hend.pool.obtain (c := c) hown (List.nil_subset own)
  refine ⟨_, hpool, fun k b hb => (hall b).2 (.inl ?_), ?_, ?_⟩
  · exact (hend.composites b).2 (List.mem_map_of_mem (Table.mem_of_get? hb))
  · rw [noOp_eq_obtain hw hown hnodup]
    exact hmem
  · rw [noOp_eq_obtain hw hown hnodup]
    exact contributors_obtain ..

/-! ### Sharing -/

/-- If the contributors offer different behaviors, two types have the same behavior if and only
    if the same contributions are made to them in the same order. They have the one that does
    nothing if and only if none are made to them, and that is the behavior of the root, if it is
    the behavior of any type. A type with one parent and without contributions of its own has the
    behavior of its parent. -/
theorem sharing_of_build {f : Factory β} (hs : h.Sealed) (hd : DistinctOffers discovered fixed)
    (hf : build c h m tags discovered fixed = .ok f) :
    (∀ k, (f.get? k).isSome = h.contains k) ∧
    (∀ k k' b b', f.get? k = some b → f.get? k' = some b' →
      (b.same b' = true ↔ b.contributors = b'.contributors)) ∧
    (∀ k b, f.get? k = some b → (b.same f.noOp = true ↔ b.isNoOp = true) ∧
      (b.isNoOp = true ↔ ∀ name target, ¬ ReachesType tags discovered fixed h k name target)) ∧
    (∀ r b, h.root? = some r → f.get? r.key = some b → (b.isNoOp = true → f.noOp = b) ∧
      (b.isNoOp = false → ∀ k b', f.get? k = some b' → b'.isNoOp = false)) ∧
    (∀ k, h.contains k = false → f.getOrNoOp k = f.noOp) ∧
    ∀ n ∈ h.nodes, ∀ p, n.parents = [p] → (∀ name, ¬ Contributes tags discovered fixed name n.key) →
      ∃ b b', f.get? n.key = some b ∧ f.get? p = some b' ∧ b.same b' = true := by
  obtain ⟨root, hw⟩ := hs.wellFormed
  obtain ⟨paired, own, hp, hjoin, rfl⟩ := exists_join_of_build hf
  have hj := joined_offers hp hjoin
  have hown : ∀ name target, .named name target ∈ own.map Contribution.key ↔
      Contributes tags discovered fixed name target :=
    fun _ _ => named_mem_map_key_join hp hjoin
  obtain ⟨pool, hpool, hget, hnoOp, hnone⟩ :=
    exists_pool (c := c) hw (hd.apart hj) hj.nodup
  have hreaches {k : TypeKey} {b : Composite β} (hb : (ofContributions c h own).get? k = some b) :
      b.isNoOp = true ↔ ∀ name target, ¬ ReachesType tags discovered fixed h k name target := by
    obtain ⟨n, hn, rfl, hkeys⟩ := contributors_eq hw hb
    rw [Composite.isNoOp_iff, hkeys, Contributions.keys_eq_noOp, contributionsTo_eq_nil hw hown hn]
  refine ⟨fun k => isSome_get? hw,
    fun k k' b b' hb hb' => hpool.same_iff (hget k b hb) (hget k' b' hb'),
    fun k b hb => ⟨?_, hreaches hb⟩, fun r b hr hb => ⟨fun hb' => ?_, fun hreal k b' hb' => ?_⟩,
    fun k hk => ?_, fun n hn p hp hown' => ?_⟩
  · rw [hpool.same_iff (hget k b hb) hnoOp, hnone, Composite.isNoOp_iff]
  · rw [noOp_eq_ite hr hb, if_pos hb']
  · exact Bool.eq_false_iff.2 fun hnoOp' =>
      Bool.eq_false_iff.1 hreal (isNoOp_root hw hj.nodup hr hb hb' hnoOp')
  · have hget : (ofContributions c h own).get? k = none :=
      Option.not_isSome_iff_eq_none.1 (by rw [isSome_get? hw, hk]; exact Bool.false_ne_true)
    rw [getOrNoOp, hget, Option.getD_none]
  · obtain ⟨m', hm', rfl⟩ := hw.exists_parent hn (hp ▸ List.mem_cons_self)
    have hgot : ∀ n ∈ h.nodes, ∃ b, (ofContributions c h own).get? n.key = some b ∧
        b.contributors = (contributionsTo c h own n.key).keys := fun _ hn => exists_get? hw hn
    obtain ⟨b, hb, hkeys⟩ := hgot n hn
    obtain ⟨b', hb', hkeys'⟩ := hgot m' hm'
    refine ⟨b, b', hb, hb', (hpool.same_iff (hget _ b hb) (hget _ b' hb')).2 ?_⟩
    rw [hkeys, hkeys', contributionsTo_of_parents_eq hw hn hp fun x hx htarget => ?_]
    exact hown' x.name ((hown _ _).1 (htarget ▸ List.mem_map_of_mem hx))

/-! ### Dogs and pets -/

open Dogs in
/-- If there is nothing but a contribution to pets, then dogs share the behavior of pets, and
    animals that of the root, which does nothing. -/
theorem sharing_of_build_dogs :
    ∃ f, build .validation (.built discovery) metadata .declared [] [(pet, tame)] = .ok f ∧
      DistinctOffers [] [(pet, tame)] ∧
      (∃ b b', f.get? dog = some b ∧ f.get? pet = some b' ∧ b.same b' = true) ∧
      (∃ b b', f.get? animal = some b ∧ f.get? ⟨"Resource"⟩ = some b' ∧ b.same b' = true ∧
        b.same f.noOp = true) ∧
      f.getOrNoOp ⟨"Cat"⟩ = f.noOp := by
  obtain ⟨f, hf⟩ : ∃ f, build .validation (.built discovery) metadata .declared []
      [(pet, tame)] = .ok f := ⟨_, rfl⟩
  have hd : DistinctOffers [] [(pet, tame)] :=
    ⟨List.nodup_singleton _, List.forall_mem_singleton.2 ⟨1, rfl⟩⟩
  obtain ⟨_, hsame, hnoOp, _, houtside, hparent⟩ :=
    sharing_of_build (Hierarchy.sealed_built _) hd hf
  refine ⟨f, hf, hd, ?_, ?_, houtside _ (by decide)⟩
  · obtain rfl := Except.ok.inj hf
    exact ⟨_, _, rfl, rfl, (hsame dog pet _ _ rfl rfl).2 rfl⟩
  · obtain ⟨n, hn, hkey, hparents⟩ : ∃ n ∈ (Hierarchy.built discovery).nodes, n.key = animal ∧
        n.parents = [⟨"Resource"⟩] := by decide
    obtain ⟨b, b', hb, hb', hbb'⟩ := hparent n hn _ hparents fun name hname => by
      rcases hname with ⟨x, hx, _⟩ | ⟨x, hx, _⟩
      · exact List.not_mem_nil hx
      · rw [hkey, List.mem_singleton] at hx
        exact absurd (Prod.mk.inj hx).1 (by decide)
    rw [hkey] at hb
    refine ⟨b, b', hb, hb', hbb', (hnoOp animal b hb).1.2 ?_⟩
    obtain rfl := Except.ok.inj hf
    obtain rfl := Option.some.inj hb
    rfl

end Factory

end Lineage
