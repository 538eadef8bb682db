import Lineage.Hierarchy.Builder
import Lineage.Proofs.Hierarchy.WellFormed

/-!
# Inserting a type

Inserting a new type below parents that are there already keeps a hierarchy
well-formed (`WellFormed.insert`): the new node comes last, and the only change
to the others is that the parents get a further child.
-/

namespace Lineage.Hierarchy

/-! ### Changing a list at several positions -/

section

variable {α : Type} (f : α → α)

theorem getElem?_foldl_modify {is : List Nat} (hn : is.Nodup) (l : List α) (j : Nat) :
    (is.foldl (fun l i => l.modify i f) l)[j]? = if j ∈ is then l[j]?.map f else l[j]? := by
  induction is generalizing l with
  | nil => rfl
  | cons i is ih =>
    rw [List.nodup_cons] at hn
    rw [List.foldl_cons, ih hn.2, List.getElem?_modify]
    by_cases hij : i = j
    · subst hij
      simp [hn.1]
    · simp [hij, Ne.symm hij]

/-- What the change does not touch stays as it is. -/
theorem map_foldl_modify {β : Type} (g : α → β) (hg : ∀ a, g (f a) = g a) (is : List Nat)
    (l : List α) : (is.foldl (fun l i => l.modify i f) l).map g = l.map g := by
  induction is generalizing l with
  | nil => rfl
  | cons i is ih =>
    rw [List.foldl_cons, ih]
    refine List.ext_getElem? fun j => ?_
    rw [List.getElem?_map, List.getElem?_map, List.getElem?_modify]
    cases l[j]? with
    | none => rfl
    | some a => by_cases hij : i = j <;> simp [hij, hg]

end

/-- The maximum of a list, from zero on. -/
theorem max?_cons_zero (l : List Nat) : (0 :: l).max? = some (l.foldl max 0) :=
  List.max?_cons'

theorem le_foldl_max {l : List Nat} {d : Nat} (hd : d ∈ l) : d ≤ l.foldl max 0 :=
  (List.max?_eq_some_iff.1 (max?_cons_zero l)).2 d (List.mem_cons_of_mem _ hd)

theorem foldl_max_mem {l : List Nat} (hl : l ≠ []) : l.foldl max 0 ∈ l := by
  obtain ⟨hm, hle⟩ := List.max?_eq_some_iff.1 (max?_cons_zero l)
  rcases List.mem_cons.1 hm with h0 | hm
  · obtain ⟨d, hd⟩ := List.exists_mem_of_ne_nil l hl
    have := hle d (List.mem_cons_of_mem _ hd)
    rwa [h0, ← Nat.le_zero.1 (h0 ▸ this)]
  · exact hm

namespace Builder

variable (b : Builder) (d : TypeDescriptor) (ps : List Nat)

/-- The node that `Builder.insert` adds. -/
def newNode : Node :=
  let above := ps.filterMap fun i => b.nodes[i]?
  { key := d.key
    kind := d.kind
    isAbstract := d.isAbstract
    parents := above.map Node.key
    depth := (above.map Node.depth).foldl max 0 + 1 }

/-- What `Builder.insert` makes of the node at a position: the parents of the new
    type get it as a further child. -/
def grown (i : Nat) (n : Node) : Node :=
  if i ∈ ps then { n with children := n.children ++ [d.key] } else n

@[simp] theorem grown_key (i : Nat) (n : Node) : (grown d ps i n).key = n.key := by
  unfold grown; split <;> rfl

@[simp] theorem grown_parents (i : Nat) (n : Node) : (grown d ps i n).parents = n.parents := by
  unfold grown; split <;> rfl

@[simp] theorem grown_depth (i : Nat) (n : Node) : (grown d ps i n).depth = n.depth := by
  unfold grown; split <;> rfl

theorem getElem?_insert (hn : ps.Nodup) (i : Nat) :
    (b.insert d ps).nodes[i]? = if i = b.nodes.length then some (b.newNode d ps)
      else b.nodes[i]?.map (grown d ps i) := by
  have hl : (ps.foldl (fun nodes i => nodes.modify i fun n =>
      { n with children := n.children ++ [d.key] }) b.nodes).length = b.nodes.length := by
    simpa using congrArg List.length (map_foldl_modify
      (fun n => { n with children := n.children ++ [d.key] }) Node.key (fun _ => rfl) ps b.nodes)
  simp only [insert, List.getElem?_append, hl, getElem?_foldl_modify _ hn]
  rcases Nat.lt_trichotomy i b.nodes.length with hi | rfl | hi
  · rw [if_pos hi, if_neg hi.ne]
    split_ifs with hps <;> cases b.nodes[i]? <;> simp [grown, hps]
  · simp [newNode]
  · rw [if_neg hi.not_gt, if_neg hi.ne', List.getElem?_eq_none hi.le]
    exact List.getElem?_eq_none (by rw [List.length_singleton]; omega)

/-- A node after the insertion is the new one, or an earlier one that may have
    got a child. -/
theorem eq_or_of_getElem?_insert (hn : ps.Nodup) {i : Nat} {n : Node}
    (hi : (b.insert d ps).nodes[i]? = some n) :
    (i = b.nodes.length ∧ n = b.newNode d ps) ∨
      ∃ m, b.nodes[i]? = some m ∧ n = grown d ps i m := by
  rw [getElem?_insert b d ps hn] at hi
  split_ifs at hi with h
  · exact .inl ⟨h, (Option.some.inj hi).symm⟩
  · obtain ⟨m, hm, rfl⟩ := Option.map_eq_some_iff.1 hi
    exact .inr ⟨m, hm, rfl⟩

theorem getElem?_insert_of_some (hn : ps.Nodup) {i : Nat} {m : Node}
    (hi : b.nodes[i]? = some m) : (b.insert d ps).nodes[i]? = some (grown d ps i m) := by
  have : i ≠ b.nodes.length := (List.getElem?_eq_some_iff.1 hi).1.ne
  rw [getElem?_insert b d ps hn, if_neg this, hi, Option.map_some]

theorem eq_or_of_mem_insert (hn : ps.Nodup) {n : Node} (hmem : n ∈ (b.insert d ps).nodes) :
    n = b.newNode d ps ∨
      ∃ m ∈ b.nodes, n.key = m.key ∧ n.parents = m.parents ∧ n.depth = m.depth := by
  obtain ⟨i, hi⟩ := List.mem_iff_getElem?.1 hmem
  refine (b.eq_or_of_getElem?_insert d ps hn hi).imp And.right ?_
  rintro ⟨m, hm, rfl⟩
  exact ⟨m, List.mem_of_getElem? hm, by simp⟩

theorem exists_mem_insert (hn : ps.Nodup) {m : Node} (hmem : m ∈ b.nodes) :
    ∃ n ∈ (b.insert d ps).nodes, n.key = m.key ∧ n.depth = m.depth := by
  obtain ⟨i, hi⟩ := List.mem_iff_getElem?.1 hmem
  exact ⟨_, List.mem_of_getElem? (b.getElem?_insert_of_some d ps hn hi), by simp⟩

/-- All but the children of the earlier nodes stays as it was. -/
theorem map_nodes_insert {β : Type} (g : Node → β)
    (hg : ∀ n cs, g { n with children := cs } = g n) :
    (b.insert d ps).nodes.map g = b.nodes.map g ++ [g (b.newNode d ps)] := by
  rw [insert, List.map_append, map_foldl_modify _ g (fun _ => hg _ _)]
  rfl

/-- The types that list a given one as a parent: the new one comes last. -/
theorem listing_insert (k : TypeKey) :
    ((b.insert d ps).nodes.filter fun m => k ∈ m.parents).map Node.key =
      (b.nodes.filter fun m => k ∈ m.parents).map Node.key ++
        if k ∈ (b.newNode d ps).parents then [d.key] else [] := by
  -- only keys and parents matter, which the insertion leaves alone
  have hkeys (l : List Node) : (l.filter fun m => k ∈ m.parents).map Node.key =
      ((l.map fun m => (m.key, m.parents)).filter fun q => k ∈ q.2).map Prod.fst := by
    rw [List.filter_map, List.map_map]
    rfl
  rw [hkeys, map_nodes_insert b d ps _ fun _ _ => rfl, List.filter_append, List.map_append,
    ← hkeys, List.filter_singleton]
  by_cases hk : k ∈ (b.newNode d ps).parents
  · rw [if_pos hk, decide_eq_true hk]
    rfl
  · rw [if_neg hk, decide_eq_false hk]
    rfl

theorem position?_insert (k : TypeKey) :
    (b.insert d ps).position? k = if k = d.key then some b.nodes.length else b.position? k := by
  simp only [position?, insert, List.lookup_cons]
  by_cases hk : k = d.key
  · simp [hk]
  · rw [if_neg hk, beq_eq_false_iff_ne.2 hk]

theorem contains_insert (k : TypeKey) :
    (b.insert d ps).contains k = true ↔ k = d.key ∨ b.contains k = true := by
  rw [Builder.contains, position?_insert]
  split_ifs with hk
  · exact iff_of_true rfl (.inl hk)
  · exact ⟨.inr, fun h => h.resolve_left hk⟩

theorem mem_reachesRoot_insert (k : TypeKey) :
    k ∈ (b.insert d ps).reachesRoot ↔ k = d.key ∨ k ∈ b.reachesRoot := by
  simp only [insert]
  split_ifs with hmem
  · exact ⟨.inr, fun h => h.elim (fun hk => hk ▸ List.contains_iff_mem.1 hmem) id⟩
  · exact List.mem_cons

variable {b d ps}

/-- The new node is deeper by one than its deepest parent. -/
theorem exists_deepest (hne : (b.newNode d ps).parents ≠ []) :
    ∃ m ∈ b.nodes, m.key ∈ (b.newNode d ps).parents ∧
      (b.newNode d ps).depth = m.depth + 1 := by
  have hne' : (ps.filterMap fun i => b.nodes[i]?).map Node.depth ≠ [] := by
    simpa [newNode] using hne
  obtain ⟨m, hm, e⟩ := List.mem_map.1 (foldl_max_mem hne')
  obtain ⟨i, hi, hm'⟩ := List.mem_filterMap.1 hm
  exact ⟨m, List.mem_of_getElem? hm', List.mem_map_of_mem hm, congrArg (· + 1) e.symm⟩

theorem newNode_parents_ne_nil (hne : ps ≠ []) (hlt : ∀ i ∈ ps, i < b.nodes.length) :
    (b.newNode d ps).parents ≠ [] := by
  obtain ⟨i, hi⟩ := List.exists_mem_of_ne_nil ps hne
  exact List.ne_nil_of_mem (List.mem_map_of_mem
    (List.mem_filterMap.2 ⟨i, hi, List.getElem?_eq_getElem (hlt i hi)⟩))

end Builder

namespace WellFormed

open Builder

variable {b : Builder} {d : TypeDescriptor} {ps : List Nat} {root : TypeKey}
  (hw : b.toHierarchy.WellFormed root)
include hw

/-- The parents of the new node are the types at the given positions. -/
theorem mem_newNode_parents {k : TypeKey} :
    k ∈ (b.newNode d ps).parents ↔ ∃ i ∈ ps, b.position? k = some i := by
  simp only [newNode, List.mem_map, List.mem_filterMap]
  constructor
  · rintro ⟨n, ⟨i, hi, hn⟩, hk⟩
    exact ⟨i, hi, (hw.position k i).2 ⟨n, hn, hk⟩⟩
  · rintro ⟨i, hi, hk⟩
    obtain ⟨n, hn, hk⟩ := (hw.position k i).1 hk
    exact ⟨n, ⟨i, hi, hn⟩, hk⟩

theorem newNode_parents_nodup (hn : ps.Nodup) : (b.newNode d ps).parents.Nodup := by
  rw [newNode, List.map_filterMap]
  refine hn.filterMap fun i j k hi hj => ?_
  have hpos (i : Nat) (hk : k ∈ b.nodes[i]?.map Node.key) : b.position? k = some i :=
    (hw.position k i).2 (Option.map_eq_some_iff.1 hk)
  exact Option.some.inj ((hpos i hi).symm.trans (hpos j hj))

/-- A type that is not there yet is nobody's parent. -/
theorem key_not_mem_parents (hd : b.position? d.key = none) {n : Node} (hn : n ∈ b.nodes) :
    d.key ∉ n.parents := by
  intro hk
  obtain ⟨i, hi⟩ := List.mem_iff_getElem?.1 hn
  obtain ⟨j, _, hj⟩ := hw.parents_before i n hi _ hk
  exact Option.some_ne_none j (hj.symm.trans hd)

/-- Nor is it after it has been inserted. -/
theorem key_not_mem_parents_insert (hn : ps.Nodup) (hd : b.position? d.key = none) {n : Node}
    (hmem : n ∈ (b.insert d ps).nodes) : d.key ∉ n.parents := by
  rcases b.eq_or_of_mem_insert d ps hn hmem with rfl | ⟨m, hm, _, hp, _⟩
  · intro hk
    obtain ⟨i, _, hi⟩ := hw.mem_newNode_parents.1 hk
    exact Option.some_ne_none i (hi.symm.trans hd)
  · exact hp ▸ hw.key_not_mem_parents hd hm

theorem position_insert (hn : ps.Nodup) (hd : b.position? d.key = none) (k : TypeKey) (i : Nat) :
    (b.insert d ps).position? k = some i ↔
      ∃ n, (b.insert d ps).nodes[i]? = some n ∧ n.key = k := by
  rw [position?_insert]
  constructor
  · intro hi
    split_ifs at hi with hk
    · obtain rfl := Option.some.inj hi
      exact ⟨b.newNode d ps, by rw [getElem?_insert b d ps hn, if_pos rfl], hk.symm⟩
    · obtain ⟨n, hni, rfl⟩ := (hw.position k i).1 hi
      exact ⟨_, b.getElem?_insert_of_some d ps hn hni, grown_key d ps i n⟩
  · rintro ⟨n, hni, rfl⟩
    rcases b.eq_or_of_getElem?_insert d ps hn hni with ⟨rfl, rfl⟩ | ⟨m, hm, rfl⟩
    · exact if_pos rfl
    · have hi : b.position? m.key = some i := (hw.position m.key i).2 ⟨m, hm, rfl⟩
      have hk : m.key ≠ d.key := fun e => Option.some_ne_none i (hi.symm.trans (e ▸ hd))
      rw [grown_key, if_neg hk, hi]

theorem children_insert (hn : ps.Nodup) (hd : b.position? d.key = none) {n : Node}
    (hmem : n ∈ (b.insert d ps).nodes) :
    n.children = ((b.insert d ps).nodes.filter fun m => n.key ∈ m.parents).map Node.key := by
  rw [listing_insert]
  obtain ⟨i, hi⟩ := List.mem_iff_getElem?.1 hmem
  rcases b.eq_or_of_getElem?_insert d ps hn hi with ⟨_, rfl⟩ | ⟨m, hm, rfl⟩
  · -- the new node starts without children, and no type lists it as a parent
    have hold : b.nodes.filter (fun m => d.key ∈ m.parents) = [] :=
      List.filter_eq_nil_iff.2 fun m hm => by
        simpa using hw.key_not_mem_parents hd hm
    rw [show (b.newNode d ps).key = d.key from rfl, hold,
      if_neg (hw.key_not_mem_parents_insert hn hd hmem)]
    rfl
  · -- an earlier node has got the new one as its last child if it is a parent
    have hpos : b.position? m.key = some i := (hw.position m.key i).2 ⟨m, hm, rfl⟩
    have hnew : m.key ∈ (b.newNode d ps).parents ↔ i ∈ ps := by
      rw [hw.mem_newNode_parents, hpos]
      simp
    have hold : m.children = (b.nodes.filter fun c => m.key ∈ c.parents).map Node.key :=
      hw.children m (List.mem_of_getElem? hm)
    rw [grown_key, ← hold]
    simp only [hnew, grown]
    split_ifs <;> simp

/-- The depths of the new node and of its parents. -/
theorem newNode_depth {m : Node} (hm : m ∈ b.nodes) (hk : m.key ∈ (b.newNode d ps).parents) :
    m.depth < (b.newNode d ps).depth := by
  obtain ⟨i, hi, hpos⟩ := hw.mem_newNode_parents.1 hk
  obtain ⟨m', hm', e⟩ := (hw.position _ _).1 hpos
  obtain rfl := hw.eq_of_key_eq (List.mem_of_getElem? hm') hm e
  exact Nat.lt_succ_of_le (le_foldl_max (List.mem_map_of_mem
    (List.mem_filterMap.2 ⟨i, hi, hm'⟩)))

/-- A type that is not there yet can be inserted below any types that are. -/
theorem insert (hne : ps ≠ []) (hn : ps.Nodup) (hlt : ∀ i ∈ ps, i < b.nodes.length)
    (hd : b.position? d.key = none) : (b.insert d ps).toHierarchy.WellFormed root where
  root := by
    obtain ⟨r, hr, hk, hp, hd⟩ := hw.root
    exact ⟨_, b.getElem?_insert_of_some d ps hn hr, by simpa using ⟨hk, hp, hd⟩⟩
  position := hw.position_insert hn hd
  distinct := by
    have hnew : d.key ∉ b.nodes.map Node.key := fun hk => by
      obtain ⟨n, hn, e⟩ := List.mem_map.1 hk
      obtain ⟨i, hi⟩ := List.mem_iff_getElem?.1 hn
      exact Option.some_ne_none i (((hw.position d.key i).2 ⟨n, hi, e⟩).symm.trans hd)
    change ((b.insert d ps).nodes.map Node.key).Nodup
    rw [map_nodes_insert b d ps _ fun _ _ => rfl]
    exact hw.distinct.append (List.nodup_singleton d.key) (List.disjoint_singleton.2 hnew)
  parents_ne_nil i n hi h0 := by
    rcases b.eq_or_of_getElem?_insert d ps hn hi with ⟨_, rfl⟩ | ⟨m, hm, rfl⟩
    · exact newNode_parents_ne_nil hne hlt
    · rw [grown_parents]
      exact hw.parents_ne_nil i m hm h0
  parents_nodup n hmem := by
    rcases b.eq_or_of_mem_insert d ps hn hmem with rfl | ⟨m, hm, _, hp, _⟩
    · exact hw.newNode_parents_nodup hn
    · exact hp ▸ hw.parents_nodup m hm
  parents_before i n hi k hk := by
    have hkd : k ≠ d.key := fun e =>
      hw.key_not_mem_parents_insert hn hd (List.mem_of_getElem? hi) (e ▸ hk)
    have hpos : (b.insert d ps).position? k = b.position? k := by
      rw [position?_insert, if_neg hkd]
    change ∃ j < i, (b.insert d ps).position? k = some j
    rw [hpos]
    rcases b.eq_or_of_getElem?_insert d ps hn hi with ⟨rfl, rfl⟩ | ⟨m, hm, rfl⟩
    · obtain ⟨j, hj, hpos⟩ := hw.mem_newNode_parents.1 hk
      exact ⟨j, hlt j hj, hpos⟩
    · rw [grown_parents] at hk
      exact hw.parents_before i m hm k hk
  children _ hmem := hw.children_insert hn hd hmem
  depth_lt n hmem m hm hk := by
    -- the new node is nobody's parent, so only it or an earlier child is to be compared
    rcases b.eq_or_of_mem_insert d ps hn hm with rfl | ⟨m₀, hm₀, em, _, dm⟩
    · exact absurd hk (hw.key_not_mem_parents_insert hn hd hmem)
    rw [em] at hk
    rw [dm]
    rcases b.eq_or_of_mem_insert d ps hn hmem with rfl | ⟨n₀, hn₀, _, hp, dn⟩
    · exact hw.newNode_depth hm₀ hk
    · rw [hp] at hk
      exact dn ▸ hw.depth_lt n₀ hn₀ m₀ hm₀ hk
  depth_eq n hmem hp := by
    have ⟨m, hm, hk, hd⟩ : ∃ m ∈ b.nodes, m.key ∈ n.parents ∧ n.depth = m.depth + 1 := by
      rcases b.eq_or_of_mem_insert d ps hn hmem with rfl | ⟨n₀, hn₀, _, e, dn⟩
      · exact exists_deepest hp
      · rw [e] at hp ⊢
        exact dn ▸ hw.depth_eq n₀ hn₀ hp
    obtain ⟨m', hm', ek, ed⟩ := b.exists_mem_insert d ps hn hm
    exact ⟨m', hm', ek ▸ hk, ed ▸ hd⟩

end WellFormed

end Lineage.Hierarchy
