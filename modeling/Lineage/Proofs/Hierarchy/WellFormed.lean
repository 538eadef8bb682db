import Lineage.Hierarchy.Basic
import Mathlib.Data.List.Nodup
import Mathlib.Logic.Relation
import Mathlib.Order.Bounds.Basic

/-!
# Well-formed hierarchies

The nodes of a hierarchy refer to each other by keys, as parents and as
children. A hierarchy is *well-formed* if these references fit together
(`WellFormed`): the root comes first, the index gives each type its position,
every other type has parents, all of them at smaller positions, the children
mirror the parents, and the depth of a type is one more than that of its deepest
parent.

It follows that the relation between parents and children is a directed acyclic
graph below the root:

* no type is its own ancestor (`WellFormed.not_isAncestor_self`);
* every type is reached from the root (`WellFormed.reachable`);
* the depth is the length of the longest chain of parents up to the root
  (`WellFormed.depth_isGreatest`).
-/

namespace Lineage.Hierarchy

open Relation

variable (h : Hierarchy)

/-- The first type is a parent of the second. -/
def IsParent (k child : TypeKey) : Prop :=
  ∃ n ∈ h.nodes, n.key = child ∧ k ∈ n.parents

/-- The first type is a proper ancestor of the second: one or more steps to a
    parent lead from the second to the first. -/
abbrev IsAncestor (k descendant : TypeKey) : Prop :=
  TransGen h.IsParent k descendant

variable {h} in
/-- What is a parent or above it is above the child. -/
theorem IsParent.isAncestor {u k child : TypeKey} (hp : h.IsParent k child)
    (hu : u = k ∨ h.IsAncestor u k) : h.IsAncestor u child := by
  rcases hu with rfl | ha
  · exact .single hp
  · exact ha.tail hp

/-- A chain of parents of the given length leads from the first type up to the
    second. -/
inductive Chain : TypeKey → TypeKey → Nat → Prop
  | refl (k : TypeKey) : Chain k k 0
  | step {k parent top : TypeKey} {l : Nat} :
      h.IsParent parent k → Chain parent top l → Chain k top (l + 1)

/-- The references between the nodes, and those of the index, fit together. -/
structure WellFormed (root : TypeKey) : Prop where
  /-- The root comes first. It has no parents, and depth zero. -/
  root : ∃ n, h.nodes[0]? = some n ∧ n.key = root ∧ n.parents = [] ∧ n.depth = 0
  /-- The index knows the keys of the nodes, each with its own position. -/
  position : ∀ k i, h.position? k = some i ↔ ∃ n, h.nodes[i]? = some n ∧ n.key = k
  /-- No key occurs twice. -/
  distinct : (h.nodes.map Node.key).Nodup
  /-- Every type but the root has parents. -/
  parents_ne_nil : ∀ i n, h.nodes[i]? = some n → i ≠ 0 → n.parents ≠ []
  /-- No parent is listed twice. -/
  parents_nodup : ∀ n ∈ h.nodes, n.parents.Nodup
  /-- The parents of a type sit at smaller positions. -/
  parents_before : ∀ i n, h.nodes[i]? = some n →
    ∀ k ∈ n.parents, ∃ j < i, h.position? k = some j
  /-- The children are the types that list this one as a parent, in the order of
      their insertion. -/
  children : ∀ n ∈ h.nodes,
    n.children = (h.nodes.filter fun m => n.key ∈ m.parents).map Node.key
  /-- A type is deeper than each of its parents. -/
  depth_lt : ∀ n ∈ h.nodes, ∀ m ∈ h.nodes, m.key ∈ n.parents → m.depth < n.depth
  /-- It is deeper by one than some parent, the deepest. -/
  depth_eq : ∀ n ∈ h.nodes, n.parents ≠ [] →
    ∃ m ∈ h.nodes, m.key ∈ n.parents ∧ n.depth = m.depth + 1

namespace WellFormed

variable {h} {root : TypeKey} (hw : h.WellFormed root)
include hw

/-! ### Looking up nodes -/

theorem eq_of_key_eq {n m : Node} (hn : n ∈ h.nodes) (hm : m ∈ h.nodes) (e : n.key = m.key) :
    n = m :=
  List.inj_on_of_nodup_map hw.distinct hn hm e

theorem locate?_eq_some {k : TypeKey} {n : Node} :
    h.locate? k = some n ↔ n ∈ h.nodes ∧ n.key = k := by
  simp only [locate?, Option.bind_eq_bind, Option.bind_eq_some_iff]
  constructor
  · rintro ⟨i, hi, hn⟩
    obtain ⟨m, hm, e⟩ := (hw.position k i).1 hi
    obtain rfl : m = n := by simpa [hn] using hm.symm
    exact ⟨List.mem_of_getElem? hn, e⟩
  · rintro ⟨hn, e⟩
    obtain ⟨i, hi⟩ := List.mem_iff_getElem?.1 hn
    exact ⟨i, (hw.position k i).2 ⟨n, hi, e⟩, hi⟩

theorem locate?_key {n : Node} (hn : n ∈ h.nodes) : h.locate? n.key = some n :=
  hw.locate?_eq_some.2 ⟨hn, rfl⟩

theorem contains_iff {k : TypeKey} : h.contains k = true ↔ ∃ n ∈ h.nodes, n.key = k := by
  rw [contains, Option.isSome_iff_exists]
  constructor
  · rintro ⟨i, hi⟩
    obtain ⟨n, hn, e⟩ := (hw.position k i).1 hi
    exact ⟨n, List.mem_of_getElem? hn, e⟩
  · rintro ⟨n, hn, e⟩
    obtain ⟨i, hi⟩ := List.mem_iff_getElem?.1 hn
    exact ⟨i, (hw.position k i).2 ⟨n, hi, e⟩⟩

/-- The parents of a type are types themselves. -/
theorem exists_parent {n : Node} (hn : n ∈ h.nodes) {k : TypeKey} (hk : k ∈ n.parents) :
    ∃ m ∈ h.nodes, m.key = k := by
  obtain ⟨i, hi⟩ := List.mem_iff_getElem?.1 hn
  obtain ⟨j, _, hj⟩ := hw.parents_before i n hi k hk
  obtain ⟨m, hm, e⟩ := (hw.position k j).1 hj
  exact ⟨m, List.mem_of_getElem? hm, e⟩

theorem mem_parents {n m : Node} : m ∈ h.parents n ↔ m ∈ h.nodes ∧ m.key ∈ n.parents := by
  rw [parents, List.mem_filterMap]
  constructor
  · rintro ⟨k, hk, hm⟩
    obtain ⟨hm', rfl⟩ := hw.locate?_eq_some.1 hm
    exact ⟨hm', hk⟩
  · rintro ⟨hm, hk⟩
    exact ⟨m.key, hk, hw.locate?_key hm⟩

theorem isParent_key {n : Node} (hn : n ∈ h.nodes) {k : TypeKey} :
    h.IsParent k n.key ↔ k ∈ n.parents := by
  refine ⟨fun ⟨m, hm, e, hk⟩ => ?_, fun hk => ⟨n, hn, rfl, hk⟩⟩
  rwa [← hw.eq_of_key_eq hm hn e]

theorem mem_children {n m : Node} (hn : n ∈ h.nodes) :
    m ∈ h.children n ↔ m ∈ h.nodes ∧ n.key ∈ m.parents := by
  rw [Hierarchy.children, List.mem_filterMap]
  constructor
  · rintro ⟨k, hk, hm⟩
    rw [hw.children n hn, List.mem_map] at hk
    obtain ⟨m', hm', rfl⟩ := hk
    obtain ⟨hm₁, e⟩ := hw.locate?_eq_some.1 hm
    obtain rfl := hw.eq_of_key_eq hm₁ (List.mem_filter.1 hm').1 e
    exact ⟨hm₁, by simpa using (List.mem_filter.1 hm').2⟩
  · rintro ⟨hm, hk⟩
    refine ⟨m.key, ?_, hw.locate?_key hm⟩
    rw [hw.children n hn, List.mem_map]
    exact ⟨m, List.mem_filter.2 ⟨hm, by simpa using hk⟩, rfl⟩

/-- The children of a type are the types that list it as a parent. -/
theorem mem_children_key {n : Node} (hn : n ∈ h.nodes) {c : TypeKey} :
    c ∈ n.children ↔ h.IsParent n.key c := by
  rw [hw.children n hn, List.mem_map]
  simp only [List.mem_filter, decide_eq_true_eq]
  exact exists_congr fun m => ⟨fun ⟨⟨hm, hk⟩, e⟩ => ⟨hm, e, hk⟩, fun ⟨hm, e, hk⟩ => ⟨⟨hm, hk⟩, e⟩⟩

/-- No child is listed twice. -/
theorem nodup_children {n : Node} (hn : n ∈ h.nodes) : n.children.Nodup := by
  rw [hw.children n hn]
  exact hw.distinct.sublist (List.filter_sublist.map Node.key)

/-! ### Climbing -/

/-- Both ends of a step to a parent are types, the parent being less deep. -/
theorem exists_of_isParent {k child : TypeKey} (hp : h.IsParent k child) :
    ∃ m ∈ h.nodes, ∃ n ∈ h.nodes, m.key = k ∧ n.key = child ∧ m.depth < n.depth := by
  obtain ⟨n, hn, rfl, hk⟩ := hp
  obtain ⟨m, hm, rfl⟩ := hw.exists_parent hn hk
  exact ⟨m, hm, n, hn, rfl, rfl, hw.depth_lt n hn m hm hk⟩

theorem exists_of_isAncestor {k descendant : TypeKey} (ha : h.IsAncestor k descendant) :
    ∃ m ∈ h.nodes, ∃ n ∈ h.nodes, m.key = k ∧ n.key = descendant ∧ m.depth < n.depth := by
  induction ha with
  | single hp => exact hw.exists_of_isParent hp
  | tail _ hp ih =>
    obtain ⟨m, hm, n, hn, hk, e, hlt⟩ := ih
    obtain ⟨n', hn', c, hc, e', hc', hlt'⟩ := hw.exists_of_isParent hp
    obtain rfl := hw.eq_of_key_eq hn hn' (e.trans e'.symm)
    exact ⟨m, hm, c, hc, hk, hc', hlt.trans hlt'⟩

theorem isAncestor_of_parent {n : Node} (hn : n ∈ h.nodes) {k u : TypeKey} (hk : k ∈ n.parents)
    (hu : u = k ∨ h.IsAncestor u k) : h.IsAncestor u n.key :=
  ((hw.isParent_key hn).2 hk).isAncestor hu

/-- What is above a type is a parent of it or above one. -/
theorem exists_parent_of_isAncestor {n : Node} (hn : n ∈ h.nodes) {u : TypeKey}
    (ha : h.IsAncestor u n.key) : ∃ k ∈ n.parents, u = k ∨ h.IsAncestor u k := by
  obtain ⟨k, hu, hp⟩ := TransGen.tail'_iff.1 ha
  refine ⟨k, (hw.isParent_key hn).1 hp, ?_⟩
  exact (reflTransGen_iff_eq_or_transGen.1 hu).imp_left Eq.symm

/-- No type is its own ancestor: the depth falls along every step. -/
theorem not_isAncestor_self (k : TypeKey) : ¬ h.IsAncestor k k := by
  intro ha
  obtain ⟨m, hm, n, hn, e, e', hlt⟩ := hw.exists_of_isAncestor ha
  obtain rfl := hw.eq_of_key_eq hm hn (e.trans e'.symm)
  exact Nat.lt_irrefl _ hlt

/-- Induction along the parents: what holds of a type as soon as it holds of all
    of its parents holds of every type. -/
theorem parents_induction {P : Node → Prop}
    (step : ∀ n ∈ h.nodes, (∀ m ∈ h.parents n, P m) → P n) : ∀ n ∈ h.nodes, P n := by
  suffices ∀ d, ∀ n ∈ h.nodes, n.depth = d → P n from fun n hn => this _ n hn rfl
  intro d
  induction d using Nat.strongRecOn with
  | ind d ih =>
    rintro n hn rfl
    refine step n hn fun m hm => ?_
    obtain ⟨hm', hk⟩ := hw.mem_parents.1 hm
    exact ih m.depth (hw.depth_lt n hn m hm' hk) m hm' rfl

/-- A type without parents is the root. -/
theorem key_eq_root {n : Node} (hn : n ∈ h.nodes) (hp : n.parents = []) :
    n.key = root ∧ n.depth = 0 := by
  obtain ⟨i, hi⟩ := List.mem_iff_getElem?.1 hn
  obtain ⟨r, hr, hk, _, hd⟩ := hw.root
  by_cases h0 : i = 0
  · subst h0
    obtain rfl : n = r := by simpa [hi] using hr
    exact ⟨hk, hd⟩
  · exact absurd hp (hw.parents_ne_nil i n hi h0)

/-- The root node is that of the root. -/
theorem exists_root? : ∃ r ∈ h.nodes, h.root? = some r ∧ r.key = root := by
  obtain ⟨r, hr, hk, _⟩ := hw.root
  exact ⟨r, List.mem_of_getElem? hr, by rw [root?, List.head?_eq_getElem?, hr], hk⟩

/-- Every type is reached from the root by steps to a child. -/
theorem reachable {n : Node} (hn : n ∈ h.nodes) :
    ∃ r, h.root? = some r ∧ ReflTransGen (fun m c => c ∈ h.children m) r n := by
  obtain ⟨r, hr', hroot, hk⟩ := hw.exists_root?
  refine ⟨r, hroot, ?_⟩
  revert hn
  refine hw.parents_induction (P := fun n => ReflTransGen (fun m c => c ∈ h.children m) r n)
    (fun n hn ih => ?_) n
  by_cases hp : n.parents = []
  · rw [hw.eq_of_key_eq hn hr' ((hw.key_eq_root hn hp).1.trans hk.symm)]
  · obtain ⟨m, hm, hk', _⟩ := hw.depth_eq n hn hp
    exact (ih m (hw.mem_parents.2 ⟨hm, hk'⟩)).tail ((hw.mem_children hm).2 ⟨hn, hk'⟩)

/-- A chain loses at least one in depth with each step. -/
theorem chain_le_depth {n : Node} (hn : n ∈ h.nodes) {top : TypeKey} {l : Nat}
    (hc : h.Chain n.key top l) : l ≤ n.depth := by
  generalize hk : n.key = k at hc
  induction hc generalizing n with
  | refl => exact Nat.zero_le _
  | step hp _ ih =>
    obtain ⟨m, hm, n', hn', rfl, e, hlt⟩ := hw.exists_of_isParent hp
    obtain rfl := hw.eq_of_key_eq hn hn' (hk.trans e.symm)
    exact (Nat.succ_le_succ (ih hm rfl)).trans hlt

/-- A chain that always climbs to the deepest parent is as long as the type is
    deep. -/
theorem exists_chain : ∀ n ∈ h.nodes, h.Chain n.key root n.depth := by
  refine hw.parents_induction fun n hn ih => ?_
  by_cases hp : n.parents = []
  · obtain ⟨hk, hd⟩ := hw.key_eq_root hn hp
    rw [hk, hd]
    exact .refl root
  · obtain ⟨m, hm, hk, hd⟩ := hw.depth_eq n hn hp
    rw [hd]
    exact .step ⟨n, hn, rfl, hk⟩ (ih m (hw.mem_parents.2 ⟨hm, hk⟩))

/-- The depth of a type is the length of the longest chain up to the root. -/
theorem depth_isGreatest {n : Node} (hn : n ∈ h.nodes) :
    IsGreatest {l | h.Chain n.key root l} n.depth :=
  ⟨hw.exists_chain n hn, fun _ hc => hw.chain_le_depth hn hc⟩

end WellFormed

end Lineage.Hierarchy
