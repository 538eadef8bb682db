import Lineage.Proofs.Hierarchy.Building

/-!
# The order of ancestors

The ancestors of a type are found breadth first, so a type may be found before others that
are nearer on a longer path. They are sorted by depth afterwards (`WellFormed.listsAncestors`).
Depth is the length of the *longest* chain to the root, and so falls along every step to a
parent. In the sorted list, every type therefore stands before its own ancestors, and the
root, which is an ancestor of all others, comes last.

A type is a subtype of itself and of its ancestors. This is a partial order on the types of
the hierarchy (`WellFormed.subtypeOrder`), since no type is its own ancestor.
-/

namespace Lineage.Hierarchy

open Relation

variable {h : Hierarchy}

/-- The list holds the ancestors of the type, all of them and each once, deeper ones first. -/
structure ListsAncestors (h : Hierarchy) (root k : TypeKey) (ms : List Node) : Prop where
  /-- Listed are the nodes to which one or more steps to a parent lead. -/
  mem_iff : ∀ m, m ∈ ms ↔ m ∈ h.nodes ∧ h.IsAncestor m.key k
  /-- None of them is listed twice. -/
  nodup : (ms.map Node.key).Nodup
  /-- The depth never increases along the list. -/
  descending : ms.Pairwise fun m n => n.depth ≤ m.depth
  /-- The ancestors of a listed type are listed behind it. -/
  behind : ∀ before m after, ms = before ++ m :: after →
    ∀ n ∈ h.nodes, h.IsAncestor n.key m.key → n ∈ after
  /-- The root comes last, unless it is the type itself. -/
  root_last : h.contains k = true → k ≠ root → ms.getLast? = h.root?

/-- Being a subtype is a partial order on the types of the hierarchy. -/
structure SubtypeOrder (h : Hierarchy) : Prop where
  refl : ∀ k, h.contains k = true → h.isSubtypeOf k k = true
  contains : ∀ k l, h.isSubtypeOf k l = true → h.contains k = true ∧ h.contains l = true
  antisymm : ∀ k l, h.isSubtypeOf k l = true → h.isSubtypeOf l k = true → k = l
  trans : ∀ k l m, h.isSubtypeOf k l = true → h.isSubtypeOf l m = true → h.isSubtypeOf k m = true

namespace WellFormed

variable {root : TypeKey} (hw : h.WellFormed root)
include hw

omit hw in
theorem pairwise_depth_ancestors (h : Hierarchy) (k : TypeKey) :
    (h.ancestors k).Pairwise fun m n => n.depth ≤ m.depth := by
  rw [ancestors]
  split
  · exact List.Pairwise.nil
  · refine (List.pairwise_mergeSort (fun a b c => ?_) (fun a b => ?_) _).imp of_decide_eq_true
    · simp only [decide_eq_true_eq]
      exact fun hab hbc => hbc.trans hab
    · simp only [Bool.or_eq_true, decide_eq_true_eq]
      exact Nat.le_total _ _

/-- Ancestors are less deep. -/
theorem depth_lt_of_isAncestor {m n : Node} (hm : m ∈ h.nodes) (hn : n ∈ h.nodes)
    (ha : h.IsAncestor m.key n.key) : m.depth < n.depth := by
  obtain ⟨m', hm', n', hn', em, en, hlt⟩ := hw.exists_of_isAncestor ha
  obtain rfl := hw.eq_of_key_eq hm' hm em
  obtain rfl := hw.eq_of_key_eq hn' hn en
  exact hlt

/-- The root is an ancestor of every other type. -/
theorem isAncestor_root {n : Node} (hn : n ∈ h.nodes) (hne : n.key ≠ root) :
    h.IsAncestor root n.key := by
  revert hn hne
  refine hw.parents_induction (P := fun n => n.key ≠ root → h.IsAncestor root n.key)
    (fun n hn ih hne => ?_) n
  have hp : n.parents ≠ [] := fun hp => hne (hw.key_eq_root hn hp).1
  obtain ⟨m, hm, hk, _⟩ := hw.depth_eq n hn hp
  refine hw.isAncestor_of_parent hn hk ?_
  by_cases hroot : m.key = root
  · exact .inl hroot.symm
  · exact .inr (ih m (hw.mem_parents.2 ⟨hm, hk⟩) hroot)

/-- What stands behind a type in the list is not deeper, so its ancestors can only stand
    there. -/
theorem mem_after_of_isAncestor {k : TypeKey} {before after : List Node} {m n : Node}
    (hlist : h.ancestors k = before ++ m :: after) (hn : n ∈ h.nodes)
    (ha : h.IsAncestor n.key m.key) : n ∈ after := by
  have hm := hw.mem_ancestors.1 (hlist ▸ List.mem_append_right before List.mem_cons_self)
  have hlt := hw.depth_lt_of_isAncestor hn hm.1 ha
  have hmem : n ∈ before ++ m :: after := hlist ▸ hw.mem_ancestors.2 ⟨hn, ha.trans hm.2⟩
  have hsorted := hlist ▸ pairwise_depth_ancestors h k
  rcases List.mem_append.1 hmem with hmem | hmem
  · have hle := (List.pairwise_append.1 hsorted).2.2 n hmem m List.mem_cons_self
    exact absurd hlt hle.not_gt
  · rcases List.mem_cons.1 hmem with rfl | hmem
    · exact absurd hlt (Nat.lt_irrefl _)
    · exact hmem

/-- The last ancestor is the root: it is listed, and nothing that is not deeper stands
    behind another type. -/
theorem getLast?_ancestors {k : TypeKey} (hk : h.contains k = true) (hne : k ≠ root) :
    (h.ancestors k).getLast? = h.root? := by
  obtain ⟨n, hn, rfl⟩ := hw.contains_iff.1 hk
  obtain ⟨r, hr, rfl, _⟩ := hw.root
  have hrmem := List.mem_of_getElem? hr
  have hroot : r ∈ h.ancestors n.key := hw.mem_ancestors.2 ⟨hrmem, hw.isAncestor_root hn hne⟩
  obtain ⟨before, last, hlist⟩ :=
    (List.eq_nil_or_concat' (h.ancestors n.key)).resolve_left (List.ne_nil_of_mem hroot)
  have hlast : last ∈ h.nodes :=
    (hw.mem_ancestors.1 (hlist ▸ List.mem_append_right before List.mem_cons_self)).1
  have hkey : last.key = r.key := by
    by_contra hkey
    exact List.not_mem_nil (hw.mem_after_of_isAncestor hlist hrmem (hw.isAncestor_root hlast hkey))
  rw [hlist, List.getLast?_concat, root?, List.head?_eq_getElem?, hr,
    hw.eq_of_key_eq hlast hrmem hkey]

theorem listsAncestors (k : TypeKey) : h.ListsAncestors root k (h.ancestors k) where
  mem_iff _ := hw.mem_ancestors
  nodup := hw.nodup_ancestors
  descending := pairwise_depth_ancestors h k
  behind _ _ _ hlist _ := hw.mem_after_of_isAncestor hlist
  root_last := hw.getLast?_ancestors

/-- Subtypes of each other are the same: neither can be an ancestor of itself. -/
theorem subtypeOrder : h.SubtypeOrder where
  refl _ hk := hw.isSubtypeOf_iff.2 (.inl ⟨rfl, hk⟩)
  contains k l hkl := by
    rcases hw.isSubtypeOf_iff.1 hkl with ⟨rfl, hk⟩ | ha
    · exact ⟨hk, hk⟩
    · obtain ⟨m, hm, n, hn, rfl, rfl, _⟩ := hw.exists_of_isAncestor ha
      exact ⟨hw.contains_iff.2 ⟨n, hn, rfl⟩, hw.contains_iff.2 ⟨m, hm, rfl⟩⟩
  antisymm k l hkl hlk := by
    rcases hw.isSubtypeOf_iff.1 hkl with ⟨rfl, _⟩ | hkl
    · rfl
    rcases hw.isSubtypeOf_iff.1 hlk with ⟨rfl, _⟩ | hlk
    · rfl
    exact absurd (hkl.trans hlk) (hw.not_isAncestor_self l)
  trans k l m hkl hlm := by
    rcases hw.isSubtypeOf_iff.1 hkl with ⟨rfl, _⟩ | hkl
    · exact hlm
    rcases hw.isSubtypeOf_iff.1 hlm with ⟨rfl, _⟩ | hlm
    · exact hw.isSubtypeOf_iff.2 (.inr hkl)
    exact hw.isSubtypeOf_iff.2 (.inr (hlm.trans hkl))

end WellFormed

/-- However types have been added to a hierarchy, and whether they were refused or not, the
    ancestors of a type are listed completely, each before its own ancestors and the root
    last. A type outside has none. Being a subtype is a partial order on the types. -/
theorem ancestors_addAll (p : Discovery) (ds : List TypeDescriptor) :
    let h := ((Builder.new p.root).addAll p ds).toHierarchy
    (∀ k, h.ListsAncestors p.root k (h.ancestors k)) ∧
      (∀ k, h.contains k = false → h.ancestors k = []) ∧
      (∃ r, h.root? = some r ∧ r.key = p.root) ∧ h.SubtypeOrder := by
  intro h
  have hw : h.WellFormed p.root := ((Builder.sound_new p.root).addAll p ds).wellFormed
  obtain ⟨r, _, hroot, hkey⟩ := hw.exists_root?
  exact ⟨hw.listsAncestors, fun k => hw.ancestors_eq_nil, ⟨r, hroot, hkey⟩, hw.subtypeOrder⟩

end Lineage.Hierarchy
