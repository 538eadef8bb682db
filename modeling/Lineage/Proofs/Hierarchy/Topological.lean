import Lineage.Proofs.Hierarchy.Building
import Lineage.Proofs.Hierarchy.Traversal

/-!
# The traversal order

Whatever types have been added to a hierarchy, and whether some were refused or not, its
traversal order is complete and topological (`topological_addAll`):

* the walk ends after exactly as many steps as there are types, and no count of pending
  parents goes wrong on the way, since there would be no outcome then;
* each type is visited once;
* the root is visited first, and every type after all of its parents.

That all types are reached is `WellFormed.traverses_toList`. The steps are counted on the
walk without a bound (`Walks`), of which the bounded one is a part.
-/

namespace Lineage.Hierarchy

variable {h : Hierarchy}

/-! ### Walks without a bound -/

/-- From the given state on the types at the given positions are visited, until none is
    ready. All children of a type can be released when it is visited. -/
inductive Walks (h : Hierarchy) : Walk → List Nat → Prop
  | done (pending : List Nat) : Walks h ⟨pending, []⟩ []
  | visit {pending ready : List Nat} {i : Nat} {n : Node} {w : Walk} {is : List Nat} :
      h.nodes[i]? = some n → n.children.reverse.foldlM h.release ⟨pending, ready⟩ = some w →
      Walks h w is → Walks h ⟨pending, i :: ready⟩ (i :: is)

/-- A bounded walk ends if the walk without a bound does, and does not take more steps. -/
theorem walk?_eq_some_iff {fuel : Nat} {w : Walk} {is : List Nat} :
    h.walk? fuel w = some is ↔ h.Walks w is ∧ is.length ≤ fuel := by
  induction fuel generalizing w is with
  | zero =>
    obtain ⟨pending, _ | ⟨i, ready⟩⟩ := w
    · refine ⟨fun hw => ?_, fun ⟨hw, _⟩ => by cases hw; rfl⟩
      obtain rfl := Option.some.inj hw
      exact ⟨.done pending, Nat.zero_le _⟩
    · refine iff_of_false (fun hw => nomatch hw) fun ⟨hw, hle⟩ => ?_
      cases hw
      exact absurd hle (by simp)
  | succ fuel ih =>
    obtain ⟨pending, _ | ⟨i, ready⟩⟩ := w
    · refine ⟨fun hw => ?_, fun ⟨hw, _⟩ => by cases hw; rfl⟩
      obtain rfl := Option.some.inj hw
      exact ⟨.done pending, Nat.zero_le _⟩
    · simp only [walk?, Option.bind_eq_bind, Option.bind_eq_some_iff, ih]
      constructor
      · rintro ⟨n, hn, w', hw', is', ⟨hwalks, hle⟩, his⟩
        rw [← Option.some.inj his]
        exact ⟨.visit hn hw' hwalks, Nat.succ_le_succ hle⟩
      · rintro ⟨hwalks, hle⟩
        cases hwalks with
        | visit hn hw' hwalks => exact ⟨_, hn, _, hw', _, ⟨hwalks, Nat.le_of_succ_le_succ hle⟩, rfl⟩

/-- A state determines the walk from it. -/
theorem Walks.unique {w : Walk} {is js : List Nat} (his : h.Walks w is) (hjs : h.Walks w js) :
    is = js := by
  have his := walk?_eq_some_iff.2 ⟨his, Nat.le_max_left is.length js.length⟩
  have hjs := walk?_eq_some_iff.2 ⟨hjs, Nat.le_max_right is.length js.length⟩
  exact Option.some.inj (his.symm.trans hjs)

/-! ### The order as a list -/

/-- A type is visited after its parents. -/
theorem Traverses.parents_subset {done : List TypeKey} {before after : List Node} {n : Node}
    (htrav : h.Traverses done (before ++ n :: after)) :
    ∀ k ∈ n.parents, k ∈ done ∨ k ∈ before.map Node.key := by
  induction before generalizing done with
  | nil => exact fun k hk => .inl (htrav.2.2.1 hk)
  | cons m before ih =>
    intro k hk
    rw [List.map_cons, List.mem_cons]
    obtain hk | hk := ih htrav.2.2.2 k hk
    · exact (List.mem_cons.1 hk).symm.imp_right .inl
    · exact .inr (.inr hk)

namespace WellFormed

variable {root : TypeKey} (hw : h.WellFormed root)
include hw

theorem walks_order : h.Walks h.start h.order ∧ h.order.length ≤ h.nodes.length := by
  obtain ⟨is, hwalk, _⟩ := hw.exists_walk h.nodes.length hw.tracks_start
    (fun n _ hn => absurd hn List.not_mem_nil) List.nodup_nil (List.nil_subset _) (by simp)
  rw [order, hwalk, Option.getD_some]
  exact walk?_eq_some_iff.1 hwalk

/-- Each position is visited once. -/
theorem order_perm_range : h.order.Perm (List.range h.nodes.length) := by
  have hsub : List.range h.nodes.length ⊆ h.order := fun i hi => by
    have hi := List.getElem?_eq_getElem (List.mem_range.1 hi)
    have hmem := hw.traverses_toList.2 _ (List.mem_of_getElem? hi)
    obtain ⟨j, hj, hn⟩ := List.mem_filterMap.1 hmem
    exact hw.getElem?_inj hn hi ▸ hj
  refine ((List.subperm_of_subset List.nodup_range hsub).perm_of_length_le ?_).symm
  rw [List.length_range]
  exact hw.walks_order.2

/-- The walk ends after as many steps as there are types, and no sooner. -/
theorem walk?_start (fuel : Nat) :
    h.walk? fuel h.start = if h.nodes.length ≤ fuel then some h.order else none := by
  have hlength : h.order.length = h.nodes.length :=
    hw.order_perm_range.length_eq.trans List.length_range
  rw [← hlength]
  split_ifs with hfuel
  · exact walk?_eq_some_iff.2 ⟨hw.walks_order.1, hfuel⟩
  · refine Option.eq_none_iff_forall_ne_some.2 fun is his => hfuel ?_
    obtain ⟨hwalks, hle⟩ := walk?_eq_some_iff.1 his
    exact hw.walks_order.1.unique hwalks ▸ hle

/-- The root is visited first. -/
theorem head?_toList : ∃ r, h.toList.head? = some r ∧ h.root? = some r ∧ r.key = root := by
  obtain ⟨r, hr, hroot, hkey⟩ := hw.exists_root?
  obtain ⟨htrav, hall⟩ := hw.traverses_toList
  cases hlist : h.toList with
  | nil => exact absurd (hall r hr) (hlist ▸ List.not_mem_nil)
  | cons n ns =>
    rw [hlist] at htrav
    -- the first type cannot have parents, as nothing has been visited before
    have hn := (hw.key_eq_root htrav.1 (List.subset_nil.1 htrav.2.2.1)).1
    obtain rfl := hw.eq_of_key_eq htrav.1 hr (hn.trans hkey.symm)
    exact ⟨n, rfl, hroot, hkey⟩

end WellFormed

/-- However types have been added, and whether they were refused or not, the traversal
    ends with all of them: each is visited once, the root first, and all others after
    their parents. It takes one step for each type, in none of which a count of pending
    parents goes wrong. -/
theorem topological_addAll (p : Discovery) (ds : List TypeDescriptor) :
    let h := ((Builder.new p.root).addAll p ds).toHierarchy
    (∀ fuel, h.walk? fuel h.start = if h.nodes.length ≤ fuel then some h.order else none) ∧
      h.order.Perm (List.range h.nodes.length) ∧
      h.toList.Perm h.nodes ∧ h.keys.Nodup ∧
      (∃ r, h.toList.head? = some r ∧ h.root? = some r ∧ r.key = p.root) ∧
      ∀ before n after, h.toList = before ++ n :: after →
        n.parents ⊆ before.map Node.key := by
  intro h
  have hw : h.WellFormed p.root := ((Builder.sound_new p.root).addAll p ds).wellFormed
  have htrav := hw.traverses_toList.1
  refine ⟨hw.walk?_start, hw.order_perm_range, hw.toList_perm, htrav.nodup.1, hw.head?_toList,
    fun before n after hlist k hk => ?_⟩
  rw [hlist] at htrav
  exact (htrav.parents_subset k hk).resolve_left List.not_mem_nil

end Lineage.Hierarchy
