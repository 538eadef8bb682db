import Lineage.Hierarchy.Ancestors
import Lineage.Proofs.Hierarchy.WellFormed
import Mathlib.Data.List.Perm.Subperm

/-!
# The search for ancestors is complete

The breadth-first climb finds the types that one or more steps to a parent lead
to, and no others (`WellFormed.mem_ancestors`), each once
(`WellFormed.nodup_ancestors`). While it climbs, what has been found are
ancestors, and the parents of every type that has left the queue are among them
(`Climbing`).
-/

namespace Lineage.Hierarchy

variable {h : Hierarchy}

/-! ### Adding what is new -/

/-- Adding what has a new key appends some of it, so that every key is there in
    the end, and none twice. -/
theorem exists_foldl_new {α κ : Type} [DecidableEq κ] (key : α → κ) (found as : List α)
    (hnd : (found.map key).Nodup) :
    ∃ new, as.foldl (fun found a => if found.any (key · = key a) then found else found ++ [a])
        found = found ++ new ∧
      new ⊆ as ∧ ((found ++ new).map key).Nodup ∧ ∀ a ∈ as, ∃ b ∈ found ++ new, key b = key a := by
  induction as generalizing found with
  | nil => exact ⟨[], by simp, List.nil_subset _, by simpa using hnd, by simp⟩
  | cons a as ih =>
    rw [List.foldl_cons]
    by_cases ha : ∃ b ∈ found, key b = key a
    · rw [if_pos (by simpa using ha)]
      obtain ⟨new, hnew, hsub, hnd', hall⟩ := ih found hnd
      refine ⟨new, hnew, List.subset_cons_of_subset a hsub, hnd', ?_⟩
      obtain ⟨b, hb, e⟩ := ha
      exact List.forall_mem_cons.2 ⟨⟨b, List.mem_append_left new hb, e⟩, hall⟩
    · rw [if_neg (by simpa using ha)]
      have hnd₁ : ((found ++ [a]).map key).Nodup := by
        rw [List.map_append, List.map_singleton, ← List.concat_eq_append]
        refine hnd.concat fun hk => ha ?_
        simpa using hk
      obtain ⟨new, hnew, hsub, hnd', hall⟩ := ih (found ++ [a]) hnd₁
      refine ⟨a :: new, by simpa using hnew, List.cons_subset_cons a hsub, by simpa using hnd', ?_⟩
      rw [List.append_cons]
      exact List.forall_mem_cons.2 ⟨⟨a, by simp, rfl⟩, hall⟩

/-! ### Climbing -/

/-- The state of the climb from a type. -/
structure Climbing (h : Hierarchy) (k : TypeKey) (queue found : List Node) : Prop where
  /-- The nodes found are ancestors. -/
  found_above : ∀ m ∈ found, m ∈ h.nodes ∧ h.IsAncestor m.key k
  /-- None of them is found twice. -/
  found_nodup : (found.map Node.key).Nodup
  /-- Those in the queue have been found, unless it is the type itself. -/
  queue_found : ∀ m ∈ queue, m ∈ h.nodes ∧ (m.key = k ∨ m ∈ found)
  /-- The parents of all others have been found. -/
  closed : ∀ m ∈ h.nodes, m.key = k ∨ m ∈ found → m ∈ queue ∨ h.parents m ⊆ found

/-- What has been found cannot outnumber the types. -/
theorem Climbing.length_found_le {k : TypeKey} {queue found : List Node}
    (hc : h.Climbing k queue found) :
    found.length ≤ h.nodes.length :=
  (List.subperm_of_subset (.of_map Node.key hc.found_nodup)
    fun m hm => (hc.found_above m hm).1).length_le

namespace WellFormed

variable {root : TypeKey} (hw : h.WellFormed root) {k : TypeKey}
include hw

/-- The next node leaves the queue, and its parents enter it. -/
theorem climbing_step {n : Node} {queue found : List Node} (hc : h.Climbing k (n :: queue) found) :
    ∃ new, addNew found (h.parents n) = found ++ new ∧
      h.Climbing k (queue ++ new) (found ++ new) := by
  obtain ⟨new, hadd, hsub, hnd, hall⟩ :=
    exists_foldl_new Node.key found (h.parents n) hc.found_nodup
  obtain ⟨hn, hnk⟩ := hc.queue_found n List.mem_cons_self
  have hnew : ∀ m ∈ new, m ∈ h.nodes ∧ h.IsAncestor m.key k := by
    intro m hm
    obtain ⟨hm', hp⟩ := hw.mem_parents.1 (hsub hm)
    have hparent : h.IsParent m.key n.key := (hw.isParent_key hn).2 hp
    refine ⟨hm', ?_⟩
    obtain rfl | hfound := hnk
    · exact .single hparent
    · exact .head hparent (hc.found_above n hfound).2
  have habove : ∀ m ∈ found ++ new, m ∈ h.nodes ∧ h.IsAncestor m.key k := by
    intro m hm
    exact (List.mem_append.1 hm).elim (hc.found_above m) (hnew m)
  refine ⟨new, hadd, habove, hnd, fun m hm => ?_, fun m hm hmk => ?_⟩
  · obtain hm | hm := List.mem_append.1 hm
    · obtain ⟨hm', hmk⟩ := hc.queue_found m (List.mem_cons_of_mem n hm)
      exact ⟨hm', hmk.imp_right (List.mem_append_left new)⟩
    · exact ⟨(hnew m hm).1, .inr (List.mem_append_right found hm)⟩
  · by_cases hmn : m = n
    · -- the node that has left the queue: its parents have all been found by now
      refine .inr fun p hp => ?_
      subst hmn
      obtain ⟨p', hp', e⟩ := hall p hp
      rwa [← hw.eq_of_key_eq (habove p' hp').1 (hw.mem_parents.1 hp).1 e]
    · by_cases hm' : m ∈ new
      · exact .inl (List.mem_append_right queue hm')
      · have hmk' : m.key = k ∨ m ∈ found :=
          hmk.imp_right fun hmem => (List.mem_append.1 hmem).resolve_right hm'
        refine (hc.closed m hm hmk').imp (fun hq => ?_) (List.subset_append_of_subset_left new)
        exact List.mem_append_left new ((List.mem_cons.1 hq).resolve_left hmn)

/-- With one step for each type in the queue or still to be found, the climb
    empties the queue. -/
theorem exists_climb (fuel : Nat) {queue found : List Node} (hc : h.Climbing k queue found)
    (hfuel : queue.length + (h.nodes.length - found.length) ≤ fuel) :
    ∃ found', h.climb? fuel queue found = some found' ∧ h.Climbing k [] found' := by
  induction fuel generalizing queue found with
  | zero =>
    obtain rfl : queue = [] := List.length_eq_zero_iff.1 (by omega)
    exact ⟨found, rfl, hc⟩
  | succ fuel ih =>
    cases queue with
    | nil => exact ⟨found, rfl, hc⟩
    | cons n queue =>
      obtain ⟨new, hadd, hc'⟩ := hw.climbing_step hc
      have hle := hc'.length_found_le
      simp only [List.length_append, List.length_cons] at hle hfuel
      obtain ⟨found', hclimb, hc''⟩ := ih hc' (by simp only [List.length_append]; omega)
      refine ⟨found', ?_, hc''⟩
      rw [climb?, hadd, List.drop_left, hclimb]

/-! ### Ancestors -/

/-- The climb ends with the ancestors of the type. -/
theorem exists_ancestors {n : Node} (hn : n ∈ h.nodes) :
    ∃ found, h.Climbing n.key [] found ∧ (h.ancestors n.key).Perm found := by
  have hstart : h.Climbing n.key [n] [] := by
    refine ⟨by simp, by simp, by simpa using hn, fun m hm hmk => .inl ?_⟩
    rw [List.mem_singleton]
    exact hw.eq_of_key_eq hm hn (hmk.resolve_right List.not_mem_nil)
  obtain ⟨found, hclimb, hc⟩ := hw.exists_climb (h.nodes.length + 1) hstart
    (by rw [List.length_singleton, List.length_nil]; omega)
  refine ⟨found, hc, ?_⟩
  simp only [ancestors, hw.locate?_key hn, hclimb, Option.getD_some]
  exact List.mergeSort_perm found _

/-- A type outside the hierarchy has no ancestors. -/
theorem ancestors_eq_nil (hk : h.contains k = false) : h.ancestors k = [] := by
  have hnone : h.locate? k = none := by
    refine Option.eq_none_iff_forall_ne_some.2 fun n hn => ?_
    exact Bool.eq_false_iff.1 hk (hw.contains_iff.2 ⟨n, hw.locate?_eq_some.1 hn⟩)
  rw [ancestors, hnone]

/-- The ancestors of a type are the types that one or more steps to a parent
    lead to. -/
theorem mem_ancestors {m : Node} : m ∈ h.ancestors k ↔ m ∈ h.nodes ∧ h.IsAncestor m.key k := by
  by_cases hk : h.contains k = true
  · obtain ⟨n, hn, rfl⟩ := hw.contains_iff.1 hk
    obtain ⟨found, hc, hperm⟩ := hw.exists_ancestors hn
    rw [hperm.mem_iff]
    refine ⟨hc.found_above m, ?_⟩
    rintro ⟨hm, ha⟩
    have hclosed : ∀ m ∈ h.nodes, m.key = n.key ∨ m ∈ found → h.parents m ⊆ found :=
      fun m hm hmk => (hc.closed m hm hmk).resolve_left List.not_mem_nil
    -- along the steps down to the type, from the type's own parents on
    generalize hmk : m.key = a at ha
    induction ha using Relation.TransGen.head_induction_on generalizing m with
    | single hp =>
      exact hclosed n hn (.inl rfl) (hw.mem_parents.2 ⟨hm, hmk ▸ (hw.isParent_key hn).1 hp⟩)
    | head hp _ ih =>
      obtain ⟨_, _, c, hcn, _, rfl, _⟩ := hw.exists_of_isParent hp
      exact hclosed c hcn (.inr (ih hcn rfl))
        (hw.mem_parents.2 ⟨hm, hmk ▸ (hw.isParent_key hcn).1 hp⟩)
  · rw [hw.ancestors_eq_nil (Bool.eq_false_iff.2 hk)]
    refine ⟨fun hm => absurd hm List.not_mem_nil, fun ⟨_, ha⟩ => absurd ?_ hk⟩
    obtain ⟨_, _, n, hn, _, e, _⟩ := hw.exists_of_isAncestor ha
    exact hw.contains_iff.2 ⟨n, hn, e⟩

theorem isAncestor_iff {u : TypeKey} : h.IsAncestor u k ↔ ∃ m ∈ h.ancestors k, m.key = u := by
  constructor
  · intro ha
    obtain ⟨m, hm, _, _, rfl, _⟩ := hw.exists_of_isAncestor ha
    exact ⟨m, hw.mem_ancestors.2 ⟨hm, ha⟩, rfl⟩
  · rintro ⟨m, hm, rfl⟩
    exact (hw.mem_ancestors.1 hm).2

/-- A type is a subtype of itself and of its ancestors. -/
theorem isSubtypeOf_iff {k ancestor : TypeKey} :
    h.isSubtypeOf k ancestor = true ↔
      (k = ancestor ∧ h.contains k = true) ∨ h.IsAncestor ancestor k := by
  rw [isSubtypeOf, Bool.or_eq_true, Bool.and_eq_true, decide_eq_true_eq, List.any_eq_true,
    hw.isAncestor_iff]
  simp only [decide_eq_true_eq]

/-- No ancestor is listed twice. -/
theorem nodup_ancestors : ((h.ancestors k).map Node.key).Nodup := by
  cases hk : h.locate? k with
  | none => simp [ancestors, hk]
  | some n =>
    obtain ⟨hn, rfl⟩ := hw.locate?_eq_some.1 hk
    obtain ⟨found, hc, hperm⟩ := hw.exists_ancestors hn
    exact (hperm.map Node.key).nodup_iff.2 hc.found_nodup

end WellFormed

end Lineage.Hierarchy
