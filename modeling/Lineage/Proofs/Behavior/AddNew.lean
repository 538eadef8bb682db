import Lineage.Behavior.Factory
import Lineage.Proofs.Hierarchy.Ancestors

/-!
# Adding what is not there yet

Where sets are joined, of the elements with one key only the first counts (`addNew`).
What this adds is told by the keys: an element is added if its key was not there
before, and if it is the first one with that key (`exists_addNew`).
-/

namespace Lineage

variable {α κ : Type} [DecidableEq κ] (key : α → κ)

/-- No key comes to be there twice. -/
theorem nodup_addNew {found : List α} (hnd : (found.map key).Nodup) (new : List α) :
    ((addNew key found new).map key).Nodup := by
  obtain ⟨added, hadded, _, hnd, _⟩ := Hierarchy.exists_foldl_new key found new hnd
  rw [addNew, hadded]
  exact hnd

/-- The keys are those that were there and those of what is added. -/
theorem mem_map_addNew {found : List α} (hnd : (found.map key).Nodup) (new : List α) {k : κ} :
    k ∈ (addNew key found new).map key ↔ k ∈ found.map key ∨ k ∈ new.map key := by
  obtain ⟨added, hadded, hsub, _, hall⟩ := Hierarchy.exists_foldl_new key found new hnd
  rw [addNew, hadded]
  constructor
  · rw [List.map_append, List.mem_append]
    exact Or.imp_right fun hmem => List.map_subset _ hsub hmem
  · intro hmem
    obtain hmem | hmem := hmem
    · rw [List.map_append]
      exact List.mem_append_left _ hmem
    · obtain ⟨a, ha, rfl⟩ := List.mem_map.1 hmem
      obtain ⟨b, hb, e⟩ := hall a ha
      exact e ▸ List.mem_map_of_mem hb

theorem nodup_addNew_nil (new : List α) : ((addNew key [] new).map key).Nodup :=
  nodup_addNew key (by exact List.nodup_nil) new

theorem mem_map_addNew_nil (new : List α) {k : κ} :
    k ∈ (addNew key [] new).map key ↔ k ∈ new.map key := by
  rw [mem_map_addNew key (by exact List.nodup_nil)]
  exact or_iff_right List.not_mem_nil

theorem addNew_cons_of_mem {found new : List α} {a : α} (ha : key a ∈ found.map key) :
    addNew key found (a :: new) = addNew key found new := by
  rw [addNew, List.foldl_cons, if_pos (by simpa using ha), addNew]

theorem addNew_cons_of_not_mem {found new : List α} {a : α} (ha : key a ∉ found.map key) :
    addNew key found (a :: new) = addNew key (found ++ [a]) new := by
  rw [addNew, List.foldl_cons, if_neg (by simpa using ha), addNew]

/-- What is added are some of the elements, in their order: of each key that is not
    there yet the first. -/
theorem exists_addNew (found new : List α) :
    ∃ added, addNew key found new = found ++ added ∧ added.Sublist new ∧ ∀ b, b ∈ added ↔
      key b ∉ found.map key ∧ new.find? (key · = key b) = some b := by
  induction new generalizing found with
  | nil => exact ⟨[], (List.append_nil found).symm, .slnil, fun b => by simp⟩
  | cons a new ih =>
    by_cases ha : key a ∈ found.map key
    · -- the key is there already, so no element with it is added
      obtain ⟨added, hadded, hsub, hmem⟩ := ih found
      refine ⟨added, ?_, hsub.cons a, fun b => ?_⟩
      · rw [addNew_cons_of_mem key ha, hadded]
      · rw [hmem]
        refine and_congr_right fun hb => ?_
        have hab : key a ≠ key b := fun e => hb (e ▸ ha)
        rw [List.find?_cons_of_neg (by simpa using hab)]
    · -- the element is added, and none of the later ones with its key
      obtain ⟨added, hadded, hsub, hmem⟩ := ih (found ++ [a])
      refine ⟨a :: added, ?_, hsub.cons_cons a, fun b => ?_⟩
      · rw [List.append_cons, ← hadded, addNew_cons_of_not_mem key ha]
      · rw [List.mem_cons, hmem, List.map_append, List.mem_append, not_or, and_assoc]
        by_cases hab : key a = key b
        · rw [List.find?_cons_of_pos (by simpa using hab), Option.some_inj]
          have hmem : key b ∈ [a].map key := by simp [hab]
          constructor
          · intro hb
            obtain rfl | ⟨_, hnot, _⟩ := hb
            · exact ⟨ha, rfl⟩
            · exact absurd hmem hnot
          · exact fun h => .inl h.2.symm
        · rw [List.find?_cons_of_neg (by simpa using hab)]
          have hmem : key b ∉ [a].map key := by simpa using Ne.symm hab
          have hne : b ≠ a := fun e => hab (congrArg key e.symm)
          simp only [hmem, hne, false_or, not_false_eq_true, true_and]

theorem mem_of_mem_addNew {found new : List α} {b : α} (hb : b ∈ addNew key found new) :
    b ∈ found ∨ b ∈ new := by
  obtain ⟨added, hadded, hsub, _⟩ := exists_addNew key found new
  rw [hadded, List.mem_append] at hb
  exact hb.imp_right fun hb => hsub.subset hb

/-- What is joined from nothing is there in what it is joined from. -/
theorem mem_of_mem_addNew_nil {new : List α} {b : α} (hb : b ∈ addNew key [] new) : b ∈ new :=
  (mem_of_mem_addNew key hb).resolve_left List.not_mem_nil

theorem addNew_append (found new new' : List α) :
    addNew key found (new ++ new') = addNew key (addNew key found new) new' :=
  List.foldl_append

/-- Elements with new keys are all added. -/
theorem addNew_eq_append {found new : List α} (hnd : ((found ++ new).map key).Nodup) :
    addNew key found new = found ++ new := by
  induction new generalizing found with
  | nil => exact (List.append_nil found).symm
  | cons a new ih =>
    rw [List.append_cons] at hnd ⊢
    have ha : key a ∉ found.map key := by
      rw [List.map_append, List.map_append] at hnd
      exact List.disjoint_singleton.1 (List.nodup_append'.1 (List.nodup_append'.1 hnd).1).2.2
    rw [addNew_cons_of_not_mem key ha, ih hnd]

theorem addNew_nil_of_nodup {as : List α} (hnd : (as.map key).Nodup) : addNew key [] as = as :=
  addNew_eq_append key (by exact hnd)

/-- What was there stays in front. -/
theorem prefix_addNew (found new : List α) : found <+: addNew key found new := by
  obtain ⟨added, hadded, _⟩ := exists_addNew key found new
  exact ⟨added, hadded.symm⟩

end Lineage
