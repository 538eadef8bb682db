import Lineage.Table
import Mathlib.Data.List.Forall2
import Mathlib.Data.List.Nodup
import Mathlib.Data.Option.Basic

/-!
# Tables as maps

A table stands for a map if no key occurs in it twice (`Distinct`). All
operations keep it so, and what a key is mapped to afterwards follows from what
it was mapped to in both tables:

* `get?_foldl_alter`: altering the keys of a second table one after the other;
* `rel_lookup`: tables that are made from each other entry by entry.
-/

namespace Lineage.Table

variable {κ ν μ : Type}

/-- No key occurs twice. -/
def Distinct (t : Table κ ν) : Prop :=
  (t.map Prod.fst).Nodup

theorem distinct_nil : Distinct ([] : Table κ ν) :=
  List.nodup_nil

variable [DecidableEq κ]

/-- The key of the first entry is not found among the others. -/
theorem distinct_cons {e : κ × ν} {t : Table κ ν} :
    Distinct (e :: t) ↔ t.get? e.1 = none ∧ t.Distinct := by
  simp only [Distinct, List.map_cons, List.nodup_cons, get?, List.lookup_eq_none_iff]
  refine and_congr_left fun _ => ⟨fun he x hx => ?_, fun he hmem => ?_⟩
  · exact bne_iff_ne.2 fun h => he (h ▸ List.mem_map_of_mem hx)
  · obtain ⟨x, hx, h⟩ := List.mem_map.1 hmem
    exact bne_iff_ne.1 (he x hx) h.symm

@[simp]
theorem get?_nil (k : κ) : get? ([] : Table κ ν) k = none :=
  rfl

theorem get?_cons (e : κ × ν) (t : Table κ ν) (k : κ) :
    get? (e :: t) k = if k = e.1 then some e.2 else t.get? k := by
  obtain ⟨key, v⟩ := e
  rw [get?, List.lookup_cons]
  split_ifs with hk
  · rw [beq_iff_eq.2 hk]
  · rw [beq_false_of_ne hk, get?]

theorem get?_map (f : ν → μ) (t : Table κ ν) (k : κ) :
    get? (t.map fun e => (e.1, f e.2)) k = (t.get? k).map f := by
  induction t with
  | nil => rfl
  | cons e t ih =>
    rw [List.map_cons, get?_cons, get?_cons, ih]
    split_ifs <;> rfl

theorem mem_of_get? {t : Table κ ν} {k : κ} {v : ν} (h : t.get? k = some v) : (k, v) ∈ t := by
  rw [get?, List.lookup_eq_some_iff] at h
  obtain ⟨before, after, rfl, _⟩ := h
  exact List.mem_append_right before List.mem_cons_self

/-- In a table with distinct keys each entry is what its key is mapped to. -/
theorem Distinct.mem_iff {t : Table κ ν} (ht : t.Distinct) {k : κ} {v : ν} :
    (k, v) ∈ t ↔ t.get? k = some v := by
  induction t with
  | nil => simp
  | cons e t ih =>
    obtain ⟨hnone, ht⟩ := distinct_cons.1 ht
    rw [List.mem_cons, ih ht, get?_cons]
    split_ifs with hk
    · subst hk
      simp [hnone, Prod.ext_iff, eq_comm]
    · simp [Prod.ext_iff, hk]

/-! ### Altering -/

theorem Distinct.alter {t : Table κ ν} (ht : t.Distinct) (key : κ) (f : Option ν → ν) :
    (t.alter key f).Distinct := by
  induction t with
  | nil => exact List.nodup_singleton key
  | cons e t ih =>
    obtain ⟨hnone, ht⟩ := distinct_cons.1 ht
    rw [Table.alter]
    split_ifs with hk
    · exact distinct_cons.2 ⟨hnone, ht⟩
    · exact distinct_cons.2 ⟨by rw [get?_alter, if_neg hk, hnone], ih ht⟩

theorem Distinct.foldl_alter {t : Table κ ν} (ht : t.Distinct) (f : μ → Option ν → ν)
    (u : Table κ μ) : Distinct (u.foldl (fun t e => t.alter e.1 (f e.2)) t) := by
  induction u generalizing t with
  | nil => exact ht
  | cons e u ih => exact ih (ht.alter e.1 (f e.2))

/-- Altering the keys of a second table changes the values of these keys, each
    once. -/
theorem get?_foldl_alter (f : μ → Option ν → ν) {u : Table κ μ} (hu : u.Distinct)
    (t : Table κ ν) (k : κ) :
    get? (u.foldl (fun t e => t.alter e.1 (f e.2)) t) k =
      match u.get? k with
      | some v => some (f v (t.get? k))
      | none => t.get? k := by
  induction u generalizing t with
  | nil => rfl
  | cons e u ih =>
    obtain ⟨hnone, hu⟩ := distinct_cons.1 hu
    rw [List.foldl_cons, ih hu, get?_cons]
    split_ifs with hk
    · subst hk
      rw [hnone, get?_alter, if_pos rfl]
    · rw [get?_alter, if_neg hk]

/-- Where a table is extended, what it has already stays. -/
theorem get?_extend {u : Table κ ν} (hu : u.Distinct) (t : Table κ ν) (k : κ) :
    (t.extend u).get? k = (t.get? k <|> u.get? k) := by
  rw [extend]
  refine (get?_foldl_alter (fun v => (·.getD v)) hu t k).trans ?_
  cases u.get? k <;> cases t.get? k <;> rfl

/-- Where another table is laid over it, that one has precedence. -/
theorem get?_overlay {u : Table κ ν} (hu : u.Distinct) (t : Table κ ν) (k : κ) :
    (t.overlay u).get? k = (u.get? k <|> t.get? k) := by
  rw [overlay]
  refine (get?_foldl_alter (fun v _ => v) hu t k).trans ?_
  cases u.get? k <;> rfl

/-- In a table with distinct keys no value occurs twice if no two keys are mapped
    to it. -/
theorem Distinct.nodup_map_snd {t : Table κ ν} (ht : t.Distinct) :
    (t.map Prod.snd).Nodup ↔ ∀ a b v, t.get? a = some v → t.get? b = some v → a = b := by
  constructor
  · intro hnd a b v ha hb
    have := List.inj_on_of_nodup_map hnd (ht.mem_iff.2 ha) (ht.mem_iff.2 hb) rfl
    exact congrArg Prod.fst this
  · intro hinj
    refine (List.Nodup.of_map _ ht).map_on ?_
    rintro ⟨a, v⟩ ha ⟨b, w⟩ hb (rfl : v = w)
    rw [hinj a b v (ht.mem_iff.1 ha) (ht.mem_iff.1 hb)]

/-! ### Entry by entry -/

omit [DecidableEq κ] in
theorem map_fst_eq {R : κ × ν → κ × μ → Prop} {t : Table κ ν} {u : Table κ μ}
    (h : List.Forall₂ (fun a b => a.1 = b.1 ∧ R a b) t u) : t.map Prod.fst = u.map Prod.fst := by
  induction h with
  | nil => rfl
  | cons hab _ ih => rw [List.map_cons, List.map_cons, hab.1, ih]

/-- What holds of all entries in the same place holds of what a key is mapped
    to. -/
theorem rel_lookup {R : κ → ν → μ → Prop} {t : Table κ ν} {u : Table κ μ}
    (h : List.Forall₂ (fun a b => a.1 = b.1 ∧ R a.1 a.2 b.2) t u) (k : κ) :
    Option.Rel (R k) (t.get? k) (u.get? k) := by
  induction h with
  | nil => exact .none
  | cons hab _ ih =>
    obtain ⟨hk, hr⟩ := hab
    rw [get?_cons, get?_cons, ← hk]
    split_ifs with h
    · exact .some (h ▸ hr)
    · exact ih

end Lineage.Table
