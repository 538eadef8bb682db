import Lineage.Config
import Lineage.Proofs.Json.Normal
import Lineage.Proofs.Table
import Mathlib.Data.List.Induction
import Mathlib.Data.List.Perm.Basic

/-!
# Overlaying configurations

Merging overlays one configuration by another: single settings are replaced, requirements are
added up, and free-form entries are replaced name by name (`Config.merge_overlays`). All of that
is associative, and a configuration is not changed by itself.

* Adding requirements looks at a list that grows meanwhile, and both lists may hold a requirement
  twice. It comes to appending the requirements that are not in the first list, in the order in
  which they first come in the second one (`Config.exists_addRequirements`). One by one they are
  skipped or added alike, whichever lists are joined first (`Config.addRequirements_assoc`).
* Free-form entries are kept with their names in ascending order, so they are the same list if
  each name has the same value (`Json.Members.Ascending.ext`), and what a name is set to is told
  by look-ups (`Json.Members.get?_setAll`).

The order of names is kept by merging, and what has been loaded or decoded has it
(`Config.normal_merge`, `Config.of_load`, `Config.normal_of_decode?`).
-/

namespace Lineage

/-! ### Entries by name -/

namespace Json.Members

theorem get?_cons (m : String × Json) (ms : Members) (name : String) :
    get? (m :: ms) name = if name = m.1 then some m.2 else ms.get? name :=
  Table.get?_cons m ms name

theorem Ascending.distinct {ms : Members} (hms : ms.Ascending) : Table.Distinct ms :=
  List.Pairwise.imp String.ne_of_lt hms

/-- Entries in the order of their names are told by the values of the names. -/
theorem Ascending.ext {ms ns : Members} (hms : ms.Ascending) (hns : ns.Ascending)
    (h : ∀ name, ms.get? name = ns.get? name) : ms = ns := by
  have hmem (m : String × Json) : m ∈ ms ↔ m ∈ ns := by
    rw [hms.distinct.mem_iff, hns.distinct.mem_iff]
    exact iff_of_eq (congrArg (· = some m.2) (h m.1))
  have hperm : ms.Perm ns :=
    (List.perm_ext_iff_of_nodup (.of_map _ hms.distinct) (.of_map _ hns.distinct)).2 hmem
  rw [Ascending, List.pairwise_map] at hms hns
  exact hperm.eq_of_pairwise (fun a b _ _ hab hba => absurd hba (String.lt_asymm hab)) hms hns

theorem get?_set (ms : Members) (name : String) (v : Json) (k : String) :
    (ms.set name v).get? k = if k = name then some v else ms.get? k := by
  induction ms with
  | nil => exact get?_cons (name, v) [] k
  | cons m ms ih =>
    rw [set]
    by_cases hk : k = name
    · rw [if_pos hk]
      split_ifs with hlt heq
      · rw [get?_cons, if_pos hk]
      · rw [get?_cons, if_pos hk]
      · rw [get?_cons, if_neg (hk ▸ heq), ih, if_pos hk]
    · rw [if_neg hk]
      split_ifs with hlt heq
      · rw [get?_cons, if_neg hk]
      · rw [get?_cons, get?_cons, if_neg hk, if_neg (heq ▸ hk)]
      · rw [get?_cons, get?_cons, ih, if_neg hk]

/-- Entries have the values that they are set to, and otherwise those that they had. -/
theorem get?_setAll (ms : Members) {new : Members} (hnew : new.Ascending) (name : String) :
    (ms.setAll new).get? name = (new.get? name).or (ms.get? name) := by
  induction new generalizing ms with
  | nil => rfl
  | cons m new ih =>
    obtain ⟨hnone, _⟩ := Table.distinct_cons.1 hnew.distinct
    have hset : (ms.setAll (m :: new)).get? name = ((ms.set m.1 m.2).setAll new).get? name := rfl
    rw [hset, ih _ (List.pairwise_cons.1 hnew).2, get?_set, get?_cons]
    split_ifs with hk
    · rw [hk, show get? new m.1 = none from hnone]
      rfl
    · rfl

/-- Setting entries one after the other is setting what they amount to. -/
theorem setAll_assoc {as bs cs : Members} (has : as.Ascending) (hbs : bs.Ascending)
    (hcs : cs.Ascending) : (as.setAll bs).setAll cs = as.setAll (bs.setAll cs) := by
  refine ((has.setAll bs).setAll cs).ext (has.setAll _) fun name => ?_
  rw [get?_setAll _ hcs, get?_setAll _ hbs, get?_setAll _ (hbs.setAll cs), get?_setAll _ hcs,
    Option.or_assoc]

theorem setAll_self {ms : Members} (hms : ms.Ascending) : ms.setAll ms = ms := by
  refine (hms.setAll ms).ext hms fun name => ?_
  rw [get?_setAll _ hms, Option.or_self]

end Json.Members

namespace Config

/-! ### Requirements -/

theorem addRequirements_append (qs new new' : List Requirement) :
    addRequirements qs (new ++ new') = addRequirements (addRequirements qs new) new' :=
  List.foldl_append

theorem addRequirements_singleton (qs : List Requirement) (q : Requirement) :
    addRequirements qs [q] = if q ∈ qs then qs else qs ++ [q] := by
  simp [addRequirements]

/-- Adding requirements appends those that are not there yet, in the order in which they first
    come, so none of them twice. -/
theorem exists_addRequirements (qs new : List Requirement) :
    ∃ added, addRequirements qs new = qs ++ added ∧
      (∀ q, q ∈ added ↔ q ∈ new ∧ q ∉ qs) ∧
      added.Pairwise fun q q' => new.idxOf q < new.idxOf q' := by
  induction new using List.reverseRecOn with
  | nil => exact ⟨[], (List.append_nil qs).symm, fun q => by simp, .nil⟩
  | append_singleton new q ih =>
    obtain ⟨added, hadded, hmem, hordered⟩ := ih
    have hnew : ∀ q' ∈ added, q' ∈ new := fun q' hq' => ((hmem q').1 hq').1
    -- what has come before keeps its place
    have hordered : added.Pairwise fun x y => (new ++ [q]).idxOf x < (new ++ [q]).idxOf y := by
      refine hordered.imp_of_mem fun {x y} hx hy hlt => ?_
      rwa [List.idxOf_append_of_mem (hnew x hx), List.idxOf_append_of_mem (hnew y hy)]
    rw [addRequirements_append, hadded, addRequirements_singleton]
    split_ifs with hq
    · refine ⟨added, rfl, fun q' => ?_, hordered⟩
      rw [hmem, List.mem_append, List.mem_singleton]
      refine ⟨fun h => ⟨.inl h.1, h.2⟩, ?_⟩
      rintro ⟨h | rfl, hnot⟩
      · exact ⟨h, hnot⟩
      · exact (hmem q').1 ((List.mem_append.1 hq).resolve_left hnot)
    · obtain ⟨hqs, hnot⟩ := not_or.1 (mt List.mem_append.2 hq)
      have hlast : q ∉ new := fun h => hnot ((hmem q).2 ⟨h, hqs⟩)
      refine ⟨added ++ [q], List.append_assoc .., fun q' => ?_, ?_⟩
      · rw [List.mem_append, List.mem_append, List.mem_singleton, hmem, or_and_right]
        refine or_congr_right ⟨?_, And.left⟩
        rintro rfl
        exact ⟨rfl, hqs⟩
      · refine List.pairwise_append.2 ⟨hordered, List.pairwise_singleton _ _, fun x hx y hy => ?_⟩
        obtain rfl := List.mem_singleton.1 hy
        rw [List.idxOf_append_of_mem (hnew x hx), List.idxOf_append_of_notMem hlast]
        exact Nat.lt_of_lt_of_le (List.idxOf_lt_length_of_mem (hnew x hx)) (Nat.le_add_right ..)

theorem mem_addRequirements {qs new : List Requirement} {q : Requirement} :
    q ∈ addRequirements qs new ↔ q ∈ qs ∨ q ∈ new := by
  obtain ⟨added, hadded, hmem, _⟩ := exists_addRequirements qs new
  rw [hadded, List.mem_append, hmem]
  by_cases hq : q ∈ qs <;> simp [hq]

theorem addRequirements_self (qs : List Requirement) : addRequirements qs qs = qs := by
  obtain ⟨added, hadded, hmem, _⟩ := exists_addRequirements qs qs
  have hnil : added = [] := List.eq_nil_iff_forall_not_mem.2 fun q hq =>
    absurd ((hmem q).1 hq).1 ((hmem q).1 hq).2
  rw [hadded, hnil, List.append_nil]

/-- A requirement is skipped in the end if it is skipped first. -/
theorem addRequirements_assoc (as bs cs : List Requirement) :
    addRequirements (addRequirements as bs) cs = addRequirements as (addRequirements bs cs) := by
  induction cs generalizing bs with
  | nil => rfl
  | cons q cs ih =>
    have hq : addRequirements (addRequirements as bs) [q] =
        addRequirements as (addRequirements bs [q]) := by
      rw [addRequirements_singleton bs]
      split_ifs with hmem
      · rw [addRequirements_singleton, if_pos (mem_addRequirements.2 (.inr hmem))]
      · rw [addRequirements_append]
    rw [← List.singleton_append, addRequirements_append, hq, ih, addRequirements_append]

/-! ### Validity -/

theorem validate_eq_ok {c : Config} :
    c.validate = .ok () ↔
      Text.isBlank c.rootMarker = false ∧ ∀ q ∈ c.requirements, Text.isBlank q.field = false := by
  have hvalid : c.validate = .ok () ↔ c.defect? = none := by
    rw [validate]
    cases c.defect? with
    | none => exact iff_of_true rfl rfl
    | some defect => exact iff_of_false (fun h => nomatch h) fun h => nomatch h
  rw [hvalid, defect?]
  split_ifs with hroot
  · exact iff_of_false (fun h => nomatch h) fun h => Bool.false_ne_true (h.1.symm.trans hroot)
  · simp [hroot]

/-- Of the first configuration only the requirements matter for validity. -/
theorem validate_merge {a b : Config} :
    (a.merge b).validate = .ok () ↔
      b.validate = .ok () ∧ ∀ q ∈ a.requirements, Text.isBlank q.field = false := by
  rw [validate_eq_ok, validate_eq_ok, and_assoc]
  refine and_congr_right fun _ => ?_
  simp only [merge, mem_addRequirements, or_imp, forall_and]
  exact and_comm

/-! ### Merging -/

theorem merge_assoc {a b c : Config} (ha : a.extra.Ascending) (hb : b.extra.Ascending)
    (hc : c.extra.Ascending) : (a.merge b).merge c = a.merge (b.merge c) := by
  simp only [merge, addRequirements_assoc, Json.Members.setAll_assoc ha hb hc]

theorem merge_self {a : Config} (ha : a.extra.Ascending) : a.merge a = a := by
  simp only [merge, addRequirements_self, Json.Members.setAll_self ha]

/-- Merging is associative, and a configuration is not changed by itself. The requirements of the
    first one stay in front, and each that is added comes once, in the order of the second one.
    An entry is that of the second one if it has one of the name, otherwise that of the first
    one. Valid configurations merge to a valid one, and if that is valid so is the second one. -/
theorem merge_overlays :
    (∀ a b c : Config, a.extra.Ascending → b.extra.Ascending → c.extra.Ascending →
      (a.merge b).merge c = a.merge (b.merge c)) ∧
    (∀ a : Config, a.extra.Ascending → a.merge a = a) ∧
    ∀ a b : Config,
      (∃ added, (a.merge b).requirements = a.requirements ++ added ∧
        (∀ q ∈ added, (a.merge b).requirements.count q = 1) ∧
        added.Pairwise fun q q' => b.requirements.idxOf q < b.requirements.idxOf q') ∧
      (∀ q, q ∈ (a.merge b).requirements ↔ q ∈ a.requirements ∨ q ∈ b.requirements) ∧
      (b.extra.Ascending → ∀ name,
        (a.merge b).extra.get? name = (b.extra.get? name).or (a.extra.get? name)) ∧
      (a.validate = .ok () → b.validate = .ok () → (a.merge b).validate = .ok ()) ∧
      ((a.merge b).validate = .ok () → b.validate = .ok ()) := by
  refine ⟨fun a b c => merge_assoc, fun a => merge_self, fun a b => ⟨?_, fun q => ?_,
    fun hb => Json.Members.get?_setAll a.extra hb, fun ha hb => ?_, fun h => ?_⟩⟩
  · obtain ⟨added, hadded, hmem, hordered⟩ := exists_addRequirements a.requirements b.requirements
    have hnodup : added.Nodup :=
      hordered.imp fun hlt => ne_of_apply_ne (List.idxOf · b.requirements) (Nat.ne_of_lt hlt)
    refine ⟨added, hadded, fun q hq => ?_, hordered⟩
    rw [merge, hadded, List.count_append, List.count_eq_zero_of_not_mem ((hmem q).1 hq).2,
      List.count_eq_one_of_mem hnodup hq]
  · exact mem_addRequirements
  · exact validate_merge.2 ⟨hb, (validate_eq_ok.1 ha).2⟩
  · exact (validate_merge.1 h).1

/-! ### Three layers -/

namespace Layers

/-- A requirement on things that are owned. -/
def owned : Requirement := ⟨⟨"Owned"⟩, "owner"⟩

/-- A requirement on things with versions. -/
def versioned : Requirement := ⟨⟨"Versioned"⟩, "version"⟩

/-- The settings of the house, with a requirement written twice. -/
def house : Config where
  requirements := [owned, owned]
  extra := [("region", .str "eu"), ("zone", .int 1)]

/-- The settings of a site, with requirements written twice. -/
def site : Config where
  requirements := [versioned, owned, versioned]
  extra := [("region", .str "us")]

/-- The settings of a desk. -/
def desk : Config where
  rootMarker := "Thing"
  requirements := [versioned]
  extra := [("lamp", .null), ("zone", .int 2)]

end Layers

open Layers in
theorem merge_overlays_layers :
    house.extra.Ascending ∧ site.extra.Ascending ∧ desk.extra.Ascending ∧
      (house.merge site).merge desk = house.merge (site.merge desk) ∧
      house.merge house = house ∧
      (house.merge site).requirements = [owned, owned, versioned] ∧
      (house.merge site).extra.get? "region" = some (.str "us") ∧
      (house.merge site).validate = .ok () := by
  have hhouse : house.extra.Ascending := by decide
  have hsite : site.extra.Ascending := by decide
  have hdesk : desk.extra.Ascending := by decide
  obtain ⟨hassoc, hself, hmerge⟩ := merge_overlays
  obtain ⟨_, _, hentry, hvalid, _⟩ := hmerge house site
  exact ⟨hhouse, hsite, hdesk, hassoc house site desk hhouse hsite hdesk, hself house hhouse,
    by decide, hentry hsite "region", hvalid (by decide) (by decide)⟩

end Config

end Lineage
