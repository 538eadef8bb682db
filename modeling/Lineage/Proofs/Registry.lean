import Lineage.Proofs.Hierarchy.Reordering
import Lineage.Registry

/-!
# Discovering the registered types

From a registry, however it has been made, a hierarchy is discovered unless there is a
cycle above a resource type (`discover_of_made`). Types that are found descend from the
root, so none of them is refused as unreachable, and ancestors that are inserted for them
are registered. The hierarchy holds the types that are found and the root, and the
parents of a type are those of its supertypes that are held: the search for types below
the root and the search of the builder for the root tell the same types
(`Lawful.isResource_iff`).
-/

namespace Lineage.Registry

open Relation

/-- How registries are made: a type whose registration is refused leaves the registry as
    it was. -/
inductive Made : Registry → Prop
  | new (root : TypeKey) : Made (new root)
  | register {r : Registry} (d : TypeDescriptor) : Made r → Made ((r.register d).toOption.getD r)
  | setManaged {r : Registry} (k : TypeKey) (fields : List Field) :
      Made r → Made (r.setManaged k fields)

/-- Types are registered one after the other, and those that are refused left out. -/
def registerAll (r : Registry) (ds : List TypeDescriptor) : Registry :=
  ds.foldl (fun r d => (r.register d).toOption.getD r) r

theorem Made.registerAll {r : Registry} (hr : r.Made) (ds : List TypeDescriptor) :
    (r.registerAll ds).Made := by
  induction ds generalizing r with
  | nil => exact hr
  | cons d ds ih => exact ih (hr.register d)

/-- No key is registered twice, and the root is an interface without supertypes. -/
structure Lawful (r : Registry) : Prop where
  distinct : (r.types.map TypeDescriptor.key).Nodup
  root : r.find? r.root = some (.ofKind r.root .interfaceType)

variable {r : Registry}

theorem lawful_new (root : TypeKey) : (new root).Lawful where
  distinct := List.nodup_singleton _
  root := List.find?_cons_of_pos (decide_eq_true rfl)

theorem Lawful.register (hr : r.Lawful) (d : TypeDescriptor) :
    ((r.register d).toOption.getD r).Lawful := by
  rw [Registry.register]
  cases hd : r.find? d.key with
  | none =>
    have hnew : d.key ∉ r.types.map TypeDescriptor.key := by
      rintro hmem
      obtain ⟨e, he, hkey⟩ := List.mem_map.1 hmem
      exact absurd hkey (by simpa using List.find?_eq_none.1 hd e he)
    refine ⟨?_, ?_⟩
    · change ((r.types ++ [d]).map TypeDescriptor.key).Nodup
      rw [List.map_append]
      exact hr.distinct.append (List.nodup_singleton _) (List.disjoint_singleton.2 hnew)
    · change (r.types ++ [d]).find? (·.key = r.root) = _
      rw [List.find?_append, show r.types.find? (·.key = r.root) = _ from hr.root, Option.some_or]
      rfl
  | some known =>
    dsimp only
    split_ifs <;> exact hr

theorem Made.lawful (hr : r.Made) : r.Lawful := by
  induction hr with
  | new root => exact lawful_new root
  | register d _ ih => exact ih.register d
  | setManaged k fields _ ih => exact ⟨ih.distinct, ih.root⟩

namespace Lawful

variable (hr : r.Lawful)
include hr

theorem find?_eq_some {k : TypeKey} {d : TypeDescriptor} :
    r.find? k = some d ↔ d ∈ r.types ∧ d.key = k := by
  constructor
  · intro hd
    exact (Discovery.key_of_describe? (p := r.describing) hd).symm
  · rintro ⟨hd, rfl⟩
    cases hfind : r.find? d.key with
    | none => simpa using List.find?_eq_none.1 hfind d hd
    | some e =>
      obtain ⟨hkey, he⟩ := Discovery.key_of_describe? (p := r.describing) hfind
      rw [List.inj_on_of_nodup_map hr.distinct he hd hkey]

theorem describe?_of_mem :
    ∀ d ∈ r.findDescending r.root, r.toDiscovery.describe? d.key = some d :=
  fun _ hd => hr.find?_eq_some.2 ⟨(List.mem_filter.1 hd).1, rfl⟩

/-- Chains of supertypes end at the root, as it has none. -/
theorem above_iff {parent k : TypeKey} :
    r.toDiscovery.Above parent k ↔ r.toDiscovery.IsSupertype parent k := by
  refine ⟨And.right, fun h => ⟨?_, h⟩⟩
  rintro rfl
  obtain ⟨d, hd, hmem⟩ := h
  obtain rfl := Option.some.inj (hr.root.symm.trans hd)
  exact List.not_mem_nil hmem

/-- The types that are found below the root are the registered types that descend from
    it. -/
theorem mem_findDescending {d : TypeDescriptor} : d ∈ r.findDescending r.root ↔
    d ∈ r.types ∧ TransGen r.toDiscovery.IsSupertype r.root d.key := by
  have hchain : r.describing.descends d.key r.root = true ↔
      TransGen r.toDiscovery.IsSupertype r.root d.key := Discovery.descends_iff
  rw [findDescending, List.mem_filter, Bool.and_eq_true, decide_eq_true_eq, hchain]
  -- the root has no supertypes, so it does not descend from itself
  refine and_congr_right fun _ => and_iff_right_of_imp fun hd => ?_
  obtain ⟨_, _, hparent⟩ := TransGen.tail'_iff.1 hd
  exact (hr.above_iff.2 hparent).1

/-- The resource types are the root and the types that are found below it. -/
theorem isResource_iff {k : TypeKey} :
    r.toDiscovery.IsResource k ↔
      k = r.root ∨ k ∈ (r.findDescending r.root).map TypeDescriptor.key := by
  rw [Discovery.IsResource, reflTransGen_iff_eq_or_transGen, List.mem_map]
  refine or_congr_right ⟨fun hk => ?_, ?_⟩
  · obtain ⟨_, _, d, hd, _⟩ := TransGen.tail'_iff.1 hk
    obtain ⟨hmem, rfl⟩ := hr.find?_eq_some.1 hd
    exact ⟨d, hr.mem_findDescending.2 ⟨hmem, hk⟩, rfl⟩
  · rintro ⟨d, hd, rfl⟩
    exact (hr.mem_findDescending.1 hd).2

/-- What closes above a type is a cycle among its supertypes. -/
theorem closes_iff {k x : TypeKey} : Hierarchy.Builder.Closes r.toDiscovery k x ↔
    TransGen r.toDiscovery.IsSupertype x k ∧ TransGen r.toDiscovery.IsSupertype x x := by
  have habove : r.toDiscovery.Above = r.toDiscovery.IsSupertype := by
    funext parent k
    exact propext hr.above_iff
  constructor
  · rintro ⟨hk, hx⟩
    rw [habove] at hk hx
    exact ⟨hx.trans_left hk, hx⟩
  · rintro ⟨hk, hx⟩
    rw [← habove] at hk hx
    exact ⟨hk.to_reflTransGen, hx⟩

/-- The types that are found are all added, or one of them is refused for a cycle above
    it. -/
theorem discover_eq :
    ((∀ d ∈ r.findDescending r.root, Acc r.toDiscovery.Above d.key) ∧
      Hierarchy.discover r.toDiscovery = .ok
        ((Hierarchy.Builder.new r.root).addAll r.toDiscovery
          (r.findDescending r.root)).toHierarchy) ∨
    ∃ k, (∃ d ∈ r.findDescending r.root, Hierarchy.Builder.Closes r.toDiscovery d.key k) ∧
      Hierarchy.discover r.toDiscovery = .error (.configuration (.cycle k)) := by
  have hrun : Hierarchy.discover r.toDiscovery =
      ((Hierarchy.Builder.new r.root).addTypes r.toDiscovery
        (r.findDescending r.root)).mapError Fault.configuration >>= fun b =>
          .ok b.toHierarchy := rfl
  obtain ⟨hall, hadd⟩ | ⟨fault, ⟨d, hd, hfault⟩, hadd⟩ :=
    (Hierarchy.Builder.holds_new r.toDiscovery).addTypes hr.describe?_of_mem
  · refine .inl ⟨fun d hd => ((hall d hd).eq_ok_iff.1 rfl).1, ?_⟩
    rw [hrun]
    exact congrArg (fun b => Except.mapError _ b >>= _) hadd
  · cases hfault with
    | cyclic hk =>
      refine .inr ⟨_, ⟨d, hd, hk⟩, ?_⟩
      rw [hrun]
      exact congrArg (fun b => Except.mapError _ b >>= _) hadd
    | unreachable _ hres =>
      exact absurd (hr.isResource_iff.2 (.inr (List.mem_map_of_mem hd))) hres

/-- The types in the hierarchy, and their parents. -/
theorem types_of_discover {h : Hierarchy} (hh : Hierarchy.discover r.toDiscovery = .ok h) :
    (∀ k, h.contains k = true ↔
      k = r.root ∨ k ∈ (r.findDescending r.root).map TypeDescriptor.key) ∧
    ∀ n ∈ h.nodes, ∃ d, r.find? n.key = some d ∧ n.parents = (d.supertypes.filter fun k =>
      k = r.root ∨ k ∈ (r.findDescending r.root).map TypeDescriptor.key).eraseDups := by
  obtain ⟨hacc, hok⟩ | ⟨k, _, herror⟩ := hr.discover_eq
  swap
  · exact nomatch hh.symm.trans herror
  obtain rfl := Except.ok.inj (hh.symm.trans hok)
  have hb := Hierarchy.Builder.holds_addAll (p := r.toDiscovery) hr.describe?_of_mem
  refine ⟨fun k => (hb.contains_iff k).trans (or_congr_right' fun hne => ?_), fun n hn => ?_⟩
  · rw [hr.isResource_iff, or_iff_right (show k ≠ r.root from hne)]
    refine and_iff_left_of_imp fun hk => ?_
    obtain ⟨d, hd, rfl⟩ := List.mem_map.1 hk
    exact ⟨d, hd, hacc d hd, .refl⟩
  · obtain ⟨hroot, hnil⟩ | ⟨d, hd, hparents⟩ := hb.faithful.parents hn
    · -- the root is registered without supertypes
      refine ⟨.ofKind r.root .interfaceType, ?_, hnil⟩
      rw [show n.key = r.root from hroot, hr.root]
    · refine ⟨d, hd, hparents.trans ?_⟩
      simp only [Discovery.resources, hr.isResource_iff]

end Lawful

/-- From a registry a hierarchy is discovered, or there is a cycle: discovery succeeds if
    no registered type that descends from the root has a cycle among its supertypes. The
    hierarchy then holds the root and the types that are found below it, and the parents of
    a type are those of its supertypes that it holds, each once. -/
theorem discover_of_made (hr : r.Made) :
    ((∃ h, Hierarchy.discover r.toDiscovery = .ok h) ∨
      ∃ k, Hierarchy.discover r.toDiscovery = .error (.configuration (.cycle k))) ∧
    ((∃ h, Hierarchy.discover r.toDiscovery = .ok h) ↔
      ∀ d ∈ r.types, TransGen r.toDiscovery.IsSupertype r.root d.key →
        ¬ ∃ k, TransGen r.toDiscovery.IsSupertype k d.key ∧
          TransGen r.toDiscovery.IsSupertype k k) ∧
    ∀ h, Hierarchy.discover r.toDiscovery = .ok h →
      (∀ k, h.contains k = true ↔
        k = r.root ∨ k ∈ (r.findDescending r.root).map TypeDescriptor.key) ∧
      ∀ n ∈ h.nodes, ∃ d, r.find? n.key = some d ∧ n.parents = (d.supertypes.filter fun k =>
        k = r.root ∨ k ∈ (r.findDescending r.root).map TypeDescriptor.key).eraseDups := by
  have hr := hr.lawful
  refine ⟨?_, ⟨?_, fun hnone => ?_⟩, fun h hh => hr.types_of_discover hh⟩
  · exact hr.discover_eq.imp (fun ⟨_, hok⟩ => ⟨_, hok⟩) fun ⟨k, _, herror⟩ => ⟨k, herror⟩
  · rintro ⟨h, hh⟩ d hd hroot ⟨k, hk, hcycle⟩
    obtain ⟨hacc, _⟩ | ⟨_, _, herror⟩ := hr.discover_eq
    · have hcloses : Hierarchy.Builder.Closes r.toDiscovery d.key k := hr.closes_iff.2 ⟨hk, hcycle⟩
      exact hcloses.not_acc (hacc d (hr.mem_findDescending.2 ⟨hd, hroot⟩))
    · exact nomatch hh.symm.trans herror
  · obtain ⟨_, hok⟩ | ⟨k, ⟨d, hd, hk⟩, _⟩ := hr.discover_eq
    · exact ⟨_, hok⟩
    · obtain ⟨hmem, hroot⟩ := hr.mem_findDescending.1 hd
      exact absurd ⟨k, hr.closes_iff.1 hk⟩ (hnone d hmem hroot)

open Hierarchy.Zoo in
/-- Dogs are animals and pets, also after another kind of pets has been refused. Chickens
    come from eggs, which come from chickens, so nothing is discovered together with
    them. -/
theorem discover_of_made_zoo :
    let kennel := (new ⟨"Resource"⟩).registerAll
      [dog, animal, pet, { pet with isAbstract := false }, stone]
    let farm := (kennel.setManaged dog.key []).registerAll [chicken, egg]
    kennel.Made ∧ farm.Made ∧
      (∃ h, Hierarchy.discover kennel.toDiscovery = .ok h ∧
        (∀ k, h.contains k = true ↔
          k = ⟨"Resource"⟩ ∨ k ∈ [dog.key, animal.key, pet.key]) ∧
        ∀ n ∈ h.nodes, n.key = dog.key → n.parents = [animal.key, pet.key]) ∧
      ∃ k, Hierarchy.discover farm.toDiscovery = .error (.configuration (.cycle k)) := by
  intro kennel farm
  have hkennel : kennel.Made := (Made.new _).registerAll _
  have hfarm : farm.Made := (hkennel.setManaged _ _).registerAll _
  refine ⟨hkennel, hfarm, ?_, ?_⟩
  · obtain ⟨h, hh⟩ : ∃ h, Hierarchy.discover kennel.toDiscovery = .ok h := ⟨_, rfl⟩
    obtain ⟨hcontains, hparents⟩ := (discover_of_made hkennel).2.2 h hh
    refine ⟨h, hh, hcontains, fun n hn hkey => ?_⟩
    obtain ⟨d, hd, hn⟩ := hparents n hn
    rw [hkey] at hd
    obtain rfl : dog = d := Option.some.inj hd
    exact hn
  · obtain ⟨hcases, hok, _⟩ := discover_of_made hfarm
    refine hcases.resolve_left fun hh => hok.1 hh chicken (by decide) ?_ ⟨chicken.key, ?_⟩
    · exact .single ⟨chicken, rfl, by decide⟩
    · have hcycle : TransGen farm.toDiscovery.IsSupertype chicken.key chicken.key :=
        .tail (b := egg.key) (.single ⟨egg, rfl, by decide⟩) ⟨chicken, rfl, by decide⟩
      exact ⟨hcycle, hcycle⟩

end Lineage.Registry
