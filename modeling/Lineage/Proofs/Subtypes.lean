import Lineage.Catalogue.Metadata
import Lineage.Proofs.Registry

/-!
# Three ways to ask for subtypes

Whether a type descends from a marker is decided in three places: a registry searches its
types for those below the marker, the hierarchy collects the ancestors of a type, and the
check of structural requirements searches upwards from a type. On a hierarchy that has been
discovered from a registry they agree about every marker in it (`subtypes_of_discover`).

The hierarchy knows less than the registry: supertypes that are no resource types have been
left out, and nothing is above the root. No chain to the marker is lost with them. What is
below a resource type is one itself, so all types between a type and the marker are in the
hierarchy, and each step between two types of the hierarchy is a step to a parent
(`Lawful.isParent_iff`).
-/

namespace Lineage.Registry

open Relation

variable {r : Registry}

namespace Lawful

variable (hr : r.Lawful)
include hr

/-- The types that are found below a marker are the registered types that descend from it,
    other than itself. -/
theorem mem_keys_findDescending {k marker : TypeKey} :
    k ∈ (r.findDescending marker).map TypeDescriptor.key ↔
      k ≠ marker ∧ r.toDiscovery.descends k marker = true := by
  have hchain : r.describing.descends k marker = r.toDiscovery.descends k marker := by
    rw [Bool.eq_iff_iff, Discovery.descends_iff, Discovery.descends_iff]
    rfl
  simp only [findDescending, List.mem_map, List.mem_filter, Bool.and_eq_true, decide_eq_true_eq]
  constructor
  · rintro ⟨d, ⟨_, hne, hd⟩, rfl⟩
    exact ⟨hne, hchain ▸ hd⟩
  · rintro ⟨hne, hk⟩
    -- a type with supertypes is registered
    obtain ⟨_, _, d, hd, _⟩ := TransGen.tail'_iff.1 (Discovery.descends_iff.1 hk)
    obtain ⟨hmem, rfl⟩ := hr.find?_eq_some.1 hd
    exact ⟨d, ⟨hmem, hne, hchain ▸ hk⟩, rfl⟩

variable {h : Hierarchy} (hh : Hierarchy.discover r.toDiscovery = .ok h)
include hh

theorem contains_iff_isResource {k : TypeKey} :
    h.contains k = true ↔ r.toDiscovery.IsResource k :=
  ((hr.types_of_discover hh).1 k).trans hr.isResource_iff.symm

/-- A parent is a supertype that is in the hierarchy. -/
theorem isParent_iff {parent k : TypeKey} :
    h.IsParent parent k ↔ h.contains parent = true ∧ r.toDiscovery.IsSupertype parent k := by
  obtain ⟨root, hw⟩ := (Hierarchy.sealed_of_discover hh).wellFormed
  obtain ⟨hcontains, htypes⟩ := hr.types_of_discover hh
  have hparents {n : Node} (hn : n ∈ h.nodes) {d : TypeDescriptor}
      (hd : r.toDiscovery.describe? n.key = some d) (parent : TypeKey) :
      parent ∈ n.parents ↔ parent ∈ d.supertypes ∧ h.contains parent = true := by
    obtain ⟨d', hd', hn⟩ := htypes n hn
    obtain rfl := Option.some.inj (hd.symm.trans hd')
    rw [hn, List.mem_eraseDups, List.mem_filter, decide_eq_true_eq, hcontains]
  constructor
  · rintro ⟨n, hn, rfl, hparent⟩
    obtain ⟨d, hd, _⟩ := htypes n hn
    obtain ⟨hmem, hin⟩ := (hparents hn hd parent).1 hparent
    exact ⟨hin, d, hd, hmem⟩
  · rintro ⟨hin, hsuper⟩
    -- below a resource type there are only resource types
    have hk : h.contains k = true := (hr.contains_iff_isResource hh).2
      (((hr.contains_iff_isResource hh).1 hin).tail hsuper)
    obtain ⟨n, hn, rfl⟩ := hw.contains_iff.1 hk
    obtain ⟨d, hd, hmem⟩ := hsuper
    exact ⟨n, hn, rfl, (hparents hn hd parent).2 ⟨hmem, hin⟩⟩

/-- The ancestors in the hierarchy are those of its types to which a chain of supertypes
    leads. -/
theorem isAncestor_iff_transGen {marker k : TypeKey} (hmarker : h.contains marker = true) :
    h.IsAncestor marker k ↔ TransGen r.toDiscovery.IsSupertype marker k := by
  refine ⟨TransGen.mono (fun _ _ hp => ((hr.isParent_iff hh).1 hp).2) _ _, fun hchain => ?_⟩
  induction hchain with
  | single hsuper => exact .single ((hr.isParent_iff hh).2 ⟨hmarker, hsuper⟩)
  | tail _ hsuper ih =>
    obtain ⟨root, hw⟩ := (Hierarchy.sealed_of_discover hh).wellFormed
    obtain ⟨_, _, n, hn, _, hkey, _⟩ := hw.exists_of_isAncestor ih
    exact ih.tail ((hr.isParent_iff hh).2 ⟨hw.contains_iff.2 ⟨n, hn, hkey⟩, hsuper⟩)

theorem isSubtypeOf_eq_descends {marker k : TypeKey} (hmarker : h.contains marker = true)
    (hne : k ≠ marker) : h.isSubtypeOf k marker = r.toDiscovery.descends k marker := by
  obtain ⟨root, hw⟩ := (Hierarchy.sealed_of_discover hh).wellFormed
  rw [Bool.eq_iff_iff, hw.isSubtypeOf_iff, or_iff_right fun h => hne h.1,
    hr.isAncestor_iff_transGen hh hmarker, Discovery.descends_iff]

/-- What descends from a type in the hierarchy is in it too. -/
theorem contains_of_descends {marker k : TypeKey} (hmarker : h.contains marker = true)
    (hk : r.toDiscovery.descends k marker = true) : h.contains k = true := by
  rw [hr.contains_iff_isResource hh] at hmarker ⊢
  exact hmarker.trans (Discovery.descends_iff.1 hk).to_reflTransGen

end Lawful

/-- From a registry, however it has been made, a hierarchy is discovered in which a marker
    is a type. The types that the registry finds below the marker are its subtypes in the
    hierarchy, and those of the hierarchy's types from which the search for requirements
    reaches it. So a requirement on the marker is offended by the subtypes that lack the
    attribute. -/
theorem subtypes_of_discover (hr : r.Made) {h : Hierarchy}
    (hh : Hierarchy.discover r.toDiscovery = .ok h) {marker : TypeKey}
    (hmarker : h.contains marker = true) {k : TypeKey} (hne : k ≠ marker) :
    (k ∈ (r.findDescending marker).map TypeDescriptor.key ↔
      h.contains k = true ∧ h.isSubtypeOf k marker = true) ∧
    (h.contains k = true ∧ h.isSubtypeOf k marker = true ↔
      h.contains k = true ∧ r.toDiscovery.descends k marker = true) ∧
    ∀ (m : Metadata) (name : String), m.offends r.toDiscovery ⟨marker, name⟩ k =
      (h.isSubtypeOf k marker && !(m.get? k).any (·.has name)) := by
  have hr := hr.lawful
  have hsub := hr.isSubtypeOf_eq_descends hh hmarker hne
  refine ⟨?_, by rw [hsub], fun m name => ?_⟩
  · rw [hr.mem_keys_findDescending, hsub, and_iff_right hne]
    exact (and_iff_right_of_imp (hr.contains_of_descends hh hmarker)).symm
  · rw [Metadata.offends, hsub, decide_eq_true hne, Bool.true_and]

open Hierarchy.Zoo in
/-- Dogs are found below the pets, and so they need the name that is required of pets,
    although one of their supertypes is neither described nor in the hierarchy. -/
theorem subtypes_of_discover_zoo :
    let kennel := (new ⟨"Resource"⟩).registerAll [dog, animal, pet, stone]
    kennel.Made ∧ ∃ h, Hierarchy.discover kennel.toDiscovery = .ok h ∧
      h.contains pet.key = true ∧ dog.key ≠ pet.key ∧
      (dog.key ∈ (kennel.findDescending pet.key).map TypeDescriptor.key ↔
        h.contains dog.key = true ∧ h.isSubtypeOf dog.key pet.key = true) ∧
      dog.key ∈ (kennel.findDescending pet.key).map TypeDescriptor.key ∧
      Metadata.offends kennel.toDiscovery {} ⟨pet.key, "name"⟩ dog.key = true := by
  intro kennel
  have hmade : kennel.Made := (Made.new _).registerAll _
  obtain ⟨h, hh⟩ : ∃ h, Hierarchy.discover kennel.toDiscovery = .ok h := ⟨_, rfl⟩
  have hmarker : h.contains pet.key = true := by
    rw [(hmade.lawful.types_of_discover hh).1]
    decide
  have hne : dog.key ≠ pet.key := by decide
  obtain ⟨hfound, _, hoffends⟩ := subtypes_of_discover hmade hh hmarker hne
  have hdog : dog.key ∈ (kennel.findDescending pet.key).map TypeDescriptor.key := by decide
  refine ⟨hmade, h, hh, hmarker, hne, hfound, hdog, ?_⟩
  rw [hoffends, (hfound.1 hdog).2]
  rfl

end Lineage.Registry
