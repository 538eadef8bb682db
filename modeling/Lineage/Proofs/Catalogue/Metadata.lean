import Lineage.Catalogue.Metadata
import Lineage.Proofs.Hierarchy.Traversal

/-!
# Metadata are made along the parents

In the metadata of a hierarchy each type has a catalogue, made from its own
attributes and from the catalogues of its parents, the ones that the metadata
hold in the end (`Metadata.exists_catalogue`). Where this fails, it is because of
one type, whose parents have catalogues (`Metadata.exists_of_build_eq_error`), or
because of an attribute that is required.
-/

namespace Lineage.Metadata

variable {h : Hierarchy} {p : Discovery} {r : FieldReader} {q : List Requirement} {m : Metadata}

/-- The catalogues of the parents of a type. -/
def parentsOf (m : Metadata) (n : Node) : List Attributes :=
  (n.parents.filterMap m.get?).map Catalogue.attributes

theorem mem_parentsOf {n : Node} {as : Attributes} :
    as ∈ m.parentsOf n ↔ ∃ k ∈ n.parents, ∃ cat, m.get? k = some cat ∧ cat.attributes = as := by
  simp only [parentsOf, List.mem_map, List.mem_filterMap]
  constructor
  · rintro ⟨cat, ⟨k, hk, hcat⟩, rfl⟩
    exact ⟨k, hk, cat, hcat, rfl⟩
  · rintro ⟨k, hk, cat, hcat, rfl⟩
    exact ⟨cat, ⟨k, hk, hcat⟩, rfl⟩

/-- The attribute that a type shows under a name. -/
def shown? (m : Metadata) (k : TypeKey) (name : String) : Option Attribute :=
  (m.get? k).bind (·.get? name)

theorem findSome?_parentsOf (m : Metadata) (n : Node) (name : String) :
    (m.parentsOf n).findSome? (·.get? name) = n.parents.findSome? (m.shown? · name) := by
  rw [parentsOf, ← List.head?_filterMap, List.filterMap_map, List.filterMap_filterMap,
    List.head?_filterMap]
  rfl

theorem catalogueOf_eq_error {n : Node} {e : ConfigurationFault}
    (herror : catalogueOf h p r m n = .error e) :
    ownAttributes h p r n = .error e ∨ ∃ own, ownAttributes h p r n = .ok own ∧
      Catalogue.inherit n.key (m.parentsOf n) own = .error e := by
  obtain herror | ⟨own, hown, herror⟩ := bind_eq_error.1 herror
  · exact .inl herror
  · obtain herror | ⟨_, _, herror⟩ := bind_eq_error.1 herror
    · exact .inr ⟨own, hown, herror⟩
    · exact nomatch herror

theorem catalogueOf_eq_ok {n : Node} {cat : Catalogue} (hcat : catalogueOf h p r m n = .ok cat) :
    cat.key = n.key ∧ ∃ own, ownAttributes h p r n = .ok own ∧
      Catalogue.inherit n.key (m.parentsOf n) own = .ok cat.attributes := by
  obtain ⟨own, hown, hcat⟩ := bind_eq_ok.1 hcat
  obtain ⟨as, has, hcat⟩ := bind_eq_ok.1 hcat
  obtain rfl := pure_eq_ok.1 hcat
  exact ⟨rfl, own, hown, has⟩

/-- Of other types than the parents nothing is looked up. -/
theorem catalogueOf_congr {m' : Metadata} {n : Node} (hm : ∀ k ∈ n.parents, m.get? k = m'.get? k) :
    catalogueOf h p r m n = catalogueOf h p r m' n := by
  rw [catalogueOf, catalogueOf, List.filterMap_congr hm]

theorem extend_eq_ok {m' : Metadata} {n : Node} (hm' : extend h p r m n = .ok m') :
    ∃ cat, catalogueOf h p r m n = .ok cat ∧
      ∀ k, m'.get? k = (m.get? k).or (if n.key = k then some cat else none) := by
  obtain ⟨cat, hcat, hm'⟩ := bind_eq_ok.1 hm'
  obtain rfl := pure_eq_ok.1 hm'
  refine ⟨cat, hcat, fun k => ?_⟩
  rw [get?, List.find?_append, List.find?_singleton, (catalogueOf_eq_ok hcat).1]
  simp [get?]

theorem passesDown_extend :
    Hierarchy.PassesDown get? (fun m n cat => catalogueOf h p r m n = .ok cat) (extend h p r) where
  adds _ _ _ := extend_eq_ok
  congr _ _ _ _ hm hcat := catalogueOf_congr hm ▸ hcat

variable (h p r) in
/-- The metadata after the catalogues of the given types have been made. -/
abbrev MadeFor (done : List TypeKey) (m : Metadata) : Prop :=
  Hierarchy.PassedDown get? (fun m n cat => catalogueOf h p r m n = .ok cat) h done m

theorem MadeFor.exists_catalogue {done : List TypeKey} (hmade : MadeFor h p r done m) {n : Node}
    (hn : n ∈ h.nodes) (hdone : n.key ∈ done) :
    ∃ cat own, m.get? n.key = some cat ∧ ownAttributes h p r n = .ok own ∧
      Catalogue.inherit n.key (m.parentsOf n) own = .ok cat.attributes := by
  obtain ⟨cat, hget, hcat⟩ := hmade.made n hn hdone
  obtain ⟨_, own, hown, has⟩ := catalogueOf_eq_ok hcat
  exact ⟨cat, own, hget, hown, has⟩

section Build

variable {root : TypeKey} (hw : h.WellFormed root)
include hw

/-- In the end the catalogues of all types have been made. -/
theorem exists_madeFor (hm : build h p r q = .ok m) :
    ∃ done, (∀ n ∈ h.nodes, n.key ∈ done) ∧ MadeFor h p r done m := by
  obtain ⟨m', hm', hm⟩ := bind_eq_ok.1 hm
  obtain ⟨_, _, hm⟩ := bind_eq_ok.1 hm
  obtain rfl := pure_eq_ok.1 hm
  obtain ⟨done, hdone, hmade⟩ := hw.exists_passedDown passesDown_extend (fun k => rfl) hm'
  exact ⟨done, fun n hn => (hdone n.key).2 (hw.contains_iff.2 ⟨n, hn, rfl⟩), hmade⟩

/-- The metadata have a catalogue for each type. What it inherits is shown by the
    catalogues of the parents. -/
theorem exists_catalogue (hm : build h p r q = .ok m) {n : Node} (hn : n ∈ h.nodes) :
    ∃ cat own, m.get? n.key = some cat ∧ ownAttributes h p r n = .ok own ∧
      Catalogue.inherit n.key (m.parentsOf n) own = .ok cat.attributes := by
  obtain ⟨done, hdone, hmade⟩ := exists_madeFor hw hm
  exact hmade.exists_catalogue hn (hdone n hn)

/-- Where building fails, an attribute is missing, or the catalogue of a type cannot be
    made, whereas those of its parents have been. -/
theorem exists_of_build_eq_error {e : ConfigurationFault} (herror : build h p r q = .error e) :
    (∃ k marker name, e = .missingAttribute k marker name) ∨
      ∃ done m, ∃ n ∈ h.nodes, n.parents ⊆ done ∧ MadeFor h p r done m ∧
        catalogueOf h p r m n = .error e := by
  obtain herror | ⟨m, _, herror⟩ := bind_eq_error.1 herror
  · obtain ⟨done, n, m, hn, hparents, hmade, herror⟩ :=
      hw.exists_of_error passesDown_extend (fun k => rfl) herror
    obtain herror | ⟨_, _, herror⟩ := bind_eq_error.1 herror
    · exact .inr ⟨done, m, n, hn, hparents, hmade, herror⟩
    · exact nomatch herror
  · obtain herror | ⟨_, _, herror⟩ := bind_eq_error.1 herror
    · -- the requirements are checked one by one
      obtain ⟨k, _, herror⟩ := exists_of_forM_eq_error herror
      obtain ⟨requirement, _, herror⟩ := exists_of_forM_eq_error herror
      split_ifs at herror
      obtain rfl := Except.error.inj herror
      exact .inl ⟨_, _, _, rfl⟩
    · exact nomatch herror

end Build

end Lineage.Metadata
