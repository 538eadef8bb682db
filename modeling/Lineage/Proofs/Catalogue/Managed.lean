import Lineage.Proofs.Catalogue.AccessPaths
import Lineage.Proofs.Catalogue.Components
import Lineage.Proofs.Hierarchy.Fieldless
import Lineage.Registry

/-!
# Managed fields and declared ones

What metadata depend on, apart from what types there are, is which fields the resource types
store, and which ones the value objects that are embedded in them declare, at any depth
(`Metadata.build_congr`).

The first ones are those that a type is managed with, if it is managed. The second ones are
not: a value object that is embedded has the fields that it declares, whether it is managed or
not. So the declared fields of a managed type do not matter, to the hierarchy as well as to the
metadata, unless it is embedded somewhere as a value object (`Registry.build_of_managed`). If it
is, they do (`Registry.names_of_managed_address`).
-/

namespace Lineage

variable {h : Hierarchy} {p p' : Discovery} {r r' : FieldReader}

namespace Catalogue

/-! ### Own attributes -/

/-- The kind of an attribute does not depend on fields, and neither does the value object that
    it holds, but for its own fields. -/
theorem classify_congr (hp : p.SameTypes p') (t : ValueType) :
    (classify h p t).1 = (classify h p' t).1 ∧
      ((classify h p t).2 = none ∧ (classify h p' t).2 = none ∨
        ∃ d d', (classify h p t).2 = some d ∧ (classify h p' t).2 = some d' ∧
          d.fieldless = d'.fieldless) := by
  cases t with
  | scalar s => exact ⟨rfl, .inl ⟨rfl, rfl⟩⟩
  | named k =>
    cases hk : h.contains k with
    | true => simp [classify, hk]
    | false =>
      obtain ⟨hd, hd'⟩ | ⟨d, d', hd, hd', hdd⟩ := hp.describe?_cases k
      · simp [classify, hk, hd, hd']
      · have hkind := TypeDescriptor.kind_eq hdd
        by_cases hvalue : d'.kind = .valueObject <;>
          simp [classify, hk, hd, hd', hkind, hvalue, hdd]
  | collection t | array t =>
    cases t <;> exact ⟨rfl, .inl ⟨by grind [classify], by grind [classify]⟩⟩

/-- A value object that is embedded somewhere is held by a field. -/
theorem Embedded.exists_holds {fs : List Field} {e : TypeDescriptor} (he : Embedded h p r fs e) :
    ∃ f, Holds h p f e := by
  obtain ⟨f, _, d, hd, hpart⟩ := he
  rcases hpart.cases_head with rfl | ⟨_, ⟨g, _, hg⟩, _⟩
  · exact ⟨f, hd⟩
  · exact ⟨g, hg⟩

/-- The value objects that are embedded in the fields, at any depth, store the same fields. -/
def SameParts (h : Hierarchy) (p : Discovery) (r : FieldReader) (p' : Discovery)
    (r' : FieldReader) (fs : List Field) : Prop :=
  ∀ e e', Embedded h p r fs e → p'.describe? e.key = some e' → r.nested e = r'.nested e'

/-- Inside a value object as well. -/
theorem SameParts.inside {fs : List Field} (hsame : SameParts h p r p' r' fs) {f : Field}
    (hf : f ∈ fs) {d : TypeDescriptor} (hd : Holds h p f d) :
    SameParts h p r p' r' (r.nested d) :=
  fun e e' ⟨g, hg, _, hi, hei⟩ => hsame e e' ⟨f, hf, d, hd, hei.tail ⟨g, hg, hi⟩⟩

theorem flatten_congr (hp : p.SameTypes p') (owner : TypeKey) (fuel : Nat) (scope : Scope)
    {fs : List Field} (hsame : SameParts h p r p' r' fs) {f : Field} (hf : f ∈ fs)
    (t : Flattening) :
    flatten h p r owner fuel scope t f = flatten h p' r' owner fuel scope t f := by
  induction fuel generalizing scope fs f t with
  | zero => rfl
  | succ fuel ih =>
    obtain ⟨hkind, hcases⟩ := classify_congr (h := h) hp f.valueType
    have hattr : attributeOf h p owner scope f = attributeOf h p' owner scope f := by
      rw [attributeOf, attributeOf, hkind]
    rw [flatten, flatten, hattr]
    obtain ⟨hd, hd'⟩ | ⟨d, d', hd, hd', hdd⟩ := hcases
    · rw [hd, hd']
    · have hholds := holds_iff.2 hd
      have hholds' := holds_iff.2 hd'
      have hnested : r.nested d = r'.nested d' := by
        refine hsame d d' ⟨f, hf, d, hholds, .refl⟩ ?_
        rw [TypeDescriptor.key_eq hdd]
        exact hholds'.described
      have hfold (scope : Scope) (t : Flattening) :
          (r.nested d).foldlM (flatten h p r owner fuel scope) t =
            (r'.nested d').foldlM (flatten h p' r' owner fuel scope) t := by
        rw [← hnested]
        exact foldlM_congr (fun g hg t => ih scope (hsame.inside hf hholds) hg t) t
      simp only [FieldReader.nested] at hfold
      simp only [hd, hd', TypeDescriptor.key_eq hdd, hfold]

theorem ownAttributes_congr (hp : p.SameTypes p') {d d' : TypeDescriptor}
    (hd : d.fieldless = d'.fieldless) (hstored : r.stored d = r'.stored d')
    (hsame : SameParts h p r p' r' (r.stored d)) :
    ownAttributes h p r d = ownAttributes h p' r' d' := by
  have hfold := foldlM_congr (fun f hf t =>
    flatten_congr hp d.key p.depthBound {} hsame hf t) ({} : Flattening)
  simp only [FieldReader.stored] at hstored hfold
  rw [ownAttributes, ownAttributes, hfold, hstored, hp.depthBound_eq, TypeDescriptor.key_eq hd]

end Catalogue

namespace Metadata

variable {q : List Requirement}

/-- The two tell the same of types, apart from fields, and of the fields that resource types
    store, and value objects that are embedded in them. -/
structure SameStored (h : Hierarchy) (p : Discovery) (r : FieldReader) (p' : Discovery)
    (r' : FieldReader) : Prop where
  types : p.SameTypes p'
  stored : ∀ n ∈ h.nodes, ∀ d d', p.describe? n.key = some d → p'.describe? n.key = some d' →
    r.stored d = r'.stored d'
  parts : ∀ n ∈ h.nodes, ∀ d, p.describe? n.key = some d →
    Catalogue.SameParts h p r p' r' (r.stored d)

theorem ownAttributes_congr (hsame : SameStored h p r p' r') {n : Node} (hn : n ∈ h.nodes) :
    ownAttributes h p r n = ownAttributes h p' r' n := by
  obtain ⟨hd, hd'⟩ | ⟨d, d', hd, hd', hdd⟩ := hsame.types.describe?_cases n.key
  · rw [ownAttributes, ownAttributes, hd, hd']
  · rw [ownAttributes, ownAttributes, hd, hd']
    exact Catalogue.ownAttributes_congr hsame.types hdd (hsame.stored n hn d d' hd hd')
      (hsame.parts n hn d hd)

/-- The same metadata are built, or building fails in the same way. -/
theorem build_congr (hsame : SameStored h p r p' r') : build h p r q = build h p' r' q := by
  have hnode : ∀ n ∈ h.toList, n ∈ h.nodes := fun n hn => by
    obtain ⟨i, _, hi⟩ := List.mem_filterMap.1 hn
    exact List.mem_of_getElem? hi
  have hmade : ofHierarchy h p r = ofHierarchy h p' r' := by
    refine foldlM_congr (fun n hn m => ?_) _
    rw [extend, extend, catalogueOf, catalogueOf, ownAttributes_congr hsame (hnode n hn)]
  have hoffends (m : Metadata) (x : Requirement) (k : TypeKey) :
      m.offends p x k = m.offends p' x k := by
    rw [offends, offends, hsame.types.descends_eq]
  have hcheck (m : Metadata) : m.check h p q = m.check h p' q := by
    simp only [check, hoffends]
  simp only [build, hmade, hcheck]

end Metadata

/-! ### Registries -/

/-- What holds of all elements in the same place holds of the first ones that pass a test. -/
theorem rel_find? {α β : Type} {R : α → β → Prop} {f : α → Bool} {g : β → Bool} {as : List α}
    {bs : List β} (h : List.Forall₂ R as bs) (hfg : ∀ a b, R a b → f a = g b) :
    Option.Rel R (as.find? f) (bs.find? g) := by
  induction h with
  | nil => exact .none
  | @cons a b _ _ hab _ ih =>
    rw [List.find?_cons, List.find?_cons, hfg a b hab]
    cases g b with
    | true => exact .some hab
    | false => exact ih

namespace Registry

/-- The registries differ at most in the fields that managed types declare. -/
structure DifferInManaged (r r' : Registry) : Prop where
  root : r.root = r'.root
  managed : r.managed = r'.managed
  types : List.Forall₂ (fun d d' => d.fieldless = d'.fieldless ∧
    (d.fields = d'.fields ∨ (r.managed.get? d.key).isSome = true)) r.types r'.types

/-- A resource type of the hierarchy embeds the value object, at some depth. -/
def Embeds (r : Registry) (h : Hierarchy) (e : TypeDescriptor) : Prop :=
  ∃ n ∈ h.nodes, ∃ d, r.find? n.key = some d ∧
    Catalogue.Embedded h r.toDiscovery r.toFieldReader (r.toFieldReader.stored d) e

variable {r r' : Registry}

namespace DifferInManaged

variable (hr : r.DifferInManaged r')
include hr

theorem map_fieldless :
    r.types.map TypeDescriptor.fieldless = r'.types.map TypeDescriptor.fieldless := by
  rw [← List.forall₂_eq_eq_eq, List.forall₂_map_left_iff, List.forall₂_map_right_iff]
  exact hr.types.imp fun _ _ hd => hd.1

/-- The same types are found. -/
theorem sameTypes : r.toDiscovery.SameTypes r'.toDiscovery where
  root := hr.root
  described := hr.map_fieldless
  find marker := by
    have hdescribing : r.describing.SameTypes r'.describing :=
      ⟨hr.root, hr.map_fieldless, fun _ => rfl⟩
    have hfound (r : Registry) : (r.findDescending marker).map TypeDescriptor.fieldless =
        (r.types.map TypeDescriptor.fieldless).filter fun d =>
          d.key ≠ marker && r.describing.descends d.key marker := by
      rw [findDescending, List.filter_map]
      rfl
    refine congrArg Except.ok ?_
    rw [hfound, hfound, hr.map_fieldless]
    simp only [hdescribing.descends_eq]

/-- The same resource types store the same fields. -/
theorem stored_eq {k : TypeKey} {d d' : TypeDescriptor} (hd : r.find? k = some d)
    (hd' : r'.find? k = some d') : r.toFieldReader.stored d = r'.toFieldReader.stored d' := by
  have hpair : d.fieldless = d'.fieldless ∧
      (d.fields = d'.fields ∨ (r.managed.get? d.key).isSome = true) := by
    have hrel := rel_find? (f := (·.key = k)) (g := (·.key = k)) hr.types fun d d' hdd => by
      rw [TypeDescriptor.key_eq hdd.1]
    simp only [find?] at hd hd'
    rw [hd, hd'] at hrel
    cases hrel with
    | some hdd => exact hdd
  obtain ⟨hdd, hfields⟩ := hpair
  have hmanaged : r.managed.get? d.key = r'.managed.get? d'.key := by
    rw [hr.managed, TypeDescriptor.key_eq hdd]
  simp only [FieldReader.stored, FieldReader.fields, toFieldReader, ← hmanaged]
  rcases hfields with hfields | hsome
  · rw [hfields]
  · obtain ⟨fs, hfs⟩ := Option.isSome_iff_exists.1 hsome
    rw [hfs, Option.getD_some, Option.getD_some]

end DifferInManaged

/-- Fields that managed types declare do not matter, except for those of value objects that are
    embedded. Two registries that do not differ in anything else lead to the same hierarchy, or
    discovering it fails in the same way; and to the same metadata, or building them fails in
    the same way, if the value objects that are embedded in resource types, at any depth, store
    the same declared fields in both. -/
theorem build_of_managed (hr : r.DifferInManaged r') :
    Hierarchy.discover r.toDiscovery = Hierarchy.discover r'.toDiscovery ∧
    ∀ h q, (∀ e e', r.Embeds h e → r'.find? e.key = some e' →
        r.toFieldReader.nested e = r'.toFieldReader.nested e') →
      Metadata.build h r.toDiscovery r.toFieldReader q =
        Metadata.build h r'.toDiscovery r'.toFieldReader q := by
  refine ⟨Hierarchy.discover_congr hr.sameTypes, fun h q hparts => Metadata.build_congr ?_⟩
  exact {
    types := hr.sameTypes
    stored := fun n _ d d' hd hd' => hr.stored_eq hd hd'
    parts := fun n hn d hd e e' he he' => hparts e e' ⟨n, hn, d, hd, he⟩ he' }

/-! ### Owners -/

namespace Owners

/-- The type of owners. -/
def owner : TypeKey := ⟨"Owner"⟩

/-- The type of addresses. -/
def address : TypeKey := ⟨"Address"⟩

/-- The street of an address. -/
def street : Field := ⟨"street", .scalar "text", .empty⟩

/-- The city of an address. -/
def city : Field := ⟨"city", .scalar "text", .empty⟩

/-- The address of an owner. -/
def residence : Field := ⟨"address", .named address, .empty⟩

/-- Owners, and addresses as value objects, declare the given fields. -/
def declaring (ofOwner ofAddress : List Field) : Registry where
  root := ⟨"Resource"⟩
  types := [
    .ofKind ⟨"Resource"⟩ .interfaceType,
    { key := address, kind := .valueObject, fields := ofAddress },
    { key := owner, kind := .classType, interfaces := [⟨"Resource"⟩], fields := ofOwner }]

/-- The hierarchy of owners. -/
def hierarchy : Hierarchy :=
  .built (declaring [] []).toDiscovery

/-- The names of the attributes of owners. -/
def names (r : Registry) : Option (List String) :=
  ((Metadata.build hierarchy r.toDiscovery r.toFieldReader []).toOption.bind (·.get? owner)).map
    Catalogue.names

end Owners

open Owners in
/-- Owners are managed. -/
theorem build_of_managed_owner :
    let r := (declaring [residence] [street]).setManaged owner [residence]
    let r' := (declaring [city, residence] [street]).setManaged owner [residence]
    r.DifferInManaged r' ∧ names r = some ["address", "address.street"] ∧ names r' = names r := by
  intro r r'
  have hr : r.DifferInManaged r' := ⟨rfl, rfl, by decide +kernel⟩
  -- the value objects are the same
  have hparts : ∀ e ∈ r.types, e.kind = .valueObject → r'.find? e.key = some e := by
    decide +kernel
  have hbuild := (build_of_managed hr).2 hierarchy [] fun e e' ⟨_, _, _, _, he⟩ he' => by
    obtain ⟨_, hholds⟩ := he.exists_holds
    have hfind := hparts e (List.mem_of_find?_eq_some hholds.described) hholds.kind_eq
    obtain rfl := Option.some.inj (hfind.symm.trans he')
    rfl
  refine ⟨hr, rfl, ?_⟩
  rw [names, names, hbuild]

open Owners in
/-- Addresses are managed, and embedded in owners. These have the fields of an address that are
    declared, not the ones with which addresses are managed. -/
theorem names_of_managed_address :
    let r := (declaring [residence] [street]).setManaged address [street]
    let r' := (declaring [residence] [city]).setManaged address [street]
    r.DifferInManaged r' ∧ Hierarchy.discover r.toDiscovery = .ok hierarchy ∧
      Hierarchy.discover r'.toDiscovery = .ok hierarchy ∧
      names r = some ["address", "address.street"] ∧
      names r' = some ["address", "address.city"] := by
  refine ⟨⟨rfl, rfl, by decide +kernel⟩, rfl, rfl, rfl, rfl⟩

end Registry

end Lineage
