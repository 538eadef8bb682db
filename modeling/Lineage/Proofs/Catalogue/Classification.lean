import Lineage.Proofs.Catalogue.Declarations

/-!
# What attributes refer to

The kind of an attribute is made once, from the type of its values and by looking into the
hierarchy. What it refers to is read off the type of its values whenever it is asked for, by
its kind and without the hierarchy. Both tell the same of all attributes in all catalogues
(`Metadata.classification_of_build`).

* References can be told by the type of the values, which is one collection or array deep at
  most (`Catalogue.References`). An association is made for references into the hierarchy
  (`Catalogue.classify_fst_eq_iff`), and what it refers to is what they are to
  (`Catalogue.target?_eq_some_iff`).
* In the catalogues there are only attributes that some type declares itself. They are merged,
  dropped, and put in the places of others, but never changed. So what holds of those holds of
  all, as far as it passes from parents to their children
  (`Metadata.forall_attributes_of_build`).
-/

namespace Lineage

namespace Catalogue

variable {h : Hierarchy} {p : Discovery} {r : FieldReader} {a : Attribute}

/-! ### Kinds and types of values -/

/-- The type of the values is that of references to the given type, one or several, as
    attributes of the given kind have them. -/
inductive References (k : TypeKey) : AttributeKind → ValueType → Prop
  | one : References k .singularAssociation (.named k)
  | collection : References k .pluralAssociation (.collection (.named k))
  | array : References k .pluralAssociation (.array (.named k))

theorem References.isAssociation {k : TypeKey} {kind : AttributeKind} {t : ValueType}
    (ht : References k kind t) : kind.isAssociation = true := by
  cases ht <;> rfl

/-- References are to one type. -/
theorem References.unique {k k' : TypeKey} {kind kind' : AttributeKind} {t : ValueType}
    (ht : References k kind t) (ht' : References k' kind' t) : k = k' := by
  cases ht <;> cases ht' <;> rfl

theorem references_singularAssociation_iff {k : TypeKey} {t : ValueType} :
    References k .singularAssociation t ↔ t.key? = some k := by
  constructor
  · intro ht
    cases ht
    rfl
  · intro ht
    cases t with
    | named k' => exact Option.some.inj ht ▸ .one
    | scalar | collection | array => exact nomatch ht

theorem references_pluralAssociation_iff {k : TypeKey} {t : ValueType} :
    References k .pluralAssociation t ↔ (t.element? >>= ValueType.key?) = some k := by
  constructor
  · intro ht
    cases ht <;> rfl
  · intro ht
    -- the elements are references to one type each
    obtain ⟨u, hu, hk⟩ := Option.bind_eq_some_iff.1 ht
    obtain ⟨rfl⟩ := references_singularAssociation_iff.2 hk
    cases t with
    | collection => exact Option.some.inj hu ▸ .collection
    | array => exact Option.some.inj hu ▸ .array
    | scalar | named => exact nomatch hu

/-- What an attribute refers to is told by the type of its values. -/
theorem target?_eq_some_iff {k : TypeKey} :
    a.target? = some k ↔ References k a.kind a.valueType := by
  rw [Attribute.target?]
  cases a.kind with
  | singularAssociation => exact references_singularAssociation_iff.symm
  | pluralAssociation => exact references_pluralAssociation_iff.symm
  | plain | component => exact ⟨nofun, fun ht => nomatch ht.isAssociation⟩

/-- The values of an association are references to a type of the hierarchy. -/
theorem classify_fst_eq_iff {t : ValueType} {kind : AttributeKind}
    (hkind : kind.isAssociation = true) :
    (classify h p t).1 = kind ↔ ∃ k, h.contains k = true ∧ References k kind t := by
  constructor
  · intro hclassify
    subst hclassify
    cases t with
    | scalar s => exact absurd hkind Bool.false_ne_true
    | named k =>
      by_cases hk : h.contains k = true
      · refine ⟨k, hk, ?_⟩
        rw [classify, if_pos hk]
        exact .one
      · -- what is outside of the hierarchy is not referred to, value object or not
        rw [classify, if_neg hk] at hkind
        split at hkind
        · exact absurd hkind Bool.false_ne_true
        · split_ifs at hkind <;> exact absurd hkind Bool.false_ne_true
    | collection t | array t =>
      cases t with
      | named k =>
        by_cases hk : h.contains k = true
        · refine ⟨k, hk, ?_⟩
          rw [classify, if_pos hk]
          constructor
        · rw [classify, if_neg hk] at hkind
          exact absurd hkind Bool.false_ne_true
      | scalar | collection | array => exact absurd hkind Bool.false_ne_true
  · intro hreferences
    obtain ⟨k, hk, ht⟩ := hreferences
    cases ht <;> exact congrArg Prod.fst (if_pos hk)

variable (h p) in
/-- The attribute is named by its path, and its kind is that of its values. -/
structure Sound (a : Attribute) : Prop where
  name_eq : a.name = ".".intercalate a.path
  kind_eq : a.kind = (classify h p a.valueType).1

variable (h p) in
/-- The kind of the attribute, what it refers to and the type of its values tell the same. -/
structure Classified (a : Attribute) : Prop where
  /-- It is an association if it refers to something. -/
  isAssociation_iff : a.kind.isAssociation = true ↔ ∃ k, a.target? = some k
  /-- What it refers to is in the hierarchy, and its values are references to that, as
      attributes of its kind have them. -/
  target_iff : ∀ k kind, a.target? = some k ∧ a.kind = kind ↔
    h.contains k = true ∧ References k kind a.valueType
  /-- It is a component if its values are of a described value object that is not in the
      hierarchy. -/
  component_iff : a.kind = .component ↔ ∃ k, a.valueType = .named k ∧ h.contains k = false ∧
    ∃ d, p.describe? k = some d ∧ d.kind = .valueObject

theorem Sound.classified (ha : Sound h p a) : Classified h p a where
  isAssociation_iff := by
    constructor
    · intro hkind
      obtain ⟨k, _, hreferences⟩ := (classify_fst_eq_iff hkind).1 ha.kind_eq.symm
      exact ⟨k, target?_eq_some_iff.2 hreferences⟩
    · intro ⟨k, htarget⟩
      exact (target?_eq_some_iff.1 htarget).isAssociation
  target_iff k kind := by
    constructor
    · intro ⟨htarget, hkind⟩
      subst hkind
      have hreferences := target?_eq_some_iff.1 htarget
      -- the kind is made for references to a type of the hierarchy, which can only be this one
      obtain ⟨k', hk', hreferences'⟩ :=
        (classify_fst_eq_iff hreferences.isAssociation).1 ha.kind_eq.symm
      obtain rfl := hreferences.unique hreferences'
      exact ⟨hk', hreferences⟩
    · intro ⟨hk, hreferences⟩
      have hkind : a.kind = kind := ha.kind_eq.trans
        ((classify_fst_eq_iff hreferences.isAssociation).2 ⟨k, hk, hreferences⟩)
      exact ⟨target?_eq_some_iff.2 (hkind ▸ hreferences), hkind⟩
  component_iff := by
    rw [ha.kind_eq, classify_fst_eq_component, Option.isSome_iff_exists]
    simp only [classify_snd_eq_some]
    constructor
    · intro ⟨d, k, htype, hk, hd, hkind⟩
      exact ⟨k, htype, hk, d, hd, hkind⟩
    · intro ⟨k, htype, hk, d, hd, hkind⟩
      exact ⟨d, k, htype, hk, hd, hkind⟩

/-! ### Attributes of a type -/

/-- Fields make sound attributes, at any depth. -/
theorem sound_of_mem_ownAttributes {d : TypeDescriptor} {own : Attributes}
    (hown : ownAttributes h p r d = .ok own) (ha : a ∈ own) : Sound h p a := by
  rw [(ownAttributes_eq_ok hown).1, List.mem_flatMap] at ha
  obtain ⟨f, _, ha⟩ := ha
  obtain ⟨_, _, rfl⟩ := exists_attributeOf_of_mem_expand ha
  exact ⟨rfl, rfl⟩

end Catalogue

namespace Metadata

variable {h : Hierarchy} {p : Discovery} {r : FieldReader} {q : List Requirement} {m : Metadata}
  {root : TypeKey}

/-- What holds of the attributes that a type declares itself, and passes from parents to their
    children, holds of all attributes in the catalogues. -/
theorem forall_attributes_of_build (hw : h.WellFormed root) (hm : build h p r q = .ok m)
    {P : TypeKey → Attribute → Prop}
    (declared : ∀ n ∈ h.nodes, ∀ own, ownAttributes h p r n = .ok own → ∀ a ∈ own, P n.key a)
    (passed : ∀ parent k, h.IsParent parent k → ∀ a, P parent a → P k a) :
    ∀ n ∈ h.nodes, ∀ cat, m.get? n.key = some cat → ∀ a ∈ cat.attributes, P n.key a := by
  refine hw.parents_induction fun n hn ih cat hcat a ha => ?_
  obtain ⟨cat', own, hcat', hown, has⟩ := exists_catalogue hw hm hn
  obtain rfl := Option.some.inj (hcat.symm.trans hcat')
  rcases (Catalogue.mem_inherit has (nodup_names_ownAttributes hown)).1 ha with ha | ⟨hfirst, _⟩
  · exact declared n hn own hown a ha
  · -- the attribute is in the catalogue of a parent
    obtain ⟨as, has, ha, _⟩ := Attributes.exists_mem_of_findSome?_eq_some hfirst
    obtain ⟨k, hk, above, habove, rfl⟩ := mem_parentsOf.1 has
    obtain ⟨parent, hparent, rfl⟩ := hw.exists_parent hn hk
    exact passed parent.key n.key ⟨n, hn, rfl, hk⟩ a
      (ih parent (hw.mem_parents.2 ⟨hparent, hk⟩) above habove a ha)

theorem sound_of_mem_ownAttributes {n : Node} {own : Attributes}
    (hown : ownAttributes h p r n = .ok own) {a : Attribute} (ha : a ∈ own) :
    Catalogue.Sound h p a := by
  rcases ownAttributes_eq_ok hown with rfl | ⟨d, _, hown⟩
  · exact absurd ha List.not_mem_nil
  · exact Catalogue.sound_of_mem_ownAttributes hown ha

variable (h p) in
/-- How an attribute is kept in the catalogue of a type. -/
structure Kept (k : TypeKey) (cat : Catalogue) (a : Attribute) : Prop where
  /-- It is found under its name, -/
  get?_eq : cat.get? a.name = some a
  /-- which is its path, joined by dots. -/
  name_eq : a.name = ".".intercalate a.path
  /-- Its kind, what it refers to and the type of its values tell the same. -/
  classified : Catalogue.Classified h p a
  /-- The type itself or an ancestor declares it. -/
  declaredBy : a.declaredBy = k ∨ h.IsAncestor a.declaredBy k

/-- In all catalogues the attributes, own, inherited and nested ones, are kept under their paths.
    Associations refer to types of the hierarchy, and other attributes do not; components hold
    described value objects that are not in it. Each attribute is declared by the type of the
    catalogue or by one of its ancestors. -/
theorem classification_of_build (hs : h.Sealed) (hm : build h p r q = .ok m) {k : TypeKey}
    (hk : h.contains k = true) :
    ∃ cat, m.get? k = some cat ∧ ∀ a ∈ cat.attributes, Kept h p k cat a := by
  obtain ⟨root, hw⟩ := hs.wellFormed
  obtain ⟨n, hn, rfl⟩ := hw.contains_iff.1 hk
  obtain ⟨cat, own, hcat, _, has⟩ := exists_catalogue hw hm hn
  have hnodup : cat.attributes.names.Nodup := Catalogue.nodup_names_inherit has
  have hattributes := forall_attributes_of_build hw hm
    (P := fun k a => Catalogue.Sound h p a ∧ (a.declaredBy = k ∨ h.IsAncestor a.declaredBy k))
    (fun n _ own hown a ha =>
      ⟨sound_of_mem_ownAttributes hown ha, .inl (declaredBy_of_mem_ownAttributes hown ha)⟩)
    (fun parent k hparent a ⟨hsound, habove⟩ => ⟨hsound, .inr (hparent.isAncestor habove)⟩)
  refine ⟨cat, hcat, fun a ha => ?_⟩
  obtain ⟨hsound, habove⟩ := hattributes n hn cat hcat a ha
  exact {
    get?_eq := (Attributes.get?_eq_some_iff hnodup).2 ⟨ha, rfl⟩
    name_eq := hsound.name_eq
    classified := hsound.classified
    declaredBy := habove }

/-! ### Shelters -/

namespace Shelters

/-- The type of persons. -/
def person : TypeKey := ⟨"Person"⟩

/-- The type of shelters. -/
def shelter : TypeKey := ⟨"Shelter"⟩

/-- The type of kennels. -/
def kennel : TypeKey := ⟨"Kennel"⟩

/-- Kennels are shelters. These have a contact, which is a value object and names a person,
    and shifts of persons. -/
def discovery : Discovery where
  root := ⟨"Resource"⟩
  described := [
    { key := ⟨"Contact"⟩
      kind := .valueObject
      fields := [⟨"phone", .scalar "text", .empty⟩, ⟨"person", .named person, .empty⟩] },
    { key := person
      kind := .classType
      superclass := some ⟨"Resource"⟩ },
    { key := shelter
      kind := .classType
      superclass := some ⟨"Resource"⟩
      fields := [
        ⟨"contact", .named ⟨"Contact"⟩, .empty⟩,
        ⟨"shifts", .collection (.collection (.named person)), .empty⟩] },
    { key := kennel
      kind := .classType
      superclass := some shelter
      fields := [⟨"keepers", .array (.named person), .empty⟩] }]
  find _ := .ok []

/-- The hierarchy of persons, shelters and kennels. -/
def hierarchy : Hierarchy :=
  .built discovery

end Shelters

open Shelters in
/-- A kennel refers to the person that its contact names, and to its keepers. Shifts are not
    references, as they are collections of collections. -/
theorem classification_of_build_kennel :
    hierarchy.Sealed ∧ hierarchy.contains kennel = true ∧
      ∃ m cat, build hierarchy discovery .ofDescriptor [] = .ok m ∧ m.get? kennel = some cat ∧
        (∀ a ∈ cat.attributes, Kept hierarchy discovery kennel cat a) ∧
        cat.attributes.map (fun a => (a.name, a.kind, a.target?)) = [
          ("contact", .component, none), ("contact.phone", .plain, none),
          ("contact.person", .singularAssociation, some person), ("shifts", .plain, none),
          ("keepers", .pluralAssociation, some person)] := by
  have hs : hierarchy.Sealed := Hierarchy.sealed_built discovery
  have hk : hierarchy.contains kennel = true := by decide +kernel
  obtain ⟨m, hm, hattributes⟩ : ∃ m, build hierarchy discovery .ofDescriptor [] = .ok m ∧
      (m.get? kennel).map (·.attributes.map fun a => (a.name, a.kind, a.target?)) = some [
        ("contact", .component, none), ("contact.phone", .plain, none),
        ("contact.person", .singularAssociation, some person), ("shifts", .plain, none),
        ("keepers", .pluralAssociation, some person)] := ⟨_, rfl, by decide +kernel⟩
  obtain ⟨cat, hcat, hkept⟩ := classification_of_build hs hm hk
  rw [hcat] at hattributes
  exact ⟨hs, hk, m, cat, hm, hcat, hkept, Option.some.inj hattributes⟩

end Metadata

end Lineage
