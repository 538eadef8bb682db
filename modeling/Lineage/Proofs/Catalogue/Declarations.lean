import Lineage.Proofs.Catalogue.Components

/-!
# Which declaration counts

What a type shows under a name is found by climbing the hierarchy
(`Metadata.Shown`): a type that declares the name itself shows its own attribute,
and any other type the one that the first of its parents shows which shows any.

If several ancestors declare a field, it is the order of the parents that decides
which of them counts, even if one of them is below all others:

* a type shows the declaration that it meets on the climb to the first parents
  which show the name (`Metadata.FirstShowing`, `Metadata.declaration_of_build`);
* the parents may show a component in different shapes (`Metadata.Contested`), and
  then the metadata are not built, unless the type itself declares the name;
* a type between the parents and the first declaration settles neither
  (`Metadata.declaredBy_of_redeclared_electric`).
-/

namespace Lineage.Metadata

open Relation

variable {h : Hierarchy} {p : Discovery} {r : FieldReader} {q : List Requirement} {m : Metadata}
  {root : TypeKey} {name : String}

/-! ### Own attributes -/

theorem nodup_names_ownAttributes {n : Node} {own : Attributes}
    (hown : ownAttributes h p r n = .ok own) : own.names.Nodup := by
  rcases ownAttributes_eq_ok hown with rfl | ⟨d, _, hown⟩
  · exact List.nodup_nil
  · exact (Catalogue.ownAttributes_eq_ok hown).2.1

theorem declaredBy_of_mem_ownAttributes {n : Node} {own : Attributes}
    (hown : ownAttributes h p r n = .ok own) {a : Attribute} (ha : a ∈ own) :
    a.declaredBy = n.key := by
  rcases ownAttributes_eq_ok hown with rfl | ⟨d, hd, hown⟩
  · exact absurd ha List.not_mem_nil
  · rw [Catalogue.declaredBy_of_mem_ownAttributes hown ha,
      (Discovery.key_of_describe? hd).1]

/-- Under the name of a field that a type declares there is the attribute of the field. -/
theorem get?_ownAttributes {n : Node} {own : Attributes} (hown : ownAttributes h p r n = .ok own)
    {d : TypeDescriptor} (hd : p.describe? n.key = some d) {f : Field} (hf : f ∈ r.stored d) :
    own.get? f.name = some (Catalogue.attributeOf h p n.key {} f) := by
  rw [ownAttributes, hd] at hown
  rw [Catalogue.get?_ownAttributes hown hf, (Discovery.key_of_describe? hd).1]

/-! ### Climbing -/

variable (h p r name)

/-- What a type shows under a name, if anything: its own attribute, or else what the
    first of its parents shows which shows any, unless it is nested in a component
    that the type replaces. -/
inductive Shown : TypeKey → Option Attribute → Prop
  | of_parents {n : Node} {own : Attributes} {above : TypeKey → Option Attribute}
      (hn : n ∈ h.nodes) (hown : ownAttributes h p r n = .ok own)
      (habove : ∀ k ∈ n.parents, Shown k (above k)) :
      Shown n.key ((own.get? name).or
        ((n.parents.findSome? above).filter fun a => ¬ Catalogue.Replaced own a))

/-- The type does not declare the name itself. -/
def NotOwn (n : Node) : Prop :=
  ∃ own, ownAttributes h p r n = .ok own ∧ own.has name = false

/-- The type does not declare the name itself, and the parent is the first one that
    shows it. -/
def FirstShowing (k parent : TypeKey) : Prop :=
  ∃ n ∈ h.nodes, n.key = k ∧ NotOwn h p r name n ∧
    ∃ before after, n.parents = before ++ parent :: after ∧
      (∃ a, Shown h p r name parent (some a)) ∧ ∀ u ∈ before, Shown h p r name u none

/-- The type does not declare the name itself, and two of its parents show it in
    these shapes, which do not agree. -/
def Contested (k : TypeKey) (x y : Shape) : Prop :=
  x.agrees y = false ∧ ∃ n ∈ h.nodes, n.key = k ∧ NotOwn h p r name n ∧
    (∃ parent ∈ n.parents, ∃ a, Shown h p r name parent (some a) ∧ a.shape = x) ∧
    ∃ parent ∈ n.parents, ∃ b, Shown h p r name parent (some b) ∧ b.shape = y

/-- The type and its ancestors, as far as they declare the name, declare it in a shape
    that agrees with the given one. -/
def DeclaredLike (k : TypeKey) (x : Shape) : Prop :=
  ∀ n ∈ h.nodes, (n.key = k ∨ h.IsAncestor n.key k) → ∀ own a,
    ownAttributes h p r n = .ok own → own.get? name = some a → x.agrees a.shape = true

variable {h p r name}

/-- What is shown has been declared by the type or by an ancestor. -/
theorem Shown.agrees_of_declaredLike (hw : h.WellFormed root) {k : TypeKey}
    {shown : Option Attribute} (hshown : Shown h p r name k shown) {x : Shape}
    (hlike : DeclaredLike h p r name k x) {a : Attribute} (ha : shown = some a) :
    x.agrees a.shape = true := by
  induction hshown with
  | @of_parents n own above hn hown _ ih =>
    cases hname : own.get? name with
    | some b =>
      rw [hname, Option.some_or] at ha
      exact hlike n hn (.inl rfl) own a hown (hname.trans ha)
    | none =>
      -- a parent shows it, and what is above the parent is above the type
      rw [hname, Option.none_or, Option.filter_eq_some_iff] at ha
      obtain ⟨parent, hparent, habove⟩ := List.exists_of_findSome?_eq_some ha.1
      exact ih parent hparent
        (fun u hu hup => hlike u hu (.inr (hw.isAncestor_of_parent hn hparent hup))) habove

/-- Where all declarations are alike, no type is in conflict. -/
theorem Contested.not_declaredLike (hw : h.WellFormed root) {k : TypeKey} {x y : Shape}
    (hcontested : Contested h p r name k x y) (z : Shape) : ¬ DeclaredLike h p r name k z := by
  rintro hlike
  obtain ⟨hdisagree, n, hn, rfl, _, ⟨parent, hparent, a, ha, rfl⟩, parent', hparent', b, hb, rfl⟩ :=
    hcontested
  have hagrees {u : TypeKey} (hu : u ∈ n.parents) {a : Attribute}
      (ha : Shown h p r name u (some a)) : z.agrees a.shape = true :=
    ha.agrees_of_declaredLike hw
      (fun v hv hvu => hlike v hv (.inr (hw.isAncestor_of_parent hn hu hvu))) rfl
  exact Bool.false_ne_true (hdisagree.symm.trans
    (Shape.agrees_trans (Shape.agrees_symm (hagrees hparent ha)) (hagrees hparent' hb)))

/-- A type shows its own attributes and what the catalogues of its parents show. -/
theorem shown?_eq {n : Node} {cat : Catalogue} {own : Attributes} (hcat : m.get? n.key = some cat)
    (hown : ownAttributes h p r n = .ok own)
    (has : Catalogue.inherit n.key (m.parentsOf n) own = .ok cat.attributes) :
    m.shown? n.key name = (own.get? name).or
      ((n.parents.findSome? (m.shown? · name)).filter fun a => ¬ Catalogue.Replaced own a) := by
  rw [shown?, hcat, Option.bind_some, Catalogue.get?, ← findSome?_parentsOf,
    Catalogue.get?_inherit has (nodup_names_ownAttributes hown)]

/-- The catalogues that have been made so far show what is found by climbing. -/
theorem MadeFor.shown (hw : h.WellFormed root) {done : List TypeKey}
    (hmade : MadeFor h p r done m) :
    ∀ n ∈ h.nodes, n.key ∈ done → Shown h p r name n.key (m.shown? n.key name) := by
  refine hw.parents_induction fun n hn ih hdone => ?_
  obtain ⟨cat, own, hcat, hown, has⟩ := hmade.exists_catalogue hn hdone
  rw [shown?_eq hcat hown has]
  refine .of_parents hn hown fun k hk => ?_
  obtain ⟨parent, hparent, rfl⟩ := hw.exists_parent hn hk
  exact ih parent (hw.mem_parents.2 ⟨hparent, hk⟩) (hmade.closed n hn hdone hk)

section Built

variable (hw : h.WellFormed root) (hm : build h p r q = .ok m)
include hw hm

/-- In the end all catalogues show what is found by climbing. -/
theorem shown_iff {n : Node} (hn : n ∈ h.nodes) {shown : Option Attribute} :
    Shown h p r name n.key shown ↔ shown = m.shown? n.key name := by
  constructor
  · -- by induction on the climb: what it finds on the parents is in their catalogues
    intro hshown
    clear hn
    generalize n.key = k at hshown
    induction hshown with
    | @of_parents n own above hn hown _ ih =>
      obtain ⟨cat, own', hcat, hown', has⟩ := exists_catalogue hw hm hn
      obtain rfl := Except.ok.inj (hown.symm.trans hown')
      rw [shown?_eq hcat hown has, findSome?_congr ih]
  · rintro rfl
    obtain ⟨done, hdone, hmade⟩ := exists_madeFor hw hm
    exact hmade.shown hw n hn (hdone n hn)

/-- Where a type shows what another one declares, it is met on the climb that always
    goes to the first parent which shows the name. -/
theorem climb_of_declaredBy {top : TypeKey} : ∀ n ∈ h.nodes, ∀ a,
    m.shown? n.key name = some a → a.declaredBy = top →
      ReflTransGen (FirstShowing h p r name) n.key top := by
  refine hw.parents_induction fun n hn ih a ha htop => ?_
  obtain ⟨cat, own, hcat, hown, has⟩ := exists_catalogue hw hm hn
  rw [shown?_eq hcat hown has] at ha
  cases hname : own.get? name with
  | some b =>
    -- the attribute is an own one
    rw [hname, Option.some_or] at ha
    obtain rfl := Option.some.inj ha
    rw [← htop, declaredBy_of_mem_ownAttributes hown (Attributes.of_get?_eq_some hname).1]
  | none =>
    -- it is that of the first parent that shows any, which is one step up
    rw [hname, Option.none_or, Option.filter_eq_some_iff] at ha
    obtain ⟨before, parent, after, hparents, hparent, hbefore⟩ := List.findSome?_eq_some_iff.1 ha.1
    have hnode {k : TypeKey} (hk : k ∈ before ++ parent :: after) : ∃ u ∈ h.nodes, u.key = k :=
      hw.exists_parent hn (hparents ▸ hk)
    have hmem : parent ∈ before ++ parent :: after := by simp
    obtain ⟨u, hu, rfl⟩ := hnode hmem
    refine .head ⟨n, hn, rfl, ⟨own, hown, Attributes.get?_eq_none_iff.1 hname⟩, before, after,
      hparents, ⟨a, (shown_iff hw hm hu).2 hparent.symm⟩, fun k hk => ?_⟩
      (ih u (hw.mem_parents.2 ⟨hu, hparents ▸ hmem⟩) a hparent htop)
    obtain ⟨v, hv, rfl⟩ := hnode (List.mem_append_left _ hk)
    exact (shown_iff hw hm hv).2 (hbefore v.key hk).symm

/-- A type that is met on this climb and declares the name is the one whose
    declaration is shown. -/
theorem shown?_of_climb {top k : TypeKey} {d : TypeDescriptor} (hd : p.describe? top = some d)
    {f : Field} (hf : f ∈ r.stored d) (hk : h.contains k = true)
    (hclimb : ReflTransGen (FirstShowing h p r f.name) k top) :
    m.shown? k f.name = some (Catalogue.attributeOf h p top {} f) := by
  induction hclimb using ReflTransGen.head_induction_on with
  | refl =>
    obtain ⟨n, hn, rfl⟩ := hw.contains_iff.1 hk
    obtain ⟨cat, own, hcat, hown, has⟩ := exists_catalogue hw hm hn
    rw [shown?_eq hcat hown has, get?_ownAttributes hown hd hf, Option.some_or]
  | @head k parent hfirst _ ih =>
    obtain ⟨n, hn, rfl, ⟨own, hown, hnot⟩, before, after, hparents, _, hbefore⟩ := hfirst
    obtain ⟨cat, own', hcat, hown', has⟩ := exists_catalogue hw hm hn
    obtain rfl := Except.ok.inj (hown.symm.trans hown')
    have hnode {u : TypeKey} (hu : u ∈ before ++ parent :: after) : ∃ v ∈ h.nodes, v.key = u :=
      hw.exists_parent hn (hparents ▸ hu)
    have hparent := ih (hw.contains_iff.2 (hnode (by simp)))
    have hinherited : n.parents.findSome? (m.shown? · f.name) =
        some (Catalogue.attributeOf h p top {} f) := by
      rw [List.findSome?_eq_some_iff]
      refine ⟨before, parent, after, hparents, hparent, fun u hu => ?_⟩
      obtain ⟨v, hv, rfl⟩ := hnode (List.mem_append_left _ hu)
      exact ((shown_iff hw hm hv).1 (hbefore v.key hu)).symm
    rw [shown?_eq hcat hown has, Attributes.get?_eq_none_iff.2 hnot, Option.none_or, hinherited,
      Option.filter_eq_some_iff]
    -- the attribute of a field is not nested, so no component that is replaced holds it
    exact ⟨rfl, decide_eq_true fun hreplaced => Bool.false_ne_true <|
      (Attribute.isNested_eq_false_of_path (f := f.name) rfl).symm.trans hreplaced.1⟩

end Built

/-! ### Conflicts -/

/-- What there is in the catalogues of the parents is found by climbing. -/
theorem MadeFor.exists_shown_of_mem (hw : h.WellFormed root) {done : List TypeKey}
    (hmade : MadeFor h p r done m) {n : Node} (hn : n ∈ h.nodes) (hparents : n.parents ⊆ done)
    {a : Attribute} (ha : a ∈ (m.parentsOf n).flatten) :
    ∃ parent ∈ n.parents, Shown h p r a.name parent (some a) := by
  obtain ⟨as, has, ha⟩ := List.mem_flatten.1 ha
  obtain ⟨k, hk, cat, hcat, rfl⟩ := mem_parentsOf.1 has
  obtain ⟨parent, hparent, rfl⟩ := hw.exists_parent hn hk
  obtain ⟨cat', own, hcat', _, hinherit⟩ := hmade.exists_catalogue hparent (hparents hk)
  obtain rfl := Option.some.inj (hcat.symm.trans hcat')
  have hshown : m.shown? parent.key a.name = some a := by
    rw [shown?, hcat, Option.bind_some, Catalogue.get?,
      Attributes.get?_eq_some_iff (Catalogue.nodup_names_inherit hinherit)]
    exact ⟨ha, rfl⟩
  exact ⟨parent.key, hk, hshown ▸ hmade.shown hw parent hparent (hparents hk)⟩

/-- A conflict comes from two parents of the type, and only if the type does not
    declare the name. -/
theorem contested_of_build_eq_error (hw : h.WellFormed root)
    (hown : ∀ n ∈ h.nodes, ∃ own, ownAttributes h p r n = .ok own) {k : TypeKey} {x y : Shape}
    (herror : build h p r q = .error (.conflictingInheritance k name x y)) :
    Contested h p r name k x y := by
  obtain ⟨_, _, _, herror⟩ | ⟨done, m, n, hn, hparents, hmade, herror⟩ :=
    exists_of_build_eq_error hw herror
  · exact nomatch herror
  · obtain ⟨own, hown⟩ := hown n hn
    obtain herror | ⟨own', hown', herror⟩ := catalogueOf_eq_error herror
    · exact nomatch hown.symm.trans herror
    · -- the parents had their catalogues by then, so both attributes are found by climbing
      obtain ⟨rfl, hnot, hconflict⟩ := Catalogue.inherit_eq_conflictingInheritance herror
      obtain ⟨a, ha, b, hb, rfl, (hname : b.name = a.name), rfl, rfl, hdisagree⟩ :=
        Catalogue.Merge.exists_between_of_mem_conflicts hconflict
      obtain ⟨parent, hparent, ha⟩ := hmade.exists_shown_of_mem hw hn hparents ha
      obtain ⟨parent', hparent', hb⟩ := hmade.exists_shown_of_mem hw hn hparents hb
      exact ⟨hdisagree, n, hn, rfl, ⟨own', hown', hnot⟩, ⟨parent, hparent, a, ha, rfl⟩,
        parent', hparent', b, hname ▸ hb, rfl⟩

/-- The metadata are not built if a type inherits a field in shapes that do not agree.
    This only happens to a type that does not declare the field itself, and two
    parents of which show it in these shapes. It never happens if all declarations
    on the type and its ancestors are alike.

    Otherwise a type shows the field as a given one declares it exactly if this type
    is met on the climb that ends with the first type which declares the field, and
    always goes to the first parent that shows it. -/
theorem declaration_of_build (hs : h.Sealed)
    (hown : ∀ n ∈ h.nodes, ∃ own, ownAttributes h p r n = .ok own) {k top : TypeKey}
    (hk : h.contains k = true) {d : TypeDescriptor} (hd : p.describe? top = some d) {f : Field}
    (hf : f ∈ r.stored d) :
    (∀ x y, build h p r q = .error (.conflictingInheritance k f.name x y) →
      Contested h p r f.name k x y ∧
        ¬ DeclaredLike h p r f.name k (Catalogue.attributeOf h p top {} f).shape) ∧
    ∀ m, build h p r q = .ok m →
      (∀ a, m.shown? k f.name = some a → a.declaredBy = top →
        ReflTransGen (FirstShowing h p r f.name) k top) ∧
      (ReflTransGen (FirstShowing h p r f.name) k top →
        ∃ a, m.shown? k f.name = some a ∧ a.declaredBy = top ∧
          a.optional = f.modifiers.isNullable ∧ a.isLazy = f.modifiers.isLazy) := by
  obtain ⟨root, hw⟩ := hs.wellFormed
  refine ⟨fun x y herror => ?_, fun m hm => ⟨fun a ha htop => ?_, fun hclimb => ?_⟩⟩
  · have hcontested := contested_of_build_eq_error hw hown herror
    exact ⟨hcontested, hcontested.not_declaredLike hw _⟩
  · obtain ⟨n, hn, rfl⟩ := hw.contains_iff.1 hk
    exact climb_of_declaredBy hw hm n hn a ha htop
  · exact ⟨_, shown?_of_climb hw hm hd hf hk hclimb, rfl, Bool.false_or _, Bool.false_or _⟩

variable (h p r) in
/-- Of a type and its ancestors, as far as they declare a stored field of the name, one
    is below all others, and they all declare fields of the same kind. -/
structure LowestDeclaration (k lowest : TypeKey) (f : Field) : Prop where
  /-- It declares the field. -/
  stores : ∃ d, p.describe? lowest = some d ∧ f ∈ r.stored d
  /-- It is the type itself or an ancestor. -/
  above : lowest = k ∨ h.IsAncestor lowest k
  /-- The others are its ancestors, and declare fields of the same kind. -/
  others : ∀ u d g, (u = k ∨ h.IsAncestor u k) → p.describe? u = some d → g ∈ r.stored d →
    g.name = f.name → (u = lowest ∨ h.IsAncestor u lowest) ∧
      (Catalogue.classify h p g.valueType).1 = (Catalogue.classify h p f.valueType).1

/-! ### Electric cars -/

namespace Vehicles

/-- The type of vehicles. -/
def vehicle : TypeKey := ⟨"Vehicle"⟩

/-- The type of cars. -/
def car : TypeKey := ⟨"Car"⟩

/-- The type of what runs on electricity. -/
def electric : TypeKey := ⟨"Electric"⟩

/-- The type of electric cars. -/
def electricCar : TypeKey := ⟨"ElectricCar"⟩

/-- A drive of the given type. -/
def drive (t : String) (modifiers : Modifiers) : Field :=
  ⟨"drive", .named ⟨t⟩, modifiers⟩

/-- Vehicles have an engine as their drive. Cars and what runs on electricity may
    declare theirs again; electric cars are both. -/
def discovery (ofCar ofElectric : List Field) : Discovery where
  root := ⟨"Resource"⟩
  described := [
    { key := ⟨"Engine"⟩
      kind := .valueObject
      fields := [⟨"power", .scalar "number", .empty⟩] },
    { key := ⟨"Motor"⟩
      kind := .valueObject
      fields := [⟨"power", .scalar "number", .empty⟩] },
    { key := vehicle
      kind := .interfaceType
      interfaces := [⟨"Resource"⟩]
      fields := [drive "Engine" .empty]
      isAbstract := true },
    { key := car
      kind := .classType
      interfaces := [vehicle]
      fields := ofCar },
    { key := electric
      kind := .interfaceType
      interfaces := [vehicle]
      fields := ofElectric
      isAbstract := true },
    { key := electricCar
      kind := .classType
      superclass := some car
      interfaces := [electric] }]
  find _ := .ok []

/-- An engine that may be missing. -/
def optionalEngine : Field :=
  drive "Engine" { isNullable := true }

/-- A motor. -/
def motor : Field :=
  drive "Motor" .empty

/-- Cars may be without an engine. -/
def ofCars : Discovery :=
  discovery [optionalEngine] []

/-- What runs on electricity may be without an engine, or has the given drive. -/
def ofElectric (g : Field) : Discovery :=
  discovery [] [g]

/-- If what runs on electricity declares its drive again, it is the lowest type that
    declares the drive of electric cars. -/
theorem lowest_electric : ∀ g ∈ [optionalEngine, motor],
    LowestDeclaration (.built (ofElectric g)) (ofElectric g) .ofDescriptor electricCar electric
      g := by
  have hparents : ∀ g ∈ [optionalEngine, motor],
      (Hierarchy.built (ofElectric g)).IsParent electric electricCar ∧
        (Hierarchy.built (ofElectric g)).IsParent vehicle electric := by
    unfold Hierarchy.IsParent
    decide +kernel
  have hfields : ∀ g ∈ [optionalEngine, motor], ∀ d ∈ (ofElectric g).described,
      ∀ f ∈ FieldReader.ofDescriptor.stored d, f.name = g.name →
        (d.key = electric ∨ d.key = vehicle) ∧
          (Catalogue.classify (.built (ofElectric g)) (ofElectric g) f.valueType).1 =
            (Catalogue.classify (.built (ofElectric g)) (ofElectric g) g.valueType).1 := by
    decide +kernel
  have hstored : ∀ g ∈ [optionalEngine, motor], g.isPersistent = true := by decide
  intro g hg
  refine ⟨⟨_, rfl, List.mem_filter.2 ⟨List.mem_singleton_self g, hstored g hg⟩⟩,
    .inr (.single (hparents g hg).1), fun u d f _ hd hf hname => ?_⟩
  obtain ⟨rfl, hmem⟩ := Discovery.key_of_describe? hd
  obtain ⟨hkey, hkind⟩ := hfields g hg d hmem f hf hname
  refine ⟨hkey.imp_right fun hvehicle => ?_, hkind⟩
  rw [hvehicle]
  exact .single (hparents g hg).2

end Vehicles

open Vehicles in
theorem declaration_of_build_electricCar :
    (Hierarchy.built ofCars).Sealed ∧ (Hierarchy.built ofCars).contains electricCar = true ∧
      (∀ n ∈ (Hierarchy.built ofCars).nodes, ∃ own,
        ownAttributes (.built ofCars) ofCars .ofDescriptor n = .ok own) ∧
      ReflTransGen (FirstShowing (.built ofCars) ofCars .ofDescriptor "drive") electricCar car ∧
      ∃ m a, build (.built ofCars) ofCars .ofDescriptor [] = .ok m ∧
        m.shown? electricCar "drive" = some a ∧ a.declaredBy = car ∧ a.optional = true ∧
        a.isLazy = false := by
  have hs : (Hierarchy.built ofCars).Sealed := Hierarchy.sealed_built ofCars
  have hk : (Hierarchy.built ofCars).contains electricCar = true := by decide +kernel
  obtain ⟨m, hm, hcar⟩ : ∃ m, build (.built ofCars) ofCars .ofDescriptor [] = .ok m ∧
    (m.shown? car "drive").isSome = true := ⟨_, rfl, by decide +kernel⟩
  obtain ⟨root, hw⟩ := hs.wellFormed
  have hown : ∀ n ∈ (Hierarchy.built ofCars).nodes, ∃ own,
      ownAttributes (.built ofCars) ofCars .ofDescriptor n = .ok own := by
    intro n hn
    obtain ⟨_, own, _, hown, _⟩ := exists_catalogue hw hm hn
    exact ⟨own, hown⟩
  -- cars come first among the parents of electric cars
  have hfirst : FirstShowing (.built ofCars) ofCars .ofDescriptor "drive" electricCar car := by
    obtain ⟨n, hn, hkey, hparents⟩ : ∃ n ∈ (Hierarchy.built ofCars).nodes,
      n.key = electricCar ∧ n.parents = [car, electric] := by decide +kernel
    obtain ⟨u, hu, hukey⟩ := hw.contains_iff.1
      (show (Hierarchy.built ofCars).contains car = true by decide +kernel)
    obtain ⟨a, ha⟩ := Option.isSome_iff_exists.1 hcar
    have hnot : NotOwn (.built ofCars) ofCars .ofDescriptor "drive" n :=
      ⟨[], by rw [ownAttributes, hkey]; rfl, rfl⟩
    have hshown : Shown (.built ofCars) ofCars .ofDescriptor "drive" car (some a) := by
      rw [← ha, ← hukey]
      exact (shown_iff hw hm hu).2 rfl
    exact ⟨n, hn, hkey, hnot, [], [electric], hparents, ⟨a, hshown⟩,
      fun _ hk => absurd hk List.not_mem_nil⟩
  obtain ⟨a, ha, htop, hoptional, hlazy⟩ := ((declaration_of_build hs hown hk (d := _) rfl
    (f := optionalEngine) (by decide +kernel)).2 m hm).2 (.single hfirst)
  exact ⟨hs, hk, hown, .single hfirst, m, a, hm, ha, htop, hoptional, hlazy⟩

open Vehicles in
/-- What runs on electricity is the lowest type that declares the drive of electric
    cars. But these are cars first. So where the engine may be missing, this does not
    hold for electric cars; and where it is a motor, the metadata are not built. -/
theorem declaredBy_of_redeclared_electric :
    (∃ m a, LowestDeclaration (.built (ofElectric optionalEngine)) (ofElectric optionalEngine)
        .ofDescriptor electricCar electric optionalEngine ∧
      build (.built (ofElectric optionalEngine)) (ofElectric optionalEngine) .ofDescriptor [] =
        .ok m ∧
      m.shown? electricCar "drive" = some a ∧ a.declaredBy = vehicle ∧ a.optional = false) ∧
    LowestDeclaration (.built (ofElectric motor)) (ofElectric motor) .ofDescriptor electricCar
        electric motor ∧
      (∀ n ∈ (Hierarchy.built (ofElectric motor)).nodes, ∃ own,
        ownAttributes (.built (ofElectric motor)) (ofElectric motor) .ofDescriptor n = .ok own) ∧
      build (.built (ofElectric motor)) (ofElectric motor) .ofDescriptor [] =
        .error (.conflictingInheritance electricCar "drive" ⟨.component, .named ⟨"Engine"⟩⟩
          ⟨.component, .named ⟨"Motor"⟩⟩) := by
  refine ⟨⟨_, _, lowest_electric _ (by decide), rfl, rfl, rfl, rfl⟩, lowest_electric _ (by decide),
    fun n hn => ?_, rfl⟩
  have hok : ∀ n ∈ (Hierarchy.built (ofElectric motor)).nodes, (ownAttributes
      (.built (ofElectric motor)) (ofElectric motor) .ofDescriptor n).toOption.isSome = true := by
    decide +kernel
  cases hown : ownAttributes (.built (ofElectric motor)) (ofElectric motor) .ofDescriptor n with
  | ok own => exact ⟨own, rfl⟩
  | error e =>
    have hsome := hok n hn
    rw [hown] at hsome
    exact nomatch hsome

end Lineage.Metadata
