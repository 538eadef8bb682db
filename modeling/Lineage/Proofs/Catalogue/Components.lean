import Lineage.Proofs.Catalogue.Flatten
import Lineage.Proofs.Catalogue.Inheritance
import Lineage.Proofs.Catalogue.Metadata
import Lineage.Proofs.Hierarchy.Building

/-!
# Components are inherited as a whole

The attributes on a path from one field belong together. They all come from one
type that declares the field, and none of those that it makes there is missing
(`Catalogue.Coherent`).

Attributes are merged, dropped and replaced one by one, each by its name. They
stay together nevertheless:

* where a type declares a field itself, all inherited attributes on a path from
  it are dropped or replaced (`Coherent.mem_inherit_of_has`);
* otherwise the parents agree in the shape of the field. So they agree in the
  paths of the attributes nested in it, and the first parent that shows one of
  them is the first for all of them (`Coherent.exists_first`).

So each catalogue holds whole components, each of them from one declaration
(`Metadata.components_of_build`).
-/

namespace Lineage

namespace Catalogue

variable {h : Hierarchy} {p : Discovery} {r : FieldReader}

/-! ### Declarations -/

variable (h p r) in
/-- The field is a stored one of a described type whose attributes can be made. -/
structure Declares (d : TypeDescriptor) (f : Field) : Prop where
  described : p.describe? d.key = some d
  own : ∃ own, Catalogue.ownAttributes h p r d = .ok own
  stored : f ∈ r.stored d

theorem Declares.of_mem_block (hdot : r.Undotted p) {d : TypeDescriptor} {f : Field}
    (hd : Declares h p r d f) {a : Attribute} (ha : a ∈ block h p r d f) :
    a.WellNamed ∧ a.root? = some f.name ∧ a.declaredBy = d.key :=
  Catalogue.of_mem_block hdot hd.described hd.stored ha

/-- Where two types declare a field in shapes that agree, it makes attributes with
    the same paths and kinds. -/
theorem map_outline_block {d d' : TypeDescriptor} {f f' : Field} (hname : f.name = f'.name)
    (hagrees : (attributeOf h p d.key {} f).shape.agrees (attributeOf h p d'.key {} f').shape =
      true) :
    (block h p r d f).map Attribute.outline = (block h p r d' f').map Attribute.outline := by
  obtain ⟨hkind, htype⟩ : (attributeOf h p d.key {} f).kind = (attributeOf h p d'.key {} f').kind ∧
    (_ → f.valueType = f'.valueType) := Shape.agrees_iff.1 hagrees
  by_cases hcomponent : (attributeOf h p d.key {} f).kind = .component
  · exact map_outline_expand rfl hname (htype hcomponent)
  · -- there is only the attribute of the field itself
    have hpath : (attributeOf h p d.key {} f).path = (attributeOf h p d'.key {} f').path := by
      rw [attributeOf, attributeOf, hname]
    rw [block, block, Discovery.depthBound, expand_eq_singleton hcomponent,
      expand_eq_singleton (hkind ▸ hcomponent), List.map_singleton, List.map_singleton]
    exact congrArg (fun o => [o]) (Prod.ext hpath hkind)

theorem Declares.exists_mem_block (hdot : r.Undotted p) {d d' : TypeDescriptor} {f f' : Field}
    (hd : Declares h p r d f) (hd' : Declares h p r d' f') (hname : f.name = f'.name)
    (hagrees : (attributeOf h p d.key {} f).shape.agrees (attributeOf h p d'.key {} f').shape =
      true) {a : Attribute} (ha : a ∈ block h p r d' f') :
    ∃ b ∈ block h p r d f, b.name = a.name ∧ b.kind = a.kind := by
  have houtline : a.outline ∈ (block h p r d f).map Attribute.outline := by
    rw [map_outline_block hname hagrees]
    exact List.mem_map_of_mem ha
  obtain ⟨b, hb, he⟩ := List.mem_map.1 houtline
  refine ⟨b, hb, ?_, congrArg Prod.snd he⟩
  rw [(hd.of_mem_block hdot hb).1.name_eq, (hd'.of_mem_block hdot ha).1.name_eq]
  exact congrArg _ (congrArg Prod.fst he)

/-! ### Coherence -/

variable (h p r) in
/-- The attributes on a path from the field are those that it makes. -/
def Shows (as : Attributes) (d : TypeDescriptor) (f : Field) : Prop :=
  ∀ a, a.root? = some f.name → (a ∈ as ↔ a ∈ block h p r d f)

variable (h p r) in
/-- The attributes fall into whole components, each of them from one declaration
    of a field. -/
structure Coherent (as : Attributes) : Prop where
  /-- No name occurs twice. -/
  nodup : as.names.Nodup
  /-- Each attribute belongs to a declared field, with all others that the field
      makes. -/
  declared : ∀ a ∈ as, ∃ d f, Declares h p r d f ∧ a.root? = some f.name ∧ Shows h p r as d f

namespace Coherent

variable {as : Attributes}

theorem wellNamed (hdot : r.Undotted p) (hc : Coherent h p r as) {a : Attribute} (ha : a ∈ as) :
    a.WellNamed := by
  obtain ⟨d, f, hd, hroot, hshows⟩ := hc.declared a ha
  exact (hd.of_mem_block hdot ((hshows a hroot).1 ha)).1

/-- No attribute is nested in a component that is not there. -/
theorem has_of_root (hc : Coherent h p r as) {a : Attribute} (ha : a ∈ as) {field : String}
    (hroot : a.root? = some field) : as.has field = true := by
  obtain ⟨d, f, hd, hroot', hshows⟩ := hc.declared a ha
  obtain rfl := Option.some.inj (hroot.symm.trans hroot')
  refine Attributes.has_iff.2 ⟨attributeOf h p d.key {} f, ?_, name_attributeOf ..⟩
  exact (hshows _ rfl).2 (attributeOf_mem_block d f)

/-- An attribute that is not nested is the one of the declared field. -/
theorem exists_declares (hdot : r.Undotted p) (hc : Coherent h p r as) {top : Attribute}
    (htop : top ∈ as) {field : String} (hpath : top.path = [field]) :
    ∃ d f, Declares h p r d f ∧ f.name = field ∧ top = attributeOf h p d.key {} f ∧
      Shows h p r as d f := by
  obtain ⟨d, f, hd, hroot, hshows⟩ := hc.declared top htop
  have hname : f.name = field :=
    Option.some.inj (hroot.symm.trans (Attribute.root?_eq_of_path hpath))
  have hnamed := hc.wellNamed hdot htop
  have htop' := (hshows _ rfl).2 (attributeOf_mem_block d f)
  refine ⟨d, f, hd, hname, List.inj_on_of_nodup_map hc.nodup htop htop' ?_, hshows⟩
  rw [name_attributeOf, hname, hnamed.name_eq_iff (hnamed.undotted_of_root _)]
  exacts [hpath, Attribute.root?_eq_of_path hpath]

/-- If some parent shows a field then one of them is the first to do so. It is the
    first for all attributes on a path from the field, and they come from one
    declaration. -/
theorem exists_first (hdot : r.Undotted p) {parents : List Attributes}
    (hparents : ∀ as ∈ parents, Coherent h p r as) {field : String} (hdotted : '.' ∉ field.toList)
    (hfield : ∃ as ∈ parents, as.has field = true) :
    ∃ d f, Declares h p r d f ∧ f.name = field ∧
      ∀ a ∈ block h p r d f, parents.findSome? (·.get? a.name) = some a := by
  obtain ⟨first, hfirst⟩ := Option.isSome_iff_exists.1 (List.find?_isSome.2 hfield)
  obtain ⟨hhas, before, after, rfl, hbefore⟩ := List.find?_eq_some_iff_append.1 hfirst
  have hc := hparents first (by simp)
  obtain ⟨top, htop, rfl⟩ := Attributes.has_iff.1 hhas
  have hroot : top.root? = some top.name :=
    Attribute.root?_eq_of_path (((hc.wellNamed hdot htop).name_eq_iff hdotted).1 rfl)
  obtain ⟨d, f, hd, hroot', hshows⟩ := hc.declared top htop
  have hname : f.name = top.name := Option.some.inj (hroot'.symm.trans hroot)
  refine ⟨d, f, hd, hname, fun a ha => ?_⟩
  obtain ⟨hnamed, hroot, _⟩ := hd.of_mem_block hdot ha
  have hnone : before.findSome? (·.get? a.name) = none := by
    refine List.findSome?_eq_none_iff.2 fun as has => ?_
    refine Attributes.get?_eq_none_iff.2 (Bool.eq_false_iff.2 fun hhas => ?_)
    obtain ⟨b, hb, hb'⟩ := Attributes.has_iff.1 hhas
    -- then an earlier parent would show the field
    have hc := hparents as (List.mem_append_left _ has)
    have hshown : as.has top.name = true := by
      refine hc.has_of_root hb ?_
      rw [Attribute.root?, (hc.wellNamed hdot hb).path_eq hnamed hb', ← hname]
      exact hroot
    simpa [hshown] using hbefore as has
  rw [List.findSome?_append, hnone, Option.none_or, List.findSome?_cons,
    (Attributes.get?_eq_some_iff hc.nodup).2 ⟨(hshows a hroot).2 ha, rfl⟩]

/-! ### Inheriting components -/

variable {key : TypeKey} {parents : List Attributes} {own : Attributes}

/-- Where a type declares a field itself, all attributes on a path from it are own ones
    by their names, or are replaced. -/
theorem has_or_replaced (hdot : r.Undotted p) (hown : Coherent h p r own) {field : String}
    (hfield : own.has field = true) {a : Attribute} (ha : a.WellNamed)
    (hroot : a.root? = some field) : own.has a.name = true ∨ Replaced own a := by
  obtain ⟨top, htop, rfl⟩ := Attributes.has_iff.1 hfield
  cases hn : a.isNested with
  | true =>
    have hpath := ((hown.wellNamed hdot htop).name_eq_iff (ha.undotted_of_root hroot)).1 rfl
    exact .inr ⟨hn, top, htop, Attribute.isNested_eq_false_of_path hpath, hroot⟩
  | false =>
    have hname : a.name = top.name := Option.some.inj
      ((Attribute.root?_eq_of_path (ha.path_eq_singleton hn)).symm.trans hroot)
    exact .inl (hname ▸ hfield)

/-- The first parent that shows a field agrees in its shape with all others, unless
    the type declares the field itself. -/
theorem agrees_first (has : Catalogue.inherit key parents own = .ok as) {d : TypeDescriptor}
    {f : Field} (hfield : own.has f.name = false)
    (hfirst : ∀ a ∈ block h p r d f, parents.findSome? (·.get? a.name) = some a)
    {parent : Attributes} (hparent : parent ∈ parents) {top : Attribute} (htop : top ∈ parent)
    (hname : top.name = f.name) :
    (attributeOf h p d.key {} f).shape.agrees top.shape = true := by
  have hget := hfirst _ (attributeOf_mem_block d f)
  rw [name_attributeOf, ← hname] at hget
  refine agrees_of_inherit has hparent htop hget (hname ▸ hfield) fun ⟨hn, _⟩ => ?_
  exact absurd hn (Bool.eq_false_iff.1 (Attribute.isNested_eq_false_of_path rfl))

section Inherit

variable (hdot : r.Undotted p) (hown : Coherent h p r own)
  (has : Catalogue.inherit key parents own = .ok as)
include hdot hown has

/-- Where a type declares a field itself, it has no other attributes on a path
    from it. -/
theorem mem_inherit_of_has {field : String} (hfield : own.has field = true) {a : Attribute}
    (ha : a.WellNamed) (hroot : a.root? = some field) : a ∈ as ↔ a ∈ own := by
  rw [mem_inherit has hown.nodup]
  refine or_iff_left ?_
  rintro ⟨_, hnot, hkept⟩
  rcases hown.has_or_replaced hdot hfield ha hroot with hhas | hreplaced
  · exact Bool.eq_false_iff.1 hnot hhas
  · exact hkept hreplaced

/-- Where it does not, it has those that a parent is the first to show. -/
theorem mem_inherit_of_not_has {field : String} (hfield : own.has field = false) {a : Attribute}
    (ha : a.WellNamed) (hroot : a.root? = some field) :
    a ∈ as ↔ parents.findSome? (·.get? a.name) = some a := by
  have hother : ∀ b ∈ own, b.root? ≠ some field := fun b hb hroot =>
    Bool.eq_false_iff.1 hfield (hown.has_of_root hb hroot)
  rw [mem_inherit has hown.nodup]
  constructor
  · rintro (ha | ⟨hfirst, _⟩)
    · exact absurd hroot (hother a ha)
    · exact hfirst
  · intro hfirst
    refine .inr ⟨hfirst, Bool.eq_false_iff.2 fun hname => ?_, ?_⟩
    · obtain ⟨b, hb, hname⟩ := Attributes.has_iff.1 hname
      refine hother b hb ?_
      rwa [Attribute.root?, (hown.wellNamed hdot hb).path_eq ha hname]
    · rintro ⟨_, b, hb, hn, hroot'⟩
      have hpath := (hown.wellNamed hdot hb).path_eq_singleton hn
      exact hother b hb (by rw [Attribute.root?_eq_of_path hpath, ← hroot', hroot])

variable (hparents : ∀ as ∈ parents, Coherent h p r as)
include hparents

theorem wellNamed_inherit {a : Attribute} (ha : a ∈ as) : a.WellNamed := by
  rcases (mem_inherit has hown.nodup).1 ha with ha | ⟨hfirst, _⟩
  · exact hown.wellNamed hdot ha
  · obtain ⟨parent, hparent, hmem, _⟩ := Attributes.exists_mem_of_findSome?_eq_some hfirst
    exact (hparents parent hparent).wellNamed hdot hmem

/-- A type shows each field that a parent shows. The shapes of both agree, unless
    the type declares the field itself. -/
theorem exists_top_inherit {parent : Attributes} (hparent : parent ∈ parents) {top : Attribute}
    (htop : top ∈ parent) {field : String} (hpath : top.path = [field]) :
    ∃ top' ∈ as, top'.path = [field] ∧
      (own.has field = true ∨ top'.shape.agrees top.shape = true) := by
  have hnamed := (hparents parent hparent).wellNamed hdot htop
  have hdotted := hnamed.undotted_of_root (Attribute.root?_eq_of_path hpath)
  have hname := (hnamed.name_eq_iff hdotted).2 hpath
  cases hfield : own.has field with
  | true =>
    obtain ⟨top', htop', hname'⟩ := Attributes.has_iff.1 hfield
    refine ⟨top', (mem_inherit has hown.nodup).2 (.inl htop'), ?_, .inl rfl⟩
    exact ((hown.wellNamed hdot htop').name_eq_iff hdotted).1 hname'
  | false =>
    obtain ⟨d, f, hd, rfl, hfirst⟩ := exists_first hdot hparents hdotted
      ⟨parent, hparent, Attributes.has_iff.2 ⟨top, htop, hname⟩⟩
    have htop' := attributeOf_mem_block (h := h) (p := p) (r := r) d f
    obtain ⟨hnamed', hroot', _⟩ := hd.of_mem_block hdot htop'
    refine ⟨_, (mem_inherit_of_not_has hdot hown has hfield hnamed' hroot').2 (hfirst _ htop'), rfl,
      .inr ?_⟩
    exact agrees_first has hfield hfirst hparent htop hname

/-- Where a type does not declare a field itself, it shows the component that the
    first parent shows. -/
theorem shows_inherit_of_first {d : TypeDescriptor} {f : Field} (hd : Declares h p r d f)
    (hfield : own.has f.name = false)
    (hfirst : ∀ a ∈ block h p r d f, parents.findSome? (·.get? a.name) = some a) :
    Shows h p r as d f := by
  intro a hroot
  constructor
  · intro ha
    have hnamed := wellNamed_inherit hdot hown has hparents ha
    have hget := (mem_inherit_of_not_has hdot hown has hfield hnamed hroot).1 ha
    obtain ⟨parent, hparent, hmem, _⟩ := Attributes.exists_mem_of_findSome?_eq_some hget
    obtain ⟨d', f', hd', hroot', hshows'⟩ := (hparents parent hparent).declared a hmem
    have hname : f.name = f'.name := Option.some.inj (hroot.symm.trans hroot')
    -- the first parent agrees with this one, so it has an attribute of the same name there
    have hagrees := agrees_first has hfield hfirst hparent
      ((hshows' _ rfl).2 (attributeOf_mem_block d' f')) ((name_attributeOf ..).trans hname.symm)
    obtain ⟨b, hb, hname, _⟩ :=
      hd.exists_mem_block hdot hd' hname hagrees ((hshows' a hroot').1 hmem)
    have hget' := hfirst b hb
    rw [hname, hget] at hget'
    exact Option.some.inj hget' ▸ hb
  · intro ha
    have hnamed := (hd.of_mem_block hdot ha).1
    exact (mem_inherit_of_not_has hdot hown has hfield hnamed hroot).2 (hfirst a ha)

/-- If the parents of a type show whole components, then so does the type. -/
theorem inherit : Coherent h p r as := by
  have hnamed {a : Attribute} (ha : a ∈ as) := wellNamed_inherit hdot hown has hparents ha
  refine ⟨nodup_names_inherit has, fun a ha => ?_⟩
  obtain ⟨field, hroot, hdotted⟩ := (hnamed ha).exists_root
  cases hfield : own.has field with
  | true =>
    have hmem {b : Attribute} (hb : b.WellNamed) (hroot : b.root? = some field) :=
      mem_inherit_of_has hdot hown has hfield hb hroot
    obtain ⟨d, f, hd, hroot', hshows⟩ := hown.declared a ((hmem (hnamed ha) hroot).1 ha)
    obtain rfl := Option.some.inj (hroot.symm.trans hroot')
    refine ⟨d, f, hd, hroot, fun b hb => ⟨fun hb' => ?_, fun hb' => ?_⟩⟩
    · exact (hshows b hb).1 ((hmem (hnamed hb') hb).1 hb')
    · exact (hmem (hd.of_mem_block hdot hb').1 hb).2 ((hshows b hb).2 hb')
  | false =>
    have hget := (mem_inherit_of_not_has hdot hown has hfield (hnamed ha) hroot).1 ha
    obtain ⟨parent, hparent, hmem, _⟩ := Attributes.exists_mem_of_findSome?_eq_some hget
    have hhas := (hparents parent hparent).has_of_root hmem hroot
    obtain ⟨d, f, hd, rfl, hfirst⟩ := exists_first hdot hparents hdotted ⟨parent, hparent, hhas⟩
    exact ⟨d, f, hd, hroot, shows_inherit_of_first hdot hown has hparents hd hfield hfirst⟩

end Inherit

end Coherent

/-! ### Catalogues of a hierarchy -/

theorem coherent_ownAttributes (hdot : r.Undotted p) {k : TypeKey} {d : TypeDescriptor}
    (hd : p.describe? k = some d) {own : Attributes} (hown : ownAttributes h p r d = .ok own) :
    Coherent h p r own := by
  obtain ⟨heq, hnd, _⟩ := ownAttributes_eq_ok hown
  obtain rfl := (Discovery.key_of_describe? hd).1
  refine ⟨hnd, fun a ha => ?_⟩
  rw [heq, List.mem_flatMap] at ha
  obtain ⟨f, hf, ha⟩ := ha
  have hdeclares : Declares h p r d f := ⟨hd, ⟨own, hown⟩, hf⟩
  refine ⟨d, f, hdeclares, (hdeclares.of_mem_block hdot ha).2.1, fun b hb => ?_⟩
  rw [← under_ownAttributes hdot hd hown hf, Attributes.mem_under, and_iff_left hb]

variable (h p r) in
/-- The attributes on a path from the given one, which is not nested, are those
    that its field makes among the own attributes of the type that declares it. -/
def FromDeclaration (as : Attributes) (top : Attribute) : Prop :=
  ∃ d own f, p.describe? top.declaredBy = some d ∧ ownAttributes h p r d = .ok own ∧
    f ∈ r.stored d ∧ f.name = top.name ∧
    (flatten h p r d.key p.depthBound {} {} f).Yields ⟨own.under f.name, []⟩ ∧
    (as.under f.name).Perm (own.under f.name)

variable (h p r) in
/-- The catalogue holds whole components. -/
structure HoldsComponents (c : Catalogue) : Prop where
  /-- No attribute is nested in a component that is not there. -/
  top : ∀ a ∈ c.attributes, ∃ top ∈ c.attributes, top.isNested = false ∧ a.root? = some top.name
  /-- The attributes of a component come from one declaration, all of them. -/
  declared : ∀ top ∈ c.attributes, top.isNested = false → FromDeclaration h p r c.attributes top

theorem Coherent.holdsComponents (hdot : r.Undotted p) {c : Catalogue}
    (hc : Coherent h p r c.attributes) : c.HoldsComponents h p r := by
  constructor
  · intro a ha
    obtain ⟨field, hroot, hdotted⟩ := (hc.wellNamed hdot ha).exists_root
    obtain ⟨top, htop, rfl⟩ := Attributes.has_iff.1 (hc.has_of_root ha hroot)
    have hpath := ((hc.wellNamed hdot htop).name_eq_iff hdotted).1 rfl
    exact ⟨top, htop, Attribute.isNested_eq_false_of_path hpath, hroot⟩
  · intro top htop hn
    obtain ⟨d, f, hd, hname, rfl, hshows⟩ :=
      hc.exists_declares hdot htop ((hc.wellNamed hdot htop).path_eq_singleton hn)
    obtain ⟨own, hown⟩ := hd.own
    have hunder : own.under f.name = block h p r d f :=
      under_ownAttributes hdot hd.described hown hd.stored
    refine ⟨d, own, f, hd.described, hown, hd.stored, hname, ?_, ?_⟩
    · exact hunder ▸ (ownAttributes_eq_ok hown).2.2 f hd.stored
    · have hnd {as : Attributes} (has : as.names.Nodup) : (as.under f.name).Nodup :=
        (List.Nodup.of_map _ has).filter _
      refine (List.perm_ext_iff_of_nodup (hnd hc.nodup) (hnd (ownAttributes_eq_ok hown).2.1)).2 ?_
      intro a
      rw [hunder, Attributes.mem_under]
      constructor
      · exact fun ⟨ha, hroot⟩ => (hshows a hroot).1 ha
      · intro ha
        have hroot := (hd.of_mem_block hdot ha).2.1
        exact ⟨(hshows a hroot).2 ha, hroot⟩

end Catalogue

namespace Metadata

variable {h : Hierarchy} {p : Discovery} {r : FieldReader} {q : List Requirement} {m : Metadata}

theorem ownAttributes_eq_ok {n : Node} {own : Attributes} (hown : ownAttributes h p r n = .ok own) :
    own = [] ∨ ∃ d, p.describe? n.key = some d ∧ Catalogue.ownAttributes h p r d = .ok own := by
  rw [ownAttributes] at hown
  cases hd : p.describe? n.key with
  | some d =>
    rw [hd] at hown
    exact .inr ⟨d, rfl, hown⟩
  | none =>
    simp only [hd] at hown
    split_ifs at hown
    exact .inl (Except.ok.inj hown).symm

theorem coherent_ownAttributes (hdot : r.Undotted p) {n : Node} {own : Attributes}
    (hown : ownAttributes h p r n = .ok own) : Catalogue.Coherent h p r own := by
  rcases ownAttributes_eq_ok hown with rfl | ⟨d, hd, hown⟩
  · exact ⟨List.nodup_nil, fun a ha => absurd ha List.not_mem_nil⟩
  · exact Catalogue.coherent_ownAttributes hdot hd hown

/-- By induction along the parents: a catalogue is made from coherent ones. -/
theorem MadeFor.coherent {root : TypeKey} (hw : h.WellFormed root) (hdot : r.Undotted p)
    {done : List TypeKey} (hmade : MadeFor h p r done m) : ∀ n ∈ h.nodes, n.key ∈ done →
      ∀ cat, m.get? n.key = some cat → Catalogue.Coherent h p r cat.attributes := by
  refine hw.parents_induction fun n hn ih hdone cat hcat => ?_
  obtain ⟨cat', own, hcat', hown, has⟩ := hmade.exists_catalogue hn hdone
  obtain rfl := Option.some.inj (hcat'.symm.trans hcat)
  refine (coherent_ownAttributes hdot hown).inherit hdot has fun as has => ?_
  obtain ⟨k, hk, cat, hcat, rfl⟩ := mem_parentsOf.1 has
  obtain ⟨parent, hparent, rfl⟩ := hw.exists_parent hn hk
  exact ih parent (hw.mem_parents.2 ⟨hparent, hk⟩) (hmade.closed n hn hdone hk) cat hcat

theorem MadeFor.coherent_parentsOf {root : TypeKey} (hw : h.WellFormed root)
    (hdot : r.Undotted p) {done : List TypeKey} (hmade : MadeFor h p r done m) {n : Node}
    (hn : n ∈ h.nodes) (hparents : n.parents ⊆ done) :
    ∀ as ∈ m.parentsOf n, Catalogue.Coherent h p r as := by
  intro as has
  obtain ⟨k, hk, cat, hcat, rfl⟩ := mem_parentsOf.1 has
  obtain ⟨parent, hparent, rfl⟩ := hw.exists_parent hn hk
  exact hmade.coherent hw hdot parent hparent (hparents hk) cat hcat

theorem coherent_of_build {root : TypeKey} (hw : h.WellFormed root) (hdot : r.Undotted p)
    (hm : build h p r q = .ok m) : ∀ n ∈ h.nodes, ∀ cat, m.get? n.key = some cat →
      Catalogue.Coherent h p r cat.attributes := by
  obtain ⟨done, hdone, hmade⟩ := exists_madeFor hw hm
  exact fun n hn => hmade.coherent hw hdot n hn (hdone n hn)

/-- Each type of the hierarchy has a catalogue of whole components: the attributes
    on a path from one field are those that the field makes in the type that
    declares it, all of them and no others. -/
theorem components_of_build (hs : h.Sealed) (hdot : r.Undotted p) (hm : build h p r q = .ok m)
    {k : TypeKey} (hk : h.contains k = true) :
    ∃ cat, m.get? k = some cat ∧ cat.HoldsComponents h p r := by
  obtain ⟨root, hw⟩ := hs.wellFormed
  obtain ⟨n, hn, rfl⟩ := hw.contains_iff.1 hk
  obtain ⟨cat, _, hcat, _⟩ := exists_catalogue hw hm hn
  exact ⟨cat, hcat, (coherent_of_build hw hdot hm n hn cat hcat).holdsComponents hdot⟩

/-! ### Depots -/

namespace Depots

/-- The type of sites. -/
def site : TypeKey := ⟨"Site"⟩

/-- The type of depots. -/
def depot : TypeKey := ⟨"Depot"⟩

/-- Depots are sites. The address of a site is a value object, and that of a depot
    is one of another type. -/
def discovery : Discovery where
  root := ⟨"Resource"⟩
  described := [
    { key := ⟨"Address"⟩
      kind := .valueObject
      fields := [⟨"street", .scalar "text", .empty⟩, ⟨"city", .scalar "text", .empty⟩] },
    { key := ⟨"Gate"⟩
      kind := .valueObject
      fields := [⟨"street", .scalar "text", .empty⟩, ⟨"number", .scalar "number", .empty⟩] },
    { key := site
      kind := .classType
      superclass := some ⟨"Resource"⟩
      fields := [⟨"name", .scalar "text", .empty⟩, ⟨"address", .named ⟨"Address"⟩, .empty⟩] },
    { key := depot
      kind := .classType
      superclass := some site
      fields := [⟨"address", .named ⟨"Gate"⟩, .empty⟩] }]
  find _ := .ok []

/-- The hierarchy of sites and depots. -/
def hierarchy : Hierarchy :=
  .built discovery

theorem undotted : FieldReader.ofDescriptor.Undotted discovery :=
  FieldReader.undotted_of_described (by decide +kernel)

theorem exists_build : ∃ m, build hierarchy discovery .ofDescriptor [] = .ok m :=
  ⟨_, rfl⟩

/-- A depot shows the parts of its gate, and nothing of an address but the name. -/
example : ((build hierarchy discovery .ofDescriptor []).toOption.bind (·.get? depot)).map
    Catalogue.names = some ["name", "address", "address.street", "address.number"] := by
  decide +kernel

end Depots

open Depots in
theorem components_of_build_depots :
    hierarchy.Sealed ∧ FieldReader.ofDescriptor.Undotted discovery ∧
      hierarchy.contains depot = true ∧
      ∃ m cat, build hierarchy discovery .ofDescriptor [] = .ok m ∧ m.get? depot = some cat ∧
        cat.HoldsComponents hierarchy discovery .ofDescriptor := by
  have hs : hierarchy.Sealed := Hierarchy.sealed_built discovery
  have hk : hierarchy.contains depot = true := by decide +kernel
  obtain ⟨m, hm⟩ := exists_build
  obtain ⟨cat, hcat, hholds⟩ := components_of_build hs undotted hm hk
  exact ⟨hs, undotted, hk, m, cat, hm, hcat, hholds⟩

end Metadata

end Lineage
