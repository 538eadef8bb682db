import Lineage.Proofs.Catalogue.Components

/-!
# What types show of their ancestors

A type shows each field that an ancestor shows, and with it all attributes on a
path from the field, in the same kinds. Only where a type in between, or the type
itself, declares a field of the name may the attributes be others
(`Metadata.inherits_of_build`).

It is enough to follow the fields step by step to the parents
(`Metadata.exists_top_of_isAncestor`): if no step changes the shape of a field,
then the components that the two ends show have the same attributes, because
both of them are whole.
-/

namespace Lineage

/-- The type is described and declares a stored field of the name. -/
def FieldReader.Stores (r : FieldReader) (p : Discovery) (k : TypeKey) (field : String) : Prop :=
  ∃ d f, p.describe? k = some d ∧ f ∈ r.stored d ∧ f.name = field

/-- Where two lists of whole components show a field in shapes that agree, the
    attributes on a path from the field are there under the same names and in the
    same kinds. -/
theorem Catalogue.Coherent.exists_same_kind {h : Hierarchy} {p : Discovery} {r : FieldReader}
    (hdot : r.Undotted p) {as as' : Attributes} (hc : Coherent h p r as)
    (hc' : Coherent h p r as') {field : String} {top top' : Attribute} (htop : top ∈ as)
    (htop' : top' ∈ as') (hpath : top.path = [field]) (hpath' : top'.path = [field])
    (hagrees : top'.shape.agrees top.shape = true) {a : Attribute} (ha : a ∈ as)
    (hroot : a.root? = some field) : ∃ b, as'.get? a.name = some b ∧ b.kind = a.kind := by
  obtain ⟨d, f, hd, rfl, rfl, hshows⟩ := hc.exists_declares hdot htop hpath
  obtain ⟨d', f', hd', hname, rfl, hshows'⟩ := hc'.exists_declares hdot htop' hpath'
  -- both show what their declarations make, and these make attributes of the same names
  obtain ⟨b, hb, hbname, hkind⟩ :=
    hd'.exists_mem_block hdot hd hname hagrees ((hshows a hroot).1 ha)
  have hb' := (hshows' b (hd'.of_mem_block hdot hb).2.1).2 hb
  exact ⟨b, (Attributes.get?_eq_some_iff hc'.nodup).2 ⟨hb', hbname⟩, hkind⟩

namespace Metadata

variable {h : Hierarchy} {p : Discovery} {r : FieldReader} {q : List Requirement} {m : Metadata}
  {root : TypeKey}

variable (h p r) in
/-- A type below the ancestor, the second type or one above it, declares a stored
    field of the name itself. -/
def Redeclared (ancestor k : TypeKey) (field : String) : Prop :=
  ∃ u, (u = k ∨ h.IsAncestor u k) ∧ h.IsAncestor ancestor u ∧ r.Stores p u field

theorem stores_of_has (hdot : r.Undotted p) {n : Node} {own : Attributes}
    (hown : ownAttributes h p r n = .ok own) {field : String} (hdotted : '.' ∉ field.toList)
    (hfield : own.has field = true) : r.Stores p n.key field := by
  obtain ⟨a, ha, rfl⟩ := Attributes.has_iff.1 hfield
  rcases ownAttributes_eq_ok hown with rfl | ⟨d, hd, hown⟩
  · exact absurd ha List.not_mem_nil
  · rw [(Catalogue.ownAttributes_eq_ok hown).1, List.mem_flatMap] at ha
    obtain ⟨f, hf, ha⟩ := ha
    obtain ⟨hnamed, hroot, _⟩ := Catalogue.of_mem_block hdot hd hf ha
    have hpath := (hnamed.name_eq_iff hdotted).1 rfl
    exact ⟨d, f, hd, hf, Option.some.inj (hroot.symm.trans (Attribute.root?_eq_of_path hpath))⟩

section Built

variable (hw : h.WellFormed root) (hdot : r.Undotted p) (hm : build h p r q = .ok m)
include hw hdot hm

/-- One step: a type shows the fields of its parents, in the shapes of the parents
    unless it declares them itself. -/
theorem exists_top_of_isParent {parent k : TypeKey} (hp : h.IsParent parent k)
    {above cat : Catalogue} (habove : m.get? parent = some above) (hcat : m.get? k = some cat)
    {top : Attribute} (htop : top ∈ above.attributes) {field : String}
    (hpath : top.path = [field]) :
    ∃ top' ∈ cat.attributes, top'.path = [field] ∧
      (r.Stores p k field ∨ top'.shape.agrees top.shape = true) := by
  obtain ⟨n, hn, rfl, hparent⟩ := hp
  obtain ⟨cat', own, hcat', hown, has⟩ := exists_catalogue hw hm hn
  obtain rfl := Option.some.inj (hcat'.symm.trans hcat)
  obtain ⟨done, hdone, hmade⟩ := exists_madeFor hw hm
  have hparents := hmade.coherent_parentsOf hw hdot hn (hmade.closed n hn (hdone n hn))
  have hmem : above.attributes ∈ m.parentsOf n :=
    mem_parentsOf.2 ⟨parent, hparent, above, habove, rfl⟩
  have hdotted := ((hparents _ hmem).wellNamed hdot htop).undotted_of_root
    (Attribute.root?_eq_of_path hpath)
  obtain ⟨top', htop', hpath', hagrees⟩ :=
    (coherent_ownAttributes hdot hown).exists_top_inherit hdot has hparents hmem htop hpath
  exact ⟨top', htop', hpath', hagrees.imp_left (stores_of_has hdot hown hdotted)⟩

/-- Any number of steps: the fields stay, and their shapes do, unless they are
    declared again on the way. -/
theorem exists_top_of_isAncestor {ancestor k : TypeKey} (ha : h.IsAncestor ancestor k)
    {above cat : Catalogue} (habove : m.get? ancestor = some above) (hcat : m.get? k = some cat)
    {top : Attribute} (htop : top ∈ above.attributes) {field : String}
    (hpath : top.path = [field]) :
    ∃ top' ∈ cat.attributes, top'.path = [field] ∧
      (Redeclared h p r ancestor k field ∨ top'.shape.agrees top.shape = true) := by
  induction ha generalizing cat with
  | single hp =>
    obtain ⟨top', htop', hpath', hagrees⟩ :=
      exists_top_of_isParent hw hdot hm hp habove hcat htop hpath
    exact ⟨top', htop', hpath', hagrees.imp_left fun hstores => ⟨_, .inl rfl, .single hp, hstores⟩⟩
  | tail ha hp ih =>
    obtain ⟨n, hn, _, _, rfl, _⟩ := hw.exists_of_isParent hp
    obtain ⟨mid, _, hmid, _⟩ := exists_catalogue hw hm hn
    obtain ⟨top₁, htop₁, hpath₁, hagrees₁⟩ := ih hmid
    obtain ⟨top₂, htop₂, hpath₂, hagrees₂⟩ :=
      exists_top_of_isParent hw hdot hm hp hmid hcat htop₁ hpath₁
    refine ⟨top₂, htop₂, hpath₂, ?_⟩
    rcases hagrees₁ with ⟨u, hu, hau, hstores⟩ | hagrees₁
    · -- declared again before this step
      exact .inl ⟨u, .inr (hp.isAncestor hu), hau, hstores⟩
    · exact hagrees₂.imp (fun hstores => ⟨_, .inl rfl, ha.tail hp, hstores⟩)
        fun hagrees₂ => Shape.agrees_trans hagrees₂ hagrees₁

end Built

variable (h p r) in
/-- What the catalogue of a type has of that of an ancestor. -/
structure Inherits (ancestor k : TypeKey) (above cat : Catalogue) : Prop where
  /-- All attributes that are not nested. -/
  top : ∀ a ∈ above.attributes, a.isNested = false → cat.has a.name = true
  /-- Each attribute, in the same kind, unless the field from which it is reached is
      declared again on the way. -/
  same_kind : ∀ a ∈ above.attributes, (∃ b, cat.get? a.name = some b ∧ b.kind = a.kind) ∨
    ∃ field, a.root? = some field ∧ Redeclared h p r ancestor k field

/-- A type shows what its ancestors show, each attribute in the same kind, unless
    a type in between or the type itself declares the field again from which the
    attribute is reached. In any case it shows a field of that name. -/
theorem inherits_of_build (hs : h.Sealed) (hdot : r.Undotted p) (hm : build h p r q = .ok m)
    {ancestor k : TypeKey} (ha : h.IsAncestor ancestor k) :
    ∃ above cat, m.get? ancestor = some above ∧ m.get? k = some cat ∧
      Inherits h p r ancestor k above cat := by
  obtain ⟨root, hw⟩ := hs.wellFormed
  obtain ⟨t, ht, n, hn, rfl, rfl, _⟩ := hw.exists_of_isAncestor ha
  obtain ⟨above, _, habove, _⟩ := exists_catalogue hw hm ht
  obtain ⟨cat, _, hcat, _⟩ := exists_catalogue hw hm hn
  have hcabove := coherent_of_build hw hdot hm t ht above habove
  have hccat := coherent_of_build hw hdot hm n hn cat hcat
  refine ⟨above, cat, habove, hcat, ?_, ?_⟩
  · intro a hmem hnested
    have hnamed := hcabove.wellNamed hdot hmem
    have hpath := hnamed.path_eq_singleton hnested
    obtain ⟨top, htop, hpath', _⟩ :=
      exists_top_of_isAncestor hw hdot hm ha habove hcat hmem hpath
    refine Attributes.has_iff.2 ⟨top, htop, ?_⟩
    rw [(hccat.wellNamed hdot htop).name_eq, hnamed.name_eq, hpath, hpath']
  · intro a hmem
    obtain ⟨top, htop, hnested, hroot⟩ := (hcabove.holdsComponents hdot).top a hmem
    have hpath := (hcabove.wellNamed hdot htop).path_eq_singleton hnested
    obtain ⟨top', htop', hpath', hagrees⟩ :=
      exists_top_of_isAncestor hw hdot hm ha habove hcat htop hpath
    rcases hagrees with hredeclared | hagrees
    · exact .inr ⟨top.name, hroot, hredeclared⟩
    · exact .inl (hcabove.exists_same_kind hdot hccat htop htop' hpath hpath' hagrees hmem hroot)

theorem Depots.isAncestor : Depots.hierarchy.IsAncestor Depots.site Depots.depot := by
  refine .single ?_
  unfold Hierarchy.IsParent
  decide +kernel

open Depots in
theorem inherits_of_build_depots :
    hierarchy.Sealed ∧ FieldReader.ofDescriptor.Undotted discovery ∧
      hierarchy.IsAncestor site depot ∧
      ∃ m above cat, build hierarchy discovery .ofDescriptor [] = .ok m ∧
        m.get? site = some above ∧ m.get? depot = some cat ∧
        Inherits hierarchy discovery .ofDescriptor site depot above cat := by
  have hs : hierarchy.Sealed := Hierarchy.sealed_built discovery
  obtain ⟨m, hm⟩ := exists_build
  obtain ⟨above, cat, habove, hcat, hinherits⟩ := inherits_of_build hs undotted hm isAncestor
  exact ⟨hs, undotted, isAncestor, m, above, cat, hm, habove, hcat, hinherits⟩

end Metadata

end Lineage
