import Lineage.Proofs.Catalogue.Declarations
import Lineage.Proofs.Catalogue.Descent

/-!
# When merging fails

Whether the catalogue of a type can be made is told by what its parents show and what the type
declares, without following the steps of the merge (`Metadata.outcome_of_catalogueOf`). The
order of the parents does not matter, although the merge keeps to it:

* a conflict is only met with the first attribute of a name, but attributes that agree with the
  first one agree with each other (`Catalogue.inConflict_iff`);
* a conflict about a nested attribute is only reported if the component is inherited, and then
  the parents disagree about the component too (`Catalogue.Coherent.exists_top_of_disagree`);
* an own attribute is compared with what has been put among the inherited ones so far, but under
  its name there is what the first parent shows (`Catalogue.not_fits_iff`).
-/

namespace Lineage

namespace Catalogue

variable {h : Hierarchy} {p : Discovery} {r : FieldReader} {key : TypeKey}
  {parents : List Attributes} {own as : Attributes} {name : String} {a b : Attribute}

/-! ### Parents that disagree -/

/-- A parent shows the attribute under the name. -/
def ShownBy (parents : List Attributes) (name : String) (a : Attribute) : Prop :=
  ∃ as ∈ parents, as.get? name = some a

/-- The name is shown in shapes that do not agree. -/
def Disputed (shown : String → Attribute → Prop) (name : String) : Prop :=
  ∃ a b, shown name a ∧ shown name b ∧ a.shape.agrees b.shape = false

theorem shownBy_iff (hnd : ∀ as ∈ parents, as.names.Nodup) :
    ShownBy parents name a ↔ a ∈ parents.flatten ∧ a.name = name := by
  rw [ShownBy, List.mem_flatten]
  constructor
  · rintro ⟨as, has, ha⟩
    exact ⟨⟨as, has, (Attributes.of_get?_eq_some ha).1⟩, (Attributes.of_get?_eq_some ha).2⟩
  · rintro ⟨⟨as, has, ha⟩, hname⟩
    exact ⟨as, has, (Attributes.get?_eq_some_iff (hnd as has)).2 ⟨ha, hname⟩⟩

theorem shownBy_of_findSome? (ha : parents.findSome? (·.get? name) = some a) :
    ShownBy parents name a :=
  List.exists_of_findSome?_eq_some ha

theorem ShownBy.exists_first (ha : ShownBy parents name a) :
    ∃ b, parents.findSome? (·.get? name) = some b := by
  obtain ⟨as, has, ha⟩ := ha
  exact Option.isSome_iff_exists.1 (List.findSome?_isSome_iff.2 ⟨as, has, ha ▸ rfl⟩)

/-- The merge is in conflict about a name if any two parents disagree, not only the first one
    that shows it with another. -/
theorem inConflict_iff (hnd : ∀ as ∈ parents, as.names.Nodup) :
    (Merge.ofParents parents).inConflict name = true ↔ Disputed (ShownBy parents) name := by
  have hm := Merge.merged_ofParents parents
  rw [Merge.inConflict, List.any_eq_true]
  simp only [decide_eq_true_iff]
  constructor
  · rintro ⟨c, hc, rfl⟩
    obtain ⟨a, ha, b, hb, hbetween⟩ := Merge.exists_between_of_mem_conflicts hc
    refine ⟨a, b, (shownBy_iff hnd).2 ⟨ha, hbetween.name_first⟩,
      (shownBy_iff hnd).2 ⟨hb, hbetween.name_second⟩, ?_⟩
    rw [hbetween.first, hbetween.second, hbetween.disagree]
  · rintro ⟨a, b, ha, hb, hdisagree⟩
    by_contra hnone
    obtain ⟨first, hfirst⟩ := ha.exists_first
    rw [← Attributes.get?_flatten] at hfirst
    have hagrees {c : Attribute} (hc : ShownBy parents name c) :
        first.shape.agrees c.shape = true := by
      obtain ⟨hmem, rfl⟩ := (shownBy_iff hnd).1 hc
      exact (hm.agrees_or_conflict c hmem first hfirst).resolve_right hnone
    exact Bool.false_ne_true (hdisagree.symm.trans
      (Shape.agrees_trans (Shape.agrees_symm (hagrees ha)) (hagrees hb)))

/-! ### Components that parents show -/

/-- Where two types declare a field in shapes that agree, all attributes that it makes agree. -/
theorem Declares.agrees_of_mem_block (hdot : r.Undotted p) {d d' : TypeDescriptor} {f f' : Field}
    (hd : Declares h p r d f) (hd' : Declares h p r d' f') (hname : f.name = f'.name)
    (hagrees : (attributeOf h p d.key {} f).shape.agrees (attributeOf h p d'.key {} f').shape =
      true) (ha : a ∈ block h p r d f) (hb : b ∈ block h p r d' f') (hab : a.name = b.name) :
    a.shape.agrees b.shape = true := by
  obtain ⟨hkind, htype⟩ : (attributeOf h p d.key {} f).kind = (attributeOf h p d'.key {} f').kind ∧
    (_ → f.valueType = f'.valueType) := Shape.agrees_iff.1 hagrees
  by_cases hcomponent : (attributeOf h p d.key {} f).kind = .component
  · -- the other one makes an attribute of the same path and shape, and has one of each name
    have hprofile : a.profile ∈ (block h p r d' f').map Attribute.profile := by
      rw [block, ← map_profile_expand rfl hname (htype hcomponent)]
      exact List.mem_map_of_mem ha
    obtain ⟨b', hb', he⟩ := List.mem_map.1 hprofile
    obtain ⟨own, hown⟩ := hd'.own
    have hunder := under_ownAttributes hdot hd'.described hown hd'.stored
    have hmem {c : Attribute} (hc : c ∈ block h p r d' f') : c ∈ own :=
      (Attributes.mem_under.1 (hunder ▸ hc)).1
    have hsame : b'.name = b.name := by
      rw [← hab, (hd'.of_mem_block hdot hb').1.name_eq, (hd.of_mem_block hdot ha).1.name_eq]
      exact congrArg _ (congrArg Prod.fst he)
    obtain rfl := List.inj_on_of_nodup_map (ownAttributes_eq_ok hown).2.1 (hmem hb') (hmem hb) hsame
    have hshape : b'.shape = a.shape := congrArg Prod.snd he
    exact hshape ▸ Shape.agrees_refl _
  · -- there are only the attributes of the fields themselves
    rw [block, Discovery.depthBound, expand_eq_singleton hcomponent] at ha
    rw [block, Discovery.depthBound, expand_eq_singleton (hkind ▸ hcomponent)] at hb
    rwa [List.mem_singleton.1 ha, List.mem_singleton.1 hb]

/-- Where two lists of whole components disagree about an attribute, they disagree about the one
    of the field from which it is reached. -/
theorem Coherent.exists_top_of_disagree (hdot : r.Undotted p) {as bs : Attributes}
    (hc : Coherent h p r as) (hc' : Coherent h p r bs) (ha : a ∈ as) (hb : b ∈ bs)
    (hab : a.name = b.name) (hdisagree : a.shape.agrees b.shape = false) :
    ∃ field, a.root? = some field ∧ ∃ top ∈ as, ∃ top' ∈ bs, top.name = field ∧
      top'.name = field ∧ top.isNested = false ∧ top'.isNested = false ∧
      top.shape.agrees top'.shape = false := by
  obtain ⟨d, f, hd, hroot, hshows⟩ := hc.declared a ha
  obtain ⟨d', f', hd', hroot', hshows'⟩ := hc'.declared b hb
  have hname : f.name = f'.name := by
    rw [Attribute.root?, (hc.wellNamed hdot ha).path_eq (hc'.wellNamed hdot hb) hab] at hroot
    exact Option.some.inj (hroot.symm.trans hroot')
  refine ⟨f.name, hroot, attributeOf h p d.key {} f, (hshows _ rfl).2 (attributeOf_mem_block d f),
    attributeOf h p d'.key {} f', (hshows' _ rfl).2 (attributeOf_mem_block d' f'),
    name_attributeOf .., (name_attributeOf ..).trans hname.symm,
    Attribute.isNested_eq_false_of_path rfl, Attribute.isNested_eq_false_of_path rfl, ?_⟩
  refine Bool.eq_false_iff.2 fun hagrees => Bool.false_ne_true (hdisagree.symm.trans ?_)
  exact hd.agrees_of_mem_block hdot hd' hname hagrees ((hshows a hroot).1 ha)
    ((hshows' b hroot').1 hb) hab

/-- A name is shown, not as that of nested attributes, in shapes that do not agree, and it is not
    declared. -/
def Unsettled (shown : String → Attribute → Prop) (declared : String → Prop) : Prop :=
  ∃ name, ¬ declared name ∧ ∃ a b, shown name a ∧ shown name b ∧ a.isNested = false ∧
    b.isNested = false ∧ a.shape.agrees b.shape = false

/-- An attribute that is inherited, if it has no own one of its name, is on a path from a field
    that the type does not declare. -/
theorem has_eq_false_of_root (hdot : r.Undotted p) (hparents : ∀ as ∈ parents, Coherent h p r as)
    (hown : Coherent h p r own) (hnot : own.has name = false)
    (hhas : (dropReplaced (Merge.ofParents parents).attributes own).has name = true)
    (ha : a.WellNamed) (hname : a.name = name) {field : String} (hroot : a.root? = some field) :
    own.has field = false := by
  obtain ⟨x, hx, rfl⟩ := Attributes.has_iff.1 hhas
  obtain ⟨hx, hkept⟩ := mem_dropReplaced.1 hx
  obtain ⟨as, has, hmem, _⟩ :=
    Attributes.exists_mem_of_findSome?_eq_some (Merge.mem_attributes_ofParents.1 hx)
  have hnamed := (hparents as has).wellNamed hdot hmem
  rw [Attribute.root?, ha.path_eq hnamed hname] at hroot
  refine Bool.eq_false_iff.2 fun hfield => ?_
  rcases hown.has_or_replaced hdot hfield hnamed hroot with hown | hreplaced
  · exact Bool.eq_false_iff.1 hnot hown
  · exact hkept.elim (Bool.eq_false_iff.1 hnot) fun hkept => hkept hreplaced

/-- These are the conflicts that are reported, or those from which these come. -/
theorem exists_conflict_iff (hdot : r.Undotted p) (hparents : ∀ as ∈ parents, Coherent h p r as)
    (hown : Coherent h p r own) :
    (∃ c ∈ (Merge.ofParents parents).conflicts, own.has c.name = false ∧
      (dropReplaced (Merge.ofParents parents).attributes own).has c.name = true) ↔
      Unsettled (ShownBy parents) (own.has · = true) := by
  have hnd : ∀ as ∈ parents, as.names.Nodup := fun as has => (hparents as has).nodup
  constructor
  · rintro ⟨c, hc, hnot, hhas⟩
    obtain ⟨a, ha, b, hb, hbetween⟩ := Merge.exists_between_of_mem_conflicts hc
    obtain ⟨as, has, ha⟩ := List.mem_flatten.1 ha
    obtain ⟨bs, hbs, hb⟩ := List.mem_flatten.1 hb
    have hdisagree : a.shape.agrees b.shape = false := by
      rw [hbetween.first, hbetween.second, hbetween.disagree]
    obtain ⟨field, hroot, top, htop, top', htop', hname, hname', hn, hn', htops⟩ :=
      (hparents as has).exists_top_of_disagree hdot (hparents bs hbs) ha hb
        (hbetween.name_first.trans hbetween.name_second.symm) hdisagree
    have hfield := has_eq_false_of_root hdot hparents hown hnot hhas
      ((hparents as has).wellNamed hdot ha) hbetween.name_first hroot
    exact ⟨field, Bool.eq_false_iff.1 hfield, top, top',
      (shownBy_iff hnd).2 ⟨List.mem_flatten_of_mem has htop, hname⟩,
      (shownBy_iff hnd).2 ⟨List.mem_flatten_of_mem hbs htop', hname'⟩, hn, hn', htops⟩
  · rintro ⟨name, hnot, a, b, ha, hb, hn, _, hdisagree⟩
    obtain ⟨c, hc, rfl⟩ : ∃ c ∈ (Merge.ofParents parents).conflicts, c.name = name := by
      simpa [Merge.inConflict] using (inConflict_iff hnd).2 ⟨a, b, ha, hb, hdisagree⟩
    refine ⟨c, hc, Bool.eq_false_iff.2 hnot, ?_⟩
    -- the first attribute of the name is not nested either, so it is not dropped
    obtain ⟨first, hfirst⟩ := ha.exists_first
    obtain ⟨hmem, hname⟩ := (shownBy_iff hnd).1 ha
    obtain ⟨as, has, hmem⟩ := List.mem_flatten.1 hmem
    obtain ⟨bs, hbs, hmem', hname'⟩ := Attributes.exists_mem_of_findSome?_eq_some hfirst
    have hpath := ((hparents as has).wellNamed hdot hmem).path_eq
      ((hparents bs hbs).wellNamed hdot hmem') (hname.trans hname'.symm)
    refine Attributes.has_iff.2 ⟨first, mem_dropReplaced.2 ⟨?_, .inr fun hreplaced => ?_⟩, hname'⟩
    · exact Merge.mem_attributes_ofParents.2 (hname' ▸ hfirst)
    · rw [Attribute.isNested, hpath] at hn
      exact Bool.false_ne_true (hn.symm.trans hreplaced.1)

/-! ### Declaring again -/

/-- An own attribute may be put among the inherited ones. -/
def Fits (m : Merge) (as : Attributes) (a : Attribute) : Prop :=
  ∀ b, as.get? a.name = some b → m.inConflict a.name = true ∨ b.kind = a.kind

theorem redeclare_of_fits {m : Merge} (hfits : Fits m as a) :
    redeclare key m as a = .ok (as.put a) := by
  rw [redeclare]
  split
  · rfl
  next b hb => exact if_pos (by simpa using hfits b hb)

theorem redeclare_of_not_fits (key : TypeKey) {m : Merge} (hfits : ¬ Fits m as a) :
    ∃ x, redeclare key m as a = .error (.incompatibleRedeclaration key a.name x a.kind) := by
  simp only [Fits, not_forall] at hfits
  obtain ⟨b, hb, hnot⟩ := hfits
  refine ⟨b.kind, ?_⟩
  rw [redeclare, hb]
  exact if_neg (by simpa using hnot)

/-- Whether an attribute fits does not depend on the own attributes that come before it, because
    they have other names. So all of them fit, or one of them is reported. -/
theorem foldlM_redeclare_cases (key : TypeKey) (m : Merge) (as : Attributes)
    (hown : own.names.Nodup) :
    (∀ a ∈ own, Fits m as a) ∧ (∃ as', own.foldlM (redeclare key m) as = .ok as') ∨
      ∃ a ∈ own, ¬ Fits m as a ∧ ∃ x, own.foldlM (redeclare key m) as =
        .error (.incompatibleRedeclaration key a.name x a.kind) := by
  induction own generalizing as with
  | nil => exact .inl ⟨fun _ ha => absurd ha List.not_mem_nil, as, rfl⟩
  | cons a own ih =>
    obtain ⟨hnew, hown⟩ := List.nodup_cons.1 hown
    by_cases hfits : Fits m as a
    · have hsame : ∀ c ∈ own, (Fits m (as.put a) c ↔ Fits m as c) := fun c hc => by
        have hne : a.name ≠ c.name := fun e => hnew (e ▸ List.mem_map_of_mem hc)
        rw [Fits, Fits, Attributes.get?_put_of_ne hne]
      rw [List.foldlM_cons, redeclare_of_fits hfits, ok_bind]
      obtain ⟨hall, hok⟩ | ⟨c, hc, hnot, herror⟩ := ih (as.put a) hown
      · exact .inl ⟨List.forall_mem_cons.2 ⟨hfits, fun c hc => (hsame c hc).1 (hall c hc)⟩, hok⟩
      · exact .inr ⟨c, List.mem_cons_of_mem a hc, mt (hsame c hc).2 hnot, herror⟩
    · obtain ⟨x, hx⟩ := redeclare_of_not_fits key hfits
      exact .inr ⟨a, List.mem_cons_self, hfits, x, by rw [List.foldlM_cons, hx, error_bind]⟩

/-- The name of an attribute is shown, in shapes that agree, but in another kind. -/
structure Misfit (shown : String → Attribute → Prop) (a : Attribute) : Prop where
  exists_shown : ∃ b, shown a.name b
  undisputed : ¬ Disputed shown a.name
  kind_ne : ∀ b, shown a.name b → b.kind ≠ a.kind

theorem get?_dropReplaced_of_has (parents : List Attributes) (hname : own.has name = true) :
    (dropReplaced (Merge.ofParents parents).attributes own).get? name =
      parents.findSome? (·.get? name) := by
  have hnd := (Merge.merged_ofParents parents).nodup
  have hkept : (dropReplaced (Merge.ofParents parents).attributes own).names.Nodup :=
    hnd.sublist (List.filter_sublist.map _)
  ext a
  rw [Attributes.get?_eq_some_iff hkept, mem_dropReplaced,
    ← Merge.get?_attributes_ofParents, Attributes.get?_eq_some_iff hnd]
  exact ⟨fun ⟨⟨ha, _⟩, e⟩ => ⟨ha, e⟩, fun ⟨ha, e⟩ => ⟨⟨ha, .inl (e ▸ hname)⟩, e⟩⟩

theorem not_fits_iff (hnd : ∀ as ∈ parents, as.names.Nodup) (ha : a ∈ own) :
    ¬ Fits (Merge.ofParents parents)
      (dropReplaced (Merge.ofParents parents).attributes own) a ↔ Misfit (ShownBy parents) a := by
  have hhas : own.has a.name = true := Attributes.has_iff.2 ⟨a, ha, rfl⟩
  rw [Fits, get?_dropReplaced_of_has parents hhas, inConflict_iff hnd]
  simp only [not_forall, not_or]
  constructor
  · rintro ⟨b, hb, hagree, hkind⟩
    refine ⟨⟨b, shownBy_of_findSome? hb⟩, hagree, fun c hc => ?_⟩
    have hbc : b.shape.agrees c.shape = true := by
      refine Bool.not_eq_false _ ▸ fun hdisagree => hagree ?_
      exact ⟨b, c, shownBy_of_findSome? hb, hc, hdisagree⟩
    have hkinds : b.kind = c.kind := (Shape.agrees_iff.1 hbc).1
    exact hkinds ▸ hkind
  · rintro ⟨⟨b, hb⟩, hagree, hkind⟩
    obtain ⟨first, hfirst⟩ := hb.exists_first
    exact ⟨first, hfirst, hagree, hkind first (shownBy_of_findSome? hfirst)⟩

/-- How merging comes out. -/
theorem inherit_cases (key : TypeKey) (hdot : r.Undotted p)
    (hparents : ∀ as ∈ parents, Coherent h p r as) (hown : Coherent h p r own) :
    Unsettled (ShownBy parents) (own.has · = true) ∧
        (∃ name x y, inherit key parents own =
          .error (.conflictingInheritance key name x y)) ∨
      ¬ Unsettled (ShownBy parents) (own.has · = true) ∧
        (∃ a ∈ own, Misfit (ShownBy parents) a) ∧
        (∃ name x y, inherit key parents own =
          .error (.incompatibleRedeclaration key name x y)) ∨
      ¬ Unsettled (ShownBy parents) (own.has · = true) ∧
        (¬ ∃ a ∈ own, Misfit (ShownBy parents) a) ∧
        ∃ as, inherit key parents own = .ok as := by
  have hnd : ∀ as ∈ parents, as.names.Nodup := fun as has => (hparents as has).nodup
  rw [← exists_conflict_iff hdot hparents hown]
  simp only [inherit]
  split
  next c hfind =>
    have hc := List.find?_some hfind
    rw [Bool.and_eq_true, Bool.not_eq_true'] at hc
    exact .inl ⟨⟨c, List.mem_of_find?_eq_some hfind, hc⟩, _, _, _, rfl⟩
  next hnone =>
    refine .inr ?_
    have hno : ¬ ∃ c ∈ (Merge.ofParents parents).conflicts, own.has c.name = false ∧
        (dropReplaced (Merge.ofParents parents).attributes own).has c.name = true := by
      rintro ⟨c, hc, hnot, hhas⟩
      simpa [hnot, hhas] using List.find?_eq_none.1 hnone c hc
    obtain ⟨hall, hok⟩ | ⟨a, ha, hnot, x, herror⟩ := foldlM_redeclare_cases key
      (Merge.ofParents parents) (dropReplaced (Merge.ofParents parents).attributes own) hown.nodup
    · refine .inr ⟨hno, ?_, hok⟩
      rintro ⟨a, ha, hmisfit⟩
      exact (not_fits_iff hnd ha).2 hmisfit (hall a ha)
    · exact .inl ⟨hno, ⟨a, ha, (not_fits_iff hnd ha).1 hnot⟩, _, _, _, herror⟩

end Catalogue

namespace Metadata

variable {h : Hierarchy} {p : Discovery} {r : FieldReader} {m : Metadata} {n : Node}
  {own : Attributes}

/-! ### The parents of a type -/

/-- A parent of the type shows the attribute under the name. -/
def ShownAbove (m : Metadata) (n : Node) (name : String) (a : Attribute) : Prop :=
  ∃ k ∈ n.parents, m.shown? k name = some a

theorem shownBy_parentsOf (m : Metadata) (n : Node) :
    Catalogue.ShownBy (m.parentsOf n) = m.ShownAbove n := by
  funext name a
  simp only [Catalogue.ShownBy, ShownAbove, mem_parentsOf, shown?, Option.bind_eq_some_iff]
  refine propext ⟨?_, ?_⟩
  · rintro ⟨_, ⟨k, hk, cat, hcat, rfl⟩, ha⟩
    exact ⟨k, hk, cat, hcat, ha⟩
  · rintro ⟨k, hk, cat, hcat, ha⟩
    exact ⟨_, ⟨k, hk, cat, hcat, rfl⟩, ha⟩

theorem shownAbove_of_perm (m : Metadata) {ps : List TypeKey} (hps : ps.Perm n.parents) :
    m.ShownAbove { n with parents := ps } = m.ShownAbove n := by
  funext name a
  simp only [ShownAbove, hps.mem_iff]

theorem ownAttributes_of_perm {ps : List TypeKey} (hps : ps.Perm n.parents) :
    ownAttributes h p r { n with parents := ps } = ownAttributes h p r n := by
  have hroot : Node.isRoot { n with parents := ps } = n.isRoot := by
    rw [Node.isRoot, Node.isRoot, hps.isEmpty_eq]
  rw [ownAttributes, ownAttributes, hroot]

/-- Of the names without a dot, a type has own attributes for those of its stored fields. -/
theorem has_iff_stores (hdot : r.Undotted p) (hown : ownAttributes h p r n = .ok own)
    {name : String} (hname : '.' ∉ name.toList) :
    own.has name = true ↔ r.Stores p n.key name := by
  refine ⟨stores_of_has hdot hown hname, ?_⟩
  rintro ⟨d, f, hd, hf, rfl⟩
  exact Attributes.has_iff.2 ⟨_, Attributes.of_get?_eq_some (get?_ownAttributes hown hd hf)⟩

theorem unsettled_iff (hdot : r.Undotted p)
    (hparents : ∀ as ∈ m.parentsOf n, Catalogue.Coherent h p r as)
    (hown : ownAttributes h p r n = .ok own) :
    Catalogue.Unsettled (Catalogue.ShownBy (m.parentsOf n)) (own.has · = true) ↔
      Catalogue.Unsettled (m.ShownAbove n) (r.Stores p n.key) := by
  rw [← shownBy_parentsOf]
  refine exists_congr fun name => and_congr_left ?_
  rintro ⟨a, _, ⟨as, has, ha⟩, _, hn, _⟩
  -- the name is that of an attribute that is not nested, so there is no dot in it
  obtain ⟨hmem, rfl⟩ := Attributes.of_get?_eq_some ha
  have hnamed := (hparents as has).wellNamed hdot hmem
  have hpath := hnamed.path_eq_singleton hn
  have hname := hnamed.undotted a.name (hpath ▸ List.mem_singleton_self a.name)
  exact not_congr (has_iff_stores hdot hown hname)

/-! ### Making a catalogue -/

theorem catalogueOf_eq (hown : ownAttributes h p r n = .ok own) :
    catalogueOf h p r m n = (Catalogue.inherit n.key (m.parentsOf n) own).map
      fun attributes => { key := n.key, isAbstract := n.isAbstract, attributes } := by
  rw [catalogueOf, hown]
  rfl

theorem catalogueOf_cases (hdot : r.Undotted p)
    (hparents : ∀ as ∈ m.parentsOf n, Catalogue.Coherent h p r as)
    (hown : ownAttributes h p r n = .ok own) :
    Catalogue.Unsettled (m.ShownAbove n) (r.Stores p n.key) ∧
        (∃ name x y, catalogueOf h p r m n =
          .error (.conflictingInheritance n.key name x y)) ∨
      ¬ Catalogue.Unsettled (m.ShownAbove n) (r.Stores p n.key) ∧
        (∃ a ∈ own, Catalogue.Misfit (m.ShownAbove n) a) ∧
        (∃ name x y, catalogueOf h p r m n =
          .error (.incompatibleRedeclaration n.key name x y)) ∨
      ¬ Catalogue.Unsettled (m.ShownAbove n) (r.Stores p n.key) ∧
        (¬ ∃ a ∈ own, Catalogue.Misfit (m.ShownAbove n) a) ∧
        ∃ cat, catalogueOf h p r m n = .ok cat := by
  have hcases := Catalogue.inherit_cases n.key hdot hparents (coherent_ownAttributes hdot hown)
  rw [unsettled_iff hdot hparents hown, shownBy_parentsOf] at hcases
  rw [catalogueOf_eq hown]
  obtain ⟨hodds, _, _, _, he⟩ | ⟨hodds, hmisfit, _, _, _, he⟩ | ⟨hodds, hfit, _, he⟩ := hcases
  · exact .inl ⟨hodds, _, _, _, by rw [he]; rfl⟩
  · exact .inr (.inl ⟨hodds, hmisfit, _, _, _, by rw [he]; rfl⟩)
  · exact .inr (.inr ⟨hodds, hfit, _, by rw [he]; rfl⟩)

/-- Once the catalogues of its parents have been made, that of a type is made from these and its
    own attributes, in one of three ways:

    * it fails with a conflict if and only if two parents show an attribute that is not nested in
      shapes that do not agree, and the type declares no stored field of that name;
    * otherwise it fails with a redeclaration if and only if some own attribute, nested or not, is
      of another kind than all parents that show its name, and these agree in its shape;
    * otherwise it succeeds, and own attributes replace those of the first parents that show
      their names, and all that are nested in a component that they replace.

    Which one it is does not depend on the order of the parents. -/
theorem outcome_of_catalogueOf (hs : h.Sealed) (hdot : r.Undotted p) {done : List TypeKey}
    (hmade : MadeFor h p r done m) (hn : n ∈ h.nodes) (hparents : n.parents ⊆ done)
    (hown : ownAttributes h p r n = .ok own) {ps : List TypeKey} (hps : ps.Perm n.parents) :
    let made := catalogueOf h p r m { n with parents := ps }
    ((∃ name x y, made = .error (.conflictingInheritance n.key name x y)) ↔
      Catalogue.Unsettled (m.ShownAbove n) (r.Stores p n.key)) ∧
    ((∃ name x y, made = .error (.incompatibleRedeclaration n.key name x y)) ↔
      ¬ Catalogue.Unsettled (m.ShownAbove n) (r.Stores p n.key) ∧
        ∃ a ∈ own, Catalogue.Misfit (m.ShownAbove n) a) ∧
    ((∃ cat, made = .ok cat) ↔
      ¬ Catalogue.Unsettled (m.ShownAbove n) (r.Stores p n.key) ∧
        ¬ ∃ a ∈ own, Catalogue.Misfit (m.ShownAbove n) a) ∧
    ∀ cat, made = .ok cat → ∀ name, cat.get? name = (own.get? name).or
      ((ps.findSome? (m.shown? · name)).filter fun a => ¬ Catalogue.Replaced own a) := by
  intro made
  obtain ⟨root, hw⟩ := hs.wellFormed
  have hown' : ownAttributes h p r { n with parents := ps } = .ok own :=
    (ownAttributes_of_perm hps).trans hown
  have hcoherent : ∀ as ∈ m.parentsOf { n with parents := ps }, Catalogue.Coherent h p r as := by
    intro as has
    obtain ⟨k, hk, hcat⟩ := mem_parentsOf.1 has
    exact hmade.coherent_parentsOf hw hdot hn hparents as
      (mem_parentsOf.2 ⟨k, hps.mem_iff.1 hk, hcat⟩)
  have hcases := catalogueOf_cases hdot hcoherent hown'
  rw [shownAbove_of_perm m hps] at hcases
  simp only [← and_assoc]
  refine ⟨?_, fun cat hcat name => ?_⟩
  · -- the three ways exclude each other
    obtain ⟨hodds, _, _, _, he⟩ | ⟨hodds, hmisfit, _, _, _, he⟩ | ⟨hodds, hfit, _, he⟩ := hcases
    · simp [made, he, hodds]
    · simp [made, he, hodds, hmisfit]
    · simp [made, he, hodds, hfit]
  · obtain ⟨_, own', hown'', has⟩ := catalogueOf_eq_ok hcat
    obtain rfl := Except.ok.inj (hown'.symm.trans hown'')
    rw [Catalogue.get?, Catalogue.get?_inherit has (nodup_names_ownAttributes hown),
      findSome?_parentsOf]

/-! ### Electric cars with two drives -/

namespace Vehicles

/-- Cars have an engine, and what runs on electricity has a motor. -/
def withMotors : Discovery :=
  ofElectric motor

/-- The hierarchy of electric cars. -/
def hierarchy : Hierarchy :=
  .built withMotors

theorem exists_ownAttributes : ∀ n ∈ hierarchy.nodes, ∃ own,
    ownAttributes hierarchy withMotors .ofDescriptor n = .ok own := by
  have hall : ∀ n ∈ hierarchy.nodes,
      (ownAttributes hierarchy withMotors .ofDescriptor n).toOption.isSome = true := by
    decide +kernel
  intro n hn
  have hok := hall n hn
  revert hok
  cases ownAttributes hierarchy withMotors .ofDescriptor n with
  | ok own => exact fun _ => ⟨own, rfl⟩
  | error e => exact fun hok => nomatch hok

end Vehicles

open Vehicles in
/-- Electric cars are cars and run on electricity. Whichever of the two comes first, there is a
    conflict. -/
theorem outcome_of_catalogueOf_electricCar :
    ∃ done m n own, hierarchy.Sealed ∧ FieldReader.ofDescriptor.Undotted withMotors ∧
      MadeFor hierarchy withMotors .ofDescriptor done m ∧ n ∈ hierarchy.nodes ∧
      n.parents ⊆ done ∧ ownAttributes hierarchy withMotors .ofDescriptor n = .ok own ∧
      [electric, car].Perm n.parents ∧
      Catalogue.Unsettled (m.ShownAbove n) (FieldReader.ofDescriptor.Stores withMotors n.key) ∧
      ∃ name x y, catalogueOf hierarchy withMotors .ofDescriptor m
        { n with parents := [electric, car] } =
          .error (.conflictingInheritance electricCar name x y) := by
  have hs : hierarchy.Sealed := Hierarchy.sealed_built withMotors
  obtain ⟨root, hw⟩ := hs.wellFormed
  have hdot : FieldReader.ofDescriptor.Undotted withMotors :=
    FieldReader.undotted_of_described (by decide +kernel)
  have hfail : build hierarchy withMotors .ofDescriptor [] =
    .error (.conflictingInheritance electricCar "drive" ⟨.component, .named ⟨"Engine"⟩⟩
      ⟨.component, .named ⟨"Motor"⟩⟩) := rfl
  obtain ⟨_, _, _, he⟩ | ⟨done, m, n, hn, hparents, hmade, herror⟩ :=
    exists_of_build_eq_error hw hfail
  · exact nomatch he
  obtain ⟨own, hown⟩ := exists_ownAttributes n hn
  obtain herror' | ⟨_, _, hinherit⟩ := catalogueOf_eq_error herror
  · exact nomatch hown.symm.trans herror'
  obtain ⟨hkey, _⟩ := Catalogue.inherit_eq_conflictingInheritance hinherit
  have hps : [electric, car].Perm n.parents := by
    have hall : ∀ n ∈ hierarchy.nodes, n.key = electricCar → [electric, car].Perm n.parents := by
      decide +kernel
    exact hall n hn hkey.symm
  have hodds := (outcome_of_catalogueOf hs hdot hmade hn hparents hown (.refl n.parents)).1.1
    ⟨_, _, _, hkey ▸ herror⟩
  have hswapped := (outcome_of_catalogueOf hs hdot hmade hn hparents hown hps).1.2 hodds
  exact ⟨done, m, n, own, hs, hdot, hmade, hn, hparents, hown, hps, hodds, hkey ▸ hswapped⟩

open Vehicles in
/-- A car does not have a text for its drive, because vehicles have an engine. -/
example :
    let p := discovery [⟨"drive", .scalar "text", .empty⟩] []
    build (.built p) p .ofDescriptor [] =
      .error (.incompatibleRedeclaration car "drive" .component .plain) :=
  rfl

end Metadata

end Lineage
