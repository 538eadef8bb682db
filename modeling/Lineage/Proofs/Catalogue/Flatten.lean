import Lineage.Catalogue.Flatten
import Lineage.Proofs.Bounded
import Lineage.Proofs.Catalogue.Attributes
import Lineage.Proofs.Fallible
import Lineage.Proofs.Hierarchy.Cycles
import Mathlib.Data.List.Flatten

/-!
# What fields are flattened to

Flattening a field appends attributes that do not depend on those that are there
already (`Catalogue.expand`, `Catalogue.appends_flatten`): the attribute of the
field itself, and those nested in it. Whatever is opened on the way is closed
again, so the field beside it finds the same value objects open as this one did
(`Catalogue.opened_eq_of_yields_flatten`).

The paths of what is appended start with the path of the field
(`Catalogue.of_mem_expand`). Which paths and shapes there are depends on the
name of the field and the value object it holds, but not on the type that
declares it (`Catalogue.map_profile_expand`).

So the attributes that a type declares itself fall into one block for each of its
stored fields (`Catalogue.ownAttributes_eq_ok`), and a block holds all that are on
a path from its field (`Catalogue.under_ownAttributes`).
-/

namespace Lineage

/-- The fields of a type that are part of the stored state of its instances. -/
def FieldReader.stored (r : FieldReader) (d : TypeDescriptor) : List Field :=
  (r.fields d).filter Field.isPersistent

/-- No described type has a field with a dot in its name. -/
def FieldReader.Undotted (r : FieldReader) (p : Discovery) : Prop :=
  ∀ k d, p.describe? k = some d → ∀ f ∈ r.declared d ++ r.fields d, '.' ∉ f.name.toList

theorem FieldReader.undotted_of_described {r : FieldReader} {p : Discovery}
    (hdot : ∀ d ∈ p.described, ∀ f ∈ r.declared d ++ r.fields d, '.' ∉ f.name.toList) :
    r.Undotted p :=
  fun _ d hd => hdot d (Discovery.key_of_describe? hd).2

/-- The path and the kind of an attribute. -/
def Attribute.outline (a : Attribute) : List String × AttributeKind :=
  (a.path, a.kind)

/-- The path and the shape of an attribute. -/
def Attribute.profile (a : Attribute) : List String × Shape :=
  (a.path, a.shape)

namespace Catalogue

variable {h : Hierarchy} {p : Discovery} {r : FieldReader}

theorem Flattening.leave_cons (as : Attributes) (k : TypeKey) (ks : List TypeKey) :
    leave ⟨as, k :: ks⟩ k = ⟨as, ks⟩ := by
  rw [leave, List.erase_cons_head]

/-! ### Appending -/

/-- The step appends the given attributes, keeps names distinct, and leaves the value objects
    that are open as they are. With fewer attributes there before, it does the same. -/
def Appends (step : Flattening → Bounded ConfigurationFault Flattening) (new : Attributes) :
    Prop :=
  ∀ t t', (step t).Yields t' →
    t' = ⟨t.attributes ++ new, t.opened⟩ ∧
      (t.attributes.names.Nodup → t'.attributes.names.Nodup) ∧
      ∀ as, as ⊆ t.attributes → (step ⟨as, t.opened⟩).Yields ⟨as ++ new, t.opened⟩

theorem Appends.foldlM {step : Flattening → Field → Bounded ConfigurationFault Flattening}
    {new : Field → Attributes} {fs : List Field}
    (hstep : ∀ f ∈ fs, Appends (fun t => step t f) (new f)) :
    Appends (fun t => fs.foldlM step t) (fs.flatMap new) := by
  induction fs with
  | nil =>
    intro t t' ht
    obtain rfl := Bounded.yields_pure.1 ht
    refine ⟨?_, id, fun as _ => Bounded.yields_pure.2 ?_⟩
    · rw [List.flatMap_nil, List.append_nil]
    · rw [List.flatMap_nil, List.append_nil]
  | cons f fs ih =>
    intro t t' ht
    rcases List.forall_mem_cons.1 hstep with ⟨hf, hfs⟩
    simp only [List.foldlM_cons, Bounded.yields_bind, List.flatMap_cons, ← List.append_assoc]
      at ht ⊢
    obtain ⟨t₁, ht₁, ht⟩ := ht
    obtain ⟨rfl, hnd₁, hless₁⟩ := hf t t₁ ht₁
    obtain ⟨rfl, hnd, hless⟩ := ih hfs _ t' ht
    refine ⟨rfl, fun h => hnd (hnd₁ h), fun as has => ⟨_, hless₁ as has, hless _ ?_⟩⟩
    exact Attributes.append_subset_append has (new f)

/-- Every step of a loop can be taken alone, with the same value objects open. -/
theorem Appends.yields_of_foldlM
    {step : Flattening → Field → Bounded ConfigurationFault Flattening}
    {new : Field → Attributes} {fs : List Field}
    (hstep : ∀ f ∈ fs, Appends (fun t => step t f) (new f)) {t t' : Flattening}
    (ht : (fs.foldlM step t).Yields t') :
    ∀ f ∈ fs, (step ⟨[], t.opened⟩ f).Yields ⟨new f, t.opened⟩ := by
  induction fs generalizing t with
  | nil => exact fun f hf => absurd hf List.not_mem_nil
  | cons f fs ih =>
    rcases List.forall_mem_cons.1 hstep with ⟨hf, hfs⟩
    rw [List.foldlM_cons, Bounded.yields_bind] at ht
    obtain ⟨t₁, hfirst, hrest⟩ := ht
    obtain ⟨rfl, _, hless⟩ := hf t t₁ hfirst
    have hlast := ih hfs hrest
    exact List.forall_mem_cons.2 ⟨hless [] (List.nil_subset _), hlast⟩

/-! ### Flattening a field -/

variable (h p r) in
/-- The attributes that a field makes in its scope, its own first and then those
    nested in it, down to the given depth. -/
def expand (owner : TypeKey) : Nat → Scope → Field → Attributes
  | 0, _, _ => []
  | depth + 1, scope, f =>
    let a := attributeOf h p owner scope f
    a :: match (classify h p f.valueType).2 with
      | none => []
      | some d => ((r.declared d).filter Field.isPersistent).flatMap
          (expand owner depth (.inside a))

theorem expand_succ (owner : TypeKey) (depth : Nat) (scope : Scope) (f : Field) :
    expand h p r owner (depth + 1) scope f = attributeOf h p owner scope f ::
      match (classify h p f.valueType).2 with
      | none => []
      | some d => ((r.declared d).filter Field.isPersistent).flatMap
          (expand h p r owner depth (.inside (attributeOf h p owner scope f))) :=
  rfl

/-- What is flattened is a described value object that is no resource type. -/
theorem classify_snd_eq_some {t : ValueType} {d : TypeDescriptor} :
    (classify h p t).2 = some d ↔
      ∃ k, t = .named k ∧ h.contains k = false ∧ p.describe? k = some d ∧
        d.kind = .valueObject := by
  cases t with
  | scalar s => simp [classify]
  | named k => grind [classify]
  | collection t | array t => cases t <;> grind [classify]

/-- Components are the attributes that are flattened. -/
theorem classify_fst_eq_component {t : ValueType} :
    (classify h p t).1 = .component ↔ (classify h p t).2.isSome = true := by
  cases t with
  | scalar s => simp [classify]
  | named k => grind [classify]
  | collection t | array t => cases t <;> grind [classify]

/-- When flattening a field succeeds: its name is new, and if it holds a value object then that is
    not open, and its fields are flattened while it is. -/
theorem yields_flatten_succ {owner : TypeKey} {depth : Nat} {scope : Scope} {t t' : Flattening}
    {f : Field} :
    (flatten h p r owner (depth + 1) scope t f).Yields t' ↔
      t.attributes.has (attributeOf h p owner scope f).name = false ∧
        match (classify h p f.valueType).2 with
        | none => t' = t.add (attributeOf h p owner scope f)
        | some d => t.opened.contains d.key = false ∧
          ∃ t₁, (((r.declared d).filter Field.isPersistent).foldlM
            (flatten h p r owner depth (.inside (attributeOf h p owner scope f)))
            ((t.add (attributeOf h p owner scope f)).enter d.key)).Yields t₁ ∧
              t' = t₁.leave d.key := by
  rw [flatten]
  cases t.attributes.has (attributeOf h p owner scope f).name with
  | true => exact iff_of_false (Bounded.not_yields_throw) fun h => nomatch h.1
  | false =>
    refine Iff.trans ?_ (and_iff_right rfl).symm
    cases (classify h p f.valueType).2 with
    | none => exact Bounded.yields_pure.trans eq_comm
    | some d =>
      dsimp only [Flattening.add]
      cases t.opened.contains d.key with
      | true => exact iff_of_false (Bounded.not_yields_throw) fun h => nomatch h.1
      | false =>
        refine Iff.trans ?_ (and_iff_right rfl).symm
        refine Bounded.yields_bind.trans (exists_congr fun t₁ => and_congr_right fun _ => ?_)
        exact Bounded.yields_pure.trans eq_comm

/-- Flattening a field appends the attributes that it makes. What is opened on the way is closed
    again, by induction on the depth. -/
theorem appends_flatten (owner : TypeKey) (depth : Nat) (scope : Scope) (f : Field) :
    Appends (fun t => flatten h p r owner depth scope t f)
      (expand h p r owner depth scope f) := by
  induction depth generalizing scope f with
  | zero => exact fun _ _ ht => nomatch ht
  | succ depth ih =>
    intro t t' ht
    obtain ⟨hnew, hrest⟩ := yields_flatten_succ.1 ht
    simp only [yields_flatten_succ, expand_succ]
    cases hd : (classify h p f.valueType).2 with
    | none =>
      simp only [hd] at hrest ⊢
      subst hrest
      refine ⟨rfl, fun hnd => ?_, fun as has => ?_⟩
      · exact Attributes.nodup_names_append_singleton hnd hnew
      · exact ⟨Attributes.has_eq_false_of_subset has hnew, rfl⟩
    | some d =>
      simp only [hd] at hrest ⊢
      obtain ⟨hopened, t₁, hnested, rfl⟩ := hrest
      -- the attribute of the field is there before those nested in it, and while these are made
      -- the value object is open
      obtain ⟨rfl, hnd', hless⟩ := Appends.foldlM (fun g _ => ih _ g) _ t₁ hnested
      refine ⟨?_, fun hnd => ?_, fun as has => ?_⟩
      · rw [List.append_cons]
        exact Flattening.leave_cons ..
      · exact hnd' (Attributes.nodup_names_append_singleton hnd hnew)
      · have hsub := Attributes.append_subset_append has [attributeOf h p owner scope f]
        refine ⟨Attributes.has_eq_false_of_subset has hnew, hopened, _, hless _ hsub, ?_⟩
        rw [List.append_cons]
        exact (Flattening.leave_cons ..).symm

/-- If flattening succeeds, it gives back the value objects that were open before. -/
theorem opened_eq_of_yields_flatten {owner : TypeKey} {depth : Nat} {scope : Scope}
    {t t' : Flattening} {f : Field} (ht : (flatten h p r owner depth scope t f).Yields t') :
    t'.opened = t.opened := by
  rw [(appends_flatten owner depth scope f t t' ht).1]

/-! ### The attributes of a field -/

/-- What is known of an attribute that a field makes in its scope. -/
structure MadeBy (owner : TypeKey) (scope : Scope) (f : Field) (a : Attribute) : Prop where
  path : ∃ rest, a.path = scope.path ++ f.name :: rest
  wellNamed : a.WellNamed
  declaredBy : a.declaredBy = owner

/-- The paths of all attributes that a field makes start with its own. -/
theorem of_mem_expand (hdot : r.Undotted p) {owner : TypeKey} {depth : Nat} {scope : Scope}
    {f : Field} (hscope : ∀ s ∈ scope.path, '.' ∉ s.toList) (hf : '.' ∉ f.name.toList)
    {a : Attribute} (ha : a ∈ expand h p r owner depth scope f) : MadeBy owner scope f a := by
  induction depth generalizing scope f with
  | zero => exact absurd ha List.not_mem_nil
  | succ depth ih =>
    have hpath : ∀ s ∈ (attributeOf h p owner scope f).path, '.' ∉ s.toList := by
      intro s hs
      rcases List.mem_append.1 hs with hs | hs
      · exact hscope s hs
      · exact List.mem_singleton.1 hs ▸ hf
    rw [expand_succ] at ha
    rcases List.mem_cons.1 ha with rfl | ha
    · exact ⟨⟨[], rfl⟩, ⟨rfl, by simp [attributeOf], hpath⟩, rfl⟩
    · cases hd : (classify h p f.valueType).2 with
      | none =>
        rw [hd] at ha
        exact absurd ha List.not_mem_nil
      | some d =>
        simp only [hd, List.mem_flatMap, List.mem_filter] at ha
        obtain ⟨g, ⟨hg, _⟩, ha⟩ := ha
        obtain ⟨k, _, _, hk, _⟩ := classify_snd_eq_some.1 hd
        obtain ⟨⟨rest, hrest⟩, hnamed, howner⟩ :=
          ih hpath (hdot k d hk g (List.mem_append_left _ hg)) ha
        refine ⟨⟨g.name :: rest, ?_⟩, hnamed, howner⟩
        rw [hrest, Scope.inside, attributeOf, List.append_assoc, List.singleton_append]

/-- All attributes that a field makes are each made by one field, in some scope. -/
theorem exists_attributeOf_of_mem_expand {owner : TypeKey} {depth : Nat} {scope : Scope}
    {f : Field} {a : Attribute} (ha : a ∈ expand h p r owner depth scope f) :
    ∃ scope' g, a = attributeOf h p owner scope' g := by
  induction depth generalizing scope f with
  | zero => exact absurd ha List.not_mem_nil
  | succ depth ih =>
    rw [expand_succ] at ha
    rcases List.mem_cons.1 ha with rfl | ha
    · exact ⟨scope, f, rfl⟩
    · cases hd : (classify h p f.valueType).2 with
      | none =>
        rw [hd] at ha
        exact absurd ha List.not_mem_nil
      | some d =>
        simp only [hd, List.mem_flatMap] at ha
        obtain ⟨_, _, ha⟩ := ha
        exact ih ha

/-- All attributes that a field makes are declared by the type of the field. -/
theorem declaredBy_of_mem_expand {owner : TypeKey} {depth : Nat} {scope : Scope} {f : Field}
    {a : Attribute} (ha : a ∈ expand h p r owner depth scope f) : a.declaredBy = owner := by
  obtain ⟨_, _, rfl⟩ := exists_attributeOf_of_mem_expand ha
  rfl

/-- The attribute of the field itself comes first. -/
theorem attributeOf_mem_expand (owner : TypeKey) (depth : Nat) (scope : Scope) (f : Field) :
    attributeOf h p owner scope f ∈ expand h p r owner (depth + 1) scope f :=
  List.mem_cons_self

/-- Fields of one name that hold the same value object make attributes with the
    same paths and shapes, whichever type declares them. -/
theorem map_profile_expand {owner owner' : TypeKey} {depth : Nat} {scope scope' : Scope}
    {f f' : Field} (hscope : scope.path = scope'.path) (hname : f.name = f'.name)
    (htype : f.valueType = f'.valueType) :
    (expand h p r owner depth scope f).map Attribute.profile =
      (expand h p r owner' depth scope' f').map Attribute.profile := by
  induction depth generalizing scope scope' f f' with
  | zero => rfl
  | succ depth ih =>
    have hfirst : (attributeOf h p owner scope f).profile =
        (attributeOf h p owner' scope' f').profile := by
      simp only [Attribute.profile, Attribute.shape, attributeOf, hscope, hname, htype]
    rw [expand_succ, expand_succ, List.map_cons, List.map_cons, hfirst, htype]
    cases (classify h p f'.valueType).2 with
    | none => rfl
    | some d =>
      simp only [List.map_flatMap]
      refine congrArg (_ :: ·) (List.flatMap_congr fun g _ => ih ?_ rfl rfl)
      exact congrArg Prod.fst hfirst

/-- And so in particular with the same paths and kinds. -/
theorem map_outline_expand {owner owner' : TypeKey} {depth : Nat} {scope scope' : Scope}
    {f f' : Field} (hscope : scope.path = scope'.path) (hname : f.name = f'.name)
    (htype : f.valueType = f'.valueType) :
    (expand h p r owner depth scope f).map Attribute.outline =
      (expand h p r owner' depth scope' f').map Attribute.outline := by
  have hprofile : (expand h p r owner depth scope f).map Attribute.profile =
      (expand h p r owner' depth scope' f').map Attribute.profile :=
    map_profile_expand hscope hname htype
  have houtline : Attribute.outline = Prod.map id Shape.kind ∘ Attribute.profile := rfl
  rw [houtline, ← List.map_map, hprofile, List.map_map]

/-- Only components have attributes nested in them. -/
theorem expand_eq_singleton {owner : TypeKey} {depth : Nat} {scope : Scope} {f : Field}
    (hkind : (attributeOf h p owner scope f).kind ≠ .component) :
    expand h p r owner (depth + 1) scope f = [attributeOf h p owner scope f] := by
  have hd : (classify h p f.valueType).2 = none :=
    Option.not_isSome_iff_eq_none.1 (mt classify_fst_eq_component.2 hkind)
  rw [expand_succ, hd]

/-! ### The attributes of a type -/

variable (h p r) in
/-- The attributes that a stored field of a type makes. -/
def block (d : TypeDescriptor) (f : Field) : Attributes :=
  expand h p r d.key p.depthBound {} f

theorem of_mem_block (hdot : r.Undotted p) {k : TypeKey} {d : TypeDescriptor}
    (hd : p.describe? k = some d) {f : Field} (hf : f ∈ r.stored d) {a : Attribute}
    (ha : a ∈ block h p r d f) :
    a.WellNamed ∧ a.root? = some f.name ∧ a.declaredBy = k := by
  have hname := hdot k d hd f (List.mem_append_right _ (List.mem_of_mem_filter hf))
  obtain ⟨⟨rest, hpath⟩, hnamed, howner⟩ :=
    of_mem_expand hdot (fun _ hs => absurd hs List.not_mem_nil) hname ha
  rw [(Discovery.key_of_describe? hd).1] at howner
  exact ⟨hnamed, by rw [Attribute.root?, hpath]; rfl, howner⟩

/-- The attribute of the field itself is named like the field. -/
theorem name_attributeOf (owner : TypeKey) (f : Field) :
    (attributeOf h p owner {} f).name = f.name :=
  String.intercalate_singleton (s := ".")

theorem attributeOf_mem_block (d : TypeDescriptor) (f : Field) :
    attributeOf h p d.key {} f ∈ block h p r d f :=
  attributeOf_mem_expand ..

/-- Blocks are told apart by the names of the fields. -/
theorem under_flatMap {new : Field → Attributes} {fs : List Field}
    (hnd : (fs.map Field.name).Nodup) (hroot : ∀ f ∈ fs, ∀ a ∈ new f, a.root? = some f.name)
    {f : Field} (hf : f ∈ fs) : Attributes.under (fs.flatMap new) f.name = new f := by
  induction fs with
  | nil => exact absurd hf List.not_mem_nil
  | cons g fs ih =>
    rcases List.forall_mem_cons.1 hroot with ⟨hg, hfs⟩
    obtain ⟨hnew, hnd⟩ := List.nodup_cons.1 hnd
    rw [List.flatMap_cons, Attributes.under_append]
    rcases List.mem_cons.1 hf with rfl | hf
    · have hrest : Attributes.under (fs.flatMap new) f.name = [] := by
        refine Attributes.under_eq_nil fun a ha hname => ?_
        obtain ⟨g, hg, ha⟩ := List.mem_flatMap.1 ha
        have hname : g.name = f.name := Option.some.inj ((hfs g hg a ha).symm.trans hname)
        exact hnew (hname ▸ List.mem_map_of_mem hg)
      rw [hrest, List.append_nil, Attributes.under_eq_self hg]
    · have hfirst : (new g).under f.name = [] := by
        refine Attributes.under_eq_nil fun a ha hname => ?_
        have hname : g.name = f.name := Option.some.inj ((hg a ha).symm.trans hname)
        exact hnew (hname ▸ List.mem_map_of_mem hf)
      rw [hfirst, List.nil_append, ih hnd hfs hf]

/-- The attributes that a type declares itself are those that its stored fields
    make, each of them for itself. Their names are distinct. -/
theorem ownAttributes_eq_ok {d : TypeDescriptor} {own : Attributes}
    (hown : ownAttributes h p r d = .ok own) :
    own = (r.stored d).flatMap (block h p r d) ∧ own.names.Nodup ∧
      ∀ f ∈ r.stored d,
        (flatten h p r d.key p.depthBound {} {} f).Yields ⟨block h p r d f, []⟩ := by
  have hrun : ∃ t, ((r.stored d).foldlM (flatten h p r d.key p.depthBound {}) {}).Yields t ∧
      t.attributes = own := by
    obtain ⟨t, ht, rfl⟩ := map_eq_ok.1 hown
    rcases Option.getD_eq_iff.1 ht with hrun | ⟨_, herror⟩
    · exact ⟨t, hrun, rfl⟩
    · exact nomatch herror
  obtain ⟨t, hrun, rfl⟩ := hrun
  have happ : ∀ f ∈ r.stored d, Appends (fun t => flatten h p r d.key p.depthBound {} t f)
      (block h p r d f) := fun f _ => appends_flatten _ _ _ f
  obtain ⟨rfl, hnd, _⟩ := Appends.foldlM happ _ _ hrun
  exact ⟨rfl, hnd List.nodup_nil, Appends.yields_of_foldlM happ hrun⟩

theorem declaredBy_of_mem_ownAttributes {d : TypeDescriptor} {own : Attributes}
    (hown : ownAttributes h p r d = .ok own) {a : Attribute} (ha : a ∈ own) :
    a.declaredBy = d.key := by
  rw [(ownAttributes_eq_ok hown).1, List.mem_flatMap] at ha
  obtain ⟨f, _, ha⟩ := ha
  exact declaredBy_of_mem_expand ha

/-- Under the name of a stored field there is the attribute of the field itself. -/
theorem get?_ownAttributes {d : TypeDescriptor} {own : Attributes}
    (hown : ownAttributes h p r d = .ok own) {f : Field} (hf : f ∈ r.stored d) :
    own.get? f.name = some (attributeOf h p d.key {} f) := by
  obtain ⟨heq, hnd, _⟩ := ownAttributes_eq_ok hown
  refine (Attributes.get?_eq_some_iff hnd).2 ⟨?_, name_attributeOf d.key f⟩
  rw [heq, List.mem_flatMap]
  exact ⟨f, hf, attributeOf_mem_block d f⟩

/-- The stored fields of a type have distinct names. -/
theorem nodup_map_name_stored {d : TypeDescriptor} {own : Attributes}
    (hown : ownAttributes h p r d = .ok own) : ((r.stored d).map Field.name).Nodup := by
  obtain ⟨rfl, hnd, _⟩ := ownAttributes_eq_ok hown
  refine List.Nodup.sublist ?_ hnd
  rw [Attributes.names, List.map_flatMap, List.map_eq_flatMap]
  refine List.Sublist.flatMap_right _ fun f _ => List.singleton_sublist.2 ?_
  exact List.mem_map.2 ⟨_, attributeOf_mem_block d f, name_attributeOf d.key f⟩

/-- The attributes of a type that are on a path from one of its stored fields are
    those that the field makes. -/
theorem under_ownAttributes (hdot : r.Undotted p) {k : TypeKey} {d : TypeDescriptor}
    (hd : p.describe? k = some d) {own : Attributes} (hown : ownAttributes h p r d = .ok own)
    {f : Field} (hf : f ∈ r.stored d) :
    own.under f.name = block h p r d f := by
  rw [(ownAttributes_eq_ok hown).1]
  refine under_flatMap (nodup_map_name_stored hown) (fun g hg a ha => ?_) hf
  exact (of_mem_block hdot hd hg ha).2.1

end Catalogue

end Lineage
