import Lineage.Catalogue.Basic
import Mathlib.Data.List.Nodup

/-!
# Lists of attributes

Attributes are looked up by their names, which are distinct
(`Attributes.get?_eq_some_iff`), and putting attributes into a list keeps the
names distinct (`Attributes.nodup_names_foldl_put`,
`Attributes.mem_foldl_put`).

Where no field has a dot in its name, the name of an attribute determines its
path (`Attribute.WellNamed.path_eq`).
-/

namespace Lineage

namespace Attribute

/-- The first field on the path. -/
def root? (a : Attribute) : Option String :=
  a.path.head?

/-- The attribute is named by its path, and no field on the path has a dot in its
    name. -/
structure WellNamed (a : Attribute) : Prop where
  name_eq : a.name = ".".intercalate a.path
  path_ne_nil : a.path ≠ []
  undotted : ∀ f ∈ a.path, '.' ∉ f.toList

/-- Where no part has a dot in it, the parts can be told from the joined name. -/
theorem intercalate_inj {path path' : List String} (hne : path ≠ []) (hne' : path' ≠ [])
    (hdot : ∀ f ∈ path, '.' ∉ f.toList) (hdot' : ∀ f ∈ path', '.' ∉ f.toList)
    (h : ".".intercalate path = ".".intercalate path') : path = path' := by
  have hsplit {path : List String} (hne : path ≠ []) (hdot : ∀ f ∈ path, '.' ∉ f.toList) :
      List.splitOn '.' (".".intercalate path).toList = path.map String.toList := by
    rw [String.toList_intercalate]
    exact List.splitOn_intercalate '.' (by simpa using hdot) (by simpa using hne)
  have := (hsplit hne hdot).symm.trans (h ▸ hsplit hne' hdot')
  exact List.map_injective_iff.2 (fun _ _ => String.toList_inj.1) this

variable {a b : Attribute}

/-- Attributes of the same name have the same path. -/
theorem WellNamed.path_eq (ha : a.WellNamed) (hb : b.WellNamed) (h : a.name = b.name) :
    a.path = b.path :=
  intercalate_inj ha.path_ne_nil hb.path_ne_nil ha.undotted hb.undotted
    (ha.name_eq.symm.trans (h.trans hb.name_eq))

/-- An attribute that is not nested is named by its only field. -/
theorem WellNamed.name_eq_iff (ha : a.WellNamed) {f : String} (hf : '.' ∉ f.toList) :
    a.name = f ↔ a.path = [f] := by
  constructor
  · intro h
    refine intercalate_inj ha.path_ne_nil (List.cons_ne_nil f []) ha.undotted (by simpa using hf) ?_
    exact ha.name_eq.symm.trans h
  · intro h
    rw [ha.name_eq, h]
    exact String.intercalate_singleton

/-- The path of an attribute starts with some field. -/
theorem WellNamed.exists_root (ha : a.WellNamed) : ∃ f, a.root? = some f ∧ '.' ∉ f.toList := by
  rcases hp : a.path with _ | ⟨f, path⟩
  · exact absurd hp ha.path_ne_nil
  · exact ⟨f, by rw [root?, hp]; rfl, ha.undotted f (hp ▸ List.mem_cons_self)⟩

theorem WellNamed.undotted_of_root (ha : a.WellNamed) {f : String} (hf : a.root? = some f) :
    '.' ∉ f.toList :=
  ha.undotted f (List.mem_of_head? hf)

theorem WellNamed.path_eq_singleton (ha : a.WellNamed) (hn : a.isNested = false) :
    a.path = [a.name] := by
  rcases hp : a.path with _ | ⟨f, _ | ⟨g, path⟩⟩
  · exact absurd hp ha.path_ne_nil
  · rw [ha.name_eq, hp, String.intercalate_singleton]
  · simp [isNested, hp] at hn

theorem isNested_eq_false_of_path {f : String} (h : a.path = [f]) : a.isNested = false := by
  simp [isNested, h]

theorem root?_eq_of_path {f : String} (h : a.path = [f]) : a.root? = some f := by
  rw [root?, h]
  rfl

end Attribute

namespace Attributes

variable {as : Attributes}

theorem has_iff {name : String} : as.has name = true ↔ ∃ a ∈ as, a.name = name := by
  simp [has]

theorem has_iff_mem_names {name : String} : as.has name = true ↔ name ∈ as.names := by
  rw [has_iff, names, List.mem_map]

theorem of_get?_eq_some {name : String} {a : Attribute} (h : as.get? name = some a) :
    a ∈ as ∧ a.name = name :=
  ⟨List.mem_of_find?_eq_some h, by simpa using List.find?_some h⟩

theorem exists_get?_of_mem {a : Attribute} (ha : a ∈ as) : ∃ b, as.get? a.name = some b := by
  rcases hb : as.get? a.name with _ | b
  · simpa using List.find?_eq_none.1 hb a ha
  · exact ⟨b, rfl⟩

/-- If names are distinct, each attribute is found by its name, and nothing else is. -/
theorem get?_eq_some_iff (hnd : as.names.Nodup) {name : String} {a : Attribute} :
    as.get? name = some a ↔ a ∈ as ∧ a.name = name := by
  refine ⟨of_get?_eq_some, ?_⟩
  rintro ⟨ha, rfl⟩
  obtain ⟨b, hb⟩ := exists_get?_of_mem ha
  obtain ⟨hb', hname⟩ := of_get?_eq_some hb
  rw [hb, List.inj_on_of_nodup_map hnd hb' ha hname]

theorem get?_eq_none_iff {name : String} : as.get? name = none ↔ as.has name = false := by
  simp [get?, has]

/-- In the attributes of several lists the first list with an attribute of the name
    counts. -/
theorem get?_append (as bs : Attributes) (name : String) :
    get? (as ++ bs) name = (as.get? name).or (bs.get? name) :=
  List.find?_append

theorem get?_flatten (ass : List Attributes) (name : String) :
    get? ass.flatten name = ass.findSome? (·.get? name) :=
  List.find?_flatten

/-- What is found first among several lists is in one of them. -/
theorem exists_mem_of_findSome?_eq_some {ass : List Attributes} {name : String} {a : Attribute}
    (h : ass.findSome? (·.get? name) = some a) : ∃ as ∈ ass, a ∈ as ∧ a.name = name := by
  obtain ⟨as, has, hget⟩ := List.exists_of_findSome?_eq_some h
  exact ⟨as, has, of_get?_eq_some hget⟩

/-- An attribute behind another of its name is not found. -/
theorem get?_append_singleton {a : Attribute} (ha : as.has a.name = true) (name : String) :
    get? (as ++ [a]) name = as.get? name := by
  rw [get?_append]
  rcases hb : as.get? name with _ | b
  · have hname : a.name ≠ name := fun e => Bool.eq_false_iff.1 (get?_eq_none_iff.1 hb) (e ▸ ha)
    simp [get?, hname]
  · rfl

/-- A name that is new to a list is new to every part of it. -/
theorem has_eq_false_of_subset {bs : Attributes} (hsub : bs ⊆ as) {name : String}
    (h : as.has name = false) : bs.has name = false := by
  refine Bool.eq_false_iff.2 fun hhas => Bool.eq_false_iff.1 h ?_
  rcases has_iff.1 hhas with ⟨b, hb, hname⟩
  exact has_iff.2 ⟨b, hsub hb, hname⟩

theorem append_subset_append {bs : Attributes} (hsub : bs ⊆ as) (new : Attributes) :
    bs ++ new ⊆ as ++ new :=
  List.append_subset.2 ⟨List.subset_append_of_subset_left _ hsub, List.subset_append_right _ _⟩

/-- An attribute with a new name can be appended. -/
theorem nodup_names_append_singleton (hnd : as.names.Nodup) {a : Attribute}
    (ha : as.has a.name = false) : names (as ++ [a]) |>.Nodup := by
  rw [names, List.map_append, List.map_singleton, ← List.concat_eq_append]
  exact hnd.concat (mt has_iff_mem_names.2 (Bool.eq_false_iff.1 ha))

/-! ### Attributes on a path from a field -/

/-- The attributes on a path from the named field. -/
def under (as : Attributes) (field : String) : Attributes :=
  as.filter (·.root? = some field)

theorem mem_under {field : String} {a : Attribute} :
    a ∈ as.under field ↔ a ∈ as ∧ a.root? = some field := by
  simp [under]

theorem under_append (as bs : Attributes) (field : String) :
    under (as ++ bs) field = as.under field ++ bs.under field :=
  List.filter_append ..

theorem under_eq_self {field : String} (h : ∀ a ∈ as, a.root? = some field) :
    as.under field = as :=
  List.filter_eq_self.2 fun a ha => decide_eq_true (h a ha)

theorem under_eq_nil {field : String} (h : ∀ a ∈ as, a.root? ≠ some field) :
    as.under field = [] :=
  List.filter_eq_nil_iff.2 fun a ha => by simpa using h a ha

/-! ### Putting attributes into a list -/

/-- Putting an attribute into a list replaces what has its name, and leaves all others. -/
theorem mem_put {a b : Attribute} : b ∈ as.put a ↔ b = a ∨ b ∈ as ∧ b.name ≠ a.name := by
  rw [put]
  split_ifs with hhas
  · rw [List.mem_map]
    constructor
    · rintro ⟨c, hc, rfl⟩
      split_ifs with hname
      · exact .inl rfl
      · exact .inr ⟨hc, hname⟩
    · rintro (rfl | ⟨hb, hname⟩)
      · rcases has_iff.1 hhas with ⟨c, hc, hname⟩
        exact ⟨c, hc, if_pos hname⟩
      · exact ⟨b, hb, if_neg hname⟩
  · have hnew (hb : b ∈ as) : b.name ≠ a.name := fun hname => hhas (has_iff.2 ⟨b, hb, hname⟩)
    rw [List.mem_append, List.mem_singleton, or_comm]
    exact or_congr_right ⟨fun hb => ⟨hb, hnew hb⟩, And.left⟩

/-- Under other names nothing changes. -/
theorem get?_put_of_ne {a : Attribute} {name : String} (hname : a.name ≠ name) :
    (as.put a).get? name = as.get? name := by
  rw [put]
  split_ifs
  · rw [get?, get?, List.find?_map]
    have hsame : (fun b : Attribute => decide (b.name = name)) ∘
        (fun b => if b.name = a.name then a else b) = fun b => decide (b.name = name) := by
      funext b
      by_cases hb : b.name = a.name
      · simp [hb, hname]
      · simp [hb]
    rw [hsame]
    cases hb : List.find? (fun b : Attribute => decide (b.name = name)) as with
    | none => rfl
    | some b =>
      have hne : b.name ≠ a.name := fun e => hname (e.symm.trans (of_get?_eq_some hb).2)
      rw [Option.map_some, if_neg hne]
  · rw [get?_append]
    simp [get?, hname]

/-- So no name comes to be there twice. -/
theorem nodup_names_put (hnd : as.names.Nodup) (a : Attribute) : (as.put a).names.Nodup := by
  rw [put]
  split_ifs with hhas
  · have hnames : names (as.map fun b => if b.name = a.name then a else b) = as.names := by
      rw [names, names, List.map_map]
      refine List.map_congr_left fun b _ => ?_
      rw [Function.comp_apply]
      split_ifs with hname
      · exact hname.symm
      · rfl
    rwa [hnames]
  · exact nodup_names_append_singleton hnd (Bool.eq_false_iff.2 hhas)

theorem nodup_names_foldl_put (hnd : as.names.Nodup) (bs : Attributes) :
    (bs.foldl put as).names.Nodup := by
  induction bs generalizing as with
  | nil => exact hnd
  | cons b bs ih => exact ih (nodup_names_put hnd b)

/-- Attributes take the places of those with their names. -/
theorem mem_foldl_put {bs : Attributes} (hbs : bs.names.Nodup) {a : Attribute} :
    a ∈ bs.foldl put as ↔ a ∈ bs ∨ a ∈ as ∧ bs.has a.name = false := by
  induction bs generalizing as with
  | nil => simp [has]
  | cons b bs ih =>
    obtain ⟨hb, hbs⟩ := List.nodup_cons.1 hbs
    have hhas : has (b :: bs) a.name = false ↔ a.name ≠ b.name ∧ has bs a.name = false := by
      rw [has, List.any_cons, Bool.or_eq_false_iff, decide_eq_false_iff_not, ← ne_eq, ne_comm, has]
    rw [List.foldl_cons, ih hbs, mem_put, hhas, List.mem_cons]
    constructor
    · rintro (ha | ⟨rfl | ⟨ha, hne⟩, hnot⟩)
      · exact .inl (.inr ha)
      · exact .inl (.inl rfl)
      · exact .inr ⟨ha, hne, hnot⟩
    · rintro ((rfl | ha) | ⟨ha, hne, hnot⟩)
      · -- no later attribute has the name
        refine .inr ⟨.inl rfl, Bool.eq_false_iff.2 fun hhas => hb ?_⟩
        exact has_iff_mem_names.1 hhas
      · exact .inl ha
      · exact .inr ⟨.inr ⟨ha, hne⟩, hnot⟩

end Attributes

end Lineage
