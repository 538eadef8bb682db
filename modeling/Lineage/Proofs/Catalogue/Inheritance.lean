import Lineage.Catalogue.Inheritance
import Lineage.Proofs.Catalogue.Attributes
import Lineage.Proofs.Fallible
import Mathlib.Data.List.Induction

/-!
# What a type shows of its parents

Of the attributes that the parents show under one name, the first is inherited.
The others agree with it in shape, or there is a conflict about the name
(`Merge.merged_ofParents`). Conflicts do not come from anything else
(`Merge.exists_between_of_mem_conflicts`).

A type has its own attributes, and inherits those that it has not declared
itself and that are not nested in a component which it replaces
(`Catalogue.mem_inherit`, `Catalogue.get?_inherit`). There are no conflicts about
what it inherits (`Catalogue.agrees_of_inherit`).
-/

namespace Lineage

theorem Shape.agrees_iff {a b : Shape} :
    a.agrees b = true ↔ a.kind = b.kind ∧ (a.kind = .component → a.valueType = b.valueType) := by
  simp [agrees, imp_iff_not_or]

theorem Shape.agrees_refl (a : Shape) : a.agrees a = true :=
  agrees_iff.2 ⟨rfl, fun _ => rfl⟩

theorem Shape.agrees_symm {a b : Shape} (hab : a.agrees b = true) : b.agrees a = true := by
  rw [agrees_iff] at hab ⊢
  exact ⟨hab.1.symm, fun hb => (hab.2 (hab.1.trans hb)).symm⟩

theorem Shape.agrees_trans {a b c : Shape} (hab : a.agrees b = true) (hbc : b.agrees c = true) :
    a.agrees c = true := by
  rw [agrees_iff] at hab hbc ⊢
  refine ⟨hab.1.trans hbc.1, fun ha => (hab.2 ha).trans (hbc.2 ?_)⟩
  rwa [← hab.1]

namespace Catalogue

/-! ### Merging -/

/-- The conflict is about the two attributes. -/
structure Conflict.Between (c : Conflict) (a b : Attribute) : Prop where
  name_first : a.name = c.name
  name_second : b.name = c.name
  first : a.shape = c.first
  second : b.shape = c.second
  disagree : c.first.agrees c.second = false

namespace Merge

/-- The state of a merge after the given attributes have been added. -/
structure Merged (shown : Attributes) (m : Merge) : Prop where
  nodup : m.attributes.names.Nodup
  /-- Under each name there is the first attribute. -/
  first : ∀ name, m.attributes.get? name = shown.get? name
  /-- What does not agree with it is in conflict. -/
  agrees_or_conflict : ∀ a ∈ shown, ∀ b, shown.get? a.name = some b →
    b.shape.agrees a.shape = true ∨ ∃ c ∈ m.conflicts, c.name = a.name

variable {shown : Attributes} {m : Merge}

/-- An attribute that is not the first of its name only matters to the
    conflicts. -/
theorem Merged.append_singleton {m' : Merge} (hm : m.Merged shown) {a b : Attribute}
    (hb : shown.get? a.name = some b) (hattributes : m'.attributes = m.attributes)
    (hconflicts : m.conflicts ⊆ m'.conflicts)
    (ha : b.shape.agrees a.shape = true ∨ ∃ c ∈ m'.conflicts, c.name = a.name) :
    m'.Merged (shown ++ [a]) := by
  have hsame := Attributes.get?_append_singleton (Attributes.has_iff.2
    ⟨b, Attributes.of_get?_eq_some hb⟩)
  refine ⟨hattributes ▸ hm.nodup, fun name => ?_, fun a' ha' b' hb' => ?_⟩
  · rw [hattributes, hm.first, hsame]
  · rw [hsame] at hb'
    rcases List.mem_append.1 ha' with ha' | ha'
    · exact (hm.agrees_or_conflict a' ha' b' hb').imp_right fun ⟨c, hc, e⟩ => ⟨c, hconflicts hc, e⟩
    · obtain rfl := List.mem_singleton.1 ha'
      obtain rfl := Option.some.inj (hb.symm.trans hb')
      exact ha

theorem Merged.add (hm : m.Merged shown) (a : Attribute) : (m.add a).Merged (shown ++ [a]) := by
  rw [Merge.add, hm.first]
  cases hb : shown.get? a.name with
  | none =>
    have hnew : m.attributes.has a.name = false := by
      rw [← Attributes.get?_eq_none_iff, hm.first, hb]
    refine ⟨Attributes.nodup_names_append_singleton hm.nodup hnew, fun name => ?_, ?_⟩
    · rw [Attributes.get?_append, Attributes.get?_append, hm.first]
    · intro a' ha' b' hb'
      rw [Attributes.get?_append] at hb'
      rcases List.mem_append.1 ha' with ha' | ha'
      · obtain ⟨b, hb⟩ := Attributes.exists_get?_of_mem ha'
        refine hm.agrees_or_conflict a' ha' b' ?_
        rwa [hb, Option.some_or, ← hb] at hb'
      · obtain rfl := List.mem_singleton.1 ha'
        rw [hb, Option.none_or] at hb'
        obtain rfl := List.mem_singleton.1 (Attributes.of_get?_eq_some hb').1
        exact .inl (Shape.agrees_refl _)
  | some b =>
    dsimp only
    split_ifs with hagrees
    · exact hm.append_singleton hb rfl (List.Subset.refl _) (.inl hagrees)
    · exact hm.append_singleton hb rfl (List.subset_append_left _ _)
        (.inr ⟨_, List.mem_append_right _ (List.mem_singleton_self _), rfl⟩)

theorem merged_foldl_add (shown : Attributes) : (shown.foldl add {}).Merged shown := by
  induction shown using List.reverseRecOn with
  | nil => exact ⟨List.nodup_nil, fun _ => rfl, fun a ha => absurd ha List.not_mem_nil⟩
  | append_singleton shown a ih =>
    rw [List.foldl_append]
    exact ih.add a

/-- What parents show together: under each name the first attribute. -/
theorem merged_ofParents (parents : List Attributes) :
    (ofParents parents).Merged parents.flatten :=
  merged_foldl_add parents.flatten

theorem get?_attributes_ofParents (parents : List Attributes) (name : String) :
    (ofParents parents).attributes.get? name = parents.findSome? (·.get? name) := by
  rw [(merged_ofParents parents).first, Attributes.get?_flatten]

theorem mem_attributes_ofParents {parents : List Attributes} {a : Attribute} :
    a ∈ (ofParents parents).attributes ↔ parents.findSome? (·.get? a.name) = some a := by
  rw [← get?_attributes_ofParents, Attributes.get?_eq_some_iff (merged_ofParents parents).nodup,
    and_iff_left rfl]

/-- A conflict is about two attributes that have been added. -/
theorem exists_between_of_mem_conflicts {c : Conflict}
    (hc : c ∈ (shown.foldl add {}).conflicts) : ∃ a ∈ shown, ∃ b ∈ shown, c.Between a b := by
  induction shown using List.reverseRecOn with
  | nil => exact absurd hc List.not_mem_nil
  | append_singleton shown a ih =>
    have hold (hc : c ∈ (shown.foldl add {}).conflicts) :
        ∃ a' ∈ shown ++ [a], ∃ b ∈ shown ++ [a], c.Between a' b := by
      obtain ⟨a', ha', b, hb, hbetween⟩ := ih hc
      exact ⟨a', List.mem_append_left _ ha', b, List.mem_append_left _ hb, hbetween⟩
    rw [List.foldl_concat, add, (merged_foldl_add shown).first] at hc
    cases hb : Attributes.get? shown a.name with
    | none =>
      rw [hb] at hc
      exact hold hc
    | some b =>
      simp only [hb] at hc
      split_ifs at hc with hagrees
      · exact hold hc
      · rcases List.mem_append.1 hc with hc | hc
        · exact hold hc
        · -- the conflict is a new one, with the first attribute of the name
          obtain rfl := List.mem_singleton.1 hc
          obtain ⟨hmem, hname⟩ := Attributes.of_get?_eq_some hb
          refine ⟨b, List.mem_append_left _ hmem, a, ?_, hname, rfl, rfl, rfl,
            Bool.eq_false_iff.2 hagrees⟩
          exact List.mem_append_right _ (List.mem_singleton_self a)

end Merge

/-! ### Replacing -/

variable {key : TypeKey} {parents : List Attributes} {own as : Attributes}

/-- The attribute is nested in a component that an own attribute replaces. -/
def Replaced (own : Attributes) (a : Attribute) : Prop :=
  a.isNested = true ∧ ∃ b ∈ own, b.isNested = false ∧ a.root? = some b.name

instance (own : Attributes) (a : Attribute) : Decidable (Replaced own a) :=
  inferInstanceAs (Decidable (_ ∧ _))

theorem mem_dropReplaced {inherited : Attributes} {a : Attribute} :
    a ∈ dropReplaced inherited own ↔
      a ∈ inherited ∧ (own.has a.name = true ∨ ¬ Replaced own a) := by
  rw [dropReplaced, List.mem_filter]
  refine and_congr_right fun _ => ?_
  have hroot : (a.path.head?.any ((own.filter fun b => !b.isNested).map Attribute.name).contains) =
      true ↔ ∃ b ∈ own, b.isNested = false ∧ a.root? = some b.name := by
    rw [Option.any_eq_true, Attribute.root?]
    simp only [List.contains_iff_mem, List.mem_map, List.mem_filter, Bool.not_eq_true']
    constructor
    · rintro ⟨f, hf, b, ⟨hb, hnested⟩, rfl⟩
      exact ⟨b, hb, hnested, hf⟩
    · rintro ⟨b, hb, hnested, hf⟩
      exact ⟨b.name, hf, b, ⟨hb, hnested⟩, rfl⟩
  rw [Bool.not_eq_true', Bool.and_eq_false_iff, Bool.not_eq_false', or_comm, Replaced, ← hroot]
  simp

/-- An own attribute is put among the inherited ones, or nothing comes of it. -/
theorem redeclare_eq_ok {m : Merge} {a : Attribute} {as' : Attributes}
    (h : redeclare key m as a = .ok as') : as' = as.put a := by
  rw [redeclare] at h
  split at h
  · exact (Except.ok.inj h).symm
  · split_ifs at h
    exact (Except.ok.inj h).symm

theorem foldlM_redeclare_eq_ok {m : Merge} {as' : Attributes}
    (h : own.foldlM (redeclare key m) as = .ok as') : as' = own.foldl Attributes.put as := by
  induction own generalizing as with
  | nil => exact (Except.ok.inj h).symm
  | cons a own ih =>
    obtain ⟨as₁, has₁, h⟩ := bind_eq_ok.1 h
    rw [List.foldl_cons, ← redeclare_eq_ok has₁]
    exact ih h

theorem inherit_eq_ok (h : inherit key parents own = .ok as) :
    (∀ c ∈ (Merge.ofParents parents).conflicts, own.has c.name = false →
      (dropReplaced (Merge.ofParents parents).attributes own).has c.name = false) ∧
    as = own.foldl Attributes.put (dropReplaced (Merge.ofParents parents).attributes own) := by
  simp only [inherit] at h
  split at h
  · exact nomatch h
  next hnone =>
    refine ⟨fun c hc hown => ?_, foldlM_redeclare_eq_ok h⟩
    simpa [hown] using List.find?_eq_none.1 hnone c hc

theorem inherit_eq_conflictingInheritance {k : TypeKey} {name : String} {x y : Shape}
    (h : inherit key parents own = .error (.conflictingInheritance k name x y)) :
    k = key ∧ own.has name = false ∧
      (⟨name, x, y⟩ : Conflict) ∈ (Merge.ofParents parents).conflicts := by
  simp only [inherit] at h
  split at h
  next c hfind =>
    obtain ⟨rfl, rfl, rfl, rfl⟩ : key = k ∧ c.name = name ∧ c.first = x ∧ c.second = y := by
      simpa using h
    have hc := List.find?_some hfind
    rw [Bool.and_eq_true, Bool.not_eq_true'] at hc
    exact ⟨rfl, hc.1, List.mem_of_find?_eq_some hfind⟩
  next =>
    -- redeclaring an attribute fails for another reason
    obtain ⟨a, _, as', h⟩ := exists_of_foldlM_eq_error h
    rw [redeclare] at h
    split at h
    · exact nomatch h
    · split_ifs at h
      exact nomatch h

/-! ### The attributes of a type -/

section Inherit

variable (h : inherit key parents own = .ok as)
include h

theorem nodup_names_inherit : as.names.Nodup := by
  rw [(inherit_eq_ok h).2]
  refine Attributes.nodup_names_foldl_put ?_ own
  exact (Merge.merged_ofParents parents).nodup.sublist (List.filter_sublist.map _)

/-- A type has its own attributes. Of the others, it has those that a parent is
    the first to show, unless it replaces the component in which they are
    nested. -/
theorem mem_inherit (hown : own.names.Nodup) {a : Attribute} :
    a ∈ as ↔ a ∈ own ∨
      parents.findSome? (·.get? a.name) = some a ∧ own.has a.name = false ∧ ¬ Replaced own a := by
  rw [(inherit_eq_ok h).2, Attributes.mem_foldl_put hown, mem_dropReplaced,
    Merge.mem_attributes_ofParents]
  grind

/-- Under a name a type has its own attribute, and otherwise the first one that a
    parent shows, unless it is nested in a component that the type replaces. -/
theorem get?_inherit (hown : own.names.Nodup) (name : String) :
    as.get? name = (own.get? name).or
      ((parents.findSome? (·.get? name)).filter fun a => ¬ Replaced own a) := by
  have hnodup := nodup_names_inherit h
  cases hname : own.get? name with
  | some b =>
    obtain ⟨hb, rfl⟩ := Attributes.of_get?_eq_some hname
    rw [Option.some_or, Attributes.get?_eq_some_iff hnodup, mem_inherit h hown]
    exact ⟨.inl hb, rfl⟩
  | none =>
    have hhas := Attributes.get?_eq_none_iff.1 hname
    ext a
    rw [Option.none_or, Option.filter_eq_some_iff, Attributes.get?_eq_some_iff hnodup,
      mem_inherit h hown, decide_eq_true_iff]
    constructor
    · rintro ⟨ha | ⟨hfirst, _, hkept⟩, rfl⟩
      · exact absurd (Attributes.has_iff.2 ⟨a, ha, rfl⟩) (Bool.eq_false_iff.1 hhas)
      · exact ⟨hfirst, hkept⟩
    · rintro ⟨hfirst, hkept⟩
      obtain ⟨_, _, _, rfl⟩ := Attributes.exists_mem_of_findSome?_eq_some hfirst
      exact ⟨.inr ⟨hfirst, hhas, hkept⟩, rfl⟩

/-- What a type inherits agrees in shape with what any of its parents shows under
    that name. -/
theorem agrees_of_inherit {parent : Attributes} (hparent : parent ∈ parents) {a b : Attribute}
    (ha : a ∈ parent) (hb : parents.findSome? (·.get? a.name) = some b)
    (hown : own.has a.name = false) (hkept : ¬ Replaced own b) :
    b.shape.agrees a.shape = true := by
  have hm := Merge.merged_ofParents parents
  rw [← Attributes.get?_flatten] at hb
  rcases hm.agrees_or_conflict a (List.mem_flatten_of_mem hparent ha) b hb with
    hagrees | ⟨c, hc, hname⟩
  · exact hagrees
  · -- the conflict would be about an attribute that is inherited
    have hnone := (inherit_eq_ok h).1 c hc (hname ▸ hown)
    rw [← hm.first] at hb
    obtain ⟨hb, hname'⟩ := Attributes.of_get?_eq_some hb
    refine absurd (Attributes.has_iff.2 ⟨b, ?_, hname'.trans hname.symm⟩)
      (Bool.eq_false_iff.1 hnone)
    exact mem_dropReplaced.2 ⟨hb, .inr hkept⟩

end Inherit

end Catalogue

end Lineage
