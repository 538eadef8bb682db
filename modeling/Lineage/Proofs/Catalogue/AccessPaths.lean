import Lineage.Proofs.Catalogue.Flatten
import Lineage.Proofs.Fallible

/-!
# Access paths

An access path leads from a stored field of a type through the value objects that fields hold
to a field at any depth (`IsAccessPath`). Flattening makes one attribute for each access path,
in depth-first order, unless a value object is part of itself or two access paths have the same
name (`ownAttributes_exact`). This is shown in two steps.

* What is met on the way is written down without recording any attribute: the access paths,
  and the value objects that are met inside themselves (`trace`). Flattening is going through
  these events one after the other, up to the first that fails (`run_foldlM_flatten`). The
  events need not tell what is opened and closed, as whatever is opened inside a field is
  closed before the next one.
* The events are told from the fields alone. Access paths come in the order of their
  positions (`pairwise_paths_trace`), there are no others (`access_of_mem_trace`), a value
  object is met inside itself only if it is part of itself (`embedded_of_closes`), and if
  none is then all access paths are met (`mem_trace_of_access`), and there are no cycles
  further down (`acc_of_trace`).

The set of the value objects that are open is what makes the recursion end. They are distinct
and described, and each is one of which all that is met further down is part (`Opened`). So a
value object that several fields hold side by side is not taken for a cycle.
-/

namespace Lineage

open Relation

/-- The stored fields of a value object. -/
def FieldReader.nested (r : FieldReader) (d : TypeDescriptor) : List Field :=
  (r.declared d).filter Field.isPersistent

namespace Catalogue

/-- A field on an access path, with its position among the stored fields beside it. -/
abbrev Segment := Field × Nat

section

variable (h : Hierarchy) (p : Discovery) (r : FieldReader)

/-! ### Fields that hold value objects -/

/-- The field holds values of a described value object that is no resource type. -/
structure Holds (f : Field) (d : TypeDescriptor) : Prop where
  type_eq : f.valueType = .named d.key
  outside : h.contains d.key = false
  described : p.describe? d.key = some d
  kind_eq : d.kind = .valueObject

/-- A stored field of the second value object holds the first one. -/
def PartOf (inner outer : TypeDescriptor) : Prop :=
  ∃ f ∈ r.nested outer, Holds h p f inner

/-- One of the fields holds the value object, or another one of which it is part, at any
    depth. -/
def Embedded (fs : List Field) (d : TypeDescriptor) : Prop :=
  ∃ f ∈ fs, ∃ e, Holds h p f e ∧ ReflTransGen (PartOf h p r) d e

/-- No value object that is held at some depth is part of itself. -/
def Acyclic (fs : List Field) : Prop :=
  ∀ d, Embedded h p r fs d → ¬ TransGen (PartOf h p r) d d

/-! ### Access paths -/

/-- The access paths from the given fields: a field alone, or one that holds a value object,
    with an access path from the stored fields of that. -/
inductive IsAccessPath : List Field → List Segment → Prop
  | field {fs : List Field} {s : Segment} (hs : s ∈ fs.zipIdx) : IsAccessPath fs [s]
  | inside {fs : List Field} {s : Segment} {d : TypeDescriptor} {c : List Segment}
      (hs : s ∈ fs.zipIdx) (hd : Holds h p s.1 d) (hc : IsAccessPath (r.nested d) c) :
      IsAccessPath fs (s :: c)

/-- The name that an access path makes. -/
def dotted (c : List Segment) : String :=
  ".".intercalate (c.map (·.1.name))

/-- No two access paths have the same name. -/
def DistinctNames (fs : List Field) : Prop :=
  ∀ c c', IsAccessPath h p r fs c → IsAccessPath h p r fs c' → dotted c = dotted c' → c = c'

/-- The positions of the fields on an access path. Paths in depth-first order, a path before
    those that extend it, are in the lexicographic order of their positions. -/
def positions (c : List Segment) : List Nat :=
  c.map Prod.snd

/-- The attribute is the one for an access path in a type. -/
structure Describes (owner : TypeKey) (c : List Segment) (a : Attribute) : Prop where
  path_eq : a.path = c.map (·.1.name)
  name_eq : a.name = dotted c
  last : ∃ s, c.getLast? = some s ∧ a.valueType = s.1.valueType ∧
    a.kind = (classify h p s.1.valueType).1
  optional_iff : a.optional = true ↔ ∃ s ∈ c, s.1.modifiers.isNullable = true
  isLazy_iff : a.isLazy = true ↔ ∃ s ∈ c, s.1.modifiers.isLazy = true
  identifier_iff : a.identifier = true ↔ ∃ s, c = [s] ∧ s.1.modifiers.isIdentifier = true
  declaredBy_eq : a.declaredBy = owner

/-! ### What is met -/

/-- What is met while fields are flattened: an access path, given by its last field and the
    others, or a value object inside itself. -/
inductive Event where
  | field (enclosing : List Segment) (s : Segment)
  | closes (d : TypeDescriptor)

/-- The access path that is met. -/
def Event.path? : Event → Option (List Segment)
  | field enclosing s => some (enclosing ++ [s])
  | closes _ => none

/-- The access paths among the events. -/
def paths (evs : List Event) : List (List Segment) :=
  evs.filterMap Event.path?

/-- What is met inside the last field of a path. What is met among the fields of the value
    object that it holds is as given, and the keys are those of the value objects that are open. -/
def eventsInside (inside : List TypeKey → List Segment → List Field → List Event)
    (ks : List TypeKey) (enclosing : List Segment) (s : Segment) : List Event :=
  match (classify h p s.1.valueType).2 with
  | none => []
  | some d => if ks.contains d.key then [.closes d]
    else inside (d.key :: ks) (enclosing ++ [s]) (r.nested d)

/-- What is met among the fields at the end of a path, at most to the given depth. -/
def trace : Nat → List TypeKey → List Segment → List Field → List Event
  | 0, _, _, _ => []
  | fuel + 1, ks, enclosing, fs =>
    fs.zipIdx.flatMap fun s => .field enclosing s :: eventsInside h p r (trace fuel) ks enclosing s

/-- The scope inside the fields of a path. -/
def Scope.within (enclosing : List Segment) : Scope where
  path := enclosing.map (·.1.name)
  optional := enclosing.any (·.1.modifiers.isNullable)
  isLazy := enclosing.any (·.1.modifiers.isLazy)

/-- Adds the attribute for an access path that is met, and fails where a value object is met
    inside itself. -/
def record (owner : TypeKey) (as : Attributes) : Event → Except ConfigurationFault Attributes
  | .field enclosing s =>
    let a := attributeOf h p owner (.within enclosing) s.1
    if as.has a.name then .error (.duplicateAttribute owner a.name) else .ok (as ++ [a])
  | .closes d => .error (.cycle d.key)

/-- The keys are those of distinct value objects of which all are part that the fields
    hold. -/
structure Opened (ks : List TypeKey) (fs : List Field) : Prop where
  nodup : ks.Nodup
  holds : ∀ k ∈ ks, ∃ e, p.describe? k = some e ∧
    ∀ f ∈ fs, ∀ d, Holds h p f d → TransGen (PartOf h p r) d e

end

variable {h : Hierarchy} {p : Discovery} {r : FieldReader} {ks : List TypeKey}
  {fs : List Field} {fuel : Nat} {enclosing : List Segment}

theorem holds_iff {f : Field} {d : TypeDescriptor} :
    Holds h p f d ↔ (classify h p f.valueType).2 = some d := by
  rw [classify_snd_eq_some]
  constructor
  · rintro ⟨htype, hout, hd, hkind⟩
    exact ⟨d.key, htype, hout, hd, hkind⟩
  · rintro ⟨k, htype, hout, hd, hkind⟩
    obtain ⟨rfl, _⟩ := Discovery.key_of_describe? hd
    exact ⟨htype, hout, hd, hkind⟩

namespace Opened

theorem nil (fs : List Field) : Opened h p r [] fs :=
  ⟨List.nodup_nil, fun _ hk => absurd hk List.not_mem_nil⟩

/-- Inside a value object that is not open yet. -/
theorem enter (ho : Opened h p r ks fs) {f : Field} (hf : f ∈ fs) {d : TypeDescriptor}
    (hd : Holds h p f d) (hnew : d.key ∉ ks) :
    Opened h p r (d.key :: ks) (r.nested d) where
  nodup := List.nodup_cons.2 ⟨hnew, ho.nodup⟩
  holds k hk := by
    rcases List.mem_cons.1 hk with rfl | hk
    · exact ⟨d, hd.described, fun g hg e he => .single ⟨g, hg, he⟩⟩
    · obtain ⟨e, he, hin⟩ := ho.holds k hk
      exact ⟨e, he, fun g hg e' he' => .head ⟨g, hg, he'⟩ (hin f hf d hd)⟩

/-- A value object that is open and met again is part of itself. -/
theorem transGen_self (ho : Opened h p r ks fs) {f : Field} (hf : f ∈ fs) {d : TypeDescriptor}
    (hd : Holds h p f d) (hmem : d.key ∈ ks) : TransGen (PartOf h p r) d d := by
  obtain ⟨e, he, hin⟩ := ho.holds _ hmem
  obtain rfl := Option.some.inj (hd.described.symm.trans he)
  exact hin f hf d hd

/-- The open value objects are described, so there are not too many of them. -/
theorem fuel_pos (ho : Opened h p r ks fs) (hfuel : p.depthBound ≤ fuel + ks.length) :
    0 < fuel := by
  have hsub : ks ⊆ p.described.map TypeDescriptor.key := fun k hk => by
    obtain ⟨e, he, _⟩ := ho.holds k hk
    obtain ⟨rfl, hmem⟩ := Discovery.key_of_describe? he
    exact List.mem_map_of_mem hmem
  have := (List.subperm_of_subset ho.nodup hsub).length_le
  rw [List.length_map] at this
  rw [Discovery.depthBound] at hfuel
  omega

end Opened

/-! ### Flattening is going through what is met -/

theorem inside_attributeOf_within (owner : TypeKey) (enclosing : List Segment) (s : Segment) :
    Scope.inside (attributeOf h p owner (.within enclosing) s.1) =
      .within (enclosing ++ [s]) := by
  simp [Scope.inside, Scope.within, attributeOf]

/-- Flattening ends, and comes to what going through the events comes to. The value objects
    that are open are the same afterwards. -/
theorem run_foldlM_flatten (owner : TypeKey) (fuel : Nat) (ks : List TypeKey)
    (enclosing : List Segment) (fs : List Field) (ho : Opened h p r ks fs)
    (hfuel : p.depthBound ≤ fuel + ks.length) (as : Attributes) :
    (fs.foldlM (flatten h p r owner fuel (.within enclosing)) ⟨as, ks⟩).run =
      some (((trace h p r fuel ks enclosing fs).foldlM (record h p owner) as).map
        (Flattening.mk · ks)) := by
  induction fuel generalizing ks enclosing fs as with
  | zero => exact absurd (ho.fuel_pos hfuel) (Nat.lt_irrefl 0)
  | succ fuel ih =>
    have hfs : fs.foldlM (flatten h p r owner (fuel + 1) (.within enclosing)) ⟨as, ks⟩ =
        fs.zipIdx.foldlM
          (fun t s => flatten h p r owner (fuel + 1) (.within enclosing) t s.1) ⟨as, ks⟩ := by
      conv_lhs => rw [← List.zipIdx_map_fst 0 fs, List.foldlM_map]
    rw [hfs, trace]
    refine Bounded.run_foldlM_flatMap (e := (Flattening.mk · ks)) (fun s hs as => ?_) as
    rw [flatten, List.foldlM_cons, record, eventsInside]
    dsimp only
    cases as.has (attributeOf h p owner (.within enclosing) s.1).name with
    | true => rfl
    | false =>
      cases hd : (classify h p s.1.valueType).2 with
      | none => rfl
      | some d =>
        have hopened : (Flattening.add ⟨as, ks⟩
            (attributeOf h p owner (.within enclosing) s.1)).opened = ks := rfl
        dsimp only
        rw [hopened]
        cases hmem : ks.contains d.key with
        | true => rfl
        | false =>
          rw [inside_attributeOf_within]
          have hnested := ih (d.key :: ks) (enclosing ++ [s]) (r.nested d)
            (ho.enter (List.fst_mem_of_mem_zipIdx hs) (holds_iff.2 hd) (by simpa using hmem))
            (Bounded.le_add_length_cons hfuel _)
            (as ++ [attributeOf h p owner (.within enclosing) s.1])
          -- in the end the value object is closed again, and those around it are still open
          exact Bounded.run_bind_pure hnested fun as => Flattening.leave_cons as d.key ks

/-! ### The access paths that are met -/

theorem mem_eventsInside {inside : List TypeKey → List Segment → List Field → List Event}
    {s : Segment} {ev : Event} :
    ev ∈ eventsInside h p r inside ks enclosing s ↔ ∃ d, Holds h p s.1 d ∧
      (d.key ∈ ks ∧ ev = .closes d ∨
        d.key ∉ ks ∧ ev ∈ inside (d.key :: ks) (enclosing ++ [s]) (r.nested d)) := by
  simp only [holds_iff, eventsInside]
  cases (classify h p s.1.valueType).2 with
  | none => simp
  | some d => by_cases hmem : d.key ∈ ks <;> simp [hmem]

theorem mem_trace_succ {ev : Event} :
    ev ∈ trace h p r (fuel + 1) ks enclosing fs ↔ ∃ s ∈ fs.zipIdx,
      ev = .field enclosing s ∨ ev ∈ eventsInside h p r (trace h p r fuel) ks enclosing s := by
  simp only [trace, List.mem_flatMap, List.mem_cons]

/-- Nothing but access paths is met. -/
theorem access_of_mem_trace {ev : Event} (hev : ev ∈ trace h p r fuel ks enclosing fs)
    {c : List Segment} (hc : ev.path? = some c) :
    ∃ c', IsAccessPath h p r fs c' ∧ c = enclosing ++ c' := by
  induction fuel generalizing ks enclosing fs with
  | zero => exact absurd hev List.not_mem_nil
  | succ fuel ih =>
    obtain ⟨s, hs, rfl | hev⟩ := mem_trace_succ.1 hev
    · exact ⟨[s], .field hs, (Option.some.inj hc).symm⟩
    obtain ⟨d, hd, ⟨_, rfl⟩ | ⟨_, hev⟩⟩ := mem_eventsInside.1 hev
    · exact nomatch hc
    · obtain ⟨c', hc', rfl⟩ := ih hev
      exact ⟨s :: c', .inside hs hd hc', List.append_assoc ..⟩

/-- A value object that is met inside itself is part of itself. -/
theorem embedded_of_closes (ho : Opened h p r ks fs) {d : TypeDescriptor}
    (hev : .closes d ∈ trace h p r fuel ks enclosing fs) :
    Embedded h p r fs d ∧ TransGen (PartOf h p r) d d := by
  induction fuel generalizing ks enclosing fs with
  | zero => exact absurd hev List.not_mem_nil
  | succ fuel ih =>
    obtain ⟨s, hs, hev | hev⟩ := mem_trace_succ.1 hev
    · exact nomatch hev
    have hf := List.fst_mem_of_mem_zipIdx hs
    obtain ⟨e, he, ⟨hmem, hev⟩ | ⟨hnew, hev⟩⟩ := mem_eventsInside.1 hev
    · -- the value object is open, so the field that holds it is inside it
      obtain rfl := Event.closes.inj hev
      exact ⟨⟨s.1, hf, d, he, .refl⟩, ho.transGen_self hf he hmem⟩
    · obtain ⟨⟨g, hg, e', he', hd⟩, hcycle⟩ := ih (ho.enter hf he hnew) hev
      exact ⟨⟨s.1, hf, e, he, hd.tail ⟨g, hg, he'⟩⟩, hcycle⟩

/-- If no value object is met inside itself, what is met inside one is met. -/
theorem mem_trace_of_mem_inside
    (hcloses : ∀ d, .closes d ∉ trace h p r (fuel + 1) ks enclosing fs) {s : Segment}
    (hs : s ∈ fs.zipIdx) {d : TypeDescriptor} (hd : Holds h p s.1 d) :
    d.key ∉ ks ∧ ∀ ev ∈ trace h p r fuel (d.key :: ks) (enclosing ++ [s]) (r.nested d),
      ev ∈ trace h p r (fuel + 1) ks enclosing fs := by
  have hsub (ev : Event) (hev : ev ∈ eventsInside h p r (trace h p r fuel) ks enclosing s) :
      ev ∈ trace h p r (fuel + 1) ks enclosing fs := mem_trace_succ.2 ⟨s, hs, .inr hev⟩
  have hnew : d.key ∉ ks := fun hmem =>
    hcloses d (hsub _ (mem_eventsInside.2 ⟨d, hd, .inl ⟨hmem, rfl⟩⟩))
  exact ⟨hnew, fun ev hev => hsub ev (mem_eventsInside.2 ⟨d, hd, .inr ⟨hnew, hev⟩⟩)⟩

/-- If no value object is met inside itself, all access paths are met. -/
theorem mem_trace_of_access (ho : Opened h p r ks fs) (hfuel : p.depthBound ≤ fuel + ks.length)
    (hcloses : ∀ d, .closes d ∉ trace h p r fuel ks enclosing fs) {c : List Segment}
    (hc : IsAccessPath h p r fs c) :
    ∃ ev ∈ trace h p r fuel ks enclosing fs, ev.path? = some (enclosing ++ c) := by
  induction hc generalizing fuel ks enclosing with
  | @field fs s hs =>
    obtain ⟨fuel, rfl⟩ := Nat.exists_eq_add_one.2 (ho.fuel_pos hfuel)
    exact ⟨.field enclosing s, mem_trace_succ.2 ⟨s, hs, .inl rfl⟩, rfl⟩
  | @inside fs s d c hs hd _ ih =>
    obtain ⟨fuel, rfl⟩ := Nat.exists_eq_add_one.2 (ho.fuel_pos hfuel)
    obtain ⟨hnew, hsub⟩ := mem_trace_of_mem_inside hcloses hs hd
    obtain ⟨ev, hev, hpath⟩ := ih (ho.enter (List.fst_mem_of_mem_zipIdx hs) hd hnew)
      (Bounded.le_add_length_cons hfuel _) fun e he => hcloses e (hsub _ he)
    exact ⟨ev, hsub ev hev, hpath.trans (congrArg some (List.append_assoc ..))⟩

/-- If no value object is met inside itself, there are no cycles further down. -/
theorem acc_of_trace (ho : Opened h p r ks fs) (hfuel : p.depthBound ≤ fuel + ks.length)
    (hcloses : ∀ d, .closes d ∉ trace h p r fuel ks enclosing fs) {f : Field} (hf : f ∈ fs)
    {d : TypeDescriptor} (hd : Holds h p f d) : Acc (PartOf h p r) d := by
  induction fuel generalizing ks enclosing fs f d with
  | zero => exact absurd (ho.fuel_pos hfuel) (Nat.lt_irrefl 0)
  | succ fuel ih =>
    -- the value object is entered, and all that it holds is accessible by induction
    obtain ⟨i, hi⟩ := List.mem_iff_getElem?.1 hf
    obtain ⟨hnew, hsub⟩ :=
      mem_trace_of_mem_inside hcloses (s := (f, i)) (List.mem_zipIdx_iff_getElem?.2 hi) hd
    refine .intro d fun e ⟨g, hg, he⟩ => ?_
    exact ih (ho.enter hf hd hnew) (Bounded.le_add_length_cons hfuel _)
      (fun e he => hcloses e (hsub _ he)) hg he

theorem IsAccessPath.exists_eq_cons {c : List Segment} (hc : IsAccessPath h p r fs c) :
    ∃ s ∈ fs.zipIdx, ∃ c', c = s :: c' := by
  cases hc with
  | field hs => exact ⟨_, hs, [], rfl⟩
  | inside hs _ _ => exact ⟨_, hs, _, rfl⟩

/-- A path comes before those that extend it. -/
theorem positions_lt_append {c c' : List Segment} (hne : c' ≠ []) :
    positions c < positions (c ++ c') := by
  obtain ⟨s, c', rfl⟩ := List.exists_cons_of_ne_nil hne
  rw [positions, positions, List.map_append]
  conv_lhs => rw [← List.append_nil (c.map Prod.snd)]
  exact List.append_left_lt (List.nil_lt_cons _ _)

/-- Of paths that part, the one with the smaller position comes first. -/
theorem positions_lt_of_lt {s t : Segment} (hst : s.2 < t.2) (c c₁ c₂ : List Segment) :
    positions (c ++ s :: c₁) < positions (c ++ t :: c₂) := by
  rw [positions, positions, List.map_append, List.map_append]
  exact List.append_left_lt (List.cons_lt_cons_iff.2 (.inl hst))

theorem paths_field_cons (enclosing : List Segment) (s : Segment) (evs : List Event) :
    paths (.field enclosing s :: evs) = (enclosing ++ [s]) :: paths evs :=
  rfl

/-- The paths that are met inside the last field of a path extend the path. -/
theorem exists_of_mem_paths_eventsInside {s : Segment} {c : List Segment}
    (hc : c ∈ paths (eventsInside h p r (trace h p r fuel) ks enclosing s)) :
    ∃ c', c' ≠ [] ∧ c = (enclosing ++ [s]) ++ c' := by
  obtain ⟨ev, hev, hpath⟩ := List.mem_filterMap.1 hc
  obtain ⟨d, _, ⟨_, rfl⟩ | ⟨_, hev⟩⟩ := mem_eventsInside.1 hev
  · exact nomatch hpath
  · obtain ⟨c', hc', rfl⟩ := access_of_mem_trace hev hpath
    obtain ⟨t, _, c', rfl⟩ := hc'.exists_eq_cons
    exact ⟨t :: c', List.cons_ne_nil _ _, rfl⟩

/-- Access paths are met in the order of their positions. -/
theorem pairwise_paths_trace (fuel : Nat) (ks : List TypeKey) (enclosing : List Segment)
    (fs : List Field) :
    (paths (trace h p r fuel ks enclosing fs)).Pairwise (positions · < positions ·) := by
  induction fuel generalizing ks enclosing fs with
  | zero => exact .nil
  | succ fuel ih =>
    rw [trace, paths, List.filterMap_flatMap, List.pairwise_flatMap]
    constructor
    · -- a field comes before what is inside it
      intro s _
      rw [← paths, paths_field_cons, List.pairwise_cons]
      refine ⟨fun c hc => ?_, ?_⟩
      · obtain ⟨c', hne, rfl⟩ := exists_of_mem_paths_eventsInside hc
        exact positions_lt_append hne
      · rw [eventsInside]
        split
        · exact .nil
        · split_ifs
          · exact .nil
          · exact ih ..
    · -- the field and what is inside it comes before the next field
      have hextend {s : Segment} {c : List Segment} (hc : c ∈ paths (.field enclosing s ::
          eventsInside h p r (trace h p r fuel) ks enclosing s)) :
          ∃ c', c = enclosing ++ s :: c' := by
        rcases List.mem_cons.1 hc with rfl | hc
        · exact ⟨[], rfl⟩
        · obtain ⟨c', _, rfl⟩ := exists_of_mem_paths_eventsInside hc
          exact ⟨c', List.append_assoc ..⟩
      have hlt : fs.zipIdx.Pairwise (·.2 < ·.2) := by
        rw [← List.pairwise_map, List.zipIdx_map_snd]
        exact List.pairwise_lt_range' 1
      refine hlt.imp fun {s t} hst c₁ hc₁ c₂ hc₂ => ?_
      obtain ⟨c₁, rfl⟩ := hextend hc₁
      obtain ⟨c₂, rfl⟩ := hextend hc₂
      exact positions_lt_of_lt hst ..

/-- What is met does not depend on the depth, if that is enough. -/
theorem trace_eq (fuel fuel' : Nat) (ks : List TypeKey) (enclosing : List Segment)
    (fs : List Field) (ho : Opened h p r ks fs) (hfuel : p.depthBound ≤ fuel + ks.length)
    (hfuel' : p.depthBound ≤ fuel' + ks.length) :
    trace h p r fuel ks enclosing fs = trace h p r fuel' ks enclosing fs := by
  induction fuel generalizing fuel' ks enclosing fs with
  | zero => exact absurd (ho.fuel_pos hfuel) (Nat.lt_irrefl 0)
  | succ fuel ih =>
    obtain ⟨fuel', rfl⟩ := Nat.exists_eq_add_one.2 (ho.fuel_pos hfuel')
    rw [trace, trace]
    refine List.flatMap_congr fun s hs => congrArg (_ :: ·) ?_
    rw [eventsInside, eventsInside]
    cases hd : (classify h p s.1.valueType).2 with
    | none => rfl
    | some d =>
      dsimp only
      split_ifs with hmem
      · rfl
      · exact ih fuel' _ _ _
          (ho.enter (List.fst_mem_of_mem_zipIdx hs) (holds_iff.2 hd) (by simpa using hmem))
          (Bounded.le_add_length_cons hfuel _) (Bounded.le_add_length_cons hfuel' _)

/-! ### Recording what is met -/

theorem describes_attributeOf (h : Hierarchy) (p : Discovery) (owner : TypeKey)
    (enclosing : List Segment) (s : Segment) :
    Describes h p owner (enclosing ++ [s])
      (attributeOf h p owner (.within enclosing) s.1) where
  path_eq := by simp [attributeOf, Scope.within]
  name_eq := by simp [attributeOf, Scope.within, dotted]
  last := ⟨s, List.getLast?_concat, rfl, rfl⟩
  optional_iff := by simp [attributeOf, Scope.within, or_and_right, exists_or]
  isLazy_iff := by simp [attributeOf, Scope.within, or_and_right, exists_or]
  identifier_iff := by
    cases enclosing with
    | nil => simp [attributeOf, Scope.within]
    | cons t enclosing => simp [attributeOf, Scope.within]
  declaredBy_eq := rfl

theorem names_of_describes {owner : TypeKey} {cs : List (List Segment)} {as : Attributes}
    (hcs : List.Forall₂ (Describes h p owner) cs as) : as.names = cs.map dotted := by
  induction hcs with
  | nil => rfl
  | cons ha _ ih => exact congrArg₂ List.cons ha.name_eq ih

theorem exists_of_record_eq_ok {owner : TypeKey} {as as' : Attributes} {ev : Event}
    (has : record h p owner as ev = .ok as') : ∃ enclosing s a, ev = .field enclosing s ∧
      Describes h p owner (enclosing ++ [s]) a ∧ as.has a.name = false ∧ as' = as ++ [a] := by
  cases ev with
  | closes d => exact nomatch has
  | field enclosing s =>
    rw [record] at has
    split_ifs at has with hhas
    exact ⟨enclosing, s, _, rfl, describes_attributeOf .., Bool.eq_false_iff.2 hhas,
      (Except.ok.inj has).symm⟩

/-- If no event fails then no value object is met inside itself, there is one attribute for each
    access path, and their names are distinct. -/
theorem of_foldlM_record_eq_ok {owner : TypeKey} {evs : List Event} {as as' : Attributes}
    (has : evs.foldlM (record h p owner) as = .ok as') :
    (∀ d, .closes d ∉ evs) ∧ (as.names.Nodup → as'.names.Nodup) ∧
      ∃ new, as' = as ++ new ∧ List.Forall₂ (Describes h p owner) (paths evs) new := by
  induction evs generalizing as with
  | nil =>
    obtain rfl := Except.ok.inj has
    exact ⟨fun _ => List.not_mem_nil, id, [], (List.append_nil as).symm, .nil⟩
  | cons ev evs ih =>
    obtain ⟨as₁, hrecord, has⟩ := bind_eq_ok.1 has
    obtain ⟨enclosing, s, a, rfl, ha, hnew, rfl⟩ := exists_of_record_eq_ok hrecord
    obtain ⟨hcloses, hnd, new, rfl, hnews⟩ := ih has
    refine ⟨fun d => ?_, fun has => hnd (Attributes.nodup_names_append_singleton has hnew),
      a :: new, List.append_assoc .., .cons ha hnews⟩
    simpa using hcloses d

/-- If an event fails then a value object is met inside itself, or an access path behind another
    one of the same name. -/
theorem of_foldlM_record_eq_error {owner : TypeKey} {evs : List Event} {fault : ConfigurationFault}
    (hlt : (paths evs).Pairwise (positions · < positions ·))
    (has : evs.foldlM (record h p owner) [] = .error fault) :
    (∃ d, .closes d ∈ evs ∧ fault = .cycle d.key) ∨
      ∃ c ∈ paths evs, ∃ c' ∈ paths evs, c ≠ c' ∧ dotted c = dotted c' ∧
        fault = .duplicateAttribute owner (dotted c) := by
  obtain ⟨evs₁, ev, evs₂, as, rfl, has₁, hrecord⟩ := exists_split_of_foldlM_eq_error has
  cases ev with
  | closes d =>
    exact .inl ⟨d, List.mem_append_right _ List.mem_cons_self, (Except.error.inj hrecord).symm⟩
  | field enclosing s =>
    have ha := describes_attributeOf h p owner enclosing s
    rw [record] at hrecord
    split_ifs at hrecord with hhas
    have hpaths : paths (evs₁ ++ .field enclosing s :: evs₂) =
        paths evs₁ ++ (enclosing ++ [s]) :: paths evs₂ := List.filterMap_append
    -- the attribute of that name is the one for a path before
    obtain ⟨_, _, _, rfl, hall⟩ := of_foldlM_record_eq_ok has₁
    have hmem := Attributes.has_iff_mem_names.1 hhas
    rw [names_of_describes hall, ha.name_eq] at hmem
    obtain ⟨c, hc, hname⟩ := List.mem_map.1 hmem
    rw [hpaths] at hlt ⊢
    refine .inr ⟨enclosing ++ [s], List.mem_append_right _ List.mem_cons_self, c,
      List.mem_append_left _ hc, fun heq => ?_, hname.symm, ?_⟩
    · have := (List.pairwise_append.1 hlt).2.2 c hc _ List.mem_cons_self
      exact List.lt_irrefl _ (heq ▸ this)
    · rw [← Except.error.inj hrecord, ha.name_eq]

/-! ### Flattening the stored fields of a type -/

variable (h p r) in
/-- What is met among the stored fields of a type. -/
def events (d : TypeDescriptor) : List Event :=
  trace h p r p.depthBound [] [] (r.stored d)

theorem run_foldlM_stored (d : TypeDescriptor) (extra : Nat) :
    ((r.stored d).foldlM (flatten h p r d.key (p.depthBound + extra) {}) {}).run =
      some (((events h p r d).foldlM (record h p d.key) []).map (Flattening.mk · [])) := by
  have hopened : Opened h p r [] (r.stored d) := .nil _
  have hfuel : p.depthBound ≤ p.depthBound + extra + ([] : List TypeKey).length :=
    Nat.le_trans (Nat.le_add_right ..) (Nat.le_add_right ..)
  rw [events, trace_eq p.depthBound (p.depthBound + extra) [] [] _ hopened
    (Nat.le_add_right ..) hfuel]
  exact run_foldlM_flatten d.key _ [] [] _ hopened hfuel []

theorem ownAttributes_eq_foldlM (d : TypeDescriptor) :
    ownAttributes h p r d = (events h p r d).foldlM (record h p d.key) [] := by
  have hrun := run_foldlM_stored (h := h) (p := p) (r := r) d 0
  rw [Nat.add_zero, FieldReader.stored] at hrun
  rw [ownAttributes, hrun, Option.getD_some]
  cases (events h p r d).foldlM (record h p d.key) [] with
  | error fault => rfl
  | ok own => rfl

theorem access_of_mem_paths {d : TypeDescriptor} {c : List Segment}
    (hc : c ∈ paths (events h p r d)) : IsAccessPath h p r (r.stored d) c := by
  obtain ⟨ev, hev, hpath⟩ := List.mem_filterMap.1 hc
  obtain ⟨c', hc', rfl⟩ := access_of_mem_trace hev hpath
  exact hc'

/-- What is known where flattening succeeds. -/
theorem of_ownAttributes_eq_ok {d : TypeDescriptor} {own : Attributes}
    (hown : ownAttributes h p r d = .ok own) :
    Acyclic h p r (r.stored d) ∧ DistinctNames h p r (r.stored d) ∧
      (∀ c, c ∈ paths (events h p r d) ↔ IsAccessPath h p r (r.stored d) c) ∧
      List.Forall₂ (Describes h p d.key) (paths (events h p r d)) own := by
  rw [ownAttributes_eq_foldlM] at hown
  obtain ⟨hcloses, hnd, _, rfl, hall⟩ := of_foldlM_record_eq_ok hown
  have hmem (c : List Segment) :
      c ∈ paths (events h p r d) ↔ IsAccessPath h p r (r.stored d) c := by
    refine ⟨access_of_mem_paths, fun hc => ?_⟩
    obtain ⟨ev, hev, hpath⟩ := mem_trace_of_access (.nil _) (Nat.le_add_right ..) hcloses hc
    exact List.mem_filterMap.2 ⟨ev, hev, hpath⟩
  refine ⟨?_, fun c c' hc hc' hname => ?_, hmem, hall⟩
  · rintro e ⟨f, hf, e', he', hpart⟩
    have hacc := acc_of_trace (.nil _) (Nat.le_add_right ..) hcloses hf he'
    exact not_transGen_self (acc_of_reflTransGen hacc hpart)
  · have hnd := hnd List.nodup_nil
    rw [names_of_describes hall] at hnd
    exact List.inj_on_of_nodup_map hnd ((hmem c).2 hc) ((hmem c').2 hc') hname

/-- What is known where flattening fails. -/
theorem of_ownAttributes_eq_error {d : TypeDescriptor} {fault : ConfigurationFault}
    (hown : ownAttributes h p r d = .error fault) :
    (∃ e, Embedded h p r (r.stored d) e ∧ TransGen (PartOf h p r) e e ∧
        fault = .cycle e.key) ∨
      ∃ c c', IsAccessPath h p r (r.stored d) c ∧ IsAccessPath h p r (r.stored d) c' ∧ c ≠ c' ∧
        dotted c = dotted c' ∧ fault = .duplicateAttribute d.key (dotted c) := by
  rw [ownAttributes_eq_foldlM] at hown
  obtain ⟨e, he, rfl⟩ | ⟨c, hc, c', hc', hne, hname, rfl⟩ :=
    of_foldlM_record_eq_error (pairwise_paths_trace ..) hown
  · obtain ⟨hembedded, hcycle⟩ := embedded_of_closes (.nil _) he
    exact .inl ⟨e, hembedded, hcycle, rfl⟩
  · exact .inr ⟨c, c', access_of_mem_paths hc, access_of_mem_paths hc', hne, hname, rfl⟩

/-- Flattening the stored fields of a type ends, whatever the depth, if that is enough. It
    succeeds if and only if no value object is part of itself and access paths have distinct
    names. Then there is one attribute for each access path, in depth-first order. Otherwise
    the fault is a value object that is part of itself, or the name of two access paths. -/
theorem ownAttributes_exact (h : Hierarchy) (p : Discovery) (r : FieldReader)
    (d : TypeDescriptor) :
    (∀ extra, ((r.stored d).foldlM (flatten h p r d.key (p.depthBound + extra) {}) {}).run =
        some ((ownAttributes h p r d).map (Flattening.mk · []))) ∧
      ((∃ own, ownAttributes h p r d = .ok own) ↔
        Acyclic h p r (r.stored d) ∧ DistinctNames h p r (r.stored d)) ∧
      (∀ own, ownAttributes h p r d = .ok own →
        ∃ cs : List (List Segment), cs.Pairwise (positions · < positions ·) ∧
          (∀ c, c ∈ cs ↔ IsAccessPath h p r (r.stored d) c) ∧
          List.Forall₂ (Describes h p d.key) cs own) ∧
      ∀ fault, ownAttributes h p r d = .error fault →
        (∃ e, Embedded h p r (r.stored d) e ∧ TransGen (PartOf h p r) e e ∧
          fault = .cycle e.key) ∨
        ∃ c c', IsAccessPath h p r (r.stored d) c ∧ IsAccessPath h p r (r.stored d) c' ∧ c ≠ c' ∧
          dotted c = dotted c' ∧ fault = .duplicateAttribute d.key (dotted c) := by
  refine ⟨fun extra => ?_, ⟨fun ⟨own, hown⟩ => ?_, fun ⟨hacyclic, hdistinct⟩ => ?_⟩,
    fun own hown => ?_, fun fault => of_ownAttributes_eq_error⟩
  · rw [ownAttributes_eq_foldlM]
    exact run_foldlM_stored d extra
  · obtain ⟨hacyclic, hdistinct, _⟩ := of_ownAttributes_eq_ok hown
    exact ⟨hacyclic, hdistinct⟩
  · cases hown : ownAttributes h p r d with
    | ok own => exact ⟨own, rfl⟩
    | error fault =>
      obtain ⟨e, he, hcycle, _⟩ | ⟨c, c', hc, hc', hne, hname, _⟩ :=
        of_ownAttributes_eq_error hown
      · exact absurd hcycle (hacyclic e he)
      · exact absurd (hdistinct c c' hc hc' hname) hne
  · obtain ⟨_, _, hmem, hall⟩ := of_ownAttributes_eq_ok hown
    exact ⟨_, pairwise_paths_trace .., hmem, hall⟩

/-- A value object may be held by several fields side by side, and by another value object that
    is held as well. -/
example :
    let geo : TypeDescriptor :=
      { key := ⟨"Geo"⟩, kind := .valueObject
        fields := [{ name := "x", valueType := .scalar "int" }] }
    let address : TypeDescriptor :=
      { key := ⟨"Address"⟩, kind := .valueObject
        fields := [{ name := "geo", valueType := .named ⟨"Geo"⟩ }] }
    let p : Discovery := { root := ⟨"R"⟩, described := [geo, address], find := fun _ => .ok [] }
    let d : TypeDescriptor :=
      { key := ⟨"D"⟩, kind := .classType
        fields := [{ name := "home", valueType := .named ⟨"Address"⟩ },
          { name := "work", valueType := .named ⟨"Address"⟩ },
          { name := "spot", valueType := .named ⟨"Geo"⟩ }] }
    (ownAttributes (Hierarchy.Builder.new p.root).toHierarchy p .ofDescriptor d).map (·.names) =
      .ok ["home", "home.geo", "home.geo.x", "work", "work.geo", "work.geo.x",
        "spot", "spot.x"] := by
  decide

end Catalogue

end Lineage
