import Lineage.Proofs.Catalogue.Components
import Lineage.Proofs.Discovery

/-!
# Requirements only filter

Requirements say nothing about how catalogues are made. They are checked on the metadata that
are there without them, so these are built as they are or not at all
(`Metadata.build_requirements`).

A type falls under a requirement if a chain of described supertypes leads from it to the
marker, through any types: the chain is not one of the hierarchy, it may pass types that the
hierarchy leaves out, and turn round in cycles. That the search finds it is
`Discovery.descends_iff`. What the catalogue of the type holds, on the other hand, is a matter
of the hierarchy. So a type may fall under a requirement that its parents meet, and fail it: it
may replace the component in which the attribute is nested.
-/

namespace Lineage.Metadata

open Relation

variable {h : Hierarchy} {p : Discovery} {r : FieldReader} {m : Metadata} {q : List Requirement}

/-- The type descends from the marker, and its catalogue lacks the attribute that the marker
    requires. -/
structure Offends (p : Discovery) (m : Metadata) (x : Requirement) (k : TypeKey) : Prop where
  ne_marker : k ≠ x.marker
  descends : TransGen p.IsSupertype x.marker k
  lacks : ∀ cat, m.get? k = some cat → cat.has x.field = false

theorem offends_iff {x : Requirement} {k : TypeKey} :
    m.offends p x k = true ↔ Offends p m x k := by
  have hlacks : (!(m.get? k).any (·.has x.field)) = true ↔
      ∀ cat, m.get? k = some cat → cat.has x.field = false := by
    cases m.get? k <;> simp
  rw [offends, Bool.and_eq_true, Bool.and_eq_true, decide_eq_true_iff, Discovery.descends_iff,
    hlacks]
  exact ⟨fun ⟨⟨hne, hdescends⟩, hlacks⟩ => ⟨hne, hdescends, hlacks⟩,
    fun ⟨hne, hdescends, hlacks⟩ => ⟨⟨hne, hdescends⟩, hlacks⟩⟩

/-! ### Checking -/

/-- Of the types in traversal order, the type is the first that offends against a requirement,
    and the requirement is the first that it offends against. -/
structure FirstOffence (h : Hierarchy) (p : Discovery) (m : Metadata) (q : List Requirement)
    (k : TypeKey) (x : Requirement) : Prop where
  offends : Offends p m x k
  first_type : ∃ before after, h.keys = before ++ k :: after ∧
    ∀ j ∈ before, ∀ y ∈ q, ¬ Offends p m y j
  first_requirement : ∃ before after, q = before ++ x :: after ∧ ∀ y ∈ before, ¬ Offends p m y k

/-- The check of one requirement on one type. -/
theorem check_one_eq_ok {x : Requirement} {k : TypeKey} :
    (if m.offends p x k then Except.error (ConfigurationFault.missingAttribute k x.marker x.field)
      else .ok ()) = .ok () ↔ ¬ Offends p m x k := by
  rw [← offends_iff]
  cases m.offends p x k <;> simp

theorem check_one_eq_error {x : Requirement} {k : TypeKey} {e : ConfigurationFault} :
    (if m.offends p x k then Except.error (ConfigurationFault.missingAttribute k x.marker x.field)
      else .ok ()) = .error e ↔ Offends p m x k ∧ e = .missingAttribute k x.marker x.field := by
  rw [← offends_iff]
  cases m.offends p x k <;> simp [eq_comm]

theorem check_eq_ok : m.check h p q = .ok () ↔ ∀ k ∈ h.keys, ∀ x ∈ q, ¬ Offends p m x k := by
  simp only [check, forM_eq_ok, check_one_eq_ok]

theorem check_eq_error {e : ConfigurationFault} : m.check h p q = .error e ↔
    ∃ k x, FirstOffence h p m q k x ∧ e = .missingAttribute k x.marker x.field := by
  simp only [check, forM_eq_error, forM_eq_ok, check_one_eq_ok, check_one_eq_error]
  constructor
  · rintro ⟨before, k, after, hkeys, hbefore, first, x, rest, hq, hfirst, hoffends, rfl⟩
    exact ⟨k, x, ⟨hoffends, ⟨before, after, hkeys, hbefore⟩, first, rest, hq, hfirst⟩, rfl⟩
  · rintro ⟨k, x, ⟨hoffends, ⟨before, after, hkeys, hbefore⟩, first, rest, hq, hfirst⟩, rfl⟩
    exact ⟨before, k, after, hkeys, hbefore, first, x, rest, hq, hfirst, hoffends, rfl⟩

/-! ### Building -/

/-- Without requirements nothing is checked. -/
theorem build_nil : build h p r [] = ofHierarchy h p r := by
  have hcheck (m : Metadata) : m.check h p [] = .ok () :=
    check_eq_ok.2 fun _ _ _ hx => absurd hx List.not_mem_nil
  cases hm : ofHierarchy h p r with
  | error e => exact bind_eq_error.2 (.inl hm)
  | ok m => exact bind_eq_ok.2 ⟨m, hm, bind_eq_ok.2 ⟨(), hcheck m, rfl⟩⟩

theorem build_eq_ok :
    build h p r q = .ok m ↔ build h p r [] = .ok m ∧ m.check h p q = .ok () := by
  rw [build_nil, build]
  simp only [bind_eq_ok, pure_eq_ok]
  constructor
  · rintro ⟨m', hm', _, hcheck, rfl⟩
    exact ⟨hm', hcheck⟩
  · rintro ⟨hm, hcheck⟩
    exact ⟨m, hm, (), hcheck, rfl⟩

theorem build_eq_error {e : ConfigurationFault} : build h p r q = .error e ↔
    build h p r [] = .error e ∨ ∃ m, build h p r [] = .ok m ∧ m.check h p q = .error e := by
  rw [build_nil, build, bind_eq_error]
  refine or_congr_right (exists_congr fun m => and_congr_right fun _ => ?_)
  rw [bind_eq_error]
  exact or_iff_left fun ⟨_, _, hpure⟩ => nomatch hpure

/-- A type does not offend if its catalogue, which it has, holds the attribute. -/
theorem forall_not_offends_iff (hs : h.Sealed) (hm : build h p r [] = .ok m) {x : Requirement} :
    (∀ k ∈ h.keys, ¬ Offends p m x k) ↔
      ∀ k, h.contains k = true → k ≠ x.marker → TransGen p.IsSupertype x.marker k →
        ∃ cat, m.get? k = some cat ∧ cat.has x.field = true := by
  obtain ⟨root, hw⟩ := hs.wellFormed
  refine forall_congr' fun k => ?_
  have hk : k ∈ h.keys ↔ h.contains k = true := by
    rw [Hierarchy.keys, List.mem_map, hw.contains_iff]
    exact exists_congr fun n => and_congr_left fun _ => hw.toList_perm.mem_iff
  rw [hk]
  refine imp_congr_right fun hk => ?_
  obtain ⟨n, hn, rfl⟩ := hw.contains_iff.1 hk
  obtain ⟨cat, _, hcat, _⟩ := exists_catalogue hw hm hn
  constructor
  · intro hnot hne hdescends
    refine ⟨cat, hcat, Bool.not_eq_false _ ▸ fun hlacks => hnot ⟨hne, hdescends, ?_⟩⟩
    rintro cat' hcat'
    obtain rfl := Option.some.inj (hcat.symm.trans hcat')
    exact hlacks
  · rintro hmeets ⟨hne, hdescends, hlacks⟩
    obtain ⟨cat', hcat', hhas⟩ := hmeets hne hdescends
    exact Bool.false_ne_true ((hlacks cat' hcat').symm.trans hhas)

/-- Metadata are built under requirements if they are built without any, the same ones, and if
    the catalogue of each type that descends from the marker of a requirement, other than the
    marker itself, holds the attribute. Where they would be built without requirements, the
    first type that offends is reported, with the first requirement that it offends against.

    So neither the order of the requirements nor their repetition matters to whether the
    metadata are built. -/
theorem build_requirements (hs : h.Sealed) :
    (∀ m, build h p r q = .ok m ↔ build h p r [] = .ok m ∧
      ∀ x ∈ q, ∀ k, h.contains k = true → k ≠ x.marker → TransGen p.IsSupertype x.marker k →
        ∃ cat, m.get? k = some cat ∧ cat.has x.field = true) ∧
    (∀ e, build h p r q = .error e ↔ build h p r [] = .error e ∨
      ∃ m, build h p r [] = .ok m ∧
        ∃ k x, FirstOffence h p m q k x ∧ e = .missingAttribute k x.marker x.field) ∧
    ∀ q', (∀ x, x ∈ q' ↔ x ∈ q) → ∀ m, build h p r q' = .ok m ↔ build h p r q = .ok m := by
  have hok (q : List Requirement) (m : Metadata) : build h p r q = .ok m ↔
      build h p r [] = .ok m ∧ ∀ x ∈ q, ∀ k, h.contains k = true → k ≠ x.marker →
        TransGen p.IsSupertype x.marker k →
          ∃ cat, m.get? k = some cat ∧ cat.has x.field = true := by
    rw [build_eq_ok, check_eq_ok]
    refine and_congr_right fun hm => ?_
    simp only [← forall_not_offends_iff hs hm]
    exact ⟨fun hall x hx k hk => hall k hk x hx, fun hall k hk x hx => hall x hx k hk⟩
  refine ⟨hok q, fun e => ?_, fun q' hq' m => ?_⟩
  · rw [build_eq_error]
    simp only [check_eq_error]
  · rw [hok, hok q]
    simp only [hq']

/-! ### Marked depots -/

namespace Depots

/-- Depots are tracked. What is tracked is audited, what is audited is tracked, and both are
    marked, which is not described. The hierarchy knows nothing of this. -/
def tracking : Discovery :=
  discovery.adjust []
    [{ key := depot
       kind := .classType
       superclass := some site
       interfaces := [⟨"Tracked"⟩]
       fields := [⟨"address", .named ⟨"Gate"⟩, .empty⟩] },
     { key := ⟨"Tracked"⟩, kind := .interfaceType, interfaces := [⟨"Audited"⟩] },
     { key := ⟨"Audited"⟩, kind := .interfaceType, interfaces := [⟨"Tracked"⟩, ⟨"Marked"⟩] }] []

/-- Sites have an address, and depots have one as well. -/
def placed : Requirement := ⟨⟨"Resource"⟩, "address"⟩

/-- What is marked has an address with a city. Sites do, and depots do not. -/
def located : Requirement := ⟨⟨"Marked"⟩, "address.city"⟩

end Depots

open Depots in
theorem build_requirements_depots :
    hierarchy.Sealed ∧
      (∃ m, build hierarchy tracking .ofDescriptor [placed, placed] = .ok m) ∧
      build hierarchy tracking .ofDescriptor [placed, located] =
        .error (.missingAttribute depot ⟨"Marked"⟩ "address.city") := by
  have hs : hierarchy.Sealed := Hierarchy.sealed_built discovery
  obtain ⟨m, hm⟩ : ∃ m, build hierarchy tracking .ofDescriptor [] = .ok m := ⟨_, rfl⟩
  have hnone {q : List Requirement} {ks : List TypeKey}
      (htest : ((build hierarchy tracking .ofDescriptor []).toOption.all fun m =>
        ks.all fun k => q.all fun x => !m.offends tracking x k) = true) :
      ∀ k ∈ ks, ∀ x ∈ q, ¬ Offends tracking m x k := by
    rw [hm] at htest
    simpa [Except.toOption, ← offends_iff] using htest
  have hplaced : ∀ k ∈ hierarchy.keys, ∀ x ∈ [placed], ¬ Offends tracking m x k :=
    hnone (by decide +kernel)
  have hlocated : (build hierarchy tracking .ofDescriptor []).toOption.all
      (·.offends tracking located depot) = true := by decide +kernel
  rw [hm] at hlocated
  refine ⟨hs, ⟨m, ((build_requirements hs).1 m).2 ⟨hm, fun x hx => ?_⟩⟩, ?_⟩
  · have hx : x ∈ [placed] := by simpa using hx
    exact (forall_not_offends_iff hs hm).1 fun k hk => hplaced k hk x hx
  · refine ((build_requirements hs).2.1 _).2 (.inr ⟨m, hm, depot, located, ⟨?_, ?_, ?_⟩, rfl⟩)
    · exact offends_iff.1 hlocated
    · exact ⟨[⟨"Resource"⟩, site], [], by decide +kernel, hnone (by decide +kernel)⟩
    · exact ⟨[placed], [], rfl, hplaced depot (by decide +kernel)⟩

end Lineage.Metadata
