import Lineage.Proofs.Fallible
import Lineage.Proofs.Hierarchy.Building

/-!
# Hierarchies do not depend on fields

What a discovery tells of the fields of types is not looked at while a hierarchy is built
(`Hierarchy.discover_congr`). The searches follow supertypes, and a node takes its key, kind
and parents from a descriptor, so each step comes to the same with two discoveries that agree
in all else (`Discovery.SameTypes`), on descriptors that do.
-/

namespace Lineage

/-- The type without its fields. -/
def TypeDescriptor.fieldless (d : TypeDescriptor) : TypeDescriptor :=
  { d with fields := [] }

section Fieldless

variable {d d' : TypeDescriptor} (hd : d.fieldless = d'.fieldless)
include hd

theorem TypeDescriptor.key_eq : d.key = d'.key :=
  congrArg (·.key) hd

theorem TypeDescriptor.kind_eq : d.kind = d'.kind :=
  congrArg (·.kind) hd

theorem TypeDescriptor.supertypes_eq : d.supertypes = d'.supertypes :=
  congrArg (·.supertypes) hd

end Fieldless

namespace Discovery

/-- The two tell the same of types, apart from their fields. -/
structure SameTypes (p p' : Discovery) : Prop where
  root : p.root = p'.root
  described : p.described.map TypeDescriptor.fieldless = p'.described.map TypeDescriptor.fieldless
  find : ∀ marker, (p.find marker).map (List.map TypeDescriptor.fieldless) =
    (p'.find marker).map (List.map TypeDescriptor.fieldless)

namespace SameTypes

variable {p p' : Discovery} (hp : p.SameTypes p')
include hp

/-- A type is described by both or by neither of them. -/
theorem describe?_cases (k : TypeKey) : p.describe? k = none ∧ p'.describe? k = none ∨
    ∃ d d', p.describe? k = some d ∧ p'.describe? k = some d' ∧ d.fieldless = d'.fieldless := by
  have hmap (p : Discovery) : (p.describe? k).map TypeDescriptor.fieldless =
      (p.described.map TypeDescriptor.fieldless).find? (·.key = k) := by
    rw [describe?, List.find?_map]
    rfl
  have h := hmap p
  rw [hp.described, ← hmap p'] at h
  cases hd : p.describe? k <;> cases hd' : p'.describe? k <;> simp_all

theorem depthBound_eq : p.depthBound = p'.depthBound := by
  have hlength := congrArg List.length hp.described
  rw [List.length_map, List.length_map] at hlength
  rw [depthBound, depthBound, hlength]

theorem isSupertype_iff {parent k : TypeKey} :
    p.IsSupertype parent k ↔ p'.IsSupertype parent k := by
  obtain ⟨hd, hd'⟩ | ⟨d, d', hd, hd', hdd⟩ := hp.describe?_cases k
  · simp [IsSupertype, hd, hd']
  · simp [IsSupertype, hd, hd', TypeDescriptor.supertypes_eq hdd]

/-- The same types descend from a marker. -/
theorem descends_eq (k marker : TypeKey) : p.descends k marker = p'.descends k marker := by
  have hsupertype : p.IsSupertype = p'.IsSupertype := by
    funext parent k
    exact propext hp.isSupertype_iff
  rw [Bool.eq_iff_iff, descends_iff, descends_iff, hsupertype]

end SameTypes

end Discovery

namespace Hierarchy

namespace Builder

variable {p p' : Discovery} {b : Builder} {d d' : TypeDescriptor}

/-- A node takes nothing from the fields of its type. -/
theorem insert_congr (hd : d.fieldless = d'.fieldless) (parents : List Nat) :
    b.insert d parents = b.insert d' parents := by
  have hinsert : b.insert d.fieldless parents = b.insert d'.fieldless parents := by rw [hd]
  exact hinsert

section Congr

variable (hp : p.SameTypes p')
include hp

/-- The search for the root asks for supertypes only. -/
theorem searchRoot_congr (fuel : Nat) : searchRoot p fuel = searchRoot p' fuel := by
  induction fuel with
  | zero => rfl
  | succ fuel ih =>
    funext k
    rw [searchRoot_succ, searchRoot_succ, ih]
    obtain ⟨hd, hd'⟩ | ⟨d, d', hd, hd', hdd⟩ := hp.describe?_cases k
    · simp only [seek, hd, hd']
    · simp only [seek, hd, hd', TypeDescriptor.supertypes_eq hdd]

theorem descendsFromRoot_congr : descendsFromRoot p = descendsFromRoot p' := by
  funext k
  rw [descendsFromRoot, descendsFromRoot, searchRoot_congr hp, hp.depthBound_eq]

/-- So does the search for cycles, and what is left of its trail is the same as well. -/
theorem searchCycles_congr (fuel : Nat) (hd : d.fieldless = d'.fieldless) (t : Trail) :
    b.searchCycles p fuel d t = b.searchCycles p' fuel d' t := by
  induction fuel generalizing d d' t with
  | zero => rfl
  | succ fuel ih =>
    have hvisit : b.visit p (b.searchCycles p fuel) = b.visit p' (b.searchCycles p' fuel) := by
      funext t parent
      obtain ⟨he, he'⟩ | ⟨e, e', he, he', hee⟩ := hp.describe?_cases parent
      · simp only [visit, he, he']
      · simp only [visit, he, he', ih hee]
    rw [searchCycles_succ, searchCycles_succ, hvisit, TypeDescriptor.key_eq hd,
      TypeDescriptor.supertypes_eq hd]

/-- The same nodes are attached in the same order, or attaching fails in the same way. -/
theorem attach_congr (fuel : Nat) (hd : d.fieldless = d'.fieldless) :
    attach p fuel d = attach p' fuel d' := by
  induction fuel generalizing d d' with
  | zero => rfl
  | succ fuel ih =>
    have hplace : place p (descendsFromRoot p) (attach p fuel) =
        place p' (descendsFromRoot p') (attach p' fuel) := by
      funext parents parent
      rw [descendsFromRoot_congr hp]
      obtain ⟨he, he'⟩ | ⟨e, e', he, he', hee⟩ := hp.describe?_cases parent
      · simp only [place, he, he']
      · simp only [place, he, he', ih hee]
    simp only [attach_succ, hplace, TypeDescriptor.key_eq hd, TypeDescriptor.supertypes_eq hd,
      insert_congr hd]

theorem addType_congr (hd : d.fieldless = d'.fieldless) :
    b.addType p d = b.addType p' d' := by
  have hadd : add p d = add p' d' := by
    simp only [add, searchCycles_congr hp _ hd, attach_congr hp _ hd, hp.depthBound_eq,
      TypeDescriptor.key_eq hd]
  rw [addType, addType, hadd, TypeDescriptor.key_eq hd]

/-- Adding types one after the other comes to the same: what is added so far is the same
    builder, so the next type finds the same. -/
theorem addTypes_congr {ds ds' : List TypeDescriptor}
    (hds : ds.map TypeDescriptor.fieldless = ds'.map TypeDescriptor.fieldless) :
    b.addTypes p ds = b.addTypes p' ds' := by
  induction ds generalizing b ds' with
  | nil =>
    obtain rfl := List.map_eq_nil_iff.1 hds.symm
    rw [addTypes, addTypes, List.foldlM_nil, List.foldlM_nil]
  | cons d ds ih =>
    obtain ⟨d', ds', rfl, hd, hds⟩ := List.map_eq_cons_iff.1 hds.symm
    rw [addTypes, addTypes, List.foldlM_cons, List.foldlM_cons, addType_congr hp hd.symm]
    generalize b.addType p' d' = added
    obtain ⟨fault | _, b'⟩ := added
    · dsimp only
      rw [error_bind, error_bind]
    · exact ih hds.symm

end Congr

end Builder

/-- The same hierarchy is discovered, or discovery fails in the same way, whatever fields the
    types have. -/
theorem discover_congr {p p' : Discovery} (hp : p.SameTypes p') : discover p = discover p' := by
  have hfind := hp.find p'.root
  rw [discover, discover, hp.root]
  generalize p.find p'.root = found at hfind ⊢
  generalize p'.find p'.root = found' at hfind ⊢
  cases found with
  | error e =>
    cases found' with
    | error e' => rw [error_bind, error_bind, show e = e' from Except.error.inj hfind]
    | ok ds' => simp [Except.map] at hfind
  | ok ds =>
    cases found' with
    | error e' => simp [Except.map] at hfind
    | ok ds' => rw [ok_bind, ok_bind, Builder.addTypes_congr hp (Except.ok.inj hfind)]

end Hierarchy

end Lineage
