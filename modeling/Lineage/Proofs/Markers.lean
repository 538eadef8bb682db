import Lineage.Proofs.Registry

/-!
# Types found below a marker

A registry finds the registered types from which a marker can be reached by supertypes
(`Registry.findDescending_exact`). The marker need not be registered, types may have
supertypes that are not, and there may be cycles among them.

* The search shares its record of seen types between the supertypes of a type, and takes a
  type that it has seen for one that leads nowhere, though it may still be searching there.
  That no chain to the marker is missed is `Discovery.descends_iff`.
* It ends because the types in progress are distinct and registered. Without a bound on its
  depth it would come to the same: there is an outcome, and all bounds that are large enough
  have the same one (`Discovery.exists_run_search_add`).
* The registered types are those that have been presented for registration, each key once,
  in the order in which the keys came first, whatever was refused in between
  (`Registry.History.map_key_types`, `Registry.History.find?_eq`).
-/

namespace Lineage

open Relation

/-! ### The search ends -/

namespace Discovery

variable {p : Discovery}

/-- A search among types comes to what another one comes to, if anything, as soon as it does
    so at each of the types. -/
theorem run_anyM_of_run_eq_some {σ : Type} {f g : TypeKey → StateT σ Option Bool}
    {l : List TypeKey}
    (hfg : ∀ k ∈ l, ∀ s out, (f k).run s = some out → (g k).run s = some out) {s : σ}
    {out : Bool × σ} (hout : (l.anyM f).run s = some out) : (l.anyM g).run s = some out := by
  induction l generalizing s with
  | nil => exact hout
  | cons k l ih =>
    rw [List.anyM_cons, StateT.run_bind] at hout ⊢
    obtain ⟨⟨r, s₁⟩, hr, hout⟩ := Option.bind_eq_some_iff.1 hout
    obtain ⟨hk, hl⟩ := List.forall_mem_cons.1 hfg
    rw [hk s _ hr]
    cases r with
    | true => exact hout
    | false => exact ih hl hout

/-- Where the search does not reach its bound, it does not matter how large the bound is. -/
theorem run_search_add {marker : TypeKey} {fuel : Nat} {k : TypeKey} {seen : List TypeKey}
    {out : Bool × List TypeKey} (hout : (p.search marker fuel k).run seen = some out)
    (extra : Nat) : (p.search marker (fuel + extra) k).run seen = some out := by
  induction fuel generalizing k seen out with
  | zero => exact nomatch hout
  | succ fuel ih =>
    rw [Nat.succ_add, run_search]
    rw [run_search] at hout
    split_ifs at hout ⊢ with hmem
    · exact hout
    · cases hd : p.describe? k with
      | none => simpa only [hd] using hout
      | some d =>
        simp only [hd] at hout ⊢
        -- one level less is left for the supertypes, with either bound
        refine run_anyM_of_run_eq_some (fun parent _ s out hparent => ?_) hout
        split_ifs at hparent ⊢ with hmarker
        · exact hparent
        · exact ih hparent

/-- The search has one outcome, whatever the depth, if that is enough. It tells whether the
    type descends from the marker. -/
theorem exists_run_search_add (p : Discovery) (marker k : TypeKey) :
    ∃ seen, ∀ extra, (p.search marker (p.depthBound + extra) k).run [] =
      some (p.descends k marker, seen) := by
  obtain ⟨found, seen, hrun, _⟩ := p.exists_run_search marker p.depthBound k [] []
    List.nodup_nil (List.nil_subset _) (List.nil_subset _) (Nat.le_add_right ..)
  refine ⟨seen, fun extra => ?_⟩
  rw [descends_eq_of_run hrun]
  exact run_search_add hrun extra

end Discovery

/-! ### The order of registration -/

namespace Registry

variable {r : Registry} {ds : List TypeDescriptor}

/-- How a registry has been made, with the types that have been presented for registration,
    in order. The root marker is the first one. A type that is refused, or has been
    registered before, counts as presented too. -/
inductive History : Registry → List TypeDescriptor → Prop
  | new (root : TypeKey) : History (new root) [.ofKind root .interfaceType]
  | register {r : Registry} {ds : List TypeDescriptor} (d : TypeDescriptor) :
      History r ds → History ((r.register d).toOption.getD r) (ds ++ [d])
  | setManaged {r : Registry} {ds : List TypeDescriptor} (k : TypeKey) (fields : List Field) :
      History r ds → History (r.setManaged k fields) ds

/-- Every registry that can be made has such a history. -/
theorem made_iff_exists_history : r.Made ↔ ∃ ds, r.History ds := by
  constructor
  · intro hr
    induction hr with
    | new root => exact ⟨_, .new root⟩
    | register d _ ih =>
      obtain ⟨ds, hr⟩ := ih
      exact ⟨_, hr.register d⟩
    | setManaged k fields _ ih =>
      obtain ⟨ds, hr⟩ := ih
      exact ⟨ds, hr.setManaged k fields⟩
  · intro ⟨ds, hr⟩
    induction hr with
    | new root => exact .new root
    | register d _ ih => exact ih.register d
    | setManaged k fields _ ih => exact ih.setManaged k fields

theorem History.registerAll (hr : r.History ds) (ds' : List TypeDescriptor) :
    (r.registerAll ds').History (ds ++ ds') := by
  induction ds' generalizing r ds with
  | nil => exact (List.append_nil ds).symm ▸ hr
  | cons d ds' ih =>
    rw [List.append_cons]
    exact ih (hr.register d)

/-- Registering a type adds it at the end, unless there is one of its key. -/
theorem types_register (r : Registry) (d : TypeDescriptor) :
    ((r.register d).toOption.getD r).types =
      r.types ++ if (r.find? d.key).isSome then [] else [d] := by
  rw [register]
  cases r.find? d.key with
  | none => rfl
  | some known =>
    simp only [Option.isSome_some, if_true, List.append_nil]
    split_ifs <;> rfl

/-- Under each key there is the type that was the first to be presented. -/
theorem History.find?_eq (hr : r.History ds) (k : TypeKey) :
    r.find? k = ds.find? (·.key = k) := by
  induction hr with
  | new root => rfl
  | setManaged _ _ _ ih => exact ih
  | @register r ds d _ ih =>
    rw [find?, types_register, List.find?_append, List.find?_append, ← ih, ← find?]
    -- a type that is left out is not the first of its key
    by_cases hk : d.key = k
    · subst hk
      cases r.find? d.key <;> simp
    · split_ifs <;> simp [hk]

theorem eraseDups_concat (ks : List TypeKey) (k : TypeKey) :
    (ks ++ [k]).eraseDups = ks.eraseDups ++ if k ∈ ks then [] else [k] := by
  rw [List.eraseDups_append]
  by_cases hk : k ∈ ks <;> simp [List.removeAll, List.eraseDups_cons, hk]

/-- The types are in the order in which their keys were first presented. -/
theorem History.map_key_types (hr : r.History ds) :
    r.types.map TypeDescriptor.key = (ds.map TypeDescriptor.key).eraseDups := by
  induction hr with
  | new root => rfl
  | setManaged _ _ _ ih => exact ih
  | @register r ds d _ ih =>
    -- a type is left out if its key has been presented before
    have hknown : (r.find? d.key).isSome = true ↔ d.key ∈ ds.map TypeDescriptor.key := by
      rw [← List.mem_eraseDups, ← ih, find?, List.find?_isSome, List.mem_map]
      simp only [decide_eq_true_eq]
    rw [types_register, List.map_append, List.map_append, List.map_singleton, eraseDups_concat, ih]
    simp only [hknown]
    split_ifs <;> rfl

/-! ### Types below a marker -/

/-- The types are those below the marker, among the types that have been presented for
    registration. -/
structure FindsBelow (r : Registry) (ds : List TypeDescriptor) (marker : TypeKey)
    (found : List TypeDescriptor) : Prop where
  /-- They are registered, and one or more steps to a supertype of a registered type lead
      from them to the marker. -/
  mem_iff : ∀ d, d ∈ found ↔ ds.find? (·.key = d.key) = some d ∧ d.key ≠ marker ∧
    TransGen r.toDiscovery.IsSupertype marker d.key
  /-- They are in the order of registration. -/
  order : (found.map TypeDescriptor.key).Sublist (ds.map TypeDescriptor.key).eraseDups
  /-- None of them is found twice. -/
  nodup : (found.map TypeDescriptor.key).Nodup

/-- Whatever has been presented for registration, and whatever cycles the registered types
    make, the types that are found below a marker are the registered ones, other than the
    marker, that descend from it, each once and in the order of registration. The search from
    each type ends. -/
theorem findDescending_exact (hr : r.History ds) (marker : TypeKey) :
    (∃ found, r.toDiscovery.find marker = .ok found ∧ r.FindsBelow ds marker found) ∧
      ∀ k, ∃ seen, ∀ extra,
        (r.describing.search marker (r.describing.depthBound + extra) k).run [] =
          some (r.describing.descends k marker, seen) := by
  have hlawful : r.Lawful := (made_iff_exists_history.2 ⟨ds, hr⟩).lawful
  have hsublist : (r.findDescending marker).Sublist r.types := List.filter_sublist
  refine ⟨⟨r.findDescending marker, rfl, ?_, ?_, ?_⟩, r.describing.exists_run_search_add marker⟩
  · intro d
    have hregistered : d ∈ r.types ↔ ds.find? (·.key = d.key) = some d := by
      rw [← hr.find?_eq, hlawful.find?_eq_some, and_iff_left rfl]
    rw [findDescending, List.mem_filter, hregistered, Bool.and_eq_true, decide_eq_true_eq,
      Discovery.descends_iff]
    rfl
  · rw [← hr.map_key_types]
    exact hsublist.map TypeDescriptor.key
  · exact hlawful.distinct.sublist (hsublist.map TypeDescriptor.key)

open Hierarchy.Zoo in
/-- Chickens and eggs descend from each other, hence from themselves, and yet chickens are not
    found below chickens. Dogs are found below something that is not registered, although one
    of their supertypes, which comes before it, is not either. Other kinds of eggs and dogs
    are refused, and change nothing. -/
theorem findDescending_exact_farm :
    let ds := [egg, chicken, { egg with isAbstract := true }, dog, { dog with interfaces := [] }]
    let presented := .ofKind ⟨"Resource"⟩ .interfaceType :: ds
    let farm := (new ⟨"Resource"⟩).registerAll ds
    farm.History presented ∧ farm.toDiscovery.find ⟨"Resource"⟩ = .ok [egg, chicken] ∧
      (∃ found, farm.toDiscovery.find chicken.key = .ok found ∧
        farm.FindsBelow presented chicken.key found ∧ egg ∈ found ∧ chicken ∉ found ∧
        TransGen farm.toDiscovery.IsSupertype chicken.key chicken.key) ∧
      ∃ found, farm.toDiscovery.find ⟨"Serializable"⟩ = .ok found ∧
        farm.FindsBelow presented ⟨"Serializable"⟩ found ∧ dog ∈ found := by
  intro ds presented farm
  have hfarm : farm.History presented := (History.new ⟨"Resource"⟩).registerAll ds
  have hbelow {marker : TypeKey} {found : List TypeDescriptor}
      (hfound : farm.findDescending marker = found) : farm.FindsBelow presented marker found := by
    obtain ⟨found', hfound', hbelow⟩ := (findDescending_exact hfarm marker).1
    obtain rfl : found = found' := hfound.symm.trans (Except.ok.inj hfound')
    exact hbelow
  have hegg : egg ∈ farm.findDescending chicken.key := by decide
  refine ⟨hfarm, rfl, ⟨_, rfl, hbelow rfl, hegg, fun hmem => ?_, ?_⟩, _, rfl, hbelow rfl, by decide⟩
  · exact (((hbelow rfl).mem_iff chicken).1 hmem).2.1 rfl
  · exact (((hbelow rfl).mem_iff egg).1 hegg).2.2.tail ⟨chicken, rfl, by decide⟩

end Registry

end Lineage
