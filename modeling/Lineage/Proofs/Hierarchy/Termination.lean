import Lineage.Proofs.Hierarchy.Building

/-!
# Adding a type ends

Three recursions make up the adding of a type: the search for cycles, the search for the
root, and the insertion. Only the first one keeps a record of the types in progress. The
other two would go round for ever in a cycle, and what is described may be full of them.

A recursion of bounded depth ends if its outcome is the same for all bounds that are large
enough. The search for cycles has been shown to stay within its bound, and the outcomes for
any two bounds agree as far as there are any (`searchCycles_fuel_agree`).

For the other two more is shown. `guardedSearch` and `guardedAttach` are the same recursions,
but they are told which types are in progress, and have no outcome where they meet one of
them. They come to what the unguarded recursions come to:

* Once the search for cycles has passed, the new type is accessible, and so is all that is
  above it. A type that is met is above all types in progress, hence none of them
  (`AboveAll.not_mem`).
* What is in the hierarchy already need not be accessible, since it is looked up again by the
  search for the root with what discovery tells. But it is known to descend from the root,
  and the search goes no further there.
-/

namespace Lineage.Hierarchy.Builder

open Relation

variable {b : Builder} {p : Discovery} {d : TypeDescriptor} {root : TypeKey}

/-! ### The search for cycles -/

/-- The outcomes of the search for cycles agree, whatever the bounds. -/
theorem searchCycles_fuel_agree (fuel fuel' : Nat) (e : TypeDescriptor) (t : Trail) :
    Bounded.Agree Eq (b.searchCycles p fuel e t) (b.searchCycles p fuel' e t) := by
  induction fuel generalizing fuel' e t with
  | zero => exact .deep (.inl rfl)
  | succ fuel ih =>
    cases fuel' with
    | zero => exact .deep (.inr rfl)
    | succ fuel' =>
      rw [searchCycles_succ, searchCycles_succ]
      refine .bind (.foldlM (fun parent _ t _ h => ?_) rfl) fun _ _ h => .pure (h ▸ rfl)
      subst h
      rw [visit, visit]
      split_ifs
      · exact .throw _
      · exact .pure rfl
      · split
        next => exact .pure rfl
        next e' _ => exact ih fuel' e' t

/-! ### The search for the root -/

variable (p) in
/-- `searchRoot`, told which types are in progress, without an outcome where it meets one of
    them. -/
def guardedSearch : Nat → List TypeKey → TypeKey → StateT (List TypeKey) Option Bool
  | 0, _, _ => fun _ => none
  | fuel + 1, path, k =>
    if path.contains k then fun _ => none else seek p (guardedSearch fuel (k :: path)) k

theorem guardedSearch_succ (fuel : Nat) {path : List TypeKey} {k : TypeKey} (hk : k ∉ path) :
    guardedSearch p (fuel + 1) path k = seek p (guardedSearch p fuel (k :: path)) k := by
  rw [guardedSearch, if_neg (by simpa using hk)]

/-- Once the search for cycles has passed, the search for the root meets no type in
    progress. -/
theorem run_guardedSearch (hacc : Acc (b.Above p d) d.key) (fuel fuel' : Nat) (k : TypeKey)
    (path known : List TypeKey) (hpath : IsPath p d path) (hk : AboveAll b p d path k)
    (hfuel : p.depthBound ≤ fuel + path.length) (hfuel' : p.depthBound ≤ fuel' + path.length)
    (hknown : ∀ k, b.contains k = true → k ∈ known) :
    (guardedSearch p fuel path k).run known = (searchRoot p fuel' k).run known := by
  induction fuel generalizing fuel' k path known with
  | zero => exact absurd (hpath.fuel_pos hfuel) (Nat.lt_irrefl 0)
  | succ fuel ih =>
    obtain ⟨fuel', rfl⟩ := Nat.exists_eq_add_one.2 (hpath.fuel_pos hfuel')
    rw [guardedSearch_succ fuel (hk.not_mem hpath hacc), searchRoot_succ, run_seek, run_seek]
    split_ifs with hmem
    · rfl
    -- what is in the hierarchy is known to descend from the root
    have hb : b.contains k = false := by
      by_contra hb
      exact hmem (by simpa using hknown k (by simpa using hb))
    have hseen := hk.seen_eq hpath hacc hb
    split
    next => rfl
    next e he =>
      obtain ⟨rfl, hdesc⟩ := Discovery.key_of_describe? he
      -- the supertypes are searched with the type in progress, which they are above
      have hpath' : IsPath p d (e.key :: path) := hpath.cons hdesc (hk.not_mem hpath hacc)
      have hk' : ∀ parent ∈ e.supertypes, AboveAll b p d (e.key :: path) parent :=
        fun parent hparent => hk.cons ⟨e, hseen.trans he, hparent⟩
      refine congrArg _ (Discovery.run_anyM_congr
        (fun known => ∀ k, b.contains k = true → k ∈ known) (fun parent hparent known hknown => ?_)
        (fun parent hparent known known' hknown hr => ?_) hknown)
      · exact ih fuel' parent _ known hpath' (hk' parent hparent)
          (Bounded.le_add_length_cons hfuel _) (Bounded.le_add_length_cons hfuel' _) hknown
      · obtain ⟨_, _, hr', hsub⟩ := exists_run_searchRoot hacc fuel' parent _ known hpath'
          (hk' parent hparent) (Bounded.le_add_length_cons hfuel' _) hknown
        obtain ⟨_, rfl⟩ := Prod.mk.inj (Option.some.inj (hr.symm.trans hr'))
        exact fun k hk => hsub (hknown k hk)

/-! ### The insertion -/

variable (p) in
/-- `descendsFromRoot`, searched at most to the given depth, told which types are in
    progress. -/
def guardedDescends (bound : Nat) (path : List TypeKey) (k : TypeKey) : Step Bool :=
  ExceptT.mk fun b => do
    let (found, known) ← (guardedSearch p bound path k).run b.reachesRoot
    return (.ok found, { b with reachesRoot := known })

variable (p) in
/-- `attach`, told which types are in progress, without an outcome where it meets one of them,
    or where the search for the root does. The searches go at most to the first depth, the
    insertion at most to the second. -/
def guardedAttach (bound : Nat) : Nat → List TypeKey → TypeDescriptor → Step Nat
  | 0, _, _ => ExceptT.mk fun _ => none
  | fuel + 1, path, d =>
    if path.contains d.key then ExceptT.mk fun _ => none
    else do
      match (← get).position? d.key with
      | some i => return i
      | none =>
        let parents ← d.supertypes.foldlM (place p (guardedDescends p bound (d.key :: path))
          (guardedAttach bound fuel (d.key :: path))) []
        if parents.isEmpty then throw (.unreachable d.key)
        modifyGet fun b => (b.nodes.length, b.insert d parents)

theorem run_guardedDescends (hacc : Acc (b.Above p d) d.key) {bound : Nat}
    (hbound : p.depthBound ≤ bound) {path : List TypeKey} (hpath : IsPath p d path) {k : TypeKey}
    (hk : AboveAll b p d path k) {b' : Builder} (hb' : b.Grown root b') :
    (guardedDescends p bound path k).run b' = (descendsFromRoot p k).run b' := by
  have := run_guardedSearch hacc bound p.depthBound k path b'.reachesRoot hpath hk
    (hbound.trans (Nat.le_add_right ..)) (Nat.le_add_right ..)
    fun k hk => hb'.sound.known k (hb'.contains hk)
  exact congrArg (· >>= _) this

/-- Two rounds come to the same if the two steps of which they consist do. -/
theorem run_place_congr {descends descends' : TypeKey → Step Bool}
    {insert insert' : TypeDescriptor → Step Nat} {parents : List Nat} {parent : TypeKey}
    {b' : Builder} (hdescends : (descends parent).run b' = (descends' parent).run b')
    (hinsert : ∀ found b'' e, (descends' parent).run b' = some (.ok found, b'') →
      b''.position? parent = none → p.describe? parent = some e →
      (insert e).run b'' = (insert' e).run b'') :
    (place p descends insert parents parent).run b' =
      (place p descends' insert' parents parent).run b' := by
  refine Step.run_bind_congr hdescends fun found b'' hr => ?_
  cases found with
  | false => rfl
  | true =>
    simp only [if_true, Step.run_get_bind]
    split
    next => rfl
    next hnone =>
      split
      next => rfl
      next e he =>
        exact Step.run_bind_congr (hinsert true b'' e hr hnone he) fun _ _ _ => rfl

theorem guardedAttach_succ (bound fuel : Nat) {path : List TypeKey} {e : TypeDescriptor}
    (he : e.key ∉ path) :
    guardedAttach p bound (fuel + 1) path e = (do
      match (← get).position? e.key with
      | some i => return i
      | none =>
        let parents ← e.supertypes.foldlM (place p (guardedDescends p bound (e.key :: path))
          (guardedAttach p bound fuel (e.key :: path))) []
        if parents.isEmpty then throw (.unreachable e.key)
        modifyGet fun b => (b.nodes.length, b.insert e parents)) := by
  rw [guardedAttach, if_neg (by simpa using he)]

/-- Once the search for cycles has passed, neither the insertion nor its searches for the root
    meet a type in progress. -/
theorem run_guardedAttach (hacc : Acc (b.Above p d) d.key) {bound : Nat}
    (hbound : p.depthBound ≤ bound) (fuel fuel' : Nat) (e : TypeDescriptor) (path : List TypeKey)
    (b' : Builder) (he : b.seen p d e.key = some e) (hpath : IsPath p d (e.key :: path))
    (habove : AboveAll b p d path e.key) (hfuel : p.depthBound ≤ fuel + path.length)
    (hfuel' : p.depthBound ≤ fuel' + path.length) (hb' : b.Grown root b') :
    (guardedAttach p bound fuel path e).run b' = (attach p fuel' e).run b' := by
  induction fuel generalizing fuel' e path b' with
  | zero => exact absurd (hpath.fuel_pos (Nat.le_succ_of_le hfuel)) (Nat.lt_irrefl 0)
  | succ fuel ih =>
    obtain ⟨fuel', rfl⟩ := Nat.exists_eq_add_one.2 (hpath.fuel_pos (Nat.le_succ_of_le hfuel'))
    have hlong := Bounded.le_add_length_cons hfuel e.key
    have hlong' := Bounded.le_add_length_cons hfuel' e.key
    rw [guardedAttach_succ bound fuel (List.nodup_cons.1 hpath.nodup).1, attach_succ]
    simp only [Step.run_get_bind]
    cases b'.position? e.key with
    | some i => rfl
    | none =>
      refine Step.run_bind_congr (Step.Ensures.run_foldlM_eq
        (fun l parents b'' => l ⊆ e.supertypes ∧ Placing b p d root e.key b' parents b'')
        (fun _ _ => True) (fun parent l parents b₁ h => ?_) _ _ _
        ⟨List.Subset.refl _, .start hb'.sound⟩) fun _ _ _ => rfl
      obtain ⟨hsub, hplacing⟩ := h
      obtain ⟨hmem, hsub⟩ := List.cons_subset.1 hsub
      have habove' : AboveAll b p d (e.key :: path) parent := habove.cons ⟨e, he, hmem⟩
      have hb₁ : b.Grown root b₁ := hb'.trans hplacing.grown
      constructor
      · refine run_place_congr (run_guardedDescends hacc hbound hpath habove' hb₁)
          fun found b₂ e' hr hnone he' => ?_
        have hgrown := descendsFromRoot_ensures hacc hpath habove' hb₁
        rw [Step.Ensures, hr] at hgrown
        have hb₂ : b.Grown root b₂ := hb₁.trans hgrown.1
        -- a missing supertype is inserted with the type in progress
        obtain ⟨hseen, hpath', hpabove⟩ := habove'.lengthen hpath hacc hb₂ hnone he'
        exact ih fuel' e' _ b₂ hseen hpath' hpabove hlong hlong' hb₂
      · refine (place_ensures hacc he hpath habove hb' (fun e' b₁ he' hpath' habove' hb₁ => ?_) hmem
          hplacing).mono (fun _ _ hplacing => ⟨hsub, hplacing⟩) fun _ _ _ => trivial
        exact attach_ensures hacc fuel' e' _ b₁ he' hpath' habove' hlong' hb₁

/-- The search for cycles would refuse this type, as its supertype is described to be one of
    its subtypes. Without it the insertion would meet the type while it is in progress, find
    another description of it, and insert it twice. -/
example :
    let p : Discovery :=
      { root := ⟨"R"⟩
        described := [{ key := ⟨"A"⟩, kind := .classType, superclass := some ⟨"R"⟩ },
          { key := ⟨"B"⟩, kind := .classType, superclass := some ⟨"A"⟩ }]
        find := fun _ => .ok [] }
    let d : TypeDescriptor := { key := ⟨"A"⟩, kind := .classType, superclass := some ⟨"B"⟩ }
    (guardedAttach p p.depthBound p.depthBound [] d).run (new p.root) = none ∧
      ((attach p p.depthBound d).run (new p.root)).map (·.2.nodes.map Node.key) =
        some [⟨"R"⟩, ⟨"A"⟩, ⟨"B"⟩, ⟨"A"⟩] := by
  decide

/-! ### Adding a type -/

/-- The search for cycles has one outcome, whatever the depth, if that is enough. -/
theorem exists_run_searchCycles (hd : b.contains d.key = false) :
    ∃ verdict, ∀ extra, (b.searchCycles p (p.depthBound + extra) d {}).run = some verdict := by
  have hsome (extra : Nat) : (b.searchCycles p (p.depthBound + extra) d {}).run ≠ none := by
    intro hnone
    have := searchCycles_ensures (p.depthBound + extra) d {} (seen_self hd) (.singleton p d)
      ((Nat.le_add_right ..).trans (Nat.le_add_right ..)) fun _ hk => absurd hk List.not_mem_nil
    rwa [Bounded.Ensures, hnone] at this
  obtain ⟨verdict, hr⟩ := Option.ne_none_iff_exists'.1 (hsome 0)
  exact ⟨verdict, fun extra =>
    ((searchCycles_fuel_agree _ _ d {}).run_eq (hsome extra) (hsome 0)).trans hr⟩

/-- The insertion has one outcome if the new type is accessible, whatever the depth, if that is
    enough, and whether it looks out for types in progress or not. -/
theorem exists_run_attach (hb : b.Sound root) (hd : b.contains d.key = false)
    (hacc : Acc (b.Above p d) d.key) :
    ∃ outcome, ∀ extra, (attach p (p.depthBound + extra) d).run b = some outcome ∧
      (guardedAttach p (p.depthBound + extra) (p.depthBound + extra) [] d).run b =
        some outcome := by
  have habove : AboveAll b p d [] d.key := fun _ h => absurd h List.not_mem_nil
  have hguarded (bound fuel fuel' : Nat) :=
    run_guardedAttach hacc (Nat.le_add_right p.depthBound bound) (p.depthBound + fuel)
      (p.depthBound + fuel') d [] b (seen_self hd) (.singleton p d) habove
      ((Nat.le_add_right ..).trans (Nat.le_add_right ..))
      ((Nat.le_add_right ..).trans (Nat.le_add_right ..)) hb.grown
  obtain ⟨outcome, hr⟩ : ∃ outcome, (attach p p.depthBound d).run b = some outcome := by
    have := attach_ensures hacc p.depthBound d [] b (seen_self hd) (.singleton p d) habove
      (Nat.le_add_right ..) hb.grown
    rcases this.elim with ⟨i, b', hr, _⟩ | ⟨e, b', hr, _⟩
    · exact ⟨_, hr⟩
    · exact ⟨_, hr⟩
  refine ⟨outcome, fun extra => ⟨?_, ?_⟩⟩
  · exact (hguarded 0 0 extra).symm.trans ((hguarded 0 0 0).trans hr)
  · exact (hguarded extra extra 0).trans hr

/-- Whatever types have been added, adding another one ends, with any descriptor and whatever
    cycles there are among the described types. The search for cycles has one outcome for all
    depths that are large enough. Where it passes so has the insertion, and the insertion is
    the same as the one that has no outcome where it, or one of its searches for the root,
    meets a type in progress. -/
theorem add_terminates (p : Discovery) (ds : List TypeDescriptor) (d : TypeDescriptor) :
    let b := (new p.root).addAll p ds
    (add p d).run b ≠ none ∧ (b.contains d.key = false → ∃ verdict,
      (∀ extra, (b.searchCycles p (p.depthBound + extra) d {}).run = some verdict) ∧
        ∀ t, verdict = .ok t → ∃ outcome, ∀ extra,
          (attach p (p.depthBound + extra) d).run b = some outcome ∧
            (guardedAttach p (p.depthBound + extra) (p.depthBound + extra) [] d).run b =
              some outcome) := by
  intro b
  have hb : b.Sound p.root := (sound_new p.root).addAll p ds
  refine ⟨fun hnone => ?_, fun hd => ?_⟩
  · have := add_ensures (p := p) (d := d) hb
    rwa [Step.Ensures, hnone] at this
  · obtain ⟨verdict, hverdict⟩ := exists_run_searchCycles (p := p) hd
    refine ⟨verdict, hverdict, fun t ht => exists_run_attach hb hd ?_⟩
    subst ht
    have hsearch := searchCycles_ensures_acc (p := p) hd
    rwa [Bounded.Ensures, show p.depthBound = p.depthBound + 0 from rfl, hverdict 0] at hsearch

end Lineage.Hierarchy.Builder
