import Lineage.Proofs.Hierarchy.Termination

/-!
# The search for cycles decides

The search for cycles fails if and only if a cycle can be reached from the new type, whatever
is in the hierarchy and whatever the descriptor (`searchCycles_exact`).

* Where it fails there is a cycle. All types on the path are below the supertype that is looked
  at, so one that is on the path itself is above itself (`visit_permits_cycle`,
  `searchCycles_permits_cycle`).
* Where it passes there is none. Then the new type is accessible, and nothing above an
  accessible type is above itself. That a type which was visited and left is not searched again
  does no harm, since it is accessible: a diamond is no cycle, and hides none.

The new type may be described otherwise by discovery than by its descriptor. The search goes by
the descriptor. It might as well go by both, once it has started with the supertypes in the
descriptor: what comes back to the new type closes a cycle anyway (`acc_linked`).
-/

namespace Lineage.Hierarchy.Builder

open Relation

variable {b : Builder} {p : Discovery} {d : TypeDescriptor}

/-- A cycle is above the type, and the other type lies on it. -/
structure CycleAbove (r : TypeKey → TypeKey → Prop) (k x : TypeKey) : Prop where
  above : ReflTransGen r x k
  cycle : TransGen r x x

theorem CycleAbove.not_acc {r : TypeKey → TypeKey → Prop} {k x : TypeKey}
    (hx : CycleAbove r k x) : ¬ Acc r k :=
  fun hk => not_transGen_self (acc_of_reflTransGen hk hx.above) hx.cycle

/-! ### Where the search fails -/

/-- A round fails only if the supertype is on the path, and then it is above itself. -/
theorem visit_permits_cycle {search : TypeDescriptor → Trail → Bounded TypeKey Trail} {t : Trail}
    {parent : TypeKey} (hadded : d.key ∈ t.path) (habove : AboveAll b p d t.path parent)
    (hsearch : ∀ e, e.key = parent → b.seen p d e.key = some e →
      (search e t).Permits (·.path = t.path) (CycleAbove (b.Above p d) d.key)) :
    (b.visit p search t parent).Permits (·.path = t.path) (CycleAbove (b.Above p d) d.key) := by
  rw [visit]
  split_ifs with hmem hskip
  · have hmem : parent ∈ t.path := by simpa using hmem
    exact .throw ⟨(habove d.key hadded).to_reflTransGen, habove parent hmem⟩
  · exact .pure rfl
  · split
    next => exact .pure rfl
    next e he =>
      obtain ⟨rfl, _⟩ := Discovery.key_of_describe? he
      -- the type that is added is on the path, so the supertype is another
      have hne : e.key ≠ d.key := fun h => hmem (by simpa [h] using hadded)
      have hb : ¬ b.contains e.key = true := fun h => hskip (by rw [h, Bool.or_true])
      refine hsearch e rfl ?_
      rw [seen, if_neg hb, if_neg hne, he]

/-- The search fails only at a cycle that is above the new type. If it passes, the path is as it
    was. -/
theorem searchCycles_permits_cycle (fuel : Nat) (e : TypeDescriptor) (t : Trail)
    (he : b.seen p d e.key = some e) (hadded : d.key ∈ e.key :: t.path)
    (habove : AboveAll b p d t.path e.key) :
    (b.searchCycles p fuel e t).Permits (·.path = t.path)
      (CycleAbove (b.Above p d) d.key) := by
  induction fuel generalizing e t with
  | zero => exact .inl rfl
  | succ fuel ih =>
    rw [searchCycles_succ]
    refine .bind (.mono (.foldlM (fun l t' => l ⊆ e.supertypes ∧ t'.path = e.key :: t.path)
      ?_ _ _ ⟨List.Subset.refl _, rfl⟩) (fun t' h => .pure ?_) fun _ => id)
    · rintro parent l t' ⟨hl, hon⟩
      obtain ⟨hparent, hl⟩ := List.cons_subset.1 hl
      have hadded' : d.key ∈ t'.path := hon ▸ hadded
      have habove' : AboveAll b p d t'.path parent := hon ▸ habove.cons ⟨e, he, hparent⟩
      refine (visit_permits_cycle hadded' habove' fun e' hkey he' => ?_).mono
        (fun t'' h => ⟨hl, h.trans hon⟩) fun _ => id
      exact ih e' t' he' (List.mem_cons_of_mem _ hadded') (hkey ▸ habove')
    · rw [Trail.leave, h.2, List.erase_cons_head]

/-! ### Going by the descriptor and by discovery -/

/-- The first type is a supertype of the second, by the descriptor of the new type or as
    discovery describes a type that is not in the hierarchy. -/
def Linked (b : Builder) (p : Discovery) (d : TypeDescriptor) (parent k : TypeKey) : Prop :=
  k = d.key ∧ parent ∈ d.supertypes ∨ b.contains k = false ∧ p.IsSupertype parent k

theorem linked_of_above {parent k : TypeKey} (h : b.Above p d parent k) :
    b.Linked p d parent k := by
  obtain ⟨e, he, hparent⟩ := h
  rw [seen] at he
  split_ifs at he with hb hk
  · obtain rfl := Option.some.inj he
    exact .inl ⟨hk, hparent⟩
  · exact .inr ⟨by simpa using hb, e, he, hparent⟩

theorem above_of_linked {parent k : TypeKey} (h : b.Linked p d parent k) (hk : k ≠ d.key) :
    b.Above p d parent k := by
  obtain ⟨hkd, _⟩ | ⟨hb, e, he, hparent⟩ := h
  · exact absurd hkd hk
  · exact ⟨e, by rw [seen, if_neg (by simp [hb]), if_neg hk, he], hparent⟩

/-- If the new type is accessible then so are its supertypes, also by what discovery tells of
    the new type, which is not above them. -/
theorem acc_linked (hacc : Acc (b.Above p d) d.key) {k : TypeKey}
    (hk : TransGen (b.Above p d) k d.key) : Acc (b.Linked p d) k := by
  have haccₖ := hacc.inv_of_transGen hk
  induction haccₖ with
  | intro k _ ih =>
    have hne : k ≠ d.key := by
      rintro rfl
      exact not_transGen_self hacc hk
    refine .intro k fun parent hparent => ?_
    have hparent := above_of_linked hparent hne
    exact ih parent hparent (hk.head hparent)

/-- The last step to the new type starts at one of its supertypes. -/
theorem CycleAbove.exists_supertype (hd : b.contains d.key = false) {x : TypeKey}
    (hx : CycleAbove (b.Above p d) d.key x) :
    ∃ k ∈ d.supertypes, CycleAbove (b.Linked p d) k x := by
  obtain ⟨k, hxk, e, he, hk⟩ := TransGen.tail'_iff.1 (hx.cycle.trans_left hx.above)
  obtain rfl := Option.some.inj ((seen_self hd).symm.trans he)
  exact ⟨k, hk, ReflTransGen.mono (fun _ _ => linked_of_above) _ _ hxk,
    TransGen.mono (fun _ _ => linked_of_above) _ _ hx.cycle⟩

/-! ### The decision -/

/-- A failed search is what the type is refused for. -/
theorem addType_of_run_searchCycles (hd : b.contains d.key = false) {x : TypeKey}
    (hx : (b.searchCycles p p.depthBound d {}).run = some (.error x)) :
    b.addType p d = (.error (.cycle x), b) := by
  have hrun : (add p d).run b = some (.error (.cycle x), b) := by
    rw [add, Step.run_get_bind, hd]
    simp only [Bool.false_eq_true, if_false]
    rw [Step.run_get_bind, hx]
    rfl
  rw [addType, hrun]
  rfl

/-- The search for cycles from a type that is not in the hierarchy ends. It fails if and only if
    a cycle is above the type, as far as types are looked up: the descriptor tells the
    supertypes of the type itself, and discovery those of types that are not in the hierarchy,
    where it makes no difference what it tells of the type itself. The type at which the search
    fails lies on such a cycle, and is what the type is refused for. If the search passes, the
    path is empty again. -/
theorem searchCycles_exact (b : Builder) (p : Discovery) (d : TypeDescriptor)
    (hd : b.contains d.key = false) :
    ∃ verdict, (∀ extra, (b.searchCycles p (p.depthBound + extra) d {}).run = some verdict) ∧
      ((∃ x, verdict = .error x) ↔ ∃ x, CycleAbove (b.Above p d) d.key x) ∧
      ((∃ x, verdict = .error x) ↔ ∃ k ∈ d.supertypes, ∃ x, CycleAbove (b.Linked p d) k x) ∧
      (∀ x, verdict = .error x → CycleAbove (b.Above p d) d.key x ∧
        b.addType p d = (.error (.cycle x), b)) ∧
      ∀ t, verdict = .ok t → t.path = [] := by
  obtain ⟨verdict, hverdict⟩ := exists_run_searchCycles (p := p) hd
  have hrun : (b.searchCycles p p.depthBound d {}).run = some verdict := hverdict 0
  have hsearch := (searchCycles_permits_cycle p.depthBound d {} (seen_self hd)
    List.mem_cons_self fun _ h => absurd h List.not_mem_nil).and_ensures
      (searchCycles_ensures_acc (p := p) hd)
  refine ⟨verdict, hverdict, ?_⟩
  obtain ⟨t, ht, hpath, hacc⟩ | ⟨x, hx, hcycle, _⟩ := hsearch.elim
  · obtain rfl := Option.some.inj (hrun.symm.trans ht)
    refine ⟨iff_of_false (fun ⟨_, h⟩ => nomatch h) fun ⟨x, hx⟩ => hx.not_acc hacc,
      iff_of_false (fun ⟨_, h⟩ => nomatch h) fun ⟨k, hk, x, hx⟩ => hx.not_acc ?_,
      (fun _ h => nomatch h), fun t' h => ?_⟩
    · exact acc_linked hacc (.single ⟨d, seen_self hd, hk⟩)
    · obtain rfl := Except.ok.inj h
      exact hpath
  · obtain rfl := Option.some.inj (hrun.symm.trans hx)
    obtain ⟨k, hk, hcycle'⟩ := hcycle.exists_supertype hd
    refine ⟨iff_of_true ⟨x, rfl⟩ ⟨x, hcycle⟩, iff_of_true ⟨x, rfl⟩ ⟨k, hk, x, hcycle'⟩,
      fun x' h => ?_, fun _ h => nomatch h⟩
    obtain rfl := Except.error.inj h
    exact ⟨hcycle, addType_of_run_searchCycles hd hx⟩

/-! ### Loops -/

namespace Loops

/-- Discovery knows two types that are supertypes of each other. -/
def discovery : Discovery where
  root := ⟨"Resource"⟩
  described := [
    { key := ⟨"Egg"⟩, kind := .classType, superclass := some ⟨"Hen"⟩,
      interfaces := [⟨"Resource"⟩] },
    { key := ⟨"Hen"⟩, kind := .classType, superclass := some ⟨"Egg"⟩ }]
  find _ := .ok []

/-- A type below both, which is not on the cycle itself. -/
def chick : TypeDescriptor where
  key := ⟨"Chick"⟩
  kind := .classType
  superclass := some ⟨"Hen"⟩
  interfaces := [⟨"Egg"⟩]

end Loops

open Loops in
/-- The cycle is found from a type that is not on it. -/
theorem searchCycles_exact_chick :
    let b := new discovery.root
    b.contains chick.key = false ∧ ∃ verdict,
      (b.searchCycles discovery discovery.depthBound chick {}).run = some verdict ∧
      verdict = .error ⟨"Hen"⟩ ∧ CycleAbove (b.Above discovery chick) chick.key ⟨"Hen"⟩ ∧
      b.addType discovery chick = (.error (.cycle ⟨"Hen"⟩), b) := by
  intro b
  have hd : b.contains chick.key = false := by decide
  obtain ⟨verdict, hrun, _, _, herror, _⟩ := searchCycles_exact b discovery chick hd
  have hverdict : verdict = .error ⟨"Hen"⟩ :=
    Option.some.inj ((hrun 0).symm.trans (by decide))
  exact ⟨hd, verdict, hrun 0, hverdict, herror _ hverdict⟩

end Lineage.Hierarchy.Builder
