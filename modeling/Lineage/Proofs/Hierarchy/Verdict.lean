import Lineage.Proofs.Hierarchy.Building

/-!
# What the search for cycles finds

The search for cycles leaves out the types that are in the hierarchy, so what it visits
depends on what has been added before. Where it fails, and with which type, does not
(`Grounded.searchCycles_verdict`).

For types in the hierarchy all chains of supertypes are finite: they are accessible
(`Grounded`). From an accessible type the search never fails, and visits accessible
types only (`searchCycles_permits`). Two searches that start from one type in different
hierarchies may therefore differ in the accessible types that they have visited, but in
no others (`Alike`): whenever one of them comes to a type that is not accessible, so does
the other, with the same path (`searchCycles_agree`).
-/

namespace Lineage

open Relation

/-- The first type is a supertype of the second, and chains of supertypes end at the
    root. -/
def Discovery.Above (p : Discovery) (parent k : TypeKey) : Prop :=
  k ≠ p.root ∧ p.IsSupertype parent k

/-- What is below a resource type is one itself. -/
theorem Discovery.IsResource.below {p : Discovery} {x k : TypeKey} (hx : p.IsResource x)
    (h : ReflTransGen p.Above x k) : p.IsResource k :=
  hx.trans (ReflTransGen.mono (fun _ _ h => h.2) x k h)

namespace Hierarchy.Builder

variable {b b' : Builder} {p : Discovery} {d : TypeDescriptor}

/-! ### Accessible types -/

/-- The root is in the hierarchy, and the types in it are accessible. -/
structure Grounded (b : Builder) (p : Discovery) : Prop where
  root : b.contains p.root = true
  acc : ∀ k, b.contains k = true → Acc p.Above k

theorem contains_eq_false {k : TypeKey} (hk : b.position? k = none) : b.contains k = false := by
  rw [Builder.contains, hk]
  rfl

theorem grounded_new (p : Discovery) : (new p.root).Grounded p where
  root := contains_new.2 rfl
  acc k hk := .intro k fun _ hparent => absurd (contains_new.1 hk) hparent.1

namespace Grounded

variable (hb : b.Grounded p)
include hb

theorem ne_root {k : TypeKey} (hk : b.contains k = false) : k ≠ p.root := by
  rintro rfl
  exact Bool.false_ne_true (hk.symm.trans hb.root)

/-- A type is accessible if it is as far as types are looked up. -/
theorem acc_of_above (hd : p.describe? d.key = some d) {k : TypeKey}
    (hk : Acc (b.Above p d) k) : Acc p.Above k := by
  induction hk with
  | intro k _ ih =>
    by_cases hmem : b.contains k = true
    · exact hb.acc k hmem
    refine .intro k fun parent ⟨_, e, he, hparent⟩ => ih parent ⟨e, ?_, hparent⟩
    rw [seen, if_neg hmem]
    split_ifs with hkd
    · rw [← hd, ← hkd, he]
    · exact he

end Grounded

/-! ### One search -/

/-- What a search from a type comes to that meets no cycle: the path is as it was, and
    only types above the type have been visited. -/
structure Passed (p : Discovery) (k : TypeKey) (t t' : Trail) : Prop where
  path_eq : t'.path = t.path
  above : ∀ x ∈ t'.visited, x ∈ t.visited ∨ ReflTransGen p.Above x k
  subset : t.visited ⊆ t'.visited

/-- The type is above the other, and above itself. -/
structure Closes (p : Discovery) (k x : TypeKey) : Prop where
  above : ReflTransGen p.Above x k
  cycle : TransGen p.Above x x

theorem Closes.not_acc {k x : TypeKey} (hx : Closes p k x) : ¬ Acc p.Above k :=
  fun hk => not_transGen_self (acc_of_reflTransGen hk hx.above) hx.cycle

namespace Passed

variable {k parent : TypeKey} {t t' t'' : Trail}

theorem refl (p : Discovery) (k : TypeKey) (t : Trail) : Passed p k t t :=
  ⟨rfl, fun _ => .inl, List.Subset.refl _⟩

/-- After a type the search goes on with another of its supertypes. -/
theorem next (h : Passed p k t t') (h' : Passed p parent t' t'') (hparent : p.Above parent k) :
    Passed p k t t'' where
  path_eq := h'.path_eq.trans h.path_eq
  above x hx := by
    rcases h'.above x hx with hx | hx
    · exact h.above x hx
    · exact .inr (hx.tail hparent)
  subset _ hx := h'.subset (h.subset hx)

theorem leave (h : Passed p k (t.enter k) t') : Passed p k t (t'.leave k) where
  path_eq := by rw [Trail.leave, h.path_eq, Trail.enter, List.erase_cons_head]
  above x hx := by
    rcases h.above x hx with hx | hx
    · exact (List.mem_cons.1 hx).elim (fun e => .inr (e ▸ .refl)) .inl
    · exact .inr hx
  subset _ hx := h.subset (List.mem_cons_of_mem k hx)

end Passed

/-- A round passes the supertype, or closes a cycle above it. -/
theorem visit_permits (hroot : b.contains p.root = true)
    {search : TypeDescriptor → Trail → Bounded TypeKey Trail} {t : Trail} {parent : TypeKey}
    (hsearch : ∀ e, p.describe? parent = some e → parent ≠ p.root →
      (search e t).Permits (Passed p parent t) (Closes p parent))
    (habove : ∀ x ∈ t.path, TransGen p.Above parent x) :
    (b.visit p search t parent).Permits (Passed p parent t) (Closes p parent) := by
  rw [visit]
  split_ifs with hmem hskip
  · -- the supertype is on the path, so it is above itself
    exact .throw ⟨.refl, habove parent (by simpa using hmem)⟩
  · exact .pure (.refl p parent t)
  · have hne : parent ≠ p.root := by
      rintro rfl
      exact hskip (by rw [hroot, Bool.or_true])
    split
    next => exact .pure (.refl p parent t)
    next e he => exact hsearch e he hne

/-- A search from a type passes, or closes a cycle above it. -/
theorem searchCycles_permits (hroot : b.contains p.root = true) (fuel : Nat)
    (e : TypeDescriptor) (t : Trail) (he : p.describe? e.key = some e) (hne : e.key ≠ p.root)
    (habove : ∀ x ∈ t.path, TransGen p.Above e.key x) :
    (b.searchCycles p fuel e t).Permits (Passed p e.key t) (Closes p e.key) := by
  induction fuel generalizing e t with
  | zero => exact .inl rfl
  | succ fuel ih =>
    rw [searchCycles_succ]
    refine .bind (.mono (.foldlM (fun l t' => l ⊆ e.supertypes ∧ Passed p e.key (t.enter e.key) t')
      ?_ _ _ ⟨List.Subset.refl _, .refl p e.key _⟩) (fun t' h => .pure h.2.leave) fun _ => id)
    rintro parent l t' ⟨hl, hpassed⟩
    obtain ⟨hmem, hl⟩ := List.cons_subset.1 hl
    have hparent : p.Above parent e.key := ⟨hne, e, he, hmem⟩
    have habove' : ∀ x ∈ t'.path, TransGen p.Above parent x := by
      rw [hpassed.path_eq]
      exact List.forall_mem_cons.2 ⟨.single hparent, fun x hx => (habove x hx).head hparent⟩
    refine (visit_permits hroot (fun e' he' hne' => ?_) habove').mono
      (fun t'' h => ⟨hl, hpassed.next h hparent⟩) fun x hx => ⟨hx.above.tail hparent, hx.cycle⟩
    obtain ⟨rfl, _⟩ := Discovery.key_of_describe? he'
    exact ih e' t' he' hne' habove'

/-! ### Two searches -/

/-- The trails have the given path, and the same types have been visited on them, as far
    as they are not accessible. -/
structure Alike (p : Discovery) (path : List TypeKey) (t t' : Trail) : Prop where
  left : t.path = path
  right : t'.path = path
  visited : ∀ k, ¬ Acc p.Above k → (k ∈ t.visited ↔ k ∈ t'.visited)

namespace Alike

variable {path : List TypeKey} {k : TypeKey} {t t' s s' : Trail}

/-- Searches from accessible types make no difference. -/
theorem passed (h : Alike p path t t') (hk : Acc p.Above k) (ht : Passed p k t s)
    (ht' : Passed p k t' s') : Alike p path s s' where
  left := ht.path_eq.trans h.left
  right := ht'.path_eq.trans h.right
  visited x hx := by
    have hold {t s : Trail} (ht : Passed p k t s) : x ∈ s.visited ↔ x ∈ t.visited := by
      refine ⟨fun hmem => ?_, fun hmem => ht.subset hmem⟩
      exact (ht.above x hmem).resolve_right fun h => hx (acc_of_reflTransGen hk h)
    rw [hold ht, hold ht', h.visited x hx]

theorem enter (h : Alike p path t t') (k : TypeKey) :
    Alike p (k :: path) (t.enter k) (t'.enter k) where
  left := congrArg (k :: ·) h.left
  right := congrArg (k :: ·) h.right
  visited x hx := by
    rw [Trail.enter, Trail.enter, List.mem_cons, List.mem_cons, h.visited x hx]

theorem leave (h : Alike p (k :: path) t t') : Alike p path (t.leave k) (t'.leave k) where
  left := by rw [Trail.leave, h.left, List.erase_cons_head]
  right := by rw [Trail.leave, h.right, List.erase_cons_head]
  visited := h.visited

end Alike

/-- The rounds for one supertype agree. -/
theorem visit_agree (hb : b.Grounded p) (hb' : b'.Grounded p) {path : List TypeKey} {fuel : Nat}
    {parent : TypeKey} {t t' : Trail} (h : Alike p path t t')
    (habove : ∀ x ∈ path, TransGen p.Above parent x)
    (hsearch : ∀ e, p.describe? parent = some e → parent ≠ p.root →
      Bounded.Agree (Alike p path) (b.searchCycles p fuel e t) (b'.searchCycles p fuel e t')) :
    Bounded.Agree (Alike p path) (b.visit p (b.searchCycles p fuel) t parent)
      (b'.visit p (b'.searchCycles p fuel) t' parent) := by
  by_cases hacc : Acc p.Above parent
  · -- neither search fails at the supertype
    have hpass {b : Builder} (hb : b.Grounded p) {t : Trail} (ht : t.path = path) :
        (b.visit p (b.searchCycles p fuel) t parent).Permits (Passed p parent t)
          fun _ => False := by
      refine (visit_permits hb.root (fun e he hne => ?_) (ht ▸ habove)).mono (fun _ => id)
        fun x hx => hx.not_acc hacc
      obtain ⟨rfl, _⟩ := Discovery.key_of_describe? he
      exact searchCycles_permits hb.root fuel e t he hne (ht ▸ habove)
    exact .of_permits (hpass hb h.left) (hpass hb' h.right) fun _ _ => h.passed hacc
  · -- the supertype is in neither hierarchy
    have hnew {b : Builder} (hb : b.Grounded p) : b.contains parent = false :=
      Bool.eq_false_iff.2 fun hmem => hacc (hb.acc parent hmem)
    have hvisited : t.visited.contains parent = t'.visited.contains parent := by
      rw [Bool.eq_iff_iff, List.contains_iff_mem, List.contains_iff_mem, h.visited parent hacc]
    rw [visit, visit, h.left, h.right, hnew hb, hnew hb', hvisited]
    split_ifs
    · exact .throw parent
    · exact .pure h
    · split
      next => exact .pure h
      next e he => exact hsearch e he (hb.ne_root (hnew hb))

/-- Searches from one type in two hierarchies agree. -/
theorem searchCycles_agree (hb : b.Grounded p) (hb' : b'.Grounded p) (fuel : Nat)
    (e : TypeDescriptor) (path : List TypeKey) (t t' : Trail) (h : Alike p path t t')
    (he : p.describe? e.key = some e) (hne : e.key ≠ p.root)
    (habove : ∀ x ∈ path, TransGen p.Above e.key x) :
    Bounded.Agree (Alike p path) (b.searchCycles p fuel e t) (b'.searchCycles p fuel e t') := by
  induction fuel generalizing e path t t' with
  | zero => exact .deep (.inl rfl)
  | succ fuel ih =>
    rw [searchCycles_succ, searchCycles_succ]
    refine .bind (.foldlM (R := Alike p (e.key :: path)) (fun parent hmem s s' hs => ?_)
      (h.enter e.key)) fun s s' hs => .pure hs.leave
    have hparent : p.Above parent e.key := ⟨hne, e, he, hmem⟩
    have habove' : ∀ x ∈ e.key :: path, TransGen p.Above parent x :=
      List.forall_mem_cons.2 ⟨.single hparent, fun x hx => (habove x hx).head hparent⟩
    refine visit_agree hb hb' hs habove' fun e' he' hne' => ?_
    obtain ⟨rfl, _⟩ := Discovery.key_of_describe? he'
    exact ih e' (e.key :: path) s s' hs he' hne' habove'

/-! ### The verdict -/

/-- The search for cycles ends. It passes accessible types, and otherwise closes a cycle,
    always the one that is closed when the type is added alone. -/
theorem Grounded.searchCycles_verdict (hb : b.Grounded p) (hd : p.describe? d.key = some d)
    (hnew : b.contains d.key = false) :
    (∃ t, (b.searchCycles p p.depthBound d {}).run = some (.ok t) ∧
        Acc (b.Above p d) d.key ∧ Acc p.Above d.key) ∨
      ∃ x, (b.searchCycles p p.depthBound d {}).run = some (.error x) ∧ Closes p d.key x ∧
        ((new p.root).searchCycles p p.depthBound d {}).run = some (.error x) := by
  have hne := hb.ne_root hnew
  have habove : ∀ x ∈ ({} : Trail).path, TransGen p.Above d.key x := fun _ h =>
    absurd h List.not_mem_nil
  obtain ⟨t, ht, _, hacc⟩ | ⟨x, hx, hcloses, _⟩ :=
    ((searchCycles_permits hb.root p.depthBound d {} hd hne habove).and_ensures
      (searchCycles_ensures_acc hnew)).elim
  · exact .inl ⟨t, ht, hacc, hb.acc_of_above hd hacc⟩
  · -- the search in the hierarchy of the root alone agrees with this one, and ends too
    refine .inr ⟨x, hx, hcloses, ?_⟩
    have halone : (new p.root).contains d.key = false :=
      Bool.eq_false_iff.2 fun h => hne (contains_new.1 h)
    have hends := searchCycles_ensures_acc (p := p) halone
    cases searchCycles_agree hb (grounded_new p) p.depthBound d [] {} {}
      ⟨rfl, rfl, fun _ _ => Iff.rfl⟩ hd hne habove with
    | deep h =>
      rcases h with h | h
      · exact absurd (hx.symm.trans h) (by simp)
      · simp only [Bounded.Ensures, h] at hends
    | ok ha _ _ => exact absurd (hx.symm.trans ha) (by simp)
    | error hy hy' =>
      obtain rfl := Except.error.inj (Option.some.inj (hx.symm.trans hy))
      exact hy'

end Hierarchy.Builder

end Lineage
