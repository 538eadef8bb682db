import Lineage.Hierarchy.Order
import Lineage.Proofs.Fallible
import Lineage.Proofs.Hierarchy.WellFormed
import Mathlib.Data.List.Perm.Subperm
import Mathlib.Logic.Function.Basic

/-!
# The traversal is complete

A well-formed hierarchy is traversed completely: no count of pending parents
goes wrong, every type is visited once, and after all of its parents
(`WellFormed.traverses_toList`, `WellFormed.toList_perm`).

The state of a traversal is described by the types that have been visited
(`Walk.Tracks`): the counts are those of the parents not visited so far, and
the types that are ready are those whose parents have all been visited.

What is built type after type in this order can rely on the parents of a type
(`WellFormed.exists_made`, `WellFormed.lookup_passDown`), also where it fails
(`WellFormed.exists_of_error`).
-/

namespace Lineage

/-- How many parents of a type are not among the given ones. -/
def Node.left (done : List TypeKey) (n : Node) : Nat :=
  (n.parents.filter (· ∉ done)).length

theorem Node.left_nil (n : Node) : n.left [] = n.parents.length := by
  simp [left]

theorem Node.left_eq_zero {done : List TypeKey} {n : Node} :
    n.left done = 0 ↔ n.parents ⊆ done := by
  simp [left, List.subset_def]

theorem Node.left_cons {done : List TypeKey} {n : Node} (hn : n.parents.Nodup) {k : TypeKey}
    (hk : k ∉ done) :
    n.left (k :: done) = if k ∈ n.parents then n.left done - 1 else n.left done := by
  have : n.parents.filter (· ∉ k :: done) = (n.parents.filter (· ∉ done)).erase k := by
    rw [(hn.filter _).erase_eq_filter, List.filter_filter]
    refine List.filter_congr fun x _ => ?_
    by_cases hx : x = k <;> simp [hx]
  have hmem : k ∈ n.parents.filter (· ∉ done) ↔ k ∈ n.parents := by simp [hk]
  rw [left, left, this, List.length_erase, if_congr hmem rfl rfl]

namespace Hierarchy

variable {h : Hierarchy}

/-- What a traversal knows after visiting the given types, where a function
    tells how many parents of each type are pending. -/
structure Walk.Tracks (h : Hierarchy) (done : List TypeKey) (f : Node → Nat) (w : Walk) :
    Prop where
  /-- The counts are those of the function. -/
  counts : ∀ (i : Nat) (n : Node), h.nodes[i]? = some n → w.pending[i]? = some (f n)
  /-- The types that are ready are those to be visited without pending parents. -/
  ready : ∀ i : Nat, i ∈ w.ready ↔ ∃ n, h.nodes[i]? = some n ∧ n.key ∉ done ∧ f n = 0
  /-- No type is ready twice. -/
  nodup : w.ready.Nodup

/-- Where a type is ready, not all have been visited. -/
theorem Walk.Tracks.length_lt {done : List TypeKey} {f : Node → Nat} {w : Walk}
    (ht : w.Tracks h done f) {i : Nat} (hi : i ∈ w.ready) (hnd : done.Nodup)
    (hsub : done ⊆ h.nodes.map Node.key) :
    done.length < h.nodes.length := by
  obtain ⟨n, hn, hdone, _⟩ := (ht.ready i).1 hi
  have hn := List.mem_map_of_mem (f := Node.key) (List.mem_of_getElem? hn)
  have := (List.subperm_of_subset (List.nodup_cons.2 ⟨hdone, hnd⟩)
    (List.cons_subset.2 ⟨hn, hsub⟩)).length_le
  exact Nat.lt_of_succ_le (by simpa using this)

theorem Walk.Tracks.congr {done : List TypeKey} {f g : Node → Nat} {w : Walk}
    (ht : w.Tracks h done f) (hfg : ∀ n ∈ h.nodes, f n = g n) : w.Tracks h done g where
  counts i n hi := by rw [ht.counts i n hi, hfg n (List.mem_of_getElem? hi)]
  ready i := by
    rw [ht.ready i]
    refine exists_congr fun n => and_congr_right fun hi => ?_
    rw [hfg n (List.mem_of_getElem? hi)]
  nodup := ht.nodup

/-- The nodes are visited from the given types on: each once, and after all of
    its parents. -/
def Traverses (h : Hierarchy) : List TypeKey → List Node → Prop
  | _, [] => True
  | done, n :: ns =>
    n ∈ h.nodes ∧ n.key ∉ done ∧ n.parents ⊆ done ∧ h.Traverses (n.key :: done) ns

/-- An invariant of a fold in traversal order: it tells what the state is after
    the given types, and each step may rely on the parents having been there. -/
theorem Traverses.foldlM {ε σ : Type} {step : σ → Node → Except ε σ}
    {inv : List TypeKey → σ → Prop}
    (hstep : ∀ done n s s', n ∈ h.nodes → n.key ∉ done → n.parents ⊆ done → inv done s →
      step s n = .ok s' → inv (n.key :: done) s')
    {done : List TypeKey} {ns : List Node} (htrav : h.Traverses done ns) {s s' : σ}
    (hinv : inv done s) (hs : ns.foldlM step s = .ok s') :
    inv ((ns.map Node.key).reverse ++ done) s' := by
  induction ns generalizing done s with
  | nil =>
    obtain rfl := pure_eq_ok.1 hs
    exact hinv
  | cons n ns ih =>
    obtain ⟨hn, hdone, hparents, htrav⟩ := htrav
    obtain ⟨s₁, hs₁, hs⟩ := bind_eq_ok.1 hs
    simpa using ih htrav (hstep done n s s₁ hn hdone hparents hinv hs₁) hs

/-- Where a fold in traversal order fails, the parents have been there, and the
    invariant holds. -/
theorem Traverses.exists_of_error {ε σ : Type} {step : σ → Node → Except ε σ}
    {inv : List TypeKey → σ → Prop}
    (hstep : ∀ done n s s', n ∈ h.nodes → n.key ∉ done → n.parents ⊆ done → inv done s →
      step s n = .ok s' → inv (n.key :: done) s')
    {done : List TypeKey} {ns : List Node} (htrav : h.Traverses done ns) {s : σ} {e : ε}
    (hinv : inv done s) (hs : ns.foldlM step s = .error e) :
    ∃ done n s, n ∈ h.nodes ∧ n.parents ⊆ done ∧ inv done s ∧ step s n = .error e := by
  induction ns generalizing done s with
  | nil => exact nomatch hs
  | cons n ns ih =>
    obtain ⟨hn, hdone, hparents, htrav⟩ := htrav
    obtain hs | ⟨s₁, hs₁, hs⟩ := bind_eq_error.1 hs
    · exact ⟨done, n, s, hn, hparents, hinv, hs⟩
    · exact ih htrav (hstep done n s s₁ hn hdone hparents hinv hs₁) hs

/-- No type is visited twice. -/
theorem Traverses.nodup {done : List TypeKey} {ns : List Node} (htrav : h.Traverses done ns) :
    (ns.map Node.key).Nodup ∧ ∀ n ∈ ns, n.key ∉ done := by
  induction ns generalizing done with
  | nil => exact ⟨List.nodup_nil, by simp⟩
  | cons n ns ih =>
    obtain ⟨_, hdone, _, htrav⟩ := htrav
    obtain ⟨hnd, hnot⟩ := ih htrav
    refine ⟨List.nodup_cons.2 ⟨fun hmem => ?_, hnd⟩, List.forall_mem_cons.2 ⟨hdone, ?_⟩⟩
    · obtain ⟨m, hm, e⟩ := List.mem_map.1 hmem
      exact hnot m hm (e ▸ List.mem_cons_self)
    · exact fun m hm => List.not_mem_of_not_mem_cons (hnot m hm)

namespace WellFormed

variable {root : TypeKey} (hw : h.WellFormed root) {done : List TypeKey}
include hw

/-! ### Releasing children -/

theorem position?_key {i : Nat} {n : Node} (hi : h.nodes[i]? = some n) :
    h.position? n.key = some i :=
  (hw.position n.key i).2 ⟨n, hi, rfl⟩

theorem getElem?_inj {i j : Nat} {n : Node} (hi : h.nodes[i]? = some n)
    (hj : h.nodes[j]? = some n) : i = j :=
  Option.some.inj ((hw.position?_key hi).symm.trans (hw.position?_key hj))

/-- Releasing a child counts it down. -/
theorem exists_release {f : Node → Nat} {w : Walk} (ht : w.Tracks h done f) {c : Node}
    (hc : c ∈ h.nodes) (hdone : c.key ∉ done) (hpos : 0 < f c) :
    ∃ w', h.release w c.key = some w' ∧
      w'.Tracks h done (Function.update f c (f c - 1)) := by
  obtain ⟨i, hi⟩ := List.mem_iff_getElem?.1 hc
  have hcount := ht.counts i c hi
  have hnot : i ∉ w.ready := fun hr => by
    obtain ⟨n, hn, _, h0⟩ := (ht.ready i).1 hr
    obtain rfl : c = n := Option.some.inj (hi.symm.trans hn)
    omega
  have hother {j : Nat} {n : Node} (hj : h.nodes[j]? = some n) (hij : j ≠ i) : n ≠ c :=
    fun e => hij (hw.getElem?_inj (e ▸ hj) hi)
  have hset (m : Nat) (hm : m = f c - 1) (j : Nat) (n : Node) (hj : h.nodes[j]? = some n) :
      (w.pending.set i m)[j]? = some (Function.update f c (f c - 1) n) := by
    by_cases hij : j = i
    · subst hij
      obtain rfl : c = n := Option.some.inj (hi.symm.trans hj)
      rw [List.getElem?_set_self (List.getElem?_eq_some_iff.1 hcount).1, Function.update_self, hm]
    · rw [List.getElem?_set_ne (Ne.symm hij), Function.update_of_ne (hother hj hij),
        ht.counts j n hj]
  -- the types that are ready stay so, the child joins them if its count is one
  have hready (j : Nat) : (∃ n, h.nodes[j]? = some n ∧ n.key ∉ done ∧
      Function.update f c (f c - 1) n = 0) ↔ j ∈ w.ready ∨ (j = i ∧ f c = 1) := by
    by_cases hij : j = i
    · subst hij
      simp only [hi, Option.some.injEq, exists_eq_left', Function.update_self, hnot, hdone,
        not_false_eq_true, true_and, false_or]
      omega
    · rw [ht.ready, or_iff_left fun hr => hij hr.1]
      refine exists_congr fun n => and_congr_right fun hj => ?_
      rw [Function.update_of_ne (hother hj hij)]
  obtain ⟨m, hcase⟩ : ∃ m, f c = m + 1 := Nat.exists_eq_add_one.2 hpos
  cases m with
  | zero =>
    refine ⟨⟨w.pending.set i 0, i :: w.ready⟩, ?_, ⟨hset 0 (by omega), fun j => ?_, ?_⟩⟩
    · simp [release, hw.position?_key hi, hcount, hcase]
    · rw [hready, List.mem_cons, or_comm, and_iff_left hcase]
    · exact List.nodup_cons.2 ⟨hnot, ht.nodup⟩
  | succ m =>
    refine ⟨⟨w.pending.set i (m + 1), w.ready⟩, ?_, ⟨hset (m + 1) (by omega), fun j => ?_, ht.nodup⟩⟩
    · simp [release, hw.position?_key hi, hcount, hcase]
    · rw [hready, or_iff_left fun hr => by omega]

/-- Releasing children counts each of them down. -/
theorem exists_foldlM_release (cs : List Node) (hnd : cs.Nodup) {f : Node → Nat} {w : Walk}
    (ht : w.Tracks h done f) (hcs : ∀ c ∈ cs, c ∈ h.nodes ∧ c.key ∉ done ∧ 0 < f c) :
    ∃ w', (cs.map Node.key).foldlM h.release w = some w' ∧
      w'.Tracks h done fun n => if n ∈ cs then f n - 1 else f n := by
  induction cs generalizing f w with
  | nil => exact ⟨w, rfl, by simpa using ht⟩
  | cons c cs ih =>
    obtain ⟨hc, hnd⟩ := List.nodup_cons.1 hnd
    obtain ⟨hmem, hdone, hpos⟩ := hcs c List.mem_cons_self
    obtain ⟨w₁, hrel, ht₁⟩ := hw.exists_release ht hmem hdone hpos
    obtain ⟨w₂, hfold, ht₂⟩ := ih hnd ht₁ fun n hn => by
      obtain ⟨hn₁, hn₂, hn₃⟩ := hcs n (List.mem_cons_of_mem c hn)
      exact ⟨hn₁, hn₂, by rwa [Function.update_of_ne (ne_of_mem_of_not_mem hn hc)]⟩
    refine ⟨w₂, by simp [hrel, hfold], ?_⟩
    convert ht₂ using 2 with n
    by_cases hn : n = c
    · subst hn
      simp [hc]
    · simp [hn]

/-! ### Visiting types -/

/-- A type that is visited is no longer ready. -/
theorem tracks_tail {f : Node → Nat} {pending ready : List Nat} {i : Nat}
    (ht : Walk.Tracks h done f ⟨pending, i :: ready⟩) {n : Node} (hi : h.nodes[i]? = some n) :
    Walk.Tracks h (n.key :: done) f ⟨pending, ready⟩ := by
  obtain ⟨hnot, hnd⟩ := List.nodup_cons.1 ht.nodup
  refine ⟨ht.counts, fun j => ⟨fun hj => ?_, ?_⟩, hnd⟩
  · obtain ⟨m, hm, hdone, h0⟩ := (ht.ready j).1 (List.mem_cons_of_mem i hj)
    refine ⟨m, hm, List.not_mem_cons_of_ne_of_not_mem (fun e => ?_) hdone, h0⟩
    obtain rfl := hw.eq_of_key_eq (List.mem_of_getElem? hm) (List.mem_of_getElem? hi) e
    exact hnot (hw.getElem?_inj hi hm ▸ hj)
  · rintro ⟨m, hm, hdone, h0⟩
    obtain ⟨hne, hdone⟩ := List.ne_and_not_mem_of_not_mem_cons hdone
    have hj : j ∈ i :: ready := (ht.ready j).2 ⟨m, hm, hdone, h0⟩
    refine (List.mem_cons.1 hj).resolve_left fun e => hne ?_
    rw [Option.some.inj (hm.symm.trans (e ▸ hi))]

/-- The children of a type that has not been visited have not been either, and
    wait for it. -/
theorem not_mem_of_mem_parents {n c : Node} (hn : n ∈ h.nodes) (hc : c ∈ h.nodes)
    (hk : n.key ∈ c.parents) (hdone : n.key ∉ done)
    (hclosed : ∀ n ∈ h.nodes, n.key ∈ done → n.parents ⊆ done) :
    c.key ∉ n.key :: done ∧ 0 < c.left done := by
  refine ⟨List.not_mem_cons_of_ne_of_not_mem (fun e => ?_)
    fun hmem => hdone (hclosed c hc hmem hk), ?_⟩
  · have hlt := hw.depth_lt c hc n hn hk
    rw [hw.eq_of_key_eq hc hn e] at hlt
    exact Nat.lt_irrefl _ hlt
  · exact Nat.pos_of_ne_zero fun h0 => hdone (Node.left_eq_zero.1 h0 hk)

/-- Visiting a type that is ready releases all of its children. -/
theorem exists_visit {pending ready : List Nat} {i : Nat}
    (ht : Walk.Tracks h done (Node.left done) ⟨pending, i :: ready⟩)
    (hclosed : ∀ n ∈ h.nodes, n.key ∈ done → n.parents ⊆ done) :
    ∃ n w', h.nodes[i]? = some n ∧ n.key ∉ done ∧ n.parents ⊆ done ∧
      n.children.reverse.foldlM h.release ⟨pending, ready⟩ = some w' ∧
      w'.Tracks h (n.key :: done) (Node.left (n.key :: done)) := by
  obtain ⟨n, hi, hdone, hleft⟩ := (ht.ready i).1 List.mem_cons_self
  have hn := List.mem_of_getElem? hi
  have hnodup : h.nodes.Nodup := .of_map Node.key hw.distinct
  obtain ⟨w', hfold, ht'⟩ :=
    hw.exists_foldlM_release (h.nodes.filter fun m => n.key ∈ m.parents).reverse
      (List.nodup_reverse.2 (hnodup.filter _)) (hw.tracks_tail ht hi) fun c hc => by
        rw [List.mem_reverse, List.mem_filter, decide_eq_true_iff] at hc
        exact ⟨hc.1, hw.not_mem_of_mem_parents hn hc.1 hc.2 hdone hclosed⟩
  refine ⟨n, w', hi, hdone, Node.left_eq_zero.1 hleft, ?_, ht'.congr fun m hm => ?_⟩
  · rw [hw.children n hn, ← List.map_reverse, hfold]
  · rw [Node.left_cons (hw.parents_nodup m hm) hdone]
    simp [hm]

/-- Where no type is ready, all have been visited. -/
theorem mem_done_of_ready_eq_nil {w : Walk} (ht : w.Tracks h done (Node.left done))
    (hr : w.ready = []) : ∀ n ∈ h.nodes, n.key ∈ done := by
  -- along the parents: a type all of whose parents have been visited is ready
  refine hw.parents_induction fun n hn ih => ?_
  by_contra hdone
  have hsub : n.parents ⊆ done := fun k hk => by
    obtain ⟨m, hm, rfl⟩ := hw.exists_parent hn hk
    exact ih m (hw.mem_parents.2 ⟨hm, hk⟩)
  obtain ⟨i, hi⟩ := List.mem_iff_getElem?.1 hn
  have := (ht.ready i).2 ⟨n, hi, hdone, Node.left_eq_zero.2 hsub⟩
  simp [hr] at this

/-- With one step for each type that is left, the walk visits them all. -/
theorem exists_walk (fuel : Nat) {w : Walk} (ht : w.Tracks h done (Node.left done))
    (hclosed : ∀ n ∈ h.nodes, n.key ∈ done → n.parents ⊆ done)
    (hnd : done.Nodup) (hsub : done ⊆ h.nodes.map Node.key)
    (hfuel : h.nodes.length ≤ fuel + done.length) :
    ∃ is, h.walk? fuel w = some is ∧
      h.Traverses done (is.filterMap fun i => h.nodes[i]?) ∧
      ∀ n ∈ h.nodes, n.key ∉ done → n ∈ is.filterMap fun i => h.nodes[i]? := by
  obtain ⟨pending, ready⟩ := w
  induction fuel generalizing done pending ready with
  | zero =>
    cases ready with
    | nil => exact ⟨[], rfl, trivial, fun n hn hdone =>
        absurd (hw.mem_done_of_ready_eq_nil ht rfl n hn) hdone⟩
    | cons i ready =>
      have := ht.length_lt List.mem_cons_self hnd hsub
      omega
  | succ fuel ih =>
    cases ready with
    | nil => exact ⟨[], rfl, trivial, fun n hn hdone =>
        absurd (hw.mem_done_of_ready_eq_nil ht rfl n hn) hdone⟩
    | cons i ready =>
      obtain ⟨n, w', hi, hdone, hparents, hfold, ht'⟩ := hw.exists_visit ht hclosed
      have hn := List.mem_of_getElem? hi
      have hclosed' : ∀ m ∈ h.nodes, m.key ∈ n.key :: done → m.parents ⊆ n.key :: done := by
        intro m hm hmem
        refine List.subset_cons_of_subset _ ?_
        obtain e | hmem := List.mem_cons.1 hmem
        · rwa [hw.eq_of_key_eq hm hn e]
        · exact hclosed m hm hmem
      obtain ⟨is, hwalk, htrav, hall⟩ := ih hclosed' (List.nodup_cons.2 ⟨hdone, hnd⟩)
        (List.cons_subset.2 ⟨List.mem_map_of_mem hn, hsub⟩) (by rw [List.length_cons]; omega)
        w'.pending w'.ready ht'
      refine ⟨i :: is,
        by simp only [walk?, hi, hfold, hwalk, Option.bind_eq_bind, Option.bind_some]; rfl,
        ?_, fun m hm hm' => ?_⟩
      · simpa [hi, Traverses] using ⟨hn, hdone, hparents, htrav⟩
      · rw [List.filterMap_cons_some hi, List.mem_cons]
        refine or_iff_not_imp_left.2 fun hne => hall m hm ?_
        exact List.not_mem_cons_of_ne_of_not_mem (fun e => hne (hw.eq_of_key_eq hm hn e)) hm'

/-- At the start the counts are the numbers of parents, and only the root is
    ready. -/
theorem tracks_start : h.start.Tracks h [] (Node.left []) where
  counts i n hi := by
    rw [start, List.getElem?_map, hi, Option.map_some, Node.left_nil]
  ready i := by
    obtain ⟨r, hr, _, hp, _⟩ := hw.root
    rw [start, List.mem_singleton]
    constructor
    · rintro rfl
      exact ⟨r, hr, List.not_mem_nil, by rw [Node.left_nil, hp, List.length_nil]⟩
    · rintro ⟨n, hi, _, h0⟩
      by_contra hne
      exact hw.parents_ne_nil i n hi hne (List.length_eq_zero_iff.1 (n.left_nil ▸ h0))
  nodup := List.nodup_singleton 0

/-! ### The traversal order -/

/-- The traversal order is an outcome of the walk: it visits the types one after
    the other, and all of them. -/
theorem traverses_toList : h.Traverses [] h.toList ∧ ∀ n ∈ h.nodes, n ∈ h.toList := by
  obtain ⟨is, hwalk, htrav, hall⟩ := hw.exists_walk h.nodes.length hw.tracks_start
    (fun n _ hn => absurd hn List.not_mem_nil) List.nodup_nil (List.nil_subset _) (by simp)
  have : h.order = is := by rw [order, hwalk, Option.getD_some]
  exact ⟨by rwa [toList, this], fun n hn => by rw [toList, this]; exact hall n hn (by simp)⟩

/-- The traversal visits the types of the hierarchy, each of them once. -/
theorem toList_perm : h.toList.Perm h.nodes := by
  obtain ⟨htrav, hall⟩ := hw.traverses_toList
  refine (List.perm_ext_iff_of_nodup (.of_map Node.key htrav.nodup.1)
    (.of_map Node.key hw.distinct)).2 fun n => ⟨fun hn => ?_, hall n⟩
  obtain ⟨i, _, hi⟩ := List.mem_filterMap.1 hn
  exact List.mem_of_getElem? hi

/-- What is built in traversal order: an invariant holds in the end for all
    types. -/
theorem foldlM_toList {ε σ : Type} {step : σ → Node → Except ε σ} {inv : List TypeKey → σ → Prop}
    (hstep : ∀ done n s s', n ∈ h.nodes → n.key ∉ done → n.parents ⊆ done → inv done s →
      step s n = .ok s' → inv (n.key :: done) s')
    {s s' : σ} (hinv : inv [] s) (hs : h.toList.foldlM step s = .ok s') :
    ∃ done, (∀ k, k ∈ done ↔ h.contains k = true) ∧ inv done s' := by
  refine ⟨_, fun k => ?_, hw.traverses_toList.1.foldlM hstep hinv hs⟩
  rw [List.append_nil, List.mem_reverse, List.mem_map, hw.contains_iff]
  exact exists_congr fun n => and_congr_left fun _ => hw.toList_perm.mem_iff

end WellFormed

/-! ### Passing down -/

section PassesDown

variable {ε σ α : Type} (get : σ → TypeKey → Option α) (makes : σ → Node → α → Prop)

/-- Each step makes something for a type, from what has been made for its parents
    before. -/
structure PassesDown (step : σ → Node → Except ε σ) : Prop where
  /-- What is made is added for this type. -/
  adds : ∀ s n s', step s n = .ok s' →
    ∃ a, makes s n a ∧ ∀ k, get s' k = (get s k).or (if n.key = k then some a else none)
  /-- It depends on what there is for the parents only. -/
  congr : ∀ s s' n a, (∀ k ∈ n.parents, get s k = get s' k) → makes s n a → makes s' n a

/-- The state of passing down after the given types: something has been made for
    each of them, which could still be made the same. -/
structure PassedDown (h : Hierarchy) (done : List TypeKey) (s : σ) : Prop where
  keys : ∀ k, (get s k).isSome = true ↔ k ∈ done
  closed : ∀ n ∈ h.nodes, n.key ∈ done → n.parents ⊆ done
  made : ∀ n ∈ h.nodes, n.key ∈ done → ∃ a, get s n.key = some a ∧ makes s n a

variable {get makes} {step : σ → Node → Except ε σ} {root : TypeKey}

theorem passedDown_nil {s : σ} (hstart : ∀ k, get s k = none) : PassedDown get makes h [] s :=
  ⟨by simp [hstart], fun _ _ hn => absurd hn List.not_mem_nil,
    fun _ _ hn => absurd hn List.not_mem_nil⟩

theorem PassedDown.extend (hw : h.WellFormed root) (hstep : PassesDown get makes step)
    {done : List TypeKey} {n : Node} {s s' : σ} (hn : n ∈ h.nodes) (hdone : n.key ∉ done)
    (hparents : n.parents ⊆ done) (hp : PassedDown get makes h done s)
    (hs : step s n = .ok s') : PassedDown get makes h (n.key :: done) s' := by
  obtain ⟨a, ha, hget⟩ := hstep.adds s n s' hs
  have hold {k : TypeKey} (hk : k ∈ done) : get s' k = get s k := by
    rw [hget, Option.or_of_isSome ((hp.keys k).2 hk)]
  have hsame {m : Node} {b : α} (hm : m.parents ⊆ done) (hb : makes s m b) : makes s' m b :=
    hstep.congr s s' m b (fun k hk => (hold (hm hk)).symm) hb
  refine ⟨fun k => ?_, fun m hm hmem => ?_, fun m hm hmem => ?_⟩
  · rw [hget, Option.isSome_or, Bool.or_eq_true, hp.keys, List.mem_cons, or_comm]
    refine or_congr_left ?_
    split_ifs with e
    · simp [e]
    · simp [Ne.symm e]
  all_goals rcases List.mem_cons.1 hmem with e | hmem
  · obtain rfl := hw.eq_of_key_eq hm hn e
    exact List.subset_cons_of_subset m.key hparents
  · exact List.subset_cons_of_subset n.key (hp.closed m hm hmem)
  · obtain rfl := hw.eq_of_key_eq hm hn e
    have hnone : get s m.key = none := Option.not_isSome_iff_eq_none.1 (mt (hp.keys _).1 hdone)
    exact ⟨a, by rw [hget, hnone, Option.none_or, if_pos rfl], hsame hparents ha⟩
  · obtain ⟨b, hb, hmade⟩ := hp.made m hm hmem
    exact ⟨b, (hold hmem).trans hb, hsame (hp.closed m hm hmem) hmade⟩

/-- In the end something has been made for all types. -/
theorem WellFormed.exists_passedDown (hw : h.WellFormed root) (hstep : PassesDown get makes step)
    {s s' : σ} (hstart : ∀ k, get s k = none) (hs : h.toList.foldlM step s = .ok s') :
    ∃ done, (∀ k, k ∈ done ↔ h.contains k = true) ∧ PassedDown get makes h done s' :=
  hw.foldlM_toList
    (fun _ _ _ _ hn hdone hparents hp => hp.extend hw hstep hn hdone hparents)
    (passedDown_nil hstart) hs

/-- Where passing down fails at a type, something has been made for its parents. -/
theorem WellFormed.exists_of_error (hw : h.WellFormed root) (hstep : PassesDown get makes step)
    {s : σ} {e : ε} (hstart : ∀ k, get s k = none) (hs : h.toList.foldlM step s = .error e) :
    ∃ done n s, n ∈ h.nodes ∧ n.parents ⊆ done ∧ PassedDown get makes h done s ∧
      step s n = .error e :=
  hw.traverses_toList.1.exists_of_error
    (fun _ _ _ _ hn hdone hparents hp => hp.extend hw hstep hn hdone hparents)
    (passedDown_nil hstart) hs

/-- What has been made in the end for a type can be made from what there is for the
    parents in the end, so it does not depend on the traversal order. -/
theorem WellFormed.exists_made (hw : h.WellFormed root) (hstep : PassesDown get makes step)
    {s s' : σ} (hstart : ∀ k, get s k = none) (hs : h.toList.foldlM step s = .ok s') :
    (∀ k, (get s' k).isSome = h.contains k) ∧
      ∀ n ∈ h.nodes, ∃ a, get s' n.key = some a ∧ makes s' n a := by
  obtain ⟨done, hdone, hp⟩ := hw.exists_passedDown hstep hstart hs
  refine ⟨fun k => Bool.eq_iff_iff.2 ((hp.keys k).trans (hdone k)), fun n hn => ?_⟩
  exact hp.made n hn ((hdone n.key).2 (hw.contains_iff.2 ⟨n, hn, rfl⟩))

end PassesDown

variable {α : Type} (f : List (TypeKey × α) → Node → α)

/-- What is made for all types in traversal order, for each from what has been
    made before. -/
def passDown (h : Hierarchy) : List (TypeKey × α) :=
  h.toList.foldl (fun made n => made ++ [(n.key, f made n)]) []

variable {f}

/-- What has been made stays. -/
theorem subset_foldl_passDown (f : List (TypeKey × α) → Node → α) (ns : List Node)
    (made : List (TypeKey × α)) :
    made ⊆ ns.foldl (fun made n => made ++ [(n.key, f made n)]) made := by
  induction ns generalizing made with
  | nil => exact List.Subset.refl made
  | cons n ns ih => exact fun e he => ih _ (List.mem_append_left _ he)

theorem map_fst_passDown (h : Hierarchy) : (h.passDown f).map Prod.fst = h.keys := by
  have (ns : List Node) (made : List (TypeKey × α)) :
      (ns.foldl (fun made n => made ++ [(n.key, f made n)]) made).map Prod.fst =
        made.map Prod.fst ++ ns.map Node.key := by
    induction ns generalizing made with
    | nil => simp
    | cons n ns ih => simp [ih]
  exact this h.toList []

/-- What is made for a type from what has been made for its parents does not
    depend on the traversal order. -/
theorem WellFormed.lookup_passDown {root : TypeKey} (hw : h.WellFormed root)
    (hf : ∀ made made' n, (∀ k ∈ n.parents, made.lookup k = made'.lookup k) →
      f made n = f made' n) :
    (∀ k, ((h.passDown f).lookup k).isSome = h.contains k) ∧
      ∀ n ∈ h.nodes, (h.passDown f).lookup n.key = some (f (h.passDown f) n) := by
  have hstep : PassesDown (fun made k => List.lookup k made) (fun made n a => f made n = a)
      fun made n => (pure (made ++ [(n.key, f made n)]) : Except Empty _) := by
    refine ⟨fun made n made' hmade => ⟨f made n, rfl, fun k => ?_⟩,
      fun made made' n a hsame ha => ?_⟩
    · rw [← pure_eq_ok.1 hmade, List.lookup_append]
      split_ifs with e
      · rw [e, List.lookup_cons_self]
      · rw [List.lookup_cons, beq_eq_false_iff_ne.2 (Ne.symm e), List.lookup_nil]
    · exact (hf made made' n hsame) ▸ ha
  have hrun : h.toList.foldlM
      (fun made n => (pure (made ++ [(n.key, f made n)]) : Except Empty _)) [] =
      .ok (h.passDown f) := List.foldlM_pure
  obtain ⟨hkeys, hmade⟩ := hw.exists_made hstep (fun k => rfl) hrun
  refine ⟨hkeys, fun n hn => ?_⟩
  obtain ⟨_, ha, rfl⟩ := hmade n hn
  exact ha

end Hierarchy

end Lineage
