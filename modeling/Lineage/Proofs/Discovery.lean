import Lineage.Discovery
import Mathlib.Data.List.Perm.Subperm
import Mathlib.Logic.Relation

/-!
# Types that descend from a marker

The search upwards for a marker visits no type twice, and gives up on a type that it
has seen before, though the type may descend from the marker. It is right all the same
(`descends_iff`): if the marker is not found then no type seen has it as a supertype,
and with a type all of its supertypes have been seen (`Barren`), so there is no chain
to the marker from any of them.

The *resource* types are the root and what descends from it (`IsResource`).
-/

namespace Lineage.Discovery

open Relation

variable (p : Discovery)

/-- The first type is a supertype of the second, as described. -/
def IsSupertype (parent k : TypeKey) : Prop :=
  ∃ d, p.describe? k = some d ∧ parent ∈ d.supertypes

/-- The type is the root, or descends from it. -/
def IsResource (k : TypeKey) : Prop :=
  ReflTransGen p.IsSupertype p.root k

variable {p}

theorem key_of_describe? {k : TypeKey} {e : TypeDescriptor} (he : p.describe? k = some e) :
    e.key = k ∧ e ∈ p.described := by
  unfold describe? at he
  exact ⟨by simpa using List.find?_some he, List.mem_of_find?_eq_some he⟩

/-! ### Searches that may be cut short -/

section

variable {σ : Type} {f : TypeKey → StateT σ Option Bool}

/-- A search among types keeps what it keeps at each of them, up to the type at which it
    succeeds. The invariant is on the types that are left, and on the state. -/
theorem exists_run_anyM (inv : List TypeKey → σ → Prop) (found : σ → Prop)
    (step : ∀ k l s, inv (k :: l) s →
      ∃ r s', (f k).run s = some (r, s') ∧ if r = true then found s' else inv l s') :
    ∀ (l : List TypeKey) (s : σ), inv l s →
      ∃ r s', (l.anyM f).run s = some (r, s') ∧ if r = true then found s' else inv [] s'
  | [], s, hs => ⟨false, s, rfl, hs⟩
  | k :: l, s, hs => by
    obtain ⟨r, s', hr, hs'⟩ := step k l s hs
    rw [List.anyM_cons, StateT.run_bind, hr]
    cases r with
    | true => exact ⟨true, s', rfl, hs'⟩
    | false => exact exists_run_anyM inv found step l s' hs'

/-- A search that tells of each of the types whether it is as it should be tells whether
    one of them is, if it stays within its bound. -/
theorem of_run_anyM {good : σ → Prop} {P : TypeKey → Prop} {l : List TypeKey}
    (hf : ∀ k ∈ l, ∀ s r s', good s → (f k).run s = some (r, s') → good s' ∧ (r = true ↔ P k))
    {s s' : σ} {r : Bool} (hs : good s) (hr : (l.anyM f).run s = some (r, s')) :
    good s' ∧ (r = true ↔ ∃ k ∈ l, P k) := by
  induction l generalizing s with
  | nil =>
    obtain ⟨rfl, rfl⟩ := Prod.mk.inj (Option.some.inj hr)
    exact ⟨hs, by simp⟩
  | cons k l ih =>
    rw [List.anyM_cons, StateT.run_bind] at hr
    obtain ⟨⟨r₁, s₁⟩, hr₁, hr⟩ := Option.bind_eq_some_iff.1 hr
    rcases List.forall_mem_cons.1 hf with ⟨hfk, hf⟩
    obtain ⟨hs₁, hk⟩ := hfk s r₁ s₁ hs hr₁
    rw [List.exists_mem_cons_iff, ← hk]
    cases r₁ with
    | true =>
      obtain ⟨rfl, rfl⟩ := Prod.mk.inj (Option.some.inj hr)
      exact ⟨hs₁, by simp⟩
    | false =>
      obtain ⟨hs', hl⟩ := ih hf hs₁ hr
      exact ⟨hs', by rw [hl]; simp⟩

/-- A search without success leaves the state as it is, if it does so at each of the types. -/
theorem state_eq_of_run_anyM {l : List TypeKey}
    (hf : ∀ k ∈ l, ∀ s s', (f k).run s = some (false, s') → s' = s) {s s' : σ}
    (hr : (l.anyM f).run s = some (false, s')) : s' = s := by
  induction l generalizing s with
  | nil => exact (Prod.mk.inj (Option.some.inj hr)).2.symm
  | cons k l ih =>
    rw [List.anyM_cons, StateT.run_bind] at hr
    obtain ⟨⟨r₁, s₁⟩, hr₁, hr⟩ := Option.bind_eq_some_iff.1 hr
    rcases List.forall_mem_cons.1 hf with ⟨hfk, hf⟩
    cases r₁ with
    | true => exact absurd (Prod.mk.inj (Option.some.inj hr)).1 Bool.true_eq_false.mp
    | false => exact (ih hf hr).trans (hfk s s₁ hr₁)

/-- Two searches come to the same if they do so at each of the types, in the states that come
    before. -/
theorem run_anyM_congr {g : TypeKey → StateT σ Option Bool} (inv : σ → Prop) {l : List TypeKey}
    (hfg : ∀ k ∈ l, ∀ s, inv s → (f k).run s = (g k).run s)
    (hkeep : ∀ k ∈ l, ∀ s s', inv s → (g k).run s = some (false, s') → inv s') {s : σ}
    (hs : inv s) : (l.anyM f).run s = (l.anyM g).run s := by
  induction l generalizing s with
  | nil => rfl
  | cons k l ih =>
    rcases List.forall_mem_cons.1 hfg with ⟨hfgk, hfg⟩
    rcases List.forall_mem_cons.1 hkeep with ⟨hkeepk, hkeep⟩
    rw [List.anyM_cons, List.anyM_cons, StateT.run_bind, StateT.run_bind, hfgk s hs]
    refine Option.bind_congr fun ⟨r, s'⟩ hr => ?_
    cases r with
    | true => rfl
    | false => exact ih hfg hkeep (hkeepk s s' hs hr)

end

/-! ### The search for a marker -/

variable (p) in
/-- None of the supertypes of a type is the marker, and all of them have been seen. -/
def Barren (marker : TypeKey) (seen : List TypeKey) (k : TypeKey) : Prop :=
  ∀ parent, p.IsSupertype parent k → parent ≠ marker ∧ parent ∈ seen

theorem Barren.mono {marker k : TypeKey} {seen seen' : List TypeKey}
    (hk : p.Barren marker seen k) (hsub : seen ⊆ seen') : p.Barren marker seen' k :=
  fun parent hparent => (hk parent hparent).imp_right fun h => hsub h

/-- There is no chain to the marker among types from which none leads out. -/
theorem not_transGen_of_barren {marker k : TypeKey} {seen : List TypeKey}
    (hseen : ∀ x ∈ seen, p.Barren marker seen x) (hk : k ∈ seen) :
    ¬ TransGen p.IsSupertype marker k := by
  intro hchain
  induction hchain with
  | single hparent => exact (hseen _ hk _ hparent).1 rfl
  | tail _ hparent ih => exact ih (hseen _ hk _ hparent).2

/-- What a search from a type comes to: if it succeeds there is a chain to the marker,
    otherwise the types seen meanwhile lead nowhere. -/
structure Searched (p : Discovery) (marker : TypeKey) (seen : List TypeKey) (k : TypeKey)
    (found : Bool) (seen' : List TypeKey) : Prop where
  subset : seen ⊆ seen'
  chain : found = true → TransGen p.IsSupertype marker k
  mem : found = false → k ∈ seen'
  barren : found = false → ∀ x ∈ seen', x ∈ seen ∨ p.Barren marker seen' x

theorem run_search (marker : TypeKey) (fuel : Nat) (k : TypeKey) (seen : List TypeKey) :
    (p.search marker (fuel + 1) k).run seen = if seen.contains k then some (false, seen)
      else match p.describe? k with
        | none => some (false, k :: seen)
        | some d => (d.supertypes.anyM fun parent =>
            if parent = marker then return true else p.search marker fuel parent).run
              (k :: seen) := by
  rw [search]
  cases h : seen.contains k with
  | true => simp only [StateT.run_bind, StateT.run_get, Option.bind_eq_bind, Option.pure_def,
      Option.bind_some, h, if_true, StateT.run_pure]
  | false =>
    simp only [StateT.run_bind, StateT.run_get, Option.bind_eq_bind, Option.pure_def,
      Option.bind_some, h, Bool.false_eq_true, if_false]
    cases p.describe? k <;> rfl

/-- What holds while the supertypes of a type are gone through, those that are left being
    listed: the marker is none of the others, and they have been seen. -/
structure Searching (p : Discovery) (marker : TypeKey) (seen : List TypeKey)
    (d : TypeDescriptor) (left s : List TypeKey) : Prop where
  subset : d.key :: seen ⊆ s
  barren : ∀ x ∈ s, x ∈ d.key :: seen ∨ p.Barren marker s x
  left_subset : left ⊆ d.supertypes
  done : ∀ parent ∈ d.supertypes, parent ∈ left ∨ parent ≠ marker ∧ parent ∈ s

namespace Searching

variable {marker : TypeKey} {seen left s : List TypeKey} {d : TypeDescriptor}

theorem start (p : Discovery) (marker : TypeKey) (seen : List TypeKey) (d : TypeDescriptor) :
    p.Searching marker seen d d.supertypes (d.key :: seen) :=
  ⟨List.Subset.refl _, fun _ => .inl, List.Subset.refl _, fun _ => .inl⟩

/-- A supertype has been searched without finding the marker. -/
theorem next {parent : TypeKey} {s' : List TypeKey}
    (h : p.Searching marker seen d (parent :: left) s) (hne : parent ≠ marker)
    (hparent : p.Searched marker s parent false s') : p.Searching marker seen d left s' where
  subset _ hx := hparent.subset (h.subset hx)
  barren x hx := by
    rcases hparent.barren rfl x hx with hx | hx
    · exact (h.barren x hx).imp_right fun hx => hx.mono hparent.subset
    · exact .inr hx
  left_subset := (List.cons_subset.1 h.left_subset).2
  done x hx := by
    rcases h.done x hx with hx | ⟨hx, hmem⟩
    · rcases List.mem_cons.1 hx with rfl | hx
      · exact .inr ⟨hne, hparent.mem rfl⟩
      · exact .inl hx
    · exact .inr ⟨hx, hparent.subset hmem⟩

/-- None of the supertypes has led to the marker. -/
theorem finish (h : p.Searching marker seen d [] s) (hd : p.describe? d.key = some d) :
    p.Searched marker seen d.key false s where
  subset _ hx := h.subset (List.mem_cons_of_mem _ hx)
  chain hfound := nomatch hfound
  mem _ := h.subset List.mem_cons_self
  barren _ x hx := by
    rcases h.barren x hx with hx | hx
    · rcases List.mem_cons.1 hx with rfl | hx
      · refine .inr fun parent ⟨d', hd', hparent⟩ => ?_
        obtain rfl := Option.some.inj (hd.symm.trans hd')
        exact (h.done parent hparent).resolve_left List.not_mem_nil
      · exact .inl hx
    · exact .inr hx

end Searching

/-- The search stays within its bound, as the types on a path are distinct and
    described. -/
theorem exists_run_search (marker : TypeKey) (fuel : Nat) (k : TypeKey)
    (path seen : List TypeKey) (hnodup : path.Nodup)
    (hdescribed : path ⊆ p.described.map TypeDescriptor.key) (hseen : path ⊆ seen)
    (hfuel : p.depthBound ≤ fuel + path.length) :
    ∃ found seen', (p.search marker fuel k).run seen = some (found, seen') ∧
      p.Searched marker seen k found seen' := by
  induction fuel generalizing k path seen with
  | zero =>
    -- the path has got too long to be a path
    have := (List.subperm_of_subset hnodup hdescribed).length_le
    rw [List.length_map] at this
    simp only [depthBound] at hfuel
    omega
  | succ fuel ih =>
    rw [run_search]
    split_ifs with hmem
    · have hmem : k ∈ seen := by simpa using hmem
      exact ⟨false, seen, rfl, List.Subset.refl _, (nomatch ·), fun _ => hmem, fun _ _ => .inl⟩
    have hmem : k ∉ seen := by simpa using hmem
    split
    next hnone =>
      -- a type that is not described leads nowhere
      refine ⟨false, k :: seen, rfl, List.subset_cons_self _ _, (nomatch ·),
        fun _ => List.mem_cons_self, fun _ x hx => ?_⟩
      rcases List.mem_cons.1 hx with rfl | hx
      · exact .inr fun parent ⟨d, hd, _⟩ => absurd (hnone.symm.trans hd) (by simp)
      · exact .inl hx
    next d hd =>
      obtain ⟨rfl, hdesc⟩ := key_of_describe? hd
      have hloop := exists_run_anyM (f := fun parent =>
          if parent = marker then return true else p.search marker fuel parent)
        (p.Searching marker seen d)
        (fun s => d.key :: seen ⊆ s ∧ TransGen p.IsSupertype marker d.key)
        ?_ d.supertypes (d.key :: seen) (.start p marker seen d)
      · obtain ⟨found, s, hs, hpost⟩ := hloop
        refine ⟨found, s, hs, ?_⟩
        cases found with
        | true =>
          exact ⟨(List.cons_subset.1 hpost.1).2, fun _ => hpost.2, (nomatch ·), (nomatch ·)⟩
        | false => exact hpost.finish hd
      · intro parent left s h
        have hparent : p.IsSupertype parent d.key := ⟨d, hd, (List.cons_subset.1 h.left_subset).1⟩
        split_ifs with hmarker
        · exact ⟨true, s, rfl, h.subset, .single (hmarker ▸ hparent)⟩
        -- the supertype is searched with the type on the path
        obtain ⟨r, s', hr, hsearched⟩ := ih parent (d.key :: path) s
          (List.nodup_cons.2 ⟨fun h => hmem (hseen h), hnodup⟩)
          (List.cons_subset.2 ⟨List.mem_map_of_mem hdesc, hdescribed⟩)
          (fun x hx => h.subset (List.cons_subset_cons _ hseen hx))
          (by rw [List.length_cons]; omega)
        refine ⟨r, s', hr, ?_⟩
        cases r with
        | true =>
          exact ⟨fun x hx => hsearched.subset (h.subset hx), (hsearched.chain rfl).tail hparent⟩
        | false => exact h.next hmarker hsearched

theorem descends_eq_of_run {marker k : TypeKey} {found : Bool} {seen : List TypeKey}
    (hrun : (p.search marker p.depthBound k).run [] = some (found, seen)) :
    p.descends k marker = found := by
  rw [descends, StateT.run'_eq, hrun]
  rfl

/-- A type descends from a marker if a chain of supertypes leads to it. -/
theorem descends_iff {k marker : TypeKey} :
    p.descends k marker = true ↔ TransGen p.IsSupertype marker k := by
  obtain ⟨found, seen, hrun, hsearched⟩ := p.exists_run_search marker p.depthBound k [] []
    List.nodup_nil (List.nil_subset _) (List.nil_subset _) (Nat.le_add_right ..)
  rw [descends_eq_of_run hrun]
  cases found with
  | true => exact iff_of_true rfl (hsearched.chain rfl)
  | false =>
    refine iff_of_false Bool.false_ne_true (not_transGen_of_barren (fun x hx => ?_)
      (hsearched.mem rfl))
    exact (hsearched.barren rfl x hx).resolve_left List.not_mem_nil

/-! ### Resource types -/

theorem isResource_iff {k : TypeKey} :
    p.IsResource k ↔ k = p.root ∨ p.descends k p.root = true := by
  rw [IsResource, reflTransGen_iff_eq_or_transGen, descends_iff]

instance : DecidablePred p.IsResource := fun _ => decidable_of_iff _ isResource_iff.symm

variable (p) in
/-- The resource types among the given types, each once. -/
def resources (ks : List TypeKey) : List TypeKey :=
  (ks.filter (p.IsResource ·)).eraseDups

theorem mem_resources {k : TypeKey} {ks : List TypeKey} :
    k ∈ p.resources ks ↔ k ∈ ks ∧ p.IsResource k := by
  rw [resources, List.mem_eraseDups, List.mem_filter, decide_eq_true_eq]

theorem resources_concat (ks : List TypeKey) (k : TypeKey) :
    p.resources (ks ++ [k]) =
      if p.IsResource k ∧ k ∉ p.resources ks then p.resources ks ++ [k] else p.resources ks := by
  rw [resources, List.filter_append, List.eraseDups_append, ← resources]
  by_cases hk : p.IsResource k <;> by_cases hmem : k ∈ ks <;>
    simp [List.removeAll, List.eraseDups_cons, mem_resources, hk, hmem]

/-- Resource types are described, but for the root. -/
theorem IsResource.exists_described {k : TypeKey} (hk : p.IsResource k) (hne : k ≠ p.root) :
    ∃ d, p.describe? k = some d := by
  obtain rfl | ⟨_, _, d, hd, _⟩ := ReflTransGen.cases_tail hk
  · exact absurd rfl hne
  · exact ⟨d, hd⟩

/-- A type other than the root is a resource type if one of its supertypes is. -/
theorem isResource_iff_exists {d : TypeDescriptor} {k : TypeKey} (hd : p.describe? k = some d)
    (hk : k ≠ p.root) : p.IsResource k ↔ ∃ parent ∈ d.supertypes, p.IsResource parent := by
  constructor
  · intro h
    obtain rfl | ⟨parent, hparent, d', hd', hmem⟩ := ReflTransGen.cases_tail h
    · exact absurd rfl hk
    · obtain rfl := Option.some.inj (hd.symm.trans hd')
      exact ⟨parent, hmem, hparent⟩
  · rintro ⟨parent, hmem, hparent⟩
    exact hparent.tail ⟨d, hd, hmem⟩

end Lineage.Discovery
