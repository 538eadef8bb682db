import Lineage.Hierarchy.Builder
import Lineage.Proofs.Bounded
import Lineage.Proofs.Discovery
import Mathlib.Data.List.Nodup
import Mathlib.Data.List.Perm.Subperm
import Mathlib.Logic.Relation

/-!
# The search for cycles

Before a type is added its supertypes are searched for cycles. The search is
depth first: types on the current path are told from those that were visited
and left again. It is enough for the types that are visited and left to be
*accessible* (`Acc`), which says that no infinite chain of supertypes starts from
them. So if the search ends without an error then all chains of supertypes above
the new type are finite (`searchCycles_ensures_acc`), and no type on them is above
itself.

Types that are in the hierarchy have been searched before, and chains end there
(`Builder.seen`). The depth of the search is bounded since the types on a path
are distinct, and all but the new one are described.
-/

namespace Lineage

open Relation

/-! ### Accessible elements of a relation -/

theorem not_transGen_self {α : Type} {r : α → α → Prop} {a : α} (ha : Acc r a) :
    ¬ TransGen r a a := by
  intro hc
  have ha' := ha.transGen
  induction ha' with
  | intro x _ ih => exact ih x hc (ha.inv_of_transGen hc) hc

theorem acc_of_reflTransGen {α : Type} {r : α → α → Prop} {x a : α} (ha : Acc r a)
    (h : ReflTransGen r x a) : Acc r x := by
  rcases reflTransGen_iff_eq_or_transGen.1 h with rfl | h
  · exact ha
  · exact ha.inv_of_transGen h

namespace Hierarchy.Builder

/-! ### Accessible types -/

variable (b : Builder) (p : Discovery) (d : TypeDescriptor)

/-- What is looked up while a type is added: nothing for the types that are there
    already, the given descriptor for the type itself, and otherwise what
    discovery tells. -/
def seen (k : TypeKey) : Option TypeDescriptor :=
  if b.contains k then none else if k = d.key then some d else p.describe? k

/-- The first type is a supertype of the second, as looked up. -/
def Above (parent k : TypeKey) : Prop :=
  ∃ e, b.seen p d k = some e ∧ parent ∈ e.supertypes

variable {b p d}

theorem seen_self (hd : b.contains d.key = false) : b.seen p d d.key = some d := by
  rw [seen, if_neg (Bool.eq_false_iff.1 hd), if_pos rfl]

theorem acc_of_seen_eq_none {k : TypeKey} (hk : b.seen p d k = none) : Acc (b.Above p d) k :=
  .intro k fun _ ⟨_, he, _⟩ => absurd (hk.symm.trans he) (by simp)

/-- What holds of the state of the search: types that were visited and left are
    accessible. -/
def Settled (b : Builder) (p : Discovery) (d : TypeDescriptor) (t : Trail) : Prop :=
  ∀ k ∈ t.visited, k ∈ t.path ∨ Acc (b.Above p d) k

/-- Types on a path are distinct, and described but for the one that is added. -/
structure IsPath (p : Discovery) (d : TypeDescriptor) (path : List TypeKey) : Prop where
  nodup : path.Nodup
  added : d.key ∈ path
  described : ∀ k ∈ path, k = d.key ∨ k ∈ p.described.map TypeDescriptor.key

theorem IsPath.singleton (p : Discovery) (d : TypeDescriptor) : IsPath p d [d.key] where
  nodup := List.nodup_singleton _
  added := List.mem_singleton_self _
  described _ hk := .inl (List.mem_singleton.1 hk)

/-- There are at most as many of them as there are described types, and one more. -/
theorem IsPath.length_le {path : List TypeKey} (hp : IsPath p d path) :
    path.length ≤ p.described.length + 1 := by
  have hsub : path ⊆ d.key :: p.described.map TypeDescriptor.key :=
    fun k hk => List.mem_cons.2 (hp.described k hk)
  simpa using (List.subperm_of_subset hp.nodup hsub).length_le

/-- A depth that makes up the bound together with a path is not zero, as the path would be too
    long. -/
theorem IsPath.fuel_pos {path : List TypeKey} (hp : IsPath p d path) {fuel : Nat}
    (hfuel : p.depthBound ≤ fuel + path.length) : 0 < fuel := by
  have := hp.length_le
  rw [Discovery.depthBound] at hfuel
  omega

theorem IsPath.cons {path : List TypeKey} (hp : IsPath p d path) {e : TypeDescriptor}
    (he : e ∈ p.described) (hnew : e.key ∉ path) : IsPath p d (e.key :: path) where
  nodup := List.nodup_cons.2 ⟨hnew, hp.nodup⟩
  added := List.mem_cons_of_mem _ hp.added
  described k hk := by
    rcases List.mem_cons.1 hk with rfl | hk
    · exact .inr (List.mem_map_of_mem he)
    · exact hp.described k hk

theorem Settled.acc {t : Trail} (ht : Settled b p d t) {k : TypeKey} (hk : k ∈ t.visited)
    (hon : k ∉ t.path) : Acc (b.Above p d) k :=
  (ht k hk).resolve_left hon

/-- A type that is being visited need not be accessible yet. -/
theorem Settled.enter {t : Trail} (ht : Settled b p d t) (k : TypeKey) :
    Settled b p d (t.enter k) := by
  intro k' hk'
  rcases List.mem_cons.1 hk' with rfl | hk'
  · exact .inl List.mem_cons_self
  · exact (ht k' hk').imp_left (List.mem_cons_of_mem k)

/-- It has to be when it is left, and then the path is as it was before. -/
theorem Settled.leave {t : Trail} (ht : Settled b p d t) {k : TypeKey} {path : List TypeKey}
    (hpath : t.path = k :: path) (hacc : Acc (b.Above p d) k) :
    (t.leave k).path = path ∧ Settled b p d (t.leave k) := by
  have hleave : (t.leave k).path = path := by rw [Trail.leave, hpath, List.erase_cons_head]
  refine ⟨hleave, fun k' hk' => ?_⟩
  rw [hleave]
  rcases ht k' hk' with h | h
  · rw [hpath] at h
    rcases List.mem_cons.1 h with rfl | h
    · exact .inr hacc
    · exact .inl h
  · exact .inr h

/-- A type is accessible if all of its supertypes are. -/
theorem acc_of_supertypes {e : TypeDescriptor} (he : b.seen p d e.key = some e)
    (hacc : ∀ k ∈ e.supertypes, Acc (b.Above p d) k) : Acc (b.Above p d) e.key := by
  refine .intro _ fun k ⟨e', he', hk⟩ => ?_
  obtain rfl := Option.some.inj (he.symm.trans he')
  exact hacc k hk

variable (b p) in
/-- One round of `searchCycles`: a supertype is searched in the given way, unless
    it has been before. -/
def visit (search : TypeDescriptor → Trail → Bounded TypeKey Trail) (t : Trail)
    (parent : TypeKey) : Bounded TypeKey Trail :=
  if t.path.contains parent then throw parent
  else if t.visited.contains parent || b.contains parent then return t
  else match p.describe? parent with
    | none => return t
    | some d' => search d' t

theorem searchCycles_succ (fuel : Nat) (e : TypeDescriptor) (t : Trail) :
    b.searchCycles p (fuel + 1) e t = (do
      return (← e.supertypes.foldlM (b.visit p (b.searchCycles p fuel)) (t.enter e.key)).leave
        e.key) := by
  rw [searchCycles]
  rfl

/-- What a search comes to: the path is as it was, and the type is accessible. -/
structure Searched (b : Builder) (p : Discovery) (d : TypeDescriptor) (k : TypeKey)
    (path : List TypeKey) (t : Trail) : Prop where
  path_eq : t.path = path
  settled : Settled b p d t
  acc : Acc (b.Above p d) k

/-- A supertype is accessible after its round, if it is searched as it should. -/
theorem visit_ensures {path : List TypeKey} (hpath : IsPath p d path)
    {search : TypeDescriptor → Trail → Bounded TypeKey Trail}
    (hsearch : ∀ e' t', b.seen p d e'.key = some e' → IsPath p d (e'.key :: path) →
      t'.path = path → Settled b p d t' →
      (search e' t').Ensures (Searched b p d e'.key path) fun _ => True)
    {t : Trail} (hon : t.path = path) (ht : Settled b p d t) (parent : TypeKey) :
    (b.visit p search t parent).Ensures (Searched b p d parent path) fun _ => True := by
  rw [visit, hon]
  split_ifs with hmem hvis
  · exact .throw trivial
  all_goals have hmem : parent ∉ path := by simpa using hmem
  · refine .pure ⟨hon, ht, ?_⟩
    rcases Bool.or_eq_true_iff.1 hvis with hvis | hthere
    · exact ht.acc (by simpa using hvis) (hon ▸ hmem)
    · exact acc_of_seen_eq_none (if_pos hthere)
  · -- the type that is added is on the path, so the supertype is another
    have hnew : parent ≠ d.key := fun h => hmem (h ▸ hpath.added)
    have hseen : b.seen p d parent = p.describe? parent := by
      simp only [Bool.or_eq_true, not_or] at hvis
      rw [seen, if_neg hvis.2, if_neg hnew]
    split
    next hnone => exact .pure ⟨hon, ht, acc_of_seen_eq_none (hseen.trans hnone)⟩
    next e he =>
      obtain ⟨rfl, hdesc⟩ := Discovery.key_of_describe? he
      exact hsearch e t (hseen.trans he) (hpath.cons hdesc hmem) hon ht

/-- The search stays within its bound. If it finds no cycle, the type is
    accessible, and the path is as it was. -/
theorem searchCycles_ensures (fuel : Nat) (e : TypeDescriptor) (t : Trail)
    (he : b.seen p d e.key = some e) (hpath : IsPath p d (e.key :: t.path))
    (hfuel : p.depthBound ≤ fuel + t.path.length) (ht : Settled b p d t) :
    (b.searchCycles p fuel e t).Ensures (Searched b p d e.key t.path) fun _ => True := by
  induction fuel generalizing e t with
  | zero => exact absurd (hpath.fuel_pos (Nat.le_succ_of_le hfuel)) (Nat.lt_irrefl 0)
  | succ fuel ih =>
    rw [searchCycles_succ]
    -- the supertypes that are no longer left to be visited are accessible
    refine .bind (.mono (.foldlM (fun l t' => t'.path = e.key :: t.path ∧ Settled b p d t' ∧
        ∀ k ∈ e.supertypes, k ∈ l ∨ Acc (b.Above p d) k)
      ?_ _ _ ⟨rfl, ht.enter _, fun k hk => .inl hk⟩) ?_ fun _ => id)
    · rintro parent l t' ⟨hon, ht', hdone⟩
      refine (visit_ensures hpath (fun e' t'' he' hpath' hon' ht'' => ?_) hon ht' parent).mono ?_
        fun _ => id
      · rw [← hon'] at hpath' ⊢
        refine ih e' t'' he' hpath' ?_ ht''
        rw [hon', List.length_cons]
        omega
      · rintro s ⟨hs, hset, hacc⟩
        refine ⟨hs, hset, fun k hk => ?_⟩
        rcases hdone k hk with hk | hk
        · exact (List.mem_cons.1 hk).elim (fun h => .inr (h ▸ hacc)) .inl
        · exact .inr hk
    · rintro s ⟨hs, hset, hdone⟩
      have hacc : Acc (b.Above p d) e.key :=
        acc_of_supertypes he fun k hk => (hdone k hk).resolve_left (List.not_mem_nil)
      obtain ⟨hleave, hset⟩ := hset.leave hs hacc
      exact .pure ⟨hleave, hset, hacc⟩

/-- The search for cycles ends, and if it finds none then the new type is
    accessible. -/
theorem searchCycles_ensures_acc (hd : b.contains d.key = false) :
    (b.searchCycles p p.depthBound d {}).Ensures (fun _ => Acc (b.Above p d) d.key)
      fun _ => True :=
  (searchCycles_ensures _ d {} (seen_self hd) (.singleton p d) (Nat.le_add_right ..)
    fun _ hk => absurd hk List.not_mem_nil).mono (fun _ h => h.acc) fun _ => id

end Hierarchy.Builder

end Lineage
