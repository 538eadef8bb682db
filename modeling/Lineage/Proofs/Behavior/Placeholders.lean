import Lineage.Proofs.Behavior.AddNew
import Lineage.Proofs.Behavior.Composing
import Lineage.Proofs.Table

/-!
# Placeholders

A type to which nothing is contributed has a placeholder in its set. Its children take that
over like any contribution, so it may well end up beside some. It is dropped there, and the set of
a type is in the end either an only placeholder or free of it (`Factory.Marked.foldl_passOn`):

* What is inherited is joined by keys, and so there is at most one placeholder. A set of entries
  with distinct keys that is not empty is thus told by the contributions in it
  (`elide_eq_entries`).
* A contribution is never taken for a placeholder, nor the other way round. So joining sets joins
  the contributions in them (`reduceOption_addNew`), and sorting sorts them
  (`Entries.sortBy_entries`).

What the types pass on are therefore the contributions that would be passed on without any
placeholders (`Factory.gather`), and the empty ones of these sets are marked.
-/

namespace Lineage

/-! ### Contributions as entries -/

variable {β : Type}

namespace Contributions

/-- The contributions in the order in which they run. -/
def sortBy (precedence : Precedence) (cs : Contributions β) : Contributions β :=
  match precedence with
  | .propagation => cs
  | .depth => cs.mergeSort fun a b => a.depth < b.depth || (a.depth = b.depth && a.rank ≤ b.rank)

/-- The keys of the contributions; without any, the key that says so. -/
def keys (cs : Contributions β) : List ContributionKey :=
  cs.entries.keys

theorem sortBy_perm (precedence : Precedence) (cs : Contributions β) :
    (cs.sortBy precedence).Perm cs := by
  cases precedence with
  | propagation => exact .refl cs
  | depth => exact List.mergeSort_perm cs _

theorem entries_of_ne_nil {cs : Contributions β} (hcs : cs ≠ []) : cs.entries = cs.map some := by
  cases cs with
  | nil => exact absurd rfl hcs
  | cons c cs => rfl

theorem keys_eq_ite (cs : Contributions β) :
    cs.keys = if cs.isEmpty then [.noOp] else cs.map Contribution.key := by
  cases cs with
  | nil => rfl
  | cons c cs =>
    rw [keys, entries_of_ne_nil (List.cons_ne_nil c cs), Entries.keys, List.map_map]
    rfl

@[simp]
theorem reduceOption_entries (cs : Contributions β) : cs.entries.reduceOption = cs := by
  cases cs with
  | nil => rfl
  | cons c cs =>
    rw [entries_of_ne_nil (List.cons_ne_nil c cs), List.reduceOption, List.filterMap_map]
    exact List.filterMap_some

/-- The behavior is composed of the contributions. -/
theorem compose_entries (c : Capability β) (handle : Handle) (cs : Contributions β) :
    c.compose handle (cs.entries.map Entry.slot) =
      c.compose handle ((cs.map Contribution.shared).map some) := by
  refine c.compose_congr handle ?_
  have hslots : (cs.entries.map Entry.slot).reduceOption =
      cs.entries.reduceOption.map Contribution.shared := List.reduceOption_map
  rw [hslots, reduceOption_entries, List.reduceOption, List.filterMap_map]
  exact List.filterMap_some.symm

end Contributions

/-! ### Sets of entries -/

/-- Keys of contributions are found with contributions only. -/
theorem key_mem_map_key {c : Contribution β} {es : Entries β} :
    Entry.key (some c) ∈ es.map Entry.key ↔ c.key ∈ es.reduceOption.map Contribution.key := by
  simp only [List.mem_map, List.reduceOption_mem_iff]
  constructor
  · intro h
    obtain ⟨e, he, hkey⟩ := h
    cases e with
    | none => exact absurd hkey nofun
    | some c' => exact ⟨c', he, hkey⟩
  · intro h
    obtain ⟨c', hc', hkey⟩ := h
    exact ⟨some c', hc', hkey⟩

/-- Joining sets joins the contributions in them. -/
theorem reduceOption_addNew (es new : Entries β) :
    (addNew Entry.key es new).reduceOption =
      addNew Contribution.key es.reduceOption new.reduceOption := by
  induction new generalizing es with
  | nil => rfl
  | cons e new ih =>
    cases e with
    | none =>
      -- a placeholder does not count, whether it is added or not
      rw [List.reduceOption_cons_of_none]
      by_cases hnone : Entry.key (none : Entry β) ∈ es.map Entry.key
      · rw [addNew_cons_of_mem _ hnone, ih]
      · rw [addNew_cons_of_not_mem _ hnone, ih, List.reduceOption_append,
          List.reduceOption_cons_of_none, List.reduceOption_nil, List.append_nil]
    | some c =>
      rw [List.reduceOption_cons_of_some]
      by_cases hc : Entry.key (some c) ∈ es.map Entry.key
      · rw [addNew_cons_of_mem _ hc, ih, addNew_cons_of_mem _ (key_mem_map_key.1 hc)]
      · rw [addNew_cons_of_not_mem _ hc, ih, List.reduceOption_append,
          addNew_cons_of_not_mem _ (mt key_mem_map_key.2 hc)]
        rfl

/-- With its own entries, a type has some. -/
theorem addNew_entries_ne_nil {es : Entries β} (hnd : (es.map Entry.key).Nodup)
    (cs : Contributions β) : addNew Entry.key es cs.entries ≠ [] := by
  intro hnil
  obtain ⟨e, he⟩ : ∃ e, e ∈ cs.entries := by
    cases cs with
    | nil => exact ⟨none, List.mem_cons_self⟩
    | cons c cs => exact ⟨some c, List.mem_cons_self⟩
  have hmem := (mem_map_addNew Entry.key hnd cs.entries).2 (.inr (List.mem_map_of_mem he))
  rw [hnil] at hmem
  exact List.not_mem_nil hmem

theorem filter_isSome {α : Type} (items : List (Option α)) :
    items.filter Option.isSome = items.reduceOption.map some := by
  induction items with
  | nil => rfl
  | cons item items ih =>
    cases item with
    | none => rw [List.filter_cons_of_neg Bool.false_ne_true, ih, List.reduceOption_cons_of_none]
    | some a =>
      rw [List.filter_cons_of_pos rfl, ih, List.reduceOption_cons_of_some, List.map_cons]

/-- There is at most one placeholder, and it has a set to itself or is dropped. -/
theorem elide_eq_entries {es : Entries β} (hnd : (es.map Entry.key).Nodup) (hne : es ≠ []) :
    elide es = Contributions.entries es.reduceOption := by
  rw [elide]
  split_ifs with hlength
  · -- two placeholders would have the same key, so something else is there
    have hreal : es.reduceOption ≠ [] := by
      intro hnil
      obtain ⟨n, rfl⟩ := (List.reduceOption_eq_nil_iff es).1 hnil
      rw [List.map_replicate, List.nodup_replicate] at hnd
      rw [List.length_replicate] at hlength
      omega
    rw [filter_isSome, Contributions.entries_of_ne_nil hreal]
  · obtain ⟨e, rfl⟩ : ∃ e, es = [e] := List.length_eq_one_iff.1 <| by
      have := List.length_pos_iff.2 hne
      omega
    cases e with
    | none => rfl
    | some c => rfl

/-- Sorting sets sorts the contributions in them. -/
theorem Entries.sortBy_entries (precedence : Precedence) (cs : Contributions β) :
    Entries.sortBy precedence cs.entries = (cs.sortBy precedence).entries := by
  cases precedence with
  | propagation => rfl
  | depth =>
    by_cases hcs : cs = []
    · rw [hcs, Contributions.sortBy, List.mergeSort_nil]
      exact List.mergeSort_singleton none
    · have hsorted : cs.sortBy .depth ≠ [] := fun hnil =>
        hcs (List.perm_nil.1 (hnil ▸ (cs.sortBy_perm .depth).symm))
      rw [Contributions.entries_of_ne_nil hcs, Contributions.entries_of_ne_nil hsorted, sortBy,
        Contributions.sortBy]
      exact (List.map_mergeSort (f := some) (s := Entry.le) fun _ _ _ _ => rfl).symm

/-! ### Passing on -/

namespace Factory

variable {c : Capability β} {own : Contributions β}

/-- The contributions to a type in their order, from those to the types before it: those to its
    parents, then those made for itself. -/
def gather (c : Capability β) (own : Contributions β)
    (resolved : List (TypeKey × Contributions β)) (n : Node) : Contributions β :=
  let inherited := n.parents.flatMap fun k => (resolved.lookup k).getD []
  Contributions.sortBy c.precedence <|
    addNew Contribution.key (addNew Contribution.key [] inherited) (own.filter (·.target = n.key))

/-- The sets of the types so far are those of the contributions to them, with a placeholder where
    there are none. -/
def Marked (resolved : List (TypeKey × Contributions β)) (p : Progress β) : Prop :=
  p.resolved = resolved.map fun e => (e.1, e.2.entries)

variable {resolved : List (TypeKey × Contributions β)} {p : Progress β}

/-- What a type passes on. -/
theorem Marked.reduceOption_lookup (hp : Marked resolved p) (k : TypeKey) :
    List.reduceOption ((p.resolved.lookup k).getD []) = (resolved.lookup k).getD [] := by
  have hlookup : p.resolved.lookup k = (resolved.lookup k).map Contributions.entries := by
    rw [hp]
    exact Table.get?_map _ resolved k
  rw [hlookup]
  cases resolved.lookup k with
  | none => rfl
  | some cs => exact cs.reduceOption_entries

/-- The entries of a type are the contributions to it, or a placeholder if there are none. -/
theorem Marked.sortBy_collect (hp : Marked resolved p) (c : Capability β) (own : Contributions β)
    (n : Node) :
    (collect p own n).sortBy c.precedence = (gather c own resolved n).entries := by
  have hinherited :
      List.reduceOption (n.parents.flatMap fun k => (p.resolved.lookup k).getD []) =
        n.parents.flatMap fun k => (resolved.lookup k).getD [] := by
    rw [List.reduceOption, List.filterMap_flatMap]
    exact List.flatMap_congr fun k _ => hp.reduceOption_lookup k
  have hnd := nodup_addNew_nil Entry.key (n.parents.flatMap fun k => (p.resolved.lookup k).getD [])
  rw [collect, elide_eq_entries (nodup_addNew _ hnd _) (addNew_entries_ne_nil hnd _),
    reduceOption_addNew, reduceOption_addNew, Contributions.reduceOption_entries, hinherited,
    List.reduceOption_nil, Entries.sortBy_entries, gather]

/-- Reaching a type adds the contributions to it to the sets, and the composite of them to the
    behaviors. -/
theorem Marked.passOn_eq (hp : Marked resolved p) (c : Capability β) (own : Contributions β)
    (n : Node) :
    passOn c own p n =
      { resolved := p.resolved ++ [(n.key, (gather c own resolved n).entries)]
        pool := (p.pool.obtain c (gather c own resolved n).entries).2
        composites :=
          p.composites ++ [(n.key, (p.pool.obtain c (gather c own resolved n).entries).1)] } := by
  rw [passOn, hp.sortBy_collect]

theorem Marked.passOn (hp : Marked resolved p) (c : Capability β) (own : Contributions β)
    (n : Node) :
    Marked (resolved ++ [(n.key, gather c own resolved n)]) (passOn c own p n) := by
  rw [hp.passOn_eq, Marked, List.map_append, ← hp]
  rfl

/-- Along any types, the sets are those of the contributions to them. Each is a placeholder only,
    or free of placeholders. -/
theorem Marked.foldl_passOn (hp : Marked resolved p) (c : Capability β) (own : Contributions β)
    (ns : List Node) :
    Marked (ns.foldl (fun resolved n => resolved ++ [(n.key, gather c own resolved n)]) resolved)
      (ns.foldl (Factory.passOn c own) p) := by
  induction ns generalizing resolved p with
  | nil => exact hp
  | cons n ns ih => exact ih (hp.passOn c own n)

end Factory

end Lineage
