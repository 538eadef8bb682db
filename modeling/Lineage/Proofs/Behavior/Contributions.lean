import Lineage.Proofs.Behavior.Placeholders
import Lineage.Proofs.Fallible
import Lineage.Proofs.Hierarchy.Building
import Lineage.Proofs.Hierarchy.Traversal
import Lineage.Proofs.Table

/-!
# What a behavior is composed of

The behavior of a type is composed of the contributions whose target is the type
or one of its ancestors, of each once (`Factory.contributors_of_build`). A type
without any gets the behavior that does nothing, and that behavior never appears
among others.

The contributions are passed on from parents to children
(`Factory.mem_map_key_contributionsTo`), in a hierarchy of any shape: what
reaches a type on several ways is kept once, by its name and target. Placeholders
are passed on as well, but there is one in the end only for a type that has nothing
else (`Factory.Marked.foldl_passOn`).
-/

namespace Lineage

namespace Contributions

variable {β : Type}

/-- The key that says that there are no contributions is there only if there are
    none. -/
theorem noOp_mem_keys {cs : Contributions β} : .noOp ∈ cs.keys ↔ cs = [] := by
  rw [keys_eq_ite]
  split_ifs with h
  · simpa using h
  · refine iff_of_false (fun hmem => ?_) (by simpa using h)
    obtain ⟨c, _, h⟩ := List.mem_map.1 hmem
    exact nomatch h

theorem keys_eq_noOp {cs : Contributions β} : cs.keys = [.noOp] ↔ cs = [] := by
  refine ⟨fun h => noOp_mem_keys.1 (h ▸ List.mem_singleton_self _), ?_⟩
  rintro rfl
  rfl

theorem named_mem_keys {cs : Contributions β} {name : String} {target : TypeKey} :
    .named name target ∈ cs.keys ↔ .named name target ∈ cs.map Contribution.key := by
  rw [keys_eq_ite]
  split_ifs with h
  · rw [List.isEmpty_iff.1 h]
    simp
  · rfl

theorem nodup_keys {cs : Contributions β} (hnd : (cs.map Contribution.key).Nodup) :
    cs.keys.Nodup := by
  rw [keys_eq_ite]
  split_ifs
  · exact List.nodup_singleton _
  · exact hnd

end Contributions

namespace Factory

variable {β : Type} {c : Capability β} {h : Hierarchy} {m : Metadata} {tags : TagReader}
  {discovered : List (Contributor β)} {fixed : List (TypeKey × Contributor β)}

/-! ### Joining -/

/-- A contributor of the given name is meant for the target: it has been
    discovered, with a tag that says so, or fixed beforehand. -/
def Contributes (tags : TagReader) (discovered : List (Contributor β))
    (fixed : List (TypeKey × Contributor β)) (name : String) (target : TypeKey) : Prop :=
  (∃ x ∈ discovered, x.tag.name = name ∧ tags x.tag = some target) ∨
    ∃ x, (target, x) ∈ fixed ∧ x.tag.name = name

theorem mem_pair {paired : List (TypeKey × Contributor β)}
    (hp : pair tags discovered = .ok paired) {target : TypeKey} {x : Contributor β} :
    (target, x) ∈ paired ↔ x ∈ discovered ∧ tags x.tag = some target := by
  obtain ⟨hall, hof⟩ := exists_of_mapM_eq_ok hp
  constructor
  · intro hmem
    obtain ⟨y, hy, h⟩ := hof _ hmem
    cases ht : tags y.tag with
    | none => simp [ht] at h
    | some t =>
      obtain ⟨rfl, rfl⟩ : t = target ∧ y = x := by simpa [ht] using h
      exact ⟨hy, ht⟩
  · rintro ⟨hx, ht⟩
    obtain ⟨e, he, h⟩ := hall x hx
    simp only [ht, Except.ok.injEq] at h
    exact h ▸ he

theorem contribution_eq_ok {rank : Nat} {target : TypeKey} {x : Contributor β}
    {b : Contribution β} (hb : contribution h m rank target x = .ok b) :
    b.name = x.tag.name ∧ b.target = target := by
  rw [contribution] at hb
  split at hb
  · obtain rfl := Except.ok.inj hb
    exact ⟨rfl, rfl⟩
  · exact nomatch hb

/-- Contributions are identified by the names and targets of the contributors. -/
theorem mem_map_key_join {paired : List (TypeKey × Contributor β)} {own : Contributions β}
    (hj : join h m paired = .ok own) {name : String} {target : TypeKey} :
    .named name target ∈ own.map Contribution.key ↔
      ∃ x, (target, x) ∈ paired ∧ x.tag.name = name := by
  obtain ⟨cs, hcs, hown⟩ := bind_eq_ok.1 hj
  obtain rfl := pure_eq_ok.1 hown
  obtain ⟨hall, hof⟩ := exists_of_mapM_eq_ok hcs
  rw [mem_map_addNew_nil]
  constructor
  · intro hmem
    obtain ⟨b, hb, hkey⟩ := List.mem_map.1 hmem
    obtain ⟨⟨⟨t, x⟩, i⟩, he, hb⟩ := hof b hb
    obtain ⟨hname, htarget⟩ := contribution_eq_ok hb
    obtain ⟨rfl, rfl⟩ : b.name = name ∧ b.target = target := by
      simpa [Contribution.key] using hkey
    exact ⟨x, htarget ▸ List.fst_mem_of_mem_zipIdx he, hname.symm⟩
  · rintro ⟨x, hx, rfl⟩
    obtain ⟨i, hi⟩ := List.mem_iff_getElem?.1 hx
    obtain ⟨b, hb, h⟩ := hall ((target, x), i) (List.mem_zipIdx_iff_getElem?.2 hi)
    obtain ⟨hname, htarget⟩ := contribution_eq_ok h
    refine List.mem_map.2 ⟨b, hb, ?_⟩
    rw [Contribution.key, hname, htarget]

/-! ### Passing on -/

/-- The contributions to a type, in the order in which they run. -/
def contributionsTo (c : Capability β) (h : Hierarchy) (own : Contributions β) (k : TypeKey) :
    Contributions β :=
  ((h.passDown (gather c own)).lookup k).getD []

section PassingOn

variable {own : Contributions β} {root : TypeKey} (hw : h.WellFormed root)
include hw

theorem lookup_gather (c : Capability β) (own : Contributions β) :
    (∀ k, ((h.passDown (gather c own)).lookup k).isSome = h.contains k) ∧
      ∀ n ∈ h.nodes, (h.passDown (gather c own)).lookup n.key =
        some (gather c own (h.passDown (gather c own)) n) := by
  refine hw.lookup_passDown fun made made' n hsame => ?_
  have hinherited : n.parents.flatMap (fun k => (made.lookup k).getD []) =
      n.parents.flatMap fun k => (made'.lookup k).getD [] :=
    List.flatMap_congr fun k hk => by rw [hsame k hk]
  simp only [gather, hinherited]

theorem contributionsTo_eq {n : Node} (hn : n ∈ h.nodes) :
    contributionsTo c h own n.key = gather c own (h.passDown (gather c own)) n := by
  rw [contributionsTo, (lookup_gather hw c own).2 n hn, Option.getD_some]

theorem nodup_contributionsTo {n : Node} (hn : n ∈ h.nodes) :
    ((contributionsTo c h own n.key).map Contribution.key).Nodup := by
  rw [contributionsTo_eq hw hn, gather]
  refine ((Contributions.sortBy_perm ..).map Contribution.key).nodup_iff.2 ?_
  exact nodup_addNew _ (nodup_addNew_nil _ _) _

/-- A type takes over the contributions to its parents, and those made for
    itself. -/
theorem mem_map_key_contributionsTo_step {n : Node} (hn : n ∈ h.nodes) {key : ContributionKey} :
    key ∈ (contributionsTo c h own n.key).map Contribution.key ↔
      (∃ m ∈ h.parents n, key ∈ (contributionsTo c h own m.key).map Contribution.key) ∨
        ∃ b ∈ own, b.key = key ∧ b.target = n.key := by
  rw [contributionsTo_eq hw hn, gather,
    ((Contributions.sortBy_perm ..).map Contribution.key).mem_iff,
    mem_map_addNew _ (nodup_addNew_nil _ _), mem_map_addNew_nil]
  refine or_congr ?_ ?_
  · rw [List.mem_map]
    simp only [List.mem_flatMap]
    constructor
    · rintro ⟨b, ⟨k, hk, hb⟩, rfl⟩
      obtain ⟨m, hm, rfl⟩ := hw.exists_parent hn hk
      exact ⟨m, hw.mem_parents.2 ⟨hm, hk⟩, List.mem_map_of_mem hb⟩
    · rintro ⟨m, hm, hmem⟩
      obtain ⟨b, hb, rfl⟩ := List.mem_map.1 hmem
      exact ⟨b, ⟨m.key, (hw.mem_parents.1 hm).2, hb⟩, rfl⟩
  · simp only [List.mem_map, List.mem_filter, decide_eq_true_eq]
    exact exists_congr fun b => by rw [and_assoc, and_comm (a := b.target = n.key)]

/-- The contributions to a type are those made for the type or one of its
    ancestors. -/
theorem mem_map_key_contributionsTo {key : ContributionKey} : ∀ n ∈ h.nodes,
    (key ∈ (contributionsTo c h own n.key).map Contribution.key ↔
      ∃ b ∈ own, b.key = key ∧ (b.target = n.key ∨ h.IsAncestor b.target n.key)) := by
  refine hw.parents_induction fun n hn ih => ?_
  rw [mem_map_key_contributionsTo_step hw hn]
  constructor
  · rintro (⟨m, hm, hmem⟩ | ⟨b, hb, hkey, htarget⟩)
    · obtain ⟨b, hb, hkey, htarget⟩ := (ih m hm).1 hmem
      exact ⟨b, hb, hkey, .inr (hw.isAncestor_of_parent hn (hw.mem_parents.1 hm).2 htarget)⟩
    · exact ⟨b, hb, hkey, .inl htarget⟩
  · rintro ⟨b, hb, hkey, htarget | ha⟩
    · exact .inr ⟨b, hb, hkey, htarget⟩
    · -- the last step to the type starts at one of its parents
      obtain ⟨k, hk, htarget⟩ := hw.exists_parent_of_isAncestor hn ha
      obtain ⟨m, hm, rfl⟩ := hw.exists_parent hn hk
      have hm' : m ∈ h.parents n := hw.mem_parents.2 ⟨hm, hk⟩
      exact .inl ⟨m, hm', (ih m hm').2 ⟨b, hb, hkey, htarget⟩⟩

end PassingOn

/-! ### Composing -/

theorem contributors_obtain (pool : Pool β) (c : Capability β) (es : Entries β) :
    (pool.obtain c es).1.contributors = es.keys := by
  rw [Pool.obtain]
  split
  next composite hfind => simpa using List.find?_some hfind
  next => rfl

/-- The behaviors so far have been composed of the contributions so far. -/
def Composed (resolved : List (TypeKey × Contributions β)) (p : Progress β) : Prop :=
  List.Forall₂ (fun a b => a.1 = b.1 ∧ b.2.contributors = Contributions.keys a.2) resolved
    p.composites

theorem Composed.foldl_passOn {resolved : List (TypeKey × Contributions β)} {p : Progress β}
    (hp : Composed resolved p) (hm : Marked resolved p) (c : Capability β)
    (own : Contributions β) (ns : List Node) :
    Composed (ns.foldl (fun resolved n => resolved ++ [(n.key, gather c own resolved n)]) resolved)
      (ns.foldl (passOn c own) p) := by
  induction ns generalizing resolved p with
  | nil => exact hp
  | cons n ns ih =>
    refine ih ?_ (hm.passOn c own n)
    rw [hm.passOn_eq]
    exact List.rel_append hp (.cons ⟨rfl, contributors_obtain ..⟩ .nil)

/-- Each behavior has been composed of the contributions to its type. -/
theorem composites_ofContributions (own : Contributions β) :
    List.Forall₂ (fun a b => a.1 = b.1 ∧ b.2.contributors = Contributions.keys a.2)
      (h.passDown (gather c own)) (ofContributions c h own).composites :=
  Composed.foldl_passOn (p := {}) .nil rfl c own h.toList

/-- What has been joined are the contributions that contributors are meant for. -/
theorem named_mem_map_key_join {paired : List (TypeKey × Contributor β)} {own : Contributions β}
    (hp : pair tags discovered = .ok paired) (hj : join h m (paired ++ fixed) = .ok own)
    {name : String} {target : TypeKey} :
    .named name target ∈ own.map Contribution.key ↔
      Contributes tags discovered fixed name target := by
  rw [mem_map_key_join hj, Contributes]
  simp only [List.mem_append, mem_pair hp, or_and_right, exists_or, and_assoc]
  exact or_congr_left (exists_congr fun x => and_congr_right fun _ => and_comm)

theorem exists_join_of_build {f : Factory β} (hf : build c h m tags discovered fixed = .ok f) :
    ∃ paired own, pair tags discovered = .ok paired ∧ join h m (paired ++ fixed) = .ok own ∧
      f = ofContributions c h own := by
  obtain ⟨paired, hpaired, hf⟩ := bind_eq_ok.1 hf
  obtain ⟨own, hown, hf⟩ := bind_eq_ok.1 hf
  exact ⟨paired, own, hpaired, hown, (pure_eq_ok.1 hf).symm⟩

theorem build_eq_ok {f : Factory β} (hf : build c h m tags discovered fixed = .ok f) :
    ∃ own, f = ofContributions c h own ∧ ∀ name target,
      .named name target ∈ own.map Contribution.key ↔
        Contributes tags discovered fixed name target := by
  obtain ⟨paired, own, hpaired, hown, hf⟩ := exists_join_of_build hf
  exact ⟨own, hf, fun _ _ => named_mem_map_key_join hpaired hown⟩

/-- A contributor of the given name is meant for the target, which is the type or
    one of its ancestors. -/
def ReachesType (tags : TagReader) (discovered : List (Contributor β))
    (fixed : List (TypeKey × Contributor β)) (h : Hierarchy) (k : TypeKey) (name : String)
    (target : TypeKey) : Prop :=
  Contributes tags discovered fixed name target ∧ (target = k ∨ ∃ n ∈ h.ancestors k, n.key = target)

section LookUp

variable {own : Contributions β} {root : TypeKey} (hw : h.WellFormed root) {k : TypeKey}

theorem rel_get? (own : Contributions β) (k : TypeKey) :
    Option.Rel (fun cs b => b.contributors = Contributions.keys cs)
      ((h.passDown (gather c own)).lookup k) ((ofContributions c h own).get? k) :=
  Table.rel_lookup (R := fun _ cs (b : Composite β) => b.contributors = Contributions.keys cs)
    (composites_ofContributions own) k

include hw

/-- The types of the hierarchy have behaviors, each one. -/
theorem map_fst_composites (c : Capability β) (own : Contributions β) :
    ((ofContributions c h own).composites.map Prod.fst).Perm (h.nodes.map Node.key) := by
  have hkeys := Table.map_fst_eq (composites_ofContributions (c := c) (h := h) own)
  rw [← hkeys, Hierarchy.map_fst_passDown]
  exact hw.toList_perm.map Node.key

theorem isSome_get? : ((ofContributions c h own).get? k).isSome = h.contains k := by
  have hrel := rel_get? (c := c) (h := h) own k
  rw [← (lookup_gather hw c own).1 k]
  generalize (h.passDown (gather c own)).lookup k = cs, get? _ k = b at hrel ⊢
  cases hrel <;> rfl

theorem contributors_eq {b : Composite β} (hb : (ofContributions c h own).get? k = some b) :
    ∃ n ∈ h.nodes, n.key = k ∧ b.contributors = (contributionsTo c h own k).keys := by
  have hk : h.contains k = true := (isSome_get? hw).symm.trans (hb ▸ Option.isSome_some)
  obtain ⟨n, hn, rfl⟩ := hw.contains_iff.1 hk
  have hrel := rel_get? (c := c) (h := h) own n.key
  rw [hb, (lookup_gather hw c own).2 n hn, ← contributionsTo_eq hw hn] at hrel
  cases hrel with
  | some hkeys => exact ⟨n, hn, rfl, hkeys⟩

variable (hown : ∀ name target, .named name target ∈ own.map Contribution.key ↔
    Contributes tags discovered fixed name target)
include hown

theorem named_mem_contributionsTo {n : Node} (hn : n ∈ h.nodes) {name : String}
    {target : TypeKey} :
    .named name target ∈ (contributionsTo c h own n.key).map Contribution.key ↔
      ReachesType tags discovered fixed h n.key name target := by
  rw [mem_map_key_contributionsTo hw n hn, ReachesType, ← hown, List.mem_map]
  rw [← hw.isAncestor_iff]
  constructor
  · rintro ⟨b, hb, hkey, htarget⟩
    obtain ⟨rfl, rfl⟩ : b.name = name ∧ b.target = target := by
      simpa [Contribution.key] using hkey
    exact ⟨⟨b, hb, rfl⟩, htarget⟩
  · rintro ⟨⟨b, hb, hkey⟩, htarget⟩
    obtain ⟨rfl, rfl⟩ : b.name = name ∧ b.target = target := by
      simpa [Contribution.key] using hkey
    exact ⟨b, hb, rfl, htarget⟩

theorem named_mem_contributors {b : Composite β}
    (hb : (ofContributions c h own).get? k = some b) {name : String} {target : TypeKey} :
    .named name target ∈ b.contributors ↔ ReachesType tags discovered fixed h k name target := by
  obtain ⟨n, hn, rfl, hkeys⟩ := contributors_eq hw hb
  rw [hkeys, Contributions.named_mem_keys, named_mem_contributionsTo hw hown hn]

/-- Without contributions there are no keys, since each contribution has the name
    and target of a contributor. -/
theorem contributionsTo_eq_nil {n : Node} (hn : n ∈ h.nodes) :
    contributionsTo c h own n.key = [] ↔
      ∀ name target, ¬ ReachesType tags discovered fixed h n.key name target := by
  simp only [← named_mem_contributionsTo (c := c) hw hown hn]
  constructor
  · intro hnil name target
    rw [hnil]
    exact List.not_mem_nil
  · exact fun hnone => List.eq_nil_iff_forall_not_mem.2 fun b hb =>
      hnone b.name b.target (List.mem_map_of_mem hb)

end LookUp

/-- What reaches an ancestor of a type reaches the type. -/
theorem ReachesType.of_mem_ancestors {root : TypeKey} (hw : h.WellFormed root) {k : TypeKey}
    {m : Node} (hm : m ∈ h.ancestors k) {name : String} {target : TypeKey}
    (hr : ReachesType tags discovered fixed h m.key name target) :
    ReachesType tags discovered fixed h k name target := by
  obtain ⟨hc, rfl | ⟨n, hn, rfl⟩⟩ := hr
  · exact ⟨hc, .inr ⟨m, hm, rfl⟩⟩
  · obtain ⟨hn, ha⟩ := hw.mem_ancestors.1 hn
    exact ⟨hc, .inr ⟨n, hw.mem_ancestors.2 ⟨hn, ha.trans (hw.mem_ancestors.1 hm).2⟩, rfl⟩⟩

/-- The factory has a behavior for each type of the hierarchy, and for no other.
    It is composed of the contributions whose target is the type or one of its
    ancestors, of each once, and of nothing else. Where there are none it is the
    one that does nothing. -/
theorem contributors_of_build {f : Factory β} (hs : h.Sealed)
    (hf : build c h m tags discovered fixed = .ok f) :
    (f.composites.map Prod.fst).Perm (h.nodes.map Node.key) ∧
    ∀ k, (f.get? k).isSome = h.contains k ∧ ∀ b, f.get? k = some b →
      b.contributors.Nodup ∧
      (∀ name target, .named name target ∈ b.contributors ↔
        ReachesType tags discovered fixed h k name target) ∧
      (.noOp ∈ b.contributors ↔ b.contributors = [.noOp]) ∧
      (b.contributors = [.noOp] ↔
        ∀ name target, ¬ ReachesType tags discovered fixed h k name target) ∧
      ∀ n ∈ h.ancestors k, ∀ b', f.get? n.key = some b' → ∀ name target,
        .named name target ∈ b'.contributors → .named name target ∈ b.contributors := by
  obtain ⟨root, hw⟩ := hs.wellFormed
  obtain ⟨own, rfl, hown⟩ := build_eq_ok hf
  refine ⟨map_fst_composites hw c own, fun k => ⟨isSome_get? hw, fun b hb => ?_⟩⟩
  obtain ⟨n, hn, rfl, hkeys⟩ := contributors_eq hw hb
  refine ⟨?_, fun name target => named_mem_contributors hw hown hb, ?_, ?_, ?_⟩
  · rw [hkeys]
    exact Contributions.nodup_keys (nodup_contributionsTo hw hn)
  · rw [hkeys, Contributions.noOp_mem_keys, Contributions.keys_eq_noOp]
  · rw [hkeys, Contributions.keys_eq_noOp, contributionsTo_eq_nil hw hown hn]
  · intro m hm b' hb' name target hmem
    rw [named_mem_contributors hw hown hb]
    exact ((named_mem_contributors hw hown hb').1 hmem).of_mem_ancestors hw hm

/-! ### Dogs -/

namespace Dogs

/-- Animals. -/
def animal : TypeKey := ⟨"Animal"⟩

/-- Pets. -/
def pet : TypeKey := ⟨"Pet"⟩

/-- Dogs, which are animals and pets. -/
def dog : TypeKey := ⟨"Dog"⟩

/-- Discovery knows a diamond of types. -/
def discovery : Discovery where
  root := ⟨"Resource"⟩
  described := [
    { key := pet, kind := .interfaceType, interfaces := [⟨"Resource"⟩] },
    { key := animal, kind := .classType, interfaces := [⟨"Resource"⟩] },
    { key := dog, kind := .classType, superclass := some animal, interfaces := [pet] }]
  find _ := .ok []

/-- The types have no attributes. -/
def metadata : Metadata where
  catalogues := [⟨⟨"Resource"⟩, true, []⟩, ⟨pet, true, []⟩, ⟨animal, false, []⟩, ⟨dog, false, []⟩]

/-- A contributor that is fixed for pets. -/
def tame : Contributor Validator where
  tag := ⟨"tame", none⟩
  shared := ⟨.contributed 1, .noOp⟩

end Dogs

open Dogs in
/-- If there is nothing but a contribution to pets then animals have a placeholder. Dogs take it
    over from animals and the contribution from pets, and are left with the contribution. -/
theorem contributors_of_build_dogs :
    ∃ f, build .validation (.built discovery) metadata .declared [] [(pet, tame)] = .ok f ∧
      (∃ b, f.get? animal = some b ∧ b.contributors = [.noOp] ∧ ∀ name target,
        ¬ ReachesType .declared [] [(pet, tame)] (.built discovery) animal name target) ∧
      ∃ b, f.get? dog = some b ∧ b.contributors = [.named "tame" pet] ∧
        ReachesType .declared [] [(pet, tame)] (.built discovery) dog "tame" pet := by
  obtain ⟨f, hf⟩ : ∃ f, build .validation (.built discovery) metadata .declared []
      [(pet, tame)] = .ok f := ⟨_, rfl⟩
  obtain ⟨_, hall⟩ := contributors_of_build (Hierarchy.sealed_built _) hf
  obtain ⟨b, hb, hnone⟩ : ∃ b, f.get? animal = some b ∧ b.contributors = [.noOp] := by
    obtain rfl := Except.ok.inj hf
    exact ⟨_, rfl, rfl⟩
  obtain ⟨b', hb', htame⟩ : ∃ b, f.get? dog = some b ∧ b.contributors = [.named "tame" pet] := by
    obtain rfl := Except.ok.inj hf
    exact ⟨_, rfl, rfl⟩
  obtain ⟨_, _, _, hanimal, _⟩ := (hall animal).2 b hb
  obtain ⟨_, hdog, _⟩ := (hall dog).2 b' hb'
  refine ⟨f, hf, ⟨b, hb, hnone, hanimal.1 hnone⟩, b', hb', htame, (hdog "tame" pet).1 ?_⟩
  exact htame ▸ List.mem_singleton_self _

end Factory

end Lineage
