import Lineage.Hierarchy.Ancestors
import Lineage.Proofs.Hierarchy.Faithful

/-!
# The order in which types are added

The hierarchy does not depend on the order in which types are discovered
(`alike_of_perm`). What has been added before does matter for the work that is left: the
search for cycles stops at the types that are there, and some ancestors need not be
inserted any more. But it does not matter for what comes of it:

* each type is accepted or refused as if it were added alone, with the same fault;
* the types in the hierarchy, and what their nodes tell, can be read off the descriptions
  (`Builder.holds_addAll`).

The positions of the types differ, and with them the order in which children are listed.
-/

namespace Lineage

open Relation

/-- The nodes tell the same of a type, but may list the children in different orders. -/
structure Node.Alike (n m : Node) : Prop where
  key : n.key = m.key
  kind : n.kind = m.kind
  isAbstract : n.isAbstract = m.isAbstract
  parents : n.parents = m.parents
  depth : n.depth = m.depth
  children : n.children.Perm m.children

namespace Hierarchy

variable {h h' : Hierarchy} {root root' : TypeKey}

/-- The hierarchies have the same types, and tell the same of each of them, but for the
    order of its children. -/
structure Alike (h h' : Hierarchy) : Prop where
  keys : (h.nodes.map Node.key).Perm (h'.nodes.map Node.key)
  nodes : ∀ k, Option.Rel Node.Alike (h.locate? k) (h'.locate? k)
  subtypes : ∀ k ancestor, h.isSubtypeOf k ancestor = h'.isSubtypeOf k ancestor

/-! ### What depends on parents only -/

theorem Chain.of_isParent {k top : TypeKey} {l : Nat} (hc : h.Chain k top l)
    (hp : ∀ a c, h.IsParent a c → h'.IsParent a c) : h'.Chain k top l := by
  induction hc with
  | refl k => exact .refl k
  | step hparent _ ih => exact .step (hp _ _ hparent) ih

namespace WellFormed

variable (hw : h.WellFormed root)
include hw

theorem isParent_iff_bare {parent k : TypeKey} :
    h.IsParent parent k ↔ ∃ n, (h.locate? k).map Node.bare = some n ∧ parent ∈ n.parents := by
  constructor
  · rintro ⟨n, hn, rfl, hparent⟩
    exact ⟨n.bare, by rw [hw.locate?_key hn, Option.map_some], hparent⟩
  · rintro ⟨_, hbare, hparent⟩
    obtain ⟨n, hlocate, rfl⟩ := Option.map_eq_some_iff.1 hbare
    obtain ⟨hn, rfl⟩ := hw.locate?_eq_some.1 hlocate
    exact ⟨n, hn, rfl, hparent⟩

theorem exists_bare {k : TypeKey} :
    h.contains k = true ↔ ∃ n, (h.locate? k).map Node.bare = some n := by
  rw [hw.contains_iff]
  simp only [Option.map_eq_some_iff, hw.locate?_eq_some]
  exact ⟨fun ⟨n, hn, hk⟩ => ⟨n.bare, n, ⟨hn, hk⟩, rfl⟩, fun ⟨_, n, hn, _⟩ => ⟨n, hn⟩⟩

/-- Depths and children follow from the parents of all types. -/
theorem node_alike (hw' : h'.WellFormed root)
    (hparent : ∀ a c, h.IsParent a c ↔ h'.IsParent a c) {n m : Node} (hn : n ∈ h.nodes)
    (hm : m ∈ h'.nodes) (e : n.bare = m.bare) : n.Alike m := by
  obtain ⟨hkey, hkind, habstract, hparents, _, _⟩ := Node.mk.inj e
  refine ⟨hkey, hkind, habstract, hparents, ?_, ?_⟩
  · -- both depths are the length of the longest chain of parents
    have hchain : {l | h.Chain n.key root l} = {l | h'.Chain m.key root l} := by
      ext l
      change h.Chain n.key root l ↔ h'.Chain m.key root l
      rw [hkey]
      exact ⟨fun hc => hc.of_isParent fun a c => (hparent a c).1,
        fun hc => hc.of_isParent fun a c => (hparent a c).2⟩
    exact (hchain ▸ hw.depth_isGreatest hn).unique (hw'.depth_isGreatest hm)
  · refine (List.perm_ext_iff_of_nodup (hw.nodup_children hn) (hw'.nodup_children hm)).2
      fun c => ?_
    rw [hw.mem_children_key hn, hw'.mem_children_key hm, hkey, hparent]

end WellFormed

/-- Hierarchies are alike if they have the same types, with the same kinds and parents. -/
theorem WellFormed.alike (hw : h.WellFormed root) (hw' : h'.WellFormed root)
    (hbare : ∀ k, (h.locate? k).map Node.bare = (h'.locate? k).map Node.bare) :
    h.Alike h' := by
  have hparent (a c : TypeKey) : h.IsParent a c ↔ h'.IsParent a c := by
    rw [hw.isParent_iff_bare, hw'.isParent_iff_bare, hbare]
  have hcontains (k : TypeKey) : h.contains k = true ↔ h'.contains k = true := by
    rw [hw.exists_bare, hw'.exists_bare, hbare]
  refine ⟨?_, fun k => ?_, fun k ancestor => ?_⟩
  · refine (List.perm_ext_iff_of_nodup hw.distinct hw'.distinct).2 fun k => ?_
    simpa only [hw.contains_iff, hw'.contains_iff, List.mem_map] using hcontains k
  · cases hn : h.locate? k with
    | none =>
      have hm : h'.locate? k = none := by simpa [hn] using (hbare k).symm
      rw [hm]
      exact .none
    | some n =>
      obtain ⟨m, hm, e⟩ := Option.map_eq_some_iff.1
        ((hbare k).symm.trans (congrArg (Option.map Node.bare) hn))
      rw [hm]
      exact .some (hw.node_alike hw' hparent (hw.locate?_eq_some.1 hn).1
        (hw'.locate?_eq_some.1 hm).1 e.symm)
  · have hancestor : h.IsParent = h'.IsParent := by
      funext a c
      exact propext (hparent a c)
    rw [Bool.eq_iff_iff, hw.isSubtypeOf_iff, hw'.isSubtypeOf_iff, hcontains, IsAncestor,
      IsAncestor, hancestor]

/-! ### Adding types in different orders -/

namespace Builder

variable {b : Builder} {p : Discovery} {ds es : List TypeDescriptor}

variable (p) in
/-- What becomes of types that are added one after the other, whether they are refused or
    not. -/
def outcomes (b : Builder) : List TypeDescriptor → List (Except ConfigurationFault Unit)
  | [] => []
  | d :: ds => (b.addType p d).1 :: (b.addType p d).2.outcomes ds

/-- Each type is accepted or refused as if it were added alone. -/
theorem Holds.outcomes_eq (hb : b.Holds p ds) (hes : ∀ e ∈ es, p.describe? e.key = some e) :
    b.outcomes p es = es.map fun e => ((new p.root).addType p e).1 := by
  induction es generalizing b ds with
  | nil => rfl
  | cons e es ih =>
    obtain ⟨he, hes⟩ := List.forall_mem_cons.1 hes
    rw [outcomes, List.map_cons, ih (hb.addType he) hes]
    have hverdict := (hb.faithful.added hb.sound he).verdict
    rw [hverdict.unique ((faithful_new p).added (sound_new p.root) he).verdict]

/-- What a node tells is what is described of its type. -/
theorem Holds.map_bare_locate? (hb : b.Holds p ds) (k : TypeKey) :
    (b.toHierarchy.locate? k).map Node.bare =
      if b.contains k = true then p.bareNode? k else none := by
  have hw := hb.sound.wellFormed
  split_ifs with hk
  · obtain ⟨n, hn, rfl⟩ := hw.contains_iff.1 hk
    rw [hw.locate?_key hn, Option.map_some, hb.faithful.node n hn]
  · rw [Option.map_eq_none_iff, Option.eq_none_iff_forall_ne_some]
    intro n hn
    exact hk (hw.contains_iff.2 ⟨n, hw.locate?_eq_some.1 hn⟩)

end Builder

/-- Types may be added in any order: each of them is accepted, or refused with a fault, as
    if it were added alone, and the hierarchies have the same types, with the same kinds,
    parents, depths, children and ancestors. -/
theorem alike_of_perm (p : Discovery) {ds es : List TypeDescriptor}
    (hds : ∀ d ∈ ds, p.describe? d.key = some d) (hperm : ds.Perm es) :
    let alone d := ((Builder.new p.root).addType p d).1
    (Builder.new p.root).outcomes p ds = ds.map alone ∧
      (Builder.new p.root).outcomes p es = es.map alone ∧
      Alike ((Builder.new p.root).addAll p ds).toHierarchy
        ((Builder.new p.root).addAll p es).toHierarchy := by
  intro alone
  have hes : ∀ e ∈ es, p.describe? e.key = some e := fun e he => hds e (hperm.mem_iff.2 he)
  have hb := Builder.holds_addAll hds
  have hb' := Builder.holds_addAll hes
  refine ⟨(Builder.holds_new p).outcomes_eq hds, (Builder.holds_new p).outcomes_eq hes,
    hb.sound.wellFormed.alike hb'.sound.wellFormed fun k => ?_⟩
  have hcontains : ((Builder.new p.root).addAll p ds).contains k = true ↔
      ((Builder.new p.root).addAll p es).contains k = true := by
    rw [hb.contains_iff, hb'.contains_iff]
    simp only [hperm.mem_iff]
  rw [hb.map_bare_locate?, hb'.map_bare_locate?, if_congr hcontains rfl rfl]

/-! ### Dogs, chickens and eggs -/

namespace Zoo

/-- Dogs, which are animals and pets, and implement something that is not described. -/
def dog : TypeDescriptor where
  key := ⟨"Dog"⟩
  kind := .classType
  superclass := some ⟨"Animal"⟩
  interfaces := [⟨"Pet"⟩, ⟨"Serializable"⟩]

/-- Animals. -/
def animal : TypeDescriptor where
  key := ⟨"Animal"⟩
  kind := .classType
  interfaces := [⟨"Resource"⟩]

/-- Pets. -/
def pet : TypeDescriptor where
  key := ⟨"Pet"⟩
  kind := .interfaceType
  interfaces := [⟨"Resource"⟩]
  isAbstract := true

/-- Chickens, which extend eggs. -/
def chicken : TypeDescriptor where
  key := ⟨"Chicken"⟩
  kind := .classType
  superclass := some ⟨"Egg"⟩
  interfaces := [⟨"Resource"⟩]

/-- Eggs, which extend chickens. -/
def egg : TypeDescriptor where
  key := ⟨"Egg"⟩
  kind := .classType
  superclass := some ⟨"Chicken"⟩

/-- Stones, which are no resource type. -/
def stone : TypeDescriptor where
  key := ⟨"Stone"⟩
  kind := .valueObject

/-- Discovery that knows all of them. -/
def discovery : Discovery where
  root := ⟨"Resource"⟩
  described := [dog, animal, pet, chicken, egg, stone]
  find _ := .ok []

end Zoo

open Zoo in
/-- Whether pets come before dogs or are inserted for their sake makes no difference, and
    neither does it what is refused meanwhile. -/
theorem alike_of_perm_zoo :
    let b := Builder.new discovery.root
    [dog, chicken, stone, pet].Perm [pet, stone, chicken, dog] ∧
      b.outcomes discovery [dog, chicken, stone, pet] =
        [.ok (), .error (.cycle ⟨"Chicken"⟩), .error (.unreachable ⟨"Stone"⟩), .ok ()] ∧
      b.outcomes discovery [pet, stone, chicken, dog] =
        [.ok (), .error (.unreachable ⟨"Stone"⟩), .error (.cycle ⟨"Chicken"⟩), .ok ()] ∧
      Alike (b.addAll discovery [dog, chicken, stone, pet]).toHierarchy
        (b.addAll discovery [pet, stone, chicken, dog]).toHierarchy ∧
      ((b.addAll discovery [dog, chicken, stone, pet]).nodes.map Node.key).idxOf ⟨"Pet"⟩ ≠
        ((b.addAll discovery [pet, stone, chicken, dog]).nodes.map Node.key).idxOf ⟨"Pet"⟩ := by
  have hperm : [dog, chicken, stone, pet].Perm [pet, stone, chicken, dog] := by decide
  have hdescribed : ∀ d ∈ [dog, chicken, stone, pet], discovery.describe? d.key = some d := by
    decide
  obtain ⟨hds, hes, halike⟩ := alike_of_perm discovery hdescribed hperm
  exact ⟨hperm, hds.trans rfl, hes.trans rfl, halike, by decide⟩

end Hierarchy

end Lineage
