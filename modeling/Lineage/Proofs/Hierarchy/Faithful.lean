import Lineage.Proofs.Hierarchy.Verdict

/-!
# Hierarchies are faithful to discovery

What a hierarchy tells of a type does not depend on when the type was inserted, on its
own or as an ancestor of another: its kind is the described one, and its parents are
those of its supertypes that are resource types (`Discovery.bareNode?`, `Faithful`).

* `attach_permits`: inserting a type fails only if the type is no resource type, and then
  nothing has been inserted. Ancestors never fail, since each of them has a supertype on
  the way to the root.
* `Faithful.addType`: what becomes of a type is read off its description (`Verdict`).
* `holds_addAll`: the types in the hierarchy are the root and the resource types above
  those added types that are accessible.
-/

namespace Lineage

open Relation

/-! ### Nodes as described -/

/-- What a node tells of its type, apart from its place among the others. -/
def Node.bare (n : Node) : Node :=
  { n with children := [], depth := 0 }

/-- The node of a type, as described: the root is an abstract interface, and the parents
    of any other type are its supertypes that are resource types. -/
def Discovery.bareNode? (p : Discovery) (k : TypeKey) : Option Node :=
  if k = p.root then some (.ofRoot p.root)
  else (p.describe? k).map fun d =>
    { key := d.key, kind := d.kind, isAbstract := d.isAbstract
      parents := p.resources d.supertypes }

theorem Discovery.bareNode?_root (p : Discovery) : p.bareNode? p.root = some (.ofRoot p.root) :=
  if_pos rfl

theorem Discovery.bareNode?_of_ne {p : Discovery} {d : TypeDescriptor} {k : TypeKey}
    (hk : k ≠ p.root) (hd : p.describe? k = some d) :
    p.bareNode? k = some { key := d.key, kind := d.kind, isAbstract := d.isAbstract,
                           parents := p.resources d.supertypes } := by
  rw [bareNode?, if_neg hk, hd, Option.map_some]

namespace Hierarchy.Builder

variable {b b₁ b₂ : Builder} {p : Discovery} {d e : TypeDescriptor} {k : TypeKey}

/-- What is known of types that descend from the root: the root is among them, and they
    are resource types. -/
structure Known (p : Discovery) (known : List TypeKey) : Prop where
  root : p.root ∈ known
  resource : ∀ k ∈ known, p.IsResource k

/-- What a builder tells of types does not depend on how it has come about. -/
structure Faithful (b : Builder) (p : Discovery) : Prop where
  grounded : b.Grounded p
  position : ∀ k i, b.position? k = some i → ∃ n, b.nodes[i]? = some n ∧ n.key = k
  known : Known p b.reachesRoot
  node : ∀ n ∈ b.nodes, p.bareNode? n.key = some n.bare

/-- The parents of a type are its supertypes that are resource types, but the root has
    none. -/
theorem Faithful.parents (hb : b.Faithful p) {n : Node} (hn : n ∈ b.nodes) :
    n.key = p.root ∧ n.parents = [] ∨
      ∃ d, p.describe? n.key = some d ∧ n.parents = p.resources d.supertypes := by
  have hbare := hb.node n hn
  by_cases hroot : n.key = p.root
  · rw [hroot, p.bareNode?_root] at hbare
    exact .inl ⟨hroot, (congrArg Node.parents (Option.some.inj hbare)).symm⟩
  · rw [Discovery.bareNode?, if_neg hroot] at hbare
    obtain ⟨d, hd, hbare⟩ := Option.map_eq_some_iff.1 hbare
    exact .inr ⟨d, hd, (congrArg Node.parents hbare).symm⟩

theorem faithful_new (p : Discovery) : (new p.root).Faithful p where
  grounded := grounded_new p
  position k i hi := ((sound_new p.root).wellFormed.position k i).1 hi
  known := ⟨List.mem_singleton_self _, fun _ hk => List.mem_singleton.1 hk ▸ .refl⟩
  node n hn := by
    rw [List.mem_singleton.1 hn]
    exact p.bareNode?_root

/-- What a builder may become when a type is inserted: types keep their positions, and
    those that are new are resource types above the given one. -/
structure Extends (b : Builder) (p : Discovery) (k : TypeKey) (b' : Builder) : Prop where
  faithful : b'.Faithful p
  kept : ∀ x i, b.position? x = some i → b'.position? x = some i
  fresh : ∀ x, b'.contains x = true →
    b.contains x = true ∨ p.IsResource x ∧ ReflTransGen p.Above x k

namespace Extends

theorem refl (hb : b.Faithful p) (k : TypeKey) : b.Extends p k b :=
  ⟨hb, fun _ _ => id, fun _ => .inl⟩

/-- Inserting a supertype is part of inserting a type. -/
theorem trans {parent : TypeKey} (h : b.Extends p k b₁) (h' : b₁.Extends p parent b₂)
    (hparent : ReflTransGen p.Above parent k) : b.Extends p k b₂ where
  faithful := h'.faithful
  kept x i hi := h'.kept x i (h.kept x i hi)
  fresh x hx := by
    rcases h'.fresh x hx with hx | ⟨hres, hx⟩
    · exact h.fresh x hx
    · exact .inr ⟨hres, hx.trans hparent⟩

theorem contains (h : b.Extends p k b₁) {x : TypeKey} (hx : b.contains x = true) :
    b₁.contains x = true := by
  obtain ⟨i, hi⟩ := Option.isSome_iff_exists.1 hx
  exact Option.isSome_iff_exists.2 ⟨i, h.kept x i hi⟩

/-- Nothing is inserted for a type that is no resource type. -/
theorem contains_of_not (h : b.Extends p k b₁) (hk : ¬ p.IsResource k) {x : TypeKey}
    (hx : b₁.contains x = true) : b.contains x = true :=
  (h.fresh x hx).resolve_right fun ⟨hres, habove⟩ => hk (hres.below habove)

end Extends

/-! ### Searching for the root -/

theorem of_run_searchRoot (fuel : Nat) (k : TypeKey) {known known' : List TypeKey} {r : Bool}
    (hknown : Known p known) (hr : (searchRoot p fuel k).run known = some (r, known')) :
    Known p known' ∧ (r = true ↔ p.IsResource k) := by
  induction fuel generalizing k known known' r with
  | zero => exact absurd hr (by simp [searchRoot, StateT.run])
  | succ fuel ih =>
    rw [searchRoot_succ, run_seek] at hr
    split_ifs at hr with hmem
    · obtain ⟨rfl, rfl⟩ := Prod.mk.inj (Option.some.inj hr)
      exact ⟨hknown, iff_of_true rfl (hknown.resource k (by simpa using hmem))⟩
    -- the root is known, so the type is another
    have hne : k ≠ p.root := by
      rintro rfl
      exact hmem (by simpa using hknown.root)
    split at hr
    next hnone =>
      obtain ⟨rfl, rfl⟩ := Prod.mk.inj (Option.some.inj hr)
      refine ⟨hknown, iff_of_false Bool.false_ne_true fun hk => ?_⟩
      obtain ⟨d, hd⟩ := hk.exists_described hne
      exact absurd (hnone.symm.trans hd) (by simp)
    next d hd =>
      obtain ⟨⟨r₁, known₁⟩, hr₁, e⟩ := Option.map_eq_some_iff.1 hr
      obtain ⟨rfl, rfl⟩ := Prod.mk.inj e
      obtain ⟨hknown₁, hiff⟩ :=
        Discovery.of_run_anyM (fun parent _ _ _ _ hs hr => ih parent hs hr) hknown hr₁
      rw [← Discovery.isResource_iff_exists hd hne] at hiff
      refine ⟨?_, hiff⟩
      dsimp only
      split_ifs with h
      · refine ⟨List.mem_cons_of_mem k hknown₁.root, ?_⟩
        exact List.forall_mem_cons.2 ⟨hiff.1 h, hknown₁.resource⟩
      · exact hknown₁

/-- The search for the root tells resource types from others, and changes nothing but what
    is known of them. -/
theorem descendsFromRoot_permits (hb : b.Faithful p) (k : TypeKey) :
    (descendsFromRoot p k).Permits b
      (fun r b' => (r = true ↔ p.IsResource k) ∧ ∀ x, b.Extends p x b') fun _ _ => False := by
  cases hr : (searchRoot p p.depthBound k).run b.reachesRoot with
  | none => exact .inl (congrArg (· >>= _) hr)
  | some r =>
    obtain ⟨r, known⟩ := r
    obtain ⟨hknown, hiff⟩ := of_run_searchRoot p.depthBound k hb.known hr
    have : (descendsFromRoot p k).run b = some (.ok r, { b with reachesRoot := known }) :=
      congrArg (· >>= _) hr
    refine .inr ?_
    rw [Step.Ensures, this]
    have hb' : Faithful { b with reachesRoot := known } p :=
      ⟨⟨hb.grounded.root, hb.grounded.acc⟩, hb.position, hknown, hb.node⟩
    exact ⟨hiff, fun _ => ⟨hb', fun _ _ => id, fun _ => .inl⟩⟩

/-! ### Inserting a type and its missing ancestors -/

theorem grown_bare (ps : List Nat) (i : Nat) (n : Node) : (grown d ps i n).bare = n.bare := by
  unfold grown
  split <;> rfl

/-- The parents of a new node are the types at the given positions. -/
theorem parents_newNode (hb : b.Faithful p) {ps : List Nat} {ks : List TypeKey}
    (h : List.Forall₂ (fun i k => b.position? k = some i) ps ks) :
    (b.newNode d ps).parents = ks := by
  rw [newNode]
  induction h with
  | nil => rfl
  | cons hi _ ih =>
    obtain ⟨n, hn, rfl⟩ := hb.position _ _ hi
    rw [List.filterMap_cons_some hn, List.map_cons]
    exact congrArg (n.key :: ·) ih

/-- Below its parents a type is inserted as it is described. -/
theorem Faithful.insert (hb : b.Faithful p) (hne : e.key ≠ p.root)
    (he : p.describe? e.key = some e) (hacc : Acc p.Above e.key) (hres : p.IsResource e.key)
    {ps : List Nat} (hnodup : ps.Nodup)
    (hps : List.Forall₂ (fun i k => b.position? k = some i) ps (p.resources e.supertypes)) :
    (b.insert e ps).Faithful p := by
  refine ⟨⟨(b.contains_insert e ps _).2 (.inr hb.grounded.root), fun k hk => ?_⟩,
    fun k i hi => ?_, ?_, fun n hn => ?_⟩
  · rcases (b.contains_insert e ps k).1 hk with rfl | hk
    · exact hacc
    · exact hb.grounded.acc k hk
  · rw [position?_insert] at hi
    split_ifs at hi with hk
    · obtain rfl := Option.some.inj hi
      exact ⟨b.newNode e ps, by rw [getElem?_insert b e ps hnodup, if_pos rfl], hk.symm⟩
    · obtain ⟨n, hn, rfl⟩ := hb.position k i hi
      exact ⟨_, b.getElem?_insert_of_some e ps hnodup hn, grown_key e ps i n⟩
  · refine ⟨(b.mem_reachesRoot_insert e ps _).2 (.inr hb.known.root), fun k hk => ?_⟩
    rcases (b.mem_reachesRoot_insert e ps k).1 hk with rfl | hk
    · exact hres
    · exact hb.known.resource k hk
  · obtain ⟨i, hi⟩ := List.mem_iff_getElem?.1 hn
    rcases b.eq_or_of_getElem?_insert e ps hnodup hi with ⟨_, rfl⟩ | ⟨m, hm, rfl⟩
    · rw [show (b.newNode e ps).key = e.key from rfl, Discovery.bareNode?_of_ne hne he,
        ← parents_newNode hb hps (d := e)]
      rfl
    · rw [grown_key, grown_bare]
      exact hb.node m (List.mem_of_getElem? hm)

/-- What holds while the supertypes of a type are gone through, the builder at the start
    being given: the positions found are those of the resource types among the supertypes
    that are not left. -/
structure Gathering (b : Builder) (p : Discovery) (e : TypeDescriptor) (left : List TypeKey)
    (parents : List Nat) (b' : Builder) : Prop where
  grown : b.Extends p e.key b'
  nodup : parents.Nodup
  found : ∃ done, e.supertypes = done ++ left ∧
    List.Forall₂ (fun i k => b'.position? k = some i) parents (p.resources done)

namespace Gathering

variable {left : List TypeKey} {parents : List Nat} {parent : TypeKey} {i : Nat}

theorem start (hb : b.Faithful p) (e : TypeDescriptor) : Gathering b p e e.supertypes [] b where
  grown := .refl hb e.key
  nodup := List.nodup_nil
  found := ⟨[], rfl, .nil⟩

theorem mem (h : Gathering b p e (parent :: left) parents b₁) : parent ∈ e.supertypes := by
  obtain ⟨done, e', _⟩ := h.found
  rw [e']
  exact List.mem_append_right done List.mem_cons_self

theorem grow (h : Gathering b p e left parents b₁) (h' : b₁.Extends p parent b₂)
    (hparent : p.Above parent e.key) : Gathering b p e left parents b₂ where
  grown := h.grown.trans h' (.single hparent)
  nodup := h.nodup
  found := by
    obtain ⟨done, e', hfound⟩ := h.found
    exact ⟨done, e', hfound.imp fun i k hi => h'.kept k i hi⟩

/-- A supertype that is no resource type is left out. -/
theorem skip (h : Gathering b p e (parent :: left) parents b₁) (hres : ¬ p.IsResource parent) :
    Gathering b p e left parents b₁ where
  grown := h.grown
  nodup := h.nodup
  found := by
    obtain ⟨done, e', hfound⟩ := h.found
    refine ⟨done ++ [parent], by rw [e', List.append_cons], ?_⟩
    rwa [Discovery.resources_concat, if_neg fun hp => hres hp.1]

/-- The position of a resource type is added to the others, unless it is there. -/
theorem add (h : Gathering b p e (parent :: left) parents b₁) (hres : p.IsResource parent)
    (hi : b₁.position? parent = some i) :
    Gathering b p e left (if parents.contains i then parents else parents ++ [i]) b₁ := by
  obtain ⟨done, e', hfound⟩ := h.found
  have e' : e.supertypes = (done ++ [parent]) ++ left := by rw [e', List.append_cons]
  -- positions and types determine each other
  have hunique : Relator.BiUnique fun i k => b₁.position? k = some i := by
    refine ⟨fun i k j hi hj => Option.some.inj (hi.symm.trans hj), fun i k k' hk hk' => ?_⟩
    obtain ⟨n, hn, rfl⟩ := h.grown.faithful.position k i hk
    obtain ⟨n', hn', rfl⟩ := h.grown.faithful.position k' i hk'
    rw [Option.some.inj (hn.symm.trans hn')]
  have hmem : i ∈ parents ↔ parent ∈ p.resources done := List.rel_mem hunique hi hfound
  split_ifs with hcontains
  · rw [List.contains_iff_mem, hmem] at hcontains
    refine ⟨h.grown, h.nodup, done ++ [parent], e', ?_⟩
    rwa [Discovery.resources_concat, if_neg fun hp => hp.2 hcontains]
  · rw [List.contains_iff_mem] at hcontains
    refine ⟨h.grown, ?_, done ++ [parent], e', ?_⟩
    · exact h.nodup.append (List.nodup_singleton i) (List.disjoint_singleton.2 hcontains)
    · rw [Discovery.resources_concat, if_pos ⟨hres, fun hp => hcontains (hmem.2 hp)⟩]
      exact List.rel_append hfound (.cons hi .nil)

/-- Where no position has been found for any supertype, the type is no resource type. -/
theorem isResource_iff (h : Gathering b p e [] parents b₁) (hne : e.key ≠ p.root)
    (he : p.describe? e.key = some e) : p.IsResource e.key ↔ parents ≠ [] := by
  obtain ⟨done, e', hfound⟩ := h.found
  rw [List.append_nil] at e'
  rw [Discovery.isResource_iff_exists he hne, ← List.length_pos_iff, hfound.length_eq,
    List.length_pos_iff_exists_mem, e']
  simp only [Discovery.mem_resources]

/-- Below the positions that have been found the type is inserted itself. -/
theorem insert (h : Gathering b p e [] parents b₁) (hne : e.key ≠ p.root)
    (he : p.describe? e.key = some e) (hacc : Acc p.Above e.key)
    (hnone : b.position? e.key = none) (hnil : parents ≠ []) :
    b.Extends p e.key (b₁.insert e parents) where
  faithful := by
    obtain ⟨done, e', hfound⟩ := h.found
    rw [List.append_nil] at e'
    exact h.grown.faithful.insert hne he hacc ((h.isResource_iff hne he).2 hnil) h.nodup
      (e' ▸ hfound)
  kept x i hi := by
    have hx : x ≠ e.key := fun hx => Option.some_ne_none i (hi.symm.trans (hx ▸ hnone))
    rw [position?_insert, if_neg hx]
    exact h.grown.kept x i hi
  fresh x hx := by
    rcases (contains_insert _ _ _ x).1 hx with rfl | hx
    · exact .inr ⟨(h.isResource_iff hne he).2 hnil, .refl⟩
    · exact h.grown.fresh x hx

end Gathering

/-- A round finds the position of the supertype, if that is a resource type, and never
    fails, if no resource type does. -/
theorem place_permits (he : p.describe? e.key = some e) (hne : e.key ≠ p.root)
    {insert : TypeDescriptor → Step Nat} {left : List TypeKey} {parents : List Nat}
    {parent : TypeKey}
    (hinsert : ∀ e' b₁, p.describe? parent = some e' → b₁.Faithful p →
      b₁.position? parent = none →
      (insert e').Permits b₁ (fun i b₂ => b₁.Extends p parent b₂ ∧ b₂.position? parent = some i)
        fun _ _ => ¬ p.IsResource parent)
    (h : Gathering b p e (parent :: left) parents b₁) :
    (place p (descendsFromRoot p) insert parents parent).Permits b₁ (Gathering b p e left)
      fun _ _ => False := by
  have hparent : p.Above parent e.key := ⟨hne, e, he, h.mem⟩
  refine .bind (.mono (descendsFromRoot_permits h.grown.faithful parent) ?_ fun _ _ => id)
  rintro found b₂ ⟨hiff, hgrown⟩
  have h := h.grow (hgrown parent) hparent
  split_ifs with hfound
  · have hres := hiff.1 hfound
    refine .bind (.get ?_)
    dsimp only
    split
    next i hi => exact .bind (.pure (.pure (h.add hres hi)))
    next hnone =>
      split
      next hd =>
        -- the root is there, and other resource types are described
        have hne := h.grown.faithful.grounded.ne_root (contains_eq_false hnone)
        obtain ⟨e', he'⟩ := hres.exists_described hne
        exact absurd (hd.symm.trans he') (by simp)
      next e' he' =>
        refine .bind ((hinsert e' b₂ he' h.grown.faithful hnone).mono ?_
          fun _ _ hfail => hfail hres)
        rintro i b₃ ⟨hgrown, hi⟩
        exact .pure ((h.grow hgrown hparent).add hres hi)
  · exact .pure (h.skip fun hres => hfound (hiff.2 hres))

/-- Inserting an accessible type and its missing ancestors gives the position of the type,
    or fails if the type is no resource type. -/
theorem attach_permits (fuel : Nat) (e : TypeDescriptor) (b : Builder)
    (he : p.describe? e.key = some e) (hacc : Acc p.Above e.key) (hb : b.Faithful p) :
    (attach p fuel e).Permits b
      (fun i b' => b.Extends p e.key b' ∧ b'.position? e.key = some i)
      fun fault b' => fault = .unreachable e.key ∧ ¬ p.IsResource e.key ∧
        b.Extends p e.key b' := by
  induction fuel generalizing e b with
  | zero => exact .inl rfl
  | succ fuel ih =>
    rw [attach_succ]
    refine .bind (.get ?_)
    split
    next i hi => exact .pure ⟨.refl hb e.key, hi⟩
    next hnone =>
      have hne : e.key ≠ p.root := hb.grounded.ne_root (contains_eq_false hnone)
      refine .bind (.mono (.foldlM (fun left parents b' => Gathering b p e left parents b')
        ?_ _ _ _ (.start hb e)) ?_ fun _ _ => False.elim)
      · intro parent left parents b₁ h
        have hparent : p.Above parent e.key := ⟨hne, e, he, h.mem⟩
        refine place_permits he hne (fun e' b₁ he' hb₁ _ => ?_) h
        obtain ⟨rfl, _⟩ := Discovery.key_of_describe? he'
        exact (ih e' b₁ he' (hacc.inv hparent) hb₁).mono (fun _ _ => id) fun _ _ h => h.2.1
      · intro parents b₁ h
        split_ifs with hempty
        · refine .bind (.throw ⟨rfl, fun hres => ?_, h.grown⟩)
          exact (h.isResource_iff hne he).1 hres (List.isEmpty_iff.1 hempty)
        · refine .modifyGet ⟨h.insert hne he hacc hnone (by simpa using hempty), ?_⟩
          rw [position?_insert, if_pos rfl]

/-! ### Adding types -/

/-- What becomes of a type that is added. -/
inductive Verdict (p : Discovery) (d : TypeDescriptor) : Except ConfigurationFault Unit → Prop
  /-- A resource type is accepted, if chains of supertypes above it are finite. -/
  | accepted : Acc p.Above d.key → p.IsResource d.key → Verdict p d (.ok ())
  /-- A type with a cycle above it is refused, for the cycle that is closed when the type is
      added alone. -/
  | cyclic {x : TypeKey} : Closes p d.key x →
      ((new p.root).searchCycles p p.depthBound d {}).run = some (.error x) →
      Verdict p d (.error (.cycle x))
  /-- A type is refused if it is no resource type. -/
  | unreachable : Acc p.Above d.key → ¬ p.IsResource d.key →
      Verdict p d (.error (.unreachable d.key))

theorem Verdict.unique {r r' : Except ConfigurationFault Unit} (h : Verdict p d r)
    (h' : Verdict p d r') : r = r' := by
  cases h with
  | accepted hacc hres =>
    cases h' with
    | accepted => rfl
    | cyclic hx => exact absurd hacc hx.not_acc
    | unreachable _ hnot => exact absurd hres hnot
  | cyclic hx hrun =>
    cases h' with
    | accepted hacc => exact absurd hacc hx.not_acc
    | cyclic _ hrun' =>
      obtain rfl := Except.error.inj (Option.some.inj (hrun.symm.trans hrun'))
      rfl
    | unreachable hacc => exact absurd hacc hx.not_acc
  | unreachable hacc hnot =>
    cases h' with
    | accepted _ hres => exact absurd hres hnot
    | cyclic hx => exact absurd hacc hx.not_acc
    | unreachable => rfl

/-- What a builder becomes when a type is added. -/
structure Added (b : Builder) (p : Discovery) (d : TypeDescriptor)
    (r : Except ConfigurationFault Unit) (b' : Builder) : Prop where
  verdict : Verdict p d r
  grown : b.Extends p d.key b'
  sound : b'.Sound p.root
  accepted : r = .ok () → b'.contains d.key = true
  refused : r ≠ .ok () → ∀ k, b'.contains k = true → b.contains k = true

/-- The types that are accepted. -/
theorem Verdict.eq_ok_iff {r : Except ConfigurationFault Unit} (h : Verdict p d r) :
    r = .ok () ↔ Acc p.Above d.key ∧ p.IsResource d.key := by
  refine ⟨?_, fun ⟨hacc, hres⟩ => h.unique (.accepted hacc hres)⟩
  rintro rfl
  cases h with
  | accepted hacc hres => exact ⟨hacc, hres⟩

/-- Adding a type comes to what the description of the type says. -/
theorem Faithful.added (hb : b.Faithful p) (hs : b.Sound p.root)
    (hd : p.describe? d.key = some d) :
    b.Added p d (b.addType p d).1 (b.addType p d).2 := by
  suffices h : (add p d).Ensures b (fun _ b' => b.Added p d (.ok ()) b')
      fun fault b' => b.Added p d (.error fault) b' by
    rw [Builder.addType]
    rcases h.elim with ⟨_, b', hr, h⟩ | ⟨fault, b', hr, h⟩
    · rw [hr]
      exact h
    · rw [hr]
      exact h
  rw [add]
  refine .bind (.get ?_)
  split_ifs with hmem
  · have hres := hb.known.resource d.key (hs.known d.key hmem)
    exact .pure ⟨.accepted (hb.grounded.acc d.key hmem) hres, .refl hb d.key, hs,
      fun _ => hmem, fun h => absurd rfl h⟩
  refine .bind (.get ?_)
  have hmem : b.contains d.key = false := Bool.eq_false_iff.2 hmem
  obtain ⟨t, ht, hacc', hacc⟩ | ⟨x, hx, hcloses, halone⟩ :=
    hb.grounded.searchCycles_verdict hd hmem
  · rw [ht]
    have htotal := attach_ensures hacc' p.depthBound d [] b (seen_self hmem) (.singleton p d)
      (fun _ h => absurd h List.not_mem_nil) (Nat.le_add_right ..) hs.grown
    refine .discard (((attach_permits p.depthBound d b hd hacc hb).and_ensures htotal).mono ?_ ?_)
    · rintro i b' ⟨⟨hgrown, hi⟩, hattached⟩
      have hcontains : b'.contains d.key = true := Option.isSome_iff_exists.2 ⟨i, hi⟩
      have hsound := hattached.grown.sound
      have hres := hgrown.faithful.known.resource d.key (hsound.known d.key hcontains)
      exact ⟨.accepted hacc hres, hgrown, hsound, fun _ => hcontains, fun h => absurd rfl h⟩
    · rintro fault b' ⟨⟨rfl, hres, hgrown⟩, hsound⟩
      exact ⟨.unreachable hacc hres, hgrown, hsound, by simp,
        fun _ k => hgrown.contains_of_not hres⟩
  · rw [hx]
    exact .throw ⟨.cyclic hcloses halone, .refl hb d.key, hs, by simp, fun _ _ => id⟩

/-! ### The types in the hierarchy -/

/-- Resource types above types in the hierarchy are in it. -/
theorem Faithful.contains_above (hb : b.Faithful p) (hs : b.Sound p.root)
    (hk : b.contains k = true) {x : TypeKey} (habove : ReflTransGen p.Above x k)
    (hres : p.IsResource x) : b.contains x = true := by
  induction habove using ReflTransGen.head_induction_on with
  | refl => exact hk
  | @head x y hxy habove ih =>
    obtain ⟨hne, d, hd, hmem⟩ := hxy
    have hy : b.contains y = true := ih (hres.tail ⟨d, hd, hmem⟩)
    obtain ⟨n, hn, rfl⟩ := hs.wellFormed.contains_iff.1 hy
    -- the supertype is among the parents that the node of the type tells
    obtain ⟨hroot, _⟩ | ⟨d', hd', hparents⟩ := hb.parents hn
    · exact absurd hroot hne
    obtain rfl := Option.some.inj (hd.symm.trans hd')
    refine hs.wellFormed.contains_iff.2 (hs.wellFormed.exists_parent hn ?_)
    rw [hparents, Discovery.mem_resources]
    exact ⟨hmem, hres⟩

/-- The types in the builder are those to be expected after adding the given types. -/
structure Holds (b : Builder) (p : Discovery) (ds : List TypeDescriptor) : Prop where
  faithful : b.Faithful p
  sound : b.Sound p.root
  contains_iff : ∀ k, b.contains k = true ↔ k = p.root ∨
    p.IsResource k ∧ ∃ d ∈ ds, Acc p.Above d.key ∧ ReflTransGen p.Above k d.key

theorem holds_new (p : Discovery) : (new p.root).Holds p [] where
  faithful := faithful_new p
  sound := sound_new p.root
  contains_iff k := by
    rw [contains_new]
    exact ⟨.inl, fun h => h.resolve_right fun ⟨_, _, hd, _⟩ => absurd hd List.not_mem_nil⟩

theorem Holds.addType {ds : List TypeDescriptor} (hb : b.Holds p ds)
    (hd : p.describe? d.key = some d) : (b.addType p d).2.Holds p (ds ++ [d]) := by
  have hadded := hb.faithful.added hb.sound hd
  refine ⟨hadded.grown.faithful, hadded.sound, fun k => ⟨fun hk => ?_, ?_⟩⟩
  · -- a type that is refused leaves nothing behind
    have hold : b.contains k = true ∨
        Acc p.Above d.key ∧ p.IsResource k ∧ ReflTransGen p.Above k d.key := by
      by_cases hr : (b.addType p d).1 = .ok ()
      · exact (hadded.grown.fresh k hk).imp_right fun h => ⟨(hadded.verdict.eq_ok_iff.1 hr).1, h⟩
      · exact .inl (hadded.refused hr k hk)
    rcases hold with hk | ⟨hacc, hres, habove⟩
    · refine ((hb.contains_iff k).1 hk).imp_right ?_
      rintro ⟨hres, d', hd', h⟩
      exact ⟨hres, d', List.mem_append_left _ hd', h⟩
    · exact .inr ⟨hres, d, List.mem_append_right _ List.mem_cons_self, hacc, habove⟩
  · -- an accessible type is accepted if there is a resource type above it
    rintro (rfl | ⟨hres, d', hd', hacc, habove⟩)
    · exact hadded.grown.faithful.grounded.root
    rcases List.mem_append.1 hd' with hd' | hd'
    · exact hadded.grown.contains ((hb.contains_iff k).2 (.inr ⟨hres, d', hd', hacc, habove⟩))
    · obtain rfl := List.mem_singleton.1 hd'
      have hr := hadded.verdict.eq_ok_iff.2 ⟨hacc, hres.below habove⟩
      exact hadded.grown.faithful.contains_above hadded.sound (hadded.accepted hr) habove hres

theorem Holds.addAll {ds : List TypeDescriptor} (hb : b.Holds p ds) (es : List TypeDescriptor)
    (hes : ∀ e ∈ es, p.describe? e.key = some e) : (b.addAll p es).Holds p (ds ++ es) := by
  induction es generalizing b ds with
  | nil => rwa [List.append_nil]
  | cons e es ih =>
    rw [List.append_cons]
    obtain ⟨he, hes⟩ := List.forall_mem_cons.1 hes
    exact ih (hb.addType he) hes

/-- Adding described types comes to what is to be expected. -/
theorem holds_addAll {ds : List TypeDescriptor} (hds : ∀ d ∈ ds, p.describe? d.key = some d) :
    ((new p.root).addAll p ds).Holds p ds :=
  (holds_new p).addAll ds hds

/-- Adding types up to the first that is refused adds them all, or is refused with the
    fault of one of them. -/
theorem Holds.addTypes {ds es : List TypeDescriptor} (hb : b.Holds p ds)
    (hes : ∀ e ∈ es, p.describe? e.key = some e) :
    ((∀ e ∈ es, Verdict p e (.ok ())) ∧ b.addTypes p es = .ok (b.addAll p es)) ∨
      ∃ fault, (∃ e ∈ es, Verdict p e (.error fault)) ∧ b.addTypes p es = .error fault := by
  induction es generalizing b ds with
  | nil => exact .inl ⟨fun _ he => absurd he List.not_mem_nil, rfl⟩
  | cons e es ih =>
    obtain ⟨he, hes⟩ := List.forall_mem_cons.1 hes
    have hverdict := (hb.faithful.added hb.sound he).verdict
    have hnext := hb.addType he
    rw [Builder.addTypes, List.foldlM_cons, Builder.addAll, List.foldl_cons]
    cases hadd : b.addType p e with
    | mk r b' =>
      rw [hadd] at hverdict hnext
      cases r with
      | error fault => exact .inr ⟨fault, ⟨e, List.mem_cons_self, hverdict⟩, rfl⟩
      | ok =>
        refine (ih hnext hes).imp ?_ ?_
        · rintro ⟨hall, hrun⟩
          exact ⟨List.forall_mem_cons.2 ⟨hverdict, hall⟩, hrun⟩
        · rintro ⟨fault, ⟨e', he', hfault⟩, hrun⟩
          exact ⟨fault, ⟨e', List.mem_cons_of_mem e he', hfault⟩, hrun⟩

end Hierarchy.Builder

end Lineage
