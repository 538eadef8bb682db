import Lineage.Proofs.Hierarchy.Ancestors
import Lineage.Proofs.Hierarchy.Cycles
import Lineage.Proofs.Hierarchy.Insertion
import Lineage.Proofs.Hierarchy.Step

/-!
# Building keeps hierarchies well-formed

Adding a type inserts its missing ancestors on the way up, in the middle of
finding the type's own parents. The insertion of the type itself needs that it
was not among the ancestors inserted meanwhile. This is what the search for
cycles is for: it leaves the new type accessible, so no type above it is the
type itself.

* `attach_ensures`: inserting a type and its missing ancestors stays within its
  bound, keeps the hierarchy well-formed, whether it fails or not, and adds only
  the type and types above it.
* `add_ensures`, `Sound.addAll`: so does adding a type, and adding any types one
  after the other.
* `acyclic_rooted_addAll`: what has been built is an acyclic graph below the
  root.
-/

namespace Lineage.Hierarchy.Builder

open Relation

variable {b : Builder} {p : Discovery} {d : TypeDescriptor} {root : TypeKey}

/-! ### Types above others -/

/-- The type is above all types of a path. -/
def AboveAll (b : Builder) (p : Discovery) (d : TypeDescriptor) (path : List TypeKey)
    (k : TypeKey) : Prop :=
  ∀ x ∈ path, TransGen (b.Above p d) k x

/-- A type above all types of a path is not on the path itself. -/
theorem AboveAll.not_mem {path : List TypeKey} {k : TypeKey} (hk : AboveAll b p d path k)
    (hpath : IsPath p d path) (hacc : Acc (b.Above p d) d.key) : k ∉ path := fun hmem =>
  not_transGen_self (hacc.inv_of_transGen (hk d.key hpath.added)) (hk k hmem)

/-- A type that starts a path is accessible, as the one that is added is. -/
theorem AboveAll.acc {path : List TypeKey} {k : TypeKey} (hk : AboveAll b p d path k)
    (hpath : IsPath p d (k :: path)) (hacc : Acc (b.Above p d) d.key) :
    Acc (b.Above p d) k := by
  rcases List.mem_cons.1 hpath.added with h | h
  · exact h ▸ hacc
  · exact hacc.inv_of_transGen (hk _ h)

theorem AboveAll.cons {path : List TypeKey} {k parent : TypeKey} (hk : AboveAll b p d path k)
    (hparent : b.Above p d parent k) : AboveAll b p d (k :: path) parent := by
  intro x hx
  rcases List.mem_cons.1 hx with rfl | hx
  · exact .single hparent
  · exact (hk x hx).head hparent

/-- What is looked up for a type above the one that is added. -/
theorem AboveAll.seen_eq {path : List TypeKey} {k : TypeKey} (hk : AboveAll b p d path k)
    (hpath : IsPath p d path) (hacc : Acc (b.Above p d) d.key) (hb : b.contains k = false) :
    b.seen p d k = p.describe? k := by
  have hne : k ≠ d.key := fun h => hk.not_mem hpath hacc (h ▸ hpath.added)
  rw [seen, if_neg (by simp [hb]), if_neg hne]

/-! ### Searching for the root -/

variable (p) in
/-- One round of `searchRoot`: the supertypes of a type are searched in the given way, unless
    the type is known to descend from the root. -/
def seek (search : TypeKey → StateT (List TypeKey) Option Bool) (k : TypeKey) :
    StateT (List TypeKey) Option Bool := do
  if (← get).contains k then return true
  match p.describe? k with
  | none => return false
  | some d =>
    let found ← d.supertypes.anyM search
    if found then modify (k :: ·)
    return found

theorem searchRoot_succ (fuel : Nat) (k : TypeKey) :
    searchRoot p (fuel + 1) k = seek p (searchRoot p fuel) k := by
  rw [searchRoot]
  rfl

theorem run_seek (search : TypeKey → StateT (List TypeKey) Option Bool) (k : TypeKey)
    (known : List TypeKey) :
    (seek p search k).run known = if known.contains k then some (true, known)
      else match p.describe? k with
        | none => some (false, known)
        | some d => ((d.supertypes.anyM search).run known).map fun r =>
          (r.1, if r.1 then k :: r.2 else r.2) := by
  rw [seek]
  cases h : known.contains k with
  | true => simp only [StateT.run_bind, StateT.run_get, Option.bind_eq_bind, Option.pure_def,
      Option.bind_some, h, if_true, StateT.run_pure]
  | false =>
    simp only [StateT.run_bind, StateT.run_get, Option.bind_eq_bind, Option.pure_def,
      Option.bind_some, h, Bool.false_eq_true, if_false]
    cases p.describe? k with
    | none => rfl
    | some d =>
      simp only [StateT.run_bind, Option.bind_eq_bind, Option.map_eq_bind]
      congr 1
      funext r
      obtain ⟨found, known'⟩ := r
      cases found <;> rfl

/-- The search for the root stays within its bound, and only adds to the types
    known to descend from it. -/
theorem exists_run_searchRoot (hacc : Acc (b.Above p d) d.key) (fuel : Nat) (k : TypeKey)
    (path known : List TypeKey) (hpath : IsPath p d path) (hk : AboveAll b p d path k)
    (hfuel : p.depthBound ≤ fuel + path.length)
    (hknown : ∀ k, b.contains k = true → k ∈ known) :
    ∃ r known', (searchRoot p fuel k).run known = some (r, known') ∧ known ⊆ known' := by
  induction fuel generalizing k path known with
  | zero => exact absurd (hpath.fuel_pos hfuel) (Nat.lt_irrefl 0)
  | succ fuel ih =>
    rw [searchRoot_succ, run_seek]
    split_ifs with hmem
    · exact ⟨true, known, rfl, List.Subset.refl _⟩
    -- what is in the hierarchy is known to descend from the root
    have hb : b.contains k = false := by
      by_contra hb
      exact hmem (by simpa using hknown k (by simpa using hb))
    have hseen := hk.seen_eq hpath hacc hb
    split
    next => exact ⟨false, known, rfl, List.Subset.refl _⟩
    next e he =>
      obtain ⟨rfl, hdesc⟩ := Discovery.key_of_describe? he
      have hloop := Discovery.exists_run_anyM (f := searchRoot p fuel)
        (fun l known' => l ⊆ e.supertypes ∧ known ⊆ known') (fun known' => known ⊆ known')
        (fun parent l known₁ hinv => by
          obtain ⟨hl, hsub⟩ := hinv
          obtain ⟨hparent, hl⟩ := List.cons_subset.1 hl
          obtain ⟨r, known₂, hr, hsub'⟩ := ih parent (e.key :: path) known₁
            (hpath.cons hdesc (hk.not_mem hpath hacc))
            (hk.cons ⟨e, hseen.trans he, hparent⟩)
            (Bounded.le_add_length_cons hfuel _) fun k hk => hsub (hknown k hk)
          refine ⟨r, known₂, hr, ?_⟩
          have hsub₂ : known ⊆ known₂ := fun k hk => hsub' (hsub hk)
          split_ifs
          · exact hsub₂
          · exact ⟨hl, hsub₂⟩)
        e.supertypes known ⟨List.Subset.refl _, List.Subset.refl _⟩
      obtain ⟨r, known', hr, hpost⟩ := hloop
      rw [hr]
      cases r with
      | true => exact ⟨true, _, rfl, List.subset_cons_of_subset _ hpost⟩
      | false => exact ⟨false, _, rfl, hpost.2⟩

/-! ### The invariant of the building -/

/-- The hierarchy so far is well-formed, and its types are known to descend from
    the root. -/
structure Sound (b : Builder) (root : TypeKey) : Prop where
  wellFormed : b.toHierarchy.WellFormed root
  known : ∀ k, b.contains k = true → k ∈ b.reachesRoot

/-- What a sound builder may become: a sound one in which all types have kept
    their positions. -/
structure Grown (b : Builder) (root : TypeKey) (b' : Builder) : Prop where
  sound : b'.Sound root
  kept : ∀ k i, b.position? k = some i → b'.position? k = some i

theorem Sound.grown (hb : b.Sound root) : b.Grown root b := ⟨hb, fun _ _ => id⟩

theorem Grown.trans {b' b'' : Builder} (hb : b.Grown root b') (hb' : b'.Grown root b'') :
    b.Grown root b'' :=
  ⟨hb'.sound, fun k i hi => hb'.kept k i (hb.kept k i hi)⟩

theorem Grown.contains {b' : Builder} (hb : b.Grown root b') {k : TypeKey}
    (hk : b.contains k = true) : b'.contains k = true := by
  obtain ⟨i, hi⟩ := Option.isSome_iff_exists.1 hk
  exact Option.isSome_iff_exists.2 ⟨i, hb.kept k i hi⟩

/-- Knowing of more types that they descend from the root does no harm. -/
theorem Sound.grown_known (hb : b.Sound root) {known : List TypeKey}
    (hsub : b.reachesRoot ⊆ known) : b.Grown root { b with reachesRoot := known } :=
  ⟨⟨hb.wellFormed, fun k hk => hsub (hb.known k hk)⟩, fun _ _ => id⟩

theorem Sound.lt_length (hb : b.Sound root) {k : TypeKey} {i : Nat}
    (hi : b.position? k = some i) : i < b.nodes.length := by
  obtain ⟨n, hn, _⟩ := (hb.wellFormed.position k i).1 hi
  exact (List.getElem?_eq_some_iff.1 hn).1

theorem Sound.grown_insert (hb : b.Sound root) {ps : List Nat} (hne : ps ≠ []) (hn : ps.Nodup)
    (hlt : ∀ i ∈ ps, i < b.nodes.length) (hd : b.position? d.key = none) :
    b.Grown root (b.insert d ps) where
  sound.wellFormed := hb.wellFormed.insert hne hn hlt hd
  sound.known k hk :=
    (b.mem_reachesRoot_insert d ps k).2 (((b.contains_insert d ps k).1 hk).imp_right (hb.known k))
  kept k i hi := by
    have hne : k ≠ d.key := fun h => Option.some_ne_none i (hi.symm.trans (h ▸ hd))
    rw [position?_insert, if_neg hne, hi]

/-- A missing type above all types of a path makes the path longer: it is not there now, so it
    was not there at the start, and it is described. -/
theorem AboveAll.lengthen {path : List TypeKey} {k : TypeKey} (hk : AboveAll b p d path k)
    (hpath : IsPath p d path) (hacc : Acc (b.Above p d) d.key) {b' : Builder}
    (hb' : b.Grown root b') (hnone : b'.position? k = none) {e : TypeDescriptor}
    (he : p.describe? k = some e) :
    b.seen p d e.key = some e ∧ IsPath p d (e.key :: path) ∧ AboveAll b p d path e.key := by
  obtain ⟨rfl, hdesc⟩ := Discovery.key_of_describe? he
  have hb : b.contains e.key = false := by
    by_contra hb
    have := hb'.contains (Bool.of_not_eq_false hb)
    rw [Builder.contains, hnone] at this
    exact Bool.false_ne_true this
  exact ⟨(hk.seen_eq hpath hacc hb).trans he, hpath.cons hdesc (hk.not_mem hpath hacc), hk⟩

/-! ### Inserting a type and its missing ancestors -/

theorem descendsFromRoot_ensures (hacc : Acc (b.Above p d) d.key) {path : List TypeKey}
    (hpath : IsPath p d path) {k : TypeKey} (hk : AboveAll b p d path k) {b' : Builder}
    (hb' : b.Grown root b') :
    (descendsFromRoot p k).Ensures b' (fun _ b'' => b'.Grown root b'' ∧
      b''.nodes = b'.nodes ∧ b''.index = b'.index) fun _ _ => False := by
  obtain ⟨found, known, hr, hsub⟩ := exists_run_searchRoot hacc p.depthBound k path b'.reachesRoot
    hpath hk (Nat.le_add_right ..) fun k hk => hb'.sound.known k (hb'.contains hk)
  have : (descendsFromRoot p k).run b' = some (.ok found, { b' with reachesRoot := known }) :=
    congrArg (· >>= _) hr
  rw [Step.Ensures, this]
  exact ⟨hb'.sound.grown_known hsub, rfl, rfl⟩

/-- What holds while the supertypes of a type are gone through, `b'` being the
    builder at the start: only types above the type have been inserted, and the
    positions of its parents are distinct. -/
structure Placing (b : Builder) (p : Discovery) (d : TypeDescriptor) (root k : TypeKey)
    (b' : Builder) (parents : List Nat) (b'' : Builder) : Prop where
  grown : b'.Grown root b''
  above : ∀ x, b''.contains x = true → b'.contains x = true ∨ TransGen (b.Above p d) x k
  nodup : parents.Nodup
  lt_length : ∀ i ∈ parents, i < b''.nodes.length

namespace Placing

variable {b' b₁ b₂ : Builder} {k : TypeKey} {parents : List Nat}

theorem start (hb' : b'.Sound root) : Placing b p d root k b' [] b' where
  grown := hb'.grown
  above _ := .inl
  nodup := List.nodup_nil
  lt_length _ h := absurd h List.not_mem_nil

theorem grow (hp : Placing b p d root k b' parents b₁) (hgrown : b₁.Grown root b₂)
    (habove : ∀ x, b₂.contains x = true → b₁.contains x = true ∨ TransGen (b.Above p d) x k) :
    Placing b p d root k b' parents b₂ where
  grown := hp.grown.trans hgrown
  above x hx := (habove x hx).elim (hp.above x) .inr
  nodup := hp.nodup
  lt_length i hi := by
    have hi := hp.lt_length i hi
    have hpos : b₁.position? b₁.nodes[i].key = some i :=
      (hp.grown.sound.wellFormed.position _ i).2 ⟨_, List.getElem?_eq_getElem hi, rfl⟩
    exact hgrown.sound.lt_length (hgrown.kept _ i hpos)

theorem add (hp : Placing b p d root k b' parents b₁) {i : Nat} (hi : i < b₁.nodes.length) :
    Placing b p d root k b' (if parents.contains i then parents else parents ++ [i]) b₁ := by
  split_ifs with hmem
  · exact hp
  · have hmem : i ∉ parents := by simpa using hmem
    refine ⟨hp.grown, hp.above, ?_, fun j hj => ?_⟩
    · exact hp.nodup.append (List.nodup_singleton i) (List.disjoint_singleton.2 hmem)
    · rcases List.mem_append.1 hj with hj | hj
      · exact hp.lt_length j hj
      · exact List.mem_singleton.1 hj ▸ hi

/-- The type itself has not been inserted meanwhile. -/
theorem position?_eq_none (hp : Placing b p d root k b' parents b₁)
    (hk : b'.position? k = none) (hacc : Acc (b.Above p d) k) : b₁.position? k = none := by
  by_contra h
  rcases hp.above k (Option.ne_none_iff_isSome.1 h) with h | h
  · rw [Builder.contains, hk] at h
    exact Bool.false_ne_true h
  · exact not_transGen_self hacc h

end Placing

/-- What inserting a type comes to: the type has got the given position, and only
    the type itself and types above it have been inserted. -/
structure Attached (b : Builder) (p : Discovery) (d : TypeDescriptor) (root k : TypeKey)
    (b' : Builder) (i : Nat) (b'' : Builder) : Prop where
  grown : b'.Grown root b''
  position : b''.position? k = some i
  above : ∀ x, b''.contains x = true → b'.contains x = true ∨ ReflTransGen (b.Above p d) x k

variable (p) in
/-- One round of `attach`: a supertype that descends from the root, as the first step tells,
    is inserted by the second step, unless it is there, and its position is added to the
    others. -/
def place (descends : TypeKey → Step Bool) (insert : TypeDescriptor → Step Nat)
    (parents : List Nat) (parent : TypeKey) : Step (List Nat) := do
  if ← descends parent then
    let i ← match (← get).position? parent with
      | some i => pure i
      | none => match p.describe? parent with
        | none => throw (.unknownType parent)
        | some d' => insert d'
    return if parents.contains i then parents else parents ++ [i]
  else return parents

theorem attach_succ (fuel : Nat) (e : TypeDescriptor) :
    attach p (fuel + 1) e = (do
      match (← get).position? e.key with
      | some i => return i
      | none =>
        let parents ← e.supertypes.foldlM (place p (descendsFromRoot p) (attach p fuel)) []
        if parents.isEmpty then throw (.unreachable e.key)
        modifyGet fun b => (b.nodes.length, b.insert e parents)) := by
  rw [attach]
  rfl

/-- A round keeps what holds while the supertypes are gone through, if the step
    that inserts missing types does as it should. -/
theorem place_ensures {e : TypeDescriptor} {path : List TypeKey} {b' : Builder}
    (hacc : Acc (b.Above p d) d.key) (he : b.seen p d e.key = some e)
    (hpath : IsPath p d (e.key :: path)) (habove : AboveAll b p d path e.key)
    (hb' : b.Grown root b') {insert : TypeDescriptor → Step Nat}
    (hinsert : ∀ e' b₁, b.seen p d e'.key = some e' → IsPath p d (e'.key :: e.key :: path) →
      AboveAll b p d (e.key :: path) e'.key → b.Grown root b₁ →
      (insert e').Ensures b₁ (Attached b p d root e'.key b₁) fun _ b₂ => b₂.Sound root)
    {parent : TypeKey} (hparent : parent ∈ e.supertypes) {parents : List Nat} {b₁ : Builder}
    (hplacing : Placing b p d root e.key b' parents b₁) :
    (place p (descendsFromRoot p) insert parents parent).Ensures b₁ (Placing b p d root e.key b')
      fun _ b₂ => b₂.Sound root := by
  have hparent : b.Above p d parent e.key := ⟨e, he, hparent⟩
  have hpabove : AboveAll b p d (e.key :: path) parent := habove.cons hparent
  refine .bind (.mono (descendsFromRoot_ensures hacc hpath hpabove
    (hb'.trans hplacing.grown)) ?_ fun _ _ h => h.elim)
  rintro found b₂ ⟨hgrown, _, hindex⟩
  have hplacing := hplacing.grow hgrown fun x hx =>
    .inl (by rwa [Builder.contains, position?, hindex] at hx)
  split_ifs
  · refine .bind (.get ?_)
    dsimp only
    split
    next i hi => exact .bind (.pure (.pure (hplacing.add (hgrown.sound.lt_length hi))))
    next hnone =>
      split
      next => exact .bind (.throw hgrown.sound)
      next e' he' =>
        obtain ⟨hseen, hpath', hpabove'⟩ :=
          hpabove.lengthen hpath hacc (hb'.trans hplacing.grown) hnone he'
        obtain ⟨rfl, _⟩ := Discovery.key_of_describe? he'
        refine .bind ((hinsert e' b₂ hseen hpath' hpabove' (hb'.trans hplacing.grown)).mono ?_
          fun _ _ => id)
        rintro i b₃ ⟨hgrown, hi, hnew⟩
        have hplacing := hplacing.grow hgrown fun x hx =>
          (hnew x hx).imp_right fun h => .tail' h hparent
        exact .pure (hplacing.add (hgrown.sound.lt_length hi))
  · exact .pure hplacing

/-- Below the positions that have been found the type is inserted itself. -/
theorem Placing.attached_insert {e : TypeDescriptor} {b' b₁ : Builder} {parents : List Nat}
    (hplacing : Placing b p d root e.key b' parents b₁) (hacc : Acc (b.Above p d) e.key)
    (hnone : b'.position? e.key = none) (hne : parents ≠ []) :
    Attached b p d root e.key b' b₁.nodes.length (b₁.insert e parents) := by
  have hgrown := hplacing.grown.sound.grown_insert hne hplacing.nodup hplacing.lt_length
    (hplacing.position?_eq_none hnone hacc)
  refine ⟨hplacing.grown.trans hgrown, ?_, fun k hk => ?_⟩
  · rw [position?_insert, if_pos rfl]
  · rcases (contains_insert _ _ _ k).1 hk with rfl | hk
    · exact .inr .refl
    · exact (hplacing.above k hk).imp_right TransGen.to_reflTransGen

/-- Inserting a type and its missing ancestors stays within its bound, and keeps
    the hierarchy well-formed, whether it fails or not. Only the type itself and
    types above it are inserted. -/
theorem attach_ensures (hacc : Acc (b.Above p d) d.key) (fuel : Nat) (e : TypeDescriptor)
    (path : List TypeKey) (b' : Builder) (he : b.seen p d e.key = some e)
    (hpath : IsPath p d (e.key :: path)) (habove : AboveAll b p d path e.key)
    (hfuel : p.depthBound ≤ fuel + path.length) (hb' : b.Grown root b') :
    (attach p fuel e).Ensures b' (Attached b p d root e.key b') fun _ b'' => b''.Sound root := by
  induction fuel generalizing e path b' with
  | zero => exact absurd (hpath.fuel_pos (Nat.le_succ_of_le hfuel)) (Nat.lt_irrefl 0)
  | succ fuel ih =>
    rw [attach_succ]
    refine .bind (.get ?_)
    split
    next i hi => exact .pure ⟨hb'.sound.grown, hi, fun k hk => .inl hk⟩
    next hnone =>
      refine .bind (.mono (.foldlM (fun l parents b'' => l ⊆ e.supertypes ∧
        Placing b p d root e.key b' parents b'')
        ?_ _ _ _ ⟨List.Subset.refl _, .start hb'.sound⟩) ?_ fun _ _ => id)
      · rintro parent l parents b₁ ⟨hl, hplacing⟩
        obtain ⟨hmem, hl⟩ := List.cons_subset.1 hl
        exact (place_ensures hacc he hpath habove hb' (fun e' b₁ he' hpath' habove' hb₁ =>
          ih e' (e.key :: path) b₁ he' hpath' habove' (Bounded.le_add_length_cons hfuel _) hb₁)
          hmem hplacing).mono (fun _ _ hplacing => ⟨hl, hplacing⟩) fun _ _ => id
      · rintro parents b₁ ⟨_, hplacing⟩
        split_ifs with hempty
        · exact .bind (.throw hplacing.grown.sound)
        · exact .modifyGet (hplacing.attached_insert (habove.acc hpath hacc) hnone
            (by simpa using hempty))

/-! ### Adding types -/

theorem contains_new {root k : TypeKey} : (new root).contains k = true ↔ k = root := by
  rw [Builder.contains, position?, new, List.lookup_cons]
  split
  next h => exact iff_of_true rfl (beq_iff_eq.1 h)
  next h => exact iff_of_false Bool.false_ne_true (beq_eq_false_iff_ne.1 h)

theorem sound_new (root : TypeKey) : (new root).Sound root := by
  have hmem {n : Node} (hn : n ∈ (new root).nodes) : n = .ofRoot root := List.mem_singleton.1 hn
  have hget {i : Nat} {n : Node} (hi : (new root).nodes[i]? = some n) :
      i = 0 ∧ n = .ofRoot root := by
    rw [new, List.getElem?_singleton] at hi
    split_ifs at hi with h0
    exact ⟨h0, (Option.some.inj hi).symm⟩
  have hpos (k : TypeKey) (i : Nat) :
      (new root).position? k = some i ↔ ∃ n, (new root).nodes[i]? = some n ∧ n.key = k := by
    rw [position?, new, List.lookup_cons]
    constructor
    · intro hi
      split at hi
      next hk => exact ⟨.ofRoot root, by rw [← Option.some.inj hi]; rfl, (beq_iff_eq.1 hk).symm⟩
      next => exact absurd hi (by simp)
    · rintro ⟨n, hn, rfl⟩
      obtain ⟨rfl, rfl⟩ := hget hn
      rw [Node.ofRoot, beq_self_eq_true]
  refine ⟨⟨⟨.ofRoot root, rfl, rfl, rfl, rfl⟩, hpos, List.nodup_singleton _, ?_, ?_, ?_, ?_, ?_, ?_⟩,
    ?_⟩
  · exact fun i n hi h0 => absurd (hget hi).1 h0
  · rintro n hn
    exact hmem hn ▸ List.nodup_nil
  · rintro i n hi k hk
    rw [(hget hi).2] at hk
    exact absurd hk List.not_mem_nil
  · rintro n hn
    rw [hmem hn]
    rfl
  · rintro n hn m _ hk
    rw [hmem hn] at hk
    exact absurd hk List.not_mem_nil
  · rintro n hn hp
    exact absurd (congrArg Node.parents (hmem hn)) hp
  · intro k hk
    obtain ⟨i, hi⟩ := Option.isSome_iff_exists.1 hk
    obtain ⟨n, hn, rfl⟩ := (hpos k i).1 hi
    rw [(hget hn).2]
    exact List.mem_singleton_self _

/-- Adding a type ends, and keeps the builder sound, whether the type is refused
    or not. -/
theorem add_ensures (hb : b.Sound root) :
    (add p d).Ensures b (fun _ b' => b.Grown root b' ∧ b'.contains d.key = true)
      fun _ b' => b'.Sound root := by
  rw [add]
  refine .bind (.get ?_)
  split_ifs with hd
  · exact .pure ⟨hb.grown, hd⟩
  refine .bind (.get ?_)
  have hd : b.contains d.key = false := Bool.eq_false_iff.2 hd
  rcases (searchCycles_ensures_acc hd).elim with ⟨t, ht, hacc⟩ | ⟨k, hk, _⟩
  · rw [ht]
    refine .discard ((attach_ensures hacc p.depthBound d [] b (seen_self hd)
      (.singleton p d) (fun _ h => absurd h List.not_mem_nil) (Nat.le_add_right ..)
      hb.grown).mono ?_ fun _ _ => id)
    rintro i b' ⟨hgrown, hi, _⟩
    exact ⟨hgrown, Option.isSome_iff_exists.2 ⟨i, hi⟩⟩
  · rw [hk]
    exact .throw hb

variable (p) in
/-- The builder after any types have been added one after the other, whether they
    were refused or not. -/
def addAll (b : Builder) (ds : List TypeDescriptor) : Builder :=
  ds.foldl (fun b d => (b.addType p d).2) b

theorem Sound.addType (hb : b.Sound root) (p : Discovery) (d : TypeDescriptor) :
    (b.addType p d).2.Sound root := by
  rw [Builder.addType]
  rcases (add_ensures (p := p) (d := d) hb).elim with ⟨_, b', hr, hgrown, _⟩ | ⟨_, b', hr, hb'⟩
  · rw [hr]
    exact hgrown.sound
  · rw [hr]
    exact hb'

theorem Sound.addAll (hb : b.Sound root) (p : Discovery) (ds : List TypeDescriptor) :
    (b.addAll p ds).Sound root := by
  induction ds generalizing b with
  | nil => exact hb
  | cons d ds ih => exact ih (hb.addType p d)

/-- Whatever types are added, and whether they are refused or not, the references
    between the nodes fit together, depths are the lengths of the longest chains
    up to the root, no type is its own ancestor, and every type is reached from
    the root. -/
theorem acyclic_rooted_addAll (p : Discovery) (ds : List TypeDescriptor) :
    let h := ((new p.root).addAll p ds).toHierarchy
    h.WellFormed p.root ∧
      (∀ n ∈ h.nodes, IsGreatest {l | h.Chain n.key p.root l} n.depth) ∧
      (∀ k, ¬ h.IsAncestor k k ∧ ∀ m ∈ h.ancestors k, m.key ≠ k) ∧
      ∀ n ∈ h.nodes, ∃ r, h.root? = some r ∧ ReflTransGen (fun m c => c ∈ h.children m) r n := by
  intro h
  have hw : h.WellFormed p.root := ((sound_new p.root).addAll p ds).wellFormed
  refine ⟨hw, fun n hn => hw.depth_isGreatest hn, fun k => ?_, fun n hn => hw.reachable hn⟩
  refine ⟨hw.not_isAncestor_self k, fun m hm e => ?_⟩
  exact hw.not_isAncestor_self k (e ▸ (hw.mem_ancestors.1 hm).2)

/-- Adding types up to the first that is refused adds them all if none is. -/
theorem addAll_of_addTypes {b' : Builder} {ds : List TypeDescriptor}
    (h : b.addTypes p ds = .ok b') : b' = b.addAll p ds := by
  induction ds generalizing b with
  | nil => exact (Except.ok.inj h).symm
  | cons d ds ih =>
    rw [addTypes, List.foldlM_cons] at h
    rw [addAll, List.foldl_cons]
    cases hd : b.addType p d with
    | mk r b₁ =>
      rw [hd] at h
      cases r with
      | ok => exact ih h
      | error e => exact absurd h (by simp [bind, Except.bind])

end Builder

/-- The hierarchies that building comes to: with any discovery, and after any
    types have been added, some of which may have been refused. -/
def Sealed (h : Hierarchy) : Prop :=
  ∃ (p : Discovery) (ds : List TypeDescriptor), h = ((Builder.new p.root).addAll p ds).toHierarchy

theorem Sealed.wellFormed {h : Hierarchy} (hs : h.Sealed) : ∃ root, h.WellFormed root := by
  obtain ⟨p, ds, rfl⟩ := hs
  exact ⟨p.root, ((Builder.sound_new p.root).addAll p ds).wellFormed⟩

/-- Discovering a hierarchy is one way of building it. -/
theorem sealed_of_discover {p : Discovery} {h : Hierarchy} (hd : discover p = .ok h) :
    h.Sealed := by
  rw [discover] at hd
  cases hf : p.find p.root with
  | error e =>
    rw [hf] at hd
    exact absurd hd (by simp [bind, Except.bind])
  | ok ds =>
    rw [hf] at hd
    cases hb : (Builder.new p.root).addTypes p ds with
    | error e =>
      simp only [bind, Except.bind, hb, Except.mapError] at hd
      exact absurd hd (by simp)
    | ok b =>
      simp only [bind, Except.bind, hb, Except.mapError] at hd
      exact ⟨p, ds, by rw [← Builder.addAll_of_addTypes hb]; exact (Except.ok.inj hd).symm⟩

/-- The hierarchy of all types that discovery describes. -/
def built (p : Discovery) : Hierarchy :=
  ((Builder.new p.root).addAll p p.described).toHierarchy

theorem sealed_built (p : Discovery) : (built p).Sealed :=
  ⟨p, p.described, rfl⟩

end Lineage.Hierarchy
