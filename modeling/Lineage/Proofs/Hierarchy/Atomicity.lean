import Lineage.Proofs.Hierarchy.Building

/-!
# Adding a type is atomic

Missing ancestors are inserted before the type itself is, and what has been inserted is never
taken back. A fault that arose after the first of them would leave them behind. But none can
arise there (`attach_permits_advances`): a type is only inserted as an ancestor once it is
known to descend from the root, and then so does one of its supertypes. Only the type that is
added can turn out to have no parent, and then none of its supertypes descends from the root,
nothing has been inserted, and nothing has been noted.

Types are noted to descend from the root (`Builder.reachesRoot`) ahead of their insertion. In
the end all of them have been inserted (`Midway.contains_of_above`): those that are noted while
a type is added are above it, and whatever is above a type that is in the hierarchy, and
descends from the root, is in it too.

What descends from the root is decided as far as types are looked up (`Rooted`): the chains end
at types that are in the hierarchy, and the type that is added has the given supertypes, which
need not be those that discovery tells. That only finitely many types are described is no
restriction: additions that end look up finitely many, and come to the same without the others.
-/

namespace Lineage.Hierarchy.Builder

open Relation

variable {b b' b₁ b₂ : Builder} {p : Discovery} {d e : TypeDescriptor} {k : TypeKey}

/-! ### Types that descend from the root -/

/-- A chain of supertypes leads from the type to one that is in the hierarchy. -/
def Rooted (b : Builder) (p : Discovery) (d : TypeDescriptor) (k : TypeKey) : Prop :=
  ∃ r, b.contains r = true ∧ ReflTransGen (b.Above p d) r k

theorem rooted_of_contains (hk : b.contains k = true) : b.Rooted p d k :=
  ⟨k, hk, .refl⟩

/-- What is below such a type descends from the root too. -/
theorem Rooted.below {x : TypeKey} (hx : b.Rooted p d x) (h : ReflTransGen (b.Above p d) x k) :
    b.Rooted p d k :=
  let ⟨r, hr, hchain⟩ := hx
  ⟨r, hr, hchain.trans h⟩

/-- A type that is not in the hierarchy has been looked up if it descends from the root, and
    so does one of its supertypes. -/
theorem Rooted.exists_above (hk : b.Rooted p d k) (hb : b.contains k = false) :
    ∃ x, b.Above p d x k ∧ b.Rooted p d x := by
  obtain ⟨r, hr, hchain⟩ := hk
  rcases ReflTransGen.cases_tail hchain with rfl | ⟨x, hx, habove⟩
  · exact absurd hr (Bool.eq_false_iff.1 hb)
  · exact ⟨x, habove, r, hr, hx⟩

/-- What is in the hierarchy is not looked up. -/
theorem contains_eq_false_of_seen (he : b.seen p d k = some e) : b.contains k = false := by
  refine Bool.eq_false_iff.2 fun hb => ?_
  rw [seen, if_pos hb] at he
  exact Option.some_ne_none e he.symm

theorem rooted_iff_exists (he : b.seen p d e.key = some e) :
    b.Rooted p d e.key ↔ ∃ parent ∈ e.supertypes, b.Rooted p d parent := by
  constructor
  · intro hrooted
    obtain ⟨parent, ⟨e', he', hmem⟩, hparent⟩ :=
      hrooted.exists_above (contains_eq_false_of_seen he)
    obtain rfl := Option.some.inj (he.symm.trans he')
    exact ⟨parent, hmem, hparent⟩
  · rintro ⟨parent, hmem, hparent⟩
    exact hparent.below (.single ⟨e, he, hmem⟩)

/-- What is looked up for a type above the one that is added is what discovery tells. -/
theorem seen_eq_describe? (hacc : Acc (b.Above p d) d.key) (hk : TransGen (b.Above p d) k d.key)
    (hb : b.contains k = false) : b.seen p d k = p.describe? k :=
  AboveAll.seen_eq (fun _ hx => List.mem_singleton.1 hx ▸ hk) (.singleton p d) hacc hb

/-! ### Searching for the root -/

/-- A search without success notes nothing. -/
theorem known_eq_of_run_searchRoot (fuel : Nat) (k : TypeKey) {known known' : List TypeKey}
    (hr : (searchRoot p fuel k).run known = some (false, known')) : known' = known := by
  induction fuel generalizing k known known' with
  | zero => exact absurd hr (by simp [searchRoot, StateT.run])
  | succ fuel ih =>
    rw [searchRoot_succ, run_seek] at hr
    split_ifs at hr with hmem
    · exact absurd hr (by simp)
    split at hr
    next => exact (Prod.mk.inj (Option.some.inj hr)).2.symm
    next e he =>
      obtain ⟨⟨r, known₁⟩, hr₁, e⟩ := Option.map_eq_some_iff.1 hr
      obtain ⟨rfl, rfl⟩ := Prod.mk.inj e
      exact Discovery.state_eq_of_run_anyM (fun parent _ _ _ => ih parent) hr₁

/-- What is known of types that descend from the root, while a type is added: those in the
    hierarchy are among them, and they do descend from it. -/
structure Noted (b : Builder) (p : Discovery) (d : TypeDescriptor) (known : List TypeKey) :
    Prop where
  mem_of_contains : ∀ k, b.contains k = true → k ∈ known
  rooted : ∀ k ∈ known, b.Rooted p d k

/-- What a search from a type may note: only types above the type. -/
structure Notes (b : Builder) (p : Discovery) (d : TypeDescriptor) (k : TypeKey)
    (known known' : List TypeKey) : Prop where
  noted : b.Noted p d known'
  subset : known ⊆ known'
  fresh : ∀ x ∈ known', x ∈ known ∨ ReflTransGen (b.Above p d) x k

namespace Notes

variable {known known₁ known₂ : List TypeKey}

theorem refl (hknown : b.Noted p d known) (k : TypeKey) : b.Notes p d k known known :=
  ⟨hknown, List.Subset.refl _, fun _ => .inl⟩

theorem trans {parent : TypeKey} (h : b.Notes p d k known known₁)
    (h' : b.Notes p d parent known₁ known₂) (hparent : b.Above p d parent k) :
    b.Notes p d k known known₂ where
  noted := h'.noted
  subset := List.Subset.trans h.subset h'.subset
  fresh x hx := (h'.fresh x hx).elim (h.fresh x) fun h => .inr (h.tail hparent)

theorem add (h : b.Notes p d k known known₁) (hk : b.Rooted p d k) :
    b.Notes p d k known (k :: known₁) where
  noted := ⟨fun x hx => List.mem_cons_of_mem k (h.noted.mem_of_contains x hx),
    List.forall_mem_cons.2 ⟨hk, h.noted.rooted⟩⟩
  subset := List.subset_cons_of_subset k h.subset
  fresh := List.forall_mem_cons.2 ⟨.inr .refl, h.fresh⟩

end Notes

/-- The search tells whether a type descends from the root, and notes types above it. -/
theorem notes_of_run_searchRoot (hacc : Acc (b.Above p d) d.key) (fuel : Nat) (k : TypeKey)
    {known known' : List TypeKey} {r : Bool} (hk : TransGen (b.Above p d) k d.key)
    (hknown : b.Noted p d known) (hr : (searchRoot p fuel k).run known = some (r, known')) :
    b.Notes p d k known known' ∧ (r = true ↔ b.Rooted p d k) := by
  induction fuel generalizing k known known' r with
  | zero => exact absurd hr (by simp [searchRoot, StateT.run])
  | succ fuel ih =>
    rw [searchRoot_succ, run_seek] at hr
    split_ifs at hr with hmem
    · obtain ⟨rfl, rfl⟩ := Prod.mk.inj (Option.some.inj hr)
      have hrooted := hknown.rooted k (List.contains_iff_mem.1 hmem)
      exact ⟨.refl hknown k, iff_of_true rfl hrooted⟩
    -- the type is not in the hierarchy, as it would be known then
    have hb : b.contains k = false := Bool.eq_false_iff.2 fun hb =>
      hmem (List.contains_iff_mem.2 (hknown.mem_of_contains k hb))
    have hseen := seen_eq_describe? hacc hk hb
    split at hr
    next hnone =>
      obtain ⟨rfl, rfl⟩ := Prod.mk.inj (Option.some.inj hr)
      refine ⟨.refl hknown k, iff_of_false Bool.false_ne_true fun hrooted => ?_⟩
      obtain ⟨_, ⟨e, he, _⟩, _⟩ := hrooted.exists_above hb
      exact absurd (hnone.symm.trans (hseen.symm.trans he)) (by simp)
    next e he =>
      obtain ⟨rfl, _⟩ := Discovery.key_of_describe? he
      obtain ⟨⟨r₁, known₁⟩, hr₁, e'⟩ := Option.map_eq_some_iff.1 hr
      obtain ⟨rfl, rfl⟩ := Prod.mk.inj e'
      obtain ⟨hnotes, hiff⟩ := Discovery.of_run_anyM
        (fun parent hmem s r s' (hs : b.Notes p d e.key known s) hr => by
          have hparent : b.Above p d parent e.key := ⟨e, hseen.trans he, hmem⟩
          obtain ⟨hs', hiff⟩ := ih parent (hk.head hparent) hs.noted hr
          exact ⟨hs.trans hs' hparent, hiff⟩)
        (.refl hknown e.key) hr₁
      rw [← rooted_iff_exists (hseen.trans he)] at hiff
      refine ⟨?_, hiff⟩
      dsimp only
      split_ifs with hfound
      · exact hnotes.add (hiff.1 hfound)
      · exact hnotes

/-! ### The invariant of an insertion -/

/-- What holds of the builder while a type is added, `b` being the builder at the start:
    with a type the hierarchy has all types above it that descend from the root. -/
structure Midway (b : Builder) (p : Discovery) (d : TypeDescriptor) (b' : Builder) : Prop where
  kept : ∀ k, b.contains k = true → b'.contains k = true
  known : ∀ k, b'.contains k = true → k ∈ b'.reachesRoot
  rooted : ∀ k ∈ b'.reachesRoot, b.Rooted p d k
  closed : ∀ x y, b'.contains y = true → b.Above p d x y → b.Rooted p d x → b'.contains x = true

namespace Midway

theorem noted (hb' : b.Midway p d b') : b.Noted p d b'.reachesRoot :=
  ⟨fun k hk => hb'.known k (hb'.kept k hk), hb'.rooted⟩

theorem contains_of_above (hb' : b.Midway p d b') {x : TypeKey} (hk : b'.contains k = true)
    (habove : ReflTransGen (b.Above p d) x k) (hx : b.Rooted p d x) : b'.contains x = true := by
  induction habove using ReflTransGen.head_induction_on with
  | refl => exact hk
  | head hxy _ ih => exact hb'.closed _ _ (ih (hx.below (.single hxy))) hxy hx

end Midway

/-- What a builder may become when a type is inserted: no type is lost, and only types above
    the given one are noted. -/
structure Advances (b : Builder) (p : Discovery) (d : TypeDescriptor) (k : TypeKey)
    (b' b'' : Builder) : Prop where
  midway : b.Midway p d b''
  contains : ∀ x, b'.contains x = true → b''.contains x = true
  fresh : ∀ x ∈ b''.reachesRoot, x ∈ b'.reachesRoot ∨ ReflTransGen (b.Above p d) x k

namespace Advances

theorem refl (hb' : b.Midway p d b') (k : TypeKey) : b.Advances p d k b' b' :=
  ⟨hb', fun _ => id, fun _ => .inl⟩

/-- Inserting a supertype is part of inserting a type. -/
theorem trans {parent : TypeKey} (h : b.Advances p d k b' b₁) (h' : b.Advances p d parent b₁ b₂)
    (hparent : b.Above p d parent k) : b.Advances p d k b' b₂ where
  midway := h'.midway
  contains x hx := h'.contains x (h.contains x hx)
  fresh x hx := (h'.fresh x hx).elim (h.fresh x) fun h => .inr (h.tail hparent)

/-- A type is inserted after all of its supertypes that descend from the root. -/
theorem insert (h : b.Advances p d e.key b' b₁) (he : b.seen p d e.key = some e)
    (hrooted : b.Rooted p d e.key)
    (hdone : ∀ x ∈ e.supertypes, b.Rooted p d x → b₁.contains x = true) (ps : List Nat) :
    b.Advances p d e.key b' (b₁.insert e ps) where
  midway :=
    { kept := fun k hk => (b₁.contains_insert e ps k).2 (.inr (h.midway.kept k hk))
      known := fun k hk => (b₁.mem_reachesRoot_insert e ps k).2
        (((b₁.contains_insert e ps k).1 hk).imp_right (h.midway.known k))
      rooted := fun k hk => by
        rcases (b₁.mem_reachesRoot_insert e ps k).1 hk with rfl | hk
        · exact hrooted
        · exact h.midway.rooted k hk
      closed := fun x y hy hxy hx => (b₁.contains_insert e ps x).2 <| .inr <| by
        rcases (b₁.contains_insert e ps y).1 hy with rfl | hy
        · obtain ⟨e', he', hmem⟩ := hxy
          obtain rfl := Option.some.inj (he.symm.trans he')
          exact hdone x hmem hx
        · exact h.midway.closed x y hy hxy hx }
  contains x hx := (b₁.contains_insert e ps x).2 (.inr (h.contains x hx))
  fresh x hx := by
    rcases (b₁.mem_reachesRoot_insert e ps x).1 hx with rfl | hx
    · exact .inr .refl
    · exact h.fresh x hx

end Advances

/-! ### Inserting a type and its missing ancestors -/

/-- The search for the root changes nothing but what is noted, and nothing at all if it does
    not succeed. -/
theorem descendsFromRoot_permits_advances (hacc : Acc (b.Above p d) d.key)
    (hk : TransGen (b.Above p d) k d.key) (hb' : b.Midway p d b') :
    (descendsFromRoot p k).Permits b' (fun r b'' => (r = true ↔ b.Rooted p d k) ∧
      (r = false → b'' = b') ∧ b.Advances p d k b' b'') fun _ _ => False := by
  cases hr : (searchRoot p p.depthBound k).run b'.reachesRoot with
  | none => exact .inl (congrArg (· >>= _) hr)
  | some r =>
    obtain ⟨r, known⟩ := r
    obtain ⟨hnotes, hiff⟩ := notes_of_run_searchRoot hacc p.depthBound k hk hb'.noted hr
    have : (descendsFromRoot p k).run b' = some (.ok r, { b' with reachesRoot := known }) :=
      congrArg (· >>= _) hr
    refine .inr ?_
    rw [Step.Ensures, this]
    refine ⟨hiff, ?_, ⟨hb'.kept, fun k hk => hnotes.subset (hb'.known k hk), hnotes.noted.rooted,
      hb'.closed⟩, fun _ => id, hnotes.fresh⟩
    rintro rfl
    rw [known_eq_of_run_searchRoot _ _ hr]

/-- What holds while the supertypes of a type are gone through, those that are left being
    listed: the others have been inserted if they descend from the root. If none of them does,
    nothing has happened. -/
structure Inserting (b : Builder) (p : Discovery) (d e : TypeDescriptor) (b' : Builder)
    (left : List TypeKey) (parents : List Nat) (b'' : Builder) : Prop where
  advances : b.Advances p d e.key b' b''
  left_subset : left ⊆ e.supertypes
  done : ∀ x ∈ e.supertypes, x ∈ left ∨ (b.Rooted p d x → b''.contains x = true)
  idle : parents = [] → b'' = b' ∧ ∀ x ∈ e.supertypes, x ∈ left ∨ ¬ b.Rooted p d x
  rooted : parents ≠ [] → ∃ x ∈ e.supertypes, b.Rooted p d x

namespace Inserting

variable {left : List TypeKey} {parents : List Nat} {parent : TypeKey}

theorem start (hb' : b.Midway p d b') (e : TypeDescriptor) :
    b.Inserting p d e b' e.supertypes [] b' where
  advances := .refl hb' e.key
  left_subset := List.Subset.refl _
  done _ := .inl
  idle _ := ⟨rfl, fun _ => .inl⟩
  rooted h := absurd rfl h

theorem mem (h : b.Inserting p d e b' (parent :: left) parents b₁) : parent ∈ e.supertypes :=
  h.left_subset List.mem_cons_self

/-- A supertype that does not descend from the root is left out. -/
theorem skip (h : b.Inserting p d e b' (parent :: left) parents b₁)
    (hparent : ¬ b.Rooted p d parent) : b.Inserting p d e b' left parents b₁ where
  advances := h.advances
  left_subset := (List.cons_subset.1 h.left_subset).2
  done x hx := by
    rcases h.done x hx with hx | hx
    · exact (List.mem_cons.1 hx).elim (fun e => .inr fun hx => absurd (e ▸ hx) hparent) .inl
    · exact .inr hx
  idle hnil := by
    obtain ⟨hb, hidle⟩ := h.idle hnil
    refine ⟨hb, fun x hx => ?_⟩
    rcases hidle x hx with hx | hx
    · exact (List.mem_cons.1 hx).elim (fun e => .inr (e ▸ hparent)) .inl
    · exact .inr hx
  rooted := h.rooted

/-- A supertype that descends from the root is inserted, and its position noted. -/
theorem add (h : b.Inserting p d e b' (parent :: left) parents b₁)
    (hadv : b.Advances p d e.key b' b₂) (hsub : ∀ x, b₁.contains x = true → b₂.contains x = true)
    (hparent : b.Rooted p d parent) (hin : b₂.contains parent = true) (i : Nat) :
    b.Inserting p d e b' left (if parents.contains i then parents else parents ++ [i]) b₂ where
  advances := hadv
  left_subset := (List.cons_subset.1 h.left_subset).2
  done x hx := by
    rcases h.done x hx with hx | hx
    · exact (List.mem_cons.1 hx).elim (fun e => .inr fun _ => e ▸ hin) .inl
    · exact .inr fun hrooted => hsub x (hx hrooted)
  idle hnil := by
    split_ifs at hnil with hi
    · exact absurd hi (by simp [hnil])
    · exact absurd hnil (by simp)
  rooted _ := ⟨parent, h.mem, hparent⟩

end Inserting

/-- A round never fails: only types that descend from the root are inserted. -/
theorem place_permits_advances (hacc : Acc (b.Above p d) d.key) (he : b.seen p d e.key = some e)
    (hk : ReflTransGen (b.Above p d) e.key d.key) {insert : TypeDescriptor → Step Nat}
    {left : List TypeKey} {parents : List Nat} {parent : TypeKey}
    (hinsert : ∀ e' b₁, b.seen p d parent = some e' → e'.key = parent → b.Midway p d b₁ →
      (insert e').Permits b₁
        (fun _ b₂ => b.Advances p d parent b₁ b₂ ∧ b₂.contains parent = true)
        fun _ _ => ¬ b.Rooted p d parent)
    (h : b.Inserting p d e b' (parent :: left) parents b₁) :
    (place p (descendsFromRoot p) insert parents parent).Permits b₁ (b.Inserting p d e b' left)
      fun _ _ => False := by
  have hparent : b.Above p d parent e.key := ⟨e, he, h.mem⟩
  have habove : TransGen (b.Above p d) parent d.key := .head' hparent hk
  refine .bind (.mono (descendsFromRoot_permits_advances hacc habove h.advances.midway) ?_
    fun _ _ => id)
  rintro found b₂ ⟨hiff, hidle, hadv⟩
  split_ifs with hfound
  · have hrooted := hiff.1 hfound
    refine .bind (.get ?_)
    dsimp only
    split
    next i hi =>
      exact .bind (.pure (.pure (h.add (h.advances.trans hadv hparent) hadv.contains hrooted
        (Option.isSome_iff_exists.2 ⟨i, hi⟩) i)))
    next hnone =>
      -- a type that descends from the root is there, or described
      have hb : b.contains parent = false := Bool.eq_false_iff.2 fun hb => by
        have := hadv.midway.kept parent hb
        rw [Builder.contains, hnone] at this
        exact Bool.false_ne_true this
      obtain ⟨_, ⟨e', he', _⟩, _⟩ := hrooted.exists_above hb
      rw [← seen_eq_describe? hacc habove hb, he']
      have hkey : e'.key = parent :=
        (Discovery.key_of_describe? ((seen_eq_describe? hacc habove hb).symm.trans he')).1
      refine .bind ((hinsert e' b₂ he' hkey hadv.midway).mono ?_
        fun _ _ hfail => hfail hrooted)
      rintro i b₃ ⟨hadv', hin⟩
      exact .pure (h.add ((h.advances.trans hadv hparent).trans hadv' hparent)
        (fun x hx => hadv'.contains x (hadv.contains x hx)) hrooted hin i)
  · obtain rfl := hidle (Bool.eq_false_iff.2 hfound)
    exact .pure (h.skip fun hrooted => hfound (hiff.2 hrooted))

/-- Inserting a type and its missing ancestors fails only if the type does not descend from
    the root, and then nothing has been inserted or noted. -/
theorem attach_permits_advances (hacc : Acc (b.Above p d) d.key) (fuel : Nat)
    (e : TypeDescriptor) (b' : Builder) (he : b.seen p d e.key = some e)
    (hk : ReflTransGen (b.Above p d) e.key d.key) (hb' : b.Midway p d b') :
    (attach p fuel e).Permits b'
      (fun _ b'' => b.Advances p d e.key b' b'' ∧ b''.contains e.key = true)
      fun fault b'' => fault = .unreachable e.key ∧ b'' = b' ∧ ¬ b.Rooted p d e.key := by
  induction fuel generalizing e b' with
  | zero => exact .inl rfl
  | succ fuel ih =>
    rw [attach_succ]
    refine .bind (.get ?_)
    split
    next i hi => exact .pure ⟨.refl hb' e.key, Option.isSome_iff_exists.2 ⟨i, hi⟩⟩
    next =>
      refine .bind (.mono (.foldlM (fun left parents b'' => b.Inserting p d e b' left parents b'')
        ?_ _ _ _ (.start hb' e)) ?_ fun _ _ => False.elim)
      · intro parent left parents b₁ h
        have hparent : b.Above p d parent e.key := ⟨e, he, h.mem⟩
        refine place_permits_advances hacc he hk (fun e' b₁ he' hkey hb₁ => ?_) h
        subst hkey
        exact (ih e' b₁ he' (hk.head hparent) hb₁).mono (fun _ _ => id) fun _ _ h => h.2.2
      · intro parents b₁ h
        have hiff := rooted_iff_exists he
        split_ifs with hempty
        · obtain ⟨rfl, hidle⟩ := h.idle (List.isEmpty_iff.1 hempty)
          refine .bind (.throw ⟨rfl, rfl, fun hrooted => ?_⟩)
          obtain ⟨x, hx, hrooted⟩ := hiff.1 hrooted
          exact (hidle x hx).resolve_left List.not_mem_nil hrooted
        · refine .modifyGet ⟨?_, (b₁.contains_insert e parents _).2 (.inl rfl)⟩
          refine h.advances.insert he (hiff.2 (h.rooted (by simpa using hempty))) ?_ parents
          exact fun x hx => (h.done x hx).resolve_left List.not_mem_nil

/-! ### Adding types -/

/-- The types that are known to descend from the root are those in the hierarchy. -/
def Exact (b : Builder) : Prop :=
  ∀ k, k ∈ b.reachesRoot ↔ b.contains k = true

theorem exact_new (root : TypeKey) : (new root).Exact := fun _ =>
  List.mem_singleton.trans contains_new.symm

namespace Exact

/-- Chains of supertypes end at types in the hierarchy, so there is none above them. -/
theorem midway (hb : b.Exact) : b.Midway p d b where
  kept _ := id
  known k := (hb k).2
  rooted k hk := rooted_of_contains ((hb k).1 hk)
  closed x y hy hxy _ := by
    obtain ⟨e, he, _⟩ := hxy
    exact absurd hy (Bool.eq_false_iff.1 (contains_eq_false_of_seen he))

/-- Once a type has been inserted, so have all that have been noted meanwhile. -/
theorem of_advances (hb : b.Exact) (h : b.Advances p d k b b') (hk : b'.contains k = true) :
    b'.Exact := by
  refine fun x => ⟨fun hx => ?_, h.midway.known x⟩
  rcases h.fresh x hx with hold | habove
  · exact h.contains x ((hb x).1 hold)
  · exact h.midway.contains_of_above hk habove (h.midway.rooted x hx)

/-- A type is added, or refused for a cycle that the search has found or because it does not
    descend from the root. -/
theorem add_permits (hb : b.Exact) (p : Discovery) (d : TypeDescriptor) :
    (add p d).Permits b (fun _ b' => b'.Exact) fun fault b' => b' = b ∧
      ((∃ x, fault = .cycle x ∧ (b.searchCycles p p.depthBound d {}).run = some (.error x)) ∨
        fault = .unreachable d.key ∧ ¬ b.Rooted p d d.key) := by
  rw [add]
  refine .bind (.get ?_)
  split_ifs with hd
  · exact .pure hb
  refine .bind (.get ?_)
  have hd : b.contains d.key = false := Bool.eq_false_iff.2 hd
  rcases (searchCycles_ensures_acc hd).elim with ⟨t, ht, hacc⟩ | ⟨x, hx, _⟩
  · rw [ht]
    refine .discard ((attach_permits_advances hacc p.depthBound d b (seen_self hd) .refl
      hb.midway).mono (fun _ b' h => hb.of_advances h.1 h.2) ?_)
    rintro fault b' ⟨rfl, rfl, hrooted⟩
    exact ⟨rfl, .inr ⟨rfl, hrooted⟩⟩
  · rw [hx]
    exact .throw ⟨rfl, .inl ⟨x, rfl, rfl⟩⟩

/-- What becomes of the builder when a type is added. -/
theorem added (hb : b.Exact) {root : TypeKey} (hs : b.Sound root) (p : Discovery)
    (d : TypeDescriptor) :
    (b.addType p d).2.Exact ∧ ∀ fault, (b.addType p d).1 = .error fault →
      (b.addType p d).2 = b ∧
        ((∃ x, fault = .cycle x ∧ (b.searchCycles p p.depthBound d {}).run = some (.error x)) ∨
          fault = .unreachable d.key ∧ ¬ b.Rooted p d d.key) := by
  rw [addType]
  rcases ((hb.add_permits p d).and_ensures (add_ensures hs)).elim with
    ⟨_, b', hr, hb', _⟩ | ⟨fault, b', hr, ⟨rfl, hfault⟩, _⟩
  · rw [hr]
    exact ⟨hb', fun _ h => absurd h (by simp)⟩
  · rw [hr]
    refine ⟨hb, fun fault' h => ⟨rfl, ?_⟩⟩
    obtain rfl := Except.error.inj h
    exact hfault

theorem addAll (hb : b.Exact) {root : TypeKey} (hs : b.Sound root) (p : Discovery)
    (ds : List TypeDescriptor) : (b.addAll p ds).Exact := by
  induction ds generalizing b with
  | nil => exact hb
  | cons d ds ih => exact ih (hb.added hs p d).1 (hs.addType p d)

end Exact

/-- However types have been added before, a type is refused, for a cycle or because it does not
    descend from the root, only with the builder left as it was. Whether it is refused or not,
    the types that are known to descend from the root are those in the hierarchy. -/
theorem addType_atomic (p : Discovery) (ds : List TypeDescriptor) (d : TypeDescriptor) :
    let b := (new p.root).addAll p ds
    (∀ fault, (b.addType p d).1 = .error fault → (b.addType p d).2 = b ∧
      ((∃ x, fault = .cycle x ∧ (b.searchCycles p p.depthBound d {}).run = some (.error x)) ∨
        fault = .unreachable d.key ∧ ¬ b.Rooted p d d.key)) ∧
      ∀ k, k ∈ (b.addType p d).2.reachesRoot ↔ (b.addType p d).2.contains k = true := by
  intro b
  have hs : b.Sound p.root := (sound_new p.root).addAll p ds
  have hb : b.Exact := (exact_new p.root).addAll (sound_new p.root) p ds
  exact ⟨(hb.added hs p d).2, (hb.added hs p d).1⟩

end Lineage.Hierarchy.Builder
