import Lineage.Discovery

/-!
# Recursions of bounded depth

A recursion of bounded depth has no outcome if it would go deeper. To state what
it comes to is therefore to state, first of all, that the bound is enough
(`Bounded.Ensures`). Where that is known, or is somebody else's concern, it is left out:
the outcome is as stated if there is one (`Bounded.Permits`), or two recursions have the
same outcome as far as there are any (`Bounded.Agree`).
-/

namespace Lineage.Bounded

variable {ε α β : Type}

section

variable {s : Bounded ε α} {f : α → Bounded ε β}

theorem run_bind_none (h : s.run = none) : (s >>= f).run = none := by
  rw [ExceptT.run_bind, h]
  rfl

theorem run_bind_ok {a : α} (h : s.run = some (.ok a)) : (s >>= f).run = (f a).run := by
  rw [ExceptT.run_bind, h]
  rfl

theorem run_bind_error {e : ε} (h : s.run = some (.error e)) :
    (s >>= f).run = some (.error e) := by
  rw [ExceptT.run_bind, h]
  rfl

end

/-- One step down there is one step less to go, and the path is one longer. -/
theorem le_add_length_cons {bound fuel : Nat} {path : List α} (h : bound ≤ fuel + 1 + path.length)
    (a : α) : bound ≤ fuel + (a :: path).length := by
  rw [List.length_cons]
  omega

/-- A last step takes results of one form to results of another form, and leaves errors as they
    are. -/
theorem run_bind_pure {γ : Type} {s : Bounded ε α} {result : Except ε γ} {e : γ → α} {e' : γ → β}
    {g : α → β} (h : s.run = some (result.map e)) (hg : ∀ c, g (e c) = e' c) :
    (s >>= fun a => Pure.pure (g a)).run = some (result.map e') := by
  cases result with
  | error err => exact run_bind_error h
  | ok c =>
    have hlast := run_bind_ok (f := fun a => (Pure.pure (g a) : Bounded ε β)) h
    rwa [hg c] at hlast

/-- A loop stays within its bound if each of its rounds does. Where a round is the same as going
    through the steps `new a`, the loop is the same as going through all of these. What the steps
    work on may be a part of the state, the rest of which a round gives back as it was. -/
theorem run_foldlM_flatMap {γ σ : Type} {f : σ → α → Bounded ε σ} {g : β → γ → Except ε β}
    {new : α → List γ} {e : β → σ} {l : List α}
    (hf : ∀ a ∈ l, ∀ b, (f (e b) a).run = some (((new a).foldlM g b).map e)) (b : β) :
    (l.foldlM f (e b)).run = some (((l.flatMap new).foldlM g b).map e) := by
  induction l generalizing b with
  | nil => rfl
  | cons a l ih =>
    rcases List.forall_mem_cons.1 hf with ⟨ha, hl⟩
    rw [List.foldlM_cons, List.flatMap_cons, List.foldlM_append]
    have hround := ha b
    cases hr : (new a).foldlM g b with
    | error err =>
      rw [hr] at hround
      exact run_bind_error hround
    | ok b' =>
      rw [hr] at hround
      exact (run_bind_ok hround).trans (ih hl b')

/-- The recursion stays within its bound and has the given result. -/
def Yields (s : Bounded ε α) (a : α) : Prop :=
  s.run = some (.ok a)

theorem yields_pure {a b : α} : (Pure.pure a : Bounded ε α).Yields b ↔ a = b := by
  rw [Yields, ExceptT.run_pure]
  exact (Option.some.injEq _ _).to_iff.trans (Except.ok.injEq a b).to_iff

theorem not_yields_throw {e : ε} {a : α} : ¬ (MonadExcept.throw e : Bounded ε α).Yields a :=
  fun h => nomatch h

theorem yields_bind {s : Bounded ε α} {f : α → Bounded ε β} {b : β} :
    (s >>= f).Yields b ↔ ∃ a, s.Yields a ∧ (f a).Yields b := by
  simp only [Yields]
  rw [ExceptT.run_bind]
  rcases s.run with _ | (e | a)
  · exact iff_of_false (fun h => nomatch h) fun ⟨_, h, _⟩ => nomatch h
  · exact iff_of_false (fun h => nomatch h) fun ⟨_, h, _⟩ => nomatch h
  · constructor
    · exact fun h => ⟨a, rfl, h⟩
    · rintro ⟨a', ha, h⟩
      obtain rfl : a = a' := Except.ok.inj (Option.some.inj ha)
      exact h

/-- The recursion stays within its bound, and its result or its error is as
    stated. -/
def Ensures (s : Bounded ε α) (ok : α → Prop) (err : ε → Prop) : Prop :=
  match s.run with
  | none => False
  | some (.ok a) => ok a
  | some (.error e) => err e

namespace Ensures

variable {s : Bounded ε α} {ok ok' : α → Prop} {err err' : ε → Prop}

theorem pure {a : α} (ha : ok a) : Ensures (Pure.pure a : Bounded ε α) ok err := ha

theorem throw {e : ε} (he : err e) : Ensures (MonadExcept.throw e : Bounded ε α) ok err := he

theorem mono (hs : s.Ensures ok err) (hok : ∀ a, ok a → ok' a) (herr : ∀ e, err e → err' e) :
    s.Ensures ok' err' := by
  unfold Ensures at hs ⊢
  split at hs
  · exact hs
  · exact hok _ hs
  · exact herr _ hs

theorem bind {f : α → Bounded ε β} {ok' : β → Prop}
    (hs : s.Ensures (fun a => (f a).Ensures ok' err) err) : (s >>= f).Ensures ok' err := by
  unfold Ensures at hs
  split at hs
  next => exact hs.elim
  next a ha =>
    simpa only [Ensures, run_bind_ok ha] using hs
  next e he =>
    simpa only [Ensures, run_bind_error he] using hs

/-- A loop keeps what each of its rounds keeps. The invariant is on the elements
    that are left, and on the state. -/
theorem foldlM {f : β → α → Bounded ε β} (inv : List α → β → Prop)
    (step : ∀ a l b, inv (a :: l) b → (f b a).Ensures (inv l) err) :
    ∀ (l : List α) (b : β), inv l b → (l.foldlM f b).Ensures (inv []) err
  | [], _, hb => pure hb
  | a :: l, b, hb => by
    rw [List.foldlM_cons]
    exact bind ((step a l b hb).mono (fun b' hb' => foldlM inv step l b' hb') fun _ => id)

/-- The outcome. -/
theorem elim (hs : s.Ensures ok err) :
    (∃ a, s.run = some (.ok a) ∧ ok a) ∨ ∃ e, s.run = some (.error e) ∧ err e := by
  unfold Ensures at hs
  split at hs
  next => exact hs.elim
  next a ha => exact .inl ⟨a, ha, hs⟩
  next e he => exact .inr ⟨e, he, hs⟩

end Ensures

/-- Unless the recursion goes deeper than its bound, its result or its error is as
    stated. -/
def Permits (s : Bounded ε α) (ok : α → Prop) (err : ε → Prop) : Prop :=
  s.run = none ∨ s.Ensures ok err

namespace Permits

variable {s : Bounded ε α} {ok ok' : α → Prop} {err err' : ε → Prop}

theorem pure {a : α} (ha : ok a) : Permits (Pure.pure a : Bounded ε α) ok err := .inr (.pure ha)

theorem throw {e : ε} (he : err e) : Permits (MonadExcept.throw e : Bounded ε α) ok err :=
  .inr (.throw he)

theorem mono (hs : s.Permits ok err) (hok : ∀ a, ok a → ok' a) (herr : ∀ e, err e → err' e) :
    s.Permits ok' err' :=
  hs.imp_right fun hs => hs.mono hok herr

theorem bind {f : α → Bounded ε β} {ok' : β → Prop}
    (hs : s.Permits (fun a => (f a).Permits ok' err) err) : (s >>= f).Permits ok' err := by
  rcases hs with hnone | hs
  · exact .inl (run_bind_none hnone)
  rcases hs.elim with ⟨a, ha, hf⟩ | ⟨e, he, herr⟩
  · unfold Permits Ensures
    rwa [run_bind_ok ha]
  · refine .inr ?_
    unfold Ensures
    rwa [run_bind_error he]

/-- A loop keeps what each of its rounds keeps. The invariant is on the elements
    that are left, and on the state. -/
theorem foldlM {f : β → α → Bounded ε β} (inv : List α → β → Prop)
    (step : ∀ a l b, inv (a :: l) b → (f b a).Permits (inv l) err) :
    ∀ (l : List α) (b : β), inv l b → (l.foldlM f b).Permits (inv []) err
  | [], _, hb => pure hb
  | a :: l, b, hb => by
    rw [List.foldlM_cons]
    exact bind ((step a l b hb).mono (fun b' hb' => foldlM inv step l b' hb') fun _ => id)

/-- A recursion that stays within its bound has an outcome that is as stated. -/
theorem and_ensures (hs : s.Permits ok err) (hs' : s.Ensures ok' err') :
    s.Ensures (fun a => ok a ∧ ok' a) fun e => err e ∧ err' e := by
  rcases hs with hnone | hs
  · simp only [Ensures, hnone] at hs'
  rcases hs'.elim with ⟨a, ha, hok'⟩ | ⟨e, he, herr'⟩
  · simp only [Ensures, ha] at hs ⊢
    exact ⟨hs, hok'⟩
  · simp only [Ensures, he] at hs ⊢
    exact ⟨hs, herr'⟩

end Permits

/-- Two recursions have related results, or the same error, unless one of them goes deeper
    than its bound. -/
inductive Agree (R : α → α → Prop) (s s' : Bounded ε α) : Prop
  | deep (h : s.run = none ∨ s'.run = none)
  | ok {a a' : α} (ha : s.run = some (.ok a)) (ha' : s'.run = some (.ok a')) (h : R a a')
  | error {e : ε} (he : s.run = some (.error e)) (he' : s'.run = some (.error e))

namespace Agree

variable {R : α → α → Prop} {s s' : Bounded ε α}

theorem pure {a a' : α} (ha : R a a') :
    Agree R (Pure.pure a : Bounded ε α) (Pure.pure a') := .ok rfl rfl ha

theorem throw (e : ε) : Agree R (MonadExcept.throw e : Bounded ε α) (MonadExcept.throw e) :=
  .error rfl rfl

/-- Recursions that agree have the same outcome if both stay within their bounds. -/
theorem run_eq (h : Agree Eq s s') (hs : s.run ≠ none) (hs' : s'.run ≠ none) :
    s.run = s'.run := by
  cases h with
  | deep h => exact h.elim (absurd · hs) (absurd · hs')
  | ok ha ha' h => rw [ha, ha', h]
  | error he he' => rw [he, he']

/-- Recursions that do not fail agree if their results do. -/
theorem of_permits {ok ok' : α → Prop} (hs : s.Permits ok fun _ => False)
    (hs' : s'.Permits ok' fun _ => False) (h : ∀ a a', ok a → ok' a' → R a a') :
    Agree R s s' := by
  rcases hs with hnone | hs
  · exact .deep (.inl hnone)
  rcases hs' with hnone | hs'
  · exact .deep (.inr hnone)
  obtain ⟨a, ha, hok⟩ | ⟨_, _, hfalse⟩ := hs.elim
  · obtain ⟨a', ha', hok'⟩ | ⟨_, _, hfalse⟩ := hs'.elim
    · exact .ok ha ha' (h a a' hok hok')
    · exact hfalse.elim
  · exact hfalse.elim

theorem bind {Q : β → β → Prop} {f f' : α → Bounded ε β} (hs : Agree R s s')
    (hf : ∀ a a', R a a' → Agree Q (f a) (f' a')) : Agree Q (s >>= f) (s' >>= f') := by
  cases hs with
  | deep h => exact .deep (h.imp run_bind_none run_bind_none)
  | ok ha ha' h =>
    cases hf _ _ h with
    | deep h => exact .deep (by rwa [run_bind_ok ha, run_bind_ok ha'])
    | ok hb hb' h => exact .ok ((run_bind_ok ha).trans hb) ((run_bind_ok ha').trans hb') h
    | error he he' => exact .error ((run_bind_ok ha).trans he) ((run_bind_ok ha').trans he')
  | error he he' => exact .error (run_bind_error he) (run_bind_error he')

/-- Loops over the same elements agree if their rounds do. -/
theorem foldlM {l : List α} {R : β → β → Prop} {f f' : β → α → Bounded ε β}
    (step : ∀ a ∈ l, ∀ b b', R b b' → Agree R (f b a) (f' b' a)) {b b' : β} (hb : R b b') :
    Agree R (l.foldlM f b) (l.foldlM f' b') := by
  induction l generalizing b b' with
  | nil => exact pure hb
  | cons a l ih =>
    rw [List.foldlM_cons, List.foldlM_cons]
    exact bind (step a List.mem_cons_self b b' hb) fun _ _ h =>
      ih (fun a ha => step a (List.mem_cons_of_mem _ ha)) h

end Agree

end Lineage.Bounded
