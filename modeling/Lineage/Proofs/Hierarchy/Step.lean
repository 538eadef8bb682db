import Lineage.Hierarchy.Builder

/-!
# Steps of the building

A step of the building may change the builder and may fail, or go deeper than
its bound. `Step.Ensures` states that a step stays within its bound when it is
run on a given builder, and what it comes to: a result or a fault, each with the
builder that is left. There is a rule for each way in which steps are put
together, so that proofs about the building follow its text.

`Step.Permits` states the same, but for the bound: what a step comes to if it stays
within its bound. The two go together (`Permits.and_ensures`).
-/

namespace Lineage.Hierarchy.Builder.Step

variable {α β : Type}

section

variable {s : Step α} {f : α → Step β} {b b' : Builder}

theorem run_bind_none (h : s.run b = none) : (s >>= f).run b = none := by
  rw [ExceptT.run_bind]
  exact congrArg (· >>= _) h

theorem run_bind_ok {a : α} (h : s.run b = some (.ok a, b')) :
    (s >>= f).run b = (f a).run b' := by
  rw [ExceptT.run_bind]
  exact congrArg (· >>= _) h

theorem run_bind_error {e : ConfigurationFault} (h : s.run b = some (.error e, b')) :
    (s >>= f).run b = some (.error e, b') := by
  rw [ExceptT.run_bind]
  exact congrArg (· >>= _) h

theorem run_get_bind {f : Builder → Step β} :
    ((MonadState.get : Step Builder) >>= f).run b = (f b).run b := rfl

/-- Two steps come to the same if their first parts do, and what follows does from where the
    first part leaves off. -/
theorem run_bind_congr {s' : Step α} {f' : α → Step β} (hs : s.run b = s'.run b)
    (hf : ∀ a b', s'.run b = some (.ok a, b') → (f a).run b' = (f' a).run b') :
    (s >>= f).run b = (s' >>= f').run b := by
  cases hs' : s'.run b with
  | none => rw [run_bind_none hs', run_bind_none (hs.trans hs')]
  | some r =>
    rcases r with ⟨e | a, b'⟩
    · rw [run_bind_error hs', run_bind_error (hs.trans hs')]
    · rw [run_bind_ok hs', run_bind_ok (hs.trans hs'), hf a b' hs']

end

/-- Run on the given builder, the step stays within its bound, and its result or
    its fault is as stated, together with the builder that is left. -/
def Ensures (s : Step α) (b : Builder) (ok : α → Builder → Prop)
    (err : ConfigurationFault → Builder → Prop) : Prop :=
  match s.run b with
  | none => False
  | some (.ok a, b') => ok a b'
  | some (.error e, b') => err e b'

namespace Ensures

variable {s : Step α} {b : Builder} {ok ok' : α → Builder → Prop}
  {err err' : ConfigurationFault → Builder → Prop}

theorem pure {a : α} (ha : ok a b) : Ensures (Pure.pure a : Step α) b ok err := ha

theorem throw {e : ConfigurationFault} (he : err e b) :
    Ensures (MonadExcept.throw e : Step α) b ok err := he

theorem get {ok : Builder → Builder → Prop} (hb : ok b b) :
    Ensures (MonadState.get : Step Builder) b ok err := hb

theorem modifyGet {f : Builder → α × Builder} (hb : ok (f b).1 (f b).2) :
    Ensures (MonadState.modifyGet f : Step α) b ok err := hb

theorem mono (hs : s.Ensures b ok err) (hok : ∀ a b', ok a b' → ok' a b')
    (herr : ∀ e b', err e b' → err' e b') : s.Ensures b ok' err' := by
  unfold Ensures at hs ⊢
  split at hs
  · exact hs
  · exact hok _ _ hs
  · exact herr _ _ hs

theorem bind {f : α → Step β} {ok' : β → Builder → Prop}
    (hs : s.Ensures b (fun a b' => (f a).Ensures b' ok' err) err) :
    (s >>= f).Ensures b ok' err := by
  unfold Ensures at hs
  split at hs
  next => exact hs.elim
  next a b' ha => simpa only [Ensures, run_bind_ok ha] using hs
  next e b' he => simpa only [Ensures, run_bind_error he] using hs

/-- A loop keeps what each of its rounds keeps. The invariant is on the elements
    that are left, on the value of the loop, and on the builder. -/
theorem foldlM {f : β → α → Step β} (inv : List α → β → Builder → Prop)
    (step : ∀ a l x b, inv (a :: l) x b → (f x a).Ensures b (inv l) err) :
    ∀ (l : List α) (x : β) (b : Builder), inv l x b → (l.foldlM f x).Ensures b (inv []) err
  | [], _, _, hx => pure hx
  | a :: l, x, b, hx => by
    rw [List.foldlM_cons]
    exact bind ((step a l x b hx).mono (fun x' b' => foldlM inv step l x' b') fun _ _ => id)

/-- Two loops over the same elements come to the same if their rounds do, as long as the
    invariant holds that the rounds keep. -/
theorem run_foldlM_eq {f f' : β → α → Step β} (inv : List α → β → Builder → Prop)
    (err : ConfigurationFault → Builder → Prop)
    (step : ∀ a l x b, inv (a :: l) x b →
      (f x a).run b = (f' x a).run b ∧ (f' x a).Ensures b (inv l) err) :
    ∀ (l : List α) (x : β) (b : Builder), inv l x b →
      (l.foldlM f x).run b = (l.foldlM f' x).run b
  | [], _, _, _ => rfl
  | a :: l, x, b, hx => by
    obtain ⟨heq, hkeep⟩ := step a l x b hx
    rw [List.foldlM_cons, List.foldlM_cons]
    refine run_bind_congr heq fun x' b' hr => run_foldlM_eq inv err step l x' b' ?_
    rwa [Ensures, hr] at hkeep

/-- Dropping the result. -/
theorem discard {ok : Unit → Builder → Prop} (hs : s.Ensures b (fun _ => ok ()) err) :
    (Functor.discard s).Ensures b ok err := by
  have : Functor.discard s = s >>= fun _ => Pure.pure () := map_eq_pure_bind (fun _ => ()) s
  rw [this]
  exact bind (hs.mono (fun _ _ => pure) fun _ _ => id)

/-- The outcome. -/
theorem elim (hs : s.Ensures b ok err) :
    (∃ a b', s.run b = some (.ok a, b') ∧ ok a b') ∨
      ∃ e b', s.run b = some (.error e, b') ∧ err e b' := by
  unfold Ensures at hs
  split at hs
  next => exact hs.elim
  next a b' ha => exact .inl ⟨a, b', ha, hs⟩
  next e b' he => exact .inr ⟨e, b', he, hs⟩

end Ensures

/-- Run on the given builder, the step comes to a result or a fault as stated, together
    with the builder that is left, unless it goes deeper than its bound. -/
def Permits (s : Step α) (b : Builder) (ok : α → Builder → Prop)
    (err : ConfigurationFault → Builder → Prop) : Prop :=
  s.run b = none ∨ s.Ensures b ok err

namespace Permits

variable {s : Step α} {b : Builder} {ok ok' : α → Builder → Prop}
  {err err' : ConfigurationFault → Builder → Prop}

theorem pure {a : α} (ha : ok a b) : Permits (Pure.pure a : Step α) b ok err := .inr (.pure ha)

theorem throw {e : ConfigurationFault} (he : err e b) :
    Permits (MonadExcept.throw e : Step α) b ok err := .inr (.throw he)

theorem get {ok : Builder → Builder → Prop} (hb : ok b b) :
    Permits (MonadState.get : Step Builder) b ok err := .inr (.get hb)

theorem modifyGet {f : Builder → α × Builder} (hb : ok (f b).1 (f b).2) :
    Permits (MonadState.modifyGet f : Step α) b ok err := .inr (.modifyGet hb)

theorem mono (hs : s.Permits b ok err) (hok : ∀ a b', ok a b' → ok' a b')
    (herr : ∀ e b', err e b' → err' e b') : s.Permits b ok' err' :=
  hs.imp_right fun hs => hs.mono hok herr

theorem bind {f : α → Step β} {ok' : β → Builder → Prop}
    (hs : s.Permits b (fun a b' => (f a).Permits b' ok' err) err) :
    (s >>= f).Permits b ok' err := by
  rcases hs with hnone | hs
  · exact .inl (run_bind_none hnone)
  rcases hs.elim with ⟨a, b', ha, hf⟩ | ⟨e, b', he, herr⟩
  · unfold Permits Ensures
    rwa [run_bind_ok ha]
  · refine .inr ?_
    unfold Ensures
    rwa [run_bind_error he]

/-- A loop keeps what each of its rounds keeps. The invariant is on the elements
    that are left, on the value of the loop, and on the builder. -/
theorem foldlM {f : β → α → Step β} (inv : List α → β → Builder → Prop)
    (step : ∀ a l x b, inv (a :: l) x b → (f x a).Permits b (inv l) err) :
    ∀ (l : List α) (x : β) (b : Builder), inv l x b → (l.foldlM f x).Permits b (inv []) err
  | [], _, _, hx => pure hx
  | a :: l, x, b, hx => by
    rw [List.foldlM_cons]
    exact bind ((step a l x b hx).mono (fun x' b' => foldlM inv step l x' b') fun _ _ => id)

/-- Dropping the result. -/
theorem discard {ok : Unit → Builder → Prop} (hs : s.Permits b (fun _ => ok ()) err) :
    (Functor.discard s).Permits b ok err := by
  rcases hs with hnone | hs
  · have : Functor.discard s = s >>= fun _ => Pure.pure () := map_eq_pure_bind (fun _ => ()) s
    exact .inl (this ▸ run_bind_none hnone)
  · exact .inr hs.discard

/-- A step that stays within its bound has an outcome that is as stated. -/
theorem and_ensures (hs : s.Permits b ok err) (hs' : s.Ensures b ok' err') :
    s.Ensures b (fun a b' => ok a b' ∧ ok' a b') fun e b' => err e b' ∧ err' e b' := by
  rcases hs with hnone | hs
  · simp only [Ensures, hnone] at hs'
  rcases hs'.elim with ⟨a, b', ha, hok'⟩ | ⟨e, b', he, herr'⟩
  · simp only [Ensures, ha] at hs ⊢
    exact ⟨hs, hok'⟩
  · simp only [Ensures, he] at hs ⊢
    exact ⟨hs, herr'⟩

end Permits

end Lineage.Hierarchy.Builder.Step
