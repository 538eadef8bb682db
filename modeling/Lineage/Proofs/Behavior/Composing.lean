import Lineage.Behavior.Compose
import Mathlib.Data.List.ReduceOption

/-!
# Composing is running one after the other

Behaviors are composed two at a time, from the left, and what comes out is a tower of pairs.
It does what a flat list of the behaviors does (`Capability.composes_validators_hooks`). What
there is to know of a capability for this is that running a list of behaviors is the same as
running its parts (`Capability.Runs`):

* the violations of validators add up (`Validator.all_append`);
* each hook runs on what the one before has left, and the hooks of the second part start with
  what the last one of the first part has left, whatever violations there are
  (`Hook.all_append`).

So neither empty slots nor the grouping of the others matter (`Capability.Composes`). Empty slots
are dropped twice: first where there is anything else, and then all of them. The first of it makes
no difference to what is composed (`reduceOption_elide`).
-/

namespace Lineage

namespace Outcome

theorem and_success (o : Outcome) : o.and success = o :=
  congrArg Outcome.mk (List.append_nil _)

theorem and_assoc (a b c : Outcome) : (a.and b).and c = a.and (b.and c) :=
  congrArg Outcome.mk (List.append_assoc ..)

end Outcome

/-! ### Running lists of behaviors -/

namespace Capability

variable {β : Type}

/-- How the behaviors of a capability run one after the other: a list of them runs like its
    parts, and an only one like itself. -/
structure Runs (c : Capability β) (all : List β → β) : Prop where
  nil : all [] = c.noOp
  singleton : ∀ b, all [b] = b
  append : ∀ as bs, all (as ++ bs) = c.both (all as) (all bs)

end Capability

namespace Validator

/-- What validators find after others have found something. -/
theorem foldl_and (vs : List Validator) (i : Instance) (o : Outcome) :
    vs.foldl (fun o v => o.and (v i)) o = o.and (all vs i) := by
  induction vs generalizing o with
  | nil => exact o.and_success.symm
  | cons v vs ih =>
    have hfirst : all (v :: vs) i = (v i).and (all vs i) := ih (v i)
    rw [List.foldl_cons, ih, hfirst, Outcome.and_assoc]

theorem all_append (vs ws : List Validator) :
    all (vs ++ ws) = Capability.validation.both (all vs) (all ws) := by
  funext i
  rw [all, List.foldl_append, foldl_and]
  rfl

theorem runs_all : Capability.validation.Runs all where
  nil := rfl
  singleton _ := rfl
  append := all_append

end Validator

namespace Hook

/-- What hooks do after others have found something and left the instance. -/
theorem foldl_and (hs : List Hook) (op : Operation) (o : Outcome) (i : Instance) :
    hs.foldl (fun (o, i) hook => let (o', i') := hook i op; (o.and o', i')) (o, i) =
      (o.and (all hs i op).1, (all hs i op).2) := by
  induction hs generalizing o i with
  | nil => exact congrArg (·, i) o.and_success.symm
  | cons hook hs ih =>
    have hfirst : all (hook :: hs) i op =
        ((hook i op).1.and (all hs (hook i op).2 op).1, (all hs (hook i op).2 op).2) :=
      ih (hook i op).1 (hook i op).2
    rw [List.foldl_cons, ih, hfirst, Outcome.and_assoc]

/-- The second part starts with the instance that the first one has left. -/
theorem all_append (gs hs : List Hook) :
    all (gs ++ hs) = Capability.logic.both (all gs) (all hs) := by
  funext i op
  rw [all, List.foldl_append, foldl_and]
  rfl

theorem runs_all : Capability.logic.Runs all where
  nil := rfl
  singleton _ := rfl
  append := all_append

end Hook

/-! ### Composing -/

/-- Dropping the placeholders where there is anything else leaves what is no placeholder. -/
theorem reduceOption_elide {α : Type} (items : List (Option α)) :
    (elide items).reduceOption = items.reduceOption := by
  rw [elide]
  split_ifs
  · rw [List.reduceOption, List.filterMap_filter]
    refine List.filterMap_congr fun item _ => ?_
    cases item with
    | none => rfl
    | some a => rfl
  · rfl

namespace Capability

variable {β : Type} {c : Capability β} {all : List β → β}

/-- Only the behaviors in the slots matter. -/
theorem compose_congr (c : Capability β) (handle : Handle) {slots slots' : List (Slot β)}
    (h : slots.reduceOption = slots'.reduceOption) :
    c.compose handle slots = c.compose handle slots' := by
  rw [compose, compose, reduceOption_elide, reduceOption_elide, h]

namespace Runs

variable (hc : c.Runs all)
include hc

/-- A list that runs in the place of one behavior may as well be a part of the list. -/
theorem nested (as bs cs : List β) : all (as ++ all bs :: cs) = all (as ++ bs ++ cs) := by
  rw [List.append_cons, hc.append, hc.append as, hc.singleton, ← hc.append, ← hc.append]

/-- A tower of pairs runs like the list that it is built from. -/
theorem foldl_both (as bs : List β) : bs.foldl c.both (all as) = all (as ++ bs) := by
  induction bs generalizing as with
  | nil => rw [List.foldl_nil, List.append_nil]
  | cons b bs ih =>
    have hb : c.both (all as) b = all (as ++ [b]) := by rw [hc.append, hc.singleton]
    rw [List.foldl_cons, hb, ih, ← List.append_cons]

/-- The composite of slots runs the behaviors that are in them. -/
theorem behavior_compose_slots (handle : Handle) (slots : List (Slot β)) :
    (c.compose handle slots).behavior = all (slots.reduceOption.map Shared.behavior) := by
  rw [compose, reduceOption_elide]
  match slots.reduceOption with
  | [] => exact hc.nil.symm
  | [s] => exact (hc.singleton s.behavior).symm
  | s :: s' :: rest =>
    have htower := hc.foldl_both [s.behavior] ((s' :: rest).map Shared.behavior)
    rwa [hc.singleton] at htower

end Runs

/-- How the behavior that is composed depends on the slots. -/
structure Composes (c : Capability β) (all : List β → β) : Prop where
  /-- It runs the behaviors in the slots one after the other. -/
  runs : ∀ handle slots,
    (c.compose handle slots).behavior = all (slots.reduceOption.map Shared.behavior)
  /-- It stays the same when empty slots are put in or taken out anywhere. -/
  empty : ∀ handle slots slots', slots.reduceOption = slots'.reduceOption →
    c.compose handle slots = c.compose handle slots'
  /-- It does the same when what a block of slots is composed to takes the place of the
      block. -/
  block : ∀ handle handle' before block after,
    (c.compose handle (before ++ some (c.compose handle' block) :: after)).behavior =
      (c.compose handle (before ++ block ++ after)).behavior
  /-- If there is only one behavior it is that one. -/
  only : ∀ handle slots s, slots.reduceOption = [s] → c.compose handle slots = s
  /-- If there is none it does nothing. -/
  none : ∀ handle slots, slots.reduceOption = [] → c.compose handle slots = ⟨handle, c.noOp⟩

theorem Runs.composes (hc : c.Runs all) : c.Composes all where
  runs := hc.behavior_compose_slots
  empty handle _ _ hslots := c.compose_congr handle hslots
  block handle handle' before block after := by
    simp only [hc.behavior_compose_slots, List.reduceOption_append, List.reduceOption_cons_of_some,
      List.map_append, List.map_cons]
    exact hc.nested _ _ _
  only handle slots s hs := by rw [compose, reduceOption_elide, hs]
  none handle slots hnone := by rw [compose, reduceOption_elide, hnone]

/-- The behavior composed from slots, of validation as well as of logic, runs the behaviors in
    them one after the other: validators find the same violations in the same order as a flat
    list of them, and hooks leave the same instance as well. Empty slots and grouping do not
    matter. -/
theorem composes_validators_hooks : validation.Composes Validator.all ∧ logic.Composes Hook.all :=
  ⟨Validator.runs_all.composes, Hook.runs_all.composes⟩

end Capability

end Lineage
