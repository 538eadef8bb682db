import Lineage.Behavior.Capability

/-!
# Composing behaviors

Behaviors are shared: the same one may be contributed for several types, and
types with the same contributions get the same composite. So a behavior comes
with a handle that tells it from others (`Shared`).

A list of slots, some of them empty, composes to a single behavior, which runs
the behaviors in the slots from left to right (`Capability.compose`). An only
behavior composes to itself.

An empty slot is a placeholder: it stands for a type to which nothing is
contributed, and is dropped where there is anything else (`elide`).
-/

namespace Lineage

/-- What tells one behavior from another, whatever they do. -/
inductive Handle where
  /-- A behavior that was contributed. -/
  | contributed (serial : Nat)
  /-- A behavior that was composed. -/
  | composed (serial : Nat)
  deriving DecidableEq, Inhabited

/-- A behavior that can be told from others. -/
structure Shared (β : Type) where
  /-- What tells it from others. -/
  handle : Handle
  /-- The behavior. -/
  behavior : β

/-- The place of a behavior; `none` where nothing is registered. -/
abbrev Slot (β : Type) := Option (Shared β)

/-- Drops the placeholders from a list of more than one element. An only one
    stays: it says that nothing is registered. -/
def elide {α : Type} (items : List (Option α)) : List (Option α) :=
  if 1 < items.length then items.filter Option.isSome else items

namespace Capability

variable {β : Type} (c : Capability β)

/-- Composes the behaviors in the slots. The composite has the given handle,
    unless it is the only behavior itself. -/
def compose (handle : Handle) (slots : List (Slot β)) : Shared β :=
  match (elide slots).reduceOption with
  | [] => ⟨handle, c.noOp⟩
  | [s] => s
  | s :: rest => ⟨handle, (rest.map Shared.behavior).foldl c.both s.behavior⟩

end Capability

end Lineage
