import Lineage.Instance
import Lineage.Outcome

/-!
# Capabilities

A capability is a family of behaviors that can be combined: a name, a behavior
that does nothing, and a way to run one behavior after another. There are two.

* *Validation* checks instances (`Validator`). Contributions run in the order in
  which the hierarchy passes them on.
* *Logic* runs before an operation on an instance and may change it (`Hook`).
  Contributions run by the depth of the type that they were made for, so an
  ancestor's hooks always come first.

Nothing stops at a violation: all behaviors run, and their violations add up.
-/

namespace Lineage

/-- How the contributions to a type are ordered. -/
inductive Precedence where
  /-- As passed on: those of the parents, parent after parent, then its own. -/
  | propagation
  /-- By the depth of the type that they were made for, then by the order in
      which they were collected. -/
  | depth
  deriving DecidableEq, Inhabited

/-- The name of the order. -/
def Precedence.name : Precedence → String
  | propagation => "propagation"
  | depth => "depth"

/-- A family of behaviors of type `β`. -/
structure Capability (β : Type) where
  /-- The name under which contributors are collected. -/
  name : String
  /-- The order in which contributions run. -/
  precedence : Precedence
  /-- The behavior that does nothing. -/
  noOp : β
  /-- The behavior that runs the first and then the second. -/
  both : β → β → β

/-- Checks an instance. -/
abbrev Validator := Instance → Outcome

namespace Validator

/-- Accepts everything. -/
def noOp : Validator := fun _ => .success

/-- Runs the validators one after the other. -/
def all (vs : List Validator) : Validator := fun i =>
  vs.foldl (fun o v => o.and (v i)) .success

end Validator

/-- The operations for which hooks run. -/
inductive Operation where
  | create
  | update
  | delete
  deriving DecidableEq, Inhabited

namespace Operation

/-- The name of the operation. -/
def name : Operation → String
  | create => "create"
  | update => "update"
  | delete => "delete"

instance : ToString Operation := ⟨name⟩

/-- The operations. -/
def all : List Operation := [create, update, delete]

end Operation

/-- Runs before an operation on an instance, which it may change. -/
abbrev Hook := Instance → Operation → Outcome × Instance

namespace Hook

/-- Does nothing. -/
def noOp : Hook := fun i _ => (.success, i)

/-- Runs the hooks one after the other, each on the instance that the one before
    has left. -/
def all (hs : List Hook) : Hook := fun i op =>
  hs.foldl (fun (o, i) hook => let (o', i') := hook i op; (o.and o', i')) (.success, i)

end Hook

namespace Capability

/-- The validation of instances. -/
def validation : Capability Validator where
  name := "validation"
  precedence := .propagation
  noOp := .noOp
  both v w := .all [v, w]

/-- The logic around operations. -/
def logic : Capability Hook where
  name := "logic"
  precedence := .depth
  noOp := .noOp
  both g h := .all [g, h]

end Capability

end Lineage
