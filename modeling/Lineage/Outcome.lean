/-!
# Outcomes

Checking an instance never fails with an error. It has an outcome: the
violations found, in the order in which they were found. Without violations the
instance is valid.
-/

namespace Lineage

/-- One failed check. -/
structure Violation where
  /-- The offending attribute, if it is a single one. -/
  subject : Option String
  /-- What is wrong. -/
  message : String
  deriving DecidableEq, Inhabited

/-- The text of a violation, the offending attribute in front. -/
def Violation.render (v : Violation) : String :=
  match v.subject with
  | some name => s!"{name}: {v.message}"
  | none => v.message

instance : ToString Violation := ⟨Violation.render⟩

/-- The outcome of checks. -/
structure Outcome where
  /-- The violations, in the order of the checks. -/
  violations : List Violation := []
  deriving DecidableEq, Inhabited

namespace Outcome

/-- No violations. -/
def success : Outcome := {}

/-- A violation by the instance as a whole. -/
def failure (message : String) : Outcome := ⟨[⟨none, message⟩]⟩

/-- A violation by one attribute. -/
def failureOf (name message : String) : Outcome := ⟨[⟨some name, message⟩]⟩

/-- The violations of both, those of the first in front. -/
def and (a b : Outcome) : Outcome := ⟨a.violations ++ b.violations⟩

/-- Whether no check failed. -/
def isValid (o : Outcome) : Bool :=
  o.violations.isEmpty

/-- The violations by one attribute. -/
def violationsOf (o : Outcome) (name : String) : List Violation :=
  o.violations.filter (·.subject = some name)

end Outcome

end Lineage
