import Lineage.Behavior.Capability

/-!
# Stock behaviors

Ready-made validators and hooks. The text of a missing attribute is always
"is required".
-/

namespace Lineage

namespace Validator

/-- Refuses every instance. -/
def refuse (message : String) : Validator := fun _ => .failure message

/-- Finds fault with one attribute, whatever its value. -/
def refuseValue (name message : String) : Validator := fun _ => .failureOf name message

/-- Demands a value of an attribute. -/
def required (name : String) : Validator := fun i =>
  if (i.get? name).isSome then .success else .failureOf name "is required"

/-- Demands one certain value of an attribute. A `null` is never matched. -/
def equals (name : String) (v : Json) : Validator := fun i =>
  if i.get? name = some v then .success else .failureOf name "does not match"

end Validator

namespace Hook

/-- Appends a text to the value of an attribute. Where that is not a text, the
    attribute starts out empty. -/
def trail (name text : String) : Hook := fun i _ =>
  let old := match i.get? name with
    | some (.str s) => s
    | _ => ""
  (.success, i.set name (.str (old ++ text)))

/-- Sets an attribute. -/
def assign (name : String) (v : Json) : Hook := fun i _ =>
  (.success, i.set name v)

/-- Copies the value of one attribute to another. -/
def copy (source target : String) : Hook := fun i _ =>
  (.success, i.set target ((i.get? source).getD .null))

/-- Sets an attribute to the name of the operation. -/
def stamp (name : String) : Hook := fun i op =>
  (.success, i.set name (.str op.name))

/-- Refuses the operation with the given name. -/
def forbid (operation message : String) : Hook := fun i op =>
  (if op.name = operation then .failure message else .success, i)

/-- Demands a value of an attribute. -/
def require (name : String) : Hook := fun i _ =>
  (Validator.required name i, i)

end Hook

end Lineage
