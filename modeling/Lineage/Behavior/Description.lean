import Lineage.Behavior.Factory
import Lineage.Text.Quoted

/-!
# Descriptions

Short texts that describe contributors, slots, behaviors and factories in a log.
What they do is not told, only what they are made of.
-/

namespace Lineage

/-- A text with a part of a record in braces. -/
def describeRecord (name : String) (body : String) : String :=
  name ++ " \x7b " ++ body ++ " \x7d"

/-- Describes what a contributor tells of itself. -/
def ContributorTag.describe (t : ContributorTag) : String :=
  let target := match t.target with
    | some k => s!"Some({k.marked})"
    | none => "None"
  describeRecord "ContributorDescriptor" s!"name: {Text.quote t.name}, target: {target}"

/-- Describes a contributor. -/
def Contributor.describe {β : Type} (c : Contributor β) : String :=
  describeRecord "Contributor" s!"descriptor: {c.tag.describe}, .."

/-- Describes a slot. -/
def Slot.describe {β : Type} : Slot β → String
  | some _ => "Real(..)"
  | none => "NoOp"

/-- Describes a composite by the keys of its contributions. -/
def Composite.describe {β : Type} (c : Composite β) : String :=
  let keys := ", ".intercalate (c.contributors.map fun k => Text.quote k.render)
  describeRecord "ComposedBehavior" s!"contributors: [{keys}]"

/-- Describes a factory by the number of its types. -/
def Factory.describe {β : Type} (f : Factory β) : String :=
  describeRecord "BehaviorFactory"
    s!"capability: {Text.quote f.capability.name}, types: {f.size}"

/-- Describes validators that run together. -/
def Validator.describeAll (vs : List Validator) : String :=
  let count := s!"{vs.length} validators"
  describeRecord "AllValidators" s!"validators: {Text.quote count}"

/-- Describes hooks that run together. -/
def Hook.describeAll (hs : List Hook) : String :=
  let count := s!"{hs.length} hooks"
  describeRecord "AllHooks" s!"hooks: {Text.quote count}"

end Lineage
