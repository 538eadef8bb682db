import Lineage.Json.Token

/-!
# Reading JSON texts

The tokens of a text are taken one at a time by a machine that keeps the arrays
and objects it is inside of, the innermost first (`Reader.step`). A text stands
for a value if the machine ends with one, outside of everything
(`Json.read?`).
-/

namespace Lineage.Json

namespace Reader

/-- An array or object that is being read, its contents so far in reverse. A
    name is missing if its string stands for no text. -/
inductive Frame where
  | array (done : List Json)
  /-- In the object, the value of the member `name` is being read. -/
  | object (done : List (Option String × Json)) (name : Option String)

/-- What may come next. -/
inductive Stage where
  /-- A value, or the end of the array just opened. -/
  | value (first : Bool)
  /-- The name of a member, or the end of the object just opened. -/
  | name (first : Bool) (done : List (Option String × Json))
  /-- The colon after the name of a member. -/
  | colon (done : List (Option String × Json)) (name : Option String)
  /-- What follows a value. -/
  | after (v : Json)

/-- The greatest number of arrays and objects inside of each other that still
    have a value. -/
def maxNesting : Nat := 127

/-- The value of an array or object inside of the given frames. -/
def bounded (frames : List Frame) (v : Json) : Json :=
  if frames.length < maxNesting then v else .void

/-- The object with the given members, in reverse. If a name stands for no text
    the object stands for no value. -/
def object (done : List (Option String × Json)) : Json :=
  match done.reverse.mapM fun (name, v) => name.map (·, v) with
  | some members => .obj members
  | none => .void

/-- Takes one token. -/
def step : Stage × List Frame → Token → Option (Stage × List Frame)
  | (.value _, frames), .word v => some (.after v, frames)
  | (.value _, frames), .text t => some (.after (t.elim .void .str), frames)
  | (.value _, frames), .openArray => some (.value true, .array [] :: frames)
  | (.value _, frames), .openObject => some (.name true [], frames)
  | (.value true, .array [] :: frames), .closeArray =>
    some (.after (bounded frames (.arr [])), frames)
  | (.name _ done, frames), .text name => some (.colon done name, frames)
  | (.name true [], frames), .closeObject => some (.after (bounded frames (.obj [])), frames)
  | (.colon done name, frames), .colon => some (.value false, .object done name :: frames)
  | (.after v, .array done :: frames), .comma => some (.value false, .array (v :: done) :: frames)
  | (.after v, .array done :: frames), .closeArray =>
    some (.after (bounded frames (.arr (v :: done).reverse)), frames)
  | (.after v, .object done name :: frames), .comma =>
    some (.name false ((name, v) :: done), frames)
  | (.after v, .object done name :: frames), .closeObject =>
    some (.after (bounded frames (object ((name, v) :: done))), frames)
  | _, _ => none

end Reader

/-- The value that a text stands for; `void` where it is well formed only. -/
def read? (text : String) : Option Json := do
  match ← (← Token.ofText? text).foldlM Reader.step (.value false, []) with
  | (.after v, []) => some v
  | _ => none

end Lineage.Json
