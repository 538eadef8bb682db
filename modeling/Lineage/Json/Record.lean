import Lineage.Json.Basic

/-!
# Decoding JSON values

How the types of the library are written as JSON values and read back
(`Json.Codec`). Three shapes recur:

* a *record* is an object with a member for each field, or an array of the
  fields in their order (`Json.record?`). Members that are no fields are
  skipped, but no field may be given twice. An array may stop early where the
  remaining fields have defaults, and may not go on after the last field;
* a *word* out of a fixed list is a string, or an object whose only member has
  that name and the value `null` (`Json.word?`);
* a *tagged* value is an object whose only member has the tag for a name
  (`Json.tagged?`).

An optional field is missing if it is absent or `null`. In an array only `null`
makes it missing.
-/

namespace Lineage.Json

/-- A type with a form in JSON. -/
class Codec (α : Type) where
  /-- The JSON value that stands for a value of the type. -/
  encode : α → Json
  /-- The value of the type that a JSON value stands for. -/
  decode? : Json → Option α

export Codec (encode decode?)

instance : Codec String where
  encode := .str
  decode?
    | .str s => some s
    | _ => none

instance : Codec Bool where
  encode := .bool
  decode?
    | .bool b => some b
    | _ => none

instance {α : Type} [Codec α] : Codec (List α) where
  encode items := .arr (items.map encode)
  decode?
    | .arr items => items.mapM decode?
    | _ => none

/-- A missing value is written as `null`. -/
def encodeOption {α : Type} [Codec α] : Option α → Json
  | none => .null
  | some a => encode a

/-- The members of a free-form object, in normal form. -/
def members? : Json → Option Members
  | .obj members => (normalMembers? members).map Members.ofList
  | _ => none

/-! ### Words and tags -/

/-- The only member of an object that has just one. -/
def tagged? : Json → Option (String × Json)
  | .obj [member] => some member
  | _ => none

/-- Reads one of the given words. -/
def word? {α : Type} (words : List (String × α)) : Json → Option α
  | .str s => words.lookup s
  | .obj [(s, .null)] => words.lookup s
  | _ => none

/-! ### Records -/

/-- The fields that a record gives, by name. -/
structure Record where
  /-- The given fields. -/
  members : List (String × Json)
  /-- Whether they are given by their place in an array. -/
  positional : Bool

/-- Reads a record with the given fields. -/
def record? (fields : List String) : Json → Option Record
  | .obj members =>
    let known := members.filter fun m => fields.contains m.1
    if (known.map Prod.fst).Nodup then some ⟨known, false⟩ else none
  | .arr items =>
    if items.length ≤ fields.length then some ⟨fields.zip items, true⟩ else none
  | _ => none

namespace Record

variable {α : Type} [Codec α] (r : Record)

/-- A field that has to be given. -/
def field? (name : String) : Option α :=
  r.members.lookup name >>= decode?

/-- A field that may be missing. -/
def optional? (name : String) : Option (Option α) :=
  match r.members.lookup name with
  | none => if r.positional then none else some none
  | some .null => some none
  | some v => (decode? v).map some

/-- A field with a default, read by `read?`. -/
def defaultBy? (read? : Json → Option α) (name : String) (default : α) : Option α :=
  match r.members.lookup name with
  | none => some default
  | some v => read? v

/-- A field with a default. -/
def default? (name : String) (default : α) : Option α :=
  r.defaultBy? decode? name default

end Record

end Lineage.Json
