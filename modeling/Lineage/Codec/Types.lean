import Lineage.BuildId
import Lineage.Descriptor
import Lineage.Instance
import Lineage.Json.Record
import Lineage.LogLevel

/-!
# JSON forms: names, types and instances

Names are strings. A value type is an object with its kind for a tag. An
instance is a record of its type and its free-form values.
-/

namespace Lineage

open Json

instance : Codec TypeKey where
  encode k := encode k.name
  decode? j := (decode? j).map TypeKey.mk

instance : Codec Credential where
  encode c := encode c.name
  decode? j := (decode? j).map Credential.mk

namespace BuildId

/-- The text inside of the JSON form of a build identifier. -/
def decodeText? (j : Json) : Option BuildId :=
  decode? j >>= parse?

instance : Codec BuildId where
  encode b := .obj [("uuid", encode b.render)]
  decode? j := do
    let r ← record? ["uuid"] j
    decodeText? (← r.members.lookup "uuid")

end BuildId

namespace ValueType

/-- The JSON form of a value type. -/
def toJson : ValueType → Json
  | scalar name => .obj [("Scalar", encode name)]
  | named k => .obj [("Named", encode k)]
  | collection t => .obj [("Collection", t.toJson)]
  | array t => .obj [("Array", t.toJson)]

/-- Reads the JSON form of a value type. -/
def ofJson? : Json → Option ValueType
  | .obj [(tag, j)] =>
    match tag with
    | "Scalar" => (decode? j).map scalar
    | "Named" => (decode? j).map named
    | "Collection" => (ofJson? j).map collection
    | "Array" => (ofJson? j).map array
    | _ => none
  | _ => none

instance : Codec ValueType := ⟨toJson, ofJson?⟩

end ValueType

instance : Codec TypeKind where
  encode k := encode k.name
  decode? := word? TypeKind.all

instance : Codec LogLevel where
  encode l := encode l.word
  decode? := word? (LogLevel.all.map fun l => (l.word, l))

instance : Codec Instance where
  encode i := .obj [("type_key", encode i.typeKey), ("values", .obj i.values)]
  decode? j := do
    let r ← record? ["type_key", "values"] j
    return {
      typeKey := ← r.field? "type_key"
      values := ← members? (← r.members.lookup "values") }

end Lineage
