import Lineage.Catalogue.Metadata
import Lineage.Codec.Types

/-!
# JSON forms: attributes and requirements
-/

namespace Lineage

open Json

instance : Codec AttributeKind where
  encode k := encode k.word
  decode? := word? (AttributeKind.all.map fun k => (k.word, k))

namespace Attribute

/-- The names of the fields of an attribute in JSON. -/
def fieldNames : List String :=
  ["name", "path", "value_type", "kind", "optional", "lazy", "identifier", "declared_by"]

instance : Codec Attribute where
  encode a := .obj [
    ("name", encode a.name),
    ("path", encode a.path),
    ("value_type", encode a.valueType),
    ("kind", encode a.kind),
    ("optional", encode a.optional),
    ("lazy", encode a.isLazy),
    ("identifier", encode a.identifier),
    ("declared_by", encode a.declaredBy)]
  decode? j := do
    let r ← record? fieldNames j
    return {
      name := ← r.field? "name"
      path := ← r.field? "path"
      valueType := ← r.field? "value_type"
      kind := ← r.field? "kind"
      optional := ← r.field? "optional"
      isLazy := ← r.field? "lazy"
      identifier := ← r.field? "identifier"
      declaredBy := ← r.field? "declared_by" }

end Attribute

instance : Codec Requirement where
  encode q := .obj [("marker", encode q.marker), ("field", encode q.field)]
  decode? j := do
    let r ← record? ["marker", "field"] j
    return { marker := ← r.field? "marker", field := ← r.field? "field" }

end Lineage
