import Lineage.Access.Policy
import Lineage.Access.Rule
import Lineage.Codec.Types

/-!
# JSON forms: read rules
-/

namespace Lineage

open Json

instance : Codec ReadRule where
  encode r := .obj [
    ("type_key", encode r.typeKey),
    ("credential", encode r.credential),
    ("attribute", encode r.name),
    ("visible", encodeOption r.visible),
    ("alias", encodeOption r.newName)]
  decode? j := do
    let r ← record? ["type_key", "credential", "attribute", "visible", "alias"] j
    return {
      typeKey := ← r.field? "type_key"
      credential := ← r.field? "credential"
      name := ← r.field? "attribute"
      visible := ← r.optional? "visible"
      newName := ← r.optional? "alias" }

instance : Codec TypeAlias where
  encode a := .obj [
    ("type_key", encode a.typeKey),
    ("attribute", encode a.name),
    ("alias", encode a.newName)]
  decode? j := do
    let r ← record? ["type_key", "attribute", "alias"] j
    return {
      typeKey := ← r.field? "type_key"
      name := ← r.field? "attribute"
      newName := ← r.field? "alias" }

instance : Codec RuleSet where
  encode s := .obj [("rules", encode s.rules), ("type_aliases", encode s.aliases)]
  decode? j := do
    let r ← record? ["rules", "type_aliases"] j
    return { rules := ← r.field? "rules", aliases := ← r.field? "type_aliases" }

instance : Codec FailurePolicy where
  encode p := encode p.word
  decode? := word? (FailurePolicy.all.map fun p => (p.word, p))

end Lineage
