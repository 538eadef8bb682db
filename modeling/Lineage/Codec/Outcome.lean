import Lineage.Behavior.Capability
import Lineage.Json.Record

/-!
# JSON forms: outcomes and operations
-/

namespace Lineage

open Json

instance : Codec Violation where
  encode v := .obj [("attribute", encodeOption v.subject), ("message", encode v.message)]
  decode? j := do
    let r ← record? ["attribute", "message"] j
    return { subject := ← r.optional? "attribute", message := ← r.field? "message" }

instance : Codec Outcome where
  encode o := .obj [("violations", encode o.violations)]
  decode? j := do
    let r ← record? ["violations"] j
    return { violations := ← r.field? "violations" }

instance : Codec Operation where
  encode op := encode op.name
  decode? := word? (Operation.all.map fun op => (op.name, op))

end Lineage
