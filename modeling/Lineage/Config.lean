import Lineage.Codec.Attribute
import Lineage.Codec.Rule
import Lineage.Json.Reader
import Lineage.Text.Blank

/-!
# Configuration

The settings of the substrate, each with a default: the root marker, the policy
on denials, logging, structural requirements and free-form extra entries.

A configuration is valid if its root marker is not blank, and no requirement has
a blank field (`Config.validate`). Loading one from a file validates it; a file
that does not exist stands for the defaults (`Config.load`). Merging overlays
one configuration by another: requirements are added up, all else is taken over
(`Config.merge`).
-/

namespace Lineage

open Json

/-- The settings of logging. -/
structure LoggingConfig where
  /-- Whether events are logged. -/
  enabled : Bool := true
  /-- The least severe level that is logged. -/
  level : LogLevel := .default
  deriving DecidableEq, Inhabited

/-- The settings of the substrate. -/
structure Config where
  /-- The name of the marker from which all resource types descend. -/
  rootMarker : String := "Resource"
  /-- What becomes of denials. -/
  failurePolicy : FailurePolicy := .default
  /-- The settings of logging. -/
  logging : LoggingConfig := {}
  /-- The attributes that markers require. -/
  requirements : List Requirement := []
  /-- Free-form entries, in normal form. -/
  extra : Members := []
  deriving DecidableEq, Inhabited

/-! ### JSON forms -/

instance : Codec LoggingConfig where
  encode c := .obj [("enabled", encode c.enabled), ("level", encode c.level)]
  decode? j := do
    let r ← record? ["enabled", "level"] j
    return {
      enabled := ← r.default? "enabled" true
      level := ← r.default? "level" LogLevel.default }

namespace Config

/-- The names of the settings in JSON. -/
def fieldNames : List String :=
  ["root_marker", "failure_policy", "logging", "structural_requirements", "extra"]

instance : Codec Config where
  encode c := .obj [
    ("root_marker", encode c.rootMarker),
    ("failure_policy", encode c.failurePolicy),
    ("logging", encode c.logging),
    ("structural_requirements", encode c.requirements),
    ("extra", .obj c.extra)]
  decode? j := do
    let r ← record? fieldNames j
    return {
      rootMarker := ← r.default? "root_marker" "Resource"
      failurePolicy := ← r.default? "failure_policy" FailurePolicy.default
      logging := ← r.default? "logging" {}
      requirements := ← r.default? "structural_requirements" []
      extra := ← r.defaultBy? members? "extra" [] }

/-- Reads a configuration from a JSON text. -/
def ofText? (text : String) : Option Config :=
  Json.read? text >>= decode?

end Config

/-! ### Validity -/

/-- What makes a configuration invalid. -/
inductive ConfigDefect where
  /-- The root marker is blank. -/
  | blankRoot
  /-- The field of a requirement on the marker is blank. -/
  | blankField (marker : TypeKey)
  deriving DecidableEq

/-- The wording of a defect. -/
def ConfigDefect.message : ConfigDefect → String
  | blankRoot => "Root marker cannot be empty"
  | blankField marker => s!"Structural requirement for {marker} names no field"

/-- Why a configuration cannot be had. -/
inductive ConfigFault where
  /-- The configuration is invalid. -/
  | invalid (defect : ConfigDefect)
  /-- The content of the file is no configuration. -/
  | malformed (path : String)
  /-- The file cannot be read as text. -/
  | unreadable (path : String)
  deriving DecidableEq

/-- The wording of a fault. -/
def ConfigFault.message : ConfigFault → String
  | invalid defect => s!"Invalid configuration: {defect.message}"
  | malformed path => s!"Failed to parse configuration file: {path}"
  | unreadable path => s!"Failed to read configuration file: {path}"

namespace Config

variable (c : Config)

/-- The first defect of the configuration. -/
def defect? : Option ConfigDefect :=
  if Text.isBlank c.rootMarker then some .blankRoot
  else (c.requirements.find? fun q => Text.isBlank q.field).map fun q => .blankField q.marker

/-- Makes sure that the configuration is valid. -/
def validate : Except ConfigFault Unit :=
  match c.defect? with
  | some defect => .error (.invalid defect)
  | none => .ok ()

/-! ### Loading -/

/-- What is found under the path of a configuration file. -/
inductive File where
  /-- Nothing. -/
  | absent
  /-- Something that has no content, such as a directory. -/
  | unreadable
  /-- A file. -/
  | content (bytes : ByteArray)

/-- Loads a configuration from a file. -/
def load (path : String) : File → Except ConfigFault Config
  | .absent => .ok {}
  | .unreadable => .error (.unreadable path)
  | .content bytes =>
    match String.fromUTF8? bytes with
    | none => .error (.unreadable path)
    | some text =>
      match ofText? text with
      | none => .error (.malformed path)
      | some c => do
        c.validate
        return c

/-- The configuration that is used where no file is given. -/
def loadDefault : Except ConfigFault Config := do
  let c : Config := {}
  c.validate
  return c

/-! ### Merging -/

/-- Adds the requirements that are not among the first ones, each once. -/
def addRequirements (qs new : List Requirement) : List Requirement :=
  new.foldl (fun qs q => if qs.contains q then qs else qs ++ [q]) qs

/-- The configuration overlaid by another. -/
def merge (other : Config) : Config where
  rootMarker := other.rootMarker
  failurePolicy := other.failurePolicy
  logging := other.logging
  requirements := addRequirements c.requirements other.requirements
  extra := c.extra.setAll other.extra

end Config

end Lineage
