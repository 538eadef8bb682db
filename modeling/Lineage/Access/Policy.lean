import Lineage.Fault

/-!
# Denials

A request that names attributes which the caller may not read is a denial. What
becomes of it is up to a handler, which may serve other attributes or fail. Two
policies are built in: the lenient one serves all that the caller may read, the
strict one fails and names the offenders.
-/

namespace Lineage

/-- A request for attributes that are unknown or not to be read. -/
structure Denial where
  /-- The type. -/
  typeKey : TypeKey
  /-- The caller. -/
  credential : Credential
  /-- The offending names, as requested. -/
  offenders : List String
  /-- All that the caller may read, in catalogue order. -/
  authorized : List String
  deriving DecidableEq

/-- Decides what becomes of a denial: the attributes to serve, or a fault. -/
abbrev DenialHandler := Denial → Except Fault (List String)

namespace DenialHandler

/-- Serves an account of the denial in place of attributes. -/
def report : DenialHandler := fun d =>
  .ok ([s!"type={d.typeKey}", s!"credential={d.credential}"] ++
    d.offenders.map (fun name => s!"offender={name}") ++
    d.authorized.map (fun name => s!"authorized={name}"))

/-- Fails with a text that names the offenders. -/
def reject : DenialHandler := fun d =>
  .error (.runtime ("rejected " ++ "|".intercalate d.offenders))

end DenialHandler

/-- The built-in policies. -/
inductive FailurePolicy where
  /-- Serves all that the caller may read. -/
  | lenient
  /-- Fails, naming the offenders. -/
  | strict
  deriving DecidableEq, Inhabited

namespace FailurePolicy

/-- The policy used where none is configured. -/
def default : FailurePolicy := lenient

/-- The word for the policy. -/
def word : FailurePolicy → String
  | lenient => "lenient"
  | strict => "strict"

instance : ToString FailurePolicy := ⟨word⟩

/-- The policies. -/
def all : List FailurePolicy := [lenient, strict]

/-- Reads the word for a policy, in letters of any case. Only the letters of
    ASCII have a lower case among these words. -/
def parse (text : String) : Except Fault FailurePolicy :=
  match text.toLower with
  | "lenient" => .ok lenient
  | "strict" => .ok strict
  | _ => .error (.runtime s!"Unknown failure policy: {text}")

/-- What the policy makes of a denial. -/
def handler : FailurePolicy → DenialHandler
  | lenient, d => .ok d.authorized
  | strict, d => .error (.access (.unauthorized d.typeKey d.credential d.offenders))

end FailurePolicy

end Lineage
