/-!
# Log levels

The levels at which events are logged, of increasing severity, and the words
for them: a name, a filter directive and the word read back from text.
-/

namespace Lineage

/-- The severity of a logged event. -/
inductive LogLevel where
  | trace
  | debug
  | info
  | warning
  | error
  deriving DecidableEq, Inhabited

namespace LogLevel

/-- The levels, of increasing severity. -/
def all : List LogLevel := [trace, debug, info, warning, error]

/-- The position of a level in order of severity. -/
def severity : LogLevel → Nat
  | trace => 0
  | debug => 1
  | info => 2
  | warning => 3
  | error => 4

/-- How many levels are at most as severe as this one. -/
def countUpTo (l : LogLevel) : Nat :=
  (all.filter fun m => m.severity ≤ l.severity).length

/-- The level used where none is configured. -/
def default : LogLevel := info

/-- The name of the level, as it stands in a log. -/
def name : LogLevel → String
  | trace => "TRACE"
  | debug => "DEBUG"
  | info => "INFO"
  | warning => "WARNING"
  | error => "ERROR"

/-- The word for the level in a filter directive. -/
def directive : LogLevel → String
  | trace => "trace"
  | debug => "debug"
  | info => "info"
  | warning => "warn"
  | error => "error"

/-- The name of the filter that lets the level and all more severe ones pass. -/
def filterName : LogLevel → String
  | trace => "TRACE"
  | debug => "DEBUG"
  | info => "INFO"
  | warning => "WARN"
  | error => "ERROR"

/-- The word for the level in a configuration. -/
def word : LogLevel → String
  | trace => "trace"
  | debug => "debug"
  | info => "info"
  | warning => "warning"
  | error => "error"

/-- Reads a level from its word or a short form of it, in letters of any case.
    Only the letters of ASCII have a lower case among these words, so no other
    case map matters here. -/
def parse? (text : String) : Option LogLevel :=
  match text.toLower with
  | "trace" => some trace
  | "debug" => some debug
  | "info" => some info
  | "warning" | "warn" => some warning
  | "error" | "err" => some error
  | _ => none

instance : ToString LogLevel := ⟨name⟩

end LogLevel

end Lineage
