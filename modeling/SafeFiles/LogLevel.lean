import SafeFiles.Keyword

/-!
# Log levels

How much a run tells, as the user chooses it, and how severe a line of the log
must be to be told.
-/

namespace SafeFiles

inductive Severity where
  | error
  | warn
  | info
  | debug
  | trace
  deriving DecidableEq, Repr

namespace Severity

/-- The most severe comes first. -/
def rank : Severity → Nat
  | .error => 0
  | .warn => 1
  | .info => 2
  | .debug => 3
  | .trace => 4

def name : Severity → String
  | .error => "ERROR"
  | .warn => "WARN"
  | .info => "INFO"
  | .debug => "DEBUG"
  | .trace => "TRACE"

end Severity

inductive LogLevel where
  | quiet
  | normal
  | info
  | debug
  deriving DecidableEq, Repr, Inhabited

namespace LogLevel

def standard : LogLevel := .normal

def spellings : List (Text × LogLevel) := [
  ("quiet".toList, .quiet), ("error".toList, .quiet), ("none".toList, .quiet),
  ("normal".toList, .normal),
  ("info".toList, .info), ("verbose".toList, .info),
  ("debug".toList, .debug), ("trace".toList, .debug)]

def parse? (t : Text) : Option LogLevel := Keyword.find? spellings t

def name : LogLevel → Text
  | .quiet => "quiet".toList
  | .normal => "normal".toList
  | .info => "info".toList
  | .debug => "debug".toList

def refusal (t : Text) : String := s!"invalid log level: '{shown t}'"

/-- The least severe lines that are still told. -/
def threshold : LogLevel → Severity
  | .quiet => .error
  | .normal => .info
  | .info => .debug
  | .debug => .trace

def tells (level : LogLevel) (severity : Severity) : Bool :=
  severity.rank ≤ level.threshold.rank

end LogLevel

end SafeFiles
