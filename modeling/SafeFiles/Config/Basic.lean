import SafeFiles.Durability
import SafeFiles.LogLevel
import SafeFiles.Path.Basic

/-!
# Configuration

The settings of a run.
-/

namespace SafeFiles

structure Config where
  logLevel : LogLevel := .standard
  /-- A log file beside the standard error stream. -/
  logFile : Option Path := none
  useTrash : Bool := false
  durability : Durability := .standard
  deriving DecidableEq, Repr

namespace Config

def standard : Config := {}

end Config

end SafeFiles
