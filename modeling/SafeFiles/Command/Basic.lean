import SafeFiles.LogLevel
import SafeFiles.Path.Basic

/-!
# Commands

What a command line asks for.
-/

namespace SafeFiles

inductive Command where
  | move (src dst : Path)
  /-- Without an input file the bytes come from the standard input. -/
  | save (folder : Path) (name : Text) (input : Option Path)
  | copyTree (src dst : Path)
  | delete (path : Path) (trash noTrash : Bool)
  | size (path : Path)
  | list (root : Path) (extensions : List Text)
  | conflicts (a b : Path)
  | check (parent child : Path)
  deriving DecidableEq, Repr

/-- A command with the settings that go with it. -/
structure Arguments where
  config : Option Path := none
  logLevel : Option LogLevel := none
  debug : Bool := false
  logFile : Option Path := none
  json : Bool := false
  printConfig : Bool := false
  initConfig : Bool := false
  command : Option Command := none
  deriving DecidableEq, Repr

namespace Arguments

/-- The level that the arguments ask for. Debugging wins over a named level. -/
def level? (a : Arguments) : Option LogLevel :=
  if a.debug then some .debug else a.logLevel

end Arguments

end SafeFiles
