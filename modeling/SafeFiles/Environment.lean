import SafeFiles.Disk.Content

/-!
# The environment

Variables, and the per-user folders that follow from them.
-/

namespace SafeFiles

abbrev Environment := Table Text Text

namespace Environment

def var? (env : Environment) (name : String) : Option Text := env.get? name.toList

def absoluteVar? (env : Environment) (name : String) : Option Path :=
  match env.var? name with
  | some value => if Path.isAbsolute value then some value else none
  | none => none

/-- An empty home is no home. -/
def home? (env : Environment) : Option Path :=
  match env.var? "HOME" with
  | some [] => none
  | other => other

def configFolder? (env : Environment) : Option Path :=
  match env.absoluteVar? "XDG_CONFIG_HOME" with
  | some folder => some folder
  | none => env.home?.map (Path.join · ".config".toList)

def dataFolder? (env : Environment) : Option Path :=
  match env.absoluteVar? "XDG_DATA_HOME" with
  | some folder => some folder
  | none => env.home?.map fun home => (Path.join home ".local".toList).join "share".toList

end Environment

end SafeFiles
