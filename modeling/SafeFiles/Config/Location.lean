import SafeFiles.Disk.Calls
import SafeFiles.Environment

/-!
# Where files of the program go

The configuration file and the suggested log file stand in the folders of the
user; a variable may name another configuration file. `throughLink` is the check
that comes before files are written below a path that somebody else chose.
-/

namespace SafeFiles

namespace Location

def configVariable : String := "FS_GUARD_CONFIG"

def programFolder : Name := "fs_guard".toList

def configFile : Name := "config.xml".toList

def logFile : Name := "fs_guard.log".toList

/-- The home variable as it is, be it empty. -/
def bareHome? (env : Environment) : Option Path := env.var? "HOME"

/-- A configuration named by the variable: relative to the working folder, and inside it if it is a
folder. -/
def named (d : Disk) (value : Path) : Path :=
  let p := if value.isAbsolute then value else d.cwdPath.join value
  if d.isFolder p then p.join configFile else p

def config? (env : Environment) (d : Disk) : Option Path :=
  match env.var? configVariable with
  -- An empty variable counts as unset.
  | some (c :: rest) => some (named d (c :: rest))
  | _ =>
    let folder := env.configFolder?.or ((bareHome? env).map (Path.join · ".config".toList))
    folder.map fun folder => (folder.join programFolder).join configFile

def log? (env : Environment) : Option Path :=
  let folder := env.dataFolder?.or
    ((bareHome? env).map fun home => (Path.join home ".local".toList).join "share".toList)
  folder.map fun folder => (folder.join programFolder).join logFile

end Location

namespace Disk

/-- True if one of the paths is a link; those that lead nowhere do not count. -/
def anyLink (d : Disk) : List Path → Except Fault Bool
  | [] => .ok false
  | [] :: rest => anyLink d rest
  | p :: rest =>
    match d.lstat p with
    | .ok place => if d.isLinkAt place then .ok true else anyLink d rest
    | .error f => if f.isNotFound then anyLink d rest else .error f

/-- True if a path above `p`, as its text goes, is a link. -/
def throughLink (d : Disk) (p : Path) : Except Fault Bool := d.anyLink p.properAncestors

end Disk

end SafeFiles
