import SafeFiles.Config.Document
import SafeFiles.Config.Location
import SafeFiles.Temp
import SafeFiles.World.Basic

/-!
# Configuration files

Reading a configuration, checking it against the disk, and writing a first one. A
configuration is written beside its place and renamed, so nobody sees half of it,
and only its owner can read it.
-/

namespace SafeFiles

namespace Config

/-- Read a configuration from a file that has to be there. -/
def ofFile (d : Disk) (p : Path) : Except Report Config :=
  match d.readText p with
  | .error f => .error ((Report.ofFault f).within s!"read config xml '{shown p}'")
  | .ok t => (parse t).mapError (·.within s!"parse config xml '{shown p}'")

/-- A configuration and the file it came from. -/
structure Loaded where
  config : Config
  source : Option Path
  deriving DecidableEq, Repr

/-- Read the file that is asked for, or else the one at the usual place if there is one. -/
def load (env : Environment) (d : Disk) (explicit : Option Path) : Except Report Loaded :=
  match explicit with
  | some p =>
    if d.there p then (ofFile d p).map (⟨·, some p⟩)
    else .error (.ofText s!"config file '{shown p}' does not exist")
  | none =>
    match Location.config? env d with
    | none => .ok ⟨.standard, none⟩
    | some p => if d.isFile p then (ofFile d p).map (⟨·, some p⟩) else .ok ⟨.standard, none⟩

-- ---------------------------------------------------------------------------
-- Checking
-- ---------------------------------------------------------------------------

def checkLogFile (d : Disk) (p : Path) : Except Report Unit :=
  match d.throughLink p with
  | .error f => .error (.ofFault f)
  | .ok true => .error (.ofText s!"log_file '{shown p}' has a symlinked ancestor; refusing")
  | .ok false =>
    match d.lstat p with
    | .error _ => .ok ()
    | .ok place =>
      if d.isLinkAt place then .error (.ofText s!"log_file '{shown p}' is a symlink; refusing")
      else if d.isFolderAt place then .error (.ofText s!"log_file '{shown p}' is a directory")
      else .ok ()

/-- Check a configuration against what the platform offers and the disk holds. -/
def validate (config : Config) (d : Disk) (hasTrash : Bool) : Except Report Unit :=
  if config.useTrash ∧ !hasTrash then
    .error (.ofText "use_trash is set but this platform has no trash facility")
  else
    match config.logFile with
    | none => .ok ()
    | some p => checkLogFile d p

-- ---------------------------------------------------------------------------
-- Writing
-- ---------------------------------------------------------------------------

def templateNotes : String :=
  "<!--\n  fs_guard configuration (XML)\n\n" ++
  "    log_level   -> quiet | normal | info | debug\n" ++
  "    log_file    -> optional log file; stderr is always used\n" ++
  "    use_trash   -> true to send deletions to the platform trash\n" ++
  "    durability  -> full (fsync) | data (flush only)\n\n" ++
  "  CLI flags override values here.\n-->\n"

/-- A document with the standard values and the suggested log file. -/
def template (env : Environment) : Text :=
  let log := (Location.log? env).getD "/path/to/fs_guard.log".toList
  templateNotes.toList ++ "<config>\n  <log_level>".toList ++ LogLevel.standard.name ++
    "</log_level>\n  <log_file>".toList ++ log ++
    "</log_file>\n  <use_trash>false</use_trash>\n  <durability>".toList ++
    Durability.standard.name ++ "</durability>\n</config>\n".toList

/-- The rename that puts a written file in its place. The name is handed to the system as it is, and the
system calls one with a NUL invalid. -/
def commit (d : Disk) (temp p : Path) : Except Fault Disk :=
  if p.hasNul then .error (.system .invalid) else d.rename temp p

/-- Put bytes at a path by a rename within a folder that is there. -/
def place (d : Disk) (parent p : Path) (bytes : Bytes) : Except Report Unit × Disk :=
  match Temp.reserve d parent "config".toList with
  | .error f => (.error ((Report.ofFault f).within s!"create temp in '{shown parent}'"), d)
  | .ok (temp, reserved) =>
    match reserved.write temp bytes with
    | .error f => (.error ((Report.ofFault f).within "write temp"), Temp.discard reserved temp)
    | .ok written =>
      match commit written temp p with
      | .ok after =>
        -- The folder is opened once more to be flushed, and its path may have led through what was replaced.
        match after.stat parent with
        | .ok _ => (.ok (), after)
        | .error f => (.error ((Report.ofFault f).within s!"open dir '{shown parent}'"), after)
      | .error f =>
        (.error ((Report.ofFault f).within s!"rename temp -> '{shown p}'"), Temp.discard written temp)

/-- Write a private file in one go, and make the folders above it. -/
def writeSecure (d : Disk) (p : Path) (bytes : Bytes) : Except Report Unit × Disk :=
  match p.parent? with
  | none | some [] =>
    (.error (.ofFault (.custom .invalidInput "config path has no parent")), d)
  | some parent =>
    match d.makeFolders parent with
    | (.error f, d) => (.error ((Report.ofFault f).within s!"create parent '{shown parent}'"), d)
    | (.ok (), d) => place d parent p bytes

/-- Write a first configuration, unless something is there or a folder on the way is a link. -/
def createTemplate (s : Session) (p : Path) : Except Report Unit × Session :=
  if s.disk.there p then (.error (.ofText s!"config file '{shown p}' already exists"), s)
  else
    match s.disk.throughLink p with
    | .error f => (.error (.ofFault f), s)
    | .ok true =>
      (.error (.ofText s!"refusing to create config: an ancestor of '{shown p}' is a symlink"), s)
    | .ok false =>
      match writeSecure s.disk p (Text.toUtf8 (template s.world.env)) with
      | (.error r, d) => (.error r, s.withDisk d)
      | (.ok (), d) => (.ok (), (s.withDisk d).log .info "created template config" [Record.text "path" p])

end Config

namespace Disk

/-- Open a log for adding to its end: the place of the file. A new log is for its owner alone. -/
def openLog (d : Disk) (p : Path) : Except Fault Place × Disk :=
  let d := match p.parent? with
    | some parent => (d.makeFolders parent).2
    | none => d
  match d.openWrite p { truncate := false, mode := privateFileMode } with
  | .ok (place, d) => (.ok place, d)
  | .error f => (.error f, d)

/-- Add bytes to a log. -/
def writeLog (d : Disk) (p : Path) (bytes : Bytes) : Except Fault Unit × Disk :=
  match d.openLog p with
  | (.error f, d) => (.error f, d)
  | (.ok place, d) =>
    match d.append place bytes with
    | .ok d => (.ok (), d)
    | .error e => (.error (.system e), d)

end Disk

end SafeFiles
