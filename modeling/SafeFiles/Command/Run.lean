import SafeFiles.Command.Basic
import SafeFiles.Config.File
import SafeFiles.Disposal
import SafeFiles.Job
import SafeFiles.Save
import SafeFiles.Tree.Listing

/-!
# Running a command

A run loads the configuration, lets the arguments override it, checks it, starts
the log and does what the command asks for. It gives lines of output, lines of
complaint, an exit code and the world as it then is.
-/

namespace SafeFiles

/-- A run under way. -/
structure Run where
  session : Session
  /-- The trash that the platform offers. -/
  trash? : Option Trash := Trash.ofPlatform?
  out : List String := []
  err : List String := []
  /-- The level of the log and how long the history was when it started. -/
  log : Option (LogLevel × Nat) := none

/-- How a run ends: an exit code, or a report of what went wrong. -/
abbrev RunResult := Except Report Nat × Run

namespace Run

def say (r : Run) (line : String) : Run := { r with out := r.out ++ [line] }

def inform (r : Run) (line : String) : Run := r.say s!"info: {line}"

def succeed (r : Run) (line : String) : Run := r.say s!"ok: {line}"

def warn (r : Run) (line : String) : Run := { r with err := r.err ++ [s!"warn: {line}"] }

def withSession (r : Run) (s : Session) : Run := { r with session := s }

def disk (r : Run) : Disk := r.session.disk

def env (r : Run) : Environment := r.session.world.env

/-- The records that the log tells: those after its start that its level lets through. -/
def told (r : Run) : List Record :=
  match r.log with
  | none => []
  | some (level, start) =>
    (r.session.history.drop start).filterMap fun
      | .logged record => if level.tells record.severity then some record else none
      | _ => none

/-- End with a report of nothing but a text. -/
def refuse (r : Run) (text : String) : RunResult := (.error (.ofText text), r)

end Run

namespace Arguments

def override (a : Arguments) (config : Config) : Config :=
  { config with
    logLevel := a.level?.getD config.logLevel
    logFile := a.logFile.or config.logFile }

-- ---------------------------------------------------------------------------
-- Housekeeping
-- ---------------------------------------------------------------------------

/-- Say which configuration file is meant. -/
def locate (a : Arguments) (r : Run) : Run :=
  match a.config, r.env.var? Location.configVariable with
  | some p, _ => r.inform s!"config (from --config): {shown p}"
  | none, some p => r.inform s!"config (from {Location.configVariable}): {shown p}"
  | none, none =>
    match Location.config? r.env r.disk with
    | some p => r.inform s!"config (default): {shown p}"
    | none => r.warn "no default config location on this system"

def describe (config : Config) (r : Run) : Run :=
  let log := (config.logFile.map shown).getD "<none>"
  (((r.say s!"log_level = {shown config.logLevel.name}").say s!"log_file = {log}").say
    s!"use_trash = {config.useTrash}").say s!"durability = {shown config.durability.name}"

def runPrintConfig (a : Arguments) (r : Run) : RunResult :=
  let r := a.locate r
  match Config.load r.env r.disk a.config with
  | .error report => (.error report, r)
  | .ok loaded =>
    let r := if loaded.source.isSome then r
      else r.inform "no config file found; using defaults (create one with --init-config)"
    (.ok 0, describe (a.override loaded.config) r)

def runInitConfig (a : Arguments) (r : Run) : RunResult :=
  match a.config.or (Location.config? r.env r.disk) with
  | none => r.refuse "cannot determine a config location; pass --config FILE"
  | some p =>
    match Config.createTemplate r.session p with
    | (.error report, s) => (.error report, r.withSession s)
    | (.ok (), s) => (.ok 0, (r.withSession s).succeed s!"template config written to {shown p}")

-- ---------------------------------------------------------------------------
-- The log
-- ---------------------------------------------------------------------------

/-- Open the log file, or say why not. -/
def openLogFile (p : Path) (r : Run) : Bool × Run :=
  match r.disk.throughLink p with
  | .error f => (false, r.warn s!"cannot check log path {shown p}: {f.text}")
  | .ok true =>
    (false, r.warn s!"refusing file logging: an ancestor of {shown p} is a symlink")
  | .ok false =>
    match r.disk.openLog p with
    | (.ok _, d) => (true, r.withSession (r.session.withDisk d))
    | (.error f, d) =>
      (false, (r.withSession (r.session.withDisk d)).warn
        s!"cannot open log file {shown p}: {f.text}")

def startLog (config : Config) (r : Run) : Run :=
  let r := match config.logFile with
    | none => r
    | some p =>
      match openLogFile p r with
      | (true, r) => r
      | (false, r) =>
        match Location.log? r.env with
        | none => r
        | some place => r.warn ("file logging disabled; logs go to stderr only (default log path: " ++
            shown place ++ ")")
  let r := { r with log := some (config.logLevel, r.session.history.length) }
  r.withSession (r.session.log .debug "starting fs_guard" [])

/-- Record why a command failed. A typed failure is recorded with its code and kind. -/
def logFailure (report : Report) (s : Session) : Session :=
  match report.failure? with
  | some f =>
    s.log .error "command failed" [("code", .number f.code), Record.text "kind" f.kind.toList,
      Record.text "error" f.message.toList]
  | none => s.log .error "command failed" [Record.text "error" report.chain.toList]

end Arguments

-- ---------------------------------------------------------------------------
-- Commands
-- ---------------------------------------------------------------------------

namespace Command

def mover (config : Config) : Mover := { lockers := .idle, durability := config.durability }

def runMove (config : Config) (src dst : Path) (r : Run) : RunResult :=
  if !r.disk.occupied src then r.refuse s!"source '{shown src}' does not exist"
  else
    match (mover config).move r.session src dst with
    | (false, s) => (r.withSession s).refuse s!"could not move '{shown src}' to '{shown dst}'"
    | (true, s) =>
      let s := s.log .info "move completed" [Record.text "src" src, Record.text "dst" dst]
      (.ok 0, (r.withSession s).succeed s!"moved {shown src} -> {shown dst}")

def input (stdin : Bytes) (source : Option Path) (d : Disk) : Except Report Bytes :=
  match source with
  | none => .ok stdin
  | some p => (d.read p).mapError fun f => (Report.ofFault f).within s!"read input '{shown p}'"

def runSave (config : Config) (folder : Path) (name : Text) (source : Option Path) (stdin : Bytes)
    (r : Run) : RunResult :=
  match input stdin source r.disk with
  | .error report => (.error report, r)
  | .ok bytes =>
    let save : Save := ⟨folder, name, bytes⟩
    match save.run (mover config) r.session with
    | (false, s) =>
      (r.withSession s).refuse s!"could not save verified data to '{shown save.target}'"
    | (true, s) =>
      (.ok 0, (r.withSession s).succeed s!"saved {bytes.length} bytes to {shown save.target}")

/-- The tree is copied by a job that nobody cancels. -/
def runCopyTree (src dst : Path) (r : Run) : RunResult :=
  let job := (r.session.copyTreeJob src dst).wait
  let r := r.withSession job.state
  match job.heard with
  | [.success ()] => (.ok 0, r.succeed s!"copied {shown src} -> {shown dst}")
  | [.failure report] => (.error report, r)
  | [.cancelled] => (.error (.ofFailure .cancelled), r)
  | [.interrupted] => (.error (.ofFailure .interrupted), r)
  | _ => r.refuse "copy job vanished without reporting"

/-- The switches of the command win over the configuration. -/
def wantsTrash (trash noTrash : Bool) (config : Config) : Bool :=
  trash || (!noTrash && config.useTrash)

def runDelete (config : Config) (p : Path) (trash noTrash : Bool) (r : Run) : RunResult :=
  let useTrash := wantsTrash trash noTrash config
  if !r.disk.occupied p then r.refuse s!"nothing at '{shown p}'"
  else
    match r.session.dispose r.trash? p useTrash with
    | (.error f, s) => (.error (.ofFailure f), r.withSession s)
    | (.ok false, s) => (r.withSession s).refuse s!"could not fully remove '{shown p}'"
    | (.ok true, s) =>
      let how := if useTrash then "trashed" else "deleted"
      (.ok 0, (r.withSession s).succeed s!"{how} {shown p}")

def runSize (p : Path) (r : Run) : RunResult :=
  if !r.disk.there p then r.refuse s!"nothing at '{shown p}'"
  else (.ok 0, r.say s!"{r.disk.totalSize p}")

/-- Record the folders that a listing met again. -/
def logRepeated (l : Listing) (s : Session) : Session :=
  l.repeated.foldl (fun s p => s.log .trace "already listed; skipping" [Record.text "dir" p]) s

def runList (root : Path) (extensions : List Text) (r : Run) : RunResult :=
  if !r.disk.isFolder root then r.refuse s!"'{shown root}' is not a directory"
  else
    let listing := r.disk.listTree root extensions
    let r := r.withSession (logRepeated listing r.session)
    (.ok 0, listing.files.foldl (fun r p => r.say (shown p)) r)

/-- Paths that do not conflict end the run with code 1. -/
def runConflicts (a b : Path) (r : Run) : RunResult :=
  let s := if a.same b then r.session
    else logRepeated (r.disk.listTree b []) (logRepeated (r.disk.listTree a []) r.session)
  if r.disk.conflicts a b then (.ok 0, (r.withSession s).say "conflict")
  else (.ok 1, (r.withSession s).say "no conflict")

def runCheck (parent child : Path) (r : Run) : RunResult :=
  let r := r.say s!"ancestor = {parent.isAncestor child}"
  let r := r.withSession (r.session.noteContainment parent child)
  match r.disk.isImmediateParent parent child with
  | .error f => (.error (.ofFailure f), r)
  | .ok immediate =>
    let r := r.say s!"immediate_parent = {immediate}"
    match r.disk.isContained parent child with
    | .error f => (.error (.ofFailure f), r)
    | .ok contained => (.ok 0, r.say s!"contained = {contained}")

def run (config : Config) (stdin : Bytes) (command : Command) (r : Run) : RunResult :=
  match command with
  | .move src dst => runMove config src dst r
  | .save folder name source => runSave config folder name source stdin r
  | .copyTree src dst => runCopyTree src dst r
  | .delete p trash noTrash => runDelete config p trash noTrash r
  | .size p => runSize p r
  | .list root extensions => runList root extensions r
  | .conflicts a b => runConflicts a b r
  | .check parent child => runCheck parent child r

end Command

namespace Arguments

def runCommand (a : Arguments) (stdin : Bytes) (r : Run) : RunResult :=
  match Config.load r.env r.disk a.config with
  | .error report => (.error report, r)
  | .ok loaded =>
    let config := a.override loaded.config
    match config.validate r.disk r.trash?.isSome with
    | .error report => (.error report, r)
    | .ok () =>
      let r := startLog config r
      match a.command with
      | none => r.refuse "no command given (try --help)"
      | some command =>
        match command.run config stdin r with
        | (.error report, r) => (.error report, r.withSession (logFailure report r.session))
        | done => done

def run (a : Arguments) (stdin : Bytes) (r : Run) : RunResult :=
  if a.printConfig then a.runPrintConfig r
  else if a.initConfig then a.runInitConfig r
  else a.runCommand stdin r

/-- The exit code of a report: that of a typed failure, and otherwise 2. -/
def exitCode (report : Report) : Nat :=
  match report.failure? with
  | some f => f.code
  | none => 2

/-- The exit code with the finished run, which complains of what went wrong. -/
def complete : RunResult → Nat × Run
  | (.ok code, r) => (code, r)
  | (.error report, r) => (exitCode report, { r with err := r.err ++ [s!"error: {report.chain}"] })

def finish (a : Arguments) (stdin : Bytes) (s : Session) : Nat × Run :=
  complete (a.run stdin { session := s })

end Arguments

-- ---------------------------------------------------------------------------
-- Lines for a halt
-- ---------------------------------------------------------------------------

def versionLine : String := "fs_guard 1.0.0"

def helpLine : String :=
  "fs_guard [OPTIONS] move|save|copy-tree|delete|size|list|conflicts|check [ARGUMENTS]"

def usageLine : String := "error: the arguments were not understood (try --help)"

end SafeFiles
