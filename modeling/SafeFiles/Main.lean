import SafeFiles.Command.Parse
import SafeFiles.Command.Run

/-!
# The program

Runs one command line on a disk of its own that starts empty, prints the lines of
the run and ends with its exit code.
-/

open SafeFiles

/-- A disk with a home folder, and nothing else. -/
def freshDisk : Disk := (Disk.makeFolders ⟨[], [], []⟩ "/home".toList).2

def freshSession : Session where
  world := { disk := freshDisk, env := [("HOME".toList, "/home".toList)] }

/-- A save without an input file takes its bytes from the standard input. -/
def wantsInput (a : Arguments) : Bool :=
  match a.command with
  | some (.save _ _ none) => true
  | _ => false

partial def readAll (input : IO.FS.Stream) (got : Bytes) : IO Bytes := do
  let chunk ← input.read 65536
  if chunk.isEmpty then return got else readAll input (got ++ chunk.data.toList)

def main (args : List String) : IO UInt32 := do
  match Arguments.parse (args.map (·.toList)) with
  | .error .version => IO.println versionLine; return 0
  | .error .help => IO.println helpLine; return 0
  | .error .usage => IO.eprintln usageLine; return 2
  | .ok arguments =>
    let stdin ← if wantsInput arguments then readAll (← IO.getStdin) [] else pure []
    let (code, run) := arguments.finish stdin freshSession
    for record in run.told do IO.eprintln record.line
    for line in run.out do IO.println line
    for line in run.err do IO.eprintln line
    return code.toUInt32
