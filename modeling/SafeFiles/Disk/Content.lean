import SafeFiles.Disk.Calls
import SafeFiles.Durability

/-!
# Content

Opening, reading and writing what stands at a path. A read may run on for ever
(the zero device), so it always names how much it wants.
-/

namespace SafeFiles

/-- What an opened entry yields when it is read. -/
inductive Source where
  | data (bytes : Bytes)
  | zeros
  | refused (error : Errno)
  deriving DecidableEq, Repr

namespace Source

def take : Source → Nat → Bytes
  | .data bytes, n => bytes.take n
  | .zeros, n => List.replicate n 0
  | .refused _, _ => []

end Source

namespace Disk

def sourceAt (d : Disk) (place : Place) : Source :=
  match d.node? place with
  | none => .refused .isFolder
  | some (.file _ bytes) => .data bytes
  | some (.kernel _ bytes) => .data bytes
  | some (.link _) => .refused .linkLoop
  | some (.device .null) => .data []
  | some (.device _) => .zeros

/-- All bytes of what a path leads to. Nothing ends a read of the zero device, so it is refused here. -/
def read (d : Disk) (p : Path) : Except Fault Bytes := do
  match d.sourceAt (← d.stat p) with
  | .data bytes => .ok bytes
  | .zeros => .error (.bare .outOfMemory)
  | .refused e => .error (.system e)

def readText (d : Disk) (p : Path) : Except Fault Text := do
  match Text.ofUtf8? (← d.read p) with
  | some text => .ok text
  | none => .error .notText

/-- How a path is opened for writing. -/
structure Opening where
  truncate : Bool
  /-- Permission bits of a file that has to be made. -/
  mode : Mode := newFileMode
  deriving DecidableEq, Repr

/-- Open for writing: the place of an existing leaf, or of a new empty file. -/
def openWrite (d : Disk) (p : Path) (opening : Opening) : Except Fault (Place × Disk) := do
  match ← d.locate .create p with
  | .free folder n => .ok (folder ++ [n], d.addNode (folder ++ [n]) (.file opening.mode []))
  | .found place =>
    match d.item? place with
    | some (.leaf id) =>
      match d.node id with
      | .file mode _ => .ok (place, if opening.truncate then d.setNode id (.file mode []) else d)
      | .kernel _ _ => .error (.system .denied)
      -- A device takes bytes but has nothing to truncate.
      | _ => .ok (place, d)
    | _ => .error (.system .isFolder)

/-- Make a new private file; an entry of any kind in its place refuses it. -/
def createNew (d : Disk) (p : Path) (mode : Mode) : Except Fault Disk := do
  match ← d.folderOf p with
  | (folder, .name n slash) =>
    if slash then .error (.system .isFolder)
    else match ← d.child folder n with
      | some _ => .error (.system .taken)
      | none => .ok (d.addNode (folder ++ [n]) (.file mode []))
  | _ => .error (.system .taken)

/-- Add bytes at the end of an opened leaf. -/
def append (d : Disk) (place : Place) (bytes : Bytes) : Except Errno Disk :=
  match d.item? place with
  | some (.leaf id) =>
    match d.node id with
    | .file mode old => .ok (d.setNode id (.file mode (old ++ bytes)))
    | .device .full => if bytes = [] then .ok d else .error .noSpace
    | .device _ => .ok d
    | _ => .error .denied
  | _ => .error .isFolder

/-- Replace the content of what a path leads to, or make a new file. -/
def write (d : Disk) (p : Path) (bytes : Bytes) : Except Fault Disk := do
  let (place, opened) ← d.openWrite p ⟨true, newFileMode⟩
  (opened.append place bytes).mapError .system

/-- Forcing bytes to the medium changes nothing that a later call can see. -/
def flush (d : Disk) : Durability → Disk
  | .data => d
  | .full => d

theorem flush_eq (d : Disk) (mode : Durability) : d.flush mode = d := by
  cases mode <;> rfl

end Disk

end SafeFiles
