import SafeFiles.Disk.Calls
import SafeFiles.Environment
import SafeFiles.LogLevel
import SafeFiles.World.Registry

/-!
# The world and the session

A world is what an operation can change: the disk, the environment and the locker
registry. A session adds the history of what operations did, which only grows.
-/

namespace SafeFiles

structure World where
  disk : Disk
  env : Environment := []
  registry : Registry := .empty

inductive FieldValue where
  | text (t : Text)
  | number (n : Nat)
  deriving DecidableEq, Repr

/-- A line of the log. -/
structure Record where
  severity : Severity
  message : String
  fields : List (String × FieldValue) := []
  deriving DecidableEq, Repr

inductive Event where
  | asked (id : LockerId) (path : Path) (answer : Bool)
  | renamed (src dst : Path) (done : Bool)
  /-- A path was given to a trash. -/
  | handedOver (path : Path)
  | logged (record : Record)
  deriving DecidableEq, Repr

structure Session where
  world : World
  history : List Event := []

namespace Session

def disk (s : Session) : Disk := s.world.disk

def withWorld (s : Session) (w : World) : Session := { s with world := w }

def withDisk (s : Session) (d : Disk) : Session := { s with world := { s.world with disk := d } }

def note (s : Session) (e : Event) : Session := { s with history := s.history ++ [e] }

def log (s : Session) (severity : Severity) (message : String)
    (fields : List (String × FieldValue)) : Session :=
  s.note (.logged ⟨severity, message, fields⟩)

@[simp] theorem disk_withDisk (s : Session) (d : Disk) : (s.withDisk d).disk = d := rfl

@[simp] theorem disk_note (s : Session) (e : Event) : (s.note e).disk = s.disk := rfl

@[simp] theorem disk_log (s : Session) (severity : Severity) (message : String)
    (fields : List (String × FieldValue)) : (s.log severity message fields).disk = s.disk := rfl

/-- The records of a session, oldest first. -/
def records (s : Session) : List Record :=
  s.history.filterMap fun
    | .logged record => some record
    | _ => none

end Session

namespace FieldValue

def line : FieldValue → String
  | .text t => shown t
  | .number n => s!"{n}"

end FieldValue

namespace Record

/-- The value of a path or of another text. -/
def text (name : String) (t : Text) : String × FieldValue := (name, .text t)

/-- The record as a line for a reader. -/
def line (r : Record) : String :=
  " ".intercalate (r.severity.name :: r.message :: r.fields.map fun field =>
    s!"{field.1}={field.2.line}")

end Record

end SafeFiles
