import SafeFiles.Mover

/-!
# Verified saves

Bytes are written to a temporary file, read back, and moved to their name only if
they are the bytes that were given. Until then nothing under that name changes,
and no temporary file is left whatever happens.
-/

namespace SafeFiles

namespace Disk

/-- All bytes of a file. Nothing if there are none, or if its reported length promises more than can be read. -/
def readFully (d : Disk) (p : Path) : Option Bytes :=
  match d.size p, d.read p with
  | .ok size, .ok bytes => if size = 0 ∨ bytes.length < size then none else some bytes
  | _, _ => none

end Disk

/-- How the bytes read back compare with the bytes given. -/
inductive Verdict where
  | same
  | different
  /-- Nothing could be read where something was expected. -/
  | unread
  /-- Nothing was expected, and that could not be confirmed. -/
  | notEmpty
  deriving DecidableEq, Repr

namespace Verdict

def complaint? : Verdict → Option String
  | .same => none
  | .different => some "save: read-back does not match; destination left untouched"
  | .unread => some "save: read-back failed; destination left untouched"
  | .notEmpty => some "save: empty payload did not verify"

end Verdict

/-- Bytes to be saved under a name in a folder. -/
structure Save where
  folder : Path
  name : Text
  data : Bytes

namespace Save

def target (save : Save) : Path := save.folder.join save.name

def verify (save : Save) (d : Disk) (temp : Path) : Verdict :=
  match d.readFully temp with
  | some bytes => if bytes = save.data then .same else .different
  | none =>
    if save.data ≠ [] then .unread
    else match d.size temp with
      | .ok 0 => .same
      | _ => .notEmpty

/-- Move the verified temporary file to its name. -/
def commit (save : Save) (m : Mover) (s : Session) (temp : Path) : Bool × Session :=
  match m.move s temp save.target with
  | (false, s) =>
    (false, (s.log .warn "save: verified data could not be moved into place"
      [Record.text "dest" save.target]))
  | (true, s) =>
    (true, s.log .info "saved and verified"
      [Record.text "dest" save.target, ("bytes", .number save.data.length)])

/-- Save, with a step between the write and the read-back. -/
def runWith (save : Save) (m : Mover) (hook : Path → Disk → Disk) (s : Session) : Bool × Session :=
  match Temp.reserve s.disk save.folder save.name with
  | .error _ => (false, s)
  | .ok (temp, reserved) =>
    match reserved.write temp save.data with
    | .error _ => (false, s.withDisk (Temp.discard reserved temp))
    | .ok written =>
      -- From here on the file is read anew: what was meant to be written does not count.
      let s := s.withDisk (hook temp (written.flush m.durability))
      match (save.verify s.disk temp).complaint? with
      | some complaint =>
        let s := s.log .warn complaint [Record.text "tmp" temp]
        (false, s.withDisk (Temp.discard s.disk temp))
      | none =>
        let (done, s) := save.commit m s temp
        (done, s.withDisk (Temp.discard s.disk temp))

/-- Save and say whether the bytes stand under their name. -/
def run (save : Save) (m : Mover) (s : Session) : Bool × Session :=
  save.runWith m (fun _ d => d) s

end Save

end SafeFiles
