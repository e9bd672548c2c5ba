import SafeFiles.Copy
import SafeFiles.Temp
import SafeFiles.World.Locker

/-!
# Forced moves

A move first renames. If that is refused, the registered lockers are asked, one
after the other, to let go of the source, and each release is followed by another
rename. At last a regular file is copied beside the destination, the copy renamed
onto it and the source removed.
-/

namespace SafeFiles

structure Mover where
  lockers : Lockers
  /-- Renames that are refused for reasons outside the disk. A refused rename has no effect. -/
  refusal : Session → Path → Path → Option Fault := fun _ _ _ => none
  durability : Durability := .standard

namespace Mover

/-- The outcome of a rename, before it is noted. -/
def attempt (m : Mover) (s : Session) (src dst : Path) : Except Fault Disk :=
  match m.refusal s src dst with
  | some f => .error f
  | none => s.disk.rename src dst

def rename (m : Mover) (s : Session) (src dst : Path) : Bool × Session :=
  match m.attempt s src dst with
  | .ok d => (true, (s.withDisk d).note (.renamed src dst true))
  | .error _ => (false, s.note (.renamed src dst false))

/-- Ask the lockers in turn, and try the rename again after each release. -/
def askEach (m : Mover) (src dst : Path) : List LockerId → Session → Bool × Session
  | [], s => (false, s)
  | id :: others, s =>
    match s.ask m.lockers id src with
    | (false, s) => askEach m src dst others s
    | (true, s) =>
      match m.rename s src dst with
      | (true, s) =>
        (true, s.log .info "renamed after lock release" [Record.text "src" src, Record.text "dst" dst])
      | (false, s) => askEach m src dst others s

def removeSource (s : Session) (src : Path) : Session :=
  match s.disk.unlink src with
  | .ok d => s.withDisk d
  | .error f =>
    s.log .warn "copied to destination but could not remove source"
      [Record.text "src" src, Record.text "error" f.text.toList]

def stem (dst : Path) : Text := dst.fileName?.getD "move".toList

/-- Copy beside the destination, rename the copy onto it, remove the source. -/
def copyThenRemove (m : Mover) (s : Session) (src dst : Path) : Bool × Session :=
  if !s.disk.isFile src then (false, s)
  else
    match Temp.reserve s.disk dst.folderPart (stem dst) with
    | .error _ => (false, s)
    | .ok (temp, reserved) =>
      match reserved.copyFile src temp m.durability with
      | (false, d) => (false, s.withDisk (Temp.discard d temp))
      | (true, d) =>
        match m.rename (s.withDisk d) temp dst with
        | (false, s) => (false, s.withDisk (Temp.discard s.disk temp))
        | (true, s) =>
          (true, (removeSource s src).log .info "moved by copy and delete"
            [Record.text "src" src, Record.text "dst" dst])

/-- Move `src` onto `dst`. The lockers are those registered when the first rename is refused. -/
def move (m : Mover) (s : Session) (src dst : Path) : Bool × Session :=
  match m.rename s src dst with
  | (true, s) => (true, s)
  | (false, s) =>
    -- The ids are read once; what lockers do to the registry has no effect on this move.
    match m.askEach src dst s.world.registry.ids s with
    | (true, s) => (true, s)
    | (false, s) =>
      match m.copyThenRemove s src dst with
      | (true, s) => (true, s)
      | (false, s) =>
        (false, s.log .warn "move failed: rename, lock release and copy all exhausted"
          [Record.text "src" src, Record.text "dst" dst])

end Mover

end SafeFiles
