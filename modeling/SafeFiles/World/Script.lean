import SafeFiles.Disk.Content
import SafeFiles.World.Basic

/-!
# Scripts

Simple actions on a world, and lockers that follow a script: on each call such a
locker performs its next actions and gives its next answer.
-/

namespace SafeFiles

inductive Action where
  | folder (path : Path)
  | file (path : Path) (bytes : Bytes)
  | link (path : Path) (target : Path)
  | hardLink (path : Path) (existing : Path)
  | setMode (path : Path) (mode : Mode)
  | remove (path : Path)
  | variable (name : Text) (value : Option Text)
  | register (id : LockerId)
  | unregister (id : LockerId)
  deriving DecidableEq, Repr

namespace Disk

def withParents (d : Disk) (p : Path) : Disk :=
  match p.parent? with
  | some parent => (d.makeFolders parent).2
  | none => d

/-- Remove a leaf, or a folder with everything in it. Links are not followed. -/
def removeAll (d : Disk) (p : Path) : Disk :=
  match d.lstat p with
  | .ok (n :: rest) => { d with items := d.items.filter fun entry => !((n :: rest).isPrefixOf entry.1) }
  | _ => d

def attempt (d : Disk) (result : Except Fault Disk) : Disk :=
  match result with
  | .ok after => after
  | .error _ => d

end Disk

namespace Action

/-- The action on the disk; one that fails changes nothing but the parents it made. -/
def onDisk (a : Action) (d : Disk) : Disk :=
  match a with
  | .folder p => (d.makeFolders p).2
  | .file p bytes => let d := d.withParents p; d.attempt (d.write p bytes)
  | .link p target => let d := d.withParents p; d.attempt (d.makeLink target p)
  | .hardLink p existing => d.attempt (d.hardLink existing p)
  | .setMode p mode => d.attempt (d.setMode p mode)
  | .remove p => d.removeAll p
  | .variable _ _ | .register _ | .unregister _ => d

def perform (a : Action) (w : World) : World :=
  match a with
  | .variable name (some value) => { w with env := w.env.set name value }
  | .variable name none => { w with env := w.env.erase name }
  | .register id => { w with registry := (w.registry.add id).2 }
  | .unregister id => { w with registry := (w.registry.remove id).2 }
  | a => { w with disk := a.onDisk w.disk }

def performAll (actions : List Action) (w : World) : World :=
  actions.foldl (fun w a => a.perform w) w

end Action

/-- What a scripted locker does and answers, call by call. The last answer stays. -/
structure Script where
  answers : List Bool
  acts : List (List Action)
  deriving DecidableEq, Repr

namespace Script

def answer (s : Script) (call : Nat) : Bool :=
  (s.answers[call]?.or s.answers.getLast?).getD false

def actions (s : Script) (call : Nat) : List Action := s.acts[call]?.getD []

end Script

end SafeFiles
