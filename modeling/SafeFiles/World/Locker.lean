import SafeFiles.World.Script

/-!
# Lockers

A locker is asked to release a path. It may change the world before it answers,
but not the history. Whether it is registered is the registry's matter.
-/

namespace SafeFiles

/-- How each locker reacts to a request to release a path. -/
abbrev Lockers := LockerId → Path → Session → Bool × World

namespace Session

def timesAsked (s : Session) (id : LockerId) : Nat :=
  s.history.countP fun
    | .asked other _ _ => other = id
    | _ => false

/-- Ask a locker and note the answer. -/
def ask (s : Session) (lockers : Lockers) (id : LockerId) (p : Path) : Bool × Session :=
  let (answer, w) := lockers id p s
  (answer, (s.withWorld w).note (.asked id p answer))

end Session

namespace Lockers

/-- Nobody holds anything. -/
def idle : Lockers := fun _ _ s => (false, s.world)

/-- Lockers that follow scripts; calls are counted over the whole session. -/
def scripted (scripts : Table LockerId Script) : Lockers := fun id _ s =>
  match scripts.get? id with
  | some script =>
    (script.answer (s.timesAsked id), Action.performAll (script.actions (s.timesAsked id)) s.world)
  | none => (false, s.world)

/-- Lockers that leave the disk as it is. -/
def KeepDisk (lockers : Lockers) : Prop :=
  ∀ id p s, (lockers id p s).2.disk = s.disk

theorem keepDisk_idle : KeepDisk idle := fun _ _ _ => rfl

end Lockers

end SafeFiles
