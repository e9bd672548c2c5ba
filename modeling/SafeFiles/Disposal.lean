import SafeFiles.Tree.Delete

/-!
# Disposal

A path is disposed of by deleting it for good or by handing its canonical form to
a trash.
-/

namespace SafeFiles

/-- A place that takes what is thrown away. `discard` may answer that the item was left where it was. -/
structure Trash where
  name : Text
  discard : Path → Disk → Except Fault Bool × Disk

namespace Trash

/-- A trash that moves items into a folder. -/
def folder (bin : Path) : Trash where
  name := "folder".toList
  discard p d :=
    match p.fileName? with
    | none => (.error (.custom .other "no name"), d)
    | some n =>
      match d.rename p (bin.join n) with
      | .ok d => (.ok true, d)
      | .error f => (.error f, d)

/-- A trash that leaves everything where it is. -/
def lazy : Trash := ⟨"lazy".toList, fun _ d => (.ok false, d)⟩

def broken : Trash := ⟨"broken".toList, fun _ d => (.error (.custom .other "out of order"), d)⟩

/-- The trash that the platform offers: none. -/
def ofPlatform? : Option Trash := none

end Trash

namespace Session

/-- Hand a resolved path to a trash and tell how it went. -/
def handOver (s : Session) (trash : Trash) (target : Path) : Bool × Session :=
  let fields := [Record.text "path" target, Record.text "backend" trash.name]
  let s := s.note (.handedOver target)
  match trash.discard target s.disk with
  | (.ok true, d) => (true, (s.withDisk d).log .info "moved to trash" fields)
  | (.ok false, d) => (false, (s.withDisk d).log .warn "trash left the item in place" fields)
  | (.error f, d) =>
    (false, (s.withDisk d).log .error "trash failed" (fields ++ [Record.text "error" f.text.toList]))

/-- Dispose of a path; false if nothing is there or something is left. -/
def dispose (s : Session) (trash? : Option Trash) (p : Path) (useTrash : Bool) :
    Except Failure Bool × Session :=
  if !s.disk.occupied p then (.ok false, s)
  else if !useTrash then
    let (done, s) := s.deleteTree p
    (.ok done, s)
  else
    match trash? with
    | none => (.error .trashUnsupported, s)
    | some trash =>
      match s.canonicalize p with
      | (.ok target, s) =>
        let (done, s) := s.handOver trash target
        (.ok done, s)
      | (.error failure, s) =>
        let s := s.log .error "dispose: cannot resolve; using absolute path"
          [Record.text "path" p, Record.text "error" failure.message.toList]
        match s.disk.absolute p with
        | .error failure => (.error failure, s)
        | .ok target =>
          let (done, s) := s.handOver trash target
          (.ok done, s)

end Session

end SafeFiles
