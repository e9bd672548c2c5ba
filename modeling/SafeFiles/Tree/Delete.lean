import SafeFiles.World.Resolve

/-!
# Deleting a tree

Every child is resolved again before it is touched, and what resolves to a path
that does not start with the root's is left alone. Links are removed, never
followed. The first failure ends the deletion.
-/

namespace SafeFiles

namespace Session

/-- Take over the result of a removal. -/
def removed (s : Session) (p : Path) (result : Except Fault Disk) : Bool × Session :=
  match result with
  | .ok d => (true, (s.withDisk d).log .trace "removed" [Record.text "path" p])
  | .error _ => (false, s)

/-- Delete the children of the folder at `p` by their names, each resolved again first. -/
def deleteEach (root : Path) (delete : Path → Session → Bool × Session) (p : Path) :
    List Name → Session → Bool × Session
  | [], s => (true, s)
  | name :: names, s =>
    let child := p.join name
    match s.canonicalize child with
    | (.error _, s) => (false, s)
    | (.ok real, s) =>
      -- A link is resolved to its target here, so one that leads out stays.
      if !real.startsWithText root then
        deleteEach root delete p names
          (s.log .warn "delete: child resolves outside the tree; leaving it"
            [Record.text "path" child, Record.text "resolved" real, Record.text "root" root])
      else
        match delete child s with
        | (false, s) => (false, s)
        | (true, s) => deleteEach root delete p names s

/-- Delete what is at a path inside the tree whose root resolves to `root`. -/
def deleteWithin (root : Path) : Nat → Path → Session → Bool × Session
  | 0, _, s => (false, s)
  | depth + 1, p, s =>
    match s.disk.lstat p with
    | .error _ => (false, s)
    | .ok place =>
      if !s.disk.isFolderAt place then s.removed p (s.disk.unlink p)
      else
        match s.disk.list p with
        | .error _ => (false, s)
        | .ok (_, names) =>
          match deleteEach root (deleteWithin root depth) p names s with
          | (false, s) => (false, s)
          | (true, s) => s.removed p (s.disk.removeFolder p)

/-- Delete what is at a path, with everything in it. Every level makes paths longer, so their length bounds
the levels. -/
def deleteTree (s : Session) (p : Path) : Bool × Session :=
  match s.canonicalize p with
  | (.error _, s) => (false, s)
  | (.ok root, s) =>
    match deleteWithin root pathLimit p s with
    | (true, s) => (true, s.log .info "deleted" [Record.text "root" p])
    | (false, s) => (false, s)

end Session

end SafeFiles
