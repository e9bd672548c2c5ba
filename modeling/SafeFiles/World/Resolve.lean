import SafeFiles.Canonical
import SafeFiles.World.Basic

/-!
# Resolving in a session

The canonical form of a path, with a record if the path was resolved through an
ancestor because it leads nowhere itself.
-/

namespace SafeFiles

namespace Session

def noteResolution (s : Session) (p : Path) : Session :=
  if s.disk.isThroughAncestor p then
    s.log .trace "resolved through existing ancestor" [Record.text "path" p]
  else s

def canonicalize (s : Session) (p : Path) : Except Failure Path × Session :=
  (s.disk.canonicalize p, s.noteResolution p)

@[simp] theorem disk_noteResolution (s : Session) (p : Path) : (s.noteResolution p).disk = s.disk := by
  unfold noteResolution
  split <;> rfl

/-- Both paths of a question about containment, as far as they are looked at. -/
def noteContainment (s : Session) (parent child : Path) : Session :=
  let s := s.noteResolution parent
  match s.disk.canonicalize parent, s.disk.parentPath child with
  | .ok _, .ok folder => s.noteResolution folder
  | _, _ => s

end Session

end SafeFiles
