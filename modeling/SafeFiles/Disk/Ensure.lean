import SafeFiles.Disk.Content
import SafeFiles.Report

/-!
# Making sure

Operations that bring about a state and do nothing where it already holds: a path
exists, a path is a folder, a path is writable.
-/

namespace SafeFiles

namespace Disk

/-- Make the folders above a path, as far as its text names any. -/
def ensureParent (d : Disk) (p : Path) : Except Report Unit × Disk :=
  match p.parent? with
  | none | some [] => (.ok (), d)
  | some parent =>
    match d.makeFolders parent with
    | (.ok (), d) => (.ok (), d)
    | (.error f, d) => (.error (.explained "create directory" parent f), d)

/-- Make an empty file, and the folders above it, unless something is there. -/
def touch (d : Disk) (p : Path) : Except Report Unit × Disk :=
  if d.there p then (.ok (), d)
  else
    match d.ensureParent p with
    | (.error r, d) => (.error r, d)
    | (.ok (), d) =>
      match d.openWrite p { truncate := false } with
      | .ok (_, d) => (.ok (), d)
      | .error f => (.error (.explained "create file" p f), d)

def ensureFolder (d : Disk) (p : Path) : Except Report Unit × Disk :=
  if d.isFolder p then (.ok (), d)
  else if d.there p then (.error (.ofText s!"'{shown p}' exists and is not a directory"), d)
  else
    match d.makeFolders p with
    | (.ok (), d) => (.ok (), d)
    | (.error f, d) => (.error (.explained "create directory" p f), d)

/-- The bits that let the owner write, and enter a folder. -/
def ownerBits (d : Disk) (place : Place) : Mode :=
  if d.isFolderAt place then 0o300 else 0o200

/-- Let the owner write. True if that holds afterwards; a missing path counts as writable. -/
def ensureWritable (d : Disk) (p : Path) : Bool × Disk :=
  match d.stat p with
  | .error _ => (!d.there p, d)
  | .ok place =>
    let mode := d.modeAt place
    let wanted := d.ownerBits place
    if mode &&& wanted = wanted then (true, d)
    else
      match d.setMode p (mode ||| wanted) with
      | .error _ => (false, d)
      -- Anybody's right to write is enough here.
      | .ok after => (after.modeAt place &&& 0o222 ≠ 0, after)

end Disk

end SafeFiles
