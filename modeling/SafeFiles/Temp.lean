import SafeFiles.Disk.Content

/-!
# Temporary files

A temporary file stands beside what it will replace, under a hidden name that
nothing else has. It is made for its owner alone, and its path is absolute.
-/

namespace SafeFiles

namespace Temp

/-- How many names are tried. -/
def tagLimit : Nat := 65536

/-- Six characters that tell the names of one stem apart. -/
def tag (n : Nat) : Text :=
  let digits := decimal n
  List.replicate (6 - digits.length) '0' ++ digits

def name (stem tag : Text) : Text :=
  ".fs_guard.".toList ++ stem ++ '.' :: tag ++ ".tmp".toList

/-- The folder in which a temporary file is made, as an absolute path. -/
def base (d : Disk) (folder : Path) : Path :=
  if folder.isAbsolute then folder else d.cwdPath.join folder

/-- Try the tags from `n` on, as long as names are taken. -/
def reserveFrom (d : Disk) (folder : Path) (stem : Text) (n : Nat) : Nat → Except Fault (Path × Disk)
  | 0 => .error (.custom .alreadyExists "too many temporary files exist")
  | tries + 1 =>
    let p := (base d folder).join (name stem (tag n))
    match d.createNew p privateFileMode with
    | .ok made => .ok (p, made)
    | .error f =>
      if f.kind = .alreadyExists then reserveFrom d folder stem (n + 1) tries
      else .error (.custom f.kind s!"{f.text} at path \"{shown p}\"")

/-- Make an empty temporary file for a stem; its path and the disk with it. A relative folder has no absolute
path once the working folder is gone. -/
def reserve (d : Disk) (folder : Path) (stem : Text) : Except Fault (Path × Disk) :=
  if folder.isAbsolute ∨ d.isFolderAt d.cwd then reserveFrom d folder stem 0 tagLimit
  else .error (.system .noEntry)

/-- Remove a temporary file if it is still there. -/
def discard (d : Disk) (p : Path) : Disk :=
  match d.unlink p with
  | .ok after => after
  | .error _ => d

end Temp

namespace Path

/-- The folder that a path's last name stands in, as far as the text says. -/
def folderPart (p : Path) : Path :=
  match p.parent? with
  | some (c :: rest) => c :: rest
  | _ => ['.']

end Path

end SafeFiles
