import SafeFiles.Disk.Calls

/-!
# Listing a tree

All regular files below a folder, level by level. A folder that is reached again
by another route is listed only once, so a loop of links comes to an end.
-/

namespace SafeFiles

/-- What one level of a tree, or one folder of it, gives. -/
structure Listing where
  files : List Path := []
  /-- Folders of the next level. -/
  folders : List Path := []
  /-- Real paths of the folders listed so far. -/
  listed : List Path := []
  /-- Folders that were left out because they had been listed. -/
  repeated : List Path := []
  deriving DecidableEq, Repr

namespace Listing

/-- No filter takes every name; else one extension has to match, whatever the case of its letters. -/
def accepts (extensions : List Text) (name : Name) : Bool :=
  extensions.isEmpty ||
    match name.extension? with
    | none => false
    | some e => extensions.any fun wanted => Text.asciiLower wanted = Text.asciiLower e

def addEntry (d : Disk) (extensions : List Text) (folder : Path) (l : Listing) (name : Name) : Listing :=
  let p := folder.join name
  if d.isFolder p then { l with folders := l.folders ++ [p] }
  else if d.isFile p && accepts extensions name then { l with files := l.files ++ [p] }
  else l

/-- A folder is known by its real path, or by its own text if it has none. -/
def key (d : Disk) (folder : Path) : Path :=
  match d.realPath folder with
  | .ok real => real
  | .error _ => folder

def addFolder (d : Disk) (extensions : List Text) (l : Listing) (folder : Path) : Listing :=
  if key d folder ∈ l.listed then { l with repeated := l.repeated ++ [folder] }
  else
    let l := { l with listed := l.listed ++ [key d folder] }
    match d.list folder with
    | .error _ => l
    | .ok (_, names) => names.foldl (addEntry d extensions folder) l

/-- List the folders of a level, and then those that were found in them. -/
def levels (d : Disk) (extensions : List Text) : Nat → Listing → Listing
  | 0, l => l
  | depth + 1, l =>
    if l.folders = [] then l
    else levels d extensions depth (l.folders.foldl (addFolder d extensions) { l with folders := [] })

end Listing

namespace Disk

/-- The listing of a tree. Every level makes paths longer, so their length bounds the levels. -/
def listTree (d : Disk) (root : Path) (extensions : List Text) : Listing :=
  if d.isFolder root then Listing.levels d extensions pathLimit { folders := [root] }
  else {}

/-- The regular files below `root` whose extension passes the filter. -/
def enumerate (d : Disk) (root : Path) (extensions : List Text) : List Path :=
  (d.listTree root extensions).files

/-- The same path twice, or a path that is one of the files below the other, or a file below both. -/
def conflicts (d : Disk) (a b : Path) : Bool :=
  let seen := a :: d.enumerate a []
  a.same b || seen.any (Path.same b) || (d.enumerate b []).any fun p => seen.any p.same

end Disk

end SafeFiles
