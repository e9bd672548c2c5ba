import SafeFiles.Copy
import SafeFiles.Report
import SafeFiles.World.Basic

/-!
# Copying a tree

A folder is copied to a place where nothing is. Parents come before their
contents, links inside the tree are left out, and the first failure ends the copy
with what has been copied so far in place.
-/

namespace SafeFiles

/-- What an entry is before any link is followed. -/
inductive EntryKind where
  | folder
  | link
  | other
  deriving DecidableEq, Repr

namespace Disk

def kindAt (d : Disk) (place : Place) : EntryKind :=
  if d.isFolderAt place then .folder else if d.isLinkAt place then .link else .other

end Disk

/-- A copy of the tree at `src` to `dst`. -/
structure TreeCopy where
  src : Path
  dst : Path
  durability : Durability

namespace TreeCopy

def sourcePath (c : TreeCopy) (rel : List Name) : Path := rel.foldl Path.join c.src

def targetPath (c : TreeCopy) (rel : List Name) : Path :=
  if rel = [] then c.dst else c.dst.join (Text.joinWith '/' rel)

/-- Make the image of the entry itself, without what is in it. -/
def entry (c : TreeCopy) (rel : List Name) (kind : EntryKind) (s : Session) :
    Except Report Unit × Session :=
  let p := c.sourcePath rel
  let target := c.targetPath rel
  match kind with
  | .folder =>
    match s.disk.makeFolders target with
    | (.ok (), d) => (.ok (), s.withDisk d)
    | (.error f, d) => (.error (.explained "create directory" target f), s.withDisk d)
  | .link => (.ok (), s.log .warn "copy: skipping symlink" [Record.text "path" p])
  | .other =>
    match s.disk.copyFile p target c.durability with
    | (true, d) => (.ok (), s.withDisk d)
    | (false, d) =>
      (.error (.ofText s!"copy '{shown p}' -> '{shown target}' came up short"), s.withDisk d)

/-- The entry and, if `opened` is a folder, everything in it. The names are read after the folder's own
image is made. -/
def within (c : TreeCopy) : Nat → List Name → EntryKind → Session → Except Report Unit × Session
  | 0, _, _, s => (.ok (), s)
  | depth + 1, rel, kind, s =>
    let p := c.sourcePath rel
    let opened := if kind = .folder ∨ rel = [] then some (s.disk.list p) else none
    match c.entry rel kind s with
    | (.error r, s) => (.error r, s)
    | (.ok (), s) =>
      match opened with
      | none => (.ok (), s)
      | some (.error f) => (.error (Report.within ⟨[], .walk p f⟩ s!"walk '{shown c.src}'"), s)
      | some (.ok (place, _)) =>
        -- What the copy has put into this folder by now is found as well.
        let found := (s.disk.names place).map fun name => (name, s.disk.kindAt (place ++ [name]))
        found.foldl (fun result item =>
          match result with
          | (.error r, s) => (.error r, s)
          | (.ok (), s) => within c depth (rel ++ [item.1]) item.2 s) (.ok (), s)

/-- Copy the tree. A source that is itself a link counts as a link, but its contents are walked. -/
def run (c : TreeCopy) (s : Session) : Except Report Unit × Session :=
  if !s.disk.isFolder c.src then
    (.error (.ofText s!"source '{shown c.src}' is not a directory"), s)
  else if s.disk.there c.dst then
    (.error (.ofText s!"destination '{shown c.dst}' already exists"), s)
  else
    let kind := match s.disk.lstat c.src with
      | .ok place => s.disk.kindAt place
      | .error _ => .other
    match c.within pathLimit [] kind s with
    | (.error r, s) => (.error r, s)
    | (.ok (), s) =>
      (.ok (), s.log .info "tree copied" [Record.text "src" c.src, Record.text "dst" c.dst])

end TreeCopy

namespace Session

def copyTree (s : Session) (src dst : Path) (durability : Durability := .standard) :
    Except Report Unit × Session :=
  TreeCopy.run ⟨src, dst, durability⟩ s

end Session

end SafeFiles
