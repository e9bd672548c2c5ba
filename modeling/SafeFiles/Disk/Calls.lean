import SafeFiles.Disk.Walk

/-!
# Calls to the disk

The system calls that change or read the disk, each a total function. A call
that fails leaves the disk as it was, because it returns no disk.
-/

namespace SafeFiles

def newFolderMode : Mode := 0o755

def newFileMode : Mode := 0o644

def privateFileMode : Mode := 0o600

/-- The length that a folder reports. -/
def folderSize : Nat := 4096

namespace Disk

-- ---------------------------------------------------------------------------
-- Questions
-- ---------------------------------------------------------------------------

def stat (d : Disk) (p : Path) : Except Fault Place := d.seek .follow p

def lstat (d : Disk) (p : Path) : Except Fault Place := d.seek .look p

/-- Something is there once links are followed. -/
def there (d : Disk) (p : Path) : Bool := (d.stat p).isOk

/-- Something is there, if only a link that leads nowhere. -/
def occupied (d : Disk) (p : Path) : Bool := (d.lstat p).isOk

def isFolder (d : Disk) (p : Path) : Bool :=
  match d.stat p with
  | .ok place => d.isFolderAt place
  | .error _ => false

def isFile (d : Disk) (p : Path) : Bool :=
  match d.stat p with
  | .ok place => (d.node? place).any Node.isFile
  | .error _ => false

def isLinkAt (d : Disk) (place : Place) : Bool := (d.node? place).any Node.isLink

def sizeAt (d : Disk) (place : Place) : Nat :=
  match d.node? place with
  | some node => node.size
  | none => folderSize

/-- The length that the path's target reports. -/
def size (d : Disk) (p : Path) : Except Fault Nat := (d.stat p).map d.sizeAt

def modeAt (d : Disk) (place : Place) : Mode :=
  match d.item? place with
  | some (.folder mode) => mode
  | some (.leaf id) => (d.node id).mode
  | none => 0

def mode (d : Disk) (p : Path) : Except Fault Mode := (d.stat p).map d.modeAt

/-- The folder a path leads to and the names in it. -/
def list (d : Disk) (p : Path) : Except Fault (Place × List Name) := do
  let place ← d.stat p
  if d.isFolderAt place then .ok (place, d.names place) else .error (.system .notFolder)

def cwdPath (d : Disk) : Path := d.cwd.path

-- ---------------------------------------------------------------------------
-- Folders
-- ---------------------------------------------------------------------------

/-- The folder and the free name for a new entry. -/
def vacancy (d : Disk) (p : Path) (forFolder : Bool) : Except Fault (Place × Name) := do
  match ← d.folderOf p with
  | (folder, .name n slash) =>
    match ← d.child folder n with
    | some _ => .error (.system .taken)
    | none => if slash ∧ !forFolder then .error (.system .noEntry) else .ok (folder, n)
  | _ => .error (.system .taken)

def makeFolder (d : Disk) (p : Path) : Except Fault Disk := do
  let (folder, n) ← d.vacancy p true
  .ok (d.setItem (folder ++ [n]) (.folder newFolderMode))

def removeFolder (d : Disk) (p : Path) : Except Fault Disk := do
  match ← d.folderOf p with
  | (_, .root) => .error (.system .busy)
  | (_, .here) => .error (.system .invalid)
  | (_, .up) => .error (.system .notEmpty)
  | (folder, .name n _) =>
    match ← d.child folder n with
    | none => .error (.system .noEntry)
    | some (.leaf _) => .error (.system .notFolder)
    | some (.folder _) =>
      if d.names (folder ++ [n]) = [] then .ok (d.eraseItem (folder ++ [n]))
      else .error (.system .notEmpty)

/-- Make a folder and every folder missing above it. The list holds the path and its ancestors. -/
def makeFoldersFrom (d : Disk) : List Path → Except Fault Unit × Disk
  | [] => (.error (.custom .uncategorized "failed to create whole tree"), d)
  | p :: above =>
    if p = [] then (.ok (), d)
    else match d.makeFolder p with
      | .ok made => (.ok (), made)
      | .error f =>
        if f.isNotFound then
          match makeFoldersFrom d above with
          | (.error f, after) => (.error f, after)
          | (.ok (), after) =>
            match after.makeFolder p with
            | .ok made => (.ok (), made)
            | .error f => if after.isFolder p then (.ok (), after) else (.error f, after)
        else if d.isFolder p then (.ok (), d)
        else (.error f, d)

def makeFolders (d : Disk) (p : Path) : Except Fault Unit × Disk :=
  d.makeFoldersFrom p.ancestors

-- ---------------------------------------------------------------------------
-- Leaves
-- ---------------------------------------------------------------------------

def unlink (d : Disk) (p : Path) : Except Fault Disk := do
  match ← d.folderOf p with
  | (folder, .name n slash) =>
    match ← d.child folder n with
    | none => .error (.system .noEntry)
    | some (.folder _) => .error (.system .isFolder)
    | some (.leaf id) =>
      if slash then .error (.system .notFolder)
      else if (d.node id).isFixed then .error (.system .notPermitted)
      else .ok (d.eraseItem (folder ++ [n]))
  | _ => .error (.system .isFolder)

def makeLink (d : Disk) (target p : Path) : Except Fault Disk := do
  checkPath target
  let (folder, n) ← d.vacancy p false
  .ok (d.addNode (folder ++ [n]) (.link target))

/-- A second name for the node of an existing leaf. -/
def hardLink (d : Disk) (existing p : Path) : Except Fault Disk := do
  let place ← d.lstat existing
  let (folder, n) ← d.vacancy p false
  match d.item? place with
  | some (.leaf id) =>
    if (d.node id).isFixed then .error (.system .crossDevice)
    else .ok (d.setItem (folder ++ [n]) (.leaf id))
  | _ => .error (.system .notPermitted)

def setMode (d : Disk) (p : Path) (mode : Mode) : Except Fault Disk := do
  let place ← d.stat p
  match place, d.item? place with
  -- The root keeps its mode.
  | [], _ => .ok d
  | place, some (.folder _) => .ok (d.setItem place (.folder mode))
  | _, some (.leaf id) =>
    match d.node id with
    | .file _ bytes => .ok (d.setNode id (.file mode bytes))
    | .kernel _ _ => .error (.system .notPermitted)
    | _ => .ok d
  | _, none => .error (.system .noEntry)

-- ---------------------------------------------------------------------------
-- Renaming
-- ---------------------------------------------------------------------------

def isFixedAt (d : Disk) (place : Place) : Bool := (d.node? place).any Node.isFixed

/-- Rename from one place and name to another. The two may be the same entry, or two names of one node:
then nothing happens. A folder only replaces an empty folder, a leaf only a leaf. -/
def renameAt (d : Disk) (src dst : Place) (item : Item) (replaced : Option Item) :
    Except Errno Disk :=
  match item, replaced with
  | .folder _, none => .ok (d.moveItems src dst)
  | .folder _, some (.folder _) =>
    if src = dst then .ok d
    else if d.names dst = [] then .ok (d.moveItems src dst)
    else .error .notEmpty
  | .folder _, some (.leaf _) => .error .notFolder
  | .leaf _, none => .ok (d.moveItems src dst)
  | .leaf _, some (.folder _) => .error .isFolder
  -- Two names of one file stay two names.
  | .leaf a, some (.leaf b) => if a = b then .ok d else .ok (d.moveItems src dst)

def rename (d : Disk) (src dst : Path) : Except Fault Disk := do
  if src.hasNul ∨ dst.hasNul then .error .nulInPath
  let (srcFolder, srcLast) ← d.folderOf src
  let (dstFolder, dstLast) ← d.folderOf dst
  match srcLast, dstLast with
  | .name srcName srcSlash, .name dstName dstSlash =>
    match ← d.child srcFolder srcName with
    | none => .error (.system .noEntry)
    | some item =>
      let replaced ← d.child dstFolder dstName
      let src := srcFolder ++ [srcName]
      let dst := dstFolder ++ [dstName]
      -- Where several rules forbid a rename, the first of them gives the error.
      if d.isFixedAt src ∨ d.isFixedAt dst then .error (.system .crossDevice)
      else if (d.node? src).isSome ∧ (srcSlash ∨ dstSlash) then .error (.system .notFolder)
      else if src.isPrefixOf dstFolder then .error (.system .invalid)
      else if dst.isPrefixOf srcFolder then .error (.system .notEmpty)
      else (d.renameAt src dst item replaced).mapError .system
  | _, _ => .error (.system .busy)

end Disk

end SafeFiles
