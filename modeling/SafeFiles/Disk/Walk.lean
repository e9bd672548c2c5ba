import SafeFiles.Disk.Basic
import SafeFiles.Fault.Basic

/-!
# Walking a path

The steps of a path are taken one at a time from the root or the working folder.
Every folder on the way is a physical place, so `..` goes to the folder above,
whatever text led here. Links are followed at most `linkLimit` times in one walk.
-/

namespace SafeFiles

inductive Step where
  | stay
  | up
  | down (n : Name)
  /-- A slash at the end asks for a folder. -/
  | slash
  deriving DecidableEq, Repr

namespace Step

def ofPiece? (piece : Text) : Option Step :=
  if piece = [] then none
  else if piece = ['.'] then some .stay
  else if piece = ['.', '.'] then some .up
  else some (.down piece)

end Step

namespace Path

def steps (p : Path) : List Step :=
  let inner := (Text.pieces '/' p).filterMap Step.ofPiece?
  if inner ≠ [] ∧ p.endsInSlash then inner ++ [.slash] else inner

end Path

/-- Longest name of an entry, in bytes. -/
def nameLimit : Nat := 255

/-- A path of this many bytes is too long. -/
def pathLimit : Nat := 4096

/-- How many links one walk follows. -/
def linkLimit : Nat := 40

/-- What a walk does with the last name. -/
inductive Final where
  /-- Stop at a link. -/
  | look
  /-- Follow a link. -/
  | follow
  /-- Follow a link, and refuse a trailing slash, because a file is to stand there. -/
  | create
  deriving DecidableEq, Repr

inductive Spot where
  | found (place : Place)
  /-- The folder is there and the name in it is free. -/
  | free (folder : Place) (name : Name)
  deriving DecidableEq, Repr

namespace Disk

def start (d : Disk) (p : Path) : Place :=
  if p.isAbsolute then [] else d.cwd

/-- Take the steps from the folder `here`. A link that is followed hands its target's steps, and those
that remain, to `through`. -/
def stride (d : Disk) (final : Final) (through : Place → List Step → Except Errno Spot) :
    Place → List Step → Except Errno Spot
  | here, [] => .ok (.found here)
  | here, .stay :: rest => stride d final through here rest
  | here, .slash :: rest => stride d final through here rest
  | here, .up :: rest => stride d final through here.dropLast rest
  | here, .down n :: rest =>
    if final = .create ∧ rest = [.slash] then .error .isFolder
    else if Text.utf8Size n > nameLimit then .error .nameTooLong
    else match d.item? (here ++ [n]) with
      -- A working folder may have been removed; nothing can be made in it then.
      | none => if rest = [] ∧ d.isFolderAt here then .ok (.free here n) else .error .noEntry
      | some (.folder _) => stride d final through (here ++ [n]) rest
      | some (.leaf id) =>
        match d.node id with
        | .link target =>
          if rest = [] ∧ final = .look then .ok (.found (here ++ [n]))
          else through (if target.isAbsolute then [] else here) (target.steps ++ rest)
        | _ => if rest = [] then .ok (.found (here ++ [n])) else .error .notFolder

/-- A walk that may still follow the given number of links. -/
def walk (d : Disk) (final : Final) : Nat → Place → List Step → Except Errno Spot
  | 0 => stride d final fun _ _ => .error .linkLoop
  | links + 1 => stride d final (walk d final links)

/-- Checks on the text of a path that come before any walk. -/
def checkPath (p : Path) : Except Fault Unit :=
  if p.hasNul then .error .nulInPath
  else if p = [] then .error (.system .noEntry)
  else if pathLimit ≤ Text.utf8Size p then .error (.system .nameTooLong)
  else .ok ()

def locate (d : Disk) (final : Final) (p : Path) : Except Fault Spot := do
  checkPath p
  (d.walk final linkLimit (d.start p) p.steps).mapError .system

/-- The place an existing path leads to. -/
def seek (d : Disk) (final : Final) (p : Path) : Except Fault Place := do
  match ← d.locate final p with
  | .found place => if (d.item? place).isSome then .ok place else .error (.system .noEntry)
  | .free _ _ => .error (.system .noEntry)

/-- The last step of a path, for calls that act on a name in a folder. -/
inductive Last where
  | root
  | here
  | up
  | name (n : Name) (slash : Bool)
  deriving DecidableEq, Repr

/-- The steps to the folder, and the last step. -/
def splitLast (steps : List Step) : List Step × Last :=
  match steps.reverse with
  | [] => ([], .root)
  | .slash :: .down n :: before => (before.reverse, .name n true)
  | .slash :: .up :: before => (before.reverse, .up)
  -- What is left in front of a slash is a dot.
  | .slash :: before => (before.drop 1 |>.reverse, .here)
  | .down n :: before => (before.reverse, .name n false)
  | .up :: before => (before.reverse, .up)
  | .stay :: before => (before.reverse, .here)

/-- The folder in which the last name of a path stands; the name itself is not looked up. -/
def folderOf (d : Disk) (p : Path) : Except Fault (Place × Last) := do
  checkPath p
  let (before, last) := splitLast p.steps
  match d.walk .follow linkLimit (d.start p) (before ++ [.slash]) with
  | .ok (.found folder) =>
    if d.isFolderAt folder then .ok (folder, last) else .error (.system .noEntry)
  | .ok (.free _ _) => .error (.system .noEntry)
  | .error e => .error (.system e)

/-- The item under a name, or `none` if the name is free. -/
def child (d : Disk) (folder : Place) (n : Name) : Except Fault (Option Item) :=
  if Text.utf8Size n > nameLimit then .error (.system .nameTooLong)
  else .ok (d.item? (folder ++ [n]))

/-- The real place of a path. The limit on length is on the real path, not on the text given. -/
def realPlace (d : Disk) (p : Path) : Except Fault Place :=
  if p.hasNul then .error .nulInPath
  else if p = [] then .error (.system .noEntry)
  else match d.walk .follow linkLimit (d.start p) p.steps with
    | .error e => .error (.system e)
    | .ok (.found place) =>
      if pathLimit ≤ Text.utf8Size place.path then .error (.system .nameTooLong) else .ok place
    | .ok (.free folder n) =>
      if pathLimit ≤ Text.utf8Size (Place.path (folder ++ [n])) then .error (.system .nameTooLong)
      else .error (.system .noEntry)

def realPath (d : Disk) (p : Path) : Except Fault Path :=
  (d.realPlace p).map Place.path

end Disk

end SafeFiles
