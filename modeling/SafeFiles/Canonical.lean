import SafeFiles.Disk.Calls
import SafeFiles.Failure

/-!
# Canonical paths

The canonical form of a path is the spelling of its real place. A path that leads
nowhere yet is resolved through the longest part of it that leads somewhere, and
the rest is replayed name by name.
-/

namespace SafeFiles

namespace Component

/-- Go on from a place by one component, without looking at the disk. -/
def replay (place : Place) : Component → Place
  | .root => []
  | .here => place
  | .up => place.dropLast
  | .name n => place ++ [n]

end Component

namespace Path

/-- The path that a list of components spells. -/
def ofComponents (cs : List Component) : Path :=
  cs.foldl (fun base c => base.join c.text) []

end Path

namespace Disk

/-- The absolute form, links left alone. A working folder that has been removed has no path to start from. -/
def absolute (d : Disk) (p : Path) : Except Failure Path :=
  if p = [] then .error (.pathResolution p .emptyPath)
  else if p.isAbsolute ∨ d.isFolderAt d.cwd then .ok (p.absoluteFrom d.cwdPath)
  else .error (.pathResolution p (.system .noEntry))

/-- Resolve the longest prefix, of at most the given number of components, that leads somewhere. -/
def deepest (d : Disk) (abs : Path) (cs : List Component) : Nat → Except Fault Place
  | 0 => .error (.custom .notFound s!"no existing ancestor for '{shown abs}'")
  | n + 1 =>
    match d.realPlace (Path.ofComponents (cs.take (n + 1))) with
    -- From here on nothing exists, so `..` takes back a name and follows no link.
    | .ok base => .ok ((cs.drop (n + 1)).foldl Component.replay base)
    | .error f => if f.isNotFound then deepest d abs cs n else .error f

def canonicalMissing (d : Disk) (abs : Path) : Except Fault Place :=
  d.deepest abs abs.components (abs.components.length - 1)

def canonicalPlace (d : Disk) (p : Path) : Except Failure Place :=
  match d.realPlace p with
  | .ok place => .ok place
  | .error f =>
    if f.isNotFound then do
      let abs ← d.absolute p
      (d.canonicalMissing abs).mapError (.pathResolution p)
    else .error (.pathResolution p f)

def canonicalize (d : Disk) (p : Path) : Except Failure Path :=
  (d.canonicalPlace p).map Place.path

/-- The canonical form exists, but only through an ancestor. -/
def isThroughAncestor (d : Disk) (p : Path) : Bool :=
  !(d.realPlace p).isOk && (d.canonicalPlace p).isOk

-- ---------------------------------------------------------------------------
-- Containment
-- ---------------------------------------------------------------------------

/-- The path of the folder that `child` stands in; the root stands in itself. -/
def parentPath (d : Disk) (child : Path) : Except Failure Path := do
  let abs ← d.absolute child
  .ok (abs.parent?.getD abs)

def isImmediateParent (d : Disk) (parent child : Path) : Except Failure Bool := do
  let parentReal ← d.canonicalPlace parent
  let childReal ← d.canonicalPlace (← d.parentPath child)
  .ok (parentReal = childReal)

/-- Containment by text: a sibling whose name only starts like the parent's also passes. -/
def isContained (d : Disk) (parent child : Path) : Except Failure Bool := do
  let parentReal ← d.canonicalize parent
  let childReal ← d.canonicalize (← d.parentPath child)
  .ok (childReal.startsWithText parentReal)

end Disk

end SafeFiles
