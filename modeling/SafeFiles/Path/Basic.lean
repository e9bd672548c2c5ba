import SafeFiles.Text

/-!
# Paths

A path is text. What it means by itself, before any disk is looked at, is its
list of components: repeated slashes, trailing slashes and inner `.` do not
count, a leading `.` and every `..` do. Paths are compared by components
(`Path.same`), while the text is what the disk and the messages see.
-/

namespace SafeFiles

abbrev Path := Text

abbrev Name := Text

inductive Component where
  | root
  | here
  | up
  | name (n : Name)
  deriving DecidableEq, Repr

namespace Component

/-- Empty pieces and `.` between slashes are no components. -/
def ofPiece? (piece : Text) : Option Component :=
  if piece = [] ∨ piece = ['.'] then none
  else if piece = ['.', '.'] then some .up
  else some (.name piece)

def text : Component → Text
  | .root => ['/']
  | .here => ['.']
  | .up => ['.', '.']
  | .name n => n

end Component

namespace Path

/-- What stands before the pieces of a path. -/
inductive Lead where
  | root
  | here
  | none
  deriving DecidableEq, Repr

/-- The lead and the pieces behind it. -/
def parts (p : Path) : Lead × List Text :=
  match Text.pieces '/' p with
  | [[]] => (.none, [])
  | [] :: rest => (.root, rest)
  | ['.'] :: rest => (.here, rest)
  | all => (.none, all)

def assemble : Lead → List Text → Path
  | .root, pieces => '/' :: Text.joinWith '/' pieces
  | .here, pieces => '.' :: pieces.flatMap ('/' :: ·)
  | .none, pieces => Text.joinWith '/' pieces

def Lead.components : Lead → List Component
  | .root => [.root]
  | .here => [.here]
  | .none => []

def components (p : Path) : List Component :=
  p.parts.1.components ++ p.parts.2.filterMap Component.ofPiece?

/-- Equality of paths by components. -/
def same (a b : Path) : Bool := a.components = b.components

def isAbsolute (p : Path) : Bool := p.head? = some '/'

def endsInSlash (p : Path) : Bool := p.getLast? = some '/'

def hasNul (p : Path) : Bool := p.contains '\x00'

/-- An absolute second path replaces the first. -/
def join (base rel : Path) : Path :=
  if rel.isAbsolute then rel
  else if base = [] ∨ base.endsInSlash then base ++ rel
  else base ++ '/' :: rel

def isIdle (piece : Text) : Bool := (Component.ofPiece? piece).isNone

/-- Drop idle pieces from the end. -/
def trimIdle (pieces : List Text) : List Text :=
  (pieces.reverse.dropWhile isIdle).reverse

/-- Every path reached by dropping components from the end, nearest first. The pieces come in reverse. -/
def shorter (lead : Lead) : List Text → List Path
  | [] => if lead = .here then [[]] else []
  | piece :: before =>
    if isIdle piece then shorter lead before
    else assemble lead (trimIdle before.reverse) :: shorter lead before

def properAncestors (p : Path) : List Path :=
  shorter p.parts.1 p.parts.2.reverse

/-- The path itself, its parent, the parent of that, and so on. -/
def ancestors (p : Path) : List Path := p :: p.properAncestors

def parent? (p : Path) : Option Path := p.properAncestors.head?

def fileName? (p : Path) : Option Name :=
  match p.components.getLast? with
  | some (.name n) => some n
  | _ => none

/-- True if `a` appears in the chain of parents of `b`, `b` itself included. -/
def isAncestor (a b : Path) : Bool := b.ancestors.any (·.same a)

/-- Exactly two leading slashes are kept as they are. -/
def isDoubled : Path → Bool
  | '/' :: '/' :: '/' :: _ => false
  | '/' :: '/' :: _ => true
  | _ => false

/-- The non-empty path `p` as seen from the folder `cwd`: `.` and repeated slashes go, `..` stays,
and one trailing slash stays. The disk is not looked at. -/
def absoluteFrom (p cwd : Path) : Path :=
  let start : Path := if p.isAbsolute then (if p.isDoubled then ['/', '/'] else []) else cwd
  let rest := match p.components with
    | .here :: rest => rest
    | .root :: rest => if p.isDoubled then rest else .root :: rest
    | all => all
  let body := rest.foldl (fun base c => base.join c.text) start
  if p.endsInSlash then body.join [] else body

/-- Text prefix of paths, whatever the components. -/
def startsWithText (p front : Path) : Bool := front.isPrefixOf p

end Path

namespace Name

/-- The text after the last dot, unless that dot begins or ends the name. -/
def extension? (n : Name) : Option Text :=
  let after := (n.reverse.takeWhile (· ≠ '.')).reverse
  let before := (n.reverse.dropWhile (· ≠ '.')).drop 1
  if before = [] ∨ after = [] then none else some after

end Name

/-- A place is where an entry physically stands: the names on the way from the root to it. -/
abbrev Place := List Name

namespace Place

/-- The canonical spelling of a place. -/
def path : Place → Path
  | [] => ['/']
  | names => names.flatMap ('/' :: ·)

end Place

end SafeFiles
