import SafeFiles.Text
import SafeFiles.Fault.Kind

/-!
# Faults

What a call to the disk fails with: a system error, a bare kind, or a kind with
a message of its own. `Fault.help` adds the operation, the path and a hint.
-/

namespace SafeFiles

inductive Fault where
  | system (error : Errno)
  | bare (kind : FaultKind)
  | custom (kind : FaultKind) (message : String)
  deriving DecidableEq, Repr

namespace Fault

def kind : Fault → FaultKind
  | .system e => e.kind
  | .bare k => k
  | .custom k _ => k

def text : Fault → String
  | .system e => e.text
  | .bare k => k.text
  | .custom _ message => message

def number? : Fault → Option Int
  | .system e => some e.number
  | _ => none

/-- A path with a NUL character never reaches the disk. -/
def nulInPath : Fault :=
  .custom .invalidInput "file name contained an unexpected NUL byte"

def notText : Fault :=
  .custom .invalidData "stream did not contain valid UTF-8"

def emptyPath : Fault :=
  .custom .invalidInput "cannot make an empty path absolute"

def isNotFound (f : Fault) : Bool := f.kind = .notFound

end Fault

def Errno.hints : List (List Errno × String) := [
  ([.denied, .notPermitted], "permission denied; check ownership and write bits"),
  ([.crossDevice], "different filesystem; rename cannot cross devices"),
  ([.busy, .textBusy], "busy; another process is using it"),
  ([.noEntry], "does not exist (anymore)"),
  ([.taken], "already exists"),
  ([.notEmpty], "directory not empty; something was left inside"),
  ([.notFolder], "a path component is not a directory"),
  ([.isFolder], "is a directory"),
  ([.noSpace], "no space left on device"),
  ([.readOnly], "read-only filesystem"),
  ([.linkLoop], "too many symbolic link levels; possible symlink cycle"),
  ([.nameTooLong], "name too long"),
  ([.manyOpen, .tableFull], "too many open files")]

def Errno.hint? (e : Errno) : Option String :=
  (Errno.hints.find? (·.1.contains e)).map (·.2)

def FaultKind.hint? : FaultKind → Option String
  | .permissionDenied => some "permission denied"
  | .notFound => some "does not exist (anymore)"
  | .alreadyExists => some "already exists"
  | .wouldBlock | .timedOut => some "busy; retry later"
  | _ => none

namespace Fault

/-- A fault without a system number is hinted at by its kind. -/
def hint? : Fault → Option String
  | .system e => e.hint?
  | f => f.kind.hint?

/-- Operation, path, the fault's own text, then hint and number where there are any. -/
def explain (action : Text) (path : Text) (f : Fault) : String :=
  let hint := match f.hint? with
    | some hint => s!" ({hint})"
    | none => ""
  let number := match f.number? with
    | some n => s!" [os code: {n}]"
    | none => ""
  s!"{shown action} '{shown path}': {f.text}{hint}{number}"

/-- The same fault with the explanation as its text; its kind stays. -/
def explained (action : Text) (path : Text) (f : Fault) : Fault :=
  .custom f.kind (f.explain action path)

end Fault

end SafeFiles
