import SafeFiles.Failure

/-!
# Reports

A report is a cause with the contexts that were put around it, outermost first.
The cause can still be told apart below any number of contexts.
-/

namespace SafeFiles

/-- Why a document is refused. -/
inductive DocumentFault where
  /-- It is not well formed, or a value holds an element. -/
  | malformed
  /-- Its fields are not the expected ones. -/
  | fields (message : String)
  deriving DecidableEq, Repr

inductive Cause where
  | failure (failure : Failure)
  | fault (fault : Fault)
  /-- A fault met at a path while a tree was walked. -/
  | walk (path : Path) (fault : Fault)
  | document (fault : DocumentFault)
  | message (text : String)
  deriving DecidableEq, Repr

namespace Cause

/-- The cause's own text, then the text of what caused it. -/
def texts : Cause → List String
  | .failure (.pathResolution path f) => [(Failure.pathResolution path f).message, f.text]
  | .failure f => [f.message]
  | .fault f => [f.text]
  | .walk path f => [s!"IO error for operation on {shown path}: {f.text}", f.text]
  | .document .malformed => ["malformed document"]
  | .document (.fields text) => [text]
  | .message text => [text]

end Cause

structure Report where
  contexts : List String := []
  cause : Cause
  deriving DecidableEq, Repr

namespace Report

def ofText (text : String) : Report := ⟨[], .message text⟩

def ofFailure (f : Failure) : Report := ⟨[], .failure f⟩

def ofFault (f : Fault) : Report := ⟨[], .fault f⟩

/-- A fault told with the operation, the path and a hint. -/
def explained (action : String) (path : Path) (f : Fault) : Report :=
  .ofText (f.explain action.toList path)

def within (r : Report) (context : String) : Report :=
  { r with contexts := context :: r.contexts }

/-- The typed failure at the bottom, if that is the cause. -/
def failure? (r : Report) : Option Failure :=
  match r.cause with
  | .failure f => some f
  | _ => none

/-- All texts, from the outermost context to the innermost cause. -/
def chain (r : Report) : String :=
  ": ".intercalate (r.contexts ++ r.cause.texts)

end Report

end SafeFiles
