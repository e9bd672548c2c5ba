import SafeFiles.Config.Basic
import SafeFiles.Keyword
import SafeFiles.Markup
import SafeFiles.Report
import SafeFiles.Table
import SafeFiles.Text.Quoted

/-!
# Configuration documents

One element holds the fields, in any order, each at most once. A field that is
missing or blank has its standard value; anything else in the document is refused.
Whether a field may stand there is decided in document order, before any value is
looked at.
-/

namespace SafeFiles

namespace Config

inductive Field where
  | logLevel
  | logFile
  | useTrash
  | durability
  deriving DecidableEq, Repr

namespace Field

def name : Field → Text
  | .logLevel => "log_level".toList
  | .logFile => "log_file".toList
  | .useTrash => "use_trash".toList
  | .durability => "durability".toList

def all : List Field := [.logLevel, .logFile, .useTrash, .durability]

def ofName? (name : Text) : Option Field := all.find? (·.name = name)

end Field

namespace Document

def unknownField (name : Text) : DocumentFault :=
  let expected := ", ".intercalate (Field.all.map fun f => s!"`{shown f.name}`")
  .fields s!"unknown field `{shown name}`, expected one of {expected}"

def duplicateField (f : Field) : DocumentFault :=
  .fields s!"duplicate field `{shown f.name}`"

def strayText (t : Text) : DocumentFault :=
  .fields s!"invalid type: string {shown t.quoted}, expected struct XmlConfig"

/-- Text between elements. -/
def isGap (t : Text) : Bool := t.all Markup.isSpace

/-- The name under which an attribute counts as a field. -/
def attributeName (name : Text) : Text :=
  let isBinding := name = "xmlns".toList ∨ "xmlns:".toList.isPrefixOf name
  '@' :: (if isBinding then name else Markup.localName name)

/-- The texts of the fields up to the end of the element. -/
def fields : List Markup → Table Field Text → Except DocumentFault (Table Field Text)
  | .closed :: _, got => .ok got
  | .text t :: rest, got =>
    if isGap t then fields rest got else .error (unknownField "$text".toList)
  | .opened name _ :: .text t :: .closed :: rest, got => field name t (fields rest) got
  | .opened name _ :: .closed :: rest, got => field name [] (fields rest) got
  -- An element with something else inside: its name is judged first.
  | .opened name _ :: _, got => field name [] (fun _ => .error .malformed) got
  | _, _ => .error .malformed
where
  /-- Take up one element, and go on if the field it names is known and new. -/
  field (name value : Text) (next : Table Field Text → Except DocumentFault (Table Field Text))
      (got : Table Field Text) : Except DocumentFault (Table Field Text) :=
    match Field.ofName? (Markup.localName name) with
    | none => .error (unknownField (Markup.localName name))
    | some f => if got.contains f then .error (duplicateField f) else next (got.set f value)

/-- The texts of the fields of a document. What follows the element does not count. -/
def root : List Markup → Except DocumentFault (Table Field Text)
  | .text t :: rest => if isGap t then root rest else .error (strayText t)
  | .opened _ attributes :: rest =>
    match Markup.firstAttribute? attributes with
    | none => .error .malformed
    | some (some name) => .error (unknownField (attributeName name))
    | some none => fields rest []
  | _ => .error .malformed

def read (t : Text) : Except DocumentFault (Table Field Text) :=
  root (Markup.joined (Markup.read t))

end Document

def truths : List (Text × Bool) := [
  ("true".toList, true), ("yes".toList, true), ("1".toList, true),
  ("false".toList, false), ("no".toList, false), ("0".toList, false)]

def truth? (t : Text) : Option Bool := truths.lookup (Text.asciiLower t)

/-- The value of a field, or its standard value if nothing is written for it. -/
def value {α : Type} (texts : Table Field Text) (f : Field) (standard : α)
    (read : Text → Except String α) : Except String α :=
  match (texts.get? f).bind Text.nonBlank? with
  | none => .ok standard
  | some t => read t

def accept {α : Type} (parse? : Text → Option α) (refusal : Text → String) (t : Text) :
    Except String α :=
  match parse? t with
  | some a => .ok a
  | none => .error (refusal t)

def truthRefusal (t : Text) : String :=
  s!"invalid <{shown Field.useTrash.name}> value '{shown t}' (expected true or false)"

/-- The configuration that the texts of the fields give. -/
def ofFields (texts : Table Field Text) : Except String Config := do
  let logLevel ← value texts .logLevel .standard (accept LogLevel.parse? LogLevel.refusal)
  let logFile ← value texts .logFile none fun t => .ok (some t)
  let useTrash ← value texts .useTrash false (accept truth? truthRefusal)
  let durability ← value texts .durability .standard (accept Durability.parse? Durability.refusal)
  .ok { logLevel, logFile, useTrash, durability }

/-- Read a configuration document. A blank text is a document without fields. -/
def parse (t : Text) : Except Report Config :=
  if Text.trim t = [] then .ok .standard
  else match Document.read t with
    | .error f => .error ⟨[], .document f⟩
    | .ok texts =>
      match ofFields texts with
      | .ok config => .ok config
      | .error refusal => .error (.ofText refusal)

end Config

end SafeFiles
