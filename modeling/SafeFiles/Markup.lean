import SafeFiles.Text

/-!
# Markup

A document as the list of what it says, in the order of its text. Comments,
processing instructions and the document type say nothing. Where the text is not
well formed the list ends with `broken`, so what comes before can still be read.
-/

namespace SafeFiles

inductive Markup where
  /-- A start tag: its name, and the text of its attributes. -/
  | opened (name : Text) (attributes : Text)
  | closed
  | text (t : Text)
  /-- What stands between `&` and `;`. -/
  | reference (name : Text)
  /-- The document is not well formed from here on. -/
  | broken
  deriving DecidableEq, Repr

namespace Markup

def isSpace (c : Char) : Bool := c = ' ' || c = '\t' || c = '\r' || c = '\n'

def isQuote (c : Char) : Bool := c = '"' || c = '\''

/-- Every kind of line end becomes a line feed. -/
def plainEnds : Text → Text
  | [] => []
  | '\r' :: '\n' :: rest => '\n' :: plainEnds rest
  | '\r' :: '\u0085' :: rest => '\n' :: plainEnds rest
  | c :: rest => (if c = '\r' ∨ c = '\u0085' ∨ c = '\u2028' then '\n' else c) :: plainEnds rest

-- ---------------------------------------------------------------------------
-- Cutting
-- ---------------------------------------------------------------------------

/-- The text before a mark and the text after it. -/
def cutMark (mark : Text) : Text → Option (Text × Text)
  | [] => none
  | c :: rest =>
    if mark.isPrefixOf (c :: rest) then some ([], (c :: rest).drop mark.length)
    else (cutMark mark rest).map fun (before, after) => (c :: before, after)

/-- The inside of a tag up to the `>` that stands in no quotes, and the text after that. -/
def cutTag : Option Char → Text → Option (Text × Text)
  | _, [] => none
  | none, c :: rest =>
    if c = '>' then some ([], rest)
    else (cutTag (if isQuote c then some c else none) rest).map fun (before, after) => (c :: before, after)
  | some quote, c :: rest =>
    (cutTag (if c = quote then none else some quote) rest).map fun (before, after) => (c :: before, after)

/-- The document type up to the `>` outside its brackets. -/
def cutType : Bool → Text → Option (Text × Text)
  | _, [] => none
  | inside, c :: rest =>
    if c = '>' ∧ !inside then some ([], rest)
    else
      let inside := if inside then c ≠ ']' else c = '['
      (cutType inside rest).map fun (before, after) => (c :: before, after)

-- ---------------------------------------------------------------------------
-- Reading
-- ---------------------------------------------------------------------------

/-- What follows `<!`: what it says, and the rest of the text. -/
def declaration? (t : Text) : Option (List Markup × Text) :=
  if "--".toList.isPrefixOf t then
    (cutMark "-->".toList (t.drop 2)).map fun (_, rest) => ([], rest)
  else if "[CDATA[".toList.isPrefixOf t then
    (cutMark "]]>".toList (t.drop 7)).map fun (content, rest) => ([.text (plainEnds content)], rest)
  else if "doctype".toList.isPrefixOf (Text.asciiLower t) then
    (cutType false (t.drop 7)).bind fun (content, rest) =>
      if content.all isSpace then none else some ([], rest)
  else none

/-- What follows the instruction that starts with `<?`. -/
def instruction? (t : Text) : Option Text :=
  if t.head? = some '>' then none else (cutMark "?>".toList t).map Prod.snd

/-- A start tag, and whether it is its own end tag. -/
def startTag (content : Text) : Text × Text × Bool :=
  let closes := content.getLast? = some '/'
  let (name, attributes) := Text.cutAt isSpace (if closes then content.dropLast else content)
  (name, attributes, closes)

def endName (content : Text) : Text := (content.reverse.dropWhile isSpace).reverse

def endsText (c : Char) : Bool := c = '<' || c = '&'

def endsReference (c : Char) : Bool := c = ';' || endsText c

/-- Read on below the elements with the given names, innermost first. Every step uses up some text. -/
def scan : Nat → List Text → Text → List Markup
  | 0, _, _ => []
  | _, _, [] => []
  | fuel + 1, names, '<' :: '!' :: rest =>
    match declaration? rest with
    | some (said, rest) => said ++ scan fuel names rest
    | none => [.broken]
  | fuel + 1, names, '<' :: '?' :: rest =>
    match instruction? rest with
    | some rest => scan fuel names rest
    | none => [.broken]
  | fuel + 1, names, '<' :: '/' :: rest =>
    match cutTag none rest, names with
    | some (content, rest), name :: outer =>
      if endName content = name then .closed :: scan fuel outer rest else [.broken]
    | _, _ => [.broken]
  | fuel + 1, names, '<' :: rest =>
    match cutTag none rest with
    | some (content, rest) =>
      let (name, attributes, closes) := startTag content
      if closes then .opened name attributes :: .closed :: scan fuel names rest
      else .opened name attributes :: scan fuel (name :: names) rest
    | none => [.broken]
  | fuel + 1, names, '&' :: rest =>
    match Text.cutAt endsReference rest with
    | (name, ';' :: rest) => .reference name :: scan fuel names rest
    | _ => [.broken]
  | fuel + 1, names, t =>
    let (said, rest) := Text.cutAt endsText t
    .text (plainEnds said) :: scan fuel names rest

/-- What a document says. A byte order mark at the start does not count. -/
def read (t : Text) : List Markup :=
  let t := if t.head? = some '\uFEFF' then t.drop 1 else t
  scan (t.length + 1) [] t

-- ---------------------------------------------------------------------------
-- References
-- ---------------------------------------------------------------------------

def digit? (base : Nat) (c : Char) : Option Nat :=
  let value :=
    if '0' ≤ c ∧ c ≤ '9' then c.toNat - '0'.toNat
    else if 'a' ≤ c ∧ c ≤ 'z' then c.toNat - 'a'.toNat + 10
    else if 'A' ≤ c ∧ c ≤ 'Z' then c.toNat - 'A'.toNat + 10
    else base
  if value < base then some value else none

def number? (base : Nat) (digits : Text) : Option Nat :=
  if digits = [] then none
  else digits.foldl (fun n c => n.bind fun n => (digit? base c).map (n * base + ·)) (some 0)

/-- A code point other than zero. -/
def charOf? (code : Nat) : Option Char :=
  if h : code.isValidChar ∧ code ≠ 0 then some (Char.ofNatAux code h.1) else none

def entities : List (Text × Char) := [
  ("lt".toList, '<'), ("gt".toList, '>'), ("amp".toList, '&'), ("apos".toList, '\''),
  ("quot".toList, '"')]

/-- The character that a reference stands for. -/
def resolve? : Text → Option Char
  | '#' :: 'x' :: digits => (number? 16 digits).bind charOf?
  | '#' :: digits => (number? 10 digits).bind charOf?
  | name => entities.lookup name

/-- Resolve the references and join neighbouring texts. A text that holds a reference without a meaning is
broken as a whole. -/
def joined : List Markup → List Markup
  | [] => []
  | .text t :: rest =>
    match joined rest with
    | .text u :: more => .text (t ++ u) :: more
    -- A reference that is left over has no meaning, and takes the text before it along.
    | .reference _ :: _ => [.reference []]
    | more => .text t :: more
  | .reference name :: rest =>
    match resolve? name, joined rest with
    | none, _ => [.reference []]
    | some c, .text u :: more => .text (c :: u) :: more
    | some _, .reference _ :: _ => [.reference []]
    | some c, more => .text [c] :: more
  | piece :: rest => piece :: joined rest

-- ---------------------------------------------------------------------------
-- Names
-- ---------------------------------------------------------------------------

/-- A name without what stands before its first colon. -/
def localName (name : Text) : Text :=
  match Text.cutAt (· = ':') name with
  | (_, ':' :: after) => after
  | _ => name

/-- The name of the first attribute; `none` inside if there is none, outside if it is not well formed. -/
def firstAttribute? (attributes : Text) : Option (Option Text) :=
  match attributes.dropWhile isSpace with
  | [] => some none
  | c :: rest =>
    let (more, after) := Text.cutAt (fun c => c = '=' || isSpace c) rest
    match after.dropWhile isSpace with
    | '=' :: value =>
      match value.dropWhile isSpace with
      | quote :: inside => if isQuote quote ∧ quote ∈ inside then some (some (c :: more)) else none
      | [] => none
    | _ => none

end Markup

end SafeFiles
