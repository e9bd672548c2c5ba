import SafeFiles.Settings.Basic
import SafeFiles.Blank

/-!
# Settings text

One entry a line, `key=value` or `key:value`; blanks around the separator do not
count, and lines that start with `#` or `!` are comments. A backslash takes the
meaning from the character after it. `render` writes a header and one line for
each entry; `parse` reads any text.
-/

namespace SafeFiles

namespace Settings

-- ---------------------------------------------------------------------------
-- Reading
-- ---------------------------------------------------------------------------

/-- One carriage return before the line feed belongs to the line end. -/
def stripReturn (line : Text) : Text :=
  if line.getLast? = some '\r' then line.dropLast else line

/-- The lines of a text. What follows the last line feed is a line only if it is not empty. -/
def lines (t : Text) : List Text :=
  let parts := Text.pieces '\n' t
  parts.dropLast.map stripReturn ++ (if parts.getLast? = some [] then [] else parts.getLast?.toList)

def isSeparator (c : Char) : Bool := c = '=' || c = ':'

/-- Cut at the first separator that no backslash protects; without one the value is empty. -/
def cutEntry : Text → Text × Text
  | [] => ([], [])
  | ['\\'] => (['\\'], [])
  | '\\' :: c :: rest =>
    let (key, value) := cutEntry rest
    ('\\' :: c :: key, value)
  | c :: rest =>
    if isSeparator c then ([], rest)
    else
      let (key, value) := cutEntry rest
      (c :: key, value)

/-- Drop blanks from the end of a text given in reverse, up to one that an odd run of backslashes protects. -/
def dropBlanks : Text → Text
  | [] => []
  | c :: before =>
    -- An even run of backslashes pairs up and protects nothing.
    if !isBlank c then c :: before
    else if (before.takeWhile (· = '\\')).length % 2 = 1 then c :: before
    else dropBlanks before

def trimKey (key : Text) : Text := (dropBlanks key.reverse).reverse

def unescapeChar (c : Char) : Char :=
  if c = 'n' then '\n' else if c = 't' then '\t' else if c = 'r' then '\r' else c

/-- A lone backslash at the end is lost. -/
def unescape : Text → Text
  | [] => []
  | ['\\'] => []
  | '\\' :: c :: rest => unescapeChar c :: unescape rest
  | c :: rest => c :: unescape rest

def isComment (line : Text) : Bool := line.head? = some '#' || line.head? = some '!'

/-- The entry on a line, if the line holds one. -/
def entry? (line : Text) : Option (Text × Text) :=
  let line := Text.trimStart line
  if line = [] ∨ isComment line then none
  else
    let (key, value) := cutEntry line
    some (unescape (trimKey key), unescape (Text.trimStart value))

def parse (t : Text) : Settings :=
  ofList ((lines t).filterMap entry?)

-- ---------------------------------------------------------------------------
-- Writing
-- ---------------------------------------------------------------------------

def header : Text := "# fs_guard settings".toList

/-- The written form of a character. Separators and spaces are protected in keys; at the start, so are
comment marks and spaces. -/
def escapeChar (inKey atStart : Bool) (c : Char) : Text :=
  if c = '\\' then ['\\', '\\']
  else if c = '\n' then ['\\', 'n']
  else if c = '\t' then ['\\', 't']
  else if c = '\r' then ['\\', 'r']
  else if inKey ∧ isSeparator c then ['\\', c]
  else if atStart ∧ (c = '#' ∨ c = '!' ∨ c = ' ') then ['\\', c]
  else if inKey ∧ c = ' ' then ['\\', c]
  else [c]

def escape (inKey : Bool) : Text → Text
  | [] => []
  | c :: rest => escapeChar inKey true c ++ rest.flatMap (escapeChar inKey false)

def renderEntry (entry : Text × Text) : Text :=
  escape true entry.1 ++ '=' :: escape false entry.2

def render (s : Settings) : Text :=
  header ++ '\n' :: s.entries.flatMap fun entry => renderEntry entry ++ ['\n']

end Settings

end SafeFiles
