import SafeFiles.Text.Hidden

/-!
# Quoted text

A text between double quotes, as it is shown where it could be anything: what
would not show, or would end the quotes, is written as an escape.
-/

namespace SafeFiles

namespace Text

def quoteChar (c : Char) : Text :=
  if c = '\x00' then ['\\', '0']
  else if c = '\t' then ['\\', 't']
  else if c = '\r' then ['\\', 'r']
  else if c = '\n' then ['\\', 'n']
  else if c = '"' ∨ c = '\\' then ['\\', c]
  else if isHidden c then ['\\', 'u', '\x7b'] ++ Nat.toDigits 16 c.toNat ++ ['\x7d']
  else [c]

def quoted (t : Text) : Text := '"' :: t.flatMap quoteChar ++ ['"']

end Text

end SafeFiles
