import SafeFiles.Text

/-!
# Blank characters

The characters with the Unicode property `White_Space`, and trimming by them.
-/

namespace SafeFiles

/-- First and last code point of each run of `White_Space`. -/
def blankRanges : List (Nat × Nat) :=
  [(0x09, 0x0D), (0x20, 0x20), (0x85, 0x85), (0xA0, 0xA0), (0x1680, 0x1680), (0x2000, 0x200A),
    (0x2028, 0x2029), (0x202F, 0x202F), (0x205F, 0x205F), (0x3000, 0x3000)]

def isBlank (c : Char) : Bool :=
  blankRanges.any fun range => range.1 ≤ c.toNat && c.toNat ≤ range.2

namespace Text

def trimStart (t : Text) : Text := t.dropWhile isBlank

def trimEnd (t : Text) : Text := (t.reverse.dropWhile isBlank).reverse

def trim (t : Text) : Text := trimEnd (trimStart t)

/-- The trimmed text, if anything is left of it. -/
def nonBlank? (t : Text) : Option Text :=
  if trim t = [] then none else some (trim t)

end Text

end SafeFiles
