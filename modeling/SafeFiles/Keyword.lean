import SafeFiles.Blank

/-!
# Keywords

A setting with a few values is spelled by keywords. Blanks around a keyword and
the case of ASCII letters do not count.
-/

namespace SafeFiles

namespace Keyword

def fold (t : Text) : Text := Text.asciiLower (Text.trim t)

/-- The value that a text spells, in a table of lower-case spellings. -/
def find? {α : Type} (spellings : List (Text × α)) (t : Text) : Option α :=
  spellings.lookup (fold t)

end Keyword

end SafeFiles
