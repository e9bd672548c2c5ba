import SafeFiles.Keyword

/-!
# Durability

How far written bytes are pushed before a call returns.
-/

namespace SafeFiles

inductive Durability where
  /-- The system has the data. -/
  | data
  /-- Data and metadata are on the medium. -/
  | full
  deriving DecidableEq, Repr, Inhabited

namespace Durability

def standard : Durability := .full

def spellings : List (Text × Durability) := [
  ("data".toList, .data), ("fast".toList, .data),
  ("full".toList, .full), ("sync".toList, .full)]

def parse? (t : Text) : Option Durability := Keyword.find? spellings t

def name : Durability → Text
  | .data => "data".toList
  | .full => "full".toList

def refusal (t : Text) : String := s!"invalid durability: '{shown t}'"

end Durability

end SafeFiles
