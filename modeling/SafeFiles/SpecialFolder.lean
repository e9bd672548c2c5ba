import SafeFiles.Canonical
import SafeFiles.Environment
import SafeFiles.Keyword

/-!
# Special folders

Well-known folders of the user, named by a tag in front of a `>`. Home and
application data follow from the environment; the others stand in a file of
lines such as `XDG_MUSIC_DIR="$HOME/Music"`.
-/

namespace SafeFiles

inductive SpecialFolder where
  | home
  | desktop
  | documents
  | downloads
  | music
  | pictures
  | videos
  | appData
  deriving DecidableEq, Repr

namespace UserFolders

def isSpacing (c : Char) : Bool := c = ' ' || c = '\t'

def trimSpacing (t : Text) : Text :=
  ((t.dropWhile isSpacing).reverse.dropWhile isSpacing).reverse

/-- A backslash stands for the character after it; one at the end is lost. -/
def unescape : Text → Text
  | [] => []
  | ['\\'] => []
  | '\\' :: c :: rest => c :: unescape rest
  | c :: rest => c :: unescape rest

/-- The text between two double quotes at the very ends. -/
def unquote? : Text → Option Text
  | '"' :: rest => if rest.getLast? = some '"' then some rest.dropLast else none
  | _ => none

def key (name : Text) : Text := "XDG_".toList ++ name ++ "_DIR".toList

def homeMark : Text := "$HOME/".toList

/-- Below the home folder, or absolute; the bare home folder switches an entry off. -/
def location? (home : Path) (value : Text) : Option Path :=
  if value = homeMark then none
  else if homeMark.isPrefixOf value then some (home.join (unescape (value.drop homeMark.length)))
  else if Path.isAbsolute value then some (unescape value)
  else none

/-- The folder that a line gives for a name. -/
def ofLine? (home : Path) (name line : Text) : Option Path :=
  match Text.cutAt (· = '=') line with
  | (_, []) => none
  | (before, _ :: after) =>
    if trimSpacing before = key name then
      (unquote? (trimSpacing after)).bind (location? home)
    else none

/-- The lines of a file that are text. -/
def lines (bytes : Bytes) : List Text :=
  (bytes.splitBy fun a _ => a ≠ 10).filterMap fun line =>
    Text.ofUtf8? (if line.getLast? = some 10 then line.dropLast else line)

end UserFolders

namespace SpecialFolder

def spellings : List (Text × SpecialFolder) := [
  ("home".toList, .home), ("desktop".toList, .desktop), ("documents".toList, .documents),
  ("downloads".toList, .downloads), ("music".toList, .music), ("pictures".toList, .pictures),
  ("videos".toList, .videos), ("appdata".toList, .appData)]

def parse? (tag : Text) : Option SpecialFolder := Keyword.find? spellings tag

def name : SpecialFolder → String
  | .home => "Home"
  | .desktop => "Desktop"
  | .documents => "Documents"
  | .downloads => "Downloads"
  | .music => "Music"
  | .pictures => "Pictures"
  | .videos => "Videos"
  | .appData => "AppData"

/-- The name in the user's file, for the folders that stand there. -/
def listedName? : SpecialFolder → Option String
  | .desktop => some "DESKTOP"
  | .documents => some "DOCUMENTS"
  | .downloads => some "DOWNLOAD"
  | .music => some "MUSIC"
  | .pictures => some "PICTURES"
  | .videos => some "VIDEOS"
  | .home | .appData => none

/-- The first usable line for a name counts. -/
def listed? (env : Environment) (d : Disk) (name : String) : Option Path := do
  let home ← env.home?
  let folder := (env.absoluteVar? "XDG_CONFIG_HOME").getD (Path.join home ".config".toList)
  let bytes := match d.read (folder.join "user-dirs.dirs".toList) with
    | .ok bytes => bytes
    | .error _ => []
  (UserFolders.lines bytes).findSome? (UserFolders.ofLine? home name.toList)

def location? (env : Environment) (d : Disk) (f : SpecialFolder) : Option Path :=
  match f with
  | .home => env.home?
  | .appData => env.dataFolder?
  | f => f.listedName?.bind (listed? env d)

/-- `Tag>rest` is taken below the tagged folder; other text is canonicalized. -/
def resolve (env : Environment) (d : Disk) (text : Text) : Except Failure Path :=
  match Text.cutAt (· = '>') text with
  | (_, []) => d.canonicalize text
  | (tag, _ :: rest) =>
    match parse? tag with
    | none => .error (.unknownSpecialFolder tag)
    | some folder =>
      match folder.location? env d with
      | none => .error (.specialFolderUnavailable tag)
      | some base => d.absolute (base.join rest)

end SpecialFolder

end SafeFiles
