import SafeFiles.Command.Basic

/-!
# Reading a command line

A command line has two levels: what stands before the command's name, and what
follows it. Some switches may stand at either level; then the one behind the
command's name counts. Within one level a switch is given once, unless it collects
values.
-/

namespace SafeFiles

/-- Why a command line leads to no run. -/
inductive Halt where
  /-- It is not understood. -/
  | usage
  | version
  | help
  deriving DecidableEq, Repr

inductive Switch where
  | config
  | logLevel
  | debug
  | logFile
  | json
  | printConfig
  | initConfig
  | version
  | help
  | input
  | trash
  | noTrash
  | extension
  deriving DecidableEq, Repr

namespace Switch

def long : Switch → Text
  | .config => "config".toList
  | .logLevel => "log-level".toList
  | .debug => "debug".toList
  | .logFile => "log-file".toList
  | .json => "json".toList
  | .printConfig => "print-config".toList
  | .initConfig => "init-config".toList
  | .version => "version".toList
  | .help => "help".toList
  | .input => "input".toList
  | .trash => "trash".toList
  | .noTrash => "no-trash".toList
  | .extension => "ext".toList

def short? : Switch → Option Char
  | .debug => some 'd'
  | .version => some 'V'
  | .help => some 'h'
  | _ => none

def takesValue : Switch → Bool
  | .config | .logLevel | .logFile | .input | .extension => true
  | _ => false

def collects : Switch → Bool
  | .extension => true
  | _ => false

/-- Paths are not empty, and a level has to be one. -/
def accepts (s : Switch) (value : Text) : Bool :=
  match s with
  | .config | .logFile | .input => value ≠ []
  | .logLevel => (LogLevel.parse? value).isSome
  | _ => true

/-- The switches that may stand at either level. -/
def shared : List Switch := [.config, .logLevel, .debug, .logFile, .json, .help]

def beforeCommand : List Switch := shared ++ [.printConfig, .initConfig, .version]

end Switch

/-- What a level of a command line holds: switches with their values, and other arguments. -/
structure Level where
  given : List (Switch × Text) := []
  plain : List Text := []
  deriving DecidableEq, Repr

namespace Level

def has (l : Level) (s : Switch) : Bool := l.given.any (·.1 = s)

def value? (l : Level) (s : Switch) : Option Text := l.given.lookup s

def values (l : Level) (s : Switch) : List Text := (l.given.filter (·.1 = s)).map Prod.snd

def addPlain (l : Level) (argument : Text) : Level := { l with plain := l.plain ++ [argument] }

/-- Take up a switch. Asking for the version or for help ends the reading at once. -/
def give (l : Level) (s : Switch) (value : Text) : Except Halt Level :=
  if l.has s ∧ !s.collects ∨ !s.accepts value then .error .usage
  else match s with
    | .version => .error .version
    | .help => .error .help
    | s => .ok { l with given := l.given ++ [(s, value)] }

/-- Take up a run of one-letter switches. -/
def giveShort (allowed : List Switch) (l : Level) : Text → Except Halt Level
  | [] => .ok l
  | c :: rest =>
    match allowed.find? (·.short? = some c) with
    | none => .error .usage
    | some s => do giveShort allowed (← l.give s []) rest

end Level

/-- The shape of an argument. -/
inductive Shape where
  /-- Two dashes alone: only plain arguments follow. -/
  | fence
  | long (name : Text) (value : Option Text)
  | short (letters : Text)
  | plain
  deriving DecidableEq, Repr

namespace Shape

def of : Text → Shape
  | ['-', '-'] => .fence
  | '-' :: '-' :: rest =>
    match Text.cutAt (· = '=') rest with
    | (name, '=' :: value) => .long name (some value)
    | _ => .long rest none
  | ['-'] => .plain
  | '-' :: letters => .short letters
  | _ => .plain

end Shape

namespace Level

/-- Read a level up to its end, or to a plain argument that `stop` picks out; the answer holds that argument
and those after it. -/
def read (allowed : List Switch) (stop : Text → Bool) : List Text → Level → Except Halt (Level × List Text)
  | [], l => .ok (l, [])
  | argument :: rest, l =>
    match Shape.of argument with
    | .fence => .ok ({ l with plain := l.plain ++ rest }, [])
    | .plain =>
      if stop argument then .ok (l, argument :: rest) else read allowed stop rest (l.addPlain argument)
    | .short letters => do read allowed stop rest (← giveShort allowed l letters)
    | .long name value =>
      match allowed.find? (·.long = name), value, rest with
      | none, _, _ => .error .usage
      | some s, some value, rest =>
        if s.takesValue then do read allowed stop rest (← l.give s value) else .error .usage
      | some s, none, rest =>
        if !s.takesValue then do read allowed stop rest (← l.give s [])
        else match rest with
          | [] => .error .usage
          | value :: rest =>
            -- A value that looks like a switch has to follow an equals sign.
            match Shape.of value with
            | .plain => do read allowed stop rest (← l.give s value)
            | _ => .error .usage

/-- A level cannot name a log level and ask for debugging as well. -/
def isConsistent (l : Level) : Bool :=
  !(l.has .logLevel && l.has .debug) && !(l.has .trash && l.has .noTrash)

end Level

inductive Verb where
  | move
  | save
  | copyTree
  | delete
  | size
  | list
  | conflicts
  | check
  deriving DecidableEq, Repr

namespace Verb

def name : Verb → Text
  | .move => "move".toList
  | .save => "save".toList
  | .copyTree => "copy-tree".toList
  | .delete => "delete".toList
  | .size => "size".toList
  | .list => "list".toList
  | .conflicts => "conflicts".toList
  | .check => "check".toList

def all : List Verb := [.move, .save, .copyTree, .delete, .size, .list, .conflicts, .check]

def ofName? (name : Text) : Option Verb := all.find? (·.name = name)

/-- The switches of its own. -/
def switches : Verb → List Switch
  | .save => [.input]
  | .delete => [.trash, .noTrash]
  | .list => [.extension]
  | _ => []

/-- The command that a verb and its level give. Paths are not empty. -/
def command? (v : Verb) (l : Level) : Option Command :=
  match v, l.plain with
  | .move, [c :: src, e :: dst] => some (.move (c :: src) (e :: dst))
  | .save, [c :: folder, name] => some (.save (c :: folder) name (l.value? .input))
  | .copyTree, [c :: src, e :: dst] => some (.copyTree (c :: src) (e :: dst))
  | .delete, [c :: path] => some (.delete (c :: path) (l.has .trash) (l.has .noTrash))
  | .size, [c :: path] => some (.size (c :: path))
  | .list, [c :: root] =>
    some (.list (c :: root) ((l.values .extension).flatMap (Text.pieces ',')))
  | .conflicts, [c :: a, e :: b] => some (.conflicts (c :: a) (e :: b))
  | .check, [c :: parent, e :: child] => some (.check (c :: parent) (e :: child))
  | _, _ => none

end Verb

namespace Arguments

/-- The arguments of two levels together. What stands behind the command's name comes first. -/
def ofLevels (outer inner : Level) (command : Option Command) : Arguments where
  config := (inner.value? .config).or (outer.value? .config)
  logLevel := ((inner.value? .logLevel).or (outer.value? .logLevel)).bind LogLevel.parse?
  debug := outer.has .debug || inner.has .debug
  logFile := (inner.value? .logFile).or (outer.value? .logFile)
  json := outer.has .json || inner.has .json
  printConfig := outer.has .printConfig
  initConfig := outer.has .initConfig
  command := command

/-- Read a command line, without the name of the program. -/
def parse (line : List Text) : Except Halt Arguments := do
  let (outer, rest) ← Level.read Switch.beforeCommand (fun _ => true) line {}
  match rest with
  | [] =>
    if outer.plain ≠ [] ∨ !outer.isConsistent then .error .usage
    else .ok (ofLevels outer {} none)
  | name :: rest =>
    match Verb.ofName? name with
    | none => .error .usage
    | some verb =>
      let (inner, _) ← Level.read (Switch.shared ++ verb.switches) (fun _ => false) rest {}
      match verb.command? inner with
      | none => .error .usage
      | some command =>
        if outer.isConsistent ∧ inner.isConsistent then .ok (ofLevels outer inner (some command))
        else .error .usage

end Arguments

end SafeFiles
