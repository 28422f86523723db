/-
The arguments of the command line. Options may stand before and after the subcommand where they
are known there; the value of an option follows it, or stands behind an equals sign. The first
fault from the left makes the arguments unusable, unless a request for help or for the version
stands before it. A value in front of the subcommand is looked at only after what follows.
-/
import DiscPatch.CommandLine.Options
import DiscPatch.Files.Path
import DiscPatch.Sector

namespace DiscPatch.CommandLine

open Text

/-! ## Requests -/

/-- What the program is to do. -/
inductive Action where
  | list (dir? : Option Path)
  | apply (image : Path) (output? dir? : Option Path) (patches : List String)
      (sets inputs : List (String × String))
  | exportAll (dir? : Option Path) (output : Path)
  | conditionals (inBattle : Bool) (input : Path) (layouts? : Option Path)
  | events (input : Path) (layouts? : Option Path)
  deriving DecidableEq, Repr

/-- A run of the program: where its settings are, what overrides them, and what to do. -/
structure Invocation where
  config : Path
  platform? : Option Platform
  sectors? : Option Path
  action : Action
  deriving DecidableEq, Repr

/-- What arguments ask for. -/
inductive Request where
  | run (invocation : Invocation)
  | version
  /-- Help on a subcommand, or on the program if none is given. -/
  | help (topic? : Option String)
  /-- The arguments make no sense. -/
  | unusable
  deriving DecidableEq, Repr

/-! ## Reading -/

/-- Options that were given, with their values. -/
abbrev Given := List (String × String)

/-- How the reading of one level of arguments ends. -/
inductive Ending where
  /-- All arguments are read. -/
  | finished (given : Given)
  /-- A word that is no option comes next; `sound` tells whether the option in front of it can have
  its value. -/
  | wordNext (given : Given) (sound : Bool) (word : String) (rest : List String)
  | version
  | help
  | unusable

/-- The options with one more, unless it may not be given again. -/
def record? (spec : OptionSpec) (value : String) (given : Given) : Option Given :=
  if !spec.repeats && given.any (·.1 = spec.name) then none
  else some (given ++ [(spec.name, value)])

/-- Whether an argument can be the value of the option before it. -/
def isValue (s : String) : Bool :=
  s = "-" || s.toList.head? != some '-'

/-- Reads the letters behind a single hyphen: those of options without a value, that for help, and
at the top level that for the version. -/
def readLetters (top : Bool) (specs : List OptionSpec) (given : Given) :
    List Char → Except Ending Given
  | [] => .ok given
  | 'h' :: _ => .error .help
  | 'V' :: _ => .error (if top then .version else .unusable)
  | c :: rest =>
    match (specs.find? (·.letter? = some c)).bind (record? · "" given) with
    | some given => readLetters top specs given rest
    | none => .error .unusable

/-- Reads options up to the first other word. -/
def readOptions (top : Bool) (specs : List OptionSpec) (given : Given) : List String → Ending
  | [] => .finished given
  | arg :: rest =>
    match arg.toList with
    | ['-', '-'] => if rest = [] then .finished given else .unusable
    | '-' :: '-' :: long =>
      let (name, attached) := match cutAt? '=' long with
        | some (name, value) => (String.ofList name, some (String.ofList value))
        | none => (String.ofList long, none)
      if name = "help" then if attached.isNone then .help else .unusable
      else if name = "version" ∧ top then if attached.isNone then .version else .unusable
      else
        match specs.find? (·.name = name) with
        | none => .unusable
        | some spec =>
          match spec.value, attached, rest with
          | .none, none, rest =>
            match record? spec "" given with
            | some given => readOptions top specs given rest
            | none => .unusable
          | .none, some _, _ => .unusable
          | value, some s, rest =>
            match value.accepts s, record? spec s given with
            | true, some given => readOptions top specs given rest
            | _, _ => .unusable
          | value, none, s :: rest =>
            match value.accepts s, record? spec s given, rest with
            | true, some given, rest =>
              if isValue s then readOptions top specs given rest else .unusable
            | _, _, word :: rest =>
              if isValue s && isValue word then .wordNext given false word rest else .unusable
            | _, _, [] => .unusable
          | _, none, [] => .unusable
    | '-' :: letter :: letters =>
      match readLetters top specs given (letter :: letters) with
      | .ok given => readOptions top specs given rest
      | .error ending => ending
    | _ => .wordNext given true arg rest

/-- The value of an option given at most once. -/
def Given.one? (given : Given) (name : String) : Option String :=
  given.lookup name

/-- The path of an option given at most once. -/
def Given.path? (given : Given) (name : String) : Option Path :=
  (given.lookup name).map Path.mk

/-- The values of an option given any number of times. -/
def Given.all (given : Given) (name : String) : List String :=
  (given.filter (·.1 = name)).map (·.2)

/-- The action of a subcommand, unless one of its options is missing. -/
def action? (word : String) (given : Given) : Option Action :=
  let dir? := given.path? "dir"
  let layouts? := given.path? "templates"
  match word with
  | "list" => some (.list dir?)
  | "apply" => do
    let image ← given.path? "image"
    return .apply image (given.path? "output") dir? (given.all "patch")
      ((given.all "set").filterMap assignment?) ((given.all "input").filterMap assignment?)
  | "export" => do
    let output ← given.path? "output"
    return .exportAll dir? output
  | "conditionals" => do
    let kind ← given.one? "kind"
    let input ← given.path? "input"
    return .conditionals (kind = "battle") input layouts?
  | "events" => do
    let input ← given.path? "input"
    return .events input layouts?
  | _ => none

/-- What the words behind `help` ask for: at most the name of one subcommand. -/
def readHelp : List String → Request
  | [] => .help none
  | [word] =>
    if word = "help" ∨ (subcommand? word).isSome then .help (some word) else .unusable
  | _ => .unusable

/-- Reads the arguments behind a subcommand; what is given there goes before what was given in
front of it. -/
def readSubcommand (outer : Given) (sound : Bool) (word : String) (args : List String) : Request :=
  match subcommand? word with
  | none => if word = "help" then readHelp args else .unusable
  | some subcommand =>
    match readOptions false (subcommand.options ++ globalOptions) [] args with
    | .finished inner =>
      let given := inner ++ outer
      match sound, action? word given with
      | true, some action => .run {
          config := (given.path? "config").getD ⟨usualConfig⟩
          platform? := (given.one? "platform").bind Platform.ofName?
          sectors? := given.path? "sectors"
          action }
      | _, _ => .unusable
    | .help => .help (some word)
    | .version => .version
    | .wordNext .. => .unusable
    | .unusable => .unusable

/-- Reads the arguments of the program. -/
def readArguments (args : List String) : Request :=
  match readOptions true globalOptions [] args with
  | .finished _ => .unusable
  | .wordNext given sound word rest => readSubcommand given sound word rest
  | .version => .version
  | .help => .help none
  | .unusable => .unusable

end DiscPatch.CommandLine
