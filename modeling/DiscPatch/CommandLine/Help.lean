/-
What the program says about its use: what it is for, how it is called, and its subcommands and
options in two columns.
-/
import DiscPatch.CommandLine.Options

namespace DiscPatch.CommandLine

/-- What the program is called. -/
def programName : String := "asm-patcher"

/-- The program's name and version. -/
def versionText : String := programName ++ " 0.1.0\n"

/-! ## Rows -/

/-- The lines of a table of two columns, each row indented and the second column aligned. -/
def columns (rows : List (String × String)) : List String :=
  let width := (rows.map (·.1.length)).foldl max 0
  rows.map fun (left, right) =>
    "  " ++ String.ofList (left.toList.rightpad (width + 2) ' ') ++ right

/-- The option as it is written, with a name for its value. -/
def OptionSpec.form (o : OptionSpec) : String :=
  "--" ++ o.name ++ (if o.value = .none then "" else " <" ++ o.label ++ ">")

/-- What an option falls back to, and the words it takes. -/
def OptionSpec.notes (o : OptionSpec) : List String :=
  (o.fallback?.map fun s => "[default: " ++ s ++ "]").toList ++
    match o.value with
    | .word words => ["[possible values: " ++ ", ".intercalate words ++ "]"]
    | _ => []

/-- An option and what there is to say about it. -/
def OptionSpec.row (o : OptionSpec) : String × String :=
  let letter := match o.letter? with
    | some c => "-" ++ c.toString ++ ", "
    | none => "    "
  (letter ++ o.form, " ".intercalate ([o.about].filter (· ≠ "") ++ o.notes))

/-- The options of a subcommand together with those known everywhere: by their places in the two
lists, then by name. -/
def ranked (own : List OptionSpec) : List OptionSpec :=
  let before (a b : OptionSpec × Nat) : Bool :=
    a.2 < b.2 || (a.2 = b.2 && !(b.1.name < a.1.name))
  ((own.zipIdx ++ globalOptions.zipIdx).mergeSort before).map (·.1)

/-- The option that asks for help. -/
def helpRow : String × String := ("-h, --help", "Print help")

/-- The option that asks for the version. -/
def versionRow : String × String := ("-V, --version", "Print version")

/-- The subcommand that asks for help. -/
def helpCommandRow : String × String :=
  ("help", "Print this message or the help of the given subcommand(s)")

/-! ## Texts -/

/-- A text of help: what is described, how it is called, and tables with titles. -/
def helpPage (about call : String) (tables : List (String × List (String × String))) : String :=
  about ++ "\n\nUsage: " ++ programName ++ " " ++ call ++ "\n" ++
    String.join (tables.map fun (title, rows) =>
      "\n" ++ title ++ ":\n" ++ String.join ((columns rows).map (· ++ "\n")))

/-- Help on the program. -/
def programHelp : String :=
  helpPage "Applies XML-described patches to a disc image" "[OPTIONS] <COMMAND>"
    [("Commands", subcommands.map (fun s => (s.name, s.about)) ++ [helpCommandRow]),
     ("Options", (ranked []).map (·.row) ++ [helpRow, versionRow])]

/-- Help on a subcommand. -/
def Subcommand.help (s : Subcommand) : String :=
  let needed := (s.options.filter (·.required)).map (·.form)
  helpPage s.about (" ".intercalate ([s.name, "[OPTIONS]"] ++ needed))
    [("Options", (ranked s.options).map (·.row) ++ [helpRow])]

/-- Help on the subcommand that asks for help. -/
def helpOnHelp : String :=
  helpPage helpCommandRow.2 "help [COMMAND]..."
    [("Arguments", [("[COMMAND]...", "Print help for the subcommand(s)")])]

/-- Help on a subcommand, or on the program if none is given. -/
def helpText : Option String → String
  | none => programHelp
  | some name => ((subcommand? name).map (·.help)).getD helpOnHelp

end DiscPatch.CommandLine
