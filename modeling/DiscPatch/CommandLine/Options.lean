/-
The subcommands of the command line and the options they know, with what help says about them.
-/
import DiscPatch.Text.Blank
import DiscPatch.Text.Lines

namespace DiscPatch.CommandLine

open Text

/-! ## Values -/

/-- What an option takes. -/
inductive Value where
  /-- No value at all. -/
  | none
  /-- A path, which may not be empty. -/
  | path
  | text
  /-- One of some words. -/
  | word (words : List String)
  /-- A name and a value around an equals sign, both of them more than blanks. -/
  | assignment
  deriving DecidableEq, Repr

/-- The name and the value of an assignment. -/
def assignment? (s : String) : Option (String × String) :=
  match cutAt? '=' s.toList with
  | some (front, back) =>
    let name := trimmed front
    let value := trimmed back
    if name = [] ∨ value = [] then none else some (String.ofList name, String.ofList value)
  | none => none

/-- Whether an option can take that value. -/
def Value.accepts (value : Value) (s : String) : Bool :=
  match value with
  | .none => false
  | .path => s != ""
  | .text => true
  | .word words => s ∈ words
  | .assignment => (assignment? s).isSome

/-! ## Options -/

/-- An option, by its long name. -/
structure OptionSpec where
  name : String
  value : Value
  /-- What help calls the value. -/
  label : String := ""
  about : String := ""
  /-- The letter that stands for the option behind a single hyphen. -/
  letter? : Option Char := none
  /-- The value where the option is not given. -/
  fallback? : Option String := none
  /-- Whether a call without the option is of no use. -/
  required : Bool := false
  /-- Whether it may be given more than once. -/
  repeats : Bool := false

/-- Where the settings are if no option says so. -/
def usualConfig : String := "patcher.json"

/-- The options that are known everywhere. -/
def globalOptions : List OptionSpec :=
  [{ name := "config", value := .path, label := "CONFIG", fallback? := usualConfig
     about := "Settings file; defaults apply when it does not exist" },
   { name := "platform", value := .word ["psx", "psp"], label := "PLATFORM" },
   { name := "sectors", value := .path, label := "SECTORS"
     about := "JSON sector table to use instead of the built-in one" },
   { name := "verbose", value := .none, letter? := 'v', about := "Log at debug level" }]

/-- The option that names the directory of the descriptions. -/
def dirOption : OptionSpec :=
  { name := "dir", value := .path, label := "DIR" }

/-- The option that names the command layouts of a script. -/
def templatesOption : OptionSpec :=
  { name := "templates", value := .path, label := "TEMPLATES" }

/-- The option that names the script to be shown. -/
def scriptOption : OptionSpec :=
  { name := "input", value := .path, label := "INPUT", required := true }

/-! ## Subcommands -/

/-- A subcommand and the options that only it knows. -/
structure Subcommand where
  name : String
  about : String
  options : List OptionSpec

/-- The subcommands. -/
def subcommands : List Subcommand :=
  [⟨"list", "List every patch found in the patch directory", [dirOption]⟩,
   ⟨"apply", "Apply patches to an image",
    [{ name := "image", value := .path, label := "IMAGE", required := true },
     { name := "output", value := .path, label := "OUTPUT"
       about := "Where to write the patched image; " ++
        "the input is patched in place when omitted" },
     dirOption,
     { name := "patch", value := .text, label := "PATCHES", repeats := true
       about := "Patch names to apply. Every visible patch is applied when none are given" },
     { name := "set", value := .assignment, label := "SETS", repeats := true
       about := "Variable override, `NAME=HEX`" },
     { name := "input", value := .assignment, label := "INPUTS", repeats := true
       about := "Import file for an import patch, `PATCH=PATH`" }]⟩,
   ⟨"export", "Re-serialise the loaded descriptions into one document",
    [dirOption, { name := "output", value := .path, label := "OUTPUT", required := true }]⟩,
   ⟨"conditionals", "Decode a conditional-set file to JSON",
    [{ name := "kind", value := .word ["battle", "world"], label := "KIND", required := true },
     scriptOption, templatesOption]⟩,
   ⟨"events", "Decode an event file to JSON", [scriptOption, templatesOption]⟩]

/-- The subcommand of that name. -/
def subcommand? (name : String) : Option Subcommand :=
  subcommands.find? (·.name = name)

end DiscPatch.CommandLine
