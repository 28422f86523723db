/-
Tables of command layouts as XML documents. Commands without an id are passed over; a missing
width is that of the commands element for ids, and one byte for all else.
-/
import DiscPatch.Command.Layout
import DiscPatch.Xml.Parser

namespace DiscPatch.Command

open Text Xml

/-- The width given by an element, or `standard` where it gives none. -/
def widthOf (n : Node) (standard : Nat) : Except Error Nat :=
  match n.attr? "bytes" with
  | none => .ok standard
  | some text =>
    match readUnsigned 10 4 (trimmed text.toList) with
    | .ok (width + 1) => .ok (width + 1)
    | _ => .error (.description (.width text n.tag))

/-- The id of a command, in base ten or, failing that, in base sixteen. -/
def idOf? (n : Node) : Option UInt32 :=
  ((n.attr? "value").bind decimalWord?).or ((n.attr? "hex").bind hexWord?)

/-- Reads a parameter. -/
def readParameter (n : Node) : Except Error Parameter := do
  let meaning := match n.attr? "type" with
    | some name => Meaning.ofName name
    | none => .number
  let width ← widthOf n 1
  return {
    name := (n.attr? "name").getD "Parameter"
    width
    meaning
    display := match n.attr? "mode" with
      | some name => Display.ofName name
      | none => Display.standard meaning }

/-- Reads the layout of the command with the given id. -/
def readLayout (standard : Nat) (id : UInt32) (n : Node) : Except Error Layout := do
  let width ← widthOf n standard
  let parameters ← (n.elements "Parameter").mapM readParameter
  return { id, name := (n.attr? "name").getD "Unknown", width, parameters }

/-- Reads the commands below a root element. -/
def readCommands (kind : Kind) (root : Node) : Except Error Table :=
  match root.withTag "Commands" with
  | [] => .error (.description .noCommands)
  | list :: _ => do
    let standard ← widthOf list 1
    (list.withTag "Command").foldlM (fun table n =>
      match idOf? n with
      | none => .ok table
      | some id => do table.insert (← readLayout standard id n)) (Table.empty kind)

/-- Reads a table from a document. -/
def Table.ofXml (kind : Kind) (text : String) : Except Error Table :=
  match Xml.parse? text with
  | some root => readCommands kind root
  | none => .error .malformedXml

/-- Reads a table from a file. -/
def Table.load (files : Files) (kind : Kind) (path : Path) : Except Error Table := do
  let text ← FileFault.lift (files.readText path)
  Table.ofXml kind text

end DiscPatch.Command
