/-
Cutting text: into lines, and in two at a separator.
-/
namespace DiscPatch.Text

/-- A line without the carriage return that stood before its line feed. -/
def withoutReturn (line : List Char) : List Char :=
  if line.getLast? = some '\r' then line.dropLast else line

/-- The lines of a text. A line ends at a line feed or at a carriage return and a line feed; a
last line that is empty does not count. -/
def lines (cs : List Char) : List (List Char) :=
  let pieces := cs.splitOn '\n'
  pieces.dropLast.map withoutReturn ++ pieces.getLast?.toList.filter (· ≠ [])

/-- What stands before and after the first `sep`, if there is one. -/
def cutAt? (sep : Char) : List Char → Option (List Char × List Char)
  | [] => none
  | c :: cs =>
    if c = sep then some ([], cs) else (cutAt? sep cs).map fun (a, b) => (c :: a, b)

end DiscPatch.Text
