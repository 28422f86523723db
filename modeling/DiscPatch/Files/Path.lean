/-
Paths as text: names between slashes, where empty names and single dots inside a path do not
count.
-/
namespace DiscPatch

/-- The path of a file or directory, as it was given. -/
structure Path where
  text : String
  deriving DecidableEq, Repr, Inhabited

namespace Path

/-! ## Parts -/

/-- A backwards path without the slashes and the `/.` at its end; a lone slash stays. -/
def bare : List Char → List Char
  | '/' :: c :: cs => bare (c :: cs)
  | '.' :: '/' :: cs => bare ('/' :: cs)
  | cs => cs

/-- The backwards path without what does not count at its end. -/
def backwards (p : Path) : List Char :=
  bare p.text.toList.reverse

/-- The directory that holds what the path names; a path without a name has none. -/
def parent? (p : Path) : Option Path :=
  let cs := p.backwards
  if cs = [] ∨ cs = ['/'] then none
  else some ⟨String.ofList (bare (cs.dropWhile (· ≠ '/'))).reverse⟩

/-- The last name of the path; dots name no file. -/
def fileName? (p : Path) : Option String :=
  let name := (p.backwards.takeWhile (· ≠ '/')).reverse
  if name = [] ∨ name = ['.'] ∨ name = ['.', '.'] then none else some (String.ofList name)

/-- What stands behind the last dot of the file name, unless that dot is its first character. -/
def extension? (p : Path) : Option String :=
  match p.fileName? with
  | none => none
  | some name =>
    let back := name.toList.reverse
    match back.dropWhile (· ≠ '.') with
    | [] => none
    | [_] => none
    | _ => some (String.ofList (back.takeWhile (· ≠ '.')).reverse)

/-- Whether the path starts at the root. -/
def isAbsolute (p : Path) : Bool :=
  p.text.toList.head? = some '/'

/-! ## Joining -/

/-- The path `p` seen from the directory `dir`; an absolute path stays as it is. -/
def join (dir p : Path) : Path :=
  if p.isAbsolute ∨ dir.text = "" then p
  else if dir.text.toList.getLast? = some '/' then ⟨dir.text ++ p.text⟩
  else ⟨dir.text ++ "/" ++ p.text⟩

/-- The names between the slashes. -/
def names (p : Path) : List String :=
  ((p.text.toList.splitOn '/').filter (· ≠ [])).map String.ofList

end Path
end DiscPatch
