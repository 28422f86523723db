/-
What a program sees of the file system: the contents of files, which paths are directories, and
the files below a directory. What it can do there besides looking is to write a file.
-/
import DiscPatch.Files.Path

namespace DiscPatch

/-- Why a file cannot be read or written. -/
inductive FileFault where
  /-- Nothing has that path. -/
  | notFound
  /-- A directory stands where a file is needed. -/
  | isADirectory
  /-- A file stands where a directory is needed. -/
  | notADirectory
  /-- Something else has that path already. -/
  | alreadyExists
  /-- The content is no text in UTF-8. -/
  | invalidData
  /-- A null character stands in the path. -/
  | nullInPath
  /-- The path, or a name in it, has too many bytes. -/
  | nameTooLong
  /-- The system gives no access for a reason of its own. -/
  | refused
  deriving DecidableEq, Repr

/-- The most bytes of a path. -/
def longestPath : Nat := 4095

/-- The most bytes of a name in a path. -/
def longestName : Nat := 255

/-- What keeps a path from leading anywhere, whatever files there are. -/
def Path.fault? (p : Path) : Option FileFault :=
  if '\x00' ∈ p.text.toList then some .nullInPath
  else if p.text = "" then some .notFound
  else if longestPath < p.text.utf8ByteSize then some .nameTooLong
  else none

/-- A view of the file system. -/
structure Files where
  /-- The bytes of a file. -/
  read : Path → Except FileFault ByteArray
  /-- Whether a path leads to a directory. -/
  isDirectory : Path → Bool
  /-- The files anywhere below a directory, by the names that lead to them, in any order. -/
  below : Path → List (List String)

/-- The text of a file. -/
def Files.readText (files : Files) (path : Path) : Except FileFault String := do
  let content ← files.read path
  match String.fromUTF8? content with
  | some text => .ok text
  | none => .error .invalidData

/-- A file system in use: `m` keeps what is there. -/
structure Disk (m : Type → Type) where
  /-- The file system as it is now. -/
  files : m Files
  write : Path → ByteArray → m (Except FileFault Unit)

end DiscPatch
