/-
Files and directories below a working directory, as a value. Each is found by its names from the
working directory down; a change gives the tree that it leaves.
-/
import DiscPatch.Files

namespace DiscPatch

/-- What a path can lead to. -/
inductive Entry where
  | file (content : ByteArray)
  | directory

/-- What lies below the working directory; every name leads through directories that are listed
too. Places outside start with `..` for each step up, or with `/` for the root. -/
structure FileTree where
  entries : List (List String × Entry)

namespace FileTree

/-- A working directory that holds nothing. -/
def empty : FileTree := ⟨[]⟩

/-! ## Looking up -/

/-- Whether a place is the working directory, one above it, or the root, which all exist. -/
def isAbove (names : List String) : Bool :=
  names = ["/"] || names.all (· = "..")

/-- What stands at the given place. -/
def entry? (tree : FileTree) (names : List String) : Option Entry :=
  if isAbove names then some .directory else tree.entries.lookup names

/-- The place that a name leads to from the directory `here`. -/
def enter (here : List String) (name : String) : List String :=
  if name = "." then here
  else if name ≠ ".." then here ++ [name]
  else if here = ["/"] then here
  else if isAbove here then here ++ [".."]
  else here.dropLast

/-- Follows names from the place `here`, which has to be a directory whenever a step is taken. -/
def follow (tree : FileTree) (here : List String) : List String → Except FileFault (List String)
  | [] => .ok here
  | name :: rest =>
    match tree.entry? here with
    | none => .error .notFound
    | some (.file _) => .error .notADirectory
    | some .directory =>
      if longestName < name.utf8ByteSize then .error .nameTooLong
      else tree.follow (enter here name) rest

/-- The place where the names of a path are followed from. -/
def origin (path : Path) : List String :=
  if path.isAbsolute then ["/"] else []

/-- The place a path leads to, be it taken or free. -/
def locate (tree : FileTree) (path : Path) : Except FileFault (List String) :=
  match path.fault? with
  | some fault => .error fault
  | none => tree.follow (origin path) path.names

/-- Whether the path ends in a slash and so can only lead to a directory. -/
def wantsDirectory (path : Path) : Bool :=
  path.text.toList.getLast? = some '/'

/-- Whether the path leads to a directory. -/
def isDirectory (tree : FileTree) (path : Path) : Bool :=
  match tree.locate path with
  | .error _ => false
  | .ok names =>
    match tree.entry? names with
    | some .directory => true
    | _ => false

/-- The bytes of a file. -/
def read (tree : FileTree) (path : Path) : Except FileFault ByteArray := do
  let names ← tree.locate path
  match tree.entry? names with
  | none => .error .notFound
  | some .directory => .error .isADirectory
  | some (.file content) =>
    if wantsDirectory path then .error .notADirectory else .ok content

/-- The names, seen from a directory, of all files below it. -/
def below (tree : FileTree) (dir : Path) : List (List String) :=
  match tree.locate dir with
  | .error _ => []
  | .ok here =>
    tree.entries.filterMap fun (names, entry) =>
      match entry, here.isPrefixOf? names with
      | .file _, some rest => some rest
      | _, _ => none

/-! ## Changing -/

/-- The tree with `entry` at the given names. -/
def put (tree : FileTree) (names : List String) (entry : Entry) : FileTree :=
  ⟨tree.entries.filter (·.1 ≠ names) ++ [(names, entry)]⟩

/-- The tree after the file at `path` has been written. No file can be written to a path that ends
in a slash, if only there is a directory before its last name. -/
def write (tree : FileTree) (path : Path) (content : ByteArray) : Except FileFault FileTree :=
  match path.fault?, wantsDirectory path with
  | some fault, _ => .error fault
  | none, true => do
    let _ ← tree.follow (origin path) (path.names.dropLast ++ ["."])
    .error .isADirectory
  | none, false => do
    let names ← tree.locate path
    match tree.entry? names with
    | some .directory => .error .isADirectory
    | _ => return tree.put names (.file content)

/-- The tree with one more directory. -/
def makeDirectory (tree : FileTree) (path : Path) : Except FileFault FileTree := do
  let names ← tree.locate path
  match tree.entry? names with
  | some _ => .error .alreadyExists
  | none => return tree.put names .directory

/-- What a change of several steps leaves: the tree after the steps that were taken, and the fault
that ended them early. -/
structure Change where
  tree : FileTree
  fault? : Option FileFault := none

/-- The change with one more step, taken unless a fault has come before. -/
def Change.andThen (change : Change) (step : FileTree → Except FileFault FileTree) : Change :=
  match change.fault? with
  | some _ => change
  | none =>
    match step change.tree with
    | .ok tree => { tree }
    | .error fault => ⟨change.tree, some fault⟩

/-- The tree with a directory at `path`, which may be there already. -/
def haveDirectory (tree : FileTree) (path : Path) : Except FileFault FileTree :=
  match tree.makeDirectory path with
  | .ok tree => .ok tree
  | .error fault => if tree.isDirectory path then .ok tree else .error fault

/-- The tree with the directory at `path` and those above it, at most `depth` of them new. -/
def makeDirectoriesWithin (tree : FileTree) : Nat → Path → Change
  | 0, _ => { tree }
  | depth + 1, path =>
    if path.text = "" then { tree }
    else
      match tree.haveDirectory path, path.parent? with
      | .ok tree, _ => { tree }
      | .error .notFound, some above =>
        (tree.makeDirectoriesWithin depth above).andThen (·.haveDirectory path)
      | .error fault, _ => ⟨tree, some fault⟩

/-- The tree with the directory at `path` and those above it. -/
def makeDirectories (tree : FileTree) (path : Path) : Change :=
  tree.makeDirectoriesWithin (path.text.length + 1) path

/-- The tree with `entry` at `path` and with every directory that leads there. -/
def plant (tree : FileTree) (path : Path) (entry : Entry) : FileTree :=
  let names := path.names
  let place (n : Nat) := (names.take n).foldl enter []
  let tree := (List.range names.length).tail.foldl (fun tree n =>
    if (tree.entry? (place n)).isSome then tree else tree.put (place n) .directory) tree
  tree.put (place names.length) entry

/-- The tree as a program sees it. -/
def files (tree : FileTree) : Files where
  read := tree.read
  isDirectory := tree.isDirectory
  below := tree.below

/-- A tree in use. -/
def disk : Disk (StateM FileTree) where
  files := return (← get).files
  write path content := do
    match (← get).write path content with
    | .ok tree =>
      set tree
      return .ok ()
    | .error fault => return .error fault

end FileTree
end DiscPatch
