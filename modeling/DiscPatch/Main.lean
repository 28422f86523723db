/-
The program: takes a snapshot of the files that a run reads, and runs on it.
-/
import DiscPatch.CommandLine.Snapshot

namespace DiscPatch.CommandLine

/-! ## Reading -/

/-- The fault behind an error of the system. -/
def faultOf : IO.Error → FileFault
  | .noFileOrDirectory .. => .notFound
  | .inappropriateType _ 21 _ => .isADirectory
  | .inappropriateType _ 20 _ => .notADirectory
  | .alreadyExists .. => .alreadyExists
  | _ => .refused

/-- Reads a file. -/
def readContent (path : Path) : IO (Except FileFault ByteArray) := do
  if let some fault := path.fault? then return .error fault
  try return .ok (← IO.FS.readBinFile path.text)
  catch e => return .error (faultOf e)

/-- The names that lead to the files below a directory; what cannot be listed is left out. -/
partial def namesBelow (dir : String) : IO (List (List String)) := do
  try
    let entries ← ((← IO.currentDir) / dir).readDir
    let found ← entries.toList.mapM fun entry => do
      let name := entry.fileName
      match (← entry.path.symlinkMetadata).type with
      | .file => return [[name]]
      | .dir => return (← namesBelow (dir ++ "/" ++ name)).map (name :: ·)
      | _ => return []
    return found.flatten
  catch _ => return []

/-- The snapshot with what a run wants of what it does not hold yet. -/
def extend (s : Snapshot) (invocation : Invocation) : IO Snapshot := do
  let (files, dir?) := wanted s invocation
  let mut s := s
  for path in files do
    if (s.contents.lookup path).isNone then
      s := { s with contents := (path, ← readContent path) :: s.contents }
  if let some dir := dir? then
    if (s.directories.lookup dir).isNone && (← ((← IO.currentDir) / dir.text).isDir) then
      s := { s with directories := (dir, ← namesBelow dir.text) :: s.directories }
  return s

/-! ## Running -/

/-- The disk of the system, seen through a snapshot. -/
def systemDisk (s : Snapshot) : Disk IO where
  files := return s.files
  write path content := do
    try
      IO.FS.writeBinFile path.text content
      return .ok ()
    catch e => return .error (faultOf e)

/-- Runs on the files of the system. The settings, what they name, the descriptions of a directory
and what these name make a snapshot in four steps. -/
def runOnSystem (invocation : Invocation) : IO UInt32 := do
  let snapshot ← [(), (), (), ()].foldlM (fun s _ => extend s invocation) {}
  match ← (run (systemDisk snapshot) .release invocation).run with
  | .ok output =>
    IO.print output
    return 0
  | .error failure =>
    IO.eprintln (failureText failure)
    return failure.code.toUInt32

/-- Does what the arguments ask for. -/
def answer (args : List String) : IO UInt32 := do
  match readArguments args with
  | .run invocation => runOnSystem invocation
  | .version =>
    IO.print versionText
    return 0
  | .help topic? =>
    IO.print (helpText topic?)
    return 0
  | .unusable =>
    IO.eprint programHelp
    return 2

end DiscPatch.CommandLine

/-- Runs the program with its arguments. -/
def main (args : List String) : IO UInt32 :=
  DiscPatch.CommandLine.answer args
