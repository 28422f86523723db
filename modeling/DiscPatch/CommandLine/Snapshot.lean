/-
Snapshots of a file system, which hold what a run of the program reads. What it reads next can be
told from what it has read: first its settings, then what these and the arguments name, then the
descriptions of a directory, and then what the descriptions name.
-/
import DiscPatch.CommandLine.Run
import DiscPatch.Description.Sources

namespace DiscPatch.CommandLine

/-- Files with what reading them gave, and directories with the names of the files below them. -/
structure Snapshot where
  contents : List (Path × Except FileFault ByteArray) := []
  directories : List (Path × List (List String)) := []

namespace Snapshot

/-- The snapshot as a program sees it. -/
def files (s : Snapshot) : Files where
  read path := (s.contents.lookup path).getD (.error .notFound)
  isDirectory path := (s.directories.lookup path).isSome
  below path := (s.directories.lookup path).getD []

/-- The descriptions in the directories, and the files named by those that have been read. -/
def described (s : Snapshot) : List Path :=
  s.directories.flatMap fun (dir, _) =>
    (Description.descriptionFiles s.files dir).flatMap fun path =>
      match s.files.readText path with
      | .ok text => path :: Description.sources path text
      | .error _ => [path]

end Snapshot

/-! ## What an action reads -/

/-- The directory of patches that an action loads. -/
def patchDirectory? (settings : Settings) : Action → Option Path
  | .list dir? => dir?.or settings.patchDirectory?
  | .apply _ _ dir? .. => dir?.or settings.patchDirectory?
  | .exportAll dir? _ => dir?.or settings.patchDirectory?
  | .conditionals .. | .events .. => none

/-- The files that an action reads, apart from a directory. -/
def filesOf (settings : Settings) : Action → List Path
  | .list _ | .exportAll .. => settings.sectorTable?.toList
  | .apply image _ _ _ _ inputs =>
    settings.sectorTable?.toList ++ image :: inputs.map fun input => ⟨input.2⟩
  | .conditionals inBattle input layouts? =>
    let kind := if inBattle then .battleConditional else .worldConditional
    input :: (layouts?.or (settings.layoutPath? kind)).toList
  | .events input layouts? =>
    input :: (layouts?.or (settings.layoutPath? .eventCommand)).toList

/-- What a run reads, as far as a snapshot tells: files, and maybe a directory. -/
def wanted (s : Snapshot) (invocation : Invocation) : List Path × Option Path :=
  if (s.contents.lookup invocation.config).isNone then ([invocation.config], none)
  else
    match settingsOf s.files invocation with
    | .error _ => ([], none)
    | .ok settings =>
      (filesOf settings invocation.action ++ s.described,
        patchDirectory? settings invocation.action)

end DiscPatch.CommandLine
