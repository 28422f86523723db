/-
Runs that apply patches to an image. Such a run goes through stages, each of which can fail, and writes its one file
behind the last of them; so a run that fails leaves every file as it was, and any other run writes the image that the
patches leave one after the other, and nothing else.
-/
import DiscPatch.Proofs.CommandLine.Selection
import DiscPatch.Proofs.CommandLine.Steps
import DiscPatch.Proofs.Edit.Builds

namespace DiscPatch.CommandLine

open Assembly

/-! ## Writing patches -/

/-- A patch, brought up to date, writes all its edits into an image. -/
def WritesEdits (build : Build) (space : AddressSpace) (image : ByteArray) (p : Patch) (result : ByteArray) : Prop :=
  ∃ edits, (p.update directives).edits = .ok edits ∧ Edit.writeAs build space edits image = .ok result

theorem editsOf_eq_ok_iff {p : Patch} {edits : List Edit} :
    editsOf p = .ok edits ↔ (p.update directives).edits = .ok edits :=
  during_eq_ok_iff

/-- The edits of all patches are collected and written at once; the patches could as well write theirs one after the
other. -/
theorem writeAs_flatten_iff {build : Build} {space : AddressSpace} {patches : List Patch} {image result : ByteArray} :
    (∃ edits, patches.mapM editsOf = .ok edits ∧ Edit.writeAs build space edits.flatten image = .ok result) ↔
      InTurn (WritesEdits build space) image patches result := by
  induction patches generalizing image with
  | nil =>
    constructor
    · rintro ⟨edits, h, hwrite⟩
      cases h
      cases hwrite
      exact .nil _
    · intro h
      cases h
      exact ⟨[], rfl, rfl⟩
  | cons p rest ih =>
    constructor
    -- Edits are checked before any is written, but writing keeps the size, so the check can be made in turn.
    · rintro ⟨edits, h, hwrite⟩
      obtain ⟨own, others, hown, hothers, rfl⟩ := List.forall₂_cons_left_iff.1 (mapM_eq_ok_iff.1 h)
      rw [List.flatten_cons] at hwrite
      obtain ⟨between, hbetween, hwrite⟩ := Edit.writeAs_append_eq_ok_iff.1 hwrite
      exact .cons ⟨own, editsOf_eq_ok_iff.1 hown, hbetween⟩ (ih.1 ⟨others, mapM_eq_ok_iff.2 hothers, hwrite⟩)
    · intro h
      cases h with
      | cons hp hrest =>
        obtain ⟨own, hown, hbetween⟩ := hp
        obtain ⟨others, hothers, hwrite⟩ := ih.2 hrest
        refine ⟨own :: others, ?_, ?_⟩
        · rw [mapM_eq_ok_iff]
          exact .cons (editsOf_eq_ok_iff.2 hown) (mapM_eq_ok_iff.1 hothers)
        · rw [List.flatten_cons]
          exact Edit.writeAs_append_eq_ok_iff.2 ⟨_, hbetween, hwrite⟩

theorem written_eq_ok_iff {α : Type} {x : Except Edit.Obstacle α} {a : α} : written x = .ok a ↔ x = .ok a := by
  rcases x with (_ | _) | b
  · exact iff_of_false (fun h => by cases h) fun h => by cases h
  · exact iff_of_false (fun h => by cases h) fun h => by cases h
  · exact ⟨fun h => congrArg Except.ok (Except.ok.inj h), fun h => congrArg Except.ok (Except.ok.inj h)⟩

/-! ## Stages -/

/-- The stages of a run that applies patches, with what each of them leaves. -/
structure Application (build : Build) (files : Files) (invocation : Invocation) (image : Path) (dir? : Option Path)
    (names : List String) (sets inputs : List (String × String)) where
  settings : Settings
  table : SectorTable
  dir : Path
  loaded : List Patch
  selected : List Patch
  overridden : List Patch
  filled : List Patch
  content : ByteArray
  patched : ByteArray
  settingsRead : settingsOf files invocation = .ok settings
  tableRead : settings.sectorTable files = .ok table
  dirGiven : dir?.or settings.patchDirectory? = some dir
  patchesLoaded : Description.loadDirectory { space := table.space, assembler := directives, files } dir = .ok loaded
  patchesSelected : Selected loaded names selected
  overridesMade : InTurn Overrides selected sets overridden
  filesGiven : InTurn (GivenFile files) overridden inputs filled
  imageRead : files.read image = .ok content
  patchesWritten : InTurn (WritesEdits build table.space) content filled patched

section

variable {build : Build} {files : Files} {invocation : Invocation} {image : Path} {output? dir? : Option Path}
  {names : List String} {sets inputs : List (String × String)}

theorem patchesOf_eq_ok_iff {settings : Settings} {table : SectorTable} {loaded : List Patch} :
    patchesOf files settings dir? = .ok (table, loaded) ↔ settings.sectorTable files = .ok table ∧
      ∃ dir, dir?.or settings.patchDirectory? = some dir ∧
        Description.loadDirectory { space := table.space, assembler := directives, files } dir = .ok loaded := by
  unfold patchesOf
  constructor
  · intro h
    obtain ⟨table', htable, h⟩ := bind_eq_ok h
    split at h
    · cases h
    · rename_i dir hdir
      obtain ⟨loaded', hloaded, h⟩ := bind_eq_ok h
      cases h
      exact ⟨orFail_eq_ok_iff.1 htable, dir, hdir, during_eq_ok_iff.1 hloaded⟩
  · rintro ⟨htable, dir, hdir, hloaded⟩
    rw [orFail_eq_ok_iff.2 htable, ok_bind, hdir]
    dsimp only
    rw [during_eq_ok_iff.2 hloaded]
    rfl

/-- The stages succeed exactly when each of them does, and come to the image behind the last of them. -/
theorem patchedFrom_eq_ok_iff {patched : ByteArray} :
    (settingsOf files invocation >>= fun settings =>
      patchedFrom files build settings image dir? names sets inputs) = .ok patched ↔
      ∃ a : Application build files invocation image dir? names sets inputs, a.patched = patched := by
  constructor
  · intro h
    obtain ⟨settings, hsettings, h⟩ := bind_eq_ok h
    obtain ⟨⟨table, loaded⟩, hloaded, h⟩ := bind_eq_ok h
    obtain ⟨selected, hselected, h⟩ := bind_eq_ok h
    obtain ⟨overridden, hsets, h⟩ := bind_eq_ok h
    obtain ⟨filled, hinputs, h⟩ := bind_eq_ok h
    obtain ⟨content, hcontent, h⟩ := bind_eq_ok h
    obtain ⟨edits, hedits, h⟩ := bind_eq_ok h
    obtain ⟨htable, dir, hdir, hdirectory⟩ := patchesOf_eq_ok_iff.1 hloaded
    exact ⟨{
      settings, table, dir, loaded, selected, overridden, filled, content, patched
      settingsRead := hsettings
      tableRead := htable
      dirGiven := hdir
      patchesLoaded := hdirectory
      patchesSelected := select_eq_ok_iff.1 hselected
      overridesMade := (foldlM_eq_ok_iff_inTurn fun _ _ _ => setEverywhere_eq_ok_iff).1 hsets
      filesGiven := (foldlM_eq_ok_iff_inTurn fun _ _ _ => giveFile_eq_ok_iff).1 hinputs
      imageRead := during_eq_ok_iff.1 hcontent
      patchesWritten := writeAs_flatten_iff.1 ⟨edits, hedits, written_eq_ok_iff.1 h⟩ }, rfl⟩
  · rintro ⟨a, rfl⟩
    obtain ⟨edits, hedits, hpatched⟩ := writeAs_flatten_iff.2 a.patchesWritten
    have hloaded := patchesOf_eq_ok_iff.2 ⟨a.tableRead, a.dir, a.dirGiven, a.patchesLoaded⟩
    have hsets := (foldlM_eq_ok_iff_inTurn fun _ _ _ => setEverywhere_eq_ok_iff).2 a.overridesMade
    have hinputs := (foldlM_eq_ok_iff_inTurn
      (f := fun patches input => giveFile files input patches) fun _ _ _ => giveFile_eq_ok_iff).2 a.filesGiven
    rw [a.settingsRead, ok_bind]
    unfold patchedFrom
    rw [hloaded, ok_bind]
    dsimp only
    rw [select_eq_ok_iff.2 a.patchesSelected, ok_bind, hsets, ok_bind, hinputs, ok_bind,
      during_eq_ok_iff.2 a.imageRead, ok_bind, hedits, ok_bind, written_eq_ok_iff.2 hpatched]

/-- A run that applies patches goes through its stages, and then writes the image behind the last of them. -/
theorem run_apply (haction : invocation.action = .apply image output? dir? names sets inputs) (tree : FileTree) :
    (run FileTree.disk build invocation).run tree =
      match settingsOf tree.files invocation >>= fun settings =>
        patchedFrom tree.files build settings image dir? names sets inputs with
      | .error failure => (.error failure, tree)
      | .ok patched =>
        match tree.write (output?.getD image) patched with
        | .ok written => (.ok "", written)
        | .error _ => (.error (.writing (output?.getD image)), tree) := by
  unfold run
  rw [haction, (looks_look _).run_bind]
  cases settingsOf tree.files invocation with
  | error failure => rfl
  | ok settings =>
    rw [ok_bind]
    dsimp only
    unfold runApply
    rw [(looks_patchedImage _ _ _ _ _ _ _).run_bind]
    cases patchedFrom tree.files build settings image dir? names sets inputs with
    | error failure => rfl
    | ok patched => exact run_save_bind_pure ..

/-! ## Calls -/

/-- A call that applies patches writes all or nothing. It ends with a failure where one of its stages fails, or where
the output cannot be written, and then no file changes. Otherwise the output, or the image itself where no output is
given, is the only file that changes, and it holds the image with the edits of each patch in its turn. -/
theorem call_apply {args : List String} (hargs : readArguments args = .run invocation)
    (haction : invocation.action = .apply image output? dir? names sets inputs) (build : Build) (tree : FileTree) :
    let target := output?.getD image
    let result := call tree args build
    (IsEmpty (Application build tree.files invocation image dir? names sets inputs) ∧
      ∃ failure : Failure, result = ⟨failure.code, "", failureText failure, tree⟩) ∨
    ∃ a : Application build tree.files invocation image dir? names sets inputs,
      ((∃ fault, tree.write target a.patched = .error fault) ∧
        result = ⟨1, "", failureText (.writing target), tree⟩) ∨
      (result.code = 0 ∧ tree.Writes target a.patched result.tree) := by
  intro target result
  have hcall : result = call tree args build := rfl
  unfold call at hcall
  rw [hargs] at hcall
  dsimp only at hcall
  rw [run_apply haction] at hcall
  cases hstages : settingsOf tree.files invocation >>= fun settings =>
      patchedFrom tree.files build settings image dir? names sets inputs with
  | error failure =>
    rw [hstages] at hcall
    -- The run has failed, and with all stages behind it it would not have.
    refine .inl ⟨⟨fun a => ?_⟩, failure, hcall⟩
    rw [patchedFrom_eq_ok_iff.2 ⟨a, rfl⟩] at hstages
    cases hstages
  | ok patched =>
    obtain ⟨a, rfl⟩ := patchedFrom_eq_ok_iff.1 hstages
    rw [hstages] at hcall
    dsimp only at hcall
    refine .inr ⟨a, ?_⟩
    cases hwrite : tree.write target a.patched with
    | error fault =>
      rw [hwrite] at hcall
      exact .inl ⟨⟨fault, rfl⟩, hcall⟩
    | ok changed =>
      rw [hwrite] at hcall
      rw [hcall]
      exact .inr ⟨rfl, FileTree.writes_of_write hwrite⟩

end

/-- A patch that writes a variable, and one that writes two bytes to the same place. -/
def rivalPatches : String :=
  "<Patches><Patch name=\"A\" sector=\"0\"><Variable name=\"V\" offset=\"0\"/></Patch>"
    ++ "<Patch name=\"B\" sector=\"0\"><Location offset=\"0\">BBBB</Location></Patch></Patches>"

/-- An image of three bytes, and a directory with both patches. -/
def workbench : FileTree :=
  ⟨[(["i"], .file ⟨#[0, 0, 0]⟩), (["p"], .directory), (["p", "a.xml"], .file rivalPatches.toUTF8)]⟩

/-- Asks for the patches in the order that the directory does not have, with an override. -/
def rivalArguments : List String :=
  ["apply", "--image", "i", "--output", "o", "--dir", "p", "--patch", "b", "--patch", "a", "--set", "V=5"]

theorem call_apply_rivals :
    let invocation : Invocation :=
      ⟨⟨"patcher.json"⟩, none, none, .apply ⟨"i"⟩ (some ⟨"o"⟩) (some ⟨"p"⟩) ["b", "a"] [("V", "5")] []⟩
    readArguments rivalArguments = .run invocation ∧
      ∃ a : Application .release workbench.files invocation ⟨"i"⟩ (some ⟨"p"⟩) ["b", "a"] [("V", "5")] [],
        a.patched = ⟨#[5, 0xBB, 0]⟩ ∧ (call workbench rivalArguments).code = 0 ∧
          workbench.Writes ⟨"o"⟩ a.patched (call workbench rivalArguments).tree := by
  intro invocation
  have hargs : readArguments rivalArguments = .run invocation := by decide +kernel
  have hrun : (call workbench rivalArguments).code = 0 ∧
      (call workbench rivalArguments).tree.read ⟨"o"⟩ = .ok ⟨#[5, 0xBB, 0]⟩ := by decide +kernel
  obtain ⟨hcode, hread⟩ := hrun
  refine ⟨hargs, ?_⟩
  rcases call_apply hargs rfl .release workbench with ⟨-, failure, h⟩ | ⟨a, ⟨-, h⟩ | ⟨-, hwrites⟩⟩
  · rw [h] at hcode
    exact absurd hcode failure.code_ne_zero
  · rw [h] at hcode
    cases hcode
  · refine ⟨a, ?_, hcode, hwrites⟩
    exact Except.ok.inj (hwrites.stored.symm.trans hread)

/-- A patch that writes the byte behind the last position, the table with a file there, and an image. -/
def brink : FileTree :=
  ⟨[(["i"], .file ⟨#[0, 0, 0]⟩), (["t"], .file Edit.brinkTable.toJson.compact.toUTF8), (["p"], .directory),
    (["p", "a.xml"], .file ("<Patches><Patch name=\"x\" sector=\"0\"><Location offset=\"1\">BB</Location></Patch>"
      ++ "</Patches>").toUTF8)]⟩

/-- A build for release writes the byte to the front of the image, one for debugging breaks off before it writes. -/
example :
    let result := call brink ["--sectors", "t", "apply", "--image", "i", "--dir", "p"]
    (result.code = 0 ∧ result.tree.read ⟨"i"⟩ = .ok ⟨#[0xBB, 0, 0]⟩) ∧
      let result := call brink ["--sectors", "t", "apply", "--image", "i", "--dir", "p"] .debug
      result.code = 101 ∧ result.tree.read ⟨"i"⟩ = .ok ⟨#[0, 0, 0]⟩ := by
  decide +kernel

end DiscPatch.CommandLine
