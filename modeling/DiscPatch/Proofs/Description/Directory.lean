/-
Loading a directory: whatever its files hold, the load succeeds. Each error that the reading of a description can
end with drops the file, so the patches are those of the files that can be read, in the order of their paths; the
order in which the files are listed does not matter.
-/
import DiscPatch.Assembly.Directives
import DiscPatch.Description.Directory
import DiscPatch.Files.Tree
import DiscPatch.Proofs.Except
import DiscPatch.Sector.Table

namespace DiscPatch.Description

open Text Xml Patch Assembly

/-! ## Errors that drop a file -/

/-- Whether a step fails with nothing but errors that drop a file. -/
structure OnlyDrops {α : Type} (x : Except Error α) : Prop where
  dropsFile : ∀ e, x = .error e → e.dropsFile = true

namespace OnlyDrops

variable {α β : Type}

theorem ok (a : α) : OnlyDrops (Except.ok a) :=
  ⟨fun _ h => nomatch h⟩

theorem error {e : Error} (h : e.dropsFile = true) : OnlyDrops (Except.error e : Except Error α) := by
  constructor
  rintro _ ⟨⟩
  exact h

theorem bind {x : Except Error α} {f : α → Except Error β} (hx : OnlyDrops x) (hf : ∀ a, OnlyDrops (f a)) :
    OnlyDrops (x >>= f) := by
  constructor
  intro e he
  rcases bind_eq_error_iff.1 he with he | ⟨a, -, he⟩
  · exact hx.dropsFile e he
  · exact (hf a).dropsFile e he

theorem map {x : Except Error α} (hx : OnlyDrops x) (f : α → β) : OnlyDrops (x.map f) := by
  constructor
  rintro e he
  cases x with
  | error e' =>
    cases he
    exact hx.dropsFile e rfl
  | ok a => cases he

theorem mapM {f : α → Except Error β} (hf : ∀ a, OnlyDrops (f a)) (l : List α) : OnlyDrops (l.mapM f) := by
  constructor
  intro e he
  obtain ⟨-, a, -, -, -, he⟩ := mapM_eq_error_iff.1 he
  exact (hf a).dropsFile e he

theorem foldlM {f : β → α → Except Error β} (hf : ∀ b a, OnlyDrops (f b a)) (l : List α) (b : β) :
    OnlyDrops (l.foldlM f b) := by
  induction l generalizing b with
  | nil => exact ok b
  | cons a l ih =>
    rw [List.foldlM_cons]
    exact bind (hf b a) ih

theorem ite {p : Prop} [Decidable p] {x y : Except Error α} (hx : OnlyDrops x) (hy : OnlyDrops y) :
    OnlyDrops (if p then x else y) := by
  split
  · exact hx
  · exact hy

theorem lift (x : Except FileFault α) : OnlyDrops (FileFault.lift x) := by
  cases x with
  | ok a => exact ok a
  | error fault => exact error rfl

end OnlyDrops

/-! ## Values -/

theorem onlyDrops_required (n : Node) (key : String) : OnlyDrops (required n key) := by
  unfold required
  split
  · exact .ok _
  · exact .error rfl

theorem onlyDrops_hexNumber (quantity : Quantity) (text : String) : OnlyDrops (hexNumber quantity text) := by
  unfold hexNumber
  split
  · exact .ok _
  · exact .error rfl

theorem onlyDrops_ofName (space : AddressSpace) (name : String) : OnlyDrops (space.ofName name) := by
  unfold AddressSpace.ofName
  split
  · exact .ok _
  · exact .error rfl

theorem onlyDrops_ofHexId (space : AddressSpace) (text : String) : OnlyDrops (space.ofHexId text) := by
  unfold AddressSpace.ofHexId
  split
  · exact .ok _
  · exact .error rfl

theorem onlyDrops_namedSector (space : AddressSpace) (n : Node) : OnlyDrops (namedSector space n) := by
  unfold namedSector
  split
  · exact (onlyDrops_ofName space _).map some
  · exact (onlyDrops_ofHexId space _).map some
  · exact .ok none

theorem onlyDrops_titleOf (n : Node) : OnlyDrops (titleOf n) := by
  unfold titleOf
  refine (onlyDrops_required n _).bind fun name => ?_
  split <;> exact .ok _

/-! ## Places -/

variable (space : AddressSpace) (standard : Option Sector)

theorem onlyDrops_ofIdOrName (text : String) : OnlyDrops (space.ofIdOrName text) := by
  unfold AddressSpace.ofIdOrName
  split
  · exact .ok _
  · exact onlyDrops_ofName space _

theorem onlyDrops_readEntries (last : Option Sector) (listed : List (List Char)) :
    OnlyDrops (readEntries space last listed) := by
  induction listed generalizing last with
  | nil => exact .ok []
  | cons entry rest ih =>
    have hmore (sector : Sector) (offset : String) : OnlyDrops (do
        let more ← readEntries space (some sector) rest
        return (sector, offset) :: more) :=
      (ih _).bind fun _ => .ok _
    unfold readEntries
    split
    · exact ((onlyDrops_ofIdOrName space _).map _).bind fun start => hmore start.1 start.2
    · exact hmore ..
    · exact .error rfl

theorem onlyDrops_entries (n : Node) : OnlyDrops (entries space n standard) := by
  unfold entries
  split
  · exact .ok []
  · exact onlyDrops_readEntries space ..

theorem onlyDrops_chainedOffset (tag : String) (previous : Option Previous) (align : Nat) :
    OnlyDrops (chainedOffset tag previous align) := by
  unfold chainedOffset
  split
  · exact .error rfl
  · exact .ite (.ok _) (.error rfl)

theorem onlyDrops_sectorOf (n : Node) (previous : Option Previous) :
    OnlyDrops (sectorOf space n standard previous) := by
  unfold sectorOf
  refine (onlyDrops_namedSector space n).bind fun named => ?_
  split
  · exact .ok _
  · exact .error rfl

theorem onlyDrops_placement (n : Node) (previous : Option Previous) (align : Nat) :
    OnlyDrops (placement space n standard previous align) := by
  unfold placement
  refine (onlyDrops_entries space standard n).bind fun listed => ?_
  split
  · refine (onlyDrops_chainedOffset ..).bind fun start => ?_
    exact (onlyDrops_sectorOf space standard n previous).bind fun _ => .ok _
  · refine (OnlyDrops.mapM (fun _ => onlyDrops_hexNumber ..) _).bind fun offsets => ?_
    exact (onlyDrops_sectorOf space standard n previous).bind fun _ => .ok _
  · exact (OnlyDrops.mapM (fun _ => (onlyDrops_hexNumber ..).map _) _).bind fun _ => .ok _

/-! ## Variables -/

theorem onlyDrops_variableSize (n : Node) (name : String) : OnlyDrops (variableSize n name) := by
  have hrange (size : Nat) : OnlyDrops (if 1 ≤ size ∧ size ≤ 4 then (.ok size : Except Error Nat)
      else .error (.description (.variableSize name size))) :=
    .ite (.ok size) (.error rfl)
  unfold variableSize
  split
  · exact hrange 1
  · split
    · exact hrange _
    · exact .error rfl

theorem onlyDrops_readVariable (last : Option Variable) (n : Node) :
    OnlyDrops (readVariable space standard last n) := by
  unfold readVariable
  refine (onlyDrops_required n _).bind fun name => (onlyDrops_variableSize n name).bind fun size => ?_
  dsimp only
  split
  · split
    · exact (onlyDrops_hexNumber ..).bind fun _ => .ok _
    · exact .ok _
  · refine ((onlyDrops_placement space standard n ..).map _).bind fun places => ?_
    split
    · exact (onlyDrops_hexNumber ..).bind fun _ => .ok _
    · exact .ok _

theorem onlyDrops_readVariables (known : List Variable) (nodes : List Node) :
    OnlyDrops (readVariables space standard known nodes) :=
  .foldlM (fun _ n => (onlyDrops_readVariable space standard _ n).bind fun _ => .ok _) nodes known

/-! ## Locations -/

variable (reader : Reader) (patch : String)

theorem onlyDrops_readWish (n : Node) : OnlyDrops (readWish reader n) := by
  unfold readWish
  cases n.attr? "inputFile" with
  | some path => exact (OnlyDrops.lift _).bind fun _ => .ok _
  | none => exact .ok _

theorem onlyDrops_hexContent (text : String) : OnlyDrops (hexContent patch text) := by
  unfold hexContent
  split
  · exact .ok _
  · exact .error rfl

theorem onlyDrops_segmentAt (symbols : Symbols) (wish : Wish) (sequential : Bool) (place : Place) :
    OnlyDrops (segmentAt reader patch symbols wish sequential place) := by
  unfold segmentAt
  refine .ite (.ok _) (.ite ?_ ?_)
  · exact (onlyDrops_hexContent patch _).bind fun _ => .ok _
  · exact (onlyDrops_hexContent patch _).bind fun _ => .ok _

theorem onlyDrops_readLocation (included : List Segment) (vars : List Variable) (own : List Segment) (n : Node) :
    OnlyDrops (readLocation reader patch standard included vars own n) := by
  unfold readLocation
  refine (onlyDrops_placement ..).bind fun spot => (onlyDrops_readWish reader n).bind fun wish => ?_
  exact .foldlM (fun _ _ => (onlyDrops_segmentAt reader patch ..).bind fun _ => .ok _) spot.places own

theorem onlyDrops_finish (symbols : Symbols) (s : Segment) : OnlyDrops (finish reader patch symbols s) := by
  have hrelabel : OnlyDrops (relabel reader patch symbols s) := by
    unfold relabel
    split
    · exact .ite (.ok s) ((onlyDrops_hexContent patch _).bind fun _ => .ok _)
    · exact .ok s
  exact hrelabel.bind fun _ => .ok _

theorem onlyDrops_readLocations (included : List Segment) (vars : List Variable) (nodes : List Node) :
    OnlyDrops (readLocations reader patch standard included vars nodes) := by
  unfold readLocations
  refine (OnlyDrops.foldlM (fun own n => ?_) nodes []).bind fun own => .mapM (fun s => ?_) own
  · exact onlyDrops_readLocation standard reader patch included vars own n
  · exact onlyDrops_finish reader patch _ s

theorem onlyDrops_readStream (n : Node) : OnlyDrops (readStream reader n) := by
  unfold readStream
  refine (onlyDrops_namedSector ..).bind fun sector => ?_
  split
  · exact (onlyDrops_required ..).bind fun _ => (OnlyDrops.lift _).bind fun _ => .ok _
  · exact .error rfl

/-! ## Patches -/

theorem onlyDrops_checkVariables (seen : List String) (vars : List Variable) :
    OnlyDrops (checkVariables patch seen vars) := by
  induction vars generalizing seen with
  | nil => exact .ok ()
  | cons v rest ih => exact .ite (.error rfl) (.ite (.error rfl) (ih _))

theorem onlyDrops_checkReferences (names : List String) (vars : List Variable) :
    OnlyDrops (checkReferences names vars) := by
  induction vars with
  | nil => exact .ok ()
  | cons v rest ih =>
    unfold checkReferences
    split
    · exact ih
    · exact .ite ih (.error rfl)

theorem onlyDrops_build (d : Draft) : OnlyDrops d.build :=
  (onlyDrops_checkVariables ..).bind fun _ => (onlyDrops_checkReferences ..).bind fun _ => .ok _

theorem onlyDrops_readPatch (heading : Heading) (earlier : List Patch) (n : Node) :
    OnlyDrops (readPatch reader heading earlier n) := by
  unfold readPatch
  refine (onlyDrops_titleOf n).bind fun title => (onlyDrops_namedSector ..).bind fun standard => ?_
  refine (onlyDrops_readVariables ..).bind fun vars => (onlyDrops_readLocations ..).bind fun own => ?_
  exact (OnlyDrops.mapM (fun _ => onlyDrops_readStream reader _) _).bind fun streams => onlyDrops_build _

theorem onlyDrops_readImport (heading : Heading) (n : Node) : OnlyDrops (readImport reader heading n) := by
  unfold readImport
  refine (onlyDrops_titleOf n).bind fun title => ?_
  dsimp only
  split
  · refine (onlyDrops_namedSector ..).bind fun sector => ?_
    split
    · refine (onlyDrops_required ..).bind fun _ => (onlyDrops_hexNumber ..).bind fun offset => ?_
      refine (onlyDrops_required ..).bind fun _ => (onlyDrops_hexNumber ..).bind fun expected => ?_
      exact (onlyDrops_build _).bind fun _ => .ok _
    · exact .error rfl
  · exact .ok none

theorem onlyDrops_ignored (n : Node) : OnlyDrops (ignored n) := by
  unfold ignored
  split
  · exact .ok false
  · split
    · exact .ok _
    · exact .error rfl

/-! ## Documents -/

theorem onlyDrops_readRoot (filename : String) (root : Node) : OnlyDrops (readRoot reader filename root) := by
  unfold readRoot
  refine .ite (.error rfl) ?_
  refine (OnlyDrops.foldlM (fun earlier n => ?_) _ _).bind fun patches => ?_
  · refine (onlyDrops_ignored n).bind fun left => .ite (.ok _) ?_
    exact (onlyDrops_readPatch reader ..).bind fun _ => .ok _
  · exact (OnlyDrops.mapM (fun n => onlyDrops_readImport reader _ n) _).bind fun _ => .ok _

theorem onlyDrops_parse (text filename : String) : OnlyDrops (parse reader text filename) := by
  unfold parse
  split
  · exact onlyDrops_readRoot reader filename _
  · exact .error rfl

/-- Whatever a file holds, and also if there is none, reading a description from it ends with its patches or with an
error that drops the file. -/
theorem onlyDrops_load (path : Path) : OnlyDrops (load reader path) :=
  (OnlyDrops.lift _).bind fun _ => onlyDrops_parse ..

/-! ## Listed files -/

/-- The patches of a file, none where it cannot be read. -/
def patchesOf (reader : Reader) (path : Path) : List Patch :=
  match load reader path with
  | .ok patches => patches
  | .error _ => []

theorem readListed_eq_ok (path : Path) : readListed reader path = .ok (patchesOf reader path) := by
  unfold readListed patchesOf
  cases hload : load reader path with
  | ok patches => rfl
  | error e =>
    dsimp only
    rw [if_pos ((onlyDrops_load reader path).dropsFile e hload)]

theorem mapM_readListed (paths : List Path) :
    paths.mapM (readListed reader) = .ok (paths.map (patchesOf reader)) := by
  rw [mapM_eq_ok_iff, List.forall₂_map_right_iff, List.forall₂_same]
  exact fun path _ => readListed_eq_ok reader path

/-! ## The order of paths -/

theorem pathLe_iff {a b : List String} : pathLe a b = true ↔ ¬ b < a := by
  simp [pathLe]

theorem pathLe_trans (a b c : List String) (hab : pathLe a b = true) (hbc : pathLe b c = true) :
    pathLe a c = true := by
  rw [pathLe_iff, List.not_lt] at *
  exact List.le_trans hab hbc

theorem pathLe_total (a b : List String) : (pathLe a b || pathLe b a) = true := by
  rw [Bool.or_eq_true, pathLe_iff, pathLe_iff, List.not_lt, List.not_lt]
  exact List.le_total a b

theorem pathLe_antisymm {a b : List String} (hab : pathLe a b = true) (hba : pathLe b a = true) : a = b := by
  rw [pathLe_iff, List.not_lt] at *
  exact List.le_antisymm hab hba

theorem pairwise_mergeSort_pathLe (listed : List (List String)) :
    (listed.mergeSort pathLe).Pairwise fun a b => pathLe a b = true :=
  List.pairwise_mergeSort pathLe_trans pathLe_total listed

/-- However the files are listed, they are read in the same order. -/
theorem mergeSort_pathLe_of_perm {listed listed' : List (List String)} (h : listed'.Perm listed) :
    listed'.mergeSort pathLe = listed.mergeSort pathLe := by
  have hperm : (listed'.mergeSort pathLe).Perm (listed.mergeSort pathLe) :=
    (List.mergeSort_perm ..).trans (h.trans (List.mergeSort_perm ..).symm)
  exact hperm.eq_of_pairwise (fun a b _ _ => pathLe_antisymm) (pairwise_mergeSort_pathLe _)
    (pairwise_mergeSort_pathLe _)

/-! ## Directories -/

theorem loadDirectory_eq {dir : Path} (h : reader.files.isDirectory dir = true) :
    loadDirectory reader dir = .ok ((descriptionFiles reader.files dir).flatMap
      (patchesOf { reader with directory? := none })) := by
  unfold loadDirectory
  dsimp only
  rw [if_pos h, mapM_readListed, ok_bind, List.flatMap_def]
  rfl

/-- The load of a directory succeeds whatever its files hold. It gives the patches of the XML files below it in the
order of their paths, where a file that cannot be read has none: no error of a description ends the load. The same
files listed in another order give the same. -/
theorem loadDirectory_ok {dir : Path} (h : reader.files.isDirectory dir = true) :
    (∃ found : List (List String), found.Perm (reader.files.below dir) ∧ found.Pairwise (fun a b => ¬ b < a) ∧
      loadDirectory reader dir = .ok (((found.map fun names => names.foldl (·.join ⟨·⟩) dir).filter
        isDescription).flatMap (patchesOf { reader with directory? := none }))) ∧
    (∀ path e, load { reader with directory? := none } path = .error e → e.dropsFile = true) ∧
    ∀ below : Path → List (List String), (below dir).Perm (reader.files.below dir) →
      loadDirectory { reader with files := { reader.files with below } } dir = loadDirectory reader dir := by
  refine ⟨⟨(reader.files.below dir).mergeSort pathLe, List.mergeSort_perm .., ?_, loadDirectory_eq reader h⟩,
    fun path => (onlyDrops_load _ path).dropsFile, fun below hperm => ?_⟩
  · exact (pairwise_mergeSort_pathLe _).imp pathLe_iff.1
  · have hfiles : descriptionFiles { reader.files with below } dir = descriptionFiles reader.files dir := by
      unfold descriptionFiles
      dsimp only
      rw [mergeSort_pathLe_of_perm hperm]
    let relisted : Reader := { reader with files := { reader.files with below } }
    calc loadDirectory relisted dir
        = .ok ((descriptionFiles relisted.files dir).flatMap (patchesOf { relisted with directory? := none })) :=
          loadDirectory_eq relisted h
      _ = .ok ((descriptionFiles reader.files dir).flatMap (patchesOf { reader with directory? := none })) := by
          rw [hfiles]
          rfl
      _ = loadDirectory reader dir := (loadDirectory_eq reader h).symm

/-- A directory with two descriptions, of which one lies deeper, a file that is cut off and one of another kind. -/
def shelf : FileTree :=
  ⟨[(["shelf"], .directory),
    (["shelf", "b.xml"], .file "<Patches><Patch name=\"second\"/></Patches>".toUTF8),
    (["shelf", "a.xml"], .file "<Patches><Patch name=\"lost\"/>".toUTF8),
    (["shelf", "a"], .directory),
    (["shelf", "a", "z.XmL"], .file "<Patches><Patch name=\"first\"/></Patches>".toUTF8),
    (["shelf", "a.txt"], .file "<Patches><Patch name=\"other\"/></Patches>".toUTF8)]⟩

def shelfReader : Reader where
  space := (SectorTable.ofPlatform .psx).space
  assembler := directives
  files := shelf.files

/-- The deeper file comes first, the file that is cut off gives nothing, and the listing can be turned around. -/
theorem loadDirectory_ok_shelf :
    shelfReader.files.isDirectory ⟨"shelf"⟩ = true ∧
    (loadDirectory shelfReader ⟨"shelf"⟩).toOption.map (·.map (·.name)) = some ["first", "second"] ∧
    (load shelfReader ⟨"shelf/a.xml"⟩).toOption = none ∧
    loadDirectory { shelfReader with files := { shelf.files with below := fun dir => (shelf.below dir).reverse } }
      ⟨"shelf"⟩ = loadDirectory shelfReader ⟨"shelf"⟩ := by
  have hdir : shelfReader.files.isDirectory ⟨"shelf"⟩ = true := by decide +kernel
  obtain ⟨⟨found, hperm, hsorted, hload⟩, -, hrelisted⟩ := loadDirectory_ok shelfReader hdir
  have hfound : found = [["a", "z.XmL"], ["a.txt"], ["a.xml"], ["b.xml"]] := by
    have hlisted : found.Perm [["a", "z.XmL"], ["a.txt"], ["a.xml"], ["b.xml"]] := hperm.trans (by decide +kernel)
    refine hlisted.eq_of_pairwise (fun a b _ _ hab hba => ?_) hsorted (by decide)
    exact pathLe_antisymm (pathLe_iff.2 hab) (pathLe_iff.2 hba)
  refine ⟨hdir, ?_, by decide +kernel, hrelisted (fun dir => (shelf.below dir).reverse) (List.reverse_perm _)⟩
  rw [hload, hfound]
  decide +kernel

end DiscPatch.Description
