/-
Steps of a run on a file tree. All steps but one only look at the tree; the one that writes comes last. So whatever a
run does, where it fails it has changed nothing.
-/
import DiscPatch.CommandLine.Run
import DiscPatch.Proofs.Files.Tree

namespace DiscPatch.CommandLine

/-- A step of a run on a file tree. -/
abbrev TreeStep (α : Type) := ExceptT Failure (StateM FileTree) α

variable {α β : Type}

theorem run_bind (x : TreeStep α) (k : α → TreeStep β) (tree : FileTree) : (x >>= k).run tree =
    match x.run tree with
    | (.ok a, between) => (k a).run between
    | (.error failure, between) => (.error failure, between) := by
  show (match x.run tree with
    | (r, between) => ExceptT.bindCont k r between) = _
  rcases x.run tree with ⟨_ | _, _⟩ <;> rfl

/-! ## Looking -/

/-- The step makes of the files what `f` makes of them, and leaves the tree as it was. -/
def Looks (x : TreeStep α) (f : Files → Except Failure α) : Prop :=
  ∀ tree, x.run tree = (f tree.files, tree)

theorem looks_look (f : Files → Except Failure α) : Looks (look FileTree.disk f) f :=
  fun _ => rfl

theorem looks_lift (x : Except Failure α) : Looks (liftM x) fun _ => x :=
  fun _ => rfl

theorem Looks.run_bind {x : TreeStep α} {f : Files → Except Failure α} (hx : Looks x f) (k : α → TreeStep β)
    (tree : FileTree) : (x >>= k).run tree =
      match f tree.files with
      | .ok a => (k a).run tree
      | .error failure => (.error failure, tree) := by
  rw [CommandLine.run_bind, hx]
  cases f tree.files <;> rfl

theorem Looks.bind {x : TreeStep α} {f : Files → Except Failure α} (hx : Looks x f) {k : α → TreeStep β}
    {g : Files → α → Except Failure β} (hk : ∀ a, Looks (k a) fun files => g files a) :
    Looks (x >>= k) fun files => f files >>= g files := by
  intro tree
  rw [hx.run_bind]
  show _ = (f tree.files >>= g tree.files, tree)
  cases f tree.files with
  | error failure => rfl
  | ok a => exact hk a tree

theorem Looks.foldlM {step : β → α → TreeStep β} {g : Files → β → α → Except Failure β}
    (hstep : ∀ b a, Looks (step b a) fun files => g files b a) (l : List α) (b : β) :
    Looks (l.foldlM step b) fun files => l.foldlM (g files) b := by
  induction l generalizing b with
  | nil => exact fun _ => rfl
  | cons a l ih =>
    simp only [List.foldlM_cons]
    exact (hstep b a).bind fun b' => ih b'

theorem Looks.mapM {step : α → TreeStep β} {g : Files → α → Except Failure β}
    (hstep : ∀ a, Looks (step a) fun files => g files a) (l : List α) :
    Looks (l.mapM step) fun files => l.mapM (g files) := by
  induction l with
  | nil => exact fun _ => rfl
  | cons a l ih =>
    simp only [List.mapM_cons]
    exact (hstep a).bind fun b => ih.bind fun bs => looks_lift (.ok (b :: bs))

/-! ## Failing -/

/-- Where the step fails it leaves the tree as it was. -/
def Clean (x : TreeStep α) : Prop :=
  ∀ tree failure tree', x.run tree = (.error failure, tree') → tree' = tree

theorem Looks.clean {x : TreeStep α} {f : Files → Except Failure α} (h : Looks x f) : Clean x := by
  intro tree failure tree' hrun
  rw [h] at hrun
  exact (Prod.mk.inj hrun).2.symm

/-- What looks may come before anything else. -/
theorem Looks.clean_bind {x : TreeStep α} {f : Files → Except Failure α} (hx : Looks x f) {k : α → TreeStep β}
    (hk : ∀ a, Clean (k a)) : Clean (x >>= k) := by
  intro tree failure tree' h
  rw [hx.run_bind] at h
  cases hf : f tree.files with
  | error failure' =>
    rw [hf] at h
    exact (Prod.mk.inj h).2.symm
  | ok a =>
    rw [hf] at h
    exact hk a tree failure tree' h

theorem run_liftM_bind (x : StateM FileTree β) (k : β → TreeStep α) (tree : FileTree) :
    (liftM x >>= k : TreeStep α).run tree = (k (x tree).1).run (x tree).2 :=
  rfl

/-- Writing a file, and nothing after it that could fail. -/
theorem run_save_bind_pure (path : Path) (content : ByteArray) (output : String) (tree : FileTree) :
    (save FileTree.disk path content >>= fun _ => pure output : TreeStep String).run tree =
      match tree.write path content with
      | .ok written => (.ok output, written)
      | .error _ => (.error (.writing path), tree) := by
  rw [run_bind]
  unfold save
  rw [run_liftM_bind, FileTree.disk_write]
  cases tree.write path content <;> rfl

theorem clean_save_bind_pure (path : Path) (content : ByteArray) (output : String) :
    Clean (save FileTree.disk path content >>= fun _ => pure output : TreeStep String) := by
  intro tree failure tree' h
  rw [run_save_bind_pure] at h
  cases hwrite : tree.write path content with
  | error fault =>
    rw [hwrite] at h
    exact (Prod.mk.inj h).2.symm
  | ok written =>
    rw [hwrite] at h
    cases h

/-! ## Whole runs -/

/-- The image with the patches applied, made from files that nothing changes meanwhile. -/
def patchedFrom (files : Files) (build : Build) (settings : Settings) (image : Path) (dir? : Option Path)
    (names : List String) (sets inputs : List (String × String)) : Except Failure ByteArray := do
  let (table, patches) ← patchesOf files settings dir?
  let selected ← select patches names
  let selected ← sets.foldlM setEverywhere selected
  let selected ← inputs.foldlM (fun selected input => giveFile files input selected) selected
  let content ← during (.readingImage image) (files.read image)
  let edits ← selected.mapM editsOf
  written (Edit.writeAs build table.space edits.flatten content)

/-- No stage of applying patches to an image changes a file. -/
theorem looks_patchedImage (build : Build) (settings : Settings) (image : Path) (dir? : Option Path)
    (names : List String) (sets inputs : List (String × String)) :
    Looks (patchedImage FileTree.disk build settings image dir? names sets inputs) fun files =>
      patchedFrom files build settings image dir? names sets inputs := by
  unfold patchedImage patchedFrom
  refine (looks_look _).bind fun ⟨table, patches⟩ => ?_
  refine (looks_lift _).bind fun selected => ?_
  refine (Looks.foldlM (fun _ _ => looks_lift _) _ _).bind fun overridden => ?_
  refine (Looks.foldlM (fun _ _ => looks_look _) _ _).bind fun filled => ?_
  refine (looks_look _).bind fun content => ?_
  refine (Looks.mapM (fun _ => looks_lift _) _).bind fun edits => ?_
  exact looks_lift _

/-- A run that fails leaves all files as they were, for its one write is its last step. -/
theorem clean_run (build : Build) (invocation : Invocation) : Clean (run FileTree.disk build invocation) := by
  unfold run
  refine (looks_look _).clean_bind fun settings => ?_
  cases invocation.action with
  | list dir? =>
    exact (looks_look _).clean_bind fun _ => (looks_lift (.ok _)).clean
  | apply image output? dir? names sets inputs =>
    exact (looks_patchedImage _ _ _ _ _ _ _).clean_bind fun _ => clean_save_bind_pure _ _ _
  | exportAll dir? output =>
    exact (looks_look _).clean_bind fun (_, _) => clean_save_bind_pure _ _ _
  | conditionals inBattle input layouts? =>
    refine (looks_look _).clean_bind fun table => (looks_look _).clean_bind fun content => ?_
    exact (looks_lift _).clean_bind fun _ => (looks_lift (.ok _)).clean
  | events input layouts? =>
    refine (looks_look _).clean_bind fun table => (looks_look _).clean_bind fun content => ?_
    exact (looks_lift _).clean_bind fun _ => (looks_lift (.ok _)).clean

theorem Failure.code_ne_zero (failure : Failure) : failure.code ≠ 0 := by
  unfold Failure.code
  split <;> decide

/-- A call either ends with code 0 or leaves all files as they were. -/
theorem tree_call_of_code_ne_zero {tree : FileTree} {args : List String} {build : Build}
    (h : (call tree args build).code ≠ 0) : (call tree args build).tree = tree := by
  unfold call at h ⊢
  cases hargs : readArguments args with
  | unusable | version | help => rfl
  | run invocation =>
    rw [hargs] at h
    dsimp only at h ⊢
    cases hrun : (run FileTree.disk build invocation).run tree with
    | mk r tree' =>
      rw [hrun] at h
      cases r with
      | error failure => exact clean_run build invocation tree failure tree' hrun
      | ok output => exact absurd rfl h

end DiscPatch.CommandLine
