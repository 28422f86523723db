/-
Built patches and their runs: settings, files, moves and updates, one after the other. What each setting
can do is said once, for every invariant of a run.
-/
import DiscPatch.Patch.Move
import DiscPatch.Patch.Update
import DiscPatch.Proofs.Except

namespace DiscPatch.Patch

open Assembly

/-! ## Built patches -/

theorem checkVariables_eq_ok {patch : String} {vars : List Variable} {seen : List String}
    (h : checkVariables patch seen vars = .ok ()) :
    (vars.map (·.name)).Nodup ∧ (∀ v ∈ vars, 1 ≤ v.size ∧ v.size ≤ 4) ∧ ∀ v ∈ vars, v.name ∉ seen := by
  induction vars generalizing seen with
  | nil => exact ⟨List.nodup_nil, by simp, by simp⟩
  | cons v rest ih =>
    rw [checkVariables] at h
    split at h
    · cases h
    · rename_i hsize
      split at h
      · cases h
      · rename_i hseen
        obtain ⟨hnodup, hsizes, hfresh⟩ := ih h
        refine ⟨List.nodup_cons.2 ⟨?_, hnodup⟩, List.forall_mem_cons.2 ⟨by omega, hsizes⟩,
          List.forall_mem_cons.2 ⟨hseen, fun w hw hmem => hfresh w hw (List.mem_cons_of_mem _ hmem)⟩⟩
        intro hmem
        obtain ⟨w, hw, hname⟩ := List.mem_map.1 hmem
        exact hfresh w hw (hname ▸ List.mem_cons_self ..)

theorem checkReferences_eq_ok {names : List String} {vars : List Variable}
    (h : checkReferences names vars = .ok ()) : ∀ v ∈ vars, ∀ r, v.reference? = some r → r.name ∈ names := by
  induction vars with
  | nil => simp
  | cons v rest ih =>
    rw [checkReferences] at h
    split at h
    · rename_i hnone
      refine List.forall_mem_cons.2 ⟨fun r hr => ?_, ih h⟩
      rw [hnone] at hr
      cases hr
    · rename_i r hsome
      split at h
      · rename_i hmem
        refine List.forall_mem_cons.2 ⟨fun r' hr' => ?_, ih h⟩
        rw [hsome] at hr'
        cases hr'
        exact hmem
      · cases h

/-- The patch that a draft becomes if its variables are in order. -/
def Draft.patch (d : Draft) : Patch where
  name := d.name
  filename := d.filename
  description := d.description?.getD d.name
  segments := d.segments
  vars := d.vars
  moves := []
  hiddenByDefault := d.hiddenByDefault
  isHidden := d.isHidden
  faultText := d.faultText

theorem Draft.eq_patch_of_build {d : Draft} {p : Patch} (h : d.build = .ok p) : p = d.patch := by
  obtain ⟨_, -, h⟩ := bind_eq_ok h
  obtain ⟨_, -, h⟩ := bind_eq_ok h
  cases h
  rfl

/-- A patch is built from variables of one to four bytes with names of their own, the derived ones
referring to variables of the patch. -/
theorem Draft.build_eq_ok {d : Draft} {p : Patch} (h : d.build = .ok p) :
    p.vars = d.vars ∧ p.moves = [] ∧ (d.vars.map (·.name)).Nodup ∧ (∀ v ∈ d.vars, 1 ≤ v.size ∧ v.size ≤ 4) ∧
      ∀ v ∈ d.vars, ∀ r, v.reference? = some r → r.name ∈ d.vars.map (·.name) := by
  obtain ⟨_, hvars, h⟩ := bind_eq_ok h
  obtain ⟨_, hrefs, h⟩ := bind_eq_ok h
  obtain ⟨hnodup, hsizes, -⟩ := checkVariables_eq_ok hvars
  cases h
  exact ⟨rfl, rfl, hnodup, hsizes, checkReferences_eq_ok hrefs⟩

/-! ## Runs -/

/-- One operation on a patch that succeeds. -/
inductive Step : Patch → Patch → Prop
  | update (assembler : Assembler) (p : Patch) : Step p (p.update assembler)
  | move (assembler : Assembler) (space : AddressSpace) (p : Patch) (requests : List MoveRequest) :
    Step p (p.move assembler space requests)
  | setVariable {p q : Patch} {name : String} {value : UInt32} (h : p.setVariable name value = .ok q) : Step p q
  | giveFile {files : Files} {p q : Patch} {path : Path} (h : p.giveFile files path = .ok q) : Step p q

/-- Operations one after the other. -/
def Runs : Patch → Patch → Prop :=
  Relation.ReflTransGen Step

/-! ## Settings -/

theorem changeFirst_append {α : Type} {test : α → Bool} (change : α → α) {before : List α} {a : α}
    (hbefore : ∀ b ∈ before, test b = false) (ha : test a) (after : List α) :
    changeFirst test change (before ++ a :: after) = before ++ change a :: after := by
  induction before with
  | nil => exact if_pos ha
  | cons b before ih =>
    obtain ⟨hb, hbefore⟩ := List.forall_mem_cons.1 hbefore
    rw [List.cons_append, changeFirst, if_neg (by rw [hb]; decide), ih hbefore, List.cons_append]

theorem changeFirst_of_forall_not {α : Type} {test : α → Bool} (change : α → α) {l : List α}
    (h : ∀ a ∈ l, test a = false) : changeFirst test change l = l := by
  induction l with
  | nil => rfl
  | cons a l ih =>
    obtain ⟨ha, hl⟩ := List.forall_mem_cons.1 h
    rw [changeFirst, ha, ih hl]
    rfl

/-- Two changes one after the other are one, if the first leaves its element one that passes the test. -/
theorem changeFirst_changeFirst {α : Type} {test : α → Bool} {change : α → α} (change' : α → α)
    (hchange : ∀ a, test a → test (change a)) (l : List α) :
    changeFirst test change' (changeFirst test change l) = changeFirst test (change' ∘ change) l := by
  induction l with
  | nil => rfl
  | cons a l ih =>
    by_cases ha : test a
    · rw [changeFirst, if_pos ha, changeFirst, if_pos (hchange a ha), changeFirst, if_pos ha]
      rfl
    · rw [changeFirst, if_neg ha, changeFirst, if_neg ha, ih, changeFirst, if_neg ha]

/-- A variable that is set is the first one of its name, and not derived. -/
theorem setVariable_eq_ok {p q : Patch} {name : String} {value : UInt32} (h : p.setVariable name value = .ok q) :
    ∃ before v after, p.vars = before ++ v :: after ∧ (∀ w ∈ before, w.name ≠ name) ∧ v.name = name ∧
      v.reference? = none ∧ q = { p with vars := before ++ v.set value :: after } := by
  unfold Patch.setVariable at h
  split at h
  · cases h
  · rename_i v hv
    split at h
    · cases h
    · rename_i hnone
      obtain ⟨hname, before, after, hvars, hbefore⟩ := List.find?_eq_some_iff_append.1 hv
      have hfirst : ∀ w ∈ before, decide (w.name = name) = false := by simpa using hbefore
      have hset := changeFirst_append (·.set value) hfirst hname after
      cases h
      refine ⟨before, v, after, hvars, by simpa using hfirst, by simpa using hname, hnone, ?_⟩
      rw [hvars, hset]

/-- The patch with another value for its variable of that name, if it has one. -/
def assign (name : String) (value : UInt32) (p : Patch) : Patch :=
  { p with vars := changeFirst (·.name = name) (·.set value) p.vars }

theorem assign_of_find?_eq_none {p : Patch} {name : String} (h : p.find? name = none) (value : UInt32) :
    p.assign name value = p := by
  have hnone : ∀ v ∈ p.vars, decide (v.name = name) = false := by
    intro v hv
    exact Bool.eq_false_iff.2 (List.find?_eq_none.1 h v hv)
  unfold assign
  rw [changeFirst_of_forall_not _ hnone]

/-- The variable of that name is not derived, if there is one. -/
def Settable (name : String) (p : Patch) : Prop :=
  ∀ v, p.find? name = some v → v.reference? = none

theorem setVariable_eq_ok_iff {p q : Patch} {name : String} {value : UInt32} {v : Variable}
    (h : p.find? name = some v) :
    p.setVariable name value = .ok q ↔ v.reference? = none ∧ q = p.assign name value := by
  unfold setVariable
  rw [h]
  dsimp only
  cases v.reference? with
  | none => exact ⟨fun h => ⟨rfl, (Except.ok.inj h).symm⟩, fun h => congrArg Except.ok h.2.symm⟩
  | some r => exact iff_of_false (fun h => by cases h) fun h => by cases h.1

/-- The segment with the content of its file. -/
def Segment.filledFrom (s : Segment) (path : Path) (expected : UInt32) (content : Bytes) : Segment :=
  { s with source := .chosenFile (some path) expected, bytes := content }

/-- Content goes to the first segment that takes a file, and has the length that this one expects. -/
theorem giveFile_eq_ok {files : Files} {p q : Patch} {path : Path} (h : p.giveFile files path = .ok q) :
    ∃ before s after expected content, p.segments = before ++ s :: after ∧ (∀ t ∈ before, t.takesFile = false) ∧
      s.expected? = some expected ∧ content.length = expected.toNat ∧
      q = { p with segments := before ++ s.filledFrom path expected content :: after } := by
  unfold Patch.giveFile at h
  split at h
  · cases h
  · rename_i expected hexpected
    obtain ⟨before, s, after, hsegments, hs, hbefore⟩ := List.findSome?_eq_some_iff.1 hexpected
    obtain ⟨content, -, h⟩ := bind_eq_ok h
    have hfirst : ∀ t ∈ before, t.takesFile = false := by
      intro t ht
      unfold Segment.takesFile
      rw [hbefore t ht]
      rfl
    have htakes : s.takesFile := by
      unfold Segment.takesFile
      rw [hs]
      rfl
    split at h
    · rename_i hsize
      cases h
      refine ⟨before, s, after, expected, content.data.toList, hsegments, hfirst, hs, hsize, ?_⟩
      rw [hsegments, changeFirst_append _ hfirst htakes]
      rfl
    · cases h

end DiscPatch.Patch
