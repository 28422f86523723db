/-
What the arguments of an apply run make of the patches of a directory: which of them are selected, what an override
changes, and which patch an input file goes to.
-/
import DiscPatch.CommandLine.Run
import DiscPatch.Proofs.Patch.Run

namespace DiscPatch.CommandLine

open Text

/-! ## Steps with failures -/

section

variable {ε α : Type} {failure : Failure} {a : α}

theorem during_eq_ok_iff {x : Except ε α} : during failure x = .ok a ↔ x = .ok a := by
  cases x with
  | error e => exact iff_of_false (fun h => by cases h) fun h => by cases h
  | ok b => exact ⟨fun h => congrArg Except.ok (Except.ok.inj h), fun h => congrArg Except.ok (Except.ok.inj h)⟩

theorem orFail_eq_ok_iff {x : Except Error α} : orFail x = .ok a ↔ x = .ok a := by
  cases x with
  | error e => exact iff_of_false (fun h => by cases h) fun h => by cases h
  | ok b => exact ⟨fun h => congrArg Except.ok (Except.ok.inj h), fun h => congrArg Except.ok (Except.ok.inj h)⟩

end

/-! ## Selection -/

/-- The patches that names ask for: the first patch of each name, or all that are visible and complete. -/
inductive Selected (patches : List Patch) : List String → List Patch → Prop
  | visible : Selected patches [] (patches.filter fun p => !p.isHidden && !p.isImport)
  | named {names : List String} {selected : List Patch} (h : names ≠ [])
    (hfound : List.Forall₂ (fun name p => patches.find? (namesAgree ·.name name) = some p) names selected) :
    Selected patches names selected

theorem select_eq_ok_iff {patches selected : List Patch} {names : List String} :
    select patches names = .ok selected ↔ Selected patches names selected := by
  unfold select
  split
  · rename_i hnames
    subst hnames
    constructor
    · intro h
      cases h
      exact .visible
    · intro h
      cases h with
      | visible => rfl
      | named h => exact absurd rfl h
  · rename_i hnames
    rw [mapM_eq_ok_iff]
    constructor
    · intro h
      refine .named hnames (h.imp fun name p hp => ?_)
      split at hp
      · rename_i q hq
        cases hp
        exact hq
      · cases hp
    · intro h
      cases h with
      | visible => exact absurd rfl hnames
      | named _ h =>
        refine h.imp fun name p hp => ?_
        rw [hp]

/-! ## Overrides -/

/-- An override sets a variable in all patches: its value is hexadecimal, some patch has the variable, and nowhere
is it derived. -/
def Overrides (patches : List Patch) (assignment : String × String) (changed : List Patch) : Prop :=
  ∃ value, readWord 16 (afterMarks assignment.2.toList) = .ok value ∧
    (∃ p ∈ patches, (p.find? assignment.1).isSome) ∧ (∀ p ∈ patches, p.Settable assignment.1) ∧
    changed = patches.map (·.assign assignment.1 value)

theorem mapM_setVariable_eq_ok_iff {patches changed : List Patch} {name : String} {value : UInt32} :
    (patches.mapM fun p => if (p.find? name).isSome then orFail (p.setVariable name value) else .ok p) = .ok changed ↔
      (∀ p ∈ patches, p.Settable name) ∧ changed = patches.map (·.assign name value) := by
  -- A patch without the variable stays as it is, which is what assigning to it does as well.
  have hstep (p q : Patch) : (if (p.find? name).isSome then orFail (p.setVariable name value) else .ok p) = .ok q ↔
      p.Settable name ∧ p.assign name value = q := by
    unfold Patch.Settable
    cases hv : p.find? name with
    | none =>
      rw [if_neg (by simp), Patch.assign_of_find?_eq_none hv]
      exact ⟨fun h => ⟨fun v hv => (by cases hv), Except.ok.inj h⟩, fun h => congrArg Except.ok h.2⟩
    | some v =>
      rw [Option.isSome_some, if_pos rfl, orFail_eq_ok_iff, Patch.setVariable_eq_ok_iff hv]
      exact and_congr ⟨fun h w hw => (Option.some.inj hw) ▸ h, fun h => h v rfl⟩ eq_comm
  rw [mapM_eq_ok_iff]
  simp only [hstep]
  rw [List.forall₂_and_left, ← List.forall₂_map_left_iff (R := Eq), List.forall₂_eq_eq_eq, eq_comm]

theorem setEverywhere_eq_ok_iff {patches changed : List Patch} {assignment : String × String} :
    setEverywhere patches assignment = .ok changed ↔ Overrides patches assignment changed := by
  obtain ⟨name, text⟩ := assignment
  constructor
  · intro h
    obtain ⟨value, hvalue, h⟩ := bind_eq_ok h
    obtain ⟨set, hset, h⟩ := bind_eq_ok h
    split at h
    · rename_i hknown
      cases h
      obtain ⟨hsettable, rfl⟩ := mapM_setVariable_eq_ok_iff.1 hset
      exact ⟨value, during_eq_ok_iff.1 hvalue, List.any_eq_true.1 hknown, hsettable, rfl⟩
    · cases h
  · rintro ⟨value, hvalue, hknown, hsettable, rfl⟩
    unfold setEverywhere
    dsimp only
    rw [during_eq_ok_iff.2 hvalue, ok_bind, mapM_setVariable_eq_ok_iff.2 ⟨hsettable, rfl⟩, ok_bind]
    exact if_pos (List.any_eq_true.2 hknown)

/-! ## Input files -/

/-- An input file goes to the first patch of its name. -/
def GivenFile (files : Files) (patches : List Patch) (assignment : String × String) (changed : List Patch) : Prop :=
  ∃ front p q back, patches = front ++ p :: back ∧ (∀ f ∈ front, namesAgree f.name assignment.1 = false) ∧
    namesAgree p.name assignment.1 ∧ p.giveFile files ⟨assignment.2⟩ = .ok q ∧ changed = front ++ q :: back

theorem giveFile_eq_ok_iff {files : Files} {patches changed : List Patch} {assignment : String × String} :
    giveFile files assignment patches = .ok changed ↔ GivenFile files patches assignment changed := by
  induction patches generalizing changed with
  | nil =>
    refine iff_of_false (fun h => by cases h) ?_
    rintro ⟨front, p, q, back, h, -⟩
    cases front <;> cases h
  | cons p rest ih =>
    rw [giveFile]
    split
    · rename_i hname
      constructor
      · intro h
        obtain ⟨q, hq, h⟩ := bind_eq_ok h
        cases h
        exact ⟨[], p, q, rest, rfl, List.forall_mem_nil _, hname, orFail_eq_ok_iff.1 hq, rfl⟩
      · rintro ⟨front, p', q, back, hsplit, hfront, -, hq, rfl⟩
        cases front with
        | nil =>
          cases hsplit
          rw [orFail_eq_ok_iff.2 hq]
          rfl
        | cons f front =>
          cases hsplit
          exact absurd hname (by rw [hfront p (List.mem_cons_self ..)]; decide)
    · rename_i hname
      constructor
      · intro h
        obtain ⟨rest', hrest', rfl⟩ := map_eq_ok h
        obtain ⟨front, p', q, back, rfl, hfront, hp, hq, rfl⟩ := ih.1 hrest'
        exact ⟨p :: front, p', q, back, rfl, List.forall_mem_cons.2 ⟨Bool.eq_false_iff.2 hname, hfront⟩, hp, hq, rfl⟩
      · rintro ⟨front, p', q, back, hsplit, hfront, hp, hq, rfl⟩
        cases front with
        | nil =>
          cases hsplit
          exact absurd hp hname
        | cons f front =>
          cases hsplit
          rw [ih.2 ⟨front, p', q, back, rfl, (List.forall_mem_cons.1 hfront).2, hp, hq, rfl⟩]
          rfl

end DiscPatch.CommandLine
