/-
Writing a file into a tree: it can be read under its path afterwards, and every other place holds what it held.
-/
import DiscPatch.Files.Tree
import DiscPatch.Proofs.Except

namespace DiscPatch.FileTree

variable {tree tree' : FileTree} {place names : List String} {entry : Entry}

/-! ## Single places -/

theorem lookup_put_of_ne (h : names ≠ place) :
    (tree.put place entry).entries.lookup names = tree.entries.lookup names := by
  unfold put
  induction tree.entries with
  | nil =>
    show List.lookup names [(place, entry)] = none
    rw [List.lookup_cons, beq_false_of_ne h]
    rfl
  | cons listed entries ih =>
    obtain ⟨at_, there⟩ := listed
    by_cases hat : at_ = place
    · rw [List.filter_cons_of_neg (by simpa using hat), ih, List.lookup_cons, beq_false_of_ne (hat ▸ h)]
    · rw [List.filter_cons_of_pos (by simpa using hat), List.cons_append, List.lookup_cons, List.lookup_cons, ih]

theorem lookup_put_self : (tree.put place entry).entries.lookup place = some entry := by
  unfold put
  induction tree.entries with
  | nil =>
    show List.lookup place [(place, entry)] = some entry
    rw [List.lookup_cons_self]
  | cons listed entries ih =>
    obtain ⟨at_, there⟩ := listed
    by_cases hat : at_ = place
    · rw [List.filter_cons_of_neg (by simpa using hat), ih]
    · rw [List.filter_cons_of_pos (by simpa using hat), List.cons_append, List.lookup_cons,
        beq_false_of_ne (Ne.symm hat), ih]

theorem entry?_put_of_ne (h : names ≠ place) : entry? (tree.put place entry) names = tree.entry? names := by
  unfold entry?
  rw [lookup_put_of_ne h]

theorem entry?_put_self (h : tree.entry? place ≠ some .directory) :
    entry? (tree.put place entry) place = some entry := by
  unfold entry? at h ⊢
  split at h
  · exact absurd rfl h
  · rename_i habove
    rw [if_neg habove, lookup_put_self]

/-! ## Paths -/

/-- A path leads through directories only, so what is put to a place that is none does not change where it leads. -/
theorem follow_put {here : List String} (hplace : tree.entry? place ≠ some .directory)
    (h : tree.follow here names = .ok place) : (tree.put place entry).follow here names = .ok place := by
  induction names generalizing here with
  | nil => exact h
  | cons name rest ih =>
    rw [follow] at h ⊢
    cases hhere : tree.entry? here with
    | none => rw [hhere] at h; cases h
    | some there =>
      cases there with
      | file content => rw [hhere] at h; cases h
      | directory =>
        -- The path goes on from here, so this is a directory and not the place that changes.
        have hne : here ≠ place := fun he => hplace (he ▸ hhere)
        rw [hhere] at h
        rw [entry?_put_of_ne hne, hhere]
        dsimp only at h ⊢
        split at h
        · cases h
        · rename_i hshort
          rw [if_neg hshort]
          exact ih h

theorem locate_put {path : Path} (hplace : tree.entry? place ≠ some .directory) (h : tree.locate path = .ok place) :
    (tree.put place entry).locate path = .ok place := by
  unfold locate at h ⊢
  split at h
  · cases h
  · rename_i hfault
    exact follow_put hplace h

/-! ## Files -/

/-- The second tree has the file at a path, and all else from the first one. -/
structure Writes (tree : FileTree) (path : Path) (content : ByteArray) (tree' : FileTree) : Prop where
  stored : tree'.read path = .ok content
  elsewhere : ∃ place, tree.locate path = .ok place ∧ ∀ names, names ≠ place → tree'.entry? names = tree.entry? names

theorem writes_of_write {path : Path} {content : ByteArray} (h : tree.write path content = .ok tree') :
    Writes tree path content tree' := by
  unfold write at h
  split at h
  · cases h
  · obtain ⟨_, -, h⟩ := bind_eq_ok h
    cases h
  · rename_i hfile
    obtain ⟨place, hlocate, h⟩ := bind_eq_ok h
    have hplace : tree.entry? place ≠ some .directory := by
      intro hdirectory
      rw [hdirectory] at h
      cases h
    obtain rfl : tree.put place (.file content) = tree' := by
      split at h
      · cases h
      · exact Except.ok.inj h
    refine ⟨?_, place, hlocate, fun names hne => entry?_put_of_ne hne⟩
    unfold read
    rw [locate_put hplace hlocate, ok_bind, entry?_put_self hplace]
    exact if_neg (by rw [hfile]; decide)

/-- On a disk, what cannot be written leaves the tree as it was. -/
theorem disk_write (path : Path) (content : ByteArray) : disk.write path content tree =
    match tree.write path content with
    | .ok written => (.ok (), written)
    | .error fault => (.error fault, tree) := by
  show (match tree.write path content with
    | .ok written => (set written >>= fun _ => pure (.ok ()) : StateM FileTree (Except FileFault Unit))
    | .error fault => pure (.error fault)) tree = _
  cases tree.write path content <;> rfl

end DiscPatch.FileTree
