/-
What a relocation does to a byte string, byte by byte: which bytes it leaves alone, where it takes each of the
others, and when the order of the moves does not matter.
-/
import DiscPatch.Proofs.Assembly.References
import DiscPatch.Proofs.Relocation

namespace DiscPatch

/-! ## Disjoint blocks -/

/-- Whether no address lies in both blocks. -/
def RamMove.Disjoint (m m' : RamMove) : Prop :=
  ∀ address, m.contains address → m'.contains address = false

theorem RamMove.Disjoint.symm {m m' : RamMove} (h : m.Disjoint m') : m'.Disjoint m := by
  intro address hcontains
  by_contra hboth
  rw [Bool.not_eq_false] at hboth
  rw [h address hboth] at hcontains
  cases hcontains

instance : Std.Symm RamMove.Disjoint := ⟨fun _ _ h => h.symm⟩

theorem RamMove.Apart.disjoint {m m' : RamMove} (h : m'.Apart m) : m.Disjoint m' :=
  fun _ hcontains => h.not_contains hcontains

namespace Assembly

variable {moves moves' : List RamMove} {word : UInt32}

/-- Of disjoint blocks, the first one that holds a word is the only one. -/
theorem find?_contains_iff (h : moves.Pairwise RamMove.Disjoint) {m : RamMove} :
    moves.find? (·.contains word) = some m ↔ m ∈ moves ∧ m.contains word := by
  constructor
  · intro hfind
    exact ⟨List.mem_of_find?_eq_some hfind, by simpa using List.find?_some hfind⟩
  · rintro ⟨hm, hword⟩
    obtain ⟨first, hfirst⟩ : ∃ first, moves.find? (·.contains word) = some first :=
      Option.isSome_iff_exists.1 (List.find?_isSome.2 ⟨m, hm, by simpa using hword⟩)
    have hheld : first.contains word := by simpa using List.find?_some hfirst
    by_cases heq : first = m
    · rw [hfirst, heq]
    · have hdisjoint := h.forall (List.mem_of_find?_eq_some hfirst) hm heq
      rw [hdisjoint word hheld] at hword
      cases hword

theorem relocateWord_perm (hperm : moves'.Perm moves) (h : moves.Pairwise RamMove.Disjoint) (word : UInt32) :
    relocateWord moves' word = relocateWord moves word := by
  have h' : moves'.Pairwise RamMove.Disjoint := hperm.symm.pairwise h RamMove.Disjoint.symm
  have hfind : moves'.find? (·.contains word) = moves.find? (·.contains word) := by
    ext m
    rw [find?_contains_iff h, find?_contains_iff h', hperm.mem_iff]
  unfold relocateWord
  rw [hfind]

/-! ## Where a word goes -/

/-- Whether the first move that holds the word takes it to `target`, or no move holds it and it stays. -/
def Carries (moves : List RamMove) (word target : UInt32) : Prop :=
  (∃ before m after, moves = before ++ m :: after ∧ (∀ m' ∈ before, m'.contains word = false) ∧ m.contains word ∧
    target = word + m.distance.toUInt32) ∨
  (∀ m ∈ moves, m.contains word = false) ∧ target = word

theorem carries_relocateWord (moves : List RamMove) (word : UInt32) : Carries moves word (relocateWord moves word) := by
  cases hfind : moves.find? (·.contains word) with
  | none =>
    refine .inr ⟨fun m hm => ?_, relocateWord_of_find_none hfind⟩
    simpa using List.find?_eq_none.1 hfind m hm
  | some m =>
    obtain ⟨hword, before, after, rfl, hbefore⟩ := List.find?_eq_some_iff_append.1 hfind
    refine .inl ⟨before, m, after, rfl, fun m' hm' => ?_, hword, relocateWord_of_find hfind⟩
    simpa using hbefore m' hm'

/-! ## Bytes outside of the words -/

/-- Behind the last whole word the bytes stay. -/
theorem getElem?_mapWords_of_le (f : UInt32 → UInt32) (bytes : Bytes) {i : Nat} (h : 4 * (bytes.length / 4) ≤ i) :
    (mapWords f bytes)[i]? = bytes[i]? := by
  fun_induction mapWords f bytes generalizing i with
  | case1 a b c d rest ih =>
    simp only [List.length_cons] at h
    obtain ⟨j, rfl⟩ : ∃ j, i = 4 + j := ⟨i - 4, by omega⟩
    have hword := Bytes.length_ofValue 4 (f (Bytes.value [a, b, c, d]))
    rw [List.getElem?_append_right (by omega), hword, Nat.add_sub_cancel_left, ih (by omega), Nat.add_comm 4 j]
    rfl
  | case2 rest => rfl

/-- A byte in no aligned word stays. -/
theorem getElem?_mapAligned_of_outside (f : UInt32 → UInt32) {bytes : Bytes} {address : UInt32} {i : Nat}
    (h : ∀ k, (address.toNat + k) % 4 = 0 → k + 4 ≤ bytes.length → i < k ∨ k + 4 ≤ i) :
    (mapAligned f bytes address)[i]? = bytes[i]? := by
  let lead := padding address.toNat 4
  show (bytes.take lead ++ mapWords f (bytes.drop lead))[i]? = bytes[i]?
  rcases Nat.le_or_ge bytes.length lead with hshort | hlong
  · -- there is no aligned word at all
    rw [List.take_of_length_le hshort, List.drop_of_length_le hshort]
    show (bytes ++ [])[i]? = bytes[i]?
    rw [List.append_nil]
  · have hlead : (bytes.take lead).length = lead := List.length_take_of_le hlong
    rcases Nat.lt_or_ge i lead with hfront | hback
    · rw [List.getElem?_append_left (by omega), List.getElem?_take_of_lt hfront]
    · have hpast : 4 * ((bytes.drop lead).length / 4) ≤ i - lead := by
        rw [List.length_drop]
        by_contra hinside
        -- the word of the byte would be an aligned one
        have hword := h (lead + 4 * ((i - lead) / 4)) (add_padding_mod ..)
        omega
      rw [List.getElem?_append_right (by omega), hlead, getElem?_mapWords_of_le f _ hpast, List.getElem?_drop]
      congr 1
      omega

/-! ## The whole byte string -/

/-- A relocation keeps the length, takes each aligned word to where the first move that holds it goes, once, and
leaves every other byte. Moves of disjoint blocks give the same in any order. -/
theorem followMoves_carries (bytes : Bytes) (address : UInt32) (moves : List RamMove) :
    (followMoves bytes address moves).length = bytes.length ∧
      (∀ k, (address.toNat + k) % 4 = 0 → k + 4 ≤ bytes.length →
        Carries moves (wordOf bytes k) (wordOf (followMoves bytes address moves) k)) ∧
      (∀ i, (∀ k, (address.toNat + k) % 4 = 0 → k + 4 ≤ bytes.length → i < k ∨ k + 4 ≤ i) →
        (followMoves bytes address moves)[i]? = bytes[i]?) ∧
      ∀ moves', moves'.Perm moves → moves.Pairwise RamMove.Disjoint →
        followMoves bytes address moves' = followMoves bytes address moves := by
  refine ⟨length_followMoves .., fun k haligned hfits => ?_, fun i houtside => ?_, fun moves' hperm hdisjoint => ?_⟩
  · rw [wordOf_followMoves moves haligned hfits]
    exact carries_relocateWord ..
  · rw [followMoves_eq]
    exact getElem?_mapAligned_of_outside _ houtside
  · rw [followMoves_eq, followMoves_eq, mapAligned_eq_iff]
    exact fun k _ _ => relocateWord_perm hperm hdisjoint _

/-- Two blocks of which the first one moves to where the second one was: the word that points into the first block
is shifted once in either order, and the byte in front of it and the rest behind it stay. -/
theorem followMoves_carries_next_block :
    let lower : RamMove := ⟨0x80010000, 0x80010100, 0x100⟩
    let upper : RamMove := ⟨0x80010100, 0x80010200, 0x100⟩
    let bytes : Bytes := [0x80, 4, 0, 1, 0x80, 1, 0, 1]
    (0x80000003 + 1) % 4 = 0 ∧ lower.contains (wordOf bytes 1) ∧ [lower, upper].Pairwise RamMove.Disjoint ∧
      followMoves bytes 0x80000003 [lower, upper] = [0x80, 4, 1, 1, 0x80, 1, 0, 1] ∧
      followMoves bytes 0x80000003 [upper, lower] = [0x80, 4, 1, 1, 0x80, 1, 0, 1] ∧
      Carries [lower, upper] (wordOf bytes 1) 0x80010104 := by
  intro lower upper bytes
  have hdisjoint : [lower, upper].Pairwise RamMove.Disjoint := by
    have hapart : upper.Apart lower := by decide
    exact List.pairwise_pair.2 hapart.disjoint
  obtain ⟨-, hwords, -, hperm⟩ := followMoves_carries bytes 0x80000003 [lower, upper]
  have hmoved : followMoves bytes 0x80000003 [lower, upper] = [0x80, 4, 1, 1, 0x80, 1, 0, 1] := by decide
  refine ⟨by decide, by decide, hdisjoint, hmoved, ?_, ?_⟩
  · rw [hperm [upper, lower] (.swap ..) hdisjoint, hmoved]
  · have hcarries := hwords 1 (by decide) (by decide)
    rw [hmoved] at hcarries
    exact hcarries

end Assembly
end DiscPatch
