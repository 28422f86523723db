/-
References in code: a byte string keeps its length when it follows moves, and each of its aligned
words becomes the address that the moves take it to.
-/
import DiscPatch.Assembly.Directives
import DiscPatch.Proofs.Bytes.Field

namespace DiscPatch.Assembly

/-! ## One word -/

theorem relocateWord_of_find {moves : List RamMove} {m : RamMove} {word : UInt32}
    (h : moves.find? (·.contains word) = some m) : relocateWord moves word = m.relocate word := by
  unfold relocateWord
  rw [h]

theorem relocateWord_of_find_none {moves : List RamMove} {word : UInt32} (h : moves.find? (·.contains word) = none) :
    relocateWord moves word = word := by
  unfold relocateWord
  rw [h]

/-- The first move that holds a word takes it along. -/
theorem relocateWord_of_first {before after : List RamMove} {m : RamMove} {word : UInt32}
    (hbefore : ∀ m' ∈ before, m'.contains word = false) (h : m.contains word) :
    relocateWord (before ++ m :: after) word = m.relocate word := by
  apply relocateWord_of_find
  rw [List.find?_append, List.find?_eq_none.2 (by simpa using hbefore), Option.none_or]
  exact List.find?_cons_of_pos h

/-! ## Words of a byte string -/

/-- The word of the four bytes at `pos`. -/
def wordOf (bytes : Bytes) (pos : Nat) : UInt32 :=
  Bytes.value ((bytes.drop pos).take 4)

theorem wordOf_append {front bytes : Bytes} {n : Nat} (pos : Nat) (h : front.length = n) :
    wordOf (front ++ bytes) (n + pos) = wordOf bytes pos := by
  unfold wordOf
  rw [← List.drop_drop, List.drop_left' h]

theorem wordOf_drop (bytes : Bytes) (n pos : Nat) : wordOf (bytes.drop n) pos = wordOf bytes (n + pos) := by
  unfold wordOf
  rw [List.drop_drop]

/-- Changes the four-byte words of a byte string; a shorter rest stays. -/
def mapWords (f : UInt32 → UInt32) : Bytes → Bytes
  | a :: b :: c :: d :: rest => Bytes.ofValue 4 (f (Bytes.value [a, b, c, d])) ++ mapWords f rest
  | rest => rest

theorem relocateWords_eq (moves : List RamMove) (bytes : Bytes) :
    relocateWords moves bytes = mapWords (relocateWord moves) bytes := by
  fun_induction relocateWords moves bytes with
  | case1 a b c d rest ih => rw [ih, mapWords]
  | case2 rest hshort => rw [mapWords.eq_2 _ _ hshort]

section

variable {f g : UInt32 → UInt32}

theorem mapWords_append (f : UInt32 → UInt32) {word : Bytes} (h : word.length = 4) (rest : Bytes) :
    mapWords f (word ++ rest) = Bytes.ofValue 4 (f (Bytes.value word)) ++ mapWords f rest := by
  obtain ⟨a, b, c, d, rfl⟩ := List.length_eq_four.1 h
  rfl

theorem length_mapWords (f : UInt32 → UInt32) (bytes : Bytes) : (mapWords f bytes).length = bytes.length := by
  fun_induction mapWords f bytes with
  | case1 a b c d rest ih =>
    rw [List.length_append, Bytes.length_ofValue, ih]
    simp only [List.length_cons]
    omega
  | case2 rest => rfl

theorem wordOf_mapWords (f : UInt32 → UInt32) : ∀ (bytes : Bytes) (i : Nat), 4 * i + 4 ≤ bytes.length →
    wordOf (mapWords f bytes) (4 * i) = f (wordOf bytes (4 * i))
  | a :: b :: c :: d :: rest, 0, _ => by
    rw [mapWords]
    unfold wordOf
    rw [List.drop_zero, List.take_left' (Bytes.length_ofValue 4 _), Bytes.value_ofValue (Nat.le_refl 4),
      Bytes.fit_four]
    rfl
  | a :: b :: c :: d :: rest, i + 1, h => by
    have hrest : 4 * i + 4 ≤ rest.length := by
      simp only [List.length_cons] at h
      omega
    rw [mapWords, show 4 * (i + 1) = 4 + 4 * i by omega, wordOf_append _ (Bytes.length_ofValue 4 _),
      wordOf_mapWords f rest i hrest]
    exact congrArg _ (wordOf_append (4 * i) (show [a, b, c, d].length = 4 from rfl)).symm
  | [], _, h | [_], _, h | [_, _], _, h | [_, _, _], _, h => by
    simp only [List.length_cons, List.length_nil] at h
    omega

/-- The words that a change leaves are read again as they were written. -/
theorem mapWords_mapWords (f g : UInt32 → UInt32) (bytes : Bytes) :
    mapWords g (mapWords f bytes) = mapWords (g ∘ f) bytes := by
  fun_induction mapWords f bytes with
  | case1 a b c d rest ih =>
    rw [mapWords_append g (Bytes.length_ofValue 4 _), ih, Bytes.value_ofValue (Nat.le_refl 4), Bytes.fit_four, mapWords]
    rfl
  | case2 rest hshort => rw [mapWords.eq_2 _ _ hshort, mapWords.eq_2 _ _ hshort]

theorem mapWords_id (bytes : Bytes) : mapWords id bytes = bytes := by
  fun_induction mapWords id bytes with
  | case1 a b c d rest ih =>
    rw [ih]
    exact congrArg (· ++ rest) (Bytes.ofValue_value (show [a, b, c, d].length ≤ 4 from Nat.le_refl 4))
  | case2 rest => rfl

/-- Two changes leave the same bytes exactly when they agree on each word that is there. -/
theorem mapWords_eq_iff (bytes : Bytes) : mapWords f bytes = mapWords g bytes ↔
    ∀ i, 4 * i + 4 ≤ bytes.length → f (wordOf bytes (4 * i)) = g (wordOf bytes (4 * i)) := by
  constructor
  · intro h i hi
    rw [← wordOf_mapWords f bytes i hi, h, wordOf_mapWords g bytes i hi]
  · intro h
    fun_induction mapWords f bytes with
    | case1 a b c d rest ih =>
      have hfirst : f (Bytes.value [a, b, c, d]) = g (Bytes.value [a, b, c, d]) := h 0 (by simp)
      have hrest : mapWords f rest = mapWords g rest := by
        refine ih fun i hi => ?_
        have hnext := h (i + 1) (by simp only [List.length_cons]; omega)
        have hshift : wordOf (a :: b :: c :: d :: rest) (4 * (i + 1)) = wordOf rest (4 * i) := by
          rw [show 4 * (i + 1) = 4 + 4 * i by omega]
          exact wordOf_append (4 * i) (show [a, b, c, d].length = 4 from rfl)
        rwa [hshift] at hnext
      rw [mapWords, hfirst, hrest]
    | case2 rest hshort => rw [mapWords.eq_2 _ _ hshort]

end

/-! ## Aligned words -/

/-- Changes the words of a byte string that lie at multiples of four. -/
def mapAligned (f : UInt32 → UInt32) (bytes : Bytes) (address : UInt32) : Bytes :=
  bytes.take (padding address.toNat 4) ++ mapWords f (bytes.drop (padding address.toNat 4))

theorem followMoves_eq (bytes : Bytes) (address : UInt32) (moves : List RamMove) :
    followMoves bytes address moves = mapAligned (relocateWord moves) bytes address :=
  congrArg (_ ++ ·) (relocateWords_eq moves _)

theorem length_mapAligned (f : UInt32 → UInt32) (bytes : Bytes) (address : UInt32) :
    (mapAligned f bytes address).length = bytes.length := by
  unfold mapAligned
  rw [List.length_append, length_mapWords, ← List.length_append, List.take_append_drop]

theorem length_followMoves (bytes : Bytes) (address : UInt32) (moves : List RamMove) :
    (followMoves bytes address moves).length = bytes.length := by
  rw [followMoves_eq, length_mapAligned]

/-- Aligned positions are whole words away from the first one. -/
theorem eq_padding_add {position pos : Nat} (h : (position + pos) % 4 = 0) :
    pos = padding position 4 + 4 * (pos / 4) := by
  unfold padding
  omega

theorem add_padding_mod (position i : Nat) : (position + (padding position 4 + 4 * i)) % 4 = 0 := by
  unfold padding
  omega

/-- Each aligned word of a byte string is changed. -/
theorem wordOf_mapAligned (f : UInt32 → UInt32) {bytes : Bytes} {address : UInt32} {pos : Nat}
    (haligned : (address.toNat + pos) % 4 = 0) (hfits : pos + 4 ≤ bytes.length) :
    wordOf (mapAligned f bytes address) pos = f (wordOf bytes pos) := by
  have hpos := eq_padding_add haligned
  generalize pos / 4 = i at hpos
  subst hpos
  have hlead : (bytes.take (padding address.toNat 4)).length = padding address.toNat 4 := by
    rw [List.length_take]
    omega
  have hrest : 4 * i + 4 ≤ (bytes.drop (padding address.toNat 4)).length := by
    rw [List.length_drop]
    omega
  unfold mapAligned
  rw [wordOf_append _ hlead, wordOf_mapWords _ _ _ hrest, wordOf_drop]

/-- Each aligned word of a byte string is relocated. -/
theorem wordOf_followMoves {bytes : Bytes} {address : UInt32} (moves : List RamMove) {pos : Nat}
    (haligned : (address.toNat + pos) % 4 = 0) (hfits : pos + 4 ≤ bytes.length) :
    wordOf (followMoves bytes address moves) pos = relocateWord moves (wordOf bytes pos) := by
  rw [followMoves_eq, wordOf_mapAligned _ haligned hfits]

/-- Two changes leave the same bytes exactly when they agree on each aligned word. -/
theorem mapAligned_eq_iff {f g : UInt32 → UInt32} (bytes : Bytes) (address : UInt32) :
    mapAligned f bytes address = mapAligned g bytes address ↔
      ∀ pos, (address.toNat + pos) % 4 = 0 → pos + 4 ≤ bytes.length → f (wordOf bytes pos) = g (wordOf bytes pos) := by
  constructor
  · intro h pos haligned hfits
    rw [← wordOf_mapAligned f haligned hfits, h, wordOf_mapAligned g haligned hfits]
  · intro h
    refine congrArg (_ ++ ·) ((mapWords_eq_iff _).2 fun i hi => ?_)
    rw [List.length_drop] at hi
    rw [wordOf_drop]
    exact h _ (add_padding_mod address.toNat i) (by omega)

theorem mapAligned_mapAligned (f g : UInt32 → UInt32) (bytes : Bytes) (address : UInt32) :
    mapAligned g (mapAligned f bytes address) address = mapAligned (g ∘ f) bytes address := by
  unfold mapAligned
  rcases Nat.le_or_ge (padding address.toNat 4) bytes.length with h | h
  · have hlead : (bytes.take (padding address.toNat 4)).length = padding address.toNat 4 := by
      rw [List.length_take, Nat.min_eq_left h]
    rw [List.take_left' hlead, List.drop_left' hlead, mapWords_mapWords]
  · -- too short for an aligned word
    rw [List.take_of_length_le h, List.drop_of_length_le h]
    show (bytes ++ []).take _ ++ mapWords g ((bytes ++ []).drop _) = bytes ++ []
    rw [List.append_nil, List.take_of_length_le h, List.drop_of_length_le h]
    exact List.append_nil bytes

/-! ## Moves one after the other -/

/-- Where lists of moves, each applied as a whole, take a word one after the other. -/
def relocateThrough (chain : List (List RamMove)) (word : UInt32) : UInt32 :=
  chain.foldl (fun word moves => relocateWord moves word) word

theorem followMoves_nil (bytes : Bytes) (address : UInt32) : followMoves bytes address [] = bytes := by
  rw [followMoves_eq]
  show bytes.take _ ++ mapWords id (bytes.drop _) = bytes
  rw [mapWords_id, List.take_append_drop]

theorem foldl_followMoves (chain : List (List RamMove)) (bytes : Bytes) (address : UInt32) :
    chain.foldl (fun bytes moves => followMoves bytes address moves) bytes =
      mapAligned (relocateThrough chain) bytes address := by
  induction chain generalizing bytes with
  | nil => exact (followMoves_nil bytes address).symm.trans (followMoves_eq bytes address [])
  | cons moves chain ih =>
    rw [List.foldl_cons, ih, followMoves_eq, mapAligned_mapAligned]
    rfl

/-- All moves at once leave the bytes that they leave one list after the other exactly when they take each
aligned word to the same place. -/
theorem followMoves_eq_foldl_iff (moves : List RamMove) (chain : List (List RamMove)) (bytes : Bytes)
    (address : UInt32) :
    followMoves bytes address moves = chain.foldl (fun bytes moves => followMoves bytes address moves) bytes ↔
      ∀ pos, (address.toNat + pos) % 4 = 0 → pos + 4 ≤ bytes.length →
        relocateWord moves (wordOf bytes pos) = relocateThrough chain (wordOf bytes pos) := by
  rw [followMoves_eq, foldl_followMoves, mapAligned_eq_iff]

/-- Whether no later list contains the place to which an earlier one takes the word. -/
def Settles (chain : List (List RamMove)) (word : UInt32) : Prop :=
  chain.Pairwise fun moves later => ∀ m ∈ moves, m.contains word → ∀ m' ∈ later, m'.contains (m.relocate word) = false

instance (chain : List (List RamMove)) (word : UInt32) : Decidable (Settles chain word) :=
  inferInstanceAs (Decidable (List.Pairwise _ chain))

theorem relocateThrough_eq_self {chain : List (List RamMove)} {word : UInt32}
    (h : ∀ moves ∈ chain, ∀ m ∈ moves, m.contains word = false) : relocateThrough chain word = word := by
  induction chain with
  | nil => rfl
  | cons moves chain ih =>
    obtain ⟨hmoves, hchain⟩ := List.forall_mem_cons.1 h
    show relocateThrough chain (relocateWord moves word) = word
    rw [relocateWord_of_find_none (List.find?_eq_none.2 (by simpa using hmoves)), ih hchain]

/-- A word that settles is after all moves at once where each list in turn leaves it. -/
theorem relocateWord_flatten {chain : List (List RamMove)} {word : UInt32} (h : Settles chain word) :
    relocateWord chain.flatten word = relocateThrough chain word := by
  induction chain with
  | nil => rfl
  | cons moves chain ih =>
    obtain ⟨hmoves, hchain⟩ := List.pairwise_cons.1 h
    have hfind : (moves ++ chain.flatten).find? (·.contains word) =
        (moves.find? (·.contains word)).or (chain.flatten.find? (·.contains word)) := List.find?_append
    show relocateWord (moves ++ chain.flatten) word = relocateThrough chain (relocateWord moves word)
    cases hfirst : moves.find? (·.contains word) with
    | none =>
      rw [relocateWord_of_find_none hfirst, ← ih hchain]
      unfold relocateWord
      rw [hfind, hfirst, Option.none_or]
    | some m =>
      rw [hfirst, Option.some_or] at hfind
      rw [relocateWord_of_find hfind, relocateWord_of_find hfirst, relocateThrough_eq_self]
      intro later hlater
      exact hmoves later hlater m (List.mem_of_find?_eq_some hfirst) (by simpa using List.find?_some hfirst)

end DiscPatch.Assembly
