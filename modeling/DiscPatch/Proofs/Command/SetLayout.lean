/-
The layout of conditional sets. Encoded sets are words, the offsets of the lists and then the lists
of the offsets of blocks, and behind them the bytes of all blocks; read back, the words are found
where they were laid out.
-/
import DiscPatch.Command.Sets
import DiscPatch.Proofs.Bytes.Field
import DiscPatch.Proofs.Except

namespace DiscPatch.Command

/-! ## Offsets -/

/-- Where the lists of sets start, the first one at `list`. -/
def listStarts (list : Nat) : List ConditionalSet → List Nat
  | [] => []
  | s :: rest => list :: listStarts (list + 2 * (s.blocks.length + 1)) rest

/-- Where blocks start, the first one at `block`. -/
def blockStarts (block : Nat) : List (List Command) → List Nat
  | [] => []
  | commands :: rest => block :: blockStarts (block + (encodeAll commands).length) rest

/-- The lists of sets, each ended by a zero, when their first block starts at `block`. -/
def blockLists (block : Nat) : List ConditionalSet → List Nat
  | [] => []
  | s :: rest =>
    blockStarts block s.blocks ++ 0 :: blockLists (block + (s.blocks.flatMap encodeAll).length) rest

/-- The bytes of all blocks of sets. -/
def setBytes (sets : List ConditionalSet) : Bytes := sets.flatMap (·.blocks.flatMap encodeAll)

/-- All offsets of a file of sets. -/
def offsets (sets : List ConditionalSet) : List Nat :=
  let list := 2 * sets.length
  listStarts list sets ++ blockLists (list + 2 * Bytes.total (sets.map (·.blocks.length + 1))) sets

theorem length_listStarts (list : Nat) (sets : List ConditionalSet) :
    (listStarts list sets).length = sets.length := by
  induction sets generalizing list with
  | nil => rfl
  | cons s rest ih => rw [listStarts, List.length_cons, ih, List.length_cons]

theorem length_blockStarts (block : Nat) (blocks : List (List Command)) :
    (blockStarts block blocks).length = blocks.length := by
  induction blocks generalizing block with
  | nil => rfl
  | cons commands rest ih => rw [blockStarts, List.length_cons, ih, List.length_cons]

theorem length_blockLists (block : Nat) (sets : List ConditionalSet) :
    (blockLists block sets).length = Bytes.total (sets.map (·.blocks.length + 1)) := by
  induction sets generalizing block with
  | nil => rfl
  | cons s rest ih =>
    rw [blockLists, List.length_append, List.length_cons, length_blockStarts, ih]
    show s.blocks.length + (_ + 1) = s.blocks.length + 1 + _
    omega

/-- The first offset in the lists leads behind them, to the first block or to the end. -/
theorem find?_blockLists {block : Nat} (hpos : 0 < block) (sets : List ConditionalSet) :
    ((blockLists block sets).find? (· ≠ 0)).getD (block + (setBytes sets).length) = block := by
  induction sets with
  | nil => rfl
  | cons s rest ih =>
    obtain ⟨blocks⟩ := s
    cases blocks with
    | nil => exact ih
    | cons commands more =>
      rw [blockLists, blockStarts, List.cons_append, List.find?_cons_of_pos (by simpa using hpos.ne')]
      rfl

/-! ## Encoding -/

/-- Offsets as fields of two bytes. -/
def words (ns : List Nat) : Bytes := ns.flatMap fun n => Bytes.ofValue 2 (UInt32.ofNat n)

theorem words_append (ns ms : List Nat) : words (ns ++ ms) = words ns ++ words ms := List.flatMap_append

theorem words_cons (n : Nat) (ns : List Nat) : words (n :: ns) = Bytes.ofValue 2 (UInt32.ofNat n) ++ words ns :=
  rfl

theorem length_words (ns : List Nat) : (words ns).length = 2 * ns.length := by
  induction ns with
  | nil => rfl
  | cons n ns ih =>
    rw [words_cons, List.length_append, Bytes.length_ofValue, ih, List.length_cons]
    omega

/-- The result, unless one of the offsets does not fit in two bytes: then the first such offset is the fault. -/
def fitting {α : Type} (offsets : List Nat) (a : α) : Except Fault α :=
  match offsets.find? (0xFFFF < ·) with
  | some offset => .error (.offsetOverflow offset)
  | none => .ok a

theorem fitting_bind {α β : Type} {ns ms : List Nat} {a : α} {b : β} {f : α → Except Fault β}
    (h : f a = fitting ms b) : (fitting ns a >>= f) = fitting (ns ++ ms) b := by
  unfold fitting at h ⊢
  rw [List.find?_append]
  cases ns.find? (0xFFFF < ·) with
  | some offset => rfl
  | none => exact h

theorem fitting_bind_ok {α β : Type} {ns : List Nat} {a : α} {b : β} {f : α → Except Fault β} (h : f a = .ok b) :
    (fitting ns a >>= f) = fitting ns b := by
  have hbind : (fitting ns a >>= f) = fitting (ns ++ []) b := fitting_bind h
  rwa [List.append_nil] at hbind

theorem fitting_eq_ok_iff {α : Type} {ns : List Nat} {a b : α} :
    fitting ns a = .ok b ↔ (∀ n ∈ ns, n ≤ 0xFFFF) ∧ b = a := by
  unfold fitting
  cases hfind : ns.find? (0xFFFF < ·) with
  | some n =>
    refine iff_of_false (fun h => by cases h) fun h => ?_
    have hle := h.1 n (List.mem_of_find?_eq_some hfind)
    have hlt : 0xFFFF < n := by simpa using List.find?_some hfind
    omega
  | none =>
    have hsmall : ∀ n ∈ ns, n ≤ 0xFFFF := by simpa using hfind
    exact ⟨fun h => ⟨hsmall, (Except.ok.inj h).symm⟩, fun h => congrArg Except.ok h.2.symm⟩

theorem offsetField_eq (n : Nat) : offsetField n = fitting [n] (Bytes.ofValue 2 (UInt32.ofNat n)) := by
  unfold offsetField fitting
  by_cases hn : n ≤ 0xFFFF
  · rw [if_pos hn, List.find?_cons_of_neg (by simpa using hn)]
    rfl
  · rw [if_neg hn, List.find?_cons_of_pos (by simpa using hn)]

theorem blockFields_eq (block : Nat) (blocks : List (List Command)) :
    blockFields block blocks = fitting (blockStarts block blocks)
      (words (blockStarts block blocks), block + (blocks.flatMap encodeAll).length) := by
  induction blocks generalizing block with
  | nil => rfl
  | cons commands rest ih =>
    rw [blockFields, offsetField_eq, ih, blockStarts, ← List.singleton_append]
    refine fitting_bind (fitting_bind_ok ?_)
    rw [words_cons, List.flatMap_cons, List.length_append, Nat.add_assoc]
    rfl

/-- The offsets in the order in which they are laid out: where the list of a set starts, and then where its
blocks do. -/
def turns (list block : Nat) : List ConditionalSet → List Nat
  | [] => []
  | s :: rest =>
    list :: (blockStarts block s.blocks ++
      turns (list + 2 * (s.blocks.length + 1)) (block + (s.blocks.flatMap encodeAll).length) rest)

theorem setFields_eq (list block : Nat) (sets : List ConditionalSet) :
    setFields list block sets =
      fitting (turns list block sets) (words (listStarts list sets), words (blockLists block sets)) := by
  induction sets generalizing list block with
  | nil => rfl
  | cons s rest ih =>
    rw [setFields, offsetField_eq, blockFields_eq, turns, ← List.singleton_append]
    refine fitting_bind (fitting_bind ?_)
    dsimp only
    rw [ih]
    refine fitting_bind_ok ?_
    rw [listStarts, blockLists, words_cons, words_append, words_cons, List.append_assoc]
    rfl

/-- An offset of the file is laid out in some turn, or ends a list. -/
theorem mem_turns {list block n : Nat} {sets : List ConditionalSet}
    (h : n ∈ listStarts list sets ++ blockLists block sets) : n ∈ turns list block sets ∨ n = 0 := by
  induction sets generalizing list block with
  | nil => cases h
  | cons s rest ih =>
    have hrest (h : n ∈ listStarts (list + 2 * (s.blocks.length + 1)) rest ++
        blockLists (block + (s.blocks.flatMap encodeAll).length) rest) :
        n ∈ turns list block (s :: rest) ∨ n = 0 :=
      (ih h).imp_left fun h => List.mem_cons_of_mem _ (List.mem_append_right _ h)
    rw [listStarts, blockLists, List.cons_append, List.mem_cons, List.mem_append, List.mem_append, List.mem_cons] at h
    rcases h with rfl | h | h | rfl | h
    · exact .inl (List.mem_cons_self ..)
    · exact hrest (List.mem_append_left _ h)
    · exact .inl (List.mem_cons_of_mem _ (List.mem_append_left _ h))
    · exact .inr rfl
    · exact hrest (List.mem_append_right _ h)

/-- Encoded sets are their offsets, if these fit in two bytes each, and the bytes of all blocks. -/
theorem encodeFile_eq (sets : List ConditionalSet) :
    ConditionalSet.encodeFile sets =
      fitting (turns (2 * sets.length) (2 * sets.length + 2 * Bytes.total (sets.map (·.blocks.length + 1))) sets)
        (words (offsets sets) ++ setBytes sets) := by
  unfold ConditionalSet.encodeFile
  dsimp only
  rw [setFields_eq]
  refine fitting_bind_ok ?_
  rw [offsets, words_append]
  rfl

theorem encodeFile_eq_ok {sets : List ConditionalSet} {bytes : Bytes}
    (h : ConditionalSet.encodeFile sets = .ok bytes) :
    bytes = words (offsets sets) ++ setBytes sets ∧ ∀ n ∈ offsets sets, n ≤ 0xFFFF := by
  rw [encodeFile_eq, fitting_eq_ok_iff] at h
  refine ⟨h.2, fun n hn => ?_⟩
  rcases mem_turns hn with hn | rfl
  · exact h.1 n hn
  · exact Nat.zero_le _

/-! ## Words in a buffer -/

/-- The buffer holds these words, one behind the other, from `pos` on. -/
def Holds (buffer : Array UInt8) (pos : Nat) : List Nat → Prop
  | [] => True
  | n :: ns => Bytes.word16? buffer pos = some n ∧ Holds buffer (pos + 2) ns

theorem holds_append {buffer : Array UInt8} {pos : Nat} {ns ms : List Nat} :
    Holds buffer pos (ns ++ ms) ↔ Holds buffer pos ns ∧ Holds buffer (pos + 2 * ns.length) ms := by
  induction ns generalizing pos with
  | nil => simp [Holds]
  | cons n ns ih =>
    rw [List.cons_append, Holds, Holds, ih, and_assoc, List.length_cons,
      show pos + 2 + 2 * ns.length = pos + 2 * (ns.length + 1) by omega]

theorem word16?_field {front rest : Bytes} {n : Nat} (h : n ≤ 0xFFFF) :
    Bytes.word16? (front ++ (Bytes.ofValue 2 (UInt32.ofNat n) ++ rest)).toArray front.length = some n := by
  simp only [Bytes.word16?, Bytes.ofValue, List.getElem?_toArray, List.cons_append, List.nil_append]
  rw [List.getElem?_append_right (Nat.le_refl _), List.getElem?_append_right (Nat.le_add_right _ 1),
    Nat.sub_self, Nat.add_sub_cancel_left]
  simp only [List.getElem?_cons_zero, List.getElem?_cons_succ, UInt32.toNat_toUInt8, UInt32.toNat_div,
    UInt32.toNat_ofNat']
  show some (n % 2 ^ 32 % 2 ^ 8 + 256 * (n % 2 ^ 32 / 256 % 2 ^ 8)) = some n
  congr 1
  omega

theorem holds_words {ns : List Nat} (h : ∀ n ∈ ns, n ≤ 0xFFFF) (front rest : Bytes) :
    Holds (front ++ (words ns ++ rest)).toArray front.length ns := by
  induction ns generalizing front with
  | nil => trivial
  | cons n ns ih =>
    obtain ⟨hn, hns⟩ := List.forall_mem_cons.1 h
    rw [words_cons, List.append_assoc]
    refine ⟨word16?_field hn, ?_⟩
    have := ih hns (front ++ Bytes.ofValue 2 (UInt32.ofNat n))
    rwa [List.length_append, Bytes.length_ofValue, List.append_assoc] at this

theorem Holds.lt_size {buffer : Array UInt8} {pos n : Nat} {ns : List Nat} (h : Holds buffer pos (n :: ns)) :
    pos + 1 < buffer.size := by
  have h := h.1
  unfold Bytes.word16? at h
  split at h
  · exact (Array.getElem?_eq_some_iff.1 ‹buffer[pos + 1]? = _›).1
  · cases h

theorem Holds.wordAt {buffer : Array UInt8} {pos n : Nat} {ns : List Nat} (h : Holds buffer pos (n :: ns))
    (field : Field) : wordAt buffer field pos = .ok n := by
  unfold Command.wordAt
  rw [h.1]

end DiscPatch.Command
