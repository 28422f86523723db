/-
Conditional sets come back from their encoding. The decoder has no counts: the first offset tells how
many sets there are, the first offset of a block where the lists end, and the next offset of a block,
past any number of empty sets, where a block ends. On a buffer that holds the layout each of these
finds what was laid out, so the blocks are cut where they were joined.
-/
import DiscPatch.Proofs.Command.RoundTrip
import DiscPatch.Proofs.Command.SetLayout

namespace DiscPatch.Command

/-! ## Positions of words -/

theorem fieldPositions_of_le {start stop : Nat} (h : stop ≤ start) : fieldPositions start stop = [] := by
  unfold fieldPositions
  rw [show (stop - start + 1) / 2 = 0 by omega]
  rfl

theorem fieldPositions_of_lt {start stop : Nat} (h : start < stop) :
    fieldPositions start stop = start :: fieldPositions (start + 2) stop := by
  unfold fieldPositions
  rw [show (stop - start + 1) / 2 = (stop - (start + 2) + 1) / 2 + 1 by omega, List.range_succ_eq_map,
    List.map_cons, List.map_map]
  congr 1
  apply List.map_congr_left
  intro i _
  show start + 2 * (i + 1) = start + 2 + 2 * i
  omega

/-! ## Looking for the next block -/

/-- Searching from words that the buffer holds, the first of them that is not zero is found. -/
theorem findSome?_fieldPositions {buffer : Array UInt8} {start : Nat} {ns : List Nat}
    (h : Holds buffer start ns) :
    (fieldPositions start (buffer.size - 1)).findSome? (fun pos =>
        (Bytes.word16? buffer pos).filter (· ≠ 0)) =
      (ns.find? (· ≠ 0)).or ((fieldPositions (start + 2 * ns.length) (buffer.size - 1)).findSome? fun pos =>
        (Bytes.word16? buffer pos).filter (· ≠ 0)) := by
  induction ns generalizing start with
  | nil => rfl
  | cons n ns ih =>
    have hlt := h.lt_size
    rw [fieldPositions_of_lt (by omega), List.findSome?_cons, h.1, ih h.2, List.length_cons,
      show start + 2 * (ns.length + 1) = start + 2 + 2 * ns.length by omega]
    by_cases hn : n = 0
    · rw [List.find?_cons_of_neg (by simpa using hn), Option.filter_some, if_neg (by simpa using hn)]
    · rw [List.find?_cons_of_pos (by simpa using hn), Option.filter_some, if_pos (by simpa using hn)]
      rfl

/-- The blocks start where the first block of all was laid out. -/
theorem firstBlock_eq {buffer : Array UInt8} {start block : Nat} {sets : List ConditionalSet}
    (h : Holds buffer start (blockLists block sets)) (hpos : 0 < block)
    (hlists : start + 2 * (blockLists block sets).length = block)
    (hsize : block + (setBytes sets).length = buffer.size) : firstBlock buffer start = block := by
  have hfind := find?_blockLists hpos sets
  unfold firstBlock
  rw [findSome?_fieldPositions h, hlists]
  cases hf : (blockLists block sets).find? (· ≠ 0) with
  | some n =>
    rw [hf] at hfind
    exact hfind
  | none =>
    -- without blocks the lists fill the buffer
    rw [hf] at hfind
    have hend : block + (setBytes sets).length = block := hfind
    rw [fieldPositions_of_le (by omega)]
    show buffer.size = block
    omega

/-- Behind a list of blocks, the next block starts where the first block of the sets behind it was
laid out. -/
theorem nextBlock_eq {buffer : Array UInt8} {block : Nat} (hpos : 0 < block) :
    ∀ {list : Nat} {sets : List ConditionalSet}, Holds buffer list (blockLists block sets) →
      block + (setBytes sets).length = buffer.size → nextBlock buffer (listStarts list sets) = .ok block
  | list, [], _, hsize => by
    show Except.ok buffer.size = .ok block
    rw [← hsize]
    rfl
  | list, ⟨[]⟩ :: rest, h, hsize => by
    rw [listStarts, nextBlock, h.wordAt]
    exact nextBlock_eq hpos h.2 hsize
  | list, ⟨commands :: more⟩ :: rest, h, _ => by
    rw [listStarts, nextBlock, h.wordAt]
    show (if block = 0 then _ else pure block) = _
    rw [if_neg hpos.ne']
    rfl

/-! ## Blocks of a set -/

theorem extract_middle {buffer : Array UInt8} {front middle rest : Bytes}
    (h : buffer.toList = front ++ (middle ++ rest)) :
    (buffer.extract front.length (front.length + middle.length)).toList = middle := by
  rw [Array.toList_extract, h, List.extract_eq_take_drop, List.drop_left, Nat.add_sub_cancel_left, List.take_left]

theorem size_eq {buffer : Array UInt8} {front rest : Bytes} (h : buffer.toList = front ++ rest) :
    buffer.size = front.length + rest.length := by
  rw [← Array.length_toList, h, List.length_append]

/-- The first offset of a list has no block before it that it could end. -/
theorem decodeBlocks_first {table : Table} {buffer : Array UInt8} {later rest : List Nat} {pos block : Nat}
    (hword : wordAt buffer .blockTable pos = .ok block) :
    decodeBlocks table buffer later 0 (pos :: rest) = decodeBlocks table buffer later block rest := by
  rw [decodeBlocks, hword]
  rfl

/-- Behind another offset, an offset ends the block of that one. -/
theorem decodeBlocks_cons {table : Table} {buffer : Array UInt8} {later rest : List Nat}
    {previous pos block : Nat} (hword : wordAt buffer .blockTable pos = .ok block) (hprevious : previous ≠ 0) :
    decodeBlocks table buffer later previous (pos :: rest) =
      (if block = 0 then nextBlock buffer later else .ok block) >>= fun stop =>
        if previous ≤ stop ∧ stop ≤ buffer.size then
          decodeBlocks table buffer later block rest >>= fun more =>
            .ok (decodeAll table [] (buffer.extract previous stop).toList :: more)
        else .error (.offsetOutOfRange .block (max stop previous) buffer.size) := by
  rw [decodeBlocks, hword]
  show (if previous = 0 then _ else _) = _
  rw [if_neg hprevious]
  by_cases hblock : block = 0
  · rw [if_pos hblock, if_pos hblock]
    rfl
  · rw [if_neg hblock, if_neg hblock]
    rfl

theorem decodeBlocks_next {table : Table} {buffer : Array UInt8} {later rest : List Nat}
    {previous pos block stop : Nat} {commands : List Command} {more : List (List Command)}
    (hword : wordAt buffer .blockTable pos = .ok block) (hprevious : previous ≠ 0)
    (hstop : (if block = 0 then nextBlock buffer later else .ok block) = .ok stop)
    (hle : previous ≤ stop ∧ stop ≤ buffer.size)
    (hdecode : decodeAll table [] (buffer.extract previous stop).toList = commands)
    (hmore : decodeBlocks table buffer later block rest = .ok more) :
    decodeBlocks table buffer later previous (pos :: rest) = .ok (commands :: more) := by
  rw [decodeBlocks_cons hword hprevious, hstop]
  show (if previous ≤ stop ∧ stop ≤ buffer.size then _ else _) = _
  rw [if_pos hle, hmore, hdecode]
  rfl

/-- The rest of a set's list, when the block `pending` starts at the offset read before. -/
theorem decodeBlocks_pending {table : Table} {buffer : Array UInt8} {later : List Nat} {rest : Bytes} :
    ∀ {blocks : List (List Command)} {pos : Nat} {pending : List Command} {front : Bytes},
    (∀ commands ∈ pending :: blocks, decodeAll table [] (encodeAll commands) = commands) →
    front ≠ [] → buffer.toList = front ++ (encodeAll pending ++ (blocks.flatMap encodeAll ++ rest)) →
    Holds buffer pos (blockStarts (front.length + (encodeAll pending).length) blocks ++ [0]) →
    nextBlock buffer later =
      .ok (front.length + (encodeAll pending).length + (blocks.flatMap encodeAll).length) →
    decodeBlocks table buffer later front.length (fieldPositions pos (pos + 2 * (blocks.length + 1))) =
      .ok (pending :: blocks)
  | [], pos, pending, front, hback, hfront, hbuffer, hholds, hnext => by
    -- the list ends: the block ends where the next one starts
    have hsize := size_eq hbuffer
    rw [List.length_append, List.length_append] at hsize
    have hdecode := (congrArg (decodeAll table []) (extract_middle hbuffer)).trans
      (hback pending (List.mem_cons_self ..))
    rw [fieldPositions_of_lt (by simp), fieldPositions_of_le (by simp)]
    exact decodeBlocks_next (hholds.wordAt _) (by simpa using hfront) hnext ⟨Nat.le_add_right .., by omega⟩
      hdecode rfl
  | commands :: more, pos, pending, front, hback, hfront, hbuffer, hholds, hnext => by
    -- the next offset ends the block, and its own block is pending
    have hpos : front.length ≠ 0 := by simpa using hfront
    have hsize := size_eq hbuffer
    rw [List.length_append] at hsize
    have hdecode := (congrArg (decodeAll table []) (extract_middle hbuffer)).trans
      (hback pending (List.mem_cons_self ..))
    rw [fieldPositions_of_lt (by simp)]
    refine decodeBlocks_next (hholds.wordAt _) hpos (if_neg (by omega)) ⟨Nat.le_add_right .., by omega⟩
      hdecode ?_
    rw [List.flatMap_cons, List.append_assoc, ← List.append_assoc] at hbuffer
    rw [List.flatMap_cons, List.length_append, ← Nat.add_assoc] at hnext
    rw [← List.length_append] at hnext hholds ⊢
    rw [List.length_cons, show pos + 2 * (more.length + 1 + 1) = pos + 2 + 2 * (more.length + 1) by omega]
    exact decodeBlocks_pending (List.forall_mem_cons.1 hback).2 (by simp [hfront]) hbuffer hholds.2 hnext

/-- The blocks of a set, cut where they were joined. -/
theorem decodeBlocks_eq {table : Table} {buffer : Array UInt8} {later : List Nat} {list : Nat}
    {blocks : List (List Command)} {front rest : Bytes}
    (hback : ∀ commands ∈ blocks, decodeAll table [] (encodeAll commands) = commands) (hfront : front ≠ [])
    (hbuffer : buffer.toList = front ++ (blocks.flatMap encodeAll ++ rest))
    (hholds : Holds buffer list (blockStarts front.length blocks ++ [0]))
    (hnext : nextBlock buffer later = .ok (front.length + (blocks.flatMap encodeAll).length)) :
    decodeBlocks table buffer later 0 (fieldPositions list (list + 2 * (blocks.length + 1))) = .ok blocks := by
  rw [fieldPositions_of_lt (by omega)]
  cases blocks with
  | nil =>
    rw [decodeBlocks_first (hholds.wordAt _), fieldPositions_of_le (by simp)]
    rfl
  | cons commands more =>
    rw [decodeBlocks_first (hholds.wordAt _)]
    rw [List.flatMap_cons, List.append_assoc] at hbuffer
    rw [List.flatMap_cons, List.length_append, ← Nat.add_assoc] at hnext
    rw [List.length_cons, show list + 2 * (more.length + 1 + 1) = list + 2 + 2 * (more.length + 1) by omega]
    exact decodeBlocks_pending hback hfront hbuffer hholds.2 hnext

/-! ## Sets -/

theorem head?_listStarts {list block : Nat} {sets : List ConditionalSet} :
    (listStarts list sets).head?.getD (list + 2 * (blockLists block sets).length) = list := by
  cases sets with
  | nil => rfl
  | cons s rest => rfl

theorem decodeSetsAt_listStarts {table : Table} {buffer : Array UInt8} :
    ∀ {list : Nat} {sets : List ConditionalSet} {front : Bytes},
    (∀ s ∈ sets, ∀ commands ∈ s.blocks, decodeAll table [] (encodeAll commands) = commands) → front ≠ [] →
    buffer.toList = front ++ setBytes sets → Holds buffer list (blockLists front.length sets) →
    decodeSetsAt table buffer (list + 2 * (blockLists front.length sets).length) (listStarts list sets) =
      .ok sets
  | _, [], _, _, _, _, _ => rfl
  | list, s :: rest, front, hback, hfront, hbuffer, hholds => by
    obtain ⟨hs, hrest⟩ := List.forall_mem_cons.1 hback
    have hsize := size_eq hbuffer
    -- behind the blocks of `s`, the other sets are laid out as a file of their own
    let front' := front ++ s.blocks.flatMap encodeAll
    have hlen : front'.length = front.length + (s.blocks.flatMap encodeAll).length := List.length_append
    have hcons : setBytes (s :: rest) = s.blocks.flatMap encodeAll ++ setBytes rest := rfl
    rw [hcons] at hbuffer hsize
    rw [List.length_append, ← Nat.add_assoc, ← hlen] at hsize
    rw [blockLists, ← hlen, ← List.singleton_append, ← List.append_assoc, holds_append, List.length_append,
      length_blockStarts, List.length_singleton] at hholds
    have hpos : 0 < front'.length := by
      have := List.length_pos_of_ne_nil hfront
      omega
    have hend : list + 2 * (blockLists front.length (s :: rest)).length =
        list + 2 * (s.blocks.length + 1) + 2 * (blockLists front'.length rest).length := by
      rw [blockLists, List.length_append, length_blockStarts, List.length_cons, hlen]
      omega
    have hnext := nextBlock_eq hpos hholds.2 hsize.symm
    have ih := decodeSetsAt_listStarts hrest (show front' ≠ [] by simp [front', hfront])
      (hbuffer.trans (List.append_assoc ..).symm) hholds.2
    rw [listStarts, decodeSetsAt, hend, head?_listStarts,
      decodeBlocks_eq hs hfront hbuffer hholds.1 (hlen ▸ hnext), ih]
    rfl

/-! ## Files -/

/-- The words that a buffer holds are the words read one behind the other. -/
theorem mapM_wordAt {buffer : Array UInt8} {ns : List Nat} {start : Nat} (field : Field)
    (h : Holds buffer start ns) :
    (List.range ns.length).mapM (fun i => wordAt buffer field (start + 2 * i)) = .ok ns := by
  induction ns generalizing start with
  | nil => rfl
  | cons n ns ih =>
    rw [List.length_cons, List.range_succ_eq_map, List.mapM_cons, List.mapM_map]
    have hstep : (fun i => wordAt buffer field (start + 2 * i)) ∘ Nat.succ =
        fun i => wordAt buffer field (start + 2 + 2 * i) := by
      funext i
      show wordAt buffer field (start + 2 * (i + 1)) = _
      congr 1
      omega
    rw [hstep, ih h.2, Nat.mul_zero, Nat.add_zero, h.wordAt]
    rfl

theorem listStarts_lt {list : Nat} {sets : List ConditionalSet} (block : Nat) :
    ∀ n ∈ listStarts list sets, n < list + 2 * (blockLists block sets).length := by
  induction sets generalizing list block with
  | nil => simp [listStarts]
  | cons s rest ih =>
    rw [listStarts, List.forall_mem_cons, blockLists, List.length_append, length_blockStarts, List.length_cons]
    refine ⟨by omega, fun n hn => ?_⟩
    have := ih (block + (s.blocks.flatMap encodeAll).length) n hn
    omega

/-- A file that starts with the offsets of its lists is decoded at these. -/
theorem decodeFile_of_holds {table : Table} {bytes : Bytes} {start : Nat} {starts : List Nat}
    (hholds : Holds bytes.toArray 0 (start :: starts)) (hcount : start / 2 = (start :: starts).length)
    (hlt : ∀ n ∈ start :: starts, n < bytes.length) :
    ConditionalSet.decodeFile table bytes =
      decodeSetsAt table bytes.toArray (firstBlock bytes.toArray start) (start :: starts) := by
  have hne : bytes ≠ [] := by
    rintro rfl
    exact absurd hholds.lt_size (by simp)
  have hwords : (List.range (start / 2)).mapM (fun i => wordAt bytes.toArray .setTable (2 * i)) =
      .ok (start :: starts) := by
    rw [hcount]
    simpa only [Nat.zero_add] using mapM_wordAt .setTable hholds
  have hfind : (start :: starts).find? (bytes.toArray.size ≤ ·) = none := by
    rw [List.find?_eq_none]
    intro n hn
    simpa using hlt n hn
  unfold ConditionalSet.decodeFile
  rw [if_neg hne, hholds.wordAt]
  show ((List.range (start / 2)).mapM (fun i => wordAt bytes.toArray .setTable (2 * i)) >>= _) = _
  rw [hwords]
  dsimp only [bind, Except.bind]
  rw [hfind]

theorem length_words_offsets (sets : List ConditionalSet) :
    (words (offsets sets)).length = 2 * sets.length + 2 * Bytes.total (sets.map (·.blocks.length + 1)) := by
  rw [length_words, offsets, List.length_append, length_listStarts, length_blockLists, Nat.mul_add]

/-- Sets are read back from their encoding when the commands of each block are. -/
theorem decodeFile_of_blocks {table : Table} {sets : List ConditionalSet} {bytes : Bytes}
    (hback : ∀ s ∈ sets, ∀ commands ∈ s.blocks, decodeAll table [] (encodeAll commands) = commands)
    (h : ConditionalSet.encodeFile sets = .ok bytes) : ConditionalSet.decodeFile table bytes = .ok sets := by
  obtain ⟨hbytes, hsmall⟩ := encodeFile_eq_ok h
  have hwords := length_words_offsets sets
  have hholds := holds_words hsmall [] (setBytes sets)
  rw [List.nil_append, ← hbytes, offsets, holds_append, length_listStarts, List.length_nil, Nat.zero_add,
    ← hwords] at hholds
  cases sets with
  | nil => rw [hbytes]; rfl
  | cons s rest =>
    let front := words (offsets (s :: rest))
    let list := 2 * (s :: rest).length
    have hlists : list + 2 * (blockLists front.length (s :: rest)).length = front.length := by
      rw [length_blockLists, hwords]
    have hpos : 0 < front.length := by
      rw [hwords, List.length_cons]
      omega
    have hsize : front.length + (setBytes (s :: rest)).length = bytes.length := by
      rw [hbytes, List.length_append]
    have hcount : list / 2 = (listStarts list (s :: rest)).length := by
      rw [length_listStarts]
      omega
    have hlt : ∀ n ∈ listStarts list (s :: rest), n < bytes.length := by
      intro n hn
      have := listStarts_lt front.length n hn
      omega
    have hdecode : ConditionalSet.decodeFile table bytes = _ := decodeFile_of_holds hholds.1 hcount hlt
    rw [firstBlock_eq hholds.2 hpos hlists hsize, ← hlists] at hdecode
    exact hdecode.trans
      (decodeSetsAt_listStarts hback (List.ne_nil_of_length_pos hpos) (by rw [hbytes]) hholds.2)

/-! ## Decoded sets -/

/-- Every decoded block is a run of decoded commands. -/
theorem decodeBlocks_eq_ok {table : Table} {buffer : Array UInt8} {later : List Nat} :
    ∀ {positions : List Nat} {previous : Nat} {blocks : List (List Command)},
    decodeBlocks table buffer later previous positions = .ok blocks →
    ∀ commands ∈ blocks, ∃ bytes, commands = decodeAll table [] bytes
  | [], _, blocks, h => by
    cases h
    exact List.forall_mem_nil _
  | pos :: rest, previous, blocks, h => by
    have ⟨block, hword, _⟩ := bind_eq_ok h
    by_cases hprevious : previous = 0
    · rw [hprevious, decodeBlocks_first hword] at h
      exact decodeBlocks_eq_ok h
    · rw [decodeBlocks_cons hword hprevious] at h
      obtain ⟨stop, _, h⟩ := bind_eq_ok h
      split at h
      · obtain ⟨more, hmore, h⟩ := bind_eq_ok h
        cases h
        exact List.forall_mem_cons.2 ⟨⟨_, rfl⟩, decodeBlocks_eq_ok hmore⟩
      · cases h

theorem decodeSetsAt_eq_ok {table : Table} {buffer : Array UInt8} {blocks : Nat} :
    ∀ {starts : List Nat} {sets : List ConditionalSet}, decodeSetsAt table buffer blocks starts = .ok sets →
    ∀ s ∈ sets, ∀ commands ∈ s.blocks, ∃ bytes, commands = decodeAll table [] bytes
  | [], sets, h => by
    cases h
    exact List.forall_mem_nil _
  | start :: later, sets, h => by
    obtain ⟨decoded, hdecoded, h⟩ := bind_eq_ok h
    obtain ⟨more, hmore, h⟩ := bind_eq_ok h
    cases h
    exact List.forall_mem_cons.2 ⟨decodeBlocks_eq_ok hdecoded, decodeSetsAt_eq_ok hmore⟩

theorem decodeFile_eq_ok {table : Table} {bytes : Bytes} {sets : List ConditionalSet}
    (h : ConditionalSet.decodeFile table bytes = .ok sets) :
    ∀ s ∈ sets, ∀ commands ∈ s.blocks, ∃ run, commands = decodeAll table [] run := by
  unfold ConditionalSet.decodeFile at h
  split at h
  · cases h
    exact List.forall_mem_nil _
  · obtain ⟨first, _, h⟩ := bind_eq_ok h
    obtain ⟨starts, _, h⟩ := bind_eq_ok h
    split at h
    · cases h
    · split at h
      · cases h
        exact List.forall_mem_nil _
      · exact decodeSetsAt_eq_ok h

/-! ## Both directions -/

/-- Sets of commands without shadowed ids come back from their encoding, and so do all decoded sets. -/
theorem decodeFile_encodeFile (table : Table) :
    (∀ (sets : List ConditionalSet) (bytes : Bytes),
      (∀ s ∈ sets, ∀ commands ∈ s.blocks, ∀ c ∈ commands, Made table c ∧ ¬ Shadowed table c.id) →
      ConditionalSet.encodeFile sets = .ok bytes → ConditionalSet.decodeFile table bytes = .ok sets) ∧
    ∀ (source : Bytes) (sets : List ConditionalSet) (bytes : Bytes),
      ConditionalSet.decodeFile table source = .ok sets →
      ConditionalSet.encodeFile sets = .ok bytes → ConditionalSet.decodeFile table bytes = .ok sets := by
  constructor
  · intro sets bytes hmade hencode
    refine decodeFile_of_blocks (fun s hs commands hcommands => ?_) hencode
    have h := hmade s hs commands hcommands
    exact decodeAll_encodeAll (fun c hc => made_iff_fits.1 (h c hc).1) (fun c hc => (h c hc).2) (by simp)
  · intro source sets bytes hdecode hencode
    refine decodeFile_of_blocks (fun s hs commands hcommands => ?_) hencode
    obtain ⟨run, rfl⟩ := decodeFile_eq_ok hdecode s hs commands hcommands
    exact decodeAll_encodeAll_decodeAll table [] run

/-- Empty sets and empty blocks stand at the start, in between and at the end. -/
theorem decodeFile_encodeFile_mixed :
    let sets : List ConditionalSet :=
      [⟨[]⟩, ⟨[[], [ofValues wait [0x12345]], []]⟩, ⟨[]⟩,
        ⟨[[ofValues extended [7], ofValues pad []]]⟩, ⟨[[]]⟩, ⟨[]⟩]
    let bytes : Bytes :=
      [12, 0, 14, 0, 22, 0, 24, 0, 28, 0, 32, 0,
        0, 0, 34, 0, 34, 0, 37, 0, 0, 0, 0, 0, 37, 0, 0, 0, 45, 0, 0, 0, 0, 0,
        0x10, 0x45, 0x23, 0xFF, 0x01, 7, 0, 0, 0, 0x40, 0]
    (∀ s ∈ sets, ∀ commands ∈ s.blocks, ∀ c ∈ commands, Made mixedTable c ∧ ¬ Shadowed mixedTable c.id) ∧
      ConditionalSet.encodeFile sets = .ok bytes ∧ ConditionalSet.decodeFile mixedTable bytes = .ok sets := by
  intro sets bytes
  have hmade : ∀ s ∈ sets, ∀ commands ∈ s.blocks, ∀ c ∈ commands,
      Made mixedTable c ∧ ¬ Shadowed mixedTable c.id := by
    simp only [sets, List.forall_mem_cons]
    simp only [List.not_mem_nil, false_implies, implies_true, true_and, and_true]
    exact ⟨⟨.ofValues (by decide) _, by decide⟩, ⟨.ofValues (by decide) _, by decide⟩,
      ⟨.ofValues (by decide) _, by decide⟩⟩
  have hencode : ConditionalSet.encodeFile sets = .ok bytes := by decide
  have hdecode := (decodeFile_encodeFile mixedTable).1 sets bytes hmade hencode
  exact ⟨hmade, hencode, (decodeFile_encodeFile mixedTable).2 bytes sets bytes hdecode hencode⟩

end DiscPatch.Command
