/-
Where encoded sets put everything. The list of a set starts behind the offsets of all sets and the lists
before it, a block behind all offsets and the blocks before it. The sets are encoded when all these places
fit in two bytes, and then each offset leads to what it names; the first place that does not fit, set by
set, is the fault.
-/
import DiscPatch.Proofs.Command.RoundTrip
import DiscPatch.Proofs.Command.SetLayout

namespace DiscPatch.Command

/-! ## Places -/

/-- Where the list of set `i` starts. -/
def listStart (sets : List ConditionalSet) (i : Nat) : Nat :=
  2 * sets.length + 2 * ((sets.take i).map (·.blocks.length + 1)).sum

/-- The blocks of all sets before block `k` of set `i`. -/
def blocksBefore (sets : List ConditionalSet) (i k : Nat) : List (List Command) :=
  (sets.take i).flatMap (·.blocks) ++ (sets[i]?.elim [] (·.blocks)).take k

/-- Where block `k` of set `i` starts. -/
def blockStart (sets : List ConditionalSet) (i k : Nat) : Nat :=
  2 * sets.length + 2 * ((sets.map (·.blocks.length)).sum + sets.length)
    + ((blocksBefore sets i k).map fun commands => (encodeAll commands).length).sum

/-- Where the blocks of set `i`, which is `s`, start. -/
def entries (sets : List ConditionalSet) (i : Nat) (s : ConditionalSet) : List Nat :=
  (List.range s.blocks.length).map (blockStart sets i)

/-- The places in the order in which they are laid out: that of the list of a set, then those of its
blocks. -/
def inTurn (sets : List ConditionalSet) : List Nat :=
  sets.zipIdx.flatMap fun (s, i) => listStart sets i :: entries sets i s

/-- The places of the lists, the lists with a zero behind each, and all blocks. -/
def laidOut (sets : List ConditionalSet) : Bytes :=
  words ((List.range sets.length).map (listStart sets))
    ++ sets.zipIdx.flatMap (fun (s, i) => words (entries sets i s) ++ [0, 0])
    ++ sets.flatMap fun s => s.blocks.flatMap encodeAll

/-! ## From one set to the next -/

variable {sets : List ConditionalSet} {i : Nat} {s : ConditionalSet}

theorem take_succ_of_getElem? (h : sets[i]? = some s) : sets.take (i + 1) = sets.take i ++ [s] := by
  rw [List.take_add_one, h]
  rfl

theorem listStart_succ (h : sets[i]? = some s) :
    listStart sets (i + 1) = listStart sets i + 2 * (s.blocks.length + 1) := by
  unfold listStart
  rw [take_succ_of_getElem? h, List.map_append, List.sum_append, List.map_singleton, List.sum_singleton]
  omega

theorem blocksBefore_eq (h : sets[i]? = some s) (k : Nat) :
    blocksBefore sets i k = (sets.take i).flatMap (·.blocks) ++ s.blocks.take k := by
  unfold blocksBefore
  rw [h]
  rfl

theorem blockStart_succ (h : sets[i]? = some s) :
    blockStart sets (i + 1) 0 = blockStart sets i 0 + (s.blocks.flatMap encodeAll).length := by
  have hbefore (j : Nat) : blocksBefore sets j 0 = (sets.take j).flatMap (·.blocks) := by
    rw [blocksBefore, List.take_zero, List.append_nil]
  unfold blockStart
  rw [hbefore, hbefore, take_succ_of_getElem? h, List.flatMap_append, List.flatMap_singleton, List.map_append,
    List.sum_append, List.length_flatMap]
  omega

theorem blockStarts_eq (block : Nat) (blocks : List (List Command)) :
    blockStarts block blocks = (List.range blocks.length).map fun k =>
      block + ((blocks.take k).map fun commands => (encodeAll commands).length).sum := by
  induction blocks generalizing block with
  | nil => rfl
  | cons commands rest ih =>
    rw [blockStarts, ih, List.length_cons, List.range_succ_eq_map, List.map_cons, List.map_map]
    congr 1
    refine List.map_congr_left fun k _ => ?_
    rw [Function.comp_apply, List.take_succ_cons, List.map_cons, List.sum_cons, Nat.add_assoc]

theorem entries_eq (h : sets[i]? = some s) : entries sets i s = blockStarts (blockStart sets i 0) s.blocks := by
  rw [blockStarts_eq, entries]
  refine List.map_congr_left fun k _ => ?_
  unfold blockStart
  rw [blocksBefore_eq h, blocksBefore_eq h, List.take_zero, List.append_nil, List.map_append, List.sum_append]
  omega

/-- From set `i` on, the running offsets are the places. -/
theorem places_from {rest : List ConditionalSet} (h : sets.drop i = rest) :
    listStarts (listStart sets i) rest = (rest.zipIdx i).map (fun (_, j) => listStart sets j) ∧
      blockLists (blockStart sets i 0) rest = (rest.zipIdx i).flatMap (fun (t, j) => entries sets j t ++ [0]) ∧
      turns (listStart sets i) (blockStart sets i 0) rest =
        (rest.zipIdx i).flatMap fun (t, j) => listStart sets j :: entries sets j t := by
  induction rest generalizing i with
  | nil => exact ⟨rfl, rfl, rfl⟩
  | cons t rest ih =>
    have ht : sets[i]? = some t := by
      rw [← Nat.add_zero i, ← List.getElem?_drop, h]
      rfl
    have hdrop : sets.drop (i + 1) = rest := by
      rw [← List.drop_drop, h]
      rfl
    obtain ⟨hlists, hblocks, hturns⟩ := ih hdrop
    rw [listStart_succ ht, blockStart_succ ht] at hturns
    rw [listStart_succ ht] at hlists
    rw [blockStart_succ ht] at hblocks
    rw [listStarts, blockLists, turns, hlists, hblocks, hturns, ← entries_eq ht, List.zipIdx_cons]
    exact ⟨rfl, List.append_cons .., rfl⟩

/-! ## All sets -/

theorem total_blocks (sets : List ConditionalSet) :
    Bytes.total (sets.map (·.blocks.length + 1)) = (sets.map (·.blocks.length)).sum + sets.length := by
  induction sets with
  | nil => rfl
  | cons s rest ih =>
    rw [List.map_cons, Bytes.total, ih, List.map_cons, List.sum_cons, List.length_cons]
    omega

theorem listStart_zero (sets : List ConditionalSet) : listStart sets 0 = 2 * sets.length := by
  rw [listStart, List.take_zero]
  rfl

theorem blockStart_zero (sets : List ConditionalSet) :
    blockStart sets 0 0 = 2 * sets.length + 2 * Bytes.total (sets.map (·.blocks.length + 1)) := by
  rw [blockStart, blocksBefore, List.take_zero, List.take_zero, total_blocks]
  rfl

theorem turns_eq_inTurn (sets : List ConditionalSet) :
    turns (2 * sets.length) (2 * sets.length + 2 * Bytes.total (sets.map (·.blocks.length + 1))) sets =
      inTurn sets := by
  rw [← blockStart_zero, ← listStart_zero]
  exact (places_from List.drop_zero).2.2

theorem words_offsets_append (sets : List ConditionalSet) : words (offsets sets) ++ setBytes sets = laidOut sets := by
  obtain ⟨hlists, hblocks, -⟩ := places_from (show sets.drop 0 = sets from List.drop_zero)
  have hrange : sets.zipIdx.map (fun (_, j) => listStart sets j) = (List.range sets.length).map (listStart sets) := by
    rw [List.range_eq_range', ← List.zipIdx_map_snd, List.map_map]
    rfl
  have hwords : words (sets.zipIdx.flatMap fun (t, j) => entries sets j t ++ [0]) =
      sets.zipIdx.flatMap fun (t, j) => words (entries sets j t) ++ [0, 0] := by
    unfold words
    rw [List.flatMap_assoc]
    exact congrArg (List.flatMap · sets.zipIdx) (funext fun _ => List.flatMap_append)
  rw [offsets, ← blockStart_zero, ← listStart_zero, hlists, hblocks, hrange, words_append, hwords]
  rfl

/-- The list of each set is found where it starts. -/
theorem holds_entries {buffer : Array UInt8} {rest : List ConditionalSet} (h : sets.drop i = rest)
    (hholds : Holds buffer (listStart sets i) (blockLists (blockStart sets i 0) rest)) {j : Nat} (hij : i ≤ j)
    (hj : sets[j]? = some s) : Holds buffer (listStart sets j) (entries sets j s ++ [0]) := by
  induction rest generalizing i with
  | nil =>
    have hlt := (List.getElem?_eq_some_iff.1 hj).1
    have hle := List.drop_eq_nil_iff.1 h
    omega
  | cons t rest ih =>
    have ht : sets[i]? = some t := by
      rw [← Nat.add_zero i, ← List.getElem?_drop, h]
      rfl
    have hdrop : sets.drop (i + 1) = rest := by
      rw [← List.drop_drop, h]
      rfl
    rw [blockLists, ← List.singleton_append, ← List.append_assoc, holds_append, List.length_append,
      length_blockStarts, List.length_singleton, ← listStart_succ ht, ← blockStart_succ ht] at hholds
    rcases Nat.eq_or_lt_of_le hij with rfl | hlt
    · rw [hj] at ht
      cases ht
      rw [entries_eq hj]
      exact hholds.1
    · exact ih hdrop hholds.2 hlt

/-- Each block is found where it starts. -/
theorem encodeAll_prefix_drop (h : sets[i]? = some s) {k : Nat} {commands : List Command}
    (hk : s.blocks[k]? = some commands) : encodeAll commands <+: (laidOut sets).drop (blockStart sets i k) := by
  obtain ⟨hi, rfl⟩ := List.getElem?_eq_some_iff.1 h
  obtain ⟨hk, rfl⟩ := List.getElem?_eq_some_iff.1 hk
  let front := words (offsets sets) ++ (blocksBefore sets i k).flatMap encodeAll
  let back := (sets[i].blocks.drop (k + 1)).flatMap encodeAll ++ setBytes (sets.drop (i + 1))
  have hlength : front.length = blockStart sets i k := by
    rw [List.length_append, length_words, offsets, List.length_append, length_listStarts, length_blockLists,
      total_blocks, List.length_flatMap, Nat.mul_add]
    rfl
  have hsets : setBytes sets =
      setBytes (sets.take i) ++ (sets[i].blocks.flatMap encodeAll ++ setBytes (sets.drop (i + 1))) := by
    have hcut : sets = sets.take i ++ sets[i] :: sets.drop (i + 1) := by
      rw [← List.drop_eq_getElem_cons, List.take_append_drop]
    conv_lhs => rw [hcut]
    rw [setBytes, List.flatMap_append, List.flatMap_cons]
    rfl
  have hset : sets[i].blocks.flatMap encodeAll = (sets[i].blocks.take k).flatMap encodeAll ++
      (encodeAll sets[i].blocks[k] ++ (sets[i].blocks.drop (k + 1)).flatMap encodeAll) := by
    have hcut : sets[i].blocks = sets[i].blocks.take k ++ sets[i].blocks[k] :: sets[i].blocks.drop (k + 1) := by
      rw [← List.drop_eq_getElem_cons, List.take_append_drop]
    conv_lhs => rw [hcut]
    rw [List.flatMap_append, List.flatMap_cons]
  have hblocks : setBytes sets =
      (blocksBefore sets i k).flatMap encodeAll ++ (encodeAll sets[i].blocks[k] ++ back) := by
    rw [hsets, hset, blocksBefore_eq h, List.flatMap_append, List.flatMap_assoc]
    simp only [back, setBytes, List.append_assoc]
  refine ⟨back, ?_⟩
  rw [← words_offsets_append, hblocks, ← List.append_assoc (words _), ← hlength, List.drop_left]

/-! ## Encoding -/

/-- Sets are encoded as they are laid out when every place fits in two bytes: then the list of each set holds
where its blocks start, and the blocks start there. Otherwise the first place that does not fit, set by set
and in each set block by block, is the fault. -/
theorem encodeFile_lays_out (sets : List ConditionalSet) :
    (∀ place, (inTurn sets).find? (0xFFFF < ·) = some place →
      ConditionalSet.encodeFile sets = .error (.offsetOverflow place)) ∧
    ((∀ place ∈ inTurn sets, place ≤ 0xFFFF) →
      ConditionalSet.encodeFile sets = .ok (laidOut sets) ∧
      ∀ i s, sets[i]? = some s →
        Holds (laidOut sets).toArray (listStart sets i) (entries sets i s ++ [0]) ∧
        ∀ k commands, s.blocks[k]? = some commands →
          encodeAll commands <+: (laidOut sets).drop (blockStart sets i k)) := by
  have hencode : ConditionalSet.encodeFile sets = fitting (inTurn sets) (laidOut sets) := by
    rw [encodeFile_eq, turns_eq_inTurn, words_offsets_append]
  refine ⟨fun place hplace => ?_, fun hsmall => ?_⟩
  · rw [hencode, fitting, hplace]
  · have hok : ConditionalSet.encodeFile sets = .ok (laidOut sets) := by
      rw [hencode, fitting_eq_ok_iff]
      exact ⟨hsmall, rfl⟩
    refine ⟨hok, fun i s hs => ⟨?_, fun k commands hk => encodeAll_prefix_drop hs hk⟩⟩
    obtain ⟨hbytes, hoffsets⟩ := encodeFile_eq_ok hok
    have hholds := holds_words hoffsets [] (setBytes sets)
    rw [List.nil_append, ← hbytes, offsets, holds_append, length_listStarts, List.length_nil, Nat.zero_add,
      ← blockStart_zero, ← listStart_zero] at hholds
    exact holds_entries List.drop_zero hholds.2 (Nat.zero_le i) hs

/-- A set without blocks has a place for its list. -/
example : inTurn [⟨[[ofValues finish []]]⟩, ⟨[]⟩, ⟨[[], [ofValues finish []]]⟩] = [6, 18, 10, 12, 19, 19] := by
  decide

end DiscPatch.Command
