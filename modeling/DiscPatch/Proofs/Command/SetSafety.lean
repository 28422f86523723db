/-
Decoding sets is safe on any bytes. A decoder that checks every cut of the buffer and bounds the rounds
of its loops returns what the decoder returns, so no cut is out of range and no loop goes on. What comes
back is one of two faults, or as many sets as the first word tells; the blocks of each are cut at the
entries of its list.
-/
import DiscPatch.Proofs.Command.SetRoundTrip

namespace DiscPatch.Command

/-! ## The guarded decoder -/

/-- A result or a fault; the fault `none` is a cut outside of the buffer, or a loop that goes on beyond its
rounds. -/
abbrev Guarded (α : Type) := Except (Option Fault) α

/-- A result, or a fault that is reported. -/
def reported {α : Type} (x : Except Fault α) : Guarded α := x.mapError some

theorem reported_bind {α β : Type} (x : Except Fault α) (f : α → Except Fault β) :
    reported (x >>= f) = reported x >>= fun a => reported (f a) := by
  cases x <;> rfl

theorem reported_mapM {α β : Type} (f : α → Except Fault β) (l : List α) :
    reported (l.mapM f) = l.mapM fun a => reported (f a) := by
  induction l with
  | nil => rfl
  | cons a l ih =>
    rw [List.mapM_cons, List.mapM_cons, reported_bind, ← ih]
    refine congrArg _ (funext fun b => ?_)
    exact reported_bind ..

/-- The bytes from `start` up to `stop`, which have to be a part of the buffer. -/
def cut (buffer : Array UInt8) (start stop : Nat) : Guarded Bytes :=
  if start ≤ stop ∧ stop ≤ buffer.size then .ok (buffer.extract start stop).toList else .error none

theorem cut_of_le {buffer : Array UInt8} {start stop : Nat} (h : start ≤ stop ∧ stop ≤ buffer.size) :
    cut buffer start stop = .ok (buffer.extract start stop).toList := if_pos h

/-- The commands from `pos` on, one each round. -/
def commandsGuarded (table : Table) (buffer : Array UInt8) : (rounds pos : Nat) → Guarded (List Command)
  | 0, _ => .error none
  | rounds + 1, pos =>
    if pos < buffer.size then do
      match decode? table (← cut buffer pos buffer.size) with
      | none => return []
      | some c => return c :: (← commandsGuarded table buffer rounds (pos + c.size))
    else .ok []

/-- The first entry of set `index`, or the end of the buffer behind the last set. -/
def firstEntry (buffer : Array UInt8) (starts : List Nat) (index : Nat) : Guarded Nat :=
  match starts[index]? with
  | some start => reported (wordAt buffer .blockTable start)
  | none => .ok buffer.size

/-- Where a block ends whose list goes on with `stop`: there or, if that is zero, at the first entry that is
not zero of the sets from `index` on, one set each round. -/
def lookAhead (buffer : Array UInt8) (starts : List Nat) : (rounds index stop : Nat) → Guarded Nat
  | 0, _, _ => .error none
  | rounds + 1, index, stop =>
    if stop = 0 then do
      let next ← firstEntry buffer starts index
      lookAhead buffer starts rounds (index + 1) next
    else .ok stop

/-- The blocks of set `index`, given the positions of its entries and the entry before. -/
def blocksGuarded (table : Table) (buffer : Array UInt8) (starts : List Nat) (index previous : Nat) :
    List Nat → Guarded (List (List Command))
  | [] => .ok []
  | pos :: rest => do
    let block ← reported (wordAt buffer .blockTable pos)
    if previous = 0 then blocksGuarded table buffer starts index block rest
    else
      let stop ← lookAhead buffer starts (starts.length + 2) (index + 1) block
      if stop < previous ∨ buffer.size < stop then
        .error (some (.offsetOutOfRange .block (max stop previous) buffer.size))
      else
        let part ← cut buffer previous stop
        let commands ← commandsGuarded table part.toArray (part.length + 1) 0
        return commands :: (← blocksGuarded table buffer starts index block rest)

/-- The sets whose lists start at `starts`, from set `index` on; `blocks` is where the last list ends. -/
def setsGuarded (table : Table) (buffer : Array UInt8) (blocks : Nat) (starts : List Nat) (index : Nat) :
    List Nat → Guarded (List ConditionalSet)
  | [] => .ok []
  | start :: later => do
    let stop := starts[index + 1]?.getD blocks
    let decoded ← blocksGuarded table buffer starts index 0 (fieldPositions start stop)
    return ⟨decoded⟩ :: (← setsGuarded table buffer blocks starts (index + 1) later)

/-- Decodes a file of sets. -/
def decodeFileGuarded (table : Table) (bytes : Bytes) : Guarded (List ConditionalSet) := do
  let buffer := bytes.toArray
  if bytes = [] then return []
  let first ← reported (wordAt buffer .setTable 0)
  let starts ← (List.range (first / 2)).mapM fun i => reported (wordAt buffer .setTable (2 * i))
  match starts.find? (buffer.size ≤ ·) with
  | some bad => .error (some (.offsetOutOfRange .set bad buffer.size))
  | none =>
    match starts with
    | [] => return []
    | start :: _ => setsGuarded table buffer (firstBlock buffer start) starts 0 starts

/-! ## No check fails -/

section Guarded

variable {table : Table} {buffer : Array UInt8} {starts : List Nat}

/-- Every command takes a byte at least, so there are rounds for all of them. -/
theorem commandsGuarded_eq {rounds pos : Nat} (hpos : pos ≤ buffer.size) (hrounds : buffer.size - pos < rounds) :
    commandsGuarded table buffer rounds pos = .ok (decodeAll table [] (buffer.toList.drop pos)) := by
  induction rounds generalizing pos with
  | zero => omega
  | succ rounds ih =>
    have htail : (buffer.extract pos buffer.size).toList = buffer.toList.drop pos := by
      rw [Array.toList_extract, List.extract_eq_take_drop, List.take_of_length_le (by simp)]
    rw [commandsGuarded]
    split
    · rw [cut_of_le ⟨hpos, Nat.le_refl _⟩, htail, ok_bind]
      cases hdecode : decode? table (buffer.toList.drop pos) with
      | none =>
        rw [decodeAll_of_none hdecode]
        rfl
      | some c =>
        have hsize := (size_of_decode? hdecode).1
        have hle := size_le_of_decode? hdecode
        rw [List.length_drop, Array.length_toList] at hle
        dsimp only
        rw [decodeAll_of_some hdecode, if_neg List.not_mem_nil, List.drop_drop, ih (by omega) (by omega)]
        rfl
    · rw [List.drop_of_length_le (by simpa using ‹¬ pos < buffer.size›), decodeAll_nil]

/-- The search ends at the end of the buffer at the latest, since that is not zero. -/
theorem lookAhead_eq {rounds index stop : Nat} (hsize : buffer.size ≠ 0) (hindex : index ≤ starts.length)
    (hrounds : starts.length + 1 < rounds + index) :
    lookAhead buffer starts rounds index stop =
      reported (if stop = 0 then nextBlock buffer (starts.drop index) else .ok stop) := by
  induction rounds generalizing index stop with
  | zero => omega
  | succ rounds ih =>
    rw [lookAhead]
    by_cases hstop : stop = 0
    · rw [if_pos hstop, if_pos hstop]
      rcases Nat.lt_or_eq_of_le hindex with hlt | rfl
      · have hentry : firstEntry buffer starts index = reported (wordAt buffer .blockTable starts[index]) := by
          rw [firstEntry, List.getElem?_eq_getElem hlt]
        rw [hentry, List.drop_eq_getElem_cons hlt, nextBlock, reported_bind]
        exact congrArg _ (funext fun next => ih hlt (by omega))
      · -- behind the last set the end of the buffer is read, and one round more stops there
        have hentry : firstEntry buffer starts starts.length = .ok buffer.size := by
          rw [firstEntry, List.getElem?_eq_none (Nat.le_refl _)]
        obtain ⟨rounds, rfl⟩ : ∃ n, rounds = n + 1 := ⟨rounds - 1, by omega⟩
        rw [hentry, List.drop_length, ok_bind, lookAhead, if_neg hsize]
        rfl
    · rw [if_neg hstop, if_neg hstop]
      rfl

theorem blocksGuarded_eq {index previous : Nat} {positions : List Nat} (hsize : buffer.size ≠ 0)
    (hindex : index < starts.length) :
    blocksGuarded table buffer starts index previous positions =
      reported (decodeBlocks table buffer (starts.drop (index + 1)) previous positions) := by
  induction positions generalizing previous with
  | nil => rfl
  | cons pos rest ih =>
    rw [blocksGuarded]
    cases hword : wordAt buffer .blockTable pos with
    | error fault =>
      rw [decodeBlocks, hword]
      rfl
    | ok block =>
      by_cases hprevious : previous = 0
      · subst hprevious
        rw [decodeBlocks_first hword, ← ih]
        rfl
      · have hahead : lookAhead buffer starts (starts.length + 2) (index + 1) block =
            reported (if block = 0 then nextBlock buffer (starts.drop (index + 1)) else .ok block) :=
          lookAhead_eq hsize hindex (by omega)
        rw [decodeBlocks_cons hword hprevious, reported_bind, ← hahead]
        show (if previous = 0 then _ else _) = _
        rw [if_neg hprevious]
        refine congrArg _ (funext fun stop => ?_)
        by_cases hle : previous ≤ stop ∧ stop ≤ buffer.size
        · rw [if_neg (by omega), if_pos hle, cut_of_le hle, ok_bind, commandsGuarded_eq (Nat.zero_le _) (by simp),
            ok_bind, ih, reported_bind]
          rfl
        · rw [if_pos (by omega), if_neg hle]
          rfl

theorem setsGuarded_eq {blocks index : Nat} {later : List Nat} (hsize : buffer.size ≠ 0)
    (hlater : starts.drop index = later) :
    setsGuarded table buffer blocks starts index later = reported (decodeSetsAt table buffer blocks later) := by
  induction later generalizing index with
  | nil => rfl
  | cons start later ih =>
    have hindex : index < starts.length := by
      by_contra hge
      rw [List.drop_eq_nil_of_le (Nat.le_of_not_lt hge)] at hlater
      cases hlater
    have hdrop : starts.drop (index + 1) = later := by
      rw [← List.drop_drop, hlater]
      rfl
    rw [setsGuarded, decodeSetsAt, ← List.head?_drop, hdrop, blocksGuarded_eq hsize hindex, hdrop, ih hdrop,
      reported_bind]
    refine congrArg _ (funext fun decoded => ?_)
    rw [reported_bind]
    rfl

/-- The decoder returns what it returns with all its checks. -/
theorem decodeFileGuarded_eq (table : Table) (bytes : Bytes) :
    decodeFileGuarded table bytes = reported (ConditionalSet.decodeFile table bytes) := by
  unfold decodeFileGuarded ConditionalSet.decodeFile
  dsimp only
  by_cases hbytes : bytes = []
  · rw [if_pos hbytes, if_pos hbytes]
    rfl
  · have hsize : bytes.toArray.size ≠ 0 := by simpa using hbytes
    rw [if_neg hbytes, if_neg hbytes, reported_bind]
    refine congrArg _ (funext fun first => ?_)
    rw [reported_bind, reported_mapM]
    refine congrArg _ (funext fun starts => ?_)
    cases starts.find? (bytes.toArray.size ≤ ·) with
    | some bad => rfl
    | none =>
      cases starts with
      | nil => rfl
      | cons start later => exact setsGuarded_eq hsize List.drop_zero

end Guarded

/-! ## Faults and results -/

/-- A fault of a buffer of that size: it ends early, or an offset leads out of it or back. -/
def OfBuffer (size : Nat) (fault : Fault) : Prop :=
  (∃ field pos, fault = .truncated field pos size) ∨ ∃ landmark offset, fault = .offsetOutOfRange landmark offset size

/-- A fault of the buffer, or a result of that kind. -/
def Yields {α : Type} (size : Nat) (P : α → Prop) : Except Fault α → Prop
  | .error fault => OfBuffer size fault
  | .ok a => P a

theorem Yields.bind {α β : Type} {size : Nat} {P : α → Prop} {Q : β → Prop} {x : Except Fault α}
    {f : α → Except Fault β} (hx : Yields size P x) (hf : ∀ a, P a → Yields size Q (f a)) :
    Yields size Q (x >>= f) := by
  cases x with
  | error fault => exact hx
  | ok a => exact hf a hx

theorem Yields.mono {α : Type} {size : Nat} {P Q : α → Prop} {x : Except Fault α} (hx : Yields size P x)
    (h : ∀ a, P a → Q a) : Yields size Q x := by
  cases x with
  | error fault => exact hx
  | ok a => exact h a hx

theorem Yields.mapM {α β : Type} {size : Nat} {P : α → β → Prop} {f : α → Except Fault β} {l : List α}
    (h : ∀ a ∈ l, Yields size (P a) (f a)) : Yields size (List.Forall₂ P l) (l.mapM f) := by
  induction l with
  | nil => exact .nil
  | cons a l ih =>
    obtain ⟨ha, hl⟩ := List.forall_mem_cons.1 h
    rw [List.mapM_cons]
    exact ha.bind fun b hb => (ih hl).bind fun bs hbs => .cons hb hbs

theorem yields_wordAt (buffer : Array UInt8) (field : Field) (pos : Nat) :
    Yields buffer.size (fun n => Bytes.word16? buffer pos = some n) (wordAt buffer field pos) := by
  unfold wordAt
  split
  · assumption
  · exact .inl ⟨field, pos, rfl⟩

/-! ## Blocks and entries -/

/-- The words of the buffer at these positions. -/
def Reads (buffer : Array UInt8) : (positions words : List Nat) → Prop :=
  List.Forall₂ fun pos n => Bytes.word16? buffer pos = some n

/-- The entries of a list that start a block, each with the entry behind it. -/
def spans (run : List Nat) : List (Nat × Nat) := (run.zip run.tail).filter (·.1 ≠ 0)

/-- Where a block ends when `next` stands behind its entry: there or, if that is zero, at the first entry
that is not zero of the sets that start at `later`, or at the end of the buffer. -/
def blockStop (buffer : Array UInt8) (later : List Nat) (next : Nat) : Nat :=
  ((next :: later.filterMap (Bytes.word16? buffer)).find? (· ≠ 0)).getD buffer.size

/-- The commands are decoded from one part of the buffer, which starts at the entry. -/
structure IsBlock (table : Table) (buffer : Array UInt8) (entry stop : Nat) (commands : List Command) : Prop where
  le_stop : entry ≤ stop
  stop_le : stop ≤ buffer.size
  decoded : commands = decodeAll table [] (buffer.extract entry stop).toList

/-- The block of an entry of a list, with the entry behind it, when the sets behind start at `later`. -/
def IsBlockOf (table : Table) (buffer : Array UInt8) (later : List Nat) (span : Nat × Nat) : List Command → Prop :=
  IsBlock table buffer span.1 (blockStop buffer later span.2)

theorem spans_cons_cons (entry next : Nat) (run : List Nat) :
    spans (entry :: next :: run) = if entry = 0 then spans (next :: run) else (entry, next) :: spans (next :: run) := by
  unfold spans
  rw [List.tail_cons, List.zip_cons_cons, List.tail_cons, List.filter_cons]
  by_cases hentry : entry = 0
  · rw [if_neg (by simpa using hentry), if_pos hentry]
  · rw [if_pos (by simpa using hentry), if_neg hentry]

/-- A zero at the end of a list is the only entry without a block that it could have. -/
theorem map_fst_spans {run : List Nat} (h : run.getLast? = some 0) : (spans run).map (·.1) = run.filter (· ≠ 0) := by
  match run with
  | [] => cases h
  | [entry] =>
    cases h
    rfl
  | entry :: next :: run =>
    rw [List.getLast?_cons_cons] at h
    rw [spans_cons_cons, List.filter_cons, ← map_fst_spans h]
    by_cases hentry : entry = 0
    · rw [if_pos hentry, if_neg (by simpa using hentry)]
    · rw [if_neg hentry, if_pos (by simpa using hentry)]
      rfl

section Blocks

variable {table : Table} {buffer : Array UInt8}

theorem yields_nextBlock (later : List Nat) :
    Yields buffer.size (· = blockStop buffer later 0) (nextBlock buffer later) := by
  induction later with
  | nil => rfl
  | cons set later ih =>
    rw [nextBlock]
    refine (yields_wordAt buffer .blockTable set).bind fun block hblock => ?_
    have hstop : blockStop buffer (set :: later) 0 = blockStop buffer later block := by
      unfold blockStop
      rw [List.filterMap_cons_some hblock]
      rfl
    rw [hstop]
    by_cases hzero : block = 0
    · rw [if_pos hzero, hzero]
      exact ih
    · rw [if_neg hzero, blockStop, List.find?_cons_of_pos (by simpa using hzero)]
      rfl

theorem yields_stop (later : List Nat) (block : Nat) :
    Yields buffer.size (· = blockStop buffer later block)
      (if block = 0 then nextBlock buffer later else .ok block) := by
  by_cases hzero : block = 0
  · rw [if_pos hzero, hzero]
    exact yields_nextBlock later
  · rw [if_neg hzero, blockStop, List.find?_cons_of_pos (by simpa using hzero)]
    rfl

/-- The entries of a list are read one after the other, and each but the last that is not zero gives a
block. -/
theorem yields_decodeBlocks (later : List Nat) (previous : Nat) (positions : List Nat) :
    Yields buffer.size (fun blocks => ∃ run, Reads buffer positions run ∧
        List.Forall₂ (IsBlockOf table buffer later) (spans (previous :: run)) blocks)
      (decodeBlocks table buffer later previous positions) := by
  induction positions generalizing previous with
  | nil => exact ⟨[], .nil, .nil⟩
  | cons pos rest ih =>
    have hword := yields_wordAt buffer .blockTable pos
    cases hblock : wordAt buffer .blockTable pos with
    | error fault =>
      rw [hblock] at hword
      rw [decodeBlocks, hblock]
      exact hword
    | ok block =>
      rw [hblock] at hword
      by_cases hprevious : previous = 0
      · subst hprevious
        rw [decodeBlocks_first hblock]
        refine (ih block).mono fun blocks hread => ?_
        obtain ⟨run, hrun, hblocks⟩ := hread
        refine ⟨block :: run, .cons hword hrun, ?_⟩
        rwa [spans_cons_cons, if_pos rfl]
      · rw [decodeBlocks_cons hblock hprevious]
        refine (yields_stop later block).bind fun stop hstop => ?_
        by_cases hle : previous ≤ stop ∧ stop ≤ buffer.size
        · rw [if_pos hle]
          refine (ih block).bind fun blocks hread => ?_
          obtain ⟨run, hrun, hblocks⟩ := hread
          refine ⟨block :: run, .cons hword hrun, ?_⟩
          rw [spans_cons_cons, if_neg hprevious]
          refine .cons ?_ hblocks
          rw [IsBlockOf, ← hstop]
          exact ⟨hle.1, hle.2, rfl⟩
        · rw [if_neg hle]
          exact .inr ⟨.block, _, rfl⟩

/-! ## Sets -/

/-- Set `i` of a file whose lists start at `starts`: its list reaches up to the next one, or up to `blocks`,
and its blocks are cut at the entries. In a list that ends with a zero, these are all entries that are not
zero. -/
def IsSet (table : Table) (buffer : Array UInt8) (blocks : Nat) (starts : List Nat) (i : Nat) (s : ConditionalSet) :
    Prop :=
  ∃ start run, starts[i]? = some start ∧ Reads buffer (fieldPositions start (starts[i + 1]?.getD blocks)) run ∧
    List.Forall₂ (IsBlockOf table buffer (starts.drop (i + 1))) (spans run) s.blocks ∧
    (run.getLast? = some 0 →
      List.Forall₂ (fun entry commands => ∃ stop, IsBlock table buffer entry stop commands) (run.filter (· ≠ 0))
        s.blocks)

theorem yields_decodeSetsAt (blocks : Nat) (starts : List Nat) :
    Yields buffer.size
      (fun sets => sets.length = starts.length ∧ ∀ i s, sets[i]? = some s → IsSet table buffer blocks starts i s)
      (decodeSetsAt table buffer blocks starts) := by
  induction starts with
  | nil => exact ⟨rfl, fun i s h => by cases h⟩
  | cons start later ih =>
    rw [decodeSetsAt]
    refine (yields_decodeBlocks later 0 _).bind fun decoded hread => ih.bind fun more hmore => ?_
    obtain ⟨run, hrun, hdecoded⟩ := hread
    refine ⟨congrArg (· + 1) hmore.1, fun i s hs => ?_⟩
    cases i with
    | succ i => exact hmore.2 i s hs
    | zero =>
      cases hs
      have hspans : spans (0 :: run) = spans run := by
        cases run with
        | nil => rfl
        | cons entry run => rw [spans_cons_cons, if_pos rfl]
      rw [hspans] at hdecoded
      refine ⟨start, run, rfl, ?_, hdecoded, fun hlast => ?_⟩
      · rw [List.getElem?_cons_succ, ← List.head?_eq_getElem?]
        exact hrun
      · rw [← map_fst_spans hlast, List.forall₂_map_left_iff]
        exact hdecoded.imp fun _ _ h => ⟨_, h⟩

/-- The sets of a file: half as many as its first word says, each decoded from its list. -/
def AreSets (table : Table) (bytes : Bytes) (sets : List ConditionalSet) : Prop :=
  sets.length = (Bytes.word16? bytes.toArray 0).getD 0 / 2 ∧
    ∃ starts, Reads bytes.toArray ((List.range sets.length).map (2 * ·)) starts ∧
      (∀ start ∈ starts, start < bytes.length) ∧
      ∀ i s, sets[i]? = some s → IsSet table bytes.toArray (firstBlock bytes.toArray (starts.headD 0)) starts i s

/-- Decoding sets makes no cut out of range and comes to an end. It returns a fault of the buffer, or the sets
of the file. -/
theorem decodeFile_safe (table : Table) (bytes : Bytes) :
    decodeFileGuarded table bytes = reported (ConditionalSet.decodeFile table bytes) ∧
      Yields bytes.length (AreSets table bytes) (ConditionalSet.decodeFile table bytes) := by
  refine ⟨decodeFileGuarded_eq table bytes, ?_⟩
  unfold ConditionalSet.decodeFile
  by_cases hbytes : bytes = []
  · rw [if_pos hbytes, hbytes]
    exact ⟨rfl, [], .nil, List.forall_mem_nil _, fun i s h => by cases h⟩
  · rw [if_neg hbytes]
    refine (yields_wordAt bytes.toArray .setTable 0).bind fun first hfirst => ?_
    refine (Yields.mapM fun i _ => yields_wordAt bytes.toArray .setTable (2 * i)).bind fun starts hstarts => ?_
    cases hfind : starts.find? (bytes.toArray.size ≤ ·) with
    | some bad => exact .inr ⟨.set, bad, rfl⟩
    | none =>
      have hlength : starts.length = first / 2 := by rw [← hstarts.length_eq, List.length_range]
      have hsets : Yields bytes.length (AreSets table bytes)
          (decodeSetsAt table bytes.toArray (firstBlock bytes.toArray (starts.headD 0)) starts) := by
        refine (yields_decodeSetsAt _ starts).mono fun sets hread => ?_
        obtain ⟨hcount, hsets⟩ := hread
        refine ⟨by rw [hcount, hlength, hfirst]; rfl, starts, ?_, by simpa using hfind, hsets⟩
        rw [hcount, hlength, Reads, List.forall₂_map_left_iff]
        exact hstarts
      cases starts with
      | nil => exact hsets
      | cons start later => exact hsets

end Blocks

/-- The first block would end before it starts. -/
example : ConditionalSet.decodeFile mixedTable [2, 0, 8, 0, 4, 0, 0, 0] = .error (.offsetOutOfRange .block 8 8) := by
  decide

end DiscPatch.Command
