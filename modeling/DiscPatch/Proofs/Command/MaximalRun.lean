/-
How far decoding goes. The commands of a byte string lie back to back from its front, and decoding ends where
the bytes are used up, where no command can be decoded, or behind the first sentinel, and nowhere else; so it
never reads past the end, and bytes put behind the others can only add commands.
-/
import DiscPatch.Command.Slots
import DiscPatch.Proofs.Command.RoundTrip

namespace DiscPatch.Command

/-! ## Bytes put behind the others -/

section Append

variable {table : Table} {bytes : Bytes}

/-- More bytes do not change what the first `n` bytes name. -/
theorem named?_append {n : Nat} (hn : n ≤ bytes.length) (more : Bytes) :
    named? table (bytes ++ more) n = named? table bytes n := by
  unfold named?
  rw [Bytes.split?_eq_of_le hn, Bytes.split?_eq_of_le (by rw [List.length_append]; omega),
    List.take_append_of_le_length hn]
  rfl

/-- The shortest match stays the shortest one when longer ones become possible. -/
theorem match?_append {t : Layout} (h : match? table bytes = some t) (more : Bytes) :
    match? table (bytes ++ more) = some t := by
  obtain ⟨n, hn, hnamed, hleast⟩ := match?_eq_some_iff.1 h
  -- Shorter identifiers than the match lie inside the old bytes, so they still name nothing.
  have hlen := (named?_eq_some_iff.1 hnamed).1
  refine match?_eq_some_iff.2 ⟨n, hn, (named?_append hlen more).trans hnamed, fun m hm hmn => ?_⟩
  rw [named?_append (by omega) more]
  exact hleast m hm hmn

theorem split?_append_more {n : Nat} {front rest : Bytes} (h : Bytes.split? n bytes = some (front, rest))
    (more : Bytes) : Bytes.split? n (bytes ++ more) = some (front, rest ++ more) := by
  obtain ⟨rfl, hl⟩ := Bytes.split?_eq_some h
  rw [List.append_assoc]
  exact Bytes.split?_append hl (rest ++ more)

theorem readArguments_append_more {ps : List Parameter} {as : List Argument}
    (h : readArguments ps bytes = some as) (more : Bytes) : readArguments ps (bytes ++ more) = some as := by
  induction ps generalizing bytes as with
  | nil => exact h
  | cons p ps ih =>
    obtain ⟨⟨field, rest⟩, hsplit, h⟩ := Option.bind_eq_some_iff.1 h
    obtain ⟨behind, hbehind, rfl⟩ := Option.map_eq_some_iff.1 h
    rw [readArguments, split?_append_more hsplit more]
    simp only [Option.bind_some, ih hbehind, Option.map_some]

/-- A command that is decoded is decoded with any bytes behind it. -/
theorem decode?_append {c : Command} (h : decode? table bytes = some c) (more : Bytes) :
    decode? table (bytes ++ more) = some c := by
  obtain ⟨t, ht, h⟩ := Option.bind_eq_some_iff.1 h
  obtain ⟨⟨front, rest⟩, hsplit, h⟩ := Option.bind_eq_some_iff.1 h
  obtain ⟨as, has, rfl⟩ := Option.map_eq_some_iff.1 h
  rw [decode?, match?_append ht more, Option.bind_some, split?_append_more hsplit more]
  simp only [Option.bind_some, readArguments_append_more has more, Option.map_some]

/-- Bytes put behind the others can only add commands. -/
theorem decodeAll_prefix_append (table : Table) (sentinels : List UInt32) (bytes more : Bytes) :
    decodeAll table sentinels bytes <+: decodeAll table sentinels (bytes ++ more) := by
  refine decodeAll_induction (P := fun bytes cs => cs <+: decodeAll table sentinels (bytes ++ more))
    (fun _ _ => List.nil_prefix) (fun bytes c h hc => ?_) (fun bytes c cs h hc ih => ?_) bytes
  · rw [decodeAll_of_some (decode?_append h more), if_pos hc]
  · rw [decodeAll_of_some (decode?_append h more), if_neg hc,
      List.drop_append_of_le_length (size_le_of_decode? h)]
    exact List.cons_prefix_cons.2 ⟨rfl, ih⟩

end Append

/-! ## Runs that go as far as they can -/

/-- The bytes of commands that lie back to back. -/
def extent (cs : List Command) : Nat :=
  Bytes.total (cs.map size)

theorem extent_cons (c : Command) (cs : List Command) : extent (c :: cs) = c.size + extent cs := rfl

/-- Commands that lie back to back from the front of the bytes and go as far as they can. -/
structure MaximalRun (table : Table) (sentinels : List UInt32) (bytes : Bytes) (cs : List Command) : Prop where
  /-- Each command is the one that is decoded where those before it end. -/
  backToBack : ∀ k c, cs[k]? = some c → decode? table (bytes.drop (extent (cs.take k))) = some c
  within : extent cs ≤ bytes.length
  /-- No command goes on behind a sentinel. -/
  unended : ∀ c ∈ cs.dropLast, c.id ∉ sentinels
  /-- The bytes are used up, or no command comes next, or the last command is a sentinel. -/
  stops : extent cs = bytes.length ∨ decode? table (bytes.drop (extent cs)) = none ∨
    ∃ c, cs.getLast? = some c ∧ c.id ∈ sentinels

section MaximalRun

variable {table : Table} {sentinels : List UInt32} {bytes : Bytes} {c : Command} {cs : List Command}

theorem decode?_nil : decode? table [] = none := by
  by_contra h
  obtain ⟨c, hc⟩ := Option.ne_none_iff_exists'.1 h
  exact (size_of_decode? hc).2 rfl

theorem maximalRun_nil_iff : MaximalRun table sentinels bytes [] ↔ decode? table bytes = none := by
  constructor
  · intro h
    rcases h.stops with hused | hnone | ⟨c, hc, -⟩
    · rw [List.length_eq_zero_iff.1 hused.symm]
      exact decode?_nil
    · exact hnone
    · cases hc
  · intro h
    exact ⟨fun k c hc => (by cases hc), Nat.zero_le _, fun c hc => (by cases hc), .inr (.inl h)⟩

theorem MaximalRun.head (h : MaximalRun table sentinels bytes (c :: cs)) : decode? table bytes = some c :=
  h.backToBack 0 c rfl

/-- Behind a sentinel there are no commands. -/
theorem MaximalRun.eq_nil (h : MaximalRun table sentinels bytes (c :: cs)) (hc : c.id ∈ sentinels) : cs = [] := by
  cases cs with
  | nil => rfl
  | cons d ds => exact absurd hc (h.unended c (List.mem_cons_self ..))

theorem maximalRun_of_sentinel (hfirst : decode? table bytes = some c) (hc : c.id ∈ sentinels) :
    MaximalRun table sentinels bytes [c] where
  backToBack
    | 0, _, rfl => hfirst
  within := size_le_of_decode? hfirst
  unended _ hd := by cases hd
  stops := .inr (.inr ⟨c, rfl, hc⟩)

/-- Behind any other command there is a run on the bytes behind it. -/
theorem MaximalRun.tail (h : MaximalRun table sentinels bytes (c :: cs)) (hc : c.id ∉ sentinels) :
    MaximalRun table sentinels (bytes.drop c.size) cs := by
  have hwithin := h.within
  have hsize := size_le_of_decode? h.head
  rw [extent_cons] at hwithin
  refine ⟨fun k d hd => ?_, by rw [List.length_drop]; omega, fun d hd => ?_, ?_⟩
  · rw [List.drop_drop]
    exact h.backToBack (k + 1) d hd
  · cases cs with
    | nil => cases hd
    | cons e es => exact h.unended d (List.mem_cons_of_mem _ hd)
  · rcases h.stops with hused | hnone | ⟨d, hd, hlast⟩
    · rw [extent_cons] at hused
      exact .inl (by rw [List.length_drop]; omega)
    · exact .inr (.inl (by rw [List.drop_drop]; exact hnone))
    · cases cs with
      | nil =>
        cases hd
        exact absurd hlast hc
      | cons e es => exact .inr (.inr ⟨d, hd, hlast⟩)

/-- A command in front of a run, no sentinel, makes it a longer run. -/
theorem MaximalRun.cons (hfirst : decode? table bytes = some c) (hc : c.id ∉ sentinels)
    (h : MaximalRun table sentinels (bytes.drop c.size) cs) : MaximalRun table sentinels bytes (c :: cs) := by
  have hwithin := h.within
  have hsize := size_le_of_decode? hfirst
  rw [List.length_drop] at hwithin
  refine ⟨fun k d hd => ?_, by rw [extent_cons]; omega, fun d hd => ?_, ?_⟩
  · cases k with
    | zero =>
      cases hd
      exact hfirst
    | succ k =>
      have hnext := h.backToBack k d hd
      rw [List.drop_drop] at hnext
      exact hnext
  · cases cs with
    | nil => cases hd
    | cons e es =>
      rcases List.mem_cons.1 hd with rfl | hd
      · exact hc
      · exact h.unended d hd
  · rcases h.stops with hused | hnone | ⟨d, hd, hlast⟩
    · rw [List.length_drop] at hused
      exact .inl (by rw [extent_cons]; omega)
    · rw [List.drop_drop] at hnone
      exact .inr (.inl hnone)
    · cases cs with
      | nil => cases hd
      | cons e es => exact .inr (.inr ⟨d, hd, hlast⟩)

theorem maximalRun_cons_iff : MaximalRun table sentinels bytes (c :: cs) ↔ decode? table bytes = some c ∧
    if c.id ∈ sentinels then cs = [] else MaximalRun table sentinels (bytes.drop c.size) cs := by
  split
  · rename_i hc
    exact ⟨fun h => ⟨h.head, h.eq_nil hc⟩, fun ⟨hfirst, hnil⟩ => hnil ▸ maximalRun_of_sentinel hfirst hc⟩
  · rename_i hc
    exact ⟨fun h => ⟨h.head, h.tail hc⟩, fun ⟨hfirst, h⟩ => h.cons hfirst hc⟩

/-- Decoding gives the one run that goes as far as it can. -/
theorem decodeAll_eq_iff_maximalRun : decodeAll table sentinels bytes = cs ↔ MaximalRun table sentinels bytes cs := by
  -- On the commands, not the bytes: a run is known from its first command and the run behind it.
  induction cs generalizing bytes with
  | nil =>
    rw [maximalRun_nil_iff]
    cases h : decode? table bytes with
    | none => exact iff_of_true (decodeAll_of_none h) rfl
    | some c =>
      rw [decodeAll_of_some h]
      refine iff_of_false ?_ (by simp)
      split <;> simp
  | cons d cs ih =>
    rw [maximalRun_cons_iff]
    cases h : decode? table bytes with
    | none => simp [decodeAll_of_none h]
    | some c =>
      rw [decodeAll_of_some h, Option.some.injEq]
      by_cases hc : c.id ∈ sentinels
      · rw [if_pos hc, List.cons.injEq, eq_comm (a := ([] : List Command))]
        exact and_congr_right fun he => by rw [← he, if_pos hc]
      · rw [if_neg hc, List.cons.injEq]
        exact and_congr_right fun he => by rw [← he, if_neg hc, ih]

end MaximalRun

/-! ## Events -/

/-- The commands of an event end inside its bytes. -/
theorem Event.decode_ne_truncated (table : Table) (bytes : Bytes) (stop length : Nat) :
    Event.decode table bytes ≠ .error (.truncated .eventCommands stop length) := by
  have hwithin := (decodeAll_eq_iff_maximalRun.1
    (rfl : decodeAll table table.kind.sentinels (bytes.drop 4) = _)).within
  rw [List.length_drop] at hwithin
  unfold Event.decode Event.headSize
  split
  · simp
  · dsimp only
    split
    · rename_i hlong hshort
      unfold extent at hwithin
      omega
    · split
      · simp
      · split <;> simp

/-- Decoding reads exactly the run of commands that goes as far as it can: they lie back to back inside the
bytes, and end where the bytes do, where no command comes next, or behind the first sentinel. The commands of an
event are therefore never cut off, and bytes put behind the others can only add commands. -/
theorem decodeAll_reads_maximalRun (table : Table) (sentinels : List UInt32) (bytes : Bytes) :
    (∀ cs, decodeAll table sentinels bytes = cs ↔ MaximalRun table sentinels bytes cs) ∧
    (∀ stop length, Event.decode table bytes ≠ .error (.truncated .eventCommands stop length)) ∧
    ∀ more, decodeAll table sentinels bytes <+: decodeAll table sentinels (bytes ++ more) :=
  ⟨fun _ => decodeAll_eq_iff_maximalRun, Event.decode_ne_truncated table bytes,
    decodeAll_prefix_append table sentinels bytes⟩

end DiscPatch.Command
