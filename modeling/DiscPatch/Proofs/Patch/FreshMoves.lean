/-
Which requests of a call are carried out: those whose moves the patch does not know yet, each move at its
first request. Only which moves are known counts, so calls can be split, repeated and reordered without
looking at what else happened to the patch in between.
-/
import DiscPatch.Patch.Move
import Mathlib.Tactic

namespace DiscPatch.Patch

open Assembly

variable {space : AddressSpace} {known known' : List RamMove} {requests : List MoveRequest} {r : MoveRequest}

/-- The requests that are carried out where some moves are known already. -/
def carriedOut (space : AddressSpace) (known : List RamMove) (requests : List MoveRequest) : List MoveRequest :=
  (freshMoves space known requests).map (·.1)

/-- The moves that requests add to those known already. -/
def newMoves (space : AddressSpace) (known : List RamMove) (requests : List MoveRequest) : List RamMove :=
  (freshMoves space known requests).map (·.2)

theorem freshMoves_of_mem (h : r.ramMove space ∈ known) :
    freshMoves space known (r :: requests) = freshMoves space known requests :=
  if_pos h

theorem freshMoves_of_not_mem (h : r.ramMove space ∉ known) :
    freshMoves space known (r :: requests) =
      (r, r.ramMove space) :: freshMoves space (r.ramMove space :: known) requests :=
  if_neg h

theorem carriedOut_sublist (space : AddressSpace) (known : List RamMove) (requests : List MoveRequest) :
    (carriedOut space known requests).Sublist requests := by
  induction requests generalizing known with
  | nil => exact List.Sublist.slnil
  | cons r rest ih =>
    unfold carriedOut
    by_cases h : r.ramMove space ∈ known
    · rw [freshMoves_of_mem h]
      exact (ih known).cons r
    · rw [freshMoves_of_not_mem h]
      exact (ih _).cons_cons r

/-! ## Known moves -/

/-- Only which moves are known counts, not in which order. -/
theorem freshMoves_congr (h : ∀ m, m ∈ known ↔ m ∈ known') (requests : List MoveRequest) :
    freshMoves space known requests = freshMoves space known' requests := by
  induction requests generalizing known known' with
  | nil => rfl
  | cons r rest ih =>
    unfold freshMoves
    have hcons : ∀ m, m ∈ r.ramMove space :: known ↔ m ∈ r.ramMove space :: known' := by
      intro m
      rw [List.mem_cons, List.mem_cons, h]
    simp only [h, ih h, ih hcons]

theorem freshMoves_append (space : AddressSpace) (known : List RamMove) (requests more : List MoveRequest) :
    freshMoves space known (requests ++ more) = freshMoves space known requests ++
      freshMoves space (known ++ newMoves space known requests) more := by
  induction requests generalizing known with
  | nil =>
    show _ = freshMoves space (known ++ []) more
    rw [List.append_nil]
    rfl
  | cons r rest ih =>
    rw [List.cons_append]
    by_cases h : r.ramMove space ∈ known
    · rw [freshMoves_of_mem h, ih, newMoves, newMoves, freshMoves_of_mem h]
    · rw [freshMoves_of_not_mem h, freshMoves_of_not_mem h, ih, List.cons_append]
      refine congrArg (_ :: _ ++ ·) (freshMoves_congr (fun m => ?_) more)
      rw [newMoves, newMoves, freshMoves_of_not_mem h, List.map_cons]
      simp only [List.mem_append, List.mem_cons, or_left_comm]

theorem carriedOut_append (space : AddressSpace) (known : List RamMove) (requests more : List MoveRequest) :
    carriedOut space known (requests ++ more) =
      carriedOut space known requests ++ carriedOut space (known ++ newMoves space known requests) more := by
  unfold carriedOut
  rw [freshMoves_append, List.map_append]

theorem newMoves_append (space : AddressSpace) (known : List RamMove) (requests more : List MoveRequest) :
    newMoves space known (requests ++ more) =
      newMoves space known requests ++ newMoves space (known ++ newMoves space known requests) more := by
  rw [newMoves, freshMoves_append, List.map_append]
  rfl

/-! ## What is recorded -/

/-- Once a call is carried out, all its moves are known. -/
theorem ramMove_mem_append_newMoves (hr : r ∈ requests) :
    r.ramMove space ∈ known ++ newMoves space known requests := by
  induction requests generalizing known with
  | nil => cases hr
  | cons first rest ih =>
    by_cases hfirst : first.ramMove space ∈ known
    · rw [newMoves, freshMoves_of_mem hfirst]
      rcases List.mem_cons.1 hr with rfl | hr
      · exact List.mem_append_left _ hfirst
      · exact ih hr
    · rw [newMoves, freshMoves_of_not_mem hfirst, List.map_cons]
      rcases List.mem_cons.1 hr with rfl | hr
      · exact List.mem_append_right _ (List.mem_cons_self ..)
      · have hmem : r.ramMove space ∈ (first.ramMove space :: known) ++
            newMoves space (first.ramMove space :: known) rest := ih hr
        exact List.perm_middle.symm.subset hmem

/-- Each new move is recorded once. -/
theorem nodup_append_newMoves (h : known.Nodup) (requests : List MoveRequest) :
    (known ++ newMoves space known requests).Nodup := by
  induction requests generalizing known with
  | nil =>
    show (known ++ []).Nodup
    rwa [List.append_nil]
  | cons r rest ih =>
    by_cases hr : r.ramMove space ∈ known
    · rw [newMoves, freshMoves_of_mem hr]
      exact ih h
    · rw [newMoves, freshMoves_of_not_mem hr, List.map_cons]
      exact List.perm_middle.nodup_iff.2 (ih (List.nodup_cons.2 ⟨hr, h⟩))

/-- A call is passed over exactly when all its moves are known. -/
theorem freshMoves_eq_nil_iff : freshMoves space known requests = [] ↔ ∀ r ∈ requests, r.ramMove space ∈ known := by
  induction requests with
  | nil => exact ⟨fun _ => List.forall_mem_nil _, fun _ => rfl⟩
  | cons r rest ih =>
    rw [List.forall_mem_cons]
    by_cases hr : r.ramMove space ∈ known
    · rw [freshMoves_of_mem hr, ih]
      exact ⟨fun h => ⟨hr, h⟩, And.right⟩
    · rw [freshMoves_of_not_mem hr]
      exact ⟨fun h => (by cases h), fun h => absurd h.1 hr⟩

/-! ## Repeated requests -/

/-- Requests for a known move may as well be left out. -/
theorem freshMoves_filter_ne (h : r.ramMove space ∈ known) (requests : List MoveRequest) :
    freshMoves space known (requests.filter (!· == r)) = freshMoves space known requests := by
  induction requests generalizing known with
  | nil => rfl
  | cons first rest ih =>
    by_cases heq : first = r
    · subst heq
      rw [List.filter_cons_of_neg (by simp), freshMoves_of_mem h, ih h]
    · rw [List.filter_cons_of_pos (by simpa using heq)]
      by_cases hfirst : first.ramMove space ∈ known
      · rw [freshMoves_of_mem hfirst, freshMoves_of_mem hfirst, ih h]
      · rw [freshMoves_of_not_mem hfirst, freshMoves_of_not_mem hfirst, ih (List.mem_cons_of_mem _ h)]

/-- A range named more than once counts at its first position. -/
theorem freshMoves_eraseDups (space : AddressSpace) (known : List RamMove) (requests : List MoveRequest) :
    freshMoves space known requests.eraseDups = freshMoves space known requests := by
  match requests with
  | [] => rw [List.eraseDups_nil]
  | r :: rest =>
    -- what is left behind the first request is shorter than the list, but no tail of it
    have hshorter : (rest.filter (!· == r)).length < rest.length + 1 :=
      Nat.lt_succ_of_le (List.length_filter_le ..)
    rw [List.eraseDups_cons]
    by_cases hr : r.ramMove space ∈ known
    · rw [freshMoves_of_mem hr, freshMoves_of_mem hr, freshMoves_eraseDups, freshMoves_filter_ne hr]
    · rw [freshMoves_of_not_mem hr, freshMoves_of_not_mem hr, freshMoves_eraseDups,
        freshMoves_filter_ne (List.mem_cons_self ..)]
termination_by requests.length

/-! ## Calls -/

/-- The moves that each of some calls adds to those known by then. -/
def movesOfCalls (known : List RamMove) : List (AddressSpace × List MoveRequest) → List (List RamMove)
  | [] => []
  | (space, requests) :: rest =>
    newMoves space known requests :: movesOfCalls (known ++ newMoves space known requests) rest

/-- The requests that some calls carry out between them. -/
def requestsOfCalls (known : List RamMove) : List (AddressSpace × List MoveRequest) → List MoveRequest
  | [] => []
  | (space, requests) :: rest =>
    carriedOut space known requests ++ requestsOfCalls (known ++ newMoves space known requests) rest

variable {p : Patch}

theorem moves_move (assembler : Assembler) (space : AddressSpace) (p : Patch) (requests : List MoveRequest) :
    (p.move assembler space requests).moves = p.moves ++ newMoves space p.moves requests := by
  unfold move newMoves
  dsimp only
  split
  · rename_i hnone
    rw [hnone, List.append_nil]
  · rfl

theorem move_of_known (assembler : Assembler) (h : ∀ r ∈ requests, r.ramMove space ∈ p.moves) :
    p.move assembler space requests = p := by
  unfold move
  rw [freshMoves_eq_nil_iff.2 h]
  rfl

theorem move_congr (assembler : Assembler) {requests' : List MoveRequest}
    (h : freshMoves space p.moves requests = freshMoves space p.moves requests') :
    p.move assembler space requests = p.move assembler space requests' := by
  unfold move
  rw [h]

end DiscPatch.Patch
