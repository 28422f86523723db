/-
Moving parts of a patch: segments and places of variables shift with the requested ranges that
they meet, and words in code follow. A move that was applied before is not applied again.
-/
import DiscPatch.Assembly.Assembler
import DiscPatch.Patch.Basic

namespace DiscPatch.Patch

open Assembly

/-- The requests whose moves are not among the known ones, each move once. -/
def freshMoves (space : AddressSpace) (known : List RamMove) :
    List MoveRequest → List (MoveRequest × RamMove)
  | [] => []
  | r :: rest =>
    let m := r.ramMove space
    if m ∈ known then freshMoves space known rest
    else (r, m) :: freshMoves space (m :: known) rest

/-- Shifts a segment if it meets the requested range. -/
def Segment.shift (s : Segment) (r : MoveRequest) : Segment :=
  if r.meets s.sector s.offset s.bytes.length then
    { s with offset := shifted s.offset r.distance, ram := shifted s.ram r.distance }
  else s

/-- Shifts a place of `size` bytes if it meets the requested range. -/
def Place.shift (size : Nat) (place : Place) (r : MoveRequest) : Place :=
  if r.meets place.sector place.offset size then
    { place with
      offset := shifted place.offset r.distance, ram := shifted place.ram r.distance }
  else place

/-- Shifts a segment by one request after the other; the words in code follow the moves unless the
segment moves simply. Input files stay where they are. -/
def Segment.move (assembler : Assembler) (requests : List MoveRequest) (moves : List RamMove)
    (s : Segment) : Segment :=
  if s.takesFile then s
  else
    let s := requests.foldl Segment.shift s
    if s.isCode && !s.movesSimply then
      { s with bytes := assembler.followMoves s.bytes s.ram moves }
    else s

/-- Shifts the places of a variable by one request after the other. -/
def Variable.move (requests : List MoveRequest) (v : Variable) : Variable :=
  { v with places := v.places.map fun place => requests.foldl (Place.shift v.size) place }

/-- The patch after the requested moves. -/
def move (assembler : Assembler) (space : AddressSpace) (p : Patch)
    (requests : List MoveRequest) : Patch :=
  let fresh := freshMoves space p.moves requests
  let requests := fresh.map (·.1)
  let moves := fresh.map (·.2)
  if moves = [] then p
  else
    { p with
      segments := p.segments.map (Segment.move assembler requests moves)
      vars := p.vars.map (Variable.move requests)
      moves := p.moves ++ moves }

end DiscPatch.Patch
