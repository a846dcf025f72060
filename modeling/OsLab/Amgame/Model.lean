import OsLab.Lib.Trap
import Mathlib.Data.Fin.VecNotation

/-!
# The game of seven colours (`amgame/src/game.c`)

A round: the tiles slide, the cells are looked over, and a tile is placed. A cell of the board is an unbounded number; an access
to `blocks` is checked against its four rows of four.
-/

namespace OsLab.Amgame

/-- `blocks` -/
abbrev Board := Fin 4 → Fin 4 → Nat

/-- `dx`: left, top, right, down. -/
def dx : Fin 4 → Int := ![-1, 0, 1, 0]

def dy : Fin 4 → Int := ![0, -1, 0, 1]

/-- An index that is inside `blocks`. -/
def index (t : Int) : Option (Fin 4) := if h : 0 ≤ t ∧ t < 4 then some ⟨t.toNat, by omega⟩ else none

/-- `blocks[x][y] = v` -/
def Board.set (b : Board) (x y : Fin 4) (v : Nat) : Board := fun i j => if i = x ∧ j = y then v else b i j

/-- `swap(&blocks[tx][ty], &blocks[lx][ly])` -/
def Board.swap (b : Board) (tx ty lx ly : Fin 4) : Board := (b.set tx ty (b lx ly)).set lx ly (b tx ty)

/-- The pairs of indices in the order of two nested loops over 0 to 3. -/
def cells : List (Fin 4 × Fin 4) := (List.finRange 4).flatMap fun x => (List.finRange 4).map fun y => (x, y)

/-- The inner loop of `goRound`: a tile slides and merges. -/
def slideLoop (direction : Fin 4) : Nat → Board → Fin 4 → Fin 4 → Int → Int → Except Trap Board
  | 0, _, _, _, _, _ => .error .diverge
  | fuel + 1, b, lx, ly, tx, ty =>
    match index tx, index ty with
    | some x, some y =>
      if b x y = 0 then
        slideLoop direction fuel (b.swap x y lx ly) x y (tx + dx direction) (ty + dy direction)
      else if b x y = b lx ly then
        slideLoop direction fuel ((b.set x y (b x y + 1)).set lx ly 0) x y (tx + dx direction) (ty + dy direction)
      else .ok b
    | _, _ => .ok b

/-- The body of the scan over the cells, for a cell. -/
def slideCell (direction : Fin 4) (b : Board) (c : Fin 4 × Fin 4) : Except Trap Board :=
  if b c.1 c.2 = 0 then .ok b
  else slideLoop direction 4 b c.1 c.2 (c.1 + dx direction) (c.2 + dy direction)

/-- The sliding and merging loops of `goRound` -/
def slideAll (direction : Fin 4) (b : Board) : Except Trap Board := cells.foldlM (slideCell direction) b

/-- `empty` -/
def countEmpty (b : Board) : Nat := cells.foldl (fun empty c => empty + if b c.1 c.2 = 0 then 1 else 0) 0

/-- `*win` -/
def hasWon (b : Board) : Bool := cells.foldl (fun win c => win || decide (7 ≤ b c.1 c.2)) false

/-- The placing loop, which returns from inside. -/
def placeLoop (b : Board) : List (Fin 4 × Fin 4) → Int → Except Trap Board
  | [], _ => .error (.halt 1)
  | c :: cs, choice =>
    if b c.1 c.2 = 0 then
      if choice = 0 then .ok (b.set c.1 c.2 1) else placeLoop b cs (choice - 1)
    else placeLoop b cs choice

/-- `goRound`, where `rand()` returns `rand`, which is not negative: what is returned, `*win` and the board. -/
def goRound (direction : Fin 4) (rand : Nat) (b : Board) : Except Trap (Bool × Bool × Board) := do
  let b ← slideAll direction b
  let empty := countEmpty b
  let win := hasWon b
  if empty = 0 then .ok (false, win, b)
  else do
    let b ← placeLoop b cells (rand % empty : Nat)
    .ok (true, win, b)

end OsLab.Amgame
