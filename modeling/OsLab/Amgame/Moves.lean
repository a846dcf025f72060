import OsLab.Amgame.Model
import OsLab.Lib.Tiles
import Mathlib.Data.List.OfFn

/-!
# Moves (`goRound`)

In each direction the board is four lines from the far side to the wall, and the sliding and merging loops sweep each of them
on its own (`slideAll_run`). The scan goes from the wall outwards for left and top, and from the far side inwards for right and
down.
-/

namespace OsLab.Amgame

open OsLab.Tiles

/-- The cell at a position of a line; position 3 is at the wall. -/
def cell (direction k i : Fin 4) : Fin 4 × Fin 4 :=
  match direction with
  | 0 => (i.rev, k)
  | 1 => (k, i.rev)
  | 2 => (i, k)
  | 3 => (k, i)

/-- The line and the position of a cell. -/
def place (direction : Fin 4) (c : Fin 4 × Fin 4) : Fin 4 × Fin 4 :=
  match direction with
  | 0 => (c.2, c.1.rev)
  | 1 => (c.1, c.2.rev)
  | 2 => (c.2, c.1)
  | 3 => (c.1, c.2)

/-- A line of the board. -/
def line (direction : Fin 4) (b : Board) (k : Fin 4) : List Nat :=
  List.ofFn fun i => b (cell direction k i).1 (cell direction k i).2

section Lines

variable {direction k k' i : Fin 4} {b b' : Board} {v : Nat}

@[simp] theorem length_line : (line direction b k).length = 4 := List.length_ofFn

theorem cell_place (direction : Fin 4) : ∀ x y, cell direction (place direction (x, y)).1 (place direction (x, y)).2 = (x, y) := by
  revert direction
  decide

theorem place_cell (direction k i : Fin 4) : place direction (cell direction k i) = (k, i) := by
  revert direction k i
  decide

theorem cell_inj {j : Fin 4} : cell direction k' j = cell direction k i ↔ k' = k ∧ j = i := by
  refine ⟨fun same => ?_, fun ⟨line, position⟩ => by rw [line, position]⟩
  have places := congrArg (place direction) same
  rwa [place_cell, place_cell, Prod.mk.injEq] at places

theorem line_getElem {j : Nat} (inside : j < 4) (below : j < (line direction b k).length) :
    (line direction b k)[j] = b (cell direction k ⟨j, inside⟩).1 (cell direction k ⟨j, inside⟩).2 := List.getElem_ofFn _

/-- A board is its lines. -/
theorem board_ext (direction : Fin 4) (same : ∀ k, line direction b k = line direction b' k) : b = b' := by
  funext x y
  have here := congrFun (List.ofFn_injective (same (place direction (x, y)).1)) (place direction (x, y)).2
  rwa [cell_place] at here

theorem set_cell {j : Fin 4} : b.set (cell direction k i).1 (cell direction k i).2 v (cell direction k' j).1 (cell direction k' j).2 =
    if k' = k ∧ j = i then v else b (cell direction k' j).1 (cell direction k' j).2 := by
  unfold Board.set
  exact if_congr (Prod.ext_iff.symm.trans cell_inj) rfl rfl

/-- What a tile leaves behind does not change the cell it has come to. -/
theorem set_cell_moved {w : Nat} :
    ((b.set (cell direction k (i + 1)).1 (cell direction k (i + 1)).2 v).set (cell direction k i).1 (cell direction k i).2 w)
      (cell direction k (i + 1)).1 (cell direction k (i + 1)).2 = v := by
  have other : i + 1 ≠ i := by omega
  rw [set_cell, if_neg (fun same => other same.2), set_cell, if_pos ⟨rfl, rfl⟩]

/-- A cell that is set is set in its line. -/
theorem line_set : line direction (b.set (cell direction k i).1 (cell direction k i).2 v) k' =
    if k' = k then (line direction b k).set i v else line direction b k' := by
  apply List.ext_getElem
  · split <;> simp
  · intro j inside _
    rw [length_line] at inside
    rw [line_getElem inside, set_cell]
    by_cases own : k' = k
    · simp only [own, true_and, if_true, List.getElem_set, line_getElem inside, Fin.ext_iff, eq_comm]
    · simp only [own, false_and, if_false, line_getElem inside]

/-- The index behind the one of a cell. -/
theorem index_next (direction k : Fin 4) : ∀ i : Fin 4, i.val < 3 →
    index ((cell direction k i).1 + dx direction) = some (cell direction k (i + 1)).1 ∧
      index ((cell direction k i).2 + dy direction) = some (cell direction k (i + 1)).2 := by
  revert direction k
  decide

/-- At the wall there is none. -/
theorem index_wall (direction k : Fin 4) : index ((cell direction k 3).1 + dx direction) = none ∨
    index ((cell direction k 3).2 + dy direction) = none := by
  revert direction k
  decide

theorem index_eq {t : Int} {x : Fin 4} (inside : index t = some x) : t = x := by
  unfold index at inside
  split at inside
  · obtain rfl := Option.some.inj inside
    dsimp only
    omega
  · cases inside

theorem line_getElem? : (line direction b k)[i.val]? = some (b (cell direction k i).1 (cell direction k i).2) := by
  rw [List.getElem?_eq_getElem (by rw [length_line]; exact i.isLt), line_getElem i.isLt]

end Lines

section Slides

variable {direction k : Fin 4} {b : Board}

/-- The lines of a board on which a cell slides. -/
def Slid (direction k : Fin 4) (i : Nat) (b b' : Board) : Prop :=
  ∀ k', line direction b' k' = if k' = k then slideAt i (line direction b k) else line direction b k'

theorem Slid.same {i : Fin 4} (stays : slideAt i (line direction b k) = line direction b k) : Slid direction k i b b := by
  intro k'
  rw [stays]
  split
  · next own => rw [own]
  · rfl

/-- A tile goes to the next cell, as another one perhaps. -/
theorem Slid.next {i : Fin 4} {v : Nat} {b' : Board} (below : i.val < 3)
    (slid : Slid direction k (i + 1 : Fin 4)
      ((b.set (cell direction k (i + 1)).1 (cell direction k (i + 1)).2 v).set (cell direction k i).1 (cell direction k i).2 0) b')
    (rest : slideAt (i + 1) (((line direction b k).set (i + 1) v).set i 0) = slideAt i (line direction b k)) :
    Slid direction k i b b' := by
  have position : (i + 1 : Fin 4).val = i + 1 := by omega
  intro k'
  rw [slid k', line_set, line_set, line_set, if_pos rfl, if_pos rfl, position, rest]
  split
  · rfl
  · next other => rw [line_set, if_neg other]

/-- The inner loop slides a tile in its line. -/
theorem slideLoop_run {fuel : Nat} {i : Fin 4} (enough : 4 ≤ i + fuel)
    (tile : b (cell direction k i).1 (cell direction k i).2 ≠ 0) :
    ∃ b', slideLoop direction fuel b (cell direction k i).1 (cell direction k i).2 ((cell direction k i).1 + dx direction)
      ((cell direction k i).2 + dy direction) = .ok b' ∧ Slid direction k i b b' := by
  induction fuel generalizing b i with
  | zero => omega
  | succ fuel ih =>
    rw [slideLoop]
    by_cases wall : i = 3
    · -- the cell behind is outside
      have outside : slideAt i (line direction b k) = line direction b k :=
        slideAt_last line_getElem? tile (by rw [length_line, wall]; rfl)
      refine ⟨b, ?_, .same outside⟩
      rw [wall]
      split
      · next x y first second =>
        rcases index_wall direction k with none | none
        · rw [none] at first
          cases first
        · rw [none] at second
          cases second
      · rfl
    · have below : i.val < 3 := by omega
      have position : (i + 1 : Fin 4).val = i + 1 := by omega
      obtain ⟨first, second⟩ := index_next direction k i below
      have next : (line direction b k)[i.val + 1]? =
          some (b (cell direction k (i + 1)).1 (cell direction k (i + 1)).2) := by
        rw [← position]
        exact line_getElem?
      rw [first, second, index_eq first, index_eq second]
      dsimp only
      by_cases empty : b (cell direction k (i + 1)).1 (cell direction k (i + 1)).2 = 0
      · rw [if_pos empty]
        unfold Board.swap
        rw [empty] at next ⊢
        have moved : (b.set (cell direction k (i + 1)).1 (cell direction k (i + 1)).2
            (b (cell direction k i).1 (cell direction k i).2)).set (cell direction k i).1 (cell direction k i).2 0
              (cell direction k (i + 1)).1 (cell direction k (i + 1)).2 ≠ 0 := by rwa [set_cell_moved]
        obtain ⟨b', run, slid⟩ := ih (by omega) moved
        exact ⟨b', run, slid.next below (slideAt_over line_getElem? tile next)⟩
      · rw [if_neg empty]
        by_cases same : b (cell direction k (i + 1)).1 (cell direction k (i + 1)).2 =
            b (cell direction k i).1 (cell direction k i).2
        · rw [if_pos same]
          rw [same] at next ⊢
          have moved : (b.set (cell direction k (i + 1)).1 (cell direction k (i + 1)).2
              (b (cell direction k i).1 (cell direction k i).2 + 1)).set (cell direction k i).1 (cell direction k i).2 0
                (cell direction k (i + 1)).1 (cell direction k (i + 1)).2 ≠ 0 := by
            rw [set_cell_moved]
            exact Nat.succ_ne_zero _
          obtain ⟨b', run, slid⟩ := ih (by omega) moved
          exact ⟨b', run, slid.next below (slideAt_merge line_getElem? tile next)⟩
        · rw [if_neg same]
          exact ⟨b, rfl, .same (slideAt_stop line_getElem? tile next empty same)⟩

theorem slideCell_run (i : Fin 4) : ∃ b', slideCell direction b (cell direction k i) = .ok b' ∧ Slid direction k i b b' := by
  unfold slideCell
  by_cases tile : b (cell direction k i).1 (cell direction k i).2 = 0
  · refine ⟨b, if_pos tile, .same (slideAt_empty ?_)⟩
    rw [← tile]
    exact line_getElem?
  · rw [if_neg tile]
    exact slideLoop_run (by omega) tile

/-- The positions on a line of some cells. -/
def positions (direction k : Fin 4) (cs : List (Fin 4 × Fin 4)) : List Nat :=
  cs.filterMap fun c => if k = (place direction c).1 then some (place direction c).2.val else none

/-- A scan over cells sweeps each line. -/
theorem scan_run (cs : List (Fin 4 × Fin 4)) : ∃ b', cs.foldlM (slideCell direction) b = .ok b' ∧
    ∀ k, line direction b' k = sweep (positions direction k cs) (line direction b k) := by
  induction cs generalizing b with
  | nil => exact ⟨b, rfl, fun k => rfl⟩
  | cons c cs ih =>
    have own : cell direction (place direction c).1 (place direction c).2 = c := cell_place direction c.1 c.2
    obtain ⟨b₁, first, slid⟩ := @slideCell_run direction (place direction c).1 b (place direction c).2
    rw [own] at first
    obtain ⟨b', rest, lines⟩ := ih (b := b₁)
    refine ⟨b', ?_, fun k => ?_⟩
    · rw [List.foldlM_cons, first]
      exact rest
    · rw [lines k, slid k]
      unfold positions
      rw [List.filterMap_cons]
      by_cases here : k = (place direction c).1
      · rw [if_pos here, if_pos here, ← here]
        rfl
      · rw [if_neg here, if_neg here]

/-- What the loops make of a line, by the direction. -/
def swept (direction : Fin 4) (l : List Nat) : List Nat := if direction.val < 2 then sweepDown l else sweepUp l

/-- The order of the scan on a line. -/
theorem positions_cells (direction k : Fin 4) :
    positions direction k cells = if direction.val < 2 then [3, 2, 1, 0] else [0, 1, 2, 3] := by
  revert direction k
  decide

/-- **The sliding and merging loops.** They sweep each line. -/
theorem slideAll_run (direction : Fin 4) (b : Board) :
    ∃ b', slideAll direction b = .ok b' ∧ ∀ k, line direction b' k = swept direction (line direction b k) := by
  obtain ⟨b', run, lines⟩ := @scan_run direction b cells
  refine ⟨b', run, fun k => ?_⟩
  rw [lines k, positions_cells]
  unfold swept
  split
  · unfold sweepDown
    rw [length_line]
    rfl
  · unfold sweepUp
    rw [length_line]
    rfl

end Slides

/-! ## Packing -/

/-- `3 - x` for left and right, `3 - y` for top and down. -/
def mirror (direction : Fin 4) (b : Board) : Board := fun x y => if dx direction = 0 then b x y.rev else b x.rev y

/-- No cell that is not 0 has one that is 0 next to it in the direction. -/
def PackedTo (direction : Fin 4) (b : Board) : Prop :=
  ∀ x y x' y' : Fin 4, (x' : Int) = x + dx direction → (y' : Int) = y + dy direction → b x y ≠ 0 → b x' y' ≠ 0

/-- A move packs the board, and is the opposite move of the mirrored board mirrored back. -/
structure Packs (direction : Fin 4) (b : Board) : Prop where
  packed : ∃ b', slideAll direction b = .ok b' ∧ PackedTo direction b'
  mirrors : ∃ b', slideAll (direction + 2) (mirror direction b) = .ok b' ∧ slideAll direction b = .ok (mirror direction b')

section Packing

variable {direction k : Fin 4} {b : Board}

theorem line_mirror : line direction (mirror direction b) k = line (direction + 2) b k := by
  unfold line
  congr 1
  funext i
  match direction with
  | 0 => exact congrArg (b · k) (Fin.rev_rev i)
  | 1 => exact congrArg (b k) (Fin.rev_rev i)
  | 2 => rfl
  | 3 => rfl

theorem line_mirror_back : line (direction + 2) (mirror direction b) k = line direction b k := by
  have same : mirror direction b = mirror (direction + 2) b := by
    match direction with
    | 0 => rfl
    | 1 => rfl
    | 2 => rfl
    | 3 => rfl
  have around : direction + 2 + 2 = direction := by omega
  rw [same, line_mirror, around]

/-- Of two opposite directions one is scanned outwards and one inwards. -/
theorem swept_opposite {l : List Nat} : swept direction l = swept (direction + 2) l ↔ sweepUp l = sweepDown l := by
  have order : direction.val < 2 ↔ ¬(direction + 2).val < 2 := by omega
  unfold swept
  by_cases outwards : direction.val < 2
  · rw [if_pos outwards, if_neg (order.1 outwards)]
    exact eq_comm
  · rw [if_neg outwards, if_pos (by omega)]

theorem index_cast (x : Fin 4) : index x = some x := by
  revert x
  decide

/-- No tile of the line has an empty cell behind it. -/
theorem packed_line_iff : Packed (line direction b k) ↔ ∀ i : Fin 4, i.val < 3 →
    b (cell direction k i).1 (cell direction k i).2 ≠ 0 → b (cell direction k (i + 1)).1 (cell direction k (i + 1)).2 ≠ 0 := by
  unfold Packed
  rw [List.isChain_iff_getElem]
  constructor
  · intro packed i below
    have position : (i + 1 : Fin 4).val = i + 1 := by omega
    have next : i.val + 1 < 4 := by omega
    have here := packed i (by rw [length_line]; exact next)
    rw [line_getElem i.isLt, line_getElem next] at here
    have same : (⟨i.val + 1, next⟩ : Fin 4) = i + 1 := Fin.ext position.symm
    rwa [same] at here
  · intro packed j inside
    rw [length_line] at inside
    have here := packed ⟨j, by omega⟩ (by dsimp only; omega)
    have same : (⟨j, by omega⟩ + 1 : Fin 4) = ⟨j + 1, inside⟩ := by
      apply Fin.ext
      rw [Fin.val_add]
      exact Nat.mod_eq_of_lt inside
    rw [same] at here
    rwa [line_getElem (by omega), line_getElem inside]

theorem packedTo_iff : PackedTo direction b ↔ ∀ k, Packed (line direction b k) := by
  simp only [packed_line_iff]
  constructor
  · intro packed k i below
    obtain ⟨first, second⟩ := index_next direction k i below
    exact packed _ _ _ _ (index_eq first).symm (index_eq second).symm
  · intro packed x y x' y' first second
    have here : cell direction (place direction (x, y)).1 (place direction (x, y)).2 = (x, y) := cell_place direction x y
    by_cases wall : (place direction (x, y)).2 = 3
    · rw [wall] at here
      rcases index_wall direction (place direction (x, y)).1 with none | none
      · rw [here, ← first, index_cast] at none
        cases none
      · rw [here, ← second, index_cast] at none
        cases none
    · obtain ⟨next, next'⟩ := index_next direction (place direction (x, y)).1 (place direction (x, y)).2 (by omega)
      have moved := packed (place direction (x, y)).1 (place direction (x, y)).2 (by omega)
      rw [here, ← first, index_cast, Option.some.injEq] at next
      rw [here, ← second, index_cast, Option.some.injEq] at next'
      rwa [here, ← next, ← next'] at moved

/-- **Packing.** A move packs the board and mirrors exactly if each line is clear. -/
theorem packs_iff (direction : Fin 4) (b : Board) : Packs direction b ↔ ∀ k, Clear (line direction b k) := by
  obtain ⟨b', run, lines⟩ := slideAll_run direction b
  obtain ⟨b'', run', lines'⟩ := slideAll_run (direction + 2) (mirror direction b)
  have back : ∀ k, line direction (mirror direction b'') k = swept (direction + 2) (line direction b k) := by
    intro k
    rw [line_mirror, lines', line_mirror_back]
  have mirrors : b' = mirror direction b'' ↔ ∀ k, Clear (line direction b k) := by
    simp only [← sweepUp_eq_sweepDown_iff, ← @swept_opposite direction, ← lines, ← back]
    exact ⟨fun same k => by rw [same], fun same => board_ext direction same⟩
  constructor
  · rintro ⟨-, b₂, run₂, same⟩
    rw [run', Except.ok.injEq] at run₂
    rw [run, Except.ok.injEq, ← run₂] at same
    exact mirrors.1 same
  · intro clear
    refine ⟨⟨b', run, packedTo_iff.2 fun k => ?_⟩, b'', run', run.trans (congrArg Except.ok (mirrors.2 clear))⟩
    have down : swept direction (line direction b k) = sweepDown (line direction b k) := by
      unfold swept
      rw [sweepUp_eq_sweepDown_iff.2 (clear k), ite_self]
    rw [lines, down]
    exact packed_sweepDown _

/-- Left and top pack every board. -/
theorem packed_outwards (outwards : direction.val < 2) :
    ∃ b', slideAll direction b = .ok b' ∧ PackedTo direction b' := by
  obtain ⟨b', run, lines⟩ := slideAll_run direction b
  refine ⟨b', run, packedTo_iff.2 fun k => ?_⟩
  rw [lines]
  unfold swept
  rw [if_pos outwards]
  exact packed_sweepDown _

/-- A tile at the far side, before another one that has room. -/
def twoTiles : Board := fun x y => if y.val = 0 then ![1, 2, 0, 0] x else 0

/-- To the right, the first tile stops before the second has gone. -/
theorem move_leaves_gap : ¬Packs 2 twoTiles := by
  rintro ⟨⟨b', run, packed⟩, -⟩
  have cells : (slideAll 2 twoTiles).map (fun b => (b 0 0, b 1 0)) = .ok (1, 0) := by decide
  rw [run] at cells
  obtain ⟨tile, empty⟩ := Prod.mk.inj (Except.ok.inj cells)
  exact packed 0 0 1 0 (by decide) (by decide) (by rw [tile]; decide) empty

end Packing

end OsLab.Amgame
