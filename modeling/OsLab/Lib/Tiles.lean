import Mathlib.Algebra.BigOperators.Group.List.Basic
import Mathlib.Data.List.Chain
import Mathlib.Tactic.Ring

/-!
# Sliding tiles

A line of cells from the far side to the wall, a tile in a cell a number that is not 0. A tile slides over empty cells and
merges with the tiles it equals, again and again (`push`). A sweep slides the tiles at some positions one after another. From
the wall outwards (`sweepDown`) it packs every line; from the far side inwards (`sweepUp`) it does the same to a line exactly
if that is `Clear`.
-/

namespace OsLab.Tiles

/-- A line with a tile `t` on the far side of it. -/
def push (t : Nat) : List Nat → List Nat
  | [] => [t]
  | u :: r => if u = 0 then 0 :: push t r else if u = t then 0 :: push (t + 1) r else t :: u :: r

/-- Slide the first cell of a line. -/
def slide : List Nat → List Nat
  | [] => []
  | t :: r => if t = 0 then t :: r else push t r

/-- Slide the cell at a position. -/
def slideAt (i : Nat) (l : List Nat) : List Nat := l.take i ++ slide (l.drop i)

/-- Slide the cells at positions. -/
def sweep (ps : List Nat) (l : List Nat) : List Nat := ps.foldl (fun l i => slideAt i l) l

/-- The sweep from the far side inwards. -/
def sweepUp (l : List Nat) : List Nat := sweep (List.range l.length) l

/-- The sweep from the wall outwards. -/
def sweepDown (l : List Nat) : List Nat := sweep (List.range l.length).reverse l

/-- No tile has an empty cell before it. -/
def Packed (l : List Nat) : Prop := l.IsChain fun t u => t ≠ 0 → u ≠ 0

/-- Tiles all along, and no two next to each other are equal. -/
def Still (l : List Nat) : Prop := 0 ∉ l ∧ l.IsChain (· ≠ ·)

/-- A tile `t` before a line merges with the tiles that it comes to as long as they are equal to it, and those that it does not
merge with are still. If `t` comes from a merge, the first of them is not equal to the tile it has last merged with. -/
def Comes (merged : Bool) (t : Nat) : List Nat → Prop
  | [] => True
  | u :: r =>
    if u = 0 then Comes merged t r
    else if u = t then Comes true (t + 1) r
    else Still (u :: r) ∧ (merged = true → u + 1 ≠ t)

/-- The first tile of a line comes to a stop before tiles that are still. -/
def Clear : List Nat → Prop
  | [] => True
  | t :: r => if t = 0 then Clear r else Comes false t r

section Sliding

variable {l r s ps : List Nat} {t u h i : Nat} {merged : Bool}

theorem push_zero : push t (0 :: r) = 0 :: push t r := if_pos rfl

theorem push_same (tile : t ≠ 0) : push t (t :: r) = 0 :: push (t + 1) r := by
  rw [push, if_neg tile, if_pos rfl]

theorem push_stop (tile : u ≠ 0) (other : u ≠ t) : push t (u :: r) = t :: u :: r := by
  rw [push, if_neg tile, if_neg other]

@[simp] theorem length_push : (push t l).length = l.length + 1 := by
  fun_induction push t l with
  | case1 => rfl
  | case2 t r ih => exact congrArg (· + 1) ih
  | case3 t r tile' ih => exact congrArg (· + 1) ih
  | case4 => rfl

theorem slide_zero : slide (0 :: r) = 0 :: r := rfl

theorem slide_tile (tile : t ≠ 0) : slide (t :: r) = push t r := if_neg tile

@[simp] theorem length_slide : (slide l).length = l.length := by
  cases l with
  | nil => rfl
  | cons t r =>
    rw [slide]
    split
    · rfl
    · exact length_push

@[simp] theorem length_slideAt : (slideAt i l).length = l.length := by
  unfold slideAt
  rw [List.length_append, length_slide, List.length_take, List.length_drop]
  omega

@[simp] theorem length_sweep : (sweep ps l).length = l.length := by
  induction ps generalizing l with
  | nil => rfl
  | cons i ps ih => exact ih.trans length_slideAt

theorem sweep_succ : sweep (ps.map (· + 1)) (h :: s) = h :: sweep ps s := by
  induction ps generalizing s with
  | nil => rfl
  | cons i ps ih => exact ih

theorem sweep_append {qs : List Nat} : sweep (ps ++ qs) l = sweep qs (sweep ps l) := List.foldl_append

/-! ### A step of a tile -/

theorem slideAt_append {front : List Nat} : slideAt front.length (front ++ s) = front ++ slide s := by
  unfold slideAt
  rw [List.take_left, List.drop_left]

/-- A cell, what is before it and what is behind it. -/
theorem exists_cell (here : l[i]? = some t) : ∃ front r, l = front ++ t :: r ∧ front.length = i := by
  obtain ⟨inside, rfl⟩ := List.getElem?_eq_some_iff.1 here
  refine ⟨l.take i, l.drop (i + 1), ?_, List.length_take_of_le (Nat.le_of_lt inside)⟩
  rw [← List.drop_eq_getElem_cons inside, List.take_append_drop]

/-- A cell with the next one. -/
theorem exists_cells (here : l[i]? = some t) (next : l[i + 1]? = some u) :
    ∃ front r, l = front ++ t :: u :: r ∧ front.length = i := by
  obtain ⟨front, r, rfl, rfl⟩ := exists_cell here
  rw [List.getElem?_append_right (Nat.le_add_right _ 1), Nat.add_sub_cancel_left, List.getElem?_cons_succ] at next
  cases r with
  | nil => cases next
  | cons v r =>
    rw [List.getElem?_cons_zero, Option.some.injEq] at next
    exact ⟨front, r, by rw [next], rfl⟩

/-- A cell that leaves its place for the next one slides on from there. -/
theorem slideAt_set {front : List Nat} : slideAt (front.length + 1)
    (((front ++ h :: u :: r).set (front.length + 1) t).set front.length 0) = front ++ 0 :: slide (t :: r) := by
  induction front with
  | nil => rfl
  | cons v front ih => exact congrArg (v :: ·) ih

theorem slideAt_empty (here : l[i]? = some 0) : slideAt i l = l := by
  obtain ⟨front, r, rfl, rfl⟩ := exists_cell here
  rw [slideAt_append, slide_zero]

/-- At the wall. -/
theorem slideAt_last (here : l[i]? = some t) (tile : t ≠ 0) (last : i + 1 = l.length) : slideAt i l = l := by
  obtain ⟨front, r, rfl, rfl⟩ := exists_cell here
  rw [List.length_append, List.length_cons] at last
  obtain rfl : r = [] := List.length_eq_zero_iff.1 (by omega)
  rw [slideAt_append, slide_tile tile, push]

/-- Over an empty cell. -/
theorem slideAt_over (here : l[i]? = some t) (tile : t ≠ 0) (next : l[i + 1]? = some 0) :
    slideAt (i + 1) ((l.set (i + 1) t).set i 0) = slideAt i l := by
  obtain ⟨front, r, rfl, rfl⟩ := exists_cells here next
  rw [slideAt_set, slideAt_append, slide_tile tile, slide_tile tile, push_zero]

/-- Into an equal tile. -/
theorem slideAt_merge (here : l[i]? = some t) (tile : t ≠ 0) (next : l[i + 1]? = some t) :
    slideAt (i + 1) ((l.set (i + 1) (t + 1)).set i 0) = slideAt i l := by
  obtain ⟨front, r, rfl, rfl⟩ := exists_cells here next
  rw [slideAt_set, slideAt_append, slide_tile (Nat.succ_ne_zero t), slide_tile tile, push_same tile]

/-- Before another tile. -/
theorem slideAt_stop (here : l[i]? = some t) (tile : t ≠ 0) (next : l[i + 1]? = some u) (other : u ≠ 0) (differ : u ≠ t) :
    slideAt i l = l := by
  obtain ⟨front, r, rfl, rfl⟩ := exists_cells here next
  rw [slideAt_append, slide_tile tile, push_stop other differ]

/-- The sweep inwards slides the first cell and goes on behind it. -/
theorem sweepUp_cons (first : slide (t :: r) = h :: s) : sweepUp (t :: r) = h :: sweepUp s := by
  have length : s.length = r.length := by
    have same := congrArg List.length first
    rw [length_slide, List.length_cons, List.length_cons] at same
    omega
  unfold sweepUp
  rw [List.length_cons, List.range_succ_eq_map, length, ← sweep_succ, ← first]
  rfl

/-- The sweep outwards slides the first cell last. -/
theorem sweepDown_cons : sweepDown (t :: r) = slide (t :: sweepDown r) := by
  unfold sweepDown
  rw [List.length_cons, List.range_succ_eq_map, List.reverse_cons, ← List.map_reverse, sweep_append]
  exact congrArg slide sweep_succ

@[simp] theorem sweepUp_nil : sweepUp [] = [] := rfl

@[simp] theorem sweepDown_nil : sweepDown [] = [] := rfl

/-! ### One tile -/

/-- A tile that has slid stays. -/
theorem slide_push (tile : t ≠ 0) : slide (push t r) = push t r := by
  cases r with
  | nil => exact slide_tile tile
  | cons u r =>
    by_cases empty : u = 0
    · rw [empty, push_zero, slide_zero]
    · by_cases same : u = t
      · rw [same, push_same tile, slide_zero]
      · rw [push_stop empty same, slide_tile tile, push_stop empty same]

theorem packed_push (tile : t ≠ 0) (packed : Packed r) : Packed (push t r) := by
  fun_induction push t r with
  | case1 t => exact .singleton t
  | case2 t r ih => exact (ih tile (List.IsChain.tail packed)).cons fun _ _ wrong => absurd rfl wrong
  | case3 t r tile' ih =>
    exact (ih (Nat.succ_ne_zero t) (List.IsChain.tail packed)).cons fun _ _ wrong => absurd rfl wrong
  | case4 t u r empty other => exact List.IsChain.cons_cons (fun _ => empty) packed

/-- The tile nearest to the far side. -/
def lead (l : List Nat) : Option Nat := l.find? (· ≠ 0)

theorem lead_zero : lead (0 :: r) = lead r := rfl

theorem lead_tile (tile : t ≠ 0) : lead (t :: r) = some t := by
  simp [lead, tile]

/-- A tile does not shrink. -/
theorem lead_push (tile : t ≠ 0) : ∃ v, t ≤ v ∧ lead (push t r) = some v := by
  fun_induction push t r with
  | case1 t => exact ⟨t, Nat.le_refl t, lead_tile tile⟩
  | case2 t r ih =>
    rw [lead_zero]
    exact ih tile
  | case3 t r tile' ih =>
    rw [lead_zero]
    obtain ⟨v, grown, first⟩ := ih (Nat.succ_ne_zero t)
    exact ⟨v, Nat.le_of_succ_le grown, first⟩
  | case4 t u r empty other => exact ⟨t, Nat.le_refl t, lead_tile tile⟩

/-- A tile that comes to an equal one grows. -/
theorem lead_push_same (tile : t ≠ 0) (same : lead r = some t) : ∃ v, t < v ∧ lead (push t r) = some v := by
  induction r with
  | nil => cases same
  | cons u r ih =>
    by_cases empty : u = 0
    · rw [empty, lead_zero] at same
      rw [empty, push_zero, lead_zero]
      exact ih same
    · rw [lead_tile empty] at same
      rw [Option.some.inj same, push_same tile, lead_zero]
      exact lead_push (Nat.succ_ne_zero t)

/-- A tile that comes to another one stays what it is. -/
theorem lead_push_other (tile : t ≠ 0) (other : lead r ≠ some t) : lead (push t r) = some t := by
  induction r with
  | nil => exact lead_tile tile
  | cons u r ih =>
    by_cases empty : u = 0
    · rw [empty, lead_zero] at other
      rw [empty, push_zero, lead_zero]
      exact ih other
    · rw [lead_tile empty, ne_eq, Option.some.injEq] at other
      rw [push_stop empty other]
      exact lead_tile tile

/-- A tile that leaves no empty cell has not moved. -/
theorem push_full (full : 0 ∉ push t r) : push t r = t :: r ∧ ∀ u ∈ r.head?, t ≠ u := by
  revert full
  fun_cases push t r with
  | case1 => exact fun _ => ⟨rfl, fun u wrong => absurd wrong (Option.not_mem_none u)⟩
  | case2 r => exact fun full => absurd List.mem_cons_self full
  | case3 r empty => exact fun full => absurd List.mem_cons_self full
  | case4 u r empty other =>
    refine fun _ => ⟨rfl, fun v first => ?_⟩
    rw [← Option.some.inj first]
    exact Ne.symm other

/-- Two equal tiles before another one are one tile. -/
theorem push_push (tile : t ≠ 0) (other : lead r ≠ some t) : push t (push t r) = 0 :: push (t + 1) r := by
  induction r with
  | nil => exact push_same tile
  | cons u r ih =>
    by_cases empty : u = 0
    · rw [empty, lead_zero] at other
      rw [empty, push_zero, push_zero, push_zero, ih other]
    · rw [lead_tile empty, ne_eq, Option.some.injEq] at other
      rw [push_stop empty other, push_same tile]

end Sliding

section Sweeps

variable {l r : List Nat} {t u : Nat} {merged : Bool}

/-! ### The sweep outwards -/

theorem sweepDown_zero : sweepDown (0 :: r) = 0 :: sweepDown r := sweepDown_cons

theorem sweepDown_tile (tile : t ≠ 0) : sweepDown (t :: r) = push t (sweepDown r) := by
  rw [sweepDown_cons, slide_tile tile]

/-- The sweep outwards packs the line. -/
theorem packed_sweepDown (l : List Nat) : Packed (sweepDown l) := by
  induction l with
  | nil => exact .nil
  | cons t r ih =>
    by_cases tile : t = 0
    · rw [tile, sweepDown_zero]
      exact ih.cons fun _ _ wrong => absurd rfl wrong
    · rw [sweepDown_tile tile]
      exact packed_push tile ih

theorem packed_full (first : t ≠ 0) (packed : Packed (t :: r)) : 0 ∉ t :: r := by
  induction r generalizing t with
  | nil => simpa using Ne.symm first
  | cons u r ih =>
    rw [List.mem_cons, not_or]
    obtain ⟨next, rest⟩ := List.isChain_cons_cons.1 packed
    exact ⟨Ne.symm first, ih (next first) rest⟩

theorem Still.tail (still : Still (t :: r)) : Still r :=
  ⟨fun member => still.1 (List.mem_cons_of_mem t member), List.IsChain.tail still.2⟩

/-- Where there is no empty cell in the end, no tile has moved. -/
theorem still_of_sweepDown (full : 0 ∉ sweepDown l) : Still l ∧ sweepDown l = l := by
  induction l with
  | nil => exact ⟨⟨List.not_mem_nil, .nil⟩, rfl⟩
  | cons t r ih =>
    by_cases tile : t = 0
    · rw [tile, sweepDown_zero] at full
      exact absurd List.mem_cons_self full
    · rw [sweepDown_tile tile] at full ⊢
      obtain ⟨stays, differ⟩ := push_full full
      rw [stays, List.mem_cons, not_or] at full
      obtain ⟨still, same⟩ := ih full.2
      rw [same] at stays differ
      rw [same, stays]
      refine ⟨⟨?_, List.isChain_cons.2 ⟨differ, still.2⟩⟩, rfl⟩
      rw [List.mem_cons, not_or]
      exact ⟨Ne.symm tile, still.1⟩

theorem Still.sweepDown (still : Still l) : sweepDown l = l := by
  induction l with
  | nil => rfl
  | cons t r ih =>
    have tile : t ≠ 0 := fun zero => still.1 (by rw [zero]; exact List.mem_cons_self)
    rw [sweepDown_tile tile, ih still.tail]
    cases r with
    | nil => rfl
    | cons u r =>
      have empty : u ≠ 0 := fun zero => still.tail.1 (by rw [zero]; exact List.mem_cons_self)
      exact push_stop empty (Ne.symm (List.isChain_cons_cons.1 still.2).1)

/-! ### The sweep inwards -/

/-- Where a tile comes to in a line does not matter to the rest of the sweep. -/
theorem sweepUp_push (tile : t ≠ 0) : sweepUp (push t r) = sweepUp (t :: r) := by
  rcases before : push t r with _ | ⟨h, s⟩
  · have length := congrArg List.length before
    rw [length_push] at length
    cases length
  · have first : slide (t :: r) = h :: s := (slide_tile tile).trans before
    have again : slide (h :: s) = h :: s := by rw [← before, slide_push tile]
    rw [sweepUp_cons first, sweepUp_cons again]

theorem sweepUp_zero : sweepUp (0 :: r) = 0 :: sweepUp r := sweepUp_cons slide_zero

theorem sweepUp_over (tile : t ≠ 0) : sweepUp (t :: 0 :: r) = 0 :: sweepUp (t :: r) := by
  rw [sweepUp_cons ((slide_tile tile).trans push_zero), sweepUp_push tile]

theorem sweepUp_merge (tile : t ≠ 0) : sweepUp (t :: t :: r) = 0 :: sweepUp ((t + 1) :: r) := by
  rw [sweepUp_cons ((slide_tile tile).trans (push_same tile)), sweepUp_push (Nat.succ_ne_zero t)]

theorem sweepUp_stop (tile : t ≠ 0) (other : u ≠ 0) (differ : u ≠ t) : sweepUp (t :: u :: r) = t :: sweepUp (u :: r) :=
  sweepUp_cons ((slide_tile tile).trans (push_stop other differ))

theorem sweepUp_one (tile : t ≠ 0) : sweepUp [t] = [t] := by
  have first : slide [t] = [t] := slide_tile tile
  rw [sweepUp_cons first, sweepUp_nil]

theorem Still.sweepUp (still : Still l) : sweepUp l = l := by
  induction l with
  | nil => rfl
  | cons t r ih =>
    have tile : t ≠ 0 := fun zero => still.1 (by rw [zero]; exact List.mem_cons_self)
    cases r with
    | nil => exact sweepUp_one tile
    | cons u r =>
      have empty : u ≠ 0 := fun zero => still.tail.1 (by rw [zero]; exact List.mem_cons_self)
      rw [sweepUp_stop tile empty (Ne.symm (List.isChain_cons_cons.1 still.2).1), ih still.tail]

/-- The first tile does not shrink in the sweep inwards. -/
theorem lead_sweepUp (tile : t ≠ 0) : ∃ v, t ≤ v ∧ lead (sweepUp (t :: r)) = some v := by
  induction t, r using push.induct with
  | case1 t =>
    rw [sweepUp_one tile]
    exact ⟨t, Nat.le_refl t, lead_tile tile⟩
  | case2 t r ih =>
    rw [sweepUp_over tile, lead_zero]
    exact ih tile
  | case3 t r tile' ih =>
    rw [sweepUp_merge tile, lead_zero]
    obtain ⟨v, grown, first⟩ := ih (Nat.succ_ne_zero t)
    exact ⟨v, Nat.le_of_succ_le grown, first⟩
  | case4 t u r empty other =>
    rw [sweepUp_stop tile empty other]
    exact ⟨t, Nat.le_refl t, lead_tile tile⟩

/-! ### Both sweeps -/

/-- After a merge the sweeps agree exactly if the next tile is not one that is merged first in the sweep outwards. -/
theorem sweeps_merge (tile : t ≠ 0) : sweepUp (t :: t :: r) = sweepDown (t :: t :: r) ↔
    sweepUp ((t + 1) :: r) = sweepDown ((t + 1) :: r) ∧ lead (sweepDown r) ≠ some t := by
  rw [sweepUp_merge tile, sweepDown_tile tile, sweepDown_tile tile, sweepDown_tile (Nat.succ_ne_zero t)]
  by_cases next : lead (sweepDown r) = some t
  · refine iff_of_false (fun equal => ?_) fun both => both.2 next
    obtain ⟨v, grown, first⟩ := lead_sweepUp (r := r) (Nat.succ_ne_zero t)
    obtain ⟨x, larger, merged⟩ := lead_push_same tile next
    have other : lead (push t (sweepDown r)) ≠ some t := by
      rw [merged, ne_eq, Option.some.injEq]
      exact Nat.ne_of_gt larger
    have leads := congrArg lead equal
    rw [lead_zero, first, lead_push_other tile other, Option.some.injEq] at leads
    omega
  · rw [push_push tile next, List.cons.injEq]
    simp [next]

/-- Before a tile it does not merge with, a tile leaves the sweeps the same exactly if nothing moves there. -/
theorem sweeps_stop (tile : t ≠ 0) (other : u ≠ 0) (differ : u ≠ t) :
    sweepUp (t :: u :: r) = sweepDown (t :: u :: r) ↔ Still (u :: r) := by
  rw [sweepUp_stop tile other differ, sweepDown_tile tile]
  constructor
  · intro equal
    -- the tile stays where it is, so that what is behind it is packed without an empty cell
    rcases before : sweepDown (u :: r) with _ | ⟨v, s⟩
    · have length := congrArg List.length before
      unfold sweepDown at length
      rw [length_sweep] at length
      cases length
    · rw [before] at equal
      have first : v ≠ 0 := by
        rintro rfl
        rw [push_zero, List.cons.injEq] at equal
        exact tile equal.1
      have full : 0 ∉ sweepDown (u :: r) := by
        have packed := packed_sweepDown (u :: r)
        rw [before] at packed ⊢
        exact packed_full first packed
      exact (still_of_sweepDown full).1
  · intro still
    rw [still.sweepUp, still.sweepDown, push_stop other differ]

theorem comes_iff (tile : t ≠ 0) : Comes merged t r ↔
    sweepUp (t :: r) = sweepDown (t :: r) ∧ ∀ v, merged = true → v + 1 = t → lead (sweepDown r) ≠ some v := by
  fun_induction Comes merged t r with
  | case1 merged t =>
    rw [sweepUp_one tile, sweepDown_tile tile]
    exact iff_of_true trivial ⟨rfl, fun _ _ _ => Option.some_ne_none _ ∘ Eq.symm⟩
  | case2 merged t r ih =>
    have farther : sweepDown (t :: 0 :: r) = 0 :: sweepDown (t :: r) := by
      rw [sweepDown_tile tile, sweepDown_zero, push_zero, sweepDown_tile tile]
    rw [ih tile, sweepUp_over tile, farther, List.cons.injEq, sweepDown_zero, lead_zero]
    simp
  | case3 merged t r tile' ih =>
    rw [ih (Nat.succ_ne_zero t), sweeps_merge tile]
    have larger : ∀ v, merged = true → v + 1 = t → lead (sweepDown (t :: r)) ≠ some v := by
      intro v _ below first
      obtain ⟨x, grown, lead⟩ := lead_push (r := sweepDown r) tile
      rw [sweepDown_tile tile, lead, Option.some.injEq] at first
      omega
    have next : (∀ v, true = true → v + 1 = t + 1 → lead (sweepDown r) ≠ some v) ↔ lead (sweepDown r) ≠ some t :=
      ⟨fun all => all t rfl rfl, fun one v _ equal => by rw [Nat.succ.inj equal]; exact one⟩
    rw [next]
    exact (and_iff_left larger).symm
  | case4 merged t u r empty other =>
    rw [sweeps_stop tile empty other]
    refine and_congr_right fun still => ?_
    rw [still.sweepDown, lead_tile empty]
    simp only [ne_eq, Option.some.injEq]
    exact ⟨fun above v merged below equal => above merged (by omega), fun above merged equal => above u merged equal rfl⟩

/-- **The two sweeps.** They do the same to a line exactly if the line is clear. -/
theorem sweepUp_eq_sweepDown_iff : sweepUp l = sweepDown l ↔ Clear l := by
  induction l with
  | nil => exact iff_of_true rfl trivial
  | cons t r ih =>
    rw [Clear]
    by_cases tile : t = 0
    · rw [if_pos tile, tile, sweepUp_zero, sweepDown_zero, List.cons.injEq, ih]
      exact and_iff_right rfl
    · rw [if_neg tile, comes_iff tile]
      exact (and_iff_left fun _ wrong => absurd wrong Bool.false_ne_true).symm

end Sweeps

/-! ### Weights -/

section Weight

variable {α : Type} [AddCommMonoid α] {f : Nat → α} {ps l r : List Nat} {t i : Nat}

/-- The weight of a line. -/
def total (f : Nat → α) (l : List Nat) : α := (l.map f).sum

theorem total_cons : total f (t :: r) = f t + total f r := by
  unfold total
  rw [List.map_cons, List.sum_cons]

variable (empty : f 0 = 0) (merge : ∀ t, t ≠ 0 → f (t + 1) = f t + f t)

include empty merge

theorem total_push (tile : t ≠ 0) : total f (push t r) = f t + total f r := by
  fun_induction push t r with
  | case1 t => exact total_cons
  | case2 t r ih => rw [total_cons, total_cons, empty, zero_add, zero_add, ih tile]
  | case3 t r tile' ih =>
    rw [total_cons, total_cons, empty, zero_add, ih (Nat.succ_ne_zero t), merge t tile, add_assoc]
  | case4 t u r none other => exact total_cons

theorem total_slideAt : total f (slideAt i l) = total f l := by
  have slides : ∀ l, total f (slide l) = total f l := by
    intro l
    cases l with
    | nil => rfl
    | cons t r =>
      by_cases tile : t = 0
      · rw [tile, slide_zero]
      · rw [slide_tile tile, total_push empty merge tile, total_cons]
  have parts : ∀ a b, total f (a ++ b) = total f a + total f b := by
    intro a b
    unfold total
    rw [List.map_append, List.sum_append]
  unfold slideAt
  rw [parts, slides, ← parts, List.take_append_drop]

/-- Merges that keep the weight keep it in a sweep. -/
theorem total_sweep : total f (sweep ps l) = total f l := by
  induction ps generalizing l with
  | nil => rfl
  | cons i ps ih => exact ih.trans (total_slideAt empty merge)

end Weight

end OsLab.Tiles
