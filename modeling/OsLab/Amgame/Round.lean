import OsLab.Amgame.Moves
import Mathlib.Algebra.BigOperators.Fin
import Mathlib.Algebra.BigOperators.Group.Finset.Piecewise
import Mathlib.Data.Fintype.BigOperators

/-!
# A round (`goRound`)

A tile `v` weighs `2 ^ v`. Sliding and merging keep the weight of each line, and the tile that a round places weighs 2.
-/

namespace OsLab.Amgame

open OsLab.Tiles

/-- The weight of a cell. -/
def weightOf (v : Nat) : Nat := if v = 0 then 0 else 2 ^ v

/-- The weight of the board. -/
def weight (b : Board) : Nat := ∑ c : Fin 4 × Fin 4, weightOf (b c.1 c.2)

section Weight

variable {direction : Fin 4} {b b' : Board}

theorem weightOf_zero : weightOf 0 = 0 := rfl

/-- Two equal tiles weigh what they make. -/
theorem weightOf_merge (t : Nat) (tile : t ≠ 0) : weightOf (t + 1) = weightOf t + weightOf t := by
  unfold weightOf
  rw [if_neg tile, if_neg (Nat.succ_ne_zero t), Nat.pow_succ, Nat.mul_two]

theorem weight_lines (direction : Fin 4) (b : Board) : weight b = ∑ k, total weightOf (line direction b k) := by
  have cells : ∀ k, total weightOf (line direction b k) =
      ∑ i, weightOf (b (cell direction k i).1 (cell direction k i).2) := by
    intro k
    unfold total line
    rw [List.map_ofFn, List.sum_ofFn]
    rfl
  unfold weight
  simp only [cells]
  rw [Fintype.sum_prod_type' (f := fun k i => weightOf (b (cell direction k i).1 (cell direction k i).2)) |>.symm]
  refine (Fintype.sum_bijective (fun p : Fin 4 × Fin 4 => cell direction p.1 p.2) ?_ _ _ fun p => rfl).symm
  refine Function.bijective_iff_has_inverse.2 ⟨place direction, fun p => ?_, fun c => ?_⟩
  · exact place_cell direction p.1 p.2
  · exact cell_place direction c.1 c.2

/-- Sliding and merging keep the weight. -/
theorem weight_slideAll (run : slideAll direction b = .ok b') : weight b' = weight b := by
  obtain ⟨b₁, run₁, lines⟩ := slideAll_run direction b
  rw [run, Except.ok.injEq] at run₁
  rw [weight_lines direction b', weight_lines direction b, run₁]
  refine Finset.sum_congr rfl fun k _ => ?_
  rw [lines k]
  unfold swept sweepDown sweepUp
  split
  · exact total_sweep weightOf_zero weightOf_merge
  · exact total_sweep weightOf_zero weightOf_merge

/-- A tile more in an empty cell. -/
theorem weight_set {x y : Fin 4} (empty : b x y = 0) : weight (b.set x y 1) = weight b + 2 := by
  have cell : ∀ c : Fin 4 × Fin 4, weightOf (b.set x y 1 c.1 c.2) =
      weightOf (b c.1 c.2) + if c = (x, y) then 2 else 0 := by
    rintro ⟨i, j⟩
    unfold Board.set
    by_cases here : i = x ∧ j = y
    · obtain ⟨rfl, rfl⟩ := here
      rw [if_pos ⟨rfl, rfl⟩, if_pos rfl, empty]
      rfl
    · rw [if_neg here, if_neg (fun same => here (Prod.mk.inj same))]
      rfl
  unfold weight
  simp only [cell]
  rw [Finset.sum_add_distrib, Finset.sum_ite_eq' Finset.univ (x, y) fun _ => 2, if_pos (Finset.mem_univ _)]

end Weight

section Round

variable {b : Board} {cs : List (Fin 4 × Fin 4)} {choice : Nat}

theorem mem_cells (x y : Fin 4) : (x, y) ∈ cells := by
  revert x y
  decide

theorem countEmpty_eq : countEmpty b = cells.countP fun c => b c.1 c.2 = 0 := by
  have loop : ∀ (cs : List (Fin 4 × Fin 4)) (n : Nat), cs.foldl (fun empty c => empty + if b c.1 c.2 = 0 then 1 else 0) n =
      n + cs.countP fun c => b c.1 c.2 = 0 := by
    intro cs
    induction cs with
    | nil => exact fun n => rfl
    | cons c cs ih =>
      intro n
      rw [List.foldl_cons, ih, List.countP_cons, Nat.add_assoc, Nat.add_comm (ite _ _ _)]
      simp
  exact (loop cells 0).trans (Nat.zero_add _)

theorem countEmpty_eq_zero : countEmpty b = 0 ↔ ∀ x y, b x y ≠ 0 := by
  rw [countEmpty_eq, List.countP_eq_zero]
  exact ⟨fun none x y => by simpa using none (x, y) (mem_cells x y), fun none c _ => by simpa using none c.1 c.2⟩

theorem hasWon_iff : hasWon b = true ↔ ∃ x y, 7 ≤ b x y := by
  have loop : ∀ (cs : List (Fin 4 × Fin 4)) (win : Bool), cs.foldl (fun win c => win || decide (7 ≤ b c.1 c.2)) win =
      (win || cs.any fun c => decide (7 ≤ b c.1 c.2)) := by
    intro cs
    induction cs with
    | nil => exact fun win => (Bool.or_false win).symm
    | cons c cs ih =>
      intro win
      rw [List.foldl_cons, ih, List.any_cons, Bool.or_assoc]
  unfold hasWon
  rw [loop, Bool.false_or, List.any_eq_true]
  constructor
  · rintro ⟨c, -, large⟩
    exact ⟨c.1, c.2, of_decide_eq_true large⟩
  · rintro ⟨x, y, large⟩
    exact ⟨(x, y), mem_cells x y, decide_eq_true large⟩

/-- The placing loop comes to the chosen empty cell. -/
theorem placeLoop_run (enough : choice < cs.countP fun c => b c.1 c.2 = 0) :
    ∃ x y, b x y = 0 ∧ placeLoop b cs choice = .ok (b.set x y 1) := by
  induction cs generalizing choice with
  | nil => exact absurd enough (Nat.not_lt_zero _)
  | cons c cs ih =>
    rw [List.countP_cons] at enough
    by_cases empty : b c.1 c.2 = 0
    · rw [placeLoop, if_pos empty]
      cases choice with
      | zero => exact ⟨c.1, c.2, empty, if_pos rfl⟩
      | succ choice =>
        obtain ⟨x, y, free, run⟩ := @ih choice (by simpa [empty] using enough)
        refine ⟨x, y, free, ?_⟩
        rw [if_neg (by omega), show ((choice + 1 : Nat) : Int) - 1 = choice by omega, run]
    · rw [placeLoop, if_neg empty]
      exact ih (by simpa [empty] using enough)

/-- **A round.** Sliding and merging keep the weight, and the round goes on without `_halt`: it returns false exactly if no
cell is empty then, and changes nothing more; otherwise one empty cell is 1 after it. `*win` says that a cell is at
least 7 after sliding. -/
theorem goRound_conserves (b : Board) (direction : Fin 4) (rand : Nat) :
    ∃ b₁, slideAll direction b = .ok b₁ ∧ weight b₁ = weight b ∧
      ∃ more win b₂, goRound direction rand b = .ok (more, win, b₂) ∧ (win = true ↔ ∃ x y, 7 ≤ b₁ x y) ∧
        (more = false ↔ ∀ x y, b₁ x y ≠ 0) ∧ (more = false → b₂ = b₁) ∧
        (more = true → ∃ x y, b₁ x y = 0 ∧ b₂ = b₁.set x y 1 ∧ weight b₂ = weight b₁ + 2) := by
  obtain ⟨b₁, run, -⟩ := slideAll_run direction b
  refine ⟨b₁, run, weight_slideAll run, ?_⟩
  unfold goRound
  rw [run, ok_bind]
  dsimp only
  by_cases full : countEmpty b₁ = 0
  · have none := countEmpty_eq_zero.1 full
    refine ⟨false, hasWon b₁, b₁, if_pos full, hasWon_iff, iff_of_true rfl none, fun _ => rfl, fun wrong => ?_⟩
    cases wrong
  · have chosen : rand % countEmpty b₁ < cells.countP fun c => b₁ c.1 c.2 = 0 := by
      rw [← countEmpty_eq]
      exact Nat.mod_lt _ (Nat.pos_of_ne_zero full)
    obtain ⟨x, y, empty, placed⟩ := placeLoop_run chosen
    refine ⟨true, hasWon b₁, b₁.set x y 1, ?_, hasWon_iff, ?_, fun wrong => ?_, fun _ => ⟨x, y, empty, rfl, weight_set empty⟩⟩
    · rw [if_neg full, placed, ok_bind]
    · exact iff_of_false (by decide) fun none => none x y empty
    · cases wrong

end Round

end OsLab.Amgame
