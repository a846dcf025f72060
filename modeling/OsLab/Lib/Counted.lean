import OsLab.Lib.Except
import Mathlib.Tactic.Ring

/-!
# Counted loops

`for (i = 0; i < n; i ++)` in a machine that may fail, and two of them one inside the other, with their rules: what a turn
keeps, the loop keeps.
-/

namespace OsLab.Counted

variable {ε σ : Type}

/-- The first `n` turns of a loop. -/
def loop (body : Nat → σ → Except ε σ) : Nat → σ → Except ε σ
  | 0, s => .ok s
  | n + 1, s => loop body n s >>= body n

theorem loop_spec {body : Nat → σ → Except ε σ} {n : Nat} {s : σ} (I : Nat → σ → Prop) (start : I 0 s)
    (step : ∀ i < n, ∀ s, I i s → ∃ s', body i s = .ok s' ∧ I (i + 1) s') : ∃ s', loop body n s = .ok s' ∧ I n s' := by
  induction n with
  | zero => exact ⟨s, rfl, start⟩
  | succ n ih =>
    obtain ⟨s', run, inv⟩ := ih fun i below => step i (Nat.lt_succ_of_lt below)
    obtain ⟨s'', turn, inv'⟩ := step n (Nat.lt_succ_self n) s' inv
    rw [loop, run, ok_bind, turn]
    exact ⟨s'', rfl, inv'⟩

/-- The turns of two loops over the rows and columns of a square, counted row by row. -/
theorem square_spec {cell : Nat → Nat → σ → Except ε σ} {n : Nat} {s : σ} (I : Nat → σ → Prop) (start : I 0 s)
    (step : ∀ i < n, ∀ j < n, ∀ s, I (i * n + j) s → ∃ s', cell i j s = .ok s' ∧ I (i * n + j + 1) s') :
    ∃ s', loop (fun i => loop (cell i) n) n s = .ok s' ∧ I (n * n) s' := by
  refine loop_spec (fun i => I (i * n)) (by rw [Nat.zero_mul]; exact start) fun i row s inv => ?_
  have next : i * n + n = (i + 1) * n := by ring
  obtain ⟨s', run, inv'⟩ := loop_spec (fun j => I (i * n + j)) inv (step i row)
  exact ⟨s', run, next ▸ inv'⟩

end OsLab.Counted
