import Mathlib.Data.List.Basic
import Mathlib.Tactic.Ring

/-!
# Buffers with checked accesses

A buffer is the list of its elements, and a pointer into it an integer. `load` and `put` fail outside of the
buffer, so that a computation that does not fail has stayed inside. A loop that fills a buffer from one of its ends has
a list in it that grows: the lemmas give the access at the place where the list ends.
-/

namespace OsLab.Buffer

variable {α : Type}

/-- The element at `i`. -/
def load (b : List α) (i : Int) : Option α := if i < 0 then none else b[i.toNat]?

/-- The buffer with another element at `i`. -/
def put (b : List α) (i : Int) (a : α) : Option (List α) :=
  if 0 ≤ i ∧ i < b.length then some (b.set i.toNat a) else none

section Access

variable {b b' xs ys : List α} {i : Int} {n : Nat} {a c : α}

theorem load_natCast : load b n = b[n]? := by
  simp [load]

theorem put_natCast : put b n a = if n < b.length then some (b.set n a) else none := by
  simp [put]

theorem put_length (h : put b i a = some b') : b'.length = b.length := by
  unfold put at h
  split at h
  · cases h
    exact List.length_set
  · cases h

/-- The element behind a list that begins the buffer. -/
theorem load_at (place : xs.length = n) : load (xs ++ c :: ys) n = some c := by
  subst place
  simp [load_natCast]

theorem put_at (place : xs.length = n) : put (xs ++ c :: ys) n a = some (xs ++ a :: ys) := by
  subst place
  simp [put_natCast]

/-- There is nothing behind the end. -/
theorem put_end (past : b.length ≤ n) : put b n a = none := by
  rw [put_natCast, if_neg (by omega)]

/-- There is nothing before the start. -/
theorem load_negative (before : i < 0) : load b i = none := if_pos before

theorem put_negative (before : i < 0) : put b i a = none := if_neg (by omega)

end Access

end OsLab.Buffer
