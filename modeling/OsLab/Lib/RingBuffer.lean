import Mathlib.Data.Nat.ModEq
import Mathlib.Logic.Function.Basic

/-!
# Ring buffers

`n` slots used as a cycle. `Window n slots front xs` says that the list `xs` lies in the slots
from `front` on, the first slot coming after the last. The lemmas give the window after a
store behind it and after a move of one of its ends.
-/

namespace OsLab.RingBuffer

variable {α : Type} {n front i j k : Nat} {slots : Nat → α} {xs ys : List α} {a : α}

/-- The list lies in the slots from `front` on. -/
def Window (n : Nat) (slots : Nat → α) (front : Nat) (xs : List α) : Prop :=
  ∀ i (inside : i < xs.length), slots ((front + i) % n) = xs[i]

/-- The slots of a round are different. -/
theorem slot_inj (hi : i < n) (hj : j < n) (same : (front + i) % n = (front + j) % n) : i = j := by
  have mod : i ≡ j [MOD n] := Nat.ModEq.add_left_cancel' front same
  rw [← Nat.mod_eq_of_lt hi, ← Nat.mod_eq_of_lt hj]
  exact mod

/-- The slot after the last one is the first one. -/
theorem next_slot (inside : i < n) : (if i + 1 = n then 0 else i + 1) = (i + 1) % n := by
  split
  · next wrap => rw [wrap, Nat.mod_self]
  · rw [Nat.mod_eq_of_lt (by omega)]

/-- The slot before the first one is the last one. -/
theorem prev_slot (inside : i < n) : (if i = 0 then n else i) - 1 = (i + (n - 1)) % n := by
  split
  · next first => rw [first, Nat.zero_add, Nat.mod_eq_of_lt (by omega)]
  · next later =>
    rw [show i + (n - 1) = i - 1 + n by omega, Nat.add_mod_right, Nat.mod_eq_of_lt (by omega)]

theorem window_nil : Window n slots front ([] : List α) := by
  intro i inside
  cases inside

/-- A store outside the window. -/
theorem Window.update (window : Window n slots front xs) (behind : xs.length ≤ k) (round : k < n) :
    Window n (Function.update slots ((front + k) % n) a) front xs := by
  intro i inside
  rw [Function.update_of_ne]
  · exact window i inside
  · intro same
    have same := slot_inj (by omega) round same
    omega

/-- A store right behind the window. -/
theorem Window.push (window : Window n slots front xs) (room : xs.length < n) :
    Window n (Function.update slots ((front + xs.length) % n) a) front (xs ++ [a]) := by
  intro i inside
  rw [List.length_append, List.length_singleton] at inside
  rcases Nat.lt_succ_iff_lt_or_eq.1 inside with before | rfl
  · rw [List.getElem_append_left before]
    exact window.update (Nat.le_refl _) room i before
  · rw [Function.update_self]
    simp

theorem Window.left (window : Window n slots front (xs ++ ys)) : Window n slots front xs := by
  intro i inside
  rw [window i (by rw [List.length_append]; omega), List.getElem_append_left inside]

theorem Window.right (window : Window n slots front (xs ++ ys)) :
    Window n slots ((front + xs.length) % n) ys := by
  intro i inside
  have later := window (xs.length + i) (by rw [List.length_append]; omega)
  rw [Nat.mod_add_mod, Nat.add_assoc, later]
  simp

theorem Window.head (window : Window n slots front (a :: xs)) : slots (front % n) = a :=
  window 0 (by simp)

theorem Window.last (window : Window n slots front (xs ++ [a])) : slots ((front + xs.length) % n) = a := by
  have last := window xs.length (by simp)
  simpa using last

end OsLab.RingBuffer
