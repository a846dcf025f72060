import OsLab.Lib.Stdio

/-!
# The lines of a text

A newline ends a line; the end of the text ends the last one, if there is something in it. What a reader with
room for `n` characters takes is `lineOf n`, and `textOf n` is the same without the newline.
-/

namespace OsLab.Lines

open OsLab.Stdio

/-- The lines of a text, without their newlines. -/
def lines : List UInt8 → List (List UInt8)
  | [] => []
  | c :: cs =>
    if c = newline then [] :: lines cs
    else
      match lines cs with
      | [] => [[c]]
      | l :: ls => (c :: l) :: ls

/-- The first line, or as much of it as `n` characters hold. -/
def textOf (n : Nat) (s : List UInt8) : List UInt8 := (s.take n).takeWhile (· ≠ newline)

variable {n : Nat} {c : UInt8} {s : List UInt8}

@[simp] theorem textOf_zero : textOf 0 s = [] := rfl

@[simp] theorem textOf_nil : textOf n [] = [] := by simp [textOf]

theorem textOf_newline : textOf (n + 1) (newline :: s) = [] := by simp [textOf]

theorem textOf_cons (h : c ≠ newline) : textOf (n + 1) (c :: s) = c :: textOf n s := by simp [textOf, h]

theorem lineOf_newline : lineOf (n + 1) (newline :: s) = [newline] := by simp [lineOf]

theorem lineOf_cons (h : c ≠ newline) : lineOf (n + 1) (c :: s) = c :: lineOf n s := by simp [lineOf, h]

/-- What is taken is the text, or the text and a newline. -/
theorem lineOf_split (n : Nat) (s : List UInt8) :
    s = textOf n s ++ s.drop (lineOf n s).length ∧ lineOf n s = textOf n s ∨
      s = textOf n s ++ newline :: s.drop (lineOf n s).length ∧ lineOf n s = textOf n s ++ [newline] := by
  induction n generalizing s with
  | zero => simp [lineOf]
  | succ n ih =>
    cases s with
    | nil => simp [lineOf]
    | cons c s =>
      rw [lineOf]
      split
      · next last =>
        subst last
        simp [textOf_newline]
      · next more =>
        rw [textOf_cons more]
        simpa using ih s

/-- There is room for the text and a character more exactly if the text or its newline comes early enough. -/
theorem length_textOf_lt (positive : 0 < n) :
    (textOf n s).length < n ↔ s.length < n ∨ newline ∈ s.take n := by
  induction n generalizing s with
  | zero => exact absurd positive (Nat.lt_irrefl 0)
  | succ n ih =>
    cases s with
    | nil => simp
    | cons c s =>
      rcases eq_or_ne c newline with rfl | more
      · simp [textOf_newline]
      · rw [textOf_cons more]
        rcases Nat.eq_zero_or_pos n with rfl | positive
        · simp [more.symm]
        · simpa [more.symm] using ih positive

theorem lines_newline : lines (newline :: s) = [] :: lines s := by simp [lines]

theorem lines_last (h : c ≠ newline) (none : lines s = []) : lines (c :: s) = [[c]] := by simp [lines, h, none]

theorem lines_more {l : List UInt8} {ls : List (List UInt8)} (h : c ≠ newline) (more : lines s = l :: ls) :
    lines (c :: s) = (c :: l) :: ls := by simp [lines, h, more]

/-- A text that is not empty has a line. -/
theorem lines_ne_nil (some : s ≠ []) : lines s ≠ [] := by
  cases s with
  | nil => exact absurd rfl some
  | cons c s =>
    rcases eq_or_ne c newline with rfl | more
    · simp [lines_newline]
    · cases rest : lines s with
      | nil => simp [lines_last more rest]
      | cons l ls => simp [lines_more more rest]

/-- The lines of a text are its first line and the lines of what is behind it. -/
theorem lines_step (some : s ≠ []) (room : ∀ l ∈ (lines s).head?, l.length < n) :
    lines s = textOf n s :: lines (s.drop (lineOf n s).length) := by
  induction s generalizing n with
  | nil => exact absurd rfl some
  | cons c s ih =>
    rcases eq_or_ne c newline with rfl | more
    · rw [lines_newline] at room ⊢
      have positive := room [] rfl
      obtain ⟨n, rfl⟩ := Nat.exists_eq_succ_of_ne_zero (Nat.ne_of_gt positive)
      simp [textOf_newline, lineOf_newline]
    · rcases eq_or_ne s [] with rfl | behind
      · rw [lines_last more rfl] at room ⊢
        have wide := room [c] rfl
        obtain ⟨n, rfl⟩ := Nat.exists_eq_succ_of_ne_zero (Nat.ne_of_gt (Nat.zero_lt_of_lt wide))
        simp [textOf_cons more, lineOf, more, lines]
      · obtain ⟨l, ls, rest⟩ := List.exists_cons_of_ne_nil (lines_ne_nil behind)
        rw [lines_more more rest] at room ⊢
        have wide := room (c :: l) rfl
        obtain ⟨n, rfl⟩ := Nat.exists_eq_succ_of_ne_zero (Nat.ne_of_gt (Nat.zero_lt_of_lt wide))
        have step := ih behind (n := n) (by simpa [rest] using wide)
        rw [rest] at step
        obtain ⟨rfl, rfl⟩ := List.cons.inj step
        rw [textOf_cons more, lineOf_cons more]
        rfl

end OsLab.Lines
