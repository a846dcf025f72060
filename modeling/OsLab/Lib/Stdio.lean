import OsLab.Lib.Decimal

/-!
# Input streams of the C library

A stream open for reading: the characters not read yet and the end-of-file flag. `fgets` and
the conversion `%d` of `sscanf` as the C standard describes them.
-/

namespace OsLab.Stdio

open OsLab.Decimal

/-- The newline character. -/
def newline : UInt8 := 10

/-- A `FILE` open for reading. -/
structure Stream where
  rest : List UInt8
  eof : Bool
  deriving DecidableEq, Repr

/-- The first `n` characters, or fewer if a newline ends them. -/
def lineOf : Nat → List UInt8 → List UInt8
  | 0, _ => []
  | _ + 1, [] => []
  | n + 1, c :: cs => if c = newline then [c] else c :: lineOf n cs

/-- `fgets` into a buffer of `size` characters: at most `size - 1` characters up to a newline,
or `NULL` when the file ends before the first one. The end of the file is noticed when a
character is asked for and there is none. -/
def fgets (size : Nat) (s : Stream) : Option (List UInt8) × Stream :=
  if 1 < size ∧ s.rest = [] then
    (none, { s with eof := true })
  else
    let line := lineOf (size - 1) s.rest
    (some line, ⟨s.rest.drop line.length,
      s.eof || decide (line.length < size - 1 ∧ line.getLast? ≠ some newline)⟩)

/-- `isspace` -/
def isSpace (c : UInt8) : Bool := c.toNat = 32 ∨ (9 ≤ c.toNat ∧ c.toNat ≤ 13)

/-- `isalpha` -/
def isAlpha (c : UInt8) : Bool := (65 ≤ c.toNat ∧ c.toNat ≤ 90) ∨ (97 ≤ c.toNat ∧ c.toNat ≤ 122)

/-- The sign of a number, and the characters behind it. -/
def scanSign : List UInt8 → Bool × List UInt8
  | 45 :: s => (true, s)
  | 43 :: s => (false, s)
  | s => (false, s)

/-- The conversion `%d`: white space, a sign and digits; the number and what follows it. -/
def scanInt (s : List UInt8) : Option (Int × List UInt8) :=
  let (negative, s) := scanSign (s.dropWhile isSpace)
  let digits := s.takeWhile isDigit
  if digits = [] then
    none
  else
    some (if negative then -(digitsValue digits : Int) else digitsValue digits, s.dropWhile isDigit)

section Lines

variable {l rest : List UInt8} {n size : Nat} {eof : Bool}

theorem lineOf_newline (plain : newline ∉ l) (room : l.length < n) :
    lineOf n (l ++ newline :: rest) = l ++ [newline] := by
  induction l generalizing n with
  | nil =>
    cases n with
    | zero => exact absurd room (Nat.lt_irrefl 0)
    | succ n => exact if_pos rfl
  | cons c l ih =>
    rw [List.mem_cons, not_or] at plain
    cases n with
    | zero => exact absurd room (Nat.not_lt_zero _)
    | succ n =>
      rw [List.cons_append, lineOf, if_neg (Ne.symm plain.1), ih plain.2 (Nat.lt_of_succ_lt_succ room)]
      rfl

theorem lineOf_append (plain : newline ∉ l) (room : l.length ≤ n) : lineOf n (l ++ rest) = l ++ lineOf (n - l.length) rest := by
  induction l generalizing n with
  | nil => rfl
  | cons c l ih =>
    rw [List.mem_cons, not_or] at plain
    cases n with
    | zero => exact absurd room (Nat.not_succ_le_zero _)
    | succ n =>
      rw [List.cons_append, lineOf, if_neg (Ne.symm plain.1), ih plain.2 (Nat.le_of_succ_le_succ room), List.length_cons,
        Nat.succ_sub_succ, List.cons_append]

theorem lineOf_full (plain : newline ∉ l) : lineOf l.length (l ++ rest) = l := by
  rw [lineOf_append plain (Nat.le_refl _), Nat.sub_self, lineOf, List.append_nil]

theorem length_lineOf_le_size : (lineOf n l).length ≤ n := by
  induction l generalizing n with
  | nil => cases n <;> exact Nat.zero_le _
  | cons c l ih =>
    cases n with
    | zero => exact Nat.le_refl 0
    | succ n =>
      rw [lineOf]
      split
      · exact Nat.succ_le_succ (Nat.zero_le n)
      · exact Nat.succ_le_succ ih

theorem length_lineOf_le : (lineOf n l).length ≤ l.length := by
  induction l generalizing n with
  | nil => cases n <;> exact Nat.le_refl 0
  | cons c l ih =>
    cases n with
    | zero => exact Nat.zero_le _
    | succ n =>
      rw [lineOf]
      split
      · exact Nat.succ_le_succ (Nat.zero_le _)
      · exact Nat.succ_le_succ ih

/-- A line that fits the buffer is read with its newline. -/
theorem fgets_line (plain : newline ∉ l) (room : l.length + 1 < size) :
    fgets size ⟨l ++ newline :: rest, eof⟩ = (some (l ++ [newline]), ⟨rest, eof⟩) := by
  unfold fgets
  rw [if_neg (by simp), lineOf_newline plain (by omega)]
  simp [List.drop_append]

/-- The start of a longer line fills the buffer. -/
theorem fgets_part (plain : newline ∉ l) (positive : 0 < l.length) :
    fgets (l.length + 1) ⟨l ++ rest, eof⟩ = (some l, ⟨rest, eof⟩) := by
  have some : l ≠ [] := List.ne_nil_of_length_pos positive
  unfold fgets
  rw [if_neg (by simp [some]), Nat.add_sub_cancel]
  dsimp only
  rw [lineOf_full plain]
  simp

/-- A line, or as much of it as the buffer holds. -/
theorem fgets_upto (plain : newline ∉ l) (room : 1 < size) :
    fgets size ⟨l ++ newline :: rest, false⟩ =
      if l.length + 1 < size then (some (l ++ [newline]), ⟨rest, false⟩)
      else (some (l.take (size - 1)), ⟨l.drop (size - 1) ++ newline :: rest, false⟩) := by
  by_cases fits : l.length + 1 < size
  · rw [if_pos fits, fgets_line plain fits]
  · have length : (l.take (size - 1)).length + 1 = size := by
      rw [List.length_take]
      omega
    have part : fgets ((l.take (size - 1)).length + 1)
        ⟨l.take (size - 1) ++ (l.drop (size - 1) ++ newline :: rest), false⟩ =
        (some (l.take (size - 1)), ⟨l.drop (size - 1) ++ newline :: rest, false⟩) :=
      fgets_part (fun member => plain (List.mem_of_mem_take member)) (by omega)
    rw [length, ← List.append_assoc, List.take_append_drop] at part
    rw [if_neg fits, part]

theorem fgets_end (room : 1 < size) : fgets size ⟨[], eof⟩ = (none, ⟨[], true⟩) :=
  if_pos ⟨room, rfl⟩

theorem lineOf_last (plain : newline ∉ l) (room : l.length ≤ n) : lineOf n l = l := by
  induction l generalizing n with
  | nil => cases n <;> rfl
  | cons c l ih =>
    rw [List.mem_cons, not_or] at plain
    cases n with
    | zero => exact absurd room (Nat.not_succ_le_zero _)
    | succ n => rw [lineOf, if_neg (Ne.symm plain.1), ih plain.2 (Nat.le_of_succ_le_succ room)]

/-- The last line of a file, without a newline. -/
theorem fgets_last (plain : newline ∉ l) (some' : l ≠ []) (room : l.length + 1 < size) :
    fgets size ⟨l, eof⟩ = (some l, ⟨[], true⟩) := by
  have other : l.getLast? ≠ some newline := fun last => plain (List.mem_of_getLast? last)
  unfold fgets
  rw [if_neg (by simp [some']), lineOf_last plain (by omega)]
  simp [other, show l.length < size - 1 by omega]

/-- `fgets` takes characters away. -/
theorem fgets_length_le (s : Stream) : (fgets size s).2.rest.length ≤ s.rest.length := by
  unfold fgets
  split
  · exact Nat.le_refl _
  · simp

theorem fgets_length_lt {s s' : Stream} {line : List UInt8} (room : 1 < size)
    (read : fgets size s = (some line, s')) : s'.rest.length < s.rest.length := by
  unfold fgets at read
  split at read
  · cases read
  rename_i more
  obtain ⟨n, fits⟩ : ∃ n, size - 1 = n + 1 := ⟨size - 2, by omega⟩
  obtain ⟨-, rfl⟩ := Prod.mk.inj read
  cases chars : s.rest with
  | nil => exact absurd ⟨room, chars⟩ more
  | cons c cs =>
    have taken : 0 < (lineOf (size - 1) (c :: cs)).length := by
      rw [fits, lineOf]
      split <;> simp
    simp only [List.length_drop, List.length_cons]
    omega

theorem fgets_none {s s' : Stream} (read : fgets size s = (none, s')) : s' = ⟨[], true⟩ := by
  unfold fgets at read
  split at read
  · rename_i ended
    rw [← (Prod.mk.inj read).2, ended.2]
  · cases read

end Lines

/-- `%d` leaves the end of the string. -/
theorem scanInt_suffix {s rest : List UInt8} {n : Int} (scan : scanInt s = some (n, rest)) : rest <:+ s := by
  have sign : ∀ t, (scanSign t).2 <:+ t := by
    intro t
    unfold scanSign
    split
    · exact List.suffix_cons _ _
    · exact List.suffix_cons _ _
    · exact List.suffix_rfl
  unfold scanInt at scan
  simp only at scan
  split at scan
  · cases scan
  · rw [← (Prod.mk.inj (Option.some.inj scan)).2]
    exact (List.dropWhile_suffix _).trans ((sign _).trans (List.dropWhile_suffix _))

/-- `%d` skips white space. -/
theorem scanInt_space {c : UInt8} {s : List UInt8} (space : isSpace c = true) : scanInt (c :: s) = scanInt s := by
  unfold scanInt
  rw [List.dropWhile_cons_of_pos space]

/-- Scanning a printed number. -/
theorem scanInt_decimal {n : Nat} {c : UInt8} {rest : List UInt8} (stop : isDigit c = false) :
    scanInt (decimal n ++ c :: rest) = some ((n : Int), c :: rest) := by
  have digits := isDigit_decimal (n := n)
  obtain ⟨d, ds, numeral⟩ := List.exists_cons_of_ne_nil (decimal_ne_nil n)
  have first : isDigit d = true := digits d (by rw [numeral]; exact List.mem_cons_self)
  unfold isDigit at first
  rw [decide_eq_true_iff] at first
  have noSpace : isSpace d = false := by
    unfold isSpace
    rw [decide_eq_false_iff_not]
    omega
  have start : (decimal n ++ c :: rest).dropWhile isSpace = decimal n ++ c :: rest := by
    rw [numeral, List.cons_append, List.dropWhile_cons_of_neg (by rw [noSpace]; exact Bool.false_ne_true)]
  have noSign : scanSign (decimal n ++ c :: rest) = (false, decimal n ++ c :: rest) := by
    rw [numeral, List.cons_append]
    unfold scanSign
    split
    · rename_i same
      rw [(List.cons.inj same).1] at first
      exact absurd first (by decide)
    · rename_i same
      rw [(List.cons.inj same).1] at first
      exact absurd first (by decide)
    · rfl
  have take : (decimal n ++ c :: rest).takeWhile isDigit = decimal n := by
    rw [List.takeWhile_append_of_pos digits, List.takeWhile_cons_of_neg (by rw [stop]; exact Bool.false_ne_true),
      List.append_nil]
  have drop : (decimal n ++ c :: rest).dropWhile isDigit = c :: rest := by
    rw [List.dropWhile_append_of_pos digits, List.dropWhile_cons_of_neg (by rw [stop]; exact Bool.false_ne_true)]
  unfold scanInt
  rw [start, noSign]
  dsimp only
  rw [take, drop, if_neg (decimal_ne_nil n), digitsValue_decimal]
  rfl

end OsLab.Stdio
