import OsLab.Lib.Buffer
import OsLab.Lib.Except
import Mathlib.Data.List.TakeWhile

/-!
# Programs on a checked machine

Why a run of a program has no result, and accesses that are checked. A run that has a result has stayed inside of what it
reads and writes.
-/

namespace OsLab

/-- Why a run ends without a result. -/
inductive Trap where
  /-- The program stops itself. -/
  | halt (code : Nat)
  /-- A failed assertion. -/
  | abort
  /-- An access outside of an object. -/
  | outside
  /-- Signed arithmetic that leaves the range of its type. -/
  | overflow
  | divZero
  /-- A loop has not ended within the bound of its model. -/
  | diverge
  deriving DecidableEq, Repr

namespace Trap

/-- An access that may be outside of its object. -/
def check {α : Type} : Option α → Except Trap α
  | some a => .ok a
  | none => .error .outside

variable {α : Type} {a : α} {x : Option α}

@[simp] theorem check_some : check (some a) = .ok a := rfl

@[simp] theorem check_none : check (none : Option α) = .error .outside := rfl

/-- The element of a buffer at `i`. -/
def load (b : List α) (i : Int) : Except Trap α := check (Buffer.load b i)

/-- The buffer with another element at `i`. -/
def put (b : List α) (i : Int) (a : α) : Except Trap (List α) := check (Buffer.put b i a)

section Buffers

variable {xs ys : List α} {i : Int} {c : α}

theorem load_at (place : (xs.length : Int) = i) : load (xs ++ c :: ys) i = .ok c := by
  subst place
  unfold load
  rw [Buffer.load_at rfl, check_some]

theorem put_at (place : (xs.length : Int) = i) : put (xs ++ c :: ys) i a = .ok (xs ++ a :: ys) := by
  subst place
  unfold put
  rw [Buffer.put_at rfl, check_some]

theorem load_natCast (b : List α) (n : Nat) : load b n = check b[n]? := by
  unfold load
  rw [Buffer.load_natCast]

theorem put_natCast {b : List α} {n : Nat} (inside : n < b.length) (a : α) : put b n a = .ok (b.set n a) := by
  unfold put
  rw [Buffer.put_natCast, if_pos inside, check_some]

end Buffers

/-! ## Signed numbers -/

/-- The greatest `int`. -/
def INT_MAX : Nat := 2147483647

/-- The result of signed arithmetic, which is to be an `int`. -/
def int (v : Int) : Except Trap Int := if -2 ^ 31 ≤ v ∧ v < 2 ^ 31 then .ok v else .error .overflow

/-- The same, of numbers that are not negative. -/
def nonneg (n : Nat) : Except Trap Nat := if n ≤ INT_MAX then .ok n else .error .overflow

section Signed

variable {v : Int} {n : Nat}

theorem int_ok (fits : -2 ^ 31 ≤ v ∧ v < 2 ^ 31) : int v = .ok v := if_pos fits

theorem int_natCast (small : n < 2 ^ 31) : int n = .ok n := if_pos (by omega)

theorem int_overflow (large : 2 ^ 31 ≤ v) : int v = .error .overflow := if_neg (by omega)

theorem nonneg_ok (small : n ≤ INT_MAX) : nonneg n = .ok n := if_pos small

theorem nonneg_overflow (large : INT_MAX < n) : nonneg n = .error .overflow := if_neg (Nat.not_le.mpr large)

end Signed

/-! ## Texts -/

/-- The C string at the start of a buffer. -/
def text (b : List UInt8) : List UInt8 := b.takeWhile (· ≠ 0)

/-- The C string at the start of a buffer, where there is one. -/
def readText (b : List UInt8) : Except Trap (List UInt8) := if 0 ∈ b then .ok (text b) else .error .outside

/-- The buffer with a C string at its start. -/
def putText (b s : List UInt8) : Except Trap (List UInt8) :=
  if s.length < b.length then .ok (s ++ 0 :: b.drop (s.length + 1)) else .error .outside

theorem text_append {s r : List UInt8} (plain : 0 ∉ s) : text (s ++ r) = s ++ text r := by
  have inside : ∀ c ∈ s, decide (c ≠ 0) = true := fun c member => decide_eq_true (ne_of_mem_of_not_mem member plain)
  exact List.takeWhile_append_of_pos inside

theorem text_of {s rest : List UInt8} (plain : 0 ∉ s) : text (s ++ 0 :: rest) = s := by
  have ended : text (0 :: rest) = [] := List.takeWhile_cons_of_neg (by decide)
  rw [text_append plain, ended, List.append_nil]

theorem readText_of {s rest : List UInt8} (plain : 0 ∉ s) : readText (s ++ 0 :: rest) = .ok s := by
  unfold readText
  rw [if_pos (List.mem_append_right s List.mem_cons_self), text_of plain]

theorem zero_notMem_text (b : List UInt8) : 0 ∉ text b := by
  intro member
  simpa using List.mem_takeWhile_imp member

/-- A NUL ends the text, wherever it is. -/
theorem text_ended (s rest : List UInt8) : text (s ++ 0 :: rest) = text s := by
  induction s with
  | nil => rfl
  | cons c s ih =>
    unfold text at ih ⊢
    rw [List.cons_append, List.takeWhile_cons, List.takeWhile_cons, ih]

theorem length_text_le (b : List UInt8) : (text b).length ≤ b.length := (List.takeWhile_prefix _).length_le

theorem length_text_lt {b : List UInt8} (ended : 0 ∈ b) : (text b).length < b.length := by
  refine lt_of_le_of_ne (length_text_le b) fun same => ?_
  have whole : text b = b := (List.takeWhile_prefix _).eq_of_length same
  exact zero_notMem_text b (whole.symm ▸ ended)

theorem readText_ended {b : List UInt8} (ended : 0 ∈ b) : readText b = .ok (text b) := if_pos ended

theorem putText_of {b s : List UInt8} (room : s.length < b.length) : putText b s = .ok (s ++ 0 :: b.drop (s.length + 1)) :=
  if_pos room

end Trap

end OsLab
