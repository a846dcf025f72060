import OsLab.Lib.Trap
import OsLab.Lib.Counted
import Mathlib.Algebra.BigOperators.Fin
import Mathlib.Data.BitVec
import Mathlib.Data.Matrix.Mul
import Mathlib.Data.Nat.Fib.Basic

/-!
# The fib benchmark (`apps/microbench/src/fib/fib.c`)

A linear recurrence modulo `2 ^ 32` by powers of a matrix. The matrices are flat arrays of words, row by row; every access is
checked, and so are the indices, which are `int`.
-/

namespace OsLab.Microbench.Fib

open OsLab.Counted
open OsLab.Trap (INT_MAX nonneg nonneg_ok)

/-- `put` -/
def put (M : Nat) (m : List (BitVec 32)) (i j : Nat) (data : BitVec 32) : Except Trap (List (BitVec 32)) := do
  let place ← nonneg (i * M + j)
  Trap.put m place data

/-- `get` -/
def get (M : Nat) (m : List (BitVec 32)) (i j : Nat) : Except Trap (BitVec 32) := do
  let place ← nonneg (i * M + j)
  Trap.load m place

/-- The inner loop of `mult` -/
def dot (M : Nat) (a b : List (BitVec 32)) (i j : Nat) (c : List (BitVec 32)) : Except Trap (List (BitVec 32)) :=
  loop (fun k c => do put M c i j ((← get M c i j) + (← get M a i k) * (← get M b k j))) M c

def mult (M : Nat) (c a b : List (BitVec 32)) : Except Trap (List (BitVec 32)) :=
  loop (fun i => loop (fun j c => put M c i j 0 >>= dot M a b i j) M) M c

def assign (M : Nat) (a b : List (BitVec 32)) : Except Trap (List (BitVec 32)) :=
  loop (fun i => loop (fun j a => get M b i j >>= put M a i j) M) M a

/-- The four matrices. -/
structure Arrays where
  A : List (BitVec 32)
  ans : List (BitVec 32)
  T : List (BitVec 32)
  tmp : List (BitVec 32)

/-- `bench_fib_prepare`, where `bench_alloc` gives zeroed words -/
def benchFibPrepare (M : Nat) : Arrays :=
  let words := List.replicate (M * M) 0
  ⟨words, words, words, words⟩

/-- The first loops of `bench_fib_run` -/
def fill (M : Nat) (s : Arrays) : Except Trap Arrays :=
  loop (fun i => loop (fun j s => do
    let x := if i = M - 1 ∨ j = i + 1 then 1 else 0
    let A ← put M s.A i j x
    let T ← put M s.T i j x
    let ans ← put M s.ans i j (if i = j then 1 else 0)
    .ok { s with A := A, T := T, ans := ans }) M) M s

/-- `if (n & 1)` of the last loop -/
def multAns (M n : Nat) (s : Arrays) : Except Trap Arrays :=
  if n &&& 1 ≠ 0 then do
    let tmp ← mult M s.tmp s.ans s.T
    let ans ← assign M s.ans tmp
    .ok { s with tmp := tmp, ans := ans }
  else .ok s

/-- The last loop of `bench_fib_run` -/
def powLoop (M : Nat) : Nat → Nat → Arrays → Except Trap Arrays
  | 0, _, _ => .error .diverge
  | turns + 1, n, s =>
    if n > 0 then do
      let s ← multAns M n s
      let tmp ← mult M s.tmp s.T s.T
      let T ← assign M s.T tmp
      powLoop M turns (n >>> 1) { s with tmp := tmp, T := T }
    else .ok s

/-- `#define N 2147483603` -/
def N : Nat := 2147483603

/-- `bench_fib_run` with the exponent `n`, and what `bench_fib_validate` reads of it -/
def benchFibRun (n M : Nat) : Except Trap (BitVec 32) := do
  let s ← fill M (benchFibPrepare M)
  let s ← powLoop M (n + 1) n s
  get M s.ans (M - 1) (M - 1)

/-! ## Matrices in arrays -/

variable {M : Nat} [NeZero M]

/-- The entry of a matrix that is at a place of its array. -/
def entry (X : Matrix (Fin M) (Fin M) (BitVec 32)) (p : Nat) : BitVec 32 := X (Fin.ofNat M (p / M)) (Fin.ofNat M (p % M))

/-- An array of the right size with the first `p` entries of a matrix. -/
structure Filled (X : Matrix (Fin M) (Fin M) (BitVec 32)) (p : Nat) (m : List (BitVec 32)) : Prop where
  size : m.length = M * M
  filled : ∀ q < p, m[q]? = some (entry X q)

variable {X Y : Matrix (Fin M) (Fin M) (BitVec 32)} {m a b c : List (BitVec 32)} {p : Nat}

theorem ofNat_of_lt {k : Nat} (below : k < M) : Fin.ofNat M k = ⟨k, below⟩ := Fin.ext (Nat.mod_eq_of_lt below)

theorem entry_at (X : Matrix (Fin M) (Fin M) (BitVec 32)) (i j : Fin M) : entry X (i * M + j) = X i j := by
  have row : (i * M + j) / M = (i : Nat) := by
    rw [Nat.add_comm, Nat.add_mul_div_right _ _ (Nat.pos_of_neZero M), Nat.div_eq_of_lt j.isLt, Nat.zero_add]
  have column : (i * M + j) % M = (j : Nat) := by rw [Nat.add_comm, Nat.add_mul_mod_self_right, Nat.mod_eq_of_lt j.isLt]
  rw [entry, row, column, ofNat_of_lt, ofNat_of_lt]

omit [NeZero M] in
theorem place_lt (i j : Fin M) : (i : Nat) * M + j < M * M := by
  have rows := Nat.mul_le_mul_right M i.isLt
  have column := j.isLt
  rw [Nat.succ_mul] at rows
  omega

theorem Filled.start (size : m.length = M * M) : Filled X 0 m := ⟨size, fun q below => absurd below (Nat.not_lt_zero q)⟩

theorem Filled.next (filled : Filled X p m) (below : p < M * M) : Filled X (p + 1) (m.set p (entry X p)) := by
  refine ⟨by rw [List.length_set, filled.size], fun q within => ?_⟩
  by_cases here : q = p
  · rw [here, List.getElem?_set_self (by rw [filled.size]; exact below)]
  · rw [List.getElem?_set_ne (Ne.symm here), filled.filled q (by omega)]

section Sizes

variable (small : M * M ≤ INT_MAX)

include small

omit [NeZero M] in
theorem put_at (size : m.length = M * M) (i j : Fin M) (x : BitVec 32) : put M m i j x = .ok (m.set (i * M + j) x) := by
  have inside := place_lt i j
  rw [put, nonneg_ok (by omega), ok_bind, Trap.put_natCast (by omega)]

/-- An entry of a matrix is put at its place. -/
theorem put_entry (size : m.length = M * M) (X : Matrix (Fin M) (Fin M) (BitVec 32)) (i j : Fin M) :
    put M m i j (X i j) = .ok (m.set (i * M + j) (entry X (i * M + j))) := by
  rw [put_at small size, entry_at]

theorem get_at (whole : Filled X (M * M) m) (i j : Fin M) : get M m i j = .ok (X i j) := by
  have inside := place_lt i j
  rw [get, nonneg_ok (by omega), ok_bind, Trap.load_natCast, whole.filled _ inside, entry_at, Trap.check_some]

omit [NeZero M] in
theorem get_set (size : m.length = M * M) (i j : Fin M) (x : BitVec 32) : get M (m.set (i * M + j) x) i j = .ok x := by
  have inside := place_lt i j
  rw [get, nonneg_ok (by omega), ok_bind, Trap.load_natCast, List.getElem?_set_self (by omega), Trap.check_some]

/-- The inner loop adds up the products of a row and a column. -/
theorem dot_spec (left : Filled X (M * M) a) (right : Filled Y (M * M) b) (size : c.length = M * M) (i j : Fin M) :
    (put M c i j 0 >>= dot M a b i j) = .ok (c.set (i * M + j) ((X * Y) i j)) := by
  have inside := place_lt i j
  have sum : (X * Y) i j = ∑ k ∈ Finset.range M, X i (Fin.ofNat M k) * Y (Fin.ofNat M k) j := by
    rw [Matrix.mul_apply, Finset.sum_range]
    exact Finset.sum_congr rfl fun k _ => by rw [ofNat_of_lt k.isLt]
  have adds : ∃ c', dot M a b i j (c.set (i * M + j) 0) = .ok c' ∧
      c' = c.set (i * M + j) (∑ k ∈ Finset.range M, X i (Fin.ofNat M k) * Y (Fin.ofNat M k) j) := by
    unfold dot
    refine loop_spec (fun n c' => c' = c.set (i * M + j) (∑ k ∈ Finset.range n, X i (Fin.ofNat M k) * Y (Fin.ofNat M k) j))
      (by rw [Finset.range_zero, Finset.sum_empty]) fun k below c' before => ?_
    have size' : (c.set (i * M + j) (∑ k ∈ Finset.range k, X i (Fin.ofNat M k) * Y (Fin.ofNat M k) j)).length = M * M := by
      rw [List.length_set, size]
    have first : get M a i k = .ok (X i ⟨k, below⟩) := get_at small left i ⟨k, below⟩
    have second : get M b k j = .ok (Y ⟨k, below⟩ j) := get_at small right ⟨k, below⟩ j
    refine ⟨_, ?_, rfl⟩
    rw [before, get_set small size, ok_bind, first, ok_bind, second, ok_bind, put_at small size', List.set_set,
      Finset.sum_range_succ, ofNat_of_lt below]
  obtain ⟨c', run, result⟩ := adds
  rw [put_at small size, ok_bind, run, result, sum]

/-- The array of a product. -/
theorem mult_spec (left : Filled X (M * M) a) (right : Filled Y (M * M) b) (size : c.length = M * M) :
    ∃ c', mult M c a b = .ok c' ∧ Filled (X * Y) (M * M) c' := by
  refine square_spec (Filled (X * Y)) (Filled.start size) fun i row j column c' filled => ?_
  have cell := dot_spec small left right filled.size ⟨i, row⟩ ⟨j, column⟩
  rw [← entry_at (X * Y) ⟨i, row⟩ ⟨j, column⟩] at cell
  exact ⟨_, cell, filled.next (place_lt ⟨i, row⟩ ⟨j, column⟩)⟩

/-- An array is copied. -/
theorem assign_spec (right : Filled X (M * M) b) (size : a.length = M * M) :
    ∃ a', assign M a b = .ok a' ∧ Filled X (M * M) a' := by
  refine square_spec (Filled X) (Filled.start size) fun i row j column a' filled => ?_
  have read : get M b i j = .ok (X ⟨i, row⟩ ⟨j, column⟩) := get_at small right ⟨i, row⟩ ⟨j, column⟩
  rw [read, ok_bind]
  exact ⟨_, put_entry small filled.size X ⟨i, row⟩ ⟨j, column⟩, filled.next (place_lt ⟨i, row⟩ ⟨j, column⟩)⟩

end Sizes

/-! ## The power -/

/-- The matrix of the recurrence: each row but the last moves an entry up, the last adds them up. -/
def companion (M : Nat) : Matrix (Fin M) (Fin M) (BitVec 32) := fun i j => if (i : Nat) = M - 1 ∨ (j : Nat) = i + 1 then 1 else 0

/-- The arrays of two matrices, and one of the right size. -/
structure Holds (X Y : Matrix (Fin M) (Fin M) (BitVec 32)) (s : Arrays) : Prop where
  ans : Filled X (M * M) s.ans
  power : Filled Y (M * M) s.T
  size : s.tmp.length = M * M

/-- What the first loops have filled. -/
structure Started (M : Nat) [NeZero M] (p : Nat) (s : Arrays) : Prop where
  coefficients : Filled (companion M) p s.A
  ans : Filled (1 : Matrix (Fin M) (Fin M) (BitVec 32)) p s.ans
  power : Filled (companion M) p s.T
  size : s.tmp.length = M * M

section Power

variable (small : M * M ≤ INT_MAX)

include small

theorem fill_spec : ∃ s, fill M (benchFibPrepare M) = .ok s ∧ Holds (1 : Matrix (Fin M) (Fin M) (BitVec 32)) (companion M) s := by
  have size : (List.replicate (M * M) (0 : BitVec 32)).length = M * M := List.length_replicate
  have filled : ∃ s, fill M (benchFibPrepare M) = .ok s ∧ Started M (M * M) s := by
    refine square_spec (Started M) ⟨Filled.start size, Filled.start size, Filled.start size, size⟩
      fun i row j column s started => ?_
    have inside := place_lt ⟨i, row⟩ ⟨j, column⟩
    have first : put M s.A i j (if i = M - 1 ∨ j = i + 1 then 1 else 0) = .ok (s.A.set (i * M + j) (entry (companion M) (i * M + j))) :=
      put_entry small started.coefficients.size (companion M) ⟨i, row⟩ ⟨j, column⟩
    have second : put M s.T i j (if i = M - 1 ∨ j = i + 1 then 1 else 0) = .ok (s.T.set (i * M + j) (entry (companion M) (i * M + j))) :=
      put_entry small started.power.size (companion M) ⟨i, row⟩ ⟨j, column⟩
    have third : put M s.ans i j (if i = j then 1 else 0) =
        .ok (s.ans.set (i * M + j) (entry (1 : Matrix (Fin M) (Fin M) (BitVec 32)) (i * M + j))) := by
      rw [← put_entry small started.ans.size 1 ⟨i, row⟩ ⟨j, column⟩, Matrix.one_apply]
      simp only [Fin.mk.injEq]
    simp only []
    rw [first, ok_bind, second, ok_bind, third, ok_bind]
    exact ⟨_, rfl, started.coefficients.next inside, started.ans.next inside, started.power.next inside, started.size⟩
  obtain ⟨s, run, started⟩ := filled
  exact ⟨s, run, started.ans, started.power, started.size⟩

omit small in
/-- Half of the exponent of a square. -/
theorem pow_half {R : Type} [Monoid R] (x y : R) (n : Nat) :
    (if n &&& 1 ≠ 0 then x * y else x) * (y * y) ^ (n >>> 1) = x * y ^ n := by
  have half : n >>> 1 = n / 2 := Nat.shiftRight_eq_div_pow n 1
  have bit : n &&& 1 = n % 2 := Nat.and_two_pow_sub_one_eq_mod n 1
  rw [half, bit, ← pow_two, ← pow_mul]
  by_cases odd : n % 2 = 0
  · rw [if_neg (not_not.mpr odd), show 2 * (n / 2) = n by omega]
  · rw [if_pos odd, mul_assoc, ← pow_succ', show 2 * (n / 2) + 1 = n by omega]

theorem multAns_spec {s : Arrays} (holds : Holds X Y s) (n : Nat) :
    ∃ s', multAns M n s = .ok s' ∧ Holds (if n &&& 1 ≠ 0 then X * Y else X) Y s' := by
  unfold multAns
  by_cases odd : n &&& 1 ≠ 0
  · obtain ⟨tmp, product, filled⟩ := mult_spec small holds.ans holds.power holds.size
    obtain ⟨ans, copy, answer⟩ := assign_spec small filled holds.ans.size
    rw [if_pos odd, if_pos odd, product, ok_bind, copy, ok_bind]
    exact ⟨_, rfl, answer, holds.power, filled.size⟩
  · rw [if_neg odd, if_neg odd]
    exact ⟨s, rfl, holds⟩

/-- The loop multiplies the power into the answer. -/
theorem powLoop_spec {turns n : Nat} {s : Arrays} (holds : Holds X Y s) (enough : n < turns) :
    ∃ s', powLoop M turns n s = .ok s' ∧ Filled (X * Y ^ n) (M * M) s'.ans := by
  induction turns generalizing n s X Y with
  | zero => exact absurd enough (Nat.not_lt_zero n)
  | succ turns ih =>
    rw [powLoop]
    by_cases done : n > 0
    · rw [if_pos done]
      obtain ⟨s', run, holds'⟩ := multAns_spec small holds n
      obtain ⟨tmp, product, filled⟩ := mult_spec small holds'.power holds'.power holds'.size
      obtain ⟨T, copy, power⟩ := assign_spec small filled holds'.power.size
      have half : n >>> 1 = n / 2 := Nat.shiftRight_eq_div_pow n 1
      rw [run, ok_bind, product, ok_bind, copy, ok_bind, ← pow_half X Y n]
      exact ih ⟨holds'.ans, power, filled.size⟩ (by omega)
    · rw [if_neg done, Nat.eq_zero_of_not_pos done, pow_zero, mul_one]
      exact ⟨s, rfl, holds.ans⟩

end Power

/-! ## The recurrence -/

/-- `f(n) = f(n-1) + f(n-2) + .. f(n-m)`, from `m - 1` zeros and a one on. -/
structure Recurrence (M : Nat) (f : Nat → BitVec 32) : Prop where
  zero : ∀ i < M - 1, f i = 0
  one : f (M - 1) = 1
  next : ∀ n, f (n + M) = ∑ k ∈ Finset.range M, f (n + k)

variable {f : Nat → BitVec 32}

/-- `M` values of the recurrence. -/
def window (M : Nat) (f : Nat → BitVec 32) (n : Nat) : Fin M → BitVec 32 := fun i => f (n + i)

omit [NeZero M] in
/-- The matrix moves the window on. -/
theorem companion_window (recurs : Recurrence M f) (n : Nat) : (companion M).mulVec (window M f n) = window M f (n + 1) := by
  funext i
  rw [Matrix.mulVec, dotProduct]
  by_cases last : (i : Nat) = M - 1
  · have ones : ∀ j : Fin M, companion M i j * window M f n j = f (n + j) := fun j => by
      rw [companion, if_pos (Or.inl last), one_mul, window]
    have place : n + 1 + (M - 1) = n + M := by omega
    rw [Finset.sum_congr rfl fun j _ => ones j, ← Finset.sum_range fun k => f (n + k), window, last, place, recurs.next]
  · have below : (i : Nat) + 1 < M := by omega
    have single : ∀ j : Fin M, companion M i j * window M f n j = if j = ⟨i + 1, below⟩ then f (n + (i + 1)) else 0 := fun j => by
      rw [companion, window]
      by_cases here : j = ⟨i + 1, below⟩
      · rw [if_pos here, if_pos (Or.inr (by rw [here])), one_mul, here]
      · have other : ¬((i : Nat) = M - 1 ∨ (j : Nat) = i + 1) := by
          rintro (end' | next)
          · exact last end'
          · exact here (Fin.ext next)
        rw [if_neg here, if_neg other, zero_mul]
    rw [Finset.sum_congr rfl fun j _ => single j, Finset.sum_ite_eq' , if_pos (Finset.mem_univ _), window, Nat.add_assoc,
      Nat.add_comm 1]

omit [NeZero M] in
/-- So do its powers. -/
theorem pow_window (recurs : Recurrence M f) (n : Nat) : (companion M ^ n).mulVec (window M f 0) = window M f n := by
  induction n with
  | zero => rw [pow_zero, Matrix.one_mulVec]
  | succ n ih => rw [pow_succ', ← Matrix.mulVec_mulVec, ih, companion_window recurs]

omit [NeZero M] in
/-- The first window is the last unit vector. -/
theorem window_zero (recurs : Recurrence M f) (last : Fin M) (place : (last : Nat) = M - 1) : window M f 0 = Pi.single last 1 := by
  funext i
  rw [window, Nat.zero_add, Pi.single_apply]
  by_cases here : i = last
  · rw [if_pos here, here, place, recurs.one]
  · have below : (i : Nat) < M - 1 := by
      have other : (i : Nat) ≠ last := fun same => here (Fin.ext same)
      omega
    rw [if_neg here, recurs.zero i below]

/-- The benchmark computes the recurrence modulo `2 ^ 32`, whatever its order, as long as an `int` counts the bytes of a matrix. -/
theorem fib_computes {M n : Nat} {f : Nat → BitVec 32} (pos : 0 < M) (small : 4 * (M * M) ≤ INT_MAX) (recurs : Recurrence M f) :
    benchFibRun n M = .ok (f (n + (M - 1))) := by
  have : NeZero M := ⟨Nat.ne_of_gt pos⟩
  have small' : M * M ≤ INT_MAX := by omega
  have last : M - 1 < M := by omega
  obtain ⟨s, start, holds⟩ := fill_spec (M := M) small'
  obtain ⟨s', run, filled⟩ := powLoop_spec small' holds (Nat.lt_succ_self n)
  rw [one_mul] at filled
  have value : (companion M ^ n) ⟨M - 1, last⟩ ⟨M - 1, last⟩ = f (n + (M - 1)) := by
    have windows := congrFun (pow_window recurs n) ⟨M - 1, last⟩
    rw [window_zero recurs ⟨M - 1, last⟩ rfl, Matrix.mulVec_single_one] at windows
    exact windows
  have read : get M s'.ans (M - 1) (M - 1) = .ok _ := get_at small' filled ⟨M - 1, last⟩ ⟨M - 1, last⟩
  rw [benchFibRun, start, ok_bind, run, ok_bind, read, value]

/-- With `M = 2` it is a Fibonacci number. -/
theorem fib_computes_two : benchFibRun N 2 = .ok (BitVec.ofNat 32 (Nat.fib (N + (2 - 1)))) := by
  have recurs : Recurrence 2 fun n => BitVec.ofNat 32 (Nat.fib n) := by
    refine ⟨fun i below => ?_, rfl, fun n => ?_⟩
    · rw [show i = 0 by omega]
      rfl
    · rw [Finset.sum_range_succ, Finset.sum_range_succ, Finset.sum_range_zero, zero_add, Nat.add_zero n, Nat.fib_add_two,
        BitVec.ofNat_add]
  exact @fib_computes 2 N (fun n => BitVec.ofNat 32 (Nat.fib n)) (by decide) (by decide) recurs

end OsLab.Microbench.Fib
