import OsLab.CompilerRt.Unsigned

/-!
# The quotient with a sign (`divdi3.c`, `moddi3.c`, `divmoddi4.c`)

The sign of a number is shifted to all of its bits, and `(x ^ s) - s` takes the sign away or puts it back. Taking it away
from the least number does not fit, even though the quotient and the remainder of that number would.
-/

namespace OsLab.CompilerRt

def sub (x y : DiInt) : Except Undefined DiInt := if x.ssubOverflow y then .error .overflow else .ok (x - y)

def mul (x y : DiInt) : Except Undefined DiInt := if x.smulOverflow y then .error .overflow else .ok (x * y)

/-- `__divdi3`: the last difference is one of `du_int`. -/
def divdi3 (a b : DiInt) : Except Undefined DiInt := do
  let s_a := a.sshiftRight 63
  let s_b := b.sshiftRight 63
  let a ← sub (a ^^^ s_a) s_a
  let b ← sub (b ^^^ s_b) s_b
  let s_a := s_a ^^^ s_b
  let (q, _) ← udivmoddi4 a b
  .ok ((q ^^^ s_a) - s_a)

/-- `__moddi3` -/
def moddi3 (a b : DiInt) : Except Undefined DiInt := do
  let s := b.sshiftRight 63
  let b ← sub (b ^^^ s) s
  let s := a.sshiftRight 63
  let a ← sub (a ^^^ s) s
  let (_, r) ← udivmoddi4 a b
  sub (r ^^^ s) s

/-- `__divmoddi4`, with what it writes to `rem` -/
def divmoddi4 (a b : DiInt) : Except Undefined (DiInt × DiInt) := do
  let d ← divdi3 a b
  let whole ← mul d b
  let rem ← sub a whole
  .ok (d, rem)

/-! ## The sign -/

section Sign

variable {x y : DiInt}

/-- The least number, whose negative does not fit. -/
def least : DiInt := BitVec.intMin 64

theorem sub_fits (lower : -2 ^ 63 ≤ x.toInt - y.toInt) (upper : x.toInt - y.toInt < 2 ^ 63) : sub x y = .ok (x - y) := by
  unfold sub BitVec.ssubOverflow
  rw [if_neg]
  simp only [Bool.or_eq_true, decide_eq_true_eq]
  omega

theorem mul_fits (lower : -2 ^ 63 ≤ x.toInt * y.toInt) (upper : x.toInt * y.toInt < 2 ^ 63) : mul x y = .ok (x * y) := by
  unfold mul BitVec.smulOverflow
  rw [if_neg]
  simp only [Bool.or_eq_true, decide_eq_true_eq]
  generalize x.toInt * y.toInt = product at *
  omega

theorem sign_bits (x : DiInt) : x.sshiftRight 63 = if x.msb then BitVec.allOnes 64 else 0 := by
  have sign : x.msb = decide (2 ^ 63 ≤ x.toNat) := BitVec.msb_eq_decide x
  rw [sign_shift]
  simp only [sign, decide_eq_true_eq]

/-- What the bits of a sign do to a number. -/
theorem xor_sub (x : DuInt) (sign : Bool) :
    (x ^^^ (if sign then BitVec.allOnes 64 else 0)) - (if sign then BitVec.allOnes 64 else 0) = if sign then -x else x := by
  cases sign with
  | false => simp
  | true =>
    simp only [if_true, BitVec.xor_allOnes]
    rw [← BitVec.neg_one_eq_allOnes, BitVec.sub_eq_add_neg, BitVec.neg_neg, ← BitVec.neg_eq_not_add]

theorem not_toInt (x : DiInt) : (~~~x).toInt = -x.toInt - 1 := by
  have bound := x.isLt
  rw [BitVec.toInt_eq_toNat_cond, BitVec.toInt_eq_toNat_cond, BitVec.toNat_not]
  split <;> split <;> omega

theorem toInt_bounds (x : DiInt) : -2 ^ 63 ≤ x.toInt ∧ x.toInt < 2 ^ 63 := ⟨BitVec.le_toInt x, BitVec.toInt_lt⟩

/-- A sign is put on or taken off, unless the number is the least one. -/
theorem sub_sign (x : DiInt) (sign : Bool) (greater : sign = true → x ≠ least) :
    sub (x ^^^ (if sign then BitVec.allOnes 64 else 0)) (if sign then BitVec.allOnes 64 else 0) =
      .ok (if sign then -x else x) := by
  have bounds := toInt_bounds x
  rw [← xor_sub]
  cases sign with
  | false => exact sub_fits (by simpa using bounds.1) (by simpa using bounds.2)
  | true =>
    have different : x.toInt ≠ -2 ^ 63 := fun same => greater rfl (BitVec.eq_of_toInt_eq same)
    apply sub_fits
    · simp only [if_true, BitVec.xor_allOnes, not_toInt, BitVec.toInt_allOnes]
      omega
    · simp only [if_true, BitVec.xor_allOnes, not_toInt, BitVec.toInt_allOnes]
      omega

theorem abs_spec (x : DiInt) : sub (x ^^^ x.sshiftRight 63) (x.sshiftRight 63) =
    if x = least then .error .overflow else .ok x.abs := by
  split
  · rename_i same
    rw [same]
    rfl
  · rename_i greater
    rw [sign_bits, sub_sign x x.msb fun _ => greater]
    rfl

end Sign

/-! ## The results -/

/-- The quotient without its fraction, and what it leaves. -/
def truncated (a b : DiInt) : Except Undefined (DiInt × DiInt) :=
  if a = least ∨ b = least then .error .overflow
  else if b = 0 then .error .divZero
  else .ok (BitVec.ofInt 64 (a.toInt.tdiv b.toInt), BitVec.ofInt 64 (a.toInt.tmod b.toInt))

section Results

variable (a b : DiInt)

variable {a b} in
theorem truncated_overflow (extreme : a = least ∨ b = least) : truncated a b = .error .overflow := if_pos extreme

variable {a b} in
theorem truncated_inside (a_greater : a ≠ least) (b_greater : b ≠ least) : truncated a b = if b = 0 then .error .divZero
    else .ok (BitVec.ofInt 64 (a.toInt.tdiv b.toInt), BitVec.ofInt 64 (a.toInt.tmod b.toInt)) :=
  if_neg (not_or.mpr ⟨a_greater, b_greater⟩)

theorem abs_eq_zero : a.abs = 0 ↔ a = 0 := by
  unfold BitVec.abs
  split <;> simp

theorem abs_le : a.abs.toNat ≤ 2 ^ 63 := by
  have sign : a.msb = decide (2 ^ 63 ≤ a.toNat) := BitVec.msb_eq_decide a
  have bound := a.isLt
  unfold BitVec.abs
  split
  · rename_i negative
    rw [negative] at sign
    have large := of_decide_eq_true sign.symm
    rw [BitVec.neg_eq, BitVec.toNat_neg]
    omega
  · rename_i nonnegative
    rw [Bool.eq_false_of_not_eq_true nonnegative] at sign
    have small := of_decide_eq_false sign.symm
    omega

theorem signs_xor (p q : Bool) : (if p then BitVec.allOnes 64 else 0) ^^^ (if q then BitVec.allOnes 64 else 0) =
    if p ^^ q then BitVec.allOnes 64 else 0 := by
  cases p <;> cases q <;> simp

theorem signed_quotient : (if a.msb ^^ b.msb then -(a.abs / b.abs) else a.abs / b.abs) =
    BitVec.ofInt 64 (a.toInt.tdiv b.toInt) := by
  have value : BitVec.ofInt 64 (a.toInt.tdiv b.toInt) = a.sdiv b :=
    BitVec.eq_of_toInt_eq (by rw [BitVec.toInt_ofInt, BitVec.toInt_sdiv])
  rw [value, BitVec.sdiv_eq]
  unfold BitVec.abs
  cases a.msb <;> cases b.msb <;> simp

theorem signed_remainder : (if a.msb then -(a.abs % b.abs) else a.abs % b.abs) = BitVec.ofInt 64 (a.toInt.tmod b.toInt) := by
  have value : BitVec.ofInt 64 (a.toInt.tmod b.toInt) = a.srem b :=
    BitVec.eq_of_toInt_eq (by rw [BitVec.toInt_ofInt, ← BitVec.toInt_srem, BitVec.toInt_bmod_cancel])
  rw [value, BitVec.srem_eq]
  unfold BitVec.abs
  cases a.msb <;> cases b.msb <;> simp

theorem divdi3_result : divdi3 a b = (truncated a b).map Prod.fst := by
  unfold divdi3
  simp only [abs_spec]
  rcases Decidable.em (a = least) with a_least | a_greater
  · rw [if_pos a_least, truncated_overflow (.inl a_least)]
    rfl
  rcases Decidable.em (b = least) with b_least | b_greater
  · rw [if_neg a_greater, if_pos b_least, truncated_overflow (.inr b_least)]
    rfl
  rw [if_neg a_greater, if_neg b_greater, truncated_inside a_greater b_greater, ok_bind, ok_bind, udivmoddi4_spec]
  simp only [abs_eq_zero]
  split
  · rfl
  · rw [ok_bind, sign_bits, sign_bits, signs_xor, xor_sub, signed_quotient]
    rfl

theorem moddi3_result : moddi3 a b = (truncated a b).map Prod.snd := by
  unfold moddi3
  simp only [abs_spec]
  rcases Decidable.em (b = least) with b_least | b_greater
  · rw [if_pos b_least, truncated_overflow (.inr b_least)]
    rfl
  rcases Decidable.em (a = least) with a_least | a_greater
  · rw [if_neg b_greater, if_pos a_least, truncated_overflow (.inl a_least)]
    rfl
  rw [if_neg b_greater, if_neg a_greater, truncated_inside a_greater b_greater, ok_bind, ok_bind, udivmoddi4_spec]
  simp only [abs_eq_zero]
  split
  · rfl
  · rename_i some
    have positive : 0 < b.abs.toNat := Nat.pos_of_ne_zero fun zero => some ((abs_eq_zero b).mp (BitVec.eq_of_toNat_eq zero))
    have below : (a.abs % b.abs).toNat < 2 ^ 63 := Nat.lt_of_lt_of_le (Nat.mod_lt _ positive) (abs_le b)
    have greater : a.abs % b.abs ≠ least := fun same => absurd (same ▸ below) (by decide)
    rw [ok_bind, sign_bits, sub_sign _ _ fun _ => greater, signed_remainder]
    rfl

/-- The product of the quotient and the divisor lies between 0 and the dividend. -/
theorem tdiv_mul_between (x y : Int) : 0 ≤ x.tdiv y * y ∧ x.tdiv y * y ≤ x ∨ x ≤ x.tdiv y * y ∧ x.tdiv y * y ≤ 0 := by
  have whole := Int.tdiv_mul_add_tmod x y
  have small : (x.tmod y).natAbs ≤ x.natAbs := by
    rw [Int.natAbs_tmod]
    exact Nat.mod_le _ _
  rcases Int.le_total 0 x with nonnegative | nonpositive
  · have rem := Int.tmod_nonneg y nonnegative
    omega
  · have rem := Int.tmod_nonneg (a := -x) y (by omega)
    rw [Int.neg_tmod] at rem
    omega

theorem divmoddi4_result : divmoddi4 a b = truncated a b := by
  unfold divmoddi4
  rw [divdi3_result]
  rcases Decidable.em (a = least ∨ b = least) with extreme | inside
  · rw [truncated_overflow extreme]
    rfl
  obtain ⟨a_greater, b_greater⟩ := not_or.mp inside
  rw [truncated_inside a_greater b_greater]
  split
  · rfl
  · have bounds := toInt_bounds a
    have between := tdiv_mul_between a.toInt b.toInt
    have quot : (BitVec.ofInt 64 (a.toInt.tdiv b.toInt)).toInt = a.toInt.tdiv b.toInt := by
      rw [BitVec.toInt_ofInt, ← BitVec.toInt_sdiv, BitVec.toInt_sdiv_of_ne_or_ne _ _ (.inl a_greater)]
    have whole := Int.tdiv_mul_add_tmod a.toInt b.toInt
    generalize BitVec.ofInt 64 (a.toInt.tdiv b.toInt) = q at *
    have product : (q * b).toInt = a.toInt.tdiv b.toInt * b.toInt := by
      rw [BitVec.toInt_mul, quot, Int.bmod_eq_of_le (by omega) (by omega)]
    have rem : a - q * b = BitVec.ofInt 64 (a.toInt.tmod b.toInt) := by
      apply BitVec.eq_of_toInt_eq
      rw [BitVec.toInt_sub, BitVec.toInt_ofInt, product]
      congr 1
      omega
    simp only [Except.map, ok_bind]
    rw [mul_fits (by rw [quot]; omega) (by rw [quot]; omega), ok_bind, sub_fits (by rw [product]; omega) (by rw [product]; omega),
      ok_bind, rem]

/-- The quotient and the remainder of numbers with a sign are left wherever their signs can be taken off: the least number
is the only one that the code does not divide, or divide by, although C could. -/
theorem signed_division : divdi3 a b = (truncated a b).map Prod.fst ∧ moddi3 a b = (truncated a b).map Prod.snd ∧
    divmoddi4 a b = truncated a b :=
  ⟨divdi3_result a b, moddi3_result a b, divmoddi4_result a b⟩

end Results

end OsLab.CompilerRt
