import OsLab.CompilerRt.Division

/-!
# The quotient without a sign

Every case of `__udivmoddi4` returns the quotient and leaves the remainder, and no case does an operation without a result,
except that a division by 0 is one of words by 0.
-/

namespace OsLab.CompilerRt

/-! ## The general case -/

theorem divide_spec {n d q r : Udwords} {sr : SuInt} (started : Started n q r sr.toNat) (positive : 0 < d.all.toNat)
    (bits : sr.toNat ≤ 63) (below : n.all.toNat / 2 ^ sr.toNat < d.all.toNat)
    (near : d.all.toNat ≤ 2 ^ 63 ∨ sr.toNat = 1 ∧ 2 ^ 63 ≤ n.all.toNat) :
    divide d q r sr = (n.all / d.all, n.all % d.all) := by
  have dividing : Dividing n.all.toNat d sr.toNat q r 0 := by
    refine ⟨?_, by rw [started.rem, Nat.mod_eq_of_lt below], Nat.zero_lt_succ 1⟩
    rw [Nat.div_eq_of_lt below, started.quot, show 65 - sr.toNat = 64 - sr.toNat + 1 by omega, Nat.pow_succ]
    simp only [BitVec.ofNat_eq_ofNat, BitVec.toNat_zero]
    ring
  obtain ⟨q', r', carry, run, done⟩ := dividing.run n.all.isLt bits positive near
  have bit := done.bit
  have quot := done.quot
  have rem := done.rem
  simp only [Nat.pow_zero, Nat.mod_one, Nat.zero_mul, Nat.zero_add, Nat.div_one] at quot rem
  unfold divide
  rw [run]
  have carry_value : (carry.setWidth 64).toNat = carry.toNat := by
    rw [BitVec.toNat_setWidth, Nat.mod_eq_of_lt (by omega)]
  apply Prod.ext
  · apply BitVec.eq_of_toNat_eq
    rw [bit_toNat (by rw [carry_value]; exact bit), carry_value, quot, BitVec.toNat_udiv,
      Nat.mod_eq_of_lt (Nat.lt_of_le_of_lt (Nat.div_le_self _ _) n.all.isLt)]
  · apply BitVec.eq_of_toNat_eq
    rw [BitVec.toNat_umod]
    exact rem

/-! ## Where to start -/

section Shifts

variable {x s : SuInt}

theorem shl_ok (small : s.toNat < 32) : shl x s = .ok (x <<< s.toNat) := if_pos (BitVec.lt_def.mpr small)

theorem shr_ok (small : s.toNat < 32) : shr x s = .ok (x >>> s.toNat) := if_pos (BitVec.lt_def.mpr small)

theorem rest_toNat (small : s.toNat ≤ 32) : (nUwordBits - s).toNat = 32 - s.toNat := by
  unfold nUwordBits
  rw [BitVec.toNat_sub_of_le (BitVec.le_def.mpr small)]
  rfl

theorem shiftBelow_spec (n : Udwords) (some : 0 < s.toNat) (small : s.toNat < 32) :
    ∃ q r, shiftBelow n s = .ok (q, r) ∧ Started n q r s.toNat := by
  have rest : (nUwordBits - s).toNat = 32 - s.toNat := rest_toNat (by omega)
  have rest_small : (nUwordBits - s).toNat < 32 := by omega
  refine ⟨_, _, ?_, started_below n (s := s.toNat) (t := 32 - s.toNat) (by omega)⟩
  unfold shiftBelow
  rw [shl_ok rest_small, shr_ok small, shl_ok rest_small, shr_ok small, rest]
  rfl

/-- The first bit of a word. -/
def first (x : SuInt) : Nat := Nat.log2 x.toNat

theorem toNat_ne_zero (some : x ≠ 0) : x.toNat ≠ 0 := fun zero => some (BitVec.eq_of_toNat_eq zero)

theorem first_lt (some : x ≠ 0) : first x < 32 := (Nat.log2_lt (toNat_ne_zero some)).mpr x.isLt

theorem first_le (some : x ≠ 0) : 2 ^ first x ≤ x.toNat := Nat.log2_self_le (toNat_ne_zero some)

theorem lt_first : x.toNat < 2 ^ (first x + 1) := Nat.lt_log2_self

theorem clz_ok (some : x ≠ 0) : clz x = .ok (BitVec.ofNat 32 (31 - first x)) := if_neg some

variable {n d : Udwords}

theorem high_first (some : n.high ≠ 0) : 2 ^ (first n.high + 32) ≤ n.all.toNat ∧ n.all.toNat < 2 ^ (first n.high + 33) := by
  have bound := n.low.isLt
  have least := first_le some
  have most := lt_first (x := n.high)
  rw [all_toNat, Nat.pow_add, show first n.high + 33 = first n.high + 1 + 32 by omega, Nat.pow_add 2 (first n.high + 1)]
  generalize 2 ^ first n.high = p at *
  generalize 2 ^ (first n.high + 1) = p' at *
  omega

theorem low_first (some : n.low ≠ 0) (none : n.high = 0) :
    2 ^ first n.low ≤ n.all.toNat ∧ n.all.toNat < 2 ^ (first n.low + 1) := by
  have value : n.all.toNat = n.low.toNat := by
    rw [all_toNat, none]
    simp only [BitVec.ofNat_eq_ofNat, BitVec.toNat_zero, Nat.zero_mul, Nat.zero_add]
  rw [value]
  exact ⟨first_le some, lt_first⟩

/-- Where the dividend has fewer bits before the last `sr` than the divisor has. -/
theorem below_divisor {N D i sr : Nat} (most : N < 2 ^ (i + sr)) (least : 2 ^ i ≤ D) : N / 2 ^ sr < D := by
  apply Nat.lt_of_lt_of_le _ least
  rw [Nat.div_lt_iff_lt_mul (Nat.two_pow_pos sr), ← Nat.pow_add]
  exact most

theorem zeros_toNat {i j : Nat} (i_small : i < 32) (j_small : j < 32) :
    (BitVec.ofNat 32 (31 - i) - BitVec.ofNat 32 (31 - j)).toNat = if i ≤ j then j - i else 2 ^ 32 - (i - j) := by
  rw [BitVec.toNat_sub, BitVec.toNat_ofNat, BitVec.toNat_ofNat]
  split <;> omega

theorem succ_toNat (small : s.toNat < 32) : (s + 1).toNat = s.toNat + 1 := by
  rw [BitVec.toNat_add]
  simp only [BitVec.ofNat_eq_ofNat, BitVec.toNat_ofNat]
  omega

theorem started_low (n : Udwords) (word : s = nUwordBits) : Started n ⟨n.low, 0⟩ ⟨0, n.high⟩ s.toNat := by
  rw [word]
  exact started_word n

end Shifts

/-! ## Two high words -/

section Words

variable {n d q r : Udwords} {sr : SuInt}

/-- What every case returns. -/
def quotients (n d : Udwords) : DuInt × DuInt := (n.all / d.all, n.all % d.all)

theorem quotients_toNat {n d : Udwords} {quot rem : DuInt} (quot_eq : quot.toNat = n.all.toNat / d.all.toNat)
    (rem_eq : rem.toNat = n.all.toNat % d.all.toNat) : (quot, rem) = quotients n d :=
  Prod.ext (BitVec.eq_of_toNat_eq quot_eq) (BitVec.eq_of_toNat_eq rem_eq)

theorem quotients_small (small : n.all.toNat < d.all.toNat) : (0, n.all) = quotients n d :=
  quotients_toNat (Nat.div_eq_of_lt small).symm (Nat.mod_eq_of_lt small).symm

theorem quotients_fewer (d_high : d.high ≠ 0) (n_high : n.high ≠ 0) (fewer : first n.high < first d.high) :
    (0, n.all) = quotients n d := by
  apply quotients_small
  calc n.all.toNat < 2 ^ (first n.high + 33) := (high_first n_high).2
    _ ≤ 2 ^ (first d.high + 32) := Nat.pow_le_pow_right (by omega) (by omega)
    _ ≤ d.all.toNat := (high_first d_high).1

theorem divide_high (d_high : d.high ≠ 0) (n_high : n.high ≠ 0) (order : first d.high ≤ first n.high)
    (value : sr.toNat = first n.high - first d.high + 1) (started : Started n q r sr.toNat) :
    divide d q r sr = quotients n d := by
  have d_bits := high_first d_high
  have n_bits := high_first n_high
  have n_small := first_lt n_high
  have positive : 0 < 2 ^ (first d.high + 32) := Nat.two_pow_pos _
  refine divide_spec started (by omega) (by omega) (below_divisor (i := first d.high + 32) ?_ d_bits.1) ?_
  · rw [value, show first d.high + 32 + (first n.high - first d.high + 1) = first n.high + 33 by omega]
    exact n_bits.2
  · rcases Nat.lt_or_ge (first d.high) 31 with few | all
    · left
      calc d.all.toNat ≤ 2 ^ (first d.high + 33) := Nat.le_of_lt d_bits.2
        _ ≤ 2 ^ 63 := Nat.pow_le_pow_right (by omega) (by omega)
    · have last : first n.high = 31 := by omega
      rw [last] at n_bits
      exact .inr ⟨by omega, n_bits.1⟩

theorem divWords_spec (d_high : d.high ≠ 0) (n_high : n.high ≠ 0) : divWords n d = .ok (quotients n d) := by
  have n_small := first_lt n_high
  have d_small := first_lt d_high
  have value := zeros_toNat d_small n_small
  unfold divWords
  simp only [clz_ok d_high, clz_ok n_high, ok_bind]
  generalize BitVec.ofNat 32 (31 - first d.high) - BitVec.ofNat 32 (31 - first n.high) = sr at *
  have last : (nUwordBits - 1).toNat = 31 := rfl
  rcases Nat.lt_or_ge (first n.high) (first d.high) with fewer | order
  · rw [if_neg (by omega)] at value
    rw [if_pos (by rw [gt_iff_lt, BitVec.lt_def, last]; omega), quotients_fewer d_high n_high fewer]
  · rw [if_pos order] at value
    rw [if_neg (by rw [gt_iff_lt, BitVec.lt_def, last]; omega)]
    have next : (sr + 1).toNat = first n.high - first d.high + 1 := by rw [succ_toNat (by omega), value]
    split
    · rename_i word
      rw [divide_high d_high n_high order next (started_low n word)]
    · rename_i part
      have small : (sr + 1).toNat < 32 := by
        have different : (sr + 1).toNat ≠ 32 := fun same => part (BitVec.eq_of_toNat_eq same)
        omega
      obtain ⟨q, r, shift, started⟩ := shiftBelow_spec n (s := sr + 1) (by omega) small
      rw [shift, ok_bind, divide_high d_high n_high order next started]

end Words

/-! ## Powers of two -/

section Powers

variable {x y : SuInt} {i : Nat}

theorem pred_toNat (some : x ≠ 0) : (x - 1).toNat = x.toNat - 1 := by
  have one_le : (1 : SuInt) ≤ x := by
    rw [BitVec.le_def]
    exact Nat.one_le_iff_ne_zero.mpr (toNat_ne_zero some)
  rw [BitVec.toNat_sub_of_le one_le]
  rfl

theorem power_of_and (some : x ≠ 0) (single : x &&& (x - 1) = 0) : ∃ i, i < 32 ∧ x.toNat = 2 ^ i := by
  have zero : x.toNat &&& (x.toNat - 1) = 0 := by
    rw [← pred_toNat some, ← BitVec.toNat_and, single]
    rfl
  obtain ⟨i, power⟩ := (Nat.and_sub_one_eq_zero_iff_isPowerOfTwo (toNat_ne_zero some)).mp zero
  refine ⟨i, ?_, power⟩
  rw [← Nat.pow_lt_pow_iff_right (Nat.lt_succ_self 1), ← power]
  exact x.isLt

theorem first_pos (some : x ≠ 0) (several : ¬(x &&& (x - 1) = 0)) : 0 < first x := by
  rcases Nat.eq_zero_or_pos (first x) with zero | positive
  · have most := lt_first (x := x)
    have different := toNat_ne_zero some
    rw [zero] at most
    have one : x = 1 := BitVec.eq_of_toNat_eq (by simp only [BitVec.ofNat_eq_ofNat, BitVec.toNat_ofNat]; omega)
    rw [one] at several
    exact absurd rfl several
  · exact positive

theorem trailing_pow {bits i : Nat} (less : i < bits) : trailing bits (2 ^ i) = i := by
  induction bits generalizing i with
  | zero => omega
  | succ bits ih =>
    unfold trailing
    cases i with
    | zero => rfl
    | succ i =>
      have odd : ¬(2 ^ (i + 1) % 2 = 1) := by omega
      have half : 2 ^ (i + 1) / 2 = 2 ^ i := by omega
      rw [if_neg odd, half, ih (Nat.lt_of_succ_lt_succ less)]

theorem ctz_power (some : x ≠ 0) (small : i < 32) (power : x.toNat = 2 ^ i) : ctz x = .ok (BitVec.ofNat 32 i) := by
  unfold ctz
  rw [if_neg some, power, trailing_pow small]

theorem mask_toNat (some : x ≠ 0) (power : x.toNat = 2 ^ i) : (y &&& (x - 1)).toNat = y.toNat % 2 ^ i := by
  rw [BitVec.toNat_and, pred_toNat some, power, Nat.and_two_pow_sub_one_eq_mod]

theorem bits_toNat (small : i < 32) : (BitVec.ofNat 32 i).toNat = i := by
  rw [BitVec.toNat_ofNat]
  omega

theorem word_toNat (x : SuInt) : (x.setWidth 64).toNat = x.toNat := by
  rw [BitVec.toNat_setWidth, Nat.mod_eq_of_lt (Nat.lt_trans x.isLt (by decide))]

end Powers

/-! ## A divisor of one word -/

section Word

variable {n d : Udwords}

theorem all_low (none : n.low = 0) : n.all.toNat = n.high.toNat * 2 ^ 32 := by
  rw [all_toNat, none]
  simp only [BitVec.ofNat_eq_ofNat, BitVec.toNat_zero, Nat.add_zero]

theorem all_high (none : n.high = 0) : n.all.toNat = n.low.toNat := by
  rw [all_toNat, none]
  simp only [BitVec.ofNat_eq_ofNat, BitVec.toNat_zero, Nat.zero_mul, Nat.zero_add]

theorem divLowZero_spec (d_low : d.low = 0) (d_high : d.high ≠ 0) (n_high : n.high ≠ 0) :
    divLowZero n d = .ok (quotients n d) := by
  have n_small := first_lt n_high
  have d_small := first_lt d_high
  have divisor := all_low d_low
  have low_bound := n.low.isLt
  unfold divLowZero
  rw [if_neg d_high]
  split
  · rename_i n_low
    unfold umod udiv
    rw [if_neg d_high, if_neg d_high, ok_bind, ok_bind, quotients_toNat (n := n) (d := d)]
    · rw [word_toNat, BitVec.toNat_udiv, all_low n_low, divisor, Nat.mul_div_mul_right _ _ (Nat.two_pow_pos 32)]
    · rw [all_low rfl, BitVec.toNat_umod, all_low n_low, divisor, Nat.mul_mod_mul_right]
  split
  · rename_i single
    obtain ⟨i, small, power⟩ := power_of_and d_high single
    have bits := bits_toNat small
    rw [power, Nat.mul_comm] at divisor
    rw [ctz_power d_high small power, ok_bind, shr_ok (by omega), ok_bind, quotients_toNat (n := n) (d := d)]
    · have word : (n.high.toNat * 2 ^ 32 + n.low.toNat) / 2 ^ 32 = n.high.toNat := by omega
      rw [word_toNat, BitVec.toNat_ushiftRight, bits, Nat.shiftRight_eq_div_pow, divisor, all_toNat,
        ← Nat.div_div_eq_div_mul, word]
    · have word : (n.high.toNat * 2 ^ 32 + n.low.toNat) / 2 ^ 32 = n.high.toNat := by omega
      have rest : (n.high.toNat * 2 ^ 32 + n.low.toNat) % 2 ^ 32 = n.low.toNat := by omega
      rw [all_toNat, all_toNat, divisor, Nat.mod_mul, mask_toNat d_high power, word, rest]
      ring
  · rename_i several
    have value := zeros_toNat d_small n_small
    have inside := first_pos d_high several
    simp only [clz_ok d_high, clz_ok n_high, ok_bind]
    generalize BitVec.ofNat 32 (31 - first d.high) - BitVec.ofNat 32 (31 - first n.high) = sr at *
    have last : (nUwordBits - 2).toNat = 30 := rfl
    rcases Nat.lt_or_ge (first n.high) (first d.high) with fewer | order
    · rw [if_neg (by omega)] at value
      rw [if_pos (by rw [gt_iff_lt, BitVec.lt_def, last]; omega), quotients_fewer d_high n_high fewer]
    · rw [if_pos order] at value
      rw [if_neg (by rw [gt_iff_lt, BitVec.lt_def, last]; omega)]
      have next : (sr + 1).toNat = first n.high - first d.high + 1 := by rw [succ_toNat (by omega), value]
      obtain ⟨q, r, shift, started⟩ := shiftBelow_spec n (s := sr + 1) (by omega) (by omega)
      rw [shift, ok_bind, divide_high d_high n_high order next started]

theorem divide_low (d_low : d.low ≠ 0) (d_high : d.high = 0) (n_high : n.high ≠ 0) (inside : 0 < first d.low)
    {q r : Udwords} {sr : SuInt} (value : sr.toNat = 33 + first n.high - first d.low)
    (started : Started n q r sr.toNat) : divide d q r sr = quotients n d := by
  have d_bits := low_first d_low d_high
  have n_bits := high_first n_high
  have d_small := first_lt d_low
  have n_small := first_lt n_high
  have positive : 0 < 2 ^ first d.low := Nat.two_pow_pos _
  refine divide_spec started (by omega) (by omega) (below_divisor (i := first d.low) ?_ d_bits.1) (.inl ?_)
  · rw [value, show first d.low + (33 + first n.high - first d.low) = first n.high + 33 by omega]
    exact n_bits.2
  · rw [all_high d_high]
    have bound := d.low.isLt
    omega

theorem start_toNat {i j : Nat} (i_small : i < 32) (j_small : j < 32) :
    (1 + nUwordBits + BitVec.ofNat 32 (31 - i) - BitVec.ofNat 32 (31 - j)).toNat = 33 + j - i := by
  unfold nUwordBits
  rw [BitVec.toNat_sub, BitVec.toNat_add, BitVec.toNat_add, BitVec.toNat_ofNat, BitVec.toNat_ofNat]
  simp only [BitVec.ofNat_eq_ofNat, BitVec.toNat_ofNat]
  omega

theorem divHighZero_spec (d_low : d.low ≠ 0) (d_high : d.high = 0) (n_high : n.high ≠ 0) :
    divHighZero n d = .ok (quotients n d) := by
  have n_small := first_lt n_high
  have d_small := first_lt d_low
  have divisor := all_high d_high
  unfold divHighZero
  split
  · rename_i single
    obtain ⟨i, small, power⟩ := power_of_and d_low single
    have bits := bits_toNat small
    have rem : ((n.low &&& (d.low - 1)).setWidth 64).toNat = n.all.toNat % d.all.toNat := by
      have words : 2 ^ 32 = 2 ^ i * 2 ^ (32 - i) := by
        rw [← Nat.pow_add]
        congr 1
        omega
      rw [word_toNat, mask_toNat d_low power, divisor, power, all_toNat, words,
        show n.high.toNat * (2 ^ i * 2 ^ (32 - i)) = 2 ^ i * (n.high.toNat * 2 ^ (32 - i)) by ring, Nat.mul_add_mod]
    simp only []
    split
    · rename_i one
      rw [quotients_toNat _ rem]
      rw [divisor, one]
      exact (Nat.div_one _).symm
    · rename_i more
      have positive : 0 < i := by
        rcases Nat.eq_zero_or_pos i with rfl | positive
        · exact absurd (BitVec.eq_of_toNat_eq power) more
        · exact positive
      have rest : (nUwordBits - BitVec.ofNat 32 i).toNat = 32 - i := by rw [rest_toNat (by omega), bits]
      rw [ctz_power d_low small power, ok_bind, shr_ok (by omega), ok_bind, shl_ok (by omega), ok_bind, shr_ok (by omega),
        ok_bind, rest, bits, quotients_toNat _ rem]
      rw [(started_below n (s := i) (t := 32 - i) (by omega)).rem, divisor, power]
  · rename_i several
    have value := start_toNat d_small n_small
    have inside := first_pos d_low several
    simp only [clz_ok d_low, clz_ok n_high, ok_bind]
    generalize 1 + nUwordBits + BitVec.ofNat 32 (31 - first d.low) - BitVec.ofNat 32 (31 - first n.high) = sr at *
    split
    · rename_i word
      rw [divide_low d_low d_high n_high inside value (started_low n word)]
    split
    · rename_i below
      obtain ⟨q, r, shift, started⟩ := shiftBelow_spec n (s := sr) (by omega) (BitVec.lt_def.mp below)
      rw [shift, ok_bind, divide_low d_low d_high n_high inside value started]
    · rename_i different above
      have more : 32 < sr.toNat := by
        have least : ¬(sr.toNat < 32) := fun less => above (BitVec.lt_def.mpr less)
        have other : sr.toNat ≠ 32 := fun same => different (BitVec.eq_of_toNat_eq same)
        omega
      have left : (nUdwordBits - sr).toNat = 64 - sr.toNat := by
        unfold nUdwordBits
        rw [BitVec.toNat_sub_of_le (BitVec.le_def.mpr (by simp only [BitVec.ofNat_eq_ofNat, BitVec.toNat_ofNat]; omega))]
        rfl
      have right : (sr - nUwordBits).toNat = sr.toNat - 32 := by
        unfold nUwordBits
        rw [BitVec.toNat_sub_of_le (BitVec.le_def.mpr (by simp only [BitVec.ofNat_eq_ofNat, BitVec.toNat_ofNat]; omega))]
        rfl
      rw [shl_ok (by omega), ok_bind, shl_ok (by omega), ok_bind, shr_ok (by omega), ok_bind, shr_ok (by omega), ok_bind,
        left, right]
      have started := started_above n (s := sr.toNat - 32) (t := 64 - sr.toNat) (by omega)
      rw [show 32 + (sr.toNat - 32) = sr.toNat by omega] at started
      rw [divide_low d_low d_high n_high inside value started]

end Word

/-! ## Every case -/

section Cases

variable {n d : Udwords}

theorem low_of_all (some : d.all ≠ 0) (none : d.high = 0) : d.low ≠ 0 := by
  intro low
  apply some
  apply BitVec.eq_of_toNat_eq
  rw [all_high none, low]
  rfl

theorem words_small (n_high : n.high = 0) (d_high : d.high ≠ 0) : n.all.toNat < d.all.toNat := by
  have some := toNat_ne_zero d_high
  have bound := n.low.isLt
  rw [all_high n_high, all_toNat]
  omega

theorem low_quotients (n_high : n.high = 0) (d_high : d.high = 0) :
    ((n.low / d.low).setWidth 64, (n.low % d.low).setWidth 64) = quotients n d := by
  apply quotients_toNat
  · rw [word_toNat, BitVec.toNat_udiv, all_high n_high, all_high d_high]
  · rw [word_toNat, BitVec.toNat_umod, all_high n_high, all_high d_high]

end Cases

theorem udivmoddi4_spec (a b : DuInt) :
    udivmoddi4 a b = if b = 0 then .error .divZero else .ok (a / b, a % b) := by
  unfold udivmoddi4
  split
  · rename_i zero
    have none : (udwords b).low = 0 ∧ (udwords b).high = 0 := by
      rw [zero]
      exact ⟨rfl, rfl⟩
    simp only [divLowZero, umod, none.1, none.2, if_true, error_bind, ite_self]
  · rename_i some
    have whole : quotients (udwords a) (udwords b) = (a / b, a % b) := by
      unfold quotients
      rw [all_udwords, all_udwords]
    have d_some : (udwords b).all ≠ 0 := by
      rw [all_udwords]
      exact some
    rw [← whole]
    generalize udwords a = n
    generalize udwords b = d at d_some
    simp only []
    split
    · rename_i n_high
      split
      · rename_i d_high
        have d_low := low_of_all d_some d_high
        unfold umod udiv
        rw [if_neg d_low, if_neg d_low, ok_bind, ok_bind, low_quotients n_high d_high]
      · rename_i d_high
        have low : n.low.setWidth 64 = n.all := BitVec.eq_of_toNat_eq (by rw [word_toNat, all_high n_high])
        rw [← quotients_small (words_small n_high d_high), low]
    · rename_i n_high
      split
      · rename_i d_low
        exact divLowZero_spec d_low (fun d_high => low_of_all d_some d_high d_low) n_high
      · rename_i d_low
        split
        · rename_i d_high
          exact divHighZero_spec d_low d_high n_high
        · rename_i d_high
          exact divWords_spec d_high n_high

/-- A division by 0 is the only one without a result; every other leaves the quotient and the remainder. -/
theorem unsigned_division (a b : DuInt) :
    udivmoddi4 a b = (if b = 0 then .error .divZero else .ok (a / b, a % b)) ∧
      udivdi3 a b = (if b = 0 then .error .divZero else .ok (a / b)) ∧
      umoddi3 a b = (if b = 0 then .error .divZero else .ok (a % b)) := by
  unfold udivdi3 umoddi3
  rw [udivmoddi4_spec]
  split
  · exact ⟨rfl, rfl, rfl⟩
  · exact ⟨rfl, rfl, rfl⟩

end OsLab.CompilerRt
