import OsLab.CompilerRt.Udivmoddi4
import Mathlib.Tactic.Ring
import Mathlib.Tactic.Linarith

/-!
# Quotients and remainders

The words of `__udivmoddi4` as numbers. What is left to do in the loop is `k` bits of the dividend: the remainder and the
quotient of the bits before them are known, the quotient in the bits that `q` has shifted out and in `carry`.
-/

namespace OsLab.CompilerRt

/-! ## Words -/

section Words

variable {w : Udwords} {x y s : SuInt}

theorem shiftLeft_or (x : Nat) {y i : Nat} (small : y < 2 ^ i) : (x * 2 ^ i) ||| y = x * 2 ^ i + y := by
  rw [← Nat.shiftLeft_eq, Nat.shiftLeft_add_eq_or_of_lt small]

theorem all_toNat : w.all.toNat = w.high.toNat * 2 ^ 32 + w.low.toNat := by
  unfold Udwords.all
  rw [BitVec.toNat_append, Nat.shiftLeft_eq, shiftLeft_or _ w.low.isLt]

theorem high_toNat (a : DuInt) : (udwords a).high.toNat = a.toNat / 2 ^ 32 := by
  unfold udwords
  rw [BitVec.extractLsb'_toNat, Nat.shiftRight_eq_div_pow]
  omega

theorem low_toNat (a : DuInt) : (udwords a).low.toNat = a.toNat % 2 ^ 32 := by
  unfold udwords
  rw [BitVec.extractLsb'_toNat, Nat.shiftRight_zero]

theorem all_udwords (a : DuInt) : (udwords a).all = a := by
  apply BitVec.eq_of_toNat_eq
  rw [all_toNat, high_toNat, low_toNat]
  omega

/-- The bits of two words that meet when they are shifted. -/
theorem join_toNat (x y : SuInt) {s t : Nat} (whole : s + t = 32) :
    ((x <<< t) ||| (y >>> s)).toNat = x.toNat * 2 ^ t % 2 ^ 32 + y.toNat / 2 ^ s := by
  have split : 2 ^ 32 = 2 ^ s * 2 ^ t := by rw [← Nat.pow_add, whole]
  have small : y.toNat / 2 ^ s < 2 ^ t := by
    rw [Nat.div_lt_iff_lt_mul (Nat.two_pow_pos s), Nat.mul_comm, ← split]
    exact y.isLt
  rw [BitVec.toNat_or, BitVec.toNat_shiftLeft, BitVec.toNat_ushiftRight, Nat.shiftLeft_eq, Nat.shiftRight_eq_div_pow, split,
    Nat.mul_mod_mul_right, shiftLeft_or _ small]

/-- A number of words, shifted. -/
structure Started (n q r : Udwords) (sr : Nat) : Prop where
  quot : q.all.toNat = n.all.toNat % 2 ^ sr * 2 ^ (64 - sr)
  rem : r.all.toNat = n.all.toNat / 2 ^ sr

theorem started_below (n : Udwords) {s t : Nat} (whole : s + t = 32) :
    Started n ⟨n.low <<< t, 0⟩ ⟨n.high >>> s, (n.high <<< t) ||| (n.low >>> s)⟩ s := by
  have split : 2 ^ 32 = 2 ^ s * 2 ^ t := by rw [← Nat.pow_add, whole]
  constructor
  · rw [all_toNat, all_toNat]
    have power : 2 ^ (64 - s) = 2 ^ t * 2 ^ 32 := by rw [← Nat.pow_add]; congr 1; omega
    have low : (n.high.toNat * 2 ^ 32 + n.low.toNat) % 2 ^ s = n.low.toNat % 2 ^ s := by
      rw [split, show n.high.toNat * (2 ^ s * 2 ^ t) = 2 ^ s * (n.high.toNat * 2 ^ t) by ring, Nat.mul_add_mod]
    rw [low, power, BitVec.toNat_shiftLeft, Nat.shiftLeft_eq]
    have inner : n.low.toNat * 2 ^ t % 2 ^ 32 = n.low.toNat % 2 ^ s * 2 ^ t := by rw [split, Nat.mul_mod_mul_right]
    rw [inner]
    simp only [BitVec.ofNat_eq_ofNat, BitVec.toNat_zero]
    ring
  · rw [all_toNat, all_toNat, join_toNat _ _ whole, BitVec.toNat_ushiftRight, Nat.shiftRight_eq_div_pow]
    have quotient : (n.high.toNat * 2 ^ 32 + n.low.toNat) / 2 ^ s = n.high.toNat * 2 ^ t + n.low.toNat / 2 ^ s := by
      rw [split, show n.high.toNat * (2 ^ s * 2 ^ t) = 2 ^ s * (n.high.toNat * 2 ^ t) by ring,
        Nat.mul_add_div (Nat.two_pow_pos s)]
    have high : n.high.toNat / 2 ^ s = n.high.toNat * 2 ^ t / 2 ^ 32 := by
      rw [split, Nat.mul_div_mul_right _ _ (Nat.two_pow_pos t)]
    rw [quotient, high]
    have parts := Nat.div_add_mod (n.high.toNat * 2 ^ t) (2 ^ 32)
    omega

theorem started_word (n : Udwords) : Started n ⟨n.low, 0⟩ ⟨0, n.high⟩ 32 := by
  have bound := n.low.isLt
  constructor
  · rw [all_toNat, all_toNat]
    simp only [BitVec.ofNat_eq_ofNat, BitVec.toNat_zero]
    omega
  · rw [all_toNat, all_toNat]
    simp only [BitVec.ofNat_eq_ofNat, BitVec.toNat_zero]
    omega

theorem started_above (n : Udwords) {s t : Nat} (whole : s + t = 32) :
    Started n ⟨(n.high <<< t) ||| (n.low >>> s), n.low <<< t⟩ ⟨0, n.high >>> s⟩ (32 + s) := by
  have split : 2 ^ 32 = 2 ^ s * 2 ^ t := by rw [← Nat.pow_add, whole]
  constructor
  · have power : 64 - (32 + s) = t := by omega
    rw [all_toNat, all_toNat, join_toNat _ _ whole, BitVec.toNat_shiftLeft, Nat.shiftLeft_eq, power, Nat.pow_add]
    have mod : (n.high.toNat * 2 ^ 32 + n.low.toNat) % (2 ^ 32 * 2 ^ s) * 2 ^ t =
        (n.high.toNat * 2 ^ 32 + n.low.toNat) * 2 ^ t % (2 ^ 32 * 2 ^ 32) := by
      rw [← Nat.mul_mod_mul_right, Nat.mul_assoc, ← split]
    have low : n.low.toNat * 2 ^ t / 2 ^ 32 = n.low.toNat / 2 ^ s := by
      rw [split, Nat.mul_div_mul_right _ _ (Nat.two_pow_pos t)]
    rw [mod, ← low, Nat.add_mul (n.high.toNat * 2 ^ 32), show n.high.toNat * 2 ^ 32 * 2 ^ t = n.high.toNat * 2 ^ t * 2 ^ 32 by ring]
    have room : n.high.toNat * 2 ^ t % 2 ^ 32 + 2 ^ t ≤ 2 ^ 32 := by
      have below : n.high.toNat % 2 ^ s + 1 ≤ 2 ^ s := Nat.mod_lt _ (Nat.two_pow_pos s)
      calc n.high.toNat * 2 ^ t % 2 ^ 32 + 2 ^ t = (n.high.toNat % 2 ^ s + 1) * 2 ^ t := by
            rw [split, Nat.mul_mod_mul_right, Nat.succ_mul]
        _ ≤ 2 ^ 32 := split ▸ Nat.mul_le_mul_right _ below
    have bound : n.low.toNat * 2 ^ t < 2 ^ 32 * 2 ^ t := Nat.mul_lt_mul_of_pos_right n.low.isLt (Nat.two_pow_pos t)
    generalize n.low.toNat * 2 ^ t = l at *
    generalize n.high.toNat * 2 ^ t = h at *
    generalize 2 ^ t = p at *
    omega
  · rw [all_toNat, all_toNat, BitVec.toNat_ushiftRight, Nat.shiftRight_eq_div_pow, Nat.pow_add, ← Nat.div_div_eq_div_mul]
    have bound := n.low.isLt
    have whole : (n.high.toNat * 2 ^ 32 + n.low.toNat) / 2 ^ 32 = n.high.toNat := by omega
    simp only [whole, BitVec.ofNat_eq_ofNat, BitVec.toNat_zero, Nat.zero_mul, Nat.zero_add]

end Words

/-! ## One bit -/

section Bit

/-- The quotient and the remainder when a bit is brought down. -/
theorem div_mod_bit {T b D : Nat} (positive : 0 < D) (bit : b < 2) :
    (2 * T + b) / D = 2 * (T / D) + (if D ≤ 2 * (T % D) + b then 1 else 0) ∧
      (2 * T + b) % D = if D ≤ 2 * (T % D) + b then 2 * (T % D) + b - D else 2 * (T % D) + b := by
  have below := Nat.mod_lt T positive
  have whole : 2 * T + b = D * (2 * (T / D)) + (2 * (T % D) + b) := by
    have parts := Nat.div_add_mod T D
    calc 2 * T + b = 2 * (D * (T / D) + T % D) + b := by rw [parts]
      _ = _ := by ring
  rw [whole, Nat.mul_add_div positive, Nat.mul_add_mod]
  split
  · rename_i enough
    have one : (2 * (T % D) + b) / D = 1 := Nat.div_eq_of_lt_le (by omega) (by omega)
    exact ⟨by rw [one], by rw [Nat.mod_eq_sub_mod enough, Nat.mod_eq_of_lt (by omega)]⟩
  · rename_i few
    have none : (2 * (T % D) + b) / D = 0 := Nat.div_eq_of_lt (by omega)
    exact ⟨by rw [none], Nat.mod_eq_of_lt (by omega)⟩

/-- What the sign of a number is shifted to. -/
theorem sign_shift (x : DuInt) : x.sshiftRight 63 = if 2 ^ 63 ≤ x.toNat then BitVec.allOnes 64 else 0 := by
  have sign : x.msb = decide (2 ^ 63 ≤ x.toNat) := BitVec.msb_eq_decide x
  have bound := x.isLt
  split
  · rename_i big
    rw [decide_eq_true big] at sign
    rw [BitVec.sshiftRight_eq_of_msb_true sign]
    apply BitVec.eq_of_toNat_eq
    rw [BitVec.toNat_not, BitVec.toNat_ushiftRight, BitVec.toNat_not, Nat.shiftRight_eq_div_pow, BitVec.toNat_allOnes]
    omega
  · rename_i small
    rw [decide_eq_false small] at sign
    rw [BitVec.sshiftRight_eq_of_msb_false sign]
    apply BitVec.eq_of_toNat_eq
    rw [BitVec.toNat_ushiftRight, Nat.shiftRight_eq_div_pow]
    simp only [BitVec.ofNat_eq_ofNat, BitVec.toNat_zero]
    omega

/-- `r` and `d` are near enough for the sign of their difference to tell which is greater. -/
def Near (d r : Nat) : Prop := d ≤ 2 ^ 63 ∧ r < 2 * d ∨ 2 ^ 63 ≤ d ∧ 2 ^ 63 ≤ r

theorem sign_of_difference {d r : DuInt} (near : Near d.toNat r.toNat) :
    (d - r - 1).sshiftRight 63 = if d.toNat ≤ r.toNat then BitVec.allOnes 64 else 0 := by
  have value : (d - r - 1).toNat = (2 ^ 64 + d.toNat - r.toNat - 1) % 2 ^ 64 := by
    rw [BitVec.toNat_sub, BitVec.toNat_sub]
    simp only [BitVec.ofNat_eq_ofNat, BitVec.toNat_ofNat]
    omega
  have d_bound := d.isLt
  have r_bound := r.isLt
  rw [sign_shift]
  have same : 2 ^ 63 ≤ (d - r - 1).toNat ↔ d.toNat ≤ r.toNat := by
    rw [value]
    unfold Near at near
    omega
  simp only [same]

variable {d q r : Udwords} {carry : SuInt}

theorem bit_toNat {w : Nat} {x c : BitVec (w + 1)} (bit : c.toNat < 2) :
    ((x <<< 1) ||| c).toNat = (2 * x.toNat + c.toNat) % 2 ^ (w + 1) := by
  rw [BitVec.toNat_or, BitVec.toNat_shiftLeft, Nat.shiftLeft_eq, Nat.pow_one, Nat.pow_succ, Nat.mul_mod_mul_right]
  have joined : x.toNat % 2 ^ w * 2 ||| c.toNat = x.toNat % 2 ^ w * 2 + c.toNat := shiftLeft_or (i := 1) _ bit
  have below := Nat.mod_lt x.toNat (Nat.two_pow_pos w)
  have parts := Nat.div_add_mod x.toNat (2 ^ w)
  calc x.toNat % 2 ^ w * 2 ||| c.toNat = x.toNat % 2 ^ w * 2 + c.toNat := joined
    _ = (x.toNat % 2 ^ w * 2 + c.toNat) % (2 ^ w * 2) := (Nat.mod_eq_of_lt (by omega)).symm
    _ = (2 ^ w * 2 * (x.toNat / 2 ^ w) + (x.toNat % 2 ^ w * 2 + c.toNat)) % (2 ^ w * 2) := (Nat.mul_add_mod _ _ _).symm
    _ = (2 * x.toNat + c.toNat) % (2 ^ w * 2) := by
      rw [show 2 ^ w * 2 * (x.toNat / 2 ^ w) = 2 * (2 ^ w * (x.toNat / 2 ^ w)) by ring]
      congr 1
      omega

theorem shifted_quot (bit : carry.toNat < 2) :
    (⟨(q.high <<< 1) ||| (q.low >>> 31), (q.low <<< 1) ||| carry⟩ : Udwords).all.toNat =
      (2 * q.all.toNat + carry.toNat) % 2 ^ 64 := by
  have low_bound := q.low.isLt
  rw [all_toNat, all_toNat, join_toNat q.high q.low (s := 31) (t := 1) rfl, bit_toNat bit]
  omega

theorem shifted_rem (room : 2 * r.all.toNat + q.all.toNat / 2 ^ 63 < 2 ^ 64) :
    (⟨(r.high <<< 1) ||| (r.low >>> 31), (r.low <<< 1) ||| (q.high >>> 31)⟩ : Udwords).all.toNat =
      2 * r.all.toNat + q.all.toNat / 2 ^ 63 := by
  have low_bound := q.low.isLt
  have low_bound' := r.low.isLt
  rw [all_toNat] at room
  rw [all_toNat] at room
  rw [all_toNat, all_toNat, all_toNat, join_toNat r.high r.low (s := 31) (t := 1) rfl,
    join_toNat r.low q.high (s := 31) (t := 1) rfl]
  omega

/-- One turn of the loop: what it brings down and what it takes away. -/
theorem divStep_spec (bit : carry.toNat < 2) (room : 2 * r.all.toNat + q.all.toNat / 2 ^ 63 < 2 ^ 64)
    (near : Near d.all.toNat (2 * r.all.toNat + q.all.toNat / 2 ^ 63)) :
    ∃ q' r' carry', divStep d q r carry = (q', r', carry') ∧
      q'.all.toNat = (2 * q.all.toNat + carry.toNat) % 2 ^ 64 ∧
      r'.all.toNat = (if d.all.toNat ≤ 2 * r.all.toNat + q.all.toNat / 2 ^ 63
        then 2 * r.all.toNat + q.all.toNat / 2 ^ 63 - d.all.toNat else 2 * r.all.toNat + q.all.toNat / 2 ^ 63) ∧
      carry'.toNat = if d.all.toNat ≤ 2 * r.all.toNat + q.all.toNat / 2 ^ 63 then 1 else 0 := by
  refine ⟨_, _, _, rfl, shifted_quot bit, ?_, ?_⟩
  · have rem := shifted_rem room
    rw [all_udwords, sign_of_difference (by rw [rem]; exact near), rem]
    split
    · rename_i enough
      rw [BitVec.and_allOnes, BitVec.toNat_sub_of_le (by rw [BitVec.le_def, rem]; exact enough), rem]
    · rw [BitVec.ofNat_eq_ofNat, BitVec.and_zero, BitVec.sub_zero, rem]
  · rw [sign_of_difference (by rw [shifted_rem room]; exact near), shifted_rem room]
    split <;> rfl

end Bit

/-! ## The loop -/

section Loop

variable {d q r : Udwords} {carry : SuInt} {N k : Nat}

theorem top_bit {q c b x : Nat} (value : 2 * q + c = b * 2 ^ 64 + x) (room : x < 2 ^ 64) (bit : c < 2) :
    q / 2 ^ 63 = b := by
  omega

/-- The loop with `k` bits of `N` still to bring down: they stand in front in `q`, the quotient of the others behind them. -/
structure Dividing (N : Nat) (d : Udwords) (k : Nat) (q r : Udwords) (carry : SuInt) : Prop where
  quot : 2 * q.all.toNat + carry.toNat = N % 2 ^ k * 2 ^ (65 - k) + N / 2 ^ k / d.all.toNat
  rem : r.all.toNat = N / 2 ^ k % d.all.toNat
  bit : carry.toNat < 2

/-- The next bit of the dividend is the first of `q`. -/
theorem Dividing.next (dividing : Dividing N d (k + 1) q r carry) (bound : N < 2 ^ 64) (bits : k < 63) :
    2 * q.all.toNat + carry.toNat = N / 2 ^ k % 2 * 2 ^ 64 + (N % 2 ^ k * 2 ^ (64 - k) + N / 2 ^ (k + 1) / d.all.toNat) ∧
      N % 2 ^ k * 2 ^ (64 - k) + N / 2 ^ (k + 1) / d.all.toNat < 2 ^ 64 := by
  have whole : 2 ^ k * 2 ^ (64 - k) = 2 ^ 64 := by
    rw [← Nat.pow_add]
    congr 1
    omega
  constructor
  · have width : 65 - (k + 1) = 64 - k := by omega
    rw [dividing.quot, width, Nat.pow_succ, Nat.mod_mul, ← whole]
    ring
  · have quot : N / 2 ^ (k + 1) / d.all.toNat < 2 ^ (64 - k) := by
      apply Nat.lt_of_le_of_lt (Nat.div_le_self _ _)
      rw [Nat.div_lt_iff_lt_mul (Nat.two_pow_pos _), ← Nat.pow_add, show 64 - k + (k + 1) = 65 by omega]
      omega
    have rest : (N % 2 ^ k + 1) * 2 ^ (64 - k) ≤ 2 ^ 64 := by
      rw [← whole]
      exact Nat.mul_le_mul_right _ (Nat.mod_lt _ (Nat.two_pow_pos k))
    rw [Nat.succ_mul] at rest
    omega

theorem Dividing.step (dividing : Dividing N d (k + 1) q r carry) (bound : N < 2 ^ 64) (bits : k < 63)
    (positive : 0 < d.all.toNat) (near : d.all.toNat ≤ 2 ^ 63 ∨ k = 0 ∧ 2 ^ 63 ≤ N) :
    ∃ q' r' carry', divStep d q r carry = (q', r', carry') ∧ Dividing N d k q' r' carry' := by
  obtain ⟨value, room⟩ := dividing.next bound bits
  have first : q.all.toNat / 2 ^ 63 = N / 2 ^ k % 2 := top_bit value room dividing.bit
  have down : N / 2 ^ k = 2 * (N / 2 ^ (k + 1)) + N / 2 ^ k % 2 := by
    rw [Nat.pow_succ, ← Nat.div_div_eq_div_mul]
    omega
  have below := Nat.mod_lt (N / 2 ^ (k + 1)) positive
  obtain ⟨quotient, remainder⟩ := div_mod_bit (T := N / 2 ^ (k + 1)) (b := N / 2 ^ k % 2) positive (by omega)
  rw [← down] at quotient remainder
  have fits : 2 * r.all.toNat + q.all.toNat / 2 ^ 63 < 2 ^ 64 ∧
      Near d.all.toNat (2 * r.all.toNat + q.all.toNat / 2 ^ 63) := by
    rw [first, dividing.rem]
    unfold Near
    obtain small | ⟨rfl, large⟩ := near
    · omega
    · rcases Nat.lt_or_ge d.all.toNat (2 ^ 63) with small | big
      · omega
      · rw [Nat.mod_eq_of_lt (b := d.all.toNat) (by omega)]
        omega
  obtain ⟨q', r', carry', step, quot', rem', carry_value⟩ := divStep_spec dividing.bit fits.1 fits.2
  rw [first, dividing.rem] at rem' carry_value
  refine ⟨q', r', carry', step, ?_, by rw [rem', remainder], by rw [carry_value]; split <;> omega⟩
  have shifted : q'.all.toNat = N % 2 ^ k * 2 ^ (64 - k) + N / 2 ^ (k + 1) / d.all.toNat := by
    rw [quot', value, Nat.add_comm, Nat.add_mul_mod_self_right, Nat.mod_eq_of_lt room]
  rw [shifted, carry_value, quotient, show 65 - k = 64 - k + 1 by omega, Nat.pow_succ]
  ring

theorem Dividing.run (dividing : Dividing N d k q r carry) (bound : N < 2 ^ 64) (bits : k ≤ 63)
    (positive : 0 < d.all.toNat) (near : d.all.toNat ≤ 2 ^ 63 ∨ k = 1 ∧ 2 ^ 63 ≤ N) :
    ∃ q' r' carry', divLoop d k q r carry = (q', r', carry') ∧ Dividing N d 0 q' r' carry' := by
  induction k generalizing q r carry with
  | zero => exact ⟨q, r, carry, rfl, dividing⟩
  | succ k ih =>
    obtain ⟨q', r', carry', step, dividing'⟩ := dividing.step bound (by omega) positive (by omega)
    obtain small | last := near
    · obtain ⟨q'', r'', carry'', run, done⟩ := ih dividing' (by omega) (.inl small)
      exact ⟨q'', r'', carry'', by rw [divLoop, step]; exact run, done⟩
    · obtain rfl : k = 0 := by omega
      exact ⟨q', r', carry', by rw [divLoop, step]; rfl, dividing'⟩

end Loop

end OsLab.CompilerRt
