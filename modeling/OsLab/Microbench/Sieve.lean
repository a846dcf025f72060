import OsLab.Lib.Trap
import Mathlib.NumberTheory.PrimeCounting

/-!
# The sieve benchmark (`apps/microbench/src/sieve/sieve.c`)

Every access to `primes` is checked, and so is the arithmetic of `int`. A loop has a bound on its turns, which it never
reaches.
-/

namespace OsLab.Microbench.Sieve

open OsLab.Trap (INT_MAX nonneg nonneg_ok nonneg_overflow)

/-- `get` -/
def get (primes : List (BitVec 32)) (n : Nat) : Except Trap Bool := do
  let w ← Trap.load primes (n >>> 5 : Nat)
  .ok ((w >>> (n &&& 31)) &&& 1 ≠ 0)

/-- `clear` -/
def clear (primes : List (BitVec 32)) (n : Nat) : Except Trap (List (BitVec 32)) := do
  let w ← Trap.load primes (n >>> 5 : Nat)
  Trap.put primes (n >>> 5 : Nat) (w &&& ~~~((1 : BitVec 32) <<< (n &&& 31)))

/-- The loop of `bench_sieve_prepare` from `i` on -/
def fill (N : Nat) : Nat → Nat → List (BitVec 32) → Except Trap (List (BitVec 32))
  | 0, _, _ => .error .diverge
  | turns + 1, i, primes =>
    if i ≤ N / 32 then do
      let primes ← Trap.put primes i 0xffffffff
      fill N turns (i + 1) primes
    else .ok primes

/-- `bench_sieve_prepare`, where `bench_alloc` gives zeroed words -/
def benchSievePrepare (N : Nat) : Except Trap (List (BitVec 32)) :=
  fill N (N + 2) 0 (List.replicate ((N / 8 + 128) / 4) 0)

/-- The first loop of `bench_sieve_run`, and whether it returns -/
def unset (N : Nat) (primes : List (BitVec 32)) : Nat → Nat → Except Trap Bool
  | 0, _ => .error .diverge
  | turns + 1, i =>
    if i ≤ N then do
      if ← get primes i then unset N primes turns (i + 1) else .ok true
    else .ok false

/-- The loop over the multiples of `i`, from `j` on -/
def clearFrom (N i : Nat) : Nat → Nat → List (BitVec 32) → Except Trap (List (BitVec 32))
  | 0, _, _ => .error .diverge
  | turns + 1, j, primes =>
    if j ≤ N then do
      let primes ← clear primes j
      let j ← nonneg (j + i)
      clearFrom N i turns j primes
    else .ok primes

/-- The second loop of `bench_sieve_run`, from `i` on -/
def sieve (N : Nat) : Nat → Nat → List (BitVec 32) → Except Trap (List (BitVec 32))
  | 0, _, _ => .error .diverge
  | turns + 1, i, primes => do
    let square ← nonneg (i * i)
    if square ≤ N then
      if ← get primes i then do
        let j ← nonneg (i + i)
        let primes ← clearFrom N i (N + 1) j primes
        sieve N turns (i + 1) primes
      else sieve N turns (i + 1) primes
    else .ok primes

/-- The last loop of `bench_sieve_run`, from `i` on -/
def count (N : Nat) (primes : List (BitVec 32)) : Nat → Nat → Nat → Except Trap Nat
  | 0, _, _ => .error .diverge
  | turns + 1, i, ans =>
    if i ≤ N then do
      if ← get primes i then do
        let ans ← nonneg (ans + 1)
        count N primes turns (i + 1) ans
      else count N primes turns (i + 1) ans
    else .ok ans

/-- `bench_sieve_run`, which leaves its result in `ans` -/
def benchSieveRun (N : Nat) (primes : List (BitVec 32)) (ans : Nat) : Except Trap Nat := do
  if ← unset N primes (N + 1) 1 then .ok ans
  else do
    let primes ← sieve N (N + 2) 2 primes
    count N primes (N + 1) 2 0

/-! ## Bits -/

section Bits

variable {primes primes' : List (BitVec 32)} {N n m i j turns : Nat}

/-- The bit of a number. -/
def bit (primes : List (BitVec 32)) (n : Nat) : Bool :=
  match primes[n / 32]? with
  | some w => w.getLsbD (n % 32)
  | none => false

/-- There is a bit for every number up to `N`. -/
def Covers (N : Nat) (primes : List (BitVec 32)) : Prop := N / 32 < primes.length

theorem word_index (n : Nat) : n >>> 5 = n / 32 := by rw [Nat.shiftRight_eq_div_pow]

theorem bit_index (n : Nat) : n &&& 31 = n % 32 := Nat.and_two_pow_sub_one_eq_mod n 5

theorem low_bit (w : BitVec 32) (k : Nat) : decide ((w >>> k) &&& 1 ≠ 0) = w.getLsbD k := by
  have value : ((w >>> k) &&& 1).toNat = w.toNat / 2 ^ k % 2 := by
    rw [BitVec.toNat_and, BitVec.toNat_ushiftRight, Nat.shiftRight_eq_div_pow]
    exact Nat.and_two_pow_sub_one_eq_mod _ 1
  have zero : (w >>> k) &&& 1 = 0 ↔ w.toNat / 2 ^ k % 2 = 0 := by
    rw [← value]
    exact BitVec.toNat_eq
  rw [BitVec.getLsbD, Nat.testBit_eq_decide_div_mod_eq]
  apply decide_eq_decide.mpr
  rw [ne_eq, zero]
  omega

theorem get_bit (covers : Covers N primes) (small : n ≤ N) : get primes n = .ok (bit primes n) := by
  have inside : n / 32 < primes.length := Nat.lt_of_le_of_lt (Nat.div_le_div_right small) covers
  unfold get bit
  rw [word_index, bit_index, Trap.load_natCast, List.getElem?_eq_getElem inside, Trap.check_some, ok_bind]
  simp only [low_bit]

/-- `clear` clears one bit. -/
theorem clear_bit (covers : Covers N primes) (small : n ≤ N) :
    ∃ primes', clear primes n = .ok primes' ∧ Covers N primes' ∧
      ∀ m, bit primes' m = true ↔ bit primes m = true ∧ m ≠ n := by
  have inside : n / 32 < primes.length := Nat.lt_of_le_of_lt (Nat.div_le_div_right small) covers
  refine ⟨primes.set (n / 32) (primes[n / 32] &&& ~~~((1 : BitVec 32) <<< (n % 32))), ?_, ?_, fun m => ?_⟩
  · unfold clear
    rw [word_index, bit_index, Trap.load_natCast, List.getElem?_eq_getElem inside, Trap.check_some, ok_bind, Trap.put_natCast inside]
  · unfold Covers
    rw [List.length_set]
    exact covers
  · unfold bit
    rcases Decidable.em (n / 32 = m / 32) with same | other
    · rw [← same, List.getElem?_set_self inside, List.getElem?_eq_getElem inside]
      have place : m % 32 < 32 := Nat.mod_lt _ (by decide)
      have single : (1#32 <<< (n % 32)).getLsbD (m % 32) = decide (m % 32 = n % 32) := by
        rw [← BitVec.twoPow_eq, BitVec.getLsbD_twoPow]
        simp only [Nat.mod_lt, Nat.zero_lt_succ, decide_true, Bool.true_and, eq_comm]
      have one : (1 : BitVec 32) = 1#32 := rfl
      simp only [BitVec.getLsbD_and, BitVec.getLsbD_not, place, decide_true, Bool.true_and, one, single, Bool.and_eq_true,
        Bool.not_eq_true', decide_eq_false_iff_not]
      refine and_congr_right fun _ => ?_
      omega
    · rw [List.getElem?_set_ne other]
      have different : m ≠ n := fun same => other (congrArg (· / 32) same.symm)
      simp only [different, ne_eq, not_false_eq_true, and_true]

end Bits

/-! ## The loops -/

section Loops

variable {primes : List (BitVec 32)} {N i j turns : Nat}

theorem multiple_cases {m : Nat} : m ≠ j ∧ ¬(j + i ≤ m ∧ i ∣ m - (j + i)) ↔ ¬(j ≤ m ∧ i ∣ m - j) := by
  constructor
  · rintro ⟨other, none⟩ ⟨least, multiple⟩
    obtain ⟨t, distance⟩ := multiple
    cases t with
    | zero => omega
    | succ t =>
      rw [Nat.mul_succ] at distance
      exact none ⟨by omega, ⟨t, by omega⟩⟩
  · intro none
    refine ⟨?_, ?_⟩
    · rintro rfl
      exact none ⟨Nat.le_refl _, by rw [Nat.sub_self]; exact Nat.dvd_zero i⟩
    · rintro ⟨least, t, distance⟩
      refine none ⟨by omega, ⟨t + 1, ?_⟩⟩
      rw [Nat.mul_succ]
      omega

/-- The multiples from `j` on are cleared, unless the one behind `N` is not an `int`. -/
theorem clearFrom_spec (positive : 0 < i) (enough : N + 1 ≤ j + turns) (covers : Covers N primes) :
    clearFrom N i (turns + 1) j primes = .error .overflow ∧ INT_MAX < N + i ∨
      ∃ primes', clearFrom N i (turns + 1) j primes = .ok primes' ∧ Covers N primes' ∧
        ∀ m, m ≤ N → (bit primes' m = true ↔ bit primes m = true ∧ ¬(j ≤ m ∧ i ∣ m - j)) := by
  induction turns generalizing j primes with
  | zero =>
    refine .inr ⟨primes, ?_, covers, fun m small => ?_⟩
    · rw [clearFrom, if_neg (by omega)]
    · have none : ¬(j ≤ m ∧ i ∣ m - j) := fun both => by omega
      simp only [none, not_false_eq_true, and_true]
  | succ turns ih =>
    rw [clearFrom]
    split
    · rename_i small
      obtain ⟨primes₁, cleared, covers₁, bits₁⟩ := clear_bit covers small
      rw [cleared, ok_bind]
      rcases Nat.lt_or_ge INT_MAX (j + i) with large | fits
      · rw [nonneg_overflow large]
        exact .inl ⟨rfl, by omega⟩
      · rw [nonneg_ok fits, ok_bind]
        rcases @ih primes₁ (j + i) (by omega) covers₁ with failed | ⟨primes', run, covers', bits'⟩
        · exact .inl failed
        · refine .inr ⟨primes', run, covers', fun m small => ?_⟩
          rw [bits' m small, bits₁ m, and_assoc, multiple_cases]
    · rename_i large
      refine .inr ⟨primes, rfl, covers, fun m small => ?_⟩
      have none : ¬(j ≤ m ∧ i ∣ m - j) := fun both => by omega
      simp only [none, not_false_eq_true, and_true]

/-- The numbers that no number less than `i` divides are left. -/
def Sieved (N i : Nat) (primes : List (BitVec 32)) : Prop :=
  ∀ m, 2 ≤ m → m ≤ N → (bit primes m = true ↔ ∀ d, 2 ≤ d → d < i → d ∣ m → d = m)

/-- One more number to divide by. -/
theorem divisors_succ {m : Nat} (two : 2 ≤ i) : (∀ d, 2 ≤ d → d < i + 1 → d ∣ m → d = m) ↔
    (∀ d, 2 ≤ d → d < i → d ∣ m → d = m) ∧ (i ∣ m → i = m) := by
  constructor
  · intro all
    exact ⟨fun d least less => all d least (Nat.lt_succ_of_lt less), all i two (Nat.lt_succ_self i)⟩
  · rintro ⟨all, last⟩ d least less
    rcases Nat.lt_succ_iff_lt_or_eq.mp less with before | rfl
    · exact all d least before
    · exact last

theorem Sieved.cleared {primes' : List (BitVec 32)} (sieved : Sieved N i primes) (two : 2 ≤ i)
    (bits : ∀ m, m ≤ N → (bit primes' m = true ↔ bit primes m = true ∧ ¬(i + i ≤ m ∧ i ∣ m - (i + i)))) :
    Sieved N (i + 1) primes' := by
  intro m least small
  have multiples : ¬(i + i ≤ m ∧ i ∣ m - (i + i)) ↔ (i ∣ m → i = m) := by
    constructor
    · intro none multiple
      by_contra other
      obtain ⟨t, rfl⟩ := multiple
      have more : 2 ≤ t := by
        match t with
        | 0 => omega
        | 1 => omega
        | t + 2 => omega
      refine none ⟨?_, t - 2, ?_⟩
      · calc i + i = i * 2 := (Nat.mul_two i).symm
          _ ≤ i * t := Nat.mul_le_mul_left i more
      · rw [Nat.mul_sub, Nat.mul_two]
    · rintro all ⟨large, multiple⟩
      have whole : i ∣ m := by
        have sum := Nat.dvd_add multiple (Nat.dvd_add (Nat.dvd_refl i) (Nat.dvd_refl i))
        rwa [Nat.sub_add_cancel large] at sum
      have same := all whole
      omega
  rw [bits m small, sieved m least small, divisors_succ two, multiples]

/-- What a number that is cleared divides is cleared already. -/
theorem Sieved.skipped (sieved : Sieved N i primes) (two : 2 ≤ i) (small : i ≤ N) (composite : bit primes i = false) :
    Sieved N (i + 1) primes := by
  intro m least most
  rw [sieved m least most, divisors_succ two]
  refine ⟨fun all => ⟨all, fun multiple => ?_⟩, And.left⟩
  by_contra other
  have divisor : ¬∀ d, 2 ≤ d → d < i → d ∣ i → d = i := by
    rw [← sieved i two small, composite]
    exact Bool.false_ne_true
  push Not at divisor
  obtain ⟨d, d_least, d_less, divides, -⟩ := divisor
  have same := all d d_least d_less (Nat.dvd_trans divides multiple)
  have large := Nat.le_of_dvd (by omega) multiple
  omega

/-- At the end the primes are left. -/
theorem Sieved.prime (sieved : Sieved N i primes) (last : N < i * i) {m : Nat} (least : 2 ≤ m) (small : m ≤ N) :
    bit primes m = true ↔ Nat.Prime m := by
  rw [sieved m least small]
  constructor
  · intro all
    by_contra composite
    have square := Nat.minFac_sq_le_self (by omega) composite
    have factor := Nat.minFac_prime (n := m) (by omega)
    have less : m.minFac < i := by
      by_contra large
      have squares := Nat.mul_le_mul (Nat.not_lt.mp large) (Nat.not_lt.mp large)
      rw [Nat.pow_two] at square
      omega
    exact composite (all m.minFac factor.two_le less (Nat.minFac_dvd m) ▸ factor)
  · intro prime d d_least _ divides
    exact (prime.eq_one_or_self_of_dvd d divides).resolve_left (by omega)

/-- The square of every number up to this one is an `int`. -/
def ROOT : Nat := 46340

theorem square_small (small : i ≤ ROOT) : i * i ≤ INT_MAX := by
  calc i * i ≤ ROOT * ROOT := Nat.mul_le_mul small small
    _ ≤ INT_MAX := by decide

/-- The loop ends with the primes, where the squares are numbers of `int`. -/
theorem sieve_spec (fits : N < ROOT * ROOT) (two : 2 ≤ i) (small : i ≤ ROOT) (enough : N + 1 ≤ i + turns)
    (covers : Covers N primes) (sieved : Sieved N i primes) :
    ∃ primes', sieve N (turns + 1) i primes = .ok primes' ∧ Covers N primes' ∧
      ∀ m, 2 ≤ m → m ≤ N → (bit primes' m = true ↔ Nat.Prime m) := by
  induction turns generalizing i primes with
  | zero =>
    have last : N < i * i := by
      have least := Nat.le_mul_self i
      omega
    refine ⟨primes, ?_, covers, fun m least most => sieved.prime last least most⟩
    rw [sieve, nonneg_ok (square_small small), ok_bind, if_neg (Nat.not_le.mpr last)]
  | succ turns ih =>
    rw [sieve, nonneg_ok (square_small small), ok_bind]
    split
    · rename_i square
      have inside : i ≤ N := Nat.le_trans (Nat.le_mul_self i) square
      have next : i + 1 ≤ ROOT := by
        by_contra large
        have squares := Nat.mul_le_mul (Nat.not_lt.mp large) (Nat.not_lt.mp large)
        omega
      have range : ROOT * ROOT + ROOT ≤ INT_MAX := by decide
      rw [get_bit covers inside, ok_bind]
      cases composite : bit primes i with
      | true =>
        simp only [if_true]
        have double : i + i ≤ INT_MAX := by omega
        rw [nonneg_ok double, ok_bind]
        rcases @clearFrom_spec primes N i (i + i) N (by omega) (by omega) covers with ⟨-, overflow⟩ |
          ⟨primes₁, run, covers₁, bits⟩
        · omega
        · rw [run, ok_bind]
          exact ih (by omega) next (by omega) covers₁ (sieved.cleared two bits)
      | false =>
        simp only [Bool.false_eq_true, if_false]
        exact ih (by omega) next (by omega) covers (sieved.skipped two inside composite)
    · rename_i last
      exact ⟨primes, rfl, covers, fun m least most => sieved.prime (Nat.not_le.mp last) least most⟩

/-- Where the squares reach `INT_MAX` before they reach `N`, the loop leaves the numbers of `int`. -/
theorem sieve_overflow (large : ROOT * ROOT ≤ N) (two : 2 ≤ i) (small : i ≤ ROOT + 1) (enough : ROOT + 1 ≤ i + turns)
    (covers : Covers N primes) : sieve N (turns + 1) i primes = .error .overflow := by
  induction turns generalizing i primes with
  | zero =>
    obtain rfl : i = ROOT + 1 := by omega
    rw [sieve, nonneg_overflow (by decide)]
    rfl
  | succ turns ih =>
    rcases Nat.lt_or_ge ROOT i with last | inside
    · obtain rfl : i = ROOT + 1 := by omega
      rw [sieve, nonneg_overflow (by decide)]
      rfl
    · have square : i * i ≤ N := Nat.le_trans (Nat.mul_le_mul inside inside) large
      have below : i ≤ N := Nat.le_trans (Nat.le_mul_self i) square
      have double : i + i ≤ INT_MAX := by
        have range : ROOT + ROOT ≤ INT_MAX := by decide
        omega
      rw [sieve, nonneg_ok (square_small inside), ok_bind, if_pos square, get_bit covers below, ok_bind]
      cases bit primes i with
      | true =>
        simp only [if_true]
        rw [nonneg_ok double, ok_bind]
        rcases @clearFrom_spec primes N i (i + i) N (by omega) (by omega) covers with ⟨failed, -⟩ | ⟨primes₁, run, covers₁, -⟩
        · rw [failed]
          rfl
        · rw [run, ok_bind]
          exact ih (by omega) (by omega) (by omega) covers₁
      | false =>
        simp only [Bool.false_eq_true, if_false]
        exact ih (by omega) (by omega) (by omega) covers

theorem unset_spec (covers : Covers N primes) (all : ∀ m, m ≤ N → bit primes m = true) (enough : N + 1 ≤ i + turns) :
    unset N primes (turns + 1) i = .ok false := by
  induction turns generalizing i with
  | zero => rw [unset, if_neg (by omega)]
  | succ turns ih =>
    rw [unset]
    split
    · rename_i small
      rw [get_bit covers small, ok_bind, all i small]
      exact ih (by omega)
    · rfl

theorem count_spec (covers : Covers N primes) (small : N < INT_MAX)
    (bits : ∀ m, 2 ≤ m → m ≤ N → (bit primes m = true ↔ Nat.Prime m)) (two : 2 ≤ i) (enough : N + 1 ≤ i + turns) :
    count N primes (turns + 1) i (Nat.count Nat.Prime i) = .ok (Nat.count Nat.Prime (max i (N + 1))) := by
  induction turns generalizing i with
  | zero => rw [count, if_neg (by omega), Nat.max_eq_left (by omega)]
  | succ turns ih =>
    rw [count]
    split
    · rename_i inside
      have next := @ih (i + 1) (by omega) (by omega)
      rw [Nat.count_succ, show max (i + 1) (N + 1) = max i (N + 1) by omega] at next
      rw [get_bit covers inside, ok_bind]
      cases prime : bit primes i with
      | true =>
        have bound := Nat.count_le (p := Nat.Prime) (n := i)
        rw [if_pos ((bits i two inside).mp prime)] at next
        simp only [if_true]
        rw [nonneg_ok (by omega), ok_bind]
        exact next
      | false =>
        have composite : ¬Nat.Prime i := fun p => by
          rw [(bits i two inside).mpr p] at prime
          cases prime
        rw [if_neg composite] at next
        simp only [Bool.false_eq_true, if_false]
        exact next
    · rename_i outside
      rw [Nat.max_eq_left (by omega)]

theorem fill_spec (covers : Covers N primes) (enough : N / 32 + 1 ≤ i + turns)
    (before : ∀ m, m ≤ N → m / 32 < i → bit primes m = true) :
    ∃ primes', fill N (turns + 1) i primes = .ok primes' ∧ Covers N primes' ∧ ∀ m, m ≤ N → bit primes' m = true := by
  induction turns generalizing i primes with
  | zero =>
    refine ⟨primes, ?_, covers, fun m small => before m small (by omega)⟩
    rw [fill, if_neg (by omega)]
  | succ turns ih =>
    rw [fill]
    split
    · rename_i inside
      have place : i < primes.length := Nat.lt_of_le_of_lt inside covers
      rw [Trap.put_natCast place, ok_bind]
      refine ih ?_ (by omega) fun m small less => ?_
      · unfold Covers
        rw [List.length_set]
        exact covers
      · unfold bit
        rcases Decidable.em (i = m / 32) with here | other
        · rw [← here, List.getElem?_set_self place]
          have ones : (0xffffffff : BitVec 32) = BitVec.allOnes 32 := rfl
          rw [ones]
          simp only [BitVec.getLsbD_allOnes, decide_eq_true_eq]
          omega
        · rw [List.getElem?_set_ne other]
          exact before m small (by omega)
    · rename_i outside
      exact ⟨primes, rfl, covers, fun m small => before m small (by omega)⟩

end Loops

/-- The benchmark counts the primes up to `N`, unless a square on the way to `N` is not an `int`. -/
theorem sieve_counts {N : Nat} (size : N ≤ INT_MAX) (ans : Nat) :
    (benchSievePrepare N >>= fun primes => benchSieveRun N primes ans) =
      if N < ROOT * ROOT then .ok (Nat.primeCounting N) else .error .overflow := by
  have words : Covers N (List.replicate ((N / 8 + 128) / 4) (0 : BitVec 32)) := by
    unfold Covers
    rw [List.length_replicate]
    omega
  obtain ⟨primes, filled, covers, all⟩ := @fill_spec _ N 0 (N + 1) words (by omega) fun m _ less => by omega
  have start : Sieved N 2 primes := fun m _ small =>
    ⟨fun _ d least less => by omega, fun _ => all m small⟩
  have prepared : benchSievePrepare N = .ok primes := filled
  unfold benchSieveRun
  rw [prepared, ok_bind, unset_spec covers all (by omega), ok_bind]
  simp only [Bool.false_eq_true, if_false]
  split
  · rename_i fits
    obtain ⟨primes', run, covers', bits⟩ := @sieve_spec primes N 2 (N + 1) fits (Nat.le_refl 2) (by decide) (by omega) covers start
    have range : ROOT * ROOT ≤ INT_MAX := by decide
    have none : Nat.count Nat.Prime 2 = 0 := by decide
    have counted := @count_spec primes' N 2 N covers' (by omega) bits (Nat.le_refl 2) (by omega)
    rw [none] at counted
    rw [run, ok_bind, counted, Nat.primeCounting, Nat.primeCounting']
    rcases Nat.eq_zero_or_pos N with rfl | positive
    · decide
    · rw [Nat.max_eq_right (by omega)]
  · rename_i large
    rw [@sieve_overflow primes N 2 (N + 1) (Nat.not_lt.mp large) (Nat.le_refl 2) (by decide) (by
      have range : ROOT ≤ ROOT * ROOT := by decide
      omega) covers]
    rfl

/-- The primes up to 10. -/
theorem sieve_counts_ten : (benchSievePrepare 10 >>= fun primes => benchSieveRun 10 primes 0) = .ok 4 :=
  (sieve_counts (by decide) 0).trans ((if_pos (by decide)).trans (congrArg Except.ok (by decide)))

end OsLab.Microbench.Sieve
