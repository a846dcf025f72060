import Mathlib.Tactic.Ring

/-!
# Decimal numerals

Printing a natural number in decimal and reading it back, over ASCII bytes.
-/

namespace OsLab.Decimal

/-- The characters `0` to `9`. -/
def isDigit (c : UInt8) : Bool := 48 ≤ c.toNat ∧ c.toNat ≤ 57

/-- The character of a digit. -/
def digitChar (d : Nat) : UInt8 := UInt8.ofNat (48 + d)

/-- The last digits of a number, least significant first. -/
def digitsFrom : Nat → Nat → List UInt8
  | 0, _ => []
  | fuel + 1, n => if n < 10 then [digitChar n] else digitChar (n % 10) :: digitsFrom fuel (n / 10)

/-- The decimal numeral of a number. -/
def decimal (n : Nat) : List UInt8 := (digitsFrom (n + 1) n).reverse

/-- What `%d` prints. -/
def printInt (n : Int) : List UInt8 := if n < 0 then 45 :: decimal n.natAbs else decimal n.natAbs

/-- The value of a string of digits. -/
def digitsValue (cs : List UInt8) : Nat := cs.foldl (fun acc c => 10 * acc + (c.toNat - 48)) 0

theorem toNat_digitChar {d : Nat} (h : d < 10) : (digitChar d).toNat = 48 + d := by
  unfold digitChar
  rw [UInt8.toNat_ofNat']
  omega

theorem isDigit_digitChar {d : Nat} (h : d < 10) : isDigit (digitChar d) = true := by
  unfold isDigit
  rw [toNat_digitChar h, decide_eq_true_iff]
  omega

theorem isDigit_digitsFrom (fuel n : Nat) : ∀ c ∈ digitsFrom fuel n, isDigit c = true := by
  induction fuel generalizing n with
  | zero => exact fun c member => absurd member List.not_mem_nil
  | succ fuel ih =>
    intro c member
    rw [digitsFrom] at member
    by_cases small : n < 10
    · rw [if_pos small] at member
      rw [List.mem_singleton.1 member]
      exact isDigit_digitChar small
    · rw [if_neg small] at member
      rcases List.mem_cons.1 member with rfl | member
      · exact isDigit_digitChar (Nat.mod_lt _ (by decide))
      · exact ih _ c member

theorem isDigit_decimal {n : Nat} : ∀ c ∈ decimal n, isDigit c = true :=
  fun c member => isDigit_digitsFrom _ _ c (List.mem_reverse.1 member)

theorem decimal_ne_nil (n : Nat) : decimal n ≠ [] := by
  intro empty
  have reversed : digitsFrom (n + 1) n = [] := List.reverse_eq_nil_iff.1 empty
  rw [digitsFrom] at reversed
  by_cases small : n < 10
  · rw [if_pos small] at reversed
    cases reversed
  · rw [if_neg small] at reversed
    cases reversed

/-- Reading back what was printed. -/
theorem digitsValue_decimal (n : Nat) : digitsValue (decimal n) = n := by
  have loop : ∀ fuel n, n < fuel →
      (digitsFrom fuel n).foldr (fun c acc => 10 * acc + (c.toNat - 48)) 0 = n := by
    intro fuel
    induction fuel with
    | zero => exact fun n wrong => absurd wrong (Nat.not_lt_zero n)
    | succ fuel ih =>
      intro n enough
      rw [digitsFrom]
      by_cases small : n < 10
      · rw [if_pos small, List.foldr_cons, List.foldr_nil, toNat_digitChar small]
        omega
      · rw [if_neg small, List.foldr_cons, ih (n / 10) (by omega),
          toNat_digitChar (Nat.mod_lt _ (by decide))]
        omega
  unfold digitsValue decimal
  rw [List.foldl_reverse]
  exact loop (n + 1) n (Nat.lt_succ_self n)

/-- A digit more makes no number smaller. -/
theorem foldl_digits_le (ds : List UInt8) (acc : Nat) :
    acc ≤ ds.foldl (fun acc c => 10 * acc + (c.toNat - 48)) acc := by
  induction ds generalizing acc with
  | nil => exact Nat.le_refl _
  | cons d ds ih =>
    refine le_trans ?_ (ih _)
    dsimp only
    omega

/-- A numeral of a number below `10 ^ k` has at most `k` digits, and at least one. -/
theorem length_decimal_le {n k : Nat} (positive : 0 < k) (small : n < 10 ^ k) : (decimal n).length ≤ k := by
  have loop : ∀ k fuel n, 0 < k → n < 10 ^ k → (digitsFrom fuel n).length ≤ k := by
    intro k
    induction k with
    | zero => exact fun _ _ wrong => absurd wrong (Nat.lt_irrefl 0)
    | succ k ih =>
      intro fuel n _ small
      cases fuel with
      | zero => exact Nat.zero_le _
      | succ fuel =>
        rw [digitsFrom]
        by_cases last : n < 10
        · rw [if_pos last]
          exact Nat.succ_le_succ (Nat.zero_le _)
        · rw [if_neg last, List.length_cons]
          apply Nat.succ_le_succ
          have positive : 0 < k := by
            rcases Nat.eq_zero_or_pos k with rfl | positive
            · exact absurd small last
            · exact positive
          apply ih fuel (n / 10) positive
          rw [Nat.pow_succ] at small
          omega
  unfold decimal
  rw [List.length_reverse]
  exact loop k _ n positive small

end OsLab.Decimal
