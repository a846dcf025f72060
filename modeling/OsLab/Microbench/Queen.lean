import OsLab.Lib.Trap
import Mathlib.Algebra.BigOperators.Fin
import Mathlib.Data.Fintype.BigOperators
import Mathlib.Data.Nat.Factorization.Basic

/-!
# The queens benchmark (`apps/microbench/src/queen/queen.c`)

The columns and the diagonals that the queens placed so far attack in the next row are masks of bits. `dfs` goes through the
free columns from the last bit on, and counts the ways to place the queens of the other rows.
-/

namespace OsLab.Microbench.Queen

/-- `unsigned int` -/
abbrev Mask := BitVec 32

/-- The loop of `dfs`, which calls `place` for each bit of `pos` -/
def places (place : Mask → Mask → Mask → Except Trap Mask) (row ld rd : Mask) : Nat → Mask → Mask → Except Trap Mask
  | 0, _, _ => .error .diverge
  | turns + 1, pos, ans =>
    if pos ≠ 0 then do
      let p := pos &&& (~~~pos + 1)
      let ways ← place (row ||| p) ((ld ||| p) <<< 1) ((rd ||| p) >>> 1)
      places place row ld rd turns (pos - p) (ans + ways)
    else .ok ans

/-- `dfs`, with a bound on its depth -/
def dfs (FULL : Mask) : Nat → Mask → Mask → Mask → Except Trap Mask
  | 0, _, _, _ => .error .diverge
  | depth + 1, row, ld, rd =>
    if row = FULL then .ok 1
    else places (dfs FULL depth) row ld rd 33 (FULL &&& ~~~(row ||| ld ||| rd)) 0

/-- `bench_queen_prepare` and `bench_queen_run`: `1 << size` is one of `int`. -/
def benchQueenRun (size : Nat) : Except Trap Mask :=
  if size < 31 then dfs (((1 : Mask) <<< size) - 1) (size + 1) 0 0 0 else .error .overflow

/-! ## The queens -/

/-- A queen in column `c` and one in column `d`, `rows` rows away, do not attack each other. -/
def Peace (rows c d : Nat) : Prop := c ≠ d ∧ c ≠ d + rows ∧ d ≠ c + rows

instance (rows c d : Nat) : Decidable (Peace rows c d) := inferInstanceAs (Decidable (_ ∧ _))

/-- One queen in each row, and none attacks another. -/
def Solution {n k : Nat} (f : Fin k → Fin n) : Prop := ∀ i j : Fin k, i < j → Peace (j - i) (f j) (f i)

instance {n k : Nat} (f : Fin k → Fin n) : Decidable (Solution f) := inferInstanceAs (Decidable (∀ _, _))

/-- The number of ways to place `n` queens. -/
def solutions (n : Nat) : Nat := (Finset.univ.filter fun f : Fin n → Fin n => Solution f).card

/-- A queen in column `c` is not attacked from the rows before, the last of which is the first of `cols`. -/
def Free (cols : List Nat) (c : Nat) : Prop := ∀ k d, cols[k]? = some d → Peace (k + 1) c d

/-- The queens of the next rows are not attacked from the rows before, or by each other. -/
def Extends {n k : Nat} (cols : List Nat) (f : Fin k → Fin n) : Prop :=
  Solution f ∧ ∀ (i : Fin k) (m d : Nat), cols[m]? = some d → Peace (i + m + 1) (f i) d

open Classical in
/-- The number of ways to place `k` more queens. -/
noncomputable def completions (n k : Nat) (cols : List Nat) : Nat :=
  (Finset.univ.filter fun f : Fin k → Fin n => Extends cols f).card

section Completions

variable {n k : Nat} {cols : List Nat}

theorem solutions_eq (n : Nat) : solutions n = completions n n [] := by
  classical
  unfold solutions completions
  congr 1
  apply Finset.filter_congr
  intro f _
  unfold Extends
  simp

theorem extends_cons {c : Fin n} {g : Fin k → Fin n} :
    Extends cols (Fin.cons c g : Fin (k + 1) → Fin n) ↔ Free cols c ∧ Extends (c :: cols) g := by
  constructor
  · rintro ⟨solution, free⟩
    refine ⟨fun m d here => ?_, fun i j less => ?_, fun i m d here => ?_⟩
    · have first := free 0 m d here
      rw [Fin.cons_zero, Fin.val_zero, Nat.zero_add] at first
      exact first
    · have later := solution i.succ j.succ (Fin.succ_lt_succ_iff.mpr less)
      rw [Fin.cons_succ, Fin.cons_succ, Fin.val_succ, Fin.val_succ, Nat.add_sub_add_right] at later
      exact later
    · cases m with
      | zero =>
        obtain rfl := Option.some.inj here
        have attack := solution 0 i.succ (Fin.succ_pos i)
        rw [Fin.cons_succ, Fin.cons_zero, Fin.val_succ, Fin.val_zero, Nat.sub_zero] at attack
        exact attack
      | succ m =>
        have attack := free i.succ m d here
        rw [Fin.cons_succ, Fin.val_succ, show (i : Nat) + 1 + m + 1 = i + (m + 1) + 1 by omega] at attack
        exact attack
  · rintro ⟨first, solution, free⟩
    refine ⟨fun i j less => ?_, fun i m d here => ?_⟩
    · cases j using Fin.cases with
      | zero => exact absurd less (Nat.not_lt_zero _)
      | succ j =>
        cases i using Fin.cases with
        | zero =>
          have attack := free j 0 c rfl
          rw [Fin.cons_succ, Fin.cons_zero, Fin.val_succ, Fin.val_zero, Nat.sub_zero]
          exact attack
        | succ i =>
          rw [Fin.cons_succ, Fin.cons_succ, Fin.val_succ, Fin.val_succ, Nat.add_sub_add_right]
          exact solution i j (Fin.succ_lt_succ_iff.mp less)
    · cases i using Fin.cases with
      | zero =>
        rw [Fin.cons_zero, Fin.val_zero, Nat.zero_add]
        exact first m d here
      | succ i =>
        have attack := free i (m + 1) d here
        rw [Fin.cons_succ, Fin.val_succ, show (i : Nat) + 1 + m + 1 = i + (m + 1) + 1 by omega]
        exact attack

theorem completions_zero : completions n 0 cols = 1 := by
  classical
  unfold completions
  rw [Finset.filter_true_of_mem fun f _ => ⟨fun i => i.elim0, fun i => i.elim0⟩, Finset.card_univ, Fintype.card_unique]

open Classical in
/-- The queen of the next row is in a column that is free, and each such column is the first of the rows before then. -/
theorem completions_succ :
    completions n (k + 1) cols = ∑ c : Fin n, if Free cols c then completions n k (c :: cols) else 0 := by
  unfold completions
  rw [Finset.card_filter, ← Fintype.sum_equiv (Fin.consEquiv fun _ => Fin n) _ _ fun _ => rfl, Fintype.sum_prod_type]
  apply Finset.sum_congr rfl
  intro c _
  split
  · rename_i free
    rw [Finset.card_filter]
    apply Finset.sum_congr rfl
    intro g _
    have whole : Extends cols ((Fin.consEquiv fun _ => Fin n) (c, g)) ↔ Extends (c :: cols) g :=
      extends_cons.trans (and_iff_right free)
    simp only [whole]
  · rename_i attacked
    apply Finset.sum_eq_zero
    intro g _
    have whole : ¬Extends cols ((Fin.consEquiv fun _ => Fin n) (c, g)) := fun extends_ => attacked (extends_cons.mp extends_).1
    exact if_neg whole

end Completions

/-! ## Masks -/

section Masks

variable {x pos : Mask} {c j : Nat}

/-- The bits of a mask. -/
def bits (x : Mask) : Finset Nat := (Finset.range 32).filter fun c => x.getLsbD c = true

theorem mem_bits : c ∈ bits x ↔ x.getLsbD c = true := by
  unfold bits
  rw [Finset.mem_filter, Finset.mem_range]
  refine ⟨And.right, fun set => ⟨?_, set⟩⟩
  by_contra large
  rw [BitVec.getLsbD_of_ge x c (Nat.not_lt.mp large)] at set
  cases set

/-- A mask, from its last bit on. -/
theorem exists_last (some : pos ≠ 0) : ∃ c m, pos.toNat = 2 ^ (c + 1) * m + 2 ^ c := by
  have different : pos.toNat ≠ 0 := fun zero => some (BitVec.eq_of_toNat_eq zero)
  obtain ⟨c, m, odd, value⟩ := Nat.exists_eq_two_pow_mul_odd different
  obtain ⟨t, rfl⟩ := odd
  refine ⟨c, t, ?_⟩
  rw [value, Nat.pow_succ]
  ring

/-- What the expression for `p` is: the last bit of `pos`. -/
theorem last_bit (some : pos ≠ 0) : ∃ c, c < 32 ∧ pos.getLsbD c = true ∧ pos &&& (~~~pos + 1) = BitVec.twoPow 32 c ∧
    bits (pos - BitVec.twoPow 32 c) = (bits pos).erase c := by
  obtain ⟨c, m, value⟩ := exists_last some
  have bound := pos.isLt
  have positive : 0 < 2 ^ c := Nat.two_pow_pos c
  have power : 2 ^ (c + 1) = 2 * 2 ^ c := by rw [Nat.pow_succ, Nat.mul_comm]
  have small : c < 32 := by
    rw [← Nat.pow_lt_pow_iff_right (Nat.one_lt_two)]
    omega
  have bit : ∀ j, pos.getLsbD j = if j < c + 1 then decide (c = j) else m.testBit (j - (c + 1)) := by
    intro j
    rw [BitVec.getLsbD, value, Nat.testBit_two_pow_mul_add _ (by omega), Nat.testBit_two_pow]
  have one : (1 : Mask).toNat = 1 := rfl
  have before : (pos - 1).toNat = 2 ^ (c + 1) * m + (2 ^ c - 1) := by
    rw [BitVec.toNat_sub_of_le (BitVec.le_def.mpr (by omega)), one, value]
    omega
  have single : (BitVec.twoPow 32 c).toNat = 2 ^ c := by
    rw [BitVec.toNat_twoPow, Nat.mod_eq_of_lt (Nat.pow_lt_pow_right Nat.one_lt_two small)]
  have behind : (pos - BitVec.twoPow 32 c).toNat = 2 ^ (c + 1) * m := by
    rw [BitVec.toNat_sub_of_le (BitVec.le_def.mpr (by omega)), single, value]
    omega
  refine ⟨c, small, by rw [bit, if_pos (Nat.lt_succ_self c)]; exact decide_eq_true rfl, ?_, ?_⟩
  · apply BitVec.eq_of_getLsbD_eq
    intro j inside
    have complement : ~~~pos + 1 = ~~~(pos - 1) := (BitVec.not_sub_one_eq_not_add_one).symm
    rw [complement, BitVec.getLsbD_and, BitVec.getLsbD_not, bit, BitVec.getLsbD, before,
      Nat.testBit_two_pow_mul_add _ (by omega), Nat.testBit_two_pow_sub_one, BitVec.getLsbD_twoPow]
    simp only [small, inside, decide_true, Bool.true_and]
    rcases Nat.lt_trichotomy j c with less | rfl | more
    · simp [show j < c + 1 by omega, show c ≠ j by omega, less]
    · simp
    · simp [show ¬j < c + 1 by omega, show c ≠ j by omega]
  · ext j
    rw [Finset.mem_erase, mem_bits, mem_bits, bit, BitVec.getLsbD, behind]
    have whole := Nat.testBit_two_pow_mul_add m (Nat.two_pow_pos (c + 1)) j
    rw [Nat.add_zero, Nat.zero_testBit] at whole
    rw [whole]
    rcases Nat.lt_or_ge j (c + 1) with less | more
    · simp only [less, if_true, Bool.false_eq_true, false_iff, not_and, decide_eq_true_eq]
      exact fun other same => other same.symm
    · simp only [Nat.not_lt.mpr more, if_false]
      exact ⟨fun set => ⟨by omega, set⟩, And.right⟩

theorem bits_zero : bits 0 = ∅ := by
  ext c
  rw [mem_bits, BitVec.ofNat_eq_ofNat, BitVec.getLsbD_zero]
  simp

theorem card_bits_le (x : Mask) : (bits x).card ≤ 32 := by
  have bound := Finset.card_filter_le (Finset.range 32) fun c => x.getLsbD c = true
  rwa [Finset.card_range] at bound

/-- The loop adds up what the calls for the bits return. -/
theorem places_spec {place : Mask → Mask → Mask → Except Trap Mask} {row ld rd : Mask} {value : Nat → Nat} {turns a : Nat}
    (calls : ∀ c ∈ bits pos, place (row ||| BitVec.twoPow 32 c) ((ld ||| BitVec.twoPow 32 c) <<< 1)
      ((rd ||| BitVec.twoPow 32 c) >>> 1) = .ok (BitVec.ofNat 32 (value c)))
    (enough : (bits pos).card < turns) :
    places place row ld rd turns pos (BitVec.ofNat 32 a) = .ok (BitVec.ofNat 32 (a + ∑ c ∈ bits pos, value c)) := by
  induction turns generalizing pos a with
  | zero => exact absurd enough (Nat.not_lt_zero _)
  | succ turns ih =>
    rw [places]
    split
    · rename_i some
      obtain ⟨c, -, set, last, rest⟩ := last_bit some
      have member : c ∈ bits pos := mem_bits.mpr set
      simp only [last]
      rw [calls c member, ok_bind, ← BitVec.ofNat_add]
      have fewer : (bits (pos - BitVec.twoPow 32 c)).card < turns := by
        rw [rest, Finset.card_erase_of_mem member]
        have positive := Finset.card_pos.mpr ⟨c, member⟩
        omega
      rw [ih (fun d inside => calls d (by rw [rest] at inside; exact Finset.mem_of_mem_erase inside)) fewer, rest,
        Nat.add_assoc, Finset.add_sum_erase _ _ member]
    · rename_i none
      rw [not_not.mp none, bits_zero, Finset.sum_empty, Nat.add_zero]

end Masks

/-! ## The search -/

section Search

variable {n k c : Nat} {cols : List Nat} {row ld rd FULL : Mask}

/-- What the masks say of the rows before. -/
structure Attacks (n : Nat) (cols : List Nat) (row ld rd : Mask) : Prop where
  column : ∀ c < 32, row.getLsbD c = true ↔ c ∈ cols
  left : ∀ c < 32, ld.getLsbD c = true ↔ ∃ k d, cols[k]? = some d ∧ c = d + (k + 1)
  right : ∀ c < 32, rd.getLsbD c = true ↔ ∃ k d, cols[k]? = some d ∧ d = c + (k + 1)
  inside : ∀ c ∈ cols, c < n
  distinct : cols.Nodup

theorem Attacks.free (attacks : Attacks n cols row ld rd) (small : c < 32) :
    Free cols c ↔ (row ||| ld ||| rd).getLsbD c = false := by
  rw [BitVec.getLsbD_or, BitVec.getLsbD_or, Bool.or_eq_false_iff, Bool.or_eq_false_iff, ← Bool.not_eq_true, ← Bool.not_eq_true,
    ← Bool.not_eq_true, attacks.column c small, attacks.left c small, attacks.right c small]
  constructor
  · intro free
    refine ⟨⟨fun member => ?_, ?_⟩, ?_⟩
    · obtain ⟨k, here⟩ := List.getElem?_of_mem member
      exact (free k c here).1 rfl
    · rintro ⟨k, d, here, same⟩
      exact (free k d here).2.1 same
    · rintro ⟨k, d, here, same⟩
      exact (free k d here).2.2 same
  · rintro ⟨⟨column, left⟩, right⟩ k d here
    refine ⟨?_, fun same => left ⟨k, d, here, same⟩, fun same => right ⟨k, d, here, same⟩⟩
    rintro rfl
    exact column (List.mem_of_getElem? here)

theorem exists_cons {P : Nat → Nat → Prop} : (∃ k d, (c :: cols)[k]? = some d ∧ P k d) ↔
    P 0 c ∨ ∃ k d, cols[k]? = some d ∧ P (k + 1) d := by
  constructor
  · rintro ⟨k, d, here, holds⟩
    cases k with
    | zero =>
      obtain rfl := Option.some.inj here
      exact .inl holds
    | succ k => exact .inr ⟨k, d, here, holds⟩
  · rintro (holds | ⟨k, d, here, holds⟩)
    · exact ⟨0, c, rfl, holds⟩
    · exact ⟨k + 1, d, here, holds⟩

/-- One more queen. -/
theorem Attacks.step (attacks : Attacks n cols row ld rd) (size : n < 31) (inside : c < n) (free : Free cols c) :
    Attacks n (c :: cols) (row ||| BitVec.twoPow 32 c) ((ld ||| BitVec.twoPow 32 c) <<< 1)
      ((rd ||| BitVec.twoPow 32 c) >>> 1) := by
  refine ⟨fun j small => ?_, fun j small => ?_, fun j small => ?_, fun d member => ?_, ?_⟩
  · rw [BitVec.getLsbD_or, BitVec.getLsbD_twoPow, Bool.or_eq_true, attacks.column j small, List.mem_cons]
    simp only [show c < 32 by omega, decide_true, Bool.true_and, decide_eq_true_eq]
    exact ⟨fun either => either.symm.imp Eq.symm id, fun either => either.symm.imp id Eq.symm⟩
  · rw [BitVec.getLsbD_shiftLeft, exists_cons]
    cases j with
    | zero => simp
    | succ i =>
      have moved : (∃ k d, cols[k]? = some d ∧ i + 1 = d + (k + 1 + 1)) ↔ ∃ k d, cols[k]? = some d ∧ i = d + (k + 1) := by
        simp only [← Nat.add_assoc, Nat.add_right_cancel_iff]
      rw [moved, ← attacks.left i (by omega), Nat.add_sub_cancel, BitVec.getLsbD_or, BitVec.getLsbD_twoPow]
      simp only [small, show ¬i + 1 < 1 by omega, show c < 32 by omega, decide_true, decide_false, Bool.not_false, Bool.true_and,
        Bool.or_eq_true, decide_eq_true_eq]
      rw [or_comm, show i + 1 = c + (0 + 1) ↔ c = i by omega]
  · rw [BitVec.getLsbD_ushiftRight, exists_cons, Nat.add_comm 1 j]
    have moved : (∃ k d, cols[k]? = some d ∧ d = j + (k + 1 + 1)) ↔ ∃ k d, cols[k]? = some d ∧ d = j + 1 + (k + 1) := by
      simp only [Nat.add_assoc, Nat.add_comm 1]
    rw [moved, BitVec.getLsbD_or, BitVec.getLsbD_twoPow, Bool.or_eq_true]
    simp only [show c < 32 by omega, decide_true, Bool.true_and, decide_eq_true_eq, Nat.zero_add]
    rcases Nat.lt_or_ge (j + 1) 32 with inner | last
    · rw [attacks.right (j + 1) inner, or_comm]
    · rw [BitVec.getLsbD_of_ge rd (j + 1) last]
      have none : ¬∃ k d, cols[k]? = some d ∧ d = j + 1 + (k + 1) := by
        rintro ⟨k, d, here, far⟩
        have near := attacks.inside d (List.mem_of_getElem? here)
        omega
      simp only [none, Bool.false_eq_true, false_or, or_false]
  · rcases List.mem_cons.mp member with rfl | member
    · exact inside
    · exact attacks.inside d member
  · refine List.nodup_cons.mpr ⟨fun member => ?_, attacks.distinct⟩
    obtain ⟨k, here⟩ := List.getElem?_of_mem member
    exact (free k c here).1 rfl

theorem full_bit (size : n < 31) (c : Nat) : (((1 : Mask) <<< n) - 1).getLsbD c = decide (c < n) := by
  have one : (1 : Mask).toNat = 1 := rfl
  have power : ((1 : Mask) <<< n).toNat = 2 ^ n := by
    rw [BitVec.toNat_shiftLeft, one, Nat.shiftLeft_eq, Nat.one_mul,
      Nat.mod_eq_of_lt (Nat.pow_lt_pow_right Nat.one_lt_two (by omega))]
  have positive : 0 < 2 ^ n := Nat.two_pow_pos n
  rw [BitVec.getLsbD, BitVec.toNat_sub_of_le (BitVec.le_def.mpr (by omega)), power, one, Nat.testBit_two_pow_sub_one]

/-- All columns are taken when there is a queen in each row. -/
theorem Attacks.full (attacks : Attacks n cols row ld rd) (size : n < 31) :
    row = ((1 : Mask) <<< n) - 1 ↔ cols.length = n := by
  have part : cols.toFinset ⊆ Finset.range n := fun c member =>
    Finset.mem_range.mpr (attacks.inside c (List.mem_toFinset.mp member))
  have card := List.toFinset_card_of_nodup attacks.distinct
  constructor
  · intro same
    have all : Finset.range n ⊆ cols.toFinset := by
      intro c member
      rw [Finset.mem_range] at member
      rw [List.mem_toFinset, ← attacks.column c (by omega), same, full_bit size]
      exact decide_eq_true member
    rw [← card, Finset.Subset.antisymm part all, Finset.card_range]
  · intro length
    have all : cols.toFinset = Finset.range n :=
      Finset.eq_of_subset_of_card_le part (by rw [Finset.card_range, card, length])
    apply BitVec.eq_of_getLsbD_eq
    intro c small
    rw [full_bit size, Bool.eq_iff_iff, attacks.column c small, ← List.mem_toFinset, all, Finset.mem_range, decide_eq_true_eq]

/-- The free columns are the bits that the loop goes through. -/
theorem Attacks.mem_free (attacks : Attacks n cols row ld rd) (size : n < 31) :
    c ∈ bits ((((1 : Mask) <<< n) - 1) &&& ~~~(row ||| ld ||| rd)) ↔ c < n ∧ Free cols c := by
  rw [mem_bits, BitVec.getLsbD_and, BitVec.getLsbD_not, full_bit size]
  simp only [Bool.and_eq_true, decide_eq_true_eq, Bool.not_eq_true']
  constructor
  · rintro ⟨inside, small, free⟩
    exact ⟨inside, (attacks.free small).mpr free⟩
  · rintro ⟨inside, free⟩
    exact ⟨inside, by omega, (attacks.free (by omega)).mp free⟩

/-- `dfs` counts the ways to go on from the rows before. -/
theorem dfs_spec (size : n < 31) (attacks : Attacks n cols row ld rd) (rest : cols.length + k = n) :
    dfs (((1 : Mask) <<< n) - 1) (k + 1) row ld rd = .ok (BitVec.ofNat 32 (completions n k cols)) := by
  induction k generalizing cols row ld rd with
  | zero =>
    rw [dfs, if_pos ((attacks.full size).mpr rest), completions_zero]
    rfl
  | succ k ih =>
    rw [dfs, if_neg fun full => by
      have length := (attacks.full size).mp full
      omega]
    have calls : ∀ c ∈ bits ((((1 : Mask) <<< n) - 1) &&& ~~~(row ||| ld ||| rd)),
        dfs (((1 : Mask) <<< n) - 1) (k + 1) (row ||| BitVec.twoPow 32 c) ((ld ||| BitVec.twoPow 32 c) <<< 1)
          ((rd ||| BitVec.twoPow 32 c) >>> 1) = .ok (BitVec.ofNat 32 (completions n k (c :: cols))) := by
      intro c member
      obtain ⟨inside, free⟩ := (attacks.mem_free size).mp member
      exact ih (attacks.step size inside free) (by rw [List.length_cons]; omega)
    have run := @places_spec _ _ row ld rd _ 33 0 calls (Nat.lt_succ_of_le (card_bits_le _))
    have zero : (0 : Mask) = BitVec.ofNat 32 0 := rfl
    rw [zero, run, Nat.zero_add, completions_succ]
    classical
    have columns : bits ((((1 : Mask) <<< n) - 1) &&& ~~~(row ||| ld ||| rd)) = (Finset.range n).filter (Free cols) := by
      ext c
      rw [attacks.mem_free size, Finset.mem_filter, Finset.mem_range]
    rw [columns, Finset.sum_filter, Finset.sum_range]

end Search

/-- The benchmark counts the ways to place the queens. -/
theorem queen_counts (n : Nat) :
    benchQueenRun n = if n < 31 then .ok (BitVec.ofNat 32 (solutions n)) else .error .overflow := by
  unfold benchQueenRun
  split
  · rename_i size
    have start : Attacks n [] (0 : Mask) 0 0 := by
      refine ⟨fun c _ => ?_, fun c _ => ?_, fun c _ => ?_, fun c member => ?_, List.nodup_nil⟩
      · simp
      · simp
      · simp
      · cases member
    rw [dfs_spec size start (Nat.zero_add n), solutions_eq]
  · rfl

end OsLab.Microbench.Queen
