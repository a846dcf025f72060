import OsLab.Kernel.Debug
import OsLab.Klib.Memmove

/-!
# Copying and comparing by pointers (`klib/src/string.c`)

`memcpy`, `memmove` and `memcmp` with the pointers and counters they step, in an address space of `2 ^ w` bytes in which
additions wrap. A run that is out of fuel is in a loop that has not ended. Where no range wraps the copies are those of
`Klib.memmove` (`memmove_view`).
-/

namespace OsLab.Klib.Pointers

open OsLab.Memory
open OsLab.Kernel (Halt)

/-- One byte at every address of `w` bits. -/
abbrev Space (w : Nat) := BitVec w → UInt8

variable {w : Nat}

/-- The loop of `memcpy` -/
def memcpyLoop (n : BitVec w) : Nat → Space w → BitVec w → BitVec w → BitVec w → Except Halt (Space w)
  | 0, _, _, _, _ => .error .diverge
  | fuel + 1, m, t, src, i =>
    if i < n then memcpyLoop n fuel (Function.update m t (m src)) (t + 1#w) (src + 1#w) (i + 1#w) else .ok m

/-- `memcpy`: the memory, and the pointer that is returned. -/
def memcpy (fuel : Nat) (m : Space w) (out src n : BitVec w) : Except Halt (Space w × BitVec w) := do
  let m ← memcpyLoop n fuel m out src 0#w
  .ok (m, out)

/-- The loop of `memmove`, which ends where `q` is below the source. -/
def memmoveLoop (src : BitVec w) : Nat → Space w → BitVec w → BitVec w → Except Halt (Space w)
  | 0, _, _, _ => .error .diverge
  | fuel + 1, m, p, q =>
    if q ≥ src then memmoveLoop src fuel (Function.update m p (m q)) (p - 1#w) (q - 1#w) else .ok m

/-- `memmove` -/
def memmove (fuel : Nat) (m : Space w) (out src n : BitVec w) : Except Halt (Space w × BitVec w) :=
  if out > src ∧ out < src + n then do
    let m ← memmoveLoop src fuel m (out + n - 1#w) (src + n - 1#w)
    .ok (m, out)
  else memcpy fuel m out src n

/-- The loop of `memcmp`. It steps `s1` and `s2`, and reads through `p1` and `p2`. -/
def memcmpLoop (m : Space w) (n p1 p2 : BitVec w) : Nat → BitVec w → BitVec w → BitVec w → Except Halt Int
  | 0, _, _, _ => .error .diverge
  | fuel + 1, s1, s2, i =>
    if i < n then
      if m p1 < m p2 then .ok (-1)
      else if m p1 > m p2 then .ok 1
      else memcmpLoop m n p1 p2 fuel (s1 + 1#w) (s2 + 1#w) (i + 1#w)
    else .ok 0

/-- `memcmp` -/
def memcmp (fuel : Nat) (m : Space w) (s1 s2 n : BitVec w) : Except Halt Int := memcmpLoop m n s1 s2 fuel s1 s2 0#w

/-! ## Copies -/

section Copies

variable {fuel k : Nat} {m : Mem} {out src n t i : BitVec w}

/-- The part of a memory that addresses of `w` bits reach. -/
def view (m : Mem) : Space w := fun a => m a.toNat

/-- Every memory of addresses is a part of one. -/
theorem view_ofNat (m : Space w) : view (fun a => m (BitVec.ofNat w a)) = m := by
  funext a
  exact congrArg m (BitVec.ofNat_toNat w a |>.trans (BitVec.setWidth_eq a))

theorem update_view {c : UInt8} : Function.update (view m) t c = view (store m t.toNat 1 fun _ => c) := by
  funext a
  unfold view
  rcases eq_or_ne a t with rfl | other
  · rw [Function.update_self, store_inside (Nat.le_refl _) (Nat.lt_succ_self _)]
  · have apart : a.toNat ≠ t.toNat := fun same => other (BitVec.eq_of_toNat_eq same)
    rw [Function.update_of_ne other, store_outside (by omega)]

theorem toNat_succ (last : t.toNat + 1 < 2 ^ w) : (t + 1#w).toNat = t.toNat + 1 := by
  rw [BitVec.toNat_add, BitVec.toNat_ofNat, Nat.mod_eq_of_lt (show 1 < 2 ^ w by omega), Nat.mod_eq_of_lt last]

theorem toNat_pred (first : 0 < t.toNat) : (t - 1#w).toNat = t.toNat - 1 := by
  have small := t.isLt
  rw [BitVec.toNat_sub, BitVec.toNat_ofNat, Nat.mod_eq_of_lt (show 1 < 2 ^ w by omega),
    show 2 ^ w - 1 + t.toNat = t.toNat - 1 + 2 ^ w by omega, Nat.add_mod_right, Nat.mod_eq_of_lt (by omega)]

/-- The last byte of a range. -/
theorem toNat_last (some : 0 < n.toNat) (inside : t.toNat + n.toNat ≤ 2 ^ w) :
    (t + n - 1#w).toNat + 1 = t.toNat + n.toNat := by
  have one : (1#w).toNat = 1 := by
    have small := n.isLt
    rw [BitVec.toNat_ofNat, Nat.mod_eq_of_lt (by omega)]
  rw [BitVec.toNat_sub, BitVec.toNat_add, one]
  rcases Nat.lt_or_eq_of_le inside with less | top
  · rw [Nat.mod_eq_of_lt less, show 2 ^ w - 1 + (t.toNat + n.toNat) = t.toNat + n.toNat - 1 + 2 ^ w by omega,
      Nat.add_mod_right, Nat.mod_eq_of_lt (by omega)]
    omega
  · rw [top, Nat.mod_self, Nat.add_zero, Nat.mod_eq_of_lt (by omega)]
    omega

theorem toNat_offset {k : Nat} (inside : t.toNat + k < 2 ^ w) : (t + BitVec.ofNat w k).toNat = t.toNat + k := by
  rw [BitVec.toNat_add, BitVec.toNat_ofNat, Nat.mod_eq_of_lt (show k < 2 ^ w by omega), Nat.mod_eq_of_lt inside]

/-- The copy upwards, with `k` bytes left. -/
theorem memcpyLoop_view (left : i.toNat + k = n.toNat) (enough : k < fuel) (source : src.toNat + k ≤ 2 ^ w)
    (target : t.toNat + k ≤ 2 ^ w) :
    memcpyLoop n fuel (view m) t src i = .ok (view (Klib.memcpy m t.toNat src.toNat k)) := by
  induction k generalizing fuel m t src i with
  | zero =>
    obtain ⟨fuel, rfl⟩ := Nat.exists_eq_succ_of_ne_zero (Nat.ne_of_gt enough)
    rw [memcpyLoop, if_neg (by rw [BitVec.lt_def]; omega), Klib.memcpy]
  | succ k ih =>
    obtain ⟨fuel, rfl⟩ := Nat.exists_eq_succ_of_ne_zero (Nat.ne_of_gt (Nat.zero_lt_of_lt enough))
    have small := n.isLt
    have next : (i + 1#w).toNat = i.toNat + 1 := toNat_succ (by omega)
    rw [memcpyLoop, if_pos (by rw [BitVec.lt_def]; omega), update_view, Klib.memcpy]
    rcases Nat.eq_zero_or_pos k with rfl | more
    · -- the pointers may be behind the last address now
      exact ih (by omega) (by omega) (Nat.le_of_lt (BitVec.isLt _)) (Nat.le_of_lt (BitVec.isLt _))
    · have src' : (src + 1#w).toNat = src.toNat + 1 := toNat_succ (by omega)
      have t' : (t + 1#w).toNat = t.toNat + 1 := toNat_succ (by omega)
      rw [← src', ← t']
      exact ih (by omega) (by omega) (by omega) (by omega)

theorem memcpy_view (source : src.toNat + n.toNat ≤ 2 ^ w) (target : out.toNat + n.toNat ≤ 2 ^ w)
    (enough : n.toNat < fuel) :
    memcpy fuel (view m) out src n = .ok (view (Klib.memcpy m out.toNat src.toNat n.toNat), out) := by
  have start : (0#w).toNat + n.toNat = n.toNat := by rw [BitVec.toNat_zero, Nat.zero_add]
  unfold memcpy
  rw [memcpyLoop_view start enough source target, ok_bind]

/-- The copy downwards, with `k` bytes left. -/
theorem memmoveLoop_view {p q : BitVec w} (positive : 0 < src.toNat) (above : src.toNat ≤ out.toNat)
    (read : q.toNat + 1 = src.toNat + k) (written : p.toNat + 1 = out.toNat + k) (enough : k < fuel) :
    memmoveLoop src fuel (view m) p q = .ok (view (Klib.memmoveLoop m out.toNat src.toNat k)) := by
  induction k generalizing fuel m p q with
  | zero =>
    obtain ⟨fuel, rfl⟩ := Nat.exists_eq_succ_of_ne_zero (Nat.ne_of_gt enough)
    rw [memmoveLoop, if_neg (by rw [ge_iff_le, BitVec.le_def]; omega), Klib.memmoveLoop]
  | succ k ih =>
    obtain ⟨fuel, rfl⟩ := Nat.exists_eq_succ_of_ne_zero (Nat.ne_of_gt (Nat.zero_lt_of_lt enough))
    have q' : (q - 1#w).toNat = q.toNat - 1 := toNat_pred (by omega)
    have p' : (p - 1#w).toNat = p.toNat - 1 := toNat_pred (by omega)
    have byte : view m q = m (src.toNat + k) := congrArg m (by omega)
    rw [memmoveLoop, if_pos (by rw [ge_iff_le, BitVec.le_def]; omega), update_view, byte,
      show p.toNat = out.toNat + k by omega, Klib.memmoveLoop]
    exact ih (by omega) (by omega) (by omega)

/-- Where no range wraps, the pointers copy as `Klib.memmove` does. -/
theorem memmove_view (positive : 0 < src.toNat) (source : src.toNat + n.toNat ≤ 2 ^ w)
    (target : out.toNat + n.toNat ≤ 2 ^ w) (enough : n.toNat < fuel) :
    memmove fuel (view m) out src n = .ok (view (Klib.memmove m out.toNat src.toNat n.toNat), out) := by
  unfold memmove Klib.memmove
  by_cases behind : src.toNat < out.toNat
  · have last : (src + n).toNat = src.toNat + n.toNat := by
      rw [BitVec.toNat_add, Nat.mod_eq_of_lt (by omega)]
    have overlap : out > src ∧ out < src + n ↔ out.toNat < src.toNat + n.toNat := by
      rw [gt_iff_lt, BitVec.lt_def, BitVec.lt_def, last]
      exact and_iff_right behind
    by_cases before : out.toNat < src.toNat + n.toNat
    · have run : memmoveLoop src fuel (view m) (out + n - 1#w) (src + n - 1#w) =
          .ok (view (Klib.memmoveLoop m out.toNat src.toNat n.toNat)) :=
        memmoveLoop_view positive (by omega) (toNat_last (by omega) source) (toNat_last (by omega) target) enough
      rw [if_pos (overlap.2 before), if_pos ⟨behind, before⟩, run, ok_bind]
    · rw [if_neg (before ∘ overlap.1), if_neg (fun both => before both.2)]
      exact memcpy_view source target enough
  · rw [if_neg (fun both => behind (BitVec.lt_def.1 both.1)), if_neg (fun both => behind both.1)]
    exact memcpy_view source target enough

/-- **Copies between ranges that may overlap.** For ranges that do not wrap, a source that does not begin at address 0,
and fuel for every byte, the bytes that were at the source are at the target, and no other byte is changed. -/
theorem memmove_moves (m : Space w) (out src n : BitVec w) (positive : 1 ≤ src.toNat) (source : src.toNat + n.toNat ≤ 2 ^ w)
    (target : out.toNat + n.toNat ≤ 2 ^ w) :
    ∃ m', (∀ fuel, n.toNat < fuel → memmove fuel m out src n = .ok (m', out)) ∧
      (∀ k < n.toNat, m' (out + BitVec.ofNat w k) = m (src + BitVec.ofNat w k)) ∧
      ∀ a : BitVec w, a.toNat < out.toNat ∨ out.toNat + n.toNat ≤ a.toNat → m' a = m a := by
  have bytes := memmove_eq (fun a => m (BitVec.ofNat w a)) out.toNat src.toNat n.toNat
  refine ⟨view (Klib.memmove (fun a => m (BitVec.ofNat w a)) out.toNat src.toNat n.toNat), ?_, ?_, ?_⟩
  · intro fuel enough
    have run := memmove_view (m := fun a => m (BitVec.ofNat w a)) positive source target enough
    rwa [view_ofNat] at run
  · intro k inside
    have place : (out + BitVec.ofNat w k).toNat = out.toNat + k := toNat_offset (by omega)
    unfold view
    rw [bytes, place, store_inside (by omega) (by omega), Nat.add_sub_cancel_left, BitVec.ofNat_add, BitVec.ofNat_toNat,
      BitVec.setWidth_eq]
  · intro a outside
    unfold view
    rw [bytes, store_outside outside, BitVec.ofNat_toNat, BitVec.setWidth_eq]

/-- Two bytes are moved up by one. -/
theorem memmove_moves_up : ∃ m', memmove 3 (fun a : BitVec 8 => UInt8.ofNat a.toNat) 2#8 1#8 2#8 = .ok (m', 2#8) ∧
    m' 2#8 = 1 ∧ m' 3#8 = 2 := by
  obtain ⟨m', run, moved, -⟩ := memmove_moves (fun a : BitVec 8 => UInt8.ofNat a.toNat) 2#8 1#8 2#8
    (by decide) (by decide) (by decide)
  exact ⟨m', run 3 (by decide), moved 0 (by decide), moved 1 (by decide)⟩

end Copies

/-! ## Comparisons -/

section Comparisons

variable {m : Space w} {s1 s2 p1 p2 n i : BitVec w} {fuel k : Nat} {r : Int}

/-- The first `k` bytes of the ranges are the same. -/
def Agree (m : Space w) (s1 s2 : BitVec w) (k : Nat) : Prop :=
  ∀ j < k, m (s1 + BitVec.ofNat w j) = m (s2 + BitVec.ofNat w j)

/-- `r` is 0 where the ranges agree, and has the sign of the first difference where they do not. -/
def Compares (m : Space w) (s1 s2 n : BitVec w) (r : Int) : Prop :=
  (r = 0 ↔ Agree m s1 s2 n.toNat) ∧
    ∀ k < n.toNat, Agree m s1 s2 k → m (s1 + BitVec.ofNat w k) ≠ m (s2 + BitVec.ofNat w k) →
      r.sign = Int.sign ((m (s1 + BitVec.ofNat w k)).toNat - (m (s2 + BitVec.ofNat w k)).toNat)

/-- The loop on two equal bytes, with `k` steps left. -/
theorem memcmpLoop_equal (same : m p1 = m p2) (left : i.toNat + k = n.toNat) (enough : k < fuel) :
    memcmpLoop m n p1 p2 fuel s1 s2 i = .ok 0 := by
  induction k generalizing fuel s1 s2 i with
  | zero =>
    obtain ⟨fuel, rfl⟩ := Nat.exists_eq_succ_of_ne_zero (Nat.ne_of_gt enough)
    rw [memcmpLoop, if_neg (by rw [BitVec.lt_def]; omega)]
  | succ k ih =>
    obtain ⟨fuel, rfl⟩ := Nat.exists_eq_succ_of_ne_zero (Nat.ne_of_gt (Nat.zero_lt_of_lt enough))
    have small := n.isLt
    have next : (i + 1#w).toNat = i.toNat + 1 := toNat_succ (by omega)
    rw [memcmpLoop, if_pos (by rw [BitVec.lt_def]; omega), same, if_neg (UInt8.lt_irrefl _),
      if_neg (UInt8.lt_irrefl _)]
    exact ih (by omega) (by omega)

/-- `memcmp` looks at the first bytes alone. -/
theorem memcmp_run (enough : n.toNat < fuel) :
    memcmp fuel m s1 s2 n = .ok (if n.toNat = 0 then 0 else Int.sign ((m s1).toNat - (m s2).toNat)) := by
  have start : (0#w).toNat + n.toNat = n.toNat := by rw [BitVec.toNat_zero, Nat.zero_add]
  obtain ⟨fuel, rfl⟩ := Nat.exists_eq_succ_of_ne_zero (Nat.ne_of_gt (Nat.zero_lt_of_lt enough))
  unfold memcmp
  by_cases same : m s1 = m s2
  · rw [memcmpLoop_equal same start enough, same, Int.sub_self, Int.sign_zero, ite_self]
  · by_cases none : n.toNat = 0
    · rw [memcmpLoop, if_neg (by rw [BitVec.lt_def]; omega), if_pos none]
    · rw [memcmpLoop, if_pos (by rw [BitVec.lt_def]; omega), if_neg none]
      rcases Nat.lt_trichotomy (m s1).toNat (m s2).toNat with less | equal | more
      · rw [if_pos (UInt8.lt_iff_toNat_lt.2 less), Int.sign_eq_neg_one_of_neg (by omega)]
      · exact absurd (UInt8.toNat_inj.1 equal) same
      · have less : ¬m s1 < m s2 := fun less => Nat.lt_asymm more (UInt8.lt_iff_toNat_lt.1 less)
        rw [if_neg less, if_pos (UInt8.lt_iff_toNat_lt.2 more), Int.sign_eq_one_of_pos (by omega)]

/-- A number that compares the ranges, where the first bytes decide. -/
theorem compares_first (some : n.toNat ≠ 0) (differ : m s1 ≠ m s2) :
    Compares m s1 s2 n (Int.sign ((m s1).toNat - (m s2).toNat)) := by
  have start : ∀ s : BitVec w, s + BitVec.ofNat w 0 = s := fun s => BitVec.add_zero s
  have unequal : ¬Agree m s1 s2 n.toNat := by
    intro agree
    have first := agree 0 (Nat.pos_of_ne_zero some)
    rw [start, start] at first
    exact differ first
  refine ⟨iff_of_false ?_ unequal, ?_⟩
  · rw [Int.sign_eq_zero_iff_zero, sub_eq_zero, Nat.cast_inj, UInt8.toNat_inj]
    exact differ
  · intro k inside agree there
    rcases Nat.eq_zero_or_pos k with rfl | later
    · rw [start, start, Int.sign_sign]
    · have first := agree 0 later
      rw [start, start] at first
      exact absurd first differ

/-- **Comparing.** `memcmp` compares the ranges exactly if they differ in their first byte, or not at all. -/
theorem memcmp_compares_iff (m : Space w) (s1 s2 n : BitVec w) :
    (∃ r, (∀ fuel, n.toNat < fuel → memcmp fuel m s1 s2 n = .ok r) ∧ Compares m s1 s2 n r) ↔
      m s1 ≠ m s2 ∨ Agree m s1 s2 n.toNat := by
  constructor
  · rintro ⟨r, run, zero, -⟩
    refine or_iff_not_imp_left.2 fun same => zero.1 ?_
    rw [not_not] at same
    have returned := run _ (Nat.lt_succ_self _)
    rw [memcmp_run (Nat.lt_succ_self _), same, Int.sub_self, Int.sign_zero, ite_self] at returned
    exact (Except.ok.inj returned).symm
  · intro cases
    refine ⟨_, fun fuel enough => memcmp_run enough, ?_⟩
    by_cases agree : Agree m s1 s2 n.toNat
    · have zero : (if n.toNat = 0 then 0 else Int.sign ((m s1).toNat - (m s2).toNat)) = 0 := by
        split
        · rfl
        · next some =>
          have first := agree 0 (Nat.pos_of_ne_zero some)
          rw [show BitVec.ofNat w 0 = 0#w from rfl, BitVec.add_zero, BitVec.add_zero] at first
          rw [first, Int.sub_self, Int.sign_zero]
      rw [zero]
      exact ⟨iff_of_true rfl agree, fun k inside _ differ => absurd (agree k inside) differ⟩
    · have some : n.toNat ≠ 0 := by
        intro none
        rw [none] at agree
        exact agree fun k inside => absurd inside (Nat.not_lt_zero k)
      rw [if_neg some]
      exact compares_first some (cases.resolve_right agree)

/-- Two ranges that differ in their second byte are equal for `memcmp`. -/
theorem memcmp_overlooks : ∃ m : Space 8, memcmp 3 m 0#8 2#8 2#8 = .ok 0 ∧ ¬Compares m 0#8 2#8 2#8 0 := by
  refine ⟨fun a => if a = 3#8 then 1 else 0, rfl, fun compares => ?_⟩
  exact absurd (compares.1.1 rfl 1 (by decide)) (by decide)

end Comparisons

end OsLab.Klib.Pointers
