import OsLab.Klib.Pointers
import OsLab.Klib.String
import OsLab.Lib.Traced

/-!
# Searching backwards by pointers (`klib/src/string.c`)

`strrchr` with the pointers it steps, and a trace of the addresses it reads. The scan begins at `s + len - 1`, where `len` is
an `int`, and ends below `s` where it finds nothing; what the test behind the loop reads then is not of the string.
-/

namespace OsLab.Klib.Pointers

open OsLab.Kernel (Halt)

variable {w : Nat}

/-- Read a character. -/
def loadChar (m : Space w) (a : BitVec w) : Traced Halt (BitVec w) UInt8 := do
  Traced.mark a
  pure (m a)

/-- The loop of `strlen` -/
def strlenLoop (m : Space w) : Nat → BitVec w → Traced Halt (BitVec w) (BitVec w)
  | 0, _ => .lift (.error .diverge)
  | fuel + 1, sc => do
    let a ← loadChar m sc
    if a ≠ 0 then strlenLoop m fuel (sc + 1#w) else pure sc

/-- `strlen` -/
def strlen (fuel : Nat) (m : Space w) (s : BitVec w) : Traced Halt (BitVec w) (BitVec w) := do
  let sc ← strlenLoop m fuel s
  pure (sc - s)

/-- The loop of `strrchr`, which ends below `s` where no character is `c`. -/
def strrchrLoop (m : Space w) (s : BitVec w) (c : Int) : Nat → BitVec w → Traced Halt (BitVec w) (BitVec w)
  | 0, _ => .lift (.error .diverge)
  | fuel + 1, ts =>
    if ts ≥ s then do
      let a ← loadChar m ts
      if charVal a ≠ c then strrchrLoop m s c fuel (ts - 1#w) else pure ts
    else pure ts

/-- A `size_t` as an `int` that is added to a pointer. -/
def asInt (n : BitVec w) : BitVec w := (n.setWidth 32).signExtend w

/-- `strrchr`, where `c` is an `int`. The test behind the loop reads where the loop has ended. -/
def strrchr (fuel : Nat) (m : Space w) (s : BitVec w) (c : Int) : Traced Halt (BitVec w) (Option (BitVec w)) := do
  let len ← strlen fuel m s
  let ts ← strrchrLoop m s c fuel (s + asInt len - 1#w)
  let a ← loadChar m ts
  pure (if charVal a ≠ c then none else some ts)

/-- At `s` there is the string `str` with its terminator, below the end of the memory. -/
structure StringAt (m : Space w) (s : BitVec w) (str : CStr) : Prop where
  plain : 0 ∉ str
  bytes : ∀ k ≤ str.length, m (s + BitVec.ofNat w k) = charAt str k
  inside : s.toNat + str.length < 2 ^ w

/-- An address of the string at `s` or of its terminator. -/
def Within (s : BitVec w) (str : CStr) (a : BitVec w) : Prop := s.toNat ≤ a.toNat ∧ a.toNat ≤ s.toNat + str.length

/-- `r` is the address of the last `c` in the string at `s`, or `NULL` if there is none. -/
def IsLast (s : BitVec w) (str : CStr) (c : UInt8) : Option (BitVec w) → Prop
  | none => c ∉ str
  | some a => ∃ front back, str = front ++ c :: back ∧ c ∉ back ∧ a = s + BitVec.ofNat w front.length

/-- `strrchr` finds the last `c`, and reads the string and its terminator alone. -/
def StaysInside (m : Space w) (s : BitVec w) (str : CStr) (c : UInt8) : Prop :=
  ∃ r enough, IsLast s str c r ∧ ∀ fuel, enough ≤ fuel → (strrchr fuel m s (charVal c)).Returns (Within s str) r

/-- The scan begins inside of the string, at its last `c` or behind it. -/
def Reached (w : Nat) (str : CStr) (c : UInt8) : Prop :=
  ∃ front back, str = front ++ c :: back ∧ c ∉ back ∧
    front.length ≤ (asInt (BitVec.ofNat w str.length) - 1#w).toNat ∧
      (asInt (BitVec.ofNat w str.length) - 1#w).toNat ≤ str.length

theorem returns_loadChar {m : Space w} {a : BitVec w} {good : BitVec w → Prop} {c : UInt8} :
    (loadChar m a).Returns good c ↔ good a ∧ m a = c := by
  unfold loadChar
  simp only [Traced.returns_bind, Traced.returns_mark, Traced.returns_pure, exists_const]

section Ints

variable {n : BitVec w}

theorem asInt_of_narrow (narrow : w ≤ 32) : asInt n = n := by
  unfold asInt
  rw [BitVec.signExtend_eq_setWidth_of_le _ narrow, BitVec.setWidth_setWidth_of_le _ narrow, BitVec.setWidth_eq]

theorem asInt_of_short (short : n.toNat < 2 ^ 31) : asInt n = n := by
  have low : (n.setWidth 32).toNat = n.toNat := by
    rw [BitVec.toNat_setWidth, Nat.mod_eq_of_lt (by omega)]
  have positive : (n.setWidth 32).msb = false := by
    rw [BitVec.msb_eq_false_iff_two_mul_lt, low]
    omega
  apply BitVec.eq_of_toNat_eq
  unfold asInt
  rw [BitVec.signExtend_eq_setWidth_of_msb_false positive, BitVec.toNat_setWidth, low, Nat.mod_eq_of_lt n.isLt]

theorem asInt_allOnes : asInt (BitVec.allOnes w) = BitVec.allOnes w := by
  rcases Nat.le_total w 32 with narrow | wide
  · exact asInt_of_narrow narrow
  · have low : (BitVec.allOnes w).setWidth 32 = BitVec.allOnes 32 := by
      ext i inside
      rw [BitVec.getElem_setWidth, BitVec.getLsbD_allOnes, BitVec.getElem_allOnes]
      exact decide_eq_true (Nat.lt_of_lt_of_le inside wide)
    unfold asInt
    rw [low]
    ext i inside
    rw [BitVec.getElem_signExtend, BitVec.getElem_allOnes]
    split
    · exact BitVec.getElem_allOnes ..
    · exact BitVec.msb_allOnes (by decide)

theorem toNat_pred_zero {t : BitVec w} (zero : t.toNat = 0) : (t - 1#w).toNat + 1 = 2 ^ w := by
  have start : t = 0#w := BitVec.eq_of_toNat_eq (by rw [zero, BitVec.toNat_zero])
  rw [start, BitVec.zero_sub, BitVec.neg_one_eq_allOnes, BitVec.toNat_allOnes]
  exact Nat.sub_add_cancel Nat.one_le_two_pow

end Ints

/-! ## Strings in memory -/

section Strings

variable {m : Space w} {s a : BitVec w} {str : CStr} {c : UInt8} {k n fuel : Nat}

theorem StringAt.toNat_at (held : StringAt m s str) (inside : k ≤ str.length) : (s + BitVec.ofNat w k).toNat = s.toNat + k :=
  toNat_offset (Nat.lt_of_le_of_lt (Nat.add_le_add_left inside _) held.inside)

theorem StringAt.within (held : StringAt m s str) (inside : k ≤ str.length) : Within s str (s + BitVec.ofNat w k) := by
  unfold Within
  rw [held.toNat_at inside]
  omega

theorem StringAt.eq_at (held : StringAt m s str) (inside : k ≤ str.length) (place : a.toNat = s.toNat + k) :
    a = s + BitVec.ofNat w k := BitVec.eq_of_toNat_eq (place.trans (held.toNat_at inside).symm)

/-- The character that the string has at an address. -/
theorem StringAt.char (held : StringAt m s str) (inside : k ≤ str.length) (place : a.toNat = s.toNat + k) :
    m a = charAt str k := by
  rw [held.eq_at inside place, held.bytes k inside]

/-- How far an address of the string is away from its start. -/
theorem StringAt.offset (held : StringAt m s str) (within : Within s str (s + a)) :
    a.toNat ≤ str.length ∧ (s + a).toNat = s.toNat + a.toNat := by
  obtain ⟨above, below⟩ := within
  have inside := held.inside
  have small := a.isLt
  rw [BitVec.toNat_add] at above below ⊢
  rcases Nat.lt_or_ge (s.toNat + a.toNat) (2 ^ w) with less | wraps
  · rw [Nat.mod_eq_of_lt less] at below ⊢
    exact ⟨by omega, rfl⟩
  · rw [Nat.mod_eq_sub_mod wraps, Nat.mod_eq_of_lt (by omega)] at above
    omega

theorem charAt_outside (outside : str.length ≤ k) : charAt str k = 0 := by
  simp [charAt, outside]

theorem StringAt.strlenLoop_run (held : StringAt m s str) (left : k + n = str.length) (place : a.toNat = s.toNat + k)
    (enough : n < fuel) : (strlenLoop m fuel a).Returns (Within s str) (s + BitVec.ofNat w str.length) := by
  induction n generalizing k a fuel with
  | zero =>
    obtain ⟨fuel, rfl⟩ := Nat.exists_eq_succ_of_ne_zero (Nat.ne_of_gt enough)
    obtain rfl : k = str.length := left
    have here := held.eq_at (Nat.le_refl _) place
    rw [strlenLoop, Traced.returns_bind]
    refine ⟨0, returns_loadChar.2 ⟨here ▸ held.within (Nat.le_refl _), ?_⟩, Traced.returns_pure.2 here⟩
    rw [held.char (Nat.le_refl _) place, charAt_outside (Nat.le_refl _)]
  | succ n ih =>
    obtain ⟨fuel, rfl⟩ := Nat.exists_eq_succ_of_ne_zero (Nat.ne_of_gt (Nat.zero_lt_of_lt enough))
    have below : k < str.length := by omega
    have inside := held.inside
    have here := held.eq_at (Nat.le_of_lt below) place
    have char : charAt str k ≠ 0 := by
      rw [charAt_lt below]
      exact fun nul => held.plain (nul ▸ List.getElem_mem below)
    rw [strlenLoop, Traced.returns_bind]
    refine ⟨charAt str k, returns_loadChar.2 ⟨here ▸ held.within (Nat.le_of_lt below), held.char (Nat.le_of_lt below) place⟩, ?_⟩
    rw [if_pos char]
    have next : (a + 1#w).toNat = a.toNat + 1 := toNat_succ (by omega)
    exact @ih (a + 1#w) (k + 1) fuel (by omega) (by omega) (by omega)

/-- `strlen` of a string reads the string and its terminator. -/
theorem StringAt.strlen_run (held : StringAt m s str) (enough : str.length < fuel) :
    (strlen fuel m s).Returns (Within s str) (BitVec.ofNat w str.length) := by
  unfold strlen
  refine Traced.returns_bind.2 ⟨_, held.strlenLoop_run (Nat.zero_add _) (Nat.add_zero _).symm enough, ?_⟩
  rw [Traced.returns_pure, BitVec.add_comm, BitVec.add_sub_cancel]

end Strings

/-! ## The scan -/

section Scan

variable {m : Space w} {s a ts ts' : BitVec w} {str : CStr} {c : UInt8} {good : BitVec w → Prop} {k n fuel : Nat} {i : Int}

/-- One step of the scan at a character of the string. -/
theorem StringAt.strrchrLoop_succ (held : StringAt m s str) (below : n ≤ str.length) (place : ts.toNat = s.toNat + n) :
    (strrchrLoop m s (charVal c) (fuel + 1) ts).Returns (Within s str) a ↔
      if charAt str n = c then ts = a else (strrchrLoop m s (charVal c) fuel (ts - 1#w)).Returns (Within s str) a := by
  have here : ts = s + BitVec.ofNat w n := held.eq_at below place
  have load : (loadChar m ts).Returns (Within s str) (charAt str n) :=
    returns_loadChar.2 ⟨here ▸ held.within below, held.char below place⟩
  have read : ∀ {b}, (loadChar m ts).Returns (Within s str) b ↔ charAt str n = b :=
    ⟨load.unique, fun same => same ▸ load⟩
  rw [strrchrLoop, if_pos (by rw [ge_iff_le, BitVec.le_def]; omega), Traced.returns_bind]
  simp only [read, exists_eq_left']
  by_cases found : charAt str n = c
  · rw [if_pos found, if_neg (not_not.2 (congrArg charVal found)), Traced.returns_pure]
  · rw [if_neg found, if_pos (found ∘ charVal_inj)]

/-- The scan that is to look at `n` characters stops where that of `Klib.strrchr` does. -/
theorem StringAt.strrchrLoop_found (held : StringAt m s str) (found : Klib.strrchrLoop str c n = some k)
    (inside : n ≤ str.length + 1) (place : ts.toNat + 1 = s.toNat + n) (enough : n ≤ fuel) :
    (strrchrLoop m s (charVal c) fuel ts).Returns (Within s str) (s + BitVec.ofNat w k) := by
  induction n generalizing ts fuel with
  | zero => cases found
  | succ n ih =>
    obtain ⟨fuel, rfl⟩ := Nat.exists_eq_succ_of_ne_zero (Nat.ne_of_gt (Nat.zero_lt_of_lt enough))
    have below : n ≤ str.length := Nat.le_of_succ_le_succ inside
    have here : ts.toNat = s.toNat + n := by omega
    rw [Klib.strrchrLoop] at found
    refine (held.strrchrLoop_succ below here).2 ?_
    split at found
    · next last =>
      rw [if_pos last, ← Option.some.inj found]
      exact held.eq_at below here
    · next other =>
      have some : n ≠ 0 := by
        rintro rfl
        cases found
      have next : (ts - 1#w).toNat = ts.toNat - 1 := toNat_pred (by omega)
      rw [if_neg other]
      exact ih found (by omega) (by omega) (by omega)

/-- Where there is no `c` the scan goes on to the address in front of the string, if there is one. -/
theorem StringAt.strrchrLoop_none (held : StringAt m s str) (none : Klib.strrchrLoop str c n = none)
    (inside : n ≤ str.length + 1) (positive : 0 < s.toNat) (place : ts.toNat + 1 = s.toNat + n) (enough : n < fuel) :
    (strrchrLoop m s (charVal c) fuel ts).Returns (Within s str) (s - 1#w) := by
  induction n generalizing ts fuel with
  | zero =>
    obtain ⟨fuel, rfl⟩ := Nat.exists_eq_succ_of_ne_zero (Nat.ne_of_gt enough)
    have before : (s - 1#w).toNat = s.toNat - 1 := toNat_pred positive
    rw [strrchrLoop, if_neg (by rw [ge_iff_le, BitVec.le_def]; omega), Traced.returns_pure]
    exact BitVec.eq_of_toNat_eq (by omega)
  | succ n ih =>
    obtain ⟨fuel, rfl⟩ := Nat.exists_eq_succ_of_ne_zero (Nat.ne_of_gt (Nat.zero_lt_of_lt enough))
    have next : (ts - 1#w).toNat = ts.toNat - 1 := toNat_pred (by omega)
    rw [Klib.strrchrLoop] at none
    refine (held.strrchrLoop_succ (Nat.le_of_succ_le_succ inside) (by omega)).2 ?_
    split at none
    · cases none
    · next other =>
      rw [if_neg other]
      exact ih none (by omega) (by omega) (by omega)

/-- A scan that ends has found the character, or is below the string. -/
theorem strrchrLoop_stops (run : (strrchrLoop m s i fuel ts).Returns good ts') : ts' < s ∨ charVal (m ts') = i := by
  induction fuel generalizing ts with
  | zero => exact absurd run Traced.not_returns_error
  | succ fuel ih =>
    rw [strrchrLoop] at run
    split at run
    · obtain ⟨b, load, run⟩ := Traced.returns_bind.1 run
      obtain ⟨-, rfl⟩ := returns_loadChar.1 load
      split at run
      · exact ih run
      · next found =>
        rw [← Traced.returns_pure.1 run]
        exact .inr (not_not.1 found)
    · next below =>
      rw [← Traced.returns_pure.1 run]
      exact .inl (BitVec.not_le.1 below)

/-- It has only gone down, unless it went round from the first address of the memory to the last one. -/
theorem strrchrLoop_down (run : (strrchrLoop m s i fuel ts).Returns good ts') (last : good ts') :
    good ts ∧ (ts'.toNat ≤ ts.toNat ∨ s.toNat = 0 ∧ ∃ a, good a ∧ a.toNat + 1 = 2 ^ w) := by
  induction fuel generalizing ts with
  | zero => exact absurd run Traced.not_returns_error
  | succ fuel ih =>
    rw [strrchrLoop] at run
    split at run
    · next above =>
      obtain ⟨b, load, run⟩ := Traced.returns_bind.1 run
      obtain ⟨isGood, -⟩ := returns_loadChar.1 load
      refine ⟨isGood, ?_⟩
      split at run
      · obtain ⟨nextGood, down⟩ := ih run
        refine down.elim (fun down => ?_) .inr
        rcases Nat.eq_zero_or_pos ts.toNat with zero | positive
        · rw [ge_iff_le, BitVec.le_def] at above
          exact .inr ⟨by omega, _, nextGood, toNat_pred_zero zero⟩
        · have next : (ts - 1#w).toNat = ts.toNat - 1 := toNat_pred positive
          exact .inl (by omega)
      · rw [Traced.returns_pure.1 run]
        exact .inl (Nat.le_refl _)
    · rw [Traced.returns_pure.1 run]
      exact ⟨last, .inl (Nat.le_refl _)⟩

end Scan

/-! ## strrchr -/

section Strrchr

variable {m : Space w} {s : BitVec w} {str front back : CStr} {c : UInt8} {n k fuel : Nat}

theorem sub_one_add (s n : BitVec w) : s + n - 1#w = s + (n - 1#w) := by
  rw [BitVec.sub_eq_add_neg, BitVec.add_assoc, ← BitVec.sub_eq_add_neg]

/-- The last character of a string is where the scan finds it first. -/
theorem strrchrLoop_last (char : c ≠ 0) (plain : c ∉ back) (above : front.length < n) :
    Klib.strrchrLoop (front ++ c :: back) c n = some front.length := by
  induction n with
  | zero => omega
  | succ n ih =>
    rw [Klib.strrchrLoop]
    rcases Nat.lt_or_ge front.length n with later | here
    · have other : charAt (front ++ c :: back) n ≠ c := by
        intro found
        rcases Nat.lt_or_ge n (front ++ c :: back).length with inside | outside
        · rw [charAt_lt inside, List.getElem_append_right (Nat.le_of_lt later)] at found
          obtain ⟨k, position⟩ := Nat.exists_eq_add_of_lt later
          have behind : n - front.length = k + 1 := by omega
          simp only [behind, List.getElem_cons_succ] at found
          exact plain (found ▸ List.getElem_mem _)
        · rw [charAt_outside outside] at found
          exact char found.symm
      rw [if_neg other, ih later]
    · obtain rfl : front.length = n := by omega
      have same : charAt (front ++ c :: back) front.length = c := by simp [charAt]
      rw [if_pos same]

/-- Where its length does not change as an `int`, the scan of a string begins at the last character. -/
theorem scan_begins (same : asInt (BitVec.ofNat w n) = BitVec.ofNat w n) (small : n < 2 ^ w) (some : 0 < n) :
    (asInt (BitVec.ofNat w n) - 1#w).toNat = n - 1 := by
  have length : (BitVec.ofNat w n).toNat = n := by rw [BitVec.toNat_ofNat, Nat.mod_eq_of_lt small]
  rw [same, toNat_pred (by rwa [length]), length]

theorem StringAt.asInt_length (held : StringAt m s str) (short : str.length < 2 ^ 31 ∨ w ≤ 32) :
    asInt (BitVec.ofNat w str.length) = BitVec.ofNat w str.length := by
  rcases short with short | narrow
  · have inside := held.inside
    apply asInt_of_short
    rwa [BitVec.toNat_ofNat, Nat.mod_eq_of_lt (by omega)]
  · exact asInt_of_narrow narrow

/-- The last of the characters that are `c`. -/
theorem exists_last (char : c ≠ 0) (member : c ∈ str) : ∃ front back, str = front ++ c :: back ∧ c ∉ back := by
  cases search : Klib.strrchr 0 str c with
  | none => exact absurd member (strrchr_none search)
  | some i =>
    obtain ⟨front, back, split, plain, -⟩ := strrchr_some (Ne.symm char) search
    exact ⟨front, back, split, plain⟩

/-- Below `2 ^ 31` characters, and for pointers of at most 32 bits, there only has to be a `c`. -/
theorem StringAt.reached_iff_mem (held : StringAt m s str) (short : str.length < 2 ^ 31 ∨ w ≤ 32) (char : c ≠ 0) :
    Reached w str c ↔ c ∈ str := by
  constructor
  · rintro ⟨front, back, rfl, -⟩
    exact List.mem_append_right _ List.mem_cons_self
  · intro member
    have inside := held.inside
    obtain ⟨front, back, split, plain⟩ := exists_last char member
    refine ⟨front, back, split, plain, ?_⟩
    rw [scan_begins (held.asInt_length short) (by omega) (List.length_pos_of_mem member), split]
    simp

/-- Where `strrchr` of the byte in front of the string finds something, so does `strrchr` in memory. -/
theorem StringAt.strrchr_result (held : StringAt m s str) (short : str.length < 2 ^ 31 ∨ w ≤ 32) (positive : 0 < s.toNat)
    (enough : str.length + 1 < fuel) :
    (strrchr fuel m s (charVal c)).result =
      .ok ((Klib.strrchr (m (s - 1#w)) str c).map fun i => s + BitVec.ofInt w i) := by
  have place : (s + BitVec.ofNat w str.length - 1#w).toNat + 1 = s.toNat + str.length := by
    have last := held.toNat_at (Nat.le_refl _)
    rw [toNat_pred (by omega)]
    omega
  have lengths := held.strlen_run (show str.length < fuel by omega)
  unfold strrchr Klib.strrchr
  rw [Traced.result_bind, lengths.result, ok_bind, held.asInt_length short, Traced.result_bind, strlen_eq]
  cases search : Klib.strrchrLoop str c str.length with
  | some k =>
    have scan := held.strrchrLoop_found search (Nat.le_succ _) place (Nat.le_of_lt (Nat.lt_of_succ_lt enough))
    obtain ⟨below, here, -⟩ := strrchrLoop_some search
    have found : charVal (m (s + BitVec.ofNat w k)) = charVal c := by
      rw [held.bytes k (Nat.le_of_lt below), here]
    rw [scan.result, ok_bind]
    show Except.ok (if charVal (m (s + BitVec.ofNat w k)) ≠ charVal c then none else some (s + BitVec.ofNat w k)) = _
    rw [if_neg (not_not.2 found)]
    rfl
  | none =>
    have scan := held.strrchrLoop_none search (Nat.le_succ _) positive place (Nat.lt_of_succ_lt enough)
    rw [scan.result, ok_bind]
    show Except.ok (if charVal (m (s - 1#w)) ≠ charVal c then none else some (s - 1#w)) = _
    dsimp only
    split
    · next other => rw [if_neg (fun found => other (congrArg charVal found)), Option.map_none]
    · next found =>
      rw [if_pos (charVal_inj (not_not.1 found)), Option.map_some, BitVec.ofInt_neg, ← BitVec.sub_eq_add_neg]
      rfl

/-- A search that stays inside has begun at the last `c` or behind it. -/
theorem StringAt.reached (held : StringAt m s str) (stays : StaysInside m s str c) : Reached w str c := by
  obtain ⟨r, enough, last, runs⟩ := stays
  obtain ⟨len, first, run⟩ := Traced.returns_bind.1 (runs (max enough (str.length + 1)) (Nat.le_max_left _ _))
  obtain ⟨ts, scan, run⟩ := Traced.returns_bind.1 run
  obtain ⟨b, load, run⟩ := Traced.returns_bind.1 run
  obtain rfl := first.unique (held.strlen_run (Nat.le_max_right _ _))
  obtain ⟨within, rfl⟩ := returns_loadChar.1 load
  obtain ⟨start, down⟩ := strrchrLoop_down scan within
  rw [sub_one_add] at start down
  obtain ⟨inside, place⟩ := held.offset start
  have returned := Traced.returns_pure.1 run
  split at returned
  · next other =>
    -- the address that is tested is below the string
    have below := (strrchrLoop_stops scan).resolve_right other
    rw [BitVec.lt_def] at below
    exact absurd within.1 (Nat.not_le.2 below)
  · subst returned
    obtain ⟨front, back, rfl, plain, rfl⟩ := last
    refine ⟨front, back, rfl, plain, ?_, inside⟩
    have length : front.length ≤ (front ++ c :: back).length := by simp
    rw [held.toNat_at length] at down
    rcases down with down | ⟨zero, a, isWithin, top⟩
    · omega
    · -- the string is the whole memory
      have whole := held.inside
      have all : BitVec.ofNat w (front ++ c :: back).length = BitVec.allOnes w := by
        apply BitVec.eq_of_toNat_eq
        rw [BitVec.toNat_ofNat, BitVec.toNat_allOnes, Nat.mod_eq_of_lt (by omega)]
        have below := isWithin.2
        omega
      rw [scan_begins (by rw [all, asInt_allOnes]) (by omega) (by simp)]
      simp

theorem StringAt.staysInside (held : StringAt m s str) (char : c ≠ 0) (reached : Reached w str c) : StaysInside m s str c := by
  obtain ⟨front, back, rfl, plain, above, inside⟩ := reached
  have found := strrchrLoop_last char plain (Nat.lt_succ_of_le above)
  refine ⟨some (s + BitVec.ofNat w front.length), (front ++ c :: back).length + 2, ⟨front, back, rfl, plain, rfl⟩, ?_⟩
  intro fuel enough
  refine Traced.returns_bind.2 ⟨_, held.strlen_run (by omega), ?_⟩
  have place : (s + (asInt (BitVec.ofNat w (front ++ c :: back).length) - 1#w)).toNat + 1 =
      s.toNat + ((asInt (BitVec.ofNat w (front ++ c :: back).length) - 1#w).toNat + 1) := by
    have last := held.inside
    rw [BitVec.toNat_add, Nat.mod_eq_of_lt (by omega)]
    omega
  rw [sub_one_add]
  refine Traced.returns_bind.2 ⟨_, held.strrchrLoop_found found (Nat.succ_le_succ inside) place (by omega), ?_⟩
  have length : front.length ≤ (front ++ c :: back).length := by simp
  have same : m (s + BitVec.ofNat w front.length) = c := by
    rw [held.bytes _ length]
    simp [charAt]
  refine Traced.returns_bind.2 ⟨c, returns_loadChar.2 ⟨held.within length, same⟩, ?_⟩
  rw [if_neg (not_not.2 rfl), Traced.returns_pure]

/-- **strrchr inside of its string.** Exactly if the scan begins inside of the string, at the last `c` or behind it. -/
theorem strrchr_inside_iff (held : StringAt m s str) (char : c ≠ 0) : StaysInside m s str c ↔ Reached w str c :=
  ⟨held.reached, held.staysInside char⟩

theorem strrchr_inside_iff_path :
    StaysInside (fun a : BitVec 64 => charAt [97, 47, 98] (a.toNat - 16)) 16#64 [97, 47, 98] 47 := by
  have held : StringAt (fun a : BitVec 64 => charAt [97, 47, 98] (a.toNat - 16)) 16#64 [97, 47, 98] :=
    ⟨by decide, by decide, by decide⟩
  exact (strrchr_inside_iff held (by decide)).2 ((held.reached_iff_mem (.inl (by decide)) (by decide)).2 (by decide))

/-- The empty string with a `/` in front of it. -/
def slashBefore : Space 64 := fun a => if a = 15#64 then 47 else 0

/-- `strrchr` finds the character in front of the string. -/
theorem strrchr_leaves : StringAt slashBefore 16#64 [] ∧ ¬StaysInside slashBefore 16#64 [] 47 := by
  have held : StringAt slashBefore 16#64 [] := ⟨by decide, by decide, by decide⟩
  refine ⟨held, ?_⟩
  rintro ⟨r, enough, last, runs⟩
  have result := (runs _ (Nat.le_max_left enough 2)).result
  rw [held.strrchr_result (.inl (by decide)) (by decide) (Nat.le_max_right enough 2), Except.ok.injEq] at result
  subst result
  obtain ⟨front, back, wrong, -⟩ := last
  exact absurd wrong (by simp)

end Strrchr

end OsLab.Klib.Pointers
