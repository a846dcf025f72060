import Mathlib.Data.List.Basic
import Mathlib.Data.List.TakeWhile

/-!
# C strings (`klib/src/string.c`)

A C string is the list of its characters before the terminating NUL, so that reading past the
list reads the NUL. Characters are bytes; where `char` is used as a number it is signed.
-/

namespace OsLab.Klib

/-- The characters of a C string, without the terminating NUL. -/
abbrev CStr := List UInt8

/-- A string literal. -/
def text (s : String) : CStr := s.toList.map fun c => UInt8.ofNat c.toNat

/-- The string at the start of a buffer. -/
def stringOf (buf : List UInt8) : CStr := buf.takeWhile (· ≠ 0)

theorem notMem_stringOf (buf : List UInt8) : 0 ∉ stringOf buf := by
  intro member
  simpa using List.mem_takeWhile_imp member

theorem stringOf_text {cs rest : List UInt8} (plain : 0 ∉ cs) : stringOf (cs ++ 0 :: rest) = cs := by
  unfold stringOf
  rw [List.takeWhile_append_of_pos]
  · simp
  · intro c member
    have other : c ≠ 0 := ne_of_mem_of_not_mem member plain
    simpa using other

/-- The value of a `char`. -/
def charVal (c : UInt8) : Int := if c.toNat < 128 then c.toNat else c.toNat - 256

/-- The character at a position, the NUL at the end. -/
def charAt (s : CStr) (i : Nat) : UInt8 := s.getD i 0

/-- `strlen` -/
def strlen : CStr → Nat
  | [] => 0
  | _ :: s => strlen s + 1

/-- `strcmp` -/
def strcmp : CStr → CStr → Int
  | a :: s1, b :: s2 => if a ≠ b then charVal a - charVal b else strcmp s1 s2
  | s1, s2 => charVal (charAt s1 0) - charVal (charAt s2 0)

/-- The loop of `strncmp`; `n` counts down what the source counts up in `i`. -/
def strncmp : CStr → CStr → Nat → Int
  | a :: s1, b :: s2, n + 1 => if a ≠ b then charVal a - charVal b else strncmp s1 s2 n
  | s1, s2, n => if n = 0 then 0 else charVal (charAt s1 0) - charVal (charAt s2 0)

/-- `streq` -/
def streq (s1 s2 : CStr) : Bool := strcmp s1 s2 = 0

/-- `strneq` -/
def strneq (s1 s2 : CStr) (n : Nat) : Bool := strncmp s1 s2 n = 0

/-- `strchr`, as the position of the character found. -/
def strchr : CStr → UInt8 → Option Nat
  | [], c => if c = 0 then some 0 else none
  | a :: s, c => if a = c then some 0 else (strchr s c).map (· + 1)

/-- The loop of `strrchr`, which walks down from the end of the string. -/
def strrchrLoop (s : CStr) (c : UInt8) : Nat → Option Nat
  | 0 => none
  | n + 1 => if charAt s n = c then some n else strrchrLoop s c n

/-- `strrchr`, as the position of the character found. When the loop finds nothing the source
compares the byte before the string, here `before`. -/
def strrchr (before : UInt8) (s : CStr) (c : UInt8) : Option Int :=
  match strrchrLoop s c (strlen s) with
  | some n => some n
  | none => if before = c then some (-1) else none

@[simp] theorem strlen_eq (s : CStr) : strlen s = s.length := by
  induction s with
  | nil => rfl
  | cons a s ih => exact congrArg (· + 1) ih

theorem strchr_lt {s : CStr} {c : UInt8} {n : Nat} (char : c ≠ 0) (h : strchr s c = some n) :
    n < s.length := by
  induction s generalizing n with
  | nil =>
    rw [strchr, if_neg char] at h
    contradiction
  | cons a s ih =>
    by_cases found : a = c
    · rw [strchr, if_pos found, Option.some.injEq] at h
      subst h
      exact Nat.succ_pos _
    · rw [strchr, if_neg found, Option.map_eq_some_iff] at h
      obtain ⟨k, hk, rfl⟩ := h
      exact Nat.succ_lt_succ (ih hk)

theorem strchr_none {s : CStr} {c : UInt8} (h : strchr s c = none) : c ∉ s := by
  induction s with
  | nil => exact List.not_mem_nil
  | cons a s ih =>
    by_cases found : a = c
    · rw [strchr, if_pos found] at h
      contradiction
    · rw [strchr, if_neg found, Option.map_eq_none_iff] at h
      rw [List.mem_cons, not_or]
      exact ⟨Ne.symm found, ih h⟩

/-- `strchr` cuts the string at the first `c`. -/
theorem strchr_some {s : CStr} {c : UInt8} {n : Nat} (char : c ≠ 0) (h : strchr s c = some n) :
    ∃ rest, s = s.take n ++ c :: rest ∧ s.drop n = c :: rest ∧ c ∉ s.take n := by
  induction s generalizing n with
  | nil =>
    rw [strchr, if_neg char] at h
    contradiction
  | cons a s ih =>
    by_cases found : a = c
    · rw [strchr, if_pos found, Option.some.injEq] at h
      subst h
      exact ⟨s, by simp [found], by simp [found], by simp⟩
    · rw [strchr, if_neg found, Option.map_eq_some_iff] at h
      obtain ⟨k, hk, rfl⟩ := h
      obtain ⟨rest, cut, behind, plain⟩ := ih hk
      refine ⟨rest, ?_, behind, ?_⟩
      · rw [List.take_succ_cons, List.cons_append, ← cut]
      · rw [List.take_succ_cons, List.mem_cons, not_or]
        exact ⟨Ne.symm found, plain⟩

theorem charAt_lt {s : CStr} {i : Nat} (h : i < s.length) : charAt s i = s[i] := by
  simp [charAt, h]

theorem strrchrLoop_none {s : CStr} {c : UInt8} {n : Nat} (h : strrchrLoop s c n = none) :
    ∀ j < n, charAt s j ≠ c := by
  induction n with
  | zero => exact fun j below => absurd below (Nat.not_lt_zero j)
  | succ n ih =>
    rw [strrchrLoop] at h
    by_cases found : charAt s n = c
    · rw [if_pos found] at h
      contradiction
    · rw [if_neg found] at h
      intro j below
      obtain less | same := Nat.lt_succ_iff_lt_or_eq.1 below
      · exact ih h j less
      · exact same ▸ found

theorem strrchrLoop_some {s : CStr} {c : UInt8} {n k : Nat} (h : strrchrLoop s c n = some k) :
    k < n ∧ charAt s k = c ∧ ∀ j, k < j → j < n → charAt s j ≠ c := by
  induction n with
  | zero => contradiction
  | succ n ih =>
    rw [strrchrLoop] at h
    by_cases found : charAt s n = c
    · rw [if_pos found, Option.some.injEq] at h
      subst h
      exact ⟨Nat.lt_succ_self n, found, fun j above below => by omega⟩
    · rw [if_neg found] at h
      obtain ⟨bound, here, last⟩ := ih h
      refine ⟨Nat.lt_succ_of_lt bound, here, fun j above below => ?_⟩
      obtain less | same := Nat.lt_succ_iff_lt_or_eq.1 below
      · exact last j above less
      · exact same ▸ found

section Strrchr

variable {before c : UInt8} {s : CStr}

theorem strrchr_none (h : strrchr before s c = none) : c ∉ s := by
  unfold strrchr at h
  cases search : strrchrLoop s c (strlen s) with
  | some n =>
    rw [search] at h
    contradiction
  | none =>
    intro mem
    obtain ⟨j, below, here⟩ := List.mem_iff_getElem.1 mem
    have below' : j < strlen s := by rwa [strlen_eq]
    exact strrchrLoop_none search j below' ((charAt_lt below).trans here)

/-- `strrchr` cuts the string at the last `c`. -/
theorem strrchr_some {i : Int} (other : before ≠ c) (h : strrchr before s c = some i) :
    ∃ start rest, s = start ++ c :: rest ∧ c ∉ rest ∧ i = start.length := by
  unfold strrchr at h
  cases search : strrchrLoop s c (strlen s) with
  | none =>
    rw [search] at h
    simp only [if_neg other] at h
    contradiction
  | some n =>
    rw [search] at h
    cases h
    obtain ⟨bound, here, last⟩ := strrchrLoop_some search
    rw [strlen_eq] at bound last
    rw [charAt_lt bound] at here
    refine ⟨s.take n, s.drop (n + 1), ?_, fun mem => ?_, ?_⟩
    · rw [← here, ← List.drop_eq_getElem_cons bound, List.take_append_drop]
    · obtain ⟨j, below, char⟩ := List.mem_iff_getElem.1 mem
      rw [List.length_drop] at below
      rw [List.getElem_drop] at char
      exact last (n + 1 + j) (by omega) (by omega) ((charAt_lt (by omega)).trans char)
    · rw [List.length_take, Nat.min_eq_left (Nat.le_of_lt bound)]

end Strrchr

theorem strcmp_self (s : CStr) : strcmp s s = 0 := by
  induction s with
  | nil => exact Int.sub_self _
  | cons a s ih =>
    rw [strcmp, if_neg (not_not.2 (Eq.refl a))]
    exact ih

@[simp] theorem streq_self (s : CStr) : streq s s = true :=
  decide_eq_true (strcmp_self s)

theorem charVal_inj {a b : UInt8} (h : charVal a = charVal b) : a = b := by
  apply UInt8.toNat_inj.1
  have := a.toNat_lt
  have := b.toNat_lt
  unfold charVal at h
  split at h <;> split at h <;> omega

theorem charVal_ne_zero {a : UInt8} (h : a ≠ 0) : charVal a ≠ 0 :=
  fun zero => h (charVal_inj zero)

/-- `streq` compares strings. -/
theorem streq_iff {s t : CStr} (hs : 0 ∉ s) (ht : 0 ∉ t) : streq s t = true ↔ s = t := by
  unfold streq
  rw [decide_eq_true_iff]
  induction s generalizing t with
  | nil =>
    cases t with
    | nil => exact ⟨fun _ => rfl, fun _ => rfl⟩
    | cons b t =>
      rw [List.mem_cons, not_or] at ht
      refine ⟨fun zero => ?_, fun same => nomatch same⟩
      have value : strcmp [] (b :: t) = -charVal b := Int.zero_sub _
      rw [value] at zero
      exact absurd (Int.neg_eq_zero.1 zero) (charVal_ne_zero (Ne.symm ht.1))
  | cons a s ih =>
    rw [List.mem_cons, not_or] at hs
    cases t with
    | nil =>
      refine ⟨fun zero => ?_, fun same => nomatch same⟩
      have value : strcmp (a :: s) [] = charVal a := Int.sub_zero _
      rw [value] at zero
      exact absurd zero (charVal_ne_zero (Ne.symm hs.1))
    | cons b t =>
      rw [List.mem_cons, not_or] at ht
      rw [strcmp, List.cons.injEq]
      by_cases same : a = b
      · rw [if_neg (not_not.2 same), ih hs.2 ht.2]
        exact ⟨fun rest => ⟨same, rest⟩, fun both => both.2⟩
      · rw [if_pos same]
        constructor
        · intro zero
          exact absurd (charVal_inj (Int.sub_eq_zero.1 zero)) same
        · intro both
          exact absurd both.1 same

/-- `strneq` over the length of its second string asks whether that one is a prefix. -/
theorem strneq_iff_isPrefix {s t : CStr} (terminated : 0 ∉ t) :
    strneq s t (strlen t) = true ↔ t <+: s := by
  unfold strneq
  rw [decide_eq_true_iff]
  induction t generalizing s with
  | nil =>
    cases s <;> simp [strncmp]
  | cons b t ih =>
    rw [List.mem_cons, not_or] at terminated
    cases s with
    | nil =>
      have differs : strncmp [] (b :: t) (strlen (b :: t)) = -charVal b := by
        rw [strlen, strncmp, if_neg (Nat.succ_ne_zero _)]
        · show charVal 0 - charVal b = -charVal b
          exact Int.zero_sub _
        · intros
          contradiction
      rw [differs]
      constructor
      · intro zero
        exact absurd (Int.neg_eq_zero.1 zero) (charVal_ne_zero (Ne.symm terminated.1))
      · intro prefixed
        exact absurd prefixed.length_le (Nat.not_succ_le_zero _)
    | cons a s =>
      rw [strlen, strncmp, List.cons_prefix_cons]
      by_cases same : a = b
      · rw [if_neg (not_not.2 same), ih terminated.2]
        simp [same]
      · rw [if_pos same]
        constructor
        · intro zero
          exact absurd (charVal_inj (Int.sub_eq_zero.1 zero)) same
        · intro prefixed
          exact absurd prefixed.1.symm same

end OsLab.Klib
