import OsLab.Lib.Memory

/-!
# Copies in memory (`klib/src/string.c`)

`memcpy` copies upwards, byte after byte. `memmove` copies downwards where the target overlaps the end
of the source, so that it never reads a byte it has written (`memmove_eq`).
-/

namespace OsLab.Klib

open OsLab.Memory

/-- `memcpy` -/
def memcpy (m : Mem) (out src : Nat) : Nat → Mem
  | 0 => m
  | n + 1 => memcpy (store m out 1 fun _ => m src) (out + 1) (src + 1) n

/-- The loop of `memmove` from the last byte down to the first. -/
def memmoveLoop (m : Mem) (out src : Nat) : Nat → Mem
  | 0 => m
  | n + 1 => memmoveLoop (store m (out + n) 1 fun _ => m (src + n)) out src n

/-- `memmove` -/
def memmove (m : Mem) (out src n : Nat) : Mem :=
  if src < out ∧ out < src + n then memmoveLoop m out src n else memcpy m out src n

variable {m : Mem} {out src n : Nat}

/-- `memcpy` of a source that does not begin before the end of the target. -/
theorem memcpy_eq (h : out ≤ src ∨ src + n ≤ out) : memcpy m out src n = store m out n fun k => m (src + k) := by
  induction n generalizing m out src with
  | zero =>
    funext x
    rw [memcpy, store_outside (by omega)]
  | succ n ih =>
    rw [memcpy, ih (by omega)]
    funext x
    by_cases inside : out + 1 ≤ x ∧ x < out + 1 + n
    · -- the byte is read where nothing has been written yet
      have unread : store m out 1 (fun _ => m src) (src + 1 + (x - (out + 1))) = m (src + (x - out)) := by
        rw [store_outside (by omega)]
        congr 1
        omega
      rw [store_inside inside.1 inside.2, unread, store_inside (by omega) (by omega)]
    · rw [store_outside (by omega)]
      rcases eq_or_ne x out with rfl | other
      · rw [store_inside (by omega) (by omega), store_inside (by omega) (by omega), Nat.sub_self, Nat.add_zero]
      · rw [store_outside (by omega), store_outside (by omega)]

theorem memmoveLoop_eq (h : src ≤ out) : memmoveLoop m out src n = store m out n fun k => m (src + k) := by
  induction n generalizing m with
  | zero =>
    funext x
    rw [memmoveLoop, store_outside (by omega)]
  | succ n ih =>
    rw [memmoveLoop, ih]
    funext x
    by_cases inside : out ≤ x ∧ x < out + n
    · have unread : store m (out + n) 1 (fun _ => m (src + n)) (src + (x - out)) = m (src + (x - out)) :=
        store_outside (by omega)
      rw [store_inside inside.1 inside.2, unread, store_inside (by omega) (by omega)]
    · rw [store_outside (by omega)]
      rcases eq_or_ne x (out + n) with rfl | other
      · rw [store_inside (by omega) (by omega), store_inside (by omega) (by omega), Nat.add_sub_cancel_left]
      · rw [store_outside (by omega), store_outside (by omega)]

/-- `memmove` copies as if through another buffer. -/
theorem memmove_eq (m : Mem) (out src n : Nat) : memmove m out src n = store m out n fun k => m (src + k) := by
  unfold memmove
  split
  · exact memmoveLoop_eq (by omega)
  · exact memcpy_eq (by omega)

end OsLab.Klib
