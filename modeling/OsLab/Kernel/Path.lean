import OsLab.Klib.String
import OsLab.Kernel.Pmm.Model

/-!
# Paths (`path.c`)

The functions return fresh strings from `alloc`, which clears the payload, so that `substr`
leaves a terminated string. `path_get_directory` and `path_get_name` also look at the byte before
the copied string: the last byte of the header in front of the payload.
-/

namespace OsLab.Kernel

open OsLab.Klib

/-- The character `'/'`. -/
def slash : UInt8 := 47

/-- The byte before an allocated string: the high byte of the header's `data`. -/
def headerByte : UInt8 := UInt8.ofNat (Pmm.blockMagic / 2 ^ 24)

/-- The last character of a string in allocated memory, the header's byte for the empty string. -/
def lastChar (s : CStr) : UInt8 := s.getLastD headerByte

/-- `path_join`. The source copies the empty string where one of its arguments is empty. -/
def pathJoin (base child : CStr) : CStr :=
  if strlen base = 0 then base
  else if strlen child = 0 then child
  else if lastChar base = slash then
    if charAt child 0 = slash then base ++ child.drop 1 else base ++ child
  else if charAt child 0 = slash then base ++ child
  else base ++ slash :: child

/-- Where `path_get_directory` and `path_get_name` find the last `'/'`, a trailing one left out. -/
def lastSlash (path : CStr) : Option Int :=
  if lastChar path = slash then strrchr headerByte path.dropLast slash
  else strrchr headerByte path slash

/-- `path_get_directory` -/
def pathGetDirectory (path : CStr) : CStr :=
  match lastSlash path with
  | some rp => path.take (rp + 1).toNat
  | none => path

/-- `path_get_name` -/
def pathGetName (path : CStr) : CStr :=
  let buf := if lastChar path = slash then path.dropLast else path
  match lastSlash path with
  | some rp => buf.drop (rp + 1).toNat
  | none => []

/-- `path_next_name`: the next component and the rest of the path behind it. -/
def pathNextName (path : CStr) : Option (CStr × Option CStr) :=
  let cur := if charAt path 0 = slash then path.drop 1 else path
  if strlen cur = 0 then none
  else
    match strchr cur slash with
    | none => some (cur, none)
    | some next => some (cur.take next, some (cur.drop next))

theorem strchr_pos {s : CStr} {c : UInt8} {n : Nat} (first : charAt s 0 ≠ c)
    (h : strchr s c = some n) : s = [] ∨ 0 < n := by
  cases s with
  | nil => exact .inl rfl
  | cons a s =>
    have differs : a ≠ c := first
    rw [strchr, if_neg differs, Option.map_eq_some_iff] at h
    obtain ⟨k, -, hk⟩ := h
    exact .inr (hk ▸ Nat.succ_pos k)

/-- The rest of a path is shorter than the path. -/
theorem pathNextName_shorter {path name rest : CStr} (h : pathNextName path = some (name, some rest)) :
    rest.length < path.length := by
  have notNul : slash ≠ 0 := by decide
  unfold pathNextName at h
  generalize hcur : (if charAt path 0 = slash then path.drop 1 else path) = cur at h
  simp only [strlen_eq] at h
  obtain ⟨next, found, hrest⟩ : ∃ next, strchr cur slash = some next ∧ rest = cur.drop next := by
    split at h
    · contradiction
    · split at h
      · cases h
      · cases h
        exact ⟨_, by assumption, rfl⟩
  have inside := strchr_lt notNul found
  rw [hrest, List.length_drop]
  by_cases lead : charAt path 0 = slash
  · rw [if_pos lead] at hcur
    have shorter : cur.length = path.length - 1 := by rw [← hcur, List.length_drop]
    omega
  · rw [if_neg lead] at hcur
    subst hcur
    obtain rfl | moved := strchr_pos lead found
    · exact absurd inside (Nat.not_lt_zero _)
    · omega

end OsLab.Kernel
