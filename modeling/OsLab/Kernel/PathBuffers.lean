import OsLab.Kernel.Components
import OsLab.Klib.Correct
import OsLab.Klib.StringBuffers

/-!
# Paths in allocated memory (`path.c`)

The functions of `path.c` once more, with the buffers they allocate, scribble in and copy between. `alloc` clears what
it returns. A path of the caller is a buffer that ends with its terminator, so that a read behind it halts; where a run
returns, its result is the string of `Kernel.Path` in a buffer.
-/

namespace OsLab.Kernel.Buffers

open OsLab.Klib OsLab.Buffer

/-- `pmm->alloc` -/
def alloc (size : Nat) : List UInt8 := List.replicate size 0

/-- `string_create_copy` -/
def stringCreateCopy (src : List UInt8) (p : Int) : Except Halt (List UInt8) := do
  let len ← Checked.strlen src p
  Checked.strcpy (alloc (len + 1).toNat) src p

/-- The search for the last slash of the copy `buf`, in which a trailing slash is overwritten. -/
def searchSlash (buf : List UInt8) (len : Int) : Except Halt (List UInt8 × Option Int) := do
  let last ← checked (load buf (len - 1))
  let buf ← if last = slash then checked (put buf (len - 1) 0) else .ok buf
  let rp ← Checked.strrchr buf slash
  .ok (buf, rp)

/-- A trailing slash is put back. -/
def putBack (last : UInt8) (buf : List UInt8) (len : Int) : Except Halt (List UInt8) :=
  if last = slash then checked (put buf (len - 1) slash) else .ok buf

/-- `path_get_directory`; a trailing slash is put back before the copy is cut. -/
def pathGetDirectory (path : List UInt8) : Except Halt (List UInt8) := do
  let len ← Checked.strlen path 0
  let buf ← stringCreateCopy path 0
  let res := alloc (len + 1).toNat
  let buf ← Checked.strcpy buf path 0
  let last ← checked (load buf (len - 1))
  let (buf, rp) ← searchSlash buf len
  let buf ← putBack last buf len
  Checked.substr res buf 0 (rp.elim len fun rp => rp + 1).toNat

/-- `path_get_name` -/
def pathGetName (path : List UInt8) : Except Halt (List UInt8) := do
  let len ← Checked.strlen path 0
  let buf ← stringCreateCopy path 0
  let (buf, rp) ← searchSlash buf len
  match rp with
  | none => stringCreateCopy [0] 0
  | some rp => stringCreateCopy buf (rp + 1)

/-- `path_join`, with the buffer of `vsnprintf` and the memory in front of its digits. -/
def pathJoin (below : Nat → UInt8) (vsn : List UInt8) (base child : CStr) : Except Halt (List UInt8 × List UInt8) := do
  let lb := strlen base
  let lc := strlen child
  let res := alloc (lb + lc + 2)
  if lb = 0 then do
    let res ← Checked.strcpy res (base ++ [0]) 0
    .ok (res, vsn)
  else if lc = 0 then do
    let res ← Checked.strcpy res (child ++ [0]) 0
    .ok (res, vsn)
  else if charAt base (lb - 1) = slash then
    if charAt child 0 = slash then do
      let (_, res, vsn) ← sprintf below vsn res (text "%s%s") [.str base, .str (child.drop 1)]
      .ok (res, vsn)
    else do
      let (_, res, vsn) ← sprintf below vsn res (text "%s%s") [.str base, .str child]
      .ok (res, vsn)
  else
    if charAt child 0 = slash then do
      let (_, res, vsn) ← sprintf below vsn res (text "%s%s") [.str base, .str child]
      .ok (res, vsn)
    else do
      let (_, res, vsn) ← sprintf below vsn res (text "%s/%s") [.str base, .str child]
      .ok (res, vsn)

/-! ## Directory and name -/

section Split

variable {start name tail s buf : List UInt8} {c : UInt8} {i : Int}

theorem stringCreateCopy_run (front rest : List UInt8) (plain : 0 ∉ s) (place : (front.length : Int) = i) :
    stringCreateCopy (front ++ (s ++ 0 :: rest)) i = .ok (s ++ [0]) := by
  have room : s.length < (alloc (s.length + 1 : Int).toNat).length := by simp [alloc]
  rw [stringCreateCopy, Checked.strlen_run front rest plain place, ok_bind, Checked.strcpy_run front rest plain place room]
  simp [alloc]

/-- The last character is read, and overwritten, in front of the terminator. -/
theorem last_run (s : List UInt8) (c : UInt8) :
    checked (load (s ++ [c] ++ [0]) (((s ++ [c]).length : Int) - 1)) = .ok c ∧
      ∀ a, checked (put (s ++ [c] ++ [0]) (((s ++ [c]).length : Int) - 1) a) = .ok (s ++ [a] ++ [0]) := by
  have place : (s.length : Int) = ((s ++ [c]).length : Int) - 1 := by simp
  simp only [List.append_assoc, List.singleton_append] at place ⊢
  exact ⟨Checked.load_checked place, fun a => Checked.put_checked place⟩

/-- A name ends in a character that is not a slash. -/
theorem last_of_name (plain : slash ∉ name) (named : name ≠ []) : ∃ front c, name = front ++ [c] ∧ c ≠ slash := by
  obtain ⟨front, c, rfl⟩ := (List.eq_nil_or_concat' name).resolve_left named
  refine ⟨front, c, rfl, ?_⟩
  rintro rfl
  simp at plain

theorem notMem_whole (ended : 0 ∉ start) (terminated : 0 ∉ name) (behind : tail = [] ∨ tail = [slash]) :
    0 ∉ start ++ slash :: name ++ tail := by
  rcases behind with rfl | rfl <;> simp [ended, terminated, Ne.symm slash_ne_nul]

/-- The slash before the name is found, with the character behind the name overwritten or with none there. -/
theorem searchSlash_run (ended : 0 ∉ start) (plain : slash ∉ name) (terminated : 0 ∉ name) (named : name ≠ [])
    (behind : tail = [] ∨ tail = [slash]) :
    searchSlash (start ++ slash :: name ++ tail ++ [0]) (start ++ slash :: name ++ tail).length =
      .ok (start ++ slash :: name ++ alloc tail.length ++ [0], some start.length) := by
  have found (rest : List UInt8) : Checked.strrchr (start ++ slash :: name ++ 0 :: rest) slash = .ok (some start.length) := by
    rw [List.append_assoc]
    exact Checked.strrchr_run rest slash_ne_nul ended plain terminated
  rcases behind with rfl | rfl
  · obtain ⟨front, c, rfl, other⟩ := last_of_name plain named
    have read := (last_run (start ++ slash :: front) c).1
    have none : alloc ([] : CStr).length = [] := rfl
    rw [none, List.append_nil, searchSlash]
    simp only [List.append_assoc, List.cons_append] at read found ⊢
    rw [read, ok_bind, if_neg other, ok_bind, found, ok_bind]
  · obtain ⟨read, write⟩ := last_run (start ++ slash :: name) slash
    have one : alloc [slash].length = [0] := rfl
    rw [one, searchSlash, read, ok_bind, if_pos rfl, write, List.append_assoc, List.singleton_append]
    dsimp only [ok_bind]
    rw [found, ok_bind]

/-- The directory is copied to the start of cleared memory. -/
theorem substr_directory (ended : 0 ∉ start) (rest : List UInt8) (len : Nat) (room : start.length < len) :
    Checked.substr (alloc len) (start ++ slash :: rest) 0 ((start.length : Int) + 1).toNat =
      .ok (start ++ [slash] ++ alloc (len - (start.length + 1))) := by
  have plain : 0 ∉ start ++ [slash] := by simp [ended, Ne.symm slash_ne_nul]
  have space : (start ++ [slash]).length ≤ (alloc len).length := by
    simp [alloc]
    omega
  have count : ((start.length : Int) + 1).toNat = (start ++ [slash]).length := by simp
  have whole : start ++ slash :: rest = start ++ [slash] ++ rest := by simp
  rw [count, whole, Checked.substr_run rest plain (by simp) space]
  simp [alloc]

theorem strlen_whole (plain : 0 ∉ s) : Checked.strlen (s ++ [0]) 0 = .ok s.length :=
  Checked.strlen_run [] [] plain rfl

theorem copy_whole (plain : 0 ∉ s) : stringCreateCopy (s ++ [0]) 0 = .ok (s ++ [0]) :=
  stringCreateCopy_run [] [] plain rfl

theorem strcpy_whole (plain : 0 ∉ s) : Checked.strcpy (s ++ [0]) (s ++ [0]) 0 = .ok (s ++ [0]) := by
  have room : s.length < (s ++ [(0 : UInt8)]).length := by simp
  simpa using Checked.strcpy_run [] [] plain rfl room

theorem putBack_run (start : List UInt8) (plain : slash ∉ name) (named : name ≠ []) (behind : tail = [] ∨ tail = [slash]) : ∃ last rest,
    checked (load (start ++ slash :: name ++ tail ++ [0]) ((start ++ slash :: name ++ tail).length - 1)) = .ok last ∧
      putBack last (start ++ slash :: name ++ alloc tail.length ++ [0]) (start ++ slash :: name ++ tail).length =
        .ok (start ++ slash :: rest) := by
  rcases behind with rfl | rfl
  · obtain ⟨front, c, rfl, other⟩ := last_of_name plain named
    have read := (last_run (start ++ slash :: front) c).1
    refine ⟨c, front ++ [c] ++ [0], ?_, ?_⟩
    · rw [List.append_nil]
      simpa only [List.append_assoc, List.cons_append] using read
    · rw [putBack, if_neg other]
      simp [alloc]
  · have length : (start ++ slash :: name ++ [slash]).length = (start ++ slash :: name ++ [(0 : UInt8)]).length := by simp
    refine ⟨slash, name ++ [slash] ++ [0], (last_run (start ++ slash :: name) slash).1, ?_⟩
    have one : alloc [slash].length = [0] := rfl
    rw [putBack, if_pos rfl, one, length, (last_run (start ++ slash :: name) 0).2]
    simp

/-- `path_get_directory` of a path that ends in a name, with a slash behind it or without. -/
theorem pathGetDirectory_run (ended : 0 ∉ start) (plain : slash ∉ name) (terminated : 0 ∉ name) (named : name ≠ [])
    (behind : tail = [] ∨ tail = [slash]) : pathGetDirectory (start ++ slash :: name ++ tail ++ [0]) =
      .ok (start ++ [slash] ++ alloc (name.length + tail.length + 1)) := by
  have whole := notMem_whole ended terminated behind
  have size : ((start ++ slash :: name ++ tail).length + 1 : Int).toNat =
      start.length + 1 + (name.length + tail.length + 1) := by
    simp
    omega
  obtain ⟨last, rest, read, back⟩ := putBack_run start plain named behind
  rw [pathGetDirectory, strlen_whole whole, ok_bind, copy_whole whole, ok_bind, strcpy_whole whole, ok_bind, read, ok_bind,
    searchSlash_run ended plain terminated named behind, ok_bind]
  dsimp only
  rw [back, ok_bind, size]
  exact (substr_directory ended rest _ (by omega)).trans (by rw [Nat.add_sub_cancel_left])

/-- `path_get_name` of such a path. -/
theorem pathGetName_run (ended : 0 ∉ start) (plain : slash ∉ name) (terminated : 0 ∉ name) (named : name ≠ [])
    (behind : tail = [] ∨ tail = [slash]) : pathGetName (start ++ slash :: name ++ tail ++ [0]) = .ok (name ++ [0]) := by
  have whole := notMem_whole ended terminated behind
  have copy (rest : List UInt8) : stringCreateCopy (start ++ [slash] ++ (name ++ 0 :: rest)) (start.length + 1) = .ok (name ++ [0]) :=
    stringCreateCopy_run _ rest terminated (by simp)
  rw [pathGetName, strlen_whole whole, ok_bind, copy_whole whole, ok_bind,
    searchSlash_run ended plain terminated named behind, ok_bind]
  dsimp only
  rcases behind with rfl | rfl
  · simpa [alloc] using copy []
  · simpa [alloc] using copy [0]

/-- **Directory and name.** `path_get_directory` gives `d` and `path_get_name` gives `n` for the paths `dn` and `dn/`, as
terminated strings in memory of their own, and nothing behind the terminator of the path is read. -/
theorem path_split {d n : CStr} (directory : d.getLast? = some slash) (ended : 0 ∉ d) (plain : slash ∉ n)
    (terminated : 0 ∉ n) (named : n ≠ []) (behind : tail = [] ∨ tail = [slash]) :
    pathGetDirectory (d ++ n ++ tail ++ [0]) = .ok (d ++ alloc (n.length + tail.length + 1)) ∧
      pathGetName (d ++ n ++ tail ++ [0]) = .ok (n ++ [0]) ∧
      Kernel.pathGetDirectory (d ++ n ++ tail) = d ∧ Kernel.pathGetName (d ++ n ++ tail) = n := by
  obtain ⟨start, rfl⟩ : ∃ start, d = start ++ [slash] := List.getLast?_eq_some_iff.1 directory
  have whole : start ++ [slash] ++ n ++ tail = start ++ slash :: n ++ tail := by simp
  rw [List.mem_append, not_or] at ended
  rw [whole]
  exact ⟨pathGetDirectory_run ended.1 plain terminated named behind,
    pathGetName_run ended.1 plain terminated named behind, split_append plain named behind⟩

/-- `/bin/ls/` -/
theorem path_split_ls : pathGetDirectory (text "/bin/" ++ text "ls" ++ [slash] ++ [0]) = .ok (text "/bin/" ++ alloc 4) ∧
    pathGetName (text "/bin/" ++ text "ls" ++ [slash] ++ [0]) = .ok (text "ls" ++ [0]) ∧
    Kernel.pathGetDirectory (text "/bin/" ++ text "ls" ++ [slash]) = text "/bin/" ∧
    Kernel.pathGetName (text "/bin/" ++ text "ls" ++ [slash]) = text "ls" :=
  path_split (by decide) (by decide) (by decide) (by decide) (by decide) (.inr rfl)

end Split

end OsLab.Kernel.Buffers
