import OsLab.Kernel.Debug
import OsLab.Klib.Stdio
import OsLab.Lib.Except
import Mathlib.Data.List.Induction

/-!
# The string functions on buffers (`klib/src/string.c`)

Here a string is a buffer and a place in it, and every character that is read or stored is checked against the buffer.
A run that does not halt has read no character behind a terminator, nor stored one outside of the destination.
-/

namespace OsLab.Klib.Checked

open OsLab.Buffer
open OsLab.Kernel (Halt)

/-- The loop of `strlen`; it ends inside the buffer or is stopped at its end. -/
def strlenLoop (s : List UInt8) : Nat → Int → Except Halt Int
  | 0, _ => .error .diverge
  | fuel + 1, sc => do
    let c ← checked (load s sc)
    if c ≠ 0 then strlenLoop s fuel (sc + 1) else .ok sc

/-- `strlen` of the string at `p` -/
def strlen (s : List UInt8) (p : Int) : Except Halt Int := do
  let sc ← strlenLoop s (s.length + 1) p
  .ok (sc - p)

/-- The loop of `strcpy` -/
def strcpyLoop (src : List UInt8) : Nat → List UInt8 → Int → Int → Except Halt (List UInt8)
  | 0, _, _, _ => .error .diverge
  | fuel + 1, dst, sc, su => do
    let c ← checked (load src su)
    let dst ← checked (put dst sc c)
    if c ≠ 0 then strcpyLoop src fuel dst (sc + 1) (su + 1) else .ok dst

/-- `strcpy` of the string at `p` to the start of `dst` -/
def strcpy (dst src : List UInt8) (p : Int) : Except Halt (List UInt8) :=
  strcpyLoop src (src.length + 1) dst 0 p

/-- The first loop of `strncpy`, as `n - i`, `sc` and `su`: it leaves `sc` behind a NUL it has copied, and `i` at it. -/
def strncpyLoop (src : List UInt8) : Nat → List UInt8 → Int → Int → Except Halt (List UInt8 × Nat × Int)
  | 0, dst, sc, _ => .ok (dst, 0, sc)
  | n + 1, dst, sc, su => do
    let c ← checked (load src su)
    let dst ← checked (put dst sc c)
    if c ≠ 0 then strncpyLoop src n dst (sc + 1) (su + 1) else .ok (dst, n + 1, sc + 1)

/-- The second loop of `strncpy` -/
def padLoop : Nat → List UInt8 → Int → Except Halt (List UInt8)
  | 0, dst, _ => .ok dst
  | n + 1, dst, sc => do
    let dst ← checked (put dst sc 0)
    padLoop n dst (sc + 1)

/-- `strncpy` of the string at `p` to the start of `dst` -/
def strncpy (dst src : List UInt8) (p : Int) (n : Nat) : Except Halt (List UInt8) :=
  if n = 0 then checked (put dst 0 0)
  else do
    let (dst, rest, sc) ← strncpyLoop src n dst 0 p
    padLoop rest dst sc

/-- `substr` -/
def substr (dst src : List UInt8) (start count : Nat) : Except Halt (List UInt8) := strncpy dst src start count

/-- The loop of `strrchr`, over a string at the start of a buffer. -/
def strrchrLoop (s : List UInt8) (c : UInt8) : Nat → Int → Except Halt Int
  | 0, _ => .error .diverge
  | fuel + 1, ts =>
    if ts ≥ 0 then do
      let a ← checked (load s ts)
      if a ≠ c then strrchrLoop s c fuel (ts - 1) else .ok ts
    else .ok ts

/-- `strrchr` -/
def strrchr (s : List UInt8) (c : UInt8) : Except Halt (Option Int) := do
  let len ← strlen s 0
  let ts ← strrchrLoop s c (s.length + 1) (len - 1)
  let a ← checked (load s ts)
  .ok (if a ≠ c then none else some ts)

/-- The loop of `strncmp` over the strings at the start of two buffers, and what is returned behind it. -/
def strncmpLoop (s1 s2 : List UInt8) (n : Nat) : Nat → Nat → Except Halt Int
  | 0, _ => .error .diverge
  | fuel + 1, i => do
    let a ← checked (load s1 i)
    let b ← if a = 0 then .ok 0 else checked (load s2 i)
    if a ≠ 0 ∧ b ≠ 0 ∧ i < n then
      if a ≠ b then .ok (charVal a - charVal b) else strncmpLoop s1 s2 n fuel (i + 1)
    else if i = n then .ok 0
    else do
      let b ← checked (load s2 i)
      .ok (charVal a - charVal b)

/-- `strncmp` -/
def strncmp (s1 s2 : List UInt8) (n : Nat) : Except Halt Int := strncmpLoop s1 s2 n (s1.length + 1) 0

section Runs

variable {fuel n : Nat} {front s rest out : List UInt8} {p sc su : Int} {c : UInt8}

theorem load_checked (place : (front.length : Int) = p) : checked (load (front ++ c :: rest) p) = .ok c := by
  subst place
  rw [load_at rfl]
  rfl

theorem put_checked {a : UInt8} (place : (front.length : Int) = p) :
    checked (put (front ++ c :: rest) p a) = .ok (front ++ a :: rest) := by
  subst place
  rw [put_at rfl]
  rfl

theorem strlenLoop_run (plain : 0 ∉ s) (place : (front.length : Int) = sc) (enough : s.length < fuel) :
    strlenLoop (front ++ (s ++ 0 :: rest)) fuel sc = .ok (sc + s.length) := by
  induction s generalizing fuel front sc with
  | nil =>
    obtain ⟨fuel, rfl⟩ := Nat.exists_eq_succ_of_ne_zero (Nat.ne_of_gt enough)
    rw [List.nil_append, strlenLoop, load_checked place, ok_bind]
    simp
  | cons a s ih =>
    obtain ⟨fuel, rfl⟩ := Nat.exists_eq_succ_of_ne_zero (Nat.ne_zero_of_lt enough)
    rw [List.mem_cons, not_or] at plain
    rw [List.length_cons] at enough ⊢
    have next : strlenLoop (front ++ [a] ++ (s ++ 0 :: rest)) fuel (sc + 1) = .ok (sc + 1 + s.length) :=
      ih plain.2 (by simp [place]) (by omega)
    rw [List.append_assoc, List.singleton_append] at next
    rw [List.cons_append, strlenLoop, load_checked place, ok_bind, if_pos (Ne.symm plain.1), next]
    congr 1
    omega

theorem strlen_run (front rest : List UInt8) (plain : 0 ∉ s) (place : (front.length : Int) = p) :
    strlen (front ++ (s ++ 0 :: rest)) p = .ok s.length := by
  have enough : s.length < (front ++ (s ++ 0 :: rest)).length + 1 := by
    simp
    omega
  rw [strlen, strlenLoop_run plain place enough, ok_bind]
  congr 1
  omega

theorem strcpyLoop_run {done : List UInt8} (plain : 0 ∉ s) (source : (front.length : Int) = su)
    (place : (done.length : Int) = sc) (room : s.length < out.length) (enough : s.length < fuel) :
    strcpyLoop (front ++ (s ++ 0 :: rest)) fuel (done ++ out) sc su =
      .ok (done ++ (s ++ 0 :: out.drop (s.length + 1))) := by
  induction s generalizing fuel front done out sc su with
  | nil =>
    obtain ⟨fuel, rfl⟩ := Nat.exists_eq_succ_of_ne_zero (Nat.ne_of_gt enough)
    obtain ⟨o, out, rfl⟩ := List.exists_cons_of_length_pos room
    rw [List.nil_append, strcpyLoop, load_checked source, ok_bind, put_checked place, ok_bind]
    simp
  | cons a s ih =>
    obtain ⟨fuel, rfl⟩ := Nat.exists_eq_succ_of_ne_zero (Nat.ne_zero_of_lt enough)
    obtain ⟨o, out, rfl⟩ := List.exists_cons_of_length_pos (Nat.zero_lt_of_lt room)
    rw [List.mem_cons, not_or] at plain
    rw [List.length_cons] at enough
    rw [List.length_cons, List.length_cons] at room
    have next : strcpyLoop (front ++ [a] ++ (s ++ 0 :: rest)) fuel (done ++ [a] ++ out) (sc + 1) (su + 1) =
        .ok (done ++ [a] ++ (s ++ 0 :: out.drop (s.length + 1))) :=
      ih plain.2 (by simp [source]) (by simp [place]) (by omega) (by omega)
    simp only [List.append_assoc, List.singleton_append] at next
    rw [List.cons_append, strcpyLoop, load_checked source, ok_bind, put_checked place, ok_bind,
      if_pos (Ne.symm plain.1), next]
    simp

/-- A copy needs room for the terminator. -/
theorem strcpy_run (front rest : List UInt8) (plain : 0 ∉ s) (source : (front.length : Int) = p) (room : s.length < out.length) :
    strcpy out (front ++ (s ++ 0 :: rest)) p = .ok (s ++ 0 :: out.drop (s.length + 1)) := by
  have enough : s.length < (front ++ (s ++ 0 :: rest)).length + 1 := by
    simp
    omega
  have loop : strcpyLoop (front ++ (s ++ 0 :: rest)) ((front ++ (s ++ 0 :: rest)).length + 1) ([] ++ out) 0 p =
      .ok ([] ++ (s ++ 0 :: out.drop (s.length + 1))) := strcpyLoop_run plain source rfl room enough
  exact loop

theorem strncpyLoop_run {done : List UInt8} (plain : 0 ∉ s) (source : (front.length : Int) = su)
    (place : (done.length : Int) = sc) (room : s.length ≤ out.length) :
    strncpyLoop (front ++ (s ++ rest)) s.length (done ++ out) sc su =
      .ok (done ++ (s ++ out.drop s.length), 0, sc + s.length) := by
  induction s generalizing front done out sc su with
  | nil => simp [strncpyLoop]
  | cons a s ih =>
    obtain ⟨o, out, rfl⟩ := List.exists_cons_of_length_pos (Nat.lt_of_lt_of_le (Nat.succ_pos _) room)
    rw [List.mem_cons, not_or] at plain
    rw [List.length_cons, List.length_cons] at room
    have next : strncpyLoop (front ++ [a] ++ (s ++ rest)) s.length (done ++ [a] ++ out) (sc + 1) (su + 1) =
        .ok (done ++ [a] ++ (s ++ out.drop s.length), 0, sc + 1 + s.length) :=
      ih plain.2 (by simp [source]) (by simp [place]) (by omega)
    simp only [List.append_assoc, List.singleton_append] at next
    rw [List.cons_append, List.length_cons, strncpyLoop, load_checked source, ok_bind, put_checked place, ok_bind,
      if_pos (Ne.symm plain.1), next]
    simp
    omega

/-- `substr` up to a character before the terminator stores no NUL of its own. -/
theorem substr_run (rest : List UInt8) (plain : 0 ∉ s) (some : s ≠ []) (room : s.length ≤ out.length) :
    substr out (s ++ rest) 0 s.length = .ok (s ++ out.drop s.length) := by
  have loop : strncpyLoop ([] ++ (s ++ rest)) s.length ([] ++ out) 0 0 = .ok ([] ++ (s ++ out.drop s.length), 0, 0 + s.length) :=
    strncpyLoop_run plain rfl rfl room
  simp only [List.nil_append] at loop
  have long : s.length ≠ 0 := by simpa using some
  rw [substr, strncpy, if_neg long]
  exact loop ▸ rfl

/-- The loop goes down over characters that are not looked for. -/
theorem strrchrLoop_run (plain : c ∉ s) (place : (front.length : Int) + s.length = sc) (enough : s.length < fuel) :
    strrchrLoop (front ++ (c :: s ++ rest)) c fuel sc = .ok front.length := by
  induction s using List.reverseRecOn generalizing fuel rest sc with
  | nil =>
    obtain ⟨fuel, rfl⟩ := Nat.exists_eq_succ_of_ne_zero (Nat.ne_of_gt enough)
    have start : (front.length : Int) = sc := by simpa using place
    rw [strrchrLoop, if_pos (by omega), List.cons_append, load_checked start, ok_bind]
    simp [start]
  | append_singleton s a ih =>
    obtain ⟨fuel, rfl⟩ := Nat.exists_eq_succ_of_ne_zero (Nat.ne_zero_of_lt enough)
    rw [List.mem_append, List.mem_singleton, not_or] at plain
    rw [List.length_append, List.length_singleton] at place enough
    have last : checked (load (front ++ (c :: (s ++ [a]) ++ rest)) sc) = .ok a := by
      have whole : front ++ (c :: (s ++ [a]) ++ rest) = front ++ c :: s ++ a :: rest := by simp
      rw [whole]
      exact load_checked (by simp; omega)
    have next : strrchrLoop (front ++ (c :: s ++ a :: rest)) c fuel (sc - 1) = .ok front.length :=
      ih plain.1 (by omega) (by omega)
    rw [strrchrLoop, if_pos (by omega), last, ok_bind, if_pos (Ne.symm plain.2)]
    simpa using next

/-- `strrchr` of a string in which the character occurs. -/
theorem strrchr_run (rest : List UInt8) (char : c ≠ 0) (start : 0 ∉ front) (plain : c ∉ s) (terminated : 0 ∉ s) :
    strrchr (front ++ (c :: s ++ 0 :: rest)) c = .ok (some front.length) := by
  have whole : 0 ∉ front ++ c :: s := by
    simp [start, terminated, Ne.symm char]
  have length : strlen ([] ++ ((front ++ c :: s) ++ 0 :: rest)) 0 = .ok (front ++ c :: s).length :=
    strlen_run [] rest whole rfl
  have loop : strrchrLoop (front ++ (c :: s ++ 0 :: rest)) c ((front ++ (c :: s ++ 0 :: rest)).length + 1)
      ((front ++ c :: s).length - 1) = .ok front.length :=
    strrchrLoop_run plain (by simp; omega) (by simp; omega)
  rw [List.nil_append, List.append_assoc] at length
  rw [strrchr, length, ok_bind, loop, ok_bind, List.cons_append, load_checked rfl, ok_bind]
  simp

/-- Both strings are read up to where they differ or end, or one character behind the `n` they share. -/
theorem strncmpLoop_run {t front' : List UInt8} {i : Nat} (plain : 0 ∉ s) (plain' : 0 ∉ t) (first : front.length = i)
    (second : front'.length = i) (enough : s.length < fuel) :
    strncmpLoop (front ++ (s ++ [0])) (front' ++ (t ++ [0])) (i + n) fuel i = .ok (Klib.strncmp s t n) := by
  have read (rest : List UInt8) (c : UInt8) : checked (load (front ++ c :: rest) i) = .ok c := load_checked (by simp [first])
  have read' (rest : List UInt8) (c : UInt8) : checked (load (front' ++ c :: rest) i) = .ok c := load_checked (by simp [second])
  induction s generalizing fuel front front' t n i with
  | nil =>
    obtain ⟨fuel, rfl⟩ := Nat.exists_eq_succ_of_ne_zero (Nat.ne_of_gt enough)
    cases n <;> cases t <;> simp [strncmpLoop, Klib.strncmp, read, read', charAt]
  | cons a s ih =>
    obtain ⟨fuel, rfl⟩ := Nat.exists_eq_succ_of_ne_zero (Nat.ne_zero_of_lt enough)
    rw [List.mem_cons, not_or] at plain
    rw [List.length_cons] at enough
    cases t with
    | nil => cases n <;> simp [strncmpLoop, Klib.strncmp, read, read', charAt]
    | cons b t =>
      rw [List.mem_cons, not_or] at plain'
      cases n with
      | zero => simp [strncmpLoop, Klib.strncmp, read, read']
      | succ n =>
        have next : strncmpLoop (front ++ [a] ++ (s ++ [0])) (front' ++ [b] ++ (t ++ [0])) (i + 1 + n) fuel (i + 1) =
            .ok (Klib.strncmp s t n) :=
          ih plain.2 plain'.2 (by simp [first]) (by simp [second]) (by omega) (fun rest c => load_checked (by simp [first]))
            (fun rest c => load_checked (by simp [second]))
        simp only [List.append_assoc, List.singleton_append] at next
        have more : a ≠ 0 ∧ b ≠ 0 ∧ i < i + (n + 1) := ⟨Ne.symm plain.1, Ne.symm plain'.1, by omega⟩
        rw [List.cons_append, List.cons_append, strncmpLoop, read, ok_bind, if_neg more.1, read']
        dsimp only [ok_bind]
        rw [if_pos more, Klib.strncmp, Nat.add_comm n 1, ← Nat.add_assoc, next]
        split <;> rfl

theorem strncmp_run {t : List UInt8} (plain : 0 ∉ s) (plain' : 0 ∉ t) :
    strncmp (s ++ [0]) (t ++ [0]) n = .ok (Klib.strncmp s t n) := by
  have run : strncmpLoop ([] ++ (s ++ [0])) ([] ++ (t ++ [0])) (0 + n) ((s ++ [0]).length + 1) 0 = .ok (Klib.strncmp s t n) :=
    strncmpLoop_run plain plain' rfl rfl (by rw [List.length_append]; omega)
  rwa [Nat.zero_add] at run

end Runs

end OsLab.Klib.Checked
