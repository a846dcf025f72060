import OsLab.Kernel.Io.Stream
import OsLab.Klib.Correct

/-!
# What `fsPrintf` puts to its stream

A text of up to 127 characters is put as it is. A longer one that ends in a string and a character, as the messages with a
path do, is cut off: its first 127 characters are put, and the character at its end.
-/

namespace OsLab.Kernel.Io

open OsLab.Klib OsLab.Triples
open OsLab.Kernel.Vfs (M)

section Pieces

variable {letters : CStr}

/-- Characters of a format that print themselves. -/
theorem letters_pieces (plain : ∀ c ∈ letters, c ≠ 0 ∧ c ≠ 37) : ∃ ps, fmtOf ps = letters ∧ argsOf ps = [] ∧
    ∀ below, printed below ps = letters ∧ AllFit below ps := by
  induction letters with
  | nil => exact ⟨[], rfl, rfl, fun below => ⟨rfl, List.forall_mem_nil _⟩⟩
  | cons c letters ih =>
    obtain ⟨first, later⟩ := List.forall_mem_cons.1 plain
    obtain ⟨ps, fmt, args, text⟩ := ih later
    refine ⟨.lit c first :: ps, congrArg (c :: ·) fmt, args, fun below => ?_⟩
    obtain ⟨printed', fits⟩ := text below
    exact ⟨congrArg (c :: ·) printed', allFit_cons.2 ⟨Nat.zero_le _, fits⟩⟩

theorem fmtOf_append (ps qs : List Piece) : fmtOf (ps ++ qs) = fmtOf ps ++ fmtOf qs := List.flatMap_append

theorem argsOf_append (ps qs : List Piece) : argsOf (ps ++ qs) = argsOf ps ++ argsOf qs := List.flatMap_append

theorem printed_append (below : Nat → UInt8) (ps qs : List Piece) :
    printed below (ps ++ qs) = printed below ps ++ printed below qs := List.flatMap_append

end Pieces

theorem length_bf : bf.length = 129 := List.length_replicate

section Printf

variable {FS Node : Type} {ops : Vfs.Ops FS Node World} {fmt cs letters str : CStr} {args : List Arg} {c : UInt8}

/-- `fsPrintf` puts what `vsnprintf` has stored in front of the NUL. -/
theorem fsPrintf_stored (stream : Nat) {ret : Int} {rest buffer : List UInt8} (plain : 0 ∉ cs)
    (stored : vsnprintf (fun _ => 0) (List.replicate bufferSize 0) bf 128 fmt args = .ok (ret, cs ++ 0 :: rest, buffer)) :
    fsPrintf ops stream fmt args = putChars ops stream cs >>= fun _ => pure ret := by
  unfold fsPrintf
  rw [stored]
  funext s
  refine (run_bind (a := (ret, cs ++ 0 :: rest, buffer)) rfl).trans ?_
  dsimp only
  rw [stringOf_text plain]

/-- A text of up to 127 characters. -/
theorem fsPrintf_room (stream : Nat) {ps : List Piece} (plain : 0 ∉ cs) (fits : AllFit (fun _ => 0) ps)
    (text : printed (fun _ => 0) ps = cs) (room : cs.length < 128) :
    ∃ ret, fsPrintf ops stream (fmtOf ps) (argsOf ps) = putChars ops stream cs >>= fun _ => pure ret := by
  subst text
  have space : (printed (fun _ => 0) ps).length < bf.length := by
    rw [length_bf]
    omega
  obtain ⟨buffer, -, run⟩ := vsnprintf_room (fun _ => 0) 128 bf List.length_replicate fits room (by decide) space
  exact ⟨_, fsPrintf_stored stream plain run⟩

/-- Letters, a string and a character: what lies between the first 127 characters and the last one is not put. -/
theorem fsPrintf_line (ops : Vfs.Ops FS Node World) (stream : Nat) (plain : ∀ c ∈ letters, c ≠ 0 ∧ c ≠ 37) (short : letters.length < 128)
    (terminated : 0 ∉ str) (fits : str.length ≤ 399) (final : c ≠ 0 ∧ c ≠ 37) :
    ∃ ret, fsPrintf ops stream (letters ++ [37, 115, c]) [.str str] =
      putChars ops stream ((letters ++ str).take 127 ++ [c]) >>= fun _ => pure ret := by
  obtain ⟨ps, fmt, args, text⟩ := letters_pieces plain
  obtain ⟨printed', fits'⟩ := text fun _ => 0
  have inside : 0 ∉ (letters ++ str).take 127 ++ [c] := by
    intro member
    rcases List.mem_append.1 member with early | last
    · rcases List.mem_append.1 (List.mem_of_mem_take early) with member | member
      · exact (plain 0 member).1 rfl
      · exact terminated member
    · exact final.1 (List.mem_singleton.1 last).symm
  have whole : fmtOf (ps ++ [.conv none (.s str terminated), .lit c final]) = letters ++ [37, 115, c] := by
    rw [fmtOf_append, fmt]
    rfl
  have given : argsOf (ps ++ [.conv none (.s str terminated), .lit c final]) = [.str str] := by
    rw [argsOf_append, args]
    rfl
  have conv : (Piece.conv none (.s str terminated)).printed (fun _ => 0) = str := by
    rw [printed_conv (k := .s str terminated) terminated]
    simp [padded, widthOf, Conv.rep]
  rw [← whole, ← given]
  rcases Nat.lt_or_ge (letters.length + str.length + 1) 128 with room | long
  · refine fsPrintf_room stream inside ?_ ?_ ?_
    · refine List.forall_mem_append.2 ⟨fits', allFit_cons.2 ⟨?_, allFit_cons.2 ⟨Nat.zero_le _, List.forall_mem_nil _⟩⟩⟩
      simpa [Piece.inBuffer, padded, widthOf, Conv.rep] using fits
    · have all : (letters ++ str).take 127 = letters ++ str := List.take_of_length_le (by simp; omega)
      rw [printed_append, printed', printed_cons, conv, all, List.append_assoc]
      rfl
    · simp
      omega
  · obtain ⟨ret, buffer, run⟩ : ∃ ret buffer, vsnprintf (fun _ => 0) (List.replicate bufferSize 0) bf 128 _ _ =
        .ok (ret, _ ++ c :: 0 :: _, buffer) :=
      @vsnprintf_cut (fun _ => 0) 128 _ bf ps c final str terminated List.length_replicate fits' fits
        (by rw [printed']; exact short) (by rw [printed']; exact long) (by decide) (by rw [length_bf]; decide)
    rw [printed'] at run
    exact ⟨ret, fsPrintf_stored stream inside (run.trans (by rw [List.append_assoc]; rfl))⟩

end Printf

end OsLab.Kernel.Io
