import OsLab.Kernel.Io.Closing
import OsLab.Kernel.Io.Lines
import Mathlib.Data.List.TakeWhile

/-!
# The first line of a file

A file of blkfs with a block feeds the stream that reads it. `fsGetLine` puts its first line into a buffer that was
allocated after the stream, and the stream of a file with one line can be closed then.
-/

namespace OsLab.Kernel.Io

open OsLab.Klib OsLab.Memory OsLab.Triples OsLab.ByteFile OsLab.Lines
open OsLab.Stdio (lineOf)
open OsLab.Kernel.Blkfs (Info Inode Disk dataOf blockDataSize cstrAt)
open OsLab.Kernel.Vfs (Quiet Task)

section Feed

variable {mach : Machine} {n b : Nat} {d : Disk} {node : Inode} {fd tf buf o : Nat} {s : Sys}

/-- The bytes of the file behind the offset of its `file`. -/
def bytesLeft (data : List UInt8) (tf : Nat) (s : Sys) : List UInt8 := (s.file tf).elim [] fun f => data.drop f.offset

theorem BlkfsAt.left {data : List UInt8} (reads : BlkfsAt n d node data fd tf o s) : bytesLeft data tf s = data.drop o := by
  obtain ⟨⟨f, open', -, -, -, rfl⟩, -, -⟩ := reads
  rw [bytesLeft, open'.file]
  rfl

/-- Memory, streams and the end of the heap do not matter to an open file. -/
theorem BlkfsAt.own {data : List UInt8} (reads : BlkfsAt n d node data fd tf o s) (mem : Mem) (brk : Nat)
    (stream : Nat → Option Filestream) : BlkfsAt n d node data fd tf o { s with world := { s.world with mem, brk, stream } } := by
  obtain ⟨⟨f, ⟨⟨tk, quiet, filde⟩, inside, file⟩, rest⟩, le, disk⟩ := reads
  exact ⟨⟨f, ⟨⟨tk, ⟨quiet.held, quiet.task⟩, filde⟩, inside, file⟩, rest⟩, le, disk⟩

/-- A file with a block feeds its stream. -/
theorem blkfs_feed (isData : (mach.info n).IsData b) (block : node.blockId = b) (small : node.size ≤ blockDataSize) :
    Feed mach.ops fd buf (fun s => ∃ o, BlkfsAt n d node (bytes (dataOf d b) node.size) fd tf o s)
      (bytesLeft (bytes (dataOf d b) node.size) tf) := by
  constructor
  · rintro s ⟨o, reads⟩
    obtain ⟨s', count, length, run, reads', -, mem⟩ := blkfs_read_run isData block small reads
    refine ⟨count, s', run, ⟨_, reads'⟩, ?_, ?_, ?_, ?_⟩
    · simp [length]
    · intro none
      rw [reads.left]
      rw [none] at length
      simp at length ⊢
      omega
    · rw [reads.left, reads'.left, mem, length, bytes_stored, ← List.drop_drop]
      exact (List.prefix_iff_eq_append.1 (List.take_prefix ..)).symm
    · intro x outside
      rw [mem]
      exact store_outside (by simp at length; omega)
  · rintro s mem stream ⟨o, reads⟩
    exact ⟨⟨o, reads.own mem s.world.brk stream⟩, rfl⟩

end Feed

section Line

variable {mach : Machine} {n b : Nat} {d : Disk} {node : Inode} {fd tf content stream line size : Nat} {s : Sys}
  {data : List UInt8}

/-- A line that fits is its own text. -/
theorem textOf_line (plain : newline ∉ data) (short : data.length < size) : textOf size data = data := by
  rw [textOf, List.take_of_length_le (Nat.le_of_lt short)]
  refine List.takeWhile_eq_self_iff.2 fun c member => ?_
  have other : c ≠ Stdio.newline := by
    rintro rfl
    exact plain member
  simpa using other

/-- The string at an address whose bytes are known up to the NUL. -/
theorem cstrAt_bytes {mem : Mem} (terminated : 0 ∉ data) (short : data.length < size + 1)
    (nul : bytes (fun i => mem (line + i)) (data.length + 1) = data ++ [0]) : cstrAt mem line (size + 1) = data := by
  refine (Blkfs.cstrAt_eq_iff terminated short).2 fun j inside => ?_
  have here := congrArg (·[j]?) nul
  simp only [getElem?_bytes, if_pos (Nat.lt_succ_of_le inside)] at here
  rw [← Option.some_inj]
  refine here.trans ?_
  rcases Nat.lt_or_eq_of_le inside with before | rfl
  · simp [charAt, List.getElem?_append_left before, List.getElem?_eq_getElem before]
  · simp [charAt]

/-- `fsGetLine` of a file that is one line without a newline, and `fsClose`. The text ends up in the buffer. -/
theorem one_line_run (isData : (mach.info n).IsData b) (block : node.blockId = b) (small : node.size ≤ blockDataSize)
    (bytesOf : data = bytes (dataOf d b) node.size) (reads : BlkfsAt n d node data fd tf 0 s)
    (there : s.world.stream stream = some ⟨fd, ⟨content, 256, 0, 0⟩, false⟩) (behind : content + 256 ≤ line)
    (plain : newline ∉ data) (terminated : 0 ∉ data) (more : data ≠ []) (short : data.length < size) :
    ∃ last s₁ s', fsGetLine mach.ops stream line size s = .ok (some last, s₁) ∧
      fsClose mach.ops (some stream) s₁ = .ok ((), s') ∧ cstrAt s'.world.mem line (size + 1) = data := by
  have feed : Feed mach.ops fd content (fun s => ∃ o, BlkfsAt n d node data fd tf o s) (bytesLeft data tf) :=
    bytesOf ▸ blkfs_feed isData block small
  have feeding : Feeding (fun s => ∃ o, BlkfsAt n d node data fd tf o s) fd content stream s :=
    ⟨⟨0, reads⟩, 0, 0, false, there, Nat.zero_le _⟩
  have all : unread (bytesLeft data tf) stream s = data := by
    rw [unread_eq there, reads.left]
    rfl
  have text := textOf_line plain short
  have taken : lineOf size data = data := Stdio.lineOf_last plain (Nat.le_of_lt short)
  obtain ⟨s₁, run, feeding₁, took⟩ := feeding.getLine_run feed (show Apart line size content 256 from Or.inr behind)
  have nul := took.text_nul
  have rest := took.rest
  rw [all, taken, text, if_neg (by simpa using more)] at run
  rw [all, text] at nul
  rw [all, taken, List.drop_length] at rest
  -- nothing is left in the buffer of the stream
  obtain ⟨⟨o, reads₁⟩, pos, filled, lined, there₁, -⟩ := feeding₁
  rw [unread_eq there₁] at rest
  have empty : filled ≤ pos := by
    have none := congrArg List.length (List.append_eq_nil_iff.1 rest).1
    simp at none
    omega
  have emptied : bufferIsempty ⟨content, 256, pos, filled⟩ = true := decide_eq_true empty
  have there₂ : (withByte s₁ (line + data.length) 0).world.stream stream = _ := there₁
  have reads₂ := reads₁.own (withByte s₁ (line + data.length) 0).world.mem s₁.world.brk (Function.update s₁.world.stream stream none)
  obtain ⟨s', close, world, -⟩ := blkfs_close_run reads₂
  refine ⟨_, _, s', run, ?_, ?_⟩
  · have flushed : fsFlush mach.ops stream (withByte s₁ (line + data.length) 0) = .ok ((), withByte s₁ (line + data.length) 0) := by
      unfold fsFlush
      rw [run_bind (streamAt_run there₂), if_pos emptied]
      rfl
    unfold fsClose
    dsimp only
    rw [run_bind flushed, run_bind (streamAt_run there₂), run_bind (setStream_run _)]
    exact run_bind close
  · rw [world]
    exact cstrAt_bytes terminated (by omega) nul

end Line

end OsLab.Kernel.Io
