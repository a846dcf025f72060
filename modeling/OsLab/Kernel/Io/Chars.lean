import OsLab.Kernel.Io.Stream

/-!
# `fsGetChar`, case by case

A character comes out of the buffer, or out of the buffer after one `vfs->read` into it, or there is none.
-/

namespace OsLab.Kernel.Io

open OsLab.Memory OsLab.Triples

/-- The stream with its buffer reset before a read. -/
def Filestream.emptied (fs : Filestream) : Filestream := { fs with buf := { fs.buf with bufPos := 0 } }

/-- The stream after a read that returned `res`. -/
def Filestream.refilled (fs : Filestream) (res : Int) : Filestream :=
  { fs with buf := { fs.buf with bufPos := 0, bufSize := ofInt32 res } }

/-- The stream after `buffer_next`. -/
def Filestream.taken (fs : Filestream) : Filestream := { fs with buf := { fs.buf with bufPos := fs.buf.bufPos + 1 } }

/-- There is nothing to take out of the buffer. -/
def Filestream.Empty (fs : Filestream) : Prop := fs.buf.bufSize ≤ fs.buf.bufPos

section Chars

variable {FS Node : Type} {ops : Vfs.Ops FS Node World} {s s₁ : Vfs.State FS Node World} {stream : Nat} {fs : Filestream}
  {res : Int} {e : Halt}

theorem Filestream.Empty.isempty (h : fs.Empty) : bufferIsempty fs.buf = true := decide_eq_true h

theorem Filestream.isempty_of_not (h : ¬ fs.Empty) : bufferIsempty fs.buf = false := decide_eq_false h

theorem withStream_self (fs : Option Filestream) : (withStream s stream fs).world.stream stream = fs :=
  Function.update_self ..

theorem withStream_twice (fs fs' : Option Filestream) :
    withStream (withStream s stream fs) stream fs' = withStream s stream fs' := by
  simp [withStream]

theorem refill_run (read : Vfs.read ops fs.fd fs.buf.content fs.buf.bufCap (withStream s stream (some fs.emptied)) = .ok (res, s₁)) :
    refill ops stream fs s = .ok (fs.refilled res, withStream s₁ stream (some (fs.refilled res))) := by
  unfold refill
  rw [run_bind (setStream_run _)]
  exact run_bind read

theorem refill_halts (read : Vfs.read ops fs.fd fs.buf.content fs.buf.bufCap (withStream s stream (some fs.emptied)) = .error e) :
    refill ops stream fs s = .error e := by
  unfold refill
  rw [run_bind (setStream_run _)]
  exact run_bind_error read

/-- The stream has something in its buffer. -/
theorem continueRead_filled (there : s.world.stream stream = some fs) (filled : bufferIsempty fs.buf = false) :
    continueRead ops stream s = .ok (0, s) := by
  unfold continueRead
  rw [run_bind (streamAt_run there), if_neg (by rw [filled]; exact Bool.false_ne_true), run_bind run_pure]
  dsimp only
  rw [filled]
  rfl

/-- The buffer of the stream is empty. -/
theorem continueRead_empty (there : s.world.stream stream = some fs) (empty : bufferIsempty fs.buf = true) :
    continueRead ops stream s = (do
      let fs ← Io.refill ops stream fs
      pure (if bufferIsempty fs.buf then -1 else 0)) s := by
  unfold continueRead
  rw [run_bind (streamAt_run there), if_pos empty]

/-- Behind `continue_read` there is a character in the buffer. -/
theorem getChar_continued {s₀ : Vfs.State FS Node World} (continued : continueRead ops stream s₀ = .ok (0, s))
    (there : s.world.stream stream = some fs) (more : ¬ fs.Empty) :
    fsGetChar ops stream s₀ =
      .ok ((s.world.mem (fs.buf.content + fs.buf.bufPos)).toNat, withStream s stream (some fs.taken)) := by
  have next : bufferNext s.world.mem fs.buf =
      (((s.world.mem (fs.buf.content + fs.buf.bufPos)).toNat : Int), fs.taken.buf) := by
    unfold bufferNext
    rw [fs.isempty_of_not more]
    rfl
  unfold fsGetChar
  rw [run_bind continued, if_neg (by decide), run_bind (streamAt_run there), run_bind (run_gets _)]
  dsimp only
  rw [next]
  rfl

/-- The next character is in the buffer. -/
theorem getChar_filled (there : s.world.stream stream = some fs) (more : ¬ fs.Empty) :
    fsGetChar ops stream s =
      .ok ((s.world.mem (fs.buf.content + fs.buf.bufPos)).toNat, withStream s stream (some fs.taken)) :=
  getChar_continued (continueRead_filled there (fs.isempty_of_not more)) there more

theorem continueRead_refill (there : s.world.stream stream = some fs) (empty : fs.Empty)
    (read : Vfs.read ops fs.fd fs.buf.content fs.buf.bufCap (withStream s stream (some fs.emptied)) = .ok (res, s₁)) :
    continueRead ops stream s = .ok (if ofInt32 res = 0 then -1 else 0, withStream s₁ stream (some (fs.refilled res))) := by
  rw [continueRead_empty there empty.isempty, run_bind (refill_run read)]
  simp [bufferIsempty, Filestream.refilled]

/-- The buffer is empty, and the read puts something in it. -/
theorem getChar_refilled (there : s.world.stream stream = some fs) (empty : fs.Empty)
    (read : Vfs.read ops fs.fd fs.buf.content fs.buf.bufCap (withStream s stream (some fs.emptied)) = .ok (res, s₁))
    (some' : ofInt32 res ≠ 0) :
    fsGetChar ops stream s =
      .ok ((s₁.world.mem fs.buf.content).toNat, withStream s₁ stream (some (fs.refilled res).taken)) := by
  have continued := continueRead_refill there empty read
  rw [if_neg some'] at continued
  have more : ¬ (fs.refilled res).Empty := by
    simpa [Filestream.Empty, Filestream.refilled] using some'
  rw [getChar_continued continued (withStream_self _) more, withStream_twice]
  rfl

/-- The buffer is empty, and the read returns 0. -/
theorem getChar_end (there : s.world.stream stream = some fs) (empty : fs.Empty)
    (read : Vfs.read ops fs.fd fs.buf.content fs.buf.bufCap (withStream s stream (some fs.emptied)) = .ok (res, s₁))
    (none' : ofInt32 res = 0) :
    fsGetChar ops stream s = .ok (-1, withStream s₁ stream (some (fs.refilled res))) := by
  have continued := continueRead_refill there empty read
  rw [if_pos none'] at continued
  unfold fsGetChar
  rw [run_bind continued]
  rfl

/-- The buffer is empty, and the read halts. -/
theorem getChar_halts (there : s.world.stream stream = some fs) (empty : fs.Empty)
    (read : Vfs.read ops fs.fd fs.buf.content fs.buf.bufCap (withStream s stream (some fs.emptied)) = .error e) :
    fsGetChar ops stream s = .error e := by
  apply run_bind_error
  rw [continueRead_empty there empty.isempty]
  exact run_bind_error (refill_halts read)

end Chars

end OsLab.Kernel.Io
