import OsLab.Kernel.Vfs.Model
import OsLab.Klib.Stdio

/-!
# Streams (`buffer.c`, `io.c`)

A stream reads or writes a file through a buffer of 256 bytes. Streams and their buffers lie in
memory, where the operations of the filesystems read and write the buffers by their addresses.

`alloc` returns cleared memory, always new. A stream that has been closed is gone: its buffer is
freed.
-/

namespace OsLab.Kernel.Io

open OsLab.Klib OsLab.Memory OsLab.Triples
open OsLab.Kernel.Blkfs (Disk AccessFlag cstrAt)
open OsLab.Kernel.Vfs (M deref)

/-- `struct buffer`; `content` is an address. -/
structure Buffer where
  content : Nat
  bufCap : Nat
  bufPos : Nat
  bufSize : Nat
  deriving DecidableEq

/-- `filestream` -/
structure Filestream where
  fd : Int
  buf : Buffer
  enableLineBuf : Bool
  deriving DecidableEq

/-- What procfs shows of a task. -/
structure TaskEntry where
  tid : Nat
  name : CStr
  cpu : Nat

/-- `enum task_info_type` -/
inductive TaskInfoType where
  | cpuInfo
  | memInfo
  | taskInfo
  deriving DecidableEq

/-- `task_info` of procfs. -/
structure TaskInfo where
  type : TaskInfoType
  hasOpened : Bool
  obj : Option TaskEntry
  content : CStr
  size : Nat

/-- What the filesystems, the streams and a shell work on. -/
structure World where
  /-- The disks of the mounted blkfs, by number. -/
  disk : Nat → Disk
  mem : Mem
  /-- The address of the next allocation. -/
  brk : Nat
  /-- The open streams by their addresses, and the next address. -/
  stream : Nat → Option Filestream
  nextStream : Nat
  /-- `sh->cwd->content` -/
  cwd : CStr
  /-- The list of the tasks. -/
  tasks : List TaskEntry
  /-- The `task_info`s by their addresses, and the next address. -/
  info : Nat → Option TaskInfo
  nextInfo : Nat

/-! ## `buffer.c` -/

/-- `buffer_isempty` -/
def bufferIsempty (buf : Buffer) : Bool := buf.bufPos ≥ buf.bufSize

/-- `buffer_next`: -1, or a `uint8_t`. -/
def bufferNext (m : Mem) (buf : Buffer) : Int × Buffer :=
  if bufferIsempty buf then (-1, buf)
  else ((m (buf.content + buf.bufPos)).toNat, { buf with bufPos := buf.bufPos + 1 })

/-- `buffer_push`: -1, or the `char` that was pushed, which is signed. -/
def bufferPush (m : Mem) (buf : Buffer) (c : UInt8) : Int × Mem × Buffer :=
  if buf.bufSize = buf.bufCap then (-1, m, buf)
  else (charVal c, store m (buf.content + buf.bufSize) 1 fun _ => c,
    { buf with bufSize := buf.bufSize + 1 })

section Model

variable {FS Node : Type}

/-- A computation that reads no state. -/
def lifted {α : Type} (x : Except Halt α) : M FS Node World α := fun s => x.map fun a => (a, s)

/-- `pmm->alloc` -/
def alloc (size : Nat) : M FS Node World Nat := do
  let a ← gets fun s => s.world.brk
  modify fun s => { s with
    world := { s.world with brk := a + size, mem := store s.world.mem a size fun _ => 0 } }
  pure a

/-- `*a = c` -/
def setByte (a : Nat) (c : UInt8) : M FS Node World Unit :=
  modify fun s => { s with world := { s.world with mem := store s.world.mem a 1 fun _ => c } }

/-- The string at an address, at most `n` characters of it. -/
def stringAt (a n : Nat) : M FS Node World CStr := gets fun s => cstrAt s.world.mem a n

/-- The stream at an address. -/
def streamAt (stream : Nat) : M FS Node World Filestream := do
  deref (← gets fun s => s.world.stream stream)

/-- `*stream = fs` -/
def setStream (stream : Nat) (fs : Option Filestream) : M FS Node World Unit :=
  modify fun s => { s with
    world := { s.world with stream := Function.update s.world.stream stream fs } }

/-- `pmm->alloc(sizeof(filestream))` -/
def newStream (fs : Filestream) : M FS Node World Nat := do
  let stream ← gets fun s => s.world.nextStream
  modify fun s => { s with world := { s.world with
    stream := Function.update s.world.stream stream (some fs), nextStream := stream + 1 } }
  pure stream

/-! ## `io.c` -/

section Streams

variable (ops : Vfs.Ops FS Node World)

/-- `fsOpen` -/
def fsOpen (path : CStr) (flags : AccessFlag) : M FS Node World (Option Nat) := do
  let fd ← Vfs.open ops (some path) flags
  if fd = -1 then pure none
  else
    let content ← alloc 256
    let stream ← newStream ⟨fd, ⟨content, 256, 0, 0⟩, false⟩
    pure (some stream)

/-- `fsFlush` -/
def fsFlush (stream : Nat) : M FS Node World Unit := do
  let fs ← streamAt stream
  if bufferIsempty fs.buf then pure ()
  else
    let count := fs.buf.bufSize - fs.buf.bufPos
    let wrd ← Vfs.write ops fs.fd (fs.buf.content + fs.buf.bufPos) count
    Vfs.assert (count = ofInt32 wrd) "want to flush %u, but actual %u bytes."
    setStream stream (some { fs with buf := { fs.buf with bufPos := 0, bufSize := 0 } })

/-- `fsClose` -/
def fsClose : Option Nat → M FS Node World Unit
  | none => pure ()
  | some stream => do
    fsFlush ops stream
    let fs ← streamAt stream
    setStream stream none
    let _ ← Vfs.close ops fs.fd
    pure ()

/-- What `continue_read` does with an empty buffer. -/
def refill (stream : Nat) (fs : Filestream) : M FS Node World Filestream := do
  let fs := { fs with buf := { fs.buf with bufPos := 0 } }
  setStream stream (some fs)
  let res ← Vfs.read ops fs.fd fs.buf.content fs.buf.bufCap
  let fs := { fs with buf := { fs.buf with bufSize := ofInt32 res } }
  setStream stream (some fs)
  pure fs

/-- `continue_read` -/
def continueRead (stream : Nat) : M FS Node World Int := do
  let fs ← streamAt stream
  let fs ← if bufferIsempty fs.buf then refill ops stream fs else pure fs
  pure (if bufferIsempty fs.buf then -1 else 0)

/-- `fsGetChar` -/
def fsGetChar (stream : Nat) : M FS Node World Int := do
  let more ← continueRead ops stream
  if more = -1 then pure (-1)
  else
    let fs ← streamAt stream
    let m ← gets fun s => s.world.mem
    let (c, buf) := bufferNext m fs.buf
    setStream stream (some { fs with buf })
    pure c

/-- `'\n'` -/
def newline : UInt8 := 10

/-- The loop of `fsGetLine` with `n = size - readed`; the results are `tbuf` and `readed`. -/
def fsGetLineLoop (stream : Nat) : Nat → Nat → Nat → M FS Node World (Nat × Nat)
  | 0, tbuf, readed => pure (tbuf, readed)
  | n + 1, tbuf, readed => do
    let nc ← fsGetChar ops stream
    if nc = -1 then pure (tbuf, readed)
    else if nc = newline.toNat then pure (tbuf, readed + 1)
    else
      setByte tbuf (UInt8.ofNat nc.toNat)
      fsGetLineLoop stream n (tbuf + 1) (readed + 1)

/-- `fsGetLine`: the line goes to the address `buf`; the result is the address of its end. -/
def fsGetLine (stream buf size : Nat) : M FS Node World (Option Nat) := do
  let (tbuf, readed) ← fsGetLineLoop ops stream size buf 0
  setByte tbuf 0
  pure (if readed = 0 then none else some tbuf)

/-- `buffer_push` on the buffer of a stream -/
def pushChar (stream : Nat) (c : UInt8) : M FS Node World Int := do
  let fs ← streamAt stream
  let m ← gets fun s => s.world.mem
  let (res, m, buf) := bufferPush m fs.buf c
  modify fun s => { s with world := { s.world with mem := m } }
  setStream stream (some { fs with buf })
  pure res

/-- `fsPutChar` -/
def fsPutChar (stream : Nat) (c : UInt8) : M FS Node World Unit := do
  let res ← pushChar stream c
  if res = -1 then
    fsFlush ops stream
    let res ← pushChar stream c
    Vfs.assert (res ≠ -1) "push after flush failed"
  else pure ()

/-- The loop of `fsPrintf`. -/
def putChars (stream : Nat) : CStr → M FS Node World Unit
  | [] => pure ()
  | c :: cs => do
    fsPutChar ops stream c
    let fs ← streamAt stream
    if fs.enableLineBuf ∧ c = newline then fsFlush ops stream else pure ()
    putChars stream cs

/-- `bf` of `fsPrintf` and the byte behind it: the NUL of a text that fills the 128 bytes goes there. Nothing else of the
call is in that byte. -/
def bf : List UInt8 := List.replicate 129 0

/-- `fsPrintf`. Of `vsn_buffer` a conversion reads what it has stored itself; in front of the digits nothing is read, since
no `%d` is given the most negative `int`. -/
def fsPrintf (stream : Nat) (fmt : CStr) (args : List Arg) : M FS Node World Int := do
  let (ret, bf, _) ← lifted (vsnprintf (fun _ => 0) (List.replicate bufferSize 0) bf 128 fmt args)
  putChars ops stream (stringOf bf)
  pure ret

/-- `fsPutLine` -/
def fsPutLine (stream : Nat) (s : CStr) : M FS Node World Unit := do
  let _ ← fsPrintf ops stream (text "%s\n") [.str s]
  pure ()

end Streams

/-! ## The stream of an address -/

section Address

variable {s : Vfs.State FS Node World} {stream : Nat}

/-- The state with another stream at an address. -/
def withStream (s : Vfs.State FS Node World) (st : Nat) (fs : Option Filestream) : Vfs.State FS Node World :=
  { s with world := { s.world with stream := Function.update s.world.stream st fs } }

theorem streamAt_run {fs : Filestream} (h : s.world.stream stream = some fs) :
    (streamAt stream : M FS Node World Filestream) s = .ok (fs, s) := by
  unfold streamAt
  rw [run_bind (run_gets _), h]
  rfl

theorem setStream_run (fs : Option Filestream) :
    (setStream stream fs : M FS Node World Unit) s = .ok ((), withStream s stream fs) := rfl

end Address

end Model

end OsLab.Kernel.Io
