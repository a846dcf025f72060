import OsLab.Kernel.Io.Chars
import OsLab.Lib.ByteFile
import OsLab.Lib.Stdio

/-!
# Reading from a stream and closing it

`fsGetChar` and `fsGetLine` read a file in blocks of 256 bytes, so that a stream from which `n` bytes
were taken has already read up to some `o` (`Reading`). `fsClose` flushes the stream whatever it was
opened for, and what it flushes is the rest `o - n` of the block: `vfs->write` refuses that and the
assertion of `fsFlush` fails. So a reader can be closed exactly at the end of a block or of the file
(`Reading.closes_iff`).
-/

namespace OsLab.Kernel.Io

open OsLab.Klib OsLab.Memory OsLab.Triples OsLab.ByteFile
open OsLab.Stdio (lineOf)
open OsLab.Kernel.Vfs (M Task)

/-- The calls on an input stream. -/
inductive InputCall where
  | getChar
  | getLine (buf size : Nat)

/-- How many of the bytes that are left a call takes. -/
def InputCall.takes (rest : List UInt8) : InputCall → Nat
  | .getChar => min 1 rest.length
  | .getLine _ size => (lineOf size rest).length

/-- How many bytes the calls take of what is left. -/
def consumed : List InputCall → List UInt8 → Nat
  | [], _ => 0
  | call :: calls, rest => call.takes rest + consumed calls (rest.drop (call.takes rest))

section Input

variable {FS Node : Type}

/-- Run a call. -/
def InputCall.run (ops : Vfs.Ops FS Node World) (stream : Nat) : InputCall → M FS Node World Unit
  | .getChar => do
    let _ ← fsGetChar ops stream
    pure ()
  | .getLine buf size => do
    let _ ← fsGetLine ops stream buf size
    pure ()

/-- Run calls one after the other. -/
def runInput (ops : Vfs.Ops FS Node World) (stream : Nat) : List InputCall → M FS Node World Unit
  | [] => pure ()
  | call :: calls => do
    call.run ops stream
    runInput ops stream calls

/-- The descriptor is free. -/
def Closed (s : Vfs.State FS Node World) (fd : Int) : Prop :=
  ∃ tk, s.current = some tk ∧ tk.fildes fd.toNat = none

/-- `fsClose` returns, writes nothing to a disk and frees the descriptor. -/
def ClosesSafely (ops : Vfs.Ops FS Node World) (stream : Nat) (fd : Int) (s : Vfs.State FS Node World) : Prop :=
  ∃ s', fsClose ops (some stream) s = .ok ((), s') ∧ s'.world.disk = s.world.disk ∧ Closed s' fd

/-- Wherever the calls end, nothing was written to a disk and the stream can be closed. -/
def SafeAfter (ops : Vfs.Ops FS Node World) (stream : Nat) (fd : Int) (s : Vfs.State FS Node World)
    (calls : List InputCall) : Prop :=
  ∀ s', runInput ops stream calls s = .ok ((), s') →
    s'.world.disk = s.world.disk ∧ ClosesSafely ops stream fd s'

/-- A file with the bytes `data`, open on `fd` for reading and not for writing. In the states `At o` the next
read starts at `o` and goes to the address `buf`. A file without a block cannot be read at all. -/
structure Source (ops : Vfs.Ops FS Node World) (fd : Int) (buf : Nat) (data : List UInt8)
    (At : Nat → Vfs.State FS Node World → Prop) : Prop where
  read : ∀ o s, At o s →
    (∃ s', Vfs.read ops fd buf 256 s = .ok ((((data.drop o).take 256).length : Nat), s') ∧
      At (o + ((data.drop o).take 256).length) s' ∧ s'.world.disk = s.world.disk ∧
      bytes (fun i => s'.world.mem (buf + i)) ((data.drop o).take 256).length = (data.drop o).take 256) ∨
    data = [] ∧ ∃ e, Vfs.read ops fd buf 256 s = .error e
  write : ∀ o s a n, At o s → ∃ s', Vfs.write ops fd a n s = .ok (-1, s')
  close : ∀ o s, At o s → ∃ s', Vfs.close ops fd s = .ok (0, s') ∧ s'.world.disk = s.world.disk ∧ Closed s' fd
  own : ∀ o s mem stream, At o s → AgreeOn s.world.mem mem buf 256 →
    At o { s with world := { s.world with mem, stream } }

/-- `n` bytes were taken from the stream, and the file has been read up to `o`, in whole blocks. -/
structure Buffered (At : Nat → Vfs.State FS Node World → Prop) (fd : Int) (buf : Nat) (data : List UInt8)
    (stream : Nat) (s : Vfs.State FS Node World) (n o : Nat) : Prop where
  offset : At o s
  order : n ≤ o ∧ o ≤ data.length
  ahead : o ≤ n - n % 256 + 256
  block : o % 256 = 0 ∨ o = data.length
  buffer : ∃ p line, s.world.stream stream = some ⟨fd, ⟨buf, 256, p, p + (o - n)⟩, line⟩ ∧ p + (o - n) ≤ 256 ∧
    bytes (fun i => s.world.mem (buf + p + i)) (o - n) = (data.drop n).take (o - n)

/-- `Buffered` between two calls: a block is read when its first byte is taken. -/
structure Reading (At : Nat → Vfs.State FS Node World → Prop) (fd : Int) (buf : Nat) (data : List UInt8)
    (stream : Nat) (s : Vfs.State FS Node World) (n o : Nat) : Prop extends
    Buffered At fd buf data stream s n o where
  begun : n = o ∨ n % 256 ≠ 0

/-- What `fsGetChar` returns after `n` bytes. -/
def charOrEnd (data : List UInt8) (n : Nat) : Int :=
  match data[n]? with
  | none => -1
  | some c => c.toNat

variable {ops : Vfs.Ops FS Node World} {fd : Int} {buf : Nat} {data : List UInt8}
  {At : Nat → Vfs.State FS Node World → Prop} {stream n o : Nat} {s s' : Vfs.State FS Node World}

/-- The buffer is empty exactly at the end of a block or of the file. -/
theorem Reading.empty_iff (h : Reading At fd buf data stream s n o) : n = o ↔ 256 ∣ n ∨ n = data.length := by
  have order := h.order
  have begun := h.begun
  have block := h.block
  omega

/-- `buffer_next` of a buffer that is not empty. -/
theorem Buffered.next (source : Source ops fd buf data At) (h : Buffered At fd buf data stream s n o) (more : n < o) :
    ∃ fs, s.world.stream stream = some fs ∧ bufferIsempty fs.buf = false ∧
      (bufferNext s.world.mem fs.buf).1 = charOrEnd data n ∧
      Reading At fd buf data stream (withStream s stream (some { fs with buf := (bufferNext s.world.mem fs.buf).2 })) (n + 1) o := by
  obtain ⟨offset, order, ahead, block, p, line, there, room, text⟩ := h
  have filled : bufferIsempty ⟨buf, 256, p, p + (o - n)⟩ = false := by
    apply decide_eq_false
    show ¬ p + (o - n) ≤ p
    omega
  have count : o - n = 1 + (o - (n + 1)) := by omega
  have inside : n < data.length := by omega
  -- the first byte of the buffer and the rest
  have split := text
  rw [count, bytes_append, List.take_add, List.drop_drop] at split
  obtain ⟨first, rest⟩ := List.append_inj split (by simp; omega)
  refine ⟨_, there, filled, ?_, ⟨source.own o s s.world.mem _ offset (AgreeOn.refl _ _ _), ⟨more, order.2⟩, by omega,
    block, p + 1, line, ?_, by omega, ?_⟩, by omega⟩
  · have head : s.world.mem (buf + p) = data[n] := by
      have whole : [s.world.mem (buf + p)] = (data.drop n).take 1 := first
      rw [List.drop_eq_getElem_cons inside] at whole
      exact List.head_eq_of_cons_eq whole
    unfold bufferNext charOrEnd
    rw [if_neg (by rw [filled]; exact Bool.false_ne_true), List.getElem?_eq_getElem inside]
    dsimp only
    rw [head]
  · unfold bufferNext
    rw [if_neg (by rw [filled]; exact Bool.false_ne_true)]
    apply (Function.update_self ..).trans
    have size : p + 1 + (o - (n + 1)) = p + (o - n) := by omega
    rw [size]
  · have later : bytes (fun i => s.world.mem (buf + (p + 1) + i)) (o - (n + 1)) =
        bytes (fun i => (fun i => s.world.mem (buf + p + i)) (1 + i)) (o - (n + 1)) :=
      bytes_congr fun i _ => congrArg s.world.mem (by omega)
    exact later.trans rest

/-- `vfs->read` into the buffer once it is empty. -/
theorem Reading.refill (source : Source ops fd buf data At) (h : Reading At fd buf data stream s n n) {fs : Filestream}
    (there : s.world.stream stream = some fs) :
    (∃ fs' s' o, Io.refill ops stream fs s = .ok (fs', s') ∧ s'.world.stream stream = some fs' ∧
      s'.world.disk = s.world.disk ∧ Buffered At fd buf data stream s' n o ∧ (n = o → n = data.length)) ∨
    data = [] ∧ ∃ e, Io.refill ops stream fs s = .error e := by
  obtain ⟨⟨offset, order, -, block, p, line, there', -, -⟩, -⟩ := h
  obtain rfl := Option.some.inj (there.symm.trans there')
  have offset' := source.own n s s.world.mem (Function.update s.world.stream stream
    (some ⟨fd, ⟨buf, 256, 0, p + (n - n)⟩, line⟩)) offset (AgreeOn.refl _ _ _)
  obtain ⟨s₁, read, offset₁, disk, text⟩ | ⟨none, e, halts⟩ := source.read n _ offset'
  · have count : ((data.drop n).take 256).length = min 256 (data.length - n) := by simp
    rw [count] at read offset₁ text
    have offset₂ := source.own _ s₁ s₁.world.mem (Function.update s₁.world.stream stream
      (some ⟨fd, ⟨buf, 256, 0, min 256 (data.length - n)⟩, line⟩)) offset₁ (AgreeOn.refl _ _ _)
    have whole : ofInt32 ((min 256 (data.length - n) : Nat) : Int) = min 256 (data.length - n) :=
      ofInt32_natCast (by omega)
    refine Or.inl ⟨_, withStream s₁ stream (some ⟨fd, ⟨buf, 256, 0, min 256 (data.length - n)⟩, line⟩),
      n + min 256 (data.length - n), ?_, Function.update_self .., disk, ⟨offset₂, by omega, by omega, by omega, 0, line, ?_, by omega, ?_⟩, by omega⟩
    · unfold Io.refill
      rw [run_bind (setStream_run _)]
      apply (run_bind read).trans
      rw [whole]
      rfl
    · apply (Function.update_self ..).trans
      rw [Nat.zero_add, Nat.add_sub_cancel_left]
    · rw [Nat.add_sub_cancel_left]
      apply text.trans
      rw [List.take_eq_take_iff]
      simp
  · exact Or.inr ⟨none, e, refill_halts halts⟩

/-- Taking a byte out of a buffer that is not empty. -/
theorem Buffered.take (source : Source ops fd buf data At) (h : Buffered At fd buf data stream s n o) (more : n < o)
    {s₀ : Vfs.State FS Node World} (filled : continueRead ops stream s₀ = .ok (0, s)) :
    ∃ s', fsGetChar ops stream s₀ = .ok (charOrEnd data n, s') ∧ s'.world.disk = s.world.disk ∧
      Reading At fd buf data stream s' (n + 1) o := by
  obtain ⟨fs, there, -, value, reading⟩ := h.next source more
  refine ⟨withStream s stream (some { fs with buf := (bufferNext s.world.mem fs.buf).2 }), ?_, rfl, reading⟩
  unfold fsGetChar
  rw [run_bind filled, if_neg (by decide), run_bind (streamAt_run there), run_bind (run_gets _), ← value]
  rfl

/-- `fsGetChar` returns the next byte, or -1 at the end of the file. -/
theorem Reading.getChar (source : Source ops fd buf data At) (h : Reading At fd buf data stream s n o) :
    (∃ s' o', fsGetChar ops stream s = .ok (charOrEnd data n, s') ∧ s'.world.disk = s.world.disk ∧
      Reading At fd buf data stream s' (min (n + 1) data.length) o') ∨
    data = [] ∧ ∃ e, fsGetChar ops stream s = .error e := by
  have order := h.order
  obtain ⟨p, line, there, room, -⟩ := h.buffer
  rcases Nat.lt_or_eq_of_le order.1 with more | rfl
  · -- there is a byte in the buffer
    have next : min (n + 1) data.length = n + 1 := by omega
    have filled : bufferIsempty ⟨buf, 256, p, p + (o - n)⟩ = false := decide_eq_false (by dsimp only; omega)
    obtain ⟨s', run, disk, reading⟩ := h.take source more (continueRead_filled there filled)
    exact Or.inl ⟨s', o, run, disk, by rw [next]; exact reading⟩
  · have empty : bufferIsempty ⟨buf, 256, p, p + (n - n)⟩ = true := decide_eq_true (by dsimp only; omega)
    obtain ⟨fs, s₁, o, refill, there₁, disk₁, buffered, last⟩ | ⟨none, e, halts⟩ := h.refill source there
    · have continues : continueRead ops stream s = .ok (if bufferIsempty fs.buf then -1 else 0, s₁) :=
        (continueRead_empty there empty).trans (run_bind refill)
      have order₁ := buffered.order
      obtain ⟨p₁, line₁, there', -, -⟩ := buffered.buffer
      obtain rfl := Option.some.inj (there₁.symm.trans there')
      rcases Nat.lt_or_eq_of_le order₁.1 with more | rfl
      · have next : min (n + 1) data.length = n + 1 := by omega
        have filled : bufferIsempty ⟨buf, 256, p₁, p₁ + (o - n)⟩ = false := decide_eq_false (by dsimp only; omega)
        rw [filled] at continues
        obtain ⟨s', run, disk, reading⟩ := buffered.take source more continues
        exact Or.inl ⟨s', o, run, disk.trans disk₁, by rw [next]; exact reading⟩
      · -- the file has been read to its end
        have next : min (n + 1) data.length = n := by omega
        have still : bufferIsempty ⟨buf, 256, p₁, p₁ + (n - n)⟩ = true := decide_eq_true (by dsimp only; omega)
        rw [still] at continues
        have value : charOrEnd data n = -1 := by
          unfold charOrEnd
          rw [List.getElem?_eq_none (by omega)]
        refine Or.inl ⟨s₁, n, ?_, disk₁, by rw [next]; exact ⟨buffered, Or.inl rfl⟩⟩
        unfold fsGetChar
        rw [run_bind continues, value]
        rfl
    · refine Or.inr ⟨none, e, ?_⟩
      exact run_bind_error ((continueRead_empty there empty).trans (run_bind_error halts))

/-- The buffers of the lines that are read lie outside the buffer of the stream. -/
def InputCall.Outside (buf : Nat) : InputCall → Prop
  | .getChar => True
  | .getLine line size => Apart line (size + 1) buf 256

/-- A byte is stored outside the buffer of the stream. -/
theorem Reading.setByte (source : Source ops fd buf data At) (h : Reading At fd buf data stream s n o) {a : Nat} {c : UInt8}
    (outside : a < buf ∨ buf + 256 ≤ a) :
    ∃ s', Io.setByte a c s = .ok ((), s') ∧ s'.world.disk = s.world.disk ∧ Reading At fd buf data stream s' n o := by
  have same : AgreeOn s.world.mem (store s.world.mem a 1 fun _ => c) buf 256 := agreeOn_store (by omega)
  obtain ⟨⟨offset, order, ahead, block, p, line, there, room, text⟩, begun⟩ := h
  refine ⟨_, rfl, rfl, ⟨source.own o s _ s.world.stream offset same, order, ahead, block, p, line, there, room, ?_⟩, begun⟩
  apply Eq.trans _ text
  exact bytes_congr fun i hi => same _ (by omega) (by omega)

/-- The loop of `fsGetLine` takes a line, or as much of it as there is room for. -/
theorem Reading.getLineLoop (source : Source ops fd buf data At) (h : Reading At fd buf data stream s n o) {size tbuf readed : Nat}
    (outside : Apart tbuf (size + 1) buf 256) :
    (∃ r s' o', fsGetLineLoop ops stream size tbuf readed s = .ok (r, s') ∧ r.1 ≤ tbuf + size ∧ tbuf ≤ r.1 ∧
      s'.world.disk = s.world.disk ∧ Reading At fd buf data stream s' (n + (lineOf size (data.drop n)).length) o') ∨
    data = [] ∧ ∃ e, fsGetLineLoop ops stream size tbuf readed s = .error e := by
  induction size generalizing s n o tbuf readed with
  | zero => exact Or.inl ⟨(tbuf, readed), s, o, rfl, Nat.le_refl _, Nat.le_refl _, rfl, h⟩
  | succ size ih =>
    unfold fsGetLineLoop
    obtain ⟨s₁, o₁, run, disk₁, reading⟩ | ⟨none, e, halts⟩ := h.getChar source
    · rw [run_bind run]
      rcases Nat.lt_or_eq_of_le (h.order.1.trans h.order.2) with inside | rfl
      · have value : charOrEnd data n = data[n].toNat := by
          unfold charOrEnd
          rw [List.getElem?_eq_getElem inside]
        have some : charOrEnd data n ≠ -1 := by
          rw [value]
          omega
        rw [if_neg some, List.drop_eq_getElem_cons inside, lineOf]
        rw [Nat.min_eq_left inside] at reading
        rcases eq_or_ne (charOrEnd data n) newline.toNat with last | other
        · -- the line ends here
          have ends : data[n] = Stdio.newline := UInt8.toNat_inj.1 (Int.ofNat_inj.1 (value.symm.trans last))
          rw [if_pos last, if_pos ends]
          exact Or.inl ⟨_, s₁, o₁, rfl, Nat.le_add_right .., Nat.le_refl _, disk₁, reading⟩
        · have goesOn : data[n] ≠ Stdio.newline := fun ends => other (by rw [value, ends]; rfl)
          rw [if_neg other, if_neg goesOn]
          obtain ⟨s₂, store, disk₂, reading⟩ := reading.setByte source (a := tbuf)
            (c := UInt8.ofNat (charOrEnd data n).toNat) (by omega)
          rw [run_bind store]
          have count : n + (lineOf size (data.drop (n + 1))).length + 1 = n + 1 + (lineOf size (data.drop (n + 1))).length := by
            omega
          obtain ⟨r, s₃, o₃, loop, upper, lower, disk₃, reading⟩ | ⟨none, e, halts⟩ :=
            @ih _ _ _ reading (tbuf + 1) (readed + 1) (by omega)
          · refine Or.inl ⟨r, s₃, o₃, loop, by omega, by omega, disk₃.trans (disk₂.trans disk₁), ?_⟩
            rw [List.length_cons, ← Nat.add_assoc, count]
            exact reading
          · exact Or.inr ⟨none, e, halts⟩
      · -- the end of the file
        have value : charOrEnd data data.length = -1 := by
          unfold charOrEnd
          rw [List.getElem?_eq_none (Nat.le_refl _)]
        rw [Nat.min_eq_right (Nat.le_succ _)] at reading
        rw [if_pos value, List.drop_length]
        exact Or.inl ⟨_, s₁, o₁, rfl, Nat.le_add_right .., Nat.le_refl _, disk₁, reading⟩
    · exact Or.inr ⟨none, e, run_bind_error halts⟩

/-- One call. -/
theorem Reading.call (source : Source ops fd buf data At) (h : Reading At fd buf data stream s n o) {call : InputCall}
    (outside : call.Outside buf) :
    (∃ s' o', call.run ops stream s = .ok ((), s') ∧ s'.world.disk = s.world.disk ∧
      Reading At fd buf data stream s' (n + call.takes (data.drop n)) o') ∨
    data = [] ∧ ∃ e, call.run ops stream s = .error e := by
  cases call with
  | getChar =>
    obtain ⟨s', o', run, disk, reading⟩ | ⟨none, e, halts⟩ := h.getChar source
    · have order := h.order
      have count : n + min 1 (data.drop n).length = min (n + 1) data.length := by
        rw [List.length_drop]
        omega
      exact Or.inl ⟨s', o', run_bind run, disk, by rw [InputCall.takes, count]; exact reading⟩
    · exact Or.inr ⟨none, e, run_bind_error halts⟩
  | getLine line size =>
    obtain ⟨r, s₁, o₁, loop, upper, lower, disk₁, reading⟩ | ⟨none, e, halts⟩ := h.getLineLoop source outside
    · have room : Apart line (size + 1) buf 256 := outside
      obtain ⟨s₂, store, disk₂, reading⟩ := reading.setByte source (a := r.1) (c := 0) (by omega)
      have run : fsGetLine ops stream line size s = .ok (if r.2 = 0 then none else some r.1, s₂) := by
        unfold fsGetLine
        rw [run_bind loop]
        dsimp only
        rw [run_bind store]
        rfl
      exact Or.inl ⟨s₂, o₁, run_bind run, disk₂.trans disk₁, reading⟩
    · exact Or.inr ⟨none, e, run_bind_error (run_bind_error halts)⟩

/-- Any calls. -/
theorem Reading.calls (source : Source ops fd buf data At) (h : Reading At fd buf data stream s n o) {calls : List InputCall}
    (outside : ∀ call ∈ calls, call.Outside buf) :
    (∃ s' o', runInput ops stream calls s = .ok ((), s') ∧ s'.world.disk = s.world.disk ∧
      Reading At fd buf data stream s' (n + consumed calls (data.drop n)) o') ∨
    data = [] ∧ ∃ e, runInput ops stream calls s = .error e := by
  induction calls generalizing s n o with
  | nil => exact Or.inl ⟨s, o, rfl, rfl, h⟩
  | cons call calls ih =>
    obtain ⟨first, rest⟩ := List.forall_mem_cons.1 outside
    obtain ⟨s₁, o₁, run₁, disk₁, reading⟩ | ⟨none, e, halts⟩ := h.call source first
    · have count : n + consumed (call :: calls) (data.drop n) =
          n + call.takes (data.drop n) + consumed calls (data.drop (n + call.takes (data.drop n))) := by
        rw [consumed, List.drop_drop, Nat.add_assoc]
      rw [count]
      obtain ⟨s₂, o₂, run₂, disk₂, reading⟩ | ⟨none, e, halts⟩ := ih reading rest
      · exact Or.inl ⟨s₂, o₂, (run_bind run₁).trans run₂, disk₂.trans disk₁, reading⟩
      · exact Or.inr ⟨none, e, (run_bind run₁).trans halts⟩
    · exact Or.inr ⟨none, e, run_bind_error halts⟩

/-- `fsClose` of a reader is safe exactly if its buffer is empty. -/
theorem Reading.closes_iff (source : Source ops fd buf data At) (h : Reading At fd buf data stream s n o) :
    ClosesSafely ops stream fd s ↔ n = o := by
  obtain ⟨⟨offset, order, -, -, p, line, there, room, -⟩, -⟩ := h
  rcases Nat.lt_or_eq_of_le order.1 with more | rfl
  · apply iff_of_false _ (Nat.ne_of_lt more)
    have filled : ¬ bufferIsempty ⟨buf, 256, p, p + (o - n)⟩ = true := by
      intro empty
      have := of_decide_eq_true empty
      dsimp only at this
      omega
    obtain ⟨s₁, refused⟩ := source.write o s (buf + p) (p + (o - n) - p) offset
    have wrong : ¬ (p + (o - n) - p = ofInt32 (-1)) := by
      have minus : ofInt32 (-1) = 2 ^ 32 - 1 := rfl
      omega
    have fails : fsFlush ops stream s = .error (.assert "want to flush %u, but actual %u bytes.") := by
      unfold fsFlush
      rw [run_bind (streamAt_run there), if_neg filled]
      apply (run_bind refused).trans
      apply run_bind_error
      unfold Vfs.assert
      rw [if_neg wrong]
      rfl
    rintro ⟨s', run, -⟩
    have halts : fsClose ops (some stream) s = .error (.assert "want to flush %u, but actual %u bytes.") :=
      run_bind_error fails
    rw [halts] at run
    cases run
  · apply iff_of_true _ rfl
    have empty : bufferIsempty ⟨buf, 256, p, p + (n - n)⟩ = true := decide_eq_true (by dsimp only; omega)
    have flushed : fsFlush ops stream s = .ok ((), s) := by
      unfold fsFlush
      rw [run_bind (streamAt_run there), if_pos empty]
      rfl
    obtain ⟨s', close, disk, closed⟩ := source.close n _ (source.own n s s.world.mem (Function.update s.world.stream stream none)
      offset (AgreeOn.refl _ _ _))
    refine ⟨s', ?_, disk, closed⟩
    unfold fsClose
    dsimp only
    rw [run_bind flushed, run_bind (streamAt_run there), run_bind (setStream_run _)]
    exact run_bind close

/-- Nothing is taken from an empty file. -/
theorem consumed_nil (calls : List InputCall) : consumed calls [] = 0 := by
  induction calls with
  | nil => rfl
  | cons call calls ih =>
    have none : call.takes [] = 0 := by
      cases call with
      | getChar => rfl
      | getLine buf size => cases size <;> rfl
    rw [consumed, none, List.drop_nil, ih]

/-- From a stream that nothing was read from yet, closing is safe after calls that take whole blocks
or the whole file, and only then. -/
theorem Reading.safe_iff (source : Source ops fd buf data At) (h : Reading At fd buf data stream s 0 0)
    {calls : List InputCall} (outside : ∀ call ∈ calls, call.Outside buf) :
    SafeAfter ops stream fd s calls ↔ 256 ∣ consumed calls data ∨ consumed calls data = data.length := by
  obtain ⟨s', o', run, disk, reading⟩ | ⟨rfl, e, halts⟩ := h.calls source outside
  · rw [Nat.zero_add, List.drop_zero] at reading
    rw [← reading.empty_iff, ← reading.closes_iff source]
    constructor
    · exact fun safe => (safe s' run).2
    · intro safe t runT
      obtain ⟨-, rfl⟩ := Prod.mk.inj (Except.ok.inj (run.symm.trans runT))
      exact ⟨disk, safe⟩
  · apply iff_of_true
    · intro t runT
      rw [halts] at runT
      cases runT
    · exact Or.inr (consumed_nil calls)

end Input

end OsLab.Kernel.Io
