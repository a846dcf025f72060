import OsLab.Kernel.Io.Stream
import OsLab.Kernel.Vfs.Quiet
import OsLab.Lib.ByteFile

/-!
# Writing through a stream

What has been put to a stream is what `vfs->write` was given before and what the buffer holds
(`Pending`). `buffer_push` answers with the `char` it has pushed and says with -1 that the buffer is
full. The byte 255 is the `char` -1: `fsPutChar` takes its push for a failed one, flushes, pushes the byte
again and halts (`fsPutChar_255`). All other bytes are delivered once and in order.
-/

namespace OsLab.Kernel.Io

open OsLab.Klib OsLab.Memory OsLab.Triples OsLab.ByteFile
open OsLab.Kernel.Blkfs (AccessFlag)
open OsLab.Kernel.Vfs (M Quiet Task)

/-- The calls on an output stream. -/
inductive OutputCall where
  | put (c : UInt8)
  | flush
  deriving DecidableEq

/-- The bytes the calls put. -/
def puts : List OutputCall → List UInt8
  | [] => []
  | .put c :: calls => c :: puts calls
  | .flush :: calls => puts calls

section Output

variable {FS Node : Type}

/-- Run a call. -/
def OutputCall.run (ops : Vfs.Ops FS Node World) (stream : Nat) : OutputCall → M FS Node World Unit
  | .put c => fsPutChar ops stream c
  | .flush => fsFlush ops stream

/-- Run calls one after the other. -/
def runCalls (ops : Vfs.Ops FS Node World) (stream : Nat) : List OutputCall → M FS Node World Unit
  | [] => pure ()
  | call :: calls => do
    call.run ops stream
    runCalls ops stream calls

/-- From the states `Ready` on, `vfs->write(fd, ..)` accepts every byte it is given; `passed` is the data
it was given so far. Neither depends on the streams and their buffers. -/
structure Accepts (ops : Vfs.Ops FS Node World) (fd : Int) (Ready : Vfs.State FS Node World → Prop)
    (passed : Vfs.State FS Node World → List UInt8) : Prop where
  write : ∀ s buf n, Ready s → n < 2 ^ 31 → ∃ s', Vfs.write ops fd buf n s = .ok ((n : Int), s') ∧ Ready s' ∧
    passed s' = passed s ++ bytes (fun i => s.world.mem (buf + i)) n
  own : ∀ s mem stream, Ready s → Ready { s with world := { s.world with mem, stream } } ∧
    passed { s with world := { s.world with mem, stream } } = passed s

/-- No call fails, and after each flush all the bytes put so far have been passed to `vfs->write`. -/
def Delivers (ops : Vfs.Ops FS Node World) (stream : Nat) (passed : Vfs.State FS Node World → List UInt8)
    (s : Vfs.State FS Node World) (calls : List OutputCall) : Prop :=
  ∀ sofar, sofar <+: calls → ∃ s', runCalls ops stream sofar s = .ok ((), s') ∧
    (sofar.getLast? = some .flush → passed s' = passed s ++ puts sofar)

/-- The bytes `sent` were passed on and `pend` are in the buffer. -/
structure Pending (Ready : Vfs.State FS Node World → Prop) (passed : Vfs.State FS Node World → List UInt8)
    (stream : Nat) (fd : Int) (s : Vfs.State FS Node World) (sent pend : List UInt8) : Prop where
  ready : Ready s
  passed : passed s = sent
  room : pend.length ≤ 256
  buffer : ∃ content line, s.world.stream stream = some ⟨fd, ⟨content, 256, 0, pend.length⟩, line⟩ ∧
    pend = bytes (fun i => s.world.mem (content + i)) pend.length

variable {ops : Vfs.Ops FS Node World} {fd : Int} {Ready : Vfs.State FS Node World → Prop}
  {passed : Vfs.State FS Node World → List UInt8} {stream : Nat} {s s' : Vfs.State FS Node World}
  {sent pend : List UInt8} {c : UInt8}

theorem puts_append (xs ys : List OutputCall) : puts (xs ++ ys) = puts xs ++ puts ys := by
  induction xs with
  | nil => rfl
  | cons call xs ih => cases call <;> simp [puts, ih]

theorem runCalls_append (xs ys : List OutputCall) :
    runCalls ops stream (xs ++ ys) = runCalls ops stream xs >>= fun _ => runCalls ops stream ys := by
  induction xs with
  | nil => rfl
  | cons call xs ih =>
    rw [List.cons_append, runCalls, runCalls, bind_assoc, ih]

/-- The calls before the first byte 255. -/
theorem puts_split {calls : List OutputCall} (member : 255 ∈ puts calls) :
    ∃ before rest, calls = before ++ .put 255 :: rest ∧ 255 ∉ puts before := by
  induction calls with
  | nil => cases member
  | cons call calls ih =>
    cases call with
    | put c =>
      rcases eq_or_ne 255 c with rfl | other
      · exact ⟨[], calls, rfl, nofun⟩
      · obtain ⟨before, rest, rfl, none⟩ := ih ((List.mem_cons.1 member).resolve_left other)
        exact ⟨.put c :: before, rest, rfl, fun found => none ((List.mem_cons.1 found).resolve_left other)⟩
    | flush =>
      obtain ⟨before, rest, rfl, none⟩ := ih member
      exact ⟨.flush :: before, rest, rfl, none⟩

/-- The `char` of a byte is -1 for 255 only. -/
theorem charVal_eq_neg_one : charVal c = -1 ↔ c = 255 := by
  have full : charVal 255 = -1 := rfl
  rw [← full]
  exact ⟨charVal_inj, congrArg charVal⟩

/-- `buffer_push` while there is room. -/
theorem Pending.push (accepts : Accepts ops fd Ready passed) (h : Pending Ready passed stream fd s sent pend)
    (room : pend.length < 256) (c : UInt8) :
    ∃ s', pushChar stream c s = .ok (charVal c, s') ∧ Pending Ready passed stream fd s' sent (pend ++ [c]) := by
  obtain ⟨ready, sent', -, content, line, open', held⟩ := h
  have notFull : pend.length ≠ 256 := Nat.ne_of_lt room
  refine ⟨_, ?_, (accepts.own s (store s.world.mem (content + pend.length) 1 fun _ => c)
    (Function.update s.world.stream stream (some ⟨fd, ⟨content, 256, 0, pend.length + 1⟩, line⟩)) ready).1, ?_, ?_,
    content, line, ?_, ?_⟩
  · unfold pushChar
    rw [run_bind (streamAt_run open'), run_bind (run_gets _)]
    unfold bufferPush
    dsimp only
    rw [if_neg notFull]
    rfl
  · exact (accepts.own s _ _ ready).2.trans sent'
  · rw [List.length_append]
    exact room
  · rw [List.length_append]
    exact Function.update_self ..
  · have before : bytes (fun i => store s.world.mem (content + pend.length) 1 (fun _ => c) (content + i)) pend.length =
        pend := by
      apply Eq.trans _ held.symm
      exact bytes_congr fun i hi => store_outside (by omega)
    rw [List.length_append]
    apply Eq.trans _ (bytes_append _ pend.length 1).symm
    rw [before]
    congr 1
    show [c] = [store s.world.mem (content + pend.length) 1 (fun _ => c) (content + (pend.length + 0))]
    rw [store_inside (by omega) (by omega)]

/-- `buffer_push` to a full buffer. -/
theorem Pending.push_full (accepts : Accepts ops fd Ready passed) (h : Pending Ready passed stream fd s sent pend)
    (full : pend.length = 256) (c : UInt8) :
    ∃ s', pushChar stream c s = .ok (-1, s') ∧ Pending Ready passed stream fd s' sent pend := by
  obtain ⟨ready, sent', room, content, line, open', held⟩ := h
  refine ⟨_, ?_, (accepts.own s s.world.mem (Function.update s.world.stream stream
    (some ⟨fd, ⟨content, 256, 0, pend.length⟩, line⟩)) ready).1, ?_, room, content, line, Function.update_self .., held⟩
  · unfold pushChar
    rw [run_bind (streamAt_run open'), run_bind (run_gets _)]
    unfold bufferPush
    dsimp only
    rw [if_pos full]
    rfl
  · exact (accepts.own s _ _ ready).2.trans sent'

/-- `fsFlush` passes on what the buffer holds. -/
theorem Pending.flush (accepts : Accepts ops fd Ready passed) (h : Pending Ready passed stream fd s sent pend) :
    ∃ s', fsFlush ops stream s = .ok ((), s') ∧ Pending Ready passed stream fd s' (sent ++ pend) [] := by
  obtain ⟨ready, sent', room, content, line, open', held⟩ := h
  unfold fsFlush
  rw [run_bind (streamAt_run open')]
  rcases Nat.eq_zero_or_pos pend.length with none | more
  · obtain rfl := List.length_eq_zero_iff.1 none
    refine ⟨s, rfl, ready, ?_, Nat.zero_le _, content, line, open', rfl⟩
    rw [List.append_nil]
    exact sent'
  · have filled : ¬ (bufferIsempty ⟨content, 256, 0, pend.length⟩ = true) := by
      unfold bufferIsempty
      rw [decide_eq_true_eq]
      exact Nat.not_le_of_lt more
    obtain ⟨s₁, write, ready₁, passed₁⟩ := accepts.write s (content + 0) pend.length ready (by omega)
    have whole : pend.length - 0 = ofInt32 (pend.length : Int) := (ofInt32_natCast (by omega)).symm
    dsimp only
    rw [if_neg filled]
    refine ⟨_, ?_, (accepts.own s₁ s₁.world.mem (Function.update s₁.world.stream stream (some
      ⟨fd, ⟨content, 256, 0, 0⟩, line⟩)) ready₁).1, ?_, Nat.zero_le _, content, line, Function.update_self .., rfl⟩
    · have accepted : Vfs.assert (pend.length - 0 = ofInt32 (pend.length : Int))
          "want to flush %u, but actual %u bytes." s₁ = .ok ((), s₁) := by
        unfold Vfs.assert
        rw [if_pos whole]
        rfl
      exact (run_bind write).trans (run_bind accepted)
    · apply (accepts.own s₁ _ _ ready₁).2.trans
      rw [passed₁, sent', Nat.add_zero, ← held]

/-- `fsPutChar` of any byte but 255. -/
theorem Pending.put (accepts : Accepts ops fd Ready passed) (h : Pending Ready passed stream fd s sent pend)
    (other : c ≠ 255) :
    ∃ s' sent' pend', fsPutChar ops stream c s = .ok ((), s') ∧
      Pending Ready passed stream fd s' sent' pend' ∧ sent' ++ pend' = sent ++ pend ++ [c] := by
  have pushed : charVal c ≠ -1 := fun minus => other (charVal_eq_neg_one.1 minus)
  unfold fsPutChar
  rcases Nat.lt_or_eq_of_le h.room with room | full
  · obtain ⟨s₁, push, pending⟩ := h.push accepts room c
    refine ⟨s₁, _, _, ?_, pending, (List.append_assoc ..).symm⟩
    rw [run_bind push, if_neg pushed]
    rfl
  · obtain ⟨s₁, push, pending⟩ := h.push_full accepts full c
    obtain ⟨s₂, flush, pending⟩ := pending.flush accepts
    obtain ⟨s₃, again, pending⟩ := pending.push accepts (by decide) c
    refine ⟨s₃, _, _, ?_, pending, rfl⟩
    rw [run_bind push, if_pos rfl, run_bind flush, run_bind again]
    unfold Vfs.assert
    rw [if_pos pushed]
    rfl

/-- `fsPutChar` of the byte 255 halts. -/
theorem fsPutChar_255 (accepts : Accepts ops fd Ready passed) (h : Pending Ready passed stream fd s sent pend) :
    fsPutChar ops stream 255 s = .error (.assert "push after flush failed") := by
  have minus : charVal 255 = -1 := rfl
  have first : ∃ s₁ sent' pend', pushChar stream 255 s = .ok (-1, s₁) ∧
      Pending Ready passed stream fd s₁ sent' pend' := by
    rcases Nat.lt_or_eq_of_le h.room with room | full
    · obtain ⟨s₁, push, pending⟩ := h.push accepts room 255
      exact ⟨s₁, _, _, push, pending⟩
    · obtain ⟨s₁, push, pending⟩ := h.push_full accepts full 255
      exact ⟨s₁, _, _, push, pending⟩
  obtain ⟨s₁, sent', pend', push, pending⟩ := first
  obtain ⟨s₂, flush, pending⟩ := pending.flush accepts
  obtain ⟨s₃, again, -⟩ := pending.push accepts (by decide) 255
  unfold fsPutChar
  rw [run_bind push, if_pos rfl, run_bind flush, run_bind again]
  rfl

/-- Calls without the byte 255 run through. -/
theorem Pending.calls (accepts : Accepts ops fd Ready passed) (h : Pending Ready passed stream fd s sent pend)
    {calls : List OutputCall} (none : 255 ∉ puts calls) :
    ∃ s' sent' pend', runCalls ops stream calls s = .ok ((), s') ∧ Pending Ready passed stream fd s' sent' pend' ∧
      sent' ++ pend' = sent ++ pend ++ puts calls := by
  induction calls generalizing s sent pend with
  | nil => exact ⟨s, sent, pend, rfl, h, (List.append_nil _).symm⟩
  | cons call calls ih =>
    cases call with
    | put c =>
      have split : 255 ≠ c ∧ 255 ∉ puts calls := not_or.1 fun member => none (List.mem_cons.2 member)
      obtain ⟨s₁, sent₁, pend₁, put, pending, text⟩ := h.put accepts split.1.symm
      obtain ⟨s₂, sent₂, pend₂, rest, pending, text'⟩ := ih pending split.2
      refine ⟨s₂, sent₂, pend₂, (run_bind put).trans rest, pending, ?_⟩
      rw [text', text, List.append_assoc (sent ++ pend)]
      rfl
    | flush =>
      obtain ⟨s₁, flush, pending⟩ := h.flush accepts
      obtain ⟨s₂, sent₂, pend₂, rest, pending, text'⟩ := ih pending none
      refine ⟨s₂, sent₂, pend₂, (run_bind flush).trans rest, pending, ?_⟩
      rw [text', List.append_nil]
      rfl

/-- After calls without the byte 255 that end with a flush nothing is pending. -/
theorem Pending.delivered (accepts : Accepts ops fd Ready passed) (h : Pending Ready passed stream fd s sent [])
    {sofar : List OutputCall} (none : 255 ∉ puts sofar) :
    ∃ s', runCalls ops stream sofar s = .ok ((), s') ∧
      (sofar.getLast? = some .flush → passed s' = passed s ++ puts sofar) := by
  rcases List.eq_nil_or_concat sofar with rfl | ⟨init, last, rfl⟩
  · exact ⟨s, rfl, nofun⟩
  · rw [List.concat_eq_append] at *
    have before : 255 ∉ puts init := fun member => none (by rw [puts_append]; exact List.mem_append_left _ member)
    obtain ⟨s₁, sent₁, pend₁, run, pending, text⟩ := h.calls accepts before
    cases last with
    | put c =>
      have other : c ≠ 255 := fun same => none (by rw [puts_append, same]; exact List.mem_append_right _ (by simp [puts]))
      obtain ⟨s₂, sent₂, pend₂, put, -⟩ := pending.put accepts other
      refine ⟨s₂, ?_, fun flush => by simp at flush⟩
      rw [runCalls_append, run_bind run]
      exact run_bind put
    | flush =>
      obtain ⟨s₂, flush, pending⟩ := pending.flush accepts
      refine ⟨s₂, ?_, fun _ => ?_⟩
      · rw [runCalls_append, run_bind run]
        exact run_bind flush
      · rw [pending.passed, text, h.passed, List.append_nil, puts_append]
        simp [puts]

/-- From an empty buffer calls are delivered exactly if they do not put the byte 255. -/
theorem Pending.delivers_iff (accepts : Accepts ops fd Ready passed) (h : Pending Ready passed stream fd s sent [])
    (calls : List OutputCall) : Delivers ops stream passed s calls ↔ 255 ∉ puts calls := by
  constructor
  · intro delivers member
    -- the calls run up to the first byte 255, which halts
    obtain ⟨before, rest, rfl, none⟩ := puts_split member
    obtain ⟨s', run, -⟩ := delivers _ List.prefix_rfl
    obtain ⟨s₁, sent₁, pend₁, first, pending, -⟩ := h.calls accepts none
    rw [runCalls_append, run_bind first] at run
    have halts : runCalls ops stream (.put 255 :: rest) s₁ = .error (.assert "push after flush failed") :=
      run_bind_error (fsPutChar_255 accepts pending)
    rw [halts] at run
    cases run
  · intro none sofar part
    obtain ⟨rest, rfl⟩ := part
    exact h.delivered accepts fun member => none (by rw [puts_append]; exact List.mem_append_left _ member)

/-- `fsOpen` returns a stream with an empty buffer of 256 bytes. -/
theorem fsOpen_fresh {path : CStr} {flags : AccessFlag} (run : fsOpen ops path flags s = .ok (some stream, s')) :
    ∃ fd content, s'.world.stream stream = some ⟨fd, ⟨content, 256, 0, 0⟩, false⟩ := by
  obtain ⟨fd, s₁, -, run⟩ := bind_run_eq_ok.1 run
  split at run
  · cases run
  · cases run
    exact ⟨fd, _, Function.update_self ..⟩

theorem fresh_pending {path : CStr} {flags : AccessFlag} {s₀ : Vfs.State FS Node World}
    (opened : fsOpen ops path flags s₀ = .ok (some stream, s))
    (descriptor : (s.world.stream stream).map Filestream.fd = some fd) (ready : Ready s) :
    Pending Ready passed stream fd s (passed s) [] := by
  obtain ⟨fd', content, fresh⟩ := fsOpen_fresh opened
  obtain rfl : fd' = fd := by
    rw [fresh] at descriptor
    exact Option.some.inj descriptor
  exact ⟨ready, rfl, Nat.zero_le _, content, false, fresh, rfl⟩

/-- **Buffered output.** On a stream that `fsOpen` has just opened, where `vfs->write` accepts all it is given,
any calls of `fsPutChar` and `fsFlush` deliver every byte once and in order if, and only if, the byte 255 is
not among those that are put. -/
theorem output_delivered_iff {path : CStr} {flags : AccessFlag} {s₀ : Vfs.State FS Node World}
    (opened : fsOpen ops path flags s₀ = .ok (some stream, s))
    (descriptor : (s.world.stream stream).map Filestream.fd = some fd)
    (accepts : Accepts ops fd Ready passed) (ready : Ready s) (calls : List OutputCall) :
    Delivers ops stream passed s calls ↔ 255 ∉ puts calls :=
  (fresh_pending opened descriptor ready).delivers_iff accepts calls

end Output

/-! ## A filesystem of one file -/

/-- A filesystem with one file, which takes all that is written. What it was given is appended to `cwd`. -/
def sink : Vfs.Ops Unit Unit World where
  fs _ := ()
  before _ := 0
  lookup _ _ _ := pure (some ())
  closeInode _ _ := pure 0
  mkdir _ _ := pure (-1)
  rm _ _ := pure (-1)
  link _ _ _ := pure (-1)
  readdir _ _ := pure []
  access _ _ := pure 0
  «open» _ _ := pure 0
  close _ := pure 0
  read _ _ _ := pure 0
  write _ buf n := do
    modify fun s => { s with
      world := { s.world with cwd := s.world.cwd ++ bytes (fun i => s.world.mem (buf + i)) n } }
    pure n
  lseek _ _ _ := pure 0

/-- A task with no open files and the sink at `/`. -/
def sinkStart : Vfs.State Unit Unit World where
  held := ∅
  mounts := [⟨[47], ()⟩]
  files := []
  file _ := none
  next := 1
  current := some ⟨fun _ => none⟩
  world := ⟨fun _ _ _ => 0, fun _ => 0, 4096, fun _ => none, 1, [], [], fun _ => none, 1⟩

/-- The descriptor 0 is open and no lock is held. -/
def SinkReady (s : Vfs.State Unit Unit World) : Prop :=
  ∃ tk tf f, Quiet s tk ∧ tk.fildes 0 = some tf ∧ s.file tf = some f

theorem sink_accepts : Accepts sink 0 SinkReady fun s => s.world.cwd := by
  constructor
  · rintro s buf n ⟨tk, tf, f, quiet, filde, file⟩ -
    refine ⟨_, Vfs.onFile_run quiet (by decide) filde file rfl ⟨quiet.held, quiet.task⟩, ?_, rfl⟩
    exact ⟨tk, tf, f, ⟨quiet.held, quiet.task⟩, filde, file⟩
  · rintro s mem stream ⟨tk, tf, f, quiet, filde, file⟩
    exact ⟨⟨tk, tf, f, ⟨quiet.held, quiet.task⟩, filde, file⟩, rfl⟩

/-- The sink opened at `/f`. -/
theorem sink_opened : ∃ s, fsOpen sink [47, 102] .fileWrite sinkStart = .ok (some 1, s) ∧
    (s.world.stream 1).map Filestream.fd = some 0 ∧ SinkReady s := by
  refine ⟨_, rfl, rfl, _, 1, ⟨0, .dirExist, (), 0⟩, ⟨?_, rfl⟩, rfl, rfl⟩
  rfl

/-- Two bytes and a flush. -/
theorem output_delivered_sink : ∃ s, fsOpen sink [47, 102] .fileWrite sinkStart = .ok (some 1, s) ∧
    (Delivers sink 1 (fun s => s.world.cwd) s [.put 104, .put 105, .flush] ↔
      255 ∉ puts [.put 104, .put 105, .flush]) := by
  obtain ⟨s, opened, descriptor, ready⟩ := sink_opened
  exact ⟨s, opened, output_delivered_iff opened descriptor sink_accepts ready _⟩

/-- The byte 255 is not delivered. -/
theorem output_not_delivered : ∃ s, fsOpen sink [47, 102] .fileWrite sinkStart = .ok (some 1, s) ∧
    ¬ Delivers sink 1 (fun s => s.world.cwd) s [.put 255, .flush] := by
  obtain ⟨s, opened, descriptor, ready⟩ := sink_opened
  have pending : Pending SinkReady (fun s => s.world.cwd) 1 0 s s.world.cwd [] := fresh_pending opened descriptor ready
  refine ⟨s, opened, fun delivers => ?_⟩
  exact (pending.delivers_iff sink_accepts _).1 delivers (by decide)

end OsLab.Kernel.Io
