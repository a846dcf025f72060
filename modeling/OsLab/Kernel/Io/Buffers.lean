import OsLab.Kernel.Io.Chars
import OsLab.Kernel.Io.Input
import OsLab.Kernel.Io.Lines
import OsLab.Kernel.Vfs.Inversion

/-!
# The buffer of a stream

Reading and writing share one buffer. A read that fails returns -1, which `buf_size` holds as `2 ^ 32 - 1`, and
what `fsPutChar` has pushed is taken by the next `fsGetChar`. In the runs in which neither happens the buffer
stays well formed (`stream_buffers`).

`getCharTraced` and the functions after it are those of `io.c` that also say what they do.
-/

namespace OsLab.Kernel.Io

open OsLab.Klib OsLab.Memory OsLab.Triples
open OsLab.Kernel.Blkfs (AccessFlag)
open OsLab.Kernel.Vfs (M Quiet)

/-- What `fsGetChar` did: the result of `vfs->read` if it was called, the place of the buffer that was read if one was,
and what it returned. -/
structure Get where
  read : Option Int
  index : Option Nat
  ret : Int

/-- What happened to the buffer. -/
inductive StreamEvent where
  | get (g : Get)
  | put (flushed : Bool)
  | flush

/-- A call on a stream. -/
inductive StreamCall where
  | input (call : InputCall)
  | output (call : OutputCall)

section Traced

variable {FS Node : Type}

/-- Run a call. -/
def StreamCall.run (ops : Vfs.Ops FS Node World) (stream : Nat) : StreamCall → M FS Node World Unit
  | .input call => call.run ops stream
  | .output call => call.run ops stream

/-- `fsGetChar` behind `continue_read`, which has read `read`. -/
def takeTraced (stream : Nat) (fs : Filestream) (read : Option Int) : M FS Node World Get :=
  if bufferIsempty fs.buf then pure ⟨read, none, -1⟩
  else do
    let m ← gets fun s => s.world.mem
    let (c, buf) := bufferNext m fs.buf
    setStream stream (some { fs with buf })
    pure ⟨read, some fs.buf.bufPos, c⟩

/-- `fsGetChar` -/
def getCharTraced (ops : Vfs.Ops FS Node World) (stream : Nat) : M FS Node World Get := do
  let fs ← streamAt stream
  if bufferIsempty fs.buf then
    let fs ← refill ops stream fs
    takeTraced stream fs (some (toInt32 fs.buf.bufSize))
  else takeTraced stream fs none

/-- The loop of `fsGetLine` -/
def getLineLoopTraced (ops : Vfs.Ops FS Node World) (stream : Nat) : Nat → Nat → Nat → M FS Node World ((Nat × Nat) × List StreamEvent)
  | 0, tbuf, readed => pure ((tbuf, readed), [])
  | n + 1, tbuf, readed => do
    let g ← getCharTraced ops stream
    if g.ret = -1 then pure ((tbuf, readed), [.get g])
    else if g.ret = newline.toNat then pure ((tbuf, readed + 1), [.get g])
    else
      setByte tbuf (UInt8.ofNat g.ret.toNat)
      let (r, events) ← getLineLoopTraced ops stream n (tbuf + 1) (readed + 1)
      pure (r, .get g :: events)

/-- `fsPutChar` -/
def putCharTraced (ops : Vfs.Ops FS Node World) (stream : Nat) (c : UInt8) : M FS Node World Bool := do
  let res ← pushChar stream c
  if res = -1 then
    fsFlush ops stream
    let res ← pushChar stream c
    Vfs.assert (res ≠ -1) "push after flush failed"
    pure true
  else pure false

/-- A call -/
def StreamCall.traced (ops : Vfs.Ops FS Node World) (stream : Nat) : StreamCall → M FS Node World (List StreamEvent)
  | .input .getChar => do
    let g ← getCharTraced ops stream
    pure [.get g]
  | .input (.getLine buf size) => do
    let ((tbuf, _), events) ← getLineLoopTraced ops stream size buf 0
    setByte tbuf 0
    pure events
  | .output (.put c) => do
    let flushed ← putCharTraced ops stream c
    pure [.put flushed]
  | .output .flush => do
    fsFlush ops stream
    pure [.flush]

/-- Calls one after the other -/
def runTraced (ops : Vfs.Ops FS Node World) (stream : Nat) : List StreamCall → M FS Node World (List StreamEvent)
  | [] => pure []
  | call :: calls => do
    let events ← call.traced ops stream
    let rest ← runTraced ops stream calls
    pure (events ++ rest)

/-- `buf_pos <= buf_size <= buf_cap` -/
def Formed (stream : Nat) (s : Vfs.State FS Node World) : Prop :=
  ∃ fs, s.world.stream stream = some fs ∧ fs.buf.bufPos ≤ fs.buf.bufSize ∧ fs.buf.bufSize ≤ fs.buf.bufCap

/-- What the last successful read has stored, after a call of `fsGetChar`. -/
def Get.stored (g : Get) (stored : Nat) : Nat :=
  match g.read with
  | none => stored
  | some res => if res = -1 then stored else res.toNat

/-- Every place that is read was stored by the last successful read. -/
def Within : Nat → List StreamEvent → Prop
  | _, [] => True
  | stored, .get g :: events => (∀ i ∈ g.index, i < g.stored stored) ∧ Within (g.stored stored) events
  | stored, .put _ :: events => Within stored events
  | stored, .flush :: events => Within stored events

/-- The buffer is well formed, a failed read has been answered by -1, and only what was read has been taken. -/
def BufferRight (stream : Nat) (events : List StreamEvent) (s : Vfs.State FS Node World) : Prop :=
  Formed stream s ∧ (∀ g, .get g ∈ events → g.read = some (-1) → g.ret = -1) ∧ Within 0 events

/-- No read fails, and a character that is taken without a read is one of the `unread` bytes of the last one. -/
def Sane : Nat → List StreamEvent → Prop
  | _, [] => True
  | unread, .get ⟨none, _, _⟩ :: events => 0 < unread ∧ Sane (unread - 1) events
  | _, .get ⟨some res, _, _⟩ :: events => res ≠ -1 ∧ Sane (res.toNat - 1) events
  | unread, .put flushed :: events => Sane (if flushed then 0 else unread) events
  | _, .flush :: events => Sane 0 events

/-- `vfs->read` returns -1 or the number of bytes it has stored, at most as many as it was asked for. -/
def ReadContract (ops : Vfs.Ops FS Node World) : Prop :=
  ∀ fd buf n s res s', Vfs.read ops fd buf n s = .ok (res, s') → res = -1 ∨ 0 ≤ res ∧ res ≤ n

variable {ops : Vfs.Ops FS Node World} {stream : Nat} {s s' s₁ : Vfs.State FS Node World} {fs : Filestream} {res : Int} {e : Halt}

/-! ## The traced functions are those of `io.c` -/

theorem takeTraced_some {read : Option Int} (more : ¬ fs.Empty) :
    takeTraced stream fs read s = .ok (⟨read, some fs.buf.bufPos, (s.world.mem (fs.buf.content + fs.buf.bufPos)).toNat⟩,
      withStream s stream (some fs.taken)) := by
  have filled : bufferIsempty fs.buf = false := fs.isempty_of_not more
  have next : bufferNext s.world.mem fs.buf =
      (((s.world.mem (fs.buf.content + fs.buf.bufPos)).toNat : Int), fs.taken.buf) := by
    unfold bufferNext
    rw [filled]
    rfl
  unfold takeTraced
  rw [if_neg (by simp [filled]), run_bind (run_gets _), next]
  rfl

theorem takeTraced_none {read : Option Int} (empty : fs.Empty) : takeTraced stream fs read s = .ok (⟨read, none, -1⟩, s) := by
  unfold takeTraced
  rw [if_pos empty.isempty]
  rfl

theorem getCharTraced_filled (there : s.world.stream stream = some fs) (more : ¬ fs.Empty) :
    getCharTraced ops stream s = .ok (⟨none, some fs.buf.bufPos, (s.world.mem (fs.buf.content + fs.buf.bufPos)).toNat⟩,
      withStream s stream (some fs.taken)) := by
  unfold getCharTraced
  rw [run_bind (streamAt_run there), if_neg (by simp [fs.isempty_of_not more])]
  exact takeTraced_some more

theorem getCharTraced_read (there : s.world.stream stream = some fs) (empty : fs.Empty)
    (read : Vfs.read ops fs.fd fs.buf.content fs.buf.bufCap (withStream s stream (some fs.emptied)) = .ok (res, s₁)) :
    getCharTraced ops stream s = takeTraced stream (fs.refilled res) (some (toInt32 (ofInt32 res)))
      (withStream s₁ stream (some (fs.refilled res))) := by
  unfold getCharTraced
  rw [run_bind (streamAt_run there), if_pos empty.isempty, run_bind (refill_run read)]
  rfl

theorem refilled_empty_iff : (fs.refilled res).Empty ↔ ofInt32 res = 0 := by
  simp [Filestream.Empty, Filestream.refilled]

/-- `fsGetChar` returns what `getCharTraced` says it returns. -/
theorem getCharTraced_ret : Get.ret <$> getCharTraced ops stream = fsGetChar ops stream := by
  funext s
  rw [map_eq_pure_bind]
  cases there : s.world.stream stream with
  | none =>
    have halts : (streamAt stream : M FS Node World Filestream) s = .error .nullDeref := by
      unfold streamAt
      rw [run_bind (run_gets _), there]
      rfl
    unfold getCharTraced fsGetChar continueRead
    rw [run_bind_error (run_bind_error halts), run_bind_error (run_bind_error halts)]
  | some fs =>
    by_cases empty : fs.Empty
    · cases read : Vfs.read ops fs.fd fs.buf.content fs.buf.bufCap (withStream s stream (some fs.emptied)) with
      | error e =>
        rw [getChar_halts there empty read]
        apply run_bind_error
        unfold getCharTraced
        rw [run_bind (streamAt_run there), if_pos empty.isempty]
        exact run_bind_error (refill_halts read)
      | ok r =>
        obtain ⟨res, s₁⟩ := r
        have traced := getCharTraced_read there empty read
        by_cases none' : ofInt32 res = 0
        · rw [takeTraced_none (refilled_empty_iff.2 none')] at traced
          rw [run_bind traced, getChar_end there empty read none']
          rfl
        · rw [takeTraced_some (mt refilled_empty_iff.1 none'), withStream_twice] at traced
          rw [run_bind traced, getChar_refilled there empty read none']
          rfl
    · rw [run_bind (getCharTraced_filled there empty), getChar_filled there empty]
      rfl

theorem getLineLoopTraced_fst (n tbuf readed : Nat) :
    Prod.fst <$> getLineLoopTraced ops stream n tbuf readed = fsGetLineLoop ops stream n tbuf readed := by
  induction n generalizing tbuf readed with
  | zero => rfl
  | succ n ih =>
    unfold getLineLoopTraced fsGetLineLoop
    rw [← getCharTraced_ret]
    simp only [map_eq_pure_bind, bind_assoc, pure_bind]
    congr 1
    funext g
    split
    · rfl
    · split
      · rfl
      · rw [← ih]
        simp only [map_eq_pure_bind, bind_assoc, pure_bind]

theorem putCharTraced_run (c : UInt8) : (fun _ => ()) <$> putCharTraced ops stream c = fsPutChar ops stream c := by
  unfold putCharTraced fsPutChar
  simp only [map_eq_pure_bind, bind_assoc]
  congr 1
  funext res
  split
  · simp only [bind_assoc, pure_bind, bind_pure_unit]
  · rfl

/-- The calls do what their traced versions do. -/
theorem traced_run (call : StreamCall) : (fun _ => ()) <$> call.traced ops stream = call.run ops stream := by
  cases call with
  | input call =>
    cases call with
    | getChar =>
      simp only [StreamCall.traced, StreamCall.run, InputCall.run, ← getCharTraced_ret, map_eq_pure_bind, bind_assoc, pure_bind]
    | getLine buf size =>
      simp only [StreamCall.traced, StreamCall.run, InputCall.run, fsGetLine, ← getLineLoopTraced_fst, map_eq_pure_bind,
        bind_assoc, pure_bind]
  | output call =>
    cases call with
    | put c =>
      simp only [StreamCall.traced, StreamCall.run, OutputCall.run, ← putCharTraced_run, map_eq_pure_bind, bind_assoc, pure_bind]
    | flush =>
      simp only [StreamCall.traced, StreamCall.run, OutputCall.run, map_eq_pure_bind, bind_assoc, pure_bind, bind_pure_unit]

/-! ## The invariant -/

/-- The buffer holds `unread` bytes of the last read, which stored `stored`, and `pushed` bytes behind them. -/
structure Holds (stream : Nat) (s : Vfs.State FS Node World) (stored unread pushed : Nat) (fs : Filestream) : Prop where
  there : s.world.stream stream = some fs
  cap : fs.buf.bufCap = 256
  size : fs.buf.bufSize = fs.buf.bufPos + unread + pushed
  room : fs.buf.bufSize ≤ 256
  stored : 0 < unread → fs.buf.bufPos + unread ≤ stored

variable {stored unread pushed : Nat} {g : Get} {events events' : List StreamEvent}

/-- `fsGetChar` takes one of the bytes that were read. -/
theorem Holds.getChar_filled (h : Holds stream s stored unread pushed fs) (more : ¬ fs.Empty)
    (run : getCharTraced ops stream s = .ok (g, s')) (sane : Sane unread (.get g :: events)) :
    ∃ fs' unread' pushed', Holds stream s' (g.stored stored) unread' pushed' fs' ∧ Sane unread' events ∧
      g.read ≠ some (-1) ∧ ∀ i ∈ g.index, i < g.stored stored := by
  obtain ⟨there, cap, size, room, bound⟩ := h
  cases (getCharTraced_filled there more).symm.trans run
  obtain ⟨some, sane⟩ := sane
  have inside := bound some
  refine ⟨fs.taken, unread - 1, pushed, ⟨withStream_self _, cap, ?_, room, ?_⟩, sane, nofun, ?_⟩
  · simp only [Filestream.taken]
    omega
  · simp only [Filestream.taken, Get.stored]
    omega
  · simp only [Get.stored, Option.mem_def, Option.some.injEq]
    omega

/-- `fsGetChar` reads. -/
theorem Holds.getChar_empty (contract : ReadContract ops) (h : Holds stream s stored unread pushed fs) (empty : fs.Empty)
    (run : getCharTraced ops stream s = .ok (g, s')) (sane : Sane unread (.get g :: events)) :
    ∃ fs' unread' pushed', Holds stream s' (g.stored stored) unread' pushed' fs' ∧ Sane unread' events ∧
      g.read ≠ some (-1) ∧ ∀ i ∈ g.index, i < g.stored stored := by
  obtain ⟨there, cap, -, -, -⟩ := h
  cases read : Vfs.read ops fs.fd fs.buf.content fs.buf.bufCap (withStream s stream (some fs.emptied)) with
  | error e =>
    have halts : getCharTraced ops stream s = .error e := by
      unfold getCharTraced
      rw [run_bind (streamAt_run there), if_pos empty.isempty]
      exact run_bind_error (refill_halts read)
    rw [halts] at run
    cases run
  | ok r =>
    obtain ⟨res, s₁⟩ := r
    have bounds := contract _ _ _ _ _ _ read
    rw [cap] at bounds
    have traced := (getCharTraced_read there empty read).symm.trans run
    rw [toInt32_ofInt32 (by unfold FitsInt32; omega)] at traced
    have count : res ≠ -1 → ofInt32 res = res.toNat := by
      unfold ofInt32
      omega
    by_cases none' : ofInt32 res = 0
    · cases (takeTraced_none (refilled_empty_iff.2 none')).symm.trans traced
      obtain ⟨success, sane⟩ := sane
      refine ⟨_, _, 0, ⟨withStream_self _, cap, ?_, ?_, ?_⟩, sane, by simpa using success, nofun⟩
      · simp only [Filestream.refilled]
        omega
      · simp only [Filestream.refilled]
        omega
      · simp only [Filestream.refilled, Get.stored, if_neg success]
        omega
    · cases (takeTraced_some (mt refilled_empty_iff.1 none')).symm.trans traced
      obtain ⟨success, sane⟩ := sane
      have positive := count success
      refine ⟨_, _, 0, ⟨withStream_self _, cap, ?_, ?_, ?_⟩, sane, by simpa using success, ?_⟩
      · simp only [Filestream.taken, Filestream.refilled]
        omega
      · simp only [Filestream.taken, Filestream.refilled]
        omega
      · simp only [Filestream.taken, Filestream.refilled, Get.stored, if_neg success]
        omega
      · simp only [Filestream.refilled, Get.stored, if_neg success, Option.mem_def, Option.some.injEq]
        omega

theorem Holds.getChar (contract : ReadContract ops) (h : Holds stream s stored unread pushed fs)
    (run : getCharTraced ops stream s = .ok (g, s')) (sane : Sane unread (.get g :: events)) :
    ∃ fs' unread' pushed', Holds stream s' (g.stored stored) unread' pushed' fs' ∧ Sane unread' events ∧
      g.read ≠ some (-1) ∧ ∀ i ∈ g.index, i < g.stored stored := by
  by_cases empty : fs.Empty
  · exact h.getChar_empty contract empty run sane
  · exact h.getChar_filled empty run sane

/-- After events that were sane the buffer holds what it should, and the rest is sane too. -/
structure Kept (stream : Nat) (stored : Nat) (events rest : List StreamEvent) (s : Vfs.State FS Node World) : Prop where
  holds : ∃ fs stored' unread' pushed', Holds stream s stored' unread' pushed' fs ∧ Sane unread' rest ∧
    (Within stored' rest → Within stored (events ++ rest))
  gets : ∀ g, .get g ∈ events → g.read ≠ some (-1)

theorem Holds.setByte {a : Nat} {c : UInt8} (h : Holds stream s stored unread pushed fs)
    (run : (setByte a c : M FS Node World Unit) s = .ok ((), s')) : Holds stream s' stored unread pushed fs := by
  cases run
  exact ⟨h.there, h.cap, h.size, h.room, h.stored⟩

theorem Holds.kept {rest : List StreamEvent} (h : Holds stream s stored unread pushed fs) (sane : Sane unread rest) :
    Kept stream stored [] rest s := ⟨⟨fs, stored, unread, pushed, h, sane, id⟩, nofun⟩

/-- A character more at the start. -/
theorem Kept.cons {rest : List StreamEvent} (h : Kept stream (g.stored stored) events rest s) (success : g.read ≠ some (-1))
    (inside : ∀ i ∈ g.index, i < g.stored stored) : Kept stream stored (.get g :: events) rest s := by
  obtain ⟨⟨fs', stored', unread', pushed', holds, sane, within⟩, gets⟩ := h
  refine ⟨⟨fs', stored', unread', pushed', holds, sane, fun here => ⟨inside, within here⟩⟩, ?_⟩
  intro g' member
  rcases List.mem_cons.1 member with same | later
  · cases same
    exact success
  · exact gets g' later

/-- One run after the other. -/
theorem Kept.append {rest : List StreamEvent} (h : Kept stream stored events (events' ++ rest) s)
    (next : ∀ {fs stored' unread' pushed'}, Holds stream s stored' unread' pushed' fs → Sane unread' (events' ++ rest) →
      Kept stream stored' events' rest s') : Kept stream stored (events ++ events') rest s' := by
  obtain ⟨⟨fs₁, stored₁, unread₁, pushed₁, holds, sane, within⟩, gets⟩ := h
  obtain ⟨⟨fs₂, stored₂, unread₂, pushed₂, holds', sane', within'⟩, gets'⟩ := next holds sane
  refine ⟨⟨fs₂, stored₂, unread₂, pushed₂, holds', sane', ?_⟩, ?_⟩
  · rw [List.append_assoc]
    exact fun here => within (within' here)
  · intro g member
    exact (List.mem_append.1 member).elim (gets g) (gets' g)

theorem Holds.getLineLoop {rest : List StreamEvent} {n tbuf readed : Nat} {r : Nat × Nat} (contract : ReadContract ops)
    (h : Holds stream s stored unread pushed fs) (run : getLineLoopTraced ops stream n tbuf readed s = .ok ((r, events), s'))
    (sane : Sane unread (events ++ rest)) : Kept stream stored events rest s' := by
  induction n generalizing s stored unread pushed fs tbuf readed r events with
  | zero =>
    cases run
    exact h.kept sane
  | succ n ih =>
    unfold getLineLoopTraced at run
    obtain ⟨g, s₁, get, run⟩ := bind_run_eq_ok.1 run
    split at run
    · cases run
      obtain ⟨fs', unread', pushed', holds, sane, success, inside⟩ := h.getChar contract get sane
      exact (holds.kept sane).cons success inside
    · split at run
      · cases run
        obtain ⟨fs', unread', pushed', holds, sane, success, inside⟩ := h.getChar contract get sane
        exact (holds.kept sane).cons success inside
      · obtain ⟨⟨⟩, s₂, store, run⟩ := bind_run_eq_ok.1 run
        obtain ⟨⟨r', events'⟩, s₃, loop, run⟩ := bind_run_eq_ok.1 run
        cases run
        obtain ⟨fs', unread', pushed', holds, sane, success, inside⟩ := h.getChar contract get sane
        exact (ih (holds.setByte store) loop sane).cons success inside

theorem Holds.flush (h : Holds stream s stored unread pushed fs) (run : fsFlush ops stream s = .ok ((), s')) :
    ∃ fs', Holds stream s' stored 0 0 fs' := by
  unfold fsFlush at run
  rw [run_bind (streamAt_run h.there)] at run
  split at run
  · next empty =>
    cases run
    have none' : fs.buf.bufSize ≤ fs.buf.bufPos := of_decide_eq_true empty
    have size := h.size
    exact ⟨fs, h.there, h.cap, by omega, h.room, fun some => absurd some (Nat.lt_irrefl 0)⟩
  · obtain ⟨wrd, s₁, -, run⟩ := bind_run_eq_ok.1 run
    obtain ⟨-, s₂, -, run⟩ := bind_run_eq_ok.1 run
    cases run
    exact ⟨_, withStream_self _, h.cap, rfl, Nat.zero_le _, fun some => absurd some (Nat.lt_irrefl 0)⟩

theorem Holds.push {c : UInt8} (h : Holds stream s stored unread pushed fs) (run : pushChar stream c s = .ok (res, s')) :
    ∃ fs' pushed', Holds stream s' stored unread pushed' fs' := by
  have size := h.size
  have room := h.room
  have cap := h.cap
  unfold pushChar at run
  rw [run_bind (streamAt_run h.there), run_bind (run_gets _)] at run
  by_cases full : fs.buf.bufSize = fs.buf.bufCap
  · rw [bufferPush, if_pos full] at run
    cases run
    exact ⟨fs, pushed, withStream_self _, cap, size, room, h.stored⟩
  · rw [bufferPush, if_neg full] at run
    cases run
    exact ⟨_, pushed + 1, withStream_self _, cap, by simp only [size, Nat.add_assoc], by dsimp only; omega, h.stored⟩

theorem Holds.put {c : UInt8} {flushed : Bool} (h : Holds stream s stored unread pushed fs)
    (run : putCharTraced ops stream c s = .ok (flushed, s')) :
    ∃ fs' pushed', Holds stream s' stored (if flushed then 0 else unread) pushed' fs' := by
  obtain ⟨res, s₁, push, run⟩ := bind_run_eq_ok.1 run
  obtain ⟨fs₁, pushed₁, h₁⟩ := h.push push
  split at run
  · obtain ⟨⟨⟩, s₂, flush, run⟩ := bind_run_eq_ok.1 run
    obtain ⟨fs₂, h₂⟩ := h₁.flush flush
    obtain ⟨res', s₃, again, run⟩ := bind_run_eq_ok.1 run
    obtain ⟨fs₃, pushed₃, h₃⟩ := h₂.push again
    obtain ⟨⟨⟩, s₄, check, run⟩ := bind_run_eq_ok.1 run
    cases run
    unfold Vfs.assert at check
    split at check <;> cases check
    exact ⟨fs₃, pushed₃, h₃⟩
  · cases run
    exact ⟨fs₁, pushed₁, h₁⟩

theorem Holds.call {rest : List StreamEvent} {call : StreamCall} (contract : ReadContract ops)
    (h : Holds stream s stored unread pushed fs) (run : call.traced ops stream s = .ok (events, s'))
    (sane : Sane unread (events ++ rest)) : Kept stream stored events rest s' := by
  cases call with
  | input call =>
    cases call with
    | getChar =>
      obtain ⟨g, s₁, get, run⟩ := bind_run_eq_ok.1 run
      cases run
      obtain ⟨fs', unread', pushed', holds, sane, success, inside⟩ := h.getChar contract get sane
      exact (holds.kept sane).cons success inside
    | getLine buf size =>
      obtain ⟨⟨r, events'⟩, s₁, loop, run⟩ := bind_run_eq_ok.1 run
      obtain ⟨⟨⟩, s₂, store, run⟩ := bind_run_eq_ok.1 run
      cases run
      obtain ⟨⟨fs', stored', unread', pushed', holds, sane, within⟩, gets⟩ := h.getLineLoop contract loop sane
      exact ⟨⟨fs', stored', unread', pushed', holds.setByte store, sane, within⟩, gets⟩
  | output call =>
    cases call with
    | put c =>
      obtain ⟨flushed, s₁, put, run⟩ := bind_run_eq_ok.1 run
      cases run
      obtain ⟨fs', pushed', holds⟩ := h.put put
      exact ⟨⟨fs', stored, _, pushed', holds, sane, id⟩, by simp⟩
    | flush =>
      obtain ⟨⟨⟩, s₁, flush, run⟩ := bind_run_eq_ok.1 run
      cases run
      obtain ⟨fs', holds⟩ := h.flush flush
      exact ⟨⟨fs', stored, 0, 0, holds, sane, id⟩, by simp⟩

theorem Holds.calls (rest : List StreamEvent) {calls : List StreamCall} (contract : ReadContract ops)
    (h : Holds stream s stored unread pushed fs) (run : runTraced ops stream calls s = .ok (events, s'))
    (sane : Sane unread (events ++ rest)) : Kept stream stored events rest s' := by
  induction calls generalizing s stored unread pushed fs events with
  | nil =>
    cases run
    exact h.kept sane
  | cons call calls ih =>
    obtain ⟨events₁, s₁, first, run⟩ := bind_run_eq_ok.1 run
    obtain ⟨events₂, s₂, others, run⟩ := bind_run_eq_ok.1 run
    cases run
    rw [List.append_assoc] at sane
    exact (h.call contract first sane).append fun holds sane => ih holds others sane

/-- **The buffer of a stream.** After calls of `fsGetChar`, `fsGetLine`, `fsPutChar` and `fsFlush` on a stream that was just
opened the buffer is well formed, and only what the last read stored was taken, if no read has failed and no
character was taken that `fsPutChar` had pushed. -/
theorem stream_buffers {path : CStr} {flags : AccessFlag} {s₀ : Vfs.State FS Node World} {calls : List StreamCall}
    (opened : fsOpen ops path flags s₀ = .ok (some stream, s)) (contract : ReadContract ops)
    (run : runTraced ops stream calls s = .ok (events, s')) (sane : Sane 0 events) : BufferRight stream events s' := by
  obtain ⟨fd, content, fresh⟩ := fsOpen_fresh opened
  have start : Holds stream s 0 0 0 ⟨fd, ⟨content, 256, 0, 0⟩, false⟩ :=
    ⟨fresh, rfl, rfl, Nat.zero_le _, fun some => absurd some (Nat.lt_irrefl 0)⟩
  obtain ⟨⟨fs, stored, unread, pushed, holds, -, within⟩, gets⟩ :=
    start.calls [] contract run (by rwa [List.append_nil])
  rw [List.append_nil] at within
  refine ⟨⟨fs, holds.there, ?_, ?_⟩, fun g member failed => absurd failed (gets g member), within trivial⟩
  · rw [holds.size]
    omega
  · rw [holds.cap]
    exact holds.room

/-- The operations of the filesystems decide what `vfs->read` returns. -/
theorem readContract_of_ops (contract : ∀ tf buf n s res s', ops.read tf buf n s = .ok (res, s') → res = -1 ∨ 0 ≤ res ∧ res ≤ n) :
    ReadContract ops := by
  intro fd buf n s res s' run
  obtain ⟨tf, read⟩ := Vfs.onFile_act run
  exact contract tf buf n s res s' read

end Traced

theorem pieces_contract : ReadContract pieces := by
  apply readContract_of_ops
  intro tf buf n s res s' run
  obtain ⟨f, s₁, -, run⟩ := bind_run_eq_ok.1 run
  cases inode : f.inode with
  | nil =>
    rw [inode] at run
    cases run
    omega
  | cons piece rest =>
    rw [inode] at run
    cases run
    have count : (piece.take n).length ≤ n := List.length_take_le ..
    omega

/-- A character is put behind what was read, and there is more of that. -/
theorem stream_buffers_pieces : ∃ s s', fsOpen pieces [47, 102] .fileRead piecesStart = .ok (some 1, s) ∧
    runTraced pieces 1 [.input .getChar, .output (.put 99), .input .getChar] s =
      .ok ([.get ⟨some 3, some 0, 97⟩, .put false, .get ⟨none, some 1, 10⟩], s') ∧
    BufferRight 1 [.get ⟨some 3, some 0, 97⟩, .put false, .get ⟨none, some 1, 10⟩] s' := by
  obtain ⟨s, opened, s', run⟩ : ∃ s, fsOpen pieces [47, 102] .fileRead piecesStart = .ok (some 1, s) ∧
      ∃ s', runTraced pieces 1 [.input .getChar, .output (.put 99), .input .getChar] s =
        .ok ([.get ⟨some 3, some 0, 97⟩, .put false, .get ⟨none, some 1, 10⟩], s') := ⟨_, rfl, _, rfl⟩
  exact ⟨s, s', opened, run, stream_buffers opened pieces_contract run ⟨by decide, by decide, trivial⟩⟩

/-- The file is not open for reading. -/
def unreadable : Vfs.Ops Unit (List (List UInt8)) World := { pieces with read := fun _ _ _ => pure (-1) }

/-- After a read that fails `buf_size` is `2 ^ 32 - 1`, and `fsGetChar` returns a byte nobody has stored. -/
theorem stream_buffers_unreadable : ∃ s s', ReadContract unreadable ∧
    fsOpen unreadable [47, 102] .fileWrite piecesStart = .ok (some 1, s) ∧
    runTraced unreadable 1 [.input .getChar] s = .ok ([.get ⟨some (-1), some 0, 0⟩], s') ∧
    ¬ BufferRight 1 [.get ⟨some (-1), some 0, 0⟩] s' := by
  have contract : ReadContract unreadable := by
    apply readContract_of_ops
    intro tf buf n s res s' run
    cases run
    exact Or.inl rfl
  refine ⟨_, _, contract, rfl, rfl, ?_⟩
  rintro ⟨-, answered, -⟩
  exact absurd (answered ⟨some (-1), some 0, 0⟩ List.mem_cons_self rfl) (by decide)

end OsLab.Kernel.Io
