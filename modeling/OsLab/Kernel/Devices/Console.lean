import OsLab.Kernel.Devices.Input

/-!
# From the keyboard to the readers

The input task hands key codes to `input_keydown`, the terminal task passes the events on to
the terminal it has chosen, and other tasks read lines. Every wake-up of a reader comes with
one line and its NUL (`one_terminator`), as long as no NUL is typed. Return has no entry in
`keymap_shift`, so shift and return type one.
-/

namespace OsLab.Kernel.Devices

open Kmt (Sem semWaitRound)

/-- Where `tty_task` is. -/
inductive TtyTask where
  /-- Before the wait for an event. -/
  | idle
  /-- Behind `event_sem` in `pop_event`. -/
  | waited
  | handling (ev : InputEvent)

structure Console where
  input : Input
  task : TtyTask
  ttydev : Fin 4
  ttys : Fin 4 → TtyState

def Console.setTty (s : Console) (i : Fin 4) (t : TtyState) : Console :=
  { s with ttys := Function.update s.ttys i t }

/-- After `dev->init`. -/
def consoleInit : Console := ⟨inputInit, .idle, 0, fun _ => ⟨ttyInit, 0⟩⟩

/-- `tty_char_ctrlD` -/
def ttyCharCtrlD : UInt8 := 3

/-- The terminal that alt and a digit choose. -/
def chosen (ttydev : Fin 4) (data : UInt16) : Fin 4 :=
  if data = 49 then 0
  else if data = 50 then 1
  else if data = 51 then 2
  else if data = 52 then 3
  else ttydev

/-- `tty_cook` on the chosen terminal. -/
def cookOn (s : Console) (ch : UInt8) : Except Halt Console := do
  let (_, tty) ← ttyCook (s.ttys s.ttydev).tty ch
  return s.setTty s.ttydev { s.ttys s.ttydev with tty := tty }

/-- The first branch of `tty_task`, without the display. -/
def handleAlt (s : Console) (ev : InputEvent) : Console :=
  if ev.alt then { s with ttydev := chosen s.ttydev ev.data } else s

/-- The second branch of `tty_task`. -/
def handleCtrl (s : Console) (ev : InputEvent) : Except Halt Console :=
  if ev.ctrl ∧ ev.data = 100 then cookOn s ttyCharCtrlD else .ok s

/-- The third branch of `tty_task`. -/
def handlePlain (s : Console) (ev : InputEvent) : Except Halt Console :=
  if ev.ctrl = false ∧ ev.alt = false then cookOn s ev.data.toUInt8 else .ok s

/-- What `tty_task` does with an event. -/
def handleEvent (s : Console) (ev : InputEvent) : Except Halt Console := do
  let s ← handleCtrl (handleAlt s ev) ev
  handlePlain s ev

/-- The steps of the two tasks and of the readers, in any order. `Allowed` says which key
codes come in which state of the keyboard. -/
inductive ConsoleRun (Allowed : Input → Nat → Prop) : Console → Prop where
  | init : ConsoleRun Allowed consoleInit
  | key {s : Console} {code : Nat} {input : Input} :
      ConsoleRun Allowed s → Allowed s.input code → inputKeydown s.input code = .ok input →
      ConsoleRun Allowed { s with input := input }
  | wait {s : Console} {sem : Sem} :
      ConsoleRun Allowed s → s.task = .idle → semWaitRound s.input.eventSem = (true, sem) →
      ConsoleRun Allowed { s with input := { s.input with eventSem := sem }, task := .waited }
  | pop {s : Console} {ev : InputEvent} {input : Input} :
      ConsoleRun Allowed s → s.task = .waited → popEvent s.input = .ok (ev, input) →
      ConsoleRun Allowed { s with input := input, task := .handling ev }
  | handle {s s' : Console} {ev : InputEvent} :
      ConsoleRun Allowed s → s.task = .handling ev → handleEvent s ev = .ok s' →
      ConsoleRun Allowed { s' with task := .idle }
  | grant {s : Console} {i : Fin 4} {sem : Sem} :
      ConsoleRun Allowed s → semWaitRound (s.ttys i).tty.cooked = (true, sem) →
      ConsoleRun Allowed (s.setTty i ⟨{ (s.ttys i).tty with cooked := sem }, (s.ttys i).granted + 1⟩)
  | read {s : Console} {i : Fin 4} {granted count nread : Nat} {buf : List UInt8} {tty : Tty} :
      ConsoleRun Allowed s → (s.ttys i).granted = granted + 1 →
      ttyRead (s.ttys i).tty count = .ok (nread, buf, tty) →
      ConsoleRun Allowed (s.setTty i ⟨tty, granted⟩)

/-- The NULs between `front` and `rear`. -/
def TtyQueue.nuls (q : TtyQueue) : Nat :=
  (List.range q.used).countP fun i => q.buf ((q.front + i) % ttyCookBufSz) = 0

section Nuls

variable {q : TtyQueue} {bytes : List UInt8} {t : Lines} {tty : Tty} {granted : Nat}

theorem Pending.nuls (pending : Pending q bytes) : q.nuls = bytes.count 0 := by
  have slots : bytes = (List.range bytes.length).map fun i => q.buf ((q.front + i) % ttyCookBufSz) := by
    apply List.ext_getElem (by simp)
    intro i inside _
    simp [pending.window i inside]
  unfold TtyQueue.nuls
  rw [pending.used]
  conv_rhs => rw [slots]
  rw [List.count, List.countP_map]
  congr 1

/-- A line has one NUL behind it and none inside. -/
theorem Represents.nuls (represents : Represents tty granted t) :
    (tty.queue.nuls : Int) = tty.cooked.value + granted := by
  have lines : ∀ l ∈ t.done, l.count 0 = 0 := by
    intro l member
    obtain ⟨text, rfl, visible⟩ := represents.lines l member
    apply List.count_eq_zero.2
    simpa [newline] using visible
  have counts : ∀ done : List (List UInt8), (∀ l ∈ done, l.count 0 = 0) →
      ((done.map (· ++ [0])).flatten).count 0 = done.length := by
    intro done
    induction done with
    | nil => simp
    | cons l rest ih =>
      intro lines
      have rest := ih fun l member => lines l (List.mem_cons_of_mem _ member)
      have first := lines l List.mem_cons_self
      simp only [List.map_cons, List.flatten_cons, List.count_append, rest, first, List.length_cons]
      simp
      omega
  rw [represents.permits, represents.pending.nuls, Lines.bytes, List.count_append, counts _ lines,
    List.count_eq_zero.2 represents.text, Nat.add_zero]

/-- A NUL that is cooked is one too many. -/
theorem Represents.cook_nul {ret : Int} {tty' : Tty} (represents : Represents tty granted t)
    (run : ttyCook tty 0 = .ok (ret, tty')) : (tty'.queue.nuls : Int) = tty'.cooked.value + granted + 1 := by
  have before := represents.nuls
  obtain ⟨q', stored, run⟩ := bind_eq_ok.1 (show (ttyEnqueue tty.queue 0 >>= fun q => .ok (0, { tty with queue := q })) =
    .ok (ret, tty') from run)
  cases run
  by_cases room : t.bytes.length + 1 < ttyCookBufSz
  · obtain ⟨q'', stored', pending⟩ := represents.pending.enqueue 0 room
    rw [stored] at stored'
    cases stored'
    have more : t.bytes.count 0 = tty.queue.nuls := represents.pending.nuls.symm
    show (q'.nuls : Int) = tty.cooked.value + granted + 1
    rw [pending.nuls, List.count_append, more, List.count_singleton_self]
    omega
  · rw [represents.pending.enqueue_full room] at stored
    cases stored

/-- A granted read returns a line with its newline. -/
theorem Represents.read_line (represents : Represents tty granted t) (waiting : granted ≠ 0) (count : Nat) :
    ∃ nread buf tty', ttyRead tty count = .ok (nread, buf, tty') ∧ 1 ≤ nread ∧
      tty.queue.buf ((tty.queue.front + (nread - 1)) % ttyCookBufSz) = newline ∧
      (nread ≤ count → buf.getLast? = some newline) := by
  obtain ⟨granted, rfl⟩ := Nat.exists_eq_succ_of_ne_zero waiting
  obtain ⟨line, rest, tty', split, returns, -⟩ := represents.read count
  obtain ⟨text, rfl, -⟩ := represents.lines line (by simp [split])
  refine ⟨_, _, tty', returns, by simp, ?_, ?_⟩
  · have bytes : t.bytes = (text ++ [newline]) ++ 0 :: (Lines.bytes { t with done := rest }) := by
      simp [Lines.bytes, split]
    have window := represents.pending.window
    rw [bytes] at window
    have last := window.left.last
    simpa using last
  · intro room
    rw [List.take_of_length_le room]
    simp

end Nuls

section Runs

variable {s s' : Console}

/-- No NUL is on its way to a terminal, and the queues hold lines. -/
structure Clean (s : Console) : Prop where
  queued : ∃ events, Queued s.input events ∧ ∀ ev ∈ events, Visible ev
  handling : ∀ ev, s.task = .handling ev → Visible ev
  ttys : ∀ i, ∃ t, Represents (s.ttys i).tty (s.ttys i).granted t

theorem clean_init : Clean consoleInit :=
  ⟨⟨[], queued_init, by simp⟩, fun ev wrong => (by cases wrong), fun _ => ⟨_, represents_init⟩⟩

/-- A change of one terminal. -/
theorem Clean.setTty (clean : Clean s) {i : Fin 4} {next : TtyState} {t : Lines}
    (represents : Represents next.tty next.granted t) : Clean (s.setTty i next) := by
  refine ⟨clean.queued, clean.handling, fun j => ?_⟩
  by_cases same : j = i
  · subst same
    refine ⟨t, ?_⟩
    simpa [Console.setTty] using represents
  · simpa [Console.setTty, same] using clean.ttys j

theorem Clean.cookOn {ch : UInt8} (clean : Clean s) (text : ch ≠ 0) (run : cookOn s ch = .ok s') : Clean s' := by
  obtain ⟨⟨ret, tty⟩, cooked, run⟩ := bind_eq_ok.1 run
  cases run
  obtain ⟨t, represents⟩ := clean.ttys s.ttydev
  rcases represents.cook text with ⟨tty', returns, represents'⟩ | ⟨halts, -⟩
  · rw [cooked] at returns
    cases returns
    exact clean.setTty represents'
  · rw [cooked] at halts
    cases halts

theorem Clean.handleEvent {ev : InputEvent} (clean : Clean s) (visible : Visible ev)
    (run : handleEvent s ev = .ok s') : Clean s' := by
  obtain ⟨s₁, ctrl, plain⟩ := bind_eq_ok.1 run
  have chosen : Clean (handleAlt s ev) := by
    unfold handleAlt
    split
    · exact ⟨clean.queued, clean.handling, clean.ttys⟩
    · exact clean
  have clean₁ : Clean s₁ := by
    unfold handleCtrl at ctrl
    split at ctrl
    · exact chosen.cookOn (by decide) ctrl
    · cases ctrl
      exact chosen
  unfold handlePlain at plain
  split at plain
  · next text => exact clean₁.cookOn (visible text.1 text.2) plain
  · cases plain
    exact clean₁

theorem ConsoleRun.clean (run : ConsoleRun (fun input code => ¬ ShiftReturn input code) s) : Clean s := by
  induction run with
  | init => exact clean_init
  | key _ plain run ih =>
    obtain ⟨events, queued, visible⟩ := ih.queued
    exact ⟨queued.keydown visible run plain, ih.handling, ih.ttys⟩
  | wait _ _ _ ih =>
    obtain ⟨events, queued, visible⟩ := ih.queued
    exact ⟨⟨events, ⟨queued.front, queued.room, queued.rear, queued.window⟩, visible⟩,
      fun ev wrong => (by cases wrong), ih.ttys⟩
  | pop _ _ run ih =>
    obtain ⟨events, queued, visible⟩ := ih.queued
    obtain ⟨rest, rfl, queued'⟩ := queued.pop run
    refine ⟨⟨rest, queued', fun ev member => visible ev (List.mem_cons_of_mem _ member)⟩, ?_, ih.ttys⟩
    intro ev same
    cases same
    exact visible _ List.mem_cons_self
  | handle _ busy run ih =>
    have clean := ih.handleEvent (ih.handling _ busy) run
    exact ⟨clean.queued, fun ev wrong => (by cases wrong), clean.ttys⟩
  | @grant _ i _ _ round ih =>
    obtain ⟨t, represents⟩ := ih.ttys i
    exact ih.setTty (represents.grant round)
  | @read _ i _ count _ _ _ _ permit run ih =>
    obtain ⟨t, represents⟩ := ih.ttys i
    rw [permit] at represents
    obtain ⟨line, rest, tty', -, returns, represents'⟩ := represents.read count
    rw [run] at returns
    cases returns
    exact ih.setTty represents'

/-- **One line for every wake-up.** While shift and return are not pressed together, without
ctrl and alt, the NULs in the queue of a terminal are as many as the permits of `cooked` that
are left or have gone to readers which have not read yet; each of these reads returns at
least one byte, and the last byte of its line is the newline. -/
theorem one_terminator (run : ConsoleRun (fun input code => ¬ ShiftReturn input code) s) (i : Fin 4) :
    ((s.ttys i).tty.queue.nuls : Int) = (s.ttys i).tty.cooked.value + (s.ttys i).granted ∧
    ∀ count, (s.ttys i).granted ≠ 0 → ∃ nread buf tty,
      ttyRead (s.ttys i).tty count = .ok (nread, buf, tty) ∧ 1 ≤ nread ∧
      (s.ttys i).tty.queue.buf (((s.ttys i).tty.queue.front + (nread - 1)) % ttyCookBufSz) = newline ∧
      (nread ≤ count → buf.getLast? = some newline) := by
  obtain ⟨t, represents⟩ := run.clean.ttys i
  exact ⟨represents.nuls, fun count waiting => represents.read_line waiting count⟩

/-- The condition is needed: the event of shift and return is a NUL, and the step that passes
it on leaves one NUL more than there are permits. -/
theorem shiftReturn_breaks (run : ConsoleRun (fun input code => ¬ ShiftReturn input code) s) :
    (∀ code, ShiftReturn s.input code →
      inputKeydown s.input code = pushEvent s.input ⟨false, false, 0⟩) ∧
    ∀ s', handleEvent s ⟨false, false, 0⟩ = .ok s' →
      ((s'.ttys s.ttydev).tty.queue.nuls : Int) =
        (s'.ttys s.ttydev).tty.cooked.value + (s'.ttys s.ttydev).granted + 1 := by
  constructor
  · rintro code ⟨down, key, shift, ctrl, alt⟩
    have value : (if 97 ≤ keymap keyReturn ∧ keymap keyReturn ≤ 122 then s.input.shift ^^ s.input.capslock
        else s.input.shift) = true := (if_neg (by decide)).trans shift
    unfold inputKeydown
    rw [if_pos down]
    dsimp only
    rw [key]
    show typeKey s.input keyReturn = _
    unfold typeKey
    rw [if_neg (by decide)]
    dsimp only
    rw [if_pos (by decide), ctrl, alt, value]
    rfl
  · intro s' handled
    obtain ⟨t, represents⟩ := run.clean.ttys s.ttydev
    have nul : cookOn s 0 = .ok s' := handled
    obtain ⟨⟨ret, tty⟩, cooked, same⟩ := bind_eq_ok.1 nul
    have breaks := represents.cook_nul cooked
    cases same
    simpa [Console.setTty] using breaks

/-- Shift and return, then return alone: the queue has two NULs and one permit, and the read
that gets it returns no byte. -/
theorem nul_typed : ∃ s : Console, ConsoleRun (fun _ _ => True) s ∧ (s.ttys 0).tty.queue.nuls = 2 ∧
    (s.ttys 0).tty.cooked.value = 0 ∧ (s.ttys 0).granted = 1 ∧
    ∃ tty, ttyRead (s.ttys 0).tty 16 = .ok (0, [], tty) := by
  have start : ConsoleRun (fun _ _ => True) consoleInit := .init
  have shift := start.key trivial (show inputKeydown _ (0x8000 + keyLshift) = .ok _ from rfl)
  have shifted := shift.key trivial (show inputKeydown _ (0x8000 + keyReturn) = .ok _ from rfl)
  have handled := ((shifted.wait rfl rfl).pop rfl rfl).handle rfl rfl
  have released := handled.key trivial (show inputKeydown _ keyLshift = .ok _ from rfl)
  have ended := released.key trivial (show inputKeydown _ (0x8000 + keyReturn) = .ok _ from rfl)
  have handled' := ((ended.wait rfl rfl).pop rfl rfl).handle rfl rfl
  have granted := handled'.grant (i := 0) rfl
  exact ⟨_, granted, by decide, rfl, rfl, _, rfl⟩

/-- Return alone: one line, one NUL, one permit. -/
theorem one_terminator_return : ∃ s : Console, ConsoleRun (fun input code => ¬ ShiftReturn input code) s ∧
    (s.ttys 0).tty.queue.nuls = 1 ∧
    ∃ nread buf tty, ttyRead (s.ttys 0).tty 16 = .ok (nread, buf, tty) ∧ 1 ≤ nread := by
  have start : ConsoleRun (fun input code => ¬ ShiftReturn input code) consoleInit := .init
  have plain : ¬ ShiftReturn consoleInit.input (0x8000 + keyReturn) := fun shift => absurd shift.2.2.1 (by decide)
  have typed := start.key plain (show inputKeydown _ (0x8000 + keyReturn) = .ok _ from rfl)
  have handled := ((typed.wait rfl rfl).pop rfl rfl).handle rfl rfl
  have granted := handled.grant (i := 0) rfl
  obtain ⟨nuls, reads⟩ := one_terminator granted 0
  obtain ⟨nread, buf, tty, returns, positive, -⟩ := reads 16 (by decide)
  exact ⟨_, granted, Int.ofNat.inj nuls, nread, buf, tty, returns, positive⟩

end Runs

end OsLab.Kernel.Devices
