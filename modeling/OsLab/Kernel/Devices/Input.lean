import OsLab.Kernel.Devices.Discipline

/-!
# The keyboard (`input.c`, `keymaps.c`)

`input_keydown` follows the modifiers and turns the other keys into events, which wait in a
ring of `NEVENTS` for the terminal task. Key codes are the numbers of `amdev.h`, with bit 15
set when the key goes down.
-/

namespace OsLab.Kernel.Devices

open Kmt (Sem semInit semWaitRound semIncrement)
open RingBuffer (Window)

/-- `NEVENTS` -/
def nEvents : Nat := 128

def keyCapslock : Nat := 42
def keyReturn : Nat := 54
def keyLshift : Nat := 55
def keyRshift : Nat := 66
def keyLctrl : Nat := 67
def keyLalt : Nat := 69
def keyRalt : Nat := 71
def keyRctrl : Nat := 72

/-- The entries of `keymap`. -/
def keymapEntries : List (Nat × UInt8) :=
  -- 0 to 9
  [(24, 48), (15, 49), (16, 50), (17, 51), (18, 52), (19, 53), (20, 54), (21, 55), (22, 56), (23, 57),
    -- grave, minus, equals, brackets, backslash, semicolon, apostrophe
    (14, 96), (25, 45), (26, 61), (39, 91), (40, 93), (41, 92), (52, 59), (53, 39),
    -- return, comma, period, slash, space, backspace
    (54, 10), (63, 44), (64, 46), (65, 47), (70, 32), (27, 8),
    -- a to z
    (43, 97), (60, 98), (58, 99), (45, 100), (31, 101), (46, 102), (47, 103), (48, 104), (36, 105),
    (49, 106), (50, 107), (51, 108), (62, 109), (61, 110), (37, 111), (38, 112), (29, 113), (32, 114),
    (44, 115), (33, 116), (35, 117), (59, 118), (30, 119), (57, 120), (34, 121), (56, 122)]

/-- The entries of `keymap_shift`, which has none for return. -/
def keymapShiftEntries : List (Nat × UInt8) :=
  -- 0 to 9
  [(24, 41), (15, 33), (16, 64), (17, 35), (18, 36), (19, 37), (20, 94), (21, 38), (22, 42), (23, 40),
    -- grave, minus, equals, brackets, backslash, semicolon, apostrophe
    (14, 126), (25, 95), (26, 43), (39, 123), (40, 125), (41, 124), (52, 58), (53, 34),
    -- comma, period, slash, space, backspace
    (63, 60), (64, 62), (65, 63), (70, 32), (27, 8),
    -- a to z
    (43, 65), (60, 66), (58, 67), (45, 68), (31, 69), (46, 70), (47, 71), (48, 72), (36, 73),
    (49, 74), (50, 75), (51, 76), (62, 77), (61, 78), (37, 79), (38, 80), (29, 81), (32, 82),
    (44, 83), (33, 84), (35, 85), (59, 86), (30, 87), (57, 88), (34, 89), (56, 90)]

/-- An entry of an array with designated initializers; the others are zero. -/
def entryAt (entries : List (Nat × UInt8)) (key : Nat) : UInt8 :=
  ((entries.find? fun e => e.1 = key).map Prod.snd).getD 0

def keymap (key : Nat) : UInt8 := entryAt keymapEntries key

def keymapShift (key : Nat) : UInt8 := entryAt keymapShiftEntries key

/-- `struct input_event` -/
structure InputEvent where
  ctrl : Bool
  alt : Bool
  data : UInt16

/-- `input_t`. Of the pairs, the first is the left key. -/
structure Input where
  events : Nat → InputEvent
  front : Nat
  rear : Nat
  eventSem : Sem
  capslock : Bool
  shiftDown : Bool × Bool
  ctrlDown : Bool × Bool
  altDown : Bool × Bool

/-- `input_init`; `pmm->alloc` hands out zeroed memory. -/
def inputInit : Input where
  events := fun _ => ⟨false, false, 0⟩
  front := 0
  rear := 0
  eventSem := semInit "events in queue" 0
  capslock := false
  shiftDown := (false, false)
  ctrlDown := (false, false)
  altDown := (false, false)

/-- `push_event` -/
def pushEvent (input : Input) (ev : InputEvent) : Except Halt Input := do
  let rear := (input.rear + 1) % nEvents
  kassert (rear ≠ input.front) "input queue full"
  let eventSem ← semIncrement input.eventSem
  return { input with events := Function.update input.events input.rear ev, rear := rear, eventSem := eventSem }

/-- `pop_event` behind `event_sem`. -/
def popEvent (input : Input) : Except Halt (InputEvent × Input) := do
  kassert (input.rear ≠ input.front) "input queue empty"
  return (input.events input.front, { input with front := (input.front + 1) % nEvents })

/-- `code & ~0x8000` -/
def keyOf (code : Nat) : Nat := code - (code &&& 0x8000)

def Input.shift (input : Input) : Bool := input.shiftDown.1 || input.shiftDown.2

def Input.ctrl (input : Input) : Bool := input.ctrlDown.1 || input.ctrlDown.2

def Input.alt (input : Input) : Bool := input.altDown.1 || input.altDown.2

/-- The default case of a key that goes down. -/
def typeKey (input : Input) (key : Nat) : Except Halt Input :=
  if 256 ≤ key then .error .outside
  else
    let ch := keymap key
    if ch ≠ 0 then
      if input.ctrl || input.alt then pushEvent input ⟨input.ctrl, input.alt, ch.toUInt16⟩
      else
        let shift := if 97 ≤ ch ∧ ch ≤ 122 then input.shift ^^ input.capslock else input.shift
        if shift then pushEvent input ⟨false, false, (keymapShift key).toUInt16⟩
        else pushEvent input ⟨false, false, ch.toUInt16⟩
    else .ok input

/-- `input_keydown` -/
def inputKeydown (input : Input) (code : Nat) : Except Halt Input :=
  if code &&& 0x8000 ≠ 0 then
    let key := keyOf code
    if key = keyCapslock then .ok { input with capslock := !input.capslock }
    else if key = keyLctrl then .ok { input with ctrlDown := (true, input.ctrlDown.2) }
    else if key = keyRctrl then .ok { input with ctrlDown := (input.ctrlDown.1, true) }
    else if key = keyLalt then .ok { input with altDown := (true, input.altDown.2) }
    else if key = keyRalt then .ok { input with altDown := (input.altDown.1, true) }
    else if key = keyLshift then .ok { input with shiftDown := (true, input.shiftDown.2) }
    else if key = keyRshift then .ok { input with shiftDown := (input.shiftDown.1, true) }
    else typeKey input key
  else
    if code = keyLctrl then .ok { input with ctrlDown := (false, input.ctrlDown.2) }
    else if code = keyRctrl then .ok { input with ctrlDown := (input.ctrlDown.1, false) }
    else if code = keyLalt then .ok { input with altDown := (false, input.altDown.2) }
    else if code = keyRalt then .ok { input with altDown := (input.altDown.1, false) }
    else if code = keyLshift then .ok { input with shiftDown := (false, input.shiftDown.2) }
    else if code = keyRshift then .ok { input with shiftDown := (input.shiftDown.1, false) }
    else .ok input

/-- Return goes down while shift is held, and neither ctrl nor alt. -/
def ShiftReturn (input : Input) (code : Nat) : Prop :=
  code &&& 0x8000 ≠ 0 ∧ keyOf code = keyReturn ∧ input.shift = true ∧ input.ctrl = false ∧ input.alt = false

/-- The event puts no NUL into a line. -/
def Visible (ev : InputEvent) : Prop := ev.ctrl = false → ev.alt = false → ev.data.toUInt8 ≠ 0

/-- The events between `front` and `rear`. -/
structure Queued (input : Input) (events : List InputEvent) : Prop where
  front : input.front < nEvents
  room : events.length < nEvents
  rear : input.rear = (input.front + events.length) % nEvents
  window : Window nEvents input.events input.front events

section Keys

variable {input input' : Input} {events : List InputEvent} {ev : InputEvent} {key code : Nat}

theorem entryAt_mem {entries : List (Nat × UInt8)} (entry : entryAt entries key ≠ 0) :
    ∃ ch, (key, ch) ∈ entries := by
  unfold entryAt at entry
  cases found : entries.find? fun e => e.1 = key with
  | none =>
    rw [found] at entry
    exact absurd rfl entry
  | some e =>
    have same : e.1 = key := by simpa using List.find?_some found
    subst same
    exact ⟨e.2, List.mem_of_find?_eq_some found⟩

/-- Return is the only key with a character that shift has none for. -/
theorem keymapShift_ne (mapped : keymap key ≠ 0) (other : key ≠ keyReturn) : keymapShift key ≠ 0 := by
  obtain ⟨ch, member⟩ := entryAt_mem mapped
  have all : ∀ e ∈ keymapEntries, e.1 ≠ keyReturn → keymapShift e.1 ≠ 0 := by decide
  exact all _ member other

theorem queued_init : Queued inputInit [] :=
  ⟨by decide, by decide, rfl, RingBuffer.window_nil⟩

theorem Queued.push (queued : Queued input events) (run : pushEvent input ev = .ok input') :
    Queued input' (events ++ [ev]) := by
  obtain ⟨full, run⟩ := kassert_bind_eq_ok.1 run
  obtain ⟨sem, -, run⟩ := bind_eq_ok.1 run
  cases run
  have room := queued.room
  have next : (input.rear + 1) % nEvents = (input.front + (events ++ [ev]).length) % nEvents := by
    rw [queued.rear, Nat.mod_add_mod, List.length_append, List.length_singleton, Nat.add_assoc]
  refine ⟨queued.front, ?_, next, ?_⟩
  · rw [next] at full
    rw [List.length_append, List.length_singleton] at full ⊢
    rcases Nat.lt_or_ge (events.length + 1) nEvents with fits | wraps
    · exact fits
    · exfalso
      apply full
      rw [show events.length + 1 = nEvents by omega, Nat.add_mod_right, Nat.mod_eq_of_lt queued.front]
  · have window := queued.window.push (a := ev) room
    rw [← queued.rear] at window
    exact window

theorem Queued.pop (queued : Queued input events) (run : popEvent input = .ok (ev, input')) :
    ∃ rest, events = ev :: rest ∧ Queued input' rest := by
  obtain ⟨waiting, run⟩ := kassert_bind_eq_ok.1 run
  cases run
  cases events with
  | nil =>
    exfalso
    apply waiting
    rw [queued.rear, List.length_nil, Nat.add_zero, Nat.mod_eq_of_lt queued.front]
  | cons first rest =>
    have head := queued.window.head
    rw [Nat.mod_eq_of_lt queued.front] at head
    have room := queued.room
    have rear := queued.rear
    have window := queued.window
    rw [← List.singleton_append] at window
    rw [List.length_cons] at room rear
    refine ⟨rest, by rw [head], Nat.mod_lt _ (by decide), by omega, ?_, window.right⟩
    show input.rear = ((input.front + 1) % nEvents + rest.length) % nEvents
    rw [rear, Nat.mod_add_mod]
    congr 1
    omega

theorem visible_data {ch : UInt8} (text : ch ≠ 0) : Visible ⟨false, false, ch.toUInt16⟩ := by
  intro _ _
  simpa using text

/-- A key that goes down adds at most one event, and no NUL unless it is return with shift. -/
theorem typeKey_visible (run : typeKey input key = .ok input')
    (plain : ¬ (key = keyReturn ∧ input.shift = true ∧ input.ctrl = false ∧ input.alt = false)) :
    input' = input ∨ ∃ ev, Visible ev ∧ pushEvent input ev = .ok input' := by
  unfold typeKey at run
  split at run
  · cases run
  dsimp only at run
  split at run
  · next mapped =>
    right
    split at run
    · next modified =>
      refine ⟨_, fun ctrl alt => ?_, run⟩
      simp only at ctrl alt
      simp [ctrl, alt] at modified
    · next unmodified =>
      obtain ⟨ctrl, alt⟩ : input.ctrl = false ∧ input.alt = false := by simpa using unmodified
      generalize value : (if 97 ≤ keymap key ∧ keymap key ≤ 122 then input.shift ^^ input.capslock
        else input.shift) = shift at run
      cases shift with
      | false => exact ⟨_, visible_data mapped, run⟩
      | true =>
        refine ⟨_, visible_data (keymapShift_ne mapped ?_), run⟩
        intro isReturn
        -- return is no letter, so caps lock does not count
        have digit : ¬ (97 ≤ keymap keyReturn ∧ keymap keyReturn ≤ 122) := by decide
        rw [isReturn, if_neg digit] at value
        exact plain ⟨isReturn, value, ctrl, alt⟩
  · left
    cases run
    rfl

theorem Queued.keydown (queued : Queued input events) (visible : ∀ ev ∈ events, Visible ev)
    (run : inputKeydown input code = .ok input') (plain : ¬ ShiftReturn input code) :
    ∃ events', Queued input' events' ∧ ∀ ev ∈ events', Visible ev := by
  -- a modifier leaves the events alone
  have modifier : ∀ {next : Input}, Except.ok next = (.ok input' : Except Halt Input) →
      next.events = input.events → next.front = input.front → next.rear = input.rear →
      ∃ events', Queued input' events' ∧ ∀ ev ∈ events', Visible ev := by
    intro next same kept front rear
    cases same
    refine ⟨events, ⟨?_, queued.room, ?_, ?_⟩, visible⟩
    · rw [front]
      exact queued.front
    · rw [front, rear]
      exact queued.rear
    · rw [kept, front]
      exact queued.window
  unfold inputKeydown at run
  split at run
  · next down =>
    dsimp only at run
    split_ifs at run
    iterate 7 exact modifier run rfl rfl rfl
    rcases typeKey_visible run fun same => plain ⟨down, same⟩ with rfl | ⟨ev, shows, pushed⟩
    · exact ⟨events, queued, visible⟩
    · refine ⟨events ++ [ev], queued.push pushed, ?_⟩
      intro ev' member
      rcases List.mem_append.1 member with before | last
      · exact visible ev' before
      · rw [List.mem_singleton.1 last]
        exact shows
  · split_ifs at run <;> exact modifier run rfl rfl rfl

end Keys

end OsLab.Kernel.Devices
