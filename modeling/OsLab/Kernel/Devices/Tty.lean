import OsLab.Kernel.Kmt.Semaphore
import OsLab.Lib.RingBuffer

/-!
# Terminals (`tty.c`)

The line editor of a terminal works in a ring of `TTY_COOK_BUF_SZ` bytes. A line ends with a
newline and a NUL; the NUL keeps backspace from erasing what lies before the current line,
also when that is a line read long ago. `tty_cook` and `tty_read` hold `tty->lock`, so each
of them is one step once a reader has got past the semaphore `cooked`. What is drawn on the
display is left out.
-/

namespace OsLab.Kernel.Devices

open Kmt (Sem semInit semWaitRound semIncrement)
open RingBuffer (Window)

/-- `TTY_COOK_BUF_SZ` -/
def ttyCookBufSz : Nat := 1024

/-- `'\b'` -/
def backspace : UInt8 := 8

/-- `'\n'` -/
def newline : UInt8 := 10

/-- `struct tty_queue`: pointers are offsets from `buf`, and `end` is `ttyCookBufSz`. -/
structure TtyQueue where
  buf : Nat → UInt8
  front : Nat
  rear : Nat

/-- `tty_t` without its display. -/
structure Tty where
  queue : TtyQueue
  cooked : Sem

/-- `tty_init`; `pmm->alloc` hands out zeroed memory. -/
def ttyInit : Tty := ⟨⟨fun _ => 0, 0, 0⟩, semInit "tty cooked lines" 0⟩

/-- `tty_enqueue` -/
def ttyEnqueue (q : TtyQueue) (ch : UInt8) : Except Halt TtyQueue :=
  let buf := Function.update q.buf q.rear ch
  let rear := if q.rear + 1 = ttyCookBufSz then 0 else q.rear + 1
  if rear = q.front then .error (.assert "tty queue full")
  else .ok { q with buf := Function.update buf rear 0, rear := rear }

/-- `tty_pop_back` -/
def ttyPopBack (q : TtyQueue) : Int × TtyQueue :=
  if q.front ≠ ttyCookBufSz then
    let pos := if q.rear = 0 then ttyCookBufSz else q.rear
    if q.buf (pos - 1) ≠ 0 then
      (0, { q with rear := pos - 1, buf := Function.update q.buf (pos - 1) 0 })
    else
      (1, q)
  else
    (1, q)

/-- `tty_cook`. A task calls it, so `sem_signal` finds a current task. -/
def ttyCook (tty : Tty) (ch : UInt8) : Except Halt (Int × Tty) :=
  if ch = newline then do
    let q ← ttyEnqueue tty.queue ch
    let q ← ttyEnqueue q 0
    let cooked ← semIncrement tty.cooked
    return (0, ⟨q, cooked⟩)
  else if ch = backspace then
    let (ret, q) := ttyPopBack tty.queue
    .ok (ret, { tty with queue := q })
  else do
    let q ← ttyEnqueue tty.queue ch
    return (0, { tty with queue := q })

/-- The loop of `tty_read`: `nread`, the bytes stored in `buf` so far, and `front`. After a
round through the queue without a NUL it would never end. -/
def ttyReadFrom (queue : Nat → UInt8) (count : Nat) :
    Nat → Nat → Nat → List UInt8 → Except Halt (Nat × List UInt8 × Nat)
  | 0, _, _, _ => .error .diverge
  | fuel + 1, front, nread, buf =>
    let ch := queue front
    let buf := if nread < count ∧ ch ≠ 0 then buf ++ [ch] else buf
    let front := if front + 1 = ttyCookBufSz then 0 else front + 1
    if ch = 0 then .ok (nread, buf, front) else ttyReadFrom queue count fuel front (nread + 1) buf

/-- `tty_read` behind `cooked`: `nread` and the bytes stored in `buf`. -/
def ttyRead (tty : Tty) (count : Nat) : Except Halt (Nat × List UInt8 × Tty) := do
  let (nread, buf, front) ← ttyReadFrom tty.queue.buf count ttyCookBufSz tty.queue.front 0 []
  return (nread, buf, { tty with queue := { tty.queue with front := front } })

/-! ## The queue -/

/-- The bytes between `front` and `rear`, and the NUL before them. -/
structure Pending (q : TtyQueue) (bytes : List UInt8) : Prop where
  front : q.front < ttyCookBufSz
  room : bytes.length < ttyCookBufSz
  rear : q.rear = (q.front + bytes.length) % ttyCookBufSz
  window : Window ttyCookBufSz q.buf q.front bytes
  stop : q.buf ((q.front + (ttyCookBufSz - 1)) % ttyCookBufSz) = 0

section Queue

variable {q q' : TtyQueue} {bytes rest line : List UInt8} {ch : UInt8}

theorem pending_init : Pending ttyInit.queue [] :=
  ⟨by decide, by decide, rfl, RingBuffer.window_nil, rfl⟩

theorem Pending.rear_lt (pending : Pending q bytes) : q.rear < ttyCookBufSz := by
  rw [pending.rear]
  exact Nat.mod_lt _ (by decide)

theorem Pending.next_rear (pending : Pending q bytes) :
    (if q.rear + 1 = ttyCookBufSz then 0 else q.rear + 1) = (q.front + (bytes.length + 1)) % ttyCookBufSz := by
  rw [RingBuffer.next_slot pending.rear_lt, pending.rear, Nat.mod_add_mod, Nat.add_assoc]

theorem Pending.enqueue (pending : Pending q bytes) (ch : UInt8) (room : bytes.length + 1 < ttyCookBufSz) :
    ∃ q', ttyEnqueue q ch = .ok q' ∧ Pending q' (bytes ++ [ch]) := by
  have moved : (q.front + (bytes.length + 1)) % ttyCookBufSz ≠ q.front := by
    intro same
    have same : (q.front + (bytes.length + 1)) % ttyCookBufSz = (q.front + 0) % ttyCookBufSz := by
      rw [same, Nat.add_zero, Nat.mod_eq_of_lt pending.front]
    have wrong := RingBuffer.slot_inj room (by decide) same
    omega
  unfold ttyEnqueue
  rw [pending.next_rear, if_neg moved]
  have room' := pending.room
  refine ⟨_, rfl, pending.front, by simpa using room, by simp, ?_, ?_⟩
  · have window := pending.window.push (a := ch) pending.room
    rw [← pending.rear] at window
    exact window.update (by simp) room
  · -- the byte before `front` is the new sentinel, or was there before
    dsimp only
    by_cases last : bytes.length + 1 = ttyCookBufSz - 1
    · rw [last, Function.update_self]
    · have other : (q.front + (ttyCookBufSz - 1)) % ttyCookBufSz ≠ (q.front + (bytes.length + 1)) % ttyCookBufSz :=
        fun same => last (RingBuffer.slot_inj (by decide) room same).symm
      have other' : (q.front + (ttyCookBufSz - 1)) % ttyCookBufSz ≠ q.rear := by
        rw [pending.rear]
        intro same
        have same := RingBuffer.slot_inj (by decide) pending.room same
        omega
      rw [Function.update_of_ne other, Function.update_of_ne other', pending.stop]

/-- A full queue halts the kernel. -/
theorem Pending.enqueue_full (pending : Pending q bytes) (full : ¬ bytes.length + 1 < ttyCookBufSz) :
    ttyEnqueue q ch = .error (.assert "tty queue full") := by
  have room := pending.room
  have all : bytes.length + 1 = ttyCookBufSz := by omega
  unfold ttyEnqueue
  rw [pending.next_rear, all, Nat.add_mod_right, Nat.mod_eq_of_lt pending.front]
  exact if_pos rfl

/-- The byte that backspace looks at. -/
theorem Pending.before_rear (pending : Pending q bytes) :
    q.buf ((if q.rear = 0 then ttyCookBufSz else q.rear) - 1) = bytes.getLast?.getD 0 := by
  rw [RingBuffer.prev_slot pending.rear_lt, pending.rear, Nat.mod_add_mod]
  rcases List.eq_nil_or_concat bytes with rfl | ⟨front, last, rfl⟩
  · exact pending.stop
  · rw [List.concat_eq_append] at *
    have whole : q.front + (front ++ [last]).length + (ttyCookBufSz - 1) = q.front + front.length + ttyCookBufSz := by
      have positive : 0 < ttyCookBufSz := by decide
      rw [List.length_append, List.length_singleton]
      omega
    rw [whole, Nat.add_mod_right, pending.window.last]
    simp

/-- At the start of a line backspace does nothing. -/
theorem Pending.popBack_stop (pending : Pending q bytes) (stop : bytes.getLast?.getD 0 = 0) :
    ttyPopBack q = (1, q) := by
  unfold ttyPopBack
  rw [if_pos (Nat.ne_of_lt pending.front)]
  dsimp only
  rw [pending.before_rear, if_neg (not_not.2 stop)]

theorem Pending.popBack (pending : Pending q (bytes ++ [ch])) (text : ch ≠ 0) :
    ∃ q', ttyPopBack q = (0, q') ∧ Pending q' bytes := by
  have room := pending.room
  rw [List.length_append, List.length_singleton] at room
  have erased : (if q.rear = 0 then ttyCookBufSz else q.rear) - 1 = (q.front + bytes.length) % ttyCookBufSz := by
    have whole : q.front + (bytes ++ [ch]).length + (ttyCookBufSz - 1) = q.front + bytes.length + ttyCookBufSz := by
      rw [List.length_append, List.length_singleton]
      omega
    rw [RingBuffer.prev_slot pending.rear_lt, pending.rear, Nat.mod_add_mod, whole, Nat.add_mod_right]
  unfold ttyPopBack
  rw [if_pos (Nat.ne_of_lt pending.front)]
  dsimp only
  rw [pending.before_rear, erased, if_pos (by simpa using text)]
  refine ⟨_, rfl, pending.front, by omega, rfl, ?_, ?_⟩
  · exact pending.window.left.update (Nat.le_refl _) (by omega)
  · have other : (q.front + (ttyCookBufSz - 1)) % ttyCookBufSz ≠ (q.front + bytes.length) % ttyCookBufSz := by
      intro same
      have same := RingBuffer.slot_inj (by decide) (by omega) same
      omega
    dsimp only
    rw [Function.update_of_ne other, pending.stop]

theorem ttyReadFrom_line {queue : Nat → UInt8} {count fuel front nread : Nat} {buf : List UInt8}
    (window : Window ttyCookBufSz queue front (line ++ 0 :: rest)) (text : 0 ∉ line)
    (inside : front < ttyCookBufSz) (enough : line.length < fuel) :
    ttyReadFrom queue count fuel front nread buf =
      .ok (nread + line.length, buf ++ line.take (count - nread), (front + line.length + 1) % ttyCookBufSz) := by
  induction line generalizing fuel front nread buf with
  | nil =>
    obtain ⟨fuel, rfl⟩ := Nat.exists_eq_succ_of_ne_zero (Nat.ne_of_gt enough)
    have stop : queue front = 0 := by simpa [Nat.mod_eq_of_lt inside] using window.head
    simp [ttyReadFrom, stop, RingBuffer.next_slot inside]
  | cons ch line ih =>
    obtain ⟨fuel, rfl⟩ := Nat.exists_eq_succ_of_ne_zero (Nat.ne_of_gt (Nat.zero_lt_of_lt enough))
    have here : queue front = ch := by simpa [Nat.mod_eq_of_lt inside] using window.head
    have visible : ch ≠ 0 := fun null => text (by simp [null])
    have window' : Window ttyCookBufSz queue ((front + 1) % ttyCookBufSz) (line ++ 0 :: rest) := by
      have whole : ch :: line ++ 0 :: rest = [ch] ++ (line ++ 0 :: rest) := rfl
      rw [whole] at window
      exact window.right
    have stored : (if nread < count ∧ ch ≠ 0 then buf ++ [ch] else buf) ++ line.take (count - (nread + 1)) =
        buf ++ (ch :: line).take (count - nread) := by
      by_cases fits : nread < count
      · have left : count - nread = count - (nread + 1) + 1 := by omega
        simp [fits, visible, left]
      · have left : count - nread = 0 := by omega
        have left' : count - (nread + 1) = 0 := by omega
        simp [fits, left, left']
    rw [ttyReadFrom, here, if_neg visible, RingBuffer.next_slot inside,
      ih window' (fun member => text (List.mem_cons_of_mem _ member)) (Nat.mod_lt _ (by decide))
        (Nat.lt_of_succ_lt_succ enough), stored]
    have count' : nread + 1 + line.length = nread + (ch :: line).length := by
      rw [List.length_cons]
      omega
    have position : ((front + 1) % ttyCookBufSz + line.length + 1) % ttyCookBufSz =
        (front + (ch :: line).length + 1) % ttyCookBufSz := by
      rw [Nat.add_assoc, Nat.mod_add_mod, List.length_cons]
      congr 1
      omega
    rw [count', position]

/-- `tty_read` takes the first line out of the queue. -/
theorem Pending.read {tty : Tty} (pending : Pending tty.queue (line ++ 0 :: rest)) (text : 0 ∉ line) (count : Nat) :
    ∃ q', ttyRead tty count = .ok (line.length, line.take count, { tty with queue := q' }) ∧ Pending q' rest := by
  have room := pending.room
  rw [List.length_append, List.length_cons] at room
  have loop : ttyReadFrom tty.queue.buf count ttyCookBufSz tty.queue.front 0 [] = _ :=
    ttyReadFrom_line pending.window text pending.front (by omega)
  unfold ttyRead
  rw [loop, ok_bind, Nat.zero_add]
  refine ⟨_, rfl, Nat.mod_lt _ (by decide), by omega, ?_, ?_, ?_⟩
  · show tty.queue.rear = _
    rw [pending.rear, Nat.mod_add_mod, List.length_append, List.length_cons]
    congr 1
    omega
  · have whole : line ++ 0 :: rest = (line ++ [0]) ++ rest := by simp
    have window := pending.window
    rw [whole] at window
    have window := window.right
    rw [List.length_append, List.length_singleton, ← Nat.add_assoc] at window
    exact window
  · show tty.queue.buf _ = 0
    have stop := pending.window line.length (by simp)
    have position : ((tty.queue.front + line.length + 1) % ttyCookBufSz + (ttyCookBufSz - 1)) % ttyCookBufSz =
        (tty.queue.front + line.length) % ttyCookBufSz := by
      rw [Nat.mod_add_mod, show tty.queue.front + line.length + 1 + (ttyCookBufSz - 1) =
        tty.queue.front + line.length + ttyCookBufSz by omega, Nat.add_mod_right]
    rw [position, stop]
    simp

end Queue

/-! ## Lines -/

/-- What a terminal is for: the completed lines nobody has read, and the line being typed. -/
structure Lines where
  done : List (List UInt8)
  current : List UInt8

/-- A character is typed. -/
def Lines.type (t : Lines) (ch : UInt8) : Lines :=
  if ch = newline then ⟨t.done ++ [t.current ++ [newline]], []⟩
  else if ch = backspace then { t with current := t.current.dropLast }
  else { t with current := t.current ++ [ch] }

/-- The lines of all that was typed. -/
def typed (chars : List UInt8) : Lines := chars.foldl Lines.type ⟨[], []⟩

/-- How the queue holds the lines. -/
def Lines.bytes (t : Lines) : List UInt8 := (t.done.map (· ++ [0])).flatten ++ t.current

/-- The bytes that a character adds to the queue. -/
def width (ch : UInt8) : Nat := if ch = newline then 2 else if ch = backspace then 0 else 1

/-- The queue holds the lines, and there is a permit for each completed one; `granted` of
them have gone to calls of `tty_read` that have not got the lock yet. -/
structure Represents (tty : Tty) (granted : Nat) (t : Lines) : Prop where
  pending : Pending tty.queue t.bytes
  text : 0 ∉ t.current
  lines : ∀ l ∈ t.done, ∃ text, l = text ++ [newline] ∧ 0 ∉ text
  permits : tty.cooked.value + granted = t.done.length
  nonneg : 0 ≤ tty.cooked.value

section Lines

variable {t : Lines} {tty : Tty} {granted : Nat} {ch : UInt8}

theorem represents_init : Represents ttyInit 0 ⟨[], []⟩ :=
  ⟨pending_init, by simp, by simp, by simp [ttyInit, semInit], by simp [ttyInit, semInit]⟩

/-- The byte before an empty line is the NUL of the line before. -/
theorem Lines.last_stop (empty : t.current = []) : t.bytes.getLast?.getD 0 = 0 := by
  unfold Lines.bytes
  rw [empty, List.append_nil]
  rcases List.eq_nil_or_concat t.done with none | ⟨front, last, split⟩
  · simp [none]
  · rw [split]
    simp

theorem Lines.length_done (t : Lines) : t.done.length ≤ t.bytes.length := by
  unfold Lines.bytes
  induction t.done with
  | nil => simp
  | cons l rest ih =>
    simp only [List.map_cons, List.flatten_cons, List.length_append, List.length_cons] at ih ⊢
    omega

/-- There are far fewer lines than `INT_MAX`. -/
theorem Represents.increment (represents : Represents tty granted t) :
    semIncrement tty.cooked = .ok { tty.cooked with value := tty.cooked.value + 1 } := by
  have permits := represents.permits
  have few := Nat.lt_of_le_of_lt t.length_done represents.pending.room
  have range : tty.cooked.value < Kmt.intMax := by
    unfold Kmt.intMax
    unfold ttyCookBufSz at few
    omega
  exact if_pos range

theorem Represents.cook_newline (represents : Represents tty granted t) :
    (∃ tty', ttyCook tty newline = .ok (0, tty') ∧ Represents tty' granted (t.type newline)) ∨
      (ttyCook tty newline = .error (.assert "tty queue full") ∧ ttyCookBufSz ≤ t.bytes.length + 2) := by
  have bytes : (t.type newline).bytes = t.bytes ++ [newline] ++ [0] := by
    simp [Lines.type, Lines.bytes]
  unfold ttyCook
  rw [if_pos rfl]
  by_cases room : t.bytes.length + 1 < ttyCookBufSz
  · obtain ⟨q₁, first, pending₁⟩ := represents.pending.enqueue newline room
    rw [first, ok_bind]
    by_cases room' : (t.bytes ++ [newline]).length + 1 < ttyCookBufSz
    · obtain ⟨q₂, second, pending₂⟩ := pending₁.enqueue 0 room'
      rw [second, ok_bind, represents.increment, ok_bind]
      refine Or.inl ⟨_, rfl, ?_, ?_, ?_, ?_, ?_⟩
      · rw [bytes]
        exact pending₂
      · simp [Lines.type]
      · intro l member
        rcases List.mem_append.1 member with before | last
        · exact represents.lines l before
        · exact ⟨t.current, List.mem_singleton.1 last, represents.text⟩
      · have permits := represents.permits
        simp only [Lines.type, if_pos, List.length_append, List.length_singleton]
        omega
      · have nonneg := represents.nonneg
        show 0 ≤ tty.cooked.value + 1
        omega
    · rw [pending₁.enqueue_full room']
      rw [List.length_append, List.length_singleton] at room'
      exact Or.inr ⟨rfl, by omega⟩
  · rw [represents.pending.enqueue_full room]
    exact Or.inr ⟨rfl, by omega⟩

theorem Represents.cook_backspace (represents : Represents tty granted t) :
    ∃ tty', ttyCook tty backspace = .ok (if t.current = [] then 1 else 0, tty') ∧
      Represents tty' granted (t.type backspace) := by
  have shape : t.type backspace = { t with current := t.current.dropLast } := rfl
  unfold ttyCook
  rw [shape, if_neg (by decide), if_pos rfl]
  rcases List.eq_nil_or_concat t.current with empty | ⟨text, last, split⟩
  · rw [represents.pending.popBack_stop (t.last_stop empty), if_pos empty]
    refine ⟨tty, rfl, ?_⟩
    rw [empty, List.dropLast_nil, ← empty]
    exact represents
  · rw [List.concat_eq_append] at split
    have bytes : t.bytes = (t.done.map (· ++ [0])).flatten ++ text ++ [last] := by
      simp [Lines.bytes, split]
    have visible : last ≠ 0 := fun null => represents.text (by simp [split, null])
    have pending := represents.pending
    rw [bytes] at pending
    obtain ⟨q', erased, pending'⟩ := pending.popBack visible
    rw [erased, if_neg (by simp [split])]
    refine ⟨_, rfl, ?_, ?_, represents.lines, represents.permits, represents.nonneg⟩
    · simpa [Lines.bytes, split] using pending'
    · intro member
      exact represents.text (List.dropLast_subset _ member)

theorem Represents.cook_text (represents : Represents tty granted t) (text : ch ≠ 0)
    (line : ch ≠ newline) (erase : ch ≠ backspace) :
    (∃ tty', ttyCook tty ch = .ok (0, tty') ∧ Represents tty' granted (t.type ch)) ∨
      (ttyCook tty ch = .error (.assert "tty queue full") ∧ ttyCookBufSz ≤ t.bytes.length + 1) := by
  have shape : t.type ch = { t with current := t.current ++ [ch] } := by
    simp [Lines.type, line, erase]
  unfold ttyCook
  rw [shape, if_neg line, if_neg erase]
  by_cases room : t.bytes.length + 1 < ttyCookBufSz
  · obtain ⟨q', stored, pending⟩ := represents.pending.enqueue ch room
    rw [stored, ok_bind]
    refine Or.inl ⟨_, rfl, ?_, ?_, represents.lines, represents.permits, represents.nonneg⟩
    · simpa [Lines.bytes] using pending
    · simp [represents.text, Ne.symm text]
  · rw [represents.pending.enqueue_full room]
    exact Or.inr ⟨rfl, by omega⟩

/-- `tty_cook` types the character, or the queue is full. -/
theorem Represents.cook (represents : Represents tty granted t) (text : ch ≠ 0) :
    (∃ tty', ttyCook tty ch = .ok (if ch = backspace ∧ t.current = [] then 1 else 0, tty') ∧
        Represents tty' granted (t.type ch)) ∨
      (ttyCook tty ch = .error (.assert "tty queue full") ∧
        ttyCookBufSz ≤ t.bytes.length + width ch) := by
  by_cases line : ch = newline
  · subst line
    exact represents.cook_newline
  by_cases erase : ch = backspace
  · subst erase
    simpa using Or.inl represents.cook_backspace
  · simpa [erase, line, width] using represents.cook_text text line erase

/-- A call of `tty_read` gets a permit. -/
theorem Represents.grant {sem : Sem} (represents : Represents tty granted t)
    (round : semWaitRound tty.cooked = (true, sem)) : Represents { tty with cooked := sem } (granted + 1) t := by
  have permits := represents.permits
  unfold semWaitRound at round
  split at round
  · next left =>
    cases round
    refine ⟨represents.pending, represents.text, represents.lines, ?_, ?_⟩
    · show tty.cooked.value - 1 + ((granted + 1 : Nat) : Int) = _
      omega
    · show 0 ≤ tty.cooked.value - 1
      omega
  · cases round

/-- `tty_read` takes the first line. -/
theorem Represents.read (represents : Represents tty (granted + 1) t) (count : Nat) :
    ∃ line rest tty', t.done = line :: rest ∧
      ttyRead tty count = .ok (line.length, line.take count, tty') ∧
      Represents tty' granted { t with done := rest } := by
  have permits := represents.permits
  have nonneg := represents.nonneg
  cases split : t.done with
  | nil =>
    rw [split, List.length_nil] at permits
    omega
  | cons line rest =>
    obtain ⟨text, ends, visible⟩ := represents.lines line (by simp [split])
    have bytes : t.bytes = line ++ 0 :: (Lines.bytes { t with done := rest }) := by
      simp [Lines.bytes, split]
    have pending := represents.pending
    rw [bytes] at pending
    have clean : 0 ∉ line := by
      rw [ends]
      simpa [newline] using visible
    obtain ⟨q', returns, pending'⟩ := pending.read clean count
    refine ⟨line, rest, _, rfl, returns, pending', represents.text, ?_, ?_, nonneg⟩
    · exact fun l member => represents.lines l (by simp [split, member])
    · rw [split, List.length_cons] at permits
      show tty.cooked.value + (granted : Int) = (rest.length : Int)
      omega

end Lines

end OsLab.Kernel.Devices
