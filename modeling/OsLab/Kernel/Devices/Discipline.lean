import OsLab.Kernel.Devices.Tty

/-!
# The line discipline

Any number of tasks cook characters and read lines. The reads return the completed lines one
after the other, whatever was erased in between: `TtyRun` collects what the calls did, and
`line_discipline` compares it with the lines of everything typed.
-/

namespace OsLab.Kernel.Devices

open Kmt (Sem semWaitRound)

/-- A call of `tty_read`: its `count`, what it returned and the bytes it stored. -/
structure TtyReturn where
  count : Nat
  nread : Nat
  buf : List UInt8

/-- What has been done to a terminal. -/
inductive TtyEvent where
  | cook (ch : UInt8) (ret : Int)
  | read (r : TtyReturn)

/-- A terminal, and the calls of `tty_read` between their two semaphores. -/
structure TtyState where
  tty : Tty
  granted : Nat

/-- The calls of any tasks in any order, oldest first. -/
inductive TtyRun : TtyState → List TtyEvent → Prop where
  | init : TtyRun ⟨ttyInit, 0⟩ []
  | cook {s : TtyState} {hist : List TtyEvent} {ch : UInt8} {ret : Int} {tty : Tty} :
      TtyRun s hist → ch ≠ 0 → ttyCook s.tty ch = .ok (ret, tty) →
      TtyRun { s with tty := tty } (hist ++ [.cook ch ret])
  | grant {s : TtyState} {hist : List TtyEvent} {sem : Sem} :
      TtyRun s hist → semWaitRound s.tty.cooked = (true, sem) →
      TtyRun ⟨{ s.tty with cooked := sem }, s.granted + 1⟩ hist
  | read {s : TtyState} {hist : List TtyEvent} {granted count nread : Nat} {buf : List UInt8} {tty : Tty} :
      TtyRun s hist → s.granted = granted + 1 → ttyRead s.tty count = .ok (nread, buf, tty) →
      TtyRun ⟨tty, granted⟩ (hist ++ [.read ⟨count, nread, buf⟩])

/-- The characters that were cooked. -/
def chars (hist : List TtyEvent) : List UInt8 :=
  hist.filterMap fun e => match e with
    | .cook ch _ => some ch
    | .read _ => none

/-- The reads that returned. -/
def reads (hist : List TtyEvent) : List TtyReturn :=
  hist.filterMap fun e => match e with
    | .cook _ _ => none
    | .read r => some r

/-- The number of bytes between `front` and `rear`. -/
def TtyQueue.used (q : TtyQueue) : Nat := (q.rear + ttyCookBufSz - q.front) % ttyCookBufSz

/-- The lines that are left after `n` reads. -/
def Lines.drop (n : Nat) (t : Lines) : Lines := { t with done := t.done.drop n }

section Typed

variable {t : Lines} {hist : List TtyEvent} {cs : List UInt8} {ch : UInt8} {n : Nat}

theorem typed_snoc : typed (cs ++ [ch]) = (typed cs).type ch := by
  simp [typed]

@[simp] theorem chars_cook {ret : Int} : chars (hist ++ [.cook ch ret]) = chars hist ++ [ch] := by
  simp [chars]

@[simp] theorem chars_read {r : TtyReturn} : chars (hist ++ [.read r]) = chars hist := by
  simp [chars]

@[simp] theorem reads_cook {ret : Int} : reads (hist ++ [.cook ch ret]) = reads hist := by
  simp [reads]

@[simp] theorem reads_read {r : TtyReturn} : reads (hist ++ [.read r]) = reads hist ++ [r] := by
  simp [reads]

/-- Completed lines stay. -/
theorem Lines.done_type (t : Lines) (ch : UInt8) : ∃ more, (t.type ch).done = t.done ++ more := by
  unfold Lines.type
  split
  · exact ⟨_, rfl⟩
  · split <;> exact ⟨[], (List.append_nil _).symm⟩

theorem Lines.type_drop (le : n ≤ t.done.length) : (t.drop n).type ch = (t.type ch).drop n := by
  unfold Lines.type Lines.drop
  split
  · simp [List.drop_append_of_le_length le]
  · split <;> rfl

theorem Pending.used {q : TtyQueue} {bytes : List UInt8} (pending : Pending q bytes) : q.used = bytes.length := by
  have front := pending.front
  have room := pending.room
  unfold TtyQueue.used
  rw [pending.rear]
  by_cases wraps : q.front + bytes.length < ttyCookBufSz
  · rw [Nat.mod_eq_of_lt wraps, show q.front + bytes.length + ttyCookBufSz - q.front = bytes.length + ttyCookBufSz by omega,
      Nat.add_mod_right, Nat.mod_eq_of_lt room]
  · have position : (q.front + bytes.length) % ttyCookBufSz = q.front + bytes.length - ttyCookBufSz := by
      rw [Nat.mod_eq_sub_mod (by omega), Nat.mod_eq_of_lt (by omega)]
    rw [position, show q.front + bytes.length - ttyCookBufSz + ttyCookBufSz - q.front = bytes.length by omega,
      Nat.mod_eq_of_lt room]

end Typed

section Runs

variable {s : TtyState} {hist : List TtyEvent}

/-- The queue holds what was typed and not read, and every call returned what it should. -/
structure Follows (s : TtyState) (hist : List TtyEvent) : Prop where
  bound : (reads hist).length ≤ (typed (chars hist)).done.length
  represents : Represents s.tty s.granted ((typed (chars hist)).drop (reads hist).length)
  results : ∀ (k : Nat) (r : TtyReturn), (reads hist)[k]? = some r → ∃ line : List UInt8,
    (typed (chars hist)).done[k]? = some line ∧ r.nread = line.length ∧ r.buf = line.take r.count
  returns : ∀ before ch ret after, hist = before ++ .cook ch ret :: after →
    ret = if ch = backspace ∧ (typed (chars before)).current = [] then 1 else 0

/-- An event of a longer history is the last one or one of the history before. -/
theorem split_snoc {before after : List TtyEvent} {e last : TtyEvent}
    (split : hist ++ [last] = before ++ e :: after) :
    before = hist ∧ e = last ∨ ∃ after, hist = before ++ e :: after := by
  rcases List.eq_nil_or_concat after with rfl | ⟨after, final, rfl⟩
  · obtain ⟨rfl, same⟩ := List.append_inj' split rfl
    cases same
    exact .inl ⟨rfl, rfl⟩
  · rw [List.concat_eq_append, ← List.cons_append, ← List.append_assoc] at split
    obtain ⟨rfl, -⟩ := List.append_inj' split rfl
    exact .inr ⟨after, rfl⟩

theorem Follows.cook {ch : UInt8} {ret : Int} {tty : Tty} (follows : Follows s hist) (text : ch ≠ 0)
    (run : ttyCook s.tty ch = .ok (ret, tty)) : Follows { s with tty := tty } (hist ++ [.cook ch ret]) := by
  obtain ⟨more, done⟩ := Lines.done_type (typed (chars hist)) ch
  rcases follows.represents.cook text with ⟨tty', returns, represents⟩ | ⟨halts, -⟩
  · rw [run] at returns
    cases returns
    rw [Lines.type_drop follows.bound, ← typed_snoc] at represents
    refine ⟨?_, ?_, ?_, ?_⟩
    · simp only [chars_cook, reads_cook, typed_snoc, done, List.length_append]
      exact Nat.le_add_right_of_le follows.bound
    · simpa using represents
    · intro k r at'
      rw [reads_cook] at at'
      obtain ⟨line, at', facts⟩ := follows.results k r at'
      refine ⟨line, ?_, facts⟩
      obtain ⟨range, -⟩ := List.getElem?_eq_some_iff.1 at'
      rw [chars_cook, typed_snoc, done, List.getElem?_append_left range, at']
    · intro before ch' ret' after split
      obtain ⟨rfl, same⟩ | ⟨after, earlier⟩ := split_snoc split
      · cases same
        rfl
      · exact follows.returns before ch' ret' after earlier
  · rw [run] at halts
    cases halts

theorem Follows.read {count nread granted : Nat} {buf : List UInt8} {tty : Tty} (follows : Follows s hist)
    (permit : s.granted = granted + 1) (run : ttyRead s.tty count = .ok (nread, buf, tty)) :
    Follows ⟨tty, granted⟩ (hist ++ [.read ⟨count, nread, buf⟩]) := by
  have represents := follows.represents
  rw [permit] at represents
  obtain ⟨line, rest, tty', split, returns, represents⟩ := represents.read count
  rw [run] at returns
  cases returns
  change (typed (chars hist)).done.drop (reads hist).length = line :: rest at split
  have next : (typed (chars hist)).done[(reads hist).length]? = some line := by
    rw [← List.head?_drop, split]
    rfl
  obtain ⟨range, -⟩ := List.getElem?_eq_some_iff.1 next
  refine ⟨?_, ?_, ?_, ?_⟩
  · simp only [chars_read, reads_read, List.length_append, List.length_singleton]
    exact range
  · have left : (typed (chars hist)).done.drop ((reads hist).length + 1) = rest := by
      rw [← List.drop_drop, split]
      rfl
    simp only [chars_read, reads_read, List.length_append, List.length_singleton, Lines.drop, left]
    exact represents
  · intro k r at'
    rw [reads_read] at at'
    rw [chars_read]
    rcases Nat.lt_or_ge k (reads hist).length with before | last
    · rw [List.getElem?_append_left before] at at'
      exact follows.results k r at'
    · obtain rfl : k = (reads hist).length := by
        obtain ⟨inside, -⟩ := List.getElem?_eq_some_iff.1 at'
        rw [List.length_append, List.length_singleton] at inside
        omega
      obtain rfl : ⟨count, line.length, line.take count⟩ = r := by simpa using at'
      exact ⟨line, next, rfl, rfl⟩
  · intro before ch ret after split
    obtain ⟨-, same⟩ | ⟨after, earlier⟩ := split_snoc split
    · cases same
    · exact follows.returns before ch ret after earlier

theorem TtyRun.follows (run : TtyRun s hist) : Follows s hist := by
  induction run with
  | init => exact ⟨by simp [reads], represents_init, by simp [reads], by simp⟩
  | cook _ text run ih => exact ih.cook text run
  | grant _ round ih => exact ⟨ih.bound, ih.represents.grant round, ih.results, ih.returns⟩
  | read _ permit run ih => exact ih.read permit run

/-- **The line discipline.** Whatever tasks type and read, the k-th read returns the k-th
completed line, if `count` leaves room for it: all that was typed since the newline before,
less what was erased of it, and the newline. Backspace answers 1 exactly at the start of a
line. While there is room in the queue no call halts. -/
theorem line_discipline (run : TtyRun s hist) :
    (∀ (k : Nat) (r : TtyReturn), (reads hist)[k]? = some r → ∃ line : List UInt8,
      (typed (chars hist)).done[k]? = some line ∧ r.nread = line.length ∧ (line.length ≤ r.count → r.buf = line)) ∧
    (∀ before ch ret after, hist = before ++ .cook ch ret :: after →
      ret = if ch = backspace ∧ (typed (chars before)).current = [] then 1 else 0) ∧
    (∀ ch, ch ≠ 0 → s.tty.queue.used + width ch < ttyCookBufSz → ∃ ret tty, ttyCook s.tty ch = .ok (ret, tty)) ∧
    (∀ count, s.granted ≠ 0 → ∃ nread buf tty, ttyRead s.tty count = .ok (nread, buf, tty)) := by
  have follows := run.follows
  refine ⟨?_, follows.returns, ?_, ?_⟩
  · intro k r at'
    obtain ⟨line, at', nread, buf⟩ := follows.results k r at'
    exact ⟨line, at', nread, fun room => by rw [buf, List.take_of_length_le room]⟩
  · intro ch text room
    rw [follows.represents.pending.used] at room
    rcases follows.represents.cook text with ⟨tty, returns, -⟩ | ⟨-, full⟩
    · exact ⟨_, tty, returns⟩
    · omega
  · intro count waiting
    obtain ⟨granted, permit⟩ := Nat.exists_eq_succ_of_ne_zero waiting
    have represents := follows.represents
    rw [permit] at represents
    obtain ⟨line, -, tty, -, returns, -⟩ := represents.read count
    exact ⟨_, _, tty, returns⟩

/-- `a` is erased, and backspace finds the line empty then; the line is `b`. -/
theorem line_discipline_erased : ∃ s hist, TtyRun s hist ∧ reads hist = [⟨16, 2, [98, newline]⟩] ∧
    (typed (chars hist)).done[0]? = some [98, newline] := by
  have start := TtyRun.init
  have typed₁ := start.cook (show (97 : UInt8) ≠ 0 by decide) rfl
  have erased := typed₁.cook (show backspace ≠ 0 by decide) rfl
  have empty := erased.cook (show backspace ≠ 0 by decide) rfl
  have typed₂ := empty.cook (show (98 : UInt8) ≠ 0 by decide) rfl
  have ended := typed₂.cook (show newline ≠ 0 by decide) rfl
  have waited := ended.grant rfl
  have returned : TtyRun _ (_ ++ [.read ⟨16, _, _⟩]) := waited.read rfl rfl
  obtain ⟨results, -, -, -⟩ := line_discipline returned
  obtain ⟨line, at', nread, buf⟩ := results 0 ⟨16, 2, [98, newline]⟩ rfl
  have whole : [98, newline] = line := by
    apply buf
    rw [← nread]
    decide
  rw [← whole] at at'
  exact ⟨_, _, returned, rfl, at'⟩

end Runs

end OsLab.Kernel.Devices
