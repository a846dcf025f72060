import OsLab.Lib.Stdio
import OsLab.Lib.Trap

/-!
# The lines of strace (`sperf/sperf.c`)

`getData` takes the name of a system call from the start of a line, and its time from the last nine characters, which hold a
time of one digit before the point. Every access to the line and to the two buffers of 50 characters is checked.
-/

namespace OsLab.Sperf

open OsLab.Decimal (isDigit)
open OsLab.Stdio (isAlpha)

/-- `isUsefulLine` -/
def isUsefulLine (str : List UInt8) (len : Nat) : Except Trap Bool :=
  if len > 0 then do
    let first ← Trap.load str 0
    if isAlpha first then do
      let last ← Trap.load str (len - 1)
      .ok (last = 62)
    else .ok false
  else .ok false

/-- The loops of `getData`: copy `str` from `i` on, at most `left` characters, up to `stop`, which becomes a NUL. -/
def copyUntil (stop : UInt8) (str : List UInt8) : Nat → Int → Int → List UInt8 → Except Trap (List UInt8)
  | 0, _, _, dst => .ok dst
  | left + 1, i, pos, dst => do
    let c ← Trap.load str i
    if c = stop then Trap.put dst pos 0
    else do
      let dst ← Trap.put dst pos c
      copyUntil stop str left (i + 1) (pos + 1) dst

/-- `LEN` -/
def LEN : Nat := 9

/-- `getData`, with the text in `buffer` for the number that `atof` makes of it. -/
def getData (str : List UInt8) (len : Nat) (name buffer : List UInt8) : Except Trap (List UInt8 × List UInt8) := do
  let name ← copyUntil 40 str len 0 0 name
  let buffer ← copyUntil 62 str LEN (len - LEN) 0 buffer
  .ok (name, buffer)

/-- A line of strace: `name(args) = result <seconds.micros>`. -/
structure StraceLine where
  letter : UInt8
  rest : List UInt8
  args : List UInt8
  result : List UInt8
  seconds : List UInt8
  micros : List UInt8
  isAlpha_letter : isAlpha letter = true
  plain : 40 ∉ rest ∧ 0 ∉ rest
  short : rest.length ≤ 48
  digits : ∀ c ∈ seconds ++ micros, isDigit c = true
  some : seconds ≠ []
  six : micros.length = 6

namespace StraceLine

variable (l : StraceLine)

/-- The name of the system call. -/
def name : List UInt8 := l.letter :: l.rest

/-- The time, as `s.uuuuuu`. -/
def time : List UInt8 := l.seconds ++ 46 :: l.micros

/-- `(args) = result <` -/
def middle : List UInt8 := 40 :: l.args ++ [41, 32, 61, 32] ++ l.result ++ [32, 60]

/-- The characters of the line. -/
def chars : List UInt8 := l.name ++ l.middle ++ l.time ++ [62]

end StraceLine

/-- A line is accepted, and its name and time are what `getData` finds in it, whatever is in the buffers before. -/
def ReadsRight (l : StraceLine) : Prop :=
  ∀ after name buffer : List UInt8, name.length = 50 → buffer.length = 50 →
    isUsefulLine (l.chars ++ after) l.chars.length = .ok true ∧
      ∃ name' buffer', getData (l.chars ++ after) l.chars.length name buffer = .ok (name', buffer') ∧
        Trap.text name' = l.name ∧ Trap.text buffer' = l.time

section Copies

variable {stop : UInt8} {front todo rest done old : List UInt8} {left : Nat} {i pos : Int}

/-- What is copied before the stop. -/
theorem copyUntil_run (plain : stop ∉ todo) (enough : todo.length < left) (room : todo.length < old.length)
    (source : (front.length : Int) = i) (target : (done.length : Int) = pos) :
    copyUntil stop (front ++ (todo ++ stop :: rest)) left i pos (done ++ old) =
      .ok (done ++ (todo ++ 0 :: old.drop (todo.length + 1))) := by
  induction todo generalizing front done old left i pos with
  | nil =>
    obtain ⟨left, rfl⟩ := Nat.exists_eq_succ_of_ne_zero (Nat.ne_of_gt enough)
    obtain ⟨o, old, rfl⟩ := List.exists_cons_of_length_pos room
    rw [copyUntil, List.nil_append, Trap.load_at source, ok_bind, if_pos rfl, Trap.put_at target]
    rfl
  | cons c todo ih =>
    obtain ⟨left, rfl⟩ := Nat.exists_eq_succ_of_ne_zero (Nat.ne_of_gt (Nat.zero_lt_of_lt enough))
    obtain ⟨o, old, rfl⟩ := List.exists_cons_of_length_pos (Nat.zero_lt_of_lt room)
    rw [List.mem_cons, not_or] at plain
    have next := @ih (front ++ [c]) (done ++ [c]) old left (i + 1) (pos + 1)
      plain.2 (by simpa using enough) (by simpa using room) (by simp [← source]) (by simp [← target])
    rw [copyUntil, List.cons_append, Trap.load_at source, ok_bind, if_neg (Ne.symm plain.1), Trap.put_at target, ok_bind]
    simpa using next

end Copies

section Lines

variable {l : StraceLine} {after name buffer : List UInt8}

theorem isDigit_ne {c d : UInt8} (digit : isDigit c = true) (other : isDigit d = false) : d ≠ c := by
  rintro rfl
  rw [digit] at other
  cases other

theorem ne_letter {c : UInt8} (other : isAlpha c = false) : c ≠ l.letter := by
  rintro rfl
  rw [l.isAlpha_letter] at other
  cases other

/-- What is no digit and no point is not in the last part of the time. -/
theorem not_mem_time {c d : UInt8} {front : List UInt8} (last : l.seconds = front ++ [d]) (digit : isDigit c = false)
    (point : c ≠ 46) : c ∉ d :: 46 :: l.micros := by
  have all : ∀ e ∈ l.seconds ++ l.micros, c ≠ e := fun e inside => isDigit_ne (l.digits e inside) digit
  intro member
  rcases List.mem_cons.1 member with same | member
  · exact all d (by rw [last]; simp) same
  · rcases List.mem_cons.1 member with same | member
    · exact point same
    · exact all c (List.mem_append_right _ member) rfl

/-- A useful line begins with a letter and ends with `>`. -/
theorem isUsefulLine_chars : isUsefulLine (l.chars ++ after) l.chars.length = .ok true := by
  have first : Trap.load (l.chars ++ after) 0 = .ok l.letter := @Trap.load_at _ [] _ _ _ rfl
  have last : Trap.load (l.chars ++ after) (l.chars.length - 1 : Int) = .ok 62 := by
    have split : l.chars ++ after = l.name ++ l.middle ++ l.time ++ 62 :: after := List.append_assoc ..
    rw [split]
    apply Trap.load_at
    unfold StraceLine.chars
    rw [@List.length_append _ _ [62], List.length_singleton]
    omega
  have some : l.chars.length > 0 := Nat.succ_pos _
  unfold isUsefulLine
  rw [if_pos some, first, ok_bind, if_pos l.isAlpha_letter, last, ok_bind]
  rfl

/-- The name is what comes before the first bracket. -/
theorem copy_name (size : name.length = 50) : ∃ old,
    copyUntil 40 (l.chars ++ after) l.chars.length 0 0 name = .ok (l.name ++ 0 :: old) := by
  have split : l.chars ++ after = [] ++ (l.name ++ 40 :: (l.args ++ [41, 32, 61, 32] ++ l.result ++ [32, 60] ++ l.time ++
      62 :: after)) := by
    simp [StraceLine.chars, StraceLine.middle]
  have plain : 40 ∉ l.name := by
    unfold StraceLine.name
    rw [List.mem_cons, not_or]
    exact ⟨ne_letter rfl, l.plain.1⟩
  have length : l.name.length ≤ 49 := Nat.succ_le_succ l.short
  have enough : l.name.length < l.chars.length := by
    simp only [StraceLine.chars, List.length_append, List.length_singleton]
    omega
  refine ⟨name.drop (l.name.length + 1), ?_⟩
  rw [split]
  exact @copyUntil_run _ _ _ _ [] _ _ _ _ plain enough (by omega) rfl rfl

theorem text_name {old : List UInt8} : Trap.text (l.name ++ 0 :: old) = l.name := by
  apply Trap.text_of
  unfold StraceLine.name
  rw [List.mem_cons, not_or]
  exact ⟨ne_letter rfl, l.plain.2⟩

/-- Of the time, what the last nine characters hold is copied. -/
theorem copy_time (size : buffer.length = 50) {front : List UInt8} {d : UInt8} (last : l.seconds = front ++ [d]) : ∃ old,
    copyUntil 62 (l.chars ++ after) LEN (l.chars.length - LEN) 0 buffer = .ok (d :: 46 :: l.micros ++ 0 :: old) := by
  have split : l.chars ++ after = (l.name ++ l.middle ++ front) ++ ((d :: 46 :: l.micros) ++ 62 :: after) := by
    simp [StraceLine.chars, StraceLine.time, last]
  have six := l.six
  have plain : 62 ∉ d :: 46 :: l.micros := not_mem_time last rfl (by decide)
  have place : ((l.name ++ l.middle ++ front).length : Int) = l.chars.length - LEN := by
    simp only [StraceLine.chars, StraceLine.time, last, List.length_append, List.length_cons, List.length_nil, six, LEN]
    omega
  refine ⟨buffer.drop ((d :: 46 :: l.micros).length + 1), ?_⟩
  rw [split]
  exact @copyUntil_run _ _ _ _ [] _ _ _ _ plain (by simp [six, LEN]) (by simp [six, size]) place rfl

/-- What `getData` finds: the name, and of the seconds the last digit. -/
theorem getData_chars {front : List UInt8} {d : UInt8} (last : l.seconds = front ++ [d]) (size : name.length = 50)
    (size' : buffer.length = 50) : ∃ name' buffer',
    getData (l.chars ++ after) l.chars.length name buffer = .ok (name', buffer') ∧
      Trap.text name' = l.name ∧ Trap.text buffer' = d :: 46 :: l.micros := by
  obtain ⟨old, first⟩ := @copy_name l after name size
  obtain ⟨old', second⟩ := @copy_time l after buffer size' _ _ last
  refine ⟨l.name ++ 0 :: old, d :: 46 :: l.micros ++ 0 :: old', ?_, text_name, Trap.text_of (not_mem_time last rfl (by decide))⟩
  unfold getData
  rw [first, ok_bind, second, ok_bind]

/-- That is the whole time if there is one digit before the point. -/
theorem time_eq_iff {front : List UInt8} {d : UInt8} (last : l.seconds = front ++ [d]) :
    d :: 46 :: l.micros = l.time ↔ l.seconds.length = 1 := by
  unfold StraceLine.time
  rw [last, List.append_assoc, List.length_append, List.length_singleton]
  constructor
  · intro same
    have length := congrArg List.length same
    simp only [List.length_append, List.length_cons, List.length_nil] at length
    omega
  · intro one
    rw [List.length_eq_zero_iff.1 (Nat.succ.inj one)]
    rfl

/-- If a line is read right, the last digit of the seconds, the point and the rest are the whole time. -/
theorem ReadsRight.time_eq {front : List UInt8} {d : UInt8} (right : ReadsRight l) (last : l.seconds = front ++ [d]) :
    d :: 46 :: l.micros = l.time := by
  have size : (List.replicate 50 (0 : UInt8)).length = 50 := List.length_replicate
  obtain ⟨-, name, buffer, run, -, text⟩ := right [] _ _ size size
  obtain ⟨name', buffer', run', -, text'⟩ := @getData_chars l [] _ _ _ _ last size size
  rw [run, Except.ok.injEq, Prod.mk.injEq] at run'
  rw [← text', ← run'.2, text]

/-- **The lines of strace.** A line is read right exactly if its time has one digit before the point. -/
theorem strace_line_iff (l : StraceLine) : ReadsRight l ↔ l.seconds.length = 1 := by
  obtain ⟨front, d, last⟩ : ∃ front d, l.seconds = front ++ [d] :=
    ⟨_, _, (List.dropLast_append_getLast l.some).symm⟩
  rw [← time_eq_iff last]
  constructor
  · intro right
    exact right.time_eq last
  · intro whole after name buffer size size'
    rw [← whole]
    exact ⟨isUsefulLine_chars, getData_chars last size size'⟩

/-- `a() = 0 <12.345678>` -/
def twoDigits : StraceLine where
  letter := 97
  rest := []
  args := []
  result := [48]
  seconds := [49, 50]
  micros := [51, 52, 53, 54, 55, 56]
  isAlpha_letter := rfl
  plain := by decide
  short := by decide
  digits := List.all_eq_true.1 rfl
  some := by decide
  six := rfl

/-- Of 12.345678 seconds `getData` finds 2.345678. -/
theorem time_cut : ¬ReadsRight twoDigits := by
  intro right
  have whole := @ReadsRight.time_eq twoDigits [49] 50 right rfl
  exact absurd whole (by decide)

end Lines

end OsLab.Sperf
