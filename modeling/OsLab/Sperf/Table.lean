import OsLab.Lib.Tally
import OsLab.Sperf.Lines

/-!
# The table of sperf (`sperf/sperf.c`)

`parent` reads the lines of strace until `scanf` finds none, and adds the times of the useful ones up. The numbers are those
of any type with an addition, and `atof` is any function to them. What `show` prints in between changes nothing.
-/

namespace OsLab.Sperf

open OsLab.Stdio (newline isSpace isAlpha)
open OsLab.Tally (update keys values Totals)

/-- `MAX_SYSCALL` -/
def MAX_SYSCALL : Nat := 1024

/-- `scanf("%[^\n]\n", buffer)`: the buffer and what is left of the input, if a line was read -/
def scanLine (input buffer : List UInt8) : Except Trap (Option (List UInt8 × List UInt8)) :=
  let line := input.takeWhile (· ≠ newline)
  if line = [] then .ok none
  else do
    let buffer ← Trap.putText buffer line
    .ok (some (buffer, (input.drop line.length).dropWhile isSpace))

section Table

variable {α : Type} (atof : List UInt8 → α) (add : α → α → α)

/-- `addItem`, where an item is its name and its total time, and `totCall` the number of items -/
def addItem (calls : List (List UInt8 × α)) (name : List UInt8) (rtime : α) : Except Trap (List (List UInt8 × α)) :=
  match update add name rtime calls with
  | some calls => .ok calls
  | none => if calls.length < MAX_SYSCALL then .ok (calls ++ [(name, rtime)]) else .error .abort

/-- The static data of `parent` and `getData`. -/
structure Data (α : Type) where
  input : List UInt8
  buffer : List UInt8
  nameBuffer : List UInt8
  number : List UInt8
  calls : List (List UInt8 × α)

/-- The loop of `parent`, with a bound on its turns -/
def parentLoop : Nat → Data α → Except Trap (List (List UInt8 × α))
  | 0, _ => .error .diverge
  | turns + 1, s => do
    match ← scanLine s.input s.buffer with
    | none => .ok s.calls
    | some (buffer, input) =>
      let str ← Trap.readText buffer
      if ← isUsefulLine buffer str.length then do
        let (nameBuffer, number) ← getData buffer str.length s.nameBuffer s.number
        let name ← Trap.readText nameBuffer
        let time ← Trap.readText number
        let calls ← addItem add s.calls name (atof time)
        parentLoop turns ⟨input, buffer, nameBuffer, number, calls⟩
      else parentLoop turns { s with input, buffer }

/-- `parent`: what is in `calls` when it shows them for the last time -/
def parent (input : List UInt8) : Except Trap (List (List UInt8 × α)) :=
  parentLoop atof add (input.length + 1)
    ⟨input, List.replicate 1024 0, List.replicate 50 0, List.replicate 50 0, []⟩

/-! ## What strace writes -/

/-- A line: of a system call that took less than ten seconds, or one that tells something else. -/
inductive Line where
  | call (l : StraceLine) (seconds : l.seconds.length = 1)
  | other (chars : List UInt8) (some : chars ≠ []) (useless : isUsefulLine chars chars.length = .ok false)

namespace Line

def chars : Line → List UInt8
  | call l _ => l.chars
  | other chars _ _ => chars

/-- The line fits into the buffer, and is one line of text. -/
structure Plain (l : Line) : Prop where
  short : l.chars.length < 1024
  text : 0 ∉ l.chars
  one : newline ∉ l.chars
  start : ∀ c ∈ l.chars.head?, isSpace c = false

/-- The name of a call, with its time. -/
def entry (l : Line) : Option (List UInt8 × α) :=
  match l with
  | call l _ => some (l.name, atof l.time)
  | other _ _ _ => none

end Line

/-- The input with these lines. -/
def inputOf (ls : List Line) : List UInt8 := ls.flatMap fun l => l.chars ++ [newline]

/-- The calls among the lines, with their times. -/
def entries (ls : List Line) : List (List UInt8 × α) := ls.filterMap (Line.entry atof)

/-- The outcome of adding entries up: a table, or a failed assertion where they have too many names. -/
def AddsUp (es : List (List UInt8 × α)) (out : Except Trap (List (List UInt8 × α))) : Prop :=
  ((keys es).length ≤ MAX_SYSCALL → ∃ calls, out = .ok calls ∧ Totals add es calls) ∧
    (MAX_SYSCALL < (keys es).length → out = .error .abort)

variable {atof add} {ls : List Line} {l : Line} {es : List (List UInt8 × α)} {calls : List (List UInt8 × α)}
  {buffer nameBuffer number dst dst' str : List UInt8} {turns : Nat}

theorem Line.chars_ne_nil (l : Line) : l.chars ≠ [] := by
  cases l with
  | call l seconds => exact List.cons_ne_nil _ _
  | other chars some useless => exact some

theorem inputOf_start (plain : ∀ l ∈ ls, l.Plain) : (inputOf ls).dropWhile isSpace = inputOf ls := by
  cases ls with
  | nil => rfl
  | cons l ls =>
    have good := plain l List.mem_cons_self
    obtain ⟨c, rest, chars⟩ := List.exists_cons_of_ne_nil l.chars_ne_nil
    have start := good.start c (by rw [chars]; exact Option.mem_some_self c)
    rw [inputOf, List.flatMap_cons, chars, List.cons_append, List.cons_append, List.dropWhile_cons_of_neg]
    rw [start]
    exact Bool.false_ne_true

theorem length_inputOf (ls : List Line) : ls.length ≤ (inputOf ls).length := by
  induction ls with
  | nil => exact Nat.le_refl 0
  | cons l ls ih =>
    rw [inputOf, List.flatMap_cons, List.length_append, List.length_append, List.length_cons, List.length_singleton]
    exact Nat.le_trans (Nat.succ_le_succ ih) (by rw [inputOf]; omega)

/-- A line is read into the buffer, and the next one follows. -/
theorem scanLine_line (good : l.Plain) (plain : ∀ l ∈ ls, l.Plain) (size : buffer.length = 1024) :
    scanLine (inputOf (l :: ls)) buffer =
      .ok (some (l.chars ++ 0 :: buffer.drop (l.chars.length + 1), inputOf ls)) := by
  have whole : inputOf (l :: ls) = l.chars ++ newline :: inputOf ls := by
    rw [inputOf, List.flatMap_cons, List.append_assoc]
    rfl
  have line : (inputOf (l :: ls)).takeWhile (· ≠ newline) = l.chars := by
    rw [whole, List.takeWhile_append_of_pos fun c member => decide_eq_true (ne_of_mem_of_not_mem member good.one),
      List.takeWhile_cons_of_neg (by simp), List.append_nil]
  have space : isSpace newline = true := rfl
  unfold scanLine
  simp only [line, l.chars_ne_nil, if_false]
  rw [Trap.putText_of (by rw [size]; exact good.short), ok_bind, whole, List.drop_left, List.dropWhile_cons_of_pos space,
    inputOf_start plain]

/-- Only the line counts, and not what is behind it in the buffer. -/
theorem isUsefulLine_append (str after : List UInt8) :
    isUsefulLine (str ++ after) str.length = isUsefulLine str str.length := by
  have same : ∀ n, n < str.length → Trap.load (str ++ after) n = Trap.load str n := by
    intro n less
    rw [Trap.load_natCast, Trap.load_natCast, List.getElem?_append_left less]
  unfold isUsefulLine
  split
  · rename_i some
    have first := same 0 some
    have last := same (str.length - 1) (by omega)
    rw [show ((str.length - 1 : Nat) : Int) = (str.length : Int) - 1 by omega] at last
    rw [show (0 : Int) = ((0 : Nat) : Int) from rfl, first, last]
  · rfl

theorem copyUntil_length {stop : UInt8} {left : Nat} {i pos : Int} (run : copyUntil stop str left i pos dst = .ok dst') :
    dst'.length = dst.length := by
  have put_length : ∀ {dst dst' : List UInt8} {pos : Int} {c : UInt8}, Trap.put dst pos c = .ok dst' →
      dst'.length = dst.length := by
    intro dst dst' pos c put
    unfold Trap.put at put
    cases value : Buffer.put dst pos c with
    | none =>
      rw [value] at put
      cases put
    | some dst'' =>
      rw [value] at put
      cases put
      exact Buffer.put_length value
  induction left generalizing i pos dst with
  | zero =>
    cases run
    rfl
  | succ left ih =>
    rw [copyUntil] at run
    obtain ⟨c, -, run⟩ := bind_eq_ok.mp run
    split at run
    · exact put_length run
    · obtain ⟨dst₁, put, run⟩ := bind_eq_ok.mp run
      rw [ih run, put_length put]

/-- A call: its name and its time are found. -/
theorem getData_call (l : StraceLine) (seconds : l.seconds.length = 1) (after : List UInt8) (size : nameBuffer.length = 50)
    (size' : number.length = 50) : ∃ nameBuffer' number',
    getData (l.chars ++ after) l.chars.length nameBuffer number = .ok (nameBuffer', number') ∧
      nameBuffer'.length = 50 ∧ number'.length = 50 ∧ Trap.readText nameBuffer' = .ok l.name ∧
      Trap.readText number' = .ok l.time := by
  obtain ⟨front, d, last⟩ : ∃ front d, l.seconds = front ++ [d] := ⟨_, _, (List.dropLast_append_getLast l.some).symm⟩
  obtain ⟨old, name⟩ := @copy_name l after nameBuffer size
  obtain ⟨old', time⟩ := @copy_time l after number size' _ _ last
  have plain : 0 ∉ l.name := by
    unfold StraceLine.name
    rw [List.mem_cons, not_or]
    exact ⟨ne_letter rfl, l.plain.2⟩
  refine ⟨l.name ++ 0 :: old, d :: 46 :: l.micros ++ 0 :: old', ?_, ?_, ?_, Trap.readText_of plain, ?_⟩
  · unfold getData
    rw [name, ok_bind, time, ok_bind]
  · rw [copyUntil_length name, size]
  · rw [copyUntil_length time, size']
  · rw [Trap.readText_of (not_mem_time last rfl (by decide)), (time_eq_iff last).mpr seconds]

theorem addItem_totals (totals : Totals add es calls) (within : calls.length ≤ MAX_SYSCALL) (name : List UInt8) (time : α) :
    addItem add calls name time = .error .abort ∧ MAX_SYSCALL < (keys (es ++ [(name, time)])).length ∨
      ∃ calls', addItem add calls name time = .ok calls' ∧ calls'.length ≤ MAX_SYSCALL ∧
        Totals add (es ++ [(name, time)]) calls' := by
  have count : calls.length = (keys es).length := by rw [← totals.1, List.length_map]
  unfold addItem
  cases run : update add name time calls with
  | some calls' =>
    have more := totals.updated run
    have same : calls'.length = calls.length := by
      rw [← List.length_map, more.1, Tally.keys_old (totals.update_some run), ← count]
    exact .inr ⟨calls', rfl, by omega, more⟩
  | none =>
    rcases Nat.lt_or_ge calls.length MAX_SYSCALL with room | full
    · refine .inr ⟨_, if_pos room, ?_, totals.appended run⟩
      rw [List.length_append]
      exact room
    · refine .inl ⟨if_neg (Nat.not_lt.mpr full), ?_⟩
      rw [Tally.keys_new (totals.update_none run), List.length_append, ← count]
      exact Nat.lt_succ_of_le full

/-- The loop adds up what the lines say. -/
theorem parentLoop_spec (plain : ∀ l ∈ ls, l.Plain) (size : buffer.length = 1024) (size_name : nameBuffer.length = 50)
    (size_number : number.length = 50) (totals : Totals add es calls) (within : calls.length ≤ MAX_SYSCALL)
    (enough : ls.length < turns) :
    AddsUp add (es ++ entries atof ls) (parentLoop atof add turns ⟨inputOf ls, buffer, nameBuffer, number, calls⟩) := by
  induction ls generalizing es calls buffer nameBuffer number turns with
  | nil =>
    obtain ⟨turns, rfl⟩ := Nat.exists_eq_succ_of_ne_zero (Nat.ne_of_gt enough)
    have none : parentLoop atof add (turns + 1) ⟨inputOf [], buffer, nameBuffer, number, calls⟩ = .ok calls := rfl
    have count : calls.length = (keys es).length := by rw [← totals.1, List.length_map]
    rw [none, entries, List.filterMap_nil, List.append_nil]
    exact ⟨fun _ => ⟨calls, rfl, totals⟩, fun many => by omega⟩
  | cons l ls ih =>
    obtain ⟨turns, rfl⟩ := Nat.exists_eq_succ_of_ne_zero (Nat.ne_of_gt (Nat.zero_lt_of_lt enough))
    have good := plain l List.mem_cons_self
    have rest : ∀ l ∈ ls, l.Plain := fun l member => plain l (List.mem_cons_of_mem _ member)
    have size' : (l.chars ++ 0 :: buffer.drop (l.chars.length + 1)).length = 1024 := by
      have short := good.short
      rw [List.length_append, List.length_cons, List.length_drop]
      omega
    rw [parentLoop, scanLine_line good rest size, ok_bind]
    simp only []
    rw [Trap.readText_of good.text, ok_bind]
    cases l with
    | other chars some useless =>
      simp only [Line.chars] at size' ⊢
      rw [isUsefulLine_append, useless, ok_bind]
      exact ih rest size' size_name size_number totals within (Nat.lt_of_succ_lt_succ enough)
    | call l seconds =>
      simp only [Line.chars] at size' ⊢
      obtain ⟨nameBuffer', number', found, size_name', size_number', name, time⟩ :=
        getData_call l seconds (0 :: buffer.drop (l.chars.length + 1)) size_name size_number
      have entry : entries atof (.call l seconds :: ls) = (l.name, atof l.time) :: entries atof ls := rfl
      rw [isUsefulLine_chars, ok_bind, found, ok_bind, name, time]
      simp only [if_true, ok_bind]
      rw [entry, List.append_cons]
      rcases addItem_totals totals within l.name (atof l.time) with ⟨failed, many⟩ | ⟨calls', run, within', totals'⟩
      · have all := Tally.length_keys_le (es ++ [(l.name, atof l.time)]) (entries atof ls)
        rw [failed]
        exact ⟨fun few => by omega, fun _ => rfl⟩
      · rw [run, ok_bind]
        exact ih rest size' size_name' size_number' totals' within' (Nat.lt_of_succ_lt_succ enough)

end Table

/-- Whatever strace tells: the times of the calls are added up by their names, in the order in which the names came first,
unless there are more names than the table has items. -/
theorem parent_adds_up {α : Type} (atof : List UInt8 → α) (add : α → α → α) (ls : List Line) (plain : ∀ l ∈ ls, l.Plain) :
    AddsUp add (entries atof ls) (parent atof add (inputOf ls)) := by
  exact @parentLoop_spec α atof add ls [] [] _ _ _ _ plain List.length_replicate List.length_replicate List.length_replicate
    Tally.totals_nil (Nat.zero_le _) (Nat.lt_succ_of_le (length_inputOf ls))

/-- `a() = 0 <1.345678>` -/
def oneDigit : StraceLine :=
  { twoDigits with
    seconds := [49]
    digits := List.all_eq_true.1 rfl
    some := List.cons_ne_nil 49 [] }

/-- Two lines of one call, with the lengths of their times for numbers. -/
theorem parent_adds_up_twice : AddsUp (· + ·) (entries List.length [.call oneDigit rfl, .call oneDigit rfl])
    (parent List.length (· + ·) (inputOf [.call oneDigit rfl, .call oneDigit rfl])) := by
  have good : (Line.call oneDigit rfl).Plain := ⟨by decide, by decide, by decide, by rintro c ⟨⟩; rfl⟩
  exact parent_adds_up List.length (· + ·) _ fun l member => by
    rcases List.mem_cons.mp member with rfl | member
    · exact good
    · exact List.mem_singleton.mp member ▸ good

end OsLab.Sperf
