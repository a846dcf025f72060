import OsLab.Pstree.Model

/-!
# The records of the processes (`getProcess`)

In a line `pid (comm) state ppid ...` the conversion `%s` takes what comes before the first white space, so that the name is
whole exactly if there is none in it.
-/

namespace OsLab.Pstree

open OsLab.Stdio OsLab.Decimal

/-- A `stat` line up to the `ppid`, and what follows it. -/
structure StatLine where
  pid : Nat
  comm : List UInt8
  state : UInt8
  ppid : Nat
  more : List UInt8
  pid_lt : pid < 2 ^ 31
  ppid_lt : ppid < 2 ^ 31
  some : comm ≠ []
  short : comm.length ≤ 15
  plain : 0 ∉ comm ∧ newline ∉ comm
  letter : isAlpha state = true

namespace StatLine

variable (l : StatLine)

/-- What comes behind the name. -/
def tail : List UInt8 := 32 :: l.state :: 32 :: decimal l.ppid ++ [32]

/-- The line up to the `ppid` and a space. -/
def chars : List UInt8 := decimal l.pid ++ 32 :: 40 :: l.comm ++ 41 :: l.tail

end StatLine

/-- The record of the line is stored, whatever is in the buffers and the record before. -/
def ParsesRight (l : StatLine) : Prop :=
  ∀ (st : Statics) (out : Process), st.buf.length = 1024 → st.tmp.length = 128 → out.comm.length = 256 →
    ∃ st' out', getProcess (some (l.chars ++ l.more)) st out = .ok (0, st', out') ∧ out'.pid = l.pid ∧
      Trap.text out'.comm = l.comm ∧ out'.state = l.state ∧ out'.ppid = l.ppid

section Names

variable {tmp comm x y rest : List UInt8} {c z : UInt8}

/-- The name without its first and last characters. -/
theorem copyComm_run (plain : 0 ∉ y ++ [z]) (room : y.length + 1 < comm.length) : ∃ rest',
    copyComm (c :: (y ++ [z]) ++ 0 :: rest) comm = .ok (y ++ 0 :: rest') := by
  have read : Trap.readText ((c :: (y ++ [z]) ++ 0 :: rest).drop 1) = .ok (y ++ [z]) := Trap.readText_of plain
  have place : (y.length : Int) = ((y ++ [z]).length - 1 : Int) := by
    rw [List.length_append, List.length_singleton]
    omega
  refine ⟨0 :: comm.drop ((y ++ [z]).length + 1), ?_⟩
  unfold copyComm
  rw [read, ok_bind, Trap.putText_of (by simpa using room), ok_bind, Trap.readText_of plain, ok_bind, List.append_assoc,
    List.singleton_append, Trap.put_at place]

/-- For an empty name the NUL goes in front of the array. -/
theorem copyComm_empty (room : 0 < comm.length) : copyComm (c :: 0 :: rest) comm = .error .outside := by
  have read : Trap.readText ((c :: 0 :: rest).drop 1) = .ok [] := Trap.readText_of (s := []) List.not_mem_nil
  unfold copyComm
  rw [read, ok_bind, Trap.putText_of (s := []) room, ok_bind, Trap.readText_of (s := []) List.not_mem_nil, ok_bind]
  rfl

end Names

section Scans

variable {l : StatLine} {word s tmp : List UInt8} {out : Process}

theorem isSpace_letter {c : UInt8} (letter : isAlpha c = true) : isSpace c = false := by
  unfold isAlpha at letter
  rw [decide_eq_true_iff] at letter
  unfold isSpace
  rw [decide_eq_false_iff_not]
  omega

/-- Characters that are no white space, and one that is. -/
theorem word_of {w : List UInt8} {b : UInt8} (plain : ∀ c ∈ w, isSpace c = false) (blank : isSpace b = true) :
    (w ++ b :: s).takeWhile (fun c => !isSpace c) = w ∧ (w ++ b :: s).dropWhile (fun c => !isSpace c) = b :: s := by
  have all : ∀ c ∈ w, (!isSpace c) = true := fun c member => by rw [plain c member]; rfl
  have stop : ¬(!isSpace b) = true := by rw [blank]; decide
  constructor
  · rw [List.takeWhile_append_of_pos all, List.takeWhile_cons_of_neg (p := fun c => !isSpace c) stop, List.append_nil]
  · rw [List.dropWhile_append_of_pos all, List.dropWhile_cons_of_neg (p := fun c => !isSpace c) stop]

/-- Up to the first white space. -/
theorem exists_blank (blank : ∃ c ∈ s, isSpace c = true) :
    ∃ w b t, s = w ++ b :: t ∧ isSpace b = true ∧ ∀ c ∈ w, isSpace c = false := by
  induction s with
  | nil =>
    obtain ⟨c, wrong, -⟩ := blank
    cases wrong
  | cons c s ih =>
    by_cases here : isSpace c = true
    · exact ⟨[], c, s, rfl, here, fun d wrong => absurd wrong List.not_mem_nil⟩
    · obtain ⟨d, member, space⟩ := blank
      rcases List.mem_cons.1 member with rfl | member
      · exact absurd space here
      · obtain ⟨w, b, t, split, first, plain⟩ := ih ⟨d, member, space⟩
        refine ⟨c :: w, b, t, by rw [split]; rfl, first, fun e inside => ?_⟩
        rcases List.mem_cons.1 inside with rfl | inside
        · exact Bool.eq_false_iff.2 here
        · exact plain e inside

/-- What `sscanf` goes on with behind the `pid`. -/
theorem scan_pid : scanInt (l.chars ++ s) = some ((l.pid : Int), 32 :: 40 :: l.comm ++ 41 :: l.tail ++ s) ∧
    (32 :: 40 :: l.comm ++ 41 :: l.tail ++ s).dropWhile isSpace = 40 :: (l.comm ++ 41 :: (l.tail ++ s)) := by
  have split : l.chars ++ s = decimal l.pid ++ 32 :: (40 :: l.comm ++ 41 :: l.tail ++ s) := by
    simp [StatLine.chars]
  constructor
  · rw [split, scanInt_decimal (by decide)]
    rfl
  · simp [isSpace]

/-- Without white space in the name the whole line is scanned. -/
theorem scan_plain (noBlank : ∀ c ∈ l.comm, isSpace c = false) (size : tmp.length = 128) : ∃ rest,
    scanStat (l.chars ++ s) tmp out =
      .ok (40 :: (l.comm ++ [41]) ++ 0 :: rest, ⟨l.pid, out.comm, l.state, l.ppid⟩) := by
  obtain ⟨pid, start⟩ := scan_pid (l := l) (s := s)
  have shape : 40 :: (l.comm ++ 41 :: (l.tail ++ s)) =
      (40 :: (l.comm ++ [41])) ++ 32 :: (l.state :: 32 :: (decimal l.ppid ++ 32 :: s)) := by
    simp [StatLine.tail]
  have plain : ∀ c ∈ 40 :: (l.comm ++ [41]), isSpace c = false := by
    intro c member
    simp only [List.mem_cons, List.mem_append, List.not_mem_nil, or_false] at member
    rcases member with rfl | member | rfl
    · rfl
    · exact noBlank c member
    · rfl
  obtain ⟨word, behind⟩ := word_of (s := l.state :: 32 :: (decimal l.ppid ++ 32 :: s)) plain (b := 32) rfl
  have state : (32 :: l.state :: 32 :: (decimal l.ppid ++ 32 :: s)).dropWhile isSpace =
      l.state :: 32 :: (decimal l.ppid ++ 32 :: s) := by
    rw [List.dropWhile_cons_of_pos (by rfl), List.dropWhile_cons_of_neg (by rw [isSpace_letter l.letter]; decide)]
  have ppid : scanInt (32 :: (decimal l.ppid ++ 32 :: s)) = some ((l.ppid : Int), 32 :: s) := by
    rw [scanInt_space (by rfl), scanInt_decimal (by decide)]
  have short := l.short
  refine ⟨tmp.drop ((40 :: (l.comm ++ [41])).length + 1), ?_⟩
  unfold scanStat
  rw [pid]
  dsimp only
  rw [Trap.int_natCast l.pid_lt, ok_bind, start, shape, word, if_neg (List.cons_ne_nil _ _),
    Trap.putText_of (by simp; omega), ok_bind, behind, state]
  dsimp only
  rw [ppid]
  dsimp only
  rw [Trap.int_natCast l.ppid_lt, ok_bind]

/-- With white space in it, the name ends there. -/
theorem scan_blank {w t : List UInt8} {b : UInt8} {tmp' : List UInt8} {out' : Process} (split : l.comm = w ++ b :: t)
    (blank : isSpace b = true) (noBlank : ∀ c ∈ w, isSpace c = false) (run : scanStat (l.chars ++ s) tmp out = .ok (tmp', out')) :
    out'.comm = out.comm ∧ ∃ rest, tmp' = 40 :: w ++ 0 :: rest := by
  obtain ⟨pid, start⟩ := scan_pid (l := l) (s := s)
  have shape : 40 :: (l.comm ++ 41 :: (l.tail ++ s)) = (40 :: w) ++ b :: (t ++ 41 :: (l.tail ++ s)) := by
    simp [split]
  have plain : ∀ c ∈ 40 :: w, isSpace c = false := by
    intro c member
    rcases List.mem_cons.1 member with rfl | member
    · rfl
    · exact noBlank c member
  obtain ⟨word, behind⟩ := word_of (s := t ++ 41 :: (l.tail ++ s)) plain blank
  unfold scanStat at run
  rw [pid] at run
  dsimp only at run
  rw [Trap.int_natCast l.pid_lt, ok_bind, start, shape, word, if_neg (List.cons_ne_nil _ _), behind] at run
  obtain ⟨tmp₁, stored, run⟩ := bind_eq_ok.1 run
  have same : ∃ rest, tmp₁ = 40 :: w ++ 0 :: rest := by
    unfold Trap.putText at stored
    split at stored
    · exact ⟨_, (Except.ok.inj stored).symm⟩
    · cases stored
  -- whatever is scanned behind it, neither `tmp` nor the name is stored again
  split at run
  · obtain ⟨rfl, rfl⟩ := Prod.mk.inj (Except.ok.inj run)
    exact ⟨rfl, same⟩
  · split at run
    · obtain ⟨rfl, rfl⟩ := Prod.mk.inj (Except.ok.inj run)
      exact ⟨rfl, same⟩
    · obtain ⟨ppid, -, run⟩ := bind_eq_ok.1 run
      obtain ⟨rfl, rfl⟩ := Prod.mk.inj (Except.ok.inj run)
      exact ⟨rfl, same⟩

end Scans

section Records

variable {l : StatLine} {st : Statics} {out : Process}

/-- The line is read into `buf`. -/
theorem read_line (l : StatLine) (st : Statics) (size : st.buf.length = 1024) : ∃ line rest s,
    (fgets 1024 ⟨l.chars ++ l.more, false⟩).1 = some line ∧ Trap.putText st.buf line = .ok (line ++ 0 :: rest) ∧
      Trap.readText (line ++ 0 :: rest) = .ok (l.chars ++ s) := by
  have digits : ∀ {n : Nat} {c : UInt8}, isDigit c = false → c ∉ decimal n := by
    intro n c other member
    rw [isDigit_decimal c member] at other
    cases other
  have state : ∀ {c : UInt8}, isAlpha c = false → c ≠ l.state := by
    rintro c other rfl
    rw [l.letter] at other
    cases other
  have length : l.chars.length ≤ 1023 := by
    have short := l.short
    have pid := length_decimal_le (k := 10) (by decide) (Nat.lt_trans l.pid_lt (by decide))
    have ppid := length_decimal_le (k := 10) (by decide) (Nat.lt_trans l.ppid_lt (by decide))
    simp only [StatLine.chars, StatLine.tail, List.length_append, List.length_cons, List.length_nil]
    omega
  have apart : ∀ c : UInt8, isDigit c = false → isAlpha c = false → c ∉ l.comm → c ∉ [(32 : UInt8), 40, 41] → c ∉ l.chars := by
    intro c digit letter name other
    simp only [List.mem_cons, List.not_mem_nil, or_false, not_or] at other
    simp only [StatLine.chars, StatLine.tail, List.mem_append, List.mem_cons, List.not_mem_nil, or_false, not_or]
    exact ⟨⟨digits digit, other.1, other.2.1, name⟩, other.2.2, ⟨other.1, state letter, other.1, digits digit⟩, other.1⟩
  have line : (fgets 1024 ⟨l.chars ++ l.more, false⟩).1 = some (l.chars ++ lineOf (1023 - l.chars.length) l.more) := by
    have some : ¬(1 < 1024 ∧ l.chars ++ l.more = []) := by
      rintro ⟨-, empty⟩
      simp [StatLine.chars] at empty
    unfold fgets
    rw [if_neg some]
    exact congrArg Option.some (lineOf_append (apart newline rfl rfl l.plain.2 (by decide)) length)
  have fits : (l.chars ++ lineOf (1023 - l.chars.length) l.more).length < st.buf.length := by
    have rest := length_lineOf_le_size (n := 1023 - l.chars.length) (l := l.more)
    rw [List.length_append, size]
    omega
  have text : ∀ rest, Trap.readText (l.chars ++ lineOf (1023 - l.chars.length) l.more ++ 0 :: rest) =
      .ok (l.chars ++ Trap.text (lineOf (1023 - l.chars.length) l.more ++ 0 :: rest)) := by
    intro rest
    unfold Trap.readText
    rw [if_pos (List.mem_append_right _ List.mem_cons_self), List.append_assoc,
      Trap.text_append (apart 0 rfl rfl l.plain.1 (by decide))]
  exact ⟨_, _, _, line, Trap.putText_of fits, text _⟩

/-- What `getProcess` does with a line once it is read. -/
theorem getProcess_line (l : StatLine) (st : Statics) (out : Process) (size : st.buf.length = 1024) : ∃ buf s,
    getProcess (some (l.chars ++ l.more)) st out = (do
      let (tmp, out) ← scanStat (l.chars ++ s) st.tmp out
      let comm ← copyComm tmp out.comm
      .ok (0, ⟨buf, tmp⟩, { out with comm })) := by
  obtain ⟨line, rest, s, read, stored, text⟩ := read_line l st size
  refine ⟨line ++ 0 :: rest, s, ?_⟩
  unfold getProcess
  dsimp only
  rw [read]
  dsimp only
  rw [stored, ok_bind, text, ok_bind]

theorem parsesRight_of_plain (noBlank : ∀ c ∈ l.comm, isSpace c = false) : ParsesRight l := by
  intro st out size size' size''
  obtain ⟨buf, s, line⟩ := getProcess_line l st out size
  obtain ⟨rest, scan⟩ := @scan_plain l s st.tmp out noBlank size'
  have plain : 0 ∉ l.comm ++ [41] := by
    rw [List.mem_append, not_or]
    exact ⟨l.plain.1, by decide⟩
  have short := l.short
  obtain ⟨rest', name⟩ := @copyComm_run out.comm l.comm rest 40 41 plain (by omega)
  refine ⟨⟨buf, 40 :: (l.comm ++ [41]) ++ 0 :: rest⟩, ⟨l.pid, l.comm ++ 0 :: rest', l.state, l.ppid⟩, ?_, rfl,
    Trap.text_of l.plain.1, rfl, rfl⟩
  rw [line, scan, ok_bind]
  dsimp only
  rw [name, ok_bind]

/-- Of a name with white space in it what comes before is left, without its last character. -/
theorem getProcess_blank {w t : List UInt8} {b : UInt8} {st' : Statics} {out' : Process} (size : st.buf.length = 1024)
    (size' : out.comm.length = 256) (split : l.comm = w ++ b :: t) (blank : isSpace b = true)
    (noBlank : ∀ c ∈ w, isSpace c = false) (run : getProcess (some (l.chars ++ l.more)) st out = .ok (0, st', out')) :
    Trap.text out'.comm = w.dropLast := by
  obtain ⟨buf, s, line⟩ := getProcess_line l st out size
  rw [line] at run
  obtain ⟨⟨tmp, scanned⟩, scan, run⟩ := bind_eq_ok.1 run
  obtain ⟨comm, copy, run⟩ := bind_eq_ok.1 run
  obtain ⟨same, rest, rfl⟩ := scan_blank split blank noBlank scan
  rw [same] at copy
  obtain ⟨-, -, rfl⟩ := Prod.mk.inj (Except.ok.inj run) |>.imp id Prod.mk.inj
  have short := l.short
  rw [split, List.length_append] at short
  have noNul : 0 ∉ w := fun member => l.plain.1 (by rw [split]; exact List.mem_append_left _ member)
  -- the last character of what is left is taken for the bracket
  rcases List.eq_nil_or_concat' w with rfl | ⟨y, z, rfl⟩
  · rw [List.singleton_append, copyComm_empty (by omega)] at copy
    cases copy
  · rw [List.length_append, List.length_singleton] at short
    obtain ⟨rest', copied⟩ := @copyComm_run out.comm y rest 40 z noNul (by omega)
    rw [copied] at copy
    rw [List.mem_append, not_or] at noNul
    rw [← Except.ok.inj copy, Trap.text_of noNul.1, List.dropLast_concat]

/-- **The records.** A line is parsed right exactly if there is no white space in the name. -/
theorem stat_line_iff (l : StatLine) : ParsesRight l ↔ ∀ c ∈ l.comm, isSpace c = false := by
  constructor
  · intro right
    by_contra blank
    obtain ⟨w, b, t, split, space, plain⟩ := exists_blank (s := l.comm) (by simpa using blank)
    have size : ∀ {n}, (List.replicate n (0 : UInt8)).length = n := List.length_replicate ..
    obtain ⟨st', out', run, -, name, -⟩ := right ⟨List.replicate 1024 0, List.replicate 128 0⟩
      ⟨0, List.replicate 256 0, 0, 0⟩ size size size
    rw [getProcess_blank size size split space plain run, split] at name
    have lengths := congrArg List.length name
    simp only [List.length_dropLast, List.length_append, List.length_cons] at lengths
    omega
  · intro noBlank
    exact parsesRight_of_plain noBlank

/-- `42 (tmux: server) S 1 ` -/
def twoWords : StatLine where
  pid := 42
  comm := [116, 109, 117, 120, 58, 32, 115, 101, 114, 118, 101, 114]
  state := 83
  ppid := 1
  more := []
  pid_lt := by decide
  ppid_lt := by decide
  some := by decide
  short := by decide
  plain := by decide
  letter := by decide

/-- The `ppid` of such a line is not scanned, and the record keeps what it had. -/
theorem ppid_left_over : ¬ParsesRight twoWords := by
  intro right
  obtain ⟨st, out, run, -, -, -, ppid⟩ := right ⟨List.replicate 1024 0, List.replicate 128 0⟩ ⟨0, List.replicate 256 0, 0, 7⟩
    (List.length_replicate ..) (List.length_replicate ..) (List.length_replicate ..)
  have kept : (getProcess (some (twoWords.chars ++ twoWords.more)) ⟨List.replicate 1024 0, List.replicate 128 0⟩
      ⟨0, List.replicate 256 0, 0, 7⟩).map (fun r => r.2.2.ppid) = .ok 7 := by decide +kernel
  rw [run] at kept
  exact absurd ((Except.ok.inj kept).symm.trans ppid) (by decide)

end Records

end OsLab.Pstree
