import OsLab.Kernel.Io.Chars
import OsLab.Kernel.Io.Output
import OsLab.Lib.Lines

/-!
# Reading lines

What `vfs->read` returns in pieces of any size a stream hands on byte by byte (`Feeding.getChar`). So
`fsGetLine` finds the lines whatever the pieces are (`getLine_lines`), and it stays inside its buffer
exactly if the line or the file ends early enough for the NUL (`getLine_safe_iff`).
-/

namespace OsLab.Kernel.Io

open OsLab.Klib OsLab.Memory OsLab.Triples OsLab.ByteFile OsLab.Lines
open OsLab.Stdio (lineOf)
open OsLab.Kernel.Blkfs (AccessFlag)
open OsLab.Kernel.Vfs (M Quiet)

section Lines

variable {FS Node : Type}

/-- From the states `Ready` on, `vfs->read(fd, ..)` into the buffer at `content` stores some of the bytes that are
`left`, and none only if none are left. What is left depends neither on the streams nor on the memory. -/
structure Feed (ops : Vfs.Ops FS Node World) (fd : Int) (content : Nat) (Ready : Vfs.State FS Node World → Prop)
    (left : Vfs.State FS Node World → List UInt8) : Prop where
  read : ∀ s, Ready s → ∃ (n : Nat) (s' : Vfs.State FS Node World), Vfs.read ops fd content 256 s = .ok ((n : Int), s') ∧
    Ready s' ∧ n ≤ 256 ∧ (n = 0 → left s = []) ∧ left s = bytes (fun i => s'.world.mem (content + i)) n ++ left s' ∧
    ∀ x, x < content ∨ content + 256 ≤ x → s'.world.mem x = s.world.mem x
  own : ∀ s mem stream, Ready s → Ready { s with world := { s.world with mem, stream } } ∧
    left { s with world := { s.world with mem, stream } } = left s

/-- The bytes that a stream has not handed on: those in its buffer and those that are left. -/
def unread (left : Vfs.State FS Node World → List UInt8) (stream : Nat) (s : Vfs.State FS Node World) : List UInt8 :=
  match s.world.stream stream with
  | none => []
  | some fs => bytes (fun i => s.world.mem (fs.buf.content + fs.buf.bufPos + i)) (fs.buf.bufSize - fs.buf.bufPos) ++ left s

/-- The stream reads `fd` through the buffer at `content`. -/
structure Feeding (Ready : Vfs.State FS Node World → Prop) (fd : Int) (content stream : Nat)
    (s : Vfs.State FS Node World) : Prop where
  ready : Ready s
  stream : ∃ pos size line, s.world.stream stream = some ⟨fd, ⟨content, 256, pos, size⟩, line⟩ ∧ size ≤ 256

/-- What `fsGetChar` returns. -/
def nextChar : List UInt8 → Int
  | [] => -1
  | c :: _ => c.toNat

/-- The memory is the same but for the ranges. -/
def SameBut (m m' : Mem) (a n b k : Nat) : Prop := ∀ x, x < a ∨ a + n ≤ x → x < b ∨ b + k ≤ x → m' x = m x

/-- `fsGetLine`, and what is in the memory from `line` up to the place it returns. -/
def getLine (ops : Vfs.Ops FS Node World) (stream line size : Nat) : M FS Node World (Option (List UInt8)) := do
  match ← fsGetLine ops stream line size with
  | none => pure none
  | some last =>
    let m ← gets fun s => s.world.mem
    pure (some (bytes (fun i => m (line + i)) (last - line + 1)))

/-- Call `fsGetLine` again and again. -/
def getLines (ops : Vfs.Ops FS Node World) (stream line size : Nat) : Nat → M FS Node World (List (Option (List UInt8)))
  | 0 => pure []
  | n + 1 => do
    let first ← getLine ops stream line size
    let rest ← getLines ops stream line size n
    pure (first :: rest)

/-- What the calls return: the lines with a NUL behind them, then `NULL`. -/
def answers : List (List UInt8) → Nat → List (Option (List UInt8))
  | _, 0 => []
  | [], n + 1 => none :: answers [] n
  | l :: ls, n + 1 => some (l ++ [0]) :: answers ls n

/-- `fsGetLine` returns, has written to its buffer alone and ended the text there with a NUL, and has taken the text
and at most a newline. -/
def LineSafe (ops : Vfs.Ops FS Node World) (left : Vfs.State FS Node World → List UInt8) (content stream line size : Nat)
    (s : Vfs.State FS Node World) : Prop :=
  ∃ r s' text, fsGetLine ops stream line size s = .ok (r, s') ∧ text.length < size ∧
    bytes (fun i => s'.world.mem (line + i)) (text.length + 1) = text ++ [0] ∧
    SameBut s.world.mem s'.world.mem line size content 256 ∧
    (unread left stream s = text ++ unread left stream s' ∨ unread left stream s = text ++ newline :: unread left stream s')

variable {ops : Vfs.Ops FS Node World} {fd : Int} {content stream : Nat} {Ready : Vfs.State FS Node World → Prop}
  {left : Vfs.State FS Node World → List UInt8} {s s' : Vfs.State FS Node World} {fs : Filestream}

theorem unread_eq (there : s.world.stream stream = some fs) : unread left stream s =
    bytes (fun i => s.world.mem (fs.buf.content + fs.buf.bufPos + i)) (fs.buf.bufSize - fs.buf.bufPos) ++ left s := by
  unfold unread
  rw [there]

/-- The bytes that `n` bytes of a buffer start with. -/
theorem bytes_succ (m : Mem) (a n : Nat) : bytes (fun i => m (a + i)) (n + 1) = m a :: bytes (fun i => m (a + 1 + i)) n := by
  rw [Nat.add_comm n 1, bytes_append]
  simp [bytes, Nat.add_assoc]

/-- The buffer holds the places from `pos` to `size`. -/
theorem Feeding.of_stream (stream pos size : Nat) (line : Bool) (feed : Feed ops fd content Ready left) (ready : Ready s)
    (room : size ≤ 256) :
    Feeding Ready fd content stream (withStream s stream (some ⟨fd, ⟨content, 256, pos, size⟩, line⟩)) ∧
      unread left stream (withStream s stream (some ⟨fd, ⟨content, 256, pos, size⟩, line⟩)) =
        bytes (fun i => s.world.mem (content + pos + i)) (size - pos) ++ left s := by
  obtain ⟨ready', same⟩ := feed.own s s.world.mem (Function.update s.world.stream stream
    (some ⟨fd, ⟨content, 256, pos, size⟩, line⟩)) ready
  refine ⟨⟨ready', pos, size, line, withStream_self _, room⟩, ?_⟩
  rw [unread_eq (withStream_self _)]
  exact congrArg _ same

/-- `fsGetChar` with bytes in the buffer. -/
theorem Feeding.getChar_filled {pos n : Nat} {line : Bool} (feed : Feed ops fd content Ready left) (ready : Ready s)
    (there : s.world.stream stream = some ⟨fd, ⟨content, 256, pos, pos + (n + 1)⟩, line⟩) (room : pos + (n + 1) ≤ 256) :
    ∃ s', fsGetChar ops stream s = .ok (nextChar (unread left stream s), s') ∧ Feeding Ready fd content stream s' ∧
      unread left stream s' = (unread left stream s).tail ∧ s'.world.mem = s.world.mem := by
  obtain ⟨feeding, behind⟩ := Feeding.of_stream stream (pos + 1) _ line feed ready room
  have first : unread left stream s =
      s.world.mem (content + pos) :: (bytes (fun i => s.world.mem (content + (pos + 1) + i)) n ++ left s) := by
    rw [unread_eq there]
    dsimp only
    rw [Nat.add_sub_cancel_left, bytes_succ]
    rfl
  refine ⟨_, ?_, feeding, ?_, rfl⟩
  · rw [Io.getChar_filled there (by simp [Filestream.Empty]), first]
    rfl
  · rw [behind, first, show pos + (n + 1) - (pos + 1) = n by omega]
    rfl

/-- `fsGetChar` with an empty buffer. -/
theorem Feeding.getChar_empty {pos size : Nat} {line : Bool} (feed : Feed ops fd content Ready left) (ready : Ready s)
    (there : s.world.stream stream = some ⟨fd, ⟨content, 256, pos, size⟩, line⟩) (none : size ≤ pos) :
    ∃ s', fsGetChar ops stream s = .ok (nextChar (left s), s') ∧ Feeding Ready fd content stream s' ∧
      unread left stream s' = (left s).tail ∧ ∀ x, x < content ∨ content + 256 ≤ x → s'.world.mem x = s.world.mem x := by
  obtain ⟨emptied, same⟩ := feed.own s s.world.mem (Function.update s.world.stream stream
    (some ⟨fd, ⟨content, 256, 0, size⟩, line⟩)) ready
  obtain ⟨n, s₁, read, ready₁, bound, ended, split, outside⟩ := feed.read _ emptied
  rw [same] at ended split
  have count : ofInt32 (n : Int) = n := ofInt32_natCast (by omega)
  cases n with
  | zero =>
    -- the end of the file
    obtain ⟨feeding, behind⟩ := Feeding.of_stream stream 0 0 line feed ready₁ (by omega)
    have none₁ : left s₁ = [] := by simpa [ended rfl, bytes] using split.symm
    refine ⟨_, ?_, feeding, ?_, outside⟩
    · rw [Io.getChar_end there none read count, ended rfl]
      rfl
    · rw [behind, none₁, ended rfl]
      rfl
  | succ n =>
    obtain ⟨feeding, behind⟩ := Feeding.of_stream stream 1 _ line feed ready₁ bound
    rw [bytes_succ] at split
    refine ⟨_, ?_, feeding, ?_, outside⟩
    · rw [getChar_refilled there none read (by omega), split]
      unfold Filestream.refilled Filestream.taken
      rw [count]
      rfl
    · rw [behind, split, Nat.add_sub_cancel]
      rfl

/-- `fsGetChar` hands on the next byte, however it was read. -/
theorem Feeding.getChar (feed : Feed ops fd content Ready left) (h : Feeding Ready fd content stream s) :
    ∃ s', fsGetChar ops stream s = .ok (nextChar (unread left stream s), s') ∧ Feeding Ready fd content stream s' ∧
      unread left stream s' = (unread left stream s).tail ∧
      ∀ x, x < content ∨ content + 256 ≤ x → s'.world.mem x = s.world.mem x := by
  obtain ⟨pos, size, line, there, room⟩ := h.stream
  rcases Nat.lt_or_ge pos size with more | none
  · obtain ⟨n, rfl⟩ : ∃ n, size = pos + (n + 1) := ⟨size - pos - 1, by omega⟩
    obtain ⟨s', run, feeding, rest, mem⟩ := Feeding.getChar_filled feed h.ready there room
    exact ⟨s', run, feeding, rest, fun _ _ => by rw [mem]⟩
  · have all : unread left stream s = left s := by
      rw [unread_eq there, Nat.sub_eq_zero_of_le none]
      rfl
    rw [all]
    exact Feeding.getChar_empty feed h.ready there none

/-- The state with a byte changed. -/
def withByte (s : Vfs.State FS Node World) (a : Nat) (c : UInt8) : Vfs.State FS Node World :=
  { s with world := { s.world with mem := store s.world.mem a 1 fun _ => c } }

theorem withByte_self {a : Nat} {c : UInt8} : (withByte s a c).world.mem a = c := by simp [withByte, store]

theorem withByte_other {a x : Nat} {c : UInt8} (h : x ≠ a) : (withByte s a c).world.mem x = s.world.mem x := by
  have outside : x < a ∨ a + 1 ≤ x := by omega
  show store s.world.mem a 1 (fun _ => c) x = s.world.mem x
  exact store_outside outside

theorem setByte_run {a : Nat} {c : UInt8} : (setByte a c : M FS Node World Unit) s = .ok ((), withByte s a c) := rfl

theorem Feeding.setByte {a : Nat} {c : UInt8} (feed : Feed ops fd content Ready left) (h : Feeding Ready fd content stream s) :
    Feeding Ready fd content stream (withByte s a c) ∧
      (unread left stream (withByte s a c)).length = (unread left stream s).length ∧
      (a < content ∨ content + 256 ≤ a → unread left stream (withByte s a c) = unread left stream s) := by
  obtain ⟨pos, size, line, there, room⟩ := h.stream
  obtain ⟨ready, same⟩ := feed.own s (store s.world.mem a 1 fun _ => c) s.world.stream h.ready
  have there' : (withByte s a c).world.stream stream = some ⟨fd, ⟨content, 256, pos, size⟩, line⟩ := there
  change left (withByte s a c) = left s at same
  rw [unread_eq there, unread_eq there', same]
  refine ⟨⟨ready, pos, size, line, there', room⟩, by simp, fun outside => ?_⟩
  apply congrArg (· ++ left s)
  apply bytes_congr
  dsimp only
  exact fun i inside => withByte_other (by omega)

/-- What the loop of `fsGetLine` does with `n` bytes of room at `tbuf`. -/
structure Took (left : Vfs.State FS Node World → List UInt8) (content stream n tbuf : Nat) (s s' : Vfs.State FS Node World) : Prop where
  rest : unread left stream s' = (unread left stream s).drop (lineOf n (unread left stream s)).length
  text : bytes (fun i => s'.world.mem (tbuf + i)) (textOf n (unread left stream s)).length = textOf n (unread left stream s)
  outside : SameBut s.world.mem s'.world.mem tbuf (textOf n (unread left stream s)).length content 256

/-- The loop after one more character. -/
theorem Took.cons {n tbuf : Nat} {c : UInt8} {cs : List UInt8} {s₁ : Vfs.State FS Node World} (more : c ≠ newline)
    (next : unread left stream s = c :: cs) (mem : ∀ x, x < content ∨ content + 256 ≤ x → s₁.world.mem x = s.world.mem x)
    (apart : Apart tbuf (n + 1) content 256) (rest : unread left stream (withByte s₁ tbuf c) = cs)
    (took : Took left content stream n (tbuf + 1) (withByte s₁ tbuf c) s') : Took left content stream (n + 1) tbuf s s' := by
  obtain ⟨rest', text, outside⟩ := took
  rw [rest] at rest' text outside
  refine ⟨?_, ?_, ?_⟩
  · rw [rest', next, lineOf_cons more]
    rfl
  · rw [next, textOf_cons more, List.length_cons, bytes_succ, text, outside tbuf (Or.inl (Nat.lt_succ_self _)) (by omega), withByte_self]
  · intro x out out'
    rw [next, textOf_cons more, List.length_cons] at out
    rw [outside x (by omega) out', ← mem x out', withByte_other (by omega)]

/-- The loop of `fsGetLine` takes the next line, or as much of it as there is room for. -/
theorem Feeding.getLineLoop (feed : Feed ops fd content Ready left) (h : Feeding Ready fd content stream s) {n tbuf : Nat}
    (readed : Nat) (apart : Apart tbuf n content 256) :
    ∃ s', fsGetLineLoop ops stream n tbuf readed s =
        .ok ((tbuf + (textOf n (unread left stream s)).length, readed + (lineOf n (unread left stream s)).length), s') ∧
      Feeding Ready fd content stream s' ∧ Took left content stream n tbuf s s' := by
  induction n generalizing s tbuf readed with
  | zero => exact ⟨s, by simp [fsGetLineLoop, lineOf], h, by simp [lineOf], rfl, fun _ _ _ => rfl⟩
  | succ n ih =>
    obtain ⟨s₁, run, feeding₁, rest₁, outside₁⟩ := h.getChar feed
    unfold fsGetLineLoop
    rw [run_bind run]
    cases next : unread left stream s with
    | nil =>
      rw [next] at rest₁
      refine ⟨s₁, rfl, feeding₁, ?_, ?_, fun x _ out => outside₁ x out⟩
      · simpa [next, lineOf] using rest₁
      · simp [next, bytes]
    | cons c cs =>
      rw [next, List.tail_cons] at rest₁
      have char : nextChar (c :: cs) = c.toNat := rfl
      rw [char, if_neg (by omega)]
      rcases eq_or_ne c newline with rfl | more
      · -- the line ends here
        rw [if_pos rfl]
        have line : lineOf (n + 1) (newline :: cs) = [newline] := lineOf_newline
        have text : textOf (n + 1) (newline :: cs) = [] := textOf_newline
        rw [line, text]
        refine ⟨s₁, rfl, feeding₁, ?_, ?_, fun x _ out => outside₁ x out⟩
        · simpa [next, line] using rest₁
        · simp [next, text, bytes]
      · have byte : UInt8.ofNat (c.toNat : Int).toNat = c := by simp
        rw [if_neg (fun same => more (UInt8.toNat_inj.1 (Int.ofNat_inj.1 same))), run_bind setByte_run, byte]
        obtain ⟨feeding₂, -, same⟩ := feeding₁.setByte feed (a := tbuf) (c := c)
        have rest₂ := (same (by omega)).trans rest₁
        obtain ⟨s', run', feeding, took⟩ := ih feeding₂ (readed + 1) (show Apart (tbuf + 1) n content 256 by omega)
        refine ⟨s', ?_, feeding, took.cons more next outside₁ apart rest₂⟩
        rw [run', rest₂, textOf_cons more, lineOf_cons more, List.length_cons, List.length_cons]
        simp only [Nat.add_assoc, Nat.add_comm 1]

/-- `fsGetLine` takes the next line, or as much of it as there is room for, and puts a NUL behind it. -/
theorem Feeding.getLine_run (feed : Feed ops fd content Ready left) (h : Feeding Ready fd content stream s) {line size : Nat}
    (apart : Apart line size content 256) :
    ∃ s', fsGetLine ops stream line size s =
        .ok (if (lineOf size (unread left stream s)).length = 0 then none
          else some (line + (textOf size (unread left stream s)).length),
          withByte s' (line + (textOf size (unread left stream s)).length) 0) ∧
      Feeding Ready fd content stream s' ∧ Took left content stream size line s s' := by
  obtain ⟨s', run, feeding, took⟩ := h.getLineLoop feed 0 apart
  refine ⟨s', ?_, feeding, took⟩
  unfold fsGetLine
  rw [run_bind run, Nat.zero_add]
  rfl

/-- The text of the line and its NUL. -/
theorem Took.text_nul {n line : Nat} (took : Took left content stream n line s s') :
    bytes (fun i => (withByte s' (line + (textOf n (unread left stream s)).length) 0).world.mem (line + i))
      ((textOf n (unread left stream s)).length + 1) = textOf n (unread left stream s) ++ [0] := by
  rw [bytes_append]
  apply congrArg₂ (· ++ ·)
  · rw [← took.text]
    simp only [length_bytes]
    exact bytes_congr fun i inside => withByte_other (by omega)
  · simp [bytes, withByte_self]

/-- **A line and its buffer.** On a stream that hands on what is left in pieces of any size, `fsGetLine` stays inside its
buffer exactly if the next line, without its newline, or the file has fewer than `size` bytes. -/
theorem getLine_safe_iff (feed : Feed ops fd content Ready left) (h : Feeding Ready fd content stream s) {line size : Nat}
    (positive : 0 < size) (apart : Apart line size content 256) :
    LineSafe ops left content stream line size s ↔
      (unread left stream s).length < size ∨ newline ∈ (unread left stream s).take size := by
  obtain ⟨s', run, feeding, took⟩ := h.getLine_run feed apart
  obtain ⟨-, sameLength, same⟩ := feeding.setByte feed (a := line + (textOf size (unread left stream s)).length) (c := 0)
  have text := took.text_nul
  have split := lineOf_split size (unread left stream s)
  rw [← took.rest] at split
  refine Iff.trans ?_ (length_textOf_lt positive)
  constructor
  · rintro ⟨r, t, text', run', short, -, -, taken⟩
    cases run.symm.trans run'
    -- the bytes that are left say how many were taken
    have all : (unread left stream s).length = (textOf size (unread left stream s)).length + (unread left stream s').length ∨
        (unread left stream s).length = (textOf size (unread left stream s)).length + ((unread left stream s').length + 1) := by
      refine split.imp (fun part => ?_) fun part => ?_
      · simpa using congrArg List.length part.1
      · simpa using congrArg List.length part.1
    rcases taken with plain | ended
    · have count := congrArg List.length plain
      rw [List.length_append] at count
      omega
    · have there : (unread left stream s)[text'.length]? = some newline := by
        rw [ended]
        simp
      rw [length_textOf_lt positive]
      exact Or.inr (List.mem_iff_getElem?.2 ⟨text'.length, by rw [List.getElem?_take_of_lt short, there]; rfl⟩)
  · intro short
    refine ⟨_, _, _, run, short, text, ?_, ?_⟩
    · intro x out out'
      rw [withByte_other (by omega)]
      exact took.outside x (by omega) out'
    · rw [same (by omega)]
      exact split.imp And.left And.left

/-! ## A stream that was just opened -/

/-- Its buffer is empty. -/
theorem Feeding.fresh (left : Vfs.State FS Node World → List UInt8) {path : CStr} {flags : AccessFlag} {s₀ : Vfs.State FS Node World}
    (opened : fsOpen ops path flags s₀ = .ok (some stream, s))
    (channel : (s.world.stream stream).map (fun fs => (fs.fd, fs.buf.content)) = some (fd, content)) (ready : Ready s) :
    Feeding Ready fd content stream s ∧ unread left stream s = left s := by
  obtain ⟨fd', content', fresh⟩ := fsOpen_fresh opened
  rw [fresh] at channel
  cases channel
  refine ⟨⟨ready, 0, 0, false, fresh, Nat.zero_le _⟩, ?_⟩
  rw [unread_eq fresh]
  rfl

/-- At the end of the file there is no line, and no buffer is needed. -/
theorem Feeding.getLine_end (feed : Feed ops fd content Ready left) (h : Feeding Ready fd content stream s)
    (ended : unread left stream s = []) (line size : Nat) :
    ∃ s', getLine ops stream line size s = .ok (none, s') ∧ Feeding Ready fd content stream s' ∧ unread left stream s' = [] := by
  have loop : ∃ s', fsGetLineLoop ops stream size line 0 s = .ok ((line, 0), s') ∧ Feeding Ready fd content stream s' ∧
      unread left stream s' = [] := by
    cases size with
    | zero => exact ⟨s, rfl, h, ended⟩
    | succ size =>
      obtain ⟨s₁, run, feeding, rest, -⟩ := h.getChar feed
      rw [ended] at run rest
      exact ⟨s₁, run_bind run, feeding, rest⟩
  obtain ⟨s', run, feeding, none⟩ := loop
  obtain ⟨feeding', length, -⟩ := feeding.setByte feed (a := line) (c := 0)
  refine ⟨withByte s' line 0, ?_, feeding', List.eq_nil_of_length_eq_zero (by rw [length, none]; rfl)⟩
  have returns : fsGetLine ops stream line size s = .ok (Option.none, withByte s' line 0) := by
    unfold fsGetLine
    rw [run_bind run]
    rfl
  unfold getLine
  rw [run_bind returns]
  rfl

/-- While there is a line it is returned. -/
theorem Feeding.getLine_line (feed : Feed ops fd content Ready left) (h : Feeding Ready fd content stream s) {line size : Nat}
    (apart : Apart line size content 256) (more : unread left stream s ≠ [])
    (room : ∀ l ∈ (lines (unread left stream s)).head?, l.length < size) :
    ∃ s' l, getLine ops stream line size s = .ok (some (l ++ [0]), s') ∧ Feeding Ready fd content stream s' ∧
      lines (unread left stream s) = l :: lines (unread left stream s') := by
  obtain ⟨s', run, feeding, took⟩ := h.getLine_run feed apart
  obtain ⟨feeding', -, same⟩ := feeding.setByte feed (a := line + (textOf size (unread left stream s)).length) (c := 0)
  have step := lines_step more room
  have short : (textOf size (unread left stream s)).length < size := room _ (by rw [step]; rfl)
  refine ⟨_, textOf size (unread left stream s), ?_, feeding', ?_⟩
  · have taken : (lineOf size (unread left stream s)).length ≠ 0 := by
      intro none
      obtain ⟨size, rfl⟩ := Nat.exists_eq_succ_of_ne_zero (Nat.ne_of_gt (Nat.zero_lt_of_lt short))
      obtain ⟨c, cs, next⟩ := List.exists_cons_of_ne_nil more
      rw [next, lineOf] at none
      split at none <;> simp at none
    rw [if_neg taken] at run
    unfold getLine
    rw [run_bind run]
    dsimp only
    rw [run_bind (run_gets _), Nat.add_sub_cancel_left, took.text_nul]
    rfl
  · rw [step, same (by omega), took.rest]

/-- **Lines.** On a stream that was just opened, and however `vfs->read` cuts the file into pieces, `fsGetLine` with room
for every line returns the lines in order and then `NULL`. -/
theorem getLine_lines {path : CStr} {flags : AccessFlag} {s₀ : Vfs.State FS Node World}
    (opened : fsOpen ops path flags s₀ = .ok (some stream, s))
    (channel : (s.world.stream stream).map (fun fs => (fs.fd, fs.buf.content)) = some (fd, content))
    (feed : Feed ops fd content Ready left) (ready : Ready s) {line size : Nat} (apart : Apart line size content 256)
    (room : ∀ l ∈ lines (left s), l.length < size) (n : Nat) :
    ∃ s', getLines ops stream line size n s = .ok (answers (lines (left s)) n, s') := by
  obtain ⟨feeding, all⟩ := Feeding.fresh left opened channel ready
  rw [← all] at room ⊢
  clear opened channel ready all
  induction n generalizing s with
  | zero => exact ⟨s, by cases lines (unread left stream s) <;> rfl⟩
  | succ n ih =>
    unfold getLines
    rcases eq_or_ne (unread left stream s) [] with ended | more
    · obtain ⟨s₁, run, feeding₁, ended₁⟩ := feeding.getLine_end feed ended line size
      obtain ⟨s', rest⟩ := ih (by simp [ended₁, lines]) feeding₁
      rw [ended₁] at rest
      rw [run_bind run, run_bind rest, ended]
      exact ⟨s', rfl⟩
    · obtain ⟨s₁, l, run, feeding₁, step⟩ := feeding.getLine_line feed apart more fun l first => room l (List.mem_of_mem_head? first)
      rw [step] at room ⊢
      obtain ⟨s', rest⟩ := ih (fun l member => room l (List.mem_cons_of_mem _ member)) feeding₁
      rw [run_bind run, run_bind rest]
      exact ⟨s', rfl⟩

end Lines

/-! ## A file in pieces -/

/-- A filesystem with one file. Its inode holds the pieces in which it is read. -/
def pieces : Vfs.Ops Unit (List (List UInt8)) World where
  fs _ := ()
  before _ := 0
  lookup _ _ _ := pure (some [[97, 10, 10], [98]])
  closeInode _ _ := pure 0
  mkdir _ _ := pure (-1)
  rm _ _ := pure (-1)
  link _ _ _ := pure (-1)
  readdir _ _ := pure []
  access _ _ := pure 0
  «open» _ _ := pure 0
  close _ := pure 0
  read tf buf n := do
    let f ← Vfs.fileAt tf
    match f.inode with
    | [] => pure 0
    | piece :: rest =>
      modify fun s => { s with
        file := Function.update s.file tf (some { f with inode := if n < piece.length then piece.drop n :: rest else rest })
        world := { s.world with mem := store s.world.mem buf (piece.take n).length fun i => (piece.take n).getD i 0 } }
      pure ((piece.take n).length : Int)
  write _ _ _ := pure (-1)
  lseek _ _ _ := pure 0

/-- A task with no open files. -/
def piecesStart : Vfs.State Unit (List (List UInt8)) World where
  held := ∅
  mounts := [⟨[47], ()⟩]
  files := []
  file _ := none
  next := 1
  current := some ⟨fun _ => none⟩
  world := ⟨fun _ _ _ => 0, fun _ => 0, 4096, fun _ => none, 1, [], [], fun _ => none, 1⟩

/-- The descriptor 0 is open on the file at 1, no piece is empty or longer than a buffer, and no lock is held. -/
def PiecesReady (s : Vfs.State Unit (List (List UInt8)) World) : Prop :=
  ∃ tk f, Quiet s tk ∧ tk.fildes 0 = some 1 ∧ s.file 1 = some f ∧ ∀ piece ∈ f.inode, piece ≠ [] ∧ piece.length ≤ 256

/-- The pieces that are left. -/
def piecesLeft (s : Vfs.State Unit (List (List UInt8)) World) : List UInt8 :=
  match s.file 1 with
  | none => []
  | some f => f.inode.flatten

theorem pieces_feed : Feed pieces 0 4096 PiecesReady piecesLeft := by
  constructor
  · rintro s ⟨tk, f, quiet, filde, file, wide⟩
    have left : piecesLeft s = f.inode.flatten := by
      unfold piecesLeft
      rw [file]
    rw [left]
    cases inode : f.inode with
    | nil =>
      have act : pieces.read 1 4096 256 s = .ok (0, s) := by
        apply (run_bind (Vfs.fileAt_run file)).trans
        rw [inode]
        rfl
      refine ⟨0, s, Vfs.onFile_run quiet (by decide) filde file act quiet, ⟨tk, f, quiet, filde, file, wide⟩, by decide,
        fun _ => rfl, ?_, fun _ _ => rfl⟩
      rw [left, inode]
      rfl
    | cons piece rest =>
      obtain ⟨filled, short⟩ := wide piece (by rw [inode]; exact List.mem_cons_self)
      have act : pieces.read 1 4096 256 s = .ok ((piece.length : Int), { s with
          file := Function.update s.file 1 (some { f with inode := rest })
          world := { s.world with mem := store s.world.mem 4096 piece.length fun i => piece.getD i 0 } }) := by
        apply (run_bind (Vfs.fileAt_run file)).trans
        rw [inode]
        dsimp only
        rw [List.take_of_length_le short, if_neg (Nat.not_lt_of_le short)]
        rfl
      refine ⟨piece.length, _, Vfs.onFile_run quiet (by decide) filde file act ⟨quiet.held, quiet.task⟩,
        ⟨tk, { f with inode := rest }, ⟨quiet.held, quiet.task⟩, filde, by simp, ?_⟩, short, ?_, ?_, ?_⟩
      · exact fun piece' member => wide piece' (by rw [inode]; exact List.mem_cons_of_mem _ member)
      · exact fun none => absurd (List.eq_nil_of_length_eq_zero none) filled
      · rw [bytes_stored]
        exact List.flatten_cons
      · intro x out
        have outside : ¬ (4096 ≤ x ∧ x < 4096 + piece.length) := by omega
        simp only [store, if_neg outside]
  · rintro s mem stream ⟨tk, f, quiet, filde, file, wide⟩
    exact ⟨⟨tk, f, ⟨quiet.held, quiet.task⟩, filde, file, wide⟩, rfl⟩

/-- The file opened at `/f`. -/
theorem pieces_opened : ∃ s, fsOpen pieces [47, 102] .fileRead piecesStart = .ok (some 1, s) ∧
    (s.world.stream 1).map (fun fs => (fs.fd, fs.buf.content)) = some (0, 4096) ∧ PiecesReady s ∧
    piecesLeft s = [97, 10, 10, 98] := by
  refine ⟨_, rfl, rfl, ⟨_, ⟨0, .dirExist, [[97, 10, 10], [98]], 0⟩, ⟨?_, rfl⟩, rfl, rfl, ?_⟩, rfl⟩
  · rfl
  · simp

/-- The three lines of the file, the second of them empty, and `NULL` from then on. -/
theorem getLine_lines_pieces : ∃ s s', fsOpen pieces [47, 102] .fileRead piecesStart = .ok (some 1, s) ∧
    getLines pieces 1 64 2 5 s = .ok ([some [97, 0], some [0], some [98, 0], none, none], s') := by
  obtain ⟨s, opened, channel, ready, left⟩ := pieces_opened
  have apart : Apart 64 2 4096 256 := Or.inl (by decide)
  obtain ⟨s', run⟩ := getLine_lines opened channel pieces_feed ready apart
    (by rw [left]; decide) 5
  rw [left] at run
  exact ⟨s, s', opened, run⟩

/-- Two bytes are enough for the first line. -/
theorem getLine_safe_pieces : ∃ s, fsOpen pieces [47, 102] .fileRead piecesStart = .ok (some 1, s) ∧
    LineSafe pieces piecesLeft 4096 1 64 2 s := by
  obtain ⟨s, opened, channel, ready, left⟩ := pieces_opened
  obtain ⟨feeding, all⟩ := Feeding.fresh piecesLeft opened channel ready
  exact ⟨s, opened, (getLine_safe_iff pieces_feed feeding (by decide) (Or.inl (by decide))).2 (by rw [all, left]; decide)⟩

/-- One byte is not: the NUL comes behind it. -/
theorem getLine_unsafe_pieces : ∃ s, fsOpen pieces [47, 102] .fileRead piecesStart = .ok (some 1, s) ∧
    ¬ LineSafe pieces piecesLeft 4096 1 64 1 s := by
  obtain ⟨s, opened, channel, ready, left⟩ := pieces_opened
  obtain ⟨feeding, all⟩ := Feeding.fresh piecesLeft opened channel ready
  obtain ⟨s', run, feeding', took⟩ := feeding.getLine_run pieces_feed (show Apart 64 1 4096 256 from Or.inl (by decide))
  obtain ⟨-, length, -⟩ := feeding'.setByte pieces_feed (a := 64 + (textOf 1 (unread piecesLeft 1 s)).length) (c := 0)
  rw [took.rest, all, left] at length
  refine ⟨s, opened, ?_⟩
  rintro ⟨r, t, text, run', short, -, -, taken⟩
  cases run.symm.trans run'
  obtain rfl : text = [] := List.eq_nil_of_length_eq_zero (by omega)
  rw [all, left] at taken
  rcases taken with same | ended
  · rw [← List.nil_append (unread _ _ _), ← same] at length
    exact absurd length (by decide)
  · exact absurd (List.cons.inj ended).1 (by decide)

end OsLab.Kernel.Io
