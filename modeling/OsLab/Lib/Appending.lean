import OsLab.Lib.Interleave
import Mathlib.Data.List.Basic

/-!
# Buffered streams on a shared file

Two processes append to one file through streams of their own: `fputs` keeps what is written in a
buffer and appends the buffer to the file when it is full, `fclose` appends the rest. `flock` keeps
the others that ask for the lock waiting, but it does not keep anyone from appending.

A `writer` takes the lock while it writes and closes its stream behind it. Two writers leave their
texts in one piece each, whatever the order of their actions, if each of them appends once or if all
appends are made under the lock (`contiguous`). Otherwise some run tears one of the texts (`torn`).
-/

namespace OsLab.Appending

open OsLab.Interleave

/-- The file, who holds the lock on it, and who appended which of its characters. -/
structure Shared (α : Type) where
  file : List α
  holder : Option Bool
  log : List (Bool × α)

/-- A process that shares the file. -/
abbrev Process (α β : Type) := Prog (Shared α) Empty β

section Streams

variable {α β : Type}

/-- Process `i` appends to the file. -/
def Shared.append (i : Bool) (text : List α) (s : Shared α) : Shared α :=
  { s with file := s.file ++ text, log := s.log ++ text.map (i, ·) }

/-- `flock(fd, LOCK_EX)` -/
def flockEx (i : Bool) : Process α Unit :=
  .act (fun s => s.holder.isNone) (fun s => { s with holder := some i }) fun _ => .done ()

/-- `flock(fd, LOCK_UN)` -/
def flockUn : Process α Unit :=
  .act (fun _ => true) (fun s => { s with holder := none }) fun _ => .done ()

/-- The system call that appends what is in a buffer. -/
def write (i : Bool) (text : List α) : Process α Unit :=
  .act (fun _ => true) (Shared.append i text) fun _ => .done ()

/-- Put the characters into the buffer of the stream, and append it whenever it is full. -/
def fputs (capacity : Nat) (i : Bool) (buffer : List α) : List α → Process α (List α)
  | [] => .done buffer
  | c :: text =>
    if buffer.length + 1 = capacity then do
      write i (buffer ++ [c])
      fputs capacity i [] text
    else
      fputs capacity i (buffer ++ [c]) text

/-- Append the rest. -/
def fclose [DecidableEq α] (i : Bool) (buffer : List α) : Process α Unit :=
  if buffer = [] then .done () else write i buffer

/-- Write a text under the lock, close the stream and return. -/
def writer [DecidableEq α] (capacity : Nat) (i : Bool) (text : List α) (b : β) : Process α β := do
  flockEx i
  let buffer ← fputs capacity i [] text
  flockUn
  fclose i buffer
  .done b

variable {capacity : Nat} {i : Bool} {buffer text text' : List α}

theorem fputs_append : fputs capacity i buffer (text ++ text') =
    fputs capacity i buffer text >>= fun buffer => fputs capacity i buffer text' := by
  induction text generalizing buffer with
  | nil => rfl
  | cons c text ih =>
    rw [List.cons_append, fputs, fputs]
    by_cases full : buffer.length + 1 = capacity
    · simp only [if_pos full, Prog.bind_assoc, ih]
    · rw [if_neg full, if_neg full, ih]

/-- What fits is kept. -/
theorem fputs_short (room : buffer.length + text.length < capacity) :
    fputs capacity i buffer text = .done (buffer ++ text) := by
  induction text generalizing buffer with
  | nil => rw [fputs, List.append_nil]
  | cons c text ih =>
    rw [List.length_cons] at room
    rw [fputs, if_neg (by omega), ih (by rw [List.length_append, List.length_singleton]; omega),
      List.append_assoc]
    rfl

theorem fputs_full (full : buffer.length + text.length = capacity) (some' : text ≠ []) :
    fputs capacity i buffer text = write i (buffer ++ text) >>= fun _ => .done [] := by
  induction text generalizing buffer with
  | nil => exact absurd rfl some'
  | cons c text ih =>
    rw [List.length_cons] at full
    rw [fputs]
    cases text with
    | nil =>
      rw [if_pos (by simpa using full)]
      rfl
    | cons d text =>
      rw [List.length_cons] at full
      rw [if_neg (by omega), ih (by rw [List.length_append, List.length_singleton, List.length_cons]; omega)
        (List.cons_ne_nil d text), List.append_assoc]
      rfl

/-- The first buffer of a long text. -/
theorem fputs_long (positive : 0 < capacity) (long : capacity ≤ text.length) :
    fputs capacity i [] text =
      write i (text.take capacity) >>= fun _ => fputs capacity i [] (text.drop capacity) := by
  have size : (text.take capacity).length = capacity := by
    rw [List.length_take]
    omega
  have some' : text.take capacity ≠ [] := by
    intro empty
    rw [empty, List.length_nil] at size
    omega
  conv => lhs; rw [← List.take_append_drop capacity text]
  rw [fputs_append, fputs_full (by rw [List.length_nil]; omega) some', Prog.bind_assoc]
  rfl

end Streams

/-! ## Texts in one piece -/

section Blocks

variable {α : Type} {i : Bool} {log : List (Bool × α)} {text : List α}

/-- What process `i` appended. -/
def own (i : Bool) (log : List (Bool × α)) : List α := (log.filter (·.1 = i)).map Prod.snd

/-- One process is behind the other. -/
def Blocks (log : List (Bool × α)) : Prop :=
  ∃ i a b, log = List.map (i, ·) a ++ List.map (!i, ·) b

/-- Process `i` has not appended yet, or was the last that did. -/
def Turn (i : Bool) (log : List (Bool × α)) : Prop :=
  own i log = [] ∨ ∃ c, log.getLast? = some (i, c)

theorem own_map (i j : Bool) (text : List α) : own i (text.map (j, ·)) = if j = i then text else [] := by
  by_cases same : j = i <;> simp [own, List.filter_map, Function.comp_def, same]

theorem own_append (i j : Bool) : own i (log ++ text.map (j, ·)) = own i log ++ if j = i then text else [] := by
  rw [← own_map, own, List.filter_append, List.map_append]
  rfl

theorem Blocks.append (blocks : Blocks log) (turn : Turn i log) : Blocks (log ++ text.map (i, ·)) := by
  obtain ⟨k, a, b, rfl⟩ := blocks
  by_cases behind : (!k) = i
  · subst behind
    exact ⟨k, a, b ++ text, by simp⟩
  have front : k = i := by cases k <;> cases i <;> simp_all
  subst front
  rcases List.eq_nil_or_concat b with rfl | ⟨b', c, rfl⟩
  · exact ⟨k, a ++ text, [], by simp⟩
  · rcases turn with none | ⟨d, last⟩
    · -- nothing of `k` is in front
      rw [own_append, own_map, if_pos rfl, if_neg (by simp), List.append_nil] at none
      exact ⟨!k, b' ++ [c], text, by simp [none]⟩
    · simp at last

/-- The texts of two processes that are in one piece each. -/
theorem Blocks.texts (blocks : Blocks log) :
    log.map Prod.snd = own false log ++ own true log ∨ log.map Prod.snd = own true log ++ own false log := by
  obtain ⟨k, a, b, rfl⟩ := blocks
  simp only [own_append, own_map]
  cases k
  · exact Or.inl (by simp [Function.comp_def])
  · exact Or.inr (by simp [Function.comp_def])

end Blocks

/-! ## Two writers -/

section Writers

variable {α β γ : Type} {start : List α} {locked : Prop} {i : Bool} {s s' s'' : Shared α}
  {done text : List α} {capacity : Nat}

/-- Everything in the file behind `start` is in the log, in one piece for each process. -/
structure Inv (start : List α) (s : Shared α) : Prop where
  file : s.file = start ++ s.log.map Prod.snd
  blocks : Blocks s.log

/-- What process `i` may do: append when it is its turn, and leave the other alone that holds the lock, if
all appends are made under it. -/
structure Acts (start : List α) (locked : Prop) (i : Bool) (s s' : Shared α) : Prop where
  inv : Inv start s → Inv start s'
  other : own (!i) s'.log = own (!i) s.log
  held : locked → s.holder = some (!i) → s'.holder = some (!i) ∧ s'.log = s.log

theorem Acts.refl (s : Shared α) : Acts start locked i s s :=
  ⟨id, rfl, fun _ holds => ⟨holds, rfl⟩⟩

theorem Acts.trans (first : Acts start locked i s s') (second : Acts start locked i s' s'') :
    Acts start locked i s s'' := by
  refine ⟨fun inv => second.inv (first.inv inv), second.other.trans first.other, fun all holds => ?_⟩
  obtain ⟨holds', same⟩ := first.held all holds
  obtain ⟨holds'', same'⟩ := second.held all holds'
  exact ⟨holds'', same'.trans same⟩

/-- Process `i` has appended `done`, and holds the lock if all appends are made under it. It is its turn
if it has not appended, or if the lock keeps the other one away. -/
structure Ready (locked : Prop) (i : Bool) (done : List α) (s : Shared α) : Prop where
  own : own i s.log = done
  turn : locked ∨ done = [] → Turn i s.log
  holds : locked → s.holder = some i

/-- What process `i` appended the other leaves so. -/
theorem own_stable (acts : Acts start locked (!i) s s') : own i s'.log = own i s.log := by
  have same := acts.other
  rw [Bool.not_not] at same
  exact same

theorem Ready.stable (ready : Ready locked i done s) (acts : Acts start locked (!i) s s') :
    Ready locked i done s' := by
  have kept : locked → s'.holder = some i ∧ s'.log = s.log := by
    intro all
    have held := acts.held all
    rw [Bool.not_not] at held
    exact held (ready.holds all)
  refine ⟨(own_stable acts).trans ready.own, ?_, fun all => (kept all).1⟩
  rintro (all | none)
  · rw [(kept all).2]
    exact ready.turn (.inl all)
  · exact .inl ((own_stable acts).trans (ready.own.trans none))

theorem Ready.append (ready : Ready locked i done s) (under : locked ∨ done = []) (some' : text ≠ []) :
    Ready locked i (done ++ text) (s.append i text) ∧ Acts start locked i s (s.append i text) := by
  obtain ⟨front, c, rfl⟩ : ∃ front c, text = front ++ [c] := by
    rcases List.eq_nil_or_concat text with none | ⟨front, c, split⟩
    · exact absurd none some'
    · exact ⟨front, c, by rw [split, List.concat_eq_append]⟩
  constructor
  · refine ⟨?_, fun _ => .inr ⟨c, ?_⟩, ready.holds⟩
    · rw [Shared.append, own_append, if_pos rfl, ready.own]
    · simp [Shared.append]
  · refine ⟨fun inv => ⟨?_, inv.blocks.append (ready.turn under)⟩, ?_, fun all holds => ?_⟩
    · simp [Shared.append, inv.file, Function.comp_def]
    · rw [Shared.append, own_append, if_neg (by simp), List.append_nil]
    · rw [ready.holds all] at holds
      simp at holds

/-- Process `i` goes on within its part, whatever the other does within its own. -/
abbrev Keeps (start : List α) (locked : Prop) (i : Bool) (p : Process α β) (Q : β → Shared α → Prop)
    (s : Shared α) : Prop :=
  p.Ensures (fun _ => True) (Acts start locked (!i)) (Acts start locked i) Q s

theorem write_keeps (ready : Ready locked i done s) (under : locked ∨ done = []) (some' : text ≠ []) :
    Keeps start locked i (write i text) (fun _ s => Ready locked i (done ++ text) s) s := by
  intro s' acts _ _
  obtain ⟨ready', mine⟩ := (ready.stable acts).append under some'
  exact ⟨mine, fun s'' more => ready'.stable more⟩

theorem flockEx_keeps (none : own i s.log = []) :
    Keeps start locked i (flockEx i) (fun _ s => Ready locked i [] s) s := by
  intro s' acts free _
  have none' := (own_stable acts).trans none
  refine ⟨⟨fun inv => ⟨inv.file, inv.blocks⟩, rfl, fun _ holds => ?_⟩, fun s'' more => ?_⟩
  · simp [holds] at free
  · have ready : Ready locked i [] { s' with holder := some i } := ⟨none', fun _ => .inl none', fun _ => rfl⟩
    exact ready.stable more

theorem flockUn_keeps (ready : Ready locked i done s) :
    Keeps start locked i flockUn (fun _ s => own i s.log = done) s := by
  intro s' acts _ _
  have ready' := ready.stable acts
  refine ⟨⟨fun inv => ⟨inv.file, inv.blocks⟩, rfl, fun all holds => ?_⟩, fun s'' more => ?_⟩
  · rw [ready'.holds all] at holds
    simp at holds
  · exact (own_stable more).trans ready'.own

/-- A text of whole buffers is appended under the lock. -/
theorem fputs_keeps (positive : 0 < capacity) (whole : capacity ∣ text.length) (ready : Ready True i done s) :
    Keeps start True i (fputs capacity i [] text) (fun buffer s => buffer = [] ∧ Ready True i (done ++ text) s) s := by
  induction size : text.length using Nat.strongRecOn generalizing text done s with
  | ind size ih =>
    by_cases empty : text = []
    · subst empty
      rw [List.append_nil]
      exact fun s' acts => ⟨rfl, ready.stable acts⟩
    · have long : capacity ≤ text.length := Nat.le_of_dvd (List.length_pos_iff.2 empty) whole
      have some' : text.take capacity ≠ [] := by
        rw [ne_eq, List.take_eq_nil_iff]
        rintro (zero | none)
        · omega
        · exact empty none
      rw [fputs_long positive long]
      refine (write_keeps ready (.inl trivial) some').bind Acts.refl fun _ s' ready' => ?_
      have rest := ih (text.drop capacity).length (by rw [List.length_drop]; omega)
        (by rw [List.length_drop]; exact Nat.dvd_sub whole (Nat.dvd_refl _)) ready' rfl
      rw [List.append_assoc, List.take_append_drop] at rest
      exact rest

variable [DecidableEq α] {b : β} {c : γ}

/-- A writer that appends all of its text under the lock. -/
theorem writer_locked (positive : 0 < capacity) (whole : capacity ∣ text.length) (none : own i s.log = []) :
    Keeps start True i (writer capacity i text b) (fun _ s => own i s.log = text) s := by
  refine (flockEx_keeps none).bind Acts.refl fun _ s ready => ?_
  refine (fputs_keeps positive whole ready).bind Acts.refl fun buffer s ⟨empty, ready⟩ => ?_
  refine (flockUn_keeps ready).bind Acts.refl fun _ s wrote => ?_
  subst empty
  exact fun s' acts => (own_stable acts).trans wrote

/-- A writer that appends once. -/
theorem writer_once (some' : text ≠ []) (short : text.length ≤ capacity) (none : own i s.log = []) :
    Keeps start False i (writer capacity i text b) (fun _ s => own i s.log = text) s := by
  refine (flockEx_keeps none).bind Acts.refl fun _ s ready => ?_
  rcases Nat.lt_or_eq_of_le short with less | full
  · rw [fputs_short (by simpa using less), Prog.done_bind]
    refine (flockUn_keeps ready).bind Acts.refl fun _ s none => ?_
    rw [List.nil_append, fclose, if_neg some']
    have ready : Ready False i [] s := ⟨none, fun _ => .inl none, False.elim⟩
    refine (write_keeps ready (.inr rfl) some').bind Acts.refl fun _ s ready => ?_
    exact fun s' acts => (own_stable acts).trans ready.own
  · rw [fputs_full (by simpa using full) some', Prog.bind_assoc]
    refine (write_keeps ready (.inr rfl) some').bind Acts.refl fun _ s ready => ?_
    rw [Prog.done_bind]
    refine (flockUn_keeps ready).bind Acts.refl fun _ s wrote => ?_
    exact fun s' acts => (own_stable acts).trans wrote

variable {text' : List α}

/-- The texts are appended once each, or all under the lock. -/
def Apart (capacity : Nat) (text text' : List α) : Prop :=
  (text.length ≤ capacity ∧ text'.length ≤ capacity) ∨ (capacity ∣ text.length ∧ capacity ∣ text'.length)

/-- The two writers before their first actions. -/
def writers (capacity : Nat) (start text text' : List α) (b : β) (c : γ) : Both (Shared α) Empty β γ :=
  ⟨⟨start, none, []⟩, writer capacity false text b, writer capacity true text' c⟩

/-- **Texts in one piece.** Two writers that are apart leave their texts one behind the other. -/
theorem contiguous (positive : 0 < capacity) (some₁ : text ≠ []) (some₂ : text' ≠ [])
    (apart : Apart capacity text text') {s : Shared α} {b' : β} {c' : γ}
    (run : Steps (fun _ => True) (writers capacity start text text' b c) ⟨s, .done b', .done c'⟩) :
    s.file = start ++ (text ++ text') ∨ s.file = start ++ (text' ++ text) := by
  have inv : Inv start (⟨start, none, []⟩ : Shared α) := ⟨by simp, false, [], [], rfl⟩
  have ended : Inv start s ∧ own false s.log = text ∧ own true s.log = text' := by
    rcases apart with ⟨short₁, short₂⟩ | ⟨whole₁, whole₂⟩
    · obtain ⟨inv, left, right⟩ := steps_ensures (fun _ _ _ => Acts.trans) (fun _ _ _ => Acts.trans)
        Acts.refl Acts.refl (fun _ _ inv acts => ⟨acts.inv inv, acts⟩) (fun _ _ inv acts => ⟨acts.inv inv, acts⟩)
        (writer_once (i := false) some₁ short₁ rfl) (writer_once (i := true) some₂ short₂ rfl) inv run
      exact ⟨inv, left s (Acts.refl s), right s (Acts.refl s)⟩
    · obtain ⟨inv, left, right⟩ := steps_ensures (fun _ _ _ => Acts.trans) (fun _ _ _ => Acts.trans)
        Acts.refl Acts.refl (fun _ _ inv acts => ⟨acts.inv inv, acts⟩) (fun _ _ inv acts => ⟨acts.inv inv, acts⟩)
        (writer_locked (i := false) positive whole₁ rfl) (writer_locked (i := true) positive whole₂ rfl) inv run
      exact ⟨inv, left s (Acts.refl s), right s (Acts.refl s)⟩
  obtain ⟨inv, rfl, rfl⟩ := ended
  rw [inv.file]
  exact inv.blocks.texts.imp (congrArg _) (congrArg _)

end Writers

/-! ## Torn texts -/

section Torn

variable {α β γ : Type} {capacity : Nat} {i j : Bool} {s : Shared α} {text text' : List α}

@[simp] theorem append_nil : s.append i ([] : List α) = s := by simp [Shared.append]

@[simp] theorem append_append : (s.append i text).append i text' = s.append i (text ++ text') := by
  simp [Shared.append]

/-- The part of a text that is appended before the stream is closed. -/
def flushed (capacity : Nat) (text : List α) : Nat := capacity * (text.length / capacity)

theorem write_alone : (write i text).Alone s () (s.append i text) := ⟨rfl, rfl, rfl⟩

theorem flockUn_alone : (flockUn : Process α Unit).Alone s () { s with holder := none } := ⟨rfl, rfl, rfl⟩

theorem flockEx_alone (free : s.holder = none) : (flockEx i).Alone s () { s with holder := some i } :=
  ⟨by simp [free], rfl, rfl⟩

theorem fputs_alone (positive : 0 < capacity) : (fputs capacity i [] text).Alone s
    (text.drop (flushed capacity text)) (s.append i (text.take (flushed capacity text))) := by
  induction size : text.length using Nat.strongRecOn generalizing text s with
  | ind size ih =>
    rcases Nat.lt_or_ge text.length capacity with short | long
    · rw [fputs_short (by simpa using short), flushed, Nat.div_eq_of_lt short]
      exact ⟨rfl, by simp⟩
    · have rest := ih (text.drop capacity).length (by rw [List.length_drop]; omega) (s := s.append i (text.take capacity)) rfl
      have split : flushed capacity text = capacity + flushed capacity (text.drop capacity) := by
        rw [flushed, flushed, List.length_drop, Nat.div_eq_sub_div positive long, Nat.mul_add, Nat.mul_one,
          Nat.add_comm]
      rw [fputs_long positive long, Prog.alone_bind]
      refine ⟨(), _, write_alone, ?_⟩
      rw [split, List.take_add, ← append_append, ← List.drop_drop]
      exact rest

variable [DecidableEq α] {b : β} {c : γ}

theorem fclose_alone : (fclose i text).Alone s () (s.append i text) := by
  unfold fclose
  by_cases empty : text = []
  · rw [if_pos empty, empty, append_nil]
    exact ⟨rfl, rfl⟩
  · rw [if_neg empty]
    exact write_alone

/-- A writer alone appends its text. -/
theorem writer_alone (positive : 0 < capacity) (free : s.holder = none) :
    (writer capacity i text b).Alone s b { s.append i text with holder := none } := by
  unfold writer
  rw [Prog.alone_bind]
  refine ⟨(), _, flockEx_alone free, ?_⟩
  rw [Prog.alone_bind]
  refine ⟨_, _, fputs_alone positive, ?_⟩
  rw [Prog.alone_bind]
  refine ⟨(), _, flockUn_alone, ?_⟩
  rw [Prog.alone_bind]
  refine ⟨(), _, fclose_alone, rfl, ?_⟩
  simp [Shared.append]

/-- The other writer comes between the release of the lock and the end of the first. -/
theorem torn_late (text text' : List α) (positive : 0 < capacity) (free : s.holder = none) :
    ∃ s', Steps (fun _ => True) ⟨s, writer capacity i text b, writer capacity j text' c⟩ ⟨s', .done b, .done c⟩ ∧
      s'.file = s.file ++ (text.take (flushed capacity text) ++ (text' ++ text.drop (flushed capacity text))) := by
  have right : ∀ {s : Shared α} {q : Process α β}, s.holder = none →
      Steps (fun _ => True) ⟨s, q, writer capacity j text' c⟩ ⟨{ s.append j text' with holder := none }, q, .done c⟩ := by
    intro s q free
    have run : Steps (fun _ => True) ⟨s, q, writer capacity j text' c >>= .done⟩ _ :=
      steps_alone_right (writer_alone positive free)
    rw [Prog.bind_done] at run
    exact run
  let first := { s.append i (text.take (flushed capacity text)) with holder := none }
  refine ⟨{ first.append j text' with holder := none }.append i (text.drop (flushed capacity text)), ?_, ?_⟩
  · refine (steps_alone (flockEx_alone free)).trans ?_
    refine (steps_alone (fputs_alone positive)).trans ?_
    refine (steps_alone flockUn_alone).trans ?_
    refine (right rfl).trans ?_
    exact steps_alone fclose_alone
  · simp [first, Shared.append]

/-- The other writer has released the lock, and closes its stream behind the first buffer. -/
theorem torn_early (positive : 0 < capacity) (free : s.holder = none) (long : capacity ≤ text.length)
    (short : text'.length < capacity) :
    ∃ s', Steps (fun _ => True) ⟨s, writer capacity i text b, writer capacity j text' c⟩ ⟨s', .done b, .done c⟩ ∧
      s'.file = s.file ++ (text.take capacity ++ (text' ++ text.drop capacity)) := by
  have kept : fputs capacity j [] text' = .done text' := fputs_short (by simpa using short)
  let begun := { s with holder := some i }.append i (text.take capacity)
  let rest := text.drop capacity
  let last := { (begun.append j text').append i (rest.take (flushed capacity rest)) with holder := none }
  refine ⟨last.append i (rest.drop (flushed capacity rest)), ?_, ?_⟩
  · refine (steps_alone_right (flockEx_alone free)).trans ?_
    rw [kept, Prog.done_bind]
    refine (steps_alone_right flockUn_alone).trans ?_
    refine (steps_alone (flockEx_alone rfl)).trans ?_
    rw [fputs_long positive long, Prog.bind_assoc]
    refine (steps_alone write_alone).trans ?_
    refine (steps_alone_right fclose_alone).trans ?_
    refine (steps_alone (fputs_alone positive)).trans ?_
    refine (steps_alone flockUn_alone).trans ?_
    exact steps_alone fclose_alone
  · simp [last, begun, rest, Shared.append, -List.drop_drop]

/-- A writer that fills its buffer and does not append all under the lock, or meets one that does not. -/
theorem torn_first (positive : 0 < capacity) (free : s.holder = none) (long : capacity < text.length)
    (loose : ¬ capacity ∣ text.length ∨ text'.length < capacity) :
    ∃ s' front back, front ≠ [] ∧ back ≠ [] ∧ text = front ++ back ∧
      Steps (fun _ => True) ⟨s, writer capacity i text b, writer capacity j text' c⟩ ⟨s', .done b, .done c⟩ ∧
      s'.file = s.file ++ (front ++ (text' ++ back)) := by
  have parts : ∀ n, 0 < n → n < text.length →
      text.take n ≠ [] ∧ text.drop n ≠ [] ∧ text = text.take n ++ text.drop n := by
    intro n some' less
    refine ⟨?_, ?_, (List.take_append_drop n text).symm⟩
    · rw [← List.length_pos_iff, List.length_take]
      omega
    · rw [← List.length_pos_iff, List.length_drop]
      omega
  rcases loose with rest | short
  · have some' : 0 < flushed capacity text := Nat.mul_pos positive (Nat.div_pos (Nat.le_of_lt long) positive)
    have less : flushed capacity text < text.length :=
      Nat.lt_of_le_of_ne (Nat.mul_div_le _ _) fun same => rest ⟨_, same.symm⟩
    obtain ⟨front, back, split⟩ := parts _ some' less
    obtain ⟨s', run, file⟩ := torn_late (i := i) (j := j) (b := b) (c := c) text text' positive free
    exact ⟨s', _, _, front, back, split, run, file⟩
  · obtain ⟨front, back, split⟩ := parts _ positive long
    obtain ⟨s', run, file⟩ := torn_early (i := i) (j := j) (b := b) (c := c) positive free (Nat.le_of_lt long) short
    exact ⟨s', _, _, front, back, split, run, file⟩

/-- **A torn text.** If the writers are not apart, one of them can come between two appends of the other. -/
theorem torn (positive : 0 < capacity) (close : ¬ Apart capacity text text') (start : List α) (b : β) (c : γ) :
    ∃ s front back, front ≠ [] ∧ back ≠ [] ∧
      Steps (fun _ => True) (writers capacity start text text' b c) ⟨s, .done b, .done c⟩ ∧
      ((text = front ++ back ∧ s.file = start ++ (front ++ (text' ++ back))) ∨
        (text' = front ++ back ∧ s.file = start ++ (front ++ (text ++ back)))) := by
  unfold Apart at close
  simp only [not_or, not_and_or] at close
  obtain ⟨long, rest⟩ := close
  have free : (⟨start, none, []⟩ : Shared α).holder = none := rfl
  have one : ∀ (text : List α), ¬ capacity ∣ text.length → text.length ≠ capacity :=
    fun text rest same => rest ⟨1, by omega⟩
  -- the first writer is torn, or the second
  have cases' : (capacity < text.length ∧ (¬ capacity ∣ text.length ∨ text'.length < capacity)) ∨
      (capacity < text'.length ∧ (¬ capacity ∣ text'.length ∨ text.length < capacity)) := by
    rcases Nat.lt_or_ge capacity text.length with long₁ | short₁
    · by_cases whole : capacity ∣ text.length
      · have rest' : ¬ capacity ∣ text'.length := rest.resolve_left (not_not.2 whole)
        have differs := one text' rest'
        rcases Nat.lt_or_ge text'.length capacity with short | long₂
        · exact .inl ⟨long₁, .inr short⟩
        · exact .inr ⟨by omega, .inl rest'⟩
      · exact .inl ⟨long₁, .inl whole⟩
    · have long₂ : capacity < text'.length := by omega
      by_cases whole : capacity ∣ text'.length
      · have differs := one text (rest.resolve_right (not_not.2 whole))
        exact .inr ⟨long₂, .inr (by omega)⟩
      · exact .inr ⟨long₂, .inl whole⟩
  rcases cases' with ⟨long, loose⟩ | ⟨long, loose⟩
  · obtain ⟨s, front, back, some', some'', split, run, file⟩ := torn_first positive free long loose
    exact ⟨s, front, back, some', some'', run, .inl ⟨split, file⟩⟩
  · obtain ⟨s, front, back, some', some'', split, run, file⟩ := torn_first positive free long loose
    exact ⟨s, front, back, some', some'', steps_swap run, .inr ⟨split, file⟩⟩

end Torn

end OsLab.Appending
