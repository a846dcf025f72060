import OsLab.Crepl.Model

/-!
# Sessions

What a session is for: the definitions that are accepted stay, each line is compiled behind them, and a line that is not
accepted leaves nothing. The linked list holds the definitions in the order in which they were accepted.
-/

namespace OsLab.Crepl

open OsLab.Stdio OsLab.Decimal OsLab.Lines

/-! ## What a session is for -/

/-- The definitions, how often a file was made, and what was said. -/
structure Session where
  defs : List (List UInt8)
  temps : Nat
  said : List UInt8

/-- A line of a session. -/
def Session.line (w : World) (σ : Session) (line : List UInt8) : Session :=
  let before := σ.defs.flatMap (· ++ [newline])
  let (defs, answer) :=
    match w.mkstemp σ.temps with
    | none => (σ.defs, ascii "Create temp file Failed.\n")
    | some suffix =>
      if line.take 4 = ascii "int " then
        if w.gcc (before ++ line) then (σ.defs ++ [line], ascii "Added: " ++ line ++ ascii "\n")
        else (σ.defs, ascii "Compile failed.\n")
      else
        let (wrapName, source) := appendWrapFunc before line (ascii "crepl_" ++ suffix)
        (σ.defs,
          if w.gcc source then
            if w.dlopen source then
              match w.dlsym source wrapName with
              | none => ascii "Can't load wrap function.\n"
              | some result => ascii "(" ++ line ++ ascii ") == " ++ printInt result ++ ascii " \n"
            else ascii "Can't load shared library.\n"
          else ascii "Compile failed.\n")
  ⟨defs, σ.temps + 1, σ.said ++ ascii "> " ++ answer⟩

/-- What `getInput` makes of what `fgets` reads: the text up to a NUL or a newline. -/
def pieceOf (line : List UInt8) : List UInt8 := (Trap.text line).takeWhile (· ≠ newline)

/-- The lines that a text is read in: up to a newline, or 1023 characters. -/
def pieces (s : List UInt8) : List (List UInt8) :=
  if s = [] then []
  else pieceOf (lineOf 1023 s) :: pieces (s.drop (lineOf 1023 s).length)
termination_by s.length
decreasing_by
  rename_i more
  obtain ⟨c, s, rfl⟩ := List.exists_cons_of_ne_nil more
  have some : 0 < (lineOf 1023 (c :: s)).length := by
    rw [lineOf]
    split <;> exact Nat.succ_pos _
  rw [List.length_drop, List.length_cons]
  omega

/-! ## The list -/

variable {w : World} {s s' : State} {defs : List (List UInt8)} {t text rest line content : List UInt8}

/-- The list holds these definitions. The node of a definition has its number as its address. -/
structure Holds (s : State) (defs : List (List UInt8)) : Prop where
  fresh : s.fresh = defs.length
  head : s.head = if 0 < defs.length then some 0 else none
  tail : s.tail = if 0 < defs.length then some (defs.length - 1) else none
  node : ∀ k d, defs[k]? = some d →
    s.nodes k = some ⟨d ++ [0], if k + 1 < defs.length then some (k + 1) else none⟩ ∧ 0 ∉ d

/-- The loop over the list; the induction is on the definitions that are left. -/
theorem Holds.writeContents (h : Holds s defs) (fuel k : Nat) (enough : defs.length ≤ fuel + k) :
    writeContents s.nodes fuel (if k < defs.length then some k else none) =
      .ok ((defs.drop k).flatMap (· ++ [newline])) := by
  induction fuel generalizing k with
  | zero =>
    rw [if_neg (by omega), List.drop_of_length_le (by omega), Crepl.writeContents]
    rfl
  | succ fuel ih =>
    by_cases more : k < defs.length
    · obtain ⟨node, plain⟩ := h.node k defs[k] (List.getElem?_eq_getElem more)
      rw [if_pos more, Crepl.writeContents, node, Trap.check_some, ok_bind, Trap.readText_of plain, ok_bind]
      dsimp only
      rw [ih _ (by omega), List.drop_eq_getElem_cons more, ok_bind, List.flatMap_cons, List.append_assoc]
      rfl
    · rw [if_neg more, List.drop_of_length_le (Nat.le_of_not_lt more), Crepl.writeContents]
      rfl

/-- A definition more. -/
theorem Holds.appendContent (h : Holds s defs) (read : Trap.readText s.I.content = .ok t) (len : s.I.len = t.length)
    (plain : 0 ∉ t) : ∃ s', appendContent s = .ok s' ∧ Holds s' (defs ++ [t]) ∧ s'.I = s.I ∧ s'.stdin = s.stdin ∧
      s'.temps = s.temps ∧ s'.stdout = s.stdout := by
  have copy : Trap.putText (List.replicate (s.I.len + 1) 0) t = .ok (t ++ [0]) := by
    rw [Trap.putText_of (by rw [List.length_replicate, len]; exact Nat.lt_succ_self _), List.drop_of_length_le]
    rw [List.length_replicate, len]
  unfold Crepl.appendContent
  rw [read, ok_bind, copy, ok_bind, h.head, h.tail]
  have size : (defs ++ [t]).length = defs.length + 1 := by rw [List.length_append, List.length_singleton]
  by_cases more : 0 < defs.length
  · rw [if_pos more, if_pos more]
    dsimp only
    obtain ⟨node, plain'⟩ := h.node (defs.length - 1) defs[defs.length - 1] (List.getElem?_eq_getElem (by omega))
    rw [Trap.check_some, ok_bind, node, Trap.check_some, ok_bind]
    refine ⟨_, rfl, ⟨?_, ?_, ?_, fun k d at_ => ?_⟩, rfl, rfl, rfl, rfl⟩
    · rw [size]
      exact congrArg (· + 1) h.fresh
    · rw [size]
      exact (if_pos (Nat.succ_pos _)).symm
    · rw [size]
      show some s.fresh = _
      rw [if_pos (Nat.succ_pos _), Nat.add_sub_cancel, h.fresh]
    · rw [size]
      rcases Nat.lt_trichotomy k (defs.length - 1) with before | rfl | after
      · rw [List.getElem?_append_left (by omega)] at at_
        dsimp only
        rw [h.fresh, Function.update_of_ne (by omega), Function.update_of_ne (by omega), if_pos (by omega)]
        have old := h.node k d at_
        rw [if_pos (by omega)] at old
        exact old
      · rw [List.getElem?_append_left (by omega), List.getElem?_eq_getElem (by omega), Option.some.injEq] at at_
        subst at_
        dsimp only
        rw [h.fresh, Function.update_of_ne (by omega), Function.update_self, if_pos (by omega),
          Nat.sub_add_cancel more]
        exact ⟨rfl, plain'⟩
      · have last : k = defs.length := by
          have bound := (List.getElem?_eq_some_iff.1 at_).1
          omega
        subst last
        rw [List.getElem?_append_right (Nat.le_refl _), Nat.sub_self, List.getElem?_cons_zero, Option.some.injEq] at at_
        subst at_
        dsimp only
        rw [h.fresh, Function.update_self, if_neg (by omega)]
        exact ⟨rfl, plain⟩
  · have none : defs = [] := List.eq_nil_of_length_eq_zero (by omega)
    subst none
    rw [if_neg more, if_neg more]
    refine ⟨_, rfl, ⟨?_, ?_, ?_, fun k d at_ => ?_⟩, rfl, rfl, rfl, rfl⟩
    · exact congrArg (· + 1) h.fresh
    · exact congrArg Option.some h.fresh
    · exact congrArg Option.some h.fresh
    · have first : k = 0 := by
        have bound := (List.getElem?_eq_some_iff.1 at_).1
        exact Nat.lt_one_iff.1 bound
      subst first
      rw [List.nil_append, List.getElem?_cons_zero, Option.some.injEq] at at_
      subst at_
      have address : s.fresh = 0 := h.fresh
      dsimp only
      rw [address, Function.update_self]
      exact ⟨rfl, plain⟩

/-! ## The input -/

/-- The line that was read is in the buffer. -/
structure Typed (s : State) (t : List UInt8) : Prop where
  size : s.I.content.length = 1024
  read : Trap.readText s.I.content = .ok t
  len : s.I.len = t.length
  isfunc : s.I.isfunc = decide (t.take 4 = ascii "int ")
  plain : 0 ∉ t

theorem stripNewlines_run (plain : newline ∉ t) (k : Nat) :
    stripNewlines (t ++ List.replicate k newline ++ rest) (t.length + k) = .ok t.length := by
  induction k generalizing rest with
  | zero =>
    rcases List.eq_nil_or_concat t with rfl | ⟨front, c, rfl⟩
    · rfl
    · rw [List.concat_eq_append] at plain ⊢
      have other : c ≠ newline := fun same => plain (by rw [same]; simp)
      have at_ : Trap.load (front ++ c :: rest) (front.length : Int) = .ok c := Trap.load_at rfl
      rw [List.replicate_zero, List.append_nil, Nat.add_zero, List.length_append, List.length_singleton, stripNewlines,
        List.append_assoc, List.singleton_append, at_, ok_bind, if_neg other]
  | succ k ih =>
    have at_ : Trap.load (t ++ List.replicate k newline ++ newline :: rest) ((t.length + k : Nat) : Int) = .ok newline :=
      Trap.load_at (by rw [List.length_append, List.length_replicate])
    rw [List.replicate_succ', ← List.append_assoc, List.append_assoc (t ++ _), List.singleton_append,
      show t.length + (k + 1) = t.length + k + 1 from rfl, stripNewlines, at_, ok_bind, if_pos rfl]
    exact ih

theorem text_split {b : List UInt8} (ended : 0 ∈ b) : ∃ tail, b = Trap.text b ++ 0 :: tail := by
  obtain ⟨front, tail, rfl, plain⟩ := List.eq_append_cons_of_mem ended
  exact ⟨tail, by rw [Trap.text_of plain]⟩

theorem newline_notMem (u : List UInt8) : newline ∉ u.takeWhile (· ≠ newline) := fun member => by
  simpa using List.mem_takeWhile_imp member

theorem takeWhile_plain {u : List UInt8} (plain : newline ∉ u) : u.takeWhile (· ≠ newline) = u :=
  List.takeWhile_eq_self_iff.2 fun _ member => decide_eq_true (ne_of_mem_of_not_mem member plain)

theorem takeWhile_ended {u : List UInt8} (plain : newline ∉ u) : (u ++ [newline]).takeWhile (· ≠ newline) = u := by
  rw [List.takeWhile_append_of_pos fun c member => decide_eq_true (ne_of_mem_of_not_mem member plain),
    List.takeWhile_cons_of_neg (by simp), List.append_nil]

/-- A newline ends what `fgets` reads, and what a NUL leaves of it. -/
theorem text_lineOf (n : Nat) (s : List UInt8) : ∃ k, Trap.text (lineOf n s) = pieceOf (lineOf n s) ++ List.replicate k newline := by
  have none : newline ∉ textOf n s := newline_notMem _
  have cut : newline ∉ Trap.text (textOf n s) := fun member =>
    none ((List.takeWhile_prefix _).subset member)
  unfold pieceOf
  obtain ⟨-, same⟩ | ⟨-, same⟩ := lineOf_split n s
  · exact ⟨0, by rw [same, takeWhile_plain cut]; simp⟩
  · rw [same]
    by_cases ended : 0 ∈ textOf n s
    · obtain ⟨front, behind, split⟩ := List.append_of_mem ended
      have text_eq : Trap.text (textOf n s ++ [newline]) = Trap.text (textOf n s) := by
        rw [split, List.append_assoc, List.cons_append, Trap.text_ended, Trap.text_ended]
      exact ⟨0, by rw [text_eq, takeWhile_plain cut]; simp⟩
    · have text_eq : Trap.text (textOf n s ++ [newline]) = textOf n s ++ [newline] := by
        rw [Trap.text_append ended]
        rfl
      refine ⟨1, ?_⟩
      rw [text_eq, takeWhile_ended none]
      rfl

/-- A line is read. -/
theorem getInput_line (size : s.I.content.length = 1024) (more : s.stdin.rest ≠ []) :
    ∃ s', getInput s = .ok (true, s') ∧ Typed s' (pieceOf (lineOf 1023 s.stdin.rest)) ∧
      s'.stdin.rest = s.stdin.rest.drop (lineOf 1023 s.stdin.rest).length ∧
      s' = { s with I := s'.I, stdin := s'.stdin } := by
  have read : fgets 1024 s.stdin = (some (lineOf 1023 s.stdin.rest), ⟨s.stdin.rest.drop (lineOf 1023 s.stdin.rest).length,
      s.stdin.eof || decide ((lineOf 1023 s.stdin.rest).length < 1023 ∧
        (lineOf 1023 s.stdin.rest).getLast? ≠ some newline)⟩) := if_neg fun h => more h.2
  have short : (lineOf 1023 s.stdin.rest).length ≤ 1023 := length_lineOf_le_size
  obtain ⟨k, text_eq⟩ := text_lineOf 1023 s.stdin.rest
  generalize behind : s.I.content.drop ((lineOf 1023 s.stdin.rest).length + 1) = old
  have length_old : (lineOf 1023 s.stdin.rest).length + 1 + old.length = 1024 := by
    rw [← behind, List.length_drop, size]
    omega
  have plain : 0 ∉ pieceOf (lineOf 1023 s.stdin.rest) := fun member =>
    Trap.zero_notMem_text _ ((List.takeWhile_prefix _).subset member)
  have ends : newline ∉ pieceOf (lineOf 1023 s.stdin.rest) := newline_notMem _
  unfold getInput
  rw [read]
  dsimp only
  rw [behind]
  generalize lineOf 1023 s.stdin.rest = line at *
  generalize pieceOf line = t at *
  have read' : Trap.readText (line ++ 0 :: old) = .ok (t ++ List.replicate k newline) := by
    rw [Trap.readText_ended (by simp), Trap.text_ended, text_eq]
  -- the text, its newlines, and what is behind them
  obtain ⟨tail, split⟩ := text_split (show 0 ∈ line ++ 0 :: old by simp)
  rw [Trap.text_ended, text_eq] at split
  obtain ⟨c, ys, next⟩ : ∃ c ys, List.replicate k newline ++ 0 :: tail = c :: ys := by
    cases k with
    | zero => exact ⟨0, tail, rfl⟩
    | succ k => exact ⟨newline, _, rfl⟩
  have strip : stripNewlines (line ++ 0 :: old) (t ++ List.replicate k newline).length = .ok t.length := by
    rw [split, List.length_append, List.length_replicate]
    exact stripNewlines_run ends k
  have put : Trap.put (line ++ 0 :: old) (t.length : Int) 0 = .ok (t ++ 0 :: ys) := by
    rw [split, List.append_assoc, next]
    exact Trap.put_at rfl
  have length : (t ++ 0 :: ys).length = 1024 := by
    have same := congrArg List.length split
    rw [List.append_assoc, next] at same
    simp only [List.length_append, List.length_cons] at same ⊢
    omega
  rw [read', ok_bind, strip, ok_bind, put, ok_bind]
  refine ⟨_, rfl, ⟨length, Trap.readText_of plain, rfl, ?_, plain⟩, rfl, rfl⟩
  dsimp only
  by_cases small : t.length < 4
  · rw [if_pos small]
    refine (decide_eq_false fun same => ?_).symm
    have four := congrArg List.length same
    rw [List.length_take] at four
    have size : (ascii "int ").length = 4 := rfl
    omega
  · rw [if_neg small, List.take_append_of_le_length (Nat.le_of_not_lt small)]

/-- At the end of the input. -/
theorem getInput_end (last : s.stdin.rest = []) : ∃ stdin, getInput s = .ok (false, { s with stdin }) := by
  have read : fgets 1024 s.stdin = (none, { s.stdin with eof := true }) := if_pos ⟨by decide, last⟩
  unfold getInput
  rw [read]
  exact ⟨_, rfl⟩

/-! ## A line -/

/-- A line is executed as the session says. -/
theorem execute_line (h : Holds s defs) (typed : Typed s t) (said : List UInt8) :
    ∃ s', execute w s = .ok s' ∧ Holds s' (Session.line w ⟨defs, s.temps, said⟩ t).defs ∧ s'.temps = s.temps + 1 ∧
      s'.stdin = s.stdin ∧ s'.I = s.I ∧
      ∃ answer, s'.stdout = s.stdout ++ answer ∧ (Session.line w ⟨defs, s.temps, said⟩ t).said = said ++ ascii "> " ++ answer := by
  have file := h.writeContents s.fresh 0 (by rw [h.fresh]; exact Nat.le_refl _)
  rw [← h.head, List.drop_zero] at file
  unfold execute initTempFile Session.line
  dsimp only
  cases w.mkstemp s.temps with
  | none => exact ⟨_, rfl, ⟨h.fresh, h.head, h.tail, h.node⟩, rfl, rfl, rfl, _, rfl, rfl⟩
  | some suffix =>
    dsimp only
    rw [file, ok_bind, ok_bind]
    dsimp only
    rw [typed.read, ok_bind, typed.isfunc]
    have same : Holds { s with temps := s.temps + 1 } defs := ⟨h.fresh, h.head, h.tail, h.node⟩
    by_cases isfunc : t.take 4 = ascii "int "
    · rw [if_pos (decide_eq_true isfunc), if_pos isfunc]
      split
      · obtain ⟨s', run, holds, hI, hin, ht, hout⟩ := same.appendContent typed.read typed.len typed.plain
        rw [run, ok_bind]
        refine ⟨_, rfl, ⟨holds.fresh, holds.head, holds.tail, holds.node⟩, ht, hin, hI, ascii "Added: " ++ t ++ ascii "\n", ?_, rfl⟩
        show s'.stdout ++ _ = _
        rw [hout]
      · exact ⟨_, rfl, ⟨h.fresh, h.head, h.tail, h.node⟩, rfl, rfl, rfl, _, rfl, rfl⟩
    · rw [if_neg (by simpa using isfunc), if_neg isfunc]
      have kept : ∀ answer, Holds (State.puts { s with temps := s.temps + 1 } answer) defs := fun answer =>
        ⟨h.fresh, h.head, h.tail, h.node⟩
      dsimp only
      split
      · split
        · cases w.dlsym _ _ with
          | none => exact ⟨_, rfl, kept _, rfl, rfl, rfl, _, rfl, rfl⟩
          | some result => exact ⟨_, rfl, kept _, rfl, rfl, rfl, _, rfl, rfl⟩
        · exact ⟨_, rfl, kept _, rfl, rfl, rfl, _, rfl, rfl⟩
      · exact ⟨_, rfl, kept _, rfl, rfl, rfl, _, rfl, rfl⟩

/-! ## A session -/

theorem pieces_nil : pieces [] = [] := by rw [pieces, if_pos rfl]

theorem pieces_cons {s : List UInt8} (more : s ≠ []) :
    pieces s = pieceOf (lineOf 1023 s) :: pieces (s.drop (lineOf 1023 s).length) := by
  rw [pieces, if_neg more]

/-- The pieces of a text without a NUL, whose lines are short enough, are its lines. -/
theorem pieces_eq_lines {s : List UInt8} (plain : 0 ∉ s) (short : ∀ l ∈ lines s, l.length < 1023) : pieces s = lines s := by
  induction s using pieces.induct with
  | case1 => exact pieces_nil
  | case2 s more ih =>
    have step := lines_step more fun l head => short l (List.mem_of_mem_head? head)
    have piece : pieceOf (lineOf 1023 s) = textOf 1023 s := by
      have none : newline ∉ textOf 1023 s := newline_notMem _
      have text : Trap.text (lineOf 1023 s) = lineOf 1023 s := by
        refine List.takeWhile_eq_self_iff.2 fun c member => decide_eq_true (ne_of_mem_of_not_mem ?_ plain)
        obtain ⟨split, same⟩ | ⟨split, same⟩ := lineOf_split 1023 s <;> rw [same] at member <;> rw [split]
        · exact List.mem_append_left _ member
        · rw [← List.singleton_append, ← List.append_assoc]
          exact List.mem_append_left _ member
      unfold pieceOf
      rw [text]
      obtain ⟨-, same⟩ | ⟨-, same⟩ := lineOf_split 1023 s
      · rw [same, takeWhile_plain none]
      · rw [same, takeWhile_ended none]
    rw [pieces_cons more, step, piece]
    rw [step] at short
    rw [ih (fun member => plain (List.mem_of_mem_drop member)) fun l member => short l (List.mem_cons_of_mem _ member)]

/-- The loop of `main`; the induction is on what bounds its rounds. -/
theorem mainLoop_run {fuel : Nat} (enough : s.stdin.rest.length < fuel) (h : Holds s defs) (size : s.I.content.length = 1024) :
    ∃ s', mainLoop w fuel s = .ok s' ∧
      Holds s' ((pieces s.stdin.rest).foldl (Session.line w) ⟨defs, s.temps, s.stdout⟩).defs ∧
      s'.stdout = ((pieces s.stdin.rest).foldl (Session.line w) ⟨defs, s.temps, s.stdout⟩).said ++ ascii "> " := by
  induction fuel generalizing s defs with
  | zero => cases enough
  | succ fuel ih =>
    have prompted : Holds (s.puts (ascii "> ")) defs := ⟨h.fresh, h.head, h.tail, h.node⟩
    rw [mainLoop]
    by_cases last : s.stdin.rest = []
    · obtain ⟨stdin, run⟩ := @getInput_end (s.puts (ascii "> ")) last
      rw [run, ok_bind, last, pieces_nil]
      exact ⟨_, rfl, ⟨h.fresh, h.head, h.tail, h.node⟩, rfl⟩
    · obtain ⟨s₁, run, typed, rest, same⟩ := @getInput_line (s.puts (ascii "> ")) size last
      have holds₁ : Holds s₁ defs := by
        rw [same]
        exact ⟨h.fresh, h.head, h.tail, h.node⟩
      obtain ⟨s₂, run₂, holds₂, temps, stdin, hI, answer, out, said⟩ := @execute_line w s₁ defs _ holds₁ typed s.stdout
      have temps₁ : s₁.temps = s.temps := by rw [same]; rfl
      have stdout₁ : s₁.stdout = s.stdout ++ ascii "> " := by rw [same]; rfl
      have shorter : s₂.stdin.rest.length < fuel := by
        have some : 0 < (lineOf 1023 s.stdin.rest).length := by
          obtain ⟨c, cs, chars⟩ := List.exists_cons_of_ne_nil last
          rw [chars, lineOf]
          split <;> exact Nat.succ_pos _
        have less : s₂.stdin.rest.length = s.stdin.rest.length - (lineOf 1023 s.stdin.rest).length := by
          rw [stdin, rest, List.length_drop]
          rfl
        have whole : (lineOf 1023 s.stdin.rest).length ≤ s.stdin.rest.length := length_lineOf_le
        omega
      have next : Session.line w ⟨defs, s.temps, s.stdout⟩ (pieceOf (lineOf 1023 s.stdin.rest)) =
          ⟨(Session.line w ⟨defs, s.temps, s.stdout⟩ (pieceOf (lineOf 1023 s.stdin.rest))).defs, s₂.temps, s₂.stdout⟩ := by
        rw [temps, out, stdout₁, temps₁]
        rw [temps₁] at said
        exact congrArg (Session.mk _ _) said
      rw [run, ok_bind]
      dsimp only
      rw [if_pos rfl, run₂, ok_bind, pieces_cons last, List.foldl_cons, next]
      rw [temps₁] at holds₂
      have final := ih shorter holds₂ (by rw [hI]; exact typed.size)
      rw [stdin, rest] at final
      exact final

/-- **A session.** Whatever the input and the compiler are, `main` returns without leaving its buffers. The lines of the input
(up to a newline, or 1023 characters) are executed one after the other: each is compiled behind the definitions that were
accepted before, a definition that compiles is kept, and a line that does not compile leaves nothing. If the input has no
NUL and no long lines, the lines are those of the text. -/
theorem crepl_session (w : World) (stdin : List UInt8) :
    (∃ s, main w stdin = .ok s ∧ Holds s ((pieces stdin).foldl (Session.line w) ⟨[], 0, []⟩).defs ∧
      s.stdout = ((pieces stdin).foldl (Session.line w) ⟨[], 0, []⟩).said ++ ascii "> ") ∧
    (0 ∉ stdin → (∀ l ∈ lines stdin, l.length < 1023) → pieces stdin = lines stdin) := by
  refine ⟨?_, pieces_eq_lines⟩
  have first : Holds (start stdin) [] := ⟨rfl, rfl, rfl, fun k d at_ => by cases at_⟩
  exact mainLoop_run (Nat.lt_succ_self _) first (by unfold start; rw [List.length_replicate])

end OsLab.Crepl
