import OsLab.Klib.Format
import Mathlib.Data.List.TakeWhile

/-!
# What `vsnprintf` writes

A conversion fills the buffer and is copied from there. The loop over the format is in one of three states: there is
room for another character, or the last place of the output has been taken by a conversion, or `outp` has left the
output, which the store of the NUL at the end does not survive.
-/

namespace OsLab.Klib

open OsLab.Memory OsLab.Buffer OsLab.Decimal
open OsLab.Kernel (Halt)

/-! ## A conversion -/

section Conversion

variable {below : Nat → UInt8} {n : Nat} {buffer : List UInt8} {o : Output} {args : List Arg} {rest : CStr}

/-- The buffer of a conversion at its start. -/
theorem start_shows (size : buffer.length = bufferSize) : ∃ b, put buffer (bufferSize - 1 : Nat) 0 = some b ∧
    Shows ⟨b, (bufferSize - 1 : Nat), 0⟩ [] := by
  rcases List.eq_nil_or_concat buffer with rfl | ⟨front, last, rfl⟩
  · simp [bufferSize] at size
  · rw [List.concat_eq_append] at size ⊢
    have place : front.length = bufferSize - 1 := by simp [← size]
    refine ⟨front ++ [0], put_at place, ⟨front, rfl, ?_⟩, ?_, rfl⟩
    · rw [place]
    · simpa using size

theorem Shows.enough {k : Conversion} {cs : List UInt8} (h : Shows k cs) : 0 ≤ k.cp ∧ k.cp < bufferSize := by
  obtain ⟨front, -, cp⟩ := h.place
  have length := h.cp_eq
  rw [bufferSize]
  omega

/-- The buffer is filled with the padded text, and copied. -/
theorem formatConversion_eq (n : Nat) (o : Output) (args : List Arg) (rest : CStr) (width : Option Width) (c : Conv)
    (size : buffer.length = bufferSize) (small : widthOf width < 2 ^ 31) : ∃ k₀, Shows k₀ [] ∧
      formatConversion below n ((width.elim [] fun w => 48 :: w.digits) ++ c.letter :: rest) (c.arg :: args) buffer o =
        ((Piece.conv width c).inBuffer below).reverse.foldlM Conversion.push k₀ >>= fun k =>
          copyLoop n k.buffer bufferSize k.cp o >>= fun o => .ok (o, k.buffer, rest, args) := by
  obtain ⟨b, stored, shows⟩ := start_shows size
  obtain ⟨-, lower, -⟩ := letter_spec c
  refine ⟨_, shows, ?_⟩
  rw [formatConversion, readWidth_eq, if_pos small]
  simp only [ok_bind, charAt, List.getD_cons_zero, lower, if_true, stored, checked, List.drop_succ_cons, List.drop_zero]
  rw [convert_eq c shows.enough.1 shows.enough.2, bind_assoc, Piece.inBuffer, padded, List.reverse_append,
    List.foldlM_append]
  simp only [ok_bind, bind_assoc]
  -- the width of the text is known only where it has gone into the buffer
  rcases Nat.lt_or_ge 399 (c.rep below).length with long | fits
  · rw [shows.pushAll_full (by simpa using long) (Nat.zero_le _)]
    rfl
  · obtain ⟨k, filled, shows'⟩ := shows.pushAll (c.rep below) (by simpa using fits)
    rw [filled]
    simp only [ok_bind]
    cases width with
    | none => simp [widthOf]
    | some w =>
      have length : k.outWidth = (c.rep below).length := by simpa using shows'.width
      simp [padLoop_eq shows'.enough.1 shows'.enough.2, length]

/-- A conversion that fits is in the buffer when it is copied. -/
theorem formatConversion_fits {width : Option Width} {c : Conv} (n : Nat) (o : Output) (args : List Arg) (rest : CStr)
    (size : buffer.length = bufferSize)
    (fits : ((Piece.conv width c).inBuffer below).length ≤ 399) : ∃ k, Shows k ((Piece.conv width c).inBuffer below) ∧
      formatConversion below n ((width.elim [] fun w => 48 :: w.digits) ++ c.letter :: rest) (c.arg :: args) buffer o =
        copyLoop n k.buffer bufferSize k.cp o >>= fun o => .ok (o, k.buffer, rest, args) := by
  have small : widthOf width < 2 ^ 31 := by
    simp [Piece.inBuffer, padded] at fits
    omega
  obtain ⟨k₀, shows, run⟩ := formatConversion_eq n o args rest width c size small
  obtain ⟨k, filled, shows'⟩ := shows.pushAll ((Piece.conv width c).inBuffer below) (by simpa using fits)
  refine ⟨k, by simpa using shows', ?_⟩
  rw [run, filled]
  rfl

/-- Another one leaves the buffer. -/
theorem formatConversion_outside {width : Option Width} {c : Conv} (size : buffer.length = bufferSize)
    (long : 399 < ((Piece.conv width c).inBuffer below).length) : ∃ e,
      formatConversion below n ((width.elim [] fun w => 48 :: w.digits) ++ c.letter :: rest) (c.arg :: args) buffer o =
        .error e := by
  rcases Nat.lt_or_ge (widthOf width) (2 ^ 31) with small | large
  · obtain ⟨k₀, shows, run⟩ := formatConversion_eq n o args rest width c size small
    refine ⟨.outside, ?_⟩
    rw [run, shows.pushAll_full (by simpa using long) (Nat.zero_le _)]
    rfl
  · refine ⟨.overflow, ?_⟩
    rw [formatConversion, readWidth_eq, if_neg (by omega)]
    rfl

end Conversion

/-! ## The copy of the buffer -/

/-- The output after `done`, in front of `tail`. -/
def written (done tail : List UInt8) : Output := ⟨done ++ tail, done.length, done.length⟩

/-- A conversion has put the last character into the output. -/
structure Full (n : Nat) (o : Output) : Prop where
  size : o.out.length = n
  last : o.outp + 1 = n
  count : o.ret = n

/-- `outp` has left the output. -/
def Past (o : Output) : Prop := o.out.length ≤ o.outp

section Copy

variable {n fuel : Nat} {buffer front cs more done tail : List UInt8} {c : UInt8} {o o' : Output} {cp : Int}

theorem Past.write (past : Past o) : o.write c = .error .outside := by
  simp [Output.write, checked, put_end past]

theorem write_written {a : UInt8} : (written done (a :: tail)).write c =
    .ok { written done (a :: tail) with out := done ++ c :: tail } := by
  simp [Output.write, written, checked, put_at]

theorem next_written {a : UInt8} : ({ written done (a :: tail) with out := done ++ c :: tail } : Output).next =
    written (done ++ [c]) tail := by
  simp [Output.next, written]

theorem copyLoop_nil (enough : 0 < fuel) : copyLoop n (front ++ 0 :: more) fuel front.length o = .ok o := by
  obtain ⟨fuel, rfl⟩ : ∃ k, fuel = k + 1 := ⟨fuel - 1, by omega⟩
  simp [copyLoop, load_at, checked]

/-- Text for which there is room. -/
theorem copyLoop_room (plain : 0 ∉ cs) (room : done.length + cs.length < n) (word : n < 2 ^ 32)
    (space : cs.length ≤ tail.length) (enough : cs.length < fuel) :
    copyLoop n (front ++ (cs ++ 0 :: more)) fuel front.length (written done tail) =
      .ok (written (done ++ cs) (tail.drop cs.length)) := by
  induction cs generalizing front done tail fuel with
  | nil =>
    rw [List.nil_append, copyLoop_nil enough]
    simp
  | cons c cs ih =>
    simp only [List.length_cons] at room space enough
    simp only [List.mem_cons, not_or] at plain
    obtain ⟨fuel, rfl⟩ : ∃ k, fuel = k + 1 := ⟨fuel - 1, by omega⟩
    obtain ⟨a, tail, rfl⟩ := List.exists_cons_of_length_pos (by omega : 0 < tail.length)
    have other : ¬(done.length + 1) % 2 ^ 32 = n := by
      rw [Nat.mod_eq_of_lt (by omega)]
      omega
    have next : copyLoop n (front ++ [c] ++ (cs ++ 0 :: more)) fuel (front ++ [c]).length (written (done ++ [c]) tail) = _ :=
      ih plain.2 (by simp; omega) (by simpa using space) (by omega)
    rw [copyLoop, List.cons_append, load_at rfl]
    simp only [checked, ok_bind, if_neg (Ne.symm plain.1), write_written, next_written]
    rw [if_neg (by simpa [written] using other)]
    simpa using next

/-- Text that reaches the last place is cut off behind it. -/
theorem copyLoop_cut (plain : 0 ∉ cs) (size : n ≤ (done ++ tail).length) (reach : done.length < n)
    (long : n ≤ done.length + cs.length) (word : n < 2 ^ 32) (enough : cs.length < fuel) :
    copyLoop n (front ++ (cs ++ 0 :: more)) fuel front.length (written done tail) =
      .ok ⟨(done ++ cs).take n ++ tail.drop (n - done.length), n - 1, n⟩ := by
  induction cs generalizing front done tail fuel with
  | nil =>
    simp at long
    omega
  | cons c cs ih =>
    simp only [List.length_cons, List.length_append] at size long enough
    simp only [List.mem_cons, not_or] at plain
    obtain ⟨fuel, rfl⟩ : ∃ k, fuel = k + 1 := ⟨fuel - 1, by omega⟩
    obtain ⟨a, tail, rfl⟩ := List.exists_cons_of_length_pos (by omega : 0 < tail.length)
    rw [copyLoop, List.cons_append, load_at rfl]
    simp only [checked, ok_bind, if_neg (Ne.symm plain.1), write_written, next_written]
    have count : (done.length + 1) % 2 ^ 32 = done.length + 1 := Nat.mod_eq_of_lt (by omega)
    by_cases last : done.length + 1 = n
    · have cut : (done ++ c :: cs).take n = done ++ [c] := by
        rw [← last, List.take_append, List.take_of_length_le (by omega)]
        simp
      have place : n - done.length = 1 := by omega
      rw [if_pos (by simp [written]; omega), cut, place, ← last]
      simp [written]
    · have next : copyLoop n (front ++ [c] ++ (cs ++ 0 :: more)) fuel (front ++ [c]).length
          (written (done ++ [c]) tail) = _ :=
        ih plain.2 (by simp at size ⊢; omega) (by simp; omega) (by simp; omega) (by omega)
      have place : n - done.length = n - (done.length + 1) + 1 := by omega
      rw [if_neg (by simp [written]; omega), place]
      simpa using next

/-- Text that takes the last place. -/
theorem copyLoop_reach (plain : 0 ∉ cs) (size : (done ++ tail).length = n) (reach : done.length < n)
    (long : n ≤ done.length + cs.length) (word : n < 2 ^ 32) (enough : cs.length < fuel) :
    ∃ o, copyLoop n (front ++ (cs ++ 0 :: more)) fuel front.length (written done tail) = .ok o ∧ Full n o := by
  refine ⟨_, copyLoop_cut plain size.ge reach long word enough, ?_, by simp; omega, rfl⟩
  simp at size ⊢
  omega

/-- Nothing is stored behind the end. -/
theorem copyLoop_past (past : Past o) (run : copyLoop n buffer fuel cp o = .ok o') : o' = o := by
  cases fuel with
  | zero => cases run
  | succ fuel =>
    obtain ⟨c, -, rest⟩ := bind_eq_ok.1 run
    by_cases final : c = 0
    · rw [if_pos final] at rest
      cases rest
      rfl
    · rw [if_neg final, past.write] at rest
      cases rest

/-- No character fits behind the last one. -/
theorem copyLoop_full (full : Full n o) (plain : c ≠ 0)
    (run : copyLoop n (front ++ c :: more) fuel front.length o = .ok o') : Past o' := by
  obtain ⟨size, last, count⟩ := full
  cases fuel with
  | zero => cases run
  | succ fuel =>
    rw [copyLoop, load_at rfl] at run
    simp only [checked, ok_bind, if_neg plain] at run
    obtain ⟨o₁, stored, rest⟩ := bind_eq_ok.1 run
    obtain ⟨out, put, made⟩ := bind_eq_ok.1 stored
    cases made
    have length : out.length = n := by
      cases place : Buffer.put o.out o.outp c with
      | none => simp [place, checked] at put
      | some out' =>
        simp only [place, checked, Except.ok.injEq] at put
        rw [← put, put_length place, size]
    have other : ¬(o.ret + 1) % 2 ^ 32 = n := by omega
    have past : Past (Output.next { o with out }) := by
      simp [Past, Output.next]
      omega
    rw [if_neg other] at rest
    rw [copyLoop_past past rest]
    exact past

end Copy

/-! ## The loop over the format -/

section Loop

variable {below : Nat → UInt8} {n fuel : Nat} {p : Piece} {ps : List Piece} {buffer done tail : List UInt8} {o : Output}

/-- What is copied of a text that the buffer shows. -/
theorem Shows.copied {k : Conversion} {cs : List UInt8} (h : Shows k cs) : ∃ front more,
    k.buffer = front ++ (cs.takeWhile (· ≠ 0) ++ 0 :: more) ∧ k.cp = front.length := by
  obtain ⟨front, place, cp⟩ := h.place
  obtain ⟨more, cut⟩ : ∃ more, cs ++ [0] = cs.takeWhile (· ≠ 0) ++ 0 :: more := by
    clear place h
    induction cs with
    | nil => exact ⟨[], rfl⟩
    | cons c cs ih =>
      by_cases final : c = 0
      · exact ⟨cs ++ [0], by simp [final]⟩
      · obtain ⟨more, cut⟩ := ih
        exact ⟨more, by simpa [final] using cut⟩
  exact ⟨front, more, by rw [place, cut], cp⟩

/-- No conversion prints a NUL. -/
theorem printed_plain {width : Option Width} {c : Conv} : 0 ∉ (Piece.conv width c).printed below := by
  intro member
  simpa using List.mem_takeWhile_imp member

theorem formatLoop_lit {c : UInt8} {plain : c ≠ 0 ∧ c ≠ 37} : formatLoop below n (fuel + 1) (fmtOf (.lit c plain :: ps))
    (argsOf (.lit c plain :: ps)) buffer o = (o.write c >>= fun o =>
      if (o.ret + 1) % 2 ^ 32 = n then .ok (o.next, buffer)
      else formatLoop below n fuel (fmtOf ps) (argsOf ps) buffer o.next) := by
  simp [fmtOf, argsOf, Piece.fmt, Piece.args, formatLoop, plain.2]

theorem formatLoop_conv {width : Option Width} {c : Conv} :
    formatLoop below n (fuel + 1) (fmtOf (.conv width c :: ps)) (argsOf (.conv width c :: ps)) buffer o =
      (formatConversion below n ((width.elim [] fun w => 48 :: w.digits) ++ c.letter :: fmtOf ps) (c.arg :: argsOf ps)
        buffer o >>= fun r => formatLoop below n fuel r.2.2.1 r.2.2.2 r.2.1 r.1) := by
  simp [fmtOf, argsOf, Piece.fmt, Piece.args, formatLoop]

/-- A conversion that fits. -/
theorem formatLoop_fits {width : Option Width} {c : Conv} (n : Nat) (ps : List Piece) (o : Output)
    (size : buffer.length = bufferSize) (fits : ((Piece.conv width c).inBuffer below).length ≤ 399) : ∃ front more buffer',
      buffer'.length = bufferSize ∧ ((Piece.conv width c).printed below).length < bufferSize ∧ ∀ fuel,
      formatLoop below n (fuel + 1) (fmtOf (.conv width c :: ps)) (argsOf (.conv width c :: ps)) buffer o =
        copyLoop n (front ++ ((Piece.conv width c).printed below ++ 0 :: more)) bufferSize (front.length : Nat) o >>=
          formatLoop below n fuel (fmtOf ps) (argsOf ps) buffer' := by
  obtain ⟨k, shows, run⟩ := formatConversion_fits n o (argsOf ps) (fmtOf ps) size fits
  obtain ⟨front, more, place, cp⟩ := shows.copied
  have short : ((Piece.conv width c).printed below).length ≤ 399 := le_trans (List.takeWhile_prefix _).length_le fits
  refine ⟨front, more, k.buffer, shows.size, Nat.lt_succ_of_le short, fun fuel => ?_⟩
  rw [formatLoop_conv, run, place, cp, bind_assoc]
  rfl

theorem allFit_cons : AllFit below (p :: ps) ↔ (p.inBuffer below).length ≤ 399 ∧ AllFit below ps :=
  List.forall_mem_cons

theorem printed_cons : printed below (p :: ps) = p.printed below ++ printed below ps := List.flatMap_cons

/-- Pieces for which there is room, in front of others. -/
theorem formatLoop_append (rest : List Piece) (size : buffer.length = bufferSize) (fits : AllFit below ps)
    (room : done.length + (printed below ps).length < n) (word : n < 2 ^ 32)
    (space : (printed below ps).length ≤ tail.length) (enough : (fmtOf (ps ++ rest)).length < fuel) :
    ∃ fuel' buffer', (fmtOf rest).length < fuel' ∧ buffer'.length = bufferSize ∧
      formatLoop below n fuel (fmtOf (ps ++ rest)) (argsOf (ps ++ rest)) buffer (written done tail) =
        formatLoop below n fuel' (fmtOf rest) (argsOf rest) buffer'
          (written (done ++ printed below ps) (tail.drop (printed below ps).length)) := by
  induction ps generalizing done tail fuel buffer with
  | nil => exact ⟨fuel, buffer, enough, size, by simp [printed]⟩
  | cons p ps ih =>
    simp only [printed_cons, List.length_append] at room space ⊢
    have cut : (fmtOf (p :: (ps ++ rest))).length = p.fmt.length + (fmtOf (ps ++ rest)).length := by simp [fmtOf]
    rw [List.cons_append] at enough ⊢
    obtain ⟨fuel, rfl⟩ : ∃ k, fuel = k + 1 := ⟨fuel - 1, by omega⟩
    obtain ⟨first, later⟩ := allFit_cons.1 fits
    -- the others are written behind what the first piece prints
    have behind (buffer' : List UInt8) (size' : buffer'.length = bufferSize) (shorter : 0 < p.fmt.length) :
        ∃ fuel' b, (fmtOf rest).length < fuel' ∧ b.length = bufferSize ∧
          formatLoop below n fuel (fmtOf (ps ++ rest)) (argsOf (ps ++ rest)) buffer'
            (written (done ++ p.printed below) (tail.drop (p.printed below).length)) =
          formatLoop below n fuel' (fmtOf rest) (argsOf rest) b
            (written (done ++ (p.printed below ++ printed below ps))
              (tail.drop ((p.printed below).length + (printed below ps).length))) := by
      rw [← List.append_assoc, ← List.drop_drop]
      exact ih size' later (by simp; omega) (by simp; omega) (by omega)
    cases p with
    | lit c plain =>
      obtain ⟨fuel', buffer', enough', size', run⟩ := behind buffer size Nat.one_pos
      simp only [Piece.printed, List.length_singleton] at room space run ⊢
      obtain ⟨a, tail, rfl⟩ := List.exists_cons_of_length_pos (by omega : 0 < tail.length)
      have other : ¬(done.length + 1) % 2 ^ 32 = n := by
        rw [Nat.mod_eq_of_lt (by omega)]
        omega
      refine ⟨fuel', buffer', enough', size', ?_⟩
      rw [formatLoop_lit, write_written]
      simp only [ok_bind, next_written]
      rw [if_neg (by simpa [written] using other), ← run]
      rfl
    | conv width c =>
      obtain ⟨front, more, buffer₁, size₁, short, run⟩ := formatLoop_fits n (ps ++ rest) (written done tail) size first
      obtain ⟨fuel', buffer', enough', size', next⟩ := behind buffer₁ size₁ (Nat.succ_pos _)
      refine ⟨fuel', buffer', enough', size', ?_⟩
      rw [run, copyLoop_room printed_plain (by omega) word (by omega) short]
      exact next

/-- A format for which there is room. -/
theorem formatLoop_room (size : buffer.length = bufferSize) (fits : AllFit below ps)
    (room : done.length + (printed below ps).length < n) (word : n < 2 ^ 32)
    (space : (printed below ps).length ≤ tail.length) (enough : (fmtOf ps).length < fuel) :
    ∃ buffer', buffer'.length = bufferSize ∧ formatLoop below n fuel (fmtOf ps) (argsOf ps) buffer (written done tail) =
      .ok (written (done ++ printed below ps) (tail.drop (printed below ps).length), buffer') := by
  obtain ⟨fuel', buffer', enough', size', run⟩ :=
    formatLoop_append [] size fits room word space (by rwa [List.append_nil])
  obtain ⟨k, rfl⟩ : ∃ k, fuel' = k + 1 := ⟨fuel' - 1, by omega⟩
  rw [List.append_nil] at run
  exact ⟨buffer', size', run⟩

end Loop

/-! ## Where the bound holds -/

/-- The `n`-th character comes from a conversion, and nothing is printed behind that conversion. -/
def EndsInConversion (below : Nat → UInt8) (n : Nat) (ps : List Piece) : Prop :=
  ∃ qs width c rest, ps = qs ++ .conv width c :: rest ∧ (printed below qs).length < n ∧
    n ≤ (printed below qs).length + ((Piece.conv width c).printed below).length ∧ printed below rest = []

/-- The conversions fit, and the text is shorter than `n` or cut off in a conversion. -/
def OutputFits (below : Nat → UInt8) (n : Nat) (ps : List Piece) : Prop :=
  AllFit below ps ∧ ((printed below ps).length < n ∨ EndsInConversion below n ps)

/-- The loop over the format ends with a place for the NUL. -/
def Ends (below : Nat → UInt8) (n fuel : Nat) (ps : List Piece) (buffer : List UInt8) (o : Output) : Prop :=
  ∃ o' buffer', formatLoop below n fuel (fmtOf ps) (argsOf ps) buffer o = .ok (o', buffer') ∧ o'.outp < o'.out.length

section Bound

variable {below : Nat → UInt8} {n fuel : Nat} {p : Piece} {ps : List Piece} {buffer done tail : List UInt8} {o : Output}

theorem endsInConversion_cons : EndsInConversion below n (p :: ps) ↔
    (∃ width c, p = .conv width c ∧ 0 < n ∧ n ≤ (p.printed below).length ∧ printed below ps = []) ∨
      (p.printed below).length < n ∧ EndsInConversion below (n - (p.printed below).length) ps := by
  constructor
  · rintro ⟨qs, width, c, rest, cut, before, reach, silent⟩
    cases qs with
    | nil =>
      obtain ⟨rfl, rfl⟩ := List.cons.inj cut
      exact .inl ⟨width, c, rfl, before, by simpa [printed] using reach, silent⟩
    | cons q qs =>
      obtain ⟨rfl, rfl⟩ := List.cons.inj cut
      simp only [printed_cons, List.length_append] at before reach
      exact .inr ⟨by omega, qs, width, c, rest, rfl, by omega, by omega, silent⟩
  · rintro (⟨width, c, rfl, positive, reach, silent⟩ | ⟨more, qs, width, c, rest, rfl, before, reach, silent⟩)
    · exact ⟨[], width, c, ps, rfl, positive, by simpa [printed] using reach, silent⟩
    · refine ⟨p :: qs, width, c, rest, rfl, ?_, ?_, silent⟩ <;> simp only [printed_cons, List.length_append] <;> omega

theorem ends_nil (enough : 0 < fuel) : Ends below n fuel [] buffer o ↔ o.outp < o.out.length := by
  obtain ⟨fuel, rfl⟩ : ∃ k, fuel = k + 1 := ⟨fuel - 1, by omega⟩
  simp [Ends, fmtOf, formatLoop]

/-- A conversion that does not fit. -/
theorem not_ends_long {width : Option Width} {c : Conv} (size : buffer.length = bufferSize)
    (long : 399 < ((Piece.conv width c).inBuffer below).length) : ¬Ends below n (fuel + 1) (.conv width c :: ps) buffer o := by
  rintro ⟨o', buffer', run, -⟩
  obtain ⟨e, halts⟩ := formatConversion_outside size long
  rw [formatLoop_conv, halts] at run
  cases run

/-- A conversion that fits is copied. -/
theorem ends_conv {width : Option Width} {c : Conv} (size : buffer.length = bufferSize)
    (fits : ((Piece.conv width c).inBuffer below).length ≤ 399) : ∃ front more buffer',
      buffer'.length = bufferSize ∧ ((Piece.conv width c).printed below).length < bufferSize ∧ ∀ fuel,
      (Ends below n (fuel + 1) (.conv width c :: ps) buffer o ↔ ∃ o', copyLoop n
        (front ++ ((Piece.conv width c).printed below ++ 0 :: more)) bufferSize (front.length : Nat) o = .ok o' ∧
          Ends below n fuel ps buffer' o') := by
  obtain ⟨front, more, buffer₁, size₁, short, run⟩ := formatLoop_fits n ps o size fits
  refine ⟨front, more, buffer₁, size₁, short, fun fuel => ?_⟩
  unfold Ends
  simp only [run, bind_eq_ok]
  constructor
  · rintro ⟨o', buffer', ⟨o₁, copy, rest⟩, room⟩
    exact ⟨o₁, copy, o', buffer', rest, room⟩
  · rintro ⟨o₁, copy, o', buffer', rest, room⟩
    exact ⟨o', buffer', ⟨o₁, copy, rest⟩, room⟩

/-- Where there is room up to the last piece, each conversion of a run that ends fits. -/
theorem allFit_of_ends (size : buffer.length = bufferSize) (room : done.length + (printed below ps.dropLast).length < n)
    (word : n < 2 ^ 32) (space : (printed below ps.dropLast).length ≤ tail.length)
    (ends : Ends below n fuel ps buffer (written done tail)) : AllFit below ps := by
  induction ps generalizing done tail fuel buffer with
  | nil => simp [AllFit]
  | cons p ps ih =>
    obtain ⟨o', buffer', run, -⟩ := id ends
    obtain ⟨fuel, rfl⟩ : ∃ k, fuel = k + 1 := Nat.exists_eq_succ_of_ne_zero fun zero => by
      rw [zero] at run
      cases run
    have first : (p.inBuffer below).length ≤ 399 := by
      cases p with
      | lit c plain => exact Nat.zero_le _
      | conv width c => exact Nat.not_lt.1 fun long => not_ends_long size long ends
    refine allFit_cons.2 ⟨first, ?_⟩
    cases ps with
    | nil => simp [AllFit]
    | cons q ps =>
      simp only [List.dropLast_cons_cons, printed_cons, List.length_append] at room space
      have later (b : List UInt8) (size' : b.length = bufferSize) (rest : Ends below n fuel (q :: ps) b
          (written (done ++ p.printed below) (tail.drop (p.printed below).length))) : AllFit below (q :: ps) :=
        ih size' (by simp; omega) (by simp; omega) rest
      cases p with
      | lit c plain =>
        simp only [Piece.printed, List.length_singleton] at room space later
        obtain ⟨a, tail, rfl⟩ := List.exists_cons_of_length_pos (by omega : 0 < tail.length)
        have other : ¬(done.length + 1) % 2 ^ 32 = n := by
          rw [Nat.mod_eq_of_lt (by omega)]
          omega
        refine later buffer size ?_
        unfold Ends at ends ⊢
        rw [formatLoop_lit, write_written] at ends
        simp only [ok_bind, next_written] at ends
        rw [if_neg (by simpa [written] using other)] at ends
        exact ends
      | conv width c =>
        obtain ⟨front, more, buffer₁, size₁, short, step⟩ := ends_conv size first
        obtain ⟨o₁, copy, rest⟩ := (step fuel).1 ends
        rw [copyLoop_room printed_plain (by omega) word (by omega) short] at copy
        cases copy
        exact later buffer₁ size₁ rest

theorem not_ends_past (past : Past o) (size : buffer.length = bufferSize) : ¬Ends below n fuel ps buffer o := by
  induction ps generalizing fuel buffer with
  | nil =>
    rintro ⟨o', buffer', run, room⟩
    cases fuel with
    | zero => cases run
    | succ fuel =>
      cases run
      exact absurd past (Nat.not_le.2 room)
  | cons p ps ih =>
    cases fuel with
    | zero =>
      rintro ⟨o', buffer', run, -⟩
      cases run
    | succ fuel =>
      cases p with
      | lit c plain =>
        rintro ⟨o', buffer', run, -⟩
        rw [formatLoop_lit, past.write] at run
        cases run
      | conv width c =>
        rcases Nat.lt_or_ge 399 ((Piece.conv width c).inBuffer below).length with long | fits
        · exact not_ends_long size long
        · obtain ⟨front, more, buffer₁, size₁, -, step⟩ := ends_conv size fits
          rw [step fuel]
          rintro ⟨o', copy, rest⟩
          rw [copyLoop_past past copy] at rest
          exact ih size₁ rest

/-- Behind the last character there is room for the NUL alone. -/
theorem ends_full (full : Full n o) (size : buffer.length = bufferSize) (enough : (fmtOf ps).length < fuel) :
    Ends below n fuel ps buffer o ↔ AllFit below ps ∧ printed below ps = [] := by
  induction ps generalizing fuel buffer o with
  | nil =>
    rw [ends_nil (by omega), full.size]
    have last := full.last
    simp [AllFit, printed]
    omega
  | cons p ps ih =>
    have cut : (fmtOf (p :: ps)).length = p.fmt.length + (fmtOf ps).length := by simp [fmtOf]
    obtain ⟨fuel, rfl⟩ : ∃ k, fuel = k + 1 := ⟨fuel - 1, by omega⟩
    rw [allFit_cons, printed_cons, List.append_eq_nil_iff]
    cases p with
    | lit c plain =>
      refine iff_of_false ?_ (by simp [Piece.printed])
      rintro ⟨o', buffer', run, room⟩
      obtain ⟨length, last, count⟩ := full
      have stored : o.write c = .ok { o with out := o.out.set o.outp c } := by
        have inside : o.outp < o.out.length := by omega
        simp [Output.write, checked, put_natCast, inside]
      have other : ¬(o.ret + 1) % 2 ^ 32 = n := by omega
      have past : Past (Output.next { o with out := o.out.set o.outp c }) := by
        simp [Past, Output.next]
        omega
      rw [formatLoop_lit, stored, ok_bind, if_neg other] at run
      exact not_ends_past past size ⟨o', buffer', run, room⟩
    | conv width c =>
      rcases Nat.lt_or_ge 399 ((Piece.conv width c).inBuffer below).length with long | fits
      · exact iff_of_false (not_ends_long size long) (fun h => absurd h.1.1 (by omega))
      · obtain ⟨front, more, buffer₁, size₁, -, step⟩ := ends_conv size fits
        rw [step fuel]
        cases text : (Piece.conv width c).printed below with
        | nil =>
          have shorter : (fmtOf ps).length < fuel := by
            have one : 0 < (Piece.conv width c).fmt.length := Nat.succ_pos _
            omega
          rw [List.nil_append, copyLoop_nil (by decide)]
          simp [ih full size₁ shorter, fits]
        | cons d ds =>
          refine iff_of_false ?_ (by simp)
          rintro ⟨o', copy, rest⟩
          have plain : d ≠ 0 := by
            rintro rfl
            exact printed_plain (text ▸ List.mem_cons_self)
          exact not_ends_past (copyLoop_full full plain copy) size₁ rest

/-- While there is room, the format decides. -/
theorem ends_written (length : (done ++ tail).length = n) (room : done.length < n) (word : n < 2 ^ 32)
    (size : buffer.length = bufferSize) (enough : (fmtOf ps).length < fuel) :
    Ends below n fuel ps buffer (written done tail) ↔ OutputFits below tail.length ps := by
  have total : done.length + tail.length = n := by simpa using length
  induction ps generalizing fuel buffer done tail with
  | nil =>
    rw [ends_nil (by omega)]
    simp [written, OutputFits, AllFit, printed]
    omega
  | cons p ps ih =>
    have cut : (fmtOf (p :: ps)).length = p.fmt.length + (fmtOf ps).length := by simp [fmtOf]
    obtain ⟨fuel, rfl⟩ : ∃ k, fuel = k + 1 := ⟨fuel - 1, by omega⟩
    unfold OutputFits
    rw [allFit_cons, printed_cons, List.length_append, endsInConversion_cons]
    cases p with
    | lit c plain =>
      obtain ⟨a, tail, rfl⟩ := List.exists_cons_of_length_pos (by omega : 0 < tail.length)
      have count : (done.length + 1) % 2 ^ 32 = done.length + 1 ∨ done.length + 1 = 2 ^ 32 := by omega
      simp only [List.length_cons] at total
      rw [Ends, formatLoop_lit, write_written]
      simp only [ok_bind, next_written]
      by_cases last : done.length + 1 = n
      · -- the character takes the last place, and the NUL goes behind it
        have reached : (done.length + 1) % 2 ^ 32 = n := by omega
        have none : tail = [] := List.length_eq_zero_iff.1 (by omega)
        subst none
        refine iff_of_false ?_ ?_
        · rintro ⟨o', buffer', run, below⟩
          rw [if_pos (by simpa [written] using reached)] at run
          cases run
          simp [written] at below
        · simp [Piece.printed]
      · have next : Ends below n fuel ps buffer (written (done ++ [c]) tail) ↔ _ :=
          ih (by simp; omega) (by simp; omega) size (by simp [Piece.fmt] at cut; omega) (by simp; omega)
        have more : 0 < tail.length := by omega
        rw [if_neg (by simp [written]; omega)]
        refine next.trans ?_
        simp [OutputFits, Piece.printed, Piece.inBuffer, more, Nat.add_comm 1]
    | conv width c =>
      rcases Nat.lt_or_ge 399 ((Piece.conv width c).inBuffer below).length with long | fits
      · exact iff_of_false (not_ends_long size long) (fun h => absurd h.1.1 (by omega))
      obtain ⟨front, more, buffer₁, size₁, short, step⟩ := ends_conv size fits
      have shorter : (fmtOf ps).length < fuel := by
        have one : 0 < (Piece.conv width c).fmt.length := Nat.succ_pos _
        omega
      rw [step fuel]
      rcases Nat.lt_or_ge ((Piece.conv width c).printed below).length tail.length with inside | reach
      · rw [copyLoop_room printed_plain (by omega) word (by omega) short]
        have next : Ends below n fuel ps buffer₁ (written (done ++ (Piece.conv width c).printed below)
            (tail.drop ((Piece.conv width c).printed below).length)) ↔ _ :=
          ih (by simp; omega) (by simp; omega) size₁ shorter (by simp; omega)
        have notHere : ¬tail.length ≤ ((Piece.conv width c).printed below).length := by omega
        simp [next, OutputFits, fits, inside, notHere, Nat.lt_sub_iff_add_lt']
      · have reached : ∃ o', copyLoop n (front ++ ((Piece.conv width c).printed below ++ 0 :: more)) bufferSize
            (front.length : Nat) (written done tail) = .ok o' ∧ Full n o' :=
          copyLoop_reach printed_plain length room (by omega) word short
        obtain ⟨o', copy, full⟩ := reached
        have last : ¬((Piece.conv width c).printed below).length < tail.length := by omega
        have positive : 0 < tail.length := by omega
        rw [copy]
        simp [ends_full full size₁ shorter, fits, last, reach, positive]
        omega

end Bound

end OsLab.Klib
