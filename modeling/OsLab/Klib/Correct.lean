import OsLab.Klib.Printed

/-!
# The results of `vsnprintf`

The output stays inside of its `n` bytes where the text is shorter than `n` or the `n`-th character comes from a
conversion that nothing follows: there the loop over the format goes on, and only a NUL fits. The text is the expected
one where no `%d` is given the most negative `int`. A text that is too long is cut off (`vsnprintf_cut`).
-/

namespace OsLab.Klib

open OsLab.Memory OsLab.Buffer OsLab.Decimal
open OsLab.Kernel (Halt)

/-! ## The expected text -/

/-- The decimal representation of an integer. -/
def decimalInt (v : Int) : List UInt8 := if v < 0 then 45 :: numeral 10 v.natAbs else numeral 10 v.natAbs

/-- What a conversion is to print, without padding. -/
def Conv.spelled : Conv → List UInt8
  | .d w => decimalInt (toInt32 w.toNat)
  | .u w => numeral 10 w.toNat
  | .x w => numeral 16 w.toNat
  | .p v => 48 :: 120 :: numeral 16 v
  | .s str _ => str
  | .c w => [UInt8.ofNat (w.toNat % 256)]

/-- What a piece is to print. -/
def Piece.spelled : Piece → List UInt8
  | .lit c _ => [c]
  | .conv width k => padded (widthOf width) k.spelled

/-- What a format is to print. -/
def spelled (ps : List Piece) : List UInt8 := ps.flatMap Piece.spelled

/-! ## The bound -/

/-- `vsnprintf` stores into `out` and its own buffer alone, and there is a NUL in `out` afterwards. -/
def StoresInside (below : Nat → UInt8) (buffer out : List UInt8) (n : Nat) (ps : List Piece) : Prop :=
  ∃ ret out' buffer', vsnprintf below buffer out n (fmtOf ps) (argsOf ps) = .ok (ret, out', buffer') ∧ 0 ∈ out'

section Bound

variable {below : Nat → UInt8} {buffer out : List UInt8} {n : Nat} {ps : List Piece}

/-- The NUL at the end. -/
theorem vsnprintf_eq {o : Output} {buffer' : List UInt8} (room : o.outp < o.out.length)
    (loop : formatLoop below n ((fmtOf ps).length + 1) (fmtOf ps) (argsOf ps) buffer (written [] out) = .ok (o, buffer')) :
    vsnprintf below buffer out n (fmtOf ps) (argsOf ps) = .ok (toInt32 (o.ret % 2 ^ 32), o.out.set o.outp 0, buffer') := by
  have stored : o.write 0 = .ok { o with out := o.out.set o.outp 0 } := by
    simp [Output.write, checked, put_natCast, room]
  unfold vsnprintf
  change (formatLoop below n _ _ _ buffer (written [] out) >>= _) = _
  rw [loop, ok_bind]
  dsimp only
  rw [stored]
  rfl

/-- The loop of a run that returns. -/
theorem ends_of_run {r : Int × List UInt8 × List UInt8}
    (run : vsnprintf below buffer out n (fmtOf ps) (argsOf ps) = .ok r) :
    Ends below n ((fmtOf ps).length + 1) ps buffer (written [] out) := by
  obtain ⟨⟨o, buffer₁⟩, loop, rest⟩ := bind_eq_ok.1 run
  obtain ⟨o', stored, -⟩ := bind_eq_ok.1 rest
  refine ⟨o, buffer₁, loop, ?_⟩
  by_contra past
  rw [Past.write (Nat.not_lt.1 past)] at stored
  cases stored

theorem storesInside_ends : StoresInside below buffer out n ps ↔
    Ends below n ((fmtOf ps).length + 1) ps buffer (written [] out) := by
  constructor
  · rintro ⟨ret, out', buffer', run, -⟩
    exact ends_of_run run
  · rintro ⟨o, buffer₁, loop, room⟩
    exact ⟨_, _, _, vsnprintf_eq room loop, List.mem_set room 0⟩

/-- The bound holds where the output fits, and nowhere else. -/
theorem stores_inside_iff (size : buffer.length = bufferSize) (length : out.length = n) (positive : 1 ≤ n)
    (word : n < 2 ^ 32) : StoresInside below buffer out n ps ↔ OutputFits below n ps := by
  rw [storesInside_ends, ← length]
  exact ends_written (by simp) (by simpa using by omega) (by omega) size (Nat.lt_succ_self _)

/-- Two bytes for one character and a decimal digit. -/
theorem stores_inside_iff_two : StoresInside (fun _ => 0) (List.replicate 400 0) [1, 1] 2 [.conv none (.u 7)] ↔
    OutputFits (fun _ => 0) 2 [.conv none (.u 7)] :=
  stores_inside_iff (List.length_replicate) rfl (by decide) (by decide)

/-- Two characters of the format reach the end of two bytes, and the NUL is stored behind them. -/
theorem vsnprintf_exceeds : ¬∀ (below : Nat → UInt8) (buffer out : List UInt8) (n : Nat) (ps : List Piece),
    buffer.length = bufferSize → out.length = n → 1 ≤ n → n < 2 ^ 32 → StoresInside below buffer out n ps := by
  intro bounded
  obtain ⟨ret, out', buffer', run, -⟩ := bounded (fun _ => 0) (List.replicate 400 0) [1, 1] 2
    [.lit 97 (by decide), .lit 98 (by decide)] List.length_replicate rfl (by decide) (by decide)
  cases run

end Bound

/-! ## The text -/

/-- `vsnprintf` puts the expected text and a NUL into `out`, and returns the length of the text, whatever the memory
in front of the string of digits holds. -/
def PrintsRight (buffer out : List UInt8) (n : Nat) (ps : List Piece) : Prop :=
  ∀ below, ∃ buffer', vsnprintf below buffer out n (fmtOf ps) (argsOf ps) =
    .ok ((spelled ps).length, spelled ps ++ 0 :: out.drop ((spelled ps).length + 1), buffer')

/-- No `%d` is given the most negative `int`. -/
def NoLeast (ps : List Piece) : Prop := ∀ width w, .conv width (.d w) ∈ ps → toInt32 w.toNat ≠ -2 ^ 31

/-- The characters that `%c` is given are not NUL. -/
def CharsPlain (ps : List Piece) : Prop := ∀ width w, .conv width (.c w) ∈ ps → UInt8.ofNat (w.toNat % 256) ≠ 0

section Text

variable {below : Nat → UInt8} {buffer out : List UInt8} {b n : Nat} {p : Piece} {ps : List Piece} {c : UInt8}

/-- A numeral consists of digits. -/
theorem numeral_digit (below : Nat → UInt8) (base : 1 < b) (hex : b ≤ 16) (member : c ∈ numeral b n) : ∃ d < b, c = presentation below d := by
  induction n using Nat.strongRecOn with
  | ind n ih =>
    rw [← List.mem_reverse, reverse_numeral below base hex, List.mem_cons] at member
    rcases member with rfl | later
    · exact ⟨n % b, Nat.mod_lt n (by omega), by simp [Int.tmod]⟩
    · have quotient : (n : Int).tdiv b = (n / b : Nat) := by simp [Int.tdiv]
      by_cases last : n / b = 0
      · simp [quotient, last] at later
      · rw [quotient, if_neg (by exact_mod_cast last), List.mem_reverse] at later
        exact ih (n / b) (Nat.div_lt_self (by by_contra zero; simp [Nat.eq_zero_of_not_pos zero] at last) base) later

theorem numeral_plain (base : 1 < b) (hex : b ≤ 16) : 0 ∉ numeral b n := by
  intro member
  obtain ⟨d, small, digit⟩ := numeral_digit (fun _ => 0) base hex member
  have table : ∀ d < 16, presentation (fun _ => 0) (d : Nat) ≠ 0 := by decide
  exact table d (by omega) digit.symm

theorem spelled_cons : spelled (p :: ps) = p.spelled ++ spelled ps := List.flatMap_cons

/-- But for the most negative `int`, the buffer gets what is expected. -/
theorem rep_spelled {k : Conv} (other : ∀ w, k = .d w → toInt32 w.toNat ≠ -2 ^ 31) : k.rep below = k.spelled := by
  cases k with
  | d w => exact if_neg (other w rfl)
  | u w | x w | p v | s str _ | c w => rfl

/-- The digits that stand for the most negative `int` are as many as its own. -/
theorem length_rep {k : Conv} : (k.rep below).length = k.spelled.length := by
  by_cases least : ∃ w, k = .d w ∧ toInt32 w.toNat = -2 ^ 31
  · obtain ⟨w, rfl, least⟩ := least
    have atMost : (Nat.toDigits 10 2147483648).length ≤ 10 := (Nat.length_toDigits_le_iff (by decide) (by decide)).2 (by decide)
    have atLeast : ¬(Nat.toDigits 10 2147483648).length ≤ 9 :=
      fun short => absurd ((Nat.length_toDigits_le_iff (by decide) (by decide)).1 short) (by decide)
    simp [Conv.rep, Conv.spelled, signed, decimalInt, least, minDigits, numeral]
    omega
  · rw [rep_spelled (fun w same value => least ⟨w, same, value⟩)]

theorem spelled_plain {k : Conv} (chars : ∀ w, k = .c w → UInt8.ofNat (w.toNat % 256) ≠ 0) : 0 ∉ k.spelled := by
  have decimal (n : Nat) : 0 ∉ numeral 10 n := numeral_plain (by decide) (by decide)
  have hex (n : Nat) : 0 ∉ numeral 16 n := numeral_plain (by decide) (by decide)
  cases k with
  | d w =>
    simp only [Conv.spelled, decimalInt]
    split <;> simp [decimal]
  | u w => exact decimal w.toNat
  | x w => exact hex w.toNat
  | p v => simp [Conv.spelled, hex]
  | s str terminated => exact terminated
  | c w => simpa [Conv.spelled] using (chars w rfl).symm

/-- Nor is there a NUL in the buffer where there is none in front of the digits. -/
theorem rep_plain {k : Conv} (chars : ∀ w, k = .c w → UInt8.ofNat (w.toNat % 256) ≠ 0) (front : ∀ i, below i ≠ 0) :
    0 ∉ k.rep below := by
  by_cases least : ∃ w, k = .d w ∧ toInt32 w.toNat = -2 ^ 31
  · obtain ⟨w, rfl, least⟩ := least
    simp [Conv.rep, signed, least, minDigits, fun i => (front i).symm]
  · rw [rep_spelled (fun w same value => least ⟨w, same, value⟩)]
    exact spelled_plain chars

theorem printed_conv {width : Option Width} {k : Conv} (plain : 0 ∉ k.rep below) :
    (Piece.conv width k).printed below = padded (widthOf width) (k.rep below) := by
  refine List.takeWhile_eq_self_iff.2 fun c member => ?_
  have other : c ≠ 0 := by
    rintro rfl
    simp [padded, plain] at member
  simpa using other

theorem CharsPlain.tail (chars : CharsPlain (p :: ps)) : CharsPlain ps :=
  fun width w member => chars width w (List.mem_cons_of_mem p member)

theorem CharsPlain.head {width : Option Width} {k : Conv} (chars : CharsPlain (.conv width k :: ps)) (w : UInt32)
    (same : k = .c w) : UInt8.ofNat (w.toNat % 256) ≠ 0 :=
  chars width w (same ▸ List.mem_cons_self)

theorem allFit_spelled (fits : ∀ p ∈ ps, p.spelled.length ≤ 399) : AllFit below ps := by
  intro p member
  cases p with
  | lit c plain => exact Nat.zero_le _
  | conv width k =>
    have short := fits _ member
    simpa [Piece.spelled, Piece.inBuffer, padded, length_rep] using short

theorem printed_spelled (chars : CharsPlain ps) (other : NoLeast ps) : printed below ps = spelled ps := by
  induction ps with
  | nil => rfl
  | cons p ps ih =>
    rw [printed_cons, spelled_cons, ih chars.tail fun width w member => other width w (List.mem_cons_of_mem p member)]
    cases p with
    | lit c plain => rfl
    | conv width k =>
      have same : k.rep below = k.spelled := rep_spelled fun w eq => other width w (eq ▸ List.mem_cons_self)
      rw [printed_conv (same ▸ spelled_plain chars.head), same]
      rfl

/-- The text has the expected length even where it is not the expected one. -/
theorem length_printed (chars : CharsPlain ps) (front : ∀ i, below i ≠ 0) :
    (printed below ps).length = (spelled ps).length := by
  induction ps with
  | nil => rfl
  | cons p ps ih =>
    rw [printed_cons, spelled_cons, List.length_append, List.length_append, ih chars.tail]
    cases p with
    | lit c plain => rfl
    | conv width k => simp [printed_conv (rep_plain chars.head front), Piece.spelled, padded, length_rep]

/-- Letters in front of the digits show themselves. -/
theorem noLeast_of_printed (chars : CharsPlain ps) (same : printed (fun _ => 97) ps = spelled ps) : NoLeast ps := by
  have letters (i : Nat) : (fun _ : Nat => (97 : UInt8)) i ≠ 0 := (by decide : (97 : UInt8) ≠ 0)
  induction ps with
  | nil => exact fun width w member => absurd member List.not_mem_nil
  | cons p ps ih =>
    rw [printed_cons, spelled_cons] at same
    obtain ⟨-, later⟩ := List.append_inj' same (length_printed chars.tail letters)
    rw [later, List.append_cancel_right_eq] at same
    intro width w member
    rcases List.mem_cons.1 member with rfl | behind
    · intro least
      rw [printed_conv (rep_plain chars.head letters), Piece.spelled, padded, padded, length_rep,
        List.append_cancel_left_eq, Conv.rep, Conv.spelled, signed, if_pos least, decimalInt, if_pos (by omega)] at same
      have first : (97 : UInt8) ∈ numeral 10 (toInt32 w.toNat).natAbs := by
        rw [← (List.cons.inj same).2]
        exact List.mem_cons_self
      obtain ⟨d, small, digit⟩ := numeral_digit (fun _ => 0) (by decide) (by decide) first
      have table : ∀ d < 10, (97 : UInt8) ≠ presentation (fun _ => 0) (d : Nat) := by decide
      exact table d small digit
    · exact ih chars.tail later width w behind

/-- A format for which there is room is printed whole. -/
theorem vsnprintf_room (below : Nat → UInt8) (n : Nat) (out : List UInt8) (size : buffer.length = bufferSize) (fits : AllFit below ps)
    (room : (printed below ps).length < n) (word : n < 2 ^ 32) (space : (printed below ps).length < out.length) :
    ∃ buffer', buffer'.length = bufferSize ∧ vsnprintf below buffer out n (fmtOf ps) (argsOf ps) =
      .ok (toInt32 ((printed below ps).length % 2 ^ 32),
        printed below ps ++ 0 :: out.drop ((printed below ps).length + 1), buffer') := by
  obtain ⟨buffer', size', loop⟩ : ∃ buffer', buffer'.length = bufferSize ∧
      formatLoop below n ((fmtOf ps).length + 1) (fmtOf ps) (argsOf ps) buffer (written [] out) =
        .ok (written ([] ++ printed below ps) (out.drop (printed below ps).length), buffer') :=
    formatLoop_room size fits (by simpa using room) word (by omega) (Nat.lt_succ_self _)
  refine ⟨buffer', size', ?_⟩
  have stored : (printed below ps ++ out.drop (printed below ps).length).set (printed below ps).length 0 =
      printed below ps ++ 0 :: out.drop ((printed below ps).length + 1) := by
    rw [List.drop_eq_getElem_cons space, List.set_append_right _ _ (Nat.le_refl _), Nat.sub_self, List.set_cons_zero]
  have run := vsnprintf_eq (by simp [written]; omega) loop
  simp only [written, List.nil_append] at run
  rw [run, stored]

theorem PrintsRight.exact (right : PrintsRight buffer out n ps) (size : buffer.length = bufferSize)
    (fits : ∀ p ∈ ps, p.spelled.length ≤ 399) (chars : CharsPlain ps) (room : (spelled ps).length < n) (word : n < 2 ^ 32)
    (space : (spelled ps).length < out.length) : NoLeast ps ∧ (spelled ps).length < 2 ^ 31 := by
  have length : (printed (fun _ => 97) ps).length = (spelled ps).length :=
    length_printed chars fun _ => (by decide : (97 : UInt8) ≠ 0)
  obtain ⟨buffer₁, expected⟩ := right fun _ => 97
  obtain ⟨buffer₂, -, run⟩ := vsnprintf_room (fun _ => 97) n out size (allFit_spelled fits) (by omega) word (by omega)
  rw [run] at expected
  simp only [Except.ok.injEq, Prod.mk.injEq, length] at expected
  obtain ⟨ret, text, -⟩ := expected
  refine ⟨noLeast_of_printed chars (List.append_inj text length).1, ?_⟩
  rw [Nat.mod_eq_of_lt (by omega)] at ret
  unfold toInt32 at ret
  split at ret <;> omega

/-- The expected text is printed. -/
theorem vsnprintf_spelled (below : Nat → UInt8) (n : Nat) (out : List UInt8) (size : buffer.length = bufferSize)
    (fits : ∀ p ∈ ps, p.spelled.length ≤ 399) (chars : CharsPlain ps) (other : NoLeast ps) (room : (spelled ps).length < n)
    (word : n < 2 ^ 32) (short : (spelled ps).length < 2 ^ 31) (space : (spelled ps).length < out.length) :
    ∃ buffer', buffer'.length = bufferSize ∧ vsnprintf below buffer out n (fmtOf ps) (argsOf ps) =
      .ok ((spelled ps).length, spelled ps ++ 0 :: out.drop ((spelled ps).length + 1), buffer') := by
  have text : printed below ps = spelled ps := printed_spelled chars other
  obtain ⟨buffer', size', run⟩ := vsnprintf_room below n out size (allFit_spelled fits) (text ▸ room) word (text ▸ space)
  refine ⟨buffer', size', ?_⟩
  rw [run, text, Nat.mod_eq_of_lt (by omega)]
  unfold toInt32
  rw [if_pos short]

/-- The text is right, and its length is returned, where no `%d` is given the most negative `int` and the length is an
`int`. -/
theorem prints_right_iff (size : buffer.length = bufferSize) (fits : ∀ p ∈ ps, p.spelled.length ≤ 399)
    (chars : CharsPlain ps) (room : (spelled ps).length < n) (word : n < 2 ^ 32) (space : (spelled ps).length < out.length) :
    PrintsRight buffer out n ps ↔ NoLeast ps ∧ (spelled ps).length < 2 ^ 31 := by
  constructor
  · exact fun right => right.exact size fits chars room word space
  · rintro ⟨other, short⟩ below
    obtain ⟨buffer', -, run⟩ := vsnprintf_spelled below n out size fits chars other room word short space
    exact ⟨buffer', run⟩

theorem prints_right_iff_width : PrintsRight (List.replicate 400 0) (List.replicate 8 1) 8
      [.lit 61 (by decide), .conv (some ⟨[52], List.forall_mem_singleton.2 rfl⟩) (.d 0xfffffff9)] ↔
    NoLeast [.lit 61 (by decide), .conv (some ⟨[52], List.forall_mem_singleton.2 rfl⟩) (.d 0xfffffff9)] ∧
      (spelled [.lit 61 (by decide), .conv (some ⟨[52], List.forall_mem_singleton.2 rfl⟩) (.d 0xfffffff9)]).length < 2 ^ 31 :=
  prints_right_iff List.length_replicate (by decide) (by intro width w member; simp at member) (by decide) (by decide) (by decide)

/-- `%d` of the most negative `int`. -/
theorem vsnprintf_least : ¬∀ (buffer out : List UInt8) (n : Nat) (ps : List Piece), buffer.length = bufferSize →
    (∀ p ∈ ps, p.spelled.length ≤ 399) → CharsPlain ps → (spelled ps).length < n → n < 2 ^ 32 →
    (spelled ps).length < out.length → PrintsRight buffer out n ps := by
  intro always
  have eleven : (Conv.d 0x80000000).spelled.length = 11 := (length_rep : (Conv.rep (fun _ => 0) _).length = _).symm
  have length : (spelled [.conv none (.d 0x80000000)]).length = 11 := by
    simp [spelled, Piece.spelled, padded, eleven, widthOf]
  have fits : ∀ p ∈ [Piece.conv none (.d 0x80000000)], p.spelled.length ≤ 399 := by
    simp [Piece.spelled, padded, eleven, widthOf]
  have chars : CharsPlain [.conv none (.d 0x80000000)] := by
    intro width w member
    simp at member
  have right := always (List.replicate 400 0) (List.replicate 20 0) 20 [.conv none (.d 0x80000000)]
    List.length_replicate fits chars (by omega) (by decide) (by simp [length])
  have other := right.exact List.length_replicate fits chars (by omega) (by decide) (by simp [length])
  exact other.1 none 0x80000000 List.mem_cons_self (by decide)

end Text

/-! ## A text that is cut off -/

section Cut

variable {below : Nat → UInt8} {n fuel : Nat} {buffer done tail cs front more out : List UInt8} {ps : List Piece} {c : UInt8}
  {plain : c ≠ 0 ∧ c ≠ 37} {str : CStr} {terminated : 0 ∉ str} {o : Output}

/-- Text that leaves at most the last place is copied up to there. -/
theorem copyLoop_last (inside : 0 ∉ cs) (room : done.length < n) (reach : n ≤ done.length + cs.length + 1)
    (word : n < 2 ^ 32) (space : n ≤ done.length + tail.length) (enough : cs.length < fuel) :
    ∃ a ret, copyLoop n (front ++ (cs ++ 0 :: more)) fuel front.length (written done tail) =
      .ok ⟨(done ++ cs).take (n - 1) ++ a :: tail.drop (n - done.length), n - 1, ret⟩ := by
  rcases Nat.lt_or_ge (done.length + cs.length) n with short | long
  · obtain ⟨a, rest, behind⟩ := List.exists_cons_of_length_pos (show 0 < (tail.drop cs.length).length by simp; omega)
    have last : done.length + cs.length = n - 1 := by omega
    have whole : (done ++ cs).take (n - 1) = done ++ cs := List.take_of_length_le (by simp [last])
    have drop : tail.drop (n - done.length) = rest := by
      have one : n - done.length = cs.length + 1 := by omega
      rw [one, ← List.drop_drop, behind]
      rfl
    refine ⟨a, n - 1, ?_⟩
    rw [copyLoop_room inside short word (by omega) enough, behind, whole, drop]
    simp [written, last]
  · obtain ⟨a, last⟩ : ∃ a, (done ++ cs).take n = (done ++ cs).take (n - 1) ++ [a] := by
      have index : n - 1 < (done ++ cs).length := by
        rw [List.length_append]
        omega
      refine ⟨(done ++ cs)[n - 1], ?_⟩
      rw [List.take_append_getElem index, Nat.sub_add_cancel (by omega)]
    refine ⟨a, n, ?_⟩
    rw [copyLoop_cut inside (by simpa using space) room long word enough, last]
    simp

/-- A character of the format in the last place ends the format, or the format ends behind it. -/
theorem formatLoop_last (below : Nat → UInt8) (buffer done tail : List UInt8) (a : UInt8) (ret : Nat) (enough : 1 < fuel)
    (last : done.length = n - 1) (positive : 0 < n) :
    ∃ ret', formatLoop below n fuel (fmtOf [.lit c plain]) (argsOf [.lit c plain]) buffer
      ⟨done ++ a :: tail, n - 1, ret⟩ = .ok (⟨done ++ c :: tail, n, ret'⟩, buffer) := by
  obtain ⟨fuel, rfl⟩ : ∃ k, fuel = k + 2 := ⟨fuel - 2, by omega⟩
  have stored : (⟨done ++ a :: tail, n - 1, ret⟩ : Output).write c = .ok ⟨done ++ c :: tail, n - 1, ret⟩ := by
    simp [Output.write, checked, put_at last]
  have next : n - 1 + 1 = n := by omega
  refine ⟨ret + 1, ?_⟩
  rw [formatLoop_lit, stored]
  simp only [ok_bind, Output.next, next]
  split
  · rfl
  · rfl

/-- A string that reaches the end, or the place before it, and a character behind it: the string is cut off, the character
takes the last place, and the NUL goes behind it. -/
theorem vsnprintf_cut (size : buffer.length = bufferSize) (fits : AllFit below ps) (short : str.length ≤ 399)
    (room : (printed below ps).length < n) (reach : n ≤ (printed below ps).length + str.length + 1) (word : n < 2 ^ 32)
    (space : n < out.length) : ∃ ret buffer',
      vsnprintf below buffer out n (fmtOf (ps ++ [.conv none (.s str terminated), .lit c plain]))
          (argsOf (ps ++ [.conv none (.s str terminated), .lit c plain])) =
        .ok (ret, (printed below ps ++ str).take (n - 1) ++ c :: 0 :: out.drop (n + 1), buffer') := by
  have text : (Piece.conv none (.s str terminated)).printed below = str := by
    rw [printed_conv (k := .s str terminated) terminated]
    simp [padded, widthOf, Conv.rep]
  have whole : ((Piece.conv none (.s str terminated)).inBuffer below).length ≤ 399 := by
    simpa [Piece.inBuffer, padded, widthOf, Conv.rep] using short
  obtain ⟨fuel₁, buffer₁, enough₁, size₁, first⟩ : ∃ fuel' buffer', _ < fuel' ∧ buffer'.length = bufferSize ∧
      formatLoop below n _ _ _ buffer (written [] out) = formatLoop below n fuel' _ _ buffer'
        (written ([] ++ printed below ps) (out.drop (printed below ps).length)) :=
    formatLoop_append [.conv none (.s str terminated), .lit c plain] size fits (by simpa using room) word (by omega)
      (Nat.lt_succ_self _)
  obtain ⟨fuel, rfl⟩ : ∃ k, fuel₁ = k + 1 := ⟨fuel₁ - 1, by omega⟩
  obtain ⟨front, more, buffer₂, -, -, second⟩ := formatLoop_fits n [.lit c plain]
    (written (printed below ps) (out.drop (printed below ps).length)) size₁ whole
  rw [text] at second
  obtain ⟨a, ret, copied⟩ : ∃ a ret, copyLoop n (front ++ (str ++ 0 :: more)) bufferSize front.length
      (written (printed below ps) (out.drop (printed below ps).length)) = .ok ⟨_, n - 1, ret⟩ :=
    copyLoop_last terminated room reach word (by simp; omega) (by unfold bufferSize; omega)
  have length : ((printed below ps ++ str).take (n - 1)).length = n - 1 := by
    simp
    omega
  obtain ⟨ret', ended⟩ : ∃ ret', formatLoop below n fuel (fmtOf [.lit c plain]) (argsOf [.lit c plain]) buffer₂
      ⟨_ ++ a :: _, n - 1, ret⟩ = .ok (⟨_ ++ c :: _, n, ret'⟩, buffer₂) :=
    formatLoop_last below buffer₂ _ ((out.drop (printed below ps).length).drop (n - (printed below ps).length)) a ret
      (by simp [fmtOf, Piece.fmt] at enough₁; omega) length (by omega)
  have loop := first.trans ((second fuel).trans (by rw [copied, ok_bind, ended]))
  have place : (out.drop (printed below ps).length).drop (n - (printed below ps).length) = out[n] :: out.drop (n + 1) := by
    rw [List.drop_drop, Nat.add_sub_cancel' (Nat.le_of_lt room)]
    exact List.drop_eq_getElem_cons space
  refine ⟨toInt32 (ret' % 2 ^ 32), buffer₂, (vsnprintf_eq ?_ loop).trans ?_⟩
  · simp [place, length]
    omega
  · dsimp only
    rw [place]
    have one : n - (n - 1) = 1 := by omega
    rw [List.set_append_right _ _ (by rw [length]; omega), length, one]
    rfl

end Cut

end OsLab.Klib
