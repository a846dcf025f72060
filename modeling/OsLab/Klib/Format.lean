import OsLab.Klib.Stdio
import OsLab.Lib.Decimal
import Mathlib.Data.List.Induction

/-!
# What a format prints

A format is put together from pieces: characters and conversions with their arguments. `Conv.rep` is what a conversion
puts into the buffer before it is padded. The most negative `int` is its own negation, so that its digits
are taken from the memory in front of the string of digits.
-/

namespace OsLab.Klib

open OsLab.Memory OsLab.Buffer OsLab.Decimal
open OsLab.Kernel (Halt)

/-- The numeral of a number in base `b`, in small letters. -/
def numeral (b n : Nat) : List UInt8 := (Nat.toDigits b n).map fun c => UInt8.ofNat c.toNat

/-- The digits of a width, behind its zero. -/
structure Width where
  digits : List UInt8
  isDigit : ∀ c ∈ digits, isDigit c = true

/-- A conversion with its argument. -/
inductive Conv where
  | d (w : UInt32)
  | u (w : UInt32)
  | x (w : UInt32)
  | p (v : Nat)
  | s (str : CStr) (terminated : 0 ∉ str)
  | c (w : UInt32)

/-- A piece of a format. -/
inductive Piece where
  | lit (c : UInt8) (plain : c ≠ 0 ∧ c ≠ 37)
  | conv (width : Option Width) (k : Conv)

/-- The letter of a conversion. -/
def Conv.letter : Conv → UInt8
  | .d _ => 100
  | .u _ => 117
  | .x _ => 120
  | .p _ => 112
  | .s _ _ => 115
  | .c _ => 99

def Conv.arg : Conv → Arg
  | .d w | .u w | .x w | .c w => .word w
  | .p v => .pointer v
  | .s str _ => .str str

/-- The characters of a piece. -/
def Piece.fmt : Piece → CStr
  | .lit c _ => [c]
  | .conv width k => 37 :: (width.elim [] fun w => 48 :: w.digits) ++ [k.letter]

def Piece.args : Piece → List Arg
  | .lit _ _ => []
  | .conv _ k => [k.arg]

/-- The format of some pieces, and its arguments. -/
def fmtOf (ps : List Piece) : CStr := ps.flatMap Piece.fmt

def argsOf (ps : List Piece) : List Arg := ps.flatMap Piece.args

/-! ## What is printed -/

/-- What stands for the digits of the most negative `int`. -/
def minDigits (below : Nat → UInt8) : List UInt8 := [2, 1, 4, 7, 4, 8, 3, 6, 4, 8].map below

/-- What `%d` puts into the buffer. -/
def signed (below : Nat → UInt8) (v : Int) : List UInt8 :=
  if v = -2 ^ 31 then 45 :: minDigits below
  else if v < 0 then 45 :: numeral 10 v.natAbs
  else numeral 10 v.natAbs

/-- What a conversion puts into the buffer. -/
def Conv.rep (below : Nat → UInt8) : Conv → List UInt8
  | .d w => signed below (toInt32 w.toNat)
  | .u w => numeral 10 w.toNat
  | .x w => numeral 16 w.toNat
  | .p v => 48 :: 120 :: numeral 16 v
  | .s str _ => str
  | .c w => [UInt8.ofNat (w.toNat % 256)]

/-- The number of characters that a width asks for. -/
def widthOf (width : Option Width) : Nat := width.elim 0 fun w => digitsValue w.digits

/-- Zeros on the left, up to a width. -/
def padded (width : Nat) (cs : List UInt8) : List UInt8 := List.replicate (width - cs.length) 48 ++ cs

/-- What a piece puts into the buffer. -/
def Piece.inBuffer (below : Nat → UInt8) : Piece → List UInt8
  | .lit _ _ => []
  | .conv width k => padded (widthOf width) (k.rep below)

/-- Each conversion fits into its buffer with the NUL. -/
def AllFit (below : Nat → UInt8) (ps : List Piece) : Prop := ∀ p ∈ ps, (p.inBuffer below).length ≤ 399

/-- What a piece prints: a NUL ends the copy of the buffer. -/
def Piece.printed (below : Nat → UInt8) : Piece → List UInt8
  | .lit c _ => [c]
  | .conv width k => (padded (widthOf width) (k.rep below)).takeWhile (· ≠ 0)

/-- What a format prints. -/
def printed (below : Nat → UInt8) (ps : List Piece) : List UInt8 := ps.flatMap (Piece.printed below)

/-! ## Numerals -/

section Numerals

variable {b n : Nat} {below : Nat → UInt8}

theorem presentation_digit {d : Nat} (small : d < 16) :
    presentation below d = UInt8.ofNat (Nat.digitChar d).toNat := by
  have table : ∀ d < 16, charAt (text "0123456789abcdef") d = UInt8.ofNat (Nat.digitChar d).toNat := by decide
  unfold presentation
  rw [if_neg (by omega), Int.toNat_natCast, table d small]

/-- The digits of a number from the last one on. -/
theorem reverse_numeral (below : Nat → UInt8) (base : 1 < b) (hex : b ≤ 16) : (numeral b n).reverse =
    presentation below ((n : Int).tmod b) :: if (n : Int).tdiv b = 0 then [] else (numeral b (n / b)).reverse := by
  have rest : (n : Int).tmod b = (n % b : Nat) := by simp [Int.tmod]
  have quotient : (n : Int).tdiv b = (n / b : Nat) := by simp [Int.tdiv]
  have small := Nat.mod_lt n (by omega : 0 < b)
  rw [rest, quotient, presentation_digit (by omega)]
  unfold numeral
  by_cases last : n < b
  · rw [Nat.toDigits_of_lt_base last]
    simp [Nat.div_eq_of_lt last, Nat.mod_eq_of_lt last]
  · have more : n / b ≠ 0 := by
      rw [Nat.div_ne_zero_iff]
      omega
    rw [Nat.toDigits_of_base_le base (by omega), if_neg (by exact_mod_cast more)]
    simp

end Numerals

/-! ## The buffer of a conversion -/

/-- The end of the buffer holds `cs` and a NUL. -/
structure Shows (k : Conversion) (cs : List UInt8) : Prop where
  place : ∃ front, k.buffer = front ++ (cs ++ [0]) ∧ k.cp = front.length
  size : k.buffer.length = bufferSize
  width : k.outWidth = cs.length

section Buffer

variable {below : Nat → UInt8} {k k' : Conversion} {cs ds : List UInt8} {c : UInt8} {fuel b : Nat}

theorem Shows.cp_eq (h : Shows k cs) : k.cp + cs.length = 399 := by
  obtain ⟨front, buffer, cp⟩ := h.place
  have size := h.size
  rw [buffer] at size
  simp [bufferSize] at size
  omega

/-- There is room for another character. -/
theorem Shows.push (h : Shows k cs) (room : cs.length < 399) : ∃ k', k.push c = .ok k' ∧ Shows k' (c :: cs) := by
  obtain ⟨front, buffer, cp⟩ := h.place
  have length := h.cp_eq
  obtain ⟨start, last, rfl⟩ : ∃ start last, front = start ++ [last] := by
    rcases List.eq_nil_or_concat front with rfl | ⟨start, last, rfl⟩
    · simp at cp
      omega
    · exact ⟨start, last, List.concat_eq_append⟩
  have place : k.cp - 1 = start.length := by simp [cp]
  have stored : put k.buffer (k.cp - 1) c = some (start ++ c :: (cs ++ [0])) := by
    rw [buffer, place]
    simpa using put_at rfl
  have size := put_length stored
  refine ⟨⟨start ++ c :: (cs ++ [0]), k.cp - 1, k.outWidth + 1⟩, ?_, ⟨start, rfl, place⟩, ?_, ?_⟩
  · simp [Conversion.push, stored, checked]
  · exact size.trans h.size
  · simp [h.width]

/-- The buffer is full. -/
theorem Shows.push_full (h : Shows k cs) (full : cs.length = 399) : k.push c = .error .outside := by
  have length := h.cp_eq
  have before : k.cp - 1 < 0 := by omega
  simp [Conversion.push, put_negative before, checked]

/-- Characters are put in from the last to the first. -/
theorem Shows.pushAll (ds : List UInt8) (h : Shows k cs) (room : ds.length + cs.length ≤ 399) :
    ∃ k', ds.reverse.foldlM Conversion.push k = .ok k' ∧ Shows k' (ds ++ cs) := by
  induction ds using List.reverseRecOn generalizing k cs with
  | nil => exact ⟨k, rfl, h⟩
  | append_singleton ds d ih =>
    simp only [List.length_append, List.length_singleton] at room
    obtain ⟨k₁, push, shows⟩ := h.push (c := d) (by omega)
    obtain ⟨k', rest, shows'⟩ := ih shows (by simp; omega)
    refine ⟨k', ?_, by simpa using shows'⟩
    rw [List.reverse_append, List.reverse_singleton, List.singleton_append, List.foldlM_cons, push]
    exact rest

theorem Shows.pushAll_full (h : Shows k cs) (full : 399 < ds.length + cs.length) (fits : cs.length ≤ 399) :
    ds.reverse.foldlM Conversion.push k = .error .outside := by
  induction ds using List.reverseRecOn generalizing k cs with
  | nil =>
    simp at full
    omega
  | append_singleton ds d ih =>
    simp only [List.length_append, List.length_singleton] at full
    rw [List.reverse_append, List.reverse_singleton, List.singleton_append, List.foldlM_cons]
    rcases Nat.lt_or_ge cs.length 399 with room | none
    · obtain ⟨k₁, push, shows⟩ := h.push (c := d) room
      rw [push]
      exact ih shows (by simp; omega) (by simp; omega)
    · rw [h.push_full (by omega)]
      rfl

theorem push_cp (run : k.push c = .ok k') : 0 ≤ k'.cp ∧ k'.cp = k.cp - 1 ∧ k'.outWidth = k.outWidth + 1 := by
  unfold Conversion.push at run
  by_cases before : k.cp - 1 < 0
  · simp [put_negative before, checked] at run
  · obtain ⟨buffer, -, made⟩ := bind_eq_ok.1 run
    cases made
    exact ⟨Int.not_lt.1 before, rfl, rfl⟩

/-- The digits of a number are put in. -/
theorem pushDigits_eq {n : Nat} (base : 1 < b) (hex : b ≤ 16) (inside : 0 ≤ k.cp) (enough : k.cp < fuel) :
    pushDigits below b fuel k n = (numeral b n).reverse.foldlM Conversion.push k := by
  induction fuel generalizing k n with
  | zero => omega
  | succ fuel ih =>
    rw [pushDigits, reverse_numeral below base hex, List.foldlM_cons]
    cases push : k.push (presentation below ((n : Int).tmod b)) with
    | error e => rfl
    | ok k' =>
      obtain ⟨inside', moved, -⟩ := push_cp push
      have quotient : (n : Int).tdiv b = (n / b : Nat) := by simp [Int.tdiv]
      rw [ok_bind, ok_bind]
      split
      · rfl
      · rw [quotient]
        exact ih inside' (by omega)

theorem pushDigits_more {base var : Int} (more : var.tdiv base ≠ 0) : pushDigits below base (fuel + 1) k var =
    k.push (presentation below (var.tmod base)) >>= fun k => pushDigits below base fuel k (var.tdiv base) := by
  simp [pushDigits, more]

/-- The most negative number. -/
theorem pushDigits_min : pushDigits below 10 bufferSize k (-2 ^ 31) =
    (minDigits below).reverse.foldlM Conversion.push k := by
  have digits : (minDigits below).reverse = [8, 4, 6, 3, 8, 4, 7, 4, 1, 2].map below := rfl
  have last : ∀ k : Conversion, pushDigits below 10 391 k (-2) = k.push (below 2) := fun k => bind_pure _
  rw [digits, bufferSize]
  simp [pushDigits_more, last, presentation]

/-- Padding. -/
theorem padLoop_eq {width : Nat} (inside : 0 ≤ k.cp) (enough : k.cp < fuel) :
    padLoop c width fuel k = (List.replicate (width - k.outWidth) c).foldlM Conversion.push k := by
  induction fuel generalizing k with
  | zero => omega
  | succ fuel ih =>
    rw [padLoop]
    by_cases more : k.outWidth < width
    · obtain ⟨n, left⟩ : ∃ n, width - k.outWidth = n + 1 := ⟨width - k.outWidth - 1, by omega⟩
      rw [if_pos more, left, List.replicate_succ, List.foldlM_cons]
      cases push : k.push c with
      | error e => rfl
      | ok k' =>
        obtain ⟨inside', moved, width'⟩ := push_cp push
        have next : width - k'.outWidth = n := by omega
        rw [ok_bind, ok_bind, ← next]
        exact ih inside' (by omega)
    · rw [if_neg more, Nat.sub_eq_zero_of_le (by omega)]
      rfl

end Buffer

/-! ## One conversion -/

section Conversion

variable {below : Nat → UInt8} {k : Conversion} {args : List Arg}

theorem negate_min : negate (-2 ^ 31) = -2 ^ 31 := by decide

theorem negate_negative {v : Int} (fits : FitsInt32 v) (negative : v < 0) (other : v ≠ -2 ^ 31) :
    negate v = v.natAbs := by
  unfold FitsInt32 at fits
  have opposite : FitsInt32 (-v) := by
    unfold FitsInt32
    omega
  rw [negate, toInt32_ofInt32 opposite]
  omega

/-- What `%d` puts in. -/
theorem pushSigned_eq {v : Int} (fits : FitsInt32 v) (inside : 0 ≤ k.cp) (enough : k.cp < bufferSize) :
    (do
      let k ← pushDigits below 10 bufferSize k (if v < 0 then negate v else v)
      if v < 0 then k.push 45 else .ok k) = (signed below v).reverse.foldlM Conversion.push k := by
  unfold signed
  by_cases negative : v < 0
  · simp only [if_pos negative]
    by_cases least : v = -2 ^ 31
    · rw [if_pos least, least, negate_min, pushDigits_min]
      simp
    · rw [if_neg least, negate_negative fits negative least]
      have digits : pushDigits below (10 : Nat) bufferSize k v.natAbs = _ :=
      pushDigits_eq (by omega) (by omega) inside enough
      rw [show ((10 : Nat) : Int) = 10 from rfl] at digits
      rw [digits]
      simp
  · have least : v ≠ -2 ^ 31 := by omega
    have value : v = (v.natAbs : Int) := by omega
    simp only [if_neg negative, if_neg least]
    have digits : pushDigits below (10 : Nat) bufferSize k v.natAbs = _ :=
      pushDigits_eq (by omega) (by omega) inside enough
    rw [show ((10 : Nat) : Int) = 10 from rfl, ← value] at digits
    rw [digits]
    exact bind_pure _

/-- Each conversion takes its argument and puts its characters into the buffer. -/
theorem convert_eq (c : Conv) (inside : 0 ≤ k.cp) (enough : k.cp < bufferSize) :
    convert below c.letter (c.arg :: args) k =
      (c.rep below).reverse.foldlM Conversion.push k >>= fun k => .ok (k, args) := by
  have decimal (n : Nat) : pushDigits below 10 bufferSize k n = (numeral 10 n).reverse.foldlM Conversion.push k :=
    pushDigits_eq (b := 10) (by omega) (by omega) inside enough
  have hex (n : Nat) : pushDigits below 16 bufferSize k n = (numeral 16 n).reverse.foldlM Conversion.push k :=
    pushDigits_eq (b := 16) (by omega) (by omega) inside enough
  cases c with
  | d w =>
    have fits : FitsInt32 (toInt32 w.toNat) := fits_toInt32 w.toNat_lt
    rw [Conv.rep, ← pushSigned_eq fits inside enough]
    simp only [convert, Conv.letter, Conv.arg, wordArg, if_true, ok_bind, bind_assoc]
    refine bind_congr fun k => ?_
    split <;> rfl
  | u w => simp [convert, Conv.letter, Conv.arg, wordArg, Conv.rep, decimal]
  | x w => simp [convert, Conv.letter, Conv.arg, wordArg, Conv.rep, hex]
  | p v => simp [convert, Conv.letter, Conv.arg, pointerArg, Conv.rep, hex]
  | s str _ => simp [convert, Conv.letter, Conv.arg, strArg, Conv.rep]
  | c w => simp [convert, Conv.letter, Conv.arg, wordArg, Conv.rep]

theorem isdigit_eq (c : UInt8) : isdigit c = isDigit c := by
  unfold isdigit isDigit charVal
  apply decide_eq_decide.2
  have := c.toNat_lt
  split <;> omega

theorem widthLoop_eq {ds : CStr} {c : UInt8} {acc : Nat} (rest : CStr) (digits : ∀ c ∈ ds, isDigit c = true)
    (stop : isDigit c = false) (start : acc < 2 ^ 31) : widthLoop (ds ++ c :: rest) acc =
      if ds.foldl (fun acc c => 10 * acc + (c.toNat - 48)) acc < 2 ^ 31 then
        .ok (ds.foldl (fun acc c => 10 * acc + (c.toNat - 48)) acc, c :: rest)
      else .error .overflow := by
  induction ds generalizing acc with
  | nil =>
    rw [List.foldl_nil, if_pos start]
    simp [widthLoop, isdigit_eq, stop]
  | cons d ds ih =>
    have first := digits d List.mem_cons_self
    have same : acc * 10 + (d.toNat - 48) = 10 * acc + (d.toNat - 48) := by omega
    rw [List.cons_append, widthLoop, isdigit_eq, if_pos first, List.foldl_cons, same]
    by_cases small : 10 * acc + (d.toNat - 48) < 2 ^ 31
    · rw [if_pos small]
      exact ih (fun c member => digits c (List.mem_cons_of_mem d member)) small
    · have more := foldl_digits_le ds (10 * acc + (d.toNat - 48))
      rw [if_neg small, if_neg (by omega)]

theorem letter_spec (c : Conv) : isDigit c.letter = false ∧ islower c.letter = true ∧ c.letter ≠ 0 := by
  cases c <;> exact ⟨rfl, rfl, by simp [Conv.letter]⟩

/-- The width in front of a letter. -/
theorem readWidth_eq (width : Option Width) (c : Conv) (rest : CStr) :
    readWidth ((width.elim [] fun w => 48 :: w.digits) ++ c.letter :: rest) =
      if widthOf width < 2 ^ 31 then .ok (if width.isSome then 48 else 0, widthOf width, c.letter :: rest)
      else .error .overflow := by
  obtain ⟨other, -, -⟩ := letter_spec c
  cases width with
  | none => simp [readWidth, charAt, isdigit_eq, other, widthOf]
  | some w =>
    have zero : isdigit 48 = true := rfl
    have loop := widthLoop_eq rest w.isDigit other (show 0 < 2 ^ 31 by omega)
    change widthLoop _ 0 = if digitsValue w.digits < 2 ^ 31 then .ok (digitsValue w.digits, _) else _ at loop
    simp only [readWidth, Option.elim_some, List.cons_append, charAt, List.getD_cons_zero, zero, if_true, List.drop_succ_cons,
      List.drop_zero, loop, widthOf, Option.isSome_some]
    split <;> rfl

end Conversion

end OsLab.Klib
