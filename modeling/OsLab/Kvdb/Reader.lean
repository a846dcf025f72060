import OsLab.Kvdb.Model
import Mathlib.Data.List.TakeWhile

/-!
# Reading the log back

The loop of `find_db` over the records of completed puts. A record whose key is the target
is read as it was written. In any other record the lines of the value are taken for headers;
`Inert` says of a value that this does no harm.
-/

namespace OsLab.Kvdb

open OsLab.Stdio OsLab.Decimal

/-- The value of the last put to a key. -/
def lastPut (target : CStr) : List (CStr × CStr) → Option CStr
  | [] => none
  | (key, value) :: puts => (lastPut target puts).or (if key = target then some value else none)

/-- The file after some puts. -/
def records : List (CStr × CStr) → List UInt8
  | [] => []
  | (key, value) :: puts => record key value ++ records puts

/-- The reader takes a value for header lines in pieces of at most 499 characters. A piece that
ends before the line does is harmless if it does not read as a header of another key that can
be asked for. A last piece may read as one, as long as the length is that of an allocation. -/
def InertPiece (key rest : List UInt8) : Prop :=
  if 499 ≤ rest.length then
    ∃ r, scanHeader (rest.take 499) = .ok r ∧
      ∀ vlen k, r = some (vlen, k) → k = key ∨ 128 < k.length
  else
    ∃ r, scanHeader (rest ++ [newline]) = .ok r ∧
      ∀ vlen k, r = some (vlen, k) → k = key ∨ 128 < k.length ∨ (0 ≤ vlen ∧ FitsInt (vlen + 5))

/-- All pieces of a value are harmless. -/
def Inert (key value : List UInt8) : Prop :=
  ∀ i, 499 * i ≤ value.length → InertPiece key (value.drop (499 * i))

/-- Where the reader stands between two records: before the records `tail`, or behind the
first newline of `tail`, or at the end of the file. -/
inductive Between (tail : List UInt8) : Stream → Prop where
  | before : Between tail ⟨tail, false⟩
  | inside {rest : List UInt8} : tail = newline :: rest → Between tail ⟨rest, false⟩
  | ended : tail = [] → Between tail ⟨[], true⟩

section Loop

variable {target : List UInt8} {fuel : Nat} {s s' : Stream} {res : Option (List UInt8)}

theorem cstr_eq {buf : List UInt8} (terminated : 0 ∉ buf) : cstr buf = buf := by
  apply List.takeWhile_eq_self_iff.2
  intro c member
  apply decide_eq_true
  intro zero
  exact terminated (zero ▸ member)

/-- A line that is no header of the target is skipped. -/
theorem findLoop_skip {buf : List UInt8} {r : Option (Int × List UInt8)} (open' : s.eof = false)
    (line : fgets 500 s = (some buf, s')) (scan : scanHeader (cstr buf) = .ok r)
    (other : ∀ vlen key, r = some (vlen, key) → target ≠ key) :
    findLoop target (fuel + 1) s res = findLoop target fuel s' res := by
  rw [findLoop, open', line]
  dsimp only
  rw [scan]
  cases r with
  | none => rfl
  | some header => exact if_pos (other _ _ rfl)

/-- A header of the target is followed by its value. -/
theorem findLoop_hit {buf : List UInt8} {vlen : Int} {value : Option (List UInt8)} {s'' : Stream}
    (open' : s.eof = false) (line : fgets 500 s = (some buf, s'))
    (scan : scanHeader (cstr buf) = .ok (some (vlen, target)))
    (read : readValue vlen s' = .ok (value, s'')) :
    findLoop target (fuel + 1) s res = findLoop target fuel s'' (value.or res) := by
  rw [findLoop, open', line]
  dsimp only
  rw [scan]
  dsimp only
  rw [if_neg (fun differs : target ≠ target => differs rfl), read]
  cases value <;> rfl

end Loop

section Records

/-- The header line of a record. -/
theorem scanHeader_header {key : List UInt8} {n : Nat} (some' : key ≠ []) (plain : newline ∉ key)
    (small : n ≤ maxValue) :
    scanHeader (decimal n ++ 58 :: (key ++ [newline])) = .ok (some ((n : Int), key)) := by
  have fits : FitsInt (n : Int) := by
    unfold FitsInt
    unfold maxValue at small
    omega
  have line : (key ++ [newline]).takeWhile (· ≠ newline) = key := by
    rw [List.takeWhile_append_of_pos, List.takeWhile_cons_of_neg (by decide), List.append_nil]
    intro c member
    apply decide_eq_true
    intro same
    exact plain (same ▸ member)
  unfold scanHeader
  rw [scanInt_decimal (by decide)]
  dsimp only
  rw [if_pos fits]
  show (if (key ++ [newline]).takeWhile (· ≠ newline) = [] then _ else _) = _
  rw [line, if_neg some']

/-- The value behind the header of its record, with the mark. -/
theorem readValue_record {value tail : List UInt8} (terminated : 0 ∉ value) (plain : newline ∉ value)
    (small : value.length ≤ maxValue) :
    readValue value.length ⟨value ++ newline :: (endMark ++ newline :: tail), false⟩ =
      .ok (some value, ⟨tail, false⟩) := by
  unfold maxValue at small
  have fits : ¬ (¬ FitsInt ((value.length : Int) + 5) ∨ (value.length : Int) + 5 ≤ 0) := by
    unfold FitsInt
    omega
  unfold readValue
  rw [if_neg fits, show ((value.length : Int) + 5).toNat = value.length + 5 by omega,
    fgets_line plain (by omega)]
  dsimp only
  rw [if_neg (by omega), fgets_line (by decide) (by decide)]
  dsimp only
  have mark : (cstr (endMark ++ [newline])).take 3 = endMark := by decide
  have whole : (cstr (value ++ [newline])).take (Int.toNat value.length) = value := by
    rw [cstr_eq, Int.toNat_natCast, List.take_left']
    · rfl
    · intro zero
      rcases List.mem_append.1 zero with zero | zero
      · exact terminated zero
      · exact absurd (List.mem_singleton.1 zero) (by decide)
  rw [if_neg (by rw [mark]; exact fun differs => differs rfl), whole]

/-- A header that the last piece of a value reads as: the mark is taken for the value, and no
mark follows it. -/
theorem readValue_mark {vlen : Int} {tail : List UInt8} (positive : 0 ≤ vlen) (fits : FitsInt (vlen + 5))
    (next : tail = [] ∨ ∃ rest, tail = newline :: rest) :
    ∃ s, readValue vlen ⟨endMark ++ newline :: tail, false⟩ = .ok (none, s) ∧ Between tail s ∧
      s.rest.length ≤ tail.length := by
  unfold readValue
  rw [if_neg (by simp only [not_or, not_not, fits, true_and]; omega),
    fgets_line (by decide) (by show 3 + 1 < _; omega)]
  dsimp only
  rw [if_neg (by omega)]
  rcases next with rfl | ⟨rest, rfl⟩
  · rw [fgets_end (by decide)]
    exact ⟨_, rfl, .ended rfl, Nat.le_refl 0⟩
  · have line : fgets 10 ⟨newline :: rest, false⟩ = (some [newline], ⟨rest, false⟩) :=
      fgets_line (l := []) List.not_mem_nil (by decide)
    rw [line]
    exact ⟨_, rfl, .inside rfl, Nat.le_succ _⟩

/-- The lines of a value that belongs to another key. -/
theorem findLoop_value {target key value tail : List UInt8} {fuel : Nat} (res : Option (List UInt8))
    (other : target ≠ key) (asked : target.length ≤ 128) (terminated : 0 ∉ value) (plain : newline ∉ value)
    (inert : Inert key value) (next : tail = [] ∨ ∃ rest, tail = newline :: rest)
    (enough : value.length + tail.length + 7 ≤ fuel) :
    ∃ fuel' s, Between tail s ∧ s.rest.length + 2 ≤ fuel' ∧
      findLoop target fuel ⟨value ++ newline :: (endMark ++ newline :: tail), false⟩ res =
        findLoop target fuel' s res := by
  -- a header that does not belong to `target` is skipped
  have skipped : ∀ vlen k, k = key ∨ 128 < k.length → some (vlen, k) ≠ some ((vlen : Int), target) := by
    rintro vlen k (rfl | long) same
    · exact other (Prod.mk.inj (Option.some.inj same)).2.symm
    · rw [(Prod.mk.inj (Option.some.inj same)).2] at long
      omega
  induction fuel generalizing value with
  | zero => omega
  | succ fuel ih =>
    have piece : InertPiece key value := inert 0 (Nat.zero_le _)
    by_cases long : 499 ≤ value.length
    · unfold InertPiece at piece
      rw [if_pos long] at piece
      obtain ⟨r, scan, harmless⟩ := piece
      have read : fgets 500 ⟨value ++ newline :: (endMark ++ newline :: tail), false⟩ =
          (some (value.take 499), ⟨value.drop 499 ++ newline :: (endMark ++ newline :: tail), false⟩) := by
        have size : (value.take 499).length = 499 := by
          rw [List.length_take]
          omega
        have part : fgets ((value.take 499).length + 1)
            ⟨value.take 499 ++ (value.drop 499 ++ newline :: (endMark ++ newline :: tail)), false⟩ =
            (some (value.take 499), ⟨value.drop 499 ++ newline :: (endMark ++ newline :: tail), false⟩) :=
          fgets_part (fun member => plain (List.mem_of_mem_take member)) (by omega)
        rw [size, ← List.append_assoc, List.take_append_drop] at part
        exact part
      have text : cstr (value.take 499) = value.take 499 :=
        cstr_eq fun zero => terminated (List.mem_of_mem_take zero)
      have step : findLoop target (fuel + 1) ⟨value ++ newline :: (endMark ++ newline :: tail), false⟩ res =
          findLoop target fuel ⟨value.drop 499 ++ newline :: (endMark ++ newline :: tail), false⟩ res := by
        apply findLoop_skip rfl read (by rw [text]; exact scan)
        rintro vlen k rfl same
        exact skipped vlen k (harmless vlen k rfl) (by rw [same])
      rw [step]
      apply ih
      · exact fun zero => terminated (List.mem_of_mem_drop zero)
      · exact fun member => plain (List.mem_of_mem_drop member)
      · intro i inside
        rw [List.length_drop] at inside
        have piece := inert (i + 1) (by omega)
        rw [List.drop_drop, show 499 + 499 * i = 499 * (i + 1) by omega]
        exact piece
      · rw [List.length_drop]
        omega
    · unfold InertPiece at piece
      rw [if_neg long] at piece
      obtain ⟨r, scan, harmless⟩ := piece
      have read : fgets 500 ⟨value ++ newline :: (endMark ++ newline :: tail), false⟩ =
          (some (value ++ [newline]), ⟨endMark ++ newline :: tail, false⟩) := fgets_line plain (by omega)
      have text : cstr (value ++ [newline]) = value ++ [newline] := by
        apply cstr_eq
        intro zero
        rcases List.mem_append.1 zero with zero | zero
        · exact terminated zero
        · exact absurd (List.mem_singleton.1 zero) (by decide)
      by_cases hit : ∃ vlen, r = some (vlen, target)
      · obtain ⟨vlen, rfl⟩ := hit
        obtain ⟨positive, fits⟩ : 0 ≤ vlen ∧ FitsInt (vlen + 5) := by
          rcases harmless vlen target rfl with same | long | sound
          · exact absurd same other
          · omega
          · exact sound
        obtain ⟨s, mark, between, shorter⟩ := readValue_mark positive fits next
        refine ⟨fuel, s, between, by omega, ?_⟩
        exact findLoop_hit rfl read (by rw [text]; exact scan) mark
      · obtain ⟨rest, rfl⟩ : ∃ rest, fuel = rest + 1 := ⟨fuel - 1, by omega⟩
        have first : findLoop target (rest + 2) ⟨value ++ newline :: (endMark ++ newline :: tail), false⟩ res =
            findLoop target (rest + 1) ⟨endMark ++ newline :: tail, false⟩ res := by
          apply findLoop_skip rfl read (by rw [text]; exact scan)
          rintro vlen k rfl rfl
          exact hit ⟨vlen, rfl⟩
        have second : findLoop target (rest + 1) ⟨endMark ++ newline :: tail, false⟩ res =
            findLoop target rest ⟨tail, false⟩ res := by
          have scanned : scanHeader (cstr (endMark ++ [newline])) = .ok none := by decide
          apply findLoop_skip rfl (fgets_line (by decide) (by decide)) scanned
          intro vlen k same
          cases same
        exact ⟨rest, ⟨tail, false⟩, .before, by show tail.length + 2 ≤ rest; omega, first.trans second⟩

/-- A record, behind its first newline. -/
theorem findLoop_record {target key value : CStr} {tail : List UInt8} {fuel : Nat} (res : Option (List UInt8))
    (asked : target.1.length ≤ 128) (some' : key.1 ≠ []) (short : key.1.length ≤ 128)
    (small : value.1.length ≤ maxValue) (plainKey : newline ∉ key.1) (plainValue : newline ∉ value.1)
    (inert : Inert key.1 value.1) (next : tail = [] ∨ ∃ rest, tail = newline :: rest)
    (enough : value.1.length + tail.length + 8 ≤ fuel) :
    ∃ fuel' s, Between tail s ∧ s.rest.length + 2 ≤ fuel' ∧
      findLoop target.1 fuel ⟨decimal value.1.length ++ 58 :: (key.1 ++ newline ::
        (value.1 ++ newline :: (endMark ++ newline :: tail))), false⟩ res =
        findLoop target.1 fuel' s ((if key = target then some value.1 else none).or res) := by
  obtain ⟨fuel, rfl⟩ : ∃ rest, fuel = rest + 1 := ⟨fuel - 1, by omega⟩
  have numeral : ∀ c ∈ decimal value.1.length, 48 ≤ c.toNat ∧ c.toNat ≤ 57 :=
    fun c member => decide_eq_true_iff.1 (isDigit_decimal c member)
  have digits : (decimal value.1.length).length ≤ 8 := by
    apply length_decimal_le (by decide)
    apply Nat.lt_of_le_of_lt small
    decide
  have plainHeader : newline ∉ decimal value.1.length ++ 58 :: key.1 := by
    intro member
    rcases List.mem_append.1 member with member | member
    · exact absurd (numeral _ member).1 (by decide)
    · rcases List.mem_cons.1 member with same | member
      · exact absurd same (by decide)
      · exact plainKey member
  have read : fgets 500 ⟨decimal value.1.length ++ 58 :: (key.1 ++ newline ::
      (value.1 ++ newline :: (endMark ++ newline :: tail))), false⟩ =
      (some (decimal value.1.length ++ 58 :: (key.1 ++ [newline])),
        ⟨value.1 ++ newline :: (endMark ++ newline :: tail), false⟩) := by
    have line : fgets 500 ⟨(decimal value.1.length ++ 58 :: key.1) ++ newline ::
        (value.1 ++ newline :: (endMark ++ newline :: tail)), false⟩ =
        (some ((decimal value.1.length ++ 58 :: key.1) ++ [newline]),
          ⟨value.1 ++ newline :: (endMark ++ newline :: tail), false⟩) :=
      fgets_line plainHeader (by rw [List.length_append, List.length_cons]; omega)
    rw [List.append_assoc, List.cons_append, List.append_assoc, List.cons_append] at line
    exact line
  have text : cstr (decimal value.1.length ++ 58 :: (key.1 ++ [newline])) =
      decimal value.1.length ++ 58 :: (key.1 ++ [newline]) := by
    apply cstr_eq
    intro zero
    rcases List.mem_append.1 zero with zero | zero
    · exact absurd (numeral _ zero).1 (by decide)
    · rcases List.mem_cons.1 zero with zero | zero
      · exact absurd zero (by decide)
      · rcases List.mem_append.1 zero with zero | zero
        · exact key.2 zero
        · exact absurd (List.mem_singleton.1 zero) (by decide)
  have header := scanHeader_header some' plainKey small
  by_cases same : key = target
  · subst same
    refine ⟨fuel, ⟨tail, false⟩, .before, ?_, ?_⟩
    · show tail.length + 2 ≤ fuel
      omega
    · rw [if_pos rfl]
      exact findLoop_hit rfl read (by rw [text]; exact header) (readValue_record value.2 plainValue small)
  · have other : target.1 ≠ key.1 := fun equal => same (Subtype.ext equal.symm)
    rw [if_neg same, Option.none_or]
    obtain ⟨fuel', s, between, enough', rest⟩ := findLoop_value res other asked value.2 plainValue inert next
      (show value.1.length + tail.length + 7 ≤ fuel by omega)
    refine ⟨fuel', s, between, enough', Eq.trans ?_ rest⟩
    apply findLoop_skip rfl read (by rw [text]; exact header)
    intro vlen k equal
    rw [← (Prod.mk.inj (Option.some.inj equal)).2]
    exact other

theorem records_cons (key value : CStr) (puts : List (CStr × CStr)) :
    records ((key, value) :: puts) = newline :: (decimal value.1.length ++ 58 :: (key.1 ++ newline ::
      (value.1 ++ newline :: (endMark ++ newline :: records puts)))) := by
  simp [records, record]

/-- A record starts with a newline. -/
theorem records_start (puts : List (CStr × CStr)) :
    records puts = [] ∨ ∃ rest, records puts = newline :: rest := by
  cases puts with
  | nil => exact Or.inl rfl
  | cons p puts => exact Or.inr ⟨_, records_cons p.1 p.2 puts⟩

/-- **Reading the log.** Over the records of puts with keys and values of one line and harmless
values, the loop of `find_db` ends and returns the value of the last put to the target. -/
theorem findLoop_records {target : CStr} {puts : List (CStr × CStr)} (asked : target.1.length ≤ 128)
    (accepted : ∀ p ∈ puts, p.1.1 ≠ [] ∧ p.1.1.length ≤ 128 ∧ p.2.1.length ≤ maxValue)
    (plain : ∀ p ∈ puts, newline ∉ p.1.1 ∧ newline ∉ p.2.1 ∧ Inert p.1.1 p.2.1)
    {s : Stream} (between : Between (records puts) s) {fuel : Nat} (enough : s.rest.length + 2 ≤ fuel)
    (res : Option (List UInt8)) :
    findLoop target.1 fuel s res = .ok (((lastPut target puts).map Subtype.val).or res) := by
  induction puts generalizing s fuel res with
  | nil =>
    obtain ⟨fuel, rfl⟩ : ∃ rest, fuel = rest + 2 := ⟨fuel - 2, by omega⟩
    cases between with
    | before => rfl
    | inside first => cases first
    | ended => rfl
  | cons p puts ih =>
    obtain ⟨key, value⟩ := p
    have accepted' := fun q member => accepted q (List.mem_cons_of_mem (key, value) member)
    have plain' := fun q member => plain q (List.mem_cons_of_mem (key, value) member)
    obtain ⟨some', short, small⟩ := accepted (key, value) List.mem_cons_self
    obtain ⟨plainKey, plainValue, inert⟩ := plain (key, value) List.mem_cons_self
    -- behind the first newline of the record
    have inside : ∀ fuel, (records ((key, value) :: puts)).length + 1 ≤ fuel → ∀ rest,
        records ((key, value) :: puts) = newline :: rest →
        findLoop target.1 fuel ⟨rest, false⟩ res =
          .ok (((lastPut target ((key, value) :: puts)).map Subtype.val).or res) := by
      intro fuel enough rest split
      rw [records_cons] at split enough
      obtain rfl := (List.cons.inj split).2
      simp only [List.length_cons, List.length_append] at enough
      obtain ⟨fuel', s, between, enough', result⟩ := findLoop_record res asked some' short small plainKey
        plainValue inert (records_start puts)
        (show value.1.length + (records puts).length + 8 ≤ fuel by
          have : endMark.length = 3 := rfl
          omega)
      rw [result, ih accepted' plain' between enough', lastPut, Option.map_or, Option.or_assoc]
      by_cases same : key = target
      · rw [if_pos same, if_pos same]
        rfl
      · rw [if_neg same, if_neg same]
        rfl
    cases between with
    | before =>
      obtain ⟨fuel, rfl⟩ : ∃ rest, fuel = rest + 1 := ⟨fuel - 1, by omega⟩
      have enough : (records ((key, value) :: puts)).length + 2 ≤ fuel + 1 := enough
      obtain ⟨rest, split⟩ : ∃ rest, records ((key, value) :: puts) = newline :: rest := ⟨_, records_cons _ _ _⟩
      have empty : scanHeader (cstr [newline]) = .ok none := by decide
      rw [split] at enough
      rw [← inside fuel (by rw [split]; omega) rest split, split]
      apply findLoop_skip rfl (fgets_line (l := []) List.not_mem_nil (by decide)) empty
      intro vlen k same
      cases same
    | inside split =>
      have length := congrArg List.length split
      rw [List.length_cons] at length
      have enough := enough
      dsimp only at enough
      exact inside fuel (by omega) _ split
    | ended none => rw [records_cons] at none; cases none

end Records

end OsLab.Kvdb
