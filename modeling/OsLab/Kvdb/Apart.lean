import OsLab.Kvdb.Mutex
import OsLab.Kvdb.Torn
import OsLab.Kvdb.Recovery

/-!
# Values that pass for records

The reader finds its way through the value of another key by taking pieces of at most 499
characters for headers. What it does with a value does not depend on the file before it
(`search_append`), so a put under one key leaves the others alone exactly when no piece of its
value reads as a header with a value and an `END` behind it: `Harmless` says so of the text.
-/

namespace OsLab.Kvdb

open OsLab.Stdio OsLab.Decimal

/-- What is left of a file that ends with a line without a colon, such as `END`. -/
inductive Closed : List UInt8 → Prop where
  | empty : Closed []
  | last {b : List UInt8} : newline ∉ b → colon ∉ b → Closed (b ++ [newline])
  | before {a b : List UInt8} : newline ∉ b → colon ∉ b → Closed (a ++ newline :: (b ++ [newline]))

section Lines

variable {l rest : List UInt8} {n : Nat}

/-- A file that ends with a newline is read the same with more behind it. -/
theorem lineOf_append (ends : l.getLast? = some newline) : lineOf n (l ++ rest) = lineOf n l := by
  induction l generalizing n with
  | nil => cases ends
  | cons c l ih =>
    cases n with
    | zero => rfl
    | succ n =>
      rw [List.cons_append, lineOf, lineOf]
      by_cases last : c = newline
      · rw [if_pos last, if_pos last]
      · rw [if_neg last, if_neg last]
        cases l with
        | nil => simp [last] at ends
        | cons d l =>
          rw [ih]
          simpa using ends

theorem lineOf_start (n : Nat) (l : List UInt8) : lineOf n l <+: l := by
  induction l generalizing n with
  | nil => cases n <;> exact List.prefix_rfl
  | cons c l ih =>
    cases n with
    | zero => exact List.nil_prefix
    | succ n =>
      rw [lineOf]
      split
      · exact ⟨l, rfl⟩
      · exact List.prefix_cons_inj c |>.2 (ih n)

/-- A piece is as long as the buffer or ends with a newline. -/
theorem lineOf_stops (ends : l.getLast? = some newline) :
    n ≤ (lineOf n l).length ∨ (lineOf n l).getLast? = some newline := by
  induction l generalizing n with
  | nil => cases ends
  | cons c l ih =>
    cases n with
    | zero => exact Or.inl (Nat.zero_le _)
    | succ n =>
      rw [lineOf]
      by_cases last : c = newline
      · rw [if_pos last, last]
        exact Or.inr rfl
      · rw [if_neg last]
        cases l with
        | nil => simp [last] at ends
        | cons d l =>
          rcases ih (n := n) (by simpa using ends) with full | stop
          · exact Or.inl (Nat.succ_le_succ full)
          · right
            cases line : lineOf n (d :: l) with
            | nil =>
              rw [line] at stop
              cases stop
            | cons e line' =>
              rw [line] at stop
              simpa using stop

theorem length_lineOf_line (n : Nat) (a rest : List UInt8) :
    (lineOf n (a ++ newline :: rest)).length ≤ a.length + 1 := by
  induction a generalizing n with
  | nil =>
    cases n with
    | zero => exact Nat.zero_le _
    | succ n => simp [lineOf]
  | cons c a ih =>
    cases n with
    | zero => exact Nat.zero_le _
    | succ n =>
      rw [List.cons_append, lineOf]
      split
      · exact Nat.succ_le_succ (Nat.zero_le _)
      · exact Nat.succ_le_succ (ih n)

/-- Reading from a file that ends with a newline, whatever is behind it. -/
theorem fgets_append (size : Nat) (ends : l.getLast? = some newline) (rest : List UInt8) :
    fgets size ⟨l ++ rest, false⟩ =
      (some (lineOf (size - 1) l), ⟨l.drop (lineOf (size - 1) l).length ++ rest, false⟩) := by
  have some' : l ≠ [] := by
    rintro rfl
    cases ends
  have open' : decide ((lineOf (size - 1) l).length < size - 1 ∧
      (lineOf (size - 1) l).getLast? ≠ some newline) = false := by
    rw [decide_eq_false_iff_not]
    rintro ⟨short, other⟩
    rcases lineOf_stops (n := size - 1) ends with full | stop
    · omega
    · exact other stop
  unfold fgets
  rw [if_neg (by simp [some']), lineOf_append ends]
  dsimp only
  rw [open', List.drop_append_of_le_length length_lineOf_le]
  rfl

theorem Closed.ends (closed : Closed l) (some' : l ≠ []) : l.getLast? = some newline := by
  cases closed with
  | empty => exact absurd rfl some'
  | last => simp
  | @before a b =>
    rw [← List.cons_append, ← List.append_assoc]
    exact List.getLast?_concat

theorem Closed.drop (closed : Closed l) (n : Nat) : Closed (l.drop n) := by
  have line : ∀ (b : List UInt8) (n : Nat), newline ∉ b → colon ∉ b →
      Closed ((b ++ [newline]).drop n) := by
    intro b n plain text
    by_cases inside : n ≤ b.length
    · rw [List.drop_append_of_le_length inside]
      exact .last (fun member => plain (List.mem_of_mem_drop member)) fun member =>
        text (List.mem_of_mem_drop member)
    · rw [List.drop_eq_nil_of_le (by simp; omega)]
      exact .empty
  cases closed with
  | empty => simpa using Closed.empty
  | last plain text => exact line _ n plain text
  | @before a b plain text =>
    by_cases inside : n ≤ a.length
    · rw [List.drop_append_of_le_length inside]
      exact .before plain text
    · obtain ⟨m, rfl⟩ : ∃ m, n = a.length + (m + 1) := ⟨n - a.length - 1, by omega⟩
      rw [← List.drop_drop, List.drop_left, List.drop_succ_cons]
      exact line b m plain text

/-- A piece that is all there is has no colon. -/
theorem Closed.text (closed : Closed l) (whole : l.drop (lineOf n l).length = []) :
    colon ∉ lineOf n l := by
  intro member
  have inside := (lineOf_start n l).subset member
  have all : l.length ≤ (lineOf n l).length := List.drop_eq_nil_iff.1 whole
  cases closed with
  | empty => cases inside
  | last plain text =>
    rcases List.mem_append.1 inside with wrong | wrong
    · exact text wrong
    · exact absurd (List.mem_singleton.1 wrong) (by decide)
  | @before a b =>
    have short := length_lineOf_line n a (b ++ [newline])
    simp only [List.length_append, List.length_cons] at all
    omega

end Lines

section Append

variable {store : Int → Int} {target file : List UInt8} {res : Option (List UInt8)}

/-- A header whose value cannot be read. -/
theorem search_stop {buf : List UInt8} {vlen : Int} {s s' : Stream} {e : Stop} (open' : s.eof = false)
    (line : fgets 500 s = (some buf, s')) (scan : scanHeaderOn store (cstr buf) = some (vlen, target))
    (stop : readValue vlen s' = .error e) : search store target s res = .error e := by
  rw [search, findLoopOn, open', line]
  simp [scan, stop]

/-- The reading of a value that begins before the end of a closed file. -/
theorem readValue_append (vlen : Int) (closed : Closed file) (some' : file ≠ []) (rest : List UInt8) :
    (∃ e, readValue vlen ⟨file, false⟩ = .error e ∧
      readValue vlen ⟨file ++ newline :: rest, false⟩ = .error e) ∨
    (∃ value n, readValue vlen ⟨file, false⟩ = .ok (value, ⟨file.drop n, false⟩) ∧
      readValue vlen ⟨file ++ newline :: rest, false⟩ = .ok (value, ⟨file.drop n ++ newline :: rest, false⟩)) ∨
    (readValue vlen ⟨file, false⟩ = .ok (none, ⟨[], true⟩) ∧
      readValue vlen ⟨file ++ newline :: rest, false⟩ = .ok (none, ⟨rest, false⟩)) := by
  by_cases unfit : ¬ FitsInt (vlen + 5) ∨ vlen + 5 ≤ 0
  · refine Or.inl ⟨.undefined, ?_, ?_⟩
    · rw [readValue, if_pos unfit]
    · rw [readValue, if_pos unfit]
  have ends := closed.ends some'
  have whole := fgets_append (vlen + 5).toNat ends []
  have part := fgets_append (vlen + 5).toNat ends (newline :: rest)
  rw [List.append_nil, List.append_nil] at whole
  generalize lineOf ((vlen + 5).toNat - 1) file = value at whole part
  unfold readValue
  simp only [if_neg unfit, whole, part]
  by_cases negative : vlen < 0
  · simp only [if_pos negative]
    exact Or.inl ⟨.undefined, rfl, rfl⟩
  simp only [if_neg negative]
  right
  by_cases last : file.drop value.length = []
  · right
    have empty : fgets 10 ⟨newline :: rest, false⟩ = (some [newline], ⟨rest, false⟩) :=
      fgets_line (l := []) List.not_mem_nil (by decide)
    constructor
    · simp only [last, fgets_end (by decide : 1 < 10)]
    · simp only [last, List.nil_append, empty]
      rfl
  · left
    have ends' := (closed.drop value.length).ends last
    have whole' := fgets_append 10 ends' []
    rw [List.append_nil, List.append_nil] at whole'
    simp only [whole', fgets_append 10 ends' (newline :: rest), List.drop_drop]
    by_cases mark : (cstr (lineOf (10 - 1) (file.drop value.length))).take 3 ≠ endMark
    · simp only [if_pos mark]
      exact ⟨none, _, rfl, rfl⟩
    · simp only [if_neg mark]
      exact ⟨some _, _, rfl, rfl⟩

/-- **What is behind a closed file is read on its own.** -/
theorem search_append (closed : Closed file) (rest : List UInt8) (res : Option (List UInt8)) :
    search store target ⟨file ++ newline :: rest, false⟩ res =
      search store target ⟨file, false⟩ res >>= fun res => search store target ⟨rest, false⟩ res := by
  induction size : file.length using Nat.strong_induction_on generalizing file res with
  | _ size ih =>
    by_cases empty : file = []
    · subst empty
      exact search_text (l := []) List.not_mem_nil List.not_mem_nil
    have ends := closed.ends empty
    have whole := fgets_append 500 ends []
    have part := fgets_append 500 ends (newline :: rest)
    have text := closed.text (n := 500 - 1)
    rw [List.append_nil, List.append_nil] at whole
    have shorter : (file.drop (lineOf (500 - 1) file).length).length < file.length :=
      fgets_length_lt (by decide) whole
    generalize lineOf (500 - 1) file = line at whole part text shorter
    by_cases other : ∀ vlen key, scanHeaderOn store (cstr line) = some (vlen, key) → target ≠ key
    · rw [search_skip rfl part other, search_skip rfl whole other]
      exact ih _ (size ▸ shorter) (closed.drop _) _ rfl
    · simp only [not_forall, not_not] at other
      obtain ⟨vlen, key, scan, rfl⟩ := other
      have more : file.drop line.length ≠ [] := by
        intro last
        rw [scanHeaderOn_text store (text last)] at scan
        cases scan
      rcases readValue_append vlen (closed.drop line.length) more rest with
        ⟨e, alone, both⟩ | ⟨value, n, alone, both⟩ | ⟨alone, both⟩
      · rw [search_stop rfl part scan both, search_stop rfl whole scan alone]
        rfl
      · rw [search_hit rfl part scan both, search_hit rfl whole scan alone]
        refine ih _ ?_ ((closed.drop _).drop n) _ rfl
        rw [List.length_drop]
        omega
      · rw [search_hit rfl part scan both, search_hit rfl whole scan alone, search_ended]
        rfl

end Append

/-- Where the reader looks for keys of another record, it takes the value in pieces of 499 characters. A
piece that reads as a header of the target does no harm if the value holds the characters that are read for
it, with no mark behind them, or if the piece is the last and only the mark is left to be read. -/
inductive Harmless (store : Int → Int) (target : List UInt8) : List UInt8 → Prop where
  | last {v : List UInt8} : v.length < 499 →
      (∀ n, scanHeaderOn store (v ++ [newline]) = some (n, target) → 0 ≤ n ∧ FitsInt (n + 5)) →
      Harmless store target v
  | skip {v : List UInt8} : 499 ≤ v.length → (∀ n, scanHeaderOn store (v.take 499) ≠ some (n, target)) →
      Harmless store target (v.drop 499) → Harmless store target v
  | tail {v : List UInt8} {n : Nat} : scanHeaderOn store (v.take 499) = some ((n : Int), target) →
      FitsInt ((n : Int) + 5) → 499 + (n + 4) ≤ v.length → v.length < 499 + (n + 4) + 9 →
      (v.drop (499 + (n + 4))).take 3 ≠ endMark → Harmless store target v
  | taken {v : List UInt8} {n : Nat} : scanHeaderOn store (v.take 499) = some ((n : Int), target) →
      FitsInt ((n : Int) + 5) → 499 + (n + 4) + 9 ≤ v.length → (v.drop (499 + (n + 4))).take 3 ≠ endMark →
      Harmless store target (v.drop (499 + (n + 4) + 9)) → Harmless store target v

section Values

variable {store : Int → Int} {target v rest : List UInt8} {res : Option (List UInt8)} {n : Nat}

/-- What is left of a record when the characters `v` of its value have not been read. -/
def left (v : List UInt8) : List UInt8 := v ++ newline :: (endMark ++ [newline])

/-- A length that is no size of a buffer. -/
theorem readValue_unfit {vlen : Int} {file : List UInt8} (some' : file ≠ [])
    (unfit : ¬ (0 ≤ vlen ∧ FitsInt (vlen + 5))) : readValue vlen ⟨file, false⟩ = .error .undefined := by
  unfold readValue
  by_cases size : ¬ FitsInt (vlen + 5) ∨ vlen + 5 ≤ 0
  · rw [if_pos size]
  · have negative : vlen < 0 := by
      by_contra positive
      exact unfit ⟨by omega, by tauto⟩
    rw [if_neg size]
    unfold fgets
    rw [if_neg fun ended => some' ended.2]
    exact if_pos negative

/-- The line that is compared with the mark. -/
theorem fgets_mark (terminated : 0 ∉ v) (plain : newline ∉ v) (rest : List UInt8) :
    ∃ m, ((cstr m).take 3 = endMark ↔ v.take 3 = endMark) ∧
      fgets 10 ⟨v ++ newline :: rest, false⟩ =
        (some m, ⟨if v.length < 9 then rest else v.drop 9 ++ newline :: rest, false⟩) := by
  rw [fgets_upto plain (by decide)]
  by_cases short : v.length < 9
  · rw [if_pos (by omega), if_pos short]
    refine ⟨_, ?_, rfl⟩
    have text : 0 ∉ v ++ [newline] := by simpa using ⟨terminated, (by decide : (0 : UInt8) ≠ newline)⟩
    rw [cstr_eq text]
    by_cases three : 3 ≤ v.length
    · rw [List.take_append_of_le_length three]
    · rw [List.take_of_length_le (by simp; omega), List.take_of_length_le (by omega)]
      constructor
      · intro same
        have member : newline ∈ v ++ [newline] := List.mem_append_right _ List.mem_cons_self
        rw [same] at member
        exact absurd member (by decide)
      · rintro rfl
        exact absurd (Nat.le_refl 3) three
  · rw [if_neg (by omega), if_neg short]
    refine ⟨_, ?_, rfl⟩
    rw [cstr_eq fun zero => terminated (List.mem_of_mem_take zero), List.take_take]
    rfl

/-- The value of a header inside another value, up to the mark. -/
theorem readValue_inside (terminated : 0 ∉ v) (plain : newline ∉ v) (fits : FitsInt ((n : Int) + 5))
    (room : n + 4 ≤ v.length) (other : (v.drop (n + 4)).take 3 ≠ endMark) :
    readValue n ⟨left v, false⟩ = .ok (none,
      ⟨if (v.drop (n + 4)).length < 9 then endMark ++ [newline] else left (v.drop (n + 4 + 9)), false⟩) := by
  obtain ⟨m, mark, line⟩ := fgets_mark (v := v.drop (n + 4)) (fun zero => terminated (List.mem_of_mem_drop zero))
    (fun member => plain (List.mem_of_mem_drop member)) (endMark ++ [newline])
  rw [readValue_fit fits, left, fgets_upto plain (by omega), if_neg (by omega)]
  dsimp only
  rw [show n + 5 - 1 = n + 4 by omega, line]
  dsimp only
  rw [if_pos (fun same => other (mark.1 same)), List.drop_drop]
  rfl

/-- A header inside another value that finds a mark behind its value. -/
theorem readValue_found (terminated : 0 ∉ v) (plain : newline ∉ v) (fits : FitsInt ((n : Int) + 5))
    (marked : v.length < n + 4 ∨ (v.drop (n + 4)).take 3 = endMark) :
    ∃ value s, readValue n ⟨left v, false⟩ = .ok (some value, s) := by
  rw [readValue_fit fits, left, fgets_upto plain (by omega)]
  by_cases short : v.length < n + 4
  · have last : fgets 10 ⟨endMark ++ newline :: [], false⟩ = (some (endMark ++ [newline]), ⟨[], false⟩) :=
      fgets_line (by decide) (by decide)
    rw [if_pos (by omega)]
    dsimp only
    rw [last]
    exact ⟨_, _, rfl⟩
  · obtain ⟨m, mark, line⟩ := fgets_mark (v := v.drop (n + 4)) (fun zero => terminated (List.mem_of_mem_drop zero))
      (fun member => plain (List.mem_of_mem_drop member)) (endMark ++ [newline])
    rw [if_neg (by omega)]
    dsimp only
    rw [show n + 5 - 1 = n + 4 by omega, line]
    dsimp only
    rw [if_neg (not_not.2 (mark.2 (marked.resolve_left short)))]
    exact ⟨_, _, rfl⟩

/-- A piece of a long value. -/
theorem fgets_piece (plain : newline ∉ v) (long : 499 ≤ v.length) :
    fgets 500 ⟨left v, false⟩ = (some (v.take 499), ⟨left (v.drop 499), false⟩) := by
  rw [left, fgets_upto plain (by decide), if_neg (by omega)]
  rfl

/-- The last piece of a value. -/
theorem fgets_rest (plain : newline ∉ v) (short : v.length < 499) :
    fgets 500 ⟨left v, false⟩ = (some (v ++ [newline]), ⟨endMark ++ [newline], false⟩) := by
  rw [left, fgets_upto plain (by decide), if_pos (by omega)]

theorem search_end : search store target ⟨endMark ++ [newline], false⟩ res = .ok res :=
  search_text (by decide) (by decide)

/-- **A harmless value leaves the result as it is.** -/
theorem search_harmless (terminated : 0 ∉ v) (plain : newline ∉ v) (harmless : Harmless store target v) :
    search store target ⟨left v, false⟩ res = .ok res := by
  have cut : ∀ (v : List UInt8) (k : Nat), 0 ∉ v → cstr (v.take k) = v.take k :=
    fun v k terminated => cstr_eq fun zero => terminated (List.mem_of_mem_take zero)
  induction harmless with
  | @last v short sound =>
    have text : cstr (v ++ [newline]) = v ++ [newline] :=
      cstr_eq (by simpa using ⟨terminated, (by decide : (0 : UInt8) ≠ newline)⟩)
    by_cases hit : ∃ n, scanHeaderOn store (v ++ [newline]) = some (n, target)
    · obtain ⟨n, scan⟩ := hit
      obtain ⟨positive, fits⟩ := sound n scan
      obtain ⟨s, read, between, -⟩ := readValue_mark positive fits (.inl rfl)
      rw [search_hit rfl (fgets_rest plain short) (by rw [text, scan]) read]
      cases between with
      | before => rfl
      | inside wrong => cases wrong
      | ended => rfl
    · rw [search_skip rfl (fgets_rest plain short), search_end]
      rw [text]
      rintro n key scan rfl
      exact hit ⟨n, scan⟩
  | @skip v long other harmless ih =>
    rw [search_skip rfl (fgets_piece plain long)]
    · exact ih (fun zero => terminated (List.mem_of_mem_drop zero)) fun member =>
        plain (List.mem_of_mem_drop member)
    · rw [cut v 499 terminated]
      rintro n key scan rfl
      exact other n scan
  | @tail v n scan fits room last other =>
    have read := readValue_inside (v := v.drop 499) (n := n) (fun zero => terminated (List.mem_of_mem_drop zero))
      (fun member => plain (List.mem_of_mem_drop member)) fits (by rw [List.length_drop]; omega)
      (by rw [List.drop_drop]; exact other)
    rw [if_pos (by rw [List.length_drop, List.length_drop]; omega)] at read
    rw [search_hit rfl (fgets_piece plain (by omega)) (by rw [cut v 499 terminated, scan]) read]
    exact search_end
  | @taken v n scan fits room other harmless ih =>
    have read := readValue_inside (v := v.drop 499) (n := n) (fun zero => terminated (List.mem_of_mem_drop zero))
      (fun member => plain (List.mem_of_mem_drop member)) fits (by rw [List.length_drop]; omega)
      (by rw [List.drop_drop]; exact other)
    rw [if_neg (by rw [List.length_drop, List.length_drop]; omega), List.drop_drop,
      show 499 + (n + 4 + 9) = 499 + (n + 4) + 9 by omega] at read
    rw [search_hit rfl (fgets_piece plain (by omega)) (by rw [cut v 499 terminated, scan]) read]
    exact ih (fun zero => terminated (List.mem_of_mem_drop zero)) fun member =>
      plain (List.mem_of_mem_drop member)

theorem findLoopOn_found {fuel : Nat} {s : Stream} {value : List UInt8} :
    findLoopOn store target fuel s (some value) ≠ .ok none := by
  induction fuel generalizing s value with
  | zero => exact fun wrong => by cases wrong
  | succ fuel ih =>
    intro nothing
    rw [findLoopOn] at nothing
    split at nothing
    · cases nothing
    split at nothing
    · exact ih nothing
    split at nothing
    · exact ih nothing
    split at nothing
    · exact ih nothing
    split at nothing
    · cases nothing
    · exact ih nothing
    · exact ih nothing

/-- A result once found is not lost. -/
theorem search_found {s : Stream} {value : List UInt8} : search store target s (some value) ≠ .ok none :=
  findLoopOn_found

/-- A value that leaves no result is harmless. -/
theorem harmless_of_search (terminated : 0 ∉ v) (plain : newline ∉ v)
    (nothing : search store target ⟨left v, false⟩ none = .ok none) : Harmless store target v := by
  induction size : v.length using Nat.strong_induction_on generalizing v with
  | _ size ih =>
    by_cases long : 499 ≤ v.length
    · have text : cstr (v.take 499) = v.take 499 := cstr_eq fun zero => terminated (List.mem_of_mem_take zero)
      have line := fgets_piece plain long
      have terminated' : 0 ∉ v.drop 499 := fun zero => terminated (List.mem_of_mem_drop zero)
      have plain' : newline ∉ v.drop 499 := fun member => plain (List.mem_of_mem_drop member)
      by_cases hit : ∃ n, scanHeaderOn store (v.take 499) = some (n, target)
      · obtain ⟨vlen, scan⟩ := hit
        have some' : left (v.drop 499) ≠ [] := by simp [left]
        have fit : 0 ≤ vlen ∧ FitsInt (vlen + 5) := by
          by_contra unfit
          rw [search_stop rfl line (by rw [text, scan]) (readValue_unfit some' unfit)] at nothing
          cases nothing
        obtain ⟨n, rfl⟩ : ∃ n : Nat, vlen = n := ⟨vlen.toNat, by omega⟩
        by_cases marked : (v.drop 499).length < n + 4 ∨ ((v.drop 499).drop (n + 4)).take 3 = endMark
        · obtain ⟨value, s, read⟩ := readValue_found terminated' plain' fit.2 marked
          rw [search_hit rfl line (by rw [text, scan]) read] at nothing
          exact absurd nothing search_found
        · simp only [not_or, Nat.not_lt] at marked
          obtain ⟨room, other⟩ := marked
          have read := readValue_inside terminated' plain' fit.2 room other
          rw [search_hit rfl line (by rw [text, scan]) read] at nothing
          rw [List.drop_drop] at other
          rw [List.length_drop] at room
          rw [List.drop_drop, List.drop_drop, List.length_drop] at nothing
          by_cases last : v.length - (499 + (n + 4)) < 9
          · exact .tail scan fit.2 (by omega) (by omega) other
          · rw [if_neg last] at nothing
            refine .taken scan fit.2 (by omega) other ?_
            exact ih _ (by rw [List.length_drop]; omega) (fun zero => terminated (List.mem_of_mem_drop zero))
              (fun member => plain (List.mem_of_mem_drop member)) nothing rfl
      · have other : ∀ n, scanHeaderOn store (v.take 499) ≠ some (n, target) :=
          fun n scan => hit ⟨n, scan⟩
        have skipped : search store target ⟨left v, false⟩ none =
            search store target ⟨left (v.drop 499), false⟩ none := by
          apply search_skip rfl line
          rw [text]
          rintro n key scan rfl
          exact other n scan
        rw [skipped] at nothing
        exact .skip long other (ih _ (by rw [List.length_drop]; omega) terminated' plain' nothing rfl)
    · have text : cstr (v ++ [newline]) = v ++ [newline] :=
        cstr_eq (by simpa using ⟨terminated, (by decide : (0 : UInt8) ≠ newline)⟩)
      refine .last (by omega) fun n scan => ?_
      by_contra unfit
      have line := fgets_rest plain (Nat.not_le.1 long)
      rw [search_stop rfl line (by rw [text, scan]) (readValue_unfit (by decide) unfit)] at nothing
      cases nothing

end Values

/-- Databases that completed puts have written, with the puts. -/
inductive Written : World → List (CStr × CStr) → Prop where
  | opened {filename : CStr} {w w' : World} : w.files filename = none ∨ w.files filename = some [] →
      kvdbOpen true filename w = (0, w') → Written w' []
  | put {w w' : World} {puts : List (CStr × CStr)} {opens : Bool} {key value : CStr} : Written w puts →
      kvdbPut opens (some key) (some value) w = .ok (0, w') → Written w' (puts ++ [(key, value)])

section Databases

variable {store : Int → Int} {w w' : World} {puts : List (CStr × CStr)} {target key value : CStr}
  {res : Option (List UInt8)}

theorem Written.file (run : Written w puts) :
    w.db.locked = false ∧ w.files w.db.filename = some (records puts) ∧
      ∀ p ∈ puts, p.1.1 ≠ [] ∧ p.1.1.length ≤ 128 ∧ p.2.1.length ≤ maxValue := by
  induction run with
  | opened fresh run =>
    have logged := logged_open fresh run
    exact ⟨logged.unlocked, logged.file, logged.accepted⟩
  | put before run ih =>
    obtain ⟨free, file, accepted⟩ := ih
    obtain ⟨put, rfl⟩ := kvdbPut_ok free run
    refine ⟨free, ?_, ?_⟩
    · simp [append, file, records_concat]
    · intro p member
      rcases List.mem_append.1 member with member | member
      · exact accepted p member
      · rw [List.mem_singleton.1 member]
        exact put

theorem closed_records (puts : List (CStr × CStr)) : Closed (records puts) := by
  induction puts using List.reverseRecOn with
  | nil => exact .empty
  | append_singleton puts p ih =>
    have layout : records (puts ++ [p]) = (records puts ++ newline :: (header p.2.1.length p.1.1 ++
        newline :: p.2.1)) ++ newline :: (endMark ++ [newline]) := by
      rw [records_concat, record_eq]
      simp [body]
    rw [layout]
    exact .before (by decide) (by decide)

/-- What is behind the records of completed puts is read on its own. -/
theorem search_records_append (puts : List (CStr × CStr)) (p : CStr × CStr) (res : Option (List UInt8)) :
    search store target.1 ⟨records (puts ++ [p]), false⟩ res =
      search store target.1 ⟨records puts, false⟩ res >>= fun res =>
        search store target.1 ⟨record p.1 p.2, false⟩ res := by
  rw [records_concat, record_eq, search_append (closed_records puts)]
  simp only [search_newline]

/-- The record of another key. -/
theorem search_record_left (small : value.1.length ≤ maxValue) (short : key.1.length ≤ 128)
    (plain : newline ∉ key.1) (other : key ≠ target) :
    search store target.1 ⟨record key value, false⟩ res =
      search store target.1 ⟨left value.1, false⟩ res := by
  rw [record_eq, search_newline, body]
  exact search_header_other plain short small key.2 (.inr fun same => other (Subtype.ext same.symm))

theorem search_record_own (small : value.1.length ≤ maxValue) (short : key.1.length ≤ 128)
    (some' : key.1 ≠ []) (plainKey : newline ∉ key.1) (plainValue : newline ∉ value.1) :
    search store key.1 ⟨record key value, false⟩ res = .ok (some value.1) := by
  rw [record_eq, search_newline, body,
    search_header plainKey short small key.2 some' (readValue_record value.2 plainValue small)]
  exact search_empty

/-- Harmless values under the other keys do not change what is found. -/
theorem search_records_harmless
    (accepted : ∀ p ∈ puts, p.1.1 ≠ [] ∧ p.1.1.length ≤ 128 ∧ p.2.1.length ≤ maxValue)
    (plain : ∀ p ∈ puts, newline ∉ p.1.1 ∧ newline ∉ p.2.1)
    (harmless : ∀ p ∈ puts, p.1 ≠ target → Harmless store target.1 p.2.1) :
    search store target.1 ⟨records puts, false⟩ none = .ok ((lastPut target puts).map Subtype.val) := by
  induction puts using List.reverseRecOn with
  | nil => rfl
  | append_singleton puts p ih =>
    have last : p ∈ puts ++ [p] := List.mem_append_right _ List.mem_cons_self
    obtain ⟨some', short, small⟩ := accepted p last
    obtain ⟨plainKey, plainValue⟩ := plain p last
    rw [search_records_append, ih (fun q member => accepted q (List.mem_append_left _ member))
      (fun q member => plain q (List.mem_append_left _ member))
      (fun q member => harmless q (List.mem_append_left _ member)), ok_bind, lastPut_append]
    by_cases own : p.1 = target
    · rw [← own, search_record_own small short some' plainKey plainValue]
      simp [lastPut]
    · rw [search_record_left small short plainKey own,
        search_harmless p.2.2 plainValue (harmless p last own)]
      simp [lastPut, own]

/-- What `kvdb_get` returns for the database of completed puts. -/
theorem Written.get (run : Written w puts) (asked : target.1.length ≠ 0 ∧ target.1.length ≤ 128) :
    kvdbGetOn store true (some target) w = (search store target.1 ⟨records puts, false⟩ none).map (·, w) := by
  obtain ⟨free, file, -⟩ := run.file
  exact kvdbGetOn_file free file ⟨fun empty => asked.1 (List.length_eq_zero_iff.2 empty), asked.2⟩

theorem written_openedDb : Written openedDb [] :=
  .opened (Or.inl rfl) (show kvdbOpen true ⟨[100, 98], by decide⟩ unused = (0, openedDb) from rfl)

theorem kvdbPut_accepted (free : w.db.locked = false) (accepted : Accepted key value) :
    ∃ w', kvdbPut true (some key) (some value) w = .ok (0, w') := by
  have accepted : ¬ (key.1.length = 0 ∨ key.1.length > 128 ∨ value.1.length > maxValue) := by
    unfold Accepted at accepted
    omega
  unfold kvdbPut
  simp only [if_neg accepted]
  rw [lockMutex_free free, ok_bind]
  exact ⟨_, rfl⟩

/-- **Keys apart.** A put under one key leaves what `kvdb_get` returns for another key as it is, whatever
was put before, exactly if the value is harmless for the other key; and where the values under the other
keys are harmless, `kvdb_get` returns only what was put under its key. -/
theorem keys_apart_iff (store : Int → Int) (target : CStr)
    (asked : target.1.length ≠ 0 ∧ target.1.length ≤ 128) :
    (∀ key value : CStr, key ≠ target → Accepted key value → newline ∉ key.1 → newline ∉ value.1 →
      ((∀ w puts w', Written w puts → kvdbPut true (some key) (some value) w = .ok (0, w') →
          (kvdbGetOn store true (some target) w').map Prod.fst =
            (kvdbGetOn store true (some target) w).map Prod.fst) ↔
        Harmless store target.1 value.1)) ∧
    (∀ w puts, Written w puts → (∀ p ∈ puts, newline ∉ p.1.1 ∧ newline ∉ p.2.1) →
      (∀ p ∈ puts, p.1 ≠ target → Harmless store target.1 p.2.1) →
      kvdbGetOn store true (some target) w = .ok ((lastPut target puts).map Subtype.val, w)) := by
  have result : ∀ (r : Except Stop (Option (List UInt8))) (w : World), (r.map (·, w)).map Prod.fst = r := by
    intro r w
    cases r <;> rfl
  constructor
  · intro key value other accepted plainKey plainValue
    have last : ∀ puts res, search store target.1 ⟨records (puts ++ [(key, value)]), false⟩ res =
        search store target.1 ⟨records puts, false⟩ res >>= fun res =>
          search store target.1 ⟨left value.1, false⟩ res := by
      intro puts res
      rw [search_records_append]
      simp only [search_record_left accepted.2.2 accepted.2.1 plainKey other]
    constructor
    · intro same
      obtain ⟨w', put⟩ := kvdbPut_accepted written_openedDb.file.1 accepted
      have kept := same openedDb [] w' written_openedDb put
      rw [written_openedDb.get asked, (written_openedDb.put put).get asked, result, result, last] at kept
      exact harmless_of_search value.2 plainValue kept
    · intro harmless w puts w' run put
      rw [run.get asked, (run.put put).get asked, result, result, last]
      simp only [search_harmless value.2 plainValue harmless]
      exact bind_pure _
  · intro w puts run plain harmless
    obtain ⟨-, -, accepted⟩ := run.file
    rw [run.get asked, search_records_harmless accepted plain harmless]
    rfl

end Databases

/-- 496 blanks, `1:j` and `x`. -/
def forged : CStr := ⟨List.replicate 496 32 ++ [49, 58, 106, 120], by decide +kernel⟩

/-- The value `x` is read under the key `j`, where nothing was put. -/
theorem get_forged : ∃ w w', Written w [] ∧
    kvdbPut true (some ⟨[107], by decide⟩) (some forged) w = .ok (0, w') ∧
    (kvdbGetOn id true (some ⟨[106], by decide⟩) w).map Prod.fst = .ok none ∧
    (kvdbGetOn id true (some ⟨[106], by decide⟩) w').map Prod.fst = .ok (some [120]) := by
  have small : forged.1.length ≤ maxValue := by decide +kernel
  have accepted : Accepted ⟨[107], by decide⟩ forged := ⟨by decide, by decide, small⟩
  obtain ⟨w', put⟩ := kvdbPut_accepted written_openedDb.file.1 accepted
  refine ⟨openedDb, w', written_openedDb, put, rfl, ?_⟩
  have piece : fgets 500 ⟨left forged.1, false⟩ = (some (forged.1.take 499), ⟨left [120], false⟩) := by
    have last : forged.1.drop 499 = [120] := by decide +kernel
    rw [fgets_piece (by decide +kernel) (by decide +kernel), last]
  have scan : scanHeaderOn id (cstr (forged.1.take 499)) = some (1, [106]) := by decide +kernel
  have read : readValue 1 ⟨left [120], false⟩ = .ok (some [120], ⟨[], false⟩) := rfl
  have found : search id [106] ⟨left forged.1, false⟩ none = .ok (some [120]) := by
    rw [search_hit rfl piece scan read, search_empty]
    rfl
  rw [(written_openedDb.put put).get (by decide), search_records_append, records, search_empty, ok_bind,
    search_record_left small (by decide) (by decide) (by decide)]
  dsimp only
  rw [found]
  rfl

/-- A value that reads as a header, but is followed by the mark alone. -/
theorem keys_apart_iff_header : ∃ w w', Written w [(⟨[106], by decide⟩, ⟨[120], by decide⟩)] ∧
    kvdbPut true (some ⟨[107], by decide⟩) (some ⟨[49, 58, 106], by decide⟩) w = .ok (0, w') ∧
    (kvdbGetOn id true (some ⟨[106], by decide⟩) w').map Prod.fst =
      (kvdbGetOn id true (some ⟨[106], by decide⟩) w).map Prod.fst ∧
    kvdbGetOn id true (some ⟨[106], by decide⟩) w = .ok (some [120], w) := by
  have first : Accepted ⟨[106], by decide⟩ ⟨[120], by decide⟩ := ⟨by decide, by decide, by decide⟩
  have accepted : Accepted ⟨[107], by decide⟩ ⟨[49, 58, 106], by decide⟩ := ⟨by decide, by decide, by decide⟩
  obtain ⟨w, put⟩ := kvdbPut_accepted written_openedDb.file.1 first
  have run := written_openedDb.put put
  obtain ⟨w', put'⟩ := kvdbPut_accepted run.file.1 accepted
  have harmless : Harmless id [106] [49, 58, 106] := by
    refine .last (by decide) fun n scan => ?_
    have one : scanHeaderOn id ([49, 58, 106] ++ [newline]) = some (1, [106]) := by decide
    rw [one] at scan
    obtain ⟨rfl, -⟩ := Prod.mk.inj (Option.some.inj scan)
    decide
  have apart := keys_apart_iff id ⟨[106], by decide⟩ (by decide)
  refine ⟨w, w', run, put', ?_, ?_⟩
  · exact (apart.1 _ _ (by decide) accepted (by decide) (by decide)).2 harmless w _ w' run put'
  · refine apart.2 w _ run ?_ ?_
    · intro p member
      rw [List.mem_singleton.1 member]
      decide
    · intro p member other
      rw [List.mem_singleton.1 member] at other
      exact absurd rfl other

end OsLab.Kvdb
