import OsLab.Kvdb.Puts

/-!
# The log of a file cut short

`find_db` over values without a colon. What `%d` stores for a number outside `int` is not
said by the C standard: here it is a parameter `store` of the reader, and nothing below
depends on it. A reading that `findDb` defines is the same for every `store`.

The loop needs one iteration for each line at most, so `search` runs it with as many as the
rest of the file has characters, and its lemmas say nothing of iterations.
-/

namespace OsLab.Kvdb

open OsLab.Stdio OsLab.Decimal

/-- The character between the length and the key. -/
def colon : UInt8 := 58

/-- `sscanf(buf, "%d:%[^\n]\n", &vlen, key)`, where `%d` stores `store n` for a number `n` that
is no `int`. -/
def scanHeaderOn (store : Int → Int) (buf : List UInt8) : Option (Int × List UInt8) :=
  match scanInt buf with
  | some (vlen, 58 :: rest) =>
    let key := rest.takeWhile (· ≠ newline)
    if key = [] then none else some (if FitsInt vlen then vlen else store vlen, key)
  | _ => none

/-- The loop of `find_db`. -/
def findLoopOn (store : Int → Int) (target : List UInt8) :
    Nat → Stream → Option (List UInt8) → Except Stop (Option (List UInt8))
  | 0, _, _ => .error .diverge
  | fuel + 1, s, res =>
    if s.eof then
      .ok res
    else
      match fgets 500 s with
      | (none, s) => findLoopOn store target fuel s res
      | (some buf, s) =>
        match scanHeaderOn store (cstr buf) with
        | none => findLoopOn store target fuel s res
        | some (vlen, key) =>
          if target ≠ key then
            findLoopOn store target fuel s res
          else
            match readValue vlen s with
            | .error e => .error e
            | .ok (none, s) => findLoopOn store target fuel s res
            | .ok (some value, s) => findLoopOn store target fuel s (some value)

/-- `find_db` -/
def findDbOn (store : Int → Int) (opens : Bool) (target : CStr) (w : World) :
    Except Stop (Option (List UInt8)) :=
  match w.files w.db.filename with
  | none => .ok none
  | some file => if opens then findLoopOn store target.1 (findFuel file) ⟨file, false⟩ none else .ok none

/-- `kvdb_get` -/
def kvdbGetOn (store : Int → Int) (opens : Bool) (key : Option CStr) (w : World) :
    Except Stop (Option (List UInt8) × World) :=
  match key with
  | none => .ok (none, w)
  | some key => do
    if key.1.length = 0 ∨ key.1.length > 128 then
      return (none, w)
    let w ← lockMutex w
    let value ← findDbOn store opens key w
    return (value, unlockMutex w)

section Defined

variable {store : Int → Int} {target : List UInt8}

theorem scanHeaderOn_of_scanHeader {buf : List UInt8} {r : Option (Int × List UInt8)}
    (scan : scanHeader buf = .ok r) : scanHeaderOn store buf = r := by
  unfold scanHeader at scan
  unfold scanHeaderOn
  cases number : scanInt buf with
  | none =>
    rw [number] at scan
    exact Except.ok.inj scan
  | some pair =>
    obtain ⟨vlen, rest⟩ := pair
    rw [number] at scan
    dsimp only at scan ⊢
    by_cases fits : FitsInt vlen
    · rw [if_pos fits] at scan
      split at scan <;> simp_all
      split at scan <;> simp_all
    · simp [fits] at scan

/-- A header is longer than its key. -/
theorem scanHeaderOn_length {buf k : List UInt8} {vlen : Int} (scan : scanHeaderOn store buf = some (vlen, k)) :
    k.length < buf.length := by
  unfold scanHeaderOn at scan
  split at scan
  · rename_i number rest found
    have inside := (scanInt_suffix found).length_le
    have taken := (List.takeWhile_prefix (p := (· ≠ newline)) (l := rest)).length_le
    dsimp only at scan
    split at scan
    · cases scan
    · rw [← (Prod.mk.inj (Option.some.inj scan)).2]
      simp at inside taken ⊢
      omega
  · cases scan

/-- A reading that is defined does not depend on `store`. -/
theorem findLoopOn_of_findLoop {fuel : Nat} {s : Stream} {res r : Option (List UInt8)}
    (run : findLoop target fuel s res = .ok r) : findLoopOn store target fuel s res = .ok r := by
  induction fuel generalizing s res with
  | zero => cases run
  | succ fuel ih =>
    rw [findLoop] at run
    rw [findLoopOn]
    by_cases ended : s.eof = true
    · simpa [ended] using run
    rw [if_neg ended] at run ⊢
    rcases line : fgets 500 s with ⟨_ | buf, s'⟩
    · rw [line] at run
      exact ih run
    rw [line] at run
    dsimp only at run ⊢
    cases scan : scanHeader (cstr buf) with
    | error e => simp [scan] at run
    | ok header =>
      rw [scan] at run
      rw [scanHeaderOn_of_scanHeader scan]
      cases header with
      | none => exact ih run
      | some header =>
        dsimp only at run ⊢
        by_cases other : target ≠ header.2
        · rw [if_pos other] at run ⊢
          exact ih run
        rw [if_neg other] at run ⊢
        rcases value : readValue header.1 s' with e | ⟨_ | v, s''⟩
        · simp [value] at run
        · rw [value] at run
          exact ih run
        · rw [value] at run
          exact ih run

theorem findDbOn_of_findDb {opens : Bool} {key : CStr} {w : World} {r : Option (List UInt8)}
    (run : findDb opens key w = .ok r) : findDbOn store opens key w = .ok r := by
  unfold findDb at run
  unfold findDbOn
  cases file : w.files w.db.filename with
  | none => simpa [file] using run
  | some bytes =>
    rw [file] at run
    dsimp only at run ⊢
    cases opens with
    | false => exact run
    | true => exact findLoopOn_of_findLoop run

/-- What `kvdb_get` returns where it is defined does not depend on `store`. -/
theorem kvdbGetOn_of_kvdbGet {opens : Bool} {key : Option CStr} {w w' : World} {r : Option (List UInt8)}
    (run : kvdbGet opens key w = .ok (r, w')) : kvdbGetOn store opens key w = .ok (r, w') := by
  unfold kvdbGet at run
  unfold kvdbGetOn
  cases key with
  | none => exact run
  | some key =>
    by_cases rejected : key.1.length = 0 ∨ key.1.length > 128
    · simpa only [if_pos rejected] using run
    simp only [if_neg rejected] at run ⊢
    obtain ⟨w₁, locked, run⟩ := bind_eq_ok.1 run
    obtain ⟨value, found, run⟩ := bind_eq_ok.1 run
    rw [locked, ok_bind, findDbOn_of_findDb found]
    exact run

end Defined

/-- The loop of `find_db` with as many iterations as it needs. -/
def search (store : Int → Int) (target : List UInt8) (s : Stream) (res : Option (List UInt8)) :
    Except Stop (Option (List UInt8)) :=
  findLoopOn store target (s.rest.length + 2) s res

section Search

variable {store : Int → Int} {target : List UInt8} {s s' s'' : Stream} {res : Option (List UInt8)}

theorem readValue_length_le {vlen : Int} {value : Option (List UInt8)} (read : readValue vlen s = .ok (value, s')) :
    s'.rest.length ≤ s.rest.length := by
  have first : (fgets (vlen + 5).toNat s).2.rest.length ≤ s.rest.length := fgets_length_le s
  have second : ∀ t, (fgets 10 t).2.rest.length ≤ t.rest.length := fgets_length_le
  unfold readValue at read
  split at read
  · cases read
  rcases line : fgets (vlen + 5).toNat s with ⟨_ | value, t⟩
  · rw [line] at read first
    rw [← (Prod.mk.inj (Except.ok.inj read)).2]
    exact first
  rw [line] at read first
  dsimp only at read
  split at read
  · cases read
  have both := Nat.le_trans (second t) first
  rcases mark : fgets 10 t with ⟨_ | mark', u⟩
  · rw [mark] at read both
    rw [← (Prod.mk.inj (Except.ok.inj read)).2]
    exact both
  rw [mark] at read both
  dsimp only at read
  split at read
  · rw [← (Prod.mk.inj (Except.ok.inj read)).2]
    exact both
  · rw [← (Prod.mk.inj (Except.ok.inj read)).2]
    exact both

theorem findLoopOn_succ {fuel : Nat} (enough : s.rest.length + 2 ≤ fuel ∨ s.eof = true ∧ 1 ≤ fuel) :
    findLoopOn store target (fuel + 1) s res = findLoopOn store target fuel s res := by
  induction fuel generalizing s res with
  | zero => omega
  | succ fuel ih =>
    rw [findLoopOn]
    conv => rhs; rw [findLoopOn]
    by_cases ended : s.eof = true
    · rw [if_pos ended, if_pos ended]
    rw [if_neg ended, if_neg ended]
    have enough : s.rest.length + 1 ≤ fuel := by
      rcases enough with enough | ⟨wrong, -⟩
      · omega
      · exact absurd wrong ended
    rcases line : fgets 500 s with ⟨_ | buf, s'⟩
    · rw [fgets_none line]
      exact ih (Or.inr ⟨rfl, by omega⟩)
    dsimp only
    have shorter := fgets_length_lt (by decide) line
    have next : s'.rest.length + 2 ≤ fuel ∨ s'.eof = true ∧ 1 ≤ fuel := Or.inl (by omega)
    cases scan : scanHeaderOn store (cstr buf) with
    | none => exact ih next
    | some header =>
      dsimp only
      split
      · exact ih next
      rcases value : readValue header.1 s' with e | ⟨_ | v, s''⟩
      · rfl
      · exact ih (Or.inl (by have := readValue_length_le value; omega))
      · exact ih (Or.inl (by have := readValue_length_le value; omega))

/-- More iterations than needed change nothing. -/
theorem findLoopOn_eq_search {fuel : Nat} (enough : s.rest.length + 2 ≤ fuel) :
    findLoopOn store target fuel s res = search store target s res := by
  induction fuel, enough using Nat.le_induction with
  | base => rfl
  | succ fuel enough ih => rw [findLoopOn_succ (Or.inl enough), ih]

@[simp] theorem search_ended (rest : List UInt8) : search store target ⟨rest, true⟩ res = .ok res := rfl

@[simp] theorem search_empty : search store target ⟨[], false⟩ res = .ok res := rfl

/-- A line that is no header of the target is skipped. -/
theorem search_skip {buf : List UInt8} (open' : s.eof = false) (line : fgets 500 s = (some buf, s'))
    (other : ∀ vlen key, scanHeaderOn store (cstr buf) = some (vlen, key) → target ≠ key) :
    search store target s res = search store target s' res := by
  have shorter := fgets_length_lt (by decide) line
  rw [← findLoopOn_eq_search (s := s') (show s'.rest.length + 2 ≤ s.rest.length + 1 by omega)]
  rw [search, findLoopOn, open', line]
  cases scan : scanHeaderOn store (cstr buf) with
  | none => simp [scan]
  | some header => simp [scan, other header.1 header.2 scan]

/-- A header of the target is followed by its value. -/
theorem search_hit {buf : List UInt8} {vlen : Int} {value : Option (List UInt8)} (open' : s.eof = false)
    (line : fgets 500 s = (some buf, s')) (scan : scanHeaderOn store (cstr buf) = some (vlen, target))
    (read : readValue vlen s' = .ok (value, s'')) :
    search store target s res = search store target s'' (value.or res) := by
  have shorter := fgets_length_lt (by decide) line
  have rest := readValue_length_le read
  rw [← findLoopOn_eq_search (s := s'') (show s''.rest.length + 2 ≤ s.rest.length + 1 by omega)]
  rw [search, findLoopOn, open', line]
  cases value <;> simp [scan, read]

/-- `kvdb_get` searches the file. -/
theorem kvdbGetOn_file {target : CStr} {w : World} {file : List UInt8} (free : w.db.locked = false)
    (holds : w.files w.db.filename = some file) (asked : target.1 ≠ [] ∧ target.1.length ≤ 128) :
    kvdbGetOn store true (some target) w = (search store target.1 ⟨file, false⟩ none).map (·, w) := by
  have accepted : ¬ (target.1.length = 0 ∨ target.1.length > 128) := by
    simp [asked.1]
    omega
  have found : findDbOn store true target { w with db := { w.db with locked := true } } =
      search store target.1 ⟨file, false⟩ none := by
    unfold findDbOn
    rw [holds]
    exact findLoopOn_eq_search (Nat.le_refl _)
  have same : unlockMutex { w with db := { w.db with locked := true } } = w := by simp [unlockMutex, ← free]
  unfold kvdbGetOn
  simp only [if_neg accepted]
  rw [lockMutex_free free, ok_bind, found]
  cases search store target.1 ⟨file, false⟩ none with
  | error e => rfl
  | ok r => exact congrArg (fun w => Except.ok (r, w)) same

end Search

section Text

variable {store : Int → Int} {target l rest : List UInt8} {res : Option (List UInt8)}

/-- Without a colon there is no header. -/
theorem scanHeaderOn_text (store : Int → Int) (text : colon ∉ l) : scanHeaderOn store (cstr l) = none := by
  unfold scanHeaderOn
  split
  · rename_i vlen rest scan
    have inside : colon ∈ cstr l := (scanInt_suffix scan).subset List.mem_cons_self
    exact absurd (List.takeWhile_subset _ inside) text
  · rfl

/-- A line of text without a colon is skipped, in pieces of 499 characters. -/
theorem search_text (plain : newline ∉ l) (text : colon ∉ l) :
    search store target ⟨l ++ newline :: rest, false⟩ res = search store target ⟨rest, false⟩ res := by
  induction n : l.length using Nat.strong_induction_on generalizing l with
  | _ n ih =>
    by_cases long : 499 ≤ l.length
    · have size : (l.take 499).length = 499 := by simp [long]
      have piece : fgets ((l.take 499).length + 1) ⟨l.take 499 ++ (l.drop 499 ++ newline :: rest), false⟩ =
          (some (l.take 499), ⟨l.drop 499 ++ newline :: rest, false⟩) :=
        fgets_part (fun member => plain (List.mem_of_mem_take member)) (by omega)
      rw [size, ← List.append_assoc, List.take_append_drop] at piece
      have none := scanHeaderOn_text (l := l.take 499) store fun member => text (List.mem_of_mem_take member)
      rw [search_skip rfl piece (by simp [none])]
      exact ih (l.drop 499).length (by simp; omega) (fun member => plain (List.mem_of_mem_drop member))
        (fun member => text (List.mem_of_mem_drop member)) rfl
    · have none : scanHeaderOn store (cstr (l ++ [newline])) = none := by
        apply scanHeaderOn_text
        simpa [newline, colon] using text
      exact search_skip rfl (fgets_line plain (by omega)) (by simp [none])

/-- Text without a colon at the end of the file. -/
theorem search_last (plain : newline ∉ l) (text : colon ∉ l) :
    search store target ⟨l, false⟩ res = .ok res := by
  induction n : l.length using Nat.strong_induction_on generalizing l with
  | _ n ih =>
    by_cases empty : l = []
    · rw [empty, search_empty]
    by_cases long : 499 ≤ l.length
    · have size : (l.take 499).length = 499 := by simp [long]
      have piece : fgets ((l.take 499).length + 1) ⟨l.take 499 ++ l.drop 499, false⟩ =
          (some (l.take 499), ⟨l.drop 499, false⟩) :=
        fgets_part (fun member => plain (List.mem_of_mem_take member)) (by omega)
      rw [size, List.take_append_drop] at piece
      have none := scanHeaderOn_text (l := l.take 499) store fun member => text (List.mem_of_mem_take member)
      rw [search_skip rfl piece (by simp [none])]
      exact ih (l.drop 499).length (by simp; omega) (fun member => plain (List.mem_of_mem_drop member))
        (fun member => text (List.mem_of_mem_drop member)) rfl
    · have none := scanHeaderOn_text store text
      rw [search_skip rfl (fgets_last plain empty (by omega)) (by simp [none]), search_ended]

end Text

/-- A put that `kvdb_put` accepts, of a key of one line and a value of one line without a colon. -/
structure Simple (key value : CStr) : Prop where
  some' : key.1 ≠ []
  short : key.1.length ≤ 128
  small : value.1.length ≤ maxValue
  plainKey : newline ∉ key.1
  plainValue : newline ∉ value.1
  text : colon ∉ value.1

/-- The header of a value of `n` characters under a key, without its newline. -/
def header (n : Nat) (key : List UInt8) : List UInt8 := decimal n ++ colon :: key

/-- A record behind its first newline. -/
def body (key value : CStr) : List UInt8 :=
  header value.1.length key.1 ++ newline :: (value.1 ++ newline :: (endMark ++ [newline]))

theorem record_eq (key value : CStr) : record key value = newline :: body key value := by
  simp [record, body, header, colon]

section Header

variable {store : Int → Int} {target key rest : List UInt8} {n : Nat} {res : Option (List UInt8)}

theorem digit_bounds {c : UInt8} (member : c ∈ decimal n) : 48 ≤ c.toNat ∧ c.toNat ≤ 57 :=
  decide_eq_true_iff.1 (isDigit_decimal c member)

theorem newline_notMem_decimal : newline ∉ decimal n := fun member => absurd (digit_bounds member).1 (by decide)

theorem colon_notMem_decimal : colon ∉ decimal n := fun member => absurd (digit_bounds member).2 (by decide)

theorem length_header_le (small : n ≤ maxValue) : (header n key).length ≤ key.length + 9 := by
  have digits : (decimal n).length ≤ 8 := length_decimal_le (by decide) (Nat.lt_of_le_of_lt small (by decide))
  simp [header]
  omega

theorem newline_notMem_header (plain : newline ∉ key) : newline ∉ header n key := by
  simp [header, newline_notMem_decimal, plain]
  decide

theorem cstr_header {tail : List UInt8} (terminated : 0 ∉ key) (end' : 0 ∉ tail) :
    cstr (header n key ++ tail) = header n key ++ tail := by
  have numeral : (0 : UInt8) ∉ decimal n := fun member => absurd (digit_bounds member).1 (by decide)
  apply cstr_eq
  simp [header, numeral, terminated, end']
  decide

/-- What a header reads as, with its newline or without. -/
theorem scanHeaderOn_header (store : Int → Int) {tail : List UInt8} (plain : newline ∉ key) (small : n ≤ maxValue)
    (end' : tail = [] ∨ tail = [newline]) :
    scanHeaderOn store (header n key ++ tail) = if key = [] then none else some ((n : Int), key) := by
  have fits : FitsInt (n : Int) := by
    unfold FitsInt
    unfold maxValue at small
    omega
  have line : (key ++ tail).takeWhile (· ≠ newline) = key := by
    have all : ∀ c ∈ key, decide (c ≠ newline) = true := by
      intro c member
      apply decide_eq_true
      rintro rfl
      exact plain member
    rw [List.takeWhile_append_of_pos all]
    rcases end' with rfl | rfl <;> simp
  have scan : scanInt (header n key ++ tail) = some ((n : Int), 58 :: (key ++ tail)) := by
    rw [header, List.append_assoc, List.cons_append]
    exact scanInt_decimal (by decide)
  unfold scanHeaderOn
  rw [scan]
  simp only [line, if_pos fits]

theorem fgets_header (plain : newline ∉ key) (short : key.length ≤ 128) (small : n ≤ maxValue) :
    fgets 500 ⟨header n key ++ newline :: rest, false⟩ = (some (header n key ++ [newline]), ⟨rest, false⟩) := by
  have size : (header n key).length ≤ key.length + 9 := length_header_le small
  exact fgets_line (newline_notMem_header plain) (by omega)

theorem search_header_other (plain : newline ∉ key) (short : key.length ≤ 128) (small : n ≤ maxValue)
    (terminated : 0 ∉ key) (other : key = [] ∨ target ≠ key) :
    search store target ⟨header n key ++ newline :: rest, false⟩ res = search store target ⟨rest, false⟩ res := by
  apply search_skip rfl (fgets_header plain short small)
  rw [cstr_header terminated (by decide), scanHeaderOn_header store plain small (Or.inr rfl)]
  intro vlen k scan same
  split at scan
  · cases scan
  · rename_i some'
    obtain ⟨-, rfl⟩ := Prod.mk.inj (Option.some.inj scan)
    rcases other with empty | other
    · exact some' empty
    · exact other same

theorem search_header {value : Option (List UInt8)} {s : Stream} (plain : newline ∉ key) (short : key.length ≤ 128)
    (small : n ≤ maxValue) (terminated : 0 ∉ key) (some' : key ≠ []) (read : readValue n ⟨rest, false⟩ = .ok (value, s)) :
    search store key ⟨header n key ++ newline :: rest, false⟩ res = search store key s (value.or res) := by
  refine search_hit rfl (fgets_header plain short small) ?_ read
  rw [cstr_header terminated (by decide), scanHeaderOn_header store plain small (Or.inr rfl), if_neg some']

end Header

section Records

variable {store : Int → Int} {target : CStr} {puts : List (CStr × CStr)} {rest : List UInt8} {res : Option (List UInt8)}

/-- The stored value if the key is the target. -/
def valueFor (target : CStr) (put : CStr × CStr) : Option (List UInt8) :=
  if put.1 = target then some put.2.1 else none

theorem search_newline : search store target.1 ⟨newline :: rest, false⟩ res = search store target.1 ⟨rest, false⟩ res :=
  search_text (l := []) List.not_mem_nil List.not_mem_nil

/-- The mark alone is skipped. -/
theorem search_mark : search store target.1 ⟨endMark ++ newline :: rest, false⟩ res =
    search store target.1 ⟨rest, false⟩ res :=
  search_text (by decide) (by decide)

/-- A record is read whole, from behind its first newline. -/
theorem search_body {key value : CStr} (simple : Simple key value) :
    search store target.1 ⟨body key value ++ rest, false⟩ res =
      search store target.1 ⟨rest, false⟩ ((valueFor target (key, value)).or res) := by
  have layout : body key value ++ rest = header value.1.length key.1 ++ newline ::
      (value.1 ++ newline :: (endMark ++ newline :: rest)) := by simp [body]
  rw [layout, valueFor]
  by_cases same : key = target
  · subst same
    rw [if_pos rfl]
    exact search_header simple.plainKey simple.short simple.small key.2 simple.some'
      (readValue_record value.2 simple.plainValue simple.small)
  · have other : target.1 ≠ key.1 := fun equal => same (Subtype.ext equal.symm)
    rw [if_neg same, Option.none_or,
      search_header_other simple.plainKey simple.short simple.small key.2 (Or.inr other),
      search_text simple.plainValue simple.text, search_mark]

theorem search_record {key value : CStr} (simple : Simple key value) :
    search store target.1 ⟨record key value ++ rest, false⟩ res =
      search store target.1 ⟨rest, false⟩ ((valueFor target (key, value)).or res) := by
  rw [record_eq, List.cons_append, search_newline, search_body simple]

/-- The log of completed puts, from any point between two records. -/
theorem search_records (store : Int → Int) (rest : List UInt8) (res : Option (List UInt8)) (simple : ∀ p ∈ puts, Simple p.1 p.2) :
    search store target.1 ⟨records puts ++ rest, false⟩ res =
      search store target.1 ⟨rest, false⟩ (((lastPut target puts).map Subtype.val).or res) := by
  induction puts generalizing res with
  | nil => rfl
  | cons p puts ih =>
    rw [records, List.append_assoc, search_record (simple p List.mem_cons_self),
      ih _ fun q member => simple q (List.mem_cons_of_mem p member), lastPut, Option.map_or, Option.or_assoc, valueFor]
    by_cases same : p.1 = target <;> simp [same]

end Records

end OsLab.Kvdb
