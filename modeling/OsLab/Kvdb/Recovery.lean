import OsLab.Kvdb.Torn
import OsLab.Kvdb.Puts
import Mathlib.Data.List.Induction
import Mathlib.Data.List.Infix

/-!
# Puts after a crash

A process opens a file at whose end a crash has left the start of a record, and puts more
records behind it. Only the newline that starts the next record parts the two. It is enough
where the reader does not take the torn record for the header of a value that is still to
come: those are the cuts of `CleanCut`, and for every other one there are puts that get lost.
-/

namespace OsLab.Kvdb

open OsLab.Stdio OsLab.Decimal

/-- Runs of a process over a file, with the puts that returned 0. -/
inductive Recovered (store : Int → Int) (file : List UInt8) : World → List (CStr × CStr) → Prop where
  | opened {filename : CStr} {w w' : World} :
      w.files filename = some file → kvdbOpen true filename w = (0, w') → Recovered store file w' []
  | put {w w' : World} {later : List (CStr × CStr)} {opens : Bool} {key value : CStr} :
      Recovered store file w later → newline ∉ key.1 → newline ∉ value.1 → colon ∉ value.1 →
      kvdbPut opens (some key) (some value) w = .ok (0, w') → Recovered store file w' (later ++ [(key, value)])
  | get {w w' : World} {later : List (CStr × CStr)} {opens : Bool} {key : Option CStr} {r : Option (List UInt8)} :
      Recovered store file w later → kvdbGetOn store opens key w = .ok (r, w') → Recovered store file w' later

/-- The record is cut before the first character of its key, or behind the newline that ends
its value; with a whole mark its value must be the one that is stored already. -/
def CleanCut (puts : List (CStr × CStr)) (key value : CStr) (torn : List UInt8) : Prop :=
  torn <+: newline :: header value.1.length [] ∨
    ∃ m, torn = newline :: (header value.1.length key.1 ++ newline :: (value.1 ++ newline :: m)) ∧
      (3 ≤ m.length → lastPut key puts = some value)

/-- What runs over a file keep. -/
structure Appended (file : List UInt8) (w : World) (later : List (CStr × CStr)) : Prop where
  unlocked : w.db.locked = false
  file : w.files w.db.filename = some (file ++ records later)
  simple : ∀ p ∈ later, Simple p.1 p.2

section Runs

variable {store : Int → Int} {file : List UInt8} {w w' : World} {later puts : List (CStr × CStr)} {key value : CStr}

theorem appended_open {filename : CStr} (exists' : w.files filename = some file)
    (run : kvdbOpen true filename w = (0, w')) : Appended file w' [] := by
  unfold kvdbOpen at run
  split at run
  · simp at run
  dsimp only at run
  split at run
  · simp at run
  simp only [if_true] at run
  obtain ⟨-, rfl⟩ := Prod.mk.inj run
  refine ⟨rfl, ?_, by simp⟩
  simp [append, unlockMutex, exists', records]

theorem appended_put {opens : Bool} (inv : Appended file w later) (plainKey : newline ∉ key.1)
    (plainValue : newline ∉ value.1) (text : colon ∉ value.1)
    (run : kvdbPut opens (some key) (some value) w = .ok (0, w')) : Appended file w' (later ++ [(key, value)]) := by
  obtain ⟨⟨some', short, small⟩, rfl⟩ := kvdbPut_ok inv.unlocked run
  refine ⟨inv.unlocked, ?_, ?_⟩
  · simp [append, inv.file, records_concat]
  · intro p member
    rcases List.mem_append.1 member with member | member
    · exact inv.simple p member
    · rw [List.mem_singleton.1 member]
      exact ⟨some', short, small, plainKey, plainValue, text⟩

theorem appended_get {opens : Bool} {key : Option CStr} {r : Option (List UInt8)} (inv : Appended file w later)
    (run : kvdbGetOn store opens key w = .ok (r, w')) : Appended file w' later := by
  unfold kvdbGetOn at run
  cases key with
  | none =>
    obtain ⟨-, rfl⟩ := Prod.mk.inj (Except.ok.inj run)
    exact inv
  | some key =>
    by_cases rejected : key.1.length = 0 ∨ key.1.length > 128
    · simp only [if_pos rejected] at run
      obtain ⟨-, rfl⟩ := Prod.mk.inj (Except.ok.inj run)
      exact inv
    · simp only [if_neg rejected] at run
      rw [lockMutex_free inv.unlocked, ok_bind] at run
      obtain ⟨found, -, run⟩ := bind_eq_ok.1 run
      obtain ⟨-, rfl⟩ := Prod.mk.inj (Except.ok.inj run)
      exact ⟨rfl, inv.file, inv.simple⟩

theorem Recovered.appended (run : Recovered store file w later) : Appended file w later := by
  induction run with
  | opened exists' ok => exact appended_open exists' ok
  | put _ plainKey plainValue text ok ih => exact appended_put ih plainKey plainValue text ok
  | get _ ok ih => exact appended_get ih ok

/-- `kvdb_get` searches the file. -/
theorem kvdbGetOn_eq {target : CStr} (inv : Appended file w later) (asked : target.1 ≠ [] ∧ target.1.length ≤ 128) :
    kvdbGetOn store true (some target) w =
      (search store target.1 ⟨file ++ records later, false⟩ none).map (·, w) :=
  kvdbGetOn_file inv.unlocked inv.file asked

/-- The puts of a list can be made, one after the other. -/
theorem recovered_puts (exists' : w.files w.db.filename = some file) (short : w.db.filename.1.length < 1024)
    (closed : w.db.state ≠ opened) (simple : ∀ p ∈ later, Simple p.1 p.2) : ∃ w', Recovered store file w' later := by
  induction later using List.reverseRecOn with
  | nil =>
    obtain ⟨w', run⟩ : ∃ w', kvdbOpen true w.db.filename w = (0, w') := by
      unfold kvdbOpen
      rw [if_neg closed]
      simp only [if_neg (Nat.not_le.2 short), if_true]
      exact ⟨_, rfl⟩
    exact ⟨w', .opened exists' run⟩
  | append_singleton later p ih =>
    obtain ⟨w', run⟩ := ih fun q member => simple q (List.mem_append_left _ member)
    have last := simple p (List.mem_append_right _ List.mem_cons_self)
    have accepted : ¬ (p.1.1.length = 0 ∨ p.1.1.length > 128 ∨ p.2.1.length > maxValue) := by
      have := last.some'
      have := last.short
      have := last.small
      simp [*]
    obtain ⟨w'', put⟩ : ∃ w'', kvdbPut true (some p.1) (some p.2) w' = .ok (0, w'') := by
      unfold kvdbPut
      simp only [if_neg accepted]
      rw [lockMutex_free run.appended.unlocked, ok_bind]
      exact ⟨_, rfl⟩
    exact ⟨w'', run.put last.plainKey last.plainValue last.text put⟩

theorem lastPut_append {target : CStr} :
    lastPut target (puts ++ later) = (lastPut target later).or (lastPut target puts) := by
  induction puts with
  | nil => simp [lastPut]
  | cons p puts ih => rw [List.cons_append, lastPut, lastPut, ih, Option.or_assoc]

end Runs

section Clean

variable {store : Int → Int} {puts later : List (CStr × CStr)} {target key value : CStr} {torn : List UInt8}
  {res res' : Option (List UInt8)}

/-- Records behind a line that the reader gets over, with or without its newline. -/
theorem search_resumed {l : List UInt8} (simple : ∀ p ∈ later, Simple p.1 p.2)
    (last : search store target.1 ⟨l, false⟩ res = .ok res')
    (line : ∀ rest, search store target.1 ⟨l ++ newline :: rest, false⟩ res = search store target.1 ⟨rest, false⟩ res') :
    search store target.1 ⟨l ++ records later, false⟩ res = .ok (((lastPut target later).map Subtype.val).or res') := by
  cases later with
  | nil => simpa [records, lastPut] using last
  | cons p later =>
    have rest : search store target.1 ⟨records (p :: later) ++ [], false⟩ res' = _ := search_records store [] res' simple
    rw [List.append_nil, search_empty, records, record_eq, List.cons_append, search_newline] at rest
    rw [records, record_eq, List.cons_append, line, rest]

/-- The reader gets over a clean cut. -/
theorem search_clean (store : Int → Int) (target : CStr) (simple : Simple key value) (start : torn <+: record key value)
    (clean : CleanCut puts key value torn) (stored : res = (lastPut target puts).map Subtype.val) :
    search store target.1 ⟨torn, false⟩ res = .ok res ∧
      ∀ rest, search store target.1 ⟨torn ++ newline :: rest, false⟩ res = search store target.1 ⟨rest, false⟩ res := by
  rcases clean with early | ⟨m, rfl, known⟩
  · -- no key has been written
    rcases prefix_cons_cases early with rfl | ⟨d, rfl, inHeader⟩
    · exact ⟨search_empty, fun rest => search_newline⟩
    simp only [search_newline, List.cons_append]
    rcases prefix_append_cases inHeader with digits | ⟨q, rfl, more⟩
    · have plain : newline ∉ d := fun member => newline_notMem_decimal (digits.subset member)
      have text : colon ∉ d := fun member => colon_notMem_decimal (digits.subset member)
      exact ⟨search_last plain text, fun rest => search_text plain text⟩
    rcases prefix_cons_cases more with rfl | ⟨q, rfl, past⟩
    · rw [List.append_nil]
      exact ⟨search_last newline_notMem_decimal colon_notMem_decimal,
        fun rest => search_text newline_notMem_decimal colon_notMem_decimal⟩
    obtain rfl := List.prefix_nil.1 past
    have header : decimal value.1.length ++ [colon] = header value.1.length [] := rfl
    rw [header]
    exact ⟨search_header_last (by simp) (by simp) simple.small (by simp),
      fun rest => search_header_other (by simp) (by simp) simple.small (by simp) (Or.inl rfl)⟩
  · -- the value has been written
    have mark : m <+: endMark ∨ m = endMark ++ [newline] := by
      rw [record_eq, body, List.prefix_cons_inj, List.prefix_append_right_inj, List.prefix_cons_inj,
        List.prefix_append_right_inj, List.prefix_cons_inj] at start
      exact List.prefix_concat_iff.1 start |>.symm
    have taken : 3 ≤ m.length → (valueFor target (key, value)).or res = res := by
      intro whole
      rw [stored, valueFor]
      by_cases same : key = target
      · simp [← same, known whole]
      · simp [same]
    rcases mark with inside | rfl
    · have plain : newline ∉ m := fun member => absurd (inside.subset member) (by decide)
      have text : colon ∉ m := fun member => absurd (inside.subset member) (by decide)
      constructor
      · have proper : newline :: (header value.1.length key.1 ++ newline :: (value.1 ++ newline :: m)) ≠
            record key value := by
          intro same
          have sizes := congrArg List.length same
          have := inside.length_le
          simp [record_eq, body] at sizes
          omega
        rw [search_torn store target res simple (.mark inside) proper]
        by_cases whole : m = endMark
        · rw [taken (by simp [whole, endMark]), ite_self]
        · rw [if_neg]
          simpa [record_eq, body] using whole
      · intro rest
        have next : fgets 10 ⟨m ++ newline :: rest, false⟩ = (some (m ++ [newline]), ⟨rest, false⟩) := by
          have := inside.length_le
          simp [endMark] at this
          exact fgets_line plain (by omega)
        simp only [List.cons_append, List.append_assoc, search_newline]
        by_cases same : target = key
        · subst same
          by_cases whole : m = endMark
          · subst whole
            rw [search_header simple.plainKey simple.short simple.small target.2 simple.some'
              (readValue_marked simple.small value.2 simple.plainValue next (by decide))]
            have stored := taken (by decide)
            rw [valueFor, if_pos rfl] at stored
            rw [stored]
          · have other : (cstr (m ++ [newline])).take 3 ≠ endMark := by
              have starts : m ∈ endMark.inits := (List.mem_inits _ _).2 inside
              simp [endMark] at starts whole
              rcases starts with rfl | rfl | rfl | rfl
              · decide
              · decide
              · decide
              · exact absurd rfl whole
            rw [search_header simple.plainKey simple.short simple.small target.2 simple.some'
              (readValue_unmarked simple.small simple.plainValue (Nat.le_refl _) next other), Option.none_or]
        · rw [search_value_other simple same, search_text simple.plainValue simple.text, search_text plain text]
    · have complete : newline :: (header value.1.length key.1 ++ newline ::
          (value.1 ++ newline :: (endMark ++ [newline]))) = record key value := (record_eq key value).symm
      have whole := taken (by decide)
      rw [complete]
      constructor
      · rw [← List.append_nil (record key value), search_record simple, whole, search_empty]
      · intro rest
        rw [search_record simple, whole, search_newline]

/-- After a clean cut no later put is lost. -/
theorem search_recovered (completed : ∀ p ∈ puts, Simple p.1 p.2) (simple : Simple key value)
    (start : torn <+: record key value) (clean : CleanCut puts key value torn) (later' : ∀ p ∈ later, Simple p.1 p.2) :
    search store target.1 ⟨(records puts ++ torn) ++ records later, false⟩ none =
      .ok ((lastPut target (puts ++ later)).map Subtype.val) := by
  obtain ⟨last, line⟩ := search_clean store target simple start clean rfl
  rw [List.append_assoc, search_records store _ _ completed, Option.or_none, search_resumed later' last line, lastPut_append,
    Option.map_or]

end Clean

section Lost

variable {store : Int → Int} {puts : List (CStr × CStr)} {key value : CStr} {torn : List UInt8}
  {res : Option (List UInt8)} {n : Nat}

/-- A line shorter than the target is no header of it. -/
theorem search_short {target l rest : List UInt8} (plain : newline ∉ l) (short : l.length < target.length)
    (fits : l.length < 499) :
    search store target ⟨l ++ newline :: rest, false⟩ res = search store target ⟨rest, false⟩ res := by
  apply search_skip rfl (fgets_line plain (by omega))
  rintro vlen k scan rfl
  have upto : (cstr (l ++ [newline])).length ≤ (l ++ [newline]).length := (List.takeWhile_prefix _).length_le
  have longer := scanHeaderOn_length scan
  simp at upto
  omega

/-- What follows the header of a record of one letter. -/
def letterTail (c : UInt8) : List UInt8 := c :: newline :: (endMark ++ [newline])

theorem search_letterTail {target : CStr} {c : UInt8} (letter : c = 97 ∨ c = 98) :
    search store target.1 ⟨letterTail c, false⟩ res = .ok res := by
  have line : search store target.1 ⟨[c] ++ newline :: (endMark ++ newline :: []), false⟩ res = .ok res := by
    rw [search_text, search_mark, search_empty]
    · rcases letter with rfl | rfl <;> decide
    · rcases letter with rfl | rfl <;> decide
  exact line

/-- What `fgets` leaves of a line shorter than the target, before the record of one letter. -/
theorem search_left (store : Int → Int) (res : Option (List UInt8)) {target : CStr} {l m : List UInt8} {c : UInt8} {s : Stream} (letter : c = 97 ∨ c = 98)
    (plain : newline ∉ l) (shorter : l.length < target.1.length + 9) (short : target.1.length ≤ 128)
    (next : fgets 10 ⟨l ++ newline :: letterTail c, false⟩ = (some m, s)) :
    search store target.1 s res = .ok res := by
  rw [fgets_upto plain (by decide)] at next
  split at next
  · rw [← (Prod.mk.inj next).2, search_letterTail letter]
  · rw [← (Prod.mk.inj next).2, search_short, search_letterTail letter]
    · exact fun member => plain (List.mem_of_mem_drop member)
    · rw [List.length_drop]
      omega
    · rw [List.length_drop]
      omega

theorem header_one (k : List UInt8) : header 1 k = 49 :: colon :: k := rfl

/-- A record of one letter that is read as a value: the letter is not found, and nothing else of the record. -/
theorem readValue_swallow (store : Int → Int) {target : CStr} {c : UInt8} (letter : c = 97 ∨ c = 98) (small : n ≤ maxValue)
    (plain : newline ∉ target.1) (short : target.1.length ≤ 128) :
    ∃ found s, readValue n ⟨header 1 target.1 ++ newline :: letterTail c, false⟩ = .ok (found, s) ∧
      found ≠ some [c] ∧ ∀ res, search store target.1 s res = .ok res := by
  have plainHeader : newline ∉ header 1 target.1 := newline_notMem_header plain
  have size : (header 1 target.1).length = target.1.length + 2 := by simp [header_one]
  rw [readValue_eq small, fgets_upto plainHeader (by omega)]
  by_cases whole : (header 1 target.1).length + 1 < n + 5
  · -- the header is read as the value, the letter as the mark
    have next : fgets 10 ⟨letterTail c, false⟩ = (some [c, newline], ⟨endMark ++ newline :: [], false⟩) :=
      fgets_line (l := [c]) (by rcases letter with rfl | rfl <;> decide) (by simp)
    have other : (cstr [c, newline]).take 3 ≠ endMark := by rcases letter with rfl | rfl <;> decide
    refine ⟨none, ⟨endMark ++ newline :: [], false⟩, ?_, by simp, fun res => by rw [search_mark, search_empty]⟩
    rw [if_pos whole]
    simp only [next]
    rw [if_pos other]
  · -- the start of the header is read as the value
    have rest : newline ∉ (header 1 target.1).drop (n + 4) := fun member => plainHeader (List.mem_of_mem_drop member)
    have shorter : ((header 1 target.1).drop (n + 4)).length < target.1.length + 9 := by
      rw [List.length_drop]
      omega
    obtain ⟨m, s, next⟩ : ∃ m s, fgets 10 ⟨(header 1 target.1).drop (n + 4) ++ newline :: letterTail c, false⟩ =
        (some m, s) := by
      rw [fgets_upto rest (by decide)]
      split <;> exact ⟨_, _, rfl⟩
    have left := fun res => search_left store res letter rest shorter short next
    rw [if_neg whole, show n + 5 - 1 = n + 4 by omega]
    simp only [next]
    split
    · exact ⟨none, s, rfl, by simp, left⟩
    · refine ⟨_, s, rfl, ?_, left⟩
      intro same
      have start : (cstr ((header 1 target.1).take (n + 4))).take n <+: header 1 target.1 :=
        (List.take_prefix _ _).trans ((List.takeWhile_prefix _).trans (List.take_prefix _ _))
      rw [Option.some.inj same, header_one, List.cons_prefix_cons] at start
      rcases letter with rfl | rfl
      · exact absurd start.1 (by decide)
      · exact absurd start.1 (by decide)

/-- A letter that is not stored under the key. -/
theorem exists_letter (stored : Option CStr) : ∃ value : CStr, ∃ c, value.1 = [c] ∧ (c = 97 ∨ c = 98) ∧ stored ≠ some value := by
  by_cases first : stored = some ⟨[97], by decide⟩
  · refine ⟨⟨[98], by decide⟩, 98, rfl, Or.inr rfl, ?_⟩
    rw [first]
    decide
  · exact ⟨⟨[97], by decide⟩, 97, rfl, Or.inl rfl, first⟩

theorem simple_letter {target value : CStr} {c : UInt8} (letter : c = 97 ∨ c = 98) (one : value.1 = [c])
    (some' : target.1 ≠ []) (short : target.1.length ≤ 128) (plain : newline ∉ target.1) : Simple target value := by
  refine ⟨some', short, ?_, plain, ?_, ?_⟩
  · simp [one, maxValue]
  · rcases letter with rfl | rfl <;> simp [one] <;> decide
  · rcases letter with rfl | rfl <;> simp [one] <;> decide

theorem records_letter {target value : CStr} {c : UInt8} (one : value.1 = [c]) :
    records [(target, value)] = newline :: (header 1 target.1 ++ newline :: letterTail c) := by
  simp [records, record_eq, body, one, letterTail]

end Lost

section Recovery

variable {store : Int → Int} {puts : List (CStr × CStr)} {key value : CStr} {torn : List UInt8}
  {res : Option (List UInt8)} {n : Nat}

/-- Cut behind some of the key: the first put to what is there of the key is read as a value. -/
theorem search_lost_key {target letter : CStr} {c : UInt8} (one : letter.1 = [c]) (choice : c = 97 ∨ c = 98)
    (some' : target.1 ≠ []) (plain : newline ∉ target.1) (short : target.1.length ≤ 128) (small : n ≤ maxValue)
    (unknown : res ≠ some [c]) :
    search store target.1 ⟨newline :: header n target.1 ++ records [(target, letter)], false⟩ res ≠ .ok (some [c]) := by
  obtain ⟨found, s, read, other, rest⟩ := readValue_swallow store choice small plain short
  rw [records_letter one, List.cons_append, search_newline,
    search_header plain short small target.2 some' read, rest]
  cases found with
  | none => simpa using unknown
  | some b => simpa using other

/-- Cut inside the value: the next record of the key stands where the mark is expected. -/
theorem search_lost_value {v : List UInt8} {letter : CStr} {c : UInt8} (one : letter.1 = [c])
    (choice : c = 97 ∨ c = 98) (simple : Simple key value) (inside : v <+: value.1) :
    search store key.1 ⟨newline :: (header value.1.length key.1 ++ newline :: v) ++ records [(key, letter)], false⟩ res =
      .ok res := by
  have plainHeader : newline ∉ header 1 key.1 := newline_notMem_header simple.plainKey
  obtain ⟨m, s, next, digit⟩ : ∃ m s, fgets 10 ⟨header 1 key.1 ++ newline :: letterTail c, false⟩ =
      (some (49 :: m), s) ∧ (cstr (49 :: m)).take 3 ≠ endMark := by
    rw [fgets_upto plainHeader (by decide)]
    have other : ∀ m, (cstr (49 :: m)).take 3 ≠ endMark := by
      intro m
      simp [cstr, endMark]
    split
    · exact ⟨_, _, rfl, other _⟩
    · exact ⟨_, _, rfl, other _⟩
  have plain : newline ∉ v := fun member => simple.plainValue (inside.subset member)
  have read := readValue_unmarked simple.small plain inside.length_le next digit
  have left := search_left store res choice plainHeader
    (by simp [header_one]) simple.short next
  rw [records_letter one, List.cons_append, search_newline, List.append_assoc, List.cons_append,
    search_header simple.plainKey simple.short simple.small key.2 simple.some' read, Option.none_or, left]

/-- Every run of further puts keeps the last put to every key readable. -/
def Recovers (store : Int → Int) (puts : List (CStr × CStr)) (torn : List UInt8) : Prop :=
  ∀ w later, Recovered store (records puts ++ torn) w later →
    ∀ target, ∃ w', kvdbGetOn store true (some target) w = .ok ((lastPut target (puts ++ later)).map Subtype.val, w')

/-- What recovery says of the reader. -/
theorem Recovers.read (law : Recovers store puts torn) (completed : ∀ p ∈ puts, Simple p.1 p.2)
    {later : List (CStr × CStr)} (simple : ∀ p ∈ later, Simple p.1 p.2) {target : CStr} (some' : target.1 ≠ [])
    (short : target.1.length ≤ 128) :
    search store target.1 ⟨torn ++ records later, false⟩ ((lastPut target puts).map Subtype.val) =
      .ok ((lastPut target (puts ++ later)).map Subtype.val) := by
  obtain ⟨w, run⟩ : ∃ w, Recovered store (records puts ++ torn) w later :=
    recovered_puts (w := ⟨⟨false, 0, ⟨[100], by decide⟩⟩, fun _ => some (records puts ++ torn)⟩) rfl
      (show [(100 : UInt8)].length < 1024 by decide) (show (0 : Int) ≠ opened by decide) simple
  obtain ⟨w', got⟩ := law w later run target
  rw [kvdbGetOn_eq run.appended ⟨some', short⟩, List.append_assoc, search_records store _ _ completed, Option.or_none] at got
  cases found : search store target.1 ⟨torn ++ records later, false⟩ ((lastPut target puts).map Subtype.val) with
  | error e =>
    rw [found] at got
    cases got
  | ok r =>
    rw [found] at got
    rw [(Prod.mk.inj (Except.ok.inj got)).1]

/-- A letter put to a key is found afterwards. -/
theorem Recovers.letter (law : Recovers store puts torn) (completed : ∀ p ∈ puts, Simple p.1 p.2)
    {target letter : CStr} (put : Simple target letter) :
    search store target.1 ⟨torn ++ records [(target, letter)], false⟩ ((lastPut target puts).map Subtype.val) =
      .ok (some letter.1) := by
  rw [law.read completed (by simpa using put) put.some' put.short]
  simp [lastPut_append, lastPut]

/-- A torn value that is found is stored already. -/
theorem Recovers.stored (law : Recovers store puts torn) (completed : ∀ p ∈ puts, Simple p.1 p.2)
    (simple : Simple key value)
    (found : search store key.1 ⟨torn, false⟩ ((lastPut key puts).map Subtype.val) = .ok (some value.1)) :
    lastPut key puts = some value := by
  have none : ∀ p ∈ ([] : List (CStr × CStr)), Simple p.1 p.2 := by simp
  have got := law.read completed none simple.some' simple.short
  rw [records, List.append_nil, found, List.append_nil] at got
  obtain ⟨v, same, equal⟩ := Option.map_eq_some_iff.1 (Except.ok.inj got).symm
  rw [same, Subtype.ext equal]

theorem cleanCut_of_recovers (completed : ∀ p ∈ puts, Simple p.1 p.2) (simple : Simple key value)
    (cut : Cut key value torn) (law : Recovers store puts torn) : CleanCut puts key value torn := by
  have fresh : ∀ (stored : Option CStr) (letter : CStr), stored ≠ some letter →
      stored.map Subtype.val ≠ some letter.1 := by
    intro stored letter differs same
    obtain ⟨v, rfl, equal⟩ := Option.map_eq_some_iff.1 same
    exact differs (by rw [Subtype.ext equal])
  cases cut with
  | nothing => exact Or.inl List.nil_prefix
  | length digits => exact Or.inl ((List.prefix_cons_inj _).2 (digits.trans (List.prefix_append _ _)))
  | key inside =>
    rename_i k
    by_cases none : k = []
    · rw [none]
      exact Or.inl List.prefix_rfl
    obtain ⟨target, rfl⟩ : ∃ target : CStr, target.1 = k := ⟨⟨k, fun zero => key.2 (inside.subset zero)⟩, rfl⟩
    have plain : newline ∉ target.1 := fun member => simple.plainKey (inside.subset member)
    have short : target.1.length ≤ 128 := Nat.le_trans inside.length_le simple.short
    obtain ⟨letter, c, one, choice, unknown⟩ := exists_letter (lastPut target puts)
    have got := law.letter completed (simple_letter choice one none short plain)
    have unknown := fresh _ _ unknown
    rw [one] at unknown got
    exact absurd got (search_lost_key one choice none plain short simple.small unknown)
  | value inside =>
    obtain ⟨letter, c, one, choice, unknown⟩ := exists_letter (lastPut key puts)
    have got := law.letter completed (simple_letter choice one simple.some' simple.short simple.plainKey)
    rw [search_lost_value one choice simple inside] at got
    exact absurd (Except.ok.inj got) (fresh _ _ unknown)
  | mark inside =>
    rename_i m
    refine Or.inr ⟨m, rfl, fun three => ?_⟩
    obtain rfl : m = endMark := inside.eq_of_length_le (by simpa [endMark] using three)
    have proper : newline :: (header value.1.length key.1 ++ newline :: (value.1 ++ newline :: endMark)) ≠
        record key value := by simp [record_eq, body]
    apply law.stored completed simple
    rw [search_torn store key _ simple (.mark List.prefix_rfl) proper, if_pos (by simp [record_eq, body]), valueFor, if_pos rfl]
    rfl
  | whole =>
    refine Or.inr ⟨endMark ++ [newline], record_eq key value, fun _ => law.stored completed simple ?_⟩
    rw [← List.append_nil (record key value), search_record simple, search_empty, valueFor, if_pos rfl]
    rfl

theorem recovers_of_cleanCut (completed : ∀ p ∈ puts, Simple p.1 p.2) (simple : Simple key value)
    (start : torn <+: record key value) (clean : CleanCut puts key value torn) : Recovers store puts torn := by
  intro w later run target
  have inv := run.appended
  by_cases asked : target.1 ≠ [] ∧ target.1.length ≤ 128
  · exact ⟨w, by rw [kvdbGetOn_eq inv asked, search_recovered completed simple start clean inv.simple]; rfl⟩
  · have none : lastPut target (puts ++ later) = none := by
      apply lastPut_none
      rintro p member rfl
      rcases List.mem_append.1 member with member | member
      · exact asked ⟨(completed p member).some', (completed p member).short⟩
      · exact asked ⟨(inv.simple p member).some', (inv.simple p member).short⟩
    have rejected : target.1.length = 0 ∨ target.1.length > 128 := by
      rw [not_and_or, not_not] at asked
      rcases asked with empty | long
      · exact Or.inl (by rw [empty]; rfl)
      · exact Or.inr (by omega)
    refine ⟨w, ?_⟩
    unfold kvdbGetOn
    simp only [if_pos rejected, none]
    rfl

/-- **Recovery.** Over a file that ends in the start of a record, every run of further puts
keeps the last put to every key readable exactly if the cut is clean. -/
theorem recovers_iff (completed : ∀ p ∈ puts, Simple p.1 p.2) (simple : Simple key value)
    (start : torn <+: record key value) : Recovers store puts torn ↔ CleanCut puts key value torn :=
  ⟨cleanCut_of_recovers completed simple (cut_of_start start), recovers_of_cleanCut completed simple start⟩

/-- A put to `k` cut behind its length. -/
theorem recovers_length : Recovers id [(⟨[107], by decide⟩, ⟨[97], by decide⟩)] [10, 49, 58] := by
  have first : Simple ⟨[107], by decide⟩ ⟨[97], by decide⟩ := by constructor <;> decide
  have second : Simple ⟨[107], by decide⟩ ⟨[98], by decide⟩ := by constructor <;> decide
  exact (recovers_iff (by simpa using first) second (by decide)).2 (Or.inl (by decide))

/-- A put of `b` to `k` is cut inside its value, and the put of `c` to `k` behind it is lost. -/
theorem put_lost : ∃ w w',
    [10, 49, 58, 107, 10, 98] <+: record ⟨[107], by decide⟩ ⟨[98], by decide⟩ ∧
      Recovered id (records [(⟨[107], by decide⟩, ⟨[97], by decide⟩)] ++ [10, 49, 58, 107, 10, 98]) w
        [(⟨[107], by decide⟩, ⟨[99], by decide⟩)] ∧
      kvdbGetOn id true (some ⟨[107], by decide⟩) w = .ok (some [97], w') ∧
      lastPut ⟨[107], by decide⟩ ([(⟨[107], by decide⟩, ⟨[97], by decide⟩)] ++
        [(⟨[107], by decide⟩, ⟨[99], by decide⟩)]) = some ⟨[99], by decide⟩ := by
  obtain ⟨w, open'⟩ : ∃ w, kvdbOpen true ⟨[100, 98], by decide⟩ ⟨⟨false, 0, ⟨[], by decide⟩⟩, fun _ =>
      some (records [(⟨[107], by decide⟩, ⟨[97], by decide⟩)] ++ [10, 49, 58, 107, 10, 98])⟩ = (0, w) := ⟨_, rfl⟩
  obtain ⟨w₁, put⟩ : ∃ w', kvdbPut true (some ⟨[107], by decide⟩) (some ⟨[99], by decide⟩) w = .ok (0, w') := by
    cases open'
    exact ⟨_, rfl⟩
  have run := (show Recovered id _ w [] from .opened rfl open').put (by decide) (by decide) (by decide) put
  obtain ⟨w₂, get⟩ : ∃ w', kvdbGetOn id true (some ⟨[107], by decide⟩) w₁ = .ok (some [97], w') := by
    cases open'
    cases put
    exact ⟨_, rfl⟩
  exact ⟨w₁, w₂, by decide, run, get, rfl⟩

end Recovery

end OsLab.Kvdb
