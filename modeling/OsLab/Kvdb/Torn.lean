import OsLab.Kvdb.Log

/-!
# A torn last record

A crash inside `kvdb_put` leaves the start of a record at the end of the file. `Cut` says what
the start of a record looks like, for each place where the record can be cut, and the reader
is followed through each of them.
-/

namespace OsLab.Kvdb

open OsLab.Stdio OsLab.Decimal

/-- The starts of a record. -/
inductive Cut (key value : CStr) : List UInt8 → Prop where
  | nothing : Cut key value []
  | length {d : List UInt8} : d <+: decimal value.1.length → Cut key value (newline :: d)
  | key {k : List UInt8} : k <+: key.1 → Cut key value (newline :: header value.1.length k)
  | value {v : List UInt8} : v <+: value.1 →
      Cut key value (newline :: (header value.1.length key.1 ++ newline :: v))
  | mark {m : List UInt8} : m <+: endMark →
      Cut key value (newline :: (header value.1.length key.1 ++ newline :: (value.1 ++ newline :: m)))
  | whole : Cut key value (record key value)

section Prefixes

/-- The starts of two strings in a row. -/
theorem prefix_append_cases {α : Type} {p a b : List α} (start : p <+: a ++ b) :
    p <+: a ∨ ∃ q, p = a ++ q ∧ q <+: b := by
  rcases List.prefix_or_prefix_of_prefix start (List.prefix_append a b) with inside | ⟨q, rfl⟩
  · exact Or.inl inside
  · exact Or.inr ⟨q, rfl, (List.prefix_append_right_inj a).1 start⟩

theorem prefix_cons_cases {α : Type} {p b : List α} {c : α} (start : p <+: c :: b) :
    p = [] ∨ ∃ q, p = c :: q ∧ q <+: b := by
  cases p with
  | nil => exact Or.inl rfl
  | cons d q =>
    obtain ⟨rfl, inner⟩ := List.cons_prefix_cons.1 start
    exact Or.inr ⟨q, rfl, inner⟩

theorem cut_of_start {key value : CStr} {torn : List UInt8} (start : torn <+: record key value) :
    Cut key value torn := by
  rw [record_eq] at start
  rcases prefix_cons_cases start with rfl | ⟨p, rfl, inBody⟩
  · exact .nothing
  unfold body header at inBody
  rw [List.append_assoc] at inBody
  rcases prefix_append_cases inBody with digits | ⟨p, rfl, inColon⟩
  · exact .length digits
  rcases prefix_cons_cases inColon with rfl | ⟨p, rfl, inKey⟩
  · rw [List.append_nil]
    exact .length List.prefix_rfl
  rcases prefix_append_cases inKey with inside | ⟨p, rfl, inLine⟩
  · exact .key inside
  rcases prefix_cons_cases inLine with rfl | ⟨p, rfl, inValue⟩
  · rw [List.append_nil]
    exact .key List.prefix_rfl
  have layout : ∀ q, newline :: (decimal value.1.length ++ colon :: (key.1 ++ newline :: q)) =
      newline :: (header value.1.length key.1 ++ newline :: q) := by simp [header]
  rw [layout]
  rcases prefix_append_cases inValue with inside | ⟨p, rfl, inEnd⟩
  · exact .value inside
  rcases prefix_cons_cases inEnd with rfl | ⟨p, rfl, inMark⟩
  · rw [List.append_nil]
    exact .value List.prefix_rfl
  rcases prefix_append_cases inMark with inside | ⟨p, rfl, last⟩
  · exact .mark inside
  rcases prefix_cons_cases last with rfl | ⟨p, rfl, past⟩
  · rw [List.append_nil]
    exact .mark List.prefix_rfl
  obtain rfl := List.prefix_nil.1 past
  have complete : newline :: (header value.1.length key.1 ++ newline ::
      (value.1 ++ newline :: (endMark ++ [newline]))) = record key value := (record_eq key value).symm
  rw [complete]
  exact .whole

end Prefixes

section Value

variable {n : Nat} {v rest : List UInt8}

/-- A value whose buffer has a size that is an `int`. -/
theorem readValue_fit (fits : FitsInt ((n : Int) + 5)) (s : Stream) :
    readValue n s =
      match fgets (n + 5) s with
      | (none, s) => .ok (none, s)
      | (some value, s) =>
        match fgets 10 s with
        | (none, s) => .ok (none, s)
        | (some mark, s) =>
          if (cstr mark).take 3 ≠ endMark then .ok (none, s) else .ok (some ((cstr value).take n), s) := by
  have size : ¬ (¬ FitsInt ((n : Int) + 5) ∨ (n : Int) + 5 ≤ 0) := by
    rintro (unfit | negative)
    · exact unfit fits
    · omega
  unfold readValue
  rw [if_neg size, show ((n : Int) + 5).toNat = n + 5 by omega]
  rcases fgets (n + 5) s with ⟨_ | value, t⟩
  · rfl
  · exact if_neg (by omega)

/-- A length that `kvdb_put` writes is one that `find_db` can allocate. -/
theorem readValue_eq (small : n ≤ maxValue) (s : Stream) :
    readValue n s =
      match fgets (n + 5) s with
      | (none, s) => .ok (none, s)
      | (some value, s) =>
        match fgets 10 s with
        | (none, s) => .ok (none, s)
        | (some mark, s) =>
          if (cstr mark).take 3 ≠ endMark then .ok (none, s) else .ok (some ((cstr value).take n), s) := by
  apply readValue_fit
  unfold maxValue at small
  unfold FitsInt
  omega

/-- No value. -/
theorem readValue_end (small : n ≤ maxValue) {eof : Bool} : readValue n ⟨[], eof⟩ = .ok (none, ⟨[], true⟩) := by
  rw [readValue_eq small, fgets_end (by omega)]

/-- A value without its newline. -/
theorem readValue_part (small : n ≤ maxValue) (plain : newline ∉ v) (fits : v.length ≤ n) :
    readValue n ⟨v, false⟩ = .ok (none, ⟨[], true⟩) := by
  by_cases empty : v = []
  · rw [empty, readValue_end small]
  · rw [readValue_eq small, fgets_last plain empty (by omega)]
    simp [fgets_end]

/-- A line of a value, and what stands where the mark should. -/
theorem readValue_line (small : n ≤ maxValue) (plain : newline ∉ v) (fits : v.length ≤ n)
    {m : List UInt8} {s : Stream} (next : fgets 10 ⟨rest, false⟩ = (some m, s)) :
    readValue n ⟨v ++ newline :: rest, false⟩ =
      if (cstr m).take 3 ≠ endMark then .ok (none, s) else .ok (some ((cstr (v ++ [newline])).take n), s) := by
  rw [readValue_eq small, fgets_line plain (by omega)]
  simp only [next]

/-- The whole value, with something else than the mark behind it. -/
theorem readValue_unmarked (small : n ≤ maxValue) (plain : newline ∉ v) (fits : v.length ≤ n)
    {m : List UInt8} {s : Stream} (next : fgets 10 ⟨rest, false⟩ = (some m, s))
    (other : (cstr m).take 3 ≠ endMark) : readValue n ⟨v ++ newline :: rest, false⟩ = .ok (none, s) := by
  rw [readValue_line small plain fits next, if_pos other]

/-- The whole value, with the mark behind it. -/
theorem readValue_marked (small : v.length ≤ maxValue) (terminated : 0 ∉ v) (plain : newline ∉ v)
    {m : List UInt8} {s : Stream} (next : fgets 10 ⟨rest, false⟩ = (some m, s))
    (mark : (cstr m).take 3 = endMark) :
    readValue v.length ⟨v ++ newline :: rest, false⟩ = .ok (some v, s) := by
  have text : cstr (v ++ [newline]) = v ++ [newline] := by
    apply cstr_eq
    simp [terminated]
    decide
  rw [readValue_line small plain (Nat.le_refl _) next, if_neg (fun differs => differs mark), text,
    List.take_left' rfl]

end Value

section Torn

variable {store : Int → Int} {target key value : CStr} {torn : List UInt8} {res : Option (List UInt8)}

/-- A header at the end of the file. -/
theorem search_header_last {k : List UInt8} {n : Nat} (plain : newline ∉ k) (short : k.length ≤ 128)
    (small : n ≤ maxValue) (terminated : 0 ∉ k) :
    search store target.1 ⟨header n k, false⟩ res = .ok res := by
  have size : (header n k).length ≤ k.length + 9 := length_header_le small
  have line : fgets 500 ⟨header n k, false⟩ = (some (header n k), ⟨[], true⟩) :=
    fgets_last (newline_notMem_header plain) (by simp [header]) (by omega)
  have scan := scanHeaderOn_header store plain small (Or.inl rfl)
  rw [← cstr_header terminated List.not_mem_nil, List.append_nil] at scan
  by_cases hit : k ≠ [] ∧ target.1 = k
  · rw [hit.2]
    rw [if_neg hit.1] at scan
    rw [search_hit rfl line scan (readValue_end small), search_ended, Option.none_or]
  · rw [search_skip rfl line, search_ended]
    rw [scan]
    intro vlen key found same
    split at found
    · cases found
    · rename_i some'
      obtain ⟨-, rfl⟩ := Prod.mk.inj (Option.some.inj found)
      exact hit ⟨some', same⟩

/-- What stands behind the header line of a record that is not the last one's. -/
theorem search_value_other (simple : Simple key value) (other : target ≠ key) {rest : List UInt8} :
    search store target.1 ⟨header value.1.length key.1 ++ newline :: rest, false⟩ res =
      search store target.1 ⟨rest, false⟩ res :=
  search_header_other simple.plainKey simple.short simple.small key.2
    (Or.inr fun same => other (Subtype.ext same))

/-- **The torn record is not read**, but for its value if only the last newline is missing. -/
theorem search_torn (store : Int → Int) (target : CStr) (res : Option (List UInt8)) (simple : Simple key value) (cut : Cut key value torn) (proper : torn ≠ record key value) :
    search store target.1 ⟨torn, false⟩ res =
      .ok (if torn ++ [newline] = record key value then (valueFor target (key, value)).or res else res) := by
  have complete : ∀ rest, newline :: (header value.1.length key.1 ++ newline :: rest) ++ [newline] = record key value ↔
      rest = value.1 ++ newline :: endMark := by
    intro rest
    rw [record_eq, body, List.cons_append, List.append_assoc, List.cons_append,
      show value.1 ++ newline :: (endMark ++ [newline]) = (value.1 ++ newline :: endMark) ++ [newline] by simp,
      List.cons_inj_right, List.append_cancel_left_eq, List.cons_inj_right, List.append_left_inj]
  cases cut with
  | nothing =>
    rw [if_neg (by rw [record_eq]; simp [body, header]), search_empty]
  | length digits =>
    rename_i d
    have shorter := digits.length_le
    rw [search_newline, search_last (fun member => newline_notMem_decimal (digits.subset member))
      (fun member => colon_notMem_decimal (digits.subset member)), if_neg]
    intro same
    have sizes := congrArg List.length same
    simp [record_eq, body, header] at sizes
    omega
  | key inside =>
    rename_i k
    have shorter := inside.length_le
    rw [search_newline, search_header_last (fun member => simple.plainKey (inside.subset member))
      (Nat.le_trans shorter simple.short) simple.small (fun member => key.2 (inside.subset member)), if_neg]
    intro same
    have sizes := congrArg List.length same
    simp [record_eq, body, header] at sizes
    omega
  | value inside =>
    rename_i v
    have shorter := inside.length_le
    have plain : newline ∉ v := fun member => simple.plainValue (inside.subset member)
    have unfinished : ¬ v = value.1 ++ newline :: endMark := by
      rintro rfl
      simp at plain
    rw [search_newline, if_neg (fun same => unfinished ((complete v).1 same))]
    by_cases same : target = key
    · rw [same, search_header simple.plainKey simple.short simple.small key.2 simple.some'
        (readValue_part simple.small plain shorter), search_ended, Option.none_or]
    · rw [search_value_other simple same, search_last plain fun member => simple.text (inside.subset member)]
  | mark inside =>
    rename_i m
    have plain : newline ∉ m := fun member => absurd (inside.subset member) (by decide)
    have text : colon ∉ m := fun member => absurd (inside.subset member) (by decide)
    simp only [search_newline, complete]
    by_cases same : target = key
    · subst same
      rw [valueFor, if_pos rfl]
      by_cases none : m = []
      · have read : readValue value.1.length ⟨value.1 ++ newline :: m, false⟩ = .ok (Option.none, ⟨[], true⟩) := by
          rw [none, readValue_eq simple.small, fgets_line simple.plainValue (by omega)]
          simp [fgets_end]
        rw [search_header simple.plainKey simple.short simple.small target.2 simple.some' read, search_ended,
          Option.none_or, if_neg (by simp [none, endMark])]
      · have last : fgets 10 ⟨m, false⟩ = (some m, ⟨[], true⟩) :=
          fgets_last plain none (by have := inside.length_le; simp [endMark] at this; omega)
        by_cases whole : m = endMark
        · subst whole
          rw [search_header simple.plainKey simple.short simple.small target.2 simple.some'
            (readValue_marked simple.small value.2 simple.plainValue last (by decide)), search_ended, if_pos rfl]
        · have other : (cstr m).take 3 ≠ endMark := by
            intro start
            have long := congrArg List.length start
            have upto : (cstr m).length ≤ m.length := (List.takeWhile_prefix _).length_le
            apply whole
            apply inside.eq_of_length_le
            simp [endMark] at long ⊢
            omega
          rw [search_header simple.plainKey simple.short simple.small target.2 simple.some'
            (readValue_unmarked simple.small simple.plainValue (Nat.le_refl _) last other), search_ended,
            Option.none_or, if_neg (by simp [whole])]
    · rw [search_value_other simple same, search_text simple.plainValue simple.text, search_last plain text, valueFor,
        if_neg (Ne.symm same), Option.none_or, ite_self]
  | whole => exact absurd rfl proper

/-- **The torn tail is invisible.** Over the records of completed puts and a proper prefix of
one more record, `find_db` returns the value of the last completed put to the key, or the
torn value where nothing but the last newline of the record of this key is missing. -/
theorem findDb_torn {w : World} {puts : List (CStr × CStr)} (completed : ∀ p ∈ puts, Simple p.1 p.2)
    (simple : Simple key value) (start : torn <+: record key value) (proper : torn ≠ record key value)
    (file : w.files w.db.filename = some (records puts ++ torn)) :
    findDbOn store true target w =
      .ok (if key = target ∧ torn ++ [newline] = record key value then some value.1
        else (lastPut target puts).map Subtype.val) := by
  have read := search_torn store target (((lastPut target puts).map Subtype.val).or none) simple
    (cut_of_start start) proper
  unfold findDbOn
  rw [file]
  dsimp only
  rw [if_pos rfl, findLoopOn_eq_search (Nat.le_refl (findFuel (records puts ++ torn))), search_records store _ _ completed, read,
    Option.or_none]
  by_cases whole : torn ++ [newline] = record key value
  · by_cases same : key = target <;> simp [whole, same, valueFor]
  · simp [whole]

/-- Two puts to `k`, the second cut inside its value. -/
theorem findDb_torn_value : findDbOn id true ⟨[107], by decide⟩
    ⟨⟨false, 1, ⟨[], by decide⟩⟩, fun _ => some ([10, 49, 58, 107, 10, 97, 10, 69, 78, 68, 10] ++
      [10, 50, 58, 107, 10, 98])⟩ = .ok (some [97]) := by
  have first : Simple ⟨[107], by decide⟩ ⟨[97], by decide⟩ := by constructor <;> decide
  have second : Simple ⟨[107], by decide⟩ ⟨[98, 99], by decide⟩ := by constructor <;> decide
  have completed : ∀ p ∈ [((⟨[107], by decide⟩, ⟨[97], by decide⟩) : CStr × CStr)], Simple p.1 p.2 := by
    simpa using first
  have start : [10, 50, 58, 107, 10, 98] <+: record ⟨[107], by decide⟩ ⟨[98, 99], by decide⟩ := by decide
  exact findDb_torn completed second start (by decide) rfl

end Torn

end OsLab.Kvdb
