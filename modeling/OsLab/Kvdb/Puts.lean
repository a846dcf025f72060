import OsLab.Kvdb.Reader

/-!
# The last put wins

Runs of one process over a fresh database. A put is `Readable` if its key and its value are
one line each and no piece of the value reads as a header that does harm. After any number of
readable puts `kvdb_get` returns the value of the last put to its key.
-/

namespace OsLab.Kvdb

open OsLab.Stdio OsLab.Decimal

/-- A put that the reader can take apart again. -/
structure Readable (key value : CStr) : Prop where
  plainKey : newline ∉ key.1
  plainValue : newline ∉ value.1
  inert : Inert key.1 value.1

/-- Runs over a fresh database, with the puts that returned 0. -/
inductive Run : World → List (CStr × CStr) → Prop where
  | opened {filename : CStr} {w w' : World} :
      w.files filename = none ∨ w.files filename = some [] → kvdbOpen true filename w = (0, w') → Run w' []
  | put {w w' : World} {puts : List (CStr × CStr)} {opens : Bool} {key value : CStr} :
      Run w puts → Readable key value → kvdbPut opens (some key) (some value) w = .ok (0, w') →
      Run w' (puts ++ [(key, value)])
  | get {w w' : World} {puts : List (CStr × CStr)} {opens : Bool} {key : Option CStr}
      {r : Option (List UInt8)} :
      Run w puts → kvdbGet opens key w = .ok (r, w') → Run w' puts

/-- What runs keep: the mutex is free and the file holds the records of the puts. -/
structure Logged (w : World) (puts : List (CStr × CStr)) : Prop where
  unlocked : w.db.locked = false
  file : w.files w.db.filename = some (records puts)
  accepted : ∀ p ∈ puts, p.1.1 ≠ [] ∧ p.1.1.length ≤ 128 ∧ p.2.1.length ≤ maxValue
  plain : ∀ p ∈ puts, newline ∉ p.1.1 ∧ newline ∉ p.2.1 ∧ Inert p.1.1 p.2.1

section Steps

variable {w w' : World} {puts : List (CStr × CStr)}

theorem records_concat (key value : CStr) :
    records (puts ++ [(key, value)]) = records puts ++ record key value := by
  induction puts with
  | nil => exact List.append_nil _
  | cons p puts ih =>
    rw [List.cons_append, records, records, ih, List.append_assoc]

/-- No put, no value. -/
theorem lastPut_none {target : CStr} (other : ∀ p ∈ puts, p.1 ≠ target) : lastPut target puts = none := by
  induction puts with
  | nil => rfl
  | cons p puts ih =>
    rw [lastPut, ih fun q member => other q (List.mem_cons_of_mem p member),
      if_neg (other p List.mem_cons_self)]
    rfl

theorem lockMutex_free (free : w.db.locked = false) :
    lockMutex w = .ok { w with db := { w.db with locked := true } } := by
  unfold lockMutex
  rw [free]
  rfl

theorem logged_open {filename : CStr} (fresh : w.files filename = none ∨ w.files filename = some [])
    (run : kvdbOpen true filename w = (0, w')) : Logged w' [] := by
  unfold kvdbOpen at run
  by_cases again : w.db.state = opened
  · rw [if_pos again] at run
    cases run
  rw [if_neg again] at run
  by_cases long : filename.1.length ≥ 1024
  · simp only [if_pos long] at run
    cases run
  simp only [if_neg long, if_true] at run
  obtain ⟨-, rfl⟩ := Prod.mk.inj run
  refine ⟨rfl, ?_, fun p member => absurd member List.not_mem_nil, fun p member => absurd member List.not_mem_nil⟩
  show (if filename = filename then some ((w.files filename).getD [] ++ []) else _) = some []
  rw [if_pos rfl]
  rcases fresh with none | empty
  · rw [none]
    rfl
  · rw [empty]
    rfl

/-- A put that returns 0 is accepted, and appends its record. -/
theorem kvdbPut_ok {opens : Bool} {key value : CStr} (free : w.db.locked = false)
    (run : kvdbPut opens (some key) (some value) w = .ok (0, w')) :
    (key.1 ≠ [] ∧ key.1.length ≤ 128 ∧ value.1.length ≤ maxValue) ∧
      w' = append w.db.filename (record key value) w := by
  unfold kvdbPut at run
  by_cases rejected : key.1.length = 0 ∨ key.1.length > 128 ∨ value.1.length > maxValue
  · simp only [if_pos rejected] at run
    cases run
  simp only [if_neg rejected] at run
  rw [lockMutex_free free, ok_bind] at run
  cases opens with
  | false => cases run
  | true =>
    obtain ⟨-, rfl⟩ := Prod.mk.inj (Except.ok.inj run)
    simp only [not_or, Nat.not_lt, List.length_eq_zero_iff] at rejected
    refine ⟨rejected, ?_⟩
    simp [append, unlockMutex, ← free]

theorem logged_put {opens : Bool} {key value : CStr} (inv : Logged w puts) (readable : Readable key value)
    (run : kvdbPut opens (some key) (some value) w = .ok (0, w')) : Logged w' (puts ++ [(key, value)]) := by
  obtain ⟨accepted, rfl⟩ := kvdbPut_ok inv.unlocked run
  refine ⟨inv.unlocked, ?_, ?_, ?_⟩
  · show (if w.db.filename = w.db.filename then some ((w.files w.db.filename).getD [] ++ _) else _) = _
    rw [if_pos rfl, inv.file, records_concat]
    rfl
  · intro p member
    rcases List.mem_append.1 member with member | member
    · exact inv.accepted p member
    · rw [List.mem_singleton.1 member]
      exact accepted
  · intro p member
    rcases List.mem_append.1 member with member | member
    · exact inv.plain p member
    · rw [List.mem_singleton.1 member]
      exact ⟨readable.plainKey, readable.plainValue, readable.inert⟩

theorem logged_get {opens : Bool} {key : Option CStr} {r : Option (List UInt8)} (inv : Logged w puts)
    (run : kvdbGet opens key w = .ok (r, w')) : Logged w' puts := by
  unfold kvdbGet at run
  cases key with
  | none =>
    obtain ⟨-, rfl⟩ := Prod.mk.inj (Except.ok.inj run)
    exact inv
  | some key =>
    by_cases rejected : key.1.length = 0 ∨ key.1.length > 128
    · simp only [if_pos rejected] at run
      obtain ⟨-, rfl⟩ := Prod.mk.inj (Except.ok.inj run)
      exact inv
    · simp only [if_neg rejected] at run
      rw [lockMutex_free inv.unlocked, ok_bind] at run
      obtain ⟨found, -, run⟩ := bind_eq_ok.1 run
      obtain ⟨-, rfl⟩ := Prod.mk.inj (Except.ok.inj run)
      exact ⟨rfl, inv.file, inv.accepted, inv.plain⟩

theorem Run.logged (run : Run w puts) : Logged w puts := by
  induction run with
  | opened fresh ok => exact logged_open fresh ok
  | put _ readable ok ih => exact logged_put ih readable ok
  | get _ ok ih => exact logged_get ih ok

/-- **The last put wins.** After any run of readable puts, `kvdb_get` returns, with the value of
the last put to the key, or `NULL` if there was none. -/
theorem get_last_put (run : Run w puts) (key : CStr) :
    ∃ w', kvdbGet true (some key) w = .ok ((lastPut key puts).map Subtype.val, w') := by
  have inv := run.logged
  unfold kvdbGet
  by_cases rejected : key.1.length = 0 ∨ key.1.length > 128
  · have none : lastPut key puts = none := by
      apply lastPut_none
      rintro p member rfl
      obtain ⟨some', short, -⟩ := inv.accepted p member
      rcases rejected with empty | long
      · exact some' (List.eq_nil_of_length_eq_zero empty)
      · omega
    refine ⟨w, ?_⟩
    simp only [if_pos rejected, none]
    rfl
  · refine ⟨unlockMutex { w with db := { w.db with locked := true } }, ?_⟩
    simp only [if_neg rejected]
    rw [lockMutex_free inv.unlocked, ok_bind]
    have read : findDb true key { w with db := { w.db with locked := true } } =
        .ok ((lastPut key puts).map Subtype.val) := by
      have asked : key.1.length ≤ 128 := by omega
      have found := findLoop_records asked inv.accepted inv.plain (.before)
        (Nat.le_refl (findFuel (records puts))) none
      unfold findDb
      dsimp only
      rw [inv.file]
      dsimp only
      rw [if_pos rfl, found, Option.or_none]
    rw [read]
    rfl

end Steps

theorem inert_short {key value : List UInt8} (short : value.length < 499) (piece : InertPiece key value) :
    Inert key value := by
  intro i inside
  obtain rfl : i = 0 := by omega
  exact piece

/-- Under `k` the value `v`, and under `j` the value `1:k`, which looks like a header. -/
theorem get_last_put_header : ∃ w w',
    Run w [(⟨[107], by decide⟩, ⟨[118], by decide⟩), (⟨[106], by decide⟩, ⟨[49, 58, 107], by decide⟩)] ∧
      kvdbGet true (some ⟨[107], by decide⟩) w = .ok (some [118], w') := by
  have first : Readable ⟨[107], by decide⟩ ⟨[118], by decide⟩ := by
    refine ⟨by decide, by decide, inert_short (by decide) ?_⟩
    exact ⟨none, by decide, fun vlen k same => by cases same⟩
  have second : Readable ⟨[106], by decide⟩ ⟨[49, 58, 107], by decide⟩ := by
    refine ⟨by decide, by decide, inert_short (by decide) ?_⟩
    refine ⟨some (1, [107]), by decide, fun vlen k same => ?_⟩
    obtain ⟨rfl, rfl⟩ := Prod.mk.inj (Option.some.inj same)
    exact Or.inr (Or.inr (by decide))
  obtain ⟨w, open'⟩ : ∃ w, kvdbOpen true ⟨[100, 98], by decide⟩
      ⟨⟨false, 0, ⟨[], by decide⟩⟩, fun _ => none⟩ = (0, w) := ⟨_, rfl⟩
  obtain ⟨w₁, put₁⟩ : ∃ w', kvdbPut true (some ⟨[107], by decide⟩) (some ⟨[118], by decide⟩) w = .ok (0, w') := by
    cases open'
    exact ⟨_, rfl⟩
  obtain ⟨w₂, put₂⟩ : ∃ w', kvdbPut true (some ⟨[106], by decide⟩) (some ⟨[49, 58, 107], by decide⟩) w₁ =
      .ok (0, w') := by
    cases open'
    cases put₁
    exact ⟨_, rfl⟩
  have run := ((Run.opened (Or.inl rfl) open').put first put₁).put second put₂
  obtain ⟨w₃, got⟩ := get_last_put run ⟨[107], by decide⟩
  exact ⟨w₂, w₃, run, got⟩

/-- The value `a`, newline, `b` is stored but never found again. -/
theorem get_newline : ∃ w w' w'',
    kvdbOpen true ⟨[100, 98], by decide⟩ ⟨⟨false, 0, ⟨[], by decide⟩⟩, fun _ => none⟩ = (0, w) ∧
      kvdbPut true (some ⟨[107], by decide⟩) (some ⟨[97, 10, 98], by decide⟩) w = .ok (0, w') ∧
      kvdbGet true (some ⟨[107], by decide⟩) w' = .ok (none, w'') ∧
      lastPut ⟨[107], by decide⟩ [(⟨[107], by decide⟩, ⟨[97, 10, 98], by decide⟩)] =
        some ⟨[97, 10, 98], by decide⟩ := by
  obtain ⟨w, open'⟩ : ∃ w, kvdbOpen true ⟨[100, 98], by decide⟩
      ⟨⟨false, 0, ⟨[], by decide⟩⟩, fun _ => none⟩ = (0, w) := ⟨_, rfl⟩
  obtain ⟨w₁, put⟩ : ∃ w', kvdbPut true (some ⟨[107], by decide⟩) (some ⟨[97, 10, 98], by decide⟩) w =
      .ok (0, w') := by
    cases open'
    exact ⟨_, rfl⟩
  obtain ⟨w₂, get⟩ : ∃ w', kvdbGet true (some ⟨[107], by decide⟩) w₁ = .ok (none, w') := by
    cases open'
    cases put
    exact ⟨_, rfl⟩
  exact ⟨w, w₁, w₂, open', put, get, rfl⟩

end OsLab.Kvdb
