import OsLab.Kvdb.Apart
import OsLab.Lib.Appending

/-!
# Puts of two processes

Two processes put into one database, each through its own handle. `kvdb_put` releases the lock on the
file before `fclose` appends what is left in the buffer of the stream, and `sync` does not append it
either. So the records stay in one piece just when each is appended at once or in whole buffers.
-/

namespace OsLab.Kvdb

open OsLab.Stdio OsLab.Decimal OsLab.Interleave OsLab.Appending

/-- `kvdb_put` of process `i`. The mutex is its own, and free; `sync` writes no buffer of a stream. -/
def kvdbPutBy (capacity : Nat) (i opens : Bool) (key value : Option CStr) : Process UInt8 Int :=
  match key, value with
  | some key, some value =>
    if key.1.length = 0 ∨ key.1.length > 128 ∨ value.1.length > maxValue then
      .done (-1)
    else if opens then do
      flockEx i
      let file ← fputs capacity i [] [newline]
      let file ← fputs capacity i file (decimal value.1.length ++ 58 :: (key.1 ++ [newline]))
      let file ← fputs capacity i file (value.1 ++ [newline])
      let file ← fputs capacity i file (endMark ++ [newline])
      flockUn
      fclose i file
      .done 0
    else
      .done (-1)
  | _, _ => .done (-1)

/-- The database with another content of its file. -/
def World.withFile (w : World) (file : List UInt8) : World :=
  { w with files := fun name => if name = w.db.filename then some file else w.files name }

theorem World.withFile_file (w : World) (file : List UInt8) :
    (w.withFile file).files (w.withFile file).db.filename = some file := if_pos rfl

/-- The two processes before they put, on the file of the database. -/
def processes (capacity : Nat) (w : World) (put₁ put₂ : CStr × CStr) : Both (Shared UInt8) Empty Int Int :=
  ⟨⟨(w.files w.db.filename).getD [], none, []⟩,
    kvdbPutBy capacity false true (some put₁.1) (some put₁.2),
    kvdbPutBy capacity true true (some put₂.1) (some put₂.2)⟩

section Records

variable {key value key' value' : CStr} {front back : List UInt8}

/-- Up to the first of some character. -/
theorem split_unique {c : UInt8} {l l' x y : List UInt8} (plain : c ∉ l) (plain' : c ∉ l')
    (same : l ++ c :: x = l' ++ c :: y) : l = l' ∧ x = y := by
  induction l generalizing l' with
  | nil =>
    cases l' with
    | nil => exact ⟨rfl, (List.cons.inj same).2⟩
    | cons d l' =>
      have first := (List.cons.inj same).1
      exact absurd (first ▸ List.mem_cons_self) plain'
  | cons d l ih =>
    cases l' with
    | nil =>
      have first := (List.cons.inj same).1
      exact absurd (first ▸ List.mem_cons_self) plain
    | cons e l' =>
      obtain ⟨rfl, rest⟩ := List.cons.inj same
      obtain ⟨rfl, rfl⟩ := ih (fun member => plain (List.mem_cons_of_mem d member))
        (fun member => plain' (List.mem_cons_of_mem d member)) rest
      exact ⟨rfl, rfl⟩

/-- A record behind its header. -/
def afterHeader (value : CStr) : List UInt8 := value.1 ++ newline :: (endMark ++ [newline])

theorem record_split (key value : CStr) :
    record key value = newline :: (header value.1.length key.1 ++ newline :: afterHeader value) :=
  record_eq key value

theorem colon_mem_header (n : Nat) (key : List UInt8) : colon ∈ header n key :=
  List.mem_append_right _ List.mem_cons_self

theorem colon_notMem_afterHeader (text : colon ∉ value.1) : colon ∉ afterHeader value := by
  simp [afterHeader, text]
  decide

theorem header_key {n n' : Nat} {k k' : List UInt8} (same : header n k = header n' k') : k = k' :=
  (split_unique colon_notMem_decimal colon_notMem_decimal same).2

/-- What a record begins with begins with a newline. -/
theorem exists_newline {more : List UInt8} (some : front ≠ []) (split : record key value ++ more = front ++ back) :
    ∃ a, front = newline :: a := by
  rw [record_split] at split
  cases front with
  | nil => exact absurd rfl some
  | cons c a => exact ⟨a, by rw [(List.cons.inj split).1]⟩

/-- A record does not move past a part that another one begins with. -/
theorem record_front (simple : Simple key value) (simple' : Simple key' value') (differ : key ≠ key')
    (some' : front ≠ []) (split : record key value = front ++ back) :
    front ++ record key' value' ≠ record key' value' ++ front := by
  intro same
  obtain ⟨a, rfl⟩ := exists_newline some' ((List.append_nil _).trans split)
  rw [record_split] at split same
  simp only [List.cons_append, List.append_assoc, List.cons.injEq, true_and] at split same
  have plain := newline_notMem_header (n := value.1.length) simple.plainKey
  have plain' := newline_notMem_header (n := value'.1.length) simple'.plainKey
  by_cases line : newline ∈ a
  · -- the header is in front
    obtain ⟨l, x, rfl, first⟩ := List.eq_append_cons_of_mem line
    simp only [List.cons_append, List.append_assoc] at split same
    have own := (split_unique plain first split).1
    have others := (split_unique first plain' same).1
    exact differ (Subtype.ext (header_key (own.trans others)))
  · obtain ⟨rfl, rest⟩ := split_unique line plain' same
    rw [afterHeader, List.append_assoc, List.cons_append] at rest
    have value := (split_unique plain' simple'.plainValue rest).1
    exact simple'.text (value ▸ colon_mem_header _ _)

/-- Nor past a part that another one ends with. -/
theorem record_back (simple : Simple key value) (simple' : Simple key' value') (some' : front ≠ [])
    (some'' : back ≠ []) (split : record key value = front ++ back) :
    record key' value' ++ back ≠ back ++ record key' value' := by
  intro same
  obtain ⟨x, rfl⟩ := exists_newline some'' same
  obtain ⟨a, rfl⟩ := exists_newline some' ((List.append_nil _).trans split)
  rw [record_split] at split same
  simp only [List.cons_append, List.append_assoc, List.cons.injEq, true_and] at split same
  have plain := newline_notMem_header (n := value.1.length) simple.plainKey
  have plain' := newline_notMem_header (n := value'.1.length) simple'.plainKey
  -- no header is in the back
  have text : colon ∉ x := by
    have inside : x <:+ afterHeader value := by
      by_cases line : newline ∈ a
      · obtain ⟨l, c, rfl, first⟩ := List.eq_append_cons_of_mem line
        rw [List.append_assoc, List.cons_append] at split
        rw [(split_unique plain first split).2]
        exact ⟨c ++ [newline], by simp⟩
      · obtain ⟨-, rfl⟩ := split_unique plain line split
        exact List.suffix_rfl
    exact fun member => colon_notMem_afterHeader simple.text (inside.subset member)
  have first : header value'.1.length key'.1 <+: x := by
    by_cases line : newline ∈ x
    · obtain ⟨l, c, rfl, first⟩ := List.eq_append_cons_of_mem line
      rw [List.append_assoc, List.cons_append] at same
      rw [(split_unique plain' first same).1]
      exact List.prefix_append _ _
    · obtain ⟨rfl, -⟩ := split_unique plain' line same
      exact List.prefix_rfl
  exact text (first.subset (colon_mem_header _ _))

end Records

section Puts

variable {capacity : Nat} {i : Bool} {key value key₁ value₁ key₂ value₂ : CStr} {w : World}
  {puts : List (CStr × CStr)} {store : Int → Int}

/-- Accepted, `kvdb_put` writes its record. -/
theorem kvdbPutBy_eq (accepted : Accepted key value) :
    kvdbPutBy capacity i true (some key) (some value) = writer capacity i (record key value) 0 := by
  have accepted : ¬ (key.1.length = 0 ∨ key.1.length > 128 ∨ value.1.length > maxValue) := by
    unfold Accepted at accepted
    omega
  have parts : record key value = [newline] ++ ((decimal value.1.length ++ 58 :: (key.1 ++ [newline])) ++
      ((value.1 ++ [newline]) ++ (endMark ++ [newline]))) := by simp [record]
  simp only [kvdbPutBy, if_neg accepted, if_true, writer, parts, fputs_append, Prog.bind_assoc]

/-- A process alone leaves the file as `kvdb_put` of one process does. -/
theorem kvdbPutBy_alone (positive : 0 < capacity) (accepted : Accepted key value) {s : Shared UInt8}
    (free : s.holder = none) (unlocked : w.db.locked = false) (file : w.files w.db.filename = some s.file) :
    ∃ s' w', (kvdbPutBy capacity i true (some key) (some value)).Alone s 0 s' ∧
      kvdbPut true (some key) (some value) w = .ok (0, w') ∧ w'.files w'.db.filename = some s'.file := by
  obtain ⟨w', put⟩ := kvdbPut_accepted unlocked accepted
  refine ⟨{ s.append i (record key value) with holder := none }, w', ?_, put, ?_⟩
  · rw [kvdbPutBy_eq accepted]
    exact writer_alone positive free
  · obtain ⟨-, rfl⟩ := kvdbPut_ok unlocked put
    simp [append, file, Shared.append]

theorem Simple.accepted (simple : Simple key value) : Accepted key value :=
  ⟨fun empty => simple.some' (List.length_eq_zero_iff.1 empty), simple.short, simple.small⟩

/-- What `kvdb_get` finds in the file behind the records of completed puts. -/
theorem search_two (simple₁ : Simple key₁ value₁) (simple₂ : Simple key₂ value₂) {target : CStr}
    {res : Option (List UInt8)} (before : search store target.1 ⟨records puts, false⟩ none = .ok res) :
    search store target.1 ⟨records puts ++ (record key₁ value₁ ++ record key₂ value₂), false⟩ none =
      .ok ((valueFor target (key₂, value₂)).or ((valueFor target (key₁, value₁)).or res)) := by
  rw [record_eq key₁, List.cons_append, search_append (closed_records puts), before, ok_bind, search_body simple₁,
    ← List.append_nil (record key₂ value₂), search_record simple₂]
  exact search_empty

theorem processes_eq (run : Written w puts) (simple₁ : Simple key₁ value₁) (simple₂ : Simple key₂ value₂) :
    processes capacity w (key₁, value₁) (key₂, value₂) =
      writers capacity (records puts) (record key₁ value₁) (record key₂ value₂) 0 0 := by
  rw [processes, kvdbPutBy_eq simple₁.accepted, kvdbPutBy_eq simple₂.accepted, run.file.2.1]
  rfl

/-- Behind the records of completed puts, two records are read as they were put. -/
theorem get_two (run : Written w puts) (simple₁ : Simple key₁ value₁) (simple₂ : Simple key₂ value₂)
    (differ : key₁ ≠ key₂) {file : List UInt8}
    (holds : file = records puts ++ (record key₁ value₁ ++ record key₂ value₂) ∨
      file = records puts ++ (record key₂ value₂ ++ record key₁ value₁))
    (reads : ∃ r, kvdbGetOn store true (some key₁) w = .ok r) :
    kvdbGetOn store true (some key₁) (w.withFile file) = .ok (some value₁.1, w.withFile file) := by
  obtain ⟨some', asked, -⟩ := simple₁.accepted
  obtain ⟨res, before⟩ : ∃ res, search store key₁.1 ⟨records puts, false⟩ none = .ok res := by
    obtain ⟨r, got⟩ := reads
    rw [run.get ⟨some', asked⟩] at got
    cases found : search store key₁.1 ⟨records puts, false⟩ none with
    | error e => simp [found, Except.map] at got
    | ok res => exact ⟨res, rfl⟩
  have other : valueFor key₁ (key₂, value₂) = none := if_neg differ.symm
  have own : valueFor key₁ (key₁, value₁) = some value₁.1 := if_pos rfl
  have found : search store key₁.1 ⟨file, false⟩ none = .ok (some value₁.1) := by
    rcases holds with rfl | rfl
    · rw [search_two simple₁ simple₂ before, other, own]
      rfl
    · rw [search_two simple₂ simple₁ before, own]
      rfl
  rw [kvdbGetOn_file (w := w.withFile file) run.file.1 (w.withFile_file file) ⟨simple₁.some', asked⟩, found]
  rfl

/-- **Puts of two processes.** On the database that completed puts have written, however the two processes
are interleaved: both records are in the file, each in one piece, and `kvdb_get` returns both values, if and
only if each record fits the buffer or each is a number of full buffers. -/
theorem two_puts_iff (store : Int → Int) (positive : 0 < capacity) (run : Written w puts)
    (simple₁ : Simple key₁ value₁) (simple₂ : Simple key₂ value₂) (differ : key₁ ≠ key₂)
    (reads₁ : ∃ r, kvdbGetOn store true (some key₁) w = .ok r)
    (reads₂ : ∃ r, kvdbGetOn store true (some key₂) w = .ok r) :
    (∀ s, Steps (fun _ => True) (processes capacity w (key₁, value₁) (key₂, value₂)) ⟨s, .done 0, .done 0⟩ →
        (s.file = records puts ++ (record key₁ value₁ ++ record key₂ value₂) ∨
          s.file = records puts ++ (record key₂ value₂ ++ record key₁ value₁)) ∧
        kvdbGetOn store true (some key₁) (w.withFile s.file) = .ok (some value₁.1, w.withFile s.file) ∧
        kvdbGetOn store true (some key₂) (w.withFile s.file) = .ok (some value₂.1, w.withFile s.file)) ↔
      Apart capacity (record key₁ value₁) (record key₂ value₂) := by
  rw [processes_eq run simple₁ simple₂]
  constructor
  · intro whole
    by_contra close
    obtain ⟨s, front, back, some', some'', steps, torn⟩ := torn positive close (records puts) (0 : Int) (0 : Int)
    obtain ⟨holds, -, -⟩ := whole s steps
    rcases torn with ⟨split, file⟩ | ⟨split, file⟩
    · rw [file, List.append_cancel_left_eq, List.append_cancel_left_eq] at holds
      rcases holds with same | same
      · rw [split, List.append_assoc, List.append_cancel_left_eq] at same
        exact record_back simple₁ simple₂ some' some'' split same
      · rw [split, ← List.append_assoc, ← List.append_assoc, List.append_cancel_right_eq] at same
        exact record_front simple₁ simple₂ differ some' split same
    · rw [file, List.append_cancel_left_eq, List.append_cancel_left_eq] at holds
      rcases holds with same | same
      · rw [split, ← List.append_assoc, ← List.append_assoc, List.append_cancel_right_eq] at same
        exact record_front simple₂ simple₁ differ.symm some' split same
      · rw [split, List.append_assoc, List.append_cancel_left_eq] at same
        exact record_back simple₂ simple₁ some' some'' split same
  · intro apart s steps
    have some' : ∀ key value, record key value ≠ [] := fun key value => List.cons_ne_nil _ _
    have holds := contiguous positive (some' key₁ value₁) (some' key₂ value₂) apart steps
    exact ⟨holds, get_two run simple₁ simple₂ differ holds reads₁,
      get_two run simple₂ simple₁ differ.symm holds.symm reads₂⟩

end Puts

/-- `n` letters `a`. -/
def row (n : Nat) : List UInt8 := List.replicate n 97

@[simp] theorem length_row (n : Nat) : (row n).length = n := List.length_replicate

theorem notMem_row {c : UInt8} (other : c ≠ 97) (n : Nat) : c ∉ row n :=
  fun member => other (List.eq_of_mem_replicate member)

theorem row_add (m n : Nat) : row (m + n) = row m ++ row n := List.replicate_add m n 97

/-- A value of 5000 letters. -/
def letters : CStr := ⟨row 5000, notMem_row (by decide) 5000⟩

/-- The key `k`. -/
def keyK : CStr := ⟨[107], by decide⟩

/-- The key `j`. -/
def keyJ : CStr := ⟨[106], by decide⟩

/-- The value `x`. -/
def valueX : CStr := ⟨[120], by decide⟩

theorem simple_letters : Simple keyK letters :=
  ⟨by decide, by decide, by simp [letters, maxValue], by decide, notMem_row (by decide) 5000,
    notMem_row (by decide) 5000⟩

theorem simple_x : Simple keyJ valueX := ⟨by decide, by decide, by decide, by decide, by decide, by decide⟩

/-- With buffers of 4096 characters, the second put comes between the two appends of the first, and the value
of the first is lost. -/
theorem put_torn : ∃ s,
    Steps (fun _ => True) (processes 4096 openedDb (keyK, letters) (keyJ, valueX)) ⟨s, .done 0, .done 0⟩ ∧
      kvdbGetOn id true (some keyK) (openedDb.withFile s.file) = .ok (none, openedDb.withFile s.file) := by
  let front := newline :: (header 5000 [107] ++ newline :: row 4088)
  let back := row 912 ++ newline :: (endMark ++ [newline])
  have split : record keyK letters = front ++ back := by
    have parts : row 5000 = row 4088 ++ row 912 := row_add 4088 912
    simp [record_split, afterHeader, keyK, letters, front, back, parts]
  have size : front.length = 4096 := by
    have digits : (header 5000 [107]).length = 6 := by decide +kernel
    simp [front, digits]
  have whole : flushed 4096 (record keyK letters) = front.length := by
    simp [flushed, split, size, back, endMark]
  obtain ⟨s, run, file⟩ := torn_late (s := ⟨[], none, []⟩) (i := false) (j := true) (b := (0 : Int)) (c := (0 : Int))
    (record keyK letters) (record keyJ valueX) (by decide : 0 < 4096) rfl
  refine ⟨s, ?_, ?_⟩
  · rw [processes_eq written_openedDb simple_letters simple_x]
    exact run
  · rw [whole, split, List.take_left, List.drop_left] at file
    have layout : s.file = newline :: (header 5000 keyK.1 ++ newline :: (row 4088 ++ newline ::
        (header 1 keyJ.1 ++ newline :: (valueX.1 ++ newline :: (endMark ++ newline ::
          (row 912 ++ newline :: (endMark ++ newline :: []))))))) := by
      rw [file]
      simp [front, back, record_split, afterHeader, keyK, keyJ, valueX]
    -- the header of the second record stands where the mark is looked for
    have read : readValue (5000 : Nat) ⟨row 4088 ++ newline :: (header 1 keyJ.1 ++ newline ::
        (valueX.1 ++ newline :: (endMark ++ newline :: (row 912 ++ newline :: (endMark ++ newline :: []))))), false⟩ =
        .ok (none, ⟨valueX.1 ++ newline :: (endMark ++ newline :: (row 912 ++ newline ::
          (endMark ++ newline :: []))), false⟩) := by
      refine readValue_unmarked (by decide) (notMem_row (by decide) 4088) (by simp) (fgets_line ?_ ?_) ?_
      all_goals decide
    have found : search id keyK.1 ⟨s.file, false⟩ none = .ok none := by
      rw [layout, search_newline]
      refine (search_header (by decide) (by decide) (by decide) (by decide) (by decide) read).trans ?_
      rw [search_text (by decide) (by decide), search_mark,
        search_text (notMem_row (by decide) 912) (notMem_row (by decide) 912)]
      exact search_end
    rw [kvdbGetOn_file rfl (openedDb.withFile_file s.file) (show keyK.1 ≠ [] ∧ keyK.1.length ≤ 128 by decide), found]
    rfl

/-- Two short puts. -/
theorem two_puts_iff_short : ∃ s,
    Steps (fun _ => True) (processes 4096 openedDb (keyK, valueX) (keyJ, valueX)) ⟨s, .done 0, .done 0⟩ ∧
      kvdbGetOn id true (some keyK) (openedDb.withFile s.file) = .ok (some valueX.1, openedDb.withFile s.file) := by
  have simple : Simple keyK valueX := ⟨by decide, by decide, by decide, by decide, by decide, by decide⟩
  obtain ⟨s, run, -⟩ := torn_late (s := ⟨[], none, []⟩) (i := false) (j := true) (b := (0 : Int)) (c := (0 : Int))
    (record keyK valueX) (record keyJ valueX) (by decide : 0 < 4096) rfl
  have steps : Steps (fun _ => True) (processes 4096 openedDb (keyK, valueX) (keyJ, valueX))
      ⟨s, .done 0, .done 0⟩ := by
    rw [processes_eq written_openedDb simple simple_x]
    exact run
  have both := (two_puts_iff id (by decide : 0 < 4096) written_openedDb simple simple_x (by decide)
    ⟨_, rfl⟩ ⟨_, rfl⟩).2 (.inl (by decide)) s steps
  exact ⟨s, steps, both.2.1⟩

end OsLab.Kvdb
