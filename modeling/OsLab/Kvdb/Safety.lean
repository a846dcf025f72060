import OsLab.Kvdb.Apart
import OsLab.Lib.Heap

/-!
# The memory of `find_db`

The reader once more, with the buffers it fills and the blocks it allocates: a string that does not fit its buffer, a
store outside of a block and a size that is no `int` or negative are `Stop.undefined`. The length in a header is used
as it is read, so that a header with a negative length, or one near the end of `int`, makes the reading undefined.

What `fgets` does with a size of 0 is not said by the C standard: `zero` says whether it returns `NULL`.
-/

namespace OsLab.Kvdb

open OsLab.Stdio

/-- The sizes of `buf`, `key` and `end`. -/
def bufSize : Nat := 512

def keySize : Nat := 512

def endSize : Nat := 16

/-- A string and its NUL are stored in a buffer of this size. -/
def storeString (size : Nat) (cs : List UInt8) : Except Stop Unit :=
  if cs.length < size then .ok () else .error .undefined

/-- `value[i] = '\0'` in a block of this size -/
def storeNul (size i : Int) : Except Stop Unit := if 0 ≤ i ∧ i < size then .ok () else .error .undefined

/-- `free` -/
def freeBlock (heap : Heap) : Option Nat → Except Stop Heap
  | none => .ok heap
  | some b => match heap.free b with
    | none => .error .undefined
    | some heap => .ok heap

/-- `fgets` into the block for the value. -/
def fgetsValue (zero : Bool) (size : Nat) (s : Stream) : Option (List UInt8) × Stream :=
  if size = 0 ∧ zero then (none, s) else fgets size s

/-- A value in its block. -/
abbrev Block := Nat × List UInt8

/-- The blocks of a value. -/
def blockOf (value : Option Block) : Finset Nat := (value.map Prod.fst).toFinset

/-- The part of an iteration of `find_db` behind a header with the target key. -/
def readBlock (zero : Bool) (vlen : Int) (s : Stream) (heap : Heap) : Except Stop (Option Block × Stream × Heap) :=
  if ¬FitsInt (vlen + 5) ∨ vlen + 5 < 0 then .error .undefined
  else
    let (b, heap) := heap.alloc
    match fgetsValue zero (vlen + 5).toNat s with
    | (none, s) => do
      let heap ← freeBlock heap b
      .ok (none, s, heap)
    | (some value, s) => do
      storeString (vlen + 5).toNat value
      storeNul (vlen + 5) vlen
      match fgets 10 s with
      | (none, s) => do
        let heap ← freeBlock heap b
        .ok (none, s, heap)
      | (some mark, s) => do
        storeString endSize mark
        if (cstr mark).take 3 ≠ endMark then do
          let heap ← freeBlock heap b
          .ok (none, s, heap)
        else .ok (some (b, (cstr value).take vlen.toNat), s, heap)

/-- The loop of `find_db`. -/
def findLoopIn (store : Int → Int) (zero : Bool) (target : List UInt8) :
    Nat → Stream → Option Block → Heap → Except Stop (Option Block × Heap)
  | 0, _, _, _ => .error .diverge
  | fuel + 1, s, res, heap =>
    if s.eof then .ok (res, heap)
    else
      match fgets 500 s with
      | (none, s) => findLoopIn store zero target fuel s res heap
      | (some buf, s) => do
        storeString bufSize buf
        match scanHeaderOn store (cstr buf) with
        | none => findLoopIn store zero target fuel s res heap
        | some (vlen, key) => do
          storeString keySize key
          if target ≠ key then findLoopIn store zero target fuel s res heap
          else do
            let (value, s, heap) ← readBlock zero vlen s heap
            match value with
            | none => findLoopIn store zero target fuel s res heap
            | some value => do
              let heap ← freeBlock heap (res.map Prod.fst)
              findLoopIn store zero target fuel s (some value) heap

/-- `find_db` of a file, from a heap. -/
def findDbIn (store : Int → Int) (zero : Bool) (target : CStr) (file : List UInt8) (heap : Heap) :
    Except Stop (Option Block × Heap) :=
  findLoopIn store zero target.1 (findFuel file) ⟨file, false⟩ none heap

/-- The reading is defined, and of the blocks it has allocated only the one it returns is live. -/
def Safe (store : Int → Int) (zero : Bool) (target : CStr) (file : List UInt8) (heap : Heap) : Prop :=
  ∃ res heap', findDbIn store zero target file heap = .ok (res, heap') ∧ heap'.Holds heap.live (blockOf res)

/-! ## Where the reader comes to -/

/-- A header with the key: its length, and the stream behind it. -/
def headerAt (store : Int → Int) (target : List UInt8) (s : Stream) : Option (Int × Stream) :=
  match fgets 500 s with
  | (none, _) => none
  | (some buf, s) =>
    match scanHeaderOn store (cstr buf) with
    | none => none
    | some (vlen, key) => if target = key then some (vlen, s) else none

/-- The stream behind a value and the line behind it. -/
def behindValue (zero : Bool) (vlen : Int) (s : Stream) : Stream :=
  match fgetsValue zero (vlen + 5).toNat s with
  | (none, s) => s
  | (some _, s) => (fgets 10 s).2

/-- The stream at the next iteration. -/
def nextLine (store : Int → Int) (zero : Bool) (target : List UInt8) (s : Stream) : Stream :=
  match headerAt store target s with
  | none => (fgets 500 s).2
  | some (vlen, s) => behindValue zero vlen s

/-- A length for which nothing is undefined: `vlen + 5` is an `int` and `value[vlen]` is in the block, or the length is
negative and `fgets` returns `NULL` for the value. -/
def LengthFine (zero : Bool) (vlen : Int) (s : Stream) : Prop :=
  0 ≤ vlen ∧ vlen ≤ 2147483642 ∨ vlen = -5 ∧ zero = true ∨ -3 ≤ vlen ∧ vlen < 0 ∧ s.rest = []

/-- Each header with the key that the reader comes to has a length that is fine. -/
def HeadersFine (store : Int → Int) (zero : Bool) (target : List UInt8) (s : Stream) : Prop :=
  ∀ k vlen t, ((nextLine store zero target)^[k] s).eof = false →
    headerAt store target ((nextLine store zero target)^[k] s) = some (vlen, t) → LengthFine zero vlen t

section Reading

variable {store : Int → Int} {zero : Bool} {target : List UInt8} {s t : Stream} {heap : Heap} {base owned : Finset Nat}
  {vlen : Int} {size : Nat} {line : List UInt8}

/-- A line and its NUL fit the buffer of `fgets`. -/
theorem fgets_fits (positive : 0 < size) (read : fgets size s = (some line, t)) : line.length < size := by
  unfold fgets at read
  split at read
  · cases read
  · cases read
    have := length_lineOf_le_size (l := s.rest) (n := size - 1)
    omega

theorem fgetsValue_none (fine : vlen = -5 ∧ zero = true ∨ -3 ≤ vlen ∧ vlen < 0 ∧ s.rest = []) :
    ∃ t, fgetsValue zero (vlen + 5).toNat s = (none, t) := by
  unfold fgetsValue
  rcases fine with ⟨rfl, rfl⟩ | ⟨low, high, empty⟩
  · exact ⟨s, rfl⟩
  · rw [if_neg (by omega), fgets, if_pos ⟨by omega, empty⟩]
    exact ⟨_, rfl⟩

theorem fgetsValue_some (negative : vlen < 0) (notFine : ¬LengthFine zero vlen s) (size : 0 ≤ vlen + 5) :
    ∃ value t, fgetsValue zero (vlen + 5).toNat s = (some value, t) := by
  unfold LengthFine at notFine
  unfold fgetsValue
  rw [if_neg (by rintro ⟨zeroSize, nul⟩; exact notFine (.inr (.inl ⟨by omega, nul⟩)))]
  unfold fgets
  rw [if_neg (by rintro ⟨room, empty⟩; exact notFine (.inr (.inr ⟨by omega, negative, empty⟩)))]
  exact ⟨_, _, rfl⟩

theorem freeBlock_run (holds : heap.Holds base owned) {b : Nat} (member : b ∈ owned) :
    ∃ heap', freeBlock heap (some b) = .ok heap' ∧ heap'.Holds base (owned.erase b) := by
  obtain ⟨heap', run, holds'⟩ := holds.free member
  refine ⟨heap', ?_, holds'⟩
  unfold freeBlock
  dsimp only
  rw [run]

/-- A block that is allocated and freed. -/
theorem freeBlock_alloc (holds : heap.Holds base owned) :
    ∃ heap', freeBlock heap.alloc.2 (some heap.alloc.1) = .ok heap' ∧ heap'.Holds base owned := by
  obtain ⟨heap', run, holds'⟩ := freeBlock_run holds.alloc (Finset.mem_insert_self ..)
  rw [Finset.erase_insert holds.alloc_notMem] at holds'
  exact ⟨heap', run, holds'⟩

@[simp] theorem blockOf_none : blockOf none = ∅ := rfl

@[simp] theorem blockOf_some (value : Block) : blockOf (some value) = {value.1} := rfl

/-- Where the length is fine the part behind a header returns, and has kept no block but that of the value. -/
theorem readBlock_fine (holds : heap.Holds base owned) (fine : LengthFine zero vlen s) : ∃ value heap',
    readBlock zero vlen s heap = .ok (value, behindValue zero vlen s, heap') ∧
      heap'.Holds base (owned ∪ blockOf value) ∧ Disjoint owned (blockOf value) := by
  have size : FitsInt (vlen + 5) ∧ 0 ≤ vlen + 5 := by
    unfold LengthFine at fine
    unfold FitsInt
    omega
  obtain ⟨freed, free, holds'⟩ := freeBlock_alloc holds
  unfold readBlock behindValue
  rw [if_neg (by simp [size])]
  rcases fine with ⟨positive, -⟩ | fine
  · rcases read : fgetsValue zero (vlen + 5).toNat s with ⟨_ | value, t⟩
    · simp only [free, ok_bind]
      exact ⟨none, freed, rfl, by simpa using holds', by simp⟩
    · have room : storeString (vlen + 5).toNat value = .ok () := by
        unfold fgetsValue at read
        rw [if_neg (by omega)] at read
        exact if_pos (fgets_fits (by omega) read)
      have nul : storeNul (vlen + 5) vlen = .ok () := if_pos ⟨positive, by omega⟩
      simp only [room, nul, ok_bind]
      rcases last : fgets 10 t with ⟨_ | mark, u⟩
      · simp only [free, ok_bind]
        exact ⟨none, freed, rfl, by simpa using holds', by simp⟩
      · have fits := fgets_fits (by decide) last
        have endRoom : storeString endSize mark = .ok () := if_pos (Nat.lt_of_lt_of_le fits (by decide))
        simp only [endRoom, free, ok_bind]
        split
        · exact ⟨none, freed, rfl, by simpa using holds', by simp⟩
        · refine ⟨_, _, rfl, ?_, ?_⟩
          · rw [blockOf_some, Finset.union_singleton]
            exact holds.alloc
          · simpa using holds.alloc_notMem
  · obtain ⟨t, read⟩ := fgetsValue_none fine
    simp only [read, free, ok_bind]
    exact ⟨none, freed, rfl, by simpa using holds', by simp⟩

/-- Where the length is not fine it is undefined. -/
theorem readBlock_undefined (notFine : ¬LengthFine zero vlen s) : readBlock zero vlen s heap = .error .undefined := by
  unfold readBlock
  by_cases size : ¬FitsInt (vlen + 5) ∨ vlen + 5 < 0
  · rw [if_pos size]
  rw [if_neg size]
  simp only [not_or, not_not, not_lt] at size
  have negative : vlen < 0 := by
    by_contra positive
    have fits := size.1.2
    exact notFine (.inl ⟨by omega, by omega⟩)
  obtain ⟨value, t, read⟩ := fgetsValue_some negative notFine size.2
  have nul : storeNul (vlen + 5) vlen = .error .undefined := if_neg (by omega)
  simp only [read, nul]
  unfold storeString
  split <;> rfl

theorem headerAt_eq_some : headerAt store target s = some (vlen, t) ↔
    ∃ line, fgets 500 s = (some line, t) ∧ scanHeaderOn store (cstr line) = some (vlen, target) := by
  unfold headerAt
  rcases read : fgets 500 s with ⟨_ | line, u⟩
  · simp
  · cases scan : scanHeaderOn store (cstr line) with
    | none => simp [scan]
    | some header =>
      by_cases same : target = header.2
      · simp [scan, same, Prod.ext_iff, and_comm]
      · simp [scan, same, Prod.ext_iff, Ne.symm same]

/-- The buffers of a line and of its key are large enough. -/
theorem findLoopIn_line {fuel : Nat} {res : Option Block} (more : s.eof = false) (read : fgets 500 s = (some line, t)) :
    findLoopIn store zero target (fuel + 1) s res heap = match scanHeaderOn store (cstr line) with
      | none => findLoopIn store zero target fuel t res heap
      | some (vlen, key) =>
        if target ≠ key then findLoopIn store zero target fuel t res heap
        else readBlock zero vlen t heap >>= fun r => match r.1 with
          | none => findLoopIn store zero target fuel r.2.1 res r.2.2
          | some value => freeBlock r.2.2 (res.map Prod.fst) >>= findLoopIn store zero target fuel r.2.1 (some value) := by
  have fits := fgets_fits (by decide) read
  have room : storeString bufSize line = .ok () := if_pos (Nat.lt_of_lt_of_le fits (by decide))
  rw [findLoopIn, if_neg (by simp [more]), read]
  simp only [room, ok_bind]
  cases scan : scanHeaderOn store (cstr line) with
  | none => rfl
  | some header =>
    have part : (cstr line).length ≤ line.length := (List.takeWhile_prefix _).length_le
    have keyRoom : storeString keySize header.2 = .ok () := by
      have := scanHeaderOn_length scan
      exact if_pos (Nat.lt_of_lt_of_le (by omega : header.2.length < 500) (by decide))
    simp only [keyRoom, ok_bind]

/-- An iteration without a header with the key. -/
theorem findLoopIn_skip {fuel : Nat} {res : Option Block} (more : s.eof = false) (none : headerAt store target s = none) :
    findLoopIn store zero target (fuel + 1) s res heap =
      findLoopIn store zero target fuel (nextLine store zero target s) res heap := by
  unfold nextLine
  rw [none]
  unfold headerAt at none
  rcases read : fgets 500 s with ⟨_ | line, t⟩
  · rw [findLoopIn, if_neg (by simp [more]), read]
  · rw [findLoopIn_line more read]
    rw [read] at none
    dsimp only at none ⊢
    split at none
    · rfl
    · split at none
      · cases none
      · next other => exact if_pos other

/-- An iteration with such a header. -/
theorem findLoopIn_header {fuel : Nat} {res : Option Block} (more : s.eof = false)
    (header : headerAt store target s = some (vlen, t)) : findLoopIn store zero target (fuel + 1) s res heap =
      (readBlock zero vlen t heap >>= fun r => match r.1 with
        | none => findLoopIn store zero target fuel r.2.1 res r.2.2
        | some value => freeBlock r.2.2 (res.map Prod.fst) >>= findLoopIn store zero target fuel r.2.1 (some value)) := by
  obtain ⟨line, read, scan⟩ := headerAt_eq_some.1 header
  rw [findLoopIn_line more read, scan]
  exact if_neg (not_not_intro rfl)

theorem fgets_eof (ended : s.eof = true) : (fgets size s).2.eof = true := by
  unfold fgets
  split
  · rfl
  · simp [ended]

theorem fgetsValue_eof (ended : s.eof = true) : (fgetsValue zero size s).2.eof = true := by
  unfold fgetsValue
  split
  · exact ended
  · exact fgets_eof ended

theorem behindValue_eof (ended : s.eof = true) : (behindValue zero vlen s).eof = true := by
  have first : (fgetsValue zero (vlen + 5).toNat s).2.eof = true := fgetsValue_eof ended
  unfold behindValue
  rcases read : fgetsValue zero (vlen + 5).toNat s with ⟨_ | value, t⟩
  · rwa [read] at first
  · rw [read] at first
    exact fgets_eof first

theorem behindValue_length_le : (behindValue zero vlen s).rest.length ≤ s.rest.length := by
  have first : (fgetsValue zero (vlen + 5).toNat s).2.rest.length ≤ s.rest.length := by
    unfold fgetsValue
    split
    · exact Nat.le_refl _
    · exact fgets_length_le s
  unfold behindValue
  rcases read : fgetsValue zero (vlen + 5).toNat s with ⟨_ | value, t⟩
  · rwa [read] at first
  · rw [read] at first
    exact Nat.le_trans (fgets_length_le t) first

/-- The end of the file is not left. -/
theorem nextLine_eof (ended : s.eof = true) : (nextLine store zero target s).eof = true := by
  unfold nextLine
  split
  · exact fgets_eof ended
  · next vlen t header =>
    obtain ⟨line, read, -⟩ := headerAt_eq_some.1 header
    have first : (fgets 500 s).2.eof = true := fgets_eof ended
    rw [read] at first
    exact behindValue_eof first

theorem iterate_eof (ended : s.eof = true) (k : Nat) : ((nextLine store zero target)^[k] s).eof = true := by
  induction k generalizing s with
  | zero => exact ended
  | succ k ih => exact ih (nextLine_eof ended)

/-- The iterations that are enough for a stream. -/
def Enough (fuel : Nat) (s : Stream) : Prop := s.rest.length + 2 ≤ fuel ∨ s.eof = true ∧ 1 ≤ fuel

/-- An iteration reads a character or comes to the end. -/
theorem Enough.next {fuel : Nat} (enough : Enough (fuel + 1) s) (more : s.eof = false) :
    Enough fuel (nextLine store zero target s) := by
  have room : s.rest.length + 1 ≤ fuel := by
    rcases enough with long | ⟨ended, -⟩
    · omega
    · rw [more] at ended
      cases ended
  unfold nextLine
  split
  · rcases read : fgets 500 s with ⟨_ | line, t⟩
    · right
      rw [fgets_none read]
      exact ⟨rfl, by omega⟩
    · have shorter := fgets_length_lt (by decide) read
      exact .inl (show t.rest.length + 2 ≤ fuel by omega)
  · next vlen t header =>
    obtain ⟨line, read, -⟩ := headerAt_eq_some.1 header
    have shorter := fgets_length_lt (by decide) read
    have behind : (behindValue zero vlen t).rest.length ≤ t.rest.length := behindValue_length_le
    left
    omega

theorem forall_iterate {α : Type} {P : α → Prop} {f : α → α} {a : α} :
    (∀ k, P (f^[k] a)) ↔ P a ∧ ∀ k, P (f^[k] (f a)) := by
  constructor
  · exact fun all => ⟨all 0, fun k => all (k + 1)⟩
  · rintro ⟨first, later⟩ (_ | k)
    · exact first
    · exact later k

/-- The block of a value that is replaced is freed. -/
theorem replaced_run {res : Option Block} {b : Nat} (holds : heap.Holds base (blockOf res ∪ {b})) (other : Disjoint (blockOf res) {b}) :
    ∃ heap', freeBlock heap (res.map Prod.fst) = .ok heap' ∧ heap'.Holds base {b} := by
  cases res with
  | none =>
    refine ⟨heap, rfl, ?_⟩
    simpa using holds
  | some old =>
    obtain ⟨heap', run, holds'⟩ := freeBlock_run holds (Finset.mem_union_left {b} (Finset.mem_singleton_self old.1))
    refine ⟨heap', run, ?_⟩
    have differ : old.1 ≠ b := by simpa using other
    have rest : (blockOf (some old) ∪ {b}).erase old.1 = {b} := by
      rw [blockOf_some, ← Finset.insert_eq, Finset.erase_insert (by simpa using differ)]
    rwa [rest] at holds'

/-- The header at this line, and those behind it. -/
theorem headersFine_next (more : s.eof = false) : HeadersFine store zero target s ↔
    (∀ vlen t, headerAt store target s = some (vlen, t) → LengthFine zero vlen t) ∧
      HeadersFine store zero target (nextLine store zero target s) := by
  have step : HeadersFine store zero target s ↔
      (∀ vlen t, s.eof = false → headerAt store target s = some (vlen, t) → LengthFine zero vlen t) ∧
        HeadersFine store zero target (nextLine store zero target s) := by
    have split := forall_iterate (P := fun s => ∀ vlen t, s.eof = false → headerAt store target s = some (vlen, t) →
      LengthFine zero vlen t) (f := nextLine store zero target) (a := s)
    constructor
    · intro fine
      obtain ⟨here, behind⟩ := split.1 fun k vlen t => fine k vlen t
      exact ⟨here, fun k vlen t => behind k vlen t⟩
    · rintro ⟨here, behind⟩
      exact fun k vlen t => split.2 ⟨here, fun k vlen t => behind k vlen t⟩ k vlen t
  simpa [more] using step

/-- The loop is defined where the headers are fine, and keeps the block of its result alone. -/
theorem findLoopIn_iff {fuel : Nat} {res : Option Block} (holds : heap.Holds base (blockOf res)) (enough : Enough fuel s) :
    (∃ res' heap', findLoopIn store zero target fuel s res heap = .ok (res', heap') ∧ heap'.Holds base (blockOf res')) ↔
      HeadersFine store zero target s := by
  induction fuel generalizing s res heap with
  | zero =>
    unfold Enough at enough
    omega
  | succ fuel ih =>
    cases more : s.eof with
    | true =>
      have run : findLoopIn store zero target (fuel + 1) s res heap = .ok (res, heap) := if_pos more
      refine ⟨fun _ k vlen t here => ?_, fun _ => ⟨res, heap, run, holds⟩⟩
      rw [iterate_eof more] at here
      cases here
    | false =>
      have later : Enough fuel (nextLine store zero target s) := enough.next more
      rw [headersFine_next more]
      cases header : headerAt store target s with
      | none =>
        rw [findLoopIn_skip more header, ih holds later]
        exact ⟨fun fine => ⟨nofun, fine⟩, fun fine => fine.2⟩
      | some place =>
        obtain ⟨vlen, t⟩ := place
        have next : nextLine store zero target s = behindValue zero vlen t := by
          unfold nextLine
          rw [header]
        by_cases fine : LengthFine zero vlen t
        · obtain ⟨value, heap₁, run, holds₁, other⟩ := readBlock_fine holds fine
          rw [findLoopIn_header more header, run, ok_bind, ← next]
          have here : ∀ vlen' t', some (vlen, t) = some (vlen', t') → LengthFine zero vlen' t' := by
            rintro vlen' t' ⟨⟩
            exact fine
          rw [and_iff_right here]
          cases value with
          | none => exact ih (by simpa using holds₁) later
          | some value =>
            obtain ⟨heap₂, freed, holds₂⟩ := replaced_run holds₁ other
            dsimp only
            rw [freed, ok_bind]
            exact ih holds₂ later
        · rw [findLoopIn_header more header, readBlock_undefined fine]
          constructor
          · rintro ⟨res', heap', run, -⟩
            cases run
          · rintro ⟨all, -⟩
            exact absurd (all vlen t rfl) fine

/-- A length that `readValue` is defined for is fine. -/
theorem lengthFine_of_readValue {value : Option (List UInt8)} (read : readValue vlen s = .ok (value, t)) :
    LengthFine zero vlen s := by
  unfold readValue at read
  split at read
  · cases read
  · next size =>
    simp only [not_or, not_not, FitsInt] at size
    rcases line : fgets (vlen + 5).toNat s with ⟨_ | v, u⟩
    · have ended := fgets_none line
      unfold fgets at line
      split at line
      · next empty =>
        unfold LengthFine
        have := empty.2
        by_cases negative : vlen < 0
        · exact .inr (.inr ⟨by omega, negative, empty.2⟩)
        · exact .inl ⟨by omega, by omega⟩
      · cases line
    · rw [line] at read
      dsimp only at read
      split at read
      · cases read
      · exact .inl ⟨by omega, by omega⟩

theorem freeBlock_none {b : Option Nat} {value : Option Block} {heap' : Heap}
    (run : (do
      let heap ← freeBlock heap b
      .ok (none, s, heap)) = .ok (value, t, heap')) : value = none ∧ s = t := by
  cases free : freeBlock heap b with
  | error e => simp [free] at run
  | ok freed =>
    rw [free] at run
    cases run
    exact ⟨rfl, rfl⟩

/-- The value in the block is the one of `readValue`. -/
theorem readValue_of_readBlock {value : Option Block} {heap' : Heap} (positive : 0 < vlen + 5)
    (run : readBlock zero vlen s heap = .ok (value, t, heap')) : readValue vlen s = .ok (value.map Prod.snd, t) := by
  have same : fgetsValue zero (vlen + 5).toNat s = fgets (vlen + 5).toNat s := if_neg (by omega)
  unfold readBlock at run
  unfold readValue
  split at run
  · cases run
  · next size =>
    rw [if_neg (by rintro (unfit | low); exacts [size (.inl unfit), by omega])]
    rw [same] at run
    rcases line : fgets (vlen + 5).toNat s with ⟨_ | v, u⟩
    · rw [line] at run
      obtain ⟨rfl, rfl⟩ := freeBlock_none run
      rfl
    · rw [line] at run
      dsimp only at run ⊢
      by_cases room : storeString (vlen + 5).toNat v = .ok () ∧ storeNul (vlen + 5) vlen = .ok ()
      · rw [room.1, room.2, ok_bind, ok_bind] at run
        have inside : ¬vlen < 0 := by
          intro negative
          have nul : storeNul (vlen + 5) vlen = .error .undefined := if_neg (by omega)
          simp [room.2] at nul
        rw [if_neg inside]
        rcases last : fgets 10 u with ⟨_ | mark, w⟩
        · rw [last] at run
          obtain ⟨rfl, rfl⟩ := freeBlock_none run
          rfl
        · rw [last] at run
          have endRoom : storeString endSize mark = .ok () :=
            if_pos (Nat.lt_of_lt_of_le (fgets_fits (by decide) last) (by decide))
          simp only [endRoom, ok_bind] at run ⊢
          split at run
          · next unmarked =>
            obtain ⟨rfl, rfl⟩ := freeBlock_none run
            exact if_pos unmarked
          · next marked =>
            cases run
            exact if_neg marked
      · rcases store : storeString (vlen + 5).toNat v with e | ⟨⟩
        · simp [store] at run
        · rcases nul : storeNul (vlen + 5) vlen with e | ⟨⟩
          · simp [store, nul] at run
          · exact absurd ⟨store, nul⟩ room

variable (zero) in
/-- What `readValue` defines, `readBlock` has in its block. -/
theorem readBlock_run {value : Option (List UInt8) × Stream} (holds : heap.Holds base owned)
    (read : readValue vlen s = .ok value) : ∃ block heap', readBlock zero vlen s heap = .ok (block, value.2, heap') ∧
      block.map Prod.snd = value.1 ∧ heap'.Holds base (owned ∪ blockOf block) ∧ Disjoint owned (blockOf block) := by
  have fine : LengthFine zero vlen s := lengthFine_of_readValue read
  obtain ⟨block, heap', run, holds', other⟩ := readBlock_fine holds fine
  have positive : 0 < vlen + 5 := by
    by_contra low
    unfold readValue at read
    rw [if_pos (.inr (by omega))] at read
    cases read
  have same := readValue_of_readBlock positive run
  rw [read] at same
  cases same
  exact ⟨block, heap', run, rfl, holds', other⟩

/-- What the reader of the files returns, the one with the blocks returns as well. -/
theorem findLoopIn_of_findLoopOn {fuel : Nat} {res : Option Block} {value : Option (List UInt8)}
    (holds : heap.Holds base (blockOf res)) (run : findLoopOn store target fuel s (res.map Prod.snd) = .ok value) :
    ∃ res' heap', findLoopIn store zero target fuel s res heap = .ok (res', heap') ∧ res'.map Prod.snd = value := by
  induction fuel generalizing s res heap with
  | zero => cases run
  | succ fuel ih =>
    rw [findLoopOn] at run
    cases more : s.eof with
    | true =>
      rw [if_pos more] at run
      cases run
      exact ⟨res, heap, if_pos more, rfl⟩
    | false =>
      rw [if_neg (by simp [more])] at run
      rcases read : fgets 500 s with ⟨_ | line, t⟩
      · rw [read] at run
        rw [findLoopIn, if_neg (by simp [more]), read]
        exact ih holds run
      rw [read] at run
      rw [findLoopIn_line more read]
      dsimp only at run ⊢
      cases scan : scanHeaderOn store (cstr line) with
      | none =>
        rw [scan] at run
        exact ih holds run
      | some header =>
        rw [scan] at run
        dsimp only at run ⊢
        by_cases other : target ≠ header.2
        · rw [if_pos other] at run ⊢
          exact ih holds run
        rw [if_neg other] at run ⊢
        cases value' : readValue header.1 t with
        | error e =>
          rw [value'] at run
          cases run
        | ok found =>
          obtain ⟨found, u⟩ := found
          obtain ⟨block, heap', here, same, holds', apart⟩ := readBlock_run zero holds value'
          rw [value'] at run
          rw [here, ok_bind]
          dsimp only at same run ⊢
          subst same
          cases block with
          | none => exact ih (by simpa using holds') run
          | some block =>
            obtain ⟨heap'', freed, holds''⟩ := replaced_run holds' apart
            dsimp only
            rw [freed, ok_bind]
            exact ih holds'' run

/-- **The reader's memory.** On any file `find_db` is defined, and all that it allocates is freed or returned, exactly
where each header with the key that it comes to has a length that is fine. -/
theorem find_db_safe_iff (store : Int → Int) (zero : Bool) (target : CStr) (file : List UInt8) (heap : Heap) :
    Safe store zero target file heap ↔ HeadersFine store zero target.1 ⟨file, false⟩ :=
  findLoopIn_iff heap.holds_self (.inl (Nat.le_refl _))

/-- The file of the database, as `find_db` reads it with and without its memory. -/
theorem findDbIn_of_findDbOn {w : World} {target : CStr} {file : List UInt8} {value : Option (List UInt8)}
    (exists' : w.files w.db.filename = some file) (run : findDbOn store true target w = .ok value) :
    ∃ res heap', findDbIn store zero target file heap = .ok (res, heap') ∧ res.map Prod.snd = value := by
  unfold findDbOn at run
  rw [exists'] at run
  have holds : heap.Holds heap.live (blockOf none) := heap.holds_self
  exact findLoopIn_of_findLoopOn holds run

end Reading

/-- The value `-1:j` is put under `k`, and the search for `j` stores at `value[-1]`. -/
theorem find_db_overruns : ∃ w w' file, Written w [] ∧
    kvdbPut true (some ⟨[107], by decide⟩) (some ⟨[45, 49, 58, 106], by decide⟩) w = .ok (0, w') ∧
    w'.files w'.db.filename = some file ∧
    ∀ store zero heap, ¬Safe store zero ⟨[106], by decide⟩ file heap := by
  have accepted : Accepted ⟨[107], by decide⟩ ⟨[45, 49, 58, 106], by decide⟩ := ⟨by decide, by decide, by decide⟩
  obtain ⟨w', put⟩ := kvdbPut_accepted written_openedDb.file.1 accepted
  cases put
  refine ⟨openedDb, _, _, written_openedDb, rfl, rfl, ?_⟩
  rintro store zero heap ⟨res, heap', run, -⟩
  cases run

end OsLab.Kvdb
