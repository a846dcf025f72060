import OsLab.Lib.Memory

/-!
# Files as arrays of bounded length

What a file is for: an array of at most `cap` elements, open at a position in it. A `File` carries
both bounds. `bytes` lists what a memory holds, so that a file kept in a memory is a file in this
sense (`overwrite_bytes`, `take_drop_bytes`).
-/

namespace OsLab.ByteFile

open OsLab.Memory

variable {α : Type} {cap : Nat}

/-- `l` with the elements of `ys` from position `n` on, longer if they reach past its end. -/
def overwrite (l : List α) (n : Nat) (ys : List α) : List α :=
  l.take n ++ ys ++ l.drop (n + ys.length)

@[simp] theorem length_overwrite {l ys : List α} {n : Nat} (h : n ≤ l.length) :
    (overwrite l n ys).length = max l.length (n + ys.length) := by
  simp only [overwrite, List.length_append, List.length_take, List.length_drop]
  omega

/-- The elements after an overwrite: the new ones in their range, the old ones outside. -/
theorem getElem?_overwrite {l ys : List α} {n : Nat} (h : n ≤ l.length) (i : Nat) :
    (overwrite l n ys)[i]? = if n ≤ i ∧ i < n + ys.length then ys[i - n]? else l[i]? := by
  have front : (l.take n).length = n := List.length_take_of_le h
  have middle : (l.take n ++ ys).length = n + ys.length := by rw [List.length_append, front]
  unfold overwrite
  obtain before | after := Nat.lt_or_ge i n
  · rw [if_neg (by omega), List.getElem?_append_left (by omega),
      List.getElem?_append_left (by omega), List.getElem?_take_of_lt before]
  · obtain inside | behind := Nat.lt_or_ge i (n + ys.length)
    · rw [if_pos ⟨after, inside⟩, List.getElem?_append_left (by omega),
        List.getElem?_append_right (by omega), front]
    · rw [if_neg (by omega), List.getElem?_append_right (by omega), middle, List.getElem?_drop,
        Nat.add_sub_cancel' behind]

/-- An array of at most `cap` elements, open at `offset`. -/
@[ext]
structure File (α : Type) (cap : Nat) where
  content : List α
  offset : Nat
  offset_le : offset ≤ content.length
  length_le : content.length ≤ cap

namespace File

/-- The elements of `ys` there is room for. -/
def fitting (a : File α cap) (ys : List α) : List α := ys.take (cap - a.offset)

/-- Write at the offset, as much as there is room for. -/
def write (a : File α cap) (ys : List α) : File α cap where
  content := overwrite a.content a.offset (a.fitting ys)
  offset := a.offset + (a.fitting ys).length
  offset_le := by
    rw [length_overwrite a.offset_le]
    omega
  length_le := by
    have start := a.offset_le
    have room : (a.fitting ys).length ≤ cap - a.offset := List.length_take_le ..
    have bound := a.length_le
    rw [length_overwrite start]
    omega

/-- The next elements, `n` of them if there are as many. -/
def next (a : File α cap) (n : Nat) : List α := (a.content.drop a.offset).take n

/-- Read on from the offset. -/
def read (a : File α cap) (n : Nat) : File α cap where
  content := a.content
  offset := a.offset + (a.next n).length
  offset_le := by
    have start := a.offset_le
    simp only [next, List.length_take, List.length_drop]
    omega
  length_le := a.length_le

/-- Go to position `i`, or to the end if there is no such position. -/
def seek (a : File α cap) (i : Int) : File α cap where
  content := a.content
  offset := if 0 ≤ i ∧ i ≤ a.content.length then i.toNat else a.content.length
  offset_le := by
    split
    · omega
    · exact Nat.le_refl _
  length_le := a.length_le

/-- Start at the beginning. -/
def start (a : File α cap) : File α cap := { a with offset := 0, offset_le := Nat.zero_le _ }

/-- Start at the end. -/
def append (a : File α cap) : File α cap :=
  { a with offset := a.content.length, offset_le := Nat.le_refl _ }

end File

/-! ## The bytes in a memory -/

/-- The first `n` bytes of a memory. -/
def bytes (m : Mem) (n : Nat) : List UInt8 := (List.range n).map m

@[simp] theorem length_bytes (m : Mem) (n : Nat) : (bytes m n).length = n := by
  simp [bytes]

theorem getElem?_bytes {m : Mem} {n i : Nat} : (bytes m n)[i]? = if i < n then some (m i) else none := by
  by_cases inside : i < n
  · simp [bytes, inside]
  · simp [bytes, inside]

theorem bytes_congr {m m' : Mem} {n : Nat} (h : ∀ i < n, m' i = m i) : bytes m' n = bytes m n :=
  List.map_congr_left fun i hi => h i (List.mem_range.1 hi)

theorem take_bytes (m : Mem) (n k : Nat) : (bytes m n).take k = bytes m (min k n) := by
  rw [bytes, ← List.map_take, List.take_range, bytes]

/-- Reading in a memory. -/
theorem take_drop_bytes (m : Mem) (n a k : Nat) :
    ((bytes m n).drop a).take k = bytes (fun i => m (a + i)) (min k (n - a)) := by
  apply List.ext_getElem?
  intro i
  rw [List.getElem?_take, List.getElem?_drop, getElem?_bytes, getElem?_bytes]
  by_cases inside : i < min k (n - a)
  · rw [if_pos (by omega), if_pos (by omega), if_pos inside]
  · rw [if_neg inside]
    by_cases early : i < k
    · rw [if_pos early, if_neg (by omega)]
    · rw [if_neg early]

theorem bytes_append (m : Mem) (a n : Nat) :
    bytes m (a + n) = bytes m a ++ bytes (fun i => m (a + i)) n := by
  rw [bytes, List.range_add, List.map_append, List.map_map]
  rfl

/-- A list that was stored in a memory. -/
theorem bytes_stored (m : Mem) (a : Nat) (l : List UInt8) :
    bytes (fun i => store m a l.length (fun i => l.getD i 0) (a + i)) l.length = l := by
  apply List.ext_getElem?
  intro i
  rw [getElem?_bytes]
  by_cases inside : i < l.length
  · rw [if_pos inside, store_inside (by omega) (by omega), Nat.add_sub_cancel_left, List.getD_eq_getElem?_getD,
      List.getElem?_eq_getElem inside, Option.getD_some]
  · rw [if_neg inside, List.getElem?_eq_none (by omega)]

/-- Storing in a memory. -/
theorem overwrite_bytes {m f : Mem} {n a k : Nat} (h : a ≤ n) :
    overwrite (bytes m n) a (bytes f k) = bytes (store m a k f) (max n (a + k)) := by
  apply List.ext_getElem?
  intro i
  rw [getElem?_overwrite (by simpa using h), getElem?_bytes, getElem?_bytes, getElem?_bytes,
    length_bytes]
  by_cases inside : a ≤ i ∧ i < a + k
  · rw [if_pos inside, if_pos (by omega), if_pos (by omega), store_inside inside.1 inside.2]
  · rw [if_neg inside, store_outside (by omega)]
    by_cases early : i < n
    · rw [if_pos early, if_pos (by omega)]
    · rw [if_neg early, if_neg (by omega)]

end OsLab.ByteFile
