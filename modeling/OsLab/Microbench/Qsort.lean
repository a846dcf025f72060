import OsLab.Lib.Trap
import Mathlib.Data.List.Pairwise
import Mathlib.Data.List.Perm.Basic

/-!
# The qsort benchmark (`apps/microbench/src/qsort/qsort.c`)

`myqsort` takes the first element of a range for its pivot, and sorts the range in place. Every access to the array is
checked. The depth of the recursion has a bound, which it never reaches.
-/

namespace OsLab.Microbench.Qsort

open scoped List

/-- `swap(&a[i], &a[j])` -/
def swap (a : List Int) (i j : Nat) : Except Trap (List Int) := do
  let t ← Trap.load a i
  let b ← Trap.load a j
  let a ← Trap.put a i b
  Trap.put a j t

/-- The loop of `myqsort` from `j` on, with `n` turns left -/
def partLoop (p : Int) : Nat → Nat → Nat → List Int → Except Trap (Nat × List Int)
  | 0, _, pivot, a => .ok (pivot, a)
  | n + 1, j, pivot, a => do
    if (← Trap.load a j) < p then
      let a ← swap a (pivot + 1) j
      partLoop p n (j + 1) (pivot + 1) a
    else partLoop p n (j + 1) pivot a

def myqsort : Nat → List Int → Nat → Nat → Except Trap (List Int)
  | 0, _, _, _ => .error .diverge
  | depth + 1, a, l, r =>
    if l < r then do
      let p ← Trap.load a l
      let (pivot, a) ← partLoop p (r - (l + 1)) (l + 1) l a
      let a ← swap a pivot l
      let a ← myqsort depth a l pivot
      myqsort depth a (pivot + 1) r
    else .ok a

/-- `bench_qsort_run`, of an array of `N` numbers -/
def benchQsortRun (data : List Int) : Except Trap (List Int) := myqsort (data.length + 1) data 0 data.length

/-! ## The swaps -/

variable {pre mid post small big : List Int} {p x y : Int}

theorem load_middle (pre post : List Int) (x : Int) : Trap.load (pre ++ x :: post) pre.length = .ok x := Trap.load_at rfl

theorem put_middle (pre post : List Int) (x y : Int) : Trap.put (pre ++ x :: post) pre.length y = .ok (pre ++ y :: post) :=
  Trap.put_at rfl

theorem swap_self (pre post : List Int) (x : Int) : swap (pre ++ x :: post) pre.length pre.length = .ok (pre ++ x :: post) := by
  unfold swap
  rw [load_middle, ok_bind, ok_bind, put_middle, ok_bind, put_middle]

/-- Two elements of the array change places, the second after the first. -/
theorem swap_ahead (pre mid post : List Int) (x y : Int) :
    swap (pre ++ x :: mid ++ y :: post) pre.length (pre ++ x :: mid).length = .ok (pre ++ y :: mid ++ x :: post) := by
  have same : (pre ++ x :: mid).length = (pre ++ y :: mid).length := by rw [List.length_append, List.length_append]; rfl
  have front : ∀ z : Int, pre ++ z :: mid ++ y :: post = pre ++ z :: (mid ++ y :: post) := fun z => by simp
  unfold swap
  rw [load_middle (pre ++ x :: mid) post y, front x, load_middle, ok_bind, ok_bind, put_middle, ok_bind, ← front y, same,
    put_middle]

/-- Two elements of the array change places, the first after the second. -/
theorem swap_back (pre mid post : List Int) (x y : Int) :
    swap (pre ++ x :: mid ++ y :: post) (pre ++ x :: mid).length pre.length = .ok (pre ++ y :: mid ++ x :: post) := by
  have front : ∀ z w : Int, pre ++ z :: mid ++ w :: post = pre ++ z :: (mid ++ w :: post) := fun z w => by simp
  unfold swap
  rw [load_middle (pre ++ x :: mid) post y, ok_bind, front x y, load_middle, ok_bind, ← front x y,
    put_middle (pre ++ x :: mid) post y x, ok_bind, front x x, put_middle, ← front y x]

/-! ## The partition -/

/-- In front of `j` there are the elements below `p` and then the others; the pivot is the place of the last one below. -/
theorem partLoop_spec (pre small big rest post : List Int) (p : Int) (below : ∀ x ∈ small, x < p) (above : ∀ x ∈ big, p ≤ x) :
    ∃ small' big', partLoop p rest.length (pre ++ p :: small ++ big).length (pre ++ small).length
        (pre ++ p :: small ++ big ++ rest ++ post) = .ok ((pre ++ small').length, pre ++ p :: small' ++ big' ++ post) ∧
      (small' ++ big').Perm (small ++ big ++ rest) ∧ (∀ x ∈ small', x < p) ∧ ∀ x ∈ big', p ≤ x := by
  induction rest generalizing small big with
  | nil =>
    refine ⟨small, big, ?_, by rw [List.append_nil], below, above⟩
    rw [List.append_nil]
    rfl
  | cons x rest ih =>
    have array : pre ++ p :: small ++ big ++ x :: rest ++ post = pre ++ p :: small ++ big ++ x :: (rest ++ post) := by simp
    rw [array, List.length_cons, partLoop, load_middle, ok_bind]
    by_cases less : x < p
    · have below' : ∀ y ∈ small ++ [x], y < p := by
        intro y member
        rcases List.mem_append.mp member with member | member
        · exact below y member
        · exact List.mem_singleton.mp member ▸ less
      have front : (pre ++ small).length + 1 = (pre ++ p :: small).length := by simp; omega
      have front' : (pre ++ small).length + 1 = (pre ++ (small ++ [x])).length := by simp; omega
      rw [if_pos less]
      cases big with
      | nil =>
        have grown : pre ++ p :: small ++ x :: (rest ++ post) = pre ++ p :: (small ++ [x]) ++ [] ++ rest ++ post := by simp
        have moved : (pre ++ p :: small).length + 1 = (pre ++ p :: (small ++ [x]) ++ []).length := by simp; omega
        obtain ⟨small', big', run, perm, found⟩ := ih (small ++ [x]) [] below' above
        rw [List.append_nil, front, swap_self, ok_bind, moved, ← front, front', grown, run]
        refine ⟨small', big', rfl, perm.trans ?_, found⟩
        simp
      | cons y big =>
        have swapped : pre ++ p :: small ++ x :: big ++ y :: (rest ++ post) =
            pre ++ p :: (small ++ [x]) ++ (big ++ [y]) ++ rest ++ post := by simp
        have moved : (pre ++ p :: small ++ y :: big).length + 1 = (pre ++ p :: (small ++ [x]) ++ (big ++ [y])).length := by
          simp; omega
        have above' : ∀ z ∈ big ++ [y], p ≤ z := fun z member => above z (by simpa [or_comm] using member)
        obtain ⟨small', big', run, perm, found⟩ := ih (small ++ [x]) (big ++ [y]) below' above'
        rw [front, swap_ahead (pre ++ p :: small) big (rest ++ post) y x, ok_bind, ← front, front', swapped, moved, run]
        refine ⟨small', big', rfl, perm.trans ?_, found⟩
        rw [List.perm_iff_count]
        intro z
        simp only [List.count_append, List.count_cons, List.count_nil]
        omega
    · have above' : ∀ z ∈ big ++ [x], p ≤ z := by
        intro z member
        rcases List.mem_append.mp member with member | member
        · exact above z member
        · exact List.mem_singleton.mp member ▸ not_lt.mp less
      have grown : pre ++ p :: small ++ big ++ x :: (rest ++ post) = pre ++ p :: small ++ (big ++ [x]) ++ rest ++ post := by simp
      have moved : (pre ++ p :: small ++ big).length + 1 = (pre ++ p :: small ++ (big ++ [x])).length := by simp; omega
      obtain ⟨small', big', run, perm, found⟩ := ih small (big ++ [x]) below above'
      rw [if_neg less, grown, moved, run]
      refine ⟨small', big', rfl, perm.trans ?_, found⟩
      simp

/-- The pivot goes to its place. -/
theorem swap_pivot (pre small post : List Int) (p : Int) :
    ∃ small', swap (pre ++ p :: small ++ post) (pre ++ small).length pre.length = .ok (pre ++ small' ++ p :: post) ∧
      small'.Perm small := by
  rcases List.eq_nil_or_concat small with rfl | ⟨small, x, rfl⟩
  · refine ⟨[], ?_, List.Perm.refl _⟩
    rw [List.append_nil, List.append_assoc]
    exact swap_self pre post p
  · rw [List.concat_eq_append]
    refine ⟨x :: small, ?_, (List.perm_append_singleton x small).symm⟩
    have array : pre ++ p :: (small ++ [x]) ++ post = pre ++ p :: small ++ x :: post := by simp
    have place : (pre ++ (small ++ [x])).length = (pre ++ p :: small).length := by simp
    rw [array, place, swap_back]

/-! ## The whole sort -/

/-- A sorted list behind a pivot that is above it, and a sorted list that is not below the pivot. -/
theorem sorted_around {small big : List Int} (left : small.Pairwise (· ≤ ·)) (right : big.Pairwise (· ≤ ·))
    (below : ∀ x ∈ small, x < p) (above : ∀ x ∈ big, p ≤ x) : (small ++ p :: big).Pairwise (· ≤ ·) := by
  rw [List.pairwise_append, List.pairwise_cons]
  refine ⟨left, ⟨above, right⟩, fun x lower y upper => ?_⟩
  rcases List.mem_cons.mp upper with rfl | upper
  · exact le_of_lt (below x lower)
  · exact le_trans (le_of_lt (below x lower)) (above y upper)

/-- A range is sorted, whatever is around it, and that stays as it is. -/
theorem myqsort_spec {depth : Nat} (pre mid post : List Int) (enough : mid.length < depth) :
    ∃ sorted, myqsort depth (pre ++ mid ++ post) pre.length (pre ++ mid).length = .ok (pre ++ sorted ++ post) ∧
      sorted.Perm mid ∧ sorted.Pairwise (· ≤ ·) := by
  induction depth generalizing pre mid post with
  | zero => exact absurd enough (Nat.not_lt_zero _)
  | succ depth ih =>
    cases mid with
    | nil =>
      refine ⟨[], ?_, List.Perm.refl _, List.Pairwise.nil⟩
      rw [myqsort, List.append_nil, if_neg (Nat.lt_irrefl _)]
    | cons p rest =>
      have turns : (pre ++ p :: rest).length - (pre.length + 1) = rest.length := by simp; omega
      have front : pre ++ p :: rest ++ post = pre ++ p :: (rest ++ post) := by simp
      obtain ⟨small, big, parted, perm, below, above⟩ := partLoop_spec pre [] [] rest post p
        (fun x member => absurd member List.not_mem_nil) fun x member => absurd member List.not_mem_nil
      have parted' : partLoop p rest.length (pre.length + 1) pre.length (pre ++ p :: (rest ++ post)) =
          .ok ((pre ++ small).length, pre ++ p :: small ++ (big ++ post)) := by simpa using parted
      obtain ⟨lower, swapped, lower_perm⟩ := swap_pivot pre small (big ++ post) p
      have sizes := perm.length_eq
      rw [List.length_append, List.nil_append, List.nil_append] at sizes
      rw [List.length_cons] at enough
      have short := lower_perm.length_eq
      obtain ⟨left, sorts, left_perm, left_sorted⟩ := ih pre lower (p :: (big ++ post)) (by omega)
      obtain ⟨right, sorts', right_perm, right_sorted⟩ := ih (pre ++ left ++ [p]) big post (by omega)
      have whole := left_perm.length_eq
      have pivot : (pre ++ small).length = (pre ++ lower).length := by simp [short]
      have next : (pre ++ lower).length + 1 = (pre ++ left ++ [p]).length := by simp [whole]; omega
      have stop : (pre ++ p :: rest).length = (pre ++ left ++ [p] ++ big).length := by simp [whole, short]; omega
      have middle : pre ++ left ++ p :: (big ++ post) = pre ++ left ++ [p] ++ big ++ post := by simp
      have result : pre ++ left ++ [p] ++ right ++ post = pre ++ (left ++ p :: right) ++ post := by simp
      refine ⟨left ++ p :: right, ?_, ?_, ?_⟩
      · rw [myqsort, if_pos (by simp), front, load_middle, ok_bind, turns, parted', ok_bind]
        simp only []
        rw [swapped, ok_bind, pivot, sorts, ok_bind, next, stop, middle, sorts', result]
      · calc left ++ p :: right
          _ ~ small ++ p :: big := (left_perm.trans lower_perm).append (right_perm.cons p)
          _ ~ p :: (small ++ big) := List.perm_middle
          _ ~ p :: rest := perm.cons p
      · exact sorted_around left_sorted right_sorted
          (fun x member => below x (lower_perm.mem_iff.mp (left_perm.mem_iff.mp member)))
          fun x member => above x (right_perm.mem_iff.mp member)

/-- Whatever is in the array: the benchmark sorts it, stays inside of it, and changes nothing but the order. -/
theorem qsort_sorts (data : List Int) :
    ∃ sorted, benchQsortRun data = .ok sorted ∧ sorted.Perm data ∧ sorted.Pairwise (· ≤ ·) := by
  obtain ⟨sorted, run, perm, order⟩ := myqsort_spec [] data [] (Nat.lt_succ_self data.length)
  refine ⟨sorted, ?_, perm, order⟩
  rw [List.nil_append, List.append_nil, List.nil_append, List.append_nil] at run
  exact run

end OsLab.Microbench.Qsort
