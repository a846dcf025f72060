import Mathlib.Data.List.Chain
import Mathlib.Data.List.Rotate

/-!
# Rounds of a cyclic order

A list without repetitions, read as a cycle. `Next l x y` says that `y` comes after `x`, the
first element after the last. A sequence that goes from every element to the next one comes
back to an element exactly when it has met all others, in their order (`round`).
-/

namespace OsLab.Cyclic

variable {α : Type}

/-- `y` comes after `x` in the cycle of `l`. -/
def Next (l : List α) (x y : α) : Prop :=
  ∃ l₁ l₂, l = l₁ ++ x :: l₂ ∧ (l₂ ++ l₁ ++ [x]).head? = some y

section Next

variable {l a q mid : List α} {x y c : α}

theorem Next.mem (next : Next l x y) : x ∈ l := by
  obtain ⟨l₁, l₂, rfl, -⟩ := next
  simp

/-- Two rotations of a list without repetitions that begin with the same element agree. -/
theorem rotation_unique (nodup : (x :: a).Nodup) (rotated : (x :: a).IsRotated (x :: q)) : a = q := by
  obtain ⟨n, rotated⟩ := rotated
  have head : (x :: a)[n % (x :: a).length]? = (x :: a)[0]? := by
    rw [← List.head?_rotate (Nat.mod_lt _ (by simp)), List.rotate_mod, rotated]
    rfl
  have start : n % (x :: a).length = 0 := by
    have range : n % (x :: a).length < (x :: a).length := Nat.mod_lt _ (by simp)
    rw [List.getElem?_eq_getElem range, List.getElem?_eq_getElem (by simp), Option.some.injEq,
      nodup.getElem_inj_iff] at head
    exact head
  rw [← List.rotate_mod, start, List.rotate_zero] at rotated
  exact List.tail_eq_of_cons_eq rotated

theorem rotated_front (a q : List α) (c : α) : (a ++ c :: q).IsRotated (c :: (q ++ a)) :=
  List.isRotated_append

/-- What follows `x` in a cycle without repetitions does not depend on where it is cut. -/
theorem rotation_rest {l₁ l₂ : List α} (nodup : (l₁ ++ x :: l₂).Nodup)
    (rotated : (l₁ ++ x :: l₂).IsRotated (a ++ x :: q)) : l₂ ++ l₁ = q ++ a := by
  apply rotation_unique ((rotated_front l₁ l₂ x).nodup_iff.1 nodup)
  exact (rotated_front l₁ l₂ x).symm.trans (rotated.trans (rotated_front a q x))

/-- The next element is read off any rotation. -/
theorem next_iff (nodup : l.Nodup) (rotated : l.IsRotated (a ++ c :: q)) :
    Next l c y ↔ (q ++ a ++ [c]).head? = some y := by
  constructor
  · rintro ⟨l₁, l₂, rfl, head⟩
    rw [← rotation_rest nodup rotated]
    exact head
  · intro head
    obtain ⟨l₁, l₂, rfl⟩ := List.append_of_mem (rotated.mem_iff.2 (by simp : c ∈ a ++ c :: q))
    refine ⟨l₁, l₂, rfl, ?_⟩
    rw [rotation_rest nodup rotated]
    exact head

/-- On the way from `x` through `a` to `c`, the elements of `q` are still to come. -/
theorem remaining (nodup : l.Nodup) (rotated : l.IsRotated (a ++ c :: q))
    (start : (a ++ [c]).head? = some x) (chain : (c :: (mid ++ [x])).IsChain (Next l)) (away : x ∉ mid) :
    q = mid := by
  induction mid generalizing a c q with
  | nil =>
    obtain ⟨next, -⟩ := List.isChain_cons_cons.1 chain
    rw [next_iff nodup rotated] at next
    cases q with
    | nil => rfl
    | cons y q =>
      -- the next element would be both `x`, behind us, and `y`, ahead
      obtain rfl : y = x := by simpa using next
      have twice : (a ++ c :: y :: q).Nodup := rotated.nodup_iff.1 nodup
      cases a with
      | nil =>
        obtain rfl : c = y := by simpa using start
        simp at twice
      | cons b a =>
        obtain rfl : b = y := by simpa using start
        simp at twice
  | cons y mid ih =>
    obtain ⟨next, chain⟩ := List.isChain_cons_cons.1 chain
    rw [next_iff nodup rotated] at next
    cases q with
    | nil =>
      rw [List.nil_append, start] at next
      obtain rfl := Option.some.inj next
      simp at away
    | cons z q =>
      obtain rfl : z = y := by simpa using next
      have rest : q = mid := by
        apply ih (a := a ++ [c]) (c := z) _ _ chain (fun member => away (List.mem_cons_of_mem _ member))
        · simpa using rotated
        · rw [List.head?_append, start]
          rfl
      rw [rest]

/-- **A round.** Between two visits of `x` lie all other elements, in their order. -/
theorem round (nodup : l.Nodup) (chain : (x :: (mid ++ [x])).IsChain (Next l)) (away : x ∉ mid) :
    l.IsRotated (x :: mid) := by
  have member : x ∈ l := by
    cases mid with
    | nil => exact (List.isChain_cons_cons.1 chain).1.mem
    | cons y mid => exact (List.isChain_cons_cons.1 chain).1.mem
  obtain ⟨l₁, l₂, rfl⟩ := List.append_of_mem member
  have rotated := rotated_front l₁ l₂ x
  rw [← remaining nodup (a := []) rotated rfl chain away]
  exact rotated

/-- Each other element is visited once between two visits of `x`. -/
theorem round_count [DecidableEq α] (nodup : l.Nodup) (chain : (x :: (mid ++ [x])).IsChain (Next l))
    (away : x ∉ mid) (member : y ∈ l) (other : y ≠ x) : mid.count y = 1 := by
  have rotated := round nodup chain away
  have nodup' : (x :: mid).Nodup := rotated.nodup_iff.1 nodup
  apply List.count_eq_one_of_mem (List.nodup_cons.1 nodup').2
  exact (List.mem_cons.1 (rotated.mem_iff.1 member)).resolve_left other

end Next

end OsLab.Cyclic
