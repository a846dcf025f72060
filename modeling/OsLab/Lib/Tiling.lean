import Mathlib.Data.List.Chain
import Mathlib.Tactic.Ring

/-!
# Tilings of an interval

`Tiles lo hi a xs b` says that the half-open intervals `[lo x, hi x)` of the items of
`xs`, taken in order, lie end to end from `a` to `b`. A tiling covers `[a, b)`
(`Tiles.cover`) and its items are in increasing order (`Tiles.pairwise`), so it is the
usual form of "no overlap and no loss" for a region cut into blocks. Items are of any
type.
-/

namespace OsLab

variable {α : Type*} {lo hi : α → Nat}

/-- The items of the list lie end to end from the first to the last argument. -/
def Tiles (lo hi : α → Nat) : Nat → List α → Nat → Prop
  | a, [], b => a = b
  | a, x :: xs, b => lo x = a ∧ lo x ≤ hi x ∧ Tiles lo hi (hi x) xs b

namespace Tiles

theorem single {x : α} (h : lo x ≤ hi x) : Tiles lo hi (lo x) [x] (hi x) := ⟨rfl, h, rfl⟩

theorem append_iff {xs ys : List α} {a c : Nat} :
    Tiles lo hi a (xs ++ ys) c ↔ ∃ b, Tiles lo hi a xs b ∧ Tiles lo hi b ys c := by
  induction xs generalizing a with
  | nil => simp [Tiles]
  | cons x xs ih =>
    simp only [List.cons_append, Tiles, ih]
    constructor
    · rintro ⟨h, hle, b, hb, hc⟩
      exact ⟨b, ⟨h, hle, hb⟩, hc⟩
    · rintro ⟨b, ⟨h, hle, hb⟩, hc⟩
      exact ⟨h, hle, b, hb, hc⟩

theorem le {xs : List α} {a b : Nat} (h : Tiles lo hi a xs b) : a ≤ b := by
  induction xs generalizing a with
  | nil => exact Nat.le_of_eq h
  | cons x xs ih =>
    obtain ⟨rfl, hle, rest⟩ := h
    exact hle.trans (ih rest)

/-- The item at a position of the list starts where the items before it end. -/
theorem split {xs ys : List α} {x : α} {a b : Nat} (h : Tiles lo hi a (xs ++ x :: ys) b) :
    Tiles lo hi a xs (lo x) ∧ lo x ≤ hi x ∧ Tiles lo hi (hi x) ys b := by
  obtain ⟨c, before, rfl, hle, after⟩ := append_iff.1 h
  exact ⟨before, hle, after⟩

/-- Replace one item by items that lie end to end over the same interval. -/
theorem replace {xs ys : List α} {x : α} {a b : Nat} (h : Tiles lo hi a (xs ++ x :: ys) b)
    (zs : List α) (new : Tiles lo hi (lo x) zs (hi x)) : Tiles lo hi a (xs ++ (zs ++ ys)) b := by
  obtain ⟨before, -, after⟩ := h.split
  exact append_iff.2 ⟨_, before, append_iff.2 ⟨_, new, after⟩⟩

theorem mem_bounds {xs : List α} {a b : Nat} (h : Tiles lo hi a xs b) {x : α} (hx : x ∈ xs) :
    a ≤ lo x ∧ lo x ≤ hi x ∧ hi x ≤ b := by
  obtain ⟨pre, post, rfl⟩ := List.append_of_mem hx
  obtain ⟨before, hle, after⟩ := h.split
  exact ⟨before.le, hle, after.le⟩

/-- Items are in increasing order and do not overlap. -/
theorem pairwise {xs : List α} {a b : Nat} (h : Tiles lo hi a xs b) :
    xs.Pairwise fun x y => hi x ≤ lo y := by
  induction xs generalizing a with
  | nil => exact .nil
  | cons x xs ih =>
    obtain ⟨-, -, rest⟩ := h
    exact List.pairwise_cons.2 ⟨fun y hy => (rest.mem_bounds hy).1, ih rest⟩

/-- Every point of the interval lies in an item. -/
theorem cover {xs : List α} {a b : Nat} (h : Tiles lo hi a xs b) {p : Nat} (hl : a ≤ p)
    (hr : p < b) : ∃ x ∈ xs, lo x ≤ p ∧ p < hi x := by
  induction xs generalizing a with
  | nil =>
    have : a = b := h
    omega
  | cons x xs ih =>
    obtain ⟨rfl, -, rest⟩ := h
    by_cases hp : p < hi x
    · exact ⟨x, by simp, hl, hp⟩
    · obtain ⟨y, hy, hb⟩ := ih rest (by omega)
      exact ⟨y, by simp [hy], hb⟩

/-- A tiling by items of width at least `w` has at most `(b - a) / w` items. -/
theorem length_mul_le {xs : List α} {a b w : Nat} (h : Tiles lo hi a xs b)
    (wide : ∀ x ∈ xs, lo x + w ≤ hi x) : a + xs.length * w ≤ b := by
  induction xs generalizing a with
  | nil => simpa using Nat.le_of_eq h
  | cons x xs ih =>
    obtain ⟨rfl, -, rest⟩ := h
    have := ih rest fun y hy => wide y (by simp [hy])
    have := wide x (by simp)
    rw [List.length_cons, Nat.succ_mul]
    omega

/-- Two items that touch are neighbours in the list. -/
theorem neighbours {xs : List α} {x y : α} {a b : Nat} (h : Tiles lo hi a xs b)
    (wide : ∀ z ∈ xs, lo z < hi z) (hx : x ∈ xs) (hy : y ∈ xs) (touch : lo y = hi x) :
    ∃ pre post, xs = pre ++ x :: y :: post := by
  obtain ⟨pre, post, rfl⟩ := List.append_of_mem hx
  have xwide := wide x (by simp)
  have ywide := wide y hy
  obtain ⟨before, -, after⟩ := h.split
  have later : y ∈ post := by
    rcases List.mem_append.1 hy with member | member
    · have := before.mem_bounds member
      omega
    rcases List.mem_cons.1 member with rfl | member
    · omega
    · exact member
  cases post with
  | nil => simp at later
  | cons z post =>
    obtain ⟨start, -, rest⟩ := after
    rcases List.mem_cons.1 later with rfl | later
    · exact ⟨pre, post, rfl⟩
    · have zwide := wide z (by simp)
      have := rest.mem_bounds later
      omega

end Tiles

/-- `[s, e)` is an interval of points with the property that cannot be widened. -/
structure Maximal (P : Nat → Prop) (s e : Nat) : Prop where
  nonempty : s < e
  inside : ∀ p, s ≤ p → p < e → P p
  before : ∀ p, p + 1 = s → ¬ P p
  behind : ¬ P e

theorem Maximal.congr {P Q : Nat → Prop} {s e : Nat} (same : ∀ p, P p ↔ Q p) : Maximal P s e ↔ Maximal Q s e := by
  obtain rfl : P = Q := funext fun p => propext (same p)
  exact Iff.rfl

section Maximal

variable {xs : List α} {a b s e : Nat} {chosen : α → Prop}

/-- The points of the chosen items of a tiling. -/
def Points (lo hi : α → Nat) (chosen : α → Prop) (xs : List α) (p : Nat) : Prop :=
  ∃ x ∈ xs, chosen x ∧ lo x ≤ p ∧ p < hi x

/-- A chosen item without chosen neighbours is a maximal interval. -/
theorem Tiles.maximal (h : Tiles lo hi a xs b) (wide : ∀ z ∈ xs, lo z < hi z)
    (apart : xs.IsChain fun x y => ¬ (chosen x ∧ chosen y)) {x : α} (hx : x ∈ xs) (free : chosen x) :
    Maximal (Points lo hi chosen xs) (lo x) (hi x) := by
  have xwide := wide x hx
  have untouched : ∀ y ∈ xs, ∀ z ∈ xs, lo z = hi y → ¬ (chosen y ∧ chosen z) := by
    intro y hy z hz touch
    obtain ⟨pre, post, rfl⟩ := h.neighbours wide hy hz touch
    exact (List.isChain_cons_cons.1 (List.isChain_append.1 apart).2.1).1
  have order : ∀ y ∈ xs, y = x ∨ hi y ≤ lo x ∨ hi x ≤ lo y := by
    intro y hy
    obtain ⟨pre, post, rfl⟩ := List.append_of_mem hx
    have sorted := List.pairwise_append.1 h.pairwise
    rcases List.mem_append.1 hy with member | member
    · exact Or.inr (Or.inl (sorted.2.2 y member x (by simp)))
    rcases List.mem_cons.1 member with rfl | member
    · exact Or.inl rfl
    · exact Or.inr (Or.inr ((List.pairwise_cons.1 sorted.2.1).1 y member))
  refine ⟨xwide, fun p lower upper => ⟨x, hx, free, lower, upper⟩, ?_, ?_⟩
  · rintro p next ⟨y, hy, chosenY, lower, upper⟩
    rcases order y hy with rfl | above | below
    · omega
    · exact untouched y hy x hx (by omega) ⟨chosenY, free⟩
    · omega
  · rintro ⟨y, hy, chosenY, lower, upper⟩
    rcases order y hy with rfl | above | below
    · omega
    · omega
    · exact untouched x hx y hy (by omega) ⟨free, chosenY⟩

/-- Where no two chosen items touch, they are the maximal intervals of chosen points. -/
theorem Tiles.maximal_iff (h : Tiles lo hi a xs b) (wide : ∀ z ∈ xs, lo z < hi z)
    (apart : xs.IsChain fun x y => ¬ (chosen x ∧ chosen y)) :
    Maximal (Points lo hi chosen xs) s e ↔ ∃ x ∈ xs, chosen x ∧ lo x = s ∧ hi x = e := by
  constructor
  · intro max
    obtain ⟨x, hx, free, lower, upper⟩ := max.inside s (Nat.le_refl s) max.nonempty
    have own := h.maximal wide apart hx free
    refine ⟨x, hx, free, ?_, ?_⟩
    · refine Nat.le_antisymm lower (Nat.le_of_not_lt fun less => ?_)
      exact max.before (s - 1) (by omega) (own.inside _ (by omega) (by omega))
    · refine Nat.le_antisymm (Nat.le_of_not_lt fun less => ?_) (Nat.le_of_not_lt fun less => ?_)
      · exact max.behind (own.inside e (by have := max.nonempty; omega) less)
      · exact own.behind (max.inside _ (by omega) less)
  · rintro ⟨x, hx, free, rfl, rfl⟩
    exact h.maximal wide apart hx free

end Maximal

end OsLab
