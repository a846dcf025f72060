import Mathlib.Logic.Function.Basic
import Mathlib.Tactic.Common

/-!
# Rasters

A raster keeps its pixels row after row. `Paints r area colour r'` says that `r'` has the colours of a
picture in an area and what `r` has elsewhere. Painting one area after the other paints both, and a loop
paints what its rounds paint.
-/

namespace OsLab.Painting

/-- Pixels, numbered row after row. -/
structure Raster (γ : Type) where
  width : Nat
  height : Nat
  pixels : Nat → γ

variable {γ ε : Type}

/-- The pixel in column `x` of row `y`. -/
def Raster.get (r : Raster γ) (x y : Nat) : γ := r.pixels (x + y * r.width)

/-- The raster with another pixel `i`, if there is one. -/
def Raster.put (r : Raster γ) (i : Nat) (g : γ) : Option (Raster γ) :=
  if i < r.width * r.height then some { r with pixels := Function.update r.pixels i g } else none

/-- `r'` has the colours of a picture in an area, and elsewhere what `r` has. -/
structure Paints (r : Raster γ) (area : Nat → Nat → Prop) (colour : Nat → Nat → γ) (r' : Raster γ) : Prop where
  width : r'.width = r.width
  height : r'.height = r.height
  inside : ∀ x < r.width, ∀ y < r.height, area x y → r'.get x y = colour x y
  outside : ∀ x < r.width, ∀ y < r.height, ¬ area x y → r'.get x y = r.get x y

variable {r r' r'' : Raster γ} {area area' : Nat → Nat → Prop} {colour : Nat → Nat → γ} {x y x' y' : Nat} {g : γ}

/-! ## One pixel -/

theorem number_lt {width height : Nat} (hx : x < width) (hy : y < height) : x + y * width < width * height := by
  calc x + y * width < width + y * width := Nat.add_lt_add_right hx _
    _ = width * (y + 1) := by rw [Nat.mul_succ, Nat.mul_comm, Nat.add_comm]
    _ ≤ width * height := Nat.mul_le_mul_left _ hy

theorem number_inj {width : Nat} (hx : x < width) (hx' : x' < width) (same : x + y * width = x' + y' * width) :
    x = x' ∧ y = y' := by
  have positive : 0 < width := Nat.zero_lt_of_lt hx
  have column := congrArg (· % width) same
  have row := congrArg (· / width) same
  simp only [Nat.add_mul_mod_self_right, Nat.mod_eq_of_lt hx, Nat.mod_eq_of_lt hx'] at column
  simp only [Nat.add_mul_div_right _ _ positive, Nat.div_eq_of_lt hx, Nat.div_eq_of_lt hx', Nat.zero_add] at row
  exact ⟨column, row⟩

theorem put_paints (hx : x < r.width) (hy : y < r.height) (wanted : colour x y = g) :
    ∃ r', r.put (x + y * r.width) g = some r' ∧ Paints r (fun x' y' => x' = x ∧ y' = y) colour r' := by
  refine ⟨_, if_pos (number_lt hx hy), rfl, rfl, ?_, ?_⟩
  · rintro _ - _ - ⟨rfl, rfl⟩
    rw [wanted]
    exact Function.update_self _ _ _
  · intro x' hx' y' _ other
    apply Function.update_of_ne
    intro same
    exact other (number_inj hx' hx same)

/-! ## Areas -/

theorem Paints.refl (r : Raster γ) (colour : Nat → Nat → γ) : Paints r (fun _ _ => False) colour r :=
  ⟨rfl, rfl, fun _ _ _ _ h => h.elim, fun _ _ _ _ _ => rfl⟩

theorem Paints.trans (first : Paints r area colour r') (second : Paints r' area' colour r'') :
    Paints r (fun x y => area x y ∨ area' x y) colour r'' := by
  refine ⟨second.width.trans first.width, second.height.trans first.height, fun x hx y hy painted => ?_,
    fun x hx y hy bare => ?_⟩
  · have hx' : x < r'.width := first.width ▸ hx
    have hy' : y < r'.height := first.height ▸ hy
    by_cases later : area' x y
    · exact second.inside x hx' y hy' later
    · rw [second.outside x hx' y hy' later]
      exact first.inside x hx y hy (painted.resolve_right later)
  · rw [not_or] at bare
    rw [second.outside x (first.width ▸ hx) y (first.height ▸ hy) bare.2]
    exact first.outside x hx y hy bare.1

theorem Paints.congr (paints : Paints r area colour r')
    (same : ∀ x < r.width, ∀ y < r.height, (area x y ↔ area' x y)) : Paints r area' colour r' :=
  ⟨paints.width, paints.height, fun x hx y hy h => paints.inside x hx y hy ((same x hx y hy).2 h),
    fun x hx y hy h => paints.outside x hx y hy fun h' => h ((same x hx y hy).1 h')⟩

/-! ## Drawing loops -/

/-- The rounds of a loop paint one area after the other. -/
theorem foldlM_paints {body : Raster γ → Nat → Except ε (Raster γ)} {part : Nat → Nat → Nat → Prop} (n : Nat)
    (round : ∀ i < n, ∀ s : Raster γ, s.width = r.width → s.height = r.height →
      ∃ s', body s i = .ok s' ∧ Paints s (part i) colour s') :
    ∃ r', (List.range n).foldlM body r = .ok r' ∧ Paints r (fun x y => ∃ i < n, part i x y) colour r' := by
  induction n with
  | zero => exact ⟨r, rfl, (Paints.refl r colour).congr (by simp)⟩
  | succ n ih =>
    obtain ⟨s, before, paints⟩ := ih fun i hi => round i (Nat.lt_succ_of_lt hi)
    obtain ⟨s', last, paints'⟩ := round n (Nat.lt_succ_self n) s paints.width paints.height
    refine ⟨s', ?_, (paints.trans paints').congr fun x _ y _ => ?_⟩
    · rw [List.range_succ, List.foldlM_append, before]
      show List.foldlM body s [n] = _
      rw [List.foldlM_cons, last]
      rfl
    · constructor
      · rintro (⟨i, hi, part⟩ | part)
        · exact ⟨i, Nat.lt_succ_of_lt hi, part⟩
        · exact ⟨n, Nat.lt_succ_self n, part⟩
      · rintro ⟨i, hi, part⟩
        rcases Nat.lt_succ_iff_lt_or_eq.1 hi with before | rfl
        · exact .inl ⟨i, before, part⟩
        · exact .inr part

end OsLab.Painting
