import OsLab.Amgame.Model

/-!
# Drawing the board (`initScreen`, `splash`)

The board is drawn in squares of 4 by 4 pixels, over a square in the middle of the screen. Products of `int`s are checked for
overflow, quotients for a divisor of 0 and indices of `blocks` for their bounds.
-/

namespace OsLab.Amgame

/-- `SIDE` -/
def SIDE : Int := 4

structure Size where
  w : Int
  h : Int
  deriving DecidableEq, Repr

structure Position where
  x : Int
  y : Int
  deriving DecidableEq, Repr

/-- `topLeft`, `mainSize` and `blockSize` -/
structure Layout where
  topLeft : Position
  mainSize : Size
  blockSize : Size
  deriving DecidableEq, Repr

/-- `initScreen`, of a screen of this size -/
def initScreen (screenSize : Size) : Layout :=
  let place : Position × Int :=
    if screenSize.w = screenSize.h then (⟨0, 0⟩, screenSize.w)
    else if screenSize.w < screenSize.h then (⟨0, (screenSize.h - screenSize.w).tdiv 2⟩, screenSize.w)
    else (⟨(screenSize.w - screenSize.h).tdiv 2, 0⟩, screenSize.h)
  ⟨place.1, ⟨place.2, place.2⟩, ⟨place.2.tdiv 4, place.2.tdiv 4⟩⟩

/-- A quotient, rounded towards 0. -/
def quotient (a b : Int) : Except Trap Int := if b = 0 then .error .divZero else .ok (a.tdiv b)

/-- A square that is drawn: its corner, and the value of its cell, which chooses the colour. -/
structure Rect where
  x : Int
  y : Int
  val : Nat
  deriving DecidableEq, Repr

/-- `for (int x = ...; x * SIDE < limit; x++)`: the squares its body draws. -/
def sideLoop (limit : Int) (body : Int → Except Trap (List Rect)) : Nat → Int → Except Trap (List Rect)
  | 0, _ => .error .diverge
  | fuel + 1, x => do
    let left ← Trap.int (x * SIDE)
    if left < limit then
      let drawn ← body x
      let rest ← sideLoop limit body fuel (x + 1)
      .ok (drawn ++ rest)
    else .ok []

/-- The body of both loops of `splash` -/
def drawSquare (l : Layout) (blocks : Board) (x y : Int) : Except Trap (List Rect) := do
  let i ← quotient (x * SIDE - l.topLeft.x) l.blockSize.w
  let j ← quotient (y * SIDE - l.topLeft.y) l.blockSize.h
  let i ← Trap.check (index i)
  let j ← Trap.check (index j)
  .ok [⟨x * SIDE, y * SIDE, blocks i j⟩]

/-- `splash`: the squares it draws. -/
def splash (l : Layout) (blocks : Board) : Except Trap (List Rect) :=
  sideLoop (l.topLeft.x + l.mainSize.w)
    (fun x => sideLoop (l.topLeft.y + l.mainSize.h) (drawSquare l blocks x) (l.mainSize.h.toNat + 2) (l.topLeft.y.tdiv SIDE))
    (l.mainSize.w.toNat + 2) (l.topLeft.x.tdiv SIDE)

section Loops

variable {limit x y o side q : Int} {body : Int → Except Trap (List Rect)} {fuel : Nat} {l : Layout} {blocks : Board}

/-- A computation that has a result. -/
def Returns {α : Type} (run : Except Trap α) : Prop := ∃ a, run = .ok a

theorem returns_ok {α : Type} {a : α} : Returns (.ok a) := ⟨a, rfl⟩

theorem returns_error {α : Type} {e : Trap} : ¬Returns (.error e : Except Trap α) := by
  rintro ⟨a, wrong⟩
  cases wrong

theorem returns_bind {α β : Type} {run : Except Trap α} {f : α → Except Trap β} :
    Returns (run >>= f) ↔ ∃ a, run = .ok a ∧ Returns (f a) := by
  unfold Returns
  simp only [bind_eq_ok]
  constructor
  · rintro ⟨b, a, first, second⟩
    exact ⟨a, first, b, second⟩
  · rintro ⟨a, first, b, second⟩
    exact ⟨b, a, first, second⟩

/-- A loop returns exactly if its body does for every place before the limit, and the first place behind it is an `int`. -/
theorem sideLoop_returns (start : 0 ≤ x) (near : x * 4 < limit + 4) (fits : limit < 2 ^ 31)
    (enough : limit ≤ (x + fuel - 1) * 4) :
    Returns (sideLoop limit body fuel x) ↔ (∀ x', x ≤ x' → x' * 4 < limit → Returns (body x')) ∧ limit ≤ 2 ^ 31 - 4 := by
  induction fuel generalizing x with
  | zero => omega
  | succ fuel ih =>
    rw [sideLoop]
    unfold SIDE
    by_cases inside : x * 4 < limit
    · rw [Trap.int_ok (by omega), ok_bind]
      simp only [if_pos inside, returns_bind]
      have rest := ih (x := x + 1) (by omega) (by omega) (by omega)
      constructor
      · rintro ⟨drawn, first, others, run, -⟩
        obtain ⟨behind, small⟩ := rest.1 ⟨others, run⟩
        refine ⟨fun x' above below => ?_, small⟩
        rcases Int.lt_or_eq_of_le above with later | rfl
        · exact behind x' later below
        · exact ⟨drawn, first⟩
      · rintro ⟨all, small⟩
        obtain ⟨drawn, first⟩ := all x (Int.le_refl x) inside
        obtain ⟨others, run⟩ := rest.2 ⟨fun x' above below => all x' (by omega) below, small⟩
        exact ⟨drawn, first, others, run, returns_ok⟩
    · by_cases small : limit ≤ 2 ^ 31 - 4
      · rw [Trap.int_ok (by omega), ok_bind, if_neg inside]
        exact iff_of_true returns_ok ⟨fun x' above below => absurd below (by omega), small⟩
      · rw [Trap.int_overflow (by omega), error_bind]
        exact iff_of_false returns_error fun both => small both.2

theorem quotient_returns {a b : Int} {α : Type} {f : Int → Except Trap α} :
    Returns (quotient a b >>= f) ↔ b ≠ 0 ∧ Returns (f (a.tdiv b)) := by
  unfold quotient
  by_cases zero : b = 0
  · rw [if_pos zero, error_bind]
    exact iff_of_false returns_error fun both => both.1 zero
  · rw [if_neg zero, ok_bind]
    exact (and_iff_right zero).symm

theorem index_eq_some {t : Int} : (∃ i, Trap.check (index t) = .ok i) ↔ 0 ≤ t ∧ t < 4 := by
  unfold index
  split
  · next inside => exact iff_of_true ⟨_, rfl⟩ inside
  · next outside =>
    refine iff_of_false ?_ outside
    rintro ⟨i, wrong⟩
    cases wrong

/-- The index of a place on one side is that of a cell. -/
def Fits (o q x : Int) : Prop := q ≠ 0 ∧ 0 ≤ (x * 4 - o).tdiv q ∧ (x * 4 - o).tdiv q < 4

/-- A square is drawn exactly if both of its indices are those of cells. -/
theorem drawSquare_returns : Returns (drawSquare l blocks x y) ↔
    Fits l.topLeft.x l.blockSize.w x ∧ Fits l.topLeft.y l.blockSize.h y := by
  unfold drawSquare Fits SIDE
  rw [quotient_returns, quotient_returns]
  simp only [returns_bind, ← index_eq_some]
  constructor
  · rintro ⟨width, height, i, first, j, second, -⟩
    exact ⟨⟨width, i, first⟩, height, j, second⟩
  · rintro ⟨⟨width, i, first⟩, height, j, second⟩
    exact ⟨width, height, i, first, j, second, returns_ok⟩

/-- Where four cells fill a side, every place is on one of them. -/
theorem fits_inside (width : 4 ≤ q) (above : o ≤ x * 4 + 3) (below : x * 4 < o + 4 * q) : Fits o q x := by
  refine ⟨by omega, ?_⟩
  rcases Int.lt_or_le (x * 4) o with before | behind
  · -- the square begins before the side, and the quotient is rounded up to 0
    have zero : (x * 4 - o).tdiv q = 0 := by
      rw [← Int.neg_neg (x * 4 - o), Int.neg_tdiv, Int.tdiv_eq_zero_of_lt (by omega) (by omega), Int.neg_zero]
    rw [zero]
    decide
  · rw [Int.tdiv_eq_ediv_of_nonneg (by omega)]
    exact ⟨Int.ediv_nonneg (by omega) (by omega), Int.ediv_lt_of_lt_mul (by omega) (by omega)⟩

/-- Behind four cells there is none. -/
theorem not_fits (width : 4 ≤ q) : ¬Fits 0 q q := by
  have four : (q * 4 - 0).tdiv q = 4 := by
    rw [Int.sub_zero]
    exact Int.mul_tdiv_cancel_left 4 (by omega)
  rintro ⟨-, -, wrong⟩
  omega

end Loops

section Layouts

variable {o side ox oy : Int} {blocks : Board}

/-- The places of a side that begins at 0 are on the four cells exactly if the cells fill it. -/
theorem all_fit (wide : 16 ≤ side) (start : 0 ≤ o) (full : side % 4 = 0) :
    ∀ x, o.tdiv 4 ≤ x → x * 4 < o + side → Fits o (side.tdiv 4) x := by
  intro x above below
  rw [Int.tdiv_eq_ediv_of_nonneg start] at above
  rw [Int.tdiv_eq_ediv_of_nonneg (by omega)]
  exact fits_inside (by omega) (by omega) (by omega)

/-- Drawing in a square of the screen that begins at one of its sides. -/
theorem splash_returns (wide : 16 ≤ side) (left : 0 ≤ ox) (top : 0 ≤ oy) (edge : ox = 0 ∨ oy = 0)
    (right : ox + side < 2 ^ 31) (bottom : oy + side < 2 ^ 31) :
    Returns (splash ⟨⟨ox, oy⟩, ⟨side, side⟩, ⟨side.tdiv 4, side.tdiv 4⟩⟩ blocks) ↔
      side % 4 = 0 ∧ ox + side ≤ 2 ^ 31 - 4 ∧ oy + side ≤ 2 ^ 31 - 4 := by
  have first : ∀ {o : Int}, 0 ≤ o → o.tdiv 4 = o / 4 := fun start => Int.tdiv_eq_ediv_of_nonneg start
  have quarter := first (Int.le_trans (by decide) wide)
  unfold splash SIDE
  dsimp only
  rw [sideLoop_returns (by rw [first left]; omega) (by rw [first left]; omega) right (by rw [first left]; omega)]
  have rows := fun x => @sideLoop_returns (oy + side) (oy.tdiv 4)
    (drawSquare ⟨⟨ox, oy⟩, ⟨side, side⟩, ⟨side.tdiv 4, side.tdiv 4⟩⟩ blocks x) (side.toNat + 2)
    (by rw [first top]; omega) (by rw [first top]; omega) bottom (by rw [first top]; omega)
  simp only [rows, drawSquare_returns]
  constructor
  · rintro ⟨all, small⟩
    obtain ⟨here, small'⟩ := all (ox.tdiv 4) (Int.le_refl _) (by rw [first left]; omega)
    refine ⟨?_, small, small'⟩
    by_contra part
    -- a place that is left over behind the cells
    rcases edge with rfl | rfl
    · obtain ⟨beyond, -⟩ := all (side.tdiv 4) (by rw [quarter, Int.zero_tdiv]; omega) (by rw [quarter]; omega)
      exact not_fits (by rw [quarter]; omega) (beyond (oy.tdiv 4) (Int.le_refl _) (by rw [first top]; omega)).1
    · exact not_fits (by rw [quarter]; omega) (here (side.tdiv 4) (by rw [quarter, Int.zero_tdiv]; omega) (by rw [quarter]; omega)).2
  · rintro ⟨full, small, small'⟩
    refine ⟨fun x above below => ⟨fun y above' below' => ⟨?_, ?_⟩, small'⟩, small⟩
    · exact all_fit wide left full x above below
    · exact all_fit wide top full y above' below'

/-- **Drawing inside the board.** On a screen of at least 16 by 16 pixels `splash` stays inside `blocks` exactly if the smaller
side is a multiple of 4, and the middle of both sides is not at the end of `int`. -/
theorem splash_inside_iff (screenSize : Size) (blocks : Board) (wide : 16 ≤ screenSize.w) (high : 16 ≤ screenSize.h)
    (w : screenSize.w < 2 ^ 31) (h : screenSize.h < 2 ^ 31) :
    (∃ rects, splash (initScreen screenSize) blocks = .ok rects) ↔
      min screenSize.w screenSize.h % 4 = 0 ∧ (screenSize.w + screenSize.h) / 2 ≤ 2 ^ 31 - 4 := by
  have half : ∀ {d : Int}, 0 ≤ d → d.tdiv 2 = d / 2 := fun start => Int.tdiv_eq_ediv_of_nonneg start
  show Returns _ ↔ _
  unfold initScreen
  dsimp only
  split
  · rw [splash_returns wide (Int.le_refl 0) (Int.le_refl 0) (.inl rfl) (by omega) (by omega)]
    omega
  · split
    · rw [splash_returns wide (Int.le_refl 0) (by rw [half]; omega; omega) (.inl rfl) (by omega) (by rw [half]; omega; omega),
        half (by omega)]
      omega
    · rw [splash_returns high (by rw [half]; omega; omega) (Int.le_refl 0) (.inr rfl) (by rw [half]; omega; omega) (by omega),
        half (by omega)]
      omega

theorem splash_inside_iff_vga : ∃ rects, splash (initScreen ⟨640, 480⟩) (fun _ _ => 0) = .ok rects :=
  (splash_inside_iff ⟨640, 480⟩ (fun _ _ => 0) (by decide) (by decide) (by decide) (by decide)).2 (by decide)

/-- On a screen of 17 by 17 pixels a fifth cell is looked up. -/
theorem splash_outside : splash (initScreen ⟨17, 17⟩) (fun _ _ => 0) = .error .outside := by decide

end Layouts

end OsLab.Amgame
