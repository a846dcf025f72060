import OsLab.Amgame.Drawing
import OsLab.Amgame.Round

/-!
# A whole game (`gameStart`, `gameMain`)

`rand` is the generator of `klib`, from whatever state the last game left it in. A tile weighs 2 when it is
placed, and a round keeps the weight of what is there, so a game that goes on gets heavier with each round.
But a board of four by four tiles below 7 can only weigh so much: each game ends (`game_ends`).
-/

namespace OsLab.Amgame

open OsLab.Tiles

/-- `rand` (`klib/src/stdlib.c`), with the new value of `next`. -/
def rand (next : UInt32) : Nat × UInt32 :=
  let next := next * 1103515245 + 12345
  (((next / 65536) % 32768).toNat, next)

/-- The variables of a game. -/
structure Game where
  blocks : Board
  next : UInt32

/-- `gameStart`, without its texts -/
def gameStart (next : UInt32) : Game :=
  let (x, next) := rand next
  let (y, next) := rand next
  let empty : Board := fun _ _ => 0
  ⟨empty.set ⟨x % 4, Nat.mod_lt x (by decide)⟩ ⟨y % 4, Nat.mod_lt y (by decide)⟩ 1, next⟩

/-- `colors` -/
def colors : List UInt32 :=
  [0xffffff, 0xff0000, 0xff7f00, 0xffff00, 0x00ff00, 0x00ffff, 0x0000ff, 0x8b00ff] ++ List.replicate 12 0

/-- `splash` with the colours of its squares -/
def paint (l : Layout) (blocks : Board) : Except Trap (List (Rect × UInt32)) := do
  let rects ← splash l blocks
  rects.mapM fun rect => do
    let color ← Trap.check colors[rect.val]?
    .ok (rect, color)

/-- `read_press_key`, as often as it is called: the keys of the codes that say that a key is pressed. -/
def presses (codes : List Nat) : List Nat := (codes.filter fun code => code &&& 0x8000 ≠ 0).map (· - 0x8000)

/-- The direction of a key: `_KEY_LEFT`, `_KEY_UP`, `_KEY_RIGHT` or `_KEY_DOWN`. -/
def directionOf (key : Nat) : Option (Fin 4) :=
  if key = 75 then index 0
  else if key = 73 then index 1
  else if key = 76 then index 2
  else if key = 74 then index 3
  else none

/-- How far a game has come. -/
inductive Outcome where
  /-- The next key is awaited. -/
  | playing (g : Game)
  /-- `gameMain` has returned whether the player wins. -/
  | ended (win : Bool) (g : Game)

/-- What a key does: `flg`, `win` and the game after it. -/
def keyRound (g : Game) (key : Nat) : Except Trap (Bool × Bool × Game) :=
  match directionOf key with
  | some direction => do
    let (choice, next) := rand g.next
    let (flg, win, blocks) ← goRound direction choice g.blocks
    .ok (flg, win, ⟨blocks, if flg then next else g.next⟩)
  | none => .ok (true, false, g)

/-- The loop of `gameMain`, over the keys that are pressed. -/
def gameLoop (l : Layout) : List Nat → Game → Except Trap Outcome
  | [], g => .ok (.playing g)
  | key :: keys, g => do
    let (flg, win, g) ← keyRound g key
    let _ ← paint l g.blocks
    if win then .ok (.ended true g)
    else if flg then gameLoop l keys g
    else .ok (.ended false g)

/-- `gameMain` of a game that is running, for the codes that the keyboard sends. -/
def gameMain (l : Layout) (codes : List Nat) (g : Game) : Except Trap Outcome := do
  let _ ← paint l g.blocks
  gameLoop l (presses codes) g

/-- The rounds that the codes ask for. -/
def rounds (codes : List Nat) : Nat := (presses codes).countP fun key => (directionOf key).isSome

/-! ## Bounds -/

section Bounds

variable {b b' : Board} {direction : Fin 4} {v : Nat}

theorem weightOf_le (small : v ≤ 6) : weightOf v ≤ 64 := by
  unfold weightOf
  split
  · omega
  · exact Nat.pow_le_pow_right (by decide) small

theorem total_le {l : List Nat} (small : ∀ v ∈ l, v ≤ 6) : total weightOf l ≤ 64 * l.length := by
  induction l with
  | nil => exact Nat.le_refl 0
  | cons v l ih =>
    rw [total_cons, List.length_cons]
    have first := weightOf_le (small v (List.mem_cons_self ..))
    have rest := ih fun u member => small u (List.mem_cons_of_mem _ member)
    omega

theorem weightOf_le_total {l : List Nat} (member : v ∈ l) : weightOf v ≤ total weightOf l := by
  induction l with
  | nil => cases member
  | cons u l ih =>
    rw [total_cons]
    rcases List.mem_cons.1 member with rfl | later
    · omega
    · exact Nat.le_trans (ih later) (Nat.le_add_left ..)

/-- A tile of weight up to 256 is at most 8. -/
theorem le_of_weightOf_le (light : weightOf v ≤ 256) : v ≤ 8 := by
  unfold weightOf at light
  split at light
  · omega
  · exact (Nat.pow_le_pow_iff_right (by decide : 1 < 2)).1 light

theorem mem_line (direction : Fin 4) (b : Board) (x y : Fin 4) : b x y ∈ line direction b (place direction (x, y)).1 := by
  unfold line
  rw [List.mem_ofFn]
  exact ⟨(place direction (x, y)).2, by rw [cell_place]⟩

/-- Where all tiles are at most 6, a round makes none that is larger than 8: four of them weigh 256. -/
theorem slideAll_le (small : ∀ x y, b x y ≤ 6) (run : slideAll direction b = .ok b') : ∀ x y, b' x y ≤ 8 := by
  intro x y
  obtain ⟨b₁, run₁, lines⟩ := slideAll_run direction b
  rw [run, Except.ok.injEq] at run₁
  subst run₁
  have member := mem_line direction b' x y
  rw [lines] at member
  have same : total weightOf (swept direction (line direction b (place direction (x, y)).1)) =
      total weightOf (line direction b (place direction (x, y)).1) := by
    unfold swept sweepDown sweepUp
    split <;> exact total_sweep weightOf_zero weightOf_merge
  have four : total weightOf (line direction b (place direction (x, y)).1) ≤ 64 * 4 := by
    have bound := total_le (l := line direction b (place direction (x, y)).1) fun v member => by
      unfold line at member
      obtain ⟨i, rfl⟩ := List.mem_ofFn.1 member
      exact small _ _
    rwa [length_line] at bound
  apply le_of_weightOf_le
  have light := weightOf_le_total member
  omega

theorem sum_weightOf_le (small : ∀ x y, b x y ≤ 6) (s : Finset (Fin 4 × Fin 4)) :
    ∑ c ∈ s, weightOf (b c.1 c.2) ≤ s.card * 64 := by
  induction s using Finset.induction_on with
  | empty => exact Nat.zero_le _
  | insert c s new ih =>
    rw [Finset.sum_insert new, Finset.card_insert_of_notMem new]
    have cell := weightOf_le (small c.1 c.2)
    omega

/-- A board that is not won, with a tile that was just placed. -/
theorem weight_le (small : ∀ x y, b x y ≤ 6) {x y : Fin 4} (placed : b x y = 1) : weight b ≤ 962 := by
  unfold weight
  rw [← Finset.add_sum_erase _ _ (Finset.mem_univ (x, y)), placed]
  have rest := sum_weightOf_le small (Finset.univ.erase (x, y))
  have fifteen : (Finset.univ.erase (x, y)).card = 15 := by
    rw [Finset.card_erase_of_mem (Finset.mem_univ _), Finset.card_univ, Fintype.card_prod, Fintype.card_fin]
  have two : weightOf 1 = 2 := rfl
  omega

end Bounds

/-! ## Drawing -/

section Paint

variable {l : Layout} {b : Board} {limit x : Int} {body : Int → Except Trap (List Rect)} {fuel : Nat} {rects : List Rect}

theorem sideLoop_forall {P : Rect → Prop} (all : ∀ x drawn, body x = .ok drawn → ∀ r ∈ drawn, P r)
    (run : sideLoop limit body fuel x = .ok rects) : ∀ r ∈ rects, P r := by
  induction fuel generalizing x rects with
  | zero => cases run
  | succ fuel ih =>
    rw [sideLoop] at run
    obtain ⟨left, -, run⟩ := bind_eq_ok.1 run
    split at run
    · obtain ⟨drawn, first, run⟩ := bind_eq_ok.1 run
      obtain ⟨rest, more, result⟩ := bind_eq_ok.1 run
      cases result
      intro r member
      exact (List.mem_append.1 member).elim (all x drawn first r) (ih more r)
    · cases run
      intro r member
      cases member

/-- The squares have the values of cells. -/
theorem splash_val (run : splash l b = .ok rects) : ∀ r ∈ rects, ∃ x y, r.val = b x y := by
  refine sideLoop_forall (fun x drawn row => sideLoop_forall (fun y square cell => ?_) row) run
  obtain ⟨_, _, cell⟩ := bind_eq_ok.1 cell
  obtain ⟨_, _, cell⟩ := bind_eq_ok.1 cell
  obtain ⟨i, _, cell⟩ := bind_eq_ok.1 cell
  obtain ⟨j, _, cell⟩ := bind_eq_ok.1 cell
  cases cell
  intro r member
  rw [List.mem_singleton.1 member]
  exact ⟨i, j, rfl⟩

/-- A board of tiles that have colours is painted. -/
theorem paint_run (drawn : ∃ rects, splash l b = .ok rects) (small : ∀ x y, b x y ≤ 8) : ∃ squares, paint l b = .ok squares := by
  obtain ⟨rects, run⟩ := drawn
  have vals := splash_val run
  unfold paint
  rw [run, ok_bind]
  clear run
  induction rects with
  | nil => exact ⟨[], rfl⟩
  | cons r rects ih =>
    obtain ⟨x, y, val⟩ := vals r (List.mem_cons_self ..)
    obtain ⟨squares, rest⟩ := ih fun r member => vals r (List.mem_cons_of_mem _ member)
    have color : r.val < colors.length := by
      rw [val]
      exact Nat.lt_of_le_of_lt (small x y) (by decide)
    rw [List.mapM_cons, List.getElem?_eq_getElem color, Trap.check_some, ok_bind, ok_bind, rest]
    exact ⟨_, rfl⟩

end Paint

/-! ## Games -/

section Games

variable {l : Layout} {g g' : Game} {n key : Nat} {flg win : Bool}

/-- A game that is not over, after `n` rounds. -/
structure Playing (b : Board) (n : Nat) : Prop where
  weight : weight b = 2 * (n + 1)
  small : ∀ x y, b x y ≤ 6
  placed : ∃ x y, b x y = 1

/-- A game that is over: it is won with a tile of 7, and lost when no cell is empty. -/
structure Over (win : Bool) (b : Board) : Prop where
  won : win = true ↔ ∃ x y, 7 ≤ b x y
  full : win = false → ∀ x y, b x y ≠ 0
  coloured : ∀ x y, b x y ≤ 8

theorem playing_start (next : UInt32) : Playing (gameStart next).blocks 0 := by
  unfold gameStart
  dsimp only
  generalize (⟨(rand next).1 % 4, _⟩ : Fin 4) = x
  generalize (⟨(rand (rand next).2).1 % 4, _⟩ : Fin 4) = y
  refine ⟨?_, fun i j => ?_, x, y, if_pos ⟨rfl, rfl⟩⟩
  · rw [weight_set rfl]
    rfl
  · unfold Board.set
    split
    · decide
    · exact Nat.zero_le _

/-- What a key does to a game that is not over. -/
theorem Playing.round (playing : Playing g.blocks n) (key : Nat) :
    ∃ flg win g', keyRound g key = .ok (flg, win, g') ∧ (∀ x y, g'.blocks x y ≤ 8) ∧
      (win = true ∨ flg = false → Over win g'.blocks) ∧
      (win = false → flg = true → Playing g'.blocks (n + if (directionOf key).isSome then 1 else 0)) := by
  unfold keyRound
  cases directionOf key with
  | none =>
    refine ⟨true, false, g, rfl, fun x y => Nat.le_trans (playing.small x y) (by decide), fun h => ?_, fun _ _ => playing⟩
    rcases h with h | h <;> cases h
  | some direction =>
    -- the two parts of the round: sliding, and placing a tile
    obtain ⟨b₁, slide, same, more, won, b₂, run, won_iff, full_iff, stays, placed⟩ :=
      goRound_conserves g.blocks direction (rand g.next).1
    have bound := slideAll_le playing.small slide
    dsimp only
    rw [run, ok_bind]
    refine ⟨more, won, _, rfl, ?_⟩
    cases more with
    | false =>
      obtain rfl := stays rfl
      refine ⟨bound, fun _ => ⟨won_iff, fun _ => full_iff.1 rfl, bound⟩, fun _ wrong => ?_⟩
      cases wrong
    | true =>
      obtain ⟨x, y, empty, rfl, heavier⟩ := placed rfl
      have cell : ∀ i j, (b₁.set x y 1) i j = b₁ i j ∨ ((i = x ∧ j = y) ∧ (b₁.set x y 1) i j = 1) := by
        intro i j
        unfold Board.set
        split
        · next here => exact .inr ⟨here, rfl⟩
        · exact .inl rfl
      have bound' : ∀ i j, (b₁.set x y 1) i j ≤ 8 := fun i j => by
        rcases cell i j with same | ⟨-, one⟩
        · rw [same]
          exact bound i j
        · rw [one]
          decide
      have won_iff' : won = true ↔ ∃ i j, 7 ≤ (b₁.set x y 1) i j := by
        rw [won_iff]
        constructor
        · rintro ⟨i, j, large⟩
          refine ⟨i, j, ?_⟩
          rcases cell i j with same | ⟨⟨rfl, rfl⟩, -⟩ <;> omega
        · rintro ⟨i, j, large⟩
          refine ⟨i, j, ?_⟩
          rcases cell i j with same | ⟨-, one⟩ <;> omega
      refine ⟨bound', fun h => ⟨won_iff', fun lost => ?_, bound'⟩, fun lost _ => ⟨?_, fun i j => ?_, x, y, ?_⟩⟩
      · rcases h with h | h
        · rw [lost] at h
          cases h
        · cases h
      · have weight := playing.weight
        show Amgame.weight (b₁.set x y 1) = 2 * (n + 1 + 1)
        omega
      · by_contra large
        have won' := won_iff'.2 ⟨i, j, Nat.not_le.1 large⟩
        rw [lost] at won'
        cases won'
      · exact if_pos ⟨rfl, rfl⟩

/-- The loop, from a game that is not over. -/
theorem Playing.loop (drawn : ∀ b, ∃ rects, splash l b = .ok rects) (playing : Playing g.blocks n) (keys : List Nat) :
    ∃ out, gameLoop l keys g = .ok out ∧
      match out with
      | .playing g' => Playing g'.blocks (n + keys.countP fun key => (directionOf key).isSome)
      | .ended win g' => Over win g'.blocks := by
  induction keys generalizing g n with
  | nil => exact ⟨_, rfl, playing⟩
  | cons key keys ih =>
    obtain ⟨flg, win, g', run, coloured, ends, goes⟩ := playing.round key
    obtain ⟨squares, paint⟩ := paint_run (drawn g'.blocks) coloured
    rw [gameLoop, run, ok_bind]
    dsimp only
    rw [paint, ok_bind]
    cases win with
    | true => exact ⟨_, rfl, ends (.inl rfl)⟩
    | false =>
      cases flg with
      | false => exact ⟨_, rfl, ends (.inr rfl)⟩
      | true =>
        obtain ⟨out, rest, right⟩ := ih (goes rfl rfl)
        refine ⟨out, rest, ?_⟩
        cases out with
        | ended win g'' => exact right
        | playing g'' =>
          dsimp only at right ⊢
          rw [List.countP_cons, Nat.add_comm (List.countP ..), ← Nat.add_assoc]
          exact right

/-- On a screen whose smaller side is a multiple of 4 every board is drawn. -/
theorem splash_drawn {screenSize : Size} (wide : 16 ≤ screenSize.w) (high : 16 ≤ screenSize.h) (w : screenSize.w < 2 ^ 30)
    (h : screenSize.h < 2 ^ 30) (full : min screenSize.w screenSize.h % 4 = 0) (b : Board) :
    ∃ rects, splash (initScreen screenSize) b = .ok rects := by
  have half : ∀ {d : Int}, 0 ≤ d → d.tdiv 2 = d / 2 := fun start => Int.tdiv_eq_ediv_of_nonneg start
  unfold initScreen
  dsimp only
  split
  · exact (splash_returns wide (Int.le_refl 0) (Int.le_refl 0) (.inl rfl) (by omega) (by omega)).2 (by omega)
  · split
    · have below : 0 ≤ screenSize.h - screenSize.w := by omega
      exact (splash_returns wide (Int.le_refl 0) (by rw [half below]; omega) (.inl rfl) (by omega)
        (by rw [half below]; omega)).2 (by rw [half below]; omega)
    · have beside : 0 ≤ screenSize.w - screenSize.h := by omega
      exact (splash_returns high (by rw [half beside]; omega) (Int.le_refl 0) (.inr rfl) (by rw [half beside]; omega)
        (by omega)).2 (by rw [half beside]; omega)

/-- **Each game ends.** On a screen of at least 16 by 16 pixels whose smaller side is a multiple of 4, a game runs without a
trap, whatever the state of the generator and whatever keys are pressed. While it is not over, the board weighs 2 for each
round and for the first tile, and no tile is 7; so it is over after at most 481 rounds. It is won with a tile of 7 or
more, and otherwise lost with no cell empty; no tile is ever larger than 8, and all have colours. -/
theorem game_ends {screenSize : Size} (wide : 16 ≤ screenSize.w) (high : 16 ≤ screenSize.h) (w : screenSize.w < 2 ^ 30)
    (h : screenSize.h < 2 ^ 30) (full : min screenSize.w screenSize.h % 4 = 0) (next : UInt32) (codes : List Nat) :
    ∃ out, gameMain (initScreen screenSize) codes (gameStart next) = .ok out ∧
      match out with
      | .playing g => weight g.blocks = 2 * (rounds codes + 1) ∧ rounds codes ≤ 480 ∧ ∀ x y, g.blocks x y ≤ 6
      | .ended win g => (win = true ↔ ∃ x y, 7 ≤ g.blocks x y) ∧ (win = false → ∀ x y, g.blocks x y ≠ 0) ∧
        ∀ x y, g.blocks x y ≤ 8 := by
  have drawn := splash_drawn wide high w h full
  have start := playing_start next
  obtain ⟨squares, paint⟩ := paint_run (drawn _) fun x y => Nat.le_trans (start.small x y) (by decide)
  obtain ⟨out, run, right⟩ := start.loop drawn (presses codes)
  unfold gameMain
  rw [paint, ok_bind, run]
  refine ⟨out, rfl, ?_⟩
  cases out with
  | ended win g => exact ⟨right.won, right.full, right.coloured⟩
  | playing g =>
    dsimp only at right ⊢
    rw [Nat.zero_add] at right
    obtain ⟨x, y, placed⟩ := right.placed
    have heavy := right.weight
    have bound := weight_le right.small placed
    refine ⟨heavy, ?_, right.small⟩
    unfold rounds
    omega

/-- On a screen of 640 by 480 pixels, with the keys left and up. -/
theorem game_ends_vga : ∃ out, gameMain (initScreen ⟨640, 480⟩) [0x8000 + 75, 75, 0x8000 + 73] (gameStart 1) = .ok out ∧
    match out with
    | .playing g => weight g.blocks = 2 * (rounds [0x8000 + 75, 75, 0x8000 + 73] + 1) ∧
      rounds [0x8000 + 75, 75, 0x8000 + 73] ≤ 480 ∧ ∀ x y, g.blocks x y ≤ 6
    | .ended win g => (win = true ↔ ∃ x y, 7 ≤ g.blocks x y) ∧ (win = false → ∀ x y, g.blocks x y ≠ 0) ∧
      ∀ x y, g.blocks x y ≤ 8 :=
  game_ends (by decide) (by decide) (by decide) (by decide) (by decide) 1 _

end Games

end OsLab.Amgame
