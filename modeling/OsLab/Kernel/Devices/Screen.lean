import OsLab.Kernel.Debug
import OsLab.Klib.Memmove

/-!
# The screen of a terminal (`tty.c`)

A terminal keeps its cells row after row, with a cursor that points into them and a mark for each cell
that has to be drawn again. Pointers are counted in cells from `buf`; a cell outside `[buf, end)` halts
the model. `Terminal` says what the screen is for, by rows and columns: `terminal_screen`.
-/

namespace OsLab.Kernel.Devices

open OsLab.Memory OsLab.Klib

/-- `sizeof(struct character)` -/
def sizeofCharacter : Nat := 8

/-- `tty_t` as far as it is drawn; `buf` and `dirty` are the bytes behind the pointers of that name. -/
structure Screen where
  lines : Nat
  columns : Nat
  buf : Mem
  dirty : Mem
  cursor : Int

/-- `tty->size` -/
def Screen.size (tty : Screen) : Nat := tty.columns * tty.lines

/-- The cell at a pointer. -/
def Screen.cell (tty : Screen) (p : Int) : Except Halt Nat :=
  if 0 ≤ p ∧ p < tty.size then .ok p.toNat else .error .outside

/-- `p->ch = ch` -/
def Screen.setCh (tty : Screen) (p : Int) (ch : UInt8) : Except Halt Screen := do
  let i ← tty.cell p
  .ok { tty with buf := store tty.buf (sizeofCharacter * i + 4) 1 fun _ => ch }

/-- `*p = tty_defaultch()` -/
def Screen.clear (tty : Screen) (p : Int) : Except Halt Screen := do
  let i ← tty.cell p
  .ok { tty with buf := store tty.buf (sizeofCharacter * i) sizeofCharacter fun _ => 0 }

/-- The loop of `tty_upd_scrollup` over the `n` cells from `p`. -/
def clearCells (tty : Screen) : Nat → Int → Except Halt Screen
  | 0, _ => .ok tty
  | n + 1, p => do
    let tty ← tty.clear p
    clearCells tty n (p + 1)

/-- `tty_upd_scrollup` -/
def ttyUpdScrollup (tty : Screen) : Except Halt Screen :=
  let moveSz := tty.columns * (tty.lines - 1)
  if tty.columns + moveSz ≤ tty.size then
    clearCells { tty with
      buf := memmove tty.buf 0 (sizeofCharacter * tty.columns) (sizeofCharacter * moveSz)
      dirty := memmove tty.dirty 0 tty.columns moveSz
      cursor := tty.cursor - tty.columns } tty.columns (tty.cursor - tty.columns)
  else .error .outside

/-- `tty_upd_cr` -/
def ttyUpdCr (tty : Screen) : Screen :=
  let x := tty.cursor.tmod tty.columns
  { tty with cursor := tty.cursor - x }

/-- `tty_upd_lf` -/
def ttyUpdLf (tty : Screen) : Screen := { tty with cursor := tty.cursor + tty.columns }

/-- `tty_upd_backsp` -/
def ttyUpdBacksp (tty : Screen) : Except Halt Screen :=
  if 0 < tty.cursor then { tty with cursor := tty.cursor - 1 }.setCh (tty.cursor - 1) 0 else .ok tty

/-- `tty_upd_putc` -/
def ttyUpdPutc (tty : Screen) (ch : UInt8) : Except Halt Screen := do
  let tty ← tty.setCh tty.cursor ch
  .ok { tty with cursor := tty.cursor + 1 }

/-- `tty_mark` -/
def ttyMark (tty : Screen) (p : Int) : Except Halt Screen := do
  let i ← tty.cell p
  .ok { tty with dirty := store tty.dirty i 1 fun _ => 1 }

/-- The loops of `tty_mark_line` and `tty_mark_all` over the `n` cells from `p`. -/
def markCells (tty : Screen) : Nat → Int → Except Halt Screen
  | 0, _ => .ok tty
  | n + 1, p => do
    let tty ← ttyMark tty p
    markCells tty n (p + 1)

/-- `tty_mark_line` -/
def ttyMarkLine (tty : Screen) (p : Int) : Except Halt Screen :=
  let x := p.tmod tty.columns
  markCells tty tty.columns (p - x)

/-- `tty_mark_all` -/
def ttyMarkAll (tty : Screen) : Except Halt Screen := markCells tty tty.size 0

/-- `tty_putc` -/
def ttyPutc (tty : Screen) (ch : UInt8) : Except Halt Screen :=
  if ch = 13 then
    let tty := ttyUpdCr tty
    ttyMarkLine tty tty.cursor
  else if ch = 8 then do
    let tty ← ttyUpdBacksp tty
    let tty ← ttyMark tty tty.cursor
    ttyMark tty (tty.cursor + 1)
  else if ch = 10 then
    let tty := ttyUpdLf (ttyUpdCr tty)
    if tty.cursor = tty.size then do
      let tty ← ttyUpdScrollup tty
      ttyMarkAll tty
    else do
      let tty ← ttyMarkLine tty (tty.cursor - tty.columns)
      ttyMarkLine tty tty.cursor
  else do
    let tty ← ttyUpdPutc tty ch
    if tty.cursor = tty.size then do
      let tty ← ttyUpdScrollup tty
      ttyMarkAll tty
    else do
      let tty ← ttyMark tty (tty.cursor - 1)
      ttyMark tty tty.cursor

/-- The screen that `tty_init` leaves. -/
def ttyInitScreen (lines columns : Nat) : Screen where
  lines
  columns
  buf := fun _ => 0
  dirty := fun _ => 1
  cursor := 0

/-! ## The reference terminal -/

/-- A terminal by rows and columns. -/
structure Terminal (lines columns : Nat) where
  cell : Fin lines → Fin columns → UInt8
  row : Fin lines
  col : Fin columns

namespace Terminal

variable {lines columns : Nat}

/-- The first column of a terminal that has one. -/
def first (t : Terminal lines columns) : Fin columns := ⟨0, Nat.zero_lt_of_lt t.col.isLt⟩

/-- Go to the start of the next row; from the last row all rows move up. -/
def nextRow (t : Terminal lines columns) : Terminal lines columns :=
  if below : t.row + 1 < lines then { t with row := ⟨t.row + 1, below⟩, col := t.first }
  else { t with
    cell := fun r c => if below : r + 1 < lines then t.cell ⟨r + 1, below⟩ c else 0
    col := t.first }

/-- Go one cell on. -/
def advance (t : Terminal lines columns) : Terminal lines columns :=
  if right : t.col + 1 < columns then { t with col := ⟨t.col + 1, right⟩ } else t.nextRow

/-- A character goes to the cell at the cursor. -/
def set (t : Terminal lines columns) (ch : UInt8) : Terminal lines columns :=
  { t with cell := fun r c => if r = t.row ∧ c = t.col then ch else t.cell r c }

/-- Go one cell back, if there is one. -/
def back (t : Terminal lines columns) : Option (Terminal lines columns) :=
  if left : 0 < t.col.val then some { t with col := ⟨t.col - 1, by omega⟩ }
  else if above : 0 < t.row.val then some { t with
    row := ⟨t.row - 1, by omega⟩
    col := ⟨columns - 1, by have := t.col.isLt; omega⟩ }
  else none

/-- Write a character. -/
def put (t : Terminal lines columns) (ch : UInt8) : Terminal lines columns :=
  if ch = 13 then { t with col := t.first }
  else if ch = 8 then t.back.elim t fun t => t.set 0
  else if ch = 10 then t.nextRow
  else (t.set ch).advance

/-- An empty terminal. -/
def init (lines columns : Nat) (row : 0 < lines) (col : 0 < columns) : Terminal lines columns where
  cell := fun _ _ => 0
  row := ⟨0, row⟩
  col := ⟨0, col⟩

end Terminal

/-- The screen holds the characters row after row, with the metadata it had at first. -/
structure Holds {rows cols : Nat} (tty : Screen) (cell : Fin rows → Fin cols → UInt8) : Prop where
  lines : tty.lines = rows
  columns : tty.columns = cols
  chars : ∀ (r : Fin rows) (c : Fin cols), tty.buf (sizeofCharacter * (r * cols + c) + 4) = cell r c
  metadata : ∀ i < tty.size, ∀ k < 4, tty.buf (sizeofCharacter * i + k) = 0

/-- The screen shows the terminal. -/
structure Shows {rows cols : Nat} (tty : Screen) (t : Terminal rows cols) : Prop extends Holds tty t.cell where
  cursor : tty.cursor = (t.row * cols + t.col : Nat)

/-! ## Marks -/

section Marks

variable {tty : Screen} {p : Int}

theorem Screen.cell_run {i : Nat} (inside : i < tty.size) : tty.cell i = .ok i := by
  unfold Screen.cell
  rw [if_pos ⟨Int.natCast_nonneg i, by exact_mod_cast inside⟩, Int.toNat_natCast]

theorem ttyMark_run (tty : Screen) {i : Nat} (inside : i < tty.size) : ∃ d, ttyMark tty i = .ok { tty with dirty := d } := by
  unfold ttyMark
  rw [Screen.cell_run inside]
  exact ⟨_, rfl⟩

theorem markCells_run (tty : Screen) {n i : Nat} (inside : i + n ≤ tty.size) : ∃ d, markCells tty n i = .ok { tty with dirty := d } := by
  induction n generalizing tty i with
  | zero => exact ⟨tty.dirty, rfl⟩
  | succ n ih =>
    obtain ⟨d, mark⟩ := ttyMark_run tty (i := i) (by omega)
    obtain ⟨d', rest⟩ := ih { tty with dirty := d } (i := i + 1) (by show i + 1 + n ≤ tty.size; omega)
    refine ⟨d', ?_⟩
    rw [markCells, mark, ok_bind]
    exact_mod_cast rest

theorem ttyMarkAll_run (tty : Screen) : ∃ d, ttyMarkAll tty = .ok { tty with dirty := d } := by
  exact_mod_cast markCells_run tty (n := tty.size) (i := 0) (by omega)

/-- The row of a cell lies on the screen. -/
theorem ttyMarkLine_run {i : Nat} (inside : i < tty.size) : ∃ d, ttyMarkLine tty i = .ok { tty with dirty := d } := by
  have start : (i : Int) - (i : Int).tmod tty.columns = (tty.columns * (i / tty.columns) : Nat) := by
    have split := Nat.div_add_mod i tty.columns
    rw [← Int.ofNat_tmod]
    omega
  have row : i / tty.columns < tty.lines := Nat.div_lt_of_lt_mul inside
  unfold ttyMarkLine
  dsimp only
  rw [start]
  apply markCells_run
  calc tty.columns * (i / tty.columns) + tty.columns = tty.columns * (i / tty.columns + 1) := rfl
    _ ≤ tty.columns * tty.lines := Nat.mul_le_mul_left _ row

end Marks

/-! ## What is shown -/

section Shown

variable {rows cols : Nat} {tty : Screen} {t : Terminal rows cols} {cell : Fin rows → Fin cols → UInt8}

/-- The cells are numbered row after row. -/
theorem index_lt (r : Fin rows) (c : Fin cols) : r * cols + c < cols * rows := by
  calc r * cols + c < r * cols + cols := Nat.add_lt_add_left c.isLt _
    _ = cols * (r + 1) := by rw [Nat.mul_succ, Nat.mul_comm]
    _ ≤ cols * rows := Nat.mul_le_mul_left _ r.isLt

theorem index_inj {r r' : Fin rows} {c c' : Fin cols} (same : r * cols + c = r' * cols + c') : r = r' ∧ c = c' := by
  have positive : 0 < cols := Nat.zero_lt_of_lt c.isLt
  have quotient : ∀ (r : Fin rows) (c : Fin cols), (r * cols + c) / cols = r ∧ (r * cols + c) % cols = c := by
    intro r c
    rw [Nat.mul_comm, Nat.mul_add_div positive, Nat.div_eq_of_lt c.isLt, Nat.mul_add_mod, Nat.mod_eq_of_lt c.isLt]
    exact ⟨rfl, rfl⟩
  have row := (quotient r c).1
  have col := (quotient r c).2
  rw [same] at row col
  exact ⟨Fin.ext ((quotient r' c').1.symm.trans row).symm, Fin.ext ((quotient r' c').2.symm.trans col).symm⟩

/-- The end of a row is the end of the screen for the last row. -/
theorem row_end_iff (r : Fin rows) (some : 0 < cols) : r * cols + cols = cols * rows ↔ r + 1 = rows := by
  rw [← Nat.add_one_mul r.val cols, Nat.mul_comm, Nat.mul_right_inj (Nat.ne_of_gt some)]

theorem Holds.size (h : Holds tty cell) : tty.size = cols * rows := by
  unfold Screen.size
  rw [h.lines, h.columns]

theorem Holds.dirty (h : Holds tty cell) (d : Mem) : Holds { tty with dirty := d } cell :=
  ⟨h.lines, h.columns, h.chars, h.metadata⟩

theorem Holds.move (h : Holds tty cell) (p : Int) : Holds { tty with cursor := p } cell :=
  ⟨h.lines, h.columns, h.chars, h.metadata⟩

theorem Shows.dirty (h : Shows tty t) (d : Mem) : Shows { tty with dirty := d } t :=
  ⟨h.toHolds.dirty d, h.cursor⟩

/-- The cursor lies on the screen. -/
theorem Shows.inside (h : Shows tty t) : t.row * cols + t.col < tty.size := by
  rw [h.size]
  exact index_lt _ _

theorem Shows.cr (h : Shows tty t) : Shows (ttyUpdCr tty) { t with col := t.first } := by
  refine ⟨h.toHolds.move _, ?_⟩
  have rest : (t.row * cols + t.col) % cols = t.col := by
    rw [Nat.mul_comm, Nat.mul_add_mod, Nat.mod_eq_of_lt t.col.isLt]
  show tty.cursor - tty.cursor.tmod tty.columns = (t.row * cols + 0 : Nat)
  rw [h.cursor, h.columns, ← Int.ofNat_tmod, rest]
  omega

/-- A character is stored in a cell. -/
theorem Holds.setCh (h : Holds tty cell) (r : Fin rows) (c : Fin cols) (ch : UInt8) :
    ∃ m, tty.setCh (r * cols + c : Nat) ch = .ok { tty with buf := m } ∧
      Holds { tty with buf := m } fun r' c' => if r' = r ∧ c' = c then ch else cell r' c' := by
  have inside : r * cols + c < tty.size := by
    rw [h.size]
    exact index_lt r c
  unfold Screen.setCh
  rw [Screen.cell_run inside, ok_bind]
  refine ⟨_, rfl, h.lines, h.columns, fun r' c' => ?_, fun i hi k hk => ?_⟩
  · dsimp only
    by_cases here : r' = r ∧ c' = c
    · obtain ⟨rfl, rfl⟩ := here
      rw [if_pos ⟨rfl, rfl⟩, store_inside (by omega) (by omega)]
    · have other : r' * cols + c' ≠ r * cols + c := fun same => here (index_inj same)
      rw [if_neg here, ← h.chars r' c']
      apply store_outside
      unfold sizeofCharacter
      omega
  · rw [← h.metadata i hi k hk]
    dsimp only
    apply store_outside
    unfold sizeofCharacter
    omega

theorem Shows.set (h : Shows tty t) (ch : UInt8) :
    ∃ m, tty.setCh tty.cursor ch = .ok { tty with buf := m } ∧ Shows { tty with buf := m } (t.set ch) := by
  obtain ⟨m, run, holds⟩ := h.setCh t.row t.col ch
  rw [← h.cursor] at run
  exact ⟨m, run, holds, h.cursor⟩

/-- `tty_upd_backsp` -/
theorem Shows.backsp (h : Shows tty t) :
    ∃ tty', ttyUpdBacksp tty = .ok tty' ∧ tty'.cursor < max 1 tty.cursor ∧
      Shows tty' (t.back.elim t fun t => t.set 0) := by
  have erase : ∀ t' : Terminal rows cols, t'.cell = t.cell → t'.row * cols + t'.col + 1 = t.row * cols + t.col →
      ∃ tty', ttyUpdBacksp tty = .ok tty' ∧ tty'.cursor < max 1 tty.cursor ∧ Shows tty' (t'.set 0) := by
    intro t' same before
    have cursor := h.cursor
    have shows' : Shows { tty with cursor := tty.cursor - 1 } t' := by
      refine ⟨same ▸ h.toHolds.move _, ?_⟩
      show tty.cursor - 1 = _
      omega
    obtain ⟨m, run, done⟩ := shows'.set 0
    unfold ttyUpdBacksp
    rw [if_pos (by omega)]
    refine ⟨_, run, ?_, done⟩
    dsimp only
    omega
  unfold Terminal.back
  by_cases left : 0 < t.col.val
  · rw [dif_pos left]
    refine erase { t with col := _ } rfl ?_
    dsimp only
    omega
  · rw [dif_neg left]
    by_cases above : 0 < t.row.val
    · rw [dif_pos above]
      refine erase { t with row := _, col := _ } rfl ?_
      have width := t.col.isLt
      have rows' : t.row.val - 1 + 1 = t.row := Nat.sub_add_cancel above
      dsimp only
      rw [← rows', Nat.add_one_mul, Nat.add_sub_cancel]
      omega
    · rw [dif_neg above]
      have start : tty.cursor = 0 := by
        rw [h.cursor, Nat.eq_zero_of_not_pos left, Nat.eq_zero_of_not_pos above]
        simp
      unfold ttyUpdBacksp
      rw [if_neg (by omega)]
      exact ⟨tty, rfl, by omega, h⟩

end Shown

/-! ## Scrolling -/

section Scroll

variable {rows cols : Nat} {tty : Screen} {t : Terminal rows cols} {cell : Fin rows → Fin cols → UInt8}

theorem Screen.clear_run {i : Nat} (inside : i < tty.size) :
    tty.clear i = .ok { tty with buf := store tty.buf (sizeofCharacter * i) sizeofCharacter fun _ => 0 } := by
  unfold Screen.clear
  rw [Screen.cell_run inside]
  rfl

theorem clearCells_run {n i : Nat} (inside : i + n ≤ tty.size) :
    clearCells tty n i =
      .ok { tty with buf := store tty.buf (sizeofCharacter * i) (sizeofCharacter * n) fun _ => 0 } := by
  induction n generalizing tty i with
  | zero =>
    have none : store tty.buf (sizeofCharacter * i) (sizeofCharacter * 0) (fun _ => 0) = tty.buf := by
      funext x
      exact store_outside (by omega)
    rw [clearCells, none]
  | succ n ih =>
    have rest := @ih { tty with buf := store tty.buf (sizeofCharacter * i) sizeofCharacter fun _ => 0 } (i + 1)
      (by show i + 1 + n ≤ tty.size; omega)
    have both : store (store tty.buf (sizeofCharacter * i) sizeofCharacter fun _ => 0) (sizeofCharacter * (i + 1))
        (sizeofCharacter * n) (fun _ => 0) = store tty.buf (sizeofCharacter * i) (sizeofCharacter * (n + 1)) fun _ => 0 := by
      funext x
      unfold store sizeofCharacter
      dsimp only
      split <;> split <;> try split
      all_goals first | rfl | omega
    rw [clearCells, Screen.clear_run (by omega), ok_bind]
    rw [both] at rest
    exact_mod_cast rest

/-- The rows when all have moved up. -/
def movedUp (cell : Fin rows → Fin cols → UInt8) : Fin rows → Fin cols → UInt8 :=
  fun r c => if below : r + 1 < rows then cell ⟨r + 1, below⟩ c else 0

/-- `tty_upd_scrollup` behind the last row. -/
theorem Holds.scrollup (h : Holds tty cell) (some : 0 < rows) (last : tty.cursor = tty.size) :
    ∃ m d, ttyUpdScrollup tty = .ok { tty with buf := m, dirty := d, cursor := (cols * (rows - 1) : Nat) } ∧
      Holds { tty with buf := m, dirty := d, cursor := (cols * (rows - 1) : Nat) } (movedUp cell) := by
  have size := h.size
  have whole : cols + cols * (rows - 1) = cols * rows := by
    obtain ⟨n, rfl⟩ := Nat.exists_eq_add_of_lt some
    simp [Nat.mul_succ, Nat.add_comm]
  have start : tty.cursor - tty.columns = (cols * (rows - 1) : Nat) := by
    rw [last, size, h.columns]
    omega
  have fits : tty.columns + tty.columns * (tty.lines - 1) ≤ tty.size := by
    rw [h.columns, h.lines, size, whole]
  unfold ttyUpdScrollup
  dsimp only
  rw [if_pos fits, start, clearCells_run (by show _ ≤ tty.size; rw [h.columns]; omega)]
  refine ⟨_, _, rfl, h.lines, h.columns, fun r c => ?_, fun i hi k hk => ?_⟩
  · have inside := index_lt r c
    dsimp only
    rw [memmove_eq, h.columns, h.lines]
    unfold movedUp
    by_cases below : r + 1 < rows
    · -- the cell below has moved here
      have before : r * cols + c < cols * (rows - 1) := by
        calc r * cols + c < r * cols + cols := Nat.add_lt_add_left c.isLt _
          _ = cols * (r + 1) := by rw [Nat.mul_succ, Nat.mul_comm]
          _ ≤ cols * (rows - 1) := Nat.mul_le_mul_left _ (by omega)
      have from' := h.chars ⟨r + 1, below⟩ c
      rw [dif_pos below, ← from']
      unfold sizeofCharacter
      rw [store_outside (by omega), store_inside (by omega) (by omega)]
      congr 1
      show _ = 8 * ((r.val + 1) * cols + c) + 4
      rw [Nat.add_one_mul r.val cols]
      omega
    · have end' : cols * (rows - 1) ≤ r * cols + c := by
        rw [show (r : Nat) = rows - 1 by omega, Nat.mul_comm]
        omega
      rw [dif_neg below]
      unfold sizeofCharacter
      rw [store_inside (by omega) (by omega)]
  · have inside : i < cols * rows := size ▸ hi
    dsimp only
    rw [memmove_eq, h.columns, h.lines]
    by_cases before : i < cols * (rows - 1)
    · have moved := h.metadata (i + cols) (by omega) k hk
      rw [← moved]
      unfold sizeofCharacter
      rw [store_outside (by omega), store_inside (by omega) (by omega)]
      congr 1
      omega
    · unfold sizeofCharacter
      rw [store_inside (by omega) (by omega)]

/-- The end of `tty_putc` with the cursor behind the last row. -/
theorem Holds.scroll (h : Holds tty t.cell) (behind : tty.cursor = (t.row * cols + cols : Nat))
    (last : tty.cursor = tty.size) :
    ∃ tty', (do ttyMarkAll (← ttyUpdScrollup tty)) = .ok tty' ∧ Shows tty' t.nextRow := by
  have size := h.size
  have row : t.row + 1 = rows := (row_end_iff t.row (Nat.zero_lt_of_lt t.col.isLt)).1 (by omega)
  obtain ⟨m, d, up, holds⟩ := h.scrollup (by omega) last
  obtain ⟨d', mark⟩ := ttyMarkAll_run { tty with buf := m, dirty := d, cursor := (cols * (rows - 1) : Nat) }
  rw [up, ok_bind, mark]
  refine ⟨_, rfl, ?_⟩
  unfold Terminal.nextRow
  rw [dif_neg (by omega)]
  refine ⟨holds.dirty d', ?_⟩
  show ((cols * (rows - 1) : Nat) : Int) = (t.row * cols + 0 : Nat)
  rw [show rows - 1 = t.row by omega, Nat.mul_comm, Nat.add_zero]

/-- The cursor behind another row. -/
theorem Holds.below (h : Holds tty t.cell) (behind : tty.cursor = (t.row * cols + cols : Nat))
    (more : tty.cursor ≠ tty.size) : Shows tty t.nextRow := by
  have size := h.size
  have row : t.row + 1 ≠ rows := fun last =>
    more (by rw [behind, size, (row_end_iff t.row (Nat.zero_lt_of_lt t.col.isLt)).2 last])
  unfold Terminal.nextRow
  rw [dif_pos (by omega)]
  refine ⟨h, behind.trans ?_⟩
  show _ = (((t.row.val + 1) * cols + 0 : Nat) : Int)
  rw [Nat.add_one_mul, Nat.add_zero]

end Scroll

/-! ## Characters -/

section Chars

variable {rows cols : Nat} {tty : Screen} {t : Terminal rows cols} {ch : UInt8}

theorem Shows.putCr (h : Shows tty t) : ∃ tty', ttyPutc tty 13 = .ok tty' ∧ Shows tty' (t.put 13) := by
  have shows := h.cr
  obtain ⟨d, mark⟩ := ttyMarkLine_run shows.inside
  rw [← shows.cursor] at mark
  exact ⟨_, mark, shows.dirty d⟩

theorem Shows.putBacksp (h : Shows tty t) (two : 2 ≤ tty.size) :
    ∃ tty', ttyPutc tty 8 = .ok tty' ∧ Shows tty' (t.put 8) := by
  obtain ⟨tty', erase, before, shows⟩ := h.backsp
  have inside := h.inside
  have cursor := h.cursor
  have cursor' := shows.cursor
  have same : tty'.size = tty.size := shows.size.trans h.size.symm
  obtain ⟨d, mark⟩ := ttyMark_run _ shows.inside
  rw [← cursor'] at mark
  have next : (t.back.elim t fun t => t.set 0).row * cols + (t.back.elim t fun t => t.set 0).col + 1 <
      Screen.size { tty' with dirty := d } := by
    show _ < tty'.size
    omega
  obtain ⟨d', mark'⟩ := ttyMark_run _ next
  rw [Nat.cast_succ, ← cursor'] at mark'
  refine ⟨_, ?_, shows.dirty d'⟩
  unfold ttyPutc
  rw [if_neg (by decide), if_pos rfl, erase, ok_bind, mark, ok_bind]
  exact mark'

theorem Shows.putLf (h : Shows tty t) : ∃ tty', ttyPutc tty 10 = .ok tty' ∧ Shows tty' (t.put 10) := by
  have put : t.put 10 = t.nextRow := rfl
  have shows := h.cr
  have start : (ttyUpdLf (ttyUpdCr tty)).cursor = (t.row * cols + cols : Nat) := by
    show (ttyUpdCr tty).cursor + (ttyUpdCr tty).columns = _
    rw [shows.cursor, shows.columns]
    rfl
  have holds : Holds (ttyUpdLf (ttyUpdCr tty)) t.cell := shows.toHolds.move _
  have size : (ttyUpdLf (ttyUpdCr tty)).size = cols * rows := holds.size
  unfold ttyPutc
  rw [put, if_neg (by decide), if_neg (by decide), if_pos rfl]
  dsimp only
  by_cases last : (ttyUpdLf (ttyUpdCr tty)).cursor = (ttyUpdLf (ttyUpdCr tty)).size
  · rw [if_pos last]
    exact holds.scroll start last
  · rw [if_neg last]
    have shows' : Shows (ttyUpdLf (ttyUpdCr tty)) t.nextRow := holds.below start last
    have row : t.row * cols < (ttyUpdLf (ttyUpdCr tty)).size := by
      have inside := index_lt t.row t.col
      omega
    obtain ⟨d, mark⟩ := ttyMarkLine_run row
    have above : (ttyUpdLf (ttyUpdCr tty)).cursor - (ttyUpdLf (ttyUpdCr tty)).columns = (t.row * cols : Nat) := by
      rw [start, holds.columns]
      omega
    obtain ⟨d', mark'⟩ := ttyMarkLine_run (shows'.dirty d).inside
    rw [← (shows'.dirty d).cursor] at mark'
    rw [above, mark, ok_bind]
    exact ⟨_, mark', shows'.dirty d'⟩

/-- The marks at the end of `tty_putc` when the cursor has gone on. -/
theorem Shows.markBoth (h : Shows tty t) (moved : 0 < tty.cursor) :
    ∃ tty', (do
      let tty ← ttyMark tty (tty.cursor - 1)
      ttyMark tty tty.cursor) = .ok tty' ∧ Shows tty' t := by
  have inside := h.inside
  have cursor := h.cursor
  have before : tty.cursor - 1 = (t.row * cols + t.col - 1 : Nat) := by omega
  obtain ⟨d, mark⟩ := ttyMark_run tty (i := t.row * cols + t.col - 1) (by omega)
  obtain ⟨d', mark'⟩ := ttyMark_run _ (h.dirty d).inside
  rw [← (h.dirty d).cursor] at mark'
  rw [before, mark, ok_bind]
  exact ⟨_, mark', (h.dirty d).dirty d'⟩

theorem Shows.putChar (h : Shows tty t) (cr : ch ≠ 13) (backsp : ch ≠ 8) (lf : ch ≠ 10) :
    ∃ tty', ttyPutc tty ch = .ok tty' ∧ Shows tty' (t.put ch) := by
  obtain ⟨m, set, shows⟩ := h.set ch
  have cursor := h.cursor
  have inside := h.inside
  have put : t.put ch = (t.set ch).advance := by
    unfold Terminal.put
    rw [if_neg cr, if_neg backsp, if_neg lf]
  let next : Screen := { tty with buf := m, cursor := tty.cursor + 1 }
  have step : ttyUpdPutc tty ch = .ok next := by
    unfold ttyUpdPutc
    rw [set]
    rfl
  have holds : Holds next (t.set ch).cell := shows.toHolds.move _
  have moved : next.cursor = tty.cursor + 1 := rfl
  have size : next.size = tty.size := holds.size.trans h.size.symm
  unfold ttyPutc
  rw [put, if_neg cr, if_neg backsp, if_neg lf, step, ok_bind]
  unfold Terminal.advance
  by_cases right : (t.set ch).col + 1 < cols
  · rw [dif_pos right]
    have shows' : Shows next { t.set ch with col := ⟨(t.set ch).col + 1, right⟩ } := by
      refine ⟨holds, moved.trans ?_⟩
      rw [cursor]
      rfl
    have inside' := shows'.inside
    have cursor' := shows'.cursor
    rw [if_neg (by omega)]
    exact shows'.markBoth (by omega)
  · rw [dif_neg right]
    have col : t.col + 1 = cols := by
      have := t.col.isLt
      have : ¬ t.col + 1 < cols := right
      omega
    have behind : next.cursor = ((t.set ch).row * cols + cols : Nat) := by
      show tty.cursor + 1 = (t.row * cols + cols : Nat)
      omega
    by_cases last : next.cursor = next.size
    · rw [if_pos last]
      exact holds.scroll behind last
    · rw [if_neg last]
      exact (holds.below behind last).markBoth (by omega)

/-- One character. -/
theorem Shows.putc (h : Shows tty t) (two : 2 ≤ rows * cols) (ch : UInt8) :
    ∃ tty', ttyPutc tty ch = .ok tty' ∧ Shows tty' (t.put ch) := by
  by_cases cr : ch = 13
  · subst cr
    exact h.putCr
  by_cases backsp : ch = 8
  · subst backsp
    apply h.putBacksp
    rw [h.size, Nat.mul_comm]
    exact two
  by_cases lf : ch = 10
  · subst lf
    exact h.putLf
  · exact h.putChar cr backsp lf

theorem Shows.puts (h : Shows tty t) (two : 2 ≤ rows * cols) (chars : List UInt8) :
    ∃ tty', chars.foldlM ttyPutc tty = .ok tty' ∧ Shows tty' (chars.foldl Terminal.put t) := by
  induction chars generalizing tty t with
  | nil => exact ⟨tty, rfl, h⟩
  | cons ch chars ih =>
    obtain ⟨tty₁, run, shows⟩ := h.putc two ch
    obtain ⟨tty₂, rest, shows⟩ := ih shows
    refine ⟨tty₂, ?_, shows⟩
    rw [List.foldlM_cons, run]
    exact rest

theorem shows_init (row : 0 < rows) (col : 0 < cols) :
    Shows (ttyInitScreen rows cols) (Terminal.init rows cols row col) := by
  refine ⟨⟨rfl, rfl, fun _ _ => rfl, fun _ _ _ _ => rfl⟩, ?_⟩
  show (0 : Int) = (0 * cols + 0 : Nat)
  simp

/-- **The screen is a terminal.** Whatever is written on a screen of at least two cells, no cell outside it is
accessed, the cursor stays on it, and it shows what the terminal shows. -/
theorem terminal_screen (row : 0 < rows) (col : 0 < cols) (two : 2 ≤ rows * cols) (chars : List UInt8) :
    ∃ tty, chars.foldlM ttyPutc (ttyInitScreen rows cols) = .ok tty ∧ 0 ≤ tty.cursor ∧ tty.cursor < tty.size ∧
      Shows tty (chars.foldl Terminal.put (Terminal.init rows cols row col)) := by
  obtain ⟨tty, run, shows⟩ := (shows_init row col).puts two chars
  have inside := shows.inside
  have cursor := shows.cursor
  exact ⟨tty, run, by omega, by omega, shows⟩

/-- A screen of two rows and three columns after `"ab\ncd\n"` and two backspaces. -/
theorem terminal_screen_small : 0 < 2 ∧ 0 < 3 ∧ 2 ≤ 2 * 3 ∧
    ∃ tty, [97, 98, 10, 99, 100, 10, 8, 8].foldlM ttyPutc (ttyInitScreen 2 3) = .ok tty ∧
      0 ≤ tty.cursor ∧ tty.cursor < tty.size ∧
      Shows tty ([97, 98, 10, 99, 100, 10, 8, 8].foldl Terminal.put (Terminal.init 2 3 (by decide) (by decide))) :=
  ⟨by decide, by decide, by decide, terminal_screen (by decide) (by decide) (by decide) _⟩

end Chars

end OsLab.Kernel.Devices
