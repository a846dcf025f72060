import OsLab.Kernel.Devices.Screen
import OsLab.Kernel.Devices.Video

/-!
# Drawing a terminal (`tty_render`)

For each marked cell of a terminal `tty_render` writes two sprites, the halves of its character, or of a
block where the cursor is. All cells are marked when a terminal starts, and no code takes a mark away
(`ttyPutc_marked`); so each cell is drawn each time.
-/

namespace OsLab.Kernel.Devices

open OsLab.Memory OsLab.Klib Painting

/-! ## Marks stay -/

/-- All cells are marked. -/
def Screen.Marked (tty : Screen) : Prop := ∀ i < tty.size, tty.dirty i ≠ 0

/-- The size stays, and so do the marks. -/
structure KeepsMarks (tty tty' : Screen) : Prop where
  lines : tty'.lines = tty.lines
  columns : tty'.columns = tty.columns
  marked : tty.Marked → tty'.Marked

section Marks

variable {tty tty' : Screen} {p : Int} {ch : UInt8}

theorem KeepsMarks.refl (tty : Screen) : KeepsMarks tty tty := ⟨rfl, rfl, id⟩

theorem KeepsMarks.trans {tty'' : Screen} (first : KeepsMarks tty tty') (second : KeepsMarks tty' tty'') :
    KeepsMarks tty tty'' :=
  ⟨second.lines.trans first.lines, second.columns.trans first.columns, fun h => second.marked (first.marked h)⟩

/-- Neither the characters nor the cursor are marks. -/
theorem KeepsMarks.after {next : Screen} (rest : KeepsMarks next tty') (lines : next.lines = tty.lines)
    (columns : next.columns = tty.columns) (dirty : next.dirty = tty.dirty) : KeepsMarks tty tty' := by
  refine ⟨rest.lines.trans lines, rest.columns.trans columns, fun marked => rest.marked fun i inside => ?_⟩
  unfold Screen.size at inside
  rw [lines, columns] at inside
  rw [dirty]
  exact marked i inside

theorem ttyMark_marked (run : ttyMark tty p = .ok tty') : KeepsMarks tty tty' := by
  obtain ⟨i, -, result⟩ := bind_eq_ok.1 run
  cases result
  refine ⟨rfl, rfl, fun marked k inside => ?_⟩
  show (if i ≤ k ∧ k < i + 1 then (1 : UInt8) else tty.dirty k) ≠ 0
  split
  · decide +revert
  · exact marked k inside

theorem markCells_marked {n : Nat} (run : markCells tty n p = .ok tty') : KeepsMarks tty tty' := by
  induction n generalizing tty p with
  | zero =>
    cases run
    exact .refl _
  | succ n ih =>
    obtain ⟨next, mark, rest⟩ := bind_eq_ok.1 run
    exact (ttyMark_marked mark).trans (ih rest)

theorem setCh_marked (run : tty.setCh p ch = .ok tty') : KeepsMarks tty tty' := by
  obtain ⟨i, -, result⟩ := bind_eq_ok.1 run
  cases result
  exact (KeepsMarks.refl _).after rfl rfl rfl

theorem clearCells_marked {n : Nat} (run : clearCells tty n p = .ok tty') : KeepsMarks tty tty' := by
  induction n generalizing tty p with
  | zero =>
    cases run
    exact .refl _
  | succ n ih =>
    obtain ⟨next, clear, rest⟩ := bind_eq_ok.1 run
    obtain ⟨i, -, result⟩ := bind_eq_ok.1 clear
    cases result
    exact (ih rest).after rfl rfl rfl

/-- The marks move up with the rows, and the last row keeps its own. -/
theorem ttyUpdScrollup_marked (run : ttyUpdScrollup tty = .ok tty') : KeepsMarks tty tty' := by
  unfold ttyUpdScrollup at run
  dsimp only at run
  split at run
  · next fits =>
    refine KeepsMarks.trans ?_ (clearCells_marked run)
    refine ⟨rfl, rfl, fun marked k inside => ?_⟩
    show memmove tty.dirty 0 tty.columns (tty.columns * (tty.lines - 1)) k ≠ 0
    rw [memmove_eq]
    unfold store
    split
    · exact marked _ (by omega)
    · exact marked k inside
  · cases run

/-- The end of `tty_putc` behind the last row. -/
theorem scrolled_marked (run : (do ttyMarkAll (← ttyUpdScrollup tty)) = .ok tty') : KeepsMarks tty tty' := by
  obtain ⟨up, scroll, mark⟩ := bind_eq_ok.1 run
  exact (ttyUpdScrollup_marked scroll).trans (markCells_marked mark)

theorem ttyPutc_marked (run : ttyPutc tty ch = .ok tty') : KeepsMarks tty tty' := by
  unfold ttyPutc at run
  split at run
  · exact (markCells_marked run).after rfl rfl rfl
  split at run
  · obtain ⟨erased, erase, rest⟩ := bind_eq_ok.1 run
    obtain ⟨first, mark, rest⟩ := bind_eq_ok.1 rest
    have kept : KeepsMarks tty erased := by
      unfold ttyUpdBacksp at erase
      split at erase
      · exact (setCh_marked erase).after rfl rfl rfl
      · cases erase
        exact .refl _
    exact kept.trans ((ttyMark_marked mark).trans (ttyMark_marked rest))
  split at run
  · dsimp only at run
    split at run
    · exact (scrolled_marked run).after rfl rfl rfl
    · obtain ⟨first, mark, rest⟩ := bind_eq_ok.1 run
      exact ((markCells_marked mark).trans (markCells_marked rest)).after rfl rfl rfl
  · obtain ⟨next, put, rest⟩ := bind_eq_ok.1 run
    obtain ⟨stored, set, result⟩ := bind_eq_ok.1 put
    cases result
    refine (setCh_marked set).trans ?_
    split at rest
    · exact (scrolled_marked rest).after rfl rfl rfl
    · obtain ⟨first, mark, rest⟩ := bind_eq_ok.1 rest
      exact ((ttyMark_marked mark).trans (ttyMark_marked rest)).after rfl rfl rfl

end Marks

/-! ## Cells -/

/-- What `tty_render` draws for a cell: its character, or a block for the cursor. -/
def cellChar (tty : Screen) (i : Nat) : Nat :=
  if (i : Int) = tty.cursor then 0xdb else (tty.buf (sizeofCharacter * i + 4)).toNat

/-- The sprites of a cell: the two halves of a character. -/
def cellSprites (tty : Screen) (display y x : Nat) : List Sprite :=
  let draw := cellChar tty (y * tty.columns + x)
  [mkSprite (draw * 2 + 1) (x * 8) (y * 16) display, mkSprite (draw * 2 + 2) (x * 8) (y * 16 + 8) display]

/-- A round of the loops of `tty_render`. -/
def renderCell (tty : Screen) (display : Nat) (fb : Fb) (vga : Raster FBPixel) (y x : Nat) :
    Except Halt (Raster FBPixel) :=
  if tty.dirty (y * tty.columns + x) ≠ 0 then fbSprites fb vga (cellSprites tty display y x) else .ok vga

/-- The pixels of a cell. -/
def CellArea (y x px py : Nat) : Prop := x * 8 ≤ px ∧ px < x * 8 + 8 ∧ y * 16 ≤ py ∧ py < y * 16 + 16

/-- The picture of a terminal in a font, pixel by pixel. -/
def picture (font : Nat → UInt8) (tty : Screen) (px py : Nat) : FBPixel :=
  glyph font (cellChar tty (py / 16 * tty.columns + px / 8)) (px % 8) (py % 16)

section Cells

variable {font : Nat → UInt8} {textures : Nat → UInt32} {tty : Screen} {fb : Fb} {vga : Raster FBPixel}
  {display y x : Nat}

theorem cellChar_lt (tty : Screen) (i : Nat) : cellChar tty i < 256 := by
  unfold cellChar
  split
  · decide
  · exact UInt8.toNat_lt _

/-- A half of a cell on the display that is shown. -/
theorem videoWrite_half (vga : Raster FBPixel) {tx top : Nat} (chars : ∀ px < 8, ∀ py < 8,
    fbPixel (texture fb.textures tx (py * 8 + px)) =
      glyph font (cellChar tty (y * tty.columns + x)) px (top + py)) (half : top = 0 ∨ top = 8) :
    ∃ vga', videoWrite vga ⟨x * 8, y * 16 + top, textureW, textureH, texture fb.textures tx⟩ = .ok vga' ∧
      Paints vga (fun px py => x * 8 ≤ px ∧ px < x * 8 + 8 ∧ y * 16 + top ≤ py ∧ py < y * 16 + top + 8)
        (picture font tty) vga' := by
  apply videoWrite_paints
  intro px hpx py hpy
  have hx : px < 8 := hpx
  have hy : py < 8 := hpy
  unfold picture
  dsimp only
  rw [show (y * 16 + top + py) / 16 = y by omega, show (x * 8 + px) / 8 = x by omega,
    show (x * 8 + px) % 8 = px by omega, show (y * 16 + top + py) % 16 = top + py by omega]
  exact (chars px hx py hy).symm

/-- A marked cell of the terminal that is shown is painted. -/
theorem renderCell_paints (vga : Raster FBPixel) (loaded : fb.textures = fontLoad font textures) (shown : display % 2 ^ 4 = fb.current)
    (marked : tty.dirty (y * tty.columns + x) ≠ 0) (hx : x * 8 < 2 ^ 16) (hy : y * 16 + 8 < 2 ^ 16) :
    ∃ vga', renderCell tty display fb vga y x = .ok vga' ∧ Paints vga (CellArea y x) (picture font tty) vga' := by
  have char := cellChar_lt tty (y * tty.columns + x)
  have upperChars : ∀ px < 8, ∀ py < 8,
      fbPixel (texture fb.textures (cellChar tty (y * tty.columns + x) * 2 + 1) (py * 8 + px)) =
        glyph font (cellChar tty (y * tty.columns + x)) px (0 + py) := fun px hpx py hpy => by
    rw [loaded, Nat.zero_add]
    exact (fontLoad_glyph char hpx hpy).1
  have lowerChars : ∀ px < 8, ∀ py < 8,
      fbPixel (texture fb.textures (cellChar tty (y * tty.columns + x) * 2 + 2) (py * 8 + px)) =
        glyph font (cellChar tty (y * tty.columns + x)) px (8 + py) := fun px hpx py hpy => by
    rw [loaded, Nat.add_comm 8]
    exact (fontLoad_glyph char hpx hpy).2
  obtain ⟨up, first, upper⟩ := videoWrite_half vga upperChars (.inl rfl)
  obtain ⟨both, second, lower⟩ := videoWrite_half up lowerChars (.inr rfl)
  refine ⟨both, ?_, (upper.trans lower).congr fun px _ py _ => ?_⟩
  · unfold renderCell fbSprites cellSprites mkSprite nTexture
    rw [if_pos marked]
    simp only [List.foldlM_cons, List.foldlM_nil]
    rw [if_pos ⟨by omega, shown⟩, if_pos (by omega), Nat.mod_eq_of_lt hx,
      Nat.mod_eq_of_lt (show y * 16 < 2 ^ 16 by omega), Nat.mod_eq_of_lt hy,
      Nat.mod_eq_of_lt (show cellChar tty (y * tty.columns + x) * 2 + 1 < 2 ^ 16 by omega),
      Nat.mod_eq_of_lt (show cellChar tty (y * tty.columns + x) * 2 + 2 < 2 ^ 16 by omega)]
    rw [Nat.add_zero] at first
    rw [first, ok_bind, if_pos ⟨by omega, shown⟩, if_pos (by omega), second]
    rfl
  · unfold CellArea
    omega

/-- Nothing is drawn for a terminal that is not shown. -/
theorem renderCell_hidden (hidden : display % 2 ^ 4 ≠ fb.current) : renderCell tty display fb vga y x = .ok vga := by
  unfold renderCell fbSprites cellSprites mkSprite
  split
  · simp only [List.foldlM_cons, List.foldlM_nil]
    rw [if_neg fun h => hidden h.2, ok_bind, if_neg fun h => hidden h.2]
    rfl
  · rfl

end Cells

end OsLab.Kernel.Devices
