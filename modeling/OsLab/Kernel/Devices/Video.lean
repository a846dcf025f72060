import OsLab.Kernel.Debug
import OsLab.Lib.Raster

/-!
# The display (`video.c`)

The kernel keeps the glyphs of its font as textures of 8 by 8 pixels, two for each character, and draws
sprites: a texture at a place of the screen. The video controller of the machine
(`am/src/x86/qemu/devices/video.c`) copies the pixels of a rectangle to the frame buffer.
-/

namespace OsLab.Kernel.Devices

open Painting

/-! ## The video controller -/

/-- `FBPixel` -/
structure FBPixel where
  r : UInt8
  g : UInt8
  b : UInt8
  deriving DecidableEq, Repr

/-- The `FBPixel` of `R(p)`, `G(p)` and `B(p)`. -/
def fbPixel (p : UInt32) : FBPixel := ⟨(p >>> 16).toUInt8, (p >>> 8).toUInt8, p.toUInt8⟩

/-- `_DEV_VIDEO_FBCTL_t`, with the pixels behind its pointer. -/
structure FbCtl where
  x : Nat
  y : Nat
  w : Nat
  h : Nat
  pixels : Nat → UInt32

/-- `fb[i]` gets the colour of `p`. -/
def putPixel (fb : Raster FBPixel) (i : Nat) (p : UInt32) : Except Halt (Raster FBPixel) :=
  match fb.put i (fbPixel p) with
  | some fb => .ok fb
  | none => .error .outside

/-- The loop of `video_write` over the pixels of row `j`. -/
def drawRow (ctl : FbCtl) (len : Nat) (fb : Raster FBPixel) (j : Nat) : Except Halt (Raster FBPixel) :=
  (List.range len).foldlM
    (fun fb i => putPixel fb (ctl.x + (j + ctl.y) * fb.width + i) (ctl.pixels (j * ctl.w + i))) fb

/-- `video_write` to `_DEVREG_VIDEO_FBCTL`; the frame buffer has `W` columns and `H` rows. -/
def videoWrite (fb : Raster FBPixel) (ctl : FbCtl) : Except Halt (Raster FBPixel) :=
  let len := if fb.width ≤ ctl.x + ctl.w then fb.width - ctl.x else ctl.w
  (List.range ctl.h).foldlM (fun fb j => if ctl.y + j < fb.height then drawRow ctl len fb j else .ok fb) fb

section VideoWrite

variable {fb : Raster FBPixel} {colour : Nat → Nat → FBPixel} {ctl : FbCtl} {len j : Nat}

theorem drawRow_paints (fits : ctl.x + len ≤ fb.width) (narrow : len ≤ ctl.w) (below : ctl.y + j < fb.height)
    (wanted : ∀ i < ctl.w, colour (ctl.x + i) (ctl.y + j) = fbPixel (ctl.pixels (j * ctl.w + i))) :
    ∃ fb', drawRow ctl len fb j = .ok fb' ∧
      Paints fb (fun x y => ∃ i < len, x = ctl.x + i ∧ y = ctl.y + j) colour fb' := by
  apply foldlM_paints
  intro i hi s width height
  have hx : ctl.x + i < s.width := by omega
  have hy : ctl.y + j < s.height := by omega
  obtain ⟨s', put, paints⟩ := put_paints hx hy (wanted i (by omega))
  refine ⟨s', ?_, paints⟩
  have number : ctl.x + (j + ctl.y) * s.width + i = ctl.x + i + (ctl.y + j) * s.width := by
    rw [Nat.add_comm j]
    omega
  unfold putPixel
  rw [number, put]

/-- A rectangle is drawn as far as it lies on the screen, and nothing is stored outside the frame buffer. -/
theorem videoWrite_paints
    (wanted : ∀ i < ctl.w, ∀ j < ctl.h, colour (ctl.x + i) (ctl.y + j) = fbPixel (ctl.pixels (j * ctl.w + i))) :
    ∃ fb', videoWrite fb ctl = .ok fb' ∧
      Paints fb (fun x y => ctl.x ≤ x ∧ x < ctl.x + ctl.w ∧ ctl.y ≤ y ∧ y < ctl.y + ctl.h) colour fb' := by
  unfold videoWrite
  generalize length : (if fb.width ≤ ctl.x + ctl.w then fb.width - ctl.x else ctl.w) = len
  have narrow : len ≤ ctl.w := by
    rw [← length]
    split <;> omega
  have round : ∀ j < ctl.h, ∀ s : Raster FBPixel, s.width = fb.width → s.height = fb.height →
      ∃ s', (if ctl.y + j < s.height then drawRow ctl len s j else .ok s) = .ok s' ∧
        Paints s (fun x y => (∃ i < len, x = ctl.x + i ∧ y = ctl.y + j) ∧ ctl.y + j < fb.height) colour s' := by
    intro j hj s width height
    by_cases below : ctl.y + j < s.height
    · rw [if_pos below]
      by_cases on : ctl.x ≤ fb.width
      · have fits : ctl.x + len ≤ s.width := by
          rw [width, ← length]
          split <;> omega
        obtain ⟨s', row, paints⟩ := drawRow_paints fits narrow below fun i hi => wanted i hi j hj
        exact ⟨s', row, paints.congr fun x _ y _ => ⟨fun part => ⟨part, by omega⟩, And.left⟩⟩
      · -- the rectangle begins behind the last column
        have none : len = 0 := by
          rw [← length]
          split <;> omega
        subst none
        exact ⟨s, rfl, (Paints.refl s colour).congr (by simp)⟩
    · rw [if_neg below]
      exact ⟨s, rfl, (Paints.refl s colour).congr fun x _ y _ => ⟨False.elim, fun part => by omega⟩⟩
  obtain ⟨fb', run, paints⟩ := foldlM_paints ctl.h round
  refine ⟨fb', run, paints.congr fun x hx y hy => ?_⟩
  constructor
  · rintro ⟨j, hj, ⟨i, hi, rfl, rfl⟩, -⟩
    omega
  · rintro ⟨left, right, top, bottom⟩
    have inside : x - ctl.x < len := by
      rw [← length]
      split <;> omega
    exact ⟨y - ctl.y, by omega, ⟨x - ctl.x, inside, by omega, by omega⟩, by omega⟩

end VideoWrite

/-! ## Textures -/

/-- `TEXTURE_W` -/
def textureW : Nat := 8

/-- `TEXTURE_H` -/
def textureH : Nat := 8

/-- `NTEXTURE` -/
def nTexture : Nat := 16384

/-- The pixels of a texture, by its number, in the array of all textures. -/
def texture (textures : Nat → UInt32) (tx i : Nat) : UInt32 := textures (tx * (textureW * textureH) + i)

/-- `((bitmask >> (7 - x)) & 1) ? fg : bg` -/
def bitColour (bitmask : UInt8) (x : Nat) (fg bg : UInt32) : UInt32 :=
  if (bitmask.toNat >>> (7 - x)) &&& 1 = 1 then fg else bg

/-- `texture_fill` of texture `tx` -/
def textureFill (textures : Nat → UInt32) (tx : Nat) (top : Bool) (bits : Nat → UInt8) (fg bg : UInt32) :
    Nat → UInt32 := fun k =>
  let px := tx * (textureW * textureH)
  if px ≤ k ∧ k < px + textureW * textureH then
    let y := (k - px) / textureW
    let x := (k - px) % textureW
    bitColour (if top then bits (y + textureH) else bits y) x fg bg
  else textures k

/-- `font_load` -/
def fontLoad (font : Nat → UInt8) (textures : Nat → UInt32) : Nat → UInt32 :=
  (List.range 256).foldl (fun textures ch =>
    let bits := fun i => font (16 * ch + i)
    let textures := textureFill textures (ch * 2 + 1) false bits 0xffffff 0x000000
    textureFill textures (ch * 2 + 2) true bits 0xffffff 0x000000) textures

/-- A pixel of a character: the font has 16 bytes for it, one for a row. -/
def glyph (font : Nat → UInt8) (ch x y : Nat) : FBPixel :=
  fbPixel (bitColour (font (16 * ch + y)) x 0xffffff 0x000000)

section Textures

variable {textures : Nat → UInt32} {font bits : Nat → UInt8} {tx other i x y ch : Nat} {top : Bool} {fg bg : UInt32}

theorem textureFill_same (hx : x < 8) (hy : y < 8) : texture (textureFill textures tx top bits fg bg) tx (y * 8 + x) =
    bitColour (if top then bits (y + 8) else bits y) x fg bg := by
  unfold texture textureFill textureW textureH
  dsimp only
  rw [if_pos (by omega), Nat.add_sub_cancel_left, show (y * 8 + x) / 8 = y by omega, show (y * 8 + x) % 8 = x by omega]

theorem textureFill_other (hi : i < 64) (ne : other ≠ tx) :
    texture (textureFill textures tx top bits fg bg) other i = texture textures other i := by
  unfold texture textureFill textureW textureH
  dsimp only
  rw [if_neg (by omega)]

/-- The upper half of a character is the first of its textures, the lower half the second one. -/
theorem fontLoad_glyph (char : ch < 256) (hx : x < 8) (hy : y < 8) :
    fbPixel (texture (fontLoad font textures) (ch * 2 + 1) (y * 8 + x)) = glyph font ch x y ∧
      fbPixel (texture (fontLoad font textures) (ch * 2 + 2) (y * 8 + x)) = glyph font ch x (y + 8) := by
  unfold fontLoad glyph
  generalize 256 = n at char
  induction n with
  | zero => omega
  | succ n ih =>
    rw [List.range_succ, List.foldl_append, List.foldl_cons, List.foldl_nil]
    dsimp only
    rcases Nat.lt_succ_iff_lt_or_eq.1 char with before | rfl
    · obtain ⟨upper, lower⟩ := ih before
      rw [textureFill_other (by omega) (by omega), textureFill_other (by omega) (by omega),
        textureFill_other (by omega) (by omega), textureFill_other (by omega) (by omega)]
      exact ⟨upper, lower⟩
    · rw [textureFill_other (by omega) (by omega), textureFill_same hx hy, textureFill_same hx hy]
      exact ⟨rfl, rfl⟩

end Textures

/-! ## Sprites -/

/-- `struct sprite` as far as `fb_write` reads it. -/
structure Sprite where
  texture : Nat
  x : Nat
  y : Nat
  display : Nat

/-- A sprite with its fields cut to their width. -/
def mkSprite (texture x y display : Nat) : Sprite where
  texture := texture % 2 ^ 16
  x := x % 2 ^ 16
  y := y % 2 ^ 16
  display := display % 2 ^ 4

/-- `fb_t`: the current display and the pixels of the textures. -/
structure Fb where
  current : Nat
  textures : Nat → UInt32

/-- `fb_write` at offset 0: another display is shown. -/
def fbSelect (fb : Fb) (current : Nat) : Fb := if fb.current ≠ current then { fb with current } else fb

/-- `fb_write` at `SPRITE_BRK` -/
def fbSprites (fb : Fb) (vga : Raster FBPixel) (sprites : List Sprite) : Except Halt (Raster FBPixel) :=
  sprites.foldlM (fun vga sp =>
    if 0 < sp.texture ∧ sp.display = fb.current then
      if sp.texture < nTexture then
        videoWrite vga ⟨sp.x, sp.y, textureW, textureH, texture fb.textures sp.texture⟩
      else .error .outside
    else .ok vga) vga

@[simp] theorem fbSelect_current (fb : Fb) (current : Nat) : (fbSelect fb current).current = current := by
  unfold fbSelect
  split
  · rfl
  · next same => exact not_not.1 same

@[simp] theorem fbSelect_textures (fb : Fb) (current : Nat) : (fbSelect fb current).textures = fb.textures := by
  unfold fbSelect
  split <;> rfl

end OsLab.Kernel.Devices
