import BareKernel.Drivers.VideoLaw
import BareKernel.Links.Raster

/-! The text screen of `drivers/video-driver.c` in pixels: the bitmaps of the characters are
painted into the framebuffer. Without zoom, the screen below the first row always shows the
characters of the matrix in their colors, and nothing else. -/

namespace BareKernel.Video

open Function (update)
open Links

/-- The mode that the loader has set: 1024 pixels in a row, with three bytes or more for each. -/
structure Mode where
  framebuffer : ℕ
  pitch : ℕ
  bpp : ℕ
  colored : 24 ≤ bpp
  wide : 1024 * (bpp / 8) ≤ pitch

def Mode.raster (mode : Mode) : Raster where
  base := mode.framebuffer
  depth := mode.bpp / 8
  pitch := mode.pitch
  width := 1024
  colored := by have := mode.colored; omega
  wide := mode.wide

/-- The eight rows of the bitmap of each character, and behind the table what is there. -/
abbrev Font : Type := ℤ → ℕ → UInt8

def blanco : ℕ := 0xFFFFFF

/-- The pixels that are painted for a character. When the `i`-th row is painted, `y` has walked
down by as much again, so that every second row is left out. -/
def glyph (bitmap : ℕ → UInt8) (zoom x y color : ℕ) : List Dot :=
  (List.range 8).flatMap fun i =>
    let y := y + i * zoom
    (List.range 8).flatMap fun j =>
      let set := (bitmap i).toNat.testBit j
      (List.range zoom).flatMap fun dy => (List.range zoom).map fun dx =>
        (if set then color else 0, x + j * zoom + dx, y + i * zoom + dy)

/-- Rows of black pixels. -/
@[irreducible] def black (top bottom : ℕ) : List Dot :=
  (List.range (bottom - top)).flatMap fun i => (List.range 1024).map fun j => (0, j, top + i)

/-- The screen with the colors of the matrix and the memory of the framebuffer. -/
structure Display extends Screen where
  color : ℤ → ℤ → ℕ
  frame : Bytes

namespace Display

variable (mode : Mode) (font : Font)

def setCell (d : Display) (c : Cell) (num : ℤ) (color : ℕ) : Display :=
  ⟨d.toScreen.setCell c num, update d.color c.1 (update (d.color c.1) c.2 color), d.frame⟩

def clearScreen (d : Display) : Display :=
  ⟨d.toScreen.clearScreen, d.color, mode.raster.paint d.frame (black 16 768)⟩

def videoClear (d : Display) : Display :=
  ⟨d.toScreen.videoClear, (d.clearScreen mode).color, (d.clearScreen mode).frame⟩

def charVideo (d : Display) (num : ℤ) (isEndLine : Bool) (color : ℕ) : Display :=
  let d := if d.x ≤ borderX ∧ d.y < borderY then
      ⟨d.drawn isEndLine, d.color,
        mode.raster.paint d.frame (glyph (font num) d.zoom.toNat d.x.toNat d.y.toNat color)⟩
    else d
  if borderX - 8 ≤ d.x ∧ borderY - 16 ≤ d.y then d.videoClear mode else d

def nlVideo (d : Display) : Display :=
  if d.y < borderY - 16 * d.zoom then
    { d with aux := d.aux + movY * d.zoom, y := d.y + movY * d.zoom, x := 0 }
  else d.videoClear mode

def drawOver (d : Display) (isEndLine : Bool) : Display :=
  let d := (d.setCell d.cell 0 blanco).charVideo mode font 0 isEndLine blanco
  { d with x := d.x - movX * d.zoom }

def deleteVideo (d : Display) : Display :=
  if d.y ≤ movY ∧ d.x ≤ 0 then d
  else if movX * d.zoom ≤ d.x then drawOver mode font { d with x := d.x - movX * d.zoom } true
  else
    let d := { d with x := borderX - movX * d.zoom, y := d.y - movY * d.zoom, aux := d.aux - movY * d.zoom }
    if d.y < movY then { d with y := movY, aux := movY, x := 0 } else d.drawOver mode font false

def put (color : ℕ) (d : Display) (num : ℤ) : Display :=
  if num = Screen.newline then d.nlVideo mode
  else if num = Screen.backspace then d.deleteVideo mode font
  else
    let d := { d with y := d.aux }
    (d.setCell d.cell num color).charVideo mode font num true color

def imprimirVideo (d : Display) (palabra : List ℤ) (color : ℕ) : Display := palabra.foldl (put mode font color) d

def imprimirPrograma (d : Display) (palabra : List ℤ) : Display :=
  let frame := mode.raster.paint d.frame (black 0 16)
  let t := imprimirVideo mode font ⟨d.label, d.color, frame⟩ (Screen.foreground ++ palabra) blanco
  { t with x := d.x, y := d.y, aux := d.aux }

end Display

inductive DisplayCall where
  | imprimirVideo (palabra : List ℤ) (color : ℕ)
  | nlVideo
  | imprimirPrograma (palabra : List ℤ)
  | videoClear

def Display.call (mode : Mode) (font : Font) (d : Display) : DisplayCall → Display
  | .imprimirVideo palabra color => d.imprimirVideo mode font palabra color
  | .nlVideo => d.nlVideo mode
  | .imprimirPrograma palabra => d.imprimirPrograma mode font palabra
  | .videoClear => d.videoClear mode

/-- The calls without those for the zoom, from a cleared screen on. -/
def display (mode : Mode) (font : Font) : System Display DisplayCall where
  init d := ∃ color frame, d = Display.videoClear mode ⟨Screen.initial, color, frame⟩
  step d a t := t = d.call mode font a

variable {mode : Mode} {font : Font} {d e : Display} {s : Screen} {num : ℤ} {color i j x y x' y' : ℕ} {m : Bytes}
  {bitmap : ℕ → UInt8}

/-! ### The text screen below -/

theorem charVideo_toScreen (d : Display) (num : ℤ) (isEndLine : Bool) (color : ℕ) :
    (d.charVideo mode font num isEndLine color).toScreen = d.toScreen.charVideo isEndLine := by
  unfold Display.charVideo Screen.charVideo
  by_cases hdraw : d.x ≤ borderX ∧ d.y < borderY
  · simp only [if_pos hdraw]
    split <;> rfl
  · simp only [if_neg hdraw]
    split <;> rfl

theorem nlVideo_toScreen (d : Display) : (d.nlVideo mode).toScreen = d.toScreen.nlVideo := by
  unfold Display.nlVideo Screen.nlVideo
  split <;> rfl

theorem drawOver_toScreen (d : Display) (isEndLine : Bool) :
    (d.drawOver mode font isEndLine).toScreen = (d.toScreen.drawOver isEndLine).1 := by
  have hchar : ((d.setCell d.cell 0 blanco).charVideo mode font 0 isEndLine blanco).toScreen =
      (d.toScreen.setCell d.cell 0).charVideo isEndLine := charVideo_toScreen ..
  unfold Display.drawOver Screen.drawOver
  dsimp only
  rw [hchar]

theorem deleteVideo_toScreen (d : Display) : (d.deleteVideo mode font).toScreen = d.toScreen.deleteVideo.1 := by
  unfold Display.deleteVideo Screen.deleteVideo
  split
  · rfl
  split
  · exact drawOver_toScreen ..
  dsimp only
  split
  · rfl
  · exact drawOver_toScreen ..

theorem put_toScreen (color : ℕ) (d : Display) (num : ℤ) :
    (d.put mode font color num).toScreen = (d.toScreen.put num).1 := by
  unfold Display.put Screen.put
  split
  · exact nlVideo_toScreen d
  split
  · exact deleteVideo_toScreen d
  · exact charVideo_toScreen ..

/-! ### Pixels -/

theorem mem_black {top bottom : ℕ} {p : Dot} :
    p ∈ black top bottom ↔ ∃ i < bottom - top, ∃ j < 1024, p = (0, j, top + i) := by
  simp [black, eq_comm]

theorem black_width {top bottom : ℕ} : ∀ p ∈ black top bottom, p.2.1 < 1024 := by
  intro p hp
  obtain ⟨i, -, j, hj, rfl⟩ := mem_black.mp hp
  exact hj

theorem pixel_black {top bottom : ℕ} (hx : x < 1024) (htop : top ≤ y) (hbottom : y < bottom) :
    mode.raster.pixel (mode.raster.paint m (black top bottom)) x y = 0 := by
  refine Raster.pixel_paint (c := 0) black_width hx ⟨(0, x, y), ?_, rfl⟩ fun p hp _ => ?_
  · refine mem_black.mpr ⟨y - top, by omega, x, hx, ?_⟩
    rw [Nat.add_sub_cancel' htop]
  · obtain ⟨i, -, j, -, rfl⟩ := mem_black.mp hp
    rfl

/-- Without zoom. -/
theorem mem_glyph {p : Dot} : p ∈ glyph bitmap 1 x y color ↔
    ∃ i < 8, ∃ j < 8, p = (if (bitmap i).toNat.testBit j then color else 0, x + j, y + 2 * i) := by
  have hrow (i : ℕ) : y + i + i = y + 2 * i := by omega
  simp only [glyph, List.mem_flatMap, List.mem_map, List.mem_range, Nat.lt_one_iff, exists_eq_left, Nat.mul_one,
    Nat.add_zero, hrow, @eq_comm _ p]

theorem pixel_glyph (hx : x + 8 ≤ 1024) (hi : i < 8) (hj : j < 8) :
    mode.raster.pixel (mode.raster.paint m (glyph bitmap 1 x y color)) (x + j) (y + 2 * i) =
      if (bitmap i).toNat.testBit j then color % 256 ^ 3 else 0 := by
  have hdots : mode.raster.pixel (mode.raster.paint m (glyph bitmap 1 x y color)) (x + j) (y + 2 * i) =
      (if (bitmap i).toNat.testBit j then color else 0) % 256 ^ 3 := by
    refine Raster.pixel_paint (fun p hp => ?_) (show x + j < 1024 by omega)
      ⟨_, mem_glyph.mpr ⟨i, hi, j, hj, rfl⟩, rfl⟩ fun p hp he => ?_
    · obtain ⟨i', -, j', hj', rfl⟩ := mem_glyph.mp hp
      show x + j' < 1024
      omega
    · obtain ⟨i', -, j', -, rfl⟩ := mem_glyph.mp hp
      obtain ⟨hcol, hrow⟩ := Prod.mk.inj he
      obtain rfl : j' = j := by omega
      obtain rfl : i' = i := by omega
      rfl
  rw [hdots]
  split <;> rfl

theorem pixel_beside_glyph (hx : x + 8 ≤ 1024) (hx' : x' < 1024)
    (hout : ¬∃ i < 8, ∃ j < 8, x' = x + j ∧ y' = y + 2 * i) :
    mode.raster.pixel (mode.raster.paint m (glyph bitmap 1 x y color)) x' y' = mode.raster.pixel m x' y' := by
  refine Raster.pixel_paint_of_notMem (fun p hp => ?_) hx' fun p hp he => ?_
  · obtain ⟨i', -, j', hj', rfl⟩ := mem_glyph.mp hp
    show x + j' < 1024
    omega
  · obtain ⟨i', hi', j', hj', rfl⟩ := mem_glyph.mp hp
    exact hout ⟨i', hi', j', hj', Prod.mk.inj he⟩

/-! ### The characters of the matrix -/

/-- The color of a pixel of the character `num`. -/
def dot (bitmap : ℕ → UInt8) (color x y : ℕ) : ℕ :=
  if y % 2 = 0 ∧ (bitmap (y % 16 / 2)).toNat.testBit (x % 8) = true then color % 256 ^ 3 else 0

/-- What the matrix says about a pixel. -/
def Display.expected (font : Font) (d : Display) (x y : ℕ) : ℕ :=
  dot (font (d.matrix (y / 16 : ℕ) (x / 8 : ℕ))) (d.color (y / 16 : ℕ) (x / 8 : ℕ)) x y

/-- Below the first row, the screen shows the matrix. -/
def Shows (mode : Mode) (font : Font) (d : Display) : Prop :=
  ∀ x y, x < 1024 → 16 ≤ y → y < 768 → mode.raster.pixel d.frame x y = d.expected font x y

/-- It does not matter where the cursor is. -/
theorem Shows.congr (h : Shows mode font d) (hm : e.matrix = d.matrix) (hc : e.color = d.color)
    (hf : e.frame = d.frame) : Shows mode font e := by
  intro x y hx hy hy'
  unfold Display.expected
  rw [hm, hc, hf]
  exact h x y hx hy hy'

theorem dot_blank (hblank : ∀ i, bitmap i = 0) : dot bitmap color x y = 0 := by simp [dot, hblank]

theorem videoClear_frame (d : Display) :
    (d.videoClear mode).frame = mode.raster.paint d.frame (black 16 768) := rfl

theorem shows_videoClear (hblank : ∀ i, font 0 i = 0) (d : Display) : Shows mode font (d.videoClear mode) := by
  intro x y hx hy hy'
  have hcleared : (d.videoClear mode).matrix (y / 16 : ℕ) (x / 8 : ℕ) = 0 := by
    refine if_pos ?_
    unfold borderX borderY movX movY
    omega
  rw [videoClear_frame, pixel_black hx hy hy', Display.expected, hcleared, dot_blank hblank]

theorem expected_setCell (d : Display) (i j : ℕ) (num : ℤ) (color x y : ℕ) :
    (d.setCell (i, j) num color).expected font x y =
      if y / 16 = i ∧ x / 8 = j then dot (font num) color x y else d.expected font x y := by
  unfold Display.expected Display.setCell Screen.setCell
  by_cases hi : y / 16 = i
  · by_cases hj : x / 8 = j
    · simp [hi, hj]
    · have hj' : ((x / 8 : ℕ) : ℤ) ≠ j := fun he => hj (Int.ofNat_inj.mp he)
      simp only [hi, hj, and_false, if_false, Function.update_self, Function.update_of_ne hj']
  · have hi' : ((y / 16 : ℕ) : ℤ) ≠ i := fun he => hi (Int.ofNat_inj.mp he)
    simp only [hi, false_and, if_false, Function.update_of_ne hi']

/-- Without zoom, the cursor stands at a cell of the matrix. -/
theorem OnScreen.place (h : OnScreen s) (hz : s.zoom = 1) :
    ∃ i j : ℕ, i < 48 ∧ j < 128 ∧ s.x = (8 * j : ℕ) ∧ s.y = (16 * i : ℕ) ∧ s.cell = ((i : ℤ), (j : ℤ)) := by
  cases h with
  | zoomed hzoom => omega
  | plain _ hsame hgrid hlow hhigh =>
    refine ⟨(s.y / 16).toNat, (s.x / 8).toNat, by omega, by omega, by omega, by omega, ?_⟩
    unfold Screen.cell movX movY
    rw [hz, Int.tdiv_one, Int.tdiv_one, Int.tdiv_eq_ediv_of_nonneg (by omega),
      Int.tdiv_eq_ediv_of_nonneg (by omega), Int.toNat_of_nonneg (by omega), Int.toNat_of_nonneg (by omega)]

theorem drawn_matrix (s : Screen) (isEndLine : Bool) : (s.drawn isEndLine).matrix = s.matrix := by
  unfold Screen.drawn
  dsimp only
  split <;> rfl

/-- A character that is put into the matrix and painted is shown, and the rest as before. -/
theorem Shows.glyph (h : Shows mode font d) (i : ℕ) (hj : j < 128) (num : ℤ) (color : ℕ)
    (hm : e.matrix = (d.setCell (i, j) num color).matrix) (hc : e.color = (d.setCell (i, j) num color).color)
    (hf : e.frame = mode.raster.paint d.frame (glyph (font num) 1 (8 * j) (16 * i) color)) : Shows mode font e := by
  intro x y hx hy hy'
  have hexp : e.expected font x y = (d.setCell (i, j) num color).expected font x y := by
    unfold Display.expected
    rw [hm, hc]
  rw [hexp, expected_setCell, hf]
  have hcell : 8 * j + 8 ≤ 1024 := by omega
  by_cases hin : y / 16 = i ∧ x / 8 = j
  · rw [if_pos hin]
    by_cases heven : y % 2 = 0
    · have hpixel : mode.raster.pixel (mode.raster.paint d.frame (Video.glyph (font num) 1 (8 * j) (16 * i) color))
          (8 * j + x % 8) (16 * i + 2 * (y % 16 / 2)) =
            if (font num (y % 16 / 2)).toNat.testBit (x % 8) then color % 256 ^ 3 else 0 :=
        pixel_glyph hcell (by omega) (by omega)
      rw [show 8 * j + x % 8 = x by omega, show 16 * i + 2 * (y % 16 / 2) = y by omega] at hpixel
      rw [hpixel, dot]
      simp [heven]
    · -- the rows between those of the bitmap stay black
      rw [pixel_beside_glyph hcell hx (by rintro ⟨k, -, l, -, -, rfl⟩; omega), h x y hx hy hy', Display.expected, dot,
        dot, if_neg fun he => heven he.1, if_neg fun he => heven he.1]
  · rw [if_neg hin, pixel_beside_glyph hcell hx (by rintro ⟨k, hk, l, hl, rfl, rfl⟩; omega)]
    exact h x y hx hy hy'

theorem Shows.draw (hblank : ∀ i, font 0 i = 0) (h : Shows mode font d) (hon : OnScreen d.toScreen) (hz : d.zoom = 1)
    (num : ℤ) (isEndLine : Bool) (color : ℕ) :
    Shows mode font ((d.setCell d.cell num color).charVideo mode font num isEndLine color) := by
  obtain ⟨i, j, hi, hj, hx, hy, hcell⟩ := hon.place hz
  have hdraw : (d.setCell d.cell num color).x ≤ borderX ∧ (d.setCell d.cell num color).y < borderY := by
    unfold borderX borderY
    show d.x ≤ 1024 ∧ d.y < 768
    omega
  unfold Display.charVideo
  dsimp only
  rw [if_pos hdraw]
  split
  · exact shows_videoClear hblank _
  · refine h.glyph i hj num color ?_ ?_ ?_
    · rw [← hcell]
      exact drawn_matrix ..
    · rw [← hcell]
    · show mode.raster.paint d.frame (Video.glyph _ d.zoom.toNat d.x.toNat d.y.toNat color) = _
      rw [hz, hx, hy]
      rfl

/-! ### The calls -/

theorem Shows.nlVideo (hblank : ∀ i, font 0 i = 0) (h : Shows mode font d) : Shows mode font (d.nlVideo mode) := by
  unfold Display.nlVideo
  split
  · exact h.congr rfl rfl rfl
  · exact shows_videoClear hblank d

theorem Shows.drawOver (hblank : ∀ i, font 0 i = 0) (h : Shows mode font d) (hon : OnScreen d.toScreen)
    (hz : d.zoom = 1) (isEndLine : Bool) : Shows mode font (d.drawOver mode font isEndLine) :=
  (h.draw hblank hon hz 0 isEndLine blanco).congr rfl rfl rfl

theorem Shows.deleteVideo (hblank : ∀ i, font 0 i = 0) (h : Shows mode font d) (hon : OnScreen d.toScreen)
    (hz : d.zoom = 1) : Shows mode font (d.deleteVideo mode font) := by
  have hbelow : ¬d.Below := fun hb => by have := hb.1; omega
  unfold Display.deleteVideo
  split
  · exact h
  split
  case isTrue hback =>
    have hbefore := (hon.before hback).1
    have hmoved : Shows mode font { d with x := d.x - movX * d.zoom } := h.congr rfl rfl rfl
    exact hmoved.drawOver hblank hbefore hz true
  case isFalse hback =>
    dsimp only
    split
    · exact h.congr rfl rfl rfl
    · rename_i htop
      have habove := (hon.above hbelow (Int.not_le.mp hback) (Int.not_lt.mp htop)).1
      have hmoved : Shows mode font
          { d with x := borderX - movX * d.zoom, y := d.y - movY * d.zoom, aux := d.aux - movY * d.zoom } :=
        h.congr rfl rfl rfl
      exact hmoved.drawOver hblank habove hz false

theorem Shows.put (hblank : ∀ i, font 0 i = 0) (h : Shows mode font d) (hon : OnScreen d.toScreen) (hz : d.zoom = 1)
    (color : ℕ) (num : ℤ) : Shows mode font (d.put mode font color num) := by
  unfold Display.put
  split
  · exact h.nlVideo hblank
  split
  · exact h.deleteVideo hblank hon hz
  · have hsame : { d with y := d.aux } = d := congrArg (fun y => { d with y := y }) hon.same.symm
    rw [hsame]
    exact h.draw hblank hon hz num true color

/-- What every call keeps without zoom. -/
structure Display.Sound (mode : Mode) (font : Font) (d : Display) : Prop where
  on : OnScreen d.toScreen
  plain : d.zoom = 1
  shows : Shows mode font d

theorem Display.Sound.put (hblank : ∀ i, font 0 i = 0) (h : d.Sound mode font) (color : ℕ) (num : ℤ) :
    (d.put mode font color num).Sound mode font := by
  have hbelow : ¬d.Below := fun hb => by have := hb.1; have := h.plain; omega
  refine ⟨?_, ?_, h.shows.put hblank h.on h.plain color num⟩
  · rw [put_toScreen]
    exact (h.on.put fun _ => hbelow).1
  · rw [put_toScreen, put_zoom]
    exact h.plain

theorem Display.Sound.imprimirVideo (hblank : ∀ i, font 0 i = 0) (h : d.Sound mode font) (palabra : List ℤ)
    (color : ℕ) : (d.imprimirVideo mode font palabra color).Sound mode font := by
  induction palabra generalizing d with
  | nil => exact h
  | cons num palabra ih => exact ih (h.put hblank color num)

/-- The label is painted in the first row. -/
theorem Display.Sound.label (h : d.Sound mode font) :
    (⟨d.label, d.color, mode.raster.paint d.frame (black 0 16)⟩ : Display).Sound mode font := by
  refine ⟨h.on.label, h.plain, fun x y hx hy hy' => ?_⟩
  have hkept : mode.raster.pixel (mode.raster.paint d.frame (black 0 16)) x y = mode.raster.pixel d.frame x y := by
    refine Raster.pixel_paint_of_notMem black_width hx fun p hp he => ?_
    obtain ⟨i, hi, j, -, rfl⟩ := mem_black.mp hp
    have := (Prod.mk.inj he).2
    omega
  exact hkept.trans (h.shows x y hx hy hy')

theorem Display.Sound.call (hblank : ∀ i, font 0 i = 0) (h : d.Sound mode font) (a : DisplayCall) :
    (d.call mode font a).Sound mode font := by
  cases a with
  | imprimirVideo palabra color => exact h.imprimirVideo hblank palabra color
  | nlVideo =>
    refine ⟨?_, ?_, h.shows.nlVideo hblank⟩
    · rw [Display.call, nlVideo_toScreen]
      exact h.on.nlVideo
    · rw [Display.call, nlVideo_toScreen]
      exact (put_zoom d.toScreen Screen.newline).trans h.plain
  | videoClear => exact ⟨h.on.videoClear, h.plain, shows_videoClear hblank d⟩
  | imprimirPrograma palabra =>
    have hprinted := h.label.imprimirVideo hblank (Screen.foreground ++ palabra) blanco
    unfold Display.call Display.imprimirPrograma
    dsimp only
    generalize Display.imprimirVideo mode font _ _ blanco = t at hprinted ⊢
    refine ⟨?_, hprinted.plain, hprinted.shows.congr rfl rfl rfl⟩
    cases h.on with
    | plain hz hsame hgrid hlow hhigh hlast => exact .plain hprinted.plain hsame hgrid hlow hhigh hlast
    | zoomed hz => exact absurd h.plain (by omega)

/-- In every run without zoom, each pixel below the first row is that of the character which the
matrix has there, in the color in which it was printed, or black. -/
theorem screen_shows_matrix (hblank : ∀ i, font 0 i = 0) (hrun : (display mode font).Reach (fun _ _ => True) d)
    (hx : x < 1024) (hy : 16 ≤ y) (hy' : y < 768) : mode.raster.pixel d.frame x y = d.expected font x y := by
  have hsound : d.Sound mode font := hrun.invariant
    (fun d ⟨color, frame, hd⟩ => by
      rw [hd]
      exact ⟨initial_onScreen.videoClear, rfl, shows_videoClear hblank _⟩)
    fun d a e h _ hstep => by
      rw [show e = d.call mode font a from hstep]
      exact h.call hblank a
  exact hsound.shows x y hx hy hy'

def plainMode : Mode := ⟨0xFD000000, 3072, 24, by decide, by decide⟩

/-- The bitmaps of the blank characters and of `A`. -/
def letterA : Font := fun num i => if num = 65 then [0x0C, 0x1E, 0x33, 0x33, 0x3F, 0x33, 0x33, 0x00].getD i 0 else 0

def typedA : Display :=
  (Display.videoClear plainMode ⟨Screen.initial, fun _ _ => 0, fun _ => 0⟩).call plainMode letterA
    (.imprimirVideo [65] blanco)

/-- The top of the letter. -/
theorem screen_shows_matrix_letterA :
    (plainMode.raster.pixel typedA.frame 1 16, plainMode.raster.pixel typedA.frame 2 16) = (0, blanco) := by
  have hreach : (display plainMode letterA).Reach (fun _ _ => True) typedA :=
    .step (.init ⟨fun _ _ => 0, fun _ => 0, rfl⟩) trivial rfl
  have hshows (x : ℕ) (hx : x < 1024) :=
    screen_shows_matrix (fun _ => rfl) hreach hx (show 16 ≤ 16 by decide) (by decide)
  rw [hshows 1 (by decide), hshows 2 (by decide)]
  decide +kernel

end BareKernel.Video
