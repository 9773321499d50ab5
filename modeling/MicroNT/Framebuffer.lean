import Mathlib.Data.List.TakeWhile
import MicroNT.Ntdef

/-! # Drawing on the framebuffer (`vga.cpp`)

Every routine cuts what it draws to the screen by a test of its own, in 32-bit arithmetic. -/

namespace MicroNT.VGA

/-! ## The framebuffer -/

/-- A framebuffer of `width` by `height` pixels, with `stride` pixels from one row to the
next. -/
structure Framebuffer where
  width : u32
  height : u32
  stride : u32
  bgr : Bool
  wide : 1 ≤ width.toNat ∧ width.toNat ≤ stride.toNat
  high : 1 ≤ height.toNat

/-- A pixel that is written: its column and row, and the place of its word. -/
structure Write where
  col : Nat
  row : u32
  offset : Nat
  value : u32

variable (fb : Framebuffer)

/-- `s_fb + row * s_fb_stride + col`, where the product has 32 bits. -/
def Framebuffer.put (col : Nat) (row value : u32) : Write :=
  ⟨col, row, (row * fb.stride).toNat + col, value⟩

/-- The pixel is one of the screen, and unless the 32-bit product may wrap, its word is the
pixel's. -/
structure Framebuffer.Shows (w : Write) : Prop where
  col : w.col < fb.width.toNat
  row : w.row.toNat < fb.height.toNat
  place : fb.height.toNat * fb.stride.toNat ≤ 2 ^ 32 →
    w.offset = w.row.toNat * fb.stride.toNat + w.col

def toPixel (rgb : u32) : u32 :=
  let r : u8 := (rgb >>> 16).setWidth 8
  let g : u8 := (rgb >>> 8).setWidth 8
  let b : u8 := rgb.setWidth 8
  if fb.bgr then b.setWidth 32 ||| (g.setWidth 32 <<< 8) ||| (r.setWidth 32 <<< 16)
  else r.setWidth 32 ||| (g.setWidth 32 <<< 8) ||| (b.setWidth 32 <<< 16)

/-! ## Rectangles -/

/-- An extent `w` from `x` on, cut at `size`. The sum may wrap. -/
def clip (x w size : u32) : u32 := if x + w > size then size - x else w

def fillRect (x y w h rgb : u32) : List Write :=
  if x ≥ fb.width ∨ y ≥ fb.height then []
  else
    (List.range (clip y h fb.height).toNat).flatMap fun yy =>
      (List.range (clip x w fb.width).toNat).map fun xx =>
        fb.put (x.toNat + xx) (y + BitVec.ofNat 32 yy) (toPixel fb rgb)

/-! ## Text -/

/-- The text surface: `s_origin_x`, `s_origin_y`, `s_cols` and `s_rows`. -/
structure TextGrid where
  originX : u32
  originY : u32
  cols : u32
  rows : u32

abbrev CHAR_W : u32 := 8
abbrev CHAR_H : u32 := 16

def resetTextSurface (x y w h : u32) : TextGrid :=
  let cols := if w / CHAR_W > 256 then 256 else w / CHAR_W
  let rows := if h / CHAR_H > 64 then 64 else h / CHAR_H
  { originX := x
    originY := y
    cols := if cols < 20 then 20 else cols
    rows := if rows < 8 then 8 else rows }

/-- The surface in the window that `StartDesktop` draws. -/
def startDesktop : TextGrid :=
  let winX : u32 := if fb.width ≥ 1280 then 210 else 96
  let winY : u32 := if fb.height ≥ 900 then 540 else 360
  let winW : u32 := if fb.width ≥ 1280 then 760 else fb.width - winX - 24
  let winH : u32 := if fb.height ≥ 900 then 360 else 290
  let clientX := winX + 8
  let clientY := winY + 40
  let clientW := if winW > 16 then winW - 16 else winW
  let clientH := if winH > 80 then winH - 80 else winH
  resetTextSurface clientX clientY clientW clientH

variable (G : TextGrid)

/-- The character `ch` at the cell `(cx, cy)`; row `r` of its glyph is `font ch r`. -/
def drawChar (font : u8 → Nat → u8) (cx cy : u32) (ch : u8) (fg bg : u32) : List Write :=
  if cx ≥ G.cols ∨ cy ≥ G.rows then []
  else
    let px := G.originX + cx * CHAR_W
    let py := G.originY + cy * CHAR_H
    ((List.range 16).takeWhile fun r => py + BitVec.ofNat 32 r < fb.height).flatMap fun r =>
      ((List.range 8).filter fun c => px + BitVec.ofNat 32 c < fb.width).map fun c =>
        fb.put (px.toNat + c) (py + BitVec.ofNat 32 r)
          (if font ch r &&& (0x80 >>> c) ≠ 0 then fg else bg)

/-- Two lines below the character at the cursor. -/
def drawCursorShape (row col : u32) : List Write :=
  if row ≥ G.rows ∨ col ≥ G.cols then []
  else
    let px := G.originX + col * CHAR_W
    let py := G.originY + row * CHAR_H + CHAR_H - 2
    ((List.range 2).takeWhile fun r => py + BitVec.ofNat 32 r < fb.height).flatMap fun r =>
      (List.range 8).map fun c =>
        fb.put (px.toNat + c) (py + BitVec.ofNat 32 r) (toPixel fb 0xAAAAAA)

/-! ## The mouse cursor -/

/-- The mouse cursor, with the pixels below it in rows of 24. -/
structure Mouse where
  visible : Bool
  x : u32
  y : u32
  backing : Nat → u32

def mouseShape : List String :=
  ["X...........", "XX..........", "XOX.........", "XOOX........", "XOOOX.......", "XOOOOX......",
    "XOOOOOX.....", "XOOOOOOX....", "XOOOOOOOX...", "XOOOOXXXX...", "XOOXOX......", "XOX..OX.....",
    "XX...OX.....", "X.....OX....", "......OX....", ".......X...."]

def shapeAt (r c : Nat) : Char := (mouseShape.getD r "").toList.getD c '.'

/-- Each dot of the shape is a square of two by two pixels. -/
def drawMouseCursor (x y : u32) : List Write :=
  (List.range 16).flatMap fun r => (List.range 12).flatMap fun c =>
    if shapeAt r c = '.' then []
    else
      fillRect fb (x + BitVec.ofNat 32 c * 2) (y + BitVec.ofNat 32 r * 2) 2 2
        (if shapeAt r c = 'X' then 0x000000 else 0xFFFFFF)

def restoreMouseCursor (m : Mouse) : List Write :=
  if !m.visible then []
  else
    ((List.range 32).takeWhile fun y => m.y + BitVec.ofNat 32 y < fb.height).flatMap fun y =>
      ((List.range 24).takeWhile fun x => m.x + BitVec.ofNat 32 x < fb.width).map fun x =>
        let col := m.x + BitVec.ofNat 32 x
        let row := m.y + BitVec.ofNat 32 y
        ⟨col.toNat, row, (row * fb.stride + col).toNat, m.backing (y * 24 + x)⟩

/-- The pixels below the cursor, and 0 for those that are not on the screen. Nothing is
written to the screen. -/
def saveMouseCursor (pixels : Nat → u32) (x0 y0 : u32) : Nat → u32 := fun k =>
  let col := x0 + BitVec.ofNat 32 (k % 24)
  let row := y0 + BitVec.ofNat 32 (k / 24)
  if col < fb.width ∧ row < fb.height then pixels (row * fb.stride + col).toNat else 0

def store (pixels : Nat → u32) (w : Write) : Nat → u32 := Function.update pixels w.offset w.value

/-- What is written on the way, and the cursor at its new place. -/
def moveMouseCursor (m : Mouse) (pixels : Nat → u32) (x y : u32) : List Write × Mouse :=
  let restored := restoreMouseCursor fb m
  let maxX := if fb.width > 24 then fb.width - 24 else 0
  let maxY := if fb.height > 32 then fb.height - 32 else 0
  let x := if x > maxX then maxX else x
  let y := if y > maxY then maxY else y
  (restored ++ drawMouseCursor fb x y,
    { visible := true
      x := x
      y := y
      backing := saveMouseCursor fb (restored.foldl store pixels) x y })

/-! ## Where the drawing goes -/

section

variable {fb : Framebuffer} {x y w h rgb size row value : u32} {col : Nat} {wr : Write}

theorem row_lt {a b s : Nat} (h : a < b) : a * s + s ≤ b * s := by
  have step := Nat.mul_le_mul_right s h
  rwa [Nat.succ_mul] at step

theorem put_shows (inside : col < fb.width.toNat) (high : row < fb.height) :
    fb.Shows (fb.put col row value) := by
  refine ⟨inside, high, fun small => ?_⟩
  have wide := fb.wide
  have last := row_lt (s := fb.stride.toNat) (BitVec.lt_def.mp high)
  show (row * fb.stride).toNat + col = row.toNat * fb.stride.toNat + col
  rw [BitVec.toNat_mul, Nat.mod_eq_of_lt (by omega)]

/-! ## Rectangles -/

/-- What `FillRect` can be asked to draw: nothing on the screen, nothing at all, or an
extent whose end is a 32-bit number in both directions. -/
def Framebuffer.Clips (fb : Framebuffer) (x y w h : u32) : Prop :=
  fb.width ≤ x ∨ fb.height ≤ y ∨ w = 0 ∨ h = 0 ∨
    (x.toNat + w.toNat < 2 ^ 32 ∧ y.toNat + h.toNat < 2 ^ 32)

instance (fb : Framebuffer) (x y w h : u32) : Decidable (fb.Clips x y w h) :=
  inferInstanceAs (Decidable (_ ∨ _))

/-- The pixels drawn are the ones of the rectangle that are on the screen. -/
def Framebuffer.Paints (fb : Framebuffer) (x y w h : u32) (ws : List Write) : Prop :=
  ∀ X Y : Nat, (∃ wr ∈ ws, wr.col = X ∧ wr.row.toNat = Y) ↔
    ((x.toNat ≤ X ∧ X < x.toNat + w.toNat) ∧ (y.toNat ≤ Y ∧ Y < y.toNat + h.toNat)) ∧
      X < fb.width.toNat ∧ Y < fb.height.toNat

theorem clip_toNat (start : x < size) (fits : x.toNat + w.toNat < 2 ^ 32) :
    (clip x w size).toNat = min w.toNat (size.toNat - x.toNat) := by
  rw [clip]
  split <;> bv_omega

/-- An extent that wraps is not cut. -/
theorem clip_wraps (start : x < size) (wraps : 2 ^ 32 ≤ x.toNat + w.toNat) :
    clip x w size = w := by
  rw [clip, if_neg]
  bv_omega

theorem clip_pos (start : x < size) (some_ : w ≠ 0) : 0 < (clip x w size).toNat := by
  rw [clip]
  split <;> bv_omega

theorem mem_fillRect (hx : x < fb.width) (hy : y < fb.height) :
    wr ∈ fillRect fb x y w h rgb ↔ ∃ yy < (clip y h fb.height).toNat,
      ∃ xx < (clip x w fb.width).toNat,
        wr = fb.put (x.toNat + xx) (y + BitVec.ofNat 32 yy) (toPixel fb rgb) := by
  have onScreen : ¬ (x ≥ fb.width ∨ y ≥ fb.height) := by bv_omega
  simp only [fillRect, if_neg onScreen, List.mem_flatMap, List.mem_map, List.mem_range, eq_comm]

theorem fillRect_off (off : x ≥ fb.width ∨ y ≥ fb.height) : fillRect fb x y w h rgb = [] :=
  if_pos off

/-- Nothing is drawn of a rectangle that has no pixel on the screen. -/
theorem fillRect_nothing (rgb : u32) (nothing : fb.width ≤ x ∨ fb.height ≤ y ∨ w = 0 ∨ h = 0) :
    fillRect fb x y w h rgb = [] ∧ fb.Paints x y w h [] := by
  have none (X Y : Nat) : ¬ ∃ wr ∈ ([] : List Write), wr.col = X ∧ wr.row.toNat = Y := by
    rintro ⟨wr, mem, -⟩
    exact absurd mem List.not_mem_nil
  constructor
  · by_cases off : x ≥ fb.width ∨ y ≥ fb.height
    case pos => exact fillRect_off off
    case neg =>
      have extent (x size : u32) (start : x < size) : (clip x 0 size).toNat = 0 := by
        rw [clip_toNat start (show x.toNat + (0 : u32).toNat < 2 ^ 32 from x.isLt)]
        exact Nat.zero_min _
      refine List.eq_nil_iff_forall_not_mem.mpr fun wr mem => ?_
      obtain ⟨yy, hyy, xx, hxx, -⟩ := (mem_fillRect (by bv_omega) (by bv_omega)).mp mem
      rcases nothing with right | below | rfl | rfl
      · exact off (.inl right)
      · exact off (.inr below)
      · rw [extent _ _ (by bv_omega)] at hxx
        exact Nat.not_lt_zero _ hxx
      · rw [extent _ _ (by bv_omega)] at hyy
        exact Nat.not_lt_zero _ hyy
  · intro X Y
    refine iff_of_false (none X Y) ?_
    rintro ⟨⟨⟨left, right⟩, top, bottom⟩, inside, high⟩
    rcases nothing with off | off | rfl | rfl
    · bv_omega
    · bv_omega
    · exact absurd right (Nat.not_lt.mpr left)
    · exact absurd bottom (Nat.not_lt.mpr top)

/-- **A rectangle that does not wrap** is drawn exactly as far as it is on the screen. -/
theorem fillRect_paints (clips : fb.Clips x y w h) :
    (∀ wr ∈ fillRect fb x y w h rgb, fb.Shows wr) ∧
      fb.Paints x y w h (fillRect fb x y w h rgb) := by
  by_cases nothing : fb.width ≤ x ∨ fb.height ≤ y ∨ w = 0 ∨ h = 0
  case pos =>
    obtain ⟨empty, paints⟩ := fillRect_nothing rgb nothing
    rw [empty]
    exact ⟨fun wr mem => absurd mem List.not_mem_nil, paints⟩
  case neg =>
    have whole : x.toNat + w.toNat < 2 ^ 32 ∧ y.toNat + h.toNat < 2 ^ 32 := by
      simp only [not_or] at nothing
      rcases clips with off | off | zero | zero | whole
      · exact absurd off nothing.1
      · exact absurd off nothing.2.1
      · exact absurd zero nothing.2.2.1
      · exact absurd zero nothing.2.2.2
      · exact whole
    have hx : x < fb.width := by bv_omega
    have hy : y < fb.height := by bv_omega
    have wide := clip_toNat hx whole.1
    have high := clip_toNat hy whole.2
    have row (yy : Nat) (h : yy < (clip y h fb.height).toNat) :
        (y + BitVec.ofNat 32 yy).toNat = y.toNat + yy := by bv_omega
    rw [BitVec.lt_def] at hx hy
    constructor
    · intro wr mem
      obtain ⟨yy, hyy, xx, hxx, rfl⟩ := (mem_fillRect hx hy).mp mem
      refine put_shows (by omega) ?_
      rw [BitVec.lt_def, row yy hyy]
      omega
    · intro X Y
      constructor
      · rintro ⟨wr, mem, rfl, rfl⟩
        obtain ⟨yy, hyy, xx, hxx, rfl⟩ := (mem_fillRect hx hy).mp mem
        have same := row yy hyy
        simp only [Framebuffer.put]
        omega
      · rintro ⟨⟨⟨left, right⟩, top, bottom⟩, inside, above⟩
        have hyy : Y - y.toNat < (clip y h fb.height).toNat := by omega
        refine ⟨_, (mem_fillRect hx hy).mpr ⟨Y - y.toNat, hyy, X - x.toNat, by omega, rfl⟩, ?_, ?_⟩
        · simp only [Framebuffer.put]
          omega
        · simp only [Framebuffer.put]
          rw [row _ hyy]
          omega

/-- **An extent that wraps** is drawn past the end of the screen. -/
theorem fillRect_spills (wraps : ¬ fb.Clips x y w h) :
    ∃ wr ∈ fillRect fb x y w h rgb, ¬ fb.Shows wr := by
  simp only [Framebuffer.Clips, not_or] at wraps
  obtain ⟨right, below, wide, high, wraps⟩ := wraps
  have hx : x < fb.width := by bv_omega
  have hy : y < fb.height := by bv_omega
  by_cases fits : x.toNat + w.toNat < 2 ^ 32
  case neg =>
    -- the first pixel behind the row
    have extent : fb.width.toNat - x.toNat < (clip x w fb.width).toNat := by
      rw [clip_wraps hx (by omega)]
      have bound := fb.width.isLt
      bv_omega
    refine ⟨_, (mem_fillRect hx hy).mpr ⟨0, clip_pos hy high, _, extent, rfl⟩, fun shows => ?_⟩
    have inside := shows.col
    simp only [Framebuffer.put] at inside
    bv_omega
  case pos =>
    -- the first pixel of the row below the screen
    have extent : fb.height.toNat - y.toNat < (clip y h fb.height).toNat := by
      rw [clip_wraps hy (by omega)]
      have bound := fb.height.isLt
      bv_omega
    refine ⟨_, (mem_fillRect hx hy).mpr ⟨_, extent, 0, clip_pos hx wide, rfl⟩, fun shows => ?_⟩
    have inside := shows.row
    simp only [Framebuffer.put] at inside
    bv_omega

/-! ## Text -/

/-- A surface fits the arrays of the console. -/
theorem resetTextSurface_size (x y w h : u32) :
    (20 ≤ (resetTextSurface x y w h).cols.toNat ∧ (resetTextSurface x y w h).cols.toNat ≤ 256) ∧
      8 ≤ (resetTextSurface x y w h).rows.toNat ∧ (resetTextSurface x y w h).rows.toNat ≤ 64 := by
  have most (n most : u32) : (if n > most then most else n).toNat ≤ most.toNat := by
    split <;> bv_omega
  have least (n least : u32) : (if n < least then least else n).toNat = max n.toNat least.toNat := by
    split <;> bv_omega
  have cols := most (w / CHAR_W) 256
  have rows := most (h / CHAR_H) 64
  simp only [resetTextSurface, least]
  refine ⟨⟨le_max_right _ _, max_le cols (by decide)⟩, le_max_right _ _, max_le rows (by decide)⟩

theorem startDesktop_origin (fb : Framebuffer) :
    (startDesktop fb).originX.toNat ≤ 218 ∧ (startDesktop fb).originY.toNat ≤ 580 := by
  refine ⟨?_, ?_⟩
  · show ((if fb.width ≥ 1280 then 210 else 96 : u32) + 8).toNat ≤ 218
    split <;> decide
  · show ((if fb.height ≥ 900 then 540 else 360 : u32) + 40).toNat ≤ 580
    split <;> decide

theorem startDesktop_size (fb : Framebuffer) :
    (20 ≤ (startDesktop fb).cols.toNat ∧ (startDesktop fb).cols.toNat ≤ 256) ∧
      8 ≤ (startDesktop fb).rows.toNat ∧ (startDesktop fb).rows.toNat ≤ 64 :=
  resetTextSurface_size _ _ _ _

theorem mem_takeWhile_range {n k : Nat} {p : Nat → Bool} (mem : k ∈ (List.range n).takeWhile p) :
    k < n ∧ p k = true :=
  ⟨List.mem_range.mp ((List.takeWhile_sublist p).subset mem), List.mem_takeWhile_imp mem⟩

/-- A character is cut at both edges, and its place does not wrap. -/
theorem drawChar_shows (font : u8 → Nat → u8) (cx cy : u32) (ch : u8) (fg bg : u32) :
    ∀ wr ∈ drawChar fb (startDesktop fb) font cx cy ch fg bg, fb.Shows wr := by
  intro wr mem
  obtain ⟨left, -⟩ := startDesktop_origin fb
  obtain ⟨⟨-, cols⟩, -⟩ := startDesktop_size fb
  generalize startDesktop fb = G at mem left cols
  rw [drawChar] at mem
  split at mem
  case isTrue => exact absurd mem List.not_mem_nil
  case isFalse inside =>
    obtain ⟨r, hr, mem⟩ := List.mem_flatMap.mp mem
    obtain ⟨c, hc, rfl⟩ := List.mem_map.mp mem
    obtain ⟨hc, col⟩ := List.mem_filter.mp hc
    have hc := List.mem_range.mp hc
    have row := (mem_takeWhile_range hr).2
    refine put_shows ?_ (of_decide_eq_true row)
    have col := of_decide_eq_true col
    have place : (cx * CHAR_W).toNat = cx.toNat * 8 := by
      rw [BitVec.toNat_mul]
      exact Nat.mod_eq_of_lt (by change cx.toNat * 8 < _; bv_omega)
    bv_omega

/-- The eight columns of the cursor's character are on the screen, or nothing is drawn. -/
def Framebuffer.CursorFits (fb : Framebuffer) (G : TextGrid) (row col : u32) : Prop :=
  G.rows ≤ row ∨ G.cols ≤ col ∨ fb.height ≤ G.originY + row * CHAR_H + CHAR_H - 2 ∨
    (G.originX + col * CHAR_W).toNat + 8 ≤ fb.width.toNat

instance (fb : Framebuffer) (G : TextGrid) (row col : u32) : Decidable (fb.CursorFits G row col) :=
  inferInstanceAs (Decidable (_ ∨ _))

/-- **The cursor** is not cut at the right edge. -/
theorem drawCursorShape_shows (G : TextGrid) (row col : u32) :
    (∀ wr ∈ drawCursorShape fb G row col, fb.Shows wr) ↔ fb.CursorFits G row col := by
  rw [drawCursorShape, Framebuffer.CursorFits]
  split
  case isTrue off =>
    refine iff_of_true (fun wr mem => absurd mem List.not_mem_nil) ?_
    exact off.imp_right .inl
  case isFalse inside =>
    obtain ⟨hrow, hcol⟩ := not_or.mp inside
    dsimp only
    generalize G.originX + col * CHAR_W = px
    generalize G.originY + row * CHAR_H + CHAR_H - 2 = py
    have zero : py + BitVec.ofNat 32 0 = py := BitVec.add_zero py
    constructor
    · intro shows
      by_cases below : fb.height ≤ py
      case pos => exact .inr (.inr (.inl below))
      case neg =>
        -- the last column of the first line
        have first : 0 ∈ (List.range 2).takeWhile fun r => py + BitVec.ofNat 32 r < fb.height := by
          rw [List.range_succ_eq_map, List.takeWhile_cons_of_pos]
          · exact List.mem_cons_self
          · rw [zero]
            exact decide_eq_true (BitVec.not_le.mp below)
        have last := (shows _ (List.mem_flatMap.mpr ⟨0, first, List.mem_map.mpr
          ⟨7, List.mem_range.mpr (by decide), rfl⟩⟩)).col
        simp only [Framebuffer.put] at last
        exact .inr (.inr (.inr (by omega)))
    · rintro (off | off | below | fits) wr mem
      · exact absurd off hrow
      · exact absurd off hcol
      · have none : (List.range 2).takeWhile (fun r => py + BitVec.ofNat 32 r < fb.height) = [] := by
          rw [List.range_succ_eq_map, List.takeWhile_cons_of_neg]
          rw [zero]
          simpa using below
        rw [none] at mem
        exact absurd mem List.not_mem_nil
      · obtain ⟨r, hr, mem⟩ := List.mem_flatMap.mp mem
        obtain ⟨c, hc, rfl⟩ := List.mem_map.mp mem
        have hc := List.mem_range.mp hc
        exact put_shows (by omega) (of_decide_eq_true (mem_takeWhile_range hr).2)

theorem startDesktop_origin_eq (fb : Framebuffer) :
    (startDesktop fb).originX.toNat = (if 1280 ≤ fb.width.toNat then 218 else 104) ∧
      (startDesktop fb).originY.toNat = if 900 ≤ fb.height.toNat then 580 else 400 := by
  constructor
  · show ((if fb.width ≥ 1280 then 210 else 96 : u32) + 8).toNat = _
    split <;> split <;> bv_omega
  · show ((if fb.height ≥ 900 then 540 else 360 : u32) + 40).toNat = _
    split <;> split <;> bv_omega

theorem resetTextSurface_cols (x y w h : u32) :
    (resetTextSurface x y w h).cols.toNat = max (min (w.toNat / 8) 256) 20 := by
  have columns : (w / CHAR_W).toNat = w.toNat / 8 := BitVec.toNat_udiv
  rw [resetTextSurface]
  dsimp only
  generalize w / CHAR_W = n at columns
  split
  case isTrue many => split <;> bv_omega
  case isFalse few => split <;> bv_omega

/-- The text ends on the screen, if the screen is wide enough for 20 columns. -/
theorem startDesktop_fits (wide : 264 ≤ fb.width.toNat) :
    (startDesktop fb).originX.toNat + (startDesktop fb).cols.toNat * 8 ≤ fb.width.toNat := by
  have client (winW : u32) (h : winW =
      if fb.width ≥ 1280 then 760 else fb.width - (if fb.width ≥ 1280 then 210 else 96) - 24) :
      (if winW > 16 then winW - 16 else winW).toNat =
        if 1280 ≤ fb.width.toNat then 744 else fb.width.toNat - 136 := by
    subst h
    by_cases large : fb.width ≥ 1280
    case pos =>
      rw [if_pos large, if_pos (by decide), if_pos (by bv_omega)]
      rfl
    case neg =>
      rw [if_neg large, if_neg large, if_pos (by bv_omega), if_neg (by bv_omega)]
      bv_omega
  have cols : (startDesktop fb).cols.toNat = _ := resetTextSurface_cols _ _ _ _
  rw [(startDesktop_origin_eq fb).1, cols, client _ rfl]
  split <;> omega

/-- **For every place of the cursor** this holds on a screen that is not too narrow, or too
low for the cursor of the first row. -/
theorem cursor_fits_iff (fb : Framebuffer) :
    (∀ row col, fb.CursorFits (startDesktop fb) row col) ↔
      264 ≤ fb.width.toNat ∨ fb.height.toNat ≤ 414 := by
  obtain ⟨⟨some_, few⟩, rows, less⟩ := startDesktop_size fb
  obtain ⟨left, top⟩ := startDesktop_origin_eq fb
  have fits (wide : 264 ≤ fb.width.toNat) := startDesktop_fits wide
  generalize startDesktop fb = G at *
  have place (row col : u32) (hrow : row < G.rows) (hcol : col < G.cols) :
      (G.originY + row * CHAR_H + CHAR_H - 2).toNat = G.originY.toNat + row.toNat * 16 + 14 ∧
        (G.originX + col * CHAR_W).toNat = G.originX.toNat + col.toNat * 8 := by
    rw [BitVec.lt_def] at hrow hcol
    split at left <;> split at top <;> constructor <;> bv_omega
  constructor
  · intro all
    by_contra small
    -- the last column of the first row
    have last := all 0 (G.cols - 1)
    obtain ⟨py, px⟩ := place 0 (G.cols - 1) (by bv_omega) (by bv_omega)
    have narrow : G.originX.toNat = 104 := by rw [left, if_neg (by omega)]
    rcases last with off | off | below | inside
    · bv_omega
    · bv_omega
    · rw [BitVec.le_def, py, top] at below
      split at below <;> bv_omega
    · rw [px, narrow] at inside
      bv_omega
  · rintro small row col
    by_cases on : row < G.rows ∧ col < G.cols
    case neg =>
      rw [not_and_or, BitVec.not_lt, BitVec.not_lt] at on
      exact on.elim .inl fun off => .inr (.inl off)
    case pos =>
      obtain ⟨py, px⟩ := place row col on.1 on.2
      refine .inr (.inr ?_)
      rcases small with wide | low
      · have ends := fits wide
        exact .inr (by rw [px]; bv_omega)
      · refine .inl ?_
        rw [BitVec.le_def, py, top]
        split <;> omega

/-! ## The mouse cursor -/

/-- The squares that the cursor's shape asks for do not wrap. -/
def Framebuffer.ShapeClips (fb : Framebuffer) (x y : u32) : Prop :=
  ∀ r < 16, ∀ c < 12, shapeAt r c ≠ '.' →
    fb.Clips (x + BitVec.ofNat 32 c * 2) (y + BitVec.ofNat 32 r * 2) 2 2

theorem mem_drawMouseCursor : wr ∈ drawMouseCursor fb x y ↔
    ∃ r < 16, ∃ c < 12, shapeAt r c ≠ '.' ∧
      wr ∈ fillRect fb (x + BitVec.ofNat 32 c * 2) (y + BitVec.ofNat 32 r * 2) 2 2
        (if shapeAt r c = 'X' then 0x000000 else 0xFFFFFF) := by
  have square (r c : Nat) (ws : List Write) : wr ∈ (if shapeAt r c = '.' then [] else ws) ↔
      shapeAt r c ≠ '.' ∧ wr ∈ ws := by
    split
    case isTrue dot => exact iff_of_false List.not_mem_nil fun h => h.1 dot
    case isFalse dot => exact (and_iff_right dot).symm
  simp only [drawMouseCursor, List.mem_flatMap, List.mem_range, square]

theorem drawMouseCursor_shows (fb : Framebuffer) (x y : u32) :
    (∀ wr ∈ drawMouseCursor fb x y, fb.Shows wr) ↔ fb.ShapeClips x y := by
  constructor
  · intro shows r hr c hc dot
    by_contra wraps
    obtain ⟨wr, mem, off⟩ := fillRect_spills wraps
    exact off (shows wr (mem_drawMouseCursor.mpr ⟨r, hr, c, hc, dot, mem⟩))
  · intro clips wr mem
    obtain ⟨r, hr, c, hc, dot, mem⟩ := mem_drawMouseCursor.mp mem
    exact (fillRect_paints (clips r hr c hc dot)).1 wr mem

/-- A cursor kept on the screen does not wrap. -/
theorem shapeClips_of_le (hx : x.toNat ≤ fb.width.toNat - 24) (hy : y.toNat ≤ fb.height.toNat - 32) :
    fb.ShapeClips x y := by
  intro r hr c hc _
  have col : (x + BitVec.ofNat 32 c * 2).toNat = x.toNat + c * 2 := by bv_omega
  have row : (y + BitVec.ofNat 32 r * 2).toNat = y.toNat + r * 2 := by bv_omega
  refine .inr (.inr (.inr (.inr ⟨?_, ?_⟩)))
  · rw [col]
    bv_omega
  · rw [row]
    bv_omega

theorem restoreMouseCursor_shows (fb : Framebuffer) (m : Mouse) :
    ∀ wr ∈ restoreMouseCursor fb m, fb.Shows wr := by
  intro wr mem
  rw [restoreMouseCursor] at mem
  split at mem
  case isTrue => exact absurd mem List.not_mem_nil
  case isFalse =>
    obtain ⟨y, hy, mem⟩ := List.mem_flatMap.mp mem
    obtain ⟨x, hx, rfl⟩ := List.mem_map.mp mem
    have row := of_decide_eq_true (mem_takeWhile_range hy).2
    have col := of_decide_eq_true (mem_takeWhile_range hx).2
    refine ⟨col, row, fun small => ?_⟩
    -- the whole place has 32 bits here, its column included
    have wide := fb.wide
    have last := row_lt (s := fb.stride.toNat) (BitVec.lt_def.mp row)
    rw [BitVec.lt_def] at col
    dsimp only
    rw [BitVec.toNat_add, BitVec.toNat_mul, Nat.mod_eq_of_lt (by omega), Nat.mod_eq_of_lt (by omega)]

theorem moveMouseCursor_shows (fb : Framebuffer) (m : Mouse) (pixels : Nat → u32) (x y : u32) :
    ∀ wr ∈ (moveMouseCursor fb m pixels x y).1, fb.Shows wr := by
  intro wr mem
  rcases List.mem_append.mp mem with mem | mem
  · exact restoreMouseCursor_shows fb m wr mem
  · have cut (v n size : u32) : (if v > (if size > n then size - n else 0) then
        (if size > n then size - n else 0) else v).toNat ≤ size.toNat - n.toNat := by
      split <;> split <;> bv_omega
    exact (drawMouseCursor_shows fb _ _).mpr (shapeClips_of_le (cut x 24 _) (cut y 32 _)) wr mem

/-! ## All routines -/

/-- **Drawing stays on the screen**, whatever the arguments: always for characters, for the
pixels restored below the mouse cursor and for the whole of its move; for rectangles, which
are then drawn exactly as far as they are on the screen, if their end is a 32-bit number; for
the mouse cursor by itself if the same holds of its squares; and for the text cursor if its
columns are on the screen, which in the desktop's window they always are if the screen is at
least 264 pixels wide. -/
theorem drawing_on_screen (fb : Framebuffer) (font : u8 → Nat → u8) :
    (∀ x y w h rgb, (∀ wr ∈ fillRect fb x y w h rgb, fb.Shows wr) ∧
        fb.Paints x y w h (fillRect fb x y w h rgb) ↔ fb.Clips x y w h) ∧
      (∀ cx cy ch fg bg, ∀ wr ∈ drawChar fb (startDesktop fb) font cx cy ch fg bg, fb.Shows wr) ∧
      (∀ row col, (∀ wr ∈ drawCursorShape fb (startDesktop fb) row col, fb.Shows wr) ↔
        fb.CursorFits (startDesktop fb) row col) ∧
      ((∀ row col, fb.CursorFits (startDesktop fb) row col) ↔
        264 ≤ fb.width.toNat ∨ fb.height.toNat ≤ 414) ∧
      (∀ x y, (∀ wr ∈ drawMouseCursor fb x y, fb.Shows wr) ↔ fb.ShapeClips x y) ∧
      (∀ m, ∀ wr ∈ restoreMouseCursor fb m, fb.Shows wr) ∧
      ∀ m pixels x y, ∀ wr ∈ (moveMouseCursor fb m pixels x y).1, fb.Shows wr := by
  refine ⟨fun x y w h rgb => ⟨fun drawn => ?_, fillRect_paints⟩, drawChar_shows font,
    drawCursorShape_shows _, cursor_fits_iff fb, drawMouseCursor_shows fb,
    restoreMouseCursor_shows fb, moveMouseCursor_shows fb⟩
  by_contra wraps
  obtain ⟨wr, mem, off⟩ := fillRect_spills wraps
  exact off (drawn.1 wr mem)

end

/-! ## Two screens -/

def screen1024 : Framebuffer := ⟨1024, 768, 1024, true, by decide, by decide⟩

/-- A screen that is narrower than the 20 columns of the smallest text surface. -/
def screen200 : Framebuffer := ⟨200, 768, 200, true, by decide, by decide⟩

/-- **Off the screen**: a rectangle whose end wraps to column 0, and the cursor in the last
column of a narrow screen. -/
theorem drawn_off_screen :
    (∃ wr ∈ fillRect screen1024 1 0 0xFFFFFFFF 1 0xFFFFFF, ¬ screen1024.Shows wr) ∧
      ∃ wr ∈ drawCursorShape screen200 (startDesktop screen200) 1 19, ¬ screen200.Shows wr := by
  refine ⟨fillRect_spills (by decide), ?_⟩
  have off : ¬ ∀ wr ∈ drawCursorShape screen200 (startDesktop screen200) 1 19, screen200.Shows wr :=
    mt (drawCursorShape_shows _ 1 19).mp (by decide)
  by_contra none
  exact off fun wr mem => by_contra fun out => none ⟨wr, mem, out⟩

end MicroNT.VGA
