import MicroNT.Base.Machine
import MicroNT.Framebuffer
import MicroNT.MemoryLine

/-! # The text console (`vga.cpp`)

Text is kept as cells, so that it can be scrolled and drawn again. Row 0 is the header and
the last row the status bar; output goes to the rows between them. What is drawn on the
screen follows the cells, and is left out here. -/

namespace MicroNT.VGA

open MicroNT.Base.Machine (Always Along always_iff_along run)
open MicroNT.FileIo (ascii decimal)

structure Cell where
  ch : u8
  attr : u8
  deriving DecidableEq

/-- `s_cols` and `s_rows`, which are cut down to the size of `s_cells`. -/
structure TextSurface where
  cols : Nat
  rows : Nat
  cols_le : cols ≤ 256
  rows_le : rows ≤ 64

/-- The cursor and the cells by row and column. -/
structure Console where
  row : Nat
  col : Nat
  cells : Nat → Nat → Cell

def blank : Cell := ⟨0x20, 0x07⟩

/-! ## Characters -/

section

variable (T : TextSurface)

def setCell (r c : Nat) (ch attr : u8) (s : Console) : Console :=
  if r ≥ T.rows ∨ c ≥ T.cols then s
  else { s with cells := Function.update s.cells r (Function.update (s.cells r) c ⟨ch, attr⟩) }

/-- The last row for output. -/
def maxRow : Nat := if T.rows > 1 then T.rows - 2 else 1

/-- The rows from 2 on move up by one, from the top down, and the last one is blanked. -/
def scroll (s : Console) : Console :=
  let last := if T.rows > 2 then T.rows - 2 else 1
  { s with
    row := last
    cells := fun r c =>
      if c ≥ T.cols then s.cells r c
      else if 1 ≤ r ∧ r < last then s.cells (r + 1) c
      else if r = last then blank
      else s.cells r c }

/-- To the start of the next row, which is scrolled into place if it is not for output. -/
def lineFeed (s : Console) : Console :=
  let s := { s with col := 0, row := s.row + 1 }
  if s.row > maxRow T then scroll T s else s

def putChar (ch attr : u8) (s : Console) : Console :=
  if ch = 0x08 then
    if s.col > 0 then setCell T s.row (s.col - 1) 0x20 0x07 { s with col := s.col - 1 } else s
  else if ch = 0x0D then { s with col := 0 }
  else if ch = 0x0A then lineFeed T s
  else
    let s := setCell T s.row s.col ch attr s
    let s := { s with col := s.col + 1 }
    if s.col ≥ T.cols then lineFeed T s else s

/-- A text up to its zero. -/
def print (text : List u8) (attr : u8) (s : Console) : Console :=
  (text.takeWhile (· != 0#8)).foldl (fun s ch => putChar T ch attr s) s

/-! ## Parts of a row -/

/-- A text in row `r` from column `c` on, as far as the row goes, and the column behind it. -/
def putText (r : Nat) (attr : u8) : List u8 → Nat → Console → Console × Nat
  | [], c, s => (s, c)
  | ch :: t, c, s =>
    if c < T.cols then putText r attr t (c + 1) (setCell T r c ch attr s) else (s, c)

/-- Cells in row `r` from column `c` on, of which `setCell` drops those behind the row. -/
def putCells (r : Nat) : List Cell → Nat → Console → Console × Nat
  | [], c, s => (s, c)
  | x :: t, c, s => putCells r t (c + 1) (setCell T r c x.ch x.attr s)

def cellNum (r c : Nat) (v : u64) (attr : u8) (s : Console) : Console × Nat :=
  putText T r attr (decimal v.toNat) c s

/-- Blanks from column `c` to the end of the row. -/
def padRow (r c : Nat) (s : Console) : Console :=
  (List.range' c (T.cols - c)).foldl (fun s c => setCell T r c 0x20 0x07 s) s

/-- Texts one behind the other, each in its colour, and blanks behind them. -/
def putRow (r : Nat) (parts : List (List u8 × u8)) (s : Console) : Console :=
  let (s, c) := parts.foldl (fun (s, c) (text, attr) => putText T r attr text c s) (s, 0)
  padRow T r c s

/-! ## The memory panel -/

def titleRow (r : Nat) : Console → Console := putRow T r [(ascii "  Memory Map", 0x0B)]

/-- The part that is used, in percent. -/
def percent (info : MemInfo) : u64 :=
  if info.totalKb ≠ 0 then info.usedKb * 100#64 / info.totalKb else 0

def barRow (info : MemInfo) (r : Nat) (s : Console) : Console :=
  let barW := if T.cols > 24 then T.cols - 22 else 10
  let filled := ((percent info * BitVec.ofNat 64 barW) / 100#64).setWidth 32
  let (s, c) := putCells T r [⟨0x20, 0x07⟩, ⟨0x20, 0x07⟩, ⟨0x5B, 0x0F⟩] 0 s
  let (s, c) := putCells T r ((List.range barW).map fun k =>
    ⟨0x20, if k < filled.toNat then 0xA0 else 0x80⟩) c s
  let (s, c) := putCells T r [⟨0x5D, 0x0F⟩, ⟨0x20, 0x07⟩] c s
  let (s, c) := cellNum T r c (percent info) 0x0F s
  let (s, c) := putCells T r [⟨0x25, 0x07⟩] c s
  padRow T r c s

def kbRow (info : MemInfo) (r : Nat) : Console → Console :=
  putRow T r [(ascii "  Used: ", 0x08), (decimal info.usedKb.toNat, 0x0F),
    (ascii " KB   Free: ", 0x08), (decimal info.freeKb.toNat, 0x0A),
    (ascii " KB   Total: ", 0x08), (decimal info.totalKb.toNat, 0x0B), (ascii " KB", 0x08)]

def pagesRow (info : MemInfo) (r : Nat) : Console → Console :=
  let freePages := if info.usedPages ≤ info.totalPages then info.totalPages - info.usedPages else 0
  putRow T r [(ascii "  Pages: Used=", 0x08), (decimal info.usedPages.toNat, 0x0F),
    (ascii "  Free=", 0x08), (decimal freePages.toNat, 0x0A),
    (ascii "  Total=", 0x08), (decimal info.totalPages.toNat, 0x0B)]

/-- One row of the panel: scroll if the cursor has left the rows for output, write, and move
on without a look at where that leads. -/
def panelRow (write : Nat → Console → Console) (s : Console) : Console :=
  let s := if s.row > maxRow T then scroll T s else s
  let s := write s.row s
  { s with row := s.row + 1 }

def memPanel (info : MemInfo) (s : Console) : Console :=
  let s := panelRow T (titleRow T) s
  let s := panelRow T (barRow T info) s
  let s := panelRow T (kbRow T info) s
  let s := if info.totalPages > 0 then panelRow T (pagesRow T info) s else s
  { s with col := 0 }

/-- The line that `TryDrawMemBar` consumes, with its numbers. -/
def panelInfo (line : List u8) : Option MemInfo :=
  (parseMemLine line).filter fun info => info.totalKb ≠ 0

/-! ## Lines of a program -/

def contentColor (line : List u8) : u8 :=
  let at_ i := line.getD i 0
  let ext i := line.getD (line.length - 4 + i) 0
  if line = [] then 0x0F
  else if line.length ≥ 3 ∧ at_ 0 = 0x5B ∧ at_ (line.length - 1) = 0x5D then 0x0E
  else if line.length ≥ 4 ∧ ext 0 = 0x2E ∧ ext 1 ||| 32 = 0x65 ∧ ext 2 ||| 32 = 0x78 ∧
      ext 3 ||| 32 = 0x65 then 0x0A
  else if line.length ≥ 4 ∧ ext 0 = 0x2E ∧ ext 1 ||| 32 = 0x74 ∧ ext 2 ||| 32 = 0x78 ∧
      ext 3 ||| 32 = 0x74 then 0x0E
  else if line.length ≥ 4 ∧ ext 0 = 0x2E ∧ (ext 1 ||| 32 = 0x69 ∨ ext 1 ||| 32 = 0x63) then 0x0B
  else if (ascii "Mic").isPrefixOf line then 0x0D
  else if (ascii "Mem").isPrefixOf line then 0x0B
  else if (ascii "Sys").isPrefixOf line then 0x0B
  else if (ascii "Thr").isPrefixOf line then 0x0B
  else if (ascii "OK").isPrefixOf line then 0x0A
  else if line.length ≥ 3 ∧ at_ 0 ||| 32 = 0x65 ∧ at_ 1 ||| 32 = 0x72 ∧ at_ 2 ||| 32 = 0x72 then 0x0C
  else 0x0F

def promptText (s : Console) : Console × Nat :=
  let (t, c) := putText T s.row 0x0B (ascii "[USER] ") 0 s
  putCells T s.row [⟨0x3E, 0x0F⟩, ⟨0x20, 0x07⟩] c t

/-- The prompt, behind which the cursor stays. -/
def prompt (s : Console) : Console :=
  let (t, c) := promptText T s
  { padRow T s.row c t with col := c }

/-- A line on a row of its own. -/
def plainLine (line : List u8) (s : Console) : Console :=
  lineFeed T (putRow T s.row [(line, contentColor line)] s)

/-- What `PrintUser` counts of a text. The 32-bit count does not end on a longer one. -/
def shown (text : List u8) : Option (List u8) :=
  if (content text).length < 2 ^ 32 then some (content text) else none

def printLine (line : List u8) (s : Console) : Console :=
  let s := if s.row < 1 then { s with row := 1 } else s
  let s := if s.row > maxRow T then scroll T s else s
  if line = [] then s
  else if line = ascii "> " then prompt T s
  else
    match panelInfo line with
    | some info => memPanel T info s
    | none => plainLine T line s

def printUser (text : List u8) (s : Console) : Option Console :=
  (shown text).map fun line => printLine T line s

/-- The rows below the header are blanked, the status bar too. -/
def clearScreen (s : Console) : Console where
  row := 1
  col := 0
  cells r c := if 1 ≤ r ∧ r < T.rows ∧ c < T.cols then blank else s.cells r c

/-! ## Calls -/

inductive Output
  | putChar (ch attr : u8)
  | print (text : List u8) (attr : u8)
  | printUser (text : List u8)

/-- `none` where the call does not return. -/
def Console.step (s : Console) : Output → Option Console
  | .putChar ch attr => some (VGA.putChar T ch attr s)
  | .print text attr => some (VGA.print T text attr s)
  | .printUser text => VGA.printUser T text s

/-- The header and the status bar are as they were, and the cursor is between them. -/
structure Console.Kept (first s : Console) : Prop where
  header : s.cells 0 = first.cells 0
  status : s.cells (T.rows - 1) = first.cells (T.rows - 1)
  row : 1 ≤ s.row ∧ s.row ≤ T.rows - 2
  col : s.col < T.cols

/-- The rows of a panel. -/
def panelRows (info : MemInfo) : Nat := if info.totalPages > 0 then 4 else 3

/-- A memory panel ends above the last row for output, so that the row behind it is one for
output too. -/
def Console.Room (s : Console) : Output → Prop
  | .printUser text => ∀ line ∈ shown text, ∀ info ∈ panelInfo line,
      s.row + panelRows info ≤ T.rows - 2
  | _ => True

end

/-! ## Writing in a row -/

section

variable {T : TextSurface} {r : Nat} {attr : u8} {s t u : Console}

/-- Only cells of row `r` have changed. -/
structure Console.OnlyRow (r : Nat) (s t : Console) : Prop where
  row : t.row = s.row
  col : t.col = s.col
  cells : ∀ r', r' ≠ r → t.cells r' = s.cells r'

theorem Console.OnlyRow.refl (r : Nat) (s : Console) : s.OnlyRow r s := ⟨rfl, rfl, fun _ _ => rfl⟩

theorem Console.OnlyRow.trans (h : s.OnlyRow r t) (h' : t.OnlyRow r u) : s.OnlyRow r u :=
  ⟨h'.row.trans h.row, h'.col.trans h.col, fun r' hr => (h'.cells r' hr).trans (h.cells r' hr)⟩

theorem setCell_only (c : Nat) (ch attr : u8) (s : Console) :
    s.OnlyRow r (setCell T r c ch attr s) := by
  rw [setCell]
  split
  case isTrue => exact .refl r s
  case isFalse => exact ⟨rfl, rfl, fun r' hr => Function.update_of_ne hr _ _⟩

theorem putText_only (text : List u8) (c : Nat) (s : Console) :
    s.OnlyRow r (putText T r attr text c s).1 := by
  induction text generalizing c s with
  | nil => exact .refl r s
  | cons ch text ih =>
    rw [putText]
    split
    case isTrue => exact (setCell_only _ _ _ _).trans (ih _ _)
    case isFalse => exact .refl r s

theorem putCells_only (xs : List Cell) (c : Nat) (s : Console) :
    s.OnlyRow r (putCells T r xs c s).1 := by
  induction xs generalizing c s with
  | nil => exact .refl r s
  | cons x xs ih => exact (setCell_only _ _ _ _).trans (ih _ _)

theorem padRow_only (c : Nat) (s : Console) : s.OnlyRow r (padRow T r c s) := by
  rw [padRow]
  induction List.range' c (T.cols - c) generalizing s with
  | nil => exact .refl r s
  | cons c cs ih => exact (setCell_only _ _ _ _).trans (ih _)

theorem putRow_only (parts : List (List u8 × u8)) (s : Console) :
    s.OnlyRow r (putRow T r parts s) := by
  have all (c : Nat) : s.OnlyRow r (parts.foldl
      (fun (p : Console × Nat) q => putText T r q.2 q.1 p.2 p.1) (s, c)).1 := by
    induction parts generalizing s c with
    | nil => exact .refl r s
    | cons part parts ih => exact (putText_only _ _ _).trans (ih _ _)
  exact (all 0).trans (padRow_only _ _)

theorem barRow_only (info : MemInfo) (s : Console) : s.OnlyRow r (barRow T info r s) := by
  unfold barRow cellNum
  dsimp only
  exact (((((putCells_only _ _ _).trans (putCells_only _ _ _)).trans (putCells_only _ _ _)).trans
    (putText_only _ _ _)).trans (putCells_only _ _ _)).trans (padRow_only _ _)

theorem pagesRow_only (info : MemInfo) (s : Console) : s.OnlyRow r (pagesRow T info r s) := by
  rw [pagesRow]
  exact putRow_only _ _

/-- What ends up behind a text that fits. -/
theorem putText_col (text : List u8) (c : Nat) (s : Console) (fits : c + text.length ≤ T.cols) :
    (putText T r attr text c s).2 = c + text.length := by
  induction text generalizing c s with
  | nil => rfl
  | cons ch text ih =>
    rw [List.length_cons] at fits ⊢
    rw [putText, if_pos (by omega), ih _ _ (by omega)]
    omega

theorem prompt_only (s : Console) : s.OnlyRow s.row { prompt T s with col := s.col } := by
  have text : s.OnlyRow s.row (promptText T s).1 :=
    (putText_only _ _ _).trans (putCells_only _ _ _)
  have only := text.trans (padRow_only (T := T) (promptText T s).2 (promptText T s).1)
  exact ⟨only.row, rfl, only.cells⟩

theorem prompt_col (wide : 20 ≤ T.cols) (s : Console) : (prompt T s).col = 9 := by
  show (putText T s.row 0x0B (ascii "[USER] ") 0 s).2 + 2 = 9
  rw [putText_col _ _ _ (by change 0 + 7 ≤ _; omega)]
  rfl

end

/-! ## The reserved rows -/

section

variable {T : TextSurface} {first s t : Console} {info : MemInfo}

/-- The cursor is in a row for output, or in the status bar, and the reserved rows are as
they were. -/
structure Console.Below (T : TextSurface) (first s : Console) : Prop where
  header : s.cells 0 = first.cells 0
  status : s.cells (T.rows - 1) = first.cells (T.rows - 1)
  row : 1 ≤ s.row ∧ s.row ≤ T.rows - 1

theorem Console.Kept.below (h : Console.Kept T first s) : Console.Below T first s :=
  ⟨h.header, h.status, h.row.1, h.row.2.trans (by omega)⟩

theorem maxRow_eq (tall : 8 ≤ T.rows) : maxRow T = T.rows - 2 := if_pos (by omega)

/-- A change to a row for output. -/
theorem Console.Below.onlyRow (h : Console.Below T first s) {r : Nat} (high : 1 ≤ r)
    (low : r ≤ T.rows - 2) (only : s.OnlyRow r t) (tall : 8 ≤ T.rows) : Console.Below T first t :=
  ⟨(only.cells _ (by omega)).trans h.header, (only.cells _ (by omega)).trans h.status,
    only.row ▸ h.row⟩

theorem scroll_row (tall : 8 ≤ T.rows) (s : Console) : (scroll T s).row = T.rows - 2 :=
  if_pos (by omega)

/-- Scrolling leaves the reserved rows. -/
theorem Console.Below.scroll (h : Console.Below T first s) (tall : 8 ≤ T.rows) :
    Console.Below T first (scroll T s) := by
  have last : (if T.rows > 2 then T.rows - 2 else 1) = T.rows - 2 := if_pos (by omega)
  have other (r : Nat) (reserved : r = 0 ∨ r = T.rows - 1) :
      (VGA.scroll T s).cells r = s.cells r := by
    funext c
    simp only [VGA.scroll, last]
    split
    case isTrue => rfl
    case isFalse => rw [if_neg (by omega), if_neg (by omega)]
  refine ⟨(other _ (.inl rfl)).trans h.header, (other _ (.inr rfl)).trans h.status, ?_⟩
  rw [scroll_row tall]
  omega

/-- Moving on from a row for output. -/
theorem Console.Below.lineFeed (h : Console.Below T first s) (low : s.row ≤ T.rows - 2)
    (tall : 8 ≤ T.rows) (wide : 20 ≤ T.cols) : Console.Kept T first (lineFeed T s) := by
  have next : Console.Below T first { s with col := 0, row := s.row + 1 } :=
    ⟨h.header, h.status, by dsimp only; omega, by dsimp only; omega⟩
  rw [VGA.lineFeed]
  dsimp only
  rw [maxRow_eq tall]
  split
  case isTrue =>
    obtain ⟨header, status, -⟩ := next.scroll tall
    exact ⟨header, status, by rw [scroll_row tall]; omega, by change 0 < T.cols; omega⟩
  case isFalse =>
    exact ⟨next.header, next.status, ⟨next.row.1, by dsimp only; omega⟩, by dsimp only; omega⟩

/-- A change to the row of the cursor that leaves the cursor in it. -/
theorem Console.Kept.write (h : Console.Kept T first s) (row : t.row = s.row) (col : t.col < T.cols)
    (cells : ∀ r, r ≠ s.row → t.cells r = s.cells r) (tall : 8 ≤ T.rows) :
    Console.Kept T first t := by
  obtain ⟨high, low⟩ := h.row
  exact ⟨(cells 0 (by omega)).trans h.header, (cells _ (by omega)).trans h.status, row ▸ h.row, col⟩

theorem Console.Kept.putChar (h : Console.Kept T first s) (ch attr : u8) (tall : 8 ≤ T.rows)
    (wide : 20 ≤ T.cols) : Console.Kept T first (putChar T ch attr s) := by
  have col := h.col
  rw [VGA.putChar]
  split
  case isTrue =>
    split
    case isTrue =>
      have only := setCell_only (T := T) (r := s.row) (s.col - 1) 0x20 0x07
        { s with col := s.col - 1 }
      exact h.write only.row (only.col.trans_lt (by dsimp only; omega)) only.cells tall
    case isFalse => exact h
  case isFalse =>
    split
    case isTrue => exact ⟨h.header, h.status, h.row, by change 0 < T.cols; omega⟩
    case isFalse =>
      split
      case isTrue => exact h.below.lineFeed h.row.2 tall wide
      case isFalse =>
        have only := setCell_only (T := T) (r := s.row) s.col ch attr s
        generalize setCell T s.row s.col ch attr s = t at only
        have below := h.below.onlyRow h.row.1 h.row.2 only tall
        dsimp only
        split
        case isTrue =>
          have moved : Console.Below T first { t with col := t.col + 1 } :=
            ⟨below.header, below.status, below.row⟩
          exact moved.lineFeed (only.row.trans_le h.row.2) tall wide
        case isFalse => exact h.write only.row (by dsimp only; omega) only.cells tall

theorem Console.Kept.print (h : Console.Kept T first s) (text : List u8) (attr : u8)
    (tall : 8 ≤ T.rows) (wide : 20 ≤ T.cols) : Console.Kept T first (print T text attr s) := by
  rw [VGA.print]
  induction text.takeWhile (· != 0#8) generalizing s with
  | nil => exact h
  | cons ch chars ih => exact ih (h.putChar ch attr tall wide)

/-! ## Lines -/

/-- Where one row of the panel leaves the cursor. -/
theorem Console.Below.panelRow (h : Console.Below T first s) (write : Nat → Console → Console)
    (only : ∀ (r : Nat) (s : Console), s.OnlyRow r (write r s)) (tall : 8 ≤ T.rows) :
    Console.Below T first (panelRow T write s) ∧
      (panelRow T write s).row = min s.row (T.rows - 2) + 1 := by
  have advanced : Console.Below T first (if s.row > maxRow T then VGA.scroll T s else s) ∧
      (if s.row > maxRow T then VGA.scroll T s else s).row = min s.row (T.rows - 2) := by
    rw [maxRow_eq tall]
    split
    case isTrue => exact ⟨h.scroll tall, by rw [scroll_row tall]; omega⟩
    case isFalse => exact ⟨h, by omega⟩
  obtain ⟨below, row⟩ := advanced
  rw [VGA.panelRow]
  dsimp only
  generalize (if s.row > maxRow T then VGA.scroll T s else s) = t at below row
  have high := h.row.1
  have written := below.onlyRow below.row.1 (by omega) (only t.row t) tall
  have same := (only t.row t).row
  exact ⟨⟨written.header, written.status, by dsimp only; omega⟩, by omega⟩

/-- **Where the panel leaves the cursor**: as far down as its rows go, and at most in the
status bar. -/
theorem Console.Below.memPanel (h : Console.Below T first s) (info : MemInfo) (tall : 8 ≤ T.rows) :
    Console.Below T first (memPanel T info s) ∧
      (memPanel T info s).row = min (s.row + panelRows info) (T.rows - 1) ∧
      (memPanel T info s).col = 0 := by
  obtain ⟨title, titleEnd⟩ := h.panelRow (titleRow T) (fun _ _ => putRow_only _ _) tall
  obtain ⟨bar, barEnd⟩ := title.panelRow (barRow T info) (fun _ _ => barRow_only info _) tall
  obtain ⟨kb, kbEnd⟩ := bar.panelRow (kbRow T info) (fun _ _ => putRow_only _ _) tall
  obtain ⟨pages, pagesEnd⟩ := kb.panelRow (pagesRow T info) (fun _ _ => pagesRow_only info _) tall
  rw [VGA.memPanel, panelRows]
  dsimp only
  split
  case isTrue => exact ⟨⟨pages.header, pages.status, pages.row⟩, by omega, rfl⟩
  case isFalse => exact ⟨⟨kb.header, kb.status, kb.row⟩, by omega, rfl⟩

theorem panelRows_le (info : MemInfo) : panelRows info ≤ 4 := by
  rw [panelRows]
  split <;> decide

/-- With the cursor in a row for output the line is shown there. -/
theorem Console.Kept.printLine_eq (h : Console.Kept T first s) (line : List u8) (tall : 8 ≤ T.rows) :
    printLine T line s =
      if line = [] then s
      else if line = ascii "> " then prompt T s
      else match panelInfo line with
        | some info => memPanel T info s
        | none => plainLine T line s := by
  obtain ⟨high, low⟩ := h.row
  have lowest : ¬ s.row > maxRow T := by
    rw [maxRow_eq tall]
    omega
  rw [VGA.printLine, if_neg (by omega : ¬ s.row < 1), if_neg lowest]

theorem Console.Kept.printLine (h : Console.Kept T first s) {line : List u8}
    (room : ∀ info ∈ panelInfo line, s.row + panelRows info ≤ T.rows - 2) (tall : 8 ≤ T.rows)
    (wide : 20 ≤ T.cols) : Console.Kept T first (printLine T line s) := by
  rw [h.printLine_eq line tall]
  split
  case isTrue => exact h
  case isFalse =>
    split
    case isTrue =>
      have only := prompt_only (T := T) s
      exact h.write only.row (by rw [prompt_col wide]; omega) only.cells tall
    case isFalse =>
      split
      case h_1 info panel =>
        obtain ⟨below, row, col⟩ := h.below.memPanel info tall
        have fits := room info panel
        have high := h.row.1
        exact ⟨below.header, below.status, by omega, by omega⟩
      case h_2 =>
        have only := putRow_only (T := T) (r := s.row) [(line, contentColor line)] s
        have below := h.below.onlyRow h.row.1 h.row.2 only tall
        exact below.lineFeed (only.row.trans_le h.row.2) tall wide

/-- A panel without room leaves the cursor in the status bar. -/
theorem Console.Kept.panel_row (h : Console.Kept T first s) {line : List u8}
    (panel : panelInfo line = some info) (full : T.rows - 2 < s.row + panelRows info)
    (tall : 8 ≤ T.rows) : (VGA.printLine T line s).row = T.rows - 1 ∧
      (VGA.printLine T line s).col = 0 := by
  have some_ : line ≠ [] := by
    rintro rfl
    cases panel
  have other : line ≠ ascii "> " := by
    rintro rfl
    cases panel
  obtain ⟨-, row, col⟩ := h.below.memPanel info tall
  rw [h.printLine_eq line tall, if_neg some_, if_neg other, panel]
  exact ⟨by dsimp only; omega, col⟩

/-! ## Runs -/

/-- **Output never touches the reserved rows**, and leaves the cursor between them, exactly
in the runs in which no memory panel ends on the last row for output: behind it the cursor
is in the status bar, where the next character goes. The cursor's column has to be one of
the surface to begin with. -/
theorem reserved_rows_kept (T : TextSurface) (tall : 8 ≤ T.rows) (wide : 20 ≤ T.cols)
    (first : Console) (start : 1 ≤ first.row ∧ first.row ≤ T.rows - 2) (calls : List Output) :
    (Always (Console.step T) (Console.Kept T first) first calls ↔
        first.col < T.cols ∧ Along (Console.step T) (Console.Room T) first calls) ∧
      ∀ s : Console, (clearScreen T s).cells 0 = s.cells 0 := by
  have runs (kept : Console.Kept T first first) :
      Always (Console.step T) (Console.Kept T first) first calls ↔
        Along (Console.step T) (Console.Room T) first calls := by
    refine always_iff_along (I := Console.Kept T first) ?_ (fun _ h => h) ?_ ?_ kept
    · intro s call t h room next
      cases call with
      | putChar ch attr => exact Option.some.inj next ▸ h.putChar ch attr tall wide
      | print text attr => exact Option.some.inj next ▸ h.print text attr tall wide
      | printUser text =>
        obtain ⟨line, hline, rfl⟩ := Option.map_eq_some_iff.mp next
        exact h.printLine (room line hline) tall wide
    · intro s call t h full next after
      cases call with
      | putChar ch attr => exact full trivial
      | print text attr => exact full trivial
      | printUser text =>
        obtain ⟨line, hline, rfl⟩ := Option.map_eq_some_iff.mp next
        refine full fun line' hline' info panel => ?_
        obtain rfl : line = line' := Option.some.inj (hline.symm.trans hline')
        by_contra low
        have row := (h.panel_row panel (by omega) tall).1
        have kept := after.row.2
        omega
    · intro s call refused
      cases call with
      | putChar ch attr => cases refused
      | print text attr => cases refused
      | printUser text =>
        intro line hline
        have none := Option.map_eq_none_iff.mp refused
        rw [none] at hline
        cases hline
  refine ⟨⟨fun all => ?_, fun h => (runs ⟨rfl, rfl, start, h.1⟩).mpr h.2⟩, fun s => ?_⟩
  · exact ⟨all.here.col, (runs all.here).mp all⟩
  · funext c
    simp [clearScreen]

end

/-! ## A panel at the bottom -/

/-- The surface in the desktop's window, which is as large as `reserved_rows_kept` asks. -/
def desktopSurface (fb : Framebuffer) : TextSurface :=
  ⟨(startDesktop fb).cols.toNat, (startDesktop fb).rows.toNat, (startDesktop_size fb).1.2,
    (startDesktop_size fb).2.2⟩

theorem desktopSurface_large (fb : Framebuffer) :
    8 ≤ (desktopSurface fb).rows ∧ 20 ≤ (desktopSurface fb).cols :=
  ⟨(startDesktop_size fb).2.1, (startDesktop_size fb).1.1⟩

/-- On a screen of 1024 by 768 pixels: 13 rows of 111 columns. -/
def desktop : TextSurface := desktopSurface screen1024

def consoleAt (row : Nat) : Console := ⟨row, 0, fun _ _ => blank⟩

theorem panelInfo_content : panelInfo (content (memoryLine 1 4)) = some (MemInfo.of 1 4) := by
  rw [panelInfo, parseMemLine_content]
  rfl

theorem reserved_rows_kept_top :
    Always (Console.step desktop) (Console.Kept desktop (consoleAt 1)) (consoleAt 1)
      [.printUser (memoryLine 1 4), .putChar 0x78 0x0F] := by
  obtain ⟨tall, wide⟩ := desktopSurface_large screen1024
  refine ((reserved_rows_kept desktop tall wide (consoleAt 1) (by decide) _).1).mpr
    ⟨by decide, fun line _ info _ => ?_, fun _ _ => ⟨trivial, fun _ _ => trivial⟩⟩
  have rows := panelRows_le info
  show 1 + panelRows info ≤ 11
  omega

/-- **A memory panel at the bottom** leaves the cursor in the status bar, and the next
character is put there. -/
theorem status_bar_overwritten : ∃ t,
    run (Console.step desktop) (consoleAt 11)
      [.printUser (memoryLine 1 4), .putChar 0x78 0x0F] = some t ∧
    t.cells 12 0 ≠ (consoleAt 11).cells 12 0 := by
  have tall := (desktopSurface_large screen1024).1
  have kept : Console.Kept desktop (consoleAt 11) (consoleAt 11) := ⟨rfl, rfl, by decide, by decide⟩
  have line : shown (memoryLine 1 4) = some (content (memoryLine 1 4)) := by
    rw [shown, if_pos]
    rw [content_memoryLine]
    decide
  obtain ⟨row, col⟩ := kept.panel_row panelInfo_content (by decide) tall
  have ends : run (Console.step desktop) (consoleAt 11)
      [.printUser (memoryLine 1 4), .putChar 0x78 0x0F] = some (putChar desktop 0x78 0x0F
        (printLine desktop (content (memoryLine 1 4)) (consoleAt 11))) := by
    rw [run, Console.step, printUser, line]
    rfl
  refine ⟨_, ends, ?_⟩
  generalize printLine desktop (content (memoryLine 1 4)) (consoleAt 11) = s at row col ⊢
  have cell : (putChar desktop 0x78 0x0F s).cells 12 0 = ⟨0x78, 0x0F⟩ := by
    obtain ⟨r, c, cells⟩ := s
    obtain rfl : r = 12 := row
    obtain rfl : c = 0 := col
    rfl
  rw [cell]
  decide

end MicroNT.VGA
