import MicroNT.WindowList

/-! # The buttons on the taskbar (`desktopmodel.cpp`, `shellinput.cpp`, `vga.cpp`)

`StartDesktop` draws a tile for each window; `ResolveHitTarget` divides the distance from
the first button by the width of a slot, and gives index 0 to everything else that is
neither the Start button nor the tray. -/

namespace MicroNT.Shell

/-! ## What is drawn -/

def DesktopLayout.taskbar (L : DesktopLayout) : TaskbarMetrics :=
  computeTaskbar L.screenW L.screenH L.windowCount

namespace TaskbarMetrics

variable (tb : TaskbarMetrics)

/-- The left edge of button `i`. -/
def buttonX (i : Nat) : u32 := tb.firstButtonX + BitVec.ofNat 32 i * (tb.buttonW + tb.buttonGap)

def tileSize : u32 := if tb.height ≥ 44#32 then 36#32 else 28#32

/-- The tile of button `i`, with its rounded corners. -/
def tile (i : Nat) : Rect where
  x := tb.buttonX i + (tb.buttonW - tb.tileSize) / 2#32
  y := tb.y + (tb.height - tb.tileSize) / 2#32
  w := tb.tileSize
  h := tb.tileSize

/-- The highlight behind the first tile. -/
def highlight : Rect := ⟨tb.buttonX 0 + 2#32, tb.y + 4#32, tb.buttonW - 4#32, tb.height - 8#32⟩

/-- The line under the first tile. -/
def underline : Rect :=
  ⟨tb.buttonX 0 + tb.buttonW / 2#32 - 9#32, tb.y + tb.height - 4#32, 18#32, 3#32⟩

/-- The point lies in what is drawn of button `i`. -/
def OnButton (px py : u32) (i : Nat) : Prop :=
  (tb.tile i).Contains px py ∨
    i = 0 ∧ (tb.highlight.Contains px py ∨ tb.underline.Contains px py)

instance (px py : u32) (i : Nat) : Decidable (tb.OnButton px py i) :=
  inferInstanceAs (Decidable (_ ∨ _))

/-- The places of the Start button, the app buttons and the tray on the row. -/
def startBox : Rect := ⟨tb.startX, tb.y, tb.startW, tb.height⟩

def buttonBox (i : Nat) : Rect := ⟨tb.buttonX i, tb.y, tb.buttonW, tb.height⟩

def trayBox : Rect := ⟨tb.trayX, tb.y, tb.trayW, tb.height⟩

end TaskbarMetrics

/-- The point is on the row of the taskbar. -/
def OnRow (L : DesktopLayout) (px py : u32) : Prop :=
  px.toNat < L.screenW.toNat ∧ L.taskbar.y.toNat ≤ py.toNat ∧ py.toNat < L.screenH.toNat

instance (L : DesktopLayout) (px py : u32) : Decidable (OnRow L px py) :=
  inferInstanceAs (Decidable (_ ∧ _))

def Apart (r s : Rect) : Prop := ∀ px py, ¬ (r.Contains px py ∧ s.Contains px py)

/-! ## What is raised -/

/-- The window that a click on the taskbar raises. -/
def raisedAt (L : DesktopLayout) (px py : u32) : Option Nat :=
  match hitTarget px py L with
  | (.Taskbar, idx) => if idx.toNat < L.windows.length then some idx.toNat else none
  | _ => none

/-- **A point raises window `i`** exactly if it lies in what is drawn of its button. -/
def RaisesDrawn (L : DesktopLayout) (px py : u32) : Prop :=
  ∀ i, raisedAt L px py = some i ↔ i < L.windows.length ∧ L.taskbar.OnButton px py i

/-- The point lies on a drawn button and not under the tray; or on no drawn button, and then
in the tray, on the Start button, or on a taskbar without buttons. -/
def PlainPoint (L : DesktopLayout) (px py : u32) : Prop :=
  (∃ i, i < L.windows.length ∧ L.taskbar.OnButton px py i ∧ px.toNat < L.taskbar.trayX.toNat) ∨
    (∀ i, i < L.windows.length → ¬ L.taskbar.OnButton px py i) ∧
      (L.taskbar.trayX.toNat ≤ px.toNat ∨ L.taskbar.startBox.Contains px py ∨
        L.windows.length = 0)

/-- Some point of the drawn button raises the window. -/
def Reachable (L : DesktopLayout) (i : Nat) : Prop :=
  ∃ px py, OnRow L px py ∧ L.taskbar.OnButton px py i ∧ raisedAt L px py = some i

structure RegionsApart (L : DesktopLayout) : Prop where
  start : Apart L.taskbar.startBox L.taskbar.trayBox
  buttons : ∀ i, i < L.windows.length → Apart (L.taskbar.buttonBox i) L.taskbar.startBox ∧
    Apart (L.taskbar.buttonBox i) L.taskbar.trayBox ∧
    ∀ j, j < L.windows.length → i ≠ j → Apart (L.taskbar.buttonBox i) (L.taskbar.buttonBox j)

/-- What the taskbar of a layout should do. -/
structure TaskbarRight (L : DesktopLayout) : Prop where
  raises : ∀ px py, OnRow L px py → RaisesDrawn L px py
  reaches : ∀ i, i < L.windows.length → Reachable L i
  apart : RegionsApart L

section

variable {L : DesktopLayout} {px py : u32} {i : Nat}

/-- **A click on the taskbar** raises this window and does nothing else to the list. -/
theorem click_raisedAt (row : L.taskbar.y.toNat ≤ py.toNat) :
    (handleShellClick L (hitTarget px py L).1 (hitTarget px py L).2).windows =
      match raisedAt L px py with
      | none => L.windows
      | some i => raise L.windows i := by
  have on : py ≥ (computeTaskbar L.screenW L.screenH L.windowCount).y := BitVec.le_def.mpr row
  rw [handleShellClick_clicked L (hitTarget px py L) fun _ => (hitTarget_taskbar on).2]
  have kinds : (hitTarget px py L).1 = .StartButton ∨ (hitTarget px py L).1 = .Tray ∨
      (hitTarget px py L).1 = .Taskbar := by
    rw [hitTarget]
    simp only [if_pos on]
    split
    case isTrue => exact .inl rfl
    case isFalse =>
      split
      case isTrue => exact .inr (.inl rfl)
      case isFalse => split <;> exact .inr (.inr rfl)
  rw [raisedAt]
  generalize hitTarget px py L = hit at kinds ⊢
  obtain ⟨kind, idx⟩ := hit
  rcases kinds with rfl | rfl | rfl
  · rfl
  · rfl
  · by_cases small : idx.toNat < L.windows.length
    case pos => simp only [if_pos small]; rfl
    case neg =>
      simp only [if_neg small]
      show raise L.windows idx.toNat = L.windows
      rw [raise, List.getElem?_eq_none (Nat.le_of_not_lt small)]

/-! ## Numbers -/

/-- The metrics of a screen that is wide and high enough. -/
structure Numbers (L : DesktopLayout) : Prop where
  startX : L.taskbar.startX.toNat = (L.screenW.toNat - (50 * L.windows.length + 44)) / 2
  first : L.taskbar.firstButtonX.toNat = L.taskbar.startX.toNat + 50
  trayX : L.taskbar.trayX.toNat = L.screenW.toNat - 200
  trayW : L.taskbar.trayW.toNat = 200
  bottom : L.taskbar.y.toNat + L.taskbar.height.toNat = L.screenH.toNat
  height : L.taskbar.height = 48#32 ∨ L.taskbar.height = 40#32
  count : L.taskbar.buttonCount.toNat = L.windows.length

/-- The width of the Start button and `n` app buttons. -/
theorem cluster_toNat {n : Nat} (few : n ≤ 8) :
    ((BitVec.ofNat 32 n + 1#32) * 44#32 + (BitVec.ofNat 32 n + 1#32 - 1#32) * 6#32).toNat =
      50 * n + 44 := by
  have count : (BitVec.ofNat 32 n).toNat = n := Nat.mod_eq_of_lt (by omega)
  rw [BitVec.add_sub_cancel, BitVec.toNat_add, BitVec.toNat_mul, BitVec.toNat_mul, BitVec.toNat_add,
    count]
  simp only [BitVec.toNat_ofNat]
  omega

theorem numbers (wide : 640 ≤ L.screenW.toNat) (high : 480 ≤ L.screenH.toNat) : Numbers L := by
  have few : L.windows.length ≤ 8 := L.room
  have boundW := L.screenW.isLt
  have w0 : ¬ L.screenW = 0#32 := by rintro zero; rw [zero] at wide; simp at wide
  have h0 : ¬ L.screenH = 0#32 := by rintro zero; rw [zero] at high; simp at high
  have wide' : L.screenW ≥ 640#32 := BitVec.le_def.mpr wide
  have tray : L.screenW > 200#32 := BitVec.lt_def.mpr (show 200 < L.screenW.toNat by omega)
  have cluster := cluster_toNat few
  have inside : L.screenW > (L.windowCount + 1#32) * 44#32 + (L.windowCount + 1#32 - 1#32) * 6#32 := by
    rw [gt_iff_lt, BitVec.lt_def, DesktopLayout.windowCount, cluster]
    omega
  have startX : L.taskbar.startX.toNat = (L.screenW.toNat - (50 * L.windows.length + 44)) / 2 := by
    simp only [DesktopLayout.taskbar, computeTaskbar, if_neg w0, if_pos inside]
    rw [BitVec.toNat_udiv, BitVec.toNat_sub_of_le (BitVec.le_of_lt inside), DesktopLayout.windowCount,
      cluster]
    rfl
  have tall : (if L.screenH ≥ 720#32 then (48#32 : u32) else 40#32).toNat ≤ 48 := by
    split <;> decide
  refine ⟨startX, ?_, ?_, ?_, ?_, ?_, Nat.mod_eq_of_lt (by omega)⟩
  · have sum : L.taskbar.firstButtonX = L.taskbar.startX + 50#32 := rfl
    rw [sum, BitVec.toNat_add, startX, show (50#32).toNat = 50 from rfl]
    omega
  · simp only [DesktopLayout.taskbar, computeTaskbar, if_neg w0, if_pos wide', if_pos tray]
    rw [BitVec.toNat_sub_of_le (BitVec.le_of_lt tray)]
    rfl
  · simp only [DesktopLayout.taskbar, computeTaskbar, if_neg w0, if_pos wide']
    rfl
  · simp only [DesktopLayout.taskbar, computeTaskbar, if_neg h0]
    rw [BitVec.toNat_sub_of_le (BitVec.le_def.mpr (by omega))]
    omega
  · simp only [DesktopLayout.taskbar, computeTaskbar, if_neg h0]
    split
    case isTrue => exact .inl rfl
    case isFalse => exact .inr rfl

/-- The left edge of a button. -/
theorem Numbers.buttonX (h : Numbers L) (wide : 640 ≤ L.screenW.toNat) (few : i ≤ 8) :
    (L.taskbar.buttonX i).toNat = L.taskbar.startX.toNat + 50 + 50 * i := by
  have startX := h.startX
  have bound := L.screenW.isLt
  have slot : (L.taskbar.buttonW + L.taskbar.buttonGap).toNat = 50 := rfl
  rw [TaskbarMetrics.buttonX, BitVec.toNat_add, BitVec.toNat_mul, slot, h.first, BitVec.toNat_ofNat]
  omega

/-- The tile in numbers: 36 or 28 pixels in the middle of 44. -/
theorem Numbers.tile (h : Numbers L) (wide : 640 ≤ L.screenW.toNat) (few : i ≤ 8) :
    ∃ inset, (inset = 4 ∨ inset = 8) ∧
      (L.taskbar.tile i).x.toNat = L.taskbar.startX.toNat + 50 + 50 * i + inset ∧
      (L.taskbar.tile i).w.toNat = 44 - 2 * inset := by
  have x := h.buttonX wide few
  have startX := h.startX
  have bound := L.screenW.isLt
  have buttonW : L.taskbar.buttonW = 44#32 := rfl
  rcases h.height with tall | low
  · refine ⟨4, .inl rfl, ?_, ?_⟩
    · simp only [TaskbarMetrics.tile, TaskbarMetrics.tileSize, tall, buttonW]
      rw [BitVec.toNat_add, x, show ((44#32 - if 48#32 ≥ 44#32 then 36#32 else 28#32) / 2#32).toNat = 4
        from by decide]
      omega
    · simp only [TaskbarMetrics.tile, TaskbarMetrics.tileSize, tall]
      decide
  · refine ⟨8, .inr rfl, ?_, ?_⟩
    · simp only [TaskbarMetrics.tile, TaskbarMetrics.tileSize, low, buttonW]
      rw [BitVec.toNat_add, x, show ((44#32 - if 40#32 ≥ 44#32 then 36#32 else 28#32) / 2#32).toNat = 8
        from by decide]
      omega
    · simp only [TaskbarMetrics.tile, TaskbarMetrics.tileSize, low]
      decide

/-- What is drawn of a button lies inside its box. -/
theorem Numbers.onButton (h : Numbers L) (wide : 640 ≤ L.screenW.toNat) (few : i < 8)
    (on : L.taskbar.OnButton px py i) :
    L.taskbar.startX.toNat + 52 + 50 * i ≤ px.toNat ∧
      px.toNat < L.taskbar.startX.toNat + 92 + 50 * i := by
  have startX := h.startX
  have bound := L.screenW.isLt
  rcases on with tile | ⟨rfl, highlight | underline⟩
  · obtain ⟨inset, inset', x, w⟩ := h.tile wide (Nat.le_of_lt few)
    obtain ⟨low, high, -⟩ := tile
    rw [x] at low high
    rw [w] at high
    omega
  · have x := h.buttonX wide (Nat.zero_le 8)
    have left : (L.taskbar.buttonX 0 + 2#32).toNat = L.taskbar.startX.toNat + 52 := by
      rw [BitVec.toNat_add, x, show (2#32).toNat = 2 from rfl]
      omega
    have size : (L.taskbar.buttonW - 4#32).toNat = 40 := by
      rw [show L.taskbar.buttonW = 44#32 from rfl]
      rfl
    obtain ⟨low, high, -⟩ := highlight
    simp only [TaskbarMetrics.highlight, left, size] at low high
    omega
  · have x := h.buttonX wide (Nat.zero_le 8)
    have half : (L.taskbar.buttonW / 2#32).toNat = 22 := by
      rw [show L.taskbar.buttonW = 44#32 from rfl]
      rfl
    have middle : (L.taskbar.buttonX 0 + L.taskbar.buttonW / 2#32).toNat =
        L.taskbar.startX.toNat + 72 := by
      rw [BitVec.toNat_add, x, half]
      omega
    have left : (L.taskbar.buttonX 0 + L.taskbar.buttonW / 2#32 - 9#32).toNat =
        L.taskbar.startX.toNat + 63 := by
      rw [BitVec.toNat_sub_of_le (BitVec.le_def.mpr (by rw [middle]; simp only [BitVec.toNat_ofNat]; omega)),
        middle]
      rfl
    obtain ⟨low, high, -⟩ := underline
    simp only [TaskbarMetrics.underline, left, BitVec.toNat_ofNat] at low high
    omega

/-- The Start button on the row. -/
theorem Numbers.onStart (h : Numbers L) (row : OnRow L px py) :
    L.taskbar.startBox.Contains px py ↔
      L.taskbar.startX.toNat ≤ px.toNat ∧ px.toNat < L.taskbar.startX.toNat + 44 := by
  have bottom := h.bottom
  have w : L.taskbar.startW.toNat = 44 := rfl
  obtain ⟨-, top, low⟩ := row
  simp only [TaskbarMetrics.startBox, Rect.Contains, w]
  omega

/-- **What a point on the row raises**, in numbers. -/
theorem Numbers.raised_eq (h : Numbers L) (wide : 640 ≤ L.screenW.toNat) (row : OnRow L px py) :
    raisedAt L px py =
      if L.taskbar.startX.toNat ≤ px.toNat ∧ px.toNat < L.taskbar.startX.toNat + 44 then none
      else if L.taskbar.trayX.toNat ≤ px.toNat then none
      else if L.taskbar.startX.toNat + 50 ≤ px.toNat ∧
          px.toNat < L.taskbar.startX.toNat + 50 + 50 * L.windows.length then
        some ((px.toNat - (L.taskbar.startX.toNat + 50)) / 50)
      else if 0 < L.windows.length then some 0 else none := by
  have few : L.windows.length ≤ 8 := L.room
  have startX := h.startX
  have first := h.first
  have count := h.count
  have bound := L.screenW.isLt
  have on : py ≥ (computeTaskbar L.screenW L.screenH L.windowCount).y := BitVec.le_def.mpr row.2.1
  have start : inRect px py L.taskbar.startX L.taskbar.y L.taskbar.startW L.taskbar.height = true ↔
      L.taskbar.startX.toNat ≤ px.toNat ∧ px.toNat < L.taskbar.startX.toNat + 44 := by
    rw [← h.onStart row, TaskbarMetrics.startBox]
    refine inRect_iff ?_ ?_
    · rw [show L.taskbar.startW.toNat = 44 from rfl]
      omega
    · rw [h.bottom]
      exact L.screenH.isLt
  have tray : px ≥ L.taskbar.trayX ↔ L.taskbar.trayX.toNat ≤ px.toNat := BitVec.le_def
  have slot : (L.taskbar.buttonW + L.taskbar.buttonGap).toNat = 50 := rfl
  have last : (L.taskbar.firstButtonX + L.taskbar.buttonCount *
      (L.taskbar.buttonW + L.taskbar.buttonGap)).toNat =
      L.taskbar.startX.toNat + 50 + 50 * L.windows.length := by
    rw [BitVec.toNat_add, BitVec.toNat_mul, slot, first, count]
    omega
  have slots : (px ≥ L.taskbar.firstButtonX ∧ px < L.taskbar.firstButtonX + L.taskbar.buttonCount *
      (L.taskbar.buttonW + L.taskbar.buttonGap)) ↔
      L.taskbar.startX.toNat + 50 ≤ px.toNat ∧
        px.toNat < L.taskbar.startX.toNat + 50 + 50 * L.windows.length := by
    rw [ge_iff_le, BitVec.le_def, BitVec.lt_def, last, first]
  have hit : hitTarget px py L =
      if inRect px py L.taskbar.startX L.taskbar.y L.taskbar.startW L.taskbar.height = true then
        (.StartButton, 0#32)
      else if px ≥ L.taskbar.trayX then (.Tray, 0#32)
      else if px ≥ L.taskbar.firstButtonX ∧ px < L.taskbar.firstButtonX + L.taskbar.buttonCount *
          (L.taskbar.buttonW + L.taskbar.buttonGap) then
        (.Taskbar, (px - L.taskbar.firstButtonX) / (L.taskbar.buttonW + L.taskbar.buttonGap))
      else (.Taskbar, 0#32) := if_pos on
  rw [raisedAt, hit]
  by_cases onStart : L.taskbar.startX.toNat ≤ px.toNat ∧ px.toNat < L.taskbar.startX.toNat + 44
  · rw [if_pos (start.mpr onStart), if_pos onStart]
  rw [if_neg fun yes => onStart (start.mp yes), if_neg onStart]
  by_cases inTray : L.taskbar.trayX.toNat ≤ px.toNat
  · rw [if_pos (tray.mpr inTray), if_pos inTray]
  rw [if_neg fun yes => inTray (tray.mp yes), if_neg inTray]
  by_cases inSlots : L.taskbar.startX.toNat + 50 ≤ px.toNat ∧
      px.toNat < L.taskbar.startX.toNat + 50 + 50 * L.windows.length
  case pos =>
    have index : ((px - L.taskbar.firstButtonX) / (L.taskbar.buttonW + L.taskbar.buttonGap)).toNat =
        (px.toNat - (L.taskbar.startX.toNat + 50)) / 50 := by
      rw [BitVec.toNat_udiv, slot, BitVec.toNat_sub_of_le (slots.mpr inSlots).1, first]
    rw [if_pos (slots.mpr inSlots), if_pos inSlots]
    simp only [index]
    rw [if_pos (by omega)]
  case neg =>
    rw [if_neg fun yes => inSlots (slots.mp yes), if_neg inSlots]
    rfl

/-! ## Exactly when -/

/-- **One point** raises the window whose button is drawn there, and none where none is,
exactly if it is plain. -/
theorem raises_iff (h : Numbers L) (wide : 640 ≤ L.screenW.toNat) (row : OnRow L px py) :
    RaisesDrawn L px py ↔ PlainPoint L px py := by
  have few : L.windows.length ≤ 8 := L.room
  have raised := h.raised_eq wide row
  have onStart := h.onStart row
  have on : ∀ j, j < L.windows.length → L.taskbar.OnButton px py j →
      L.taskbar.startX.toNat + 52 + 50 * j ≤ px.toNat ∧
        px.toNat < L.taskbar.startX.toNat + 92 + 50 * j :=
    fun j hj => h.onButton wide (by omega)
  by_cases drawn : ∃ j, j < L.windows.length ∧ L.taskbar.OnButton px py j
  case pos =>
    obtain ⟨j, hj, button⟩ := drawn
    obtain ⟨low, high⟩ := on j hj button
    have only : ∀ i, i < L.windows.length ∧ L.taskbar.OnButton px py i ↔ i = j := by
      intro i
      constructor
      · rintro ⟨hi, other⟩
        have there := on i hi other
        omega
      · rintro rfl
        exact ⟨hj, button⟩
    have index : (px.toNat - (L.taskbar.startX.toNat + 50)) / 50 = j := by omega
    rw [if_neg (by omega), index] at raised
    by_cases tray : L.taskbar.trayX.toNat ≤ px.toNat
    case pos =>
      rw [if_pos tray] at raised
      refine iff_of_false (fun right => ?_) ?_
      · have wrong := (right j).mpr ⟨hj, button⟩
        rw [raised] at wrong
        cases wrong
      · rintro (⟨i, hi, button', left⟩ | ⟨none, -⟩)
        · omega
        · exact none j hj button
    case neg =>
      rw [if_neg tray, if_pos (by omega)] at raised
      refine iff_of_true (fun i => ?_) (.inl ⟨j, hj, button, by omega⟩)
      rw [raised, only, Option.some.injEq, eq_comm]
  case neg =>
    have none : ∀ i, i < L.windows.length → ¬ L.taskbar.OnButton px py i :=
      fun i hi button => drawn ⟨i, hi, button⟩
    have right : RaisesDrawn L px py ↔ raisedAt L px py = Option.none := by
      constructor
      · intro right
        cases some_ : raisedAt L px py with
        | none => rfl
        | some i =>
          obtain ⟨hi, button⟩ := (right i).mp some_
          exact absurd button (none i hi)
      · intro no i
        rw [no]
        exact iff_of_false (by simp) fun yes => none i yes.1 yes.2
    have plain : PlainPoint L px py ↔ L.taskbar.trayX.toNat ≤ px.toNat ∨
        L.taskbar.startBox.Contains px py ∨ L.windows.length = 0 := by
      constructor
      · rintro (⟨i, hi, button, -⟩ | ⟨-, rest⟩)
        · exact absurd button (none i hi)
        · exact rest
      · exact fun rest => .inr ⟨none, rest⟩
    rw [right, plain, raised, onStart]
    split
    case isTrue start => exact iff_of_true rfl (.inr (.inl start))
    case isFalse start =>
      split
      case isTrue tray => exact iff_of_true rfl (.inl tray)
      case isFalse tray =>
        split
        case isTrue slots =>
          exact iff_of_false (by simp) fun rest => by
            rcases rest with no | no | no
            · exact tray no
            · exact start no
            · omega
        case isFalse =>
          split
          case isTrue some_ =>
            exact iff_of_false (by simp) fun rest => by
              rcases rest with no | no | no
              · exact tray no
              · exact start no
              · omega
          case isFalse empty => exact iff_of_true rfl (.inr (.inr (by omega)))

/-- **A button has points that raise its window** exactly if its tile begins left of the
tray. -/
theorem reachable_iff (h : Numbers L) (wide : 640 ≤ L.screenW.toNat)
    (high : 480 ≤ L.screenH.toNat) (open_ : i < L.windows.length) :
    Reachable L i ↔ (L.taskbar.tile i).x.toNat < L.taskbar.trayX.toNat := by
  have few : L.windows.length ≤ 8 := L.room
  have startX := h.startX
  have trayX := h.trayX
  have bottom := h.bottom
  obtain ⟨inset, inset', x, w⟩ := h.tile wide (by omega : i ≤ 8)
  constructor
  · rintro ⟨px, py, row, on, raised⟩
    have left : px.toNat < L.taskbar.trayX.toNat := by
      rw [h.raised_eq wide row] at raised
      by_contra tray
      rw [if_pos (Nat.le_of_not_lt tray)] at raised
      split at raised <;> cases raised
    rcases on with tile | ⟨rfl, -⟩
    · exact Nat.lt_of_le_of_lt tile.1 left
    · omega
  · intro left
    have small : (L.taskbar.height - L.taskbar.tileSize).toNat = 12 := by
      rcases h.height with tall | low
      · rw [TaskbarMetrics.tileSize, tall]; decide
      · rw [TaskbarMetrics.tileSize, low]; decide
    have height : 40 ≤ L.taskbar.height.toNat := by
      rcases h.height with tall | low
      · rw [tall]; decide
      · rw [low]; decide
    have boundH := L.screenH.isLt
    have y : (L.taskbar.tile i).y.toNat = L.taskbar.y.toNat + 6 := by
      rw [TaskbarMetrics.tile, BitVec.toNat_add, BitVec.toNat_udiv, small,
        show (2#32).toNat = 2 from rfl]
      omega
    have size : (L.taskbar.tile i).h = (L.taskbar.tile i).w := rfl
    have row : OnRow L (L.taskbar.tile i).x (L.taskbar.tile i).y :=
      ⟨by omega, by omega, by omega⟩
    refine ⟨(L.taskbar.tile i).x, (L.taskbar.tile i).y, row,
      .inl ⟨Nat.le_refl _, by omega, Nat.le_refl _, by rw [size]; omega⟩, ?_⟩
    rw [h.raised_eq wide row, x, if_neg (by omega), if_neg (by omega), if_pos (by omega)]
    congr 1
    omega

/-- **The Start button, the app buttons and the tray** are apart exactly if the last of the
buttons ends left of the tray. -/
theorem apart_iff (h : Numbers L) (wide : 640 ≤ L.screenW.toNat) :
    RegionsApart L ↔
      L.taskbar.startX.toNat + 50 * L.windows.length + 44 ≤ L.taskbar.trayX.toNat := by
  have few : L.windows.length ≤ 8 := L.room
  have startX := h.startX
  have trayX := h.trayX
  have bound := L.screenW.isLt
  have buttonW : L.taskbar.buttonW.toNat = 44 := rfl
  have startW : L.taskbar.startW.toNat = 44 := rfl
  have x : ∀ i, i < L.windows.length →
      (L.taskbar.buttonBox i).x.toNat = L.taskbar.startX.toNat + 50 + 50 * i :=
    fun i hi => h.buttonX wide (by omega)
  constructor
  · intro apart
    by_contra under
    have some_ : 0 < L.windows.length := by omega
    have last := x (L.windows.length - 1) (by omega)
    have height : 0 < L.taskbar.height.toNat := by
      rcases h.height with tall | low
      · rw [tall]; decide
      · rw [low]; decide
    -- a point of the last button under the tray
    have both := (apart.buttons (L.windows.length - 1) (by omega)).2.1
      (BitVec.ofNat 32 (max (L.taskbar.startX.toNat + 50 * L.windows.length) L.taskbar.trayX.toNat))
      L.taskbar.y
    have value : (BitVec.ofNat 32 (max (L.taskbar.startX.toNat + 50 * L.windows.length)
        L.taskbar.trayX.toNat)).toNat =
        max (L.taskbar.startX.toNat + 50 * L.windows.length) L.taskbar.trayX.toNat :=
      Nat.mod_eq_of_lt (by omega)
    have w : (L.taskbar.buttonBox (L.windows.length - 1)).w.toNat = 44 := buttonW
    have trayW : L.taskbar.trayBox.w.toNat = 200 := h.trayW
    refine both ⟨⟨?_, ?_, Nat.le_refl _, Nat.lt_add_of_pos_right height⟩,
      ⟨?_, ?_, Nat.le_refl _, Nat.lt_add_of_pos_right height⟩⟩
    · rw [last, value]
      omega
    · rw [last, value, w]
      omega
    · rw [value]
      exact le_max_right _ _
    · rw [value, trayW]
      show _ < L.taskbar.trayX.toNat + 200
      omega
  · intro clear
    have start : ∀ px py, L.taskbar.startBox.Contains px py →
        L.taskbar.startX.toNat ≤ px.toNat ∧ px.toNat < L.taskbar.startX.toNat + 44 :=
      fun px py on => ⟨on.1, startW ▸ on.2.1⟩
    have button : ∀ i px py, i < L.windows.length → (L.taskbar.buttonBox i).Contains px py →
        L.taskbar.startX.toNat + 50 + 50 * i ≤ px.toNat ∧
          px.toNat < L.taskbar.startX.toNat + 94 + 50 * i := by
      intro i px py hi on
      obtain ⟨low, high, -⟩ := on
      rw [x i hi] at low high
      have w : (L.taskbar.buttonBox i).w.toNat = 44 := buttonW
      rw [w] at high
      omega
    have tray : ∀ px py, L.taskbar.trayBox.Contains px py → L.taskbar.trayX.toNat ≤ px.toNat :=
      fun px py on => on.1
    refine ⟨fun px py both => ?_, fun i hi => ⟨fun px py both => ?_, fun px py both => ?_,
      fun j hj other px py both => ?_⟩⟩
    · have here := start px py both.1
      have there := tray px py both.2
      omega
    · have here := button i px py hi both.1
      have there := start px py both.2
      omega
    · have here := button i px py hi both.1
      have there := tray px py both.2
      omega
    · have here := button i px py hi both.1
      have there := button j px py hj both.2
      omega

/-- A taskbar with windows never does what it should: its left end raises window 0. -/
theorem taskbarRight_iff (h : Numbers L) (wide : 640 ≤ L.screenW.toNat) :
    TaskbarRight L ↔ L.windows.length = 0 := by
  have few : L.windows.length ≤ 8 := L.room
  have startX := h.startX
  have trayX := h.trayX
  constructor
  · intro right
    by_contra some_
    have bottom := h.bottom
    have height : 0 < L.taskbar.height.toNat := by
      rcases h.height with tall | low
      · rw [tall]; decide
      · rw [low]; decide
    have row : OnRow L 0#32 L.taskbar.y :=
      ⟨show 0 < L.screenW.toNat by omega, Nat.le_refl _, by omega⟩
    have zero : (0#32 : u32).toNat = 0 := rfl
    rcases (raises_iff h wide row).mp (right.raises _ _ row) with ⟨i, hi, on, -⟩ | ⟨-, rest⟩
    · have there := h.onButton wide (by omega) on
      omega
    · rw [h.onStart row] at rest
      omega
  · intro none
    refine ⟨fun px py row => (raises_iff h wide row).mpr ?_, fun i hi => by omega,
      (apart_iff h wide).mpr (by omega)⟩
    exact .inr ⟨fun i hi => by omega, .inr (.inr none)⟩

end

/-- **The taskbar of every screen of at least 640 by 480 with up to eight windows.** A point
on the row raises the window whose button is drawn there exactly if it is plain; a button
has points that raise its window exactly if its tile begins left of the tray; the regions
are apart exactly if the last button ends left of the tray. All of it holds exactly if no
window is open. -/
theorem taskbar_exact (L : DesktopLayout) (wide : 640 ≤ L.screenW.toNat)
    (high : 480 ≤ L.screenH.toNat) :
    (∀ px py, OnRow L px py → (RaisesDrawn L px py ↔ PlainPoint L px py)) ∧
    (∀ i, i < L.windows.length →
      (Reachable L i ↔ (L.taskbar.tile i).x.toNat < L.taskbar.trayX.toNat)) ∧
    (RegionsApart L ↔
      L.taskbar.startX.toNat + 50 * L.windows.length + 44 ≤ L.taskbar.trayX.toNat) ∧
    (TaskbarRight L ↔ L.windows.length = 0) := by
  have h := numbers wide high
  exact ⟨fun px py row => raises_iff h wide row, fun i open_ => reachable_iff h wide high open_,
    apart_iff h wide, taskbarRight_iff h wide⟩

theorem taskbar_exact_first : RegionsApart (buildLayout 1 1920 1080) ↔
    (buildLayout 1 1920 1080).taskbar.startX.toNat + 50 * 5 + 44 ≤
      (buildLayout 1 1920 1080).taskbar.trayX.toNat :=
  (taskbar_exact (buildLayout 1 1920 1080) (by decide) (by decide)).2.2.1

/-- **The empty end of the taskbar** raises the bottom window. -/
theorem empty_taskbar_raises :
    ¬ ∀ L : DesktopLayout, 640 ≤ L.screenW.toNat → 480 ≤ L.screenH.toNat → TaskbarRight L := by
  intro h
  have right := h (buildLayout 1 1920 1080) (by decide) (by decide)
  have raised : raisedAt (buildLayout 1 1920 1080) 10 1060 = some 0 := by decide
  have drawn := ((right.raises 10 1060 (by decide)) 0).mp raised
  exact absurd drawn.2 (by decide)

end MicroNT.Shell
