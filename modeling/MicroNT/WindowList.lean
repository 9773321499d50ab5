import Mathlib.Data.List.Perm.Basic
import MicroNT.MousePackets
import MicroNT.StartMenuTiles

/-! # The list of windows under the pointer (`session_manager.cpp`)

The windows as a plain list, from the bottom to the top: what opening, closing and raising
do to it, and what a drag leaves of it. A drag keeps an index into the array; here it keeps
the window itself. -/

namespace MicroNT.Shell

open Base.Machine Base.Layers

/-! ## The list -/

/-- Window `i` comes to the top, and the others keep their order. -/
def raise (ws : List ShellWindow) (i : Nat) : List ShellWindow :=
  match ws[i]? with
  | none => ws
  | some w => ws.eraseIdx i ++ [w]

/-- The windows that stay when one more is opened: all of them, or all but the bottom one
where eight are open. -/
def kept (ws : List ShellWindow) : List ShellWindow := if ws.length = MAX_WINDOWS then ws.tail else ws

/-- The window that opens over `n` others. -/
def newWindow (title : String) (n : Nat) : ShellWindow where
  title := title
  status := "MicroNT window"
  x := 320#32 + BitVec.ofNat 32 n * 28#32
  y := 140#32 + BitVec.ofNat 32 n * 28#32
  width := 560#32
  height := 360#32
  toolbar := true

def opened (ws : List ShellWindow) (title : String) : List ShellWindow :=
  kept ws ++ [newWindow title (kept ws).length]

/-- The windows after a click on this target. -/
def clicked (L : DesktopLayout) (hit : HitTargetKind × u32) : List ShellWindow :=
  match launched L hit, hit.1 with
  | some title, _ => opened L.windows title
  | none, .WindowClose => L.windows.eraseIdx hit.2.toNat
  | none, .ShellWindow => raise L.windows hit.2.toNat
  | none, .Taskbar => raise L.windows hit.2.toNat
  | none, _ => L.windows

/-! ## Samples -/

/-- A packet and the position that `CurrentPosition` gives for it, which is never negative. -/
structure Sample where
  packet : Packet
  x : i32
  y : i32
  xNonneg : 0 ≤ x.toInt
  yNonneg : 0 ≤ y.toInt

/-- The sample of a packet, where the mouse has the cursor on the screen. -/
def Mouse.sample {fb : Option (u32 × u32)} (m : Mouse) (inside : m.Inside fb) (packet : Packet) :
    Sample := ⟨packet, m.x, m.y, inside.1, inside.2.2.1⟩

/-- The window that was grabbed, the windows below it, and where the cursor was on it. -/
structure Grab where
  others : List ShellWindow
  window : ShellWindow
  offX : ℤ
  offY : ℤ

/-- The grabbed window, with the grab point at `(mx, my)` unless an edge stops it. -/
def Grab.Follows (g : Grab) (w : ShellWindow) (mx my : ℤ) : Prop :=
  w = { g.window with x := w.x, y := w.y } ∧
    (w.x.toNat : ℤ) = max 0 (mx - g.offX) ∧ (w.y.toNat : ℤ) = max 0 (my - g.offY)

/-- The desk, and the grab of the drag that is on. -/
structure Dragged where
  desk : Desk
  grab : Option Grab

/-- The press on window `i`. -/
def grabAt (L : DesktopLayout) (i : Nat) (mx my : ℤ) : Option Grab :=
  L.windows[i]?.map fun w => ⟨L.windows.eraseIdx i, w, mx - w.x.toNat, my - w.y.toNat⟩

def Dragged.step (s : Dragged) (a : Sample) : Option Dragged :=
  let r := pumpPacket s.desk a.packet a.x a.y
  some ⟨r.2, match r.1.outcome with
    | .grabbed win => grabAt s.desk.layout win.toNat a.x.toInt a.y.toInt
    | .dropped => none
    | _ => s.grab⟩

/-- The sample presses the button on the title bar of window `i`. -/
def Dragged.Presses (s : Dragged) (a : Sample) (i : Nat) (w : ShellWindow) : Prop :=
  s.desk.pointer.leftButtonDown = false ∧ a.packet.left = true ∧
    hitTarget a.x a.y s.desk.layout = (.ShellWindow, BitVec.ofNat 32 i) ∧
    s.desk.layout.windows[i]? = some w ∧ a.y.toNat < w.y.toNat + 32

/-- **What a sample may do to the windows.** In a drag it moves the grabbed window, or ends
the drag. Otherwise a press on a title bar raises that window and grabs it, and a release is
a click at its own position. -/
def Dragged.Respects (s : Dragged) (a : Sample) : Prop :=
  ∀ t, s.step a = some t →
    match s.grab with
    | some g =>
      (a.packet.left = true → t.grab = some g ∧
        ∃ w, t.desk.layout.windows = g.others ++ [w] ∧ g.Follows w a.x.toInt a.y.toInt) ∧
      (a.packet.left = false → t.grab = none ∧ t.desk.layout.windows = s.desk.layout.windows)
    | none =>
      (∀ i w, s.Presses a i w →
        t.grab = grabAt s.desk.layout i a.x.toInt a.y.toInt ∧
          t.desk.layout.windows = raise s.desk.layout.windows i) ∧
      ((∀ i w, ¬ s.Presses a i w) →
        t.grab = none ∧ t.desk.layout.windows =
          if s.desk.pointer.leftButtonDown = true ∧ a.packet.left = false then
            clicked s.desk.layout (hitTarget a.x a.y s.desk.layout)
          else s.desk.layout.windows)

/-! ## The operations -/

section

variable {L : DesktopLayout} {ws : List ShellWindow} {w : ShellWindow} {i : Nat} {px py : u32}

theorem raise_of_some (h : ws[i]? = some w) : raise ws i = ws.eraseIdx i ++ [w] := by
  rw [raise, h]

/-- Raising permutes the windows. -/
theorem raise_perm (ws : List ShellWindow) (i : Nat) : (raise ws i).Perm ws := by
  rw [raise]
  cases h : ws[i]? with
  | none => exact .refl ws
  | some w =>
    obtain ⟨inside, rfl⟩ := List.getElem?_eq_some_iff.mp h
    exact List.perm_append_singleton _ _ |>.trans (List.getElem_cons_eraseIdx_perm inside)

/-- The top window stays where it is. -/
theorem raise_last (last : i + 1 = ws.length) : raise ws i = ws := by
  rw [raise]
  cases h : ws[i]? with
  | none => rfl
  | some w =>
    obtain ⟨front, top, rfl⟩ := List.eq_nil_or_concat' ws |>.resolve_left (by rintro rfl; cases last)
    obtain rfl : i = front.length := by
      rw [List.length_append, List.length_singleton] at last
      omega
    rw [List.getElem?_concat_length] at h
    obtain rfl := Option.some.inj h
    rw [List.eraseIdx_append_of_length_le (Nat.le_refl _), Nat.sub_self]
    exact congrArg (· ++ [top]) (List.append_nil front)

/-- **`FocusWindow`** raises the window, for every index that the sum does not wrap. -/
theorem focusWindow_windows (L : DesktopLayout) {idx : u32} (small : idx.toNat + 1 < 2 ^ 32) :
    (focusWindow L idx).windows = raise L.windows idx.toNat := by
  have room := L.room
  have count : L.windowCount.toNat = L.windows.length :=
    Nat.mod_eq_of_lt (by simp only [MAX_WINDOWS] at room; omega)
  have next : (idx + 1#32).toNat = idx.toNat + 1 := by
    rw [BitVec.toNat_add, show (1#32).toNat = 1 from rfl, Nat.mod_eq_of_lt small]
  rw [focusWindow]
  split
  case isTrue top =>
    rw [ge_iff_le, BitVec.le_def, next, count] at top
    rcases Nat.lt_or_eq_of_le top with past | last
    · rw [raise, List.getElem?_eq_none (Nat.le_of_lt_succ past)]
    · exact (raise_last last.symm).symm
  case isFalse =>
    split
    case h_1 none => rw [raise, none]
    case h_2 w at_ => rw [raise_of_some at_]; rfl

theorem openWindow_windows (L : DesktopLayout) (title : String) :
    (openWindow L title).windows = opened L.windows title := by
  have room := L.room
  have full : (L.windows.length ≥ MAX_WINDOWS) = (L.windows.length = MAX_WINDOWS) :=
    propext ⟨fun h => le_antisymm room h, fun h => le_of_eq h.symm⟩
  simp only [openWindow, opened, kept, newWindow, DesktopLayout.withWindows, full]

/-- **A click** does to the windows what its target says, where an index to raise is small. -/
theorem handleShellClick_clicked (L : DesktopLayout) (hit : HitTargetKind × u32)
    (small : hit.1 = .ShellWindow ∨ hit.1 = .Taskbar → hit.2.toNat + 1 < 2 ^ 32) :
    (handleShellClick L hit.1 hit.2).windows = clicked L hit := by
  cases title : launched L hit with
  | some title' =>
    rw [handleShellClick_windows L hit title, openWindow_windows, clicked, title]
  | none =>
    obtain ⟨target, index⟩ := hit
    rw [clicked, title]
    cases target with
    | ShellWindow => exact focusWindow_windows L (small (.inl rfl))
    | Taskbar => exact focusWindow_windows L (small (.inr rfl))
    | StartMenu => cases title
    | DesktopIcon =>
      rw [launched] at title
      simp only [handleShellClick, Option.map_eq_none_iff.mp title]
    | _ => rfl

/-! ## What is hit -/

theorem hitStartMenu_kind {tb : TaskbarMetrics} {r : HitTargetKind × u32}
    (h : hitStartMenu px py L tb = some r) : r.1 = .StartMenu := by
  obtain ⟨-, h⟩ := Option.ite_none_right_eq_some.mp h
  rw [← Option.some.inj h]

/-- On the taskbar there is no window under the pointer, and an index is small. -/
theorem hitTarget_taskbar (on : py ≥ (computeTaskbar L.screenW L.screenH L.windowCount).y) :
    (hitTarget px py L).1 ≠ .ShellWindow ∧ (hitTarget px py L).2.toNat + 1 < 2 ^ 32 := by
  rw [hitTarget]
  simp only [if_pos on]
  split
  case isTrue => exact ⟨by decide, by decide⟩
  case isFalse =>
    split
    case isTrue => exact ⟨by decide, by decide⟩
    case isFalse =>
      split
      case isFalse => exact ⟨by decide, by decide⟩
      case isTrue =>
        refine ⟨(by decide : HitTargetKind.Taskbar ≠ .ShellWindow), ?_⟩
        have slot : ((computeTaskbar L.screenW L.screenH L.windowCount).buttonW +
            (computeTaskbar L.screenW L.screenH L.windowCount).buttonGap).toNat = 50 := rfl
        rw [BitVec.toNat_udiv, slot]
        have bound := (px - (computeTaskbar L.screenW L.screenH L.windowCount).firstButtonX).isLt
        omega

/-- Above the taskbar a target is the Start menu, a window, an icon or the desktop. -/
theorem hitTarget_above (above : ¬ py ≥ (computeTaskbar L.screenW L.screenH L.windowCount).y) :
    hitWindows px py L.windows.reverse = some (hitTarget px py L) ∨
      (hitTarget px py L).1 = .StartMenu ∨ (hitTarget px py L).1 = .DesktopIcon ∨
      (hitTarget px py L).1 = .Desktop := by
  rw [hitTarget]
  simp only [if_neg above]
  cases menu : hitStartMenu px py L (computeTaskbar L.screenW L.screenH L.windowCount) with
  | some r => exact .inr (.inl (hitStartMenu_kind menu))
  | none =>
    cases window : hitWindows px py L.windows.reverse with
    | some r => exact .inl rfl
    | none =>
      cases icon : hitIcons px py L.icons.length 0#32 with
      | some r => exact .inr (.inr (.inl (hitIcons_kind _ _ icon)))
      | none => exact .inr (.inr (.inr rfl))

/-- **A window that the pointer is over** lies at the point. -/
theorem hitTarget_body (placed : L.Placed)
    (kind : (hitTarget px py L).1 = .ShellWindow) :
    ∃ i w, L.windows[i]? = some w ∧ (hitTarget px py L).2 = BitVec.ofNat 32 i ∧
      w.stored.Contains px py := by
  have found : hitWindows px py L.windows.reverse = some (hitTarget px py L) := by
    by_cases on : py ≥ (computeTaskbar L.screenW L.screenH L.windowCount).y
    case pos => exact absurd kind (hitTarget_taskbar on).1
    case neg =>
      refine (hitTarget_above on).resolve_right fun other => ?_
      rw [kind] at other
      exact absurd other (by decide)
  obtain ⟨i, w, top, index, -⟩ := (hitWindows_some placed).mp found
  exact ⟨i, w, top.layer, index, top.holds⟩

theorem index_toNat (h : L.windows[i]? = some w) : i < 8 ∧ (BitVec.ofNat 32 i).toNat = i := by
  have inside := (List.getElem?_eq_some_iff.mp h).1
  have room := L.room
  simp only [MAX_WINDOWS] at room
  rw [BitVec.toNat_ofNat, Nat.mod_eq_of_lt (by omega)]
  exact ⟨by omega, rfl⟩

/-- **An index to raise** is small enough for `FocusWindow` to add one to it. -/
theorem hitTarget_small (placed : L.Placed)
    (h : (hitTarget px py L).1 = .ShellWindow ∨ (hitTarget px py L).1 = .Taskbar) :
    (hitTarget px py L).2.toNat + 1 < 2 ^ 32 := by
  by_cases on : py ≥ (computeTaskbar L.screenW L.screenH L.windowCount).y
  case pos => exact (hitTarget_taskbar on).2
  case neg =>
    have found : hitWindows px py L.windows.reverse = some (hitTarget px py L) := by
      refine (hitTarget_above on).resolve_right fun other => ?_
      rcases h with kind | kind <;> rw [kind] at other <;> exact absurd other (by decide)
    generalize hitTarget px py L = hit at found ⊢
    obtain ⟨k, idx⟩ := hit
    obtain ⟨i, w, top, rfl, -⟩ := (hitWindows_some placed).mp found
    obtain ⟨few, same⟩ := index_toNat top.layer
    rw [same]
    omega

/-! ## One sample -/

/-- What holds between samples: the drag is on exactly if a window is grabbed, which is then
the top one, and the drag index is its index. -/
structure Dragged.Inv (s : Dragged) : Prop where
  testing : s.desk.pointer.hitTestingReady = true
  ready : s.desk.layout.ready = true
  session : s.desk.pointer.sessionId = s.desk.layout.sessionId
  placed : s.desk.layout.Placed
  dragging : s.desk.dragging = s.grab.isSome
  held : ∀ g, s.grab = some g → (∃ w, s.desk.layout.windows = g.others ++ [w] ∧
      w = { g.window with x := w.x, y := w.y }) ∧
    s.desk.dragWin.toNat = g.others.length ∧
    (s.desk.dragOffX.toInt = g.offX ∧ 0 ≤ g.offX ∧ g.offX < 1000) ∧
    (s.desk.dragOffY.toInt = g.offY ∧ 0 ≤ g.offY ∧ g.offY < 1000)

/-- The hit test of a sample is made on the windows as they are. -/
theorem processPointer_eq {p : PointerState} (px py : u32) (testing : p.hitTestingReady = true)
    (ready : L.ready = true) (session : p.sessionId = L.sessionId) (left : Bool) :
    (processPointer p L px py left).1.clicked = (p.leftButtonDown && !left) ∧
      (processPointer p L px py left).1.target = (hitTarget px py L).1 ∧
      (processPointer p L px py left).1.targetIndex = (hitTarget px py L).2 ∧
      (processPointer p L px py left).2.hotTarget = (hitTarget px py L).1 ∧
      (processPointer p L px py left).2.targetIndex = (hitTarget px py L).2 ∧
      (processPointer p L px py left).2.sessionId = p.sessionId := by
  have live : ¬ (!p.hitTestingReady || !L.ready || p.sessionId != L.sessionId) = true := by
    simp [testing, ready, session]
  rw [processPointer, if_neg live]
  exact ⟨rfl, rfl, rfl, rfl, rfl, rfl⟩

/-- Moving the top window. -/
theorem modify_concat (f : ShellWindow → ShellWindow) (front : List ShellWindow) (w : ShellWindow) :
    (front ++ [w]).modify front.length f = front ++ [f w] := by
  induction front with
  | nil => rfl
  | cons v front ih => simp only [List.cons_append, List.length_cons, List.modify_succ_cons, ih]

/-- A coordinate that a drag gives a window. -/
theorem drag_coordinate {m off : i32} (nonneg : 0 ≤ m.toInt) (low : 0 ≤ off.toInt)
    (high : off.toInt < 1000) :
    (((if BitVec.slt 0#32 (m - off) then m - off else 0#32 : u32).toNat : ℕ) : ℤ) =
      max 0 (m.toInt - off.toInt) := by
  have top := BitVec.toInt_lt (x := m)
  have sub : (m - off).toInt = m.toInt - off.toInt := by
    rw [BitVec.toInt_sub, bmod_word (by omega) (by omega), if_pos (by omega)]
  have zero : (0#32 : i32).toInt = 0 := rfl
  have none : (0#32 : u32).toNat = 0 := rfl
  split
  case isTrue pos =>
    rw [BitVec.slt_iff_toInt_lt, sub, zero] at pos
    have value := BitVec.toInt_eq_toNat_cond (m - off)
    rw [sub] at value
    split at value <;> omega
  case isFalse neg =>
    rw [BitVec.slt_iff_toInt_lt, sub, zero] at neg
    rw [none]
    omega

theorem run_sessionId (ops : List LayoutOp) : (L.run ops).sessionId = L.sessionId := by
  induction ops generalizing L with
  | nil => rfl
  | cons op ops ih =>
    have here : (L.apply op).sessionId = L.sessionId := by
      cases op with
      | focusWindow idx =>
        simp only [DesktopLayout.apply, focusWindow]
        split
        case isTrue => rfl
        case isFalse => split <;> rfl
      | _ => rfl
    exact (ih (L := L.apply op)).trans here

/-- The shell's part of the pump keeps the pointer of the session. -/
theorem pumpPacket_pointer (d : Desk) (packet : Packet) (mx my : i32) :
    (pumpPacket d packet mx my).2.pointer =
      (processPointer d.pointer d.layout mx my packet.left).2 := by
  simp only [pumpPacket]
  split
  case isTrue => split <;> rfl
  case isFalse =>
    split
    case isTrue => rfl
    case isFalse => split <;> rfl

variable {s t : Dragged} {a : Sample} {g : Grab}

/-- What a sample leaves of the desk whatever it does. -/
theorem Dragged.Inv.desk (h : s.Inv) (a : Sample) :
    let d := (pumpPacket s.desk a.packet a.x a.y).2
    d.pointer.hitTestingReady = true ∧ d.layout.ready = true ∧
      d.pointer.sessionId = d.layout.sessionId ∧ d.layout.Placed := by
  obtain ⟨testing, ready⟩ := pumpPacket_testing s.desk a.packet a.x a.y
  obtain ⟨ops, layout⟩ := pumpPacket_layout s.desk a.packet a.x a.y
  obtain ⟨-, -, -, -, -, session⟩ :=
    processPointer_eq a.x a.y h.testing h.ready h.session a.packet.left
  refine ⟨testing.trans h.testing, ready.trans h.ready, ?_, layout ▸ run_placed h.placed ops⟩
  rw [pumpPacket_pointer, session, layout, run_sessionId, h.session]

/-- **A sample of a drag** with the button down moves the grabbed window. -/
theorem Dragged.Inv.move (h : s.Inv) (held : s.grab = some g) (left : a.packet.left = true)
    (next : s.step a = some t) :
    t.grab = some g ∧ t.desk.dragging = true ∧ t.desk.dragWin = s.desk.dragWin ∧
      t.desk.dragOffX = s.desk.dragOffX ∧ t.desk.dragOffY = s.desk.dragOffY ∧
      ∃ w, t.desk.layout.windows = g.others ++ [w] ∧ g.Follows w a.x.toInt a.y.toInt := by
  obtain rfl := Option.some.inj next
  obtain ⟨⟨w, windows, same⟩, win, ⟨offX, lowX, highX⟩, offY, lowY, highY⟩ := h.held g held
  have room := s.desk.layout.room
  have inside : s.desk.dragWin < s.desk.layout.windowCount := by
    rw [windows, List.length_append, List.length_singleton, MAX_WINDOWS] at room
    rw [BitVec.lt_def, win, DesktopLayout.windowCount, windows, List.length_append,
      List.length_singleton, BitVec.toNat_ofNat, Nat.mod_eq_of_lt (by omega)]
    omega
  have on : s.desk.dragging = true := by rw [h.dragging, held]; rfl
  have result : pumpPacket s.desk a.packet a.x a.y =
      (⟨a.x, a.y, (processPointer s.desk.pointer s.desk.layout a.x a.y a.packet.left).1,
          .moved s.desk.dragWin (a.x - s.desk.dragOffX) (a.y - s.desk.dragOffY)⟩,
        { s.desk with
          pointer := (processPointer s.desk.pointer s.desk.layout a.x a.y a.packet.left).2
          layout := dragWindow s.desk.layout s.desk.dragWin (a.x - s.desk.dragOffX)
            (a.y - s.desk.dragOffY) }) := by
    simp only [pumpPacket, on, left, inside, decide_true, Bool.and_self, if_true]
  simp only [result, held]
  refine ⟨trivial, on, trivial, trivial, trivial,
    w.dragTo (a.x - s.desk.dragOffX) (a.y - s.desk.dragOffY), ?_, ?_, ?_, ?_⟩
  · show s.desk.layout.windows.modify s.desk.dragWin.toNat _ = _
    rw [windows, win, modify_concat]
  · rw [same]
    rfl
  · rw [← offX]
    exact drag_coordinate a.xNonneg (offX ▸ lowX) (offX ▸ highX)
  · rw [← offY]
    exact drag_coordinate a.yNonneg (offY ▸ lowY) (offY ▸ highY)

/-- A release ends the drag and changes no window. -/
theorem Dragged.Inv.drop (h : s.Inv) (held : s.grab = some g) (left : a.packet.left = false)
    (next : s.step a = some t) :
    t.grab = none ∧ t.desk.dragging = false ∧
      t.desk.layout.windows = s.desk.layout.windows := by
  obtain rfl := Option.some.inj next
  have on : s.desk.dragging = true := by rw [h.dragging, held]; rfl
  simp only [pumpPacket, on, left, Bool.false_and, Bool.false_eq_true, if_false, if_true, and_self]

/-- The test for a title bar, where the pointer has just been resolved. -/
theorem Dragged.Inv.titleBar (h : s.Inv) (a : Sample) :
    titleBarHit { s.desk with
      pointer := (processPointer s.desk.pointer s.desk.layout a.x a.y a.packet.left).2 } a.y = true ↔
      ∃ i w, hitTarget a.x a.y s.desk.layout = (.ShellWindow, BitVec.ofNat 32 i) ∧
        s.desk.layout.windows[i]? = some w ∧ a.y.toNat < w.y.toNat + 32 := by
  obtain ⟨-, -, -, hot, index, -⟩ :=
    processPointer_eq a.x a.y h.testing h.ready h.session a.packet.left
  have strip : ∀ w : ShellWindow, w.Placed → (a.y < w.y + 32#32 ↔ a.y.toNat < w.y.toNat + 32) := by
    intro w placed
    have y := placed.y
    rw [BitVec.lt_def, BitVec.toNat_add, show (32#32).toNat = 32 from rfl,
      Nat.mod_eq_of_lt (by omega)]
  simp only [titleBarHit, hot, index, Bool.and_eq_true, beq_iff_eq]
  constructor
  · rintro ⟨kind, test⟩
    obtain ⟨i, w, at_, same, -⟩ := hitTarget_body h.placed kind
    rw [same, (index_toNat at_).2, at_] at test
    exact ⟨i, w, Prod.ext kind same, at_,
      (strip w (h.placed w (List.mem_of_getElem? at_))).mp (of_decide_eq_true test)⟩
  · rintro ⟨i, w, hit, at_, high⟩
    rw [hit, (index_toNat at_).2, at_]
    exact ⟨rfl, decide_eq_true ((strip w (h.placed w (List.mem_of_getElem? at_))).mpr high)⟩

/-- **A press on a title bar** raises the window and grabs it where the cursor is. -/
theorem Dragged.Inv.press (h : s.Inv) (free : s.grab = none) {w : ShellWindow}
    (press : s.Presses a i w) (next : s.step a = some t) :
    t.grab = grabAt s.desk.layout i a.x.toInt a.y.toInt ∧
      t.desk.layout.windows = raise s.desk.layout.windows i ∧ t.desk.dragging = true ∧
      t.desk.dragWin.toNat + 1 = s.desk.layout.windows.length ∧
      t.desk.dragOffX = a.x - w.x ∧ t.desk.dragOffY = a.y - w.y := by
  obtain rfl := Option.some.inj next
  obtain ⟨up, left, hit, at_, high⟩ := press
  obtain ⟨few, index⟩ := index_toNat at_
  obtain ⟨-, -, -, -, target, -⟩ :=
    processPointer_eq a.x a.y h.testing h.ready h.session a.packet.left
  have off : s.desk.dragging = false := by rw [h.dragging, free]; rfl
  have bar := (h.titleBar a).mpr ⟨i, w, hit, at_, high⟩
  have raised : (focusWindow s.desk.layout (BitVec.ofNat 32 i)).windows =
      raise s.desk.layout.windows (BitVec.ofNat 32 i).toNat :=
    focusWindow_windows s.desk.layout (by omega)
  rw [index] at raised
  have length : (raise s.desk.layout.windows i).length = s.desk.layout.windows.length :=
    (raise_perm _ i).length_eq
  have inside := (List.getElem?_eq_some_iff.mp at_).1
  have room := s.desk.layout.room
  rw [MAX_WINDOWS] at room
  have count : (BitVec.ofNat 32 s.desk.layout.windows.length).toNat = s.desk.layout.windows.length :=
    Nat.mod_eq_of_lt (by omega)
  have last : (BitVec.ofNat 32 s.desk.layout.windows.length - 1#32).toNat =
      s.desk.layout.windows.length - 1 := by
    rw [BitVec.toNat_sub_of_le (BitVec.le_def.mpr ?_), count]
    · rfl
    · rw [count]
      exact Nat.succ_le_of_lt (Nat.zero_lt_of_lt inside)
  have top : (raise s.desk.layout.windows i)[s.desk.layout.windows.length - 1]? = some w := by
    rw [raise_of_some at_]
    have short : (s.desk.layout.windows.eraseIdx i).length = s.desk.layout.windows.length - 1 :=
      List.length_eraseIdx_of_lt inside
    rw [← short, List.getElem?_concat_length]
  have target := target.trans (congrArg Prod.snd hit)
  have yes : (!false && true && true) = true := rfl
  unfold pumpPacket
  generalize processPointer s.desk.pointer s.desk.layout a.x a.y a.packet.left = r at bar target ⊢
  dsimp only at bar ⊢
  rw [off] at bar ⊢
  rw [if_neg Bool.false_ne_true, up, left, bar, if_pos yes, target]
  dsimp only [DesktopLayout.windowCount]
  rw [raised, length, last, top, index]
  exact ⟨rfl, rfl, rfl, Nat.sub_add_cancel (Nat.zero_lt_of_lt inside), rfl, rfl⟩

/-- A sample that presses no title bar while no drag is on is a click, or nothing. -/
theorem Dragged.Inv.click (h : s.Inv) (free : s.grab = none) (none : ∀ i w, ¬ s.Presses a i w)
    (next : s.step a = some t) :
    t.grab = Option.none ∧ t.desk.dragging = false ∧ t.desk.layout.windows =
      if s.desk.pointer.leftButtonDown = true ∧ a.packet.left = false then
        clicked s.desk.layout (hitTarget a.x a.y s.desk.layout)
      else s.desk.layout.windows := by
  obtain rfl := Option.some.inj next
  obtain ⟨click, kind, index, -⟩ :=
    processPointer_eq a.x a.y h.testing h.ready h.session a.packet.left
  have off : s.desk.dragging = false := by rw [h.dragging, free]; rfl
  have noPress : ¬ (!s.desk.pointer.leftButtonDown && a.packet.left && titleBarHit { s.desk with
      pointer := (processPointer s.desk.pointer s.desk.layout a.x a.y a.packet.left).2 } a.y) = true := by
    intro yes
    simp only [Bool.and_eq_true, Bool.not_eq_true', h.titleBar a] at yes
    obtain ⟨⟨up, left⟩, i, w, hit, at_, high⟩ := yes
    exact none i w ⟨up, left, hit, at_, high⟩
  have effect := handleShellClick_clicked s.desk.layout (hitTarget a.x a.y s.desk.layout)
    (hitTarget_small h.placed)
  have asked : (processPointer s.desk.pointer s.desk.layout a.x a.y a.packet.left).1.clicked = true ↔
      s.desk.pointer.leftButtonDown = true ∧ a.packet.left = false := by
    rw [click, Bool.and_eq_true, Bool.not_eq_true']
  unfold pumpPacket
  generalize processPointer s.desk.pointer s.desk.layout a.x a.y a.packet.left = r at *
  dsimp only at noPress ⊢
  rw [off] at noPress ⊢
  rw [if_neg Bool.false_ne_true, if_neg noPress, kind, index, free]
  by_cases clicks : s.desk.pointer.leftButtonDown = true ∧ a.packet.left = false
  case pos =>
    rw [if_pos (asked.mpr clicks), if_pos clicks]
    exact ⟨rfl, rfl, effect⟩
  case neg =>
    rw [if_neg fun yes => clicks (asked.mp yes), if_neg clicks]
    exact ⟨rfl, rfl, rfl⟩

/-- The grab point lies on the window. -/
theorem grab_offset {m place size : u32} (nonneg : 0 ≤ m.toInt) (low : place.toNat ≤ m.toNat)
    (high : m.toNat < place.toNat + size.toNat) (small : size.toNat < 1000) :
    (m - place).toInt = m.toInt - place.toNat ∧ 0 ≤ m.toInt - (place.toNat : ℤ) ∧
      m.toInt - (place.toNat : ℤ) < 1000 := by
  have value := BitVec.toInt_eq_toNat_cond m
  have bound := m.isLt
  have same : m.toInt = m.toNat := by split at value <;> omega
  have sub : (m - place).toNat = m.toNat - place.toNat := BitVec.toNat_sub_of_le (BitVec.le_def.mpr low)
  rw [BitVec.toInt_eq_toNat_cond, sub]
  refine ⟨?_, by omega, by omega⟩
  split <;> omega

/-- **Every sample** keeps the drag index that of the grabbed window. -/
theorem Dragged.Inv.step (h : s.Inv) (next : s.step a = some t) : t.Inv := by
  have desk : t.desk = (pumpPacket s.desk a.packet a.x a.y).2 := by
    obtain rfl := Option.some.inj next
    rfl
  obtain ⟨testing, ready, session, placed⟩ := desk ▸ h.desk a
  cases held : s.grab with
  | some g =>
    cases left : a.packet.left with
    | true =>
      obtain ⟨grab, on, win, offX, offY, w, windows, follows, -⟩ := h.move held left next
      refine ⟨testing, ready, session, placed, by rw [on, grab]; rfl, fun g' some' => ?_⟩
      obtain rfl := Option.some.inj (grab.symm.trans some')
      rw [win, offX, offY]
      exact ⟨⟨w, windows, follows⟩, (h.held g held).2⟩
    | false =>
      obtain ⟨grab, off, -⟩ := h.drop held left next
      exact ⟨testing, ready, session, placed, by rw [off, grab]; rfl,
        fun g' some' => by rw [grab] at some'; cases some'⟩
  | none =>
    by_cases press : ∃ i w, s.Presses a i w
    case pos =>
      obtain ⟨i, w, press⟩ := press
      obtain ⟨grab, windows, on, win, offX, offY⟩ := h.press held press next
      obtain ⟨-, -, hit, at_, -⟩ := press
      have inside := (List.getElem?_eq_some_iff.mp at_).1
      rw [grabAt, at_, Option.map_some] at grab
      refine ⟨testing, ready, session, placed, by rw [on, grab]; rfl, fun g' some' => ?_⟩
      obtain rfl := Option.some.inj (grab.symm.trans some')
      -- the point is on the window that was hit, so that the grab point is
      obtain ⟨j, v, at', index, low, high, lowY, highY⟩ :=
        hitTarget_body h.placed (congrArg Prod.fst hit)
      obtain rfl : i = j := by
        have same := congrArg BitVec.toNat ((congrArg Prod.snd hit).symm.trans index)
        rwa [(index_toNat at_).2, (index_toNat at').2] at same
      obtain rfl := Option.some.inj (at_.symm.trans at')
      have sizes := h.placed w (List.mem_of_getElem? at_)
      have wide := sizes.wide.2
      have tall := sizes.high.2
      have x := grab_offset a.xNonneg low high (by show w.width.toNat < 1000; omega)
      have y := grab_offset a.yNonneg lowY highY (by show w.height.toNat < 1000; omega)
      refine ⟨⟨w, windows.trans (raise_of_some at_), rfl⟩, ?_, offX ▸ x, offY ▸ y⟩
      rw [List.length_eraseIdx_of_lt inside]
      omega
    case neg =>
      obtain ⟨grab, off, -⟩ := h.click held (fun i w press' => press ⟨i, w, press'⟩) next
      exact ⟨testing, ready, session, placed, by rw [off, grab]; rfl,
        fun g' some' => by rw [grab] at some'; cases some'⟩

theorem Dragged.Inv.respects (h : s.Inv) (a : Sample) : s.Respects a := by
  intro t next
  cases held : s.grab with
  | some g =>
    refine ⟨fun left => ?_, fun left => ?_⟩
    · obtain ⟨grab, -, -, -, -, moved⟩ := h.move held left next
      exact ⟨grab, moved⟩
    · obtain ⟨grab, -, windows⟩ := h.drop held left next
      exact ⟨grab, windows⟩
  | none =>
    refine ⟨fun i w press => ?_, fun none => ?_⟩
    · obtain ⟨grab, windows, -⟩ := h.press held press next
      exact ⟨grab, windows⟩
    · obtain ⟨grab, -, windows⟩ := h.click held none next
      exact ⟨grab, windows⟩

end

/-! ## Runs -/

/-- The desk of a session that has started, with no drag on. -/
def Dragged.first (sessionId screenW screenH : u32) : Dragged :=
  ⟨firstDesk sessionId screenW screenH, none⟩

theorem first_inv (sessionId screenW screenH : u32) :
    (Dragged.first sessionId screenW screenH).Inv where
  testing := rfl
  ready := rfl
  session := rfl
  placed := buildLayout_placed sessionId screenW screenH
  dragging := rfl
  held := fun g no => by cases no

/-- **The list of windows under every sequence of samples.** There are never more than
eight windows. Raising permutes them and moves the chosen window to the end behind the
others in their order; closing takes the chosen window out; opening appends one window and
drops the bottom one, if eight are open, and no other. Every sample of the sequence changes
the list by at most one of these, or moves the window that was grabbed at the press, with
the grab point under the cursor except where a coordinate stops at 0. -/
theorem windows_respected (sessionId screenW screenH : u32) (samples : List Sample) :
    (∀ L : DesktopLayout, L.windows.length ≤ 8 ∧
      (∀ idx : u32, ∀ w, L.windows[idx.toNat]? = some w →
        (focusWindow L idx).windows = L.windows.eraseIdx idx.toNat ++ [w] ∧
          (focusWindow L idx).windows.Perm L.windows) ∧
      (∀ idx : u32, (closeWindow L idx).windows = L.windows.eraseIdx idx.toNat) ∧
      ∀ title, ∃ w, w.title = title ∧ (openWindow L title).windows =
        (if L.windows.length = 8 then L.windows.tail else L.windows) ++ [w]) ∧
    Along Dragged.step Dragged.Respects (Dragged.first sessionId screenW screenH) samples := by
  refine ⟨fun L => ⟨L.room, fun idx w at_ => ?_, fun idx => rfl, fun title => ?_⟩, ?_⟩
  · have inside := (List.getElem?_eq_some_iff.mp at_).1
    have room := L.room
    rw [MAX_WINDOWS] at room
    rw [focusWindow_windows L (by omega)]
    exact ⟨raise_of_some at_, raise_perm _ _⟩
  · exact ⟨newWindow title (kept L.windows).length, rfl, openWindow_windows L title⟩
  · exact along_invariant (G := fun _ _ => True) (fun s a t inv _ next => inv.step next)
      (fun s a inv _ => inv.respects a) (first_inv sessionId screenW screenH)
      (along_of_forall (fun _ _ => trivial) _ samples)

theorem windows_respected_first :
    (focusWindow (buildLayout 1 1920 1080) 0).windows.Perm firstWindows :=
  (((windows_respected 1 1920 1080 []).1 (buildLayout 1 1920 1080)).2.1 0 _ rfl).2

end MicroNT.Shell
