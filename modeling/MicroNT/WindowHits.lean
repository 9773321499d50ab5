import MicroNT.Base.Layers
import MicroNT.ShellInput

/-! # Windows on the screen and under the pointer

`StartDesktop` moves a window that reaches the right edge or the taskbar before it
draws it; `ResolveHitTarget` tests the place that the layout has. They agree at a
point exactly if the topmost window that has the point at either place has it at
both. -/

namespace MicroNT.Shell

open MicroNT.Base.Layers

/-! ## What is drawn -/

structure Rect where
  x : u32
  y : u32
  w : u32
  h : u32

def Rect.Contains (r : Rect) (px py : u32) : Prop :=
  r.x.toNat ≤ px.toNat ∧ px.toNat < r.x.toNat + r.w.toNat ∧
    r.y.toNat ≤ py.toNat ∧ py.toNat < r.y.toNat + r.h.toNat

instance instDecidableContains (r : Rect) (px py : u32) : Decidable (r.Contains px py) :=
  inferInstanceAs (Decidable (_ ∧ _))

/-- Where the layout has the window. -/
def ShellWindow.stored (win : ShellWindow) : Rect := ⟨win.x, win.y, win.width, win.height⟩

/-- Where `StartDesktop` draws the window, on a framebuffer of width `fbW` with the
taskbar at `taskY`. -/
def ShellWindow.drawn (fbW taskY : u32) (win : ShellWindow) : Rect where
  x := if win.x + win.width ≥ fbW then
      if fbW > win.width + 18#32 then fbW - win.width - 18#32 else 12#32
    else win.x
  y := if win.y + win.height ≥ taskY then
      if taskY > win.height + 18#32 then taskY - win.height - 18#32 else 12#32
    else win.y
  w := win.width
  h := win.height

/-- The right end of the title bar. -/
def Rect.close (r : Rect) : Rect := ⟨r.x + r.w - 46#32, r.y, 46#32, 32#32⟩

/-- The top of the taskbar, as `StartDesktop` computes it. -/
def DesktopLayout.taskY (L : DesktopLayout) (fbW fbH : u32) : u32 :=
  (computeTaskbar fbW fbH L.windowCount).y

/-- Window `i` is the topmost one that is drawn at the point. -/
def DrawnAt (L : DesktopLayout) (fbW fbH px py : u32) (i : Nat) (win : ShellWindow) : Prop :=
  IsTop (fun w => (w.drawn fbW (L.taskY fbW fbH)).Contains px py) L.windows i win

/-- `ResolveHitTarget` reports exactly the windows that are drawn at the point. -/
structure HitsDrawn (L : DesktopLayout) (fbW fbH px py : u32) : Prop where
  window : ∀ i, (((hitTarget px py L).1 = .ShellWindow ∨ (hitTarget px py L).1 = .WindowClose) ∧
      (hitTarget px py L).2.toNat = i) ↔ ∃ win, DrawnAt L fbW fbH px py i win
  close : ∀ i, ((hitTarget px py L).1 = .WindowClose ∧ (hitTarget px py L).2.toNat = i) ↔
    ∃ win, DrawnAt L fbW fbH px py i win ∧
      (win.drawn fbW (L.taskY fbW fbH)).close.Contains px py

/-- The topmost window that has the point where it is stored or where it is drawn has
it at both places, and its close button at both or at none. -/
def SamePlace (L : DesktopLayout) (fbW fbH px py : u32) : Prop :=
  ∀ i win, IsTop (fun w => w.stored.Contains px py ∨
      (w.drawn fbW (L.taskY fbW fbH)).Contains px py) L.windows i win →
    (win.stored.Contains px py ∧ (win.drawn fbW (L.taskY fbW fbH)).Contains px py) ∧
      (win.stored.close.Contains px py ↔ (win.drawn fbW (L.taskY fbW fbH)).close.Contains px py)

/-- The window reaches neither the right edge nor the taskbar. -/
def ShellWindow.Inside (fbW taskY : u32) (win : ShellWindow) : Prop :=
  win.x + win.width < fbW ∧ win.y + win.height < taskY

instance instDecidableInside (fbW taskY : u32) (win : ShellWindow) :
    Decidable (win.Inside fbW taskY) := inferInstanceAs (Decidable (_ ∧ _))

theorem ShellWindow.Inside.drawn {fbW taskY : u32} {win : ShellWindow}
    (h : win.Inside fbW taskY) : win.drawn fbW taskY = win.stored := by
  rw [ShellWindow.drawn, if_neg (BitVec.not_le.mpr h.1), if_neg (BitVec.not_le.mpr h.2)]
  rfl

/-! ## Windows of every layout -/

/-- The sizes that windows have, and coordinates that are no negative words. -/
structure ShellWindow.Placed (win : ShellWindow) : Prop where
  x : win.x.toNat < 2 ^ 31
  y : win.y.toNat < 2 ^ 31
  wide : 46 ≤ win.width.toNat ∧ win.width.toNat ≤ 720
  high : 32 ≤ win.height.toNat ∧ win.height.toNat ≤ 430

/-- What the session manager does to the layout. -/
inductive LayoutOp
  | openWindow (title : String)
  | closeWindow (idx : u32)
  | focusWindow (idx : u32)
  | dragWindow (idx : u32) (nx ny : i32)
  | setStartMenu (open_ : Bool)

def DesktopLayout.apply (L : DesktopLayout) : LayoutOp → DesktopLayout
  | .openWindow title => Shell.openWindow L title
  | .closeWindow idx => Shell.closeWindow L idx
  | .focusWindow idx => Shell.focusWindow L idx
  | .dragWindow idx nx ny => Shell.dragWindow L idx nx ny
  | .setStartMenu open_ => Shell.setStartMenu L open_

/-- The layout after some operations. -/
def DesktopLayout.run (L : DesktopLayout) (ops : List LayoutOp) : DesktopLayout :=
  ops.foldl DesktopLayout.apply L

def DesktopLayout.Placed (L : DesktopLayout) : Prop := ∀ win ∈ L.windows, win.Placed

theorem dragged_lt (n : i32) : (if BitVec.slt 0#32 n then n else 0#32).toNat < 2 ^ 31 := by
  split
  case isTrue pos =>
    have pos : 0 < n.toInt := BitVec.slt_iff_toInt_lt.mp pos
    rw [BitVec.toInt_eq_toNat_cond n] at pos
    split at pos <;> omega
  case isFalse => decide

theorem buildLayout_placed (sessionId screenW screenH : u32) :
    (buildLayout sessionId screenW screenH).Placed := by
  have all : ∀ win ∈ firstWindows, win.x.toNat < 2 ^ 31 ∧ win.y.toNat < 2 ^ 31 ∧
      (46 ≤ win.width.toNat ∧ win.width.toNat ≤ 720) ∧
      (32 ≤ win.height.toNat ∧ win.height.toNat ≤ 430) := by decide
  intro win hwin
  obtain ⟨x, y, wide, high⟩ := all win hwin
  exact ⟨x, y, wide, high⟩

section

variable {L : DesktopLayout}

theorem openWindow_placed (h : L.Placed) (title : String) : (openWindow L title).Placed := by
  intro win hwin
  rcases List.mem_append.mp hwin with hwin | hwin
  · split at hwin
    case isTrue => exact h win (List.mem_of_mem_tail hwin)
    case isFalse => exact h win hwin
  · obtain rfl := List.mem_singleton.mp hwin
    -- at most seven windows are kept below it
    have kept : (if L.windows.length ≥ MAX_WINDOWS then L.windows.tail else L.windows).length < 8 := by
      have room := L.room
      split
      case isTrue => rw [List.length_tail]; simp only [MAX_WINDOWS] at *; omega
      case isFalse => simp only [MAX_WINDOWS] at *; omega
    generalize (if L.windows.length ≥ MAX_WINDOWS then L.windows.tail else L.windows).length = n at *
    have place : ∀ c : Nat, c < 400 → (BitVec.ofNat 32 c + BitVec.ofNat 32 n * 28#32).toNat < 2 ^ 31 := by
      intro c hc
      rw [← BitVec.ofNat_mul, ← BitVec.ofNat_add, BitVec.toNat_ofNat, Nat.mod_eq_of_lt (by omega)]
      omega
    exact ⟨place 320 (by decide), place 140 (by decide),
      show 46 ≤ (560#32 : u32).toNat ∧ (560#32 : u32).toNat ≤ 720 by decide,
      show 32 ≤ (360#32 : u32).toNat ∧ (360#32 : u32).toNat ≤ 430 by decide⟩

theorem closeWindow_placed (h : L.Placed) (idx : u32) : (closeWindow L idx).Placed :=
  fun win hwin => h win (List.mem_of_mem_eraseIdx hwin)

theorem focusWindow_placed (h : L.Placed) (idx : u32) : (focusWindow L idx).Placed := by
  rw [focusWindow]
  split
  case isTrue => exact h
  case isFalse =>
    split
    case h_1 => exact h
    case h_2 w hw =>
      intro win hwin
      rcases List.mem_append.mp hwin with hwin | hwin
      · exact h win (List.mem_of_mem_eraseIdx hwin)
      · obtain rfl := List.mem_singleton.mp hwin
        exact h win (List.mem_of_getElem? hw)

theorem dragWindow_placed (h : L.Placed) (idx : u32) (nx ny : i32) :
    (dragWindow L idx nx ny).Placed := by
  intro win hwin
  obtain ⟨k, hk⟩ := List.getElem?_of_mem hwin
  rw [show (dragWindow L idx nx ny).windows = L.windows.modify idx.toNat (·.dragTo nx ny) from rfl,
    List.getElem?_modify] at hk
  obtain ⟨old, hold, rfl⟩ := Option.map_eq_some_iff.mp hk
  have placed := h old (List.mem_of_getElem? hold)
  split
  case isTrue => exact ⟨dragged_lt nx, dragged_lt ny, placed.wide, placed.high⟩
  case isFalse => exact placed

/-- **Every operation** keeps the windows' sizes, and places them without overflow. -/
theorem apply_placed (h : L.Placed) (op : LayoutOp) : (L.apply op).Placed := by
  cases op with
  | openWindow title => exact openWindow_placed h title
  | closeWindow idx => exact closeWindow_placed h idx
  | focusWindow idx => exact focusWindow_placed h idx
  | dragWindow idx nx ny => exact dragWindow_placed h idx nx ny
  | setStartMenu open_ => exact h

theorem run_placed (h : L.Placed) (ops : List LayoutOp) : (L.run ops).Placed := by
  induction ops generalizing L with
  | nil => exact h
  | cons op ops ih => exact ih (apply_placed h op)

/-! ## What is hit -/

variable {px py : u32} {k : HitTargetKind} {idx : u32}

theorem inRect_iff {x y w h : u32} (hx : x.toNat + w.toNat < 2 ^ 32) (hy : y.toNat + h.toNat < 2 ^ 32) :
    inRect px py x y w h = true ↔ (Rect.mk x y w h).Contains px py := by
  simp only [inRect, Rect.Contains, Bool.and_eq_true, decide_eq_true_eq, ge_iff_le, BitVec.le_def,
    BitVec.lt_def, BitVec.toNat_add]
  omega

theorem ShellWindow.Placed.inBody {win : ShellWindow} (h : win.Placed) :
    inRect px py win.x win.y win.width win.height = true ↔ win.stored.Contains px py := by
  have hx := h.x
  have hy := h.y
  have wide := h.wide.2
  have high := h.high.2
  exact inRect_iff (by omega) (by omega)

theorem ShellWindow.Placed.close_x {win : ShellWindow} (h : win.Placed) :
    (win.x + win.width - 46#32).toNat = win.x.toNat + win.width.toNat - 46 := by
  have hx := h.x
  obtain ⟨low, high⟩ := h.wide
  rw [BitVec.toNat_sub, BitVec.toNat_add, show (46#32).toNat = 46 from rfl]
  omega

theorem ShellWindow.Placed.inClose {win : ShellWindow} (h : win.Placed) :
    inRect px py (win.x + win.width - 46#32) win.y 46#32 32#32 = true ↔
      win.stored.close.Contains px py := by
  have hx := h.x
  have hy := h.y
  have wide := h.wide.2
  refine inRect_iff ?_ ?_
  · rw [h.close_x, show (46#32).toNat = 46 from rfl]
    omega
  · rw [show (32#32).toNat = 32 from rfl]
    omega

/-- The close button is on the window. -/
theorem ShellWindow.Placed.close_body {win : ShellWindow} (h : win.Placed)
    (hc : win.stored.close.Contains px py) : win.stored.Contains px py := by
  obtain ⟨x0, x1, y0, y1⟩ := hc
  have left : win.stored.close.x.toNat = win.x.toNat + win.width.toNat - 46 := h.close_x
  have wide : win.stored.close.w.toNat = 46 := rfl
  have high : win.stored.close.h.toNat = 32 := rfl
  have top : win.stored.close.y.toNat = win.y.toNat := rfl
  have room := h.wide.1
  have deep := h.high.1
  rw [left] at x0 x1
  rw [wide] at x1
  rw [top] at y0 y1
  rw [high] at y1
  refine ⟨?_, ?_, y0, ?_⟩
  · show win.x.toNat ≤ px.toNat
    omega
  · show px.toNat < win.x.toNat + win.width.toNat
    omega
  · show py.toNat < win.y.toNat + win.height.toNat
    omega

/-- **The loop over the windows** finds the topmost one that is stored at the point. -/
theorem hitWindows_some {ws : List ShellWindow} (placed : ∀ win ∈ ws, win.Placed) :
    hitWindows px py ws.reverse = some (k, idx) ↔
      ∃ i win, IsTop (fun w => w.stored.Contains px py) ws i win ∧ idx = BitVec.ofNat 32 i ∧
        k = if win.stored.close.Contains px py then .WindowClose else .ShellWindow := by
  induction ws using List.reverseRecOn with
  | nil =>
    constructor
    · intro no
      cases no
    · intro ⟨i, win, h, _⟩
      exact absurd h.layer (by rw [List.getElem?_nil]; exact fun no => by cases no)
  | append_singleton ws c ih =>
    have here := placed c (by simp)
    have below := ih fun win hwin => placed win (List.mem_append_left _ hwin)
    simp only [List.reverse_append, List.reverse_singleton, List.singleton_append, hitWindows,
      List.length_reverse, isTop_concat, here.inClose, here.inBody]
    by_cases body : c.stored.Contains px py
    case neg =>
      rw [if_neg fun close => body (here.close_body close), if_neg body, below]
      simp only [body, false_and, not_false_eq_true, true_and, false_or]
    case pos =>
      have only : (∃ i win, ((c.stored.Contains px py ∧ i = ws.length ∧ win = c) ∨
          ¬ c.stored.Contains px py ∧ IsTop (fun w => w.stored.Contains px py) ws i win) ∧
            idx = BitVec.ofNat 32 i ∧
            k = if win.stored.close.Contains px py then .WindowClose else .ShellWindow) ↔
          idx = BitVec.ofNat 32 ws.length ∧
            k = if c.stored.close.Contains px py then .WindowClose else .ShellWindow := by
        constructor
        · rintro ⟨i, win, ⟨-, rfl, rfl⟩ | ⟨no, -⟩, rest⟩
          · exact rest
          · exact absurd body no
        · intro rest
          exact ⟨_, c, .inl ⟨body, rfl, rfl⟩, rest⟩
      rw [only, if_pos body]
      split <;> simp only [Option.some.injEq, Prod.mk.injEq] <;>
        exact ⟨fun e => ⟨e.2.symm, e.1.symm⟩, fun e => ⟨e.2.symm, e.1.symm⟩⟩

theorem hitIcons_kind (n : Nat) (i : u32) {r : HitTargetKind × u32}
    (h : hitIcons px py n i = some r) : r.1 = .DesktopIcon := by
  induction n generalizing i with
  | zero => cases h
  | succ n ih =>
    rw [hitIcons] at h
    split at h
    case isTrue => rw [← Option.some.inj h]
    case isFalse => exact ih _ h

/-- Above the taskbar and with the Start menu closed the windows decide. -/
theorem hitTarget_window (closed : L.startMenuOpen = false)
    (above : py < (computeTaskbar L.screenW L.screenH L.windowCount).y)
    (hk : k = .ShellWindow ∨ k = .WindowClose) :
    hitTarget px py L = (k, idx) ↔ hitWindows px py L.windows.reverse = some (k, idx) := by
  have menu : hitStartMenu px py L (computeTaskbar L.screenW L.screenH L.windowCount) = none := by
    simp only [hitStartMenu, closed, Bool.false_and, Bool.false_eq_true, if_false]
  rw [hitTarget]
  simp only [menu, Option.none_or, if_neg (BitVec.not_le.mpr above)]
  cases hw : hitWindows px py L.windows.reverse with
  | some r => simp only [Option.some_or, Option.getD_some, Option.some.injEq]
  | none =>
    rw [Option.none_or]
    cases hi : hitIcons px py L.icons.length 0#32 with
    | none =>
      rw [Option.getD_none]
      rcases hk with rfl | rfl <;> simp
    | some r =>
      have kind := hitIcons_kind _ _ hi
      rw [Option.getD_some]
      rcases hk with rfl | rfl <;> simp [Prod.ext_iff, kind]

/-- The index of a window is a word. -/
theorem top_index {p : ShellWindow → Prop} {i : Nat} {win : ShellWindow}
    (h : IsTop p L.windows i win) : (BitVec.ofNat 32 i).toNat = i := by
  have inside := (List.getElem?_eq_some_iff.mp h.layer).1
  have room := L.room
  simp only [MAX_WINDOWS] at room
  rw [BitVec.toNat_ofNat, Nat.mod_eq_of_lt (by omega)]

section

variable (placed : L.Placed) (closed : L.startMenuOpen = false)
  (above : py < (computeTaskbar L.screenW L.screenH L.windowCount).y)
include placed closed above

theorem hit_window (i : Nat) :
    (((hitTarget px py L).1 = .ShellWindow ∨ (hitTarget px py L).1 = .WindowClose) ∧
        (hitTarget px py L).2.toNat = i) ↔
      ∃ win, IsTop (fun w => w.stored.Contains px py) L.windows i win := by
  constructor
  · intro ⟨kind, index⟩
    have target : hitTarget px py L = ((hitTarget px py L).1, (hitTarget px py L).2) := rfl
    obtain ⟨j, win, top, idx, -⟩ :=
      (hitWindows_some placed).mp ((hitTarget_window closed above kind).mp target)
    rw [idx, top_index top] at index
    exact ⟨win, index ▸ top⟩
  · intro ⟨win, top⟩
    obtain ⟨k, hit, kind⟩ : ∃ k, hitWindows px py L.windows.reverse = some (k, BitVec.ofNat 32 i) ∧
        (k = .ShellWindow ∨ k = .WindowClose) := by
      refine ⟨_, (hitWindows_some placed).mpr ⟨i, win, top, rfl, rfl⟩, ?_⟩
      split
      case isTrue => exact .inr rfl
      case isFalse => exact .inl rfl
    have target : hitTarget px py L = (k, BitVec.ofNat 32 i) :=
      (hitTarget_window closed above kind).mpr hit
    simp only [target]
    exact ⟨kind, top_index top⟩

theorem hit_close (i : Nat) :
    ((hitTarget px py L).1 = .WindowClose ∧ (hitTarget px py L).2.toNat = i) ↔
      ∃ win, IsTop (fun w => w.stored.Contains px py) L.windows i win ∧
        win.stored.close.Contains px py := by
  constructor
  · intro ⟨kind, index⟩
    have target : hitTarget px py L = ((hitTarget px py L).1, (hitTarget px py L).2) := rfl
    obtain ⟨j, win, top, idx, hk⟩ :=
      (hitWindows_some placed).mp ((hitTarget_window closed above (.inr kind)).mp target)
    rw [idx, top_index top] at index
    rw [kind] at hk
    split at hk
    case isTrue close => exact ⟨win, index ▸ top, close⟩
    case isFalse => cases hk
  · intro ⟨win, top, close⟩
    have hit : hitWindows px py L.windows.reverse = some (.WindowClose, BitVec.ofNat 32 i) :=
      (hitWindows_some placed).mpr ⟨i, win, top, rfl, (if_pos close).symm⟩
    have target : hitTarget px py L = (.WindowClose, BitVec.ofNat 32 i) :=
      (hitTarget_window closed above (.inr rfl)).mpr hit
    simp only [target]
    exact ⟨trivial, top_index top⟩

/-- **Hits are where windows are drawn** exactly if the topmost window of the point has
it where it is stored and where it is drawn. -/
theorem hitsDrawn_iff (fbW fbH : u32) :
    HitsDrawn L fbW fbH px py ↔ SamePlace L fbW fbH px py := by
  constructor
  · intro h i win top
    have same : topmost (fun w => w.stored.Contains px py) L.windows.reverse =
        topmost (fun w => (w.drawn fbW (L.taskY fbW fbH)).Contains px py) L.windows.reverse := by
      refine Option.ext fun j => ?_
      rw [topmost_eq_some, topmost_eq_some]
      exact (hit_window placed closed above j).symm.trans (h.window j)
    have both := topmost_eq_iff.mp same i win top
    have stored := top.left both.1
    have drawn := top.right both.2
    refine ⟨both, fun close => ?_, fun close => ?_⟩
    · obtain ⟨win', top', close'⟩ :=
        (h.close i).mp ((hit_close placed closed above i).mpr ⟨win, stored, close⟩)
      obtain ⟨-, rfl⟩ := drawn.unique top'
      exact close'
    · obtain ⟨win', top', close'⟩ :=
        (hit_close placed closed above i).mp ((h.close i).mpr ⟨win, drawn, close⟩)
      obtain ⟨-, rfl⟩ := stored.unique top'
      exact close'
  · intro h
    have same := topmost_eq_iff.mpr fun i win top => (h i win top).1
    have tops : ∀ i win, IsTop (fun w => w.stored.Contains px py) L.windows i win ↔
        DrawnAt L fbW fbH px py i win := by
      intro i win
      have exist : (∃ a, IsTop (fun w => w.stored.Contains px py) L.windows i a) ↔
          ∃ a, IsTop (fun w => (w.drawn fbW (L.taskY fbW fbH)).Contains px py) L.windows i a := by
        rw [← topmost_eq_some, ← topmost_eq_some, same]
      constructor
      · intro top
        obtain ⟨a, ha⟩ := exist.mp ⟨win, top⟩
        obtain rfl := Option.some.inj (ha.layer.symm.trans top.layer)
        exact ha
      · intro top
        obtain ⟨a, ha⟩ := exist.mpr ⟨win, top⟩
        obtain rfl := Option.some.inj (ha.layer.symm.trans top.layer)
        exact ha
    refine ⟨fun i => ?_, fun i => ?_⟩
    · rw [hit_window placed closed above]
      exact exists_congr fun win => tops i win
    · rw [hit_close placed closed above]
      refine exists_congr fun win => ?_
      rw [← tops i win]
      refine and_congr_right fun top => ?_
      have drawn := (tops i win).mp top
      refine (h i win ⟨top.layer, .inl top.holds, fun j b hj hb no => ?_⟩).2
      rcases no with no | no
      · exact top.above j b hj hb no
      · exact drawn.above j b hj hb no

end

/-- What no operation changes. -/
structure DesktopLayout.Kept (L M : DesktopLayout) : Prop where
  screenW : M.screenW = L.screenW
  screenH : M.screenH = L.screenH
  ready : M.ready = L.ready

theorem run_kept (ops : List LayoutOp) : L.Kept (L.run ops) := by
  induction ops generalizing L with
  | nil => exact ⟨rfl, rfl, rfl⟩
  | cons op ops ih =>
    have here : L.Kept (L.apply op) := by
      cases op with
      | focusWindow idx =>
        simp only [DesktopLayout.apply, focusWindow]
        split
        case isTrue => exact ⟨rfl, rfl, rfl⟩
        case isFalse => split <;> exact ⟨rfl, rfl, rfl⟩
      | _ => exact ⟨rfl, rfl, rfl⟩
    have rest : (L.apply op).Kept (L.run (op :: ops)) := ih
    exact ⟨rest.screenW.trans here.screenW, rest.screenH.trans here.screenH,
      rest.ready.trans here.ready⟩

end

/-! ## Every layout -/

/-- **Windows are hit where they are drawn**, on every layout that can be reached and at
every point above the taskbar while the Start menu is closed, exactly if the topmost
window of the point has it where it is stored and where it is drawn. If all windows stay
inside the edge and the taskbar this is so at every point. -/
theorem windows_hit_where_drawn (sessionId w h : u32) (ops : List LayoutOp) (px py : u32)
    (closed : ((buildLayout sessionId w h).run ops).startMenuOpen = false)
    (above : py < ((buildLayout sessionId w h).run ops).taskY w h) :
    (HitsDrawn ((buildLayout sessionId w h).run ops) w h px py ↔
        SamePlace ((buildLayout sessionId w h).run ops) w h px py) ∧
      ((∀ win ∈ ((buildLayout sessionId w h).run ops).windows,
          win.Inside w (((buildLayout sessionId w h).run ops).taskY w h)) →
        HitsDrawn ((buildLayout sessionId w h).run ops) w h px py) := by
  have placed := run_placed (buildLayout_placed sessionId w h) ops
  obtain ⟨screenW, screenH, -⟩ := run_kept (L := buildLayout sessionId w h) ops
  generalize (buildLayout sessionId w h).run ops = L at *
  have screenW : L.screenW = w := screenW
  have screenH : L.screenH = h := screenH
  have exact_ : HitsDrawn L w h px py ↔ SamePlace L w h px py :=
    hitsDrawn_iff placed closed (by rw [screenW, screenH]; exact above) w h
  refine ⟨exact_, fun inside => exact_.mpr fun i win top => ?_⟩
  have same := (inside win (List.mem_of_getElem? top.layer)).drawn
  rw [same]
  exact ⟨⟨top.holds.elim id fun drawn => same ▸ drawn, top.holds.elim id fun drawn => same ▸ drawn⟩,
    Iff.rfl⟩

/-- The first layout on a screen that it fits. -/
theorem windows_hit_where_drawn_first :
    HitsDrawn (buildLayout 1#32 1920#32 1080#32) 1920#32 1080#32 300#32 50#32 :=
  (windows_hit_where_drawn 1#32 1920#32 1080#32 [] 300#32 50#32 (by decide) (by decide)).2
    (by decide)

/-- **The media player dragged onto the taskbar** is drawn above its place, and is hit
below where it is drawn. -/
theorem dragged_player_missed :
    ¬ HitsDrawn ((buildLayout 1#32 1920#32 1080#32).run [.dragWindow 4#32 430#32 800#32])
      1920#32 1080#32 500#32 1020#32 := by
  intro h
  obtain ⟨win, top⟩ := (h.window 4).mp (by decide)
  have missed : ((((buildLayout 1#32 1920#32 1080#32).run
      [.dragWindow 4#32 430#32 800#32]).windows[4]?).all fun w =>
        !decide ((w.drawn 1920#32 1032#32).Contains 500#32 1020#32)) = true := by decide
  rw [top.layer] at missed
  simp only [Option.all_some, Bool.not_eq_true', decide_eq_false_iff_not] at missed
  exact missed top.holds

end MicroNT.Shell
