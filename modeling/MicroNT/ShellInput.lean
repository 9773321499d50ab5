import MicroNT.Ntdef

/-! # The shell's windows and the pointer (`desktopmodel.cpp`, `shellinput.cpp`,
`session_manager.cpp`)

The layout of the desktop, what the pointer is over, and what a click does. All
coordinates are words of 32 bits, whose sums wrap. -/

namespace MicroNT.Shell

/-- A signed word: `slt` and `sle` compare it. -/
abbrev i32 := BitVec 32

/-! ## The layout -/

inductive IconKind
  | Computer | Folder | Network | Media | Control | Recycle
  deriving DecidableEq

structure DesktopIcon where
  kind : IconKind
  label : String

structure ShellWindow where
  title : String
  status : String
  x : u32
  y : u32
  width : u32
  height : u32
  toolbar : Bool

abbrev MAX_WINDOWS : Nat := 8

/-- The windows are listed from the bottom to the top; there is room for eight. -/
structure DesktopLayout where
  sessionId : u32
  screenW : u32
  screenH : u32
  icons : List DesktopIcon
  windows : List ShellWindow
  room : windows.length ≤ MAX_WINDOWS
  startMenuOpen : Bool
  ready : Bool

def DesktopLayout.windowCount (L : DesktopLayout) : u32 := BitVec.ofNat 32 L.windows.length

/-- The icons of `BuildXpRedesignLayout`. -/
def firstIcons : List DesktopIcon :=
  [⟨.Computer, "Computer"⟩, ⟨.Folder, "Documents"⟩, ⟨.Network, "Network"⟩, ⟨.Media, "Media"⟩,
    ⟨.Control, "Control"⟩, ⟨.Recycle, "Recycle"⟩]

/-- The windows of `BuildXpRedesignLayout`. -/
def firstWindows : List ShellWindow :=
  [⟨"My Computer", "MICRONT-SYSTEM  WORKGROUP", 228#32, 38#32, 665#32, 430#32, true⟩,
    ⟨"Documents", "10 items", 1015#32, 58#32, 620#32, 365#32, true⟩,
    ⟨"Network", "Signal: excellent", 645#32, 420#32, 575#32, 290#32, true⟩,
    ⟨"Control Panel", "MicroNT Control Center", 1238#32, 420#32, 600#32, 360#32, false⟩,
    ⟨"Media Player", "02:37 / 05:45", 430#32, 708#32, 720#32, 260#32, true⟩]

/-- `BuildXpRedesignLayout` with the screen size that `DesktopModelStart` sets. -/
def buildLayout (sessionId screenW screenH : u32) : DesktopLayout where
  sessionId := sessionId
  screenW := screenW
  screenH := screenH
  icons := firstIcons
  windows := firstWindows
  room := by decide
  startMenuOpen := false
  ready := true

structure TaskbarMetrics where
  height : u32
  y : u32
  startX : u32
  startW : u32
  firstButtonX : u32
  buttonW : u32
  buttonGap : u32
  buttonCount : u32
  trayX : u32
  trayW : u32

def computeTaskbar (screenW screenH buttonCount : u32) : TaskbarMetrics :=
  let screenW := if screenW = 0#32 then 1920#32 else screenW
  let screenH := if screenH = 0#32 then 1080#32 else screenH
  let height := if screenH ≥ 720#32 then 48#32 else 40#32
  let buttonW := 44#32
  let buttonGap := 6#32
  let items := buttonCount + 1#32
  let slot := buttonW + buttonGap
  let clusterW := items * buttonW + (items - 1#32) * buttonGap
  let clusterX := if screenW > clusterW then (screenW - clusterW) / 2#32 else 0#32
  let trayW := if screenW ≥ 640#32 then 200#32 else 120#32
  { height := height
    y := screenH - height
    startX := clusterX
    startW := buttonW
    firstButtonX := clusterX + slot
    buttonW := buttonW
    buttonGap := buttonGap
    buttonCount := buttonCount
    trayX := if screenW > trayW then screenW - trayW else 0#32
    trayW := trayW }

/-! ## What the pointer is over -/

inductive HitTargetKind
  | None | Desktop | DesktopIcon | ShellWindow | WindowClose | StartButton | StartMenu | Taskbar
  | Tray
  deriving DecidableEq

def inRect (px py x y w h : u32) : Bool :=
  decide (px ≥ x) && decide (py ≥ y) && decide (px < x + w) && decide (py < y + h)

/-- The loop over the windows, from the top down. -/
def hitWindows (px py : u32) : List ShellWindow → Option (HitTargetKind × u32)
  | [] => none
  | win :: below =>
    if inRect px py (win.x + win.width - 46#32) win.y 46#32 32#32 then
      some (.WindowClose, BitVec.ofNat 32 below.length)
    else if inRect px py win.x win.y win.width win.height then
      some (.ShellWindow, BitVec.ofNat 32 below.length)
    else hitWindows px py below

/-- The loop over the icons, from icon `i` on. -/
def hitIcons (px py : u32) : Nat → u32 → Option (HitTargetKind × u32)
  | 0, _ => none
  | n + 1, i =>
    if inRect px py 18#32 (14#32 + i * 92#32) 96#32 84#32 then some (.DesktopIcon, i)
    else hitIcons px py n (i + 1#32)

/-- The flyout of the open Start menu. -/
def hitStartMenu (px py : u32) (L : DesktopLayout) (tb : TaskbarMetrics) :
    Option (HitTargetKind × u32) :=
  let menuW := 640#32
  let menuH := 720#32
  let menuX := if L.screenW > menuW then (L.screenW - menuW) / 2#32 else 0#32
  let menuY := if tb.y > menuH + 12#32 then tb.y - menuH - 12#32 else 0#32
  if L.startMenuOpen && inRect px py menuX menuY menuW menuH then
    some (.StartMenu, if py > menuY + 120#32 then (py - menuY - 120#32) / 96#32 else 0#32)
  else none

/-- `ResolveHitTarget`: the target and its index. -/
def hitTarget (px py : u32) (L : DesktopLayout) : HitTargetKind × u32 :=
  let tb := computeTaskbar L.screenW L.screenH L.windowCount
  if py ≥ tb.y then
    if inRect px py tb.startX tb.y tb.startW tb.height then (.StartButton, 0#32)
    else if px ≥ tb.trayX then (.Tray, 0#32)
    else
      let slot := tb.buttonW + tb.buttonGap
      if px ≥ tb.firstButtonX ∧ px < tb.firstButtonX + tb.buttonCount * slot then
        (.Taskbar, (px - tb.firstButtonX) / slot)
      else (.Taskbar, 0#32)
  else
    ((hitStartMenu px py L tb).or ((hitWindows px py L.windows.reverse).or
      (hitIcons px py L.icons.length 0#32))).getD (.Desktop, 0#32)

structure PointerState where
  sessionId : u32
  x : u32
  y : u32
  hotTarget : HitTargetKind
  targetIndex : u32
  hitTestingReady : Bool
  leftButtonDown : Bool
  clickDelivered : Bool

/-- `ResolveHitTarget` at the pointer's position. -/
def resolveHitTarget (pointer : PointerState) (L : DesktopLayout) : PointerState :=
  let hit := hitTarget pointer.x pointer.y L
  { pointer with hotTarget := hit.1, targetIndex := hit.2 }

structure PointerEvent where
  moved : Bool
  clicked : Bool
  target : HitTargetKind
  targetIndex : u32
  deriving DecidableEq

/-- `ProcessPointer`: a click is the release of the left button. -/
def processPointer (pointer : PointerState) (L : DesktopLayout) (x y : u32) (leftDown : Bool) :
    PointerEvent × PointerState :=
  if !pointer.hitTestingReady || !L.ready || pointer.sessionId != L.sessionId then
    (⟨false, false, .None, 0#32⟩, pointer)
  else
    let next := resolveHitTarget { pointer with x := x, y := y } L
    let moved := next.hotTarget != pointer.hotTarget || next.targetIndex != pointer.targetIndex
    let clicked := pointer.leftButtonDown && !leftDown
    (⟨moved, clicked, next.hotTarget, next.targetIndex⟩,
      { next with
        clickDelivered := clicked || pointer.clickDelivered
        leftButtonDown := leftDown })

/-! ## Windows -/

/-- The layout with fewer or as many windows. -/
def DesktopLayout.withWindows (L : DesktopLayout) (ws : List ShellWindow)
    (room : ws.length ≤ MAX_WINDOWS) : DesktopLayout := { L with windows := ws, room := room }

/-- `OpenWindow`: a full list loses its bottom window. -/
def openWindow (L : DesktopLayout) (title : String) : DesktopLayout :=
  let kept := if L.windows.length ≥ MAX_WINDOWS then L.windows.tail else L.windows
  let cascade := BitVec.ofNat 32 kept.length * 28#32
  L.withWindows (kept ++ [{
      title := title
      status := "MicroNT window"
      x := 320#32 + cascade
      y := 140#32 + cascade
      width := 560#32
      height := 360#32
      toolbar := true }]) (by
    have room := L.room
    rw [List.length_append, List.length_singleton]
    simp only [kept, MAX_WINDOWS] at *
    split
    case isTrue => rw [List.length_tail]; omega
    case isFalse => omega)

def closeWindow (L : DesktopLayout) (idx : u32) : DesktopLayout :=
  L.withWindows (L.windows.eraseIdx idx.toNat)
    (le_trans (List.length_eraseIdx_le _ _) L.room)

/-- `FocusWindow`: the window comes to the top. -/
def focusWindow (L : DesktopLayout) (idx : u32) : DesktopLayout :=
  if idx + 1#32 ≥ L.windowCount then L
  else
    match h : L.windows[idx.toNat]? with
    | none => L
    | some w => L.withWindows (L.windows.eraseIdx idx.toNat ++ [w]) (by
        have inside := (List.getElem?_eq_some_iff.mp h).1
        have room := L.room
        rw [List.length_append, List.length_eraseIdx_of_lt inside, List.length_singleton]
        omega)

/-- A window that is dragged to a place; what lies off the screen's corner is cut. -/
def ShellWindow.dragTo (w : ShellWindow) (nx ny : i32) : ShellWindow :=
  { w with
    x := if BitVec.slt 0#32 nx then nx else 0#32
    y := if BitVec.slt 0#32 ny then ny else 0#32 }

def dragWindow (L : DesktopLayout) (idx : u32) (nx ny : i32) : DesktopLayout :=
  L.withWindows (L.windows.modify idx.toNat (·.dragTo nx ny))
    (by rw [List.length_modify]; exact L.room)

def setStartMenu (L : DesktopLayout) (open_ : Bool) : DesktopLayout :=
  { L with startMenuOpen := open_ }

/-- The apps that the Start menu shows. -/
def startApps : List String :=
  ["Edge", "Files", "Settings", "Store", "Photos", "Mail", "Notepad", "Terminal"]

def handleShellClick (L : DesktopLayout) (target : HitTargetKind) (index : u32) : DesktopLayout :=
  match target with
  | .StartButton => setStartMenu L !L.startMenuOpen
  | .StartMenu =>
    setStartMenu (openWindow L (startApps.getD index.toNat "Edge")) false
  | .DesktopIcon =>
    match L.icons[index.toNat]? with
    | none => L
    | some icon => openWindow L icon.label
  | .WindowClose => closeWindow L index
  | .ShellWindow => focusWindow L index
  | .Taskbar => focusWindow L index
  | _ => L

end MicroNT.Shell
