import MicroNT.Base.Ring
import MicroNT.ShellInput

/-! # Mouse packets and the pump (`mouse.cpp`, `session_manager.cpp`)

IRQ12 assembles packets of three bytes, moves the cursor, and queues the packet with
its buttons. `PumpInteractiveInput` takes packets off the queue and feeds them to the
shell, with the position that the cursor has by then. -/

namespace MicroNT.Shell

open MicroNT.Base

/-! ## The mouse -/

structure Packet where
  deltaX : i32
  deltaY : i32
  left : Bool
  right : Bool
  middle : Bool
  deriving DecidableEq

/-- The static variables of `mouse.cpp`. The ring has 32 slots, one of which stays free. -/
structure Mouse where
  ring : Nat → Packet
  head : Nat
  tail : Nat
  packet : Nat → u8
  packetIndex : Nat
  x : i32
  y : i32
  ready : Bool

abbrev RING_SLOTS : Nat := 32

/-- `Push`: a packet for a full ring is dropped. -/
def Mouse.push (m : Mouse) (packet : Packet) : Mouse :=
  let next := Ring.next RING_SLOTS m.tail
  if next = m.head then m
  else { m with ring := Function.update m.ring m.tail packet, tail := next }

/-- `TryRead`: the oldest packet, and the mouse without it. -/
def Mouse.tryRead (m : Mouse) : Option (Packet × Mouse) :=
  if m.head = m.tail then none
  else some (m.ring m.head, { m with head := Ring.next RING_SLOTS m.head })

/-- How far the cursor goes to the right and down, for a framebuffer of this size. -/
def cursorLimits : Option (u32 × u32) → i32 × i32
  | none => (1896#32, 1048#32)
  | some fb => (if fb.1 > 24#32 then fb.1 - 24#32 else 0#32,
      if fb.2 > 32#32 then fb.2 - 32#32 else 0#32)

/-- A coordinate within `[0, limit]`; the upper bound comes last. -/
def clampCursor (limit c : i32) : i32 :=
  let c := if BitVec.slt c 0#32 then 0#32 else c
  if BitVec.slt limit c then limit else c

/-- The packet that the three bytes are. -/
def Mouse.decoded (m : Mouse) : Packet where
  deltaX := (m.packet 1).signExtend 32
  deltaY := (m.packet 2).signExtend 32
  left := m.packet 0 &&& 0x01#8 != 0#8
  right := m.packet 0 &&& 0x02#8 != 0#8
  middle := m.packet 0 &&& 0x04#8 != 0#8

def Mouse.applyPacket (fb : Option (u32 × u32)) (m : Mouse) : Mouse :=
  let limits := cursorLimits fb
  { m with
    x := clampCursor limits.1 (m.x + m.decoded.deltaX)
    y := clampCursor limits.2 (m.y - m.decoded.deltaY) }.push m.decoded

/-- Whether `HandleIrq` takes the byte: the first one of a packet has bit 3 set. -/
def Mouse.takes (m : Mouse) (status data : u8) : Bool :=
  status &&& 0x01#8 != 0#8 && !(m.packetIndex == 0 && data &&& 0x08#8 == 0#8)

/-- The bytes so far, with one more. -/
def Mouse.withByte (m : Mouse) (data : u8) : Mouse :=
  { m with
    packet := Function.update m.packet m.packetIndex data
    packetIndex := m.packetIndex + 1 }

/-- Whether the byte completes a packet. -/
def Mouse.completes (m : Mouse) (status data : u8) : Bool :=
  m.takes status data && (m.withByte data).packetIndex == 3

def Mouse.handleIrq (fb : Option (u32 × u32)) (m : Mouse) (status data : u8) : Mouse :=
  if m.takes status data then
    if m.completes status data then { m.withByte data with packetIndex := 0 }.applyPacket fb
    else m.withByte data
  else m

/-- After `MOUSE::Init`, with a mouse that answered. -/
def firstMouse : Mouse where
  ring := fun _ => ⟨0, 0, false, false, false⟩
  head := 0
  tail := 0
  packet := fun _ => 0
  packetIndex := 0
  x := 1700#32
  y := 560#32
  ready := true

/-! ## The shell -/

/-- The static variables of `session_manager.cpp` that the pump works on. -/
structure Desk where
  pointer : PointerState
  layout : DesktopLayout
  dragging : Bool
  dragWin : u32
  dragOffX : i32
  dragOffY : i32

/-- What a packet leads to besides hit-testing. -/
inductive Outcome
  | nothing
  | clicked (target : HitTargetKind) (index : u32)
  | grabbed (win : u32)
  | moved (win : u32) (nx ny : i32)
  | dropped
  deriving DecidableEq

/-- What the pump did for one packet: the hit test, where it was made, and the outcome. -/
structure InputEvent where
  x : i32
  y : i32
  pointer : PointerEvent
  outcome : Outcome
  deriving DecidableEq

/-- The pointer is on the title bar of a window. -/
def titleBarHit (d : Desk) (my : i32) : Bool :=
  d.pointer.hotTarget == .ShellWindow &&
    match d.layout.windows[d.pointer.targetIndex.toNat]? with
    | none => false
    | some win => decide (my < win.y + 32#32)

/-- One round of the loop in `PumpInteractiveInput`, with the cursor at `(mx, my)`. -/
def pumpPacket (d : Desk) (packet : Packet) (mx my : i32) : InputEvent × Desk :=
  let prevDown := d.pointer.leftButtonDown
  let r := processPointer d.pointer d.layout mx my packet.left
  let d := { d with pointer := r.2 }
  if d.dragging then
    if packet.left && decide (d.dragWin < d.layout.windowCount) then
      (⟨mx, my, r.1, .moved d.dragWin (mx - d.dragOffX) (my - d.dragOffY)⟩,
        { d with layout := dragWindow d.layout d.dragWin (mx - d.dragOffX) (my - d.dragOffY) })
    else (⟨mx, my, r.1, .dropped⟩, { d with dragging := false })
  else if !prevDown && packet.left && titleBarHit d my then
    let layout := focusWindow d.layout d.pointer.targetIndex
    let dragWin := layout.windowCount - 1#32
    let place := layout.windows[dragWin.toNat]?
    (⟨mx, my, r.1, .grabbed d.pointer.targetIndex⟩,
      { d with
        layout := layout
        dragWin := dragWin
        dragOffX := mx - place.elim 0 (·.x)
        dragOffY := my - place.elim 0 (·.y)
        dragging := true })
  else if r.1.clicked then
    (⟨mx, my, r.1, .clicked r.1.target r.1.targetIndex⟩,
      { d with layout := handleShellClick d.layout r.1.target r.1.targetIndex })
  else (⟨mx, my, r.1, .nothing⟩, d)

structure Input where
  mouse : Mouse
  desk : Desk

/-- The loop of `PumpInteractiveInput`. The ring has 32 slots, so 32 rounds are enough. -/
def pumpLoop : Nat → Input → List InputEvent × Input
  | 0, s => ([], s)
  | fuel + 1, s =>
    match s.mouse.tryRead with
    | none => ([], s)
    | some (packet, mouse) =>
      -- the position is asked for once the packet is off the ring
      if mouse.ready then
        let r := pumpPacket s.desk packet mouse.x mouse.y
        let q := pumpLoop fuel ⟨mouse, r.2⟩
        (r.1 :: q.1, q.2)
      else ([], { s with mouse := mouse })

def pumpInteractiveInput (s : Input) : List InputEvent × Input :=
  if !s.desk.pointer.hitTestingReady || !s.desk.layout.ready then ([], s)
  else pumpLoop RING_SLOTS s

/-- `AttachLayout`, `PrimeDefaultHitTarget` and `ClickPointer` at (1040, 82). -/
def firstPointer (L : DesktopLayout) : PointerState :=
  resolveHitTarget {
    sessionId := L.sessionId
    x := 1040#32
    y := 82#32
    hotTarget := .None
    targetIndex := 0#32
    hitTestingReady := true
    leftButtonDown := false
    clickDelivered := true } L

/-- The desk once the session has started. -/
def firstDesk (sessionId screenW screenH : u32) : Desk where
  pointer := firstPointer (buildLayout sessionId screenW screenH)
  layout := buildLayout sessionId screenW screenH
  dragging := false
  dragWin := 0#32
  dragOffX := 0#32
  dragOffY := 0#32

end MicroNT.Shell
