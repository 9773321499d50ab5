import MicroNT.Base.Machine
import MicroNT.MouseInput
import MicroNT.WindowHits

/-! # Where queued packets are clicked

A packet keeps its buttons on the ring, but not the position of the cursor. The events
of a run are those of the packets at their own positions exactly if at every call of the
pump the cursor is where each queued packet has left it. -/

namespace MicroNT.Shell

open MicroNT.Base MicroNT.Base.Machine

/-! ## Runs with a record of the packets -/

/-- A packet with the cursor's position right after it. -/
structure Applied where
  packet : Packet
  x : i32
  y : i32
  deriving DecidableEq

/-- Interrupts and calls of the pump, in any order. -/
inductive Label
  | irq (status data : u8)
  | pump

/-- The system, the events so far, and all packets that have been applied. -/
structure Traced where
  input : Input
  events : List InputEvent
  applied : List Applied

def Traced.step (fb : Option (u32 × u32)) (s : Traced) : Label → Option Traced
  | .irq status data =>
    let mouse := s.input.mouse.handleIrq fb status data
    some { s with
      input := { s.input with mouse := mouse }
      applied := if s.input.mouse.completes status data then
          s.applied ++ [⟨(s.input.mouse.withByte data).decoded, mouse.x, mouse.y⟩]
        else s.applied }
  | .pump =>
    let r := pumpInteractiveInput s.input
    some { s with input := r.2, events := s.events ++ r.1 }

def firstTrace (sessionId screenW screenH : u32) : Traced :=
  ⟨⟨firstMouse, firstDesk sessionId screenW screenH⟩, [], []⟩

/-- The packets fed to the shell one by one, each at its own position. -/
def replay (d : Desk) : List Applied → List InputEvent × Desk
  | [] => ([], d)
  | a :: as =>
    let r := pumpPacket d a.packet a.x a.y
    let q := replay r.2 as
    (r.1 :: q.1, q.2)

/-- The packets on the ring, the oldest first. -/
def Mouse.queued (m : Mouse) : List Packet := Ring.contents m.ring RING_SLOTS m.head m.tail

/-- The applied packets that are still queued, and those before them. -/
def Traced.pending (s : Traced) : List Applied :=
  s.applied.drop (s.applied.length - s.input.mouse.queued.length)

def Traced.done (s : Traced) : List Applied :=
  s.applied.take (s.applied.length - s.input.mouse.queued.length)

/-- The events are those of the packets at their own positions. -/
def Traced.Faithful (start : Desk) (s : Traced) : Prop := s.events = (replay start s.done).1

/-- The pump finds the cursor where each queued packet has left it. -/
def Traced.Settled (s : Traced) : Label → Prop
  | .pump => ∀ a ∈ s.pending, a.x = s.input.mouse.x ∧ a.y = s.input.mouse.y
  | .irq _ _ => True

/-- There is room on the ring for the packet that the byte completes. -/
def Traced.HasRoom (s : Traced) : Label → Prop
  | .pump => True
  | .irq status data => s.input.mouse.completes status data = true →
    Ring.next RING_SLOTS s.input.mouse.tail ≠ s.input.mouse.head

instance instDecidableSettled (s : Traced) : (l : Label) → Decidable (s.Settled l)
  | .pump => inferInstanceAs (Decidable (∀ _ ∈ _, _))
  | .irq _ _ => inferInstanceAs (Decidable True)

instance instDecidableHasRoom (s : Traced) : (l : Label) → Decidable (s.HasRoom l)
  | .pump => inferInstanceAs (Decidable True)
  | .irq _ _ => inferInstanceAs (Decidable (_ → _))

/-! ## One packet -/

section

variable {d : Desk} {packet : Packet} {mx my : i32}

/-- An event tells where it was. -/
theorem pumpPacket_position : (pumpPacket d packet mx my).1.x = mx ∧
    (pumpPacket d packet mx my).1.y = my := by
  simp only [pumpPacket]
  split
  case isTrue => split <;> exact ⟨rfl, rfl⟩
  case isFalse =>
    split
    case isTrue => exact ⟨rfl, rfl⟩
    case isFalse => split <;> exact ⟨rfl, rfl⟩

theorem processPointer_testing (p : PointerState) (L : DesktopLayout) (x y : u32) (left : Bool) :
    (processPointer p L x y left).2.hitTestingReady = p.hitTestingReady := by
  rw [processPointer]
  split <;> rfl

theorem handleShellClick_layout (L : DesktopLayout) (target : HitTargetKind) (index : u32) :
    ∃ ops : List LayoutOp, handleShellClick L target index = L.run ops := by
  cases target with
  | StartButton => exact ⟨[.setStartMenu !L.startMenuOpen], rfl⟩
  | StartMenu => exact ⟨[.openWindow (startApps.getD index.toNat "Edge"), .setStartMenu false], rfl⟩
  | DesktopIcon =>
    rw [handleShellClick]
    split
    case h_1 => exact ⟨[], rfl⟩
    case h_2 icon _ => exact ⟨[.openWindow icon.label], rfl⟩
  | WindowClose => exact ⟨[.closeWindow index], rfl⟩
  | ShellWindow => exact ⟨[.focusWindow index], rfl⟩
  | Taskbar => exact ⟨[.focusWindow index], rfl⟩
  | _ => exact ⟨[], rfl⟩

/-- **A packet works on the windows** by operations of the session manager. -/
theorem pumpPacket_layout (d : Desk) (packet : Packet) (mx my : i32) :
    ∃ ops : List LayoutOp, (pumpPacket d packet mx my).2.layout = d.layout.run ops := by
  simp only [pumpPacket]
  split
  case isTrue =>
    split
    case isTrue => exact ⟨[.dragWindow d.dragWin (mx - d.dragOffX) (my - d.dragOffY)], rfl⟩
    case isFalse => exact ⟨[], rfl⟩
  case isFalse =>
    split
    case isTrue => exact ⟨[.focusWindow _], rfl⟩
    case isFalse =>
      split
      case isTrue => exact handleShellClick_layout _ _ _
      case isFalse => exact ⟨[], rfl⟩

theorem pumpPacket_testing (d : Desk) (packet : Packet) (mx my : i32) :
    (pumpPacket d packet mx my).2.pointer.hitTestingReady = d.pointer.hitTestingReady ∧
      (pumpPacket d packet mx my).2.layout.ready = d.layout.ready := by
  obtain ⟨ops, layout⟩ := pumpPacket_layout d packet mx my
  refine ⟨?_, layout ▸ (run_kept ops).ready⟩
  refine Eq.trans ?_ (processPointer_testing d.pointer d.layout mx my packet.left)
  simp only [pumpPacket]
  split
  case isTrue => split <;> rfl
  case isFalse =>
    split
    case isTrue => rfl
    case isFalse => split <;> rfl

end

/-! ## Many packets -/

section

variable {d : Desk}

theorem replay_append (as bs : List Applied) :
    replay d (as ++ bs) =
      ((replay d as).1 ++ (replay (replay d as).2 bs).1, (replay (replay d as).2 bs).2) := by
  induction as generalizing d with
  | nil => rfl
  | cons a as ih => simp only [List.cons_append, replay, ih]

/-- The events of packets tell where they were. -/
theorem replay_positions (as : List Applied) :
    (replay d as).1.map (fun e => (e.x, e.y)) = as.map fun a => (a.x, a.y) := by
  induction as generalizing d with
  | nil => rfl
  | cons a as ih =>
    obtain ⟨x, y⟩ : (pumpPacket d a.packet a.x a.y).1.x = a.x ∧
        (pumpPacket d a.packet a.x a.y).1.y = a.y := pumpPacket_position
    simp only [replay, List.map_cons, ih, x, y]

/-- The mouse with an empty ring. -/
def Mouse.drained (m : Mouse) : Mouse := { m with head := m.tail }

theorem tryRead_none {m : Mouse} (h : m.tryRead = none) : m.queued = [] ∧ m.drained = m := by
  rw [Mouse.tryRead] at h
  split at h
  case isFalse => cases h
  case isTrue empty =>
    refine ⟨?_, congrArg (fun head => { m with head := head }) empty.symm⟩
    rw [Mouse.queued, empty]
    exact Ring.contents_self _ _ _

/-- Reading takes the oldest packet off the ring, and changes nothing else. -/
theorem tryRead_some {m n : Mouse} {packet : Packet} (head : m.head < RING_SLOTS)
    (tail : m.tail < RING_SLOTS) (h : m.tryRead = some (packet, n)) :
    m.queued = packet :: n.queued ∧ n.head < RING_SLOTS ∧ n.tail = m.tail ∧ n.ready = m.ready ∧
      n.x = m.x ∧ n.y = m.y ∧ n.drained = m.drained := by
  rw [Mouse.tryRead] at h
  split at h
  case isTrue => cases h
  case isFalse some =>
    have slots : 0 < RING_SLOTS := by decide
    cases h
    exact ⟨Ring.contents_cons head tail some, Ring.next_lt slots _, rfl, rfl, rfl, rfl, rfl⟩

/-- The packets, all of them at one place. -/
def allAt (x y : i32) (packets : List Packet) : List Applied := packets.map fun p => ⟨p, x, y⟩

/-- **The pump** replays what is queued, all of it where the cursor is. -/
theorem pumpLoop_eq (n : Nat) {s : Input} (head : s.mouse.head < RING_SLOTS)
    (tail : s.mouse.tail < RING_SLOTS) (ready : s.mouse.ready = true)
    (enough : s.mouse.queued.length < n) :
    pumpLoop n s = ((replay s.desk (allAt s.mouse.x s.mouse.y s.mouse.queued)).1,
      ⟨s.mouse.drained, (replay s.desk (allAt s.mouse.x s.mouse.y s.mouse.queued)).2⟩) := by
  induction n generalizing s with
  | zero => exact absurd enough (Nat.not_lt_zero _)
  | succ n ih =>
    rw [pumpLoop]
    cases read : s.mouse.tryRead with
    | none =>
      obtain ⟨none, same⟩ := tryRead_none read
      rw [none, same]
      rfl
    | some r =>
      obtain ⟨packet, mouse⟩ := r
      obtain ⟨queue, head', tail', ready', x, y, drained⟩ := tryRead_some head tail read
      have ready' := ready'.trans ready
      rw [queue, List.length_cons] at enough
      have rest := ih (s := ⟨mouse, (pumpPacket s.desk packet mouse.x mouse.y).2⟩) head'
        (tail' ▸ tail) ready' (Nat.lt_of_succ_lt_succ enough)
      simp only [ready', if_true, rest]
      simp only [drained, queue, allAt, List.map_cons, replay, x, y]

end

/-! ## Interrupts -/

section

variable {m : Mouse} {fb : Option (u32 × u32)} {status data : u8}

/-- A byte that completes no packet is kept, or ignored. -/
theorem handleIrq_between (index : m.packetIndex < 3) (no : m.completes status data = false) :
    (m.handleIrq fb status data).queued = m.queued ∧
      (m.handleIrq fb status data).packetIndex < 3 ∧
      (m.handleIrq fb status data).head = m.head ∧ (m.handleIrq fb status data).tail = m.tail ∧
      (m.handleIrq fb status data).ready = m.ready := by
  rw [Mouse.handleIrq]
  split
  case isFalse => exact ⟨rfl, index, rfl, rfl, rfl⟩
  case isTrue takes =>
    rw [no]
    refine ⟨rfl, ?_, rfl, rfl, rfl⟩
    simp only [Mouse.completes, takes, Bool.true_and, Mouse.withByte, beq_eq_false_iff_ne] at no
    simp only [Bool.false_eq_true, if_false, Mouse.withByte]
    omega

/-- **A byte that completes a packet** puts it on the ring, if there is room. -/
theorem handleIrq_packet (head : m.head < RING_SLOTS) (tail : m.tail < RING_SLOTS)
    (yes : m.completes status data = true) (room : Ring.next RING_SLOTS m.tail ≠ m.head) :
    (m.handleIrq fb status data).queued = m.queued ++ [(m.withByte data).decoded] ∧
      (m.handleIrq fb status data).packetIndex = 0 ∧
      (m.handleIrq fb status data).head = m.head ∧
      (m.handleIrq fb status data).tail = Ring.next RING_SLOTS m.tail ∧
      (m.handleIrq fb status data).ready = m.ready := by
  have takes : m.takes status data = true := (Bool.and_eq_true_iff.mp yes).1
  rw [Mouse.handleIrq, if_pos takes, if_pos yes, Mouse.applyPacket, Mouse.push]
  have room' : ¬ Ring.next RING_SLOTS (m.withByte data).tail = (m.withByte data).head := room
  simp only [if_neg room']
  refine ⟨?_, trivial, rfl, rfl, rfl⟩
  have added : Ring.contents (Function.update m.ring m.tail (m.withByte data).decoded) RING_SLOTS m.head
      (Ring.next RING_SLOTS m.tail) = Ring.contents (Function.update m.ring m.tail
        (m.withByte data).decoded) RING_SLOTS m.head m.tail ++ [Function.update m.ring m.tail
          (m.withByte data).decoded m.tail] := Ring.contents_next head tail room
  rw [Function.update_self, Ring.contents_update head tail] at added
  exact added

end

/-! ## The invariant -/

/-- The ring holds the last of the applied packets; the events and the desk are those
of the others at their own positions. -/
structure Traced.Inv (start : Desk) (s : Traced) : Prop where
  split : ∃ done pending, s.applied = done ++ pending ∧
    pending.map Applied.packet = s.input.mouse.queued ∧ (s.events, s.input.desk) = replay start done
  head : s.input.mouse.head < RING_SLOTS
  tail : s.input.mouse.tail < RING_SLOTS
  index : s.input.mouse.packetIndex < 3
  ready : s.input.mouse.ready = true
  testing : s.input.desk.pointer.hitTestingReady = true
  layout : s.input.desk.layout.ready = true

section

variable {start : Desk} {s t : Traced} {fb : Option (u32 × u32)}

/-- The packets on the ring are the last ones. -/
theorem split_pending {done pending : List Applied} (all : s.applied = done ++ pending)
    (queue : pending.map Applied.packet = s.input.mouse.queued) :
    s.pending = pending ∧ s.done = done := by
  have length : s.applied.length - s.input.mouse.queued.length = done.length := by
    rw [← queue, all, List.length_append, List.length_map]
    omega
  rw [Traced.pending, Traced.done, length, all]
  exact ⟨List.drop_left, List.take_left⟩

theorem Traced.Inv.faithful (h : s.Inv start) : s.Faithful start := by
  obtain ⟨done, pending, all, queue, state⟩ := h.split
  rw [Traced.Faithful, (split_pending all queue).2, ← state]

/-- What the pump does in a state of the invariant. -/
theorem Traced.Inv.pump (h : s.Inv start) :
    pumpInteractiveInput s.input =
      ((replay s.input.desk (allAt s.input.mouse.x s.input.mouse.y s.input.mouse.queued)).1,
        ⟨s.input.mouse.drained,
          (replay s.input.desk (allAt s.input.mouse.x s.input.mouse.y s.input.mouse.queued)).2⟩) := by
  rw [pumpInteractiveInput]
  simp only [h.testing, h.layout, Bool.not_true, Bool.or_false, Bool.false_eq_true, if_false]
  refine pumpLoop_eq RING_SLOTS h.head h.tail h.ready ?_
  rw [Mouse.queued, Ring.length_contents]
  exact Ring.used_lt h.head h.tail

theorem replay_testing (d : Desk) (as : List Applied) :
    (replay d as).2.pointer.hitTestingReady = d.pointer.hitTestingReady ∧
      (replay d as).2.layout.ready = d.layout.ready := by
  induction as generalizing d with
  | nil => exact ⟨rfl, rfl⟩
  | cons a as ih =>
    obtain ⟨testing, ready⟩ := pumpPacket_testing d a.packet a.x a.y
    exact ⟨(ih _).1.trans testing, (ih _).2.trans ready⟩

/-- Packets that have left the cursor where it is are pumped at their own positions. -/
theorem settled_map {pending : List Applied} {x y : i32}
    (settled : ∀ a ∈ pending, a.x = x ∧ a.y = y) :
    allAt x y (pending.map Applied.packet) = pending := by
  rw [allAt, List.map_map]
  refine (List.map_congr_left fun a ha => ?_).trans (List.map_id pending)
  obtain ⟨hx, hy⟩ := settled a ha
  rw [Function.comp, ← hx, ← hy]
  rfl

/-- **Settled steps keep the invariant.** -/
theorem Traced.Inv.step (h : s.Inv start) {l : Label} (room : s.HasRoom l) (settled : s.Settled l)
    (ht : s.step fb l = some t) : t.Inv start := by
  obtain ⟨done, pending, all, queue, state⟩ := h.split
  cases l with
  | irq status data =>
    cases ht
    cases hc : s.input.mouse.completes status data with
    | false =>
      obtain ⟨same, index, head, tail, ready⟩ := @handleIrq_between _ fb _ _ h.index hc
      refine ⟨⟨done, pending, ?_, queue.trans same.symm, state⟩, head ▸ h.head, tail ▸ h.tail, index,
        ready.trans h.ready, h.testing, h.layout⟩
      simp only [Bool.false_eq_true, if_false]
      exact all
    | true =>
      obtain ⟨more, index, head, tail, ready⟩ :=
        @handleIrq_packet _ fb _ _ h.head h.tail hc (room hc)
      have slots : 0 < RING_SLOTS := by decide
      have small : 0 < 3 := by decide
      refine ⟨⟨done, pending ++ [⟨(s.input.mouse.withByte data).decoded,
        (s.input.mouse.handleIrq fb status data).x, (s.input.mouse.handleIrq fb status data).y⟩], ?_,
        ?_, state⟩, head ▸ h.head, tail ▸ Ring.next_lt slots _, index ▸ small,
        ready.trans h.ready, h.testing, h.layout⟩
      · simp only [if_true, all, List.append_assoc]
      · rw [List.map_append, queue]
        exact more.symm
  | pump =>
    cases ht
    have settled : ∀ a ∈ pending, a.x = s.input.mouse.x ∧ a.y = s.input.mouse.y := by
      have own := settled
      rwa [Traced.Settled, (split_pending all queue).1] at own
    simp only [h.pump, ← queue, settled_map settled]
    have whole := replay_append (d := start) done pending
    rw [← state] at whole
    obtain ⟨testing, ready⟩ := replay_testing s.input.desk pending
    refine ⟨⟨done ++ pending, [], ?_, ?_, whole.symm⟩, h.tail, h.tail, h.index, h.ready,
      testing.trans h.testing, ready.trans h.layout⟩
    · rw [List.append_nil]
      exact all
    · exact (Ring.contents_self _ _ _).symm

/-- **A pump that is not settled** makes an event somewhere else. -/
theorem Traced.Inv.unsettled (h : s.Inv start) {l : Label} (unsettled : ¬ s.Settled l)
    (ht : s.step fb l = some t) : ¬ t.Faithful start := by
  obtain ⟨done, pending, all, queue, state⟩ := h.split
  cases l with
  | irq status data => exact absurd trivial unsettled
  | pump =>
    intro faithful
    refine unsettled ?_
    rw [Traced.Settled, (split_pending all queue).1]
    cases ht
    simp only [h.pump, ← queue] at faithful
    have empty := (split_pending (s := ⟨⟨s.input.mouse.drained, (replay s.input.desk
        (allAt s.input.mouse.x s.input.mouse.y (pending.map Applied.packet))).2⟩,
      s.events ++ (replay s.input.desk
        (allAt s.input.mouse.x s.input.mouse.y (pending.map Applied.packet))).1, s.applied⟩)
      (List.append_nil s.applied).symm (Ring.contents_self _ _ _).symm).2
    rw [Traced.Faithful, empty] at faithful
    simp only [all, replay_append, ← state] at faithful
    have same := congrArg (List.map fun e => (e.x, e.y)) (List.append_cancel_left faithful)
    rw [replay_positions, replay_positions, allAt, List.map_map, List.map_map] at same
    intro a ha
    have here := List.map_inj_left.mp same a ha
    exact ⟨(congrArg Prod.fst here).symm, (congrArg Prod.snd here).symm⟩

end

/-! ## Runs -/

theorem firstTrace_inv (sessionId screenW screenH : u32) :
    (firstTrace sessionId screenW screenH).Inv (firstDesk sessionId screenW screenH) :=
  ⟨⟨[], [], rfl, rfl, rfl⟩, show 0 < RING_SLOTS by decide, show 0 < RING_SLOTS by decide,
    show 0 < 3 by decide, rfl, rfl, rfl⟩

/-- **Clicks are where the packets were**: in every run without ring overflow, for every
framebuffer, the events are those of the packets fed one by one at the positions right
after them, exactly if each call of the pump finds the cursor where each queued packet
has left it. -/
theorem click_positions_iff (fb : Option (u32 × u32)) (sessionId screenW screenH : u32)
    (labels : List Label)
    (room : Along (Traced.step fb) Traced.HasRoom (firstTrace sessionId screenW screenH) labels) :
    Always (Traced.step fb) (Traced.Faithful (firstDesk sessionId screenW screenH))
        (firstTrace sessionId screenW screenH) labels ↔
      Along (Traced.step fb) Traced.Settled (firstTrace sessionId screenW screenH) labels := by
  refine always_iff_along_of (fun s l t hs room settled ht => hs.step room settled ht)
    (fun s hs => hs.faithful) (fun s l t hs _ no ht => hs.unsettled no ht) (fun s l none => ?_)
    (firstTrace_inv sessionId screenW screenH) room
  cases l <;> cases none

theorem pumpLoop_layout (n : Nat) (s : Input) :
    ∃ ops : List LayoutOp, (pumpLoop n s).2.desk.layout = s.desk.layout.run ops := by
  induction n generalizing s with
  | zero => exact ⟨[], rfl⟩
  | succ n ih =>
    rw [pumpLoop]
    cases read : s.mouse.tryRead with
    | none => exact ⟨[], rfl⟩
    | some r =>
      simp only
      split
      case isFalse => exact ⟨[], rfl⟩
      case isTrue =>
        obtain ⟨first, hfirst⟩ := pumpPacket_layout s.desk r.1 r.2.x r.2.y
        obtain ⟨rest, hrest⟩ := ih ⟨r.2, (pumpPacket s.desk r.1 r.2.x r.2.y).2⟩
        refine ⟨first ++ rest, hrest.trans ?_⟩
        rw [hfirst, DesktopLayout.run, DesktopLayout.run, DesktopLayout.run, List.foldl_append]

/-- **Every layout of a run** comes from the first one by operations on windows. -/
theorem trace_layouts (fb : Option (u32 × u32)) (sessionId screenW screenH : u32)
    (labels : List Label) :
    Always (Traced.step fb) (fun s => ∃ ops : List LayoutOp,
        s.input.desk.layout = (buildLayout sessionId screenW screenH).run ops)
      (firstTrace sessionId screenW screenH) labels := by
  refine always_invariant (G := fun _ _ => True) (fun s l t hs _ ht => ?_) ⟨[], rfl⟩
    (along_of_forall (fun _ _ => trivial) _ _)
  obtain ⟨before, hbefore⟩ := hs
  cases l with
  | irq status data =>
    cases ht
    exact ⟨before, hbefore⟩
  | pump =>
    cases ht
    simp only [pumpInteractiveInput]
    split
    case isTrue => exact ⟨before, hbefore⟩
    case isFalse =>
      obtain ⟨ops, hops⟩ := pumpLoop_layout RING_SLOTS s.input
      refine ⟨before ++ ops, hops.trans ?_⟩
      rw [hbefore, DesktopLayout.run, DesktopLayout.run, DesktopLayout.run, List.foldl_append]

/-- The bytes of a packet. -/
def packetLabels (buttons dx dy : u8) : List Label :=
  [.irq 0x21#8 (0x08#8 ||| buttons), .irq 0x21#8 dx, .irq 0x21#8 dy]

/-- A press and a release without moving, in one call of the pump. -/
theorem click_positions_iff_still :
    Always (Traced.step (some (1920#32, 1080#32))) (Traced.Faithful (firstDesk 1#32 1920#32 1080#32))
      (firstTrace 1#32 1920#32 1080#32) (packetLabels 1#8 0 0 ++ packetLabels 0 0 0 ++ [.pump]) :=
  (click_positions_iff (some (1920#32, 1080#32)) 1#32 1920#32 1080#32
    (packetLabels 1#8 0 0 ++ packetLabels 0 0 0 ++ [.pump]) (by decide)).mpr (by decide)

/-- **A click that is queued before the pointer moves on** comes to what the pointer is
over in the end: the desktop instead of the window. -/
theorem queued_click_misplaced :
    Along (Traced.step (some (1920#32, 1080#32))) Traced.HasRoom (firstTrace 1#32 1920#32 1080#32)
        (packetLabels 1#8 0 0 ++ packetLabels 0 0 0 ++ packetLabels 0 127#8 0 ++
          packetLabels 0 127#8 0 ++ [.pump]) ∧
      (run (Traced.step (some (1920#32, 1080#32))) (firstTrace 1#32 1920#32 1080#32)
          (packetLabels 1#8 0 0 ++ packetLabels 0 0 0 ++ packetLabels 0 127#8 0 ++
            packetLabels 0 127#8 0 ++ [.pump])).map (fun t => (t.events.map InputEvent.outcome,
              (replay (firstDesk 1#32 1920#32 1080#32) t.applied).1.map InputEvent.outcome)) =
        some ([.nothing, .clicked .Desktop 0, .nothing, .nothing],
          [.nothing, .clicked .ShellWindow 3, .nothing, .nothing]) :=
  ⟨by decide, by decide +kernel⟩

end MicroNT.Shell
