import MicroNT.Base.Machine
import MicroNT.Base.Ring
import MicroNT.Ntdef

/-! # The command FIFO of the display (`kernel/hal/x64/vmsvga.cpp`)

`Present` pushes the five words of an UPDATE command to a ring in device memory, which
the device reads at its own pace. `FifoPush` never looks how far the device has come. -/

namespace MicroNT.VMSVGA

open MicroNT.Base.Machine MicroNT.Base.Ring

/-! ## The driver -/

abbrev SVGA_FIFO_MIN : Nat := 0
abbrev SVGA_FIFO_MAX : Nat := 1
abbrev SVGA_FIFO_NEXT_CMD : Nat := 2
abbrev SVGA_FIFO_STOP : Nat := 3

abbrev SVGA_CMD_UPDATE : u32 := 1

/-- The 32-bit words of the FIFO memory: four registers, then the commands. -/
abbrev Fifo := Nat → u32

/-- The driver's static variables. `mapped` says that `s_fifo` is not null. -/
structure Svga where
  present : Bool
  mapped : Bool
  fifo : Fifo
  fifoSize : u32
  width : u32
  height : u32

def fifoInit (s : Svga) : Svga :=
  if !s.mapped then s
  else
    let m := Function.update s.fifo SVGA_FIFO_MIN 16
    let m := Function.update m SVGA_FIFO_MAX s.fifoSize
    let m := Function.update m SVGA_FIFO_NEXT_CMD 16
    { s with fifo := Function.update m SVGA_FIFO_STOP 16 }

/-- `SetMode`, with the framebuffer's address and pitch that the device reports. -/
def setMode (s : Svga) (fbPhys pitch width height : u32) : Svga :=
  if !s.present then s
  else if fbPhys = 0 ∨ pitch = 0 then s
  else { fifoInit s with width := width, height := height }

/-- The position after `next`, as both sides compute it. -/
def advance (m : Fifo) (next : u32) : u32 :=
  let next := next + 4
  if next ≥ m SVGA_FIFO_MAX then m SVGA_FIFO_MIN else next

/-- The words that `Present` pushes. -/
def updateCommand (s : Svga) : List u32 := [SVGA_CMD_UPDATE, 0, 0, s.width, s.height]

/-! ## The driver and the device -/

/-- Where the driver is: in no call, before the push of a word, or after its store with the
`next` that it has read. -/
inductive Pc
  | idle
  | push (values : List u32)
  | stored (next value : u32) (values : List u32)

/-- The driver with what it has pushed and what the device has read. -/
structure Display where
  svga : Svga
  pc : Pc
  pushed : List u32
  read : List u32

/-- A call of `Present`, a statement of its `FifoPush`, or a word that the device reads. -/
inductive Event
  | present
  | driver
  | device
  deriving DecidableEq

def Display.withFifo (d : Display) (m : Fifo) : Display := { d with svga := { d.svga with fifo := m } }

/-- The next statement of `FifoPush`: the store of the word, or that of `NEXT_CMD`. -/
def driverStep (d : Display) : Option Display :=
  let m := d.svga.fifo
  match d.pc with
  | .idle => none
  | .push [] => some { d with pc := .idle }
  | .push (v :: vs) =>
    let next := m SVGA_FIFO_NEXT_CMD
    some { d.withFifo (Function.update m (next / 4).toNat v) with pc := .stored next v vs }
  | .stored next v vs =>
    some { d.withFifo (Function.update m SVGA_FIFO_NEXT_CMD (advance m next)) with
      pc := .push vs, pushed := d.pushed ++ [v] }

/-- The device takes the word at `STOP`, unless it has come to `NEXT_CMD`. -/
def deviceStep (d : Display) : Option Display :=
  let m := d.svga.fifo
  let stop := m SVGA_FIFO_STOP
  if stop = m SVGA_FIFO_NEXT_CMD then none
  else
    some { d.withFifo (Function.update m SVGA_FIFO_STOP (advance m stop)) with
      read := d.read ++ [m (stop / 4).toNat] }

def step (d : Display) : Event → Option Display
  | .present =>
    match d.pc with
    | .idle =>
      if !d.svga.present || !d.svga.mapped || d.svga.width == 0 then some d
      else some { d with pc := .push (updateCommand d.svga) }
    | _ => none
  | .driver => driverStep d
  | .device => deviceStep d

/-- After `SetMode`, with no command pushed. -/
def start (s : Svga) (fbPhys pitch width height : u32) : Display :=
  ⟨setMode s fbPhys pitch width height, .idle, [], []⟩

/-! ## What is promised -/

/-- The slot of a position in the ring. -/
def slotOf (x : u32) : Nat := x.toNat / 4 - 4

def slotCount (m : Fifo) : Nat := slotOf (m SVGA_FIFO_MAX)

/-- What the device is to read, from `STOP` up to `NEXT_CMD`. -/
def unread (m : Fifo) : List u32 :=
  contents (fun i => m (i + 4)) (slotCount m) (slotOf (m SVGA_FIFO_STOP))
    (slotOf (m SVGA_FIFO_NEXT_CMD))

/-- What was pushed is what was read and then what is to be read, and `NEXT_CMD` is in the
ring. -/
structure Delivered (d : Display) : Prop where
  order : d.read ++ unread d.svga.fifo = d.pushed
  range : d.svga.fifo SVGA_FIFO_MIN ≤ d.svga.fifo SVGA_FIFO_NEXT_CMD ∧
    d.svga.fifo SVGA_FIFO_NEXT_CMD < d.svga.fifo SVGA_FIFO_MAX

/-- A word is pushed only while `NEXT_CMD` does not come to `STOP` with it. -/
def Room (d : Display) : Event → Prop
  | .driver => ∀ next v vs, d.pc = .stored next v vs →
    advance d.svga.fifo next ≠ d.svga.fifo SVGA_FIFO_STOP
  | _ => True

/-! ## The ring -/

/-- A position of a command word. -/
structure Inside (m : Fifo) (x : u32) : Prop where
  aligned : x.toNat % 4 = 0
  low : 16 ≤ x.toNat
  high : x.toNat < (m SVGA_FIFO_MAX).toNat

/-- The registers of the FIFO. -/
structure Registers (m : Fifo) : Prop where
  min : m SVGA_FIFO_MIN = 16
  max : (m SVGA_FIFO_MAX).toNat % 4 = 0
  large : 36 ≤ (m SVGA_FIFO_MAX).toNat
  next : Inside m (m SVGA_FIFO_NEXT_CMD)
  stop : Inside m (m SVGA_FIFO_STOP)

section

variable {m : Fifo} {x y v : u32}

theorem Inside.slot (h : Inside m x) (r : Registers m) :
    slotOf x < slotCount m ∧ slotOf x + 4 = (x / 4).toNat := by
  have low := h.low
  have high := h.high
  have aligned := h.aligned
  have max := r.max
  rw [BitVec.toNat_udiv, slotCount, slotOf, slotOf, show (4 : u32).toNat = 4 from rfl]
  omega

theorem Inside.slot_inj (hx : Inside m x) (hy : Inside m y) (same : slotOf x = slotOf y) : x = y := by
  have ax := hx.aligned
  have ay := hy.aligned
  have lx := hx.low
  have ly := hy.low
  simp only [slotOf] at same
  exact BitVec.eq_of_toNat_eq (by omega)

/-- **The next position** is that of the next slot. -/
theorem Inside.advance (h : Inside m x) (r : Registers m) :
    Inside m (advance m x) ∧ slotOf (advance m x) = Base.Ring.next (slotCount m) (slotOf x) := by
  have low := h.low
  have high := h.high
  have aligned := h.aligned
  have max := r.max
  have large := r.large
  have bound := (m SVGA_FIFO_MAX).isLt
  have sum : (x + 4).toNat = x.toNat + 4 := by
    rw [BitVec.toNat_add, show (4 : u32).toNat = 4 from rfl]
    omega
  have first : (16 : u32).toNat = 16 := rfl
  rw [VMSVGA.advance]
  simp only [ge_iff_le, BitVec.le_def, sum]
  split
  case isTrue wraps =>
    rw [r.min]
    refine ⟨⟨by rw [first], by rw [first], by omega⟩, ?_⟩
    rw [Base.Ring.next, slotCount, slotOf, slotOf, slotOf, first, if_neg (by omega)]
  case isFalse inside =>
    refine ⟨⟨by omega, by omega, by omega⟩, ?_⟩
    rw [Base.Ring.next, slotCount, slotOf, slotOf, slotOf, sum, if_pos (by omega)]
    omega

theorem update_other {i j : Nat} (ne : i ≠ j) (v : u32) : Function.update m j v i = m i :=
  Function.update_of_ne ne v m

/-- A word that is stored behind the registers. -/
theorem Registers.store (r : Registers m) (h : Inside m x) (v : u32) :
    Registers (Function.update m (x / 4).toNat v) ∧
      ∀ i, i < 4 → Function.update m (x / 4).toNat v i = m i := by
  have slot := (h.slot r).2
  have same : ∀ i, i < 4 → Function.update m (x / 4).toNat v i = m i := fun i hi =>
    update_other (by omega) v
  refine ⟨⟨?_, ?_, ?_, ?_, ?_⟩, same⟩
  · rw [same _ (by decide), r.min]
  · rw [same _ (by decide)]
    exact r.max
  · rw [same _ (by decide)]
    exact r.large
  · rw [same _ (by decide)]
    exact ⟨r.next.aligned, r.next.low, by rw [same _ (by decide)]; exact r.next.high⟩
  · rw [same _ (by decide)]
    exact ⟨r.stop.aligned, r.stop.low, by rw [same _ (by decide)]; exact r.stop.high⟩

/-- **A store at `NEXT_CMD`** overwrites nothing that is to be read. -/
theorem Registers.unread_store (r : Registers m) (v : u32) :
    unread (Function.update m (m SVGA_FIFO_NEXT_CMD / 4).toNat v) = unread m := by
  obtain ⟨-, same⟩ := r.store r.next v
  obtain ⟨next, word⟩ := r.next.slot r
  obtain ⟨stop, -⟩ := r.stop.slot r
  have slots : (fun i => Function.update m (m SVGA_FIFO_NEXT_CMD / 4).toNat v (i + 4)) =
      Function.update (fun i => m (i + 4)) (slotOf (m SVGA_FIFO_NEXT_CMD)) v := by
    funext i
    rw [Function.update_apply, Function.update_apply]
    exact if_congr (by omega) rfl rfl
  rw [unread, slotCount, same _ (by decide), same _ (by decide), same _ (by decide), slots]
  exact contents_update stop next _ v

/-- What the registers say once one of the two positions has changed. -/
theorem Registers.move (r : Registers m) {reg : Nat}
    (hreg : reg = SVGA_FIFO_NEXT_CMD ∨ reg = SVGA_FIFO_STOP) (h : Inside m x) :
    Registers (Function.update m reg x) := by
  have other : ∀ i, i ≠ reg → Function.update m reg x i = m i := fun i hi => update_other hi x
  have max : Function.update m reg x SVGA_FIFO_MAX = m SVGA_FIFO_MAX := other _ (by
    rcases hreg with rfl | rfl <;> decide)
  have inside : ∀ {y}, Inside m y → Inside (Function.update m reg x) y := fun hy =>
    ⟨hy.aligned, hy.low, by rw [max]; exact hy.high⟩
  have place : ∀ i, Inside m (m i) → Inside (Function.update m reg x) (Function.update m reg x i) := by
    intro i hi
    by_cases here : i = reg
    · rw [here, Function.update_self]
      exact inside h
    · rw [other i here]
      exact inside hi
  refine ⟨?_, by rw [max]; exact r.max, by rw [max]; exact r.large, place _ r.next, place _ r.stop⟩
  rw [other _ (by rcases hreg with rfl | rfl <;> decide), r.min]

theorem slots_move {reg : Nat} (hreg : reg < 4) (x : u32) :
    (fun i => Function.update m reg x (i + 4)) = fun i => m (i + 4) := by
  funext i
  exact update_other (by omega) x

/-- **Moving `NEXT_CMD`** adds the word there, if it does not come to `STOP`. -/
theorem Registers.unread_push (r : Registers m)
    (room : VMSVGA.advance m (m SVGA_FIFO_NEXT_CMD) ≠ m SVGA_FIFO_STOP) :
    unread (Function.update m SVGA_FIFO_NEXT_CMD (VMSVGA.advance m (m SVGA_FIFO_NEXT_CMD))) =
      unread m ++ [m (m SVGA_FIFO_NEXT_CMD / 4).toNat] := by
  obtain ⟨inside, slot⟩ := r.next.advance r
  obtain ⟨next, word⟩ := r.next.slot r
  obtain ⟨stop, -⟩ := r.stop.slot r
  rw [unread, slotCount, slots_move (by decide), Function.update_self, update_other (by decide),
    update_other (by decide), slot, ← slotCount, ← word, unread]
  refine contents_next stop next fun same => room ?_
  exact inside.slot_inj r.stop (slot.trans same)

/-- **Without room** the ring looks empty afterwards. -/
theorem Registers.unread_full (full : VMSVGA.advance m (m SVGA_FIFO_NEXT_CMD) = m SVGA_FIFO_STOP) :
    unread (Function.update m SVGA_FIFO_NEXT_CMD (VMSVGA.advance m (m SVGA_FIFO_NEXT_CMD))) = [] := by
  rw [unread, Function.update_self, update_other (by decide), full]
  exact contents_self _ _ _

/-- **Moving `STOP`** takes the oldest word. -/
theorem Registers.unread_pop (r : Registers m) (some : m SVGA_FIFO_STOP ≠ m SVGA_FIFO_NEXT_CMD) :
    unread m = m (m SVGA_FIFO_STOP / 4).toNat ::
      unread (Function.update m SVGA_FIFO_STOP (VMSVGA.advance m (m SVGA_FIFO_STOP))) := by
  obtain ⟨-, slot⟩ := r.stop.advance r
  obtain ⟨next, -⟩ := r.next.slot r
  obtain ⟨stop, word⟩ := r.stop.slot r
  rw [unread, contents_cons stop next fun same => some (r.stop.slot_inj r.next same), word, unread,
    slots_move (by decide), Function.update_self, update_other (by decide), slot, slotCount, slotCount,
    update_other (by decide)]

end

/-! ## Runs -/

/-- The state of the ring between two steps. -/
structure Flowing (d : Display) : Prop where
  registers : Registers d.svga.fifo
  order : d.read ++ unread d.svga.fifo = d.pushed
  stored : ∀ next v vs, d.pc = .stored next v vs →
    next = d.svga.fifo SVGA_FIFO_NEXT_CMD ∧ d.svga.fifo (next / 4).toNat = v

theorem Flowing.delivered {d : Display} (h : Flowing d) : Delivered d := by
  have next := h.registers.next
  refine ⟨h.order, ?_, next.high⟩
  rw [BitVec.le_def, h.registers.min]
  exact next.low

theorem Flowing.step {d t : Display} {e : Event} (h : Flowing d) (room : Room d e)
    (hs : step d e = some t) : Flowing t := by
  obtain ⟨⟨present, mapped, m, size, width, height⟩, pc, pushed, read⟩ := d
  obtain ⟨r, order, stored⟩ := h
  dsimp only at r order stored
  cases e with
  | present =>
    cases pc with
    | idle =>
      simp only [VMSVGA.step] at hs
      split at hs <;> obtain rfl := Option.some.inj hs
      · exact ⟨r, order, fun _ _ _ no => by cases no⟩
      · exact ⟨r, order, fun _ _ _ no => by cases no⟩
    | push vs => cases hs
    | stored next v vs => cases hs
  | driver =>
    cases pc with
    | idle => cases hs
    | push vs =>
      cases vs with
      | nil =>
        obtain rfl := Option.some.inj hs
        exact ⟨r, order, fun _ _ _ no => by cases no⟩
      | cons v vs =>
        obtain rfl := Option.some.inj hs
        obtain ⟨registers, same⟩ := r.store r.next v
        refine ⟨registers, (congrArg _ (r.unread_store v)).trans order, ?_⟩
        rintro next w ws ⟨⟩
        exact ⟨(same _ (by decide)).symm, Function.update_self _ _ _⟩
    | stored next v vs =>
      obtain rfl := Option.some.inj hs
      obtain ⟨rfl, word⟩ := stored next v vs rfl
      have room := room _ v vs rfl
      obtain ⟨inside, -⟩ := r.next.advance r
      refine ⟨r.move (.inl rfl) inside, ?_, fun _ _ _ no => by cases no⟩
      show read ++ unread (Function.update m _ _) = pushed ++ [v]
      rw [r.unread_push room, ← List.append_assoc, order, word]
  | device =>
    simp only [VMSVGA.step, deviceStep] at hs
    split at hs
    case isTrue => cases hs
    case isFalse some =>
      obtain rfl := Option.some.inj hs
      obtain ⟨inside, -⟩ := r.stop.advance r
      refine ⟨r.move (.inr rfl) inside, ?_, fun next v vs at_ => ?_⟩
      · show (read ++ [_]) ++ unread (Function.update m _ _) = pushed
        rw [List.append_assoc, List.singleton_append, ← r.unread_pop some, order]
      · obtain ⟨rfl, word⟩ := stored next v vs at_
        obtain ⟨-, slot⟩ := r.next.slot r
        refine ⟨?_, ?_⟩
        · exact (update_other (i := SVGA_FIFO_NEXT_CMD) (j := SVGA_FIFO_STOP) (by decide)
            (advance m (m SVGA_FIFO_STOP))).symm
        · have apart : (m SVGA_FIFO_NEXT_CMD / 4).toNat ≠ 3 := by omega
          exact (update_other apart _).trans word

/-- **A push without room** loses what was to be read. -/
theorem Flowing.full {d t : Display} {e : Event} (h : Flowing d) (full : ¬ Room d e)
    (hs : VMSVGA.step d e = some t) : ¬ Delivered t := by
  obtain ⟨⟨present, mapped, m, size, width, height⟩, pc, pushed, read⟩ := d
  obtain ⟨r, order, stored⟩ := h
  dsimp only at r order stored
  cases e with
  | present => exact absurd trivial full
  | device => exact absurd trivial full
  | driver =>
    simp only [Room, not_forall, not_not] at full
    obtain ⟨next, v, vs, rfl, full⟩ := full
    obtain ⟨rfl, -⟩ := stored next v vs rfl
    obtain rfl := Option.some.inj hs
    intro delivered
    have order' : read ++ unread (Function.update m _ _) = pushed ++ [v] := delivered.order
    rw [Registers.unread_full full, List.append_nil] at order'
    have length := congrArg List.length order'
    have before := congrArg List.length order
    simp only [List.length_append, List.length_singleton] at length before
    omega

/-- The FIFO that `SetMode` sets up. -/
theorem start_flowing {s : Svga} {fbPhys pitch : u32} (width height : u32)
    (up : s.present = true ∧ s.mapped = true ∧ fbPhys ≠ 0 ∧ pitch ≠ 0)
    (aligned : s.fifoSize.toNat % 4 = 0) (large : 36 ≤ s.fifoSize.toNat) :
    Flowing (start s fbPhys pitch width height) := by
  obtain ⟨present, mapped, fb, stride⟩ := up
  obtain ⟨m, hm⟩ : ∃ m, m = (start s fbPhys pitch width height).svga.fifo := ⟨_, rfl⟩
  have regs : m SVGA_FIFO_MIN = 16 ∧ m SVGA_FIFO_MAX = s.fifoSize ∧ m SVGA_FIFO_NEXT_CMD = 16 ∧
      m SVGA_FIFO_STOP = 16 := by
    rw [hm]
    simp only [start, setMode, fifoInit, present, mapped, fb, stride, or_self, Bool.not_true,
      Bool.false_eq_true, if_false]
    exact ⟨rfl, rfl, rfl, rfl⟩
  obtain ⟨min, max, next, stop⟩ := regs
  have first : Inside m 16 := ⟨rfl, le_rfl, by rw [max]; exact lt_of_lt_of_le (by decide) large⟩
  refine ⟨?_, ?_, fun _ _ _ no => by cases no⟩
  · rw [← hm]
    exact ⟨min, by rw [max]; exact aligned, by rw [max]; exact large, by rw [next]; exact first,
      by rw [stop]; exact first⟩
  · rw [← hm, unread, next, stop, contents_self]
    rfl

/-- **Delivery.** For every size of the FIFO and every interleaving of `Present` with the
device, the device reads the words in the order in which they were pushed exactly as long as
every word that is pushed leaves a slot free before `STOP`. -/
theorem fifo_delivers_iff (s : Svga) (fbPhys pitch width height : u32)
    (up : s.present = true ∧ s.mapped = true ∧ fbPhys ≠ 0 ∧ pitch ≠ 0)
    (aligned : s.fifoSize.toNat % 4 = 0) (large : 36 ≤ s.fifoSize.toNat) (events : List Event) :
    Always step Delivered (start s fbPhys pitch width height) events ↔
      Along step Room (start s fbPhys pitch width height) events := by
  have flowing := start_flowing width height up aligned large
  refine always_iff_along (fun _ _ _ hd hr ht => hd.step hr ht) (fun _ hd => hd.delivered)
    (fun _ _ _ hd full ht => hd.full full ht) (fun d e refused => ?_) flowing
  cases e with
  | present => trivial
  | device => trivial
  | driver =>
    intro next v vs at_
    simp only [VMSVGA.step, driverStep, at_] at refused
    cases refused

/-- A device with a FIFO of nine words. -/
def smallDevice : Svga := ⟨true, true, fun _ => 0, 36, 0, 0⟩

/-- `Present`, and the device reads the five words as they come. -/
def keepingUp : List Event :=
  [.present, .driver, .driver, .device, .driver, .driver, .device, .driver, .driver, .device]

theorem fifo_delivers_iff_small :
    Always step Delivered (start smallDevice 1 1 1024 768) keepingUp ↔
      Along step Room (start smallDevice 1 1 1024 768) keepingUp :=
  fifo_delivers_iff smallDevice 1 1 1024 768 (by decide) (by decide) (by decide) keepingUp

/-- `Present`, and the device reads nothing yet. -/
def lagging : List Event := .present :: List.replicate 10 .driver

/-- **An UPDATE command is lost** in a FIFO of nine words that the device does not read in
time: after five pushes `NEXT_CMD` is at `STOP` again. -/
theorem fifo_loses_update :
    ¬ Always step Delivered (start smallDevice 1 1 1024 768) lagging := by
  intro delivered
  have lost : (run step (start smallDevice 1 1 1024 768) lagging).map
      (fun d => (d.pushed.length, d.read.length, (unread d.svga.fifo).length)) = some (5, 0, 0) := by
    decide
  obtain ⟨d, reached, counts⟩ := Option.map_eq_some_iff.mp lost
  have order := congrArg List.length (delivered.last reached).order
  simp only [Prod.mk.injEq] at counts
  rw [List.length_append] at order
  omega

end MicroNT.VMSVGA
