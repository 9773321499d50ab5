import MicroNT.Base.Machine
import MicroNT.ClickPositions

/-! # Mouse packets and the PS/2 protocol (`mouse.cpp`)

The protocol gives each delta nine bits: eight in a byte of its own, and the sign in
byte 0. `ApplyPacket` reads the byte alone, as a signed one. -/

namespace MicroNT.Shell

open Base.Machine

/-! ## The protocol -/

/-- The three bytes of a packet. -/
structure PacketBytes where
  flags : u8
  dx : u8
  dy : u8

/-- The number with these low eight bits and this sign. -/
def signedDelta (sign : Bool) (low : u8) : ℤ := low.toNat - if sign then 256 else 0

namespace PacketBytes

def deltaX (p : PacketBytes) : ℤ := signedDelta (p.flags.getLsbD 4) p.dx

def deltaY (p : PacketBytes) : ℤ := signedDelta (p.flags.getLsbD 5) p.dy

/-- A delta did not fit in its nine bits. -/
def Overflows (p : PacketBytes) : Prop := p.flags.getLsbD 6 = true ∨ p.flags.getLsbD 7 = true

instance (p : PacketBytes) : Decidable p.Overflows := inferInstanceAs (Decidable (_ ∨ _))

end PacketBytes

/-- The packet has these buttons. -/
def Packet.HasButtons (packet : Packet) (flags : u8) : Prop :=
  packet.left = flags.getLsbD 0 ∧ packet.right = flags.getLsbD 1 ∧ packet.middle = flags.getLsbD 2

/-- Width and height of the screen. -/
def screenSize : Option (u32 × u32) → ℤ × ℤ
  | none => (1920, 1080)
  | some fb => (fb.1.toNat, fb.2.toNat)

/-- How far the cursor of 24 by 32 pixels goes on the screen. -/
def cursorReach (fb : Option (u32 × u32)) : ℤ × ℤ :=
  (max 0 ((screenSize fb).1 - 24), max 0 ((screenSize fb).2 - 32))

def clampTo (limit c : ℤ) : ℤ := max 0 (min limit c)

/-! ## Streams of bytes -/

/-- The driver, and the bytes since the last whole packet. -/
structure Receiver where
  mouse : Mouse
  seen : List u8

/-- An interrupt with the status and the byte it finds, or a reader of the ring. -/
inductive Arrival
  | byte (status data : u8)
  | read

def Receiver.step (fb : Option (u32 × u32)) (r : Receiver) : Arrival → Option Receiver
  | .byte status data =>
    some ⟨r.mouse.handleIrq fb status data, if r.seen.length = 2 then [] else r.seen ++ [data]⟩
  | .read => some ⟨r.mouse.tryRead.elim r.mouse Prod.snd, r.seen⟩

/-- The packet that ends here. -/
def Receiver.whole (r : Receiver) : Arrival → Option PacketBytes
  | .byte _ data =>
    match r.seen with
    | [flags, dx] => some ⟨flags, dx, data⟩
    | _ => none
  | .read => none

/-- Each byte arrives, and bit 3 is set in the first one of a packet. -/
def Receiver.WellFormed (r : Receiver) : Arrival → Prop
  | .byte status data => status.getLsbD 0 = true ∧ (r.seen = [] → data.getLsbD 3 = true)
  | .read => True

instance instDecidableWellFormed (r : Receiver) : (a : Arrival) → Decidable (r.WellFormed a)
  | .byte _ _ => inferInstanceAs (Decidable (_ ∧ _))
  | .read => inferInstanceAs (Decidable True)

/-- The cursor is on the screen. -/
def Mouse.Inside (fb : Option (u32 × u32)) (m : Mouse) : Prop :=
  0 ≤ m.x.toInt ∧ m.x.toInt < (screenSize fb).1 ∧ 0 ≤ m.y.toInt ∧ m.y.toInt < (screenSize fb).2

/-- The cursor went from `m` to `m'` as the packet says. -/
def PacketBytes.Moves (fb : Option (u32 × u32)) (p : PacketBytes) (m m' : Mouse) : Prop :=
  m'.x.toInt = clampTo (cursorReach fb).1 (m.x.toInt + p.deltaX) ∧
    m'.y.toInt = clampTo (cursorReach fb).2 (m.y.toInt - p.deltaY)

/-- One more packet is queued, with the buttons of this one. -/
def PacketBytes.Reported (p : PacketBytes) (m m' : Mouse) : Prop :=
  ∃ packet, m'.queued = m.queued ++ [packet] ∧ packet.HasButtons p.flags

/-- **What a packet has to do**: move the cursor, unless it overflows, and report the
buttons. -/
def Receiver.Decodes (fb : Option (u32 × u32)) (r : Receiver) (a : Arrival) : Prop :=
  ∀ p, r.whole a = some p → ∀ r', r.step fb a = some r' →
    (¬ p.Overflows → p.Moves fb r.mouse r'.mouse) ∧ p.Reported r.mouse r'.mouse ∧
      r'.mouse.Inside fb

/-! ## When the driver decodes it -/

/-- Both ends of a move lie beyond the same edge. -/
def Hidden (limit a b : ℤ) : Prop := a ≤ 0 ∧ b ≤ 0 ∨ limit ≤ a ∧ limit ≤ b

/-- The sum does not overflow, and the sign in byte 0 is that of the delta's own byte, or
both deltas lead beyond the same edge. -/
def AxisAgrees (limit c : ℤ) (sign : Bool) (low : u8) (a b : ℤ) : Prop :=
  limit = 0 ∨ c + a < 2 ^ 31 ∧ (sign = low.msb ∨ Hidden limit (c + a) (c + b))

/-- The limits of the cursor are signed words. -/
def Fits (fb : Option (u32 × u32)) : Prop :=
  (cursorReach fb).1 < 2 ^ 31 ∧ (cursorReach fb).2 < 2 ^ 31

def Mouse.HasRoom (m : Mouse) : Prop := Base.Ring.next RING_SLOTS m.tail ≠ m.head

def PacketBytes.Agrees (fb : Option (u32 × u32)) (p : PacketBytes) (m : Mouse) : Prop :=
  AxisAgrees (cursorReach fb).1 m.x.toInt (p.flags.getLsbD 4) p.dx p.dx.toInt p.deltaX ∧
    AxisAgrees (cursorReach fb).2 m.y.toInt (p.flags.getLsbD 5) p.dy (-p.dy.toInt) (-p.deltaY)

instance (fb : Option (u32 × u32)) : Decidable (Fits fb) := inferInstanceAs (Decidable (_ ∧ _))

def Receiver.Readable (fb : Option (u32 × u32)) (r : Receiver) (a : Arrival) : Prop :=
  ∀ p, r.whole a = some p →
    (¬ p.Overflows → p.Agrees fb r.mouse) ∧ r.mouse.HasRoom ∧ Fits fb

/-- `GetFramebufferInfo` gives no framebuffer without pixels. -/
def Shown (fb : Option (u32 × u32)) : Prop := ∀ s, fb = some s → s.1 ≠ 0#32 ∧ s.2 ≠ 0#32

/-! ## One axis -/

/-- The byte alone gives the delta exactly if its own sign is the one in byte 0. -/
theorem toInt_eq_signedDelta_iff (sign : Bool) (low : u8) :
    low.toInt = signedDelta sign low ↔ sign = low.msb := by
  rw [BitVec.toInt_eq_msb_cond, signedDelta]
  cases sign <;> cases low.msb <;> simp
  omega

theorem signedDelta_bounds (sign : Bool) (low : u8) :
    -256 ≤ signedDelta sign low ∧ signedDelta sign low < 256 := by
  have bound := low.isLt
  rw [signedDelta]
  split <;> omega

theorem byte_bounds (low : u8) : -128 ≤ low.toInt ∧ low.toInt ≤ 127 := by
  have lower := BitVec.le_toInt low
  have upper := BitVec.toInt_lt (x := low)
  omega

theorem clampCursor_toInt {limit : i32} (hl : 0 ≤ limit.toInt) (c : i32) :
    (clampCursor limit c).toInt = clampTo limit.toInt c.toInt := by
  have zero : (0#32 : i32).toInt = 0 := rfl
  simp only [clampCursor, clampTo, BitVec.slt_iff_toInt_lt, zero]
  split
  case isTrue low =>
    rw [zero, if_neg (by omega), zero]
    omega
  case isFalse low =>
    split <;> omega

/-- A limit beyond the signed words pulls the cursor off the screen. -/
theorem clampCursor_neg {limit : i32} (hl : limit.toInt < 0) (c : i32) :
    (clampCursor limit c).toInt < 0 := by
  have zero : (0#32 : i32).toInt = 0 := rfl
  simp only [clampCursor, BitVec.slt_iff_toInt_lt, zero]
  split
  case isTrue low => rw [zero, if_pos hl]; exact hl
  case isFalse low =>
    rw [if_pos (by omega)]
    exact hl

/-- The wrapped value of a sum that leaves the signed words at the top at most. -/
theorem bmod_word {a : ℤ} (low : -2 ^ 31 ≤ a) (high : a < 2 ^ 32) :
    a.bmod (2 ^ 32) = if a < 2 ^ 31 then a else a - 2 ^ 32 := by
  rw [Int.bmod_def]
  split <;> split <;> omega

/-- **One axis**: the wrapped and clamped sum is the clamped sum with the protocol's delta
exactly if the two agree. -/
theorem axis_iff {limit s : i32} {c a b : ℤ} (sign : Bool) (low : u8) (hl : 0 ≤ limit.toInt)
    (hc : 0 ≤ c) (hc' : c < 2 ^ 31) (sum : s.toInt = (c + a).bmod (2 ^ 32))
    (ha : -128 ≤ a ∧ a ≤ 128) (hb : -256 ≤ b ∧ b ≤ 256) (same : a = b ↔ sign = low.msb) :
    (clampCursor limit s).toInt = clampTo limit.toInt (c + b) ↔
      AxisAgrees limit.toInt c sign low a b := by
  rw [clampCursor_toInt hl, sum, bmod_word (by omega) (by omega), AxisAgrees, ← same]
  simp only [clampTo, Hidden]
  split <;> omega

/-- One of the cursor's limits, from the size of the screen and of the cursor. -/
theorem limit_toInt (size cursor : u32) :
    let limit := if size > cursor then size - cursor else 0#32
    (max 0 ((size.toNat : ℤ) - cursor.toNat) < 2 ^ 31 →
        limit.toInt = max 0 ((size.toNat : ℤ) - cursor.toNat)) ∧
      (¬ max 0 ((size.toNat : ℤ) - cursor.toNat) < 2 ^ 31 → limit.toInt < 0) := by
  intro limit
  have bound := size.isLt
  by_cases big : size > cursor
  case pos =>
    have less : cursor.toNat < size.toNat := BitVec.lt_def.mp big
    have value : limit.toNat = size.toNat - cursor.toNat := by
      rw [show limit = size - cursor from if_pos big]
      exact BitVec.toNat_sub_of_le (BitVec.le_of_lt big)
    rw [BitVec.toInt_eq_toNat_cond, value]
    constructor <;> intro fits <;> split <;> omega
  case neg =>
    have less : ¬ cursor.toNat < size.toNat := fun h => big (BitVec.lt_def.mpr h)
    have value : limit.toInt = 0 := by
      rw [show limit = 0#32 from if_neg big]
      rfl
    constructor <;> intro fits <;> omega

theorem cursorLimits_toInt (fb : Option (u32 × u32)) :
    (((cursorReach fb).1 < 2 ^ 31 → (cursorLimits fb).1.toInt = (cursorReach fb).1) ∧
        (¬ (cursorReach fb).1 < 2 ^ 31 → (cursorLimits fb).1.toInt < 0)) ∧
      ((cursorReach fb).2 < 2 ^ 31 → (cursorLimits fb).2.toInt = (cursorReach fb).2) ∧
        (¬ (cursorReach fb).2 < 2 ^ 31 → (cursorLimits fb).2.toInt < 0) := by
  cases fb with
  | none => decide
  | some s => exact ⟨limit_toInt s.1 24#32, limit_toInt s.2 32#32⟩

theorem cursorReach_nonneg (fb : Option (u32 × u32)) :
    0 ≤ (cursorReach fb).1 ∧ 0 ≤ (cursorReach fb).2 := by
  simp only [cursorReach]
  omega

/-- A cursor within its reach is on the screen. -/
theorem cursorReach_lt {fb : Option (u32 × u32)} (shown : Shown fb) :
    (cursorReach fb).1 < (screenSize fb).1 ∧ (cursorReach fb).2 < (screenSize fb).2 := by
  cases fb with
  | none => decide
  | some s =>
    obtain ⟨w, h⟩ := shown s rfl
    have w' : s.1.toNat ≠ 0 := fun zero => w (BitVec.eq_of_toNat_eq zero)
    have h' : s.2.toNat ≠ 0 := fun zero => h (BitVec.eq_of_toNat_eq zero)
    simp only [cursorReach, screenSize]
    omega

/-! ## One packet -/

/-- What `ApplyPacket` reads is what arrived last. -/
structure Receiver.Synced (fb : Option (u32 × u32)) (r : Receiver) : Prop where
  index : r.mouse.packetIndex = r.seen.length
  short : r.seen.length < 3
  bytes : ∀ i, (h : i < r.seen.length) → r.mouse.packet i = r.seen[i]
  head : r.mouse.head < RING_SLOTS
  tail : r.mouse.tail < RING_SLOTS
  nonneg : Fits fb → 0 ≤ r.mouse.x.toInt ∧ 0 ≤ r.mouse.y.toInt

section

variable {fb : Option (u32 × u32)} {r r' : Receiver} {m : Mouse} {status data : u8}
  {p : PacketBytes} {a : Arrival}

/-- A byte of the stream is taken. -/
theorem Receiver.Synced.takes (h : r.Synced fb) (wf : r.WellFormed (.byte status data)) :
    r.mouse.takes status data = true := by
  have full : status &&& 0x01#8 ≠ 0#8 := by
    intro zero
    have bit : (status &&& 0x01#8).getLsbD 0 = (0#8).getLsbD 0 := by rw [zero]
    rw [BitVec.getLsbD_and, wf.1] at bit
    exact absurd bit (by decide)
  rw [Mouse.takes, bne_iff_ne.mpr full, Bool.true_and, Bool.not_eq_true', Bool.and_eq_false_iff,
    beq_eq_false_iff_ne, beq_eq_false_iff_ne, h.index]
  by_cases first : r.seen = []
  case neg => exact .inl fun zero => first (List.length_eq_zero_iff.mp zero)
  case pos =>
    refine .inr fun zero => ?_
    have bit : (data &&& 0x08#8).getLsbD 3 = (0#8).getLsbD 3 := by rw [zero]
    rw [BitVec.getLsbD_and, wf.2 first] at bit
    exact absurd bit (by decide)

/-- A packet ends with the third byte. -/
theorem Receiver.Synced.completes (h : r.Synced fb) (wf : r.WellFormed (.byte status data)) :
    r.mouse.completes status data = true ↔ r.seen.length = 2 := by
  rw [Mouse.completes, h.takes wf, Bool.true_and, beq_iff_eq]
  simp only [Mouse.withByte, h.index]
  omega

/-- The position after a whole packet. -/
theorem handleIrq_position (fb : Option (u32 × u32)) (yes : m.completes status data = true) :
    (m.handleIrq fb status data).x =
        clampCursor (cursorLimits fb).1 (m.x + (m.withByte data).decoded.deltaX) ∧
      (m.handleIrq fb status data).y =
        clampCursor (cursorLimits fb).2 (m.y - (m.withByte data).decoded.deltaY) := by
  have takes : m.takes status data = true := (Bool.and_eq_true_iff.mp yes).1
  rw [Mouse.handleIrq, if_pos takes, if_pos yes, Mouse.applyPacket, Mouse.push]
  split <;> exact ⟨rfl, rfl⟩

/-- A byte within a packet moves nothing. -/
theorem handleIrq_still (fb : Option (u32 × u32)) (no : m.completes status data = false) :
    (m.handleIrq fb status data).x = m.x ∧ (m.handleIrq fb status data).y = m.y := by
  rw [Mouse.handleIrq]
  split
  case isFalse => exact ⟨rfl, rfl⟩
  case isTrue => rw [no]; exact ⟨rfl, rfl⟩

/-- The driver reads its deltas and buttons off these three bytes. -/
theorem Receiver.Synced.decoded (h : r.Synced fb) (whole : r.whole (.byte status data) = some p) :
    (r.mouse.withByte data).decoded.deltaX = p.dx.signExtend 32 ∧
      (r.mouse.withByte data).decoded.deltaY = p.dy.signExtend 32 ∧
      (r.mouse.withByte data).decoded.HasButtons p.flags := by
  have bits : ∀ b : u8, ((b &&& 0x01#8 != 0#8) = b.getLsbD 0) ∧
      ((b &&& 0x02#8 != 0#8) = b.getLsbD 1) ∧ ((b &&& 0x04#8 != 0#8) = b.getLsbD 2) := by decide
  obtain ⟨m, seen⟩ := r
  match seen, whole, h with
  | [flags, dx], whole, h =>
    obtain rfl := Option.some.inj whole
    have two : m.packetIndex = 2 := h.index
    have b0 : m.packet 0 = flags := h.bytes 0 (by decide : 0 < 2)
    have b1 : m.packet 1 = dx := h.bytes 1 (by decide : 1 < 2)
    simp only [Mouse.withByte, Mouse.decoded, two, Function.update_self,
      Function.update_of_ne (show (0 : ℕ) ≠ 2 by decide),
      Function.update_of_ne (show (1 : ℕ) ≠ 2 by decide), b0, b1]
    exact ⟨trivial, trivial, bits flags⟩

theorem Receiver.whole_length (whole : r.whole (.byte status data) = some p) : r.seen.length = 2 := by
  obtain ⟨m, seen⟩ := r
  match seen, whole with
  | [_, _], _ => rfl

/-- A packet for a full ring is dropped. -/
theorem handleIrq_full (yes : m.completes status data = true) (full : ¬ m.HasRoom) :
    (m.handleIrq fb status data).queued = m.queued := by
  have takes : m.takes status data = true := (Bool.and_eq_true_iff.mp yes).1
  have full : Base.Ring.next RING_SLOTS (m.withByte data).tail = (m.withByte data).head :=
    not_not.mp full
  rw [Mouse.handleIrq, if_pos takes, if_pos yes, Mouse.applyPacket, Mouse.push]
  simp only [if_pos full]
  rfl

/-- **The buttons** are reported exactly if the ring has room. -/
theorem reported_iff (h : r.Synced fb) (wf : r.WellFormed (.byte status data))
    (whole : r.whole (.byte status data) = some p) :
    p.Reported r.mouse (r.mouse.handleIrq fb status data) ↔ r.mouse.HasRoom := by
  have yes := (h.completes wf).mpr (Receiver.whole_length whole)
  constructor
  · rintro ⟨packet, queued, -⟩
    refine not_not.mp fun full => ?_
    rw [handleIrq_full yes full] at queued
    have lengths := congrArg List.length queued
    simp at lengths
  · intro room
    exact ⟨_, (handleIrq_packet h.head h.tail yes room).1, (h.decoded whole).2.2⟩

/-- **The position** is on the screen after a packet exactly if the limits are signed words,
whatever the packet says. -/
theorem inside_iff (shown : Shown fb) (yes : m.completes status data = true) :
    (m.handleIrq fb status data).Inside fb ↔ Fits fb := by
  obtain ⟨x, y⟩ := handleIrq_position fb yes
  obtain ⟨⟨limX, pastX⟩, limY, pastY⟩ := cursorLimits_toInt fb
  obtain ⟨reachX, reachY⟩ := cursorReach_nonneg fb
  obtain ⟨onX, onY⟩ := cursorReach_lt shown
  constructor
  · rintro ⟨lowX, -, lowY, -⟩
    rw [x] at lowX
    rw [y] at lowY
    refine ⟨not_not.mp fun big => ?_, not_not.mp fun big => ?_⟩
    · exact absurd lowX (Int.not_le.mpr (clampCursor_neg (pastX big) _))
    · exact absurd lowY (Int.not_le.mpr (clampCursor_neg (pastY big) _))
  · rintro ⟨fitX, fitY⟩
    have limX := limX fitX
    have limY := limY fitY
    rw [Mouse.Inside, x, y, clampCursor_toInt (by omega), clampCursor_toInt (by omega), limX, limY]
    simp only [clampTo]
    omega

/-- **The move** is the protocol's exactly if the deltas agree, on each axis. -/
theorem moves_iff (h : r.Synced fb) (wf : r.WellFormed (.byte status data))
    (whole : r.whole (.byte status data) = some p) (fits : Fits fb) :
    p.Moves fb r.mouse (r.mouse.handleIrq fb status data) ↔ p.Agrees fb r.mouse := by
  obtain ⟨x, y⟩ := handleIrq_position fb ((h.completes wf).mpr (Receiver.whole_length whole))
  obtain ⟨deltaX, deltaY, -⟩ := h.decoded whole
  obtain ⟨⟨limX, -⟩, limY, -⟩ := cursorLimits_toInt fb
  obtain ⟨reachX, reachY⟩ := cursorReach_nonneg fb
  obtain ⟨nonnegX, nonnegY⟩ := h.nonneg fits
  have topX := BitVec.toInt_lt (x := r.mouse.x)
  have topY := BitVec.toInt_lt (x := r.mouse.y)
  have byteX := byte_bounds p.dx
  have byteY := byte_bounds p.dy
  have nineX := signedDelta_bounds (p.flags.getLsbD 4) p.dx
  have nineY := signedDelta_bounds (p.flags.getLsbD 5) p.dy
  have wideX : (p.dx.signExtend 32).toInt = p.dx.toInt := BitVec.toInt_signExtend_of_le (by decide)
  have wideY : (p.dy.signExtend 32).toInt = p.dy.toInt := BitVec.toInt_signExtend_of_le (by decide)
  have limX := limX fits.1
  have limY := limY fits.2
  have axisX := axis_iff (s := r.mouse.x + p.dx.signExtend 32) (b := p.deltaX)
    (p.flags.getLsbD 4) p.dx (limX ▸ reachX) nonnegX (by omega)
    (by rw [BitVec.toInt_add, wideX]) (by omega) (by rw [PacketBytes.deltaX]; omega)
    (toInt_eq_signedDelta_iff _ _)
  have axisY := axis_iff (s := r.mouse.y - p.dy.signExtend 32) (a := -p.dy.toInt)
    (b := -p.deltaY) (p.flags.getLsbD 5) p.dy (limY ▸ reachY) nonnegY (by omega)
    (by rw [BitVec.toInt_sub, wideY, Int.sub_eq_add_neg]) (by omega)
    (by rw [PacketBytes.deltaY]; omega) (neg_inj.trans (toInt_eq_signedDelta_iff _ _))
  rw [PacketBytes.Moves, x, y, deltaX, deltaY, Int.sub_eq_add_neg, ← limX, ← limY, axisX, axisY,
    limX, limY]
  rfl

/-- **One arrival**: the packet it ends is decoded exactly if it is readable. -/
theorem decodes_iff (shown : Shown fb) (h : r.Synced fb) (wf : r.WellFormed a) :
    r.Decodes fb a ↔ r.Readable fb a := by
  refine forall_congr' fun p => forall_congr' fun whole => ?_
  cases a with
  | read => cases whole
  | byte status data =>
    have yes := (h.completes wf).mpr (Receiver.whole_length whole)
    simp only [Receiver.step, Option.some.injEq, forall_eq', reported_iff h wf whole,
      inside_iff shown yes]
    by_cases fits : Fits fb
    case pos => rw [moves_iff h wf whole fits]
    case neg => exact iff_of_false (fun d => fits d.2.2) fun d => fits d.2.2

/-! ## Runs -/

theorem handleIrq_ring (fb : Option (u32 × u32)) (m : Mouse) (status data : u8)
    (tail : m.tail < RING_SLOTS) :
    (m.handleIrq fb status data).head = m.head ∧
      (m.handleIrq fb status data).tail < RING_SLOTS := by
  rw [Mouse.handleIrq]
  split
  case isFalse => exact ⟨rfl, tail⟩
  case isTrue =>
    split
    case isFalse => exact ⟨rfl, tail⟩
    case isTrue =>
      rw [Mouse.applyPacket, Mouse.push]
      split
      case isTrue => exact ⟨rfl, tail⟩
      case isFalse => exact ⟨rfl, Base.Ring.next_lt (by decide) _⟩

/-- After the third byte the driver waits for a first one. -/
theorem handleIrq_index (yes : m.completes status data = true) :
    (m.handleIrq fb status data).packetIndex = 0 := by
  have takes : m.takes status data = true := (Bool.and_eq_true_iff.mp yes).1
  rw [Mouse.handleIrq, if_pos takes, if_pos yes, Mouse.applyPacket, Mouse.push]
  split <;> rfl

/-- **Every arrival** of a well-formed stream leaves the driver in step with it. -/
theorem Receiver.Synced.step (shown : Shown fb) (h : r.Synced fb) (wf : r.WellFormed a)
    (next : r.step fb a = some r') : r'.Synced fb := by
  cases a with
  | read =>
    obtain rfl := Option.some.inj next
    cases read : r.mouse.tryRead with
    | none => exact h
    | some taken =>
      obtain ⟨packet, m⟩ := taken
      have slots : 0 < RING_SLOTS := by decide
      rw [Mouse.tryRead] at read
      split at read
      case isTrue => cases read
      case isFalse =>
        cases read
        exact ⟨h.index, h.short, h.bytes, Base.Ring.next_lt slots _, h.tail, h.nonneg⟩
  | byte status data =>
    obtain rfl := Option.some.inj next
    obtain ⟨head, tail⟩ := handleIrq_ring fb r.mouse status data h.tail
    by_cases two : r.seen.length = 2
    case pos =>
      have yes := (h.completes wf).mpr two
      simp only [if_pos two]
      exact ⟨handleIrq_index yes, (by decide : 0 < 3), fun i short => absurd short (Nat.not_lt_zero i),
        head ▸ h.head, tail, fun fits =>
          have inside := (inside_iff shown yes).mpr fits
          ⟨inside.1, inside.2.2.1⟩⟩
    case neg =>
      have no : r.mouse.completes status data = false := by
        rw [← Bool.not_eq_true, h.completes wf]
        exact two
      obtain ⟨x, y⟩ := handleIrq_still fb no
      have kept : r.mouse.handleIrq fb status data = r.mouse.withByte data := by
        rw [Mouse.handleIrq, if_pos (h.takes wf), no, if_neg Bool.false_ne_true]
      have short := h.short
      simp only [if_neg two, kept] at x y ⊢
      refine ⟨?_, ?_, fun i small => ?_, h.head, h.tail, fun fits => x.symm ▸ y.symm ▸ h.nonneg fits⟩
      · rw [List.length_append, List.length_singleton, ← h.index]
        rfl
      · rw [List.length_append, List.length_singleton]
        omega
      · rw [List.length_append, List.length_singleton] at small
        simp only [Mouse.withByte, h.index]
        by_cases last : i = r.seen.length
        case pos =>
          subst last
          rw [Function.update_self, List.getElem_concat_length rfl]
        case neg =>
          have inner : i < r.seen.length := by omega
          rw [Function.update_of_ne last, h.bytes i inner, List.getElem_append_left inner]

end

/-- Between two packets, with the cursor not off the screen to the left or at the top. -/
structure Mouse.Idle (m : Mouse) : Prop where
  index : m.packetIndex = 0
  head : m.head < RING_SLOTS
  tail : m.tail < RING_SLOTS
  x : 0 ≤ m.x.toInt
  y : 0 ≤ m.y.toInt

theorem firstMouse_idle : firstMouse.Idle := ⟨by decide, by decide, by decide, by decide, by decide⟩

theorem Mouse.Idle.synced {m : Mouse} (h : m.Idle) (fb : Option (u32 × u32)) :
    Receiver.Synced fb ⟨m, []⟩ :=
  ⟨h.index, (by decide : 0 < 3), fun i short => absurd short (Nat.not_lt_zero i), h.head, h.tail,
    fun _ => ⟨h.x, h.y⟩⟩

/-- The position is on the screen after a packet. -/
def Receiver.LandsInside (fb : Option (u32 × u32)) (r : Receiver) (a : Arrival) : Prop :=
  r.whole a ≠ none → ∀ r', r.step fb a = some r' → r'.mouse.Inside fb

/-- A packet that finds room is reported with its buttons. -/
def Receiver.Reports (fb : Option (u32 × u32)) (r : Receiver) (a : Arrival) : Prop :=
  ∀ p, r.whole a = some p → r.mouse.HasRoom → ∀ r', r.step fb a = some r' →
    p.Reported r.mouse r'.mouse

/-- **Every well-formed stream**, with readers at any time: all its packets are decoded
exactly if all are readable, on a framebuffer of any size. Whatever they say, the position
is on the screen after each, and each that finds room is reported with its buttons. -/
theorem packets_decoded {fb : Option (u32 × u32)} (shown : Shown fb) {m : Mouse} (idle : m.Idle)
    {stream : List Arrival}
    (wf : Along (Receiver.step fb) Receiver.WellFormed ⟨m, []⟩ stream) :
    (Along (Receiver.step fb) (Receiver.Decodes fb) ⟨m, []⟩ stream ↔
      Along (Receiver.step fb) (Receiver.Readable fb) ⟨m, []⟩ stream) ∧
    (Fits fb → Along (Receiver.step fb) (Receiver.LandsInside fb) ⟨m, []⟩ stream) ∧
    Along (Receiver.step fb) (Receiver.Reports fb) ⟨m, []⟩ stream := by
  have keep : ∀ r a r', Receiver.Synced fb r → r.WellFormed a → r.step fb a = some r' →
      r'.Synced fb := fun r a r' h wf next => h.step shown wf next
  have synced := idle.synced fb
  refine ⟨along_iff_within keep (fun r a h wf => decodes_iff shown h wf) synced wf,
    fun fits => along_invariant keep (fun r a h wf whole r' next => ?_) synced wf,
    along_invariant keep (fun r a h wf p whole room r' next => ?_) synced wf⟩
  · cases a with
    | read => exact absurd rfl whole
    | byte status data =>
      obtain ⟨p, whole⟩ := Option.ne_none_iff_exists'.mp whole
      obtain rfl := Option.some.inj next
      exact (inside_iff shown ((h.completes wf).mpr (Receiver.whole_length whole))).mpr fits
  · cases a with
    | read => cases whole
    | byte status data =>
      obtain rfl := Option.some.inj next
      exact (reported_iff h wf whole).mpr room

/-- The three bytes of a packet, with a full output buffer. -/
def packetOf (flags dx dy : u8) : List Arrival := [.byte 0x21 flags, .byte 0x21 dx, .byte 0x21 dy]

/-- A packet of a slow hand, and a button. -/
theorem packets_decoded_slow :
    (Along (Receiver.step none) (Receiver.Decodes none) ⟨firstMouse, []⟩ (packetOf 0x29 10 0xFB) ↔
      Along (Receiver.step none) (Receiver.Readable none) ⟨firstMouse, []⟩ (packetOf 0x29 10 0xFB)) ∧
    Along (Receiver.step none) (Receiver.LandsInside none) ⟨firstMouse, []⟩
      (packetOf 0x29 10 0xFB) := by
  have all := @packets_decoded none (fun _ h => by cases h) firstMouse firstMouse_idle
    (packetOf 0x29 10 0xFB) (by decide)
  exact ⟨all.1, all.2.1 (by decide)⟩

/-- **A movement of 200 to the right** goes 56 to the left. -/
theorem fast_packet_reversed :
    ¬ ∀ fb m stream, Shown fb → Mouse.Idle m →
      Along (Receiver.step fb) Receiver.WellFormed ⟨m, []⟩ stream →
      Along (Receiver.step fb) (Receiver.Decodes fb) ⟨m, []⟩ stream := by
  intro h
  have all := h none firstMouse (packetOf 0x08 200 0) (fun _ h => by cases h) firstMouse_idle
    (by decide)
  have last := ((all.2 _ rfl).2 _ rfl).1 ⟨0x08, 200, 0⟩ rfl _ rfl
  exact absurd (last.1 (by decide)).1 (by decide)

end MicroNT.Shell
