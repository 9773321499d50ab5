import MicroNT.Base.Machine
import MicroNT.Interrupts

/-! # The interrupt controllers (`pic.cpp`, `irq.cpp`)

Two 8259As, the second one on line 2 of the first. Devices raise and withdraw their lines at
any time, and the processor takes a vector while interrupts are on. `IrqDispatch` ends the
interrupt before it calls the handler, which may switch to a thread with interrupts on. -/

namespace MicroNT.InterruptLines

open MicroNT.Base.Machine
open MicroNT.Interrupts (PIC1_CMD PIC2_CMD picSendEoi)

/-! ## The chips -/

/-- What the next byte at the data port is. -/
inductive Phase
  | ready
  | icw2
  | icw3
  | icw4
  deriving DecidableEq

/-- Requests and lines in service by number, the mask, and the initialization words; `base` is
the vector of line 0. -/
structure Pic where
  irr : Nat → Bool
  isr : Nat → Bool
  imr : u8
  base : u8
  icw1 : u8
  icw3 : u8
  icw4 : u8
  phase : Phase

/-- A non-specific end of interrupt is for the line of highest priority. -/
def Pic.eoi (p : Pic) : Pic :=
  match (List.range 8).find? p.isr with
  | none => p
  | some i => { p with isr := Function.update p.isr i false }

/-- A byte at the command port; the kernel sends no commands but these. -/
def Pic.command (p : Pic) (v : u8) : Pic :=
  if v.getLsbD 4 then
    { p with irr := fun _ => false, isr := fun _ => false, imr := 0, icw1 := v, phase := .icw2 }
  else if v.getLsbD 3 then p
  else if v >>> 5 = 1 then p.eoi
  else p

def Pic.data (p : Pic) (v : u8) : Pic :=
  let last : Phase := if p.icw1.getLsbD 0 then .icw4 else .ready
  match p.phase with
  | .ready => { p with imr := v }
  | .icw2 => { p with base := v &&& 0xF8, phase := if p.icw1.getLsbD 1 then last else .icw3 }
  | .icw3 => { p with icw3 := v, phase := last }
  | .icw4 => { p with icw4 := v, phase := .ready }

/-- The line that the chip asks for: the first request that is not masked, unless a line of no
lower priority is in service. -/
def Pic.request (p : Pic) (irr : Nat → Bool) : Option Nat :=
  (List.range 8).find? fun i =>
    irr i && !p.imr.getLsbD i && (List.range (i + 1)).all fun j => !p.isr j

/-- A line gets into service, unless ICW4 asks for automatic ends. -/
def Pic.serve (p : Pic) (i : Nat) : Pic :=
  { p with
    irr := Function.update p.irr i false
    isr := Function.update p.isr i (!p.icw4.getLsbD 1) }

structure Pics where
  master : Pic
  slave : Pic

abbrev PIC1_DATA : u16 := 0x21
abbrev PIC2_DATA : u16 := 0xA1

/-- `IoOutByte`; other ports are no concern of the chips. -/
def Pics.out (c : Pics) (b : u16 × u8) : Pics :=
  if b.1 = PIC1_CMD then { c with master := c.master.command b.2 }
  else if b.1 = PIC1_DATA then { c with master := c.master.data b.2 }
  else if b.1 = PIC2_CMD then { c with slave := c.slave.command b.2 }
  else if b.1 = PIC2_DATA then { c with slave := c.slave.data b.2 }
  else c

/-- The second chip's output is the first one's line 2. A request that was withdrawn in the
last moment leaves it `stale`. -/
def Pics.masterIrr (c : Pics) (stale : Bool) : Nat → Bool :=
  Function.update c.master.irr 2 ((c.slave.request c.slave.irr).isSome || stale)

/-- The processor's acknowledge cycles: the vector it gets. A chip that asks for nothing gives
its line 7, and no chip answers for a line that ICW3 names in neither. -/
def Pics.acknowledge (c : Pics) (stale : Bool) : u8 × Pics :=
  match c.master.request (c.masterIrr stale) with
  | none => (c.master.base + 7, c)
  | some i =>
    let m := c.master.serve i
    if c.master.icw3.getLsbD i then
      if (c.slave.icw3 &&& 7).toNat = i then
        match c.slave.request c.slave.irr with
        | none => (c.slave.base + 7, { c with master := m })
        | some j => (c.slave.base + BitVec.ofNat 8 j, ⟨m, c.slave.serve j⟩)
      else (0xFF, { c with master := m })
    else (c.master.base + BitVec.ofNat 8 i, { c with master := m })

/-! ## The driver -/

abbrev ICW1_ICW4 : u8 := 0x01
abbrev ICW1_INIT : u8 := 0x10
abbrev ICW4_8086 : u8 := 0x01
abbrev IRQ0_VECTOR : u8 := 0x20
abbrev IRQ8_VECTOR : u8 := 0x28

def ioWait : u16 × u8 := (0x80, 0)

/-- `PicInit`: the bytes that it sends. -/
def picInit : List (u16 × u8) :=
  [(PIC1_CMD, ICW1_INIT ||| ICW1_ICW4), ioWait, (PIC2_CMD, ICW1_INIT ||| ICW1_ICW4), ioWait,
    (PIC1_DATA, IRQ0_VECTOR), ioWait, (PIC2_DATA, IRQ8_VECTOR), ioWait,
    (PIC1_DATA, 0x04), ioWait, (PIC2_DATA, 0x02), ioWait,
    (PIC1_DATA, ICW4_8086), ioWait, (PIC2_DATA, ICW4_8086), ioWait,
    (PIC1_DATA, 0xFB), (PIC2_DATA, 0xFF)]

/-- `PicSetMask`, on the mask that it reads. -/
def setMask (val irq : u8) (masked : Bool) : u8 :=
  let bit : u8 := 1#8 <<< (irq &&& 7#8)
  if masked then val ||| bit else val &&& ~~~bit

def picSetMask (c : Pics) (irq : u8) (masked : Bool) : Pics :=
  if irq < 8 then c.out (PIC1_DATA, setMask c.master.imr irq masked)
  else c.out (PIC2_DATA, setMask c.slave.imr irq masked)

/-! ## The machine -/

/-- The chips, the line that `IrqDispatch` has not called the handler of yet, and the bytes it
has still to send. The rest is no variable of the code: whether a vector was no line's, which
lines the kernel has masked, and for each line how often it was raised, withdrawn before it
was served, and handled. -/
structure System where
  chips : Pics
  serving : Option Nat
  sending : List (u16 × u8)
  astray : Bool
  masked : Nat → Bool
  raised : Nat → Nat
  withdrawn : Nat → Nat
  handled : Nat → Nat

/-- Whether a line requests service. -/
def Pics.requests (c : Pics) (n : Nat) : Bool := if n < 8 then c.master.irr n else c.slave.irr (n - 8)

def Pics.setRequest (c : Pics) (n : Nat) (level : Bool) : Pics :=
  if n < 8 then { c with master := { c.master with irr := Function.update c.master.irr n level } }
  else { c with slave := { c.slave with irr := Function.update c.slave.irr (n - 8) level } }

inductive Op
  | raise (n : Nat)
  | withdraw (n : Nat)
  | setMask (irq : u8) (masked : Bool)
  | acknowledge (stale : Bool)
  | dispatch

def increment (f : Nat → Nat) (n : Nat) : Nat → Nat := Function.update f n (f n + 1)

/-- A line that a device may be on. -/
def IsDevice (n : Nat) : Prop := n < 16 ∧ n ≠ 2

instance (n : Nat) : Decidable (IsDevice n) := inferInstanceAs (Decidable (_ ∧ _))

/-- A device raises or withdraws its line, kernel code sets a mask, or the processor takes a
vector; from then on the steps of `IrqDispatch` are the processor's only ones, the last of
them the call of the handler. -/
def step (s : System) : Op → Option System
  | .raise n =>
    if IsDevice n then
      if s.chips.requests n then some s
      else some { s with chips := s.chips.setRequest n true, raised := increment s.raised n }
    else none
  | .withdraw n =>
    if IsDevice n then
      if s.chips.requests n then
        some { s with chips := s.chips.setRequest n false, withdrawn := increment s.withdrawn n }
      else some s
    else none
  | .setMask irq masked =>
    if s.serving = none ∧ irq < 16 then
      some
        { s with
          chips := picSetMask s.chips irq masked
          masked := Function.update s.masked irq.toNat masked }
    else none
  | .acknowledge stale =>
    if s.serving = none then
      let (vec, chips) := s.chips.acknowledge stale
      if 32 ≤ vec ∧ vec < 48 then
        some
          { s with
            chips := chips
            serving := some (vec - 32).toNat
            sending := picSendEoi (vec - 32) }
      else some { s with chips := chips, astray := true }
    else none
  | .dispatch =>
    match s.serving, s.sending with
    | none, _ => none
    | some n, [] => some { s with serving := none, handled := increment s.handled n }
    | some _, b :: bs => some { s with chips := s.chips.out b, sending := bs }

/-- Right after `PicInit`, whatever the firmware has left in the chips. -/
def start (c : Pics) : System where
  chips := picInit.foldl Pics.out c
  serving := none
  sending := []
  astray := false
  masked n := n ≠ 2
  raised _ := 0
  withdrawn _ := 0
  handled _ := 0

/-! ## Lines in service -/

variable {p : Pic} {c : Pics} {s t : System} {n : Nat}

/-- No line of the chip is in service. -/
def Pic.Calm (p : Pic) : Prop := ∀ i, p.isr i = false

/-- No other line than this one is. -/
def Pic.OnlyServes (p : Pic) (i : Nat) : Prop := ∀ j, p.isr j = true → j = i

theorem Pic.Calm.request (h : p.Calm) (irr : Nat → Bool) :
    p.request irr = (List.range 8).find? fun i => irr i && !p.imr.getLsbD i := by
  unfold Pic.request
  congr 1
  funext i
  have free : ((List.range (i + 1)).all fun j => !p.isr j) = true := by
    refine List.all_eq_true.mpr fun j _ => ?_
    rw [h j]
    rfl
  rw [free, Bool.and_true]

/-- **An end of interrupt** is for the line that is in service, if no other is. -/
theorem Pic.OnlyServes.eoi {i : Nat} (h : p.OnlyServes i) (hi : i < 8) : p.eoi.Calm := by
  intro j
  unfold Pic.eoi
  cases found : (List.range 8).find? p.isr with
  | none =>
    by_contra served
    rw [Bool.not_eq_false] at served
    have known := List.find?_eq_none.mp found j (List.mem_range.mpr (h j served ▸ hi))
    exact known served
  | some k =>
    have first := h k (List.find?_some found)
    show Function.update p.isr k false j = false
    by_cases e : j = k
    · rw [e, Function.update_self]
    · rw [Function.update_of_ne e]
      by_contra served
      exact e ((h j (Bool.not_eq_false _ ▸ served)).trans first.symm)

theorem Pic.Calm.serve (h : p.Calm) (i : Nat) : (p.serve i).OnlyServes i := by
  intro j served
  by_contra other
  have same : (p.serve i).isr j = p.isr j := Function.update_of_ne other _ _
  rw [same, h j] at served
  cases served

/-! ## What the processor takes -/

/-- A chip that `PicInit` has set up. -/
structure Pic.SetUp (p : Pic) (base icw3 : u8) : Prop where
  phase : p.phase = .ready
  base : p.base = base
  icw3 : p.icw3 = icw3
  icw4 : p.icw4 = ICW4_8086

/-- Whether the chip would ask for a line. -/
def Pic.wants (p : Pic) (irr : Nat → Bool) (i : Nat) : Bool := irr i && !p.imr.getLsbD i

/-- The line that an acknowledge cycle takes, and what it leaves. -/
inductive Taken (c : Pics) (stale : Bool) : Nat → Pics → Prop
  | spurious (nothing : ∀ k < 8, c.master.wants (c.masterIrr stale) k = false) : Taken c stale 7 c
  | own (i : Nat) (hi : i < 8) (other : i ≠ 2) (wanted : c.master.wants c.master.irr i = true)
      (first : ∀ k < i, c.master.wants (c.masterIrr stale) k = false) :
      Taken c stale i ⟨c.master.serve i, c.slave⟩
  | lost (late : stale = true) (first : ∀ k < 2, c.master.wants (c.masterIrr stale) k = false)
      (nothing : ∀ k < 8, c.slave.wants c.slave.irr k = false) :
      Taken c stale 15 ⟨c.master.serve 2, c.slave⟩
  | cascaded (j : Nat) (hj : j < 8) (wanted : c.slave.wants c.slave.irr j = true)
      (passed : c.master.imr.getLsbD 2 = false)
      (first : ∀ k < 2, c.master.wants (c.masterIrr stale) k = false)
      (firstSlave : ∀ k < j, c.slave.wants c.slave.irr k = false) :
      Taken c stale (8 + j) ⟨c.master.serve 2, c.slave.serve j⟩

theorem Pic.Calm.request_none (h : p.Calm) {irr : Nat → Bool} :
    p.request irr = none ↔ ∀ k < 8, p.wants irr k = false := by
  rw [h.request]
  simp only [List.find?_range_eq_none, Bool.not_eq_eq_eq_not, Bool.not_true]
  rfl

theorem Pic.Calm.request_some (h : p.Calm) {irr : Nat → Bool} {i : Nat} :
    p.request irr = some i ↔ i < 8 ∧ p.wants irr i = true ∧ ∀ k < i, p.wants irr k = false := by
  rw [h.request, List.find?_range_eq_some]
  simp only [List.mem_range, Bool.not_eq_eq_eq_not, Bool.not_true]
  exact ⟨fun ⟨w, hi, first⟩ => ⟨hi, w, first⟩, fun ⟨hi, w, first⟩ => ⟨w, hi, first⟩⟩

/-- **The acknowledge cycles** of two chips that are set up and serve nothing. -/
theorem Pics.acknowledge_taken (master : c.master.SetUp 0x20 0x04) (slave : c.slave.SetUp 0x28 0x02)
    (calm : c.master.Calm) (calmSlave : c.slave.Calm) (stale : Bool) :
    ∃ n c', c.acknowledge stale = (BitVec.ofNat 8 (32 + n), c') ∧ Taken c stale n c' := by
  unfold Pics.acknowledge
  cases asked : c.master.request (c.masterIrr stale) with
  | none =>
    refine ⟨7, c, ?_, .spurious (calm.request_none.mp asked)⟩
    rw [master.base]
    rfl
  | some i =>
    obtain ⟨hi, wanted, first⟩ := calm.request_some.mp asked
    dsimp only
    rw [master.icw3, slave.icw3, master.base, slave.base]
    by_cases two : i = 2
    · subst two
      rw [if_pos (by decide), if_pos (by decide)]
      unfold Pic.wants at wanted
      simp only [Bool.and_eq_true, Bool.not_eq_eq_eq_not, Bool.not_true] at wanted
      cases askedSlave : c.slave.request c.slave.irr with
      | none =>
        have late : stale = true := by
          have line : ((c.slave.request c.slave.irr).isSome || stale) = true := wanted.1
          rw [askedSlave] at line
          exact line
        exact ⟨15, _, rfl, .lost late first (calmSlave.request_none.mp askedSlave)⟩
      | some j =>
        obtain ⟨hj, wantedSlave, firstSlave⟩ := calmSlave.request_some.mp askedSlave
        refine ⟨8 + j, _, ?_, .cascaded j hj wantedSlave wanted.2 first firstSlave⟩
        dsimp only
        rw [← Nat.add_assoc, BitVec.ofNat_add]
        rfl
    · have alone : ∀ i < 8, i ≠ 2 → (0x04 : u8).getLsbD i = false := by decide
      rw [alone i hi two]
      refine ⟨i, _, ?_, .own i hi two ?_ first⟩
      · rw [BitVec.ofNat_add]
        rfl
      · unfold Pic.wants Pics.masterIrr at wanted
        rwa [Function.update_of_ne two] at wanted

/-! ## Every run -/

/-- The mask of a line. -/
def Pics.maskOf (c : Pics) (n : Nat) : Bool :=
  if n < 8 then c.master.imr.getLsbD n else c.slave.imr.getLsbD (n - 8)

/-- What a line's requests became of: the lines 7 and 15 are handled more often, when a chip
asks for nothing. -/
structure Balanced (s : System) (n : Nat) : Prop where
  atMost : s.raised n ≤ s.withdrawn n + s.handled n + (s.chips.requests n).toNat +
    (decide (s.serving = some n)).toNat
  exact : n ≠ 7 → n ≠ 15 → s.raised n = s.withdrawn n + s.handled n +
    (s.chips.requests n).toNat + (decide (s.serving = some n)).toNat

/-- Both chips are set up and serve at most one line, for which there is an end of interrupt
still to be sent. -/
structure Inv (s : System) : Prop where
  master : s.chips.master.SetUp 0x20 0x04
  slave : s.chips.slave.SetUp 0x28 0x02
  masked : ∀ n < 16, s.chips.maskOf n = s.masked n
  line : ∀ n, s.serving = some n → n < 16
  idle : s.serving = none → s.sending = []
  bytes : ∀ b ∈ s.sending, b = (PIC1_CMD, 0x20) ∨ b = (PIC2_CMD, 0x20)
  one : ∃ i < 8, s.chips.master.OnlyServes i
  oneSlave : ∃ i < 8, s.chips.slave.OnlyServes i
  owed : ¬ s.chips.master.Calm → (PIC1_CMD, 0x20) ∈ s.sending
  owedSlave : ¬ s.chips.slave.Calm → (PIC2_CMD, 0x20) ∈ s.sending
  straight : s.astray = false
  balanced : ∀ n, IsDevice n → Balanced s n

/-- **`PicInit`** leaves nothing of what the chips were before. -/
theorem picInit_chips (c : Pics) : picInit.foldl Pics.out c =
    { master := ⟨fun _ => false, fun _ => false, 0xFB, 0x20, 0x11, 0x04, 0x01, .ready⟩
      slave := ⟨fun _ => false, fun _ => false, 0xFF, 0x28, 0x11, 0x02, 0x01, .ready⟩ } := by
  simp [picInit, Pics.out, Pic.command, Pic.data, ioWait]

theorem start_inv (c : Pics) : Inv (start c) := by
  have chips : (start c).chips =
      { master := ⟨fun _ => false, fun _ => false, 0xFB, 0x20, 0x11, 0x04, 0x01, .ready⟩
        slave := ⟨fun _ => false, fun _ => false, 0xFF, 0x28, 0x11, 0x02, 0x01, .ready⟩ } :=
    picInit_chips c
  have quiet : ∀ n, (start c).chips.requests n = false := fun n => by
    rw [chips]
    exact ite_self false
  constructor
  case balanced =>
    intro n _
    have zero : (start c).raised n = (start c).withdrawn n + (start c).handled n +
        ((start c).chips.requests n).toNat + (decide ((start c).serving = some n)).toNat := by
      rw [quiet n]
      rfl
    exact ⟨zero.le, fun _ _ => zero⟩
  case masked =>
    rw [chips]
    have all : ∀ n < 16, (if n < 8 then (0xFB : u8).getLsbD n else (0xFF : u8).getLsbD (n - 8)) =
        decide (n ≠ 2) := by decide
    exact all
  case line => exact fun n no => by cases no
  case idle => exact fun _ => rfl
  case bytes => exact fun b no => by cases no
  case straight => rfl
  all_goals rw [chips]
  case master => exact ⟨rfl, rfl, rfl, rfl⟩
  case slave => exact ⟨rfl, rfl, rfl, rfl⟩
  case one => exact ⟨0, by decide, fun _ no => by cases no⟩
  case oneSlave => exact ⟨0, by decide, fun _ no => by cases no⟩
  case owed => exact fun no => absurd (fun _ => rfl) no
  case owedSlave => exact fun no => absurd (fun _ => rfl) no

theorem Pics.setRequest_requests (c : Pics) (n m : Nat) (level : Bool) :
    (c.setRequest n level).requests m = if m = n then level else c.requests m := by
  unfold Pics.setRequest Pics.requests
  by_cases low : n < 8
  · rw [if_pos low]
    by_cases e : m = n
    · rw [if_pos e, e, if_pos low]
      exact Function.update_self ..
    · rw [if_neg e]
      split
      · exact Function.update_of_ne e ..
      · rfl
  · rw [if_neg low]
    by_cases e : m = n
    · rw [if_pos e, e, if_neg low]
      exact Function.update_self ..
    · rw [if_neg e]
      split
      · rfl
      · exact Function.update_of_ne (by omega) ..

/-- A device changes nothing but its request. -/
theorem Inv.setRequest (inv : Inv s) {level : Bool} {raised withdrawn : Nat → Nat}
    (balanced : ∀ m, IsDevice m → Balanced
      { s with chips := s.chips.setRequest n level, raised := raised, withdrawn := withdrawn } m) :
    Inv { s with chips := s.chips.setRequest n level, raised := raised, withdrawn := withdrawn } := by
  have same : ∃ irr irr', s.chips.setRequest n level =
      ⟨{ s.chips.master with irr := irr }, { s.chips.slave with irr := irr' }⟩ := by
    unfold Pics.setRequest
    split
    · exact ⟨_, _, rfl⟩
    · exact ⟨_, _, rfl⟩
  obtain ⟨irr, irr', eq⟩ := same
  rw [eq] at balanced ⊢
  exact
    { master := ⟨inv.master.phase, inv.master.base, inv.master.icw3, inv.master.icw4⟩
      slave := ⟨inv.slave.phase, inv.slave.base, inv.slave.icw3, inv.slave.icw4⟩
      masked := inv.masked
      line := inv.line
      idle := inv.idle
      bytes := inv.bytes
      one := inv.one
      oneSlave := inv.oneSlave
      owed := inv.owed
      owedSlave := inv.owedSlave
      straight := inv.straight
      balanced := balanced }

theorem increment_self (f : Nat → Nat) (n : Nat) : increment f n n = f n + 1 :=
  Function.update_self ..

theorem increment_of_ne {m : Nat} (h : m ≠ n) (f : Nat → Nat) : increment f n m = f m :=
  Function.update_of_ne h ..

theorem Inv.raise (inv : Inv s) (low : s.chips.requests n = false) :
    Inv { s with chips := s.chips.setRequest n true, raised := increment s.raised n } := by
  refine inv.setRequest fun m device => ?_
  obtain ⟨atMost, exact⟩ := inv.balanced m device
  constructor
  all_goals
    dsimp only
    rw [Pics.setRequest_requests]
    by_cases e : m = n
    · subst e
      rw [low] at atMost exact
      rw [increment_self, if_pos rfl]
      simp only [Bool.toNat_false, Bool.toNat_true] at atMost exact ⊢
      omega
    · rw [increment_of_ne e, if_neg e]
      first | exact atMost | exact exact

theorem Inv.withdraw (inv : Inv s) (high : s.chips.requests n = true) :
    Inv { s with chips := s.chips.setRequest n false, withdrawn := increment s.withdrawn n } := by
  refine inv.setRequest fun m device => ?_
  obtain ⟨atMost, exact⟩ := inv.balanced m device
  constructor
  all_goals
    dsimp only
    rw [Pics.setRequest_requests]
    by_cases e : m = n
    · subst e
      rw [high] at atMost exact
      rw [increment_self, if_pos rfl]
      simp only [Bool.toNat_false, Bool.toNat_true] at atMost exact ⊢
      omega
    · rw [increment_of_ne e, if_neg e]
      first | exact atMost | exact exact

/-- `PicSetMask` changes one bit. -/
theorem setMask_getLsbD (val irq : u8) (masked : Bool) {i : Nat} (hi : i < 8) :
    (setMask val irq masked).getLsbD i = if i = irq.toNat % 8 then masked else val.getLsbD i := by
  have number : (irq &&& 7#8).toNat = irq.toNat % 8 := by
    rw [BitVec.toNat_and]
    exact Nat.and_two_pow_sub_one_eq_mod irq.toNat 3
  have bit : (1#8 <<< (irq &&& 7#8)).getLsbD i = decide (i = irq.toNat % 8) := by
    rw [BitVec.shiftLeft_eq', number, BitVec.getLsbD_shiftLeft, BitVec.getLsbD_one]
    grind
  unfold setMask
  cases masked with
  | true =>
    rw [if_pos rfl, BitVec.getLsbD_or, bit]
    split
    case isTrue e => rw [decide_eq_true e, Bool.or_true]
    case isFalse e => rw [decide_eq_false e, Bool.or_false]
  | false =>
    rw [if_neg Bool.false_ne_true, BitVec.getLsbD_and, BitVec.getLsbD_not, bit, decide_eq_true hi]
    split
    case isTrue e => rw [decide_eq_true e, Bool.not_true, Bool.and_false, Bool.and_false]
    case isFalse e => rw [decide_eq_false e, Bool.not_false, Bool.and_true, Bool.and_true]

theorem Inv.setMask (inv : Inv s) {irq : u8} (hirq : irq < 16) (masked : Bool) :
    Inv
      { s with
        chips := picSetMask s.chips irq masked
        masked := Function.update s.masked irq.toNat masked } := by
  have same : ∃ imr imr', picSetMask s.chips irq masked =
      ⟨{ s.chips.master with imr := imr }, { s.chips.slave with imr := imr' }⟩ ∧
      ∀ n < 16, (if n < 8 then imr.getLsbD n else imr'.getLsbD (n - 8)) =
        if n = irq.toNat then masked else s.chips.maskOf n := by
    unfold picSetMask Pics.maskOf
    split
    case isTrue low =>
      refine ⟨InterruptLines.setMask s.chips.master.imr irq masked, s.chips.slave.imr, ?_,
        fun n hn => ?_⟩
      · simp [Pics.out, Pic.data, inv.master.phase]
      · split
        case isTrue first =>
          rw [setMask_getLsbD _ _ _ first, Nat.mod_eq_of_lt (show irq.toNat < 8 from low)]
        case isFalse second =>
          have low : irq.toNat < 8 := low
          rw [if_neg (by omega)]
    case isFalse high =>
      refine ⟨s.chips.master.imr, InterruptLines.setMask s.chips.slave.imr irq masked, ?_,
        fun n hn => ?_⟩
      · simp [Pics.out, Pic.data, inv.slave.phase]
      · have high : 8 ≤ irq.toNat := Nat.not_lt.mp high
        have bound : irq.toNat < 16 := hirq
        split
        case isTrue first => rw [if_neg (by omega)]
        case isFalse second =>
          rw [setMask_getLsbD _ _ _ (by omega)]
          by_cases e : n = irq.toNat
          · rw [if_pos e, if_pos (by omega)]
          · rw [if_neg e, if_neg (by omega)]
  obtain ⟨imr, imr', eq, bits⟩ := same
  rw [eq]
  exact
    { master := ⟨inv.master.phase, inv.master.base, inv.master.icw3, inv.master.icw4⟩
      slave := ⟨inv.slave.phase, inv.slave.base, inv.slave.icw3, inv.slave.icw4⟩
      masked := fun n hn => by
        refine (bits n hn).trans ?_
        show _ = Function.update s.masked irq.toNat masked n
        by_cases e : n = irq.toNat
        · rw [if_pos e, e, Function.update_self]
        · rw [if_neg e, inv.masked n hn, Function.update_of_ne e]
      line := inv.line
      idle := inv.idle
      bytes := inv.bytes
      one := inv.one
      oneSlave := inv.oneSlave
      owed := inv.owed
      owedSlave := inv.owedSlave
      straight := inv.straight
      balanced := fun n device => ⟨(inv.balanced n device).atMost, (inv.balanced n device).exact⟩ }

/-- Nothing is in service while the processor is in no `IrqDispatch`, and when one has sent its
bytes. -/
theorem Inv.calm (inv : Inv s) (sent : s.sending = []) :
    s.chips.master.Calm ∧ s.chips.slave.Calm := by
  constructor
  · by_contra busy
    have owed := inv.owed busy
    rw [sent] at owed
    cases owed
  · by_contra busy
    have owed := inv.owedSlave busy
    rw [sent] at owed
    cases owed

theorem Taken.line {stale : Bool} {c' : Pics} (taken : Taken c stale n c') : n < 16 ∧ n ≠ 2 := by
  cases taken with
  | spurious => exact ⟨by decide, by decide⟩
  | own i hi other => exact ⟨by omega, other⟩
  | lost => exact ⟨by decide, by decide⟩
  | cascaded j hj => exact ⟨by omega, by omega⟩

theorem Pic.wants_irr {irr : Nat → Bool} {i : Nat} (h : p.wants irr i = true) : irr i = true :=
  (Bool.and_eq_true_iff.mp h).1

/-- Serving takes the request of the line, and of no other device's. -/
theorem Taken.requests {stale : Bool} {c' : Pics} (taken : Taken c stale n c') :
    (∀ m, IsDevice m → m ≠ n → c'.requests m = c.requests m) ∧
      (n ≠ 7 → n ≠ 15 → c.requests n = true ∧ c'.requests n = false) := by
  cases taken with
  | spurious => exact ⟨fun _ _ _ => rfl, fun no => absurd rfl no⟩
  | own i hi other wanted first =>
    refine ⟨fun m _ ne => ?_, fun _ _ => ?_⟩
    · show (if m < 8 then Function.update c.master.irr n false m else c.slave.irr (m - 8)) = _
      rw [Function.update_of_ne ne]
      rfl
    · unfold Pics.requests
      rw [if_pos hi, if_pos hi]
      exact ⟨Pic.wants_irr wanted, Function.update_self ..⟩
  | lost =>
    refine ⟨fun m device _ => ?_, fun _ no => absurd rfl no⟩
    show (if m < 8 then Function.update c.master.irr 2 false m else c.slave.irr (m - 8)) = _
    rw [Function.update_of_ne device.2]
    rfl
  | cascaded j hj wanted =>
    refine ⟨fun m device ne => ?_, fun _ _ => ?_⟩
    · show (if m < 8 then Function.update c.master.irr 2 false m
        else Function.update c.slave.irr j false (m - 8)) = if m < 8 then _ else _
      rw [Function.update_of_ne device.2]
      split
      · rfl
      · exact Function.update_of_ne (by omega) ..
    · unfold Pics.requests
      rw [if_neg (by omega), if_neg (by omega), Nat.add_sub_cancel_left]
      exact ⟨Pic.wants_irr wanted, Function.update_self ..⟩

/-- What a chip that has served a line is. -/
theorem Pic.SetUp.serve {base icw3 : u8} (h : p.SetUp base icw3) (i : Nat) :
    (p.serve i).SetUp base icw3 := ⟨h.phase, h.base, h.icw3, h.icw4⟩

/-- At most one line of each chip is in service behind an acknowledge cycle, and the bytes of
`PicSendEoi` are for the chips that serve one. -/
theorem Taken.served {stale : Bool} {c' : Pics} (taken : Taken c stale n c')
    (calm : c.master.Calm) (calmSlave : c.slave.Calm) :
    (∃ i < 8, c'.master.OnlyServes i) ∧ (∃ i < 8, c'.slave.OnlyServes i) ∧
      (8 ≤ n ∨ c'.slave.Calm) := by
  have none : ∀ {q : Pic}, q.Calm → ∃ i < 8, q.OnlyServes i := fun h =>
    ⟨0, by decide, fun j served => by rw [h j] at served; cases served⟩
  cases taken with
  | spurious => exact ⟨none calm, none calmSlave, .inr calmSlave⟩
  | own i hi => exact ⟨⟨_, hi, calm.serve _⟩, none calmSlave, .inr calmSlave⟩
  | lost => exact ⟨⟨2, by decide, calm.serve 2⟩, none calmSlave, .inr calmSlave⟩
  | cascaded j hj => exact ⟨⟨2, by decide, calm.serve 2⟩, ⟨j, hj, calmSlave.serve j⟩, .inl (by omega)⟩

theorem Taken.setUp {stale : Bool} {c' : Pics} (taken : Taken c stale n c') {a b a' b' : u8}
    (master : c.master.SetUp a b) (slave : c.slave.SetUp a' b') :
    c'.master.SetUp a b ∧ c'.slave.SetUp a' b' ∧ ∀ m, c'.maskOf m = c.maskOf m := by
  cases taken with
  | spurious => exact ⟨master, slave, fun _ => rfl⟩
  | own => exact ⟨master.serve _, slave, fun _ => rfl⟩
  | lost => exact ⟨master.serve _, slave, fun _ => rfl⟩
  | cascaded => exact ⟨master.serve _, slave.serve _, fun _ => rfl⟩

theorem picSendEoi_bytes (irq : u8) :
    (∀ b ∈ picSendEoi irq, b = (PIC1_CMD, 0x20) ∨ b = (PIC2_CMD, 0x20)) ∧
      (PIC1_CMD, 0x20) ∈ picSendEoi irq ∧ (8 ≤ irq → (PIC2_CMD, 0x20) ∈ picSendEoi irq) := by
  unfold picSendEoi
  by_cases second : irq ≥ 8
  · rw [if_pos second]
    simp
  · rw [if_neg second]
    simpa using second

/-- The line that an acknowledge cycle takes is the one that `IrqDispatch` is called for. -/
theorem Inv.acknowledge_eq (inv : Inv s) (idle : s.serving = none) (stale : Bool) :
    ∃ n c', Taken s.chips stale n c' ∧ InterruptLines.step s (.acknowledge stale) =
      some { s with
        chips := c', serving := some n, sending := picSendEoi (BitVec.ofNat 8 n) } := by
  obtain ⟨calm, calmSlave⟩ := inv.calm (inv.idle idle)
  obtain ⟨n, c', eq, taken⟩ :=
    Pics.acknowledge_taken inv.master inv.slave calm calmSlave stale
  have small := taken.line.1
  have vec : BitVec.ofNat 8 (32 + n) - 32 = BitVec.ofNat 8 n := by bv_omega
  have number : (BitVec.ofNat 8 n).toNat = n := by
    rw [BitVec.toNat_ofNat, Nat.mod_eq_of_lt (by omega)]
  refine ⟨n, c', taken, ?_⟩
  simp only [InterruptLines.step]
  rw [if_pos idle, eq]
  dsimp only
  rw [if_pos (by constructor <;> bv_omega), vec, number]

theorem Inv.acknowledge (inv : Inv s) (idle : s.serving = none) {stale : Bool} {c' : Pics}
    (taken : Taken s.chips stale n c') :
    Inv { s with
      chips := c', serving := some n, sending := picSendEoi (BitVec.ofNat 8 n) } := by
  obtain ⟨calm, calmSlave⟩ := inv.calm (inv.idle idle)
  obtain ⟨master, slave, masks⟩ := taken.setUp inv.master inv.slave
  obtain ⟨one, oneSlave, which⟩ := taken.served calm calmSlave
  obtain ⟨bytes, first, second⟩ := picSendEoi_bytes (BitVec.ofNat 8 n)
  obtain ⟨others, own⟩ := taken.requests
  have small := taken.line.1
  constructor
  case master => exact master
  case slave => exact slave
  case masked => exact fun m hm => (masks m).trans (inv.masked m hm)
  case line =>
    rintro _ ⟨⟩
    exact small
  case idle => exact fun no => by cases no
  case bytes => exact bytes
  case one => exact one
  case oneSlave => exact oneSlave
  case owed => exact fun _ => first
  case owedSlave =>
    intro busy
    have high := which.resolve_right busy
    exact second (by bv_omega)
  case straight => exact inv.straight
  case balanced =>
    intro m device
    obtain ⟨atMost, exact⟩ := inv.balanced m device
    rw [idle] at atMost exact
    have before : (decide ((none : Option Nat) = some m)).toNat = 0 := rfl
    by_cases e : m = n
    · subst e
      have after : (decide (some m = some m)).toNat = 1 := by rw [decide_eq_true rfl]; rfl
      have bit := Bool.toNat_le (s.chips.requests m)
      constructor
      · dsimp only
        omega
      · intro h7 h15
        obtain ⟨requested, served⟩ := own h7 h15
        have balance := exact h7 h15
        rw [requested, Bool.toNat_true] at balance
        dsimp only
        rw [served, Bool.toNat_false]
        omega
    · have after : (decide (some n = some m)).toNat = 0 := by
        rw [decide_eq_false fun same => e (Option.some.inj same).symm]
        rfl
      constructor
      · dsimp only
        rw [others m device e]
        omega
      · intro h7 h15
        have balance := exact h7 h15
        dsimp only
        rw [others m device e]
        omega

/-- An end of interrupt changes nothing but what is in service. -/
theorem Pic.eoi_eq (p : Pic) : ∃ isr, p.eoi = { p with isr := isr } := by
  unfold Pic.eoi
  split
  · exact ⟨_, rfl⟩
  · exact ⟨_, rfl⟩

theorem Pic.Calm.eoi (h : p.Calm) : p.eoi.Calm := by
  have only : p.OnlyServes 0 := fun j served => by
    rw [h j] at served
    cases served
  exact only.eoi (by decide)

theorem Pic.Calm.onlyServes (h : p.Calm) : ∃ i < 8, p.OnlyServes i :=
  ⟨0, by decide, fun j served => by rw [h j] at served; cases served⟩

/-- A byte of `PicSendEoi`. -/
theorem Inv.out (inv : Inv s) {b : u16 × u8} {bs : List (u16 × u8)} (sending : s.sending = b :: bs)
    (busy : s.serving ≠ none) : Inv { s with chips := s.chips.out b, sending := bs } := by
  have bytes : ∀ x ∈ bs, x = (PIC1_CMD, 0x20) ∨ x = (PIC2_CMD, 0x20) := fun x m =>
    inv.bytes x (sending ▸ List.mem_cons_of_mem b m)
  obtain ⟨i, hi, one⟩ := inv.one
  obtain ⟨j, hj, oneSlave⟩ := inv.oneSlave
  have still : ∀ {x : u16 × u8}, x ∈ s.sending → x ≠ b → x ∈ bs := fun m ne => by
    rw [sending] at m
    exact (List.mem_cons.mp m).resolve_left ne
  rcases inv.bytes b (sending ▸ List.mem_cons_self ..) with rfl | rfl
  · have sent : s.chips.out (PIC1_CMD, 0x20) = { s.chips with master := s.chips.master.eoi } := by
      simp [Pics.out, Pic.command]
    obtain ⟨isr, eq⟩ := s.chips.master.eoi_eq
    have calm := one.eoi hi
    rw [sent, eq]
    rw [eq] at calm
    exact
      { master := ⟨inv.master.phase, inv.master.base, inv.master.icw3, inv.master.icw4⟩
        slave := inv.slave
        masked := inv.masked
        line := inv.line
        idle := fun no => absurd no busy
        bytes := bytes
        one := calm.onlyServes
        oneSlave := inv.oneSlave
        owed := fun no => absurd calm no
        owedSlave := fun served => still (inv.owedSlave served) (by decide)
        straight := inv.straight
        balanced := fun n device => ⟨(inv.balanced n device).atMost, (inv.balanced n device).exact⟩ }
  · have sent : s.chips.out (PIC2_CMD, 0x20) = { s.chips with slave := s.chips.slave.eoi } := by
      simp [Pics.out, Pic.command]
    obtain ⟨isr, eq⟩ := s.chips.slave.eoi_eq
    have calm := oneSlave.eoi hj
    rw [sent, eq]
    rw [eq] at calm
    exact
      { master := inv.master
        slave := ⟨inv.slave.phase, inv.slave.base, inv.slave.icw3, inv.slave.icw4⟩
        masked := inv.masked
        line := inv.line
        idle := fun no => absurd no busy
        bytes := bytes
        one := inv.one
        oneSlave := calm.onlyServes
        owed := fun served => still (inv.owed served) (by decide)
        owedSlave := fun no => absurd calm no
        straight := inv.straight
        balanced := fun n device => ⟨(inv.balanced n device).atMost, (inv.balanced n device).exact⟩ }

/-- The call of the handler. -/
theorem Inv.handle (inv : Inv s) (serving : s.serving = some n) (sent : s.sending = []) :
    Inv { s with serving := none, handled := increment s.handled n } where
  master := inv.master
  slave := inv.slave
  masked := inv.masked
  line _ no := by cases no
  idle _ := sent
  bytes := inv.bytes
  one := inv.one
  oneSlave := inv.oneSlave
  owed := inv.owed
  owedSlave := inv.owedSlave
  straight := inv.straight
  balanced m device := by
    obtain ⟨atMost, exact⟩ := inv.balanced m device
    rw [serving] at atMost exact
    have after : (decide ((none : Option Nat) = some m)).toNat = 0 := rfl
    by_cases e : m = n
    · subst e
      have before : (decide (some m = some m)).toNat = 1 := by rw [decide_eq_true rfl]; rfl
      constructor
      · dsimp only
        rw [increment_self]
        omega
      · intro h7 h15
        have balance := exact h7 h15
        dsimp only
        rw [increment_self]
        change _ = s.withdrawn m + (s.handled m + 1) + (s.chips.requests m).toNat + _
        omega
    · have before : (decide (some n = some m)).toNat = 0 := by
        rw [decide_eq_false fun same => e (Option.some.inj same).symm]
        rfl
      constructor
      · dsimp only
        rw [increment_of_ne e]
        omega
      · intro h7 h15
        have balance := exact h7 h15
        dsimp only
        rw [increment_of_ne e]
        change _ = s.withdrawn m + s.handled m + (s.chips.requests m).toNat + _
        omega

/-- **One step.** -/
theorem Inv.step (inv : Inv s) {op : Op} (hs : InterruptLines.step s op = some t) : Inv t := by
  cases op with
  | raise n =>
    obtain ⟨-, hs⟩ := Option.ite_none_right_eq_some.mp hs
    split at hs
    case isTrue => exact Option.some.inj hs ▸ inv
    case isFalse low => exact Option.some.inj hs ▸ inv.raise (Bool.not_eq_true _ ▸ low)
  | withdraw n =>
    obtain ⟨-, hs⟩ := Option.ite_none_right_eq_some.mp hs
    split at hs
    case isTrue high => exact Option.some.inj hs ▸ inv.withdraw high
    case isFalse => exact Option.some.inj hs ▸ inv
  | setMask irq masked =>
    obtain ⟨⟨-, hirq⟩, ⟨⟩⟩ := Option.ite_none_right_eq_some.mp hs
    exact inv.setMask hirq masked
  | acknowledge stale =>
    obtain ⟨idle, -⟩ := Option.ite_none_right_eq_some.mp hs
    obtain ⟨n, c', taken, eq⟩ := inv.acknowledge_eq idle stale
    rw [hs] at eq
    exact Option.some.inj eq ▸ inv.acknowledge idle taken
  | dispatch =>
    simp only [InterruptLines.step] at hs
    split at hs
    case h_1 => cases hs
    case h_2 n serving sent => exact Option.some.inj hs ▸ inv.handle serving sent
    case h_3 n b bs serving sending =>
      exact Option.some.inj hs ▸ inv.out sending (by rw [serving]; exact Option.some_ne_none n)

/-! ## Lines are served -/

/-- The lines from the highest priority to the lowest. -/
def rank (n : Nat) : Nat := if n < 2 then n else if n < 8 then n + 7 else n - 6

/-- A line requests service, and the kernel has not masked it, nor the line that the second
chip is on. -/
def System.Wants (s : System) (n : Nat) : Prop :=
  s.chips.requests n = true ∧ s.masked n = false ∧ (8 ≤ n → s.masked 2 = false)

/-- No line is kept from being served by one that was served before, and the vector that the
processor gets next is that of the first line that wants it. -/
structure Served (s : System) : Prop where
  calm : s.serving = none ∨ s.sending = [] → s.chips.master.Calm ∧ s.chips.slave.Calm
  straight : s.astray = false
  next : s.serving = none → ∀ m, IsDevice m → s.Wants m → ∃ n t,
    step s (.acknowledge false) = some t ∧ t.serving = some n ∧ IsDevice n ∧ s.Wants n ∧
      ∀ k, IsDevice k → s.Wants k → rank n ≤ rank k
  balanced : ∀ n, IsDevice n → Balanced s n

theorem Pic.wants_iff {irr : Nat → Bool} {i : Nat} :
    p.wants irr i = true ↔ irr i = true ∧ p.imr.getLsbD i = false := by
  unfold Pic.wants
  simp only [Bool.and_eq_true, Bool.not_eq_eq_eq_not, Bool.not_true]

/-- A line of the first chip. -/
theorem Inv.wants_first (inv : Inv s) (hn : n < 8) (other : n ≠ 2) (stale : Bool) :
    s.Wants n ↔ s.chips.master.wants (s.chips.masterIrr stale) n = true := by
  have mask : s.chips.master.imr.getLsbD n = s.masked n := by
    rw [← inv.masked n (by omega)]
    exact (if_pos hn).symm
  have request : s.chips.masterIrr stale n = s.chips.requests n :=
    (Function.update_of_ne other ..).trans (if_pos hn).symm
  rw [Pic.wants_iff, mask, request]
  exact ⟨fun h => ⟨h.1, h.2.1⟩, fun h => ⟨h.1, h.2, fun high => absurd high (by omega)⟩⟩

/-- A line of the second chip. -/
theorem Inv.wants_second (inv : Inv s) {j : Nat} (hj : j < 8) : s.Wants (8 + j) ↔
    s.chips.slave.wants s.chips.slave.irr j = true ∧ s.chips.master.imr.getLsbD 2 = false := by
  have mask : s.chips.slave.imr.getLsbD j = s.masked (8 + j) := by
    rw [← inv.masked (8 + j) (by omega), Pics.maskOf, if_neg (by omega), Nat.add_sub_cancel_left]
  have cascade : s.chips.master.imr.getLsbD 2 = s.masked 2 := inv.masked 2 (by decide)
  have request : s.chips.requests (8 + j) = s.chips.slave.irr j := by
    rw [Pics.requests, if_neg (by omega), Nat.add_sub_cancel_left]
  rw [Pic.wants_iff, mask, cascade, ← request]
  exact ⟨fun h => ⟨⟨h.1, h.2.1⟩, h.2.2 (by omega)⟩, fun h => ⟨h.1.1, h.1.2, fun _ => h.2⟩⟩

/-- The second chip passes its lines on to line 2. -/
theorem Inv.wants_cascade (inv : Inv s) (calmSlave : s.chips.slave.Calm) {j : Nat} (hj : j < 8)
    (wants : s.Wants (8 + j)) (stale : Bool) :
    s.chips.master.wants (s.chips.masterIrr stale) 2 = true := by
  obtain ⟨wanted, passed⟩ := (inv.wants_second hj).mp wants
  have asks : (s.chips.slave.request s.chips.slave.irr).isSome = true := by
    by_contra silent
    have none := calmSlave.request_none.mp (Option.not_isSome_iff_eq_none.mp silent) j hj
    rw [wanted] at none
    cases none
  refine Pic.wants_iff.mpr ⟨(Function.update_self ..).trans ?_, passed⟩
  rw [asks]
  rfl

/-- **The first line that wants it is served.** -/
theorem Inv.served_first (inv : Inv s) (idle : s.serving = none) {c' : Pics}
    (taken : Taken s.chips false n c') {m : Nat} (device : IsDevice m) (wants : s.Wants m) :
    s.Wants n ∧ ∀ k, IsDevice k → s.Wants k → rank n ≤ rank k := by
  have calmSlave := (inv.calm (inv.idle idle)).2
  -- a line of the second chip, by its number there
  have second : ∀ k, IsDevice k → ¬ k < 8 → ∃ j < 8, k = 8 + j := fun k device high =>
    ⟨k - 8, by have := device.1; omega, by omega⟩
  cases taken with
  | spurious nothing =>
    by_cases low : m < 8
    · rw [inv.wants_first low device.2 false, nothing m low] at wants
      cases wants
    · obtain ⟨j, hj, rfl⟩ := second m device low
      have asked := inv.wants_cascade calmSlave hj wants false
      rw [nothing 2 (by decide)] at asked
      cases asked
  | own i hi other wanted first =>
    have here : s.Wants n := (inv.wants_first hi other false).mpr (by
      unfold Pic.wants Pics.masterIrr at *
      rwa [Function.update_of_ne other])
    refine ⟨here, fun k device wants => ?_⟩
    unfold rank
    by_cases low : k < 8
    · have behind : ¬ k < n := fun before => by
        rw [inv.wants_first low device.2 false, first k before] at wants
        cases wants
      have := device.2
      split <;> split <;> omega
    · obtain ⟨j, hj, rfl⟩ := second k device low
      have behind : ¬ 2 < n := fun before => by
        have asked := inv.wants_cascade calmSlave hj wants false
        rw [first 2 before] at asked
        cases asked
      rw [if_pos (by omega), if_neg (by omega), if_neg (by omega)]
      omega
  | lost late => cases late
  | cascaded j hj wanted passed first firstSlave =>
    refine ⟨(inv.wants_second hj).mpr ⟨wanted, passed⟩, fun k device wants => ?_⟩
    unfold rank
    rw [if_neg (show ¬ 8 + j < 2 by omega), if_neg (show ¬ 8 + j < 8 by omega)]
    by_cases low : k < 8
    · have behind : ¬ k < 2 := fun before => by
        rw [inv.wants_first low device.2 false, first k before] at wants
        cases wants
      rw [if_neg behind, if_pos low]
      have := device.2
      omega
    · obtain ⟨i, hi, rfl⟩ := second k device low
      have behind : ¬ i < j := fun before => by
        have wanted := ((inv.wants_second hi).mp wants).1
        rw [firstSlave i before] at wanted
        cases wanted
      rw [if_neg (by omega), if_neg (by omega)]
      omega

theorem Inv.served (inv : Inv s) : Served s := by
  refine ⟨fun h => inv.calm (h.elim inv.idle id), inv.straight, fun idle m device wants => ?_,
    inv.balanced⟩
  obtain ⟨n, c', taken, eq⟩ := inv.acknowledge_eq idle false
  obtain ⟨here, least⟩ := inv.served_first idle taken device wants
  exact ⟨n, _, eq, rfl, taken.line, here, least⟩

/-- **Interrupt lines are served in order and none is lost**: whatever state the firmware
leaves the controllers in, in every run after `PicInit` each vector is that of a line, no line
is in service when its handler is called or when the processor can take the next vector, the
next vector is that of the first line that wants it, and each request is handled once, is still
there, or was withdrawn. -/
theorem lines_served (c : Pics) (ops : List Op) : Always step Served (start c) ops :=
  (always_invariant (G := fun _ _ => True) (fun _ _ _ inv _ hs => Inv.step inv hs) (start_inv c)
    (along_of_forall (fun _ _ => trivial) _ _)).mono fun _ inv => inv.served

end MicroNT.InterruptLines
