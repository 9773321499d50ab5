import MicroNT.Ntdef
import Mathlib.Logic.Function.Basic

/-! # Descriptor tables (`gdt.cpp`, `SetGate` and `IdtInit` of `idt.cpp`)

The kernel fills packed structures field by field, and the processor takes its own fields out
of the same bits. A structure is the word of its bytes here, the first byte the lowest. -/

namespace MicroNT.Descriptors

/-! ## What the kernel fills in -/

structure IdtEntry where
  offsetLow : u16
  selector : u16
  ist : u8
  typeAttr : u8
  offsetMiddle : u16
  offsetHigh : u32
  reserved : u32

def IdtEntry.zero : IdtEntry := ⟨0, 0, 0, 0, 0, 0, 0⟩

def setGate (idt : u8 → IdtEntry) (n : u8) (handler : u64) (typeAttr : u8) : u8 → IdtEntry :=
  Function.update idt n
    { offsetLow := (handler &&& 0xFFFF#64).setWidth 16
      selector := 0x08
      ist := 0
      typeAttr := typeAttr
      offsetMiddle := ((handler >>> 16) &&& 0xFFFF#64).setWidth 16
      offsetHigh := ((handler >>> 32) &&& 0xFFFFFFFF#64).setWidth 32
      reserved := 0 }

/-- Present, DPL 0, a 64-bit interrupt gate. -/
abbrev INT_GATE : u8 := 0x8E

/-- The loop of `IdtInit`; `s_isrs` are the addresses of the stubs. -/
def setGates (isrs : u8 → u64) : Nat → (u8 → IdtEntry) → u8 → IdtEntry
  | 0, idt => idt
  | n + 1, idt =>
    setGate (setGates isrs n idt) (BitVec.ofNat 8 n) (isrs (BitVec.ofNat 8 n)) INT_GATE

structure GdtEntry where
  limitLow : u16
  baseLow : u16
  baseMiddle : u8
  access : u8
  granularity : u8
  baseHigh : u8

def GdtEntry.zero : GdtEntry := ⟨0, 0, 0, 0, 0, 0⟩

def setEntry (base limit : u32) (access granularity : u8) : GdtEntry where
  baseLow := (base &&& 0xFFFF#32).setWidth 16
  baseMiddle := ((base >>> 16) &&& 0xFF#32).setWidth 8
  baseHigh := ((base >>> 24) &&& 0xFF#32).setWidth 8
  limitLow := (limit &&& 0xFFFF#32).setWidth 16
  granularity := (((limit >>> 16) &&& 0x0F#32) ||| (granularity &&& 0xF0#8).setWidth 32).setWidth 8
  access := access

structure GdtEntry16 where
  low : GdtEntry
  baseUpper : u32
  reserved : u32

structure GdtTable where
  entries : List GdtEntry
  tssDesc : GdtEntry16

/-- The seven words of `Ist` are one field here; nothing writes them. -/
structure Tss64 where
  reserved0 : u32
  rsp0 : u64
  rsp1 : u64
  rsp2 : u64
  reserved1 : u64
  ist : BitVec 448
  reserved2 : u64
  reserved3 : u16
  ioMapBase : u16

def Tss64.zero : Tss64 := ⟨0, 0, 0, 0, 0, 0, 0, 0, 0⟩

abbrev sizeofTss64 : u32 := 104

/-- The static variables of the two files, and `g_kernel_rsp0`. -/
structure Tables where
  idt : u8 → IdtEntry
  gdt : GdtTable
  tss : Tss64
  kernelRsp0 : u64

/-- The tables as the image has them. -/
def Tables.blank : Tables where
  idt _ := .zero
  gdt := ⟨List.replicate 5 .zero, .zero, 0, 0⟩
  tss := .zero
  kernelRsp0 := 0

/-- `GdtInit`, with the address of `s_tss` and that behind `s_kernel_stack`. -/
def gdtInit (t : Tables) (tssBase stackTop : u64) : Tables :=
  let tssSize : u32 := sizeofTss64 - 1
  { t with
    gdt :=
      { entries :=
          [ setEntry 0 0 0 0,
            setEntry 0 0xFFFFF 0x9A 0xAF,
            setEntry 0 0xFFFFF 0x92 0xAF,
            setEntry 0 0xFFFFF 0xF2 0xAF,
            setEntry 0 0xFFFFF 0xFA 0xAF ]
        tssDesc :=
          { low :=
              { limitLow := (tssSize &&& 0xFFFF#32).setWidth 16
                baseLow := (tssBase &&& 0xFFFF#64).setWidth 16
                baseMiddle := ((tssBase >>> 16) &&& 0xFF#64).setWidth 8
                access := 0x89
                granularity := ((tssSize >>> 16) &&& 0x0F#32).setWidth 8
                baseHigh := ((tssBase >>> 24) &&& 0xFF#64).setWidth 8 }
            baseUpper := ((tssBase >>> 32) &&& 0xFFFFFFFF#64).setWidth 32
            reserved := 0 } }
    tss := { t.tss with rsp0 := stackTop, ioMapBase := sizeofTss64.setWidth 16 }
    kernelRsp0 := stackTop }

def idtInit (t : Tables) (isrs : u8 → u64) : Tables := { t with idt := setGates isrs 48 t.idt }

def setTSSRsp0 (t : Tables) (rsp0 : u64) : Tables :=
  { t with tss := { t.tss with rsp0 := rsp0 }, kernelRsp0 := rsp0 }

/-! ## What the processor reads -/

def IdtEntry.bits (e : IdtEntry) : BitVec 128 :=
  e.reserved ++ (e.offsetHigh ++ (e.offsetMiddle ++ (e.typeAttr ++ (e.ist ++
    (e.selector ++ e.offsetLow)))))

def GdtEntry.bits (e : GdtEntry) : BitVec 64 :=
  e.baseHigh ++ (e.granularity ++ (e.access ++ (e.baseMiddle ++ (e.baseLow ++ e.limitLow))))

def Tss64.bits (t : Tss64) : BitVec 832 :=
  t.ioMapBase ++ (t.reserved3 ++ (t.reserved2 ++ (t.ist ++ (t.reserved1 ++
    (t.rsp2 ++ (t.rsp1 ++ (t.rsp0 ++ t.reserved0)))))))

/-- The 64-bit slots of the table, two of them for the TSS. -/
def GdtTable.words (g : GdtTable) : List (BitVec 64) :=
  g.entries.map GdtEntry.bits ++ [g.tssDesc.low.bits, g.tssDesc.reserved ++ g.tssDesc.baseUpper]

structure Gate where
  offset : u64
  selector : u16
  ist : BitVec 3
  type : BitVec 4
  dpl : BitVec 2
  present : Bool
  deriving DecidableEq

def readGate (b : BitVec 128) : Gate where
  offset := b.extractLsb' 64 32 ++ (b.extractLsb' 48 16 ++ b.extractLsb' 0 16)
  selector := b.extractLsb' 16 16
  ist := b.extractLsb' 32 3
  type := b.extractLsb' 40 4
  dpl := b.extractLsb' 45 2
  present := b.getLsbD 47

/-- A segment; `system` is its `S` bit, which is clear in descriptors of the system. -/
structure Segment where
  base : u32
  limit : BitVec 20
  type : BitVec 4
  system : Bool
  dpl : BitVec 2
  present : Bool
  long : Bool
  pages : Bool
  deriving DecidableEq

def readSegment (b : BitVec 64) : Segment where
  base := b.extractLsb' 56 8 ++ b.extractLsb' 16 24
  limit := b.extractLsb' 48 4 ++ b.extractLsb' 0 16
  type := b.extractLsb' 40 4
  system := !b.getLsbD 44
  dpl := b.extractLsb' 45 2
  present := b.getLsbD 47
  long := b.getLsbD 53
  pages := b.getLsbD 55

def Segment.isCode (s : Segment) : Bool := !s.system && s.type.getLsbD 3

/-- The slot of a selector. -/
def loadSegment (g : GdtTable) (selector : u16) : Option Segment :=
  (g.words[(selector >>> 3).toNat]?).map readSegment

/-- Where the task register leads: the segment of its first slot, with the upper half of its
base in the second one. -/
def loadTask (g : GdtTable) (selector : u16) : Option (Segment × u64) := do
  let low ← g.words[(selector >>> 3).toNat]?
  let high ← g.words[(selector >>> 3).toNat + 1]?
  let s := readSegment low
  some (s, high.extractLsb' 0 32 ++ s.base)

/-- The stack pointer of a privilege level. -/
def stackOf (t : BitVec 832) (level : Nat) : u64 := t.extractLsb' (32 + 64 * level) 64

/-! ## What it finds -/

theorem offset_parts (a : u64) :
    ((a >>> 32).setWidth 32 ++ ((a >>> 16).setWidth 16 ++ a.setWidth 16) : u64) = a := by
  apply BitVec.eq_of_getLsbD_eq
  intro i hi
  simp only [BitVec.getLsbD_append, BitVec.getLsbD_setWidth, BitVec.getLsbD_ushiftRight]
  grind

theorem readGate_bits (e : IdtEntry) : readGate e.bits =
      { offset := e.offsetHigh ++ (e.offsetMiddle ++ e.offsetLow)
        selector := e.selector
        ist := e.ist.extractLsb' 0 3
        type := e.typeAttr.extractLsb' 0 4
        dpl := e.typeAttr.extractLsb' 5 2
        present := e.typeAttr.getLsbD 7 } := by
  unfold readGate IdtEntry.bits
  simp (disch := decide) only [BitVec.extractLsb'_append_eq_of_add_le,
    BitVec.extractLsb'_append_eq_of_le, BitVec.extractLsb'_eq_self, BitVec.getLsbD_append]
  simp only [Nat.reduceAdd, Nat.reduceSub, Nat.reduceLT, reduceIte, BitVec.extractLsb'_eq_self]

theorem readSegment_bits (e : GdtEntry) : readSegment e.bits =
      { base := e.baseHigh ++ (e.baseMiddle ++ e.baseLow)
        limit := e.granularity.extractLsb' 0 4 ++ e.limitLow
        type := e.access.extractLsb' 0 4
        system := !e.access.getLsbD 4
        dpl := e.access.extractLsb' 5 2
        present := e.access.getLsbD 7
        long := e.granularity.getLsbD 5
        pages := e.granularity.getLsbD 7 } := by
  have base : BitVec.extractLsb' 16 24 e.bits = e.baseMiddle ++ e.baseLow := by
    have split : e.bits.extractLsb' 32 8 ++ e.bits.extractLsb' 16 16 = e.bits.extractLsb' 16 24 :=
      BitVec.extractLsb'_append_extractLsb'_eq_extractLsb' (show 32 = 16 + 16 from rfl)
    rw [← split]
    unfold GdtEntry.bits
    simp (disch := decide) only [BitVec.extractLsb'_append_eq_of_add_le,
      BitVec.extractLsb'_append_eq_of_le]
    simp only [Nat.reduceAdd, Nat.reduceSub, BitVec.extractLsb'_eq_self]
  unfold readSegment
  rw [base]
  unfold GdtEntry.bits
  simp (disch := decide) only [BitVec.extractLsb'_append_eq_of_add_le,
    BitVec.extractLsb'_append_eq_of_le, BitVec.extractLsb'_eq_self, BitVec.getLsbD_append]
  simp only [Nat.reduceAdd, Nat.reduceSub, Nat.reduceLT, reduceIte, BitVec.extractLsb'_eq_self]

theorem stackOf_bits (t : Tss64) : stackOf t.bits 0 = t.rsp0 := by
  show t.bits.extractLsb' 32 64 = t.rsp0
  unfold Tss64.bits
  simp (disch := decide) only [BitVec.extractLsb'_append_eq_of_add_le,
    BitVec.extractLsb'_append_eq_of_le]
  simp only [Nat.reduceSub, BitVec.extractLsb'_eq_self]

/-- Each part of an address is where `GdtInit` puts it. -/
theorem base_parts (a : u64) :
    (((a >>> 32).setWidth 32 : u32) ++ (((a >>> 24).setWidth 8 : u8) ++
      (((a >>> 16).setWidth 8 : u8) ++ (a.setWidth 16 : u16)) : u32) : u64) = a := by
  apply BitVec.eq_of_getLsbD_eq
  intro i hi
  simp only [BitVec.getLsbD_append, BitVec.getLsbD_setWidth, BitVec.getLsbD_ushiftRight]
  grind

theorem setWidth_and_ones (x : u64) :
    (x &&& 0xFFFF#64).setWidth 16 = x.setWidth 16 ∧ (x &&& 0xFF#64).setWidth 8 = x.setWidth 8 ∧
      (x &&& 0xFFFFFFFF#64).setWidth 32 = x.setWidth 32 := by
  refine ⟨?_, ?_, ?_⟩
  all_goals
    rw [BitVec.setWidth_and]
    exact BitVec.and_allOnes

/-- **`SetGate`** makes an interrupt gate to its handler. -/
theorem readGate_setGate (idt : u8 → IdtEntry) (n : u8) (handler : u64) :
    readGate (setGate idt n handler INT_GATE n).bits = ⟨handler, 0x08, 0, 0xE, 0, true⟩ := by
  obtain ⟨low, -, -⟩ := setWidth_and_ones handler
  obtain ⟨middle, -, -⟩ := setWidth_and_ones (handler >>> 16)
  obtain ⟨-, -, high⟩ := setWidth_and_ones (handler >>> 32)
  unfold setGate
  rw [Function.update_self, readGate_bits]
  dsimp only
  rw [low, middle, high, offset_parts, Gate.mk.injEq]
  exact ⟨rfl, rfl, by decide, by decide, by decide, by decide⟩

theorem setGates_spec (isrs : u8 → u64) (idt : u8 → IdtEntry) {k : Nat} (hk : k ≤ 256) (n : u8) :
    (n.toNat < k → readGate (setGates isrs k idt n).bits = ⟨isrs n, 0x08, 0, 0xE, 0, true⟩) ∧
      (k ≤ n.toNat → setGates isrs k idt n = idt n) := by
  induction k with
  | zero => exact ⟨fun h => absurd h (Nat.not_lt_zero _), fun _ => rfl⟩
  | succ k ih =>
    obtain ⟨before, after⟩ := ih (by omega)
    have number : (BitVec.ofNat 8 k).toNat = k := by
      rw [BitVec.toNat_ofNat, Nat.mod_eq_of_lt (by omega)]
    by_cases e : n = BitVec.ofNat 8 k
    · rw [e, number]
      exact ⟨fun _ => readGate_setGate _ _ _, fun h => absurd h (by omega)⟩
    · have other : n.toNat ≠ k := fun same => e (BitVec.eq_of_toNat_eq (same.trans number.symm))
      have kept : setGates isrs (k + 1) idt n = setGates isrs k idt n := Function.update_of_ne e _ _
      rw [kept]
      exact ⟨fun h => before (by omega), fun h => after (by omega)⟩

/-- **The IDT**: the first 48 vectors lead to their stubs, the others nowhere. -/
theorem idtInit_gate (tssBase stackTop : u64) (isrs : u8 → u64) (n : u8) :
    readGate (idtInit (gdtInit .blank tssBase stackTop) isrs |>.idt n).bits =
      if n.toNat < 48 then ⟨isrs n, 0x08, 0, 0xE, 0, true⟩ else ⟨0, 0, 0, 0, 0, false⟩ := by
  obtain ⟨inside, outside⟩ := setGates_spec isrs Tables.blank.idt (k := 48) (by decide) n
  split
  case isTrue h => exact inside h
  case isFalse h =>
    have none : (idtInit (gdtInit .blank tssBase stackTop) isrs).idt n = .zero :=
      outside (Nat.not_lt.mp h)
    rw [none]
    decide

/-- The four segments of the GDT. -/
theorem gdtInit_segments (t : Tables) (tssBase stackTop : u64) :
    let g := (gdtInit t tssBase stackTop).gdt
    loadSegment g 0x08 = some ⟨0, 0xFFFFF, 0xA, false, 0, true, true, true⟩ ∧
      loadSegment g 0x10 = some ⟨0, 0xFFFFF, 0x2, false, 0, true, true, true⟩ ∧
      loadSegment g 0x1B = some ⟨0, 0xFFFFF, 0x2, false, 3, true, true, true⟩ ∧
      loadSegment g 0x23 = some ⟨0, 0xFFFFF, 0xA, false, 3, true, true, true⟩ :=
  ⟨rfl, rfl, rfl, rfl⟩

/-- **The TSS descriptor** leads to `s_tss`, wherever that is. -/
theorem gdtInit_task (t : Tables) (tssBase stackTop : u64) :
    ∃ s, loadTask (gdtInit t tssBase stackTop).gdt 0x28 = some (s, tssBase) ∧ s.limit = 103 ∧
      s.type = 0x9 ∧ s.system = true ∧ s.present = true := by
  obtain ⟨low, -, -⟩ := setWidth_and_ones tssBase
  obtain ⟨-, middle, -⟩ := setWidth_and_ones (tssBase >>> 16)
  obtain ⟨-, high, -⟩ := setWidth_and_ones (tssBase >>> 24)
  obtain ⟨-, -, upper⟩ := setWidth_and_ones (tssBase >>> 32)
  let desc := (gdtInit t tssBase stackTop).gdt.tssDesc
  have second : (desc.reserved ++ desc.baseUpper : u64).extractLsb' 0 32 = desc.baseUpper :=
    BitVec.extractLsb'_append_eq_right
  refine ⟨readSegment desc.low.bits, ?_, ?_⟩
  · refine congrArg (fun base => some (readSegment desc.low.bits, base)) ?_
    rw [readSegment_bits]
    refine (congrArg (· ++ _) second).trans ?_
    unfold desc gdtInit
    dsimp only
    rw [low, middle, high, upper, base_parts]
  · rw [readSegment_bits]
    unfold desc gdtInit
    dsimp only
    exact ⟨by decide, by decide, by decide, by decide⟩

end MicroNT.Descriptors
