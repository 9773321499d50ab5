import MicroNT.ContextSwitch
import MicroNT.Descriptors

/-! # Interrupts (`interrupts.asm`, `InterruptDispatch`, `IrqDispatch`)

The processor pushes what the interrupted program needs to go on, the stub of the vector adds
the other registers, and `InterruptDispatch` finds an `InterruptFrame` in these words. What it
changes there the program gets, and nothing else of the program changes. -/

set_option linter.unusedSectionVars false

namespace MicroNT.Interrupts

open MicroNT.Descriptors
open MicroNT.Syscall (Bytes read64 write64 read64_congr read64_write64_same)
open MicroNT.Switch (Reg Core Place Words pushWords)

/-! ## The stubs -/

inductive Instr
  | push (src : Reg)
  | pushImm (imm : u64)
  | pop (dst : Reg)
  | mov (dst src : Reg)
  | addImm (dst : Reg) (imm : u64)
  | callInterruptDispatch
  | iretq
  deriving DecidableEq

def pushaq : List Instr :=
  [.push .rax, .push .rbx, .push .rcx, .push .rdx, .push .rdi, .push .rsi, .push .rbp, .push .r8,
    .push .r9, .push .r10, .push .r11, .push .r12, .push .r13, .push .r14, .push .r15]

def popaq : List Instr :=
  [.pop .r15, .pop .r14, .pop .r13, .pop .r12, .pop .r11, .pop .r10, .pop .r9, .pop .r8,
    .pop .rbp, .pop .rsi, .pop .rdi, .pop .rdx, .pop .rcx, .pop .rbx, .pop .rax]

def isrCommon : List Instr :=
  pushaq ++ [.mov .rdi .rsp, .callInterruptDispatch] ++ popaq ++ [.addImm .rsp 16, .iretq]

/-- A stub, with the code that it jumps to. -/
def isrNoerr (n : u64) : List Instr := [.pushImm 0, .pushImm n] ++ isrCommon

def isrErr (n : u64) : List Instr := [.pushImm n] ++ isrCommon

/-- The vectors with an `ISR_ERR` stub. -/
def errorStubs : List u8 := [8, 10, 11, 12, 13, 14, 17, 30]

def isr (n : u8) : List Instr :=
  if n ∈ errorStubs then isrErr (n.setWidth 64) else isrNoerr (n.setWidth 64)

/-! ## The dispatcher -/

/-- `InterruptFrame`, in the order of the structure. -/
inductive Field
  | r15 | r14 | r13 | r12 | r11 | r10 | r9 | r8
  | rbp | rsi | rdi | rdx | rcx | rbx | rax
  | vector | errorCode
  | rip | cs | rflags | rsp | ss
  deriving DecidableEq

def layout : List Field :=
  [.r15, .r14, .r13, .r12, .r11, .r10, .r9, .r8, .rbp, .rsi, .rdi, .rdx, .rcx, .rbx, .rax,
    .vector, .errorCode, .rip, .cs, .rflags, .rsp, .ss]

def Field.address (frame : u64) (f : Field) : u64 := frame + BitVec.ofNat 64 (8 * layout.idxOf f)

/-- The processor and what the handlers look at: the tables, `CurrentThread`, the threads'
`ExceptionHandler`s, `g_seh_delivered`, and the bytes sent to the interrupt controllers. -/
structure State (T : Type) extends Core where
  tables : Tables
  current : Option T
  exceptionHandler : T → u64
  sehDelivered : u32
  ports : List (u16 × u8)

/-- Where the linker put things, and what other code does: the registered handlers, with the
threads that run before they return, and the compiled `InterruptDispatch` around its effect. -/
structure Env (T : Type) where
  isrs : u8 → u64
  code : u64 → List Instr
  tssAddr : u64
  returnAddress : u64
  cr2 : u64
  handlers : u8 → State T → State T
  leave : Core → Core

variable {T : Type} [DecidableEq T]

def State.field (s : State T) (frame : u64) (f : Field) : u64 := read64 s.mem (f.address frame)

def State.setField (s : State T) (frame : u64) (f : Field) (v : u64) : State T :=
  { s with mem := write64 s.mem (f.address frame) v }

/-- `VmmHandlePageFault`: no fault is resolved. -/
def vmmHandlePageFault (_cr2 : u64) (_errorCode : u32) : Bool := false

def exceptionStatus (vec : u64) : u64 :=
  if vec = 0 then 0xC0000094
  else if vec = 6 then 0xC000001D
  else if vec = 13 then 0xC0000005
  else if vec = 14 then 0xC0000005
  else 0xC0000096

/-- `none` is `false`. -/
def deliverUserException (s : State T) (frame code : u64) : Option (State T) :=
  if s.field frame .cs &&& 3 ≠ 3 then none
  else
    match s.current with
    | none => none
    | some t =>
      if s.exceptionHandler t = 0 then none
      else
        let handler := s.exceptionHandler t
        let s := { s with exceptionHandler := Function.update s.exceptionHandler t 0 }
        let s := s.setField frame .rdi code
        let s := s.setField frame .rsi (s.field frame .rip)
        let s := s.setField frame .rip handler
        some { s with sehDelivered := 1 }

abbrev PIC1_CMD : u16 := 0x20
abbrev PIC2_CMD : u16 := 0xA0

/-- `PicSendEoi`: the bytes that it sends. -/
def picSendEoi (irq : u8) : List (u16 × u8) :=
  (if irq ≥ 8 then [(PIC2_CMD, 0x20)] else []) ++ [(PIC1_CMD, 0x20)]

def irqDispatch (e : Env T) (irq : u8) (s : State T) : State T :=
  if irq ≥ 16 then s else e.handlers irq { s with ports := s.ports ++ picSendEoi irq }

/-- `none` is `KernelPanic`, which does not return. -/
def interruptDispatch (e : Env T) (s : State T) (frame : u64) : Option (State T) :=
  let vec := s.field frame .vector
  if vec < 32 then
    if vec = 14 then
      if vmmHandlePageFault e.cr2 ((s.field frame .errorCode).setWidth 32) then some s
      else deliverUserException s frame (exceptionStatus vec)
    else deliverUserException s frame (exceptionStatus vec)
  else if vec < 48 then some (irqDispatch e ((vec - 32).setWidth 8) s)
  else some s

/-! ## The processor -/

/-- The exceptions that come with an error code. -/
def pushesError (n : u8) : Bool := n ∈ ([8, 10, 11, 12, 13, 14, 17, 21, 29, 30] : List u8)

def cpl (c : Core) : u64 := c.cs &&& 3

/-- IF, TF, NT, RF and VM, which a gate clears. -/
abbrev GATE_FLAGS : u64 := 0x34300

/-- What the processor does before the first instruction of a stub, in 64-bit mode. -/
def deliver (e : Env T) (n : u8) (code : u64) (s : State T) : Option (State T) := do
  let gate := readGate (s.tables.idt n).bits
  let segment ← loadSegment s.tables.gdt gate.selector
  let (_, tss) ← loadTask s.tables.gdt 0x28
  if gate.present ∧ gate.type = 0xE ∧ segment.present ∧ segment.isCode ∧ segment.long ∧
      segment.dpl.setWidth 64 ≤ cpl s.toCore ∧ tss = e.tssAddr then
    let inner := decide (segment.dpl.setWidth 64 < cpl s.toCore)
    let sp :=
      if gate.ist ≠ 0 then stackOf s.tables.tss.bits (3 + gate.ist.toNat)
      else if inner then stackOf s.tables.tss.bits segment.dpl.toNat
      else s.reg .rsp
    let words := [s.ss, s.reg .rsp, s.rflags, s.cs, s.rip] ++ if pushesError n then [code] else []
    let pushed := pushWords words (s.mem, sp &&& ~~~0xF#64)
    some
      { s with
        toCore :=
          { reg := Function.update s.reg .rsp pushed.2
            mem := pushed.1
            rip := gate.offset
            rflags := s.rflags &&& ~~~GATE_FLAGS
            cs := gate.selector.setWidth 64
            ss := if inner then 0 else s.ss } }
  else none

def exec (e : Env T) (s : State T) : Instr → Option (State T)
  | .push r => some { s with toCore := s.pushWord (s.reg r) }
  | .pushImm v => some { s with toCore := s.pushWord v }
  | .pop r => some { s with toCore := s.popWord.2.set r s.popWord.1 }
  | .mov d r => some { s with toCore := s.set d (s.reg r) }
  | .addImm d v => some { s with toCore := s.set d (s.reg d + v) }
  | .iretq => some { s with toCore := Switch.exec s.toCore .iretq }
  | .callInterruptDispatch =>
    let s := { s with toCore := s.pushWord e.returnAddress }
    (interruptDispatch e s (s.reg .rdi)).map fun d => { d with toCore := e.leave d.toCore }

def run (e : Env T) : State T → List Instr → Option (State T)
  | s, [] => some s
  | s, i :: is => (exec e s i).bind fun t => run e t is

/-- An interrupt, from the program that it interrupts to the program that goes on. -/
def interrupt (e : Env T) (n : u8) (code : u64) (s : State T) : Option (State T) :=
  (deliver e n code s).bind fun d => run e d (e.code d.rip)

/-! ## What an interrupt should do -/

/-- What the program had when it was interrupted. -/
def Field.value (s : State T) (n : u8) (code : u64) : Field → u64
  | .r15 => s.reg .r15
  | .r14 => s.reg .r14
  | .r13 => s.reg .r13
  | .r12 => s.reg .r12
  | .r11 => s.reg .r11
  | .r10 => s.reg .r10
  | .r9 => s.reg .r9
  | .r8 => s.reg .r8
  | .rbp => s.reg .rbp
  | .rsi => s.reg .rsi
  | .rdi => s.reg .rdi
  | .rdx => s.reg .rdx
  | .rcx => s.reg .rcx
  | .rbx => s.reg .rbx
  | .rax => s.reg .rax
  | .vector => n.setWidth 64
  | .errorCode => if pushesError n then code else 0
  | .rip => s.rip
  | .cs => s.cs
  | .rflags => s.rflags
  | .rsp => s.reg .rsp
  | .ss => s.ss

/-- The registers that a frame holds. -/
def registers (v : Field → u64) : Reg → u64
  | .rax => v .rax
  | .rbx => v .rbx
  | .rcx => v .rcx
  | .rdx => v .rdx
  | .rsi => v .rsi
  | .rdi => v .rdi
  | .rbp => v .rbp
  | .rsp => v .rsp
  | .r8 => v .r8
  | .r9 => v .r9
  | .r10 => v .r10
  | .r11 => v .r11
  | .r12 => v .r12
  | .r13 => v .r13
  | .r14 => v .r14
  | .r15 => v .r15

/-- The processor that a frame leads back to. -/
def resume (v : Field → u64) (m : Bytes) : Core :=
  { reg := registers v, mem := m, rip := v .rip, rflags := v .rflags, cs := v .cs, ss := v .ss }

theorem resume_value (s : State T) (n : u8) (code : u64) (m : Bytes) :
    resume (Field.value s n code) m = { s.toCore with mem := m } := by
  unfold resume
  congr 1
  funext r
  cases r <;> rfl

/-- From `sp` to the top of the stack nothing changes. -/
def Keeps (p : Place) (sp : u64) (m m' : Bytes) : Prop :=
  ∀ a, p.InStack a → (sp - p.stackBase).toNat ≤ (a - p.stackBase).toNat → m' a = m a

/-- The calling convention on this stack, for the handlers with the threads that run in
between, and for `InterruptDispatch` itself. When the thread runs again, RSP0 is its own. -/
structure Env.Conforms (e : Env T) (p : Place) : Prop where
  handler : ∀ irq s, (e.handlers irq s).reg .rsp = s.reg .rsp ∧
    Keeps p (s.reg .rsp) s.mem (e.handlers irq s).mem
  tables : ∀ irq s, (e.handlers irq s).tables = s.tables
  leave : ∀ c, (e.leave c).reg .rsp = c.reg .rsp + 8 ∧ Keeps p (c.reg .rsp + 8) c.mem (e.leave c).mem

/-- Where the processor begins to push. -/
def State.start (s : State T) (p : Place) : u64 := if s.cs &&& 3 = 3 then p.stackTop else s.reg .rsp

/-- A thread with this kernel stack runs, in user mode or on the stack. -/
structure Ready (e : Env T) (p : Place) (s : State T) : Prop where
  linked : ∀ n : u8, n.toNat < 48 → e.code (e.isrs n) = isr n
  tables : ∃ top,
    s.tables = setTSSRsp0 (idtInit (gdtInit .blank e.tssAddr top) e.isrs) p.stackTop
  mode : s.cs &&& 3 = 0 ∨ s.cs &&& 3 = 3
  room : 200 ≤ (s.start p - p.stackBase).toNat
  inside : (s.start p - p.stackBase).toNat ≤ p.stackSize.toNat

/-! ## Frames -/

section

variable {m m' : Bytes} {a : u64} {ws : List u64} {v : Field → u64}

theorem Words.get (h : Words m a ws) {i : Nat} {w : u64} (hi : ws[i]? = some w) :
    read64 m (a + BitVec.ofNat 64 (8 * i)) = w := by
  induction ws generalizing a i with
  | nil => cases hi
  | cons x ws ih =>
    cases i with
    | zero =>
      obtain rfl := Option.some.inj hi
      rw [show a + BitVec.ofNat 64 (8 * 0) = a from BitVec.add_zero a]
      exact h.1
    | succ i =>
      rw [show a + BitVec.ofNat 64 (8 * (i + 1)) = a + 8 + BitVec.ofNat 64 (8 * i) by bv_omega]
      exact ih h.2 hi

theorem Words.set (h : Words m a ws) (room : 8 * ws.length ≤ 2 ^ 64) {i : Nat} (hi : i < ws.length)
    (x : u64) : Words (write64 m (a + BitVec.ofNat 64 (8 * i)) x) a (ws.set i x) := by
  induction ws generalizing a i with
  | nil => cases hi
  | cons w ws ih =>
    rw [List.length_cons] at room hi
    cases i with
    | zero =>
      rw [show a + BitVec.ofNat 64 (8 * 0) = a from BitVec.add_zero a]
      refine ⟨read64_write64_same _ _ _, h.2.congr (by omega) fun y hy => ?_⟩
      exact Switch.write64_off _ (by bv_omega)
    | succ i =>
      refine ⟨(read64_congr fun y hy => Switch.write64_off _ (by bv_omega)).trans h.1, ?_⟩
      rw [show a + BitVec.ofNat 64 (8 * (i + 1)) = a + 8 + BitVec.ofNat 64 (8 * i) by bv_omega]
      exact ih h.2 (by omega) (by omega)

theorem layout_get (v : Field → u64) (f : Field) :
    (layout.map v)[layout.idxOf f]? = some (v f) := by
  cases f <;> rfl

theorem layout_set (v : Field → u64) (f : Field) (x : u64) :
    (layout.map v).set (layout.idxOf f) x = layout.map (Function.update v f x) := by
  cases f <;> rfl

/-- The frame at an address holds these values. -/
abbrev Frame (m : Bytes) (frame : u64) (v : Field → u64) : Prop := Words m frame (layout.map v)

theorem Frame.read (h : Frame m a v) (f : Field) : read64 m (f.address a) = v f :=
  Words.get h (layout_get v f)

theorem Frame.write (h : Frame m a v) (f : Field) (x : u64) :
    Frame (write64 m (f.address a) x) a (Function.update v f x) := by
  unfold Frame
  rw [← layout_set]
  have listed : f ∈ layout := by cases f <;> decide
  refine Words.set h ?_ ?_ x
  · rw [List.length_map]
    decide
  · rw [List.length_map]
    exact List.idxOf_lt_length_iff.mpr listed

end

/-! ## The stubs, one instruction at a time -/

variable {e : Env T} {p : Place} {s : State T} {n : u8} {code : u64} {v : Field → u64}

/-- A stub up to its call, and behind it. -/
def prologue (n : u8) : List Instr :=
  (if n ∈ errorStubs then [.pushImm (n.setWidth 64)] else [.pushImm 0, .pushImm (n.setWidth 64)]) ++
    pushaq ++ [.mov .rdi .rsp]

def epilogue : List Instr := popaq ++ [.addImm .rsp 16, .iretq]

theorem isr_eq (n : u8) : isr n = prologue n ++ .callInterruptDispatch :: epilogue := by
  unfold isr prologue
  split <;> rfl

theorem run_call (s : State T) (c : Core) (is : List Instr) :
    run e { s with toCore := c } (.callInterruptDispatch :: is) =
      (interruptDispatch e { s with toCore := c.pushWord e.returnAddress }
        ((c.pushWord e.returnAddress).reg .rdi)).bind fun d =>
          run e { d with toCore := e.leave d.toCore } is := by
  rw [run, exec]
  exact Option.bind_map ..

theorem run_append (s : State T) (is js : List Instr) :
    run e s (is ++ js) = (run e s is).bind fun t => run e t js := by
  induction is generalizing s with
  | nil => rfl
  | cons i is ih =>
    rw [List.cons_append, run, run, Option.bind_assoc]
    exact congrArg _ (funext fun t => ih t)

/-- **Behind the call** the program's registers come from the frame. -/
theorem run_epilogue (h : Frame s.mem (s.reg .rsp) v) :
    run e s epilogue = some { s with toCore := resume v s.mem } := by
  obtain ⟨r15, r14, r13, r12, r11, r10, r9, r8, rbp, rsi, rdi, rdx, rcx, rbx, rax, vector, error,
    rip, cs, rflags, rsp, ss, -⟩ := h
  let sp := s.reg .rsp + 8 + 8 + 8 + 8 + 8 + 8 + 8 + 8 + 8 + 8 + 8 + 8 + 8 + 8 + 8
  have at1 : sp + 8 + 8 = sp + 16 := by bv_omega
  have at2 : sp + 8 + 8 + 8 = sp + 16 + 8 := by bv_omega
  have at3 : sp + 8 + 8 + 8 + 8 = sp + 16 + 16 := by bv_omega
  have at4 : sp + 8 + 8 + 8 + 8 + 8 = sp + 16 + 24 := by bv_omega
  have at5 : sp + 8 + 8 + 8 + 8 + 8 + 8 = sp + 16 + 32 := by bv_omega
  have rip : read64 s.mem (sp + 16) = v .rip := at1 ▸ rip
  have cs : read64 s.mem (sp + 16 + 8) = v .cs := at2 ▸ cs
  have rflags : read64 s.mem (sp + 16 + 16) = v .rflags := at3 ▸ rflags
  have rsp : read64 s.mem (sp + 16 + 24) = v .rsp := at4 ▸ rsp
  have ss : read64 s.mem (sp + 16 + 32) = v .ss := at5 ▸ ss
  have regs : ∀ c : Core, c.mem = s.mem → c.rip = v .rip → c.rflags = v .rflags → c.cs = v .cs →
      c.ss = v .ss → (∀ r, c.reg r = registers v r) → c = resume v s.mem := by
    rintro ⟨reg, _, _, _, _, _⟩ rfl rfl rfl rfl rfl same
    obtain rfl : reg = registers v := funext same
    rfl
  refine congrArg (fun c : Core => (some { s with toCore := c } : Option (State T)))
    (regs _ rfl rip rflags cs ss fun r => ?_)
  cases r with
  | rsp => exact rsp
  | rax => exact rax
  | rbx => exact rbx
  | rcx => exact rcx
  | rdx => exact rdx
  | rsi => exact rsi
  | rdi => exact rdi
  | rbp => exact rbp
  | r8 => exact r8
  | r9 => exact r9
  | r10 => exact r10
  | r11 => exact r11
  | r12 => exact r12
  | r13 => exact r13
  | r14 => exact r14
  | r15 => exact r15

/-- The words of a frame, in the order in which they are pushed. -/
def frameWords (s : State T) (n : u8) (code : u64) : List u64 :=
  (layout.map (Field.value s n code)).reverse

/-- The stack pointer that the processor aligns. -/
def State.aligned (s : State T) (p : Place) : u64 := s.start p &&& ~~~0xF#64

theorem pushesError_iff (n : u8) (h21 : n ≠ 21) (h29 : n ≠ 29) :
    pushesError n = decide (n ∈ errorStubs) := by
  unfold pushesError errorStubs
  simp only [List.mem_cons, List.not_mem_nil, h21, h29, or_false, false_or]

/-- The pushes of a stub, behind those of the processor. -/
theorem run_prologue (s : State T) (n : u8) (code : u64) {m : Bytes} {sp : u64} {c : Core}
    (fits : pushesError n = decide (n ∈ errorStubs)) (reg : c.reg = Function.update s.reg .rsp
      (pushWords ([s.ss, s.reg .rsp, s.rflags, s.cs, s.rip] ++
        if pushesError n then [code] else []) (m, sp)).2)
    (mem : c.mem = (pushWords ([s.ss, s.reg .rsp, s.rflags, s.cs, s.rip] ++
        if pushesError n then [code] else []) (m, sp)).1) :
    ∃ d : Core, run e { s with toCore := c } (prologue n) = some { s with toCore := d } ∧
      d.mem = (pushWords (frameWords s n code) (m, sp)).1 ∧
      d.reg .rsp = (pushWords (frameWords s n code) (m, sp)).2 ∧ d.reg .rdi = d.reg .rsp ∧
      d.rflags = c.rflags ∧ d.cs = c.cs := by
  obtain ⟨_, _, rip, rflags, cs, ss⟩ := c
  subst reg mem
  have words : frameWords s n code =
      [s.ss, s.reg .rsp, s.rflags, s.cs, s.rip, if pushesError n then code else 0, n.setWidth 64,
        s.reg .rax, s.reg .rbx, s.reg .rcx, s.reg .rdx, s.reg .rdi, s.reg .rsi, s.reg .rbp,
        s.reg .r8, s.reg .r9, s.reg .r10, s.reg .r11, s.reg .r12, s.reg .r13, s.reg .r14,
        s.reg .r15] := rfl
  rw [words]
  unfold prologue
  by_cases h : n ∈ errorStubs
  · rw [if_pos h, if_pos (fits.trans (decide_eq_true h)), if_pos (fits.trans (decide_eq_true h))]
    exact ⟨_, rfl, rfl, rfl, rfl, rfl, rfl⟩
  · have none : ¬ pushesError n = true := fun yes => h (of_decide_eq_true (fits.symm.trans yes))
    rw [if_neg h, if_neg none, if_neg none]
    exact ⟨_, rfl, rfl, rfl, rfl, rfl, rfl⟩

/-- **The processor reaches the stub** of the vector, on the thread's kernel stack. -/
theorem Ready.deliver (h : Ready e p s) (code : u64) (hn : n.toNat < 48) :
    ∃ c : Core, Interrupts.deliver e n code s = some { s with toCore := c } ∧
      c.reg = Function.update s.reg .rsp
        (pushWords ([s.ss, s.reg .rsp, s.rflags, s.cs, s.rip] ++
          if pushesError n then [code] else []) (s.mem, s.aligned p)).2 ∧
      c.mem = (pushWords ([s.ss, s.reg .rsp, s.rflags, s.cs, s.rip] ++
          if pushesError n then [code] else []) (s.mem, s.aligned p)).1 ∧
      c.rip = e.isrs n ∧ c.rflags = s.rflags &&& ~~~GATE_FLAGS ∧ c.cs = 0x08 := by
  obtain ⟨top, tables⟩ := h.tables
  have gate : readGate (s.tables.idt n).bits = ⟨e.isrs n, 0x08, 0, 0xE, 0, true⟩ := by
    rw [tables]
    exact (idtInit_gate e.tssAddr top e.isrs n).trans (if_pos hn)
  obtain ⟨kernelCode, -⟩ := gdtInit_segments .blank e.tssAddr top
  have segment : loadSegment s.tables.gdt 0x08 =
      some ⟨0, 0xFFFFF, 0xA, false, 0, true, true, true⟩ := by
    rw [tables]
    exact kernelCode
  obtain ⟨desc, loaded, -⟩ := gdtInit_task .blank e.tssAddr top
  have task : loadTask s.tables.gdt 0x28 = some (desc, e.tssAddr) := by
    rw [tables]
    exact loaded
  have rsp0 : stackOf s.tables.tss.bits 0 = p.stackTop := by
    rw [tables]
    exact stackOf_bits _
  unfold Interrupts.deliver
  simp only [gate, segment, task, Option.bind_eq_bind, Option.bind_some]
  have lowest : (0 : BitVec 2).setWidth 64 ≤ cpl s.toCore := Nat.zero_le _
  rw [if_pos ⟨trivial, trivial, trivial, rfl, trivial, lowest, trivial⟩]
  have start : (if (0 : BitVec 3) ≠ 0 then stackOf s.tables.tss.bits (3 + (0 : BitVec 3).toNat)
      else if decide ((0 : BitVec 2).setWidth 64 < cpl s.toCore) = true then
        stackOf s.tables.tss.bits (0 : BitVec 2).toNat
      else s.reg .rsp) = s.start p := by
    rw [if_neg fun h => h rfl]
    unfold State.start cpl
    rcases h.mode with kernel | user
    · rw [kernel]
      rfl
    · rw [user]
      exact rsp0
  rw [start]
  exact ⟨_, rfl, rfl, rfl, rfl, rfl, rfl⟩

theorem alignMask_toNat (x : u64) : (x &&& ~~~0xF#64).toNat = x.toNat / 16 * 16 := by
  have mask : ∀ i, (~~~0xF#64).getLsbD i = (decide (4 ≤ i) && decide (i < 64)) := by
    intro i
    by_cases h : i < 64
    · have all : ∀ j : Fin 64,
          (~~~0xF#64).getLsbD j = (decide (4 ≤ j.val) && decide (j.val < 64)) := by decide
      exact all ⟨i, h⟩
    · rw [BitVec.getLsbD_of_ge _ _ (by omega)]
      simp [h]
  have shifted : x &&& ~~~0xF#64 = (x >>> 4) <<< 4 := by
    apply BitVec.eq_of_getLsbD_eq
    intro i hi
    rw [BitVec.getLsbD_and, mask]
    simp only [BitVec.getLsbD_shiftLeft, BitVec.getLsbD_ushiftRight]
    by_cases h : i < 4
    · simp [h]
    · simp [h, hi, show 4 + (i - 4) = i by omega, show 4 ≤ i by omega]
  have hx := x.isLt
  rw [shifted, BitVec.toNat_shiftLeft, BitVec.toNat_ushiftRight, Nat.shiftRight_eq_div_pow,
    Nat.shiftLeft_eq]
  omega

/-- The processor at the first instruction of `InterruptDispatch`, with the frame of the
program on the thread's stack. -/
structure Called (p : Place) (n : u8) (code : u64) (s : State T) (c : Core) : Prop where
  frame : Frame c.mem (c.reg .rdi) (Field.value s n code)
  below : c.reg .rsp = c.reg .rdi - 8
  aligned : (c.reg .rdi).toNat % 16 = 0
  masked : c.rflags.getLsbD 9 = false
  kernel : c.cs = 0x08
  room : 8 ≤ (c.reg .rdi - p.stackBase).toNat
  high : (c.reg .rdi - p.stackBase).toNat + 176 ≤ (s.start p - p.stackBase).toNat
  inside : (c.reg .rdi - p.stackBase).toNat + 176 ≤ p.stackSize.toNat
  above : Keeps p (s.start p) s.mem c.mem

/-- **`InterruptDispatch` is called on the frame**, and what it leaves goes on. -/
theorem Ready.called (h : Ready e p s) (code : u64) (hn : n.toNat < 48) (h21 : n ≠ 21)
    (h29 : n ≠ 29) :
    ∃ c : Core, Called p n code s c ∧ interrupt e n code s =
      (interruptDispatch e { s with toCore := c } (c.reg .rdi)).bind fun d =>
        run e { d with toCore := e.leave d.toCore } epilogue := by
  obtain ⟨c, delivered, reg, mem, rip, rflags, cs⟩ := h.deliver code hn
  obtain ⟨d, ran, mem', rsp, rdi, rflags', cs'⟩ :=
    run_prologue (e := e) s n code (pushesError_iff n h21 h29) reg mem
  have length : (frameWords s n code).length = 22 := rfl
  have sp : d.reg .rsp = s.aligned p - 176 :=
    rsp.trans (Switch.pushWords_sp (frameWords s n code) (s.mem, s.aligned p))
  have frame : Frame d.mem (d.reg .rsp) (Field.value s n code) := by
    let free : Bytes × u64 := (s.mem, s.aligned p)
    have words := @Switch.pushWords_words (frameWords s n code) [] free trivial
      (by rw [length]; decide)
    rw [← mem', ← rsp, List.append_nil, frameWords, List.reverse_reverse] at words
    exact words
  have top := alignMask_toNat (s.start p)
  change (s.aligned p).toNat = _ at top
  have room := h.room
  have inside := h.inside
  generalize s.aligned p = low at *
  have base : d.reg .rsp + 176 = low := by bv_omega
  have near : (low - p.stackBase).toNat ≤ (s.start p - p.stackBase).toNat ∧
      (s.start p - p.stackBase).toNat < (low - p.stackBase).toNat + 16 := by bv_omega
  have frameLow : (d.reg .rsp - p.stackBase).toNat + 176 = (low - p.stackBase).toNat := by bv_omega
  have rdi' : (d.pushWord e.returnAddress).reg .rdi = d.reg .rsp := rdi
  refine ⟨d.pushWord e.returnAddress, ?_, ?_⟩
  · constructor
    case frame =>
      have pushed := (frame.push (by rw [List.length_map]; decide) e.returnAddress).2
      rw [BitVec.sub_add_cancel] at pushed
      rw [rdi']
      exact pushed
    case masked =>
      show d.rflags.getLsbD 9 = false
      rw [rflags', rflags, BitVec.getLsbD_and]
      exact Bool.and_false _
    case kernel => exact cs'.trans cs
    case above =>
      intro a stack above
      unfold Place.InStack at stack
      have kept : d.mem a = s.mem a := by
        rw [mem']
        refine Switch.pushWords_off ?_
        rw [← rsp, length]
        bv_omega
      exact (Switch.write64_off _ (by bv_omega)).trans kept
    all_goals rw [rdi']
    case below => rfl
    case aligned => bv_omega
    case room => omega
    case high => omega
    case inside => omega
  · rw [interrupt, delivered, Option.bind_some]
    dsimp only
    rw [rip, h.linked n hn, isr_eq, run_append, ran, Option.bind_some, run_call]

/-! ## Interrupts -/

theorem Keeps.trans {sp : u64} {m m' m'' : Bytes} (h : Keeps p sp m m') (h' : Keeps p sp m' m'') :
    Keeps p sp m m'' := fun a stack above => (h' a stack above).trans (h a stack above)

theorem Keeps.mono {sp sp' : u64} {m m' : Bytes} (h : Keeps p sp m m')
    (le : (sp - p.stackBase).toNat ≤ (sp' - p.stackBase).toNat) : Keeps p sp' m m' :=
  fun a stack above => h a stack (le.trans above)

/-- A frame on the stack stays when what is above it stays. -/
theorem Keeps.frame {m m' : Bytes} {a : u64} (keeps : Keeps p a m m') (h : Frame m a v)
    (inside : (a - p.stackBase).toNat + 176 ≤ p.stackSize.toNat) : Frame m' a v := by
  have size := p.stackSize.isLt
  have length : (layout.map v).length = 22 := List.length_map v
  refine h.congr (by rw [length]; decide) fun x hx => keeps x ?_ ?_
  · rw [length] at hx
    exact Place.inStack_of_le inside hx
  · rw [length] at hx
    bv_omega

theorem Called.return_address {c : Core} (called : Called p n code s c) :
    c.reg .rsp + 8 = c.reg .rdi := by
  rw [called.below]
  exact BitVec.sub_add_cancel _ _

/-- What `InterruptDispatch` returns with, on the frame that it was called on. -/
theorem Called.returns {c : Core} {d : State T} (called : Called p n code s c)
    (conforms : e.Conforms p) (rsp : d.reg .rsp = c.reg .rsp) (frame : Frame d.mem (c.reg .rdi) v) :
    run e { d with toCore := e.leave d.toCore } epilogue =
      some { d with toCore := resume v (e.leave d.toCore).mem } := by
  obtain ⟨left, kept⟩ := conforms.leave d.toCore
  have sp : d.reg .rsp + 8 = c.reg .rdi := by
    rw [rsp]
    exact called.return_address
  rw [sp] at left kept
  refine run_epilogue ?_
  show Frame (e.leave d.toCore).mem ((e.leave d.toCore).reg .rsp) v
  rw [left]
  exact kept.frame frame called.inside

/-- **A hardware interrupt** calls the handler of its line, with the controllers told before,
and the program goes on as it was. -/
theorem Ready.irq (h : Ready e p s) (conforms : e.Conforms p) (code : u64) (hn : n.toNat < 48)
    (line : 32 ≤ n.toNat) : ∃ c : Core, Called p n code s c ∧ ∃ d : State T,
      d = e.handlers (n - 32)
        { s with toCore := c, ports := s.ports ++ picSendEoi (n - 32) } ∧
      interrupt e n code s =
        some { d with toCore := { s.toCore with mem := (e.leave d.toCore).mem } } ∧
      Keeps p (s.start p) s.mem (e.leave d.toCore).mem := by
  obtain ⟨c, called, eq⟩ := h.called code hn (by bv_omega) (by bv_omega)
  have vec : State.field { s with toCore := c } (c.reg .rdi) .vector = n.setWidth 64 :=
    called.frame.read .vector
  have dispatched : interruptDispatch e { s with toCore := c } (c.reg .rdi) =
      some (e.handlers (n - 32) { s with toCore := c, ports := s.ports ++ picSendEoi (n - 32) }) := by
    have number : (n.setWidth 64 - 32 : u64).setWidth 8 = n - 32 := by bv_omega
    unfold interruptDispatch irqDispatch
    dsimp only
    rw [vec, if_neg (by bv_omega), if_pos (by bv_omega), number, if_neg (by bv_omega)]
  obtain ⟨rsp, kept⟩ := conforms.handler (n - 32)
    { s with toCore := c, ports := s.ports ++ picSendEoi (n - 32) }
  generalize hd : e.handlers (n - 32) _ = d at rsp kept dispatched
  have room := called.room
  have low : (c.reg .rsp - p.stackBase).toNat ≤ (c.reg .rdi - p.stackBase).toNat := by
    rw [called.below]
    bv_omega
  have framed : Frame d.mem (c.reg .rdi) (Field.value s n code) :=
    (kept.mono low).frame called.frame called.inside
  refine ⟨c, called, d, hd.symm, ?_, ?_⟩
  · rw [eq, dispatched, Option.bind_some, called.returns conforms rsp framed, resume_value]
  · obtain ⟨-, left⟩ := conforms.leave d.toCore
    have back : d.reg .rsp + 8 = c.reg .rdi := by
      rw [rsp]
      exact called.return_address
    rw [back] at left
    have top : (c.reg .rdi - p.stackBase).toNat ≤ (s.start p - p.stackBase).toNat :=
      (Nat.le_add_right _ _).trans called.high
    exact (called.above.trans (kept.mono (low.trans top))).trans (left.mono top)

/-- The thread that takes a fault itself, and its handler. -/
def State.taker (s : State T) : Option (T × u64) :=
  if s.cs &&& 3 ≠ 3 then none
  else
    match s.current with
    | none => none
    | some t => if s.exceptionHandler t = 0 then none else some (t, s.exceptionHandler t)

/-- The program that goes on in its handler. -/
def State.redirected (s : State T) (t : T) (handler status : u64) (m : Bytes) : State T :=
  { s with
    toCore :=
      { s.toCore with
        mem := m
        rip := handler
        reg := Function.update (Function.update s.reg .rdi status) .rsi s.rip }
    exceptionHandler := Function.update s.exceptionHandler t 0
    sehDelivered := 1 }

/-- What `DeliverUserException` does to a frame. -/
def redirect (v : Field → u64) (handler status : u64) : Field → u64 :=
  Function.update (Function.update (Function.update v .rdi status) .rsi (v .rip)) .rip handler

theorem resume_redirect (s : State T) (n : u8) (code handler status : u64) (m : Bytes) :
    resume (redirect (Field.value s n code) handler status) m =
      { s.toCore with
        mem := m
        rip := handler
        reg := Function.update (Function.update s.reg .rdi status) .rsi s.rip } := by
  unfold resume
  congr 1
  funext r
  cases r <;> rfl

/-- **`DeliverUserException`** asks the frame for the mode of the program, and changes it if
the thread has a handler. -/
theorem Called.deliverUserException {c : Core} (called : Called p n code s c) (status : u64) :
    match s.taker with
    | none => Interrupts.deliverUserException { s with toCore := c } (c.reg .rdi) status = none
    | some (t, handler) => ∃ m : Bytes,
      Interrupts.deliverUserException { s with toCore := c } (c.reg .rdi) status =
        some
          { s with
            toCore := { c with mem := m }
            exceptionHandler := Function.update s.exceptionHandler t 0
            sehDelivered := 1 } ∧
      Frame m (c.reg .rdi) (redirect (Field.value s n code) handler status) := by
  have cs : State.field { s with toCore := c } (c.reg .rdi) .cs = s.cs := called.frame.read .cs
  unfold State.taker Interrupts.deliverUserException
  rw [cs]
  by_cases user : s.cs &&& 3 = 3
  case neg =>
    rw [if_pos user, if_pos user]
  case pos =>
    rw [if_neg (not_not_intro user), if_neg (not_not_intro user)]
    dsimp only
    cases s.current with
    | none => rfl
    | some t =>
      dsimp only
      by_cases none : s.exceptionHandler t = 0
      · rw [if_pos none, if_pos none]
      · rw [if_neg none, if_neg none]
        have first := called.frame.write .rdi status
        have fault : read64 (write64 c.mem (Field.address (c.reg .rdi) .rdi) status)
            (Field.address (c.reg .rdi) .rip) = s.rip := first.read .rip
        refine ⟨_, ?_, (first.write .rsi s.rip).write .rip (s.exceptionHandler t)⟩
        unfold State.setField State.field
        dsimp only
        rw [fault]

theorem exceptionDispatch_eq (c : State T) (frame : u64) (exception : c.field frame .vector < 32) :
    interruptDispatch e c frame =
      deliverUserException c frame (exceptionStatus (c.field frame .vector)) := by
  unfold interruptDispatch vmmHandlePageFault
  dsimp only
  rw [if_pos exception]
  split
  · exact if_neg Bool.false_ne_true
  · rfl

/-- **An exception** goes to the handler of the thread that raised it in user mode, once, and
stops the kernel otherwise. -/
theorem Ready.exception (h : Ready e p s) (conforms : e.Conforms p) (code : u64)
    (exception : n.toNat < 32) (h21 : n ≠ 21) (h29 : n ≠ 29) :
    match s.taker with
    | none => interrupt e n code s = none
    | some (t, handler) => ∃ m : Bytes,
      interrupt e n code s = some (s.redirected t handler (exceptionStatus (n.setWidth 64)) m) := by
  obtain ⟨c, called, eq⟩ := h.called code (by omega) h21 h29
  have vec : State.field { s with toCore := c } (c.reg .rdi) .vector = n.setWidth 64 :=
    called.frame.read .vector
  have dispatched := exceptionDispatch_eq (e := e) { s with toCore := c } (c.reg .rdi)
    (by rw [vec]; bv_omega)
  rw [vec] at dispatched
  rw [dispatched] at eq
  have delivered := called.deliverUserException (exceptionStatus (n.setWidth 64))
  cases taker : s.taker with
  | none =>
    rw [taker] at delivered
    dsimp only at delivered ⊢
    rw [eq, delivered]
    rfl
  | some taken =>
    obtain ⟨t, handler⟩ := taken
    rw [taker] at delivered
    obtain ⟨m, delivered, frame⟩ := delivered
    have back := called.returns
      (d :=
        { s with
          toCore := { c with mem := m }
          exceptionHandler := Function.update s.exceptionHandler t 0
          sehDelivered := 1 })
      conforms rfl frame
    refine ⟨(e.leave { c with mem := m }).mem, ?_⟩
    rw [eq, delivered, Option.bind_some, back, resume_redirect]
    rfl

/-- The program can be interrupted again. -/
theorem Ready.congr {s' : State T} (h : Ready e p s) (tables : s'.tables = s.tables)
    (cs : s'.cs = s.cs) (rsp : s'.reg .rsp = s.reg .rsp) : Ready e p s' := by
  have start : s'.start p = s.start p := by
    unfold State.start
    rw [cs, rsp]
  refine ⟨h.linked, ?_, ?_, ?_, ?_⟩
  · rw [tables]
    exact h.tables
  · rw [cs]
    exact h.mode
  · rw [start]
    exact h.room
  · rw [start]
    exact h.inside

/-- Interrupts that follow one another, before the program's next instruction. -/
def interrupts (e : Env T) : List (u8 × u64) → State T → Option (State T)
  | [], s => some s
  | i :: is, s => (interrupt e i.1 i.2 s).bind (interrupts e is)

/-- The vectors of the sixteen lines. -/
def IsLine (n : u8) : Prop := 32 ≤ n.toNat ∧ n.toNat < 48

instance (n : u8) : Decidable (IsLine n) := inferInstanceAs (Decidable (_ ∧ _))

theorem Ready.irqs (h : Ready e p s) (conforms : e.Conforms p) {is : List (u8 × u64)}
    (lines : ∀ i ∈ is, IsLine i.1) : ∃ s', interrupts e is s = some s' ∧ Ready e p s' ∧
      s'.toCore = { s.toCore with mem := s'.mem } ∧ Keeps p (s.start p) s.mem s'.mem := by
  induction is generalizing s with
  | nil => exact ⟨s, rfl, h, rfl, fun _ _ _ => rfl⟩
  | cons i is ih =>
    obtain ⟨line, bound⟩ := lines i (List.mem_cons_self ..)
    obtain ⟨c, -, d, hd, first, kept⟩ := h.irq conforms i.2 bound line
    have ready : Ready e p { d with toCore := { s.toCore with mem := (e.leave d.toCore).mem } } :=
      h.congr (hd ▸ conforms.tables _ _) rfl rfl
    obtain ⟨s', rest, ready', core, kept'⟩ := ih ready fun j m => lines j (List.mem_cons_of_mem i m)
    refine ⟨s', ?_, ready', core, kept.trans kept'⟩
    rw [interrupts, first]
    exact rest

/-- **Hardware interrupts are transparent**: however many come before the program's next
instruction, in user mode or in the kernel, the program goes on with all its registers and
its stack as they were, and the next one calls the handler of its own line, on a frame that
holds the program and with the controllers told before. -/
theorem irqs_transparent (h : Ready e p s) (conforms : e.Conforms p) (is : List (u8 × u64))
    (lines : ∀ i ∈ is, IsLine i.1) : ∃ s', interrupts e is s = some s' ∧
      s'.toCore = { s.toCore with mem := s'.mem } ∧ Keeps p (s.start p) s.mem s'.mem ∧
      ∀ n code, IsLine n → ∃ c : Core, Called p n code s' c ∧ ∃ d m,
        d = e.handlers (n - 32)
          { s' with toCore := c, ports := s'.ports ++ picSendEoi (n - 32) } ∧
        interrupt e n code s' = some { d with toCore := { s.toCore with mem := m } } := by
  obtain ⟨s', ran, ready, core, kept⟩ := h.irqs conforms lines
  refine ⟨s', ran, core, kept, fun n code line => ?_⟩
  obtain ⟨c, called, d, hd, eq, -⟩ := ready.irq conforms code line.2 line.1
  exact ⟨c, called, d, _, hd, eq.trans (by rw [core])⟩

/-- Stubs side by side, and handlers that return at once. -/
def sideBySide : Env Bool where
  isrs n := 0x100000 + 16 * n.setWidth 64
  code a := isr (((a - 0x100000) >>> 4).setWidth 8)
  tssAddr := 0x108000
  returnAddress := 0x109000
  cr2 := 0
  handlers _ s := s
  leave c := c.set .rsp (c.reg .rsp + 8)

def oneStack : Place := ⟨0x1000, 0x10000, 0x4000⟩

/-- A thread in user mode that has set a handler. -/
def spinning : State Bool where
  reg r := if r = .rsp then 0x7FFF0000 else 7
  mem _ := 0
  rip := 0x400000
  rflags := 0x202
  cs := 0x23
  ss := 0x1B
  tables := setTSSRsp0 (idtInit (gdtInit .blank 0x108000 0x9000) sideBySide.isrs) 0x14000
  current := some true
  exceptionHandler _ := 0x401000
  sehDelivered := 0
  ports := []

theorem spinning_ready : Ready sideBySide oneStack spinning where
  linked n _ := by
    have back : ((0x100000 + 16 * n.setWidth 64 - 0x100000 : u64) >>> 4).setWidth 8 = n := by
      bv_omega
    exact congrArg isr back
  tables := ⟨0x9000, rfl⟩
  mode := .inr (by decide)
  room := by decide
  inside := by decide

theorem sideBySide_conforms : sideBySide.Conforms oneStack where
  handler _ _ := ⟨rfl, fun _ _ _ => rfl⟩
  tables _ _ := rfl
  leave _ := ⟨rfl, fun _ _ _ => rfl⟩

/-- The timer and the keyboard. -/
theorem irqs_transparent_two : ∃ s', interrupts sideBySide [(32, 0), (33, 0)] spinning = some s' ∧
    s'.rip = 0x400000 ∧ s'.reg .rsp = 0x7FFF0000 ∧ s'.reg .rax = 7 := by
  obtain ⟨s', ran, core, -⟩ := irqs_transparent spinning_ready sideBySide_conforms
    [(32, 0), (33, 0)] (by simp [IsLine])
  exact ⟨s', ran, congrArg Core.rip core, congrFun (congrArg Core.reg core) .rsp,
    congrFun (congrArg Core.reg core) .rax⟩

end MicroNT.Interrupts
