import MicroNT.Ntdef
import Mathlib.Logic.Function.Basic

/-! # System call entry (`syscall_entry.asm`, `SetTSSRsp0`)

The assembly stub, one instruction at a time, over the bytes of memory. What
`KiSystemCall` does between the stub's `call` and the next instruction, other
threads that run meanwhile included, is a list of turns of which only the
calling convention is known; an interrupt may come after every instruction that
leaves IF set. -/

namespace MicroNT.Syscall

/-! ## Words in a byte memory -/

abbrev Bytes := u64 → u8

def byteOf (v : u64) (i : Nat) : u8 := (v >>> (8 * i)).setWidth 8

def read64 (m : Bytes) (a : u64) : u64 :=
  m (a + 7#64) ++ (m (a + 6#64) ++ (m (a + 5#64) ++ (m (a + 4#64) ++
    (m (a + 3#64) ++ (m (a + 2#64) ++ (m (a + 1#64) ++ m a))))))

def write64 (m : Bytes) (a v : u64) : Bytes := fun x =>
  if (x - a).toNat < 8 then byteOf v (x - a).toNat else m x

/-- Two words that share no byte, in an address space that wraps. -/
def Apart (a b : u64) : Prop := 8 ≤ (a - b).toNat ∧ 8 ≤ (b - a).toNat

theorem Apart.symm {a b : u64} (h : Apart a b) : Apart b a := ⟨h.2, h.1⟩

theorem sub_sub_sub (t i j : u64) : t - i - (t - j) = j - i := by
  bv_omega

/-- Two pushes of one stack. -/
theorem apart_pushed (t : u64) {i j : u64} (h : 8 ≤ (j - i).toNat) (h' : 8 ≤ (i - j).toNat) :
    Apart (t - i) (t - j) := by
  unfold Apart
  rw [sub_sub_sub, sub_sub_sub]
  exact ⟨h, h'⟩

theorem bytes_of_word (v : u64) :
    byteOf v 7 ++ (byteOf v 6 ++ (byteOf v 5 ++ (byteOf v 4 ++
      (byteOf v 3 ++ (byteOf v 2 ++ (byteOf v 1 ++ byteOf v 0)))))) = v := by
  unfold byteOf
  apply BitVec.eq_of_getLsbD_eq
  intro i hi
  simp only [BitVec.getLsbD_append, BitVec.getLsbD_setWidth, BitVec.getLsbD_ushiftRight]
  grind

/-- A word reads the same in two memories that agree on its bytes. -/
theorem read64_congr {m m' : Bytes} {a : u64}
    (h : ∀ x, (x - a).toNat < 8 → m' x = m x) : read64 m' a = read64 m a := by
  have byte : ∀ k : u64, k.toNat < 8 → m' (a + k) = m (a + k) := by
    intro k hk
    apply h
    rw [show a + k - a = k by rw [BitVec.add_comm, BitVec.add_sub_cancel]]
    exact hk
  unfold read64
  rw [byte 7#64 (by decide), byte 6#64 (by decide), byte 5#64 (by decide), byte 4#64 (by decide),
    byte 3#64 (by decide), byte 2#64 (by decide), byte 1#64 (by decide), h a (by simp)]

@[simp] theorem read64_write64_same (m : Bytes) (a v : u64) :
    read64 (write64 m a v) a = v := by
  have byte : ∀ k : u64, k.toNat < 8 → write64 m a v (a + k) = byteOf v k.toNat := by
    intro k hk
    unfold write64
    rw [show a + k - a = k by rw [BitVec.add_comm, BitVec.add_sub_cancel], if_pos hk]
  unfold read64
  rw [byte 7#64 (by decide), byte 6#64 (by decide), byte 5#64 (by decide), byte 4#64 (by decide),
    byte 3#64 (by decide), byte 2#64 (by decide), byte 1#64 (by decide)]
  have first : write64 m a v a = byteOf v 0 := by
    have h := byte 0#64 (by decide)
    rw [BitVec.add_zero] at h
    exact h
  rw [first]
  exact bytes_of_word v

theorem read64_write64_apart {a b : u64} (h : Apart a b) (m : Bytes) (v : u64) :
    read64 (write64 m b v) a = read64 m a := by
  apply read64_congr
  intro x hx
  unfold write64
  rw [if_neg]
  obtain ⟨h₁, h₂⟩ := h
  bv_omega

/-! ## The processor -/

inductive Reg
  | rax | rcx | rdx | rsi | rdi | rsp | r8 | r9 | r10 | r11
  deriving DecidableEq

/-- The variables the stub names: its own scratch word and two of the kernel's. -/
inductive Var
  | sUserRsp | gKernelRsp0 | gPendingExceptionVa
  deriving DecidableEq

/-- The instructions of the stub, one constructor for each operand form. -/
inductive Instr
  | mov (dst src : Reg)
  | movFrom (dst : Reg) (src : Var)
  | movTo (dst : Var) (src : Reg)
  | movImm (dst : Var) (imm : u64)
  | push (src : Reg)
  | pushVar (src : Var)
  | pop (dst : Reg)
  | sti
  | cli
  | callKiSystemCall
  | test (r : Reg)
  | jz (target : Nat)
  | sysret

/-- What C code and other threads may change: the registers and the memory. -/
structure Core where
  reg : Reg → u64
  mem : Bytes

/-- Where the linker put things, the current thread's kernel stack, and what
runs while the stub is not in control. -/
structure Env where
  addr : Var → u64
  returnAddress : u64
  kernelStackBase : u64
  kernelStackSize : u64
  turns : List (Core → Core)
  leave : Core → Core
  irq : Core → Bytes

def Env.kernelStackTop (e : Env) : u64 := e.kernelStackBase + e.kernelStackSize

/-- `KiSystemCall` up to its `ret`: its own code and that of other threads, in
the order in which the processor gets to it. -/
def Env.kiSystemCall (e : Env) (c : Core) : Core :=
  e.leave (e.turns.foldl (fun c turn => turn c) c)

/-- What ring 3 finds after `sysret`. -/
structure Returned where
  rip : u64
  rflags : u64
  rsp : u64
  rax : u64

structure Cpu extends Core where
  pc : Nat
  zf : Bool
  intr : Bool
  /-- The words the stub has stored to, the first one first. -/
  written : List u64
  /-- The registers `KiSystemCall` was called with. -/
  called : Option (Reg → u64)
  /-- What `KiSystemCall` left in RAX. -/
  result : u64
  returned : Option Returned

/-- `syscall_entry`. The target of the jump is the index of `.no_exception`. -/
def syscallEntry : List Instr :=
  [ .movTo .sUserRsp .rsp,
    .movFrom .rsp .gKernelRsp0,
    .pushVar .sUserRsp,
    .push .rcx,
    .push .r11,
    .sti,
    .mov .r9 .r8,
    .mov .r8 .r10,
    .mov .rcx .rdx,
    .mov .rdx .rsi,
    .mov .rsi .rdi,
    .mov .rdi .rax,
    .callKiSystemCall,
    .cli,
    .pop .r11,
    .pop .rcx,
    .pop .rsp,
    .push .rax,
    .movFrom .rax .gPendingExceptionVa,
    .test .rax,
    .jz 23,
    .movImm .gPendingExceptionVa 0,
    .mov .rcx .rax,
    .pop .rax,
    .sysret ]

def Cpu.set (c : Cpu) (r : Reg) (v : u64) : Cpu :=
  { c with reg := Function.update c.reg r v }

/-- A store of the stub itself. -/
def Cpu.store (c : Cpu) (a v : u64) : Cpu :=
  { c with mem := write64 c.mem a v, written := c.written ++ [a] }

def Cpu.pushWord (c : Cpu) (v : u64) : Cpu :=
  (c.store (c.reg .rsp - 8) v).set .rsp (c.reg .rsp - 8)

def Cpu.next (c : Cpu) : Cpu := { c with pc := c.pc + 1 }

/-- One instruction. `call` pushes the return address and runs the callee, whose
`ret` is the end of its last turn. -/
def exec (e : Env) (c : Cpu) : Instr → Cpu
  | .mov d s => (c.set d (c.reg s)).next
  | .movFrom d v => (c.set d (read64 c.mem (e.addr v))).next
  | .movTo v s => (c.store (e.addr v) (c.reg s)).next
  | .movImm v imm => (c.store (e.addr v) imm).next
  | .push s => (c.pushWord (c.reg s)).next
  | .pushVar v => (c.pushWord (read64 c.mem (e.addr v))).next
  | .pop d => ((c.set .rsp (c.reg .rsp + 8)).set d (read64 c.mem (c.reg .rsp))).next
  | .sti => { c with intr := true }.next
  | .cli => { c with intr := false }.next
  | .callKiSystemCall =>
    let core := e.kiSystemCall (c.pushWord e.returnAddress).toCore
    { c.pushWord e.returnAddress with
      toCore := core, called := some c.reg, result := core.reg .rax }.next
  | .test r => { c with zf := decide (c.reg r = 0) }.next
  | .jz target => if c.zf then { c with pc := target } else c.next
  | .sysret =>
    { c with returned := some ⟨c.reg .rcx, c.reg .r11, c.reg .rsp, c.reg .rax⟩ }.next

/-- An instruction, and the interrupt that may follow it. The handler gives the
registers back as they were. -/
def step (e : Env) (c : Cpu) : Cpu :=
  match syscallEntry[c.pc]? with
  | none => c
  | some i =>
    let d := exec e c i
    if d.intr then { d with mem := e.irq d.toCore } else d

def run (e : Env) : Nat → Cpu → Cpu
  | 0, c => c
  | n + 1, c => run e n (step e c)

/-- `MSR_SFMASK` as `SYSCALL::Init` sets it: IF, TF and DF. -/
def sfmask : u64 := (1#64 <<< 9) ||| (1#64 <<< 8) ||| (1#64 <<< 10)

/-- The user's registers at `SYSCALL`, with the address it returns to. -/
structure Caller where
  reg : Reg → u64
  rip : u64
  rflags : u64

/-- The processor at the stub's first instruction. -/
def enter (u : Caller) (m : Bytes) : Cpu where
  reg := Function.update (Function.update u.reg .rcx u.rip) .r11 u.rflags
  mem := m
  pc := 0
  zf := false
  intr := (u.rflags &&& ~~~sfmask).getLsbD 9
  written := []
  called := none
  result := 0
  returned := none

/-- The stub from its first instruction to `sysret`. -/
def systemCall (e : Env) (u : Caller) (m : Bytes) : Cpu :=
  run e syscallEntry.length (enter u m)

/-- The processor after the `cli` that follows the call. -/
def afterCall (e : Env) (u : Caller) (m : Bytes) : Cpu := run e 14 (enter u m)

/-- `SetTSSRsp0`, for the copy of RSP0 that the stub reads. -/
def setTSSRsp0 (e : Env) (m : Bytes) (rsp0 : u64) : Bytes :=
  write64 m (e.addr .gKernelRsp0) rsp0

/-! ## What a system call should do -/

/-- Number and arguments in the registers of the `SYSCALL` convention. -/
def syscallArgs (r : Reg → u64) : List u64 := [r .rax, r .rdi, r .rsi, r .rdx, r .r10, r .r8]

/-- The parameters `number, a1, .., a5` of `KiSystemCall` by the C convention. -/
def parameters (r : Reg → u64) : List u64 := [r .rdi, r .rsi, r .rdx, r .rcx, r .r8, r .r9]

/-- The word lies in the current thread's kernel stack. -/
def Env.InStack (e : Env) (a : u64) : Prop :=
  (a - e.kernelStackBase).toNat + 8 ≤ e.kernelStackSize.toNat

/-- The words the stub has any business to write. -/
def Env.Own (e : Env) (a : u64) : Prop :=
  e.InStack a ∨ a = e.addr .sUserRsp ∨ a = e.addr .gPendingExceptionVa

def Caller.withRsp (u : Caller) (rsp : u64) : Caller :=
  { u with reg := Function.update u.reg .rsp rsp }

/-- A system call that serves its caller and touches kernel memory only: for no
other RSP of the caller does the stub's `k`-th store go to another address. -/
structure Correct (e : Env) (u : Caller) (m : Bytes) : Prop where
  arguments : ∃ r, (systemCall e u m).called = some r ∧ parameters r = syscallArgs u.reg
  returns : read64 (afterCall e u m).mem (e.addr .gPendingExceptionVa) = 0 →
    (systemCall e u m).returned =
      some ⟨u.rip, u.rflags, u.reg .rsp, (systemCall e u m).result⟩
  confined : ∀ a ∈ (systemCall e u m).written, e.Own a
  independent : ∀ (rsp : u64) (k : Nat) (a b : u64),
    (systemCall e u m).written[k]? = some a →
    (systemCall e (u.withRsp rsp) m).written[k]? = some b → a = b

/-! ## The calling convention -/

/-- The three words that the stub keeps on the kernel stack across the call. -/
def Env.KeepsFrame (e : Env) (m m' : Bytes) : Prop :=
  ∀ a, (a - (e.kernelStackTop - 24)).toNat < 24 → m' a = m a

/-- RSP as it is while the thread is in `KiSystemCall`. -/
def Env.Inside (e : Env) (c : Core) : Prop :=
  (c.reg .rsp - e.kernelStackBase).toNat + 32 ≤ e.kernelStackSize.toNat

/-- The calling convention, for `KiSystemCall` and however many turns of other
threads it takes, and for the interrupt handlers: nothing of the stub's part of
the kernel stack changes, and `ret` finds RSP where `call` left it. -/
structure Env.Conforms (e : Env) : Prop where
  scratch : Apart (e.addr .sUserRsp) (e.addr .gKernelRsp0)
  room : 32 ≤ e.kernelStackSize.toNat
  turn : ∀ turn ∈ e.turns, ∀ c, e.Inside c → e.Inside (turn c) ∧ e.KeepsFrame c.mem (turn c).mem
  leave : ∀ c, e.Inside c →
    (e.leave c).reg .rsp = e.kernelStackTop - 24 ∧ e.KeepsFrame c.mem (e.leave c).mem
  irq : ∀ c, c.reg .rsp = e.kernelStackTop - 24 → e.KeepsFrame c.mem (e.irq c)

theorem Env.KeepsFrame.trans {e : Env} {m m' m'' : Bytes} (h : e.KeepsFrame m m')
    (h' : e.KeepsFrame m' m'') : e.KeepsFrame m m'' :=
  fun a ha => (h' a ha).trans (h a ha)

/-- However often the thread is switched away and back, its frame is kept. -/
theorem Env.Conforms.turns {e : Env} (h : e.Conforms) (c : Core) (hc : e.Inside c) :
    e.Inside (e.turns.foldl (fun c turn => turn c) c) ∧
      e.KeepsFrame c.mem (e.turns.foldl (fun c turn => turn c) c).mem := by
  have all := h.turn
  generalize e.turns = l at all ⊢
  induction l generalizing c with
  | nil => exact ⟨hc, fun _ _ => rfl⟩
  | cons f l ih =>
    obtain ⟨hf, kf⟩ := all f (List.mem_cons_self ..) c hc
    obtain ⟨hl, kl⟩ := ih (f c) hf (fun g hg => all g (List.mem_cons_of_mem f hg))
    exact ⟨hl, kf.trans kl⟩

theorem Env.Conforms.kiSystemCall {e : Env} (h : e.Conforms) (c : Core) (hc : e.Inside c) :
    (e.kiSystemCall c).reg .rsp = e.kernelStackTop - 24 ∧
      e.KeepsFrame c.mem (e.kiSystemCall c).mem := by
  obtain ⟨ht, kt⟩ := h.turns c hc
  obtain ⟨hl, kl⟩ := h.leave _ ht
  exact ⟨hl, kt.trans kl⟩

/-- The caller's RSP, RIP and RFLAGS are in the frame. -/
structure Saved (e : Env) (u : Caller) (m : Bytes) : Prop where
  rsp : read64 m (e.kernelStackTop - 8) = u.reg .rsp
  rip : read64 m (e.kernelStackTop - 16) = u.rip
  rflags : read64 m (e.kernelStackTop - 24) = u.rflags

theorem Env.KeepsFrame.read64 {e : Env} {m m' : Bytes} (h : e.KeepsFrame m m') {a : u64}
    (ha : (a - (e.kernelStackTop - 24)).toNat ≤ 16) :
    Syscall.read64 m' a = Syscall.read64 m a := by
  apply read64_congr
  intro x hx
  apply h
  generalize e.kernelStackTop - 24 = base at *
  bv_omega

theorem Saved.keep {e : Env} {u : Caller} {m m' : Bytes} (s : Saved e u m)
    (h : e.KeepsFrame m m') : Saved e u m' where
  rsp := by rw [h.read64 (by bv_omega), s.rsp]
  rip := by rw [h.read64 (by bv_omega), s.rip]
  rflags := by rw [h.read64 (by bv_omega), s.rflags]

/-! ## One run of the stub -/

theorem run_add (e : Env) (n k : Nat) (c : Cpu) : run e (n + k) c = run e k (run e n c) := by
  induction n generalizing c with
  | zero => rw [Nat.zero_add]; rfl
  | succ n ih => rw [Nat.succ_add]; exact ih (step e c)

/-- Instructions that go on to the next one and leave IF alone. -/
def Instr.plain : Instr → Bool
  | .sti | .cli | .callKiSystemCall | .jz _ => false
  | _ => true

theorem exec_plain (e : Env) (c : Cpu) {i : Instr} (h : i.plain = true) :
    (exec e c i).pc = c.pc + 1 ∧ (exec e c i).intr = c.intr := by
  cases i with
  | sti | cli | callKiSystemCall | jz => simp [Instr.plain] at h
  | _ => exact ⟨rfl, rfl⟩

/-- With interrupts off a step is the instruction and no more. -/
theorem step_quiet {e : Env} {c : Cpu} (i : Instr) (h : syscallEntry[c.pc]? = some i)
    (hi : (exec e c i).intr = false) : step e c = exec e c i := by
  unfold step
  rw [h]
  simp [hi]

theorem step_open {e : Env} {c : Cpu} (i : Instr) (h : syscallEntry[c.pc]? = some i)
    (hi : (exec e c i).intr = true) :
    step e c = { exec e c i with mem := e.irq (exec e c i).toCore } := by
  unfold step
  rw [h]
  simp [hi]

/-- The next instruction, and what is left of the code after it. -/
theorem code_cons {n : Nat} {i : Instr} {l : List Instr} (h : syscallEntry.drop n = i :: l) :
    syscallEntry[n]? = some i ∧ syscallEntry.drop (n + 1) = l := by
  constructor
  · rw [← Nat.add_zero n, ← List.getElem?_drop, h]
    rfl
  · rw [← List.tail_drop, h]
    rfl

/-- A block of plain instructions, run with interrupts off. -/
theorem run_block (e : Env) (l rest : List Instr) (c : Cpu)
    (code : syscallEntry.drop c.pc = l ++ rest) (plain : ∀ i ∈ l, i.plain = true)
    (hi : c.intr = false) : run e l.length c = l.foldl (exec e) c := by
  induction l generalizing c with
  | nil => rfl
  | cons i l ih =>
    obtain ⟨at_, tail⟩ := code_cons code
    obtain ⟨hpc, hintr⟩ := exec_plain e c (plain i (List.mem_cons_self ..))
    have first : step e c = exec e c i := step_quiet i at_ (hintr.trans hi)
    show run e l.length (step e c) = l.foldl (exec e) (exec e c i)
    rw [first]
    apply ih _ _ (fun j hj => plain j (List.mem_cons_of_mem i hj)) (hintr.trans hi)
    rw [hpc, tail]
    rfl

/-- SFMASK takes IF away, whatever the caller's flags are. -/
theorem enter_intr (u : Caller) (m : Bytes) : (enter u m).intr = false := by
  show (u.rflags &&& ~~~sfmask).getLsbD 9 = false
  rw [BitVec.getLsbD_and, show (~~~sfmask).getLsbD 9 = false by decide, Bool.and_false]

/-- The stub at `sti`: on the kernel stack, the caller's three words saved. -/
structure AtSti (e : Env) (u : Caller) (c : Cpu) : Prop where
  pc : c.pc = 5
  intr : c.intr = false
  rsp : c.reg .rsp = e.kernelStackTop - 24
  args : ∀ r, r ≠ .rsp → r ≠ .rcx → r ≠ .r11 → c.reg r = u.reg r
  saved : Saved e u c.mem
  written : c.written =
    [e.addr .sUserRsp, e.kernelStackTop - 8, e.kernelStackTop - 16, e.kernelStackTop - 24]

theorem atSti {e : Env} (h : e.Conforms) {u : Caller} {m : Bytes}
    (top : read64 m (e.addr .gKernelRsp0) = e.kernelStackTop) :
    AtSti e u (run e 5 (enter u m)) := by
  have stack : read64 (write64 m (e.addr .sUserRsp) (u.reg .rsp)) (e.addr .gKernelRsp0) =
      e.kernelStackTop := by
    rw [read64_write64_apart h.scratch.symm, top]
  have e₁ : e.kernelStackTop - 8#64 - 8#64 = e.kernelStackTop - 16#64 := by
    rw [BitVec.sub_sub]; rfl
  have e₂ : e.kernelStackTop - 16#64 - 8#64 = e.kernelStackTop - 24#64 := by
    rw [BitVec.sub_sub]; rfl
  have block := run_block e [.movTo .sUserRsp .rsp, .movFrom .rsp .gKernelRsp0,
    .pushVar .sUserRsp, .push .rcx, .push .r11] _ (enter u m) rfl (by decide) (enter_intr u m)
  rw [show run e 5 (enter u m) = _ from block]
  have state : List.foldl (exec e) (enter u m) [.movTo .sUserRsp .rsp, .movFrom .rsp .gKernelRsp0,
      .pushVar .sUserRsp, .push .rcx, .push .r11] =
      { enter u m with
        reg := Function.update (enter u m).reg .rsp (e.kernelStackTop - 24)
        mem := write64 (write64 (write64 (write64 m (e.addr .sUserRsp) (u.reg .rsp))
          (e.kernelStackTop - 8) (u.reg .rsp)) (e.kernelStackTop - 16) u.rip)
          (e.kernelStackTop - 24) u.rflags
        pc := 5
        written := [e.addr .sUserRsp, e.kernelStackTop - 8, e.kernelStackTop - 16,
          e.kernelStackTop - 24] } := by
    simp [exec, Cpu.next, Cpu.pushWord, Cpu.set, Cpu.store, enter, stack, e₁, e₂]
  rw [state]
  constructor
  case pc => rfl
  case intr => exact enter_intr u m
  case rsp => exact Function.update_self Reg.rsp _ (enter u m).reg
  case args =>
    intro r h₁ h₂ h₃
    simp [enter, h₁, h₂, h₃]
  case written => rfl
  case saved =>
    constructor
    case rflags => exact read64_write64_same _ _ _
    case rip =>
      show read64 (write64 _ _ _) _ = _
      rw [read64_write64_apart (apart_pushed _ (by decide) (by decide)), read64_write64_same]
    case rsp =>
      show read64 (write64 _ _ _) _ = _
      rw [read64_write64_apart (apart_pushed _ (by decide) (by decide)),
        read64_write64_apart (apart_pushed _ (by decide) (by decide)), read64_write64_same]

/-- Register moves while interrupts may come. -/
theorem run_moves {e : Env} (h : e.Conforms) {u : Caller} (l : List (Reg × Reg))
    (rest : List Instr) (c : Cpu)
    (code : syscallEntry.drop c.pc = l.map (fun p => .mov p.1 p.2) ++ rest)
    (keep : ∀ p ∈ l, p.1 ≠ .rsp) (hi : c.intr = true)
    (hr : c.reg .rsp = e.kernelStackTop - 24) (saved : Saved e u c.mem) :
    ∃ m, run e l.length c =
        { c with
          reg := l.foldl (fun r p => Function.update r p.1 (r p.2)) c.reg
          mem := m
          pc := c.pc + l.length } ∧ Saved e u m := by
  induction l generalizing c with
  | nil => exact ⟨c.mem, rfl, saved⟩
  | cons p l ih =>
    obtain ⟨at_, tail⟩ := code_cons code
    have first := step_open (e := e) (c := c) (.mov p.1 p.2) at_ hi
    have hr' : (exec e c (.mov p.1 p.2)).reg .rsp = e.kernelStackTop - 24 := by
      show Function.update c.reg p.1 (c.reg p.2) .rsp = _
      rw [Function.update_of_ne (keep p (List.mem_cons_self ..)).symm, hr]
    obtain ⟨m, hm, hs⟩ := ih (step e c) (by rw [first]; exact tail)
      (fun q hq => keep q (List.mem_cons_of_mem p hq)) (by rw [first]; exact hi)
      (by rw [first]; exact hr') (by rw [first]; exact saved.keep (h.irq _ hr'))
    refine ⟨m, ?_, hs⟩
    show run e l.length (step e c) = _
    rw [hm, first]
    simp only [exec, Cpu.next, Cpu.set, List.foldl_cons, List.length_cons]
    rw [Nat.add_right_comm, Nat.add_assoc]

/-- The stub at the call, interrupts on and the arguments where C wants them. -/
structure AtCall (e : Env) (u : Caller) (c : Cpu) : Prop where
  pc : c.pc = 12
  intr : c.intr = true
  rsp : c.reg .rsp = e.kernelStackTop - 24
  args : parameters c.reg = syscallArgs u.reg
  saved : Saved e u c.mem
  written : c.written =
    [e.addr .sUserRsp, e.kernelStackTop - 8, e.kernelStackTop - 16, e.kernelStackTop - 24]

theorem atCall {e : Env} (h : e.Conforms) {u : Caller} {m : Bytes}
    (top : read64 m (e.addr .gKernelRsp0) = e.kernelStackTop) :
    AtCall e u (run e 12 (enter u m)) := by
  have start := atSti h (u := u) top
  rw [run_add e 5 7]
  generalize run e 5 (enter u m) = c at start ⊢
  have sti := step_open (e := e) (c := c) .sti (by rw [start.pc]; rfl) rfl
  have hc : c.toCore.reg .rsp = e.kernelStackTop - 24 := start.rsp
  have saved₁ : Saved e u (step e c).mem := by
    rw [sti]
    exact start.saved.keep (h.irq _ hc)
  obtain ⟨m₁, moves, saved₂⟩ := run_moves h
    [(.r9, .r8), (.r8, .r10), (.rcx, .rdx), (.rdx, .rsi), (.rsi, .rdi), (.rdi, .rax)]
    _ (step e c) (by rw [sti]; show syscallEntry.drop (c.pc + 1) = _; rw [start.pc]; rfl)
    (by decide) (by rw [sti]; rfl) (by rw [sti]; exact hc) saved₁
  rw [run_add e 1 6, show run e 1 c = step e c from rfl, show run e 6 (step e c) = _ from moves, sti]
  have arg := start.args
  constructor
  case pc => exact congrArg (· + 7) start.pc
  case intr => rfl
  case rsp =>
    simp only [List.foldl, exec, Cpu.next]
    simp [hc]
  case args =>
    simp only [List.foldl, exec, Cpu.next, parameters, syscallArgs]
    simp [arg .rax, arg .rdi, arg .rsi, arg .rdx, arg .r10, arg .r8]
  case saved => exact saved₂
  case written => exact start.written

/-- The stub behind the call, at the first `pop`. -/
structure AtPop (e : Env) (u : Caller) (c : Cpu) : Prop where
  pc : c.pc = 14
  intr : c.intr = false
  rsp : c.reg .rsp = e.kernelStackTop - 24
  rax : c.reg .rax = c.result
  saved : Saved e u c.mem
  called : ∃ r, c.called = some r ∧ parameters r = syscallArgs u.reg
  written : c.written =
    [e.addr .sUserRsp, e.kernelStackTop - 8, e.kernelStackTop - 16, e.kernelStackTop - 24,
      e.kernelStackTop - 32]

/-- RSP below the frame, with the return address on the stack. -/
theorem Env.Conforms.inside {e : Env} (h : e.Conforms) {c : Core}
    (hr : c.reg .rsp = e.kernelStackTop - 32) : e.Inside c := by
  have room := h.room
  unfold Env.Inside
  rw [hr]
  unfold Env.kernelStackTop
  generalize e.kernelStackBase = b, e.kernelStackSize = n at room ⊢
  bv_omega

/-- The return address goes below the frame. -/
theorem keepsFrame_call (e : Env) (m : Bytes) (v : u64) :
    e.KeepsFrame m (write64 m (e.kernelStackTop - 24 - 8) v) := by
  intro a ha
  unfold write64
  rw [if_neg]
  generalize e.kernelStackTop - 24 = b at ha ⊢
  bv_omega

theorem atPop {e : Env} (h : e.Conforms) {u : Caller} {m : Bytes}
    (top : read64 m (e.addr .gKernelRsp0) = e.kernelStackTop) :
    AtPop e u (afterCall e u m) := by
  have start := atCall h (u := u) top
  unfold afterCall
  rw [run_add e 12 2]
  generalize run e 12 (enter u m) = c at start ⊢
  have e₃ : e.kernelStackTop - 24#64 - 8#64 = e.kernelStackTop - 32#64 := by
    rw [BitVec.sub_sub]; rfl
  have pushed : (c.pushWord e.returnAddress).reg .rsp = e.kernelStackTop - 32 := by
    simp [Cpu.pushWord, Cpu.set, Cpu.store, start.rsp, e₃]
  have kept : Saved e u (c.pushWord e.returnAddress).mem := by
    apply start.saved.keep
    show e.KeepsFrame c.mem (write64 c.mem (c.reg .rsp - 8) e.returnAddress)
    rw [start.rsp]
    exact keepsFrame_call e c.mem e.returnAddress
  obtain ⟨hret, hkeep⟩ := h.kiSystemCall (c.pushWord e.returnAddress).toCore (h.inside pushed)
  have call := step_open (e := e) (c := c) .callKiSystemCall (by rw [start.pc]; rfl) start.intr
  have cli := step_quiet (e := e) (c := step e c) .cli
    (by rw [call]; show syscallEntry[c.pc + 1]? = _; rw [start.pc]; rfl) rfl
  rw [show run e 2 c = step e (step e c) from rfl, cli, call]
  constructor
  case pc => exact congrArg (· + 2) start.pc
  case intr => rfl
  case rsp => exact hret
  case rax => rfl
  case saved => exact (kept.keep hkeep).keep (h.irq _ hret)
  case called => exact ⟨c.reg, rfl, start.args⟩
  case written =>
    show c.written ++ [c.reg .rsp - 8] = _
    rw [start.written, start.rsp]
    simp [e₃]

/-- What the stub finds in the exception variable, after its store to the user's
stack. -/
def pending (e : Env) (u : Caller) (c : Cpu) : u64 :=
  read64 (write64 c.mem (u.reg .rsp - 8) c.result) (e.addr .gPendingExceptionVa)

/-- The stub at the jump: everything is the caller's again but RAX, which waits
in the word below the user's RSP. -/
structure AtJump (e : Env) (u : Caller) (c d : Cpu) : Prop where
  pc : d.pc = 20
  intr : d.intr = false
  zf : d.zf = decide (pending e u c = 0)
  rax : d.reg .rax = pending e u c
  rcx : d.reg .rcx = u.rip
  r11 : d.reg .r11 = u.rflags
  rsp : d.reg .rsp = u.reg .rsp - 8
  mem : d.mem = write64 c.mem (u.reg .rsp - 8) c.result
  written : d.written = c.written ++ [u.reg .rsp - 8]
  called : d.called = c.called
  result : d.result = c.result

theorem atJump {e : Env} {u : Caller} {c : Cpu} (start : AtPop e u c) :
    AtJump e u c (run e 6 c) := by
  have e₁ : e.kernelStackTop - 24#64 + 8#64 = e.kernelStackTop - 16#64 := by bv_omega
  have e₂ : e.kernelStackTop - 16#64 + 8#64 = e.kernelStackTop - 8#64 := by bv_omega
  have flags : read64 c.mem (e.kernelStackTop - 24#64) = u.rflags := start.saved.rflags
  have rip : read64 c.mem (e.kernelStackTop - 16#64) = u.rip := start.saved.rip
  have rsp : read64 c.mem (e.kernelStackTop - 8#64) = u.reg .rsp := start.saved.rsp
  have block := run_block e [.pop .r11, .pop .rcx, .pop .rsp, .push .rax,
    .movFrom .rax .gPendingExceptionVa, .test .rax] _ c (by rw [start.pc]; rfl) (by decide)
    start.intr
  rw [show run e 6 c = _ from block]
  constructor
  case pc => exact congrArg (· + 6) start.pc
  case intr => exact start.intr
  case called => rfl
  case result => rfl
  case zf =>
    refine decide_eq_decide.mpr (iff_of_eq (congrArg (· = 0) ?_))
    simp [exec, Cpu.next, Cpu.pushWord, Cpu.set, Cpu.store, start.rsp, start.rax, e₁, e₂, rsp,
      pending]
  all_goals
    simp [exec, Cpu.next, Cpu.pushWord, Cpu.set, Cpu.store, start.rsp, start.rax, flags, e₁, rip,
      e₂, rsp, pending]

/-- The end of the stub: the words it has stored to, and what it returns when no
exception is found. -/
structure Done (e : Env) (u : Caller) (c d : Cpu) : Prop where
  called : d.called = c.called
  result : d.result = c.result
  written : d.written = c.written ++ (u.reg .rsp - 8) ::
    (if pending e u c = 0 then [] else [e.addr .gPendingExceptionVa])
  returned : ∃ r, d.returned = some r ∧
    (pending e u c = 0 → r = ⟨u.rip, u.rflags, u.reg .rsp, c.result⟩)

theorem done {e : Env} {u : Caller} {c : Cpu} (start : AtPop e u c) :
    Done e u c (run e 11 c) := by
  have jump := atJump start
  rw [run_add e 6 5]
  generalize run e 6 c = d at jump ⊢
  have back : u.reg .rsp - 8#64 + 8#64 = u.reg .rsp := BitVec.sub_add_cancel _ _
  have at_ : syscallEntry[d.pc]? = some (.jz 23) := by rw [jump.pc]; rfl
  by_cases hp : pending e u c = 0
  case pos =>
    have first : step e d = { d with pc := 23 } := by
      have hz : exec e d (.jz 23) = { d with pc := 23 } := if_pos (by rw [jump.zf]; exact decide_eq_true hp)
      rw [step_quiet _ at_ (by rw [hz]; exact jump.intr), hz]
    have block := run_block e [.pop .rax, .sysret] [] { d with pc := 23 } rfl (by decide) jump.intr
    have rest : run e 5 d = run e 2 (run e 2 (step e d)) := rfl
    rw [rest, first, show run e 2 { d with pc := 23 } = _ from block]
    have idle : ∀ f : Cpu, f.pc = 25 → run e 2 f = f := by
      intro f hf
      have stay : step e f = f := by
        unfold step
        rw [hf]
        rfl
      show step e (step e f) = f
      rw [stay, stay]
    rw [idle _ rfl]
    constructor
    case called => exact jump.called
    case result => exact jump.result
    case written =>
      rw [if_pos hp]
      exact jump.written
    case returned =>
      refine ⟨_, rfl, fun _ => ?_⟩
      simp [exec, Cpu.next, Cpu.set, jump.rsp, jump.rcx, jump.r11, jump.mem, back]
  case neg =>
    have first : step e d = { d with pc := 21 } := by
      have hz : exec e d (.jz 23) = { d with pc := 21 } := by
        show (if d.zf = true then _ else _) = _
        rw [if_neg (by rw [jump.zf, decide_eq_true_iff]; exact hp)]
        simp [Cpu.next, jump.pc]
      rw [step_quiet _ at_ (by rw [hz]; exact jump.intr), hz]
    have block := run_block e [.movImm .gPendingExceptionVa 0, .mov .rcx .rax, .pop .rax, .sysret]
      [] { d with pc := 21 } rfl (by decide) jump.intr
    have rest : run e 5 d = run e 4 (step e d) := rfl
    rw [rest, first, show run e 4 { d with pc := 21 } = _ from block]
    constructor
    case called => exact jump.called
    case result => exact jump.result
    case written =>
      rw [if_neg hp]
      show d.written ++ [_] = _
      rw [jump.written, List.append_assoc]
      rfl
    case returned => exact ⟨_, rfl, fun h => absurd h hp⟩

theorem systemCall_done {e : Env} (h : e.Conforms) (u : Caller) {m : Bytes}
    (top : read64 m (e.addr .gKernelRsp0) = e.kernelStackTop) :
    AtPop e u (afterCall e u m) ∧ Done e u (afterCall e u m) (systemCall e u m) := by
  have start := atPop h (u := u) top
  have split : systemCall e u m = run e 11 (afterCall e u m) := run_add e 14 11 (enter u m)
  rw [split]
  exact ⟨start, done start⟩

/-- The sixth word the stub stores to is the one below the user's RSP. -/
theorem written_sixth {e : Env} (h : e.Conforms) (u : Caller) {m : Bytes}
    (top : read64 m (e.addr .gKernelRsp0) = e.kernelStackTop) :
    (systemCall e u m).written[5]? = some (u.reg .rsp - 8) := by
  obtain ⟨start, fin⟩ := systemCall_done h u top
  rw [fin.written, start.written]
  rfl

/-! ## Results -/

/-- What the stub does get right: the arguments arrive, and without an exception
the caller finds its RIP, RFLAGS and RSP, with the result in RAX. The word below
its RSP must not be the exception variable itself. -/
theorem systemCall_serves {e : Env} (h : e.Conforms) (u : Caller) {m : Bytes}
    (top : read64 m (e.addr .gKernelRsp0) = e.kernelStackTop)
    (clear : Apart (e.addr .gPendingExceptionVa) (u.reg .rsp - 8)) :
    (∃ r, (systemCall e u m).called = some r ∧ parameters r = syscallArgs u.reg) ∧
    (read64 (afterCall e u m).mem (e.addr .gPendingExceptionVa) = 0 →
      (systemCall e u m).returned =
        some ⟨u.rip, u.rflags, u.reg .rsp, (systemCall e u m).result⟩) := by
  obtain ⟨start, fin⟩ := systemCall_done h u top
  constructor
  · rw [fin.called]
    exact start.called
  · intro none
    have quiet : pending e u (afterCall e u m) = 0 := by
      unfold pending
      rw [read64_write64_apart clear, none]
    obtain ⟨r, hr, back⟩ := fin.returned
    rw [hr, back quiet, fin.result]

theorem inStack_pushed {e : Env} (h : e.Conforms) {i : u64} (hi : 8 ≤ i.toNat)
    (hi' : i.toNat ≤ 32) : e.InStack (e.kernelStackTop - i) := by
  have room := h.room
  unfold Env.InStack Env.kernelStackTop
  generalize e.kernelStackBase = b, e.kernelStackSize = n at room ⊢
  bv_omega

/-- The stub's own words aside, everything hangs on the word below the user's RSP. -/
theorem written_own_iff {e : Env} (h : e.Conforms) (u : Caller) {m : Bytes}
    (top : read64 m (e.addr .gKernelRsp0) = e.kernelStackTop) :
    (∀ a ∈ (systemCall e u m).written, e.Own a) ↔ e.Own (u.reg .rsp - 8) := by
  constructor
  · intro all
    exact all _ (List.mem_of_getElem? (written_sixth h u top))
  · intro own a ha
    obtain ⟨start, fin⟩ := systemCall_done h u top
    rw [fin.written, start.written] at ha
    have stack : ∀ i : u64, 8 ≤ i.toNat → i.toNat ≤ 32 → e.Own (e.kernelStackTop - i) :=
      fun i hi hi' => Or.inl (inStack_pushed h hi hi')
    rcases List.mem_append.mp ha with ha | ha
    · simp only [List.mem_cons, List.not_mem_nil, or_false] at ha
      rcases ha with rfl | rfl | rfl | rfl | rfl
      · exact Or.inr (Or.inl rfl)
      all_goals exact stack _ (by decide) (by decide)
    · rcases List.mem_cons.mp ha with rfl | ha
      · exact own
      · split at ha
        · cases ha
        · rw [List.mem_singleton.mp ha]
          exact Or.inr (Or.inr rfl)

/-- **No system call keeps off the user's stack.** Whatever the caller's registers
and however often the thread is switched away, the stub saves RAX on the stack
that RSP points to after `pop rsp`, which is the user's: another RSP, another
word written by ring 0. -/
theorem systemCall_not_correct {e : Env} (h : e.Conforms) (u : Caller) (m : Bytes)
    (top : read64 m (e.addr .gKernelRsp0) = e.kernelStackTop) : ¬Correct e u m := by
  intro correct
  have here := written_sixth h u top
  have there := written_sixth h (u.withRsp (u.reg .rsp + 1)) top
  have same := correct.independent (u.reg .rsp + 1) 5 _ _ here there
  have rsp : (u.withRsp (u.reg .rsp + 1)).reg .rsp = u.reg .rsp + 1 :=
    Function.update_self Reg.rsp _ u.reg
  rw [rsp] at same
  bv_omega

/-- A kernel that is never interrupted and whose `KiSystemCall` does nothing. -/
def idleEnv : Env where
  addr
    | .sUserRsp => 0x200000
    | .gKernelRsp0 => 0x200008
    | .gPendingExceptionVa => 0x200010
  returnAddress := 0x100100
  kernelStackBase := 0x300000
  kernelStackSize := 0x4000
  turns := []
  leave c := { c with reg := Function.update c.reg .rsp (0x304000 - 24) }
  irq c := c.mem

theorem idleEnv_conforms : idleEnv.Conforms where
  scratch := ⟨by decide, by decide⟩
  room := by decide
  turn := by intro turn h; cases h
  leave c _ := ⟨Function.update_self Reg.rsp _ c.reg, fun _ _ => rfl⟩
  irq _ _ := fun _ _ => rfl

/-- A caller whose registers are zero but for RSP. -/
def callerAt (rsp : u64) : Caller := ⟨Function.update (fun _ => 0) .rsp rsp, 0x400000, 0x202⟩

theorem idleEnv_top :
    read64 (setTSSRsp0 idleEnv (fun _ => 0) idleEnv.kernelStackTop) (idleEnv.addr .gKernelRsp0) =
      idleEnv.kernelStackTop :=
  read64_write64_same _ _ _

theorem systemCall_not_correct_idle :
    ¬Correct idleEnv (callerAt 0x7FFF0000)
      (setTSSRsp0 idleEnv (fun _ => 0) idleEnv.kernelStackTop) :=
  systemCall_not_correct idleEnv_conforms _ _ idleEnv_top

/-- With RSP = 0x100008 the stub overwrites the first word of the kernel image. -/
theorem kernel_image_overwritten :
    ¬Correct idleEnv (callerAt 0x100008)
      (setTSSRsp0 idleEnv (fun _ => 0) idleEnv.kernelStackTop) := by
  intro correct
  have own := (written_own_iff idleEnv_conforms _ idleEnv_top).mp correct.confined
  rw [show (callerAt 0x100008).reg .rsp = 0x100008 from rfl] at own
  rcases own with h | h | h
  · exact absurd h (by unfold Env.InStack; decide)
  · exact absurd h (by decide)
  · exact absurd h (by decide)

end MicroNT.Syscall
