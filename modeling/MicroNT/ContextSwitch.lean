import MicroNT.Base.Machine
import MicroNT.SyscallEntry

/-! # Context switches (`switch.asm`, `CreateKernelThread`, `CreateUserThread`)

`switch_context` leaves seven words on the stack of the thread that calls it, and takes
seven words from the stack of the next one. `CreateKernelThread` and `CreateUserThread`
build such words by hand. Between the switches the current thread may run any code that
stays out of the other threads' stacks. -/

namespace MicroNT.Switch

open MicroNT.Base.Machine
open MicroNT.Syscall (Bytes read64 write64 read64_congr read64_write64_same)

/-! ## The processor -/

inductive Reg
  | rax | rbx | rcx | rdx | rsi | rdi | rbp | rsp
  | r8 | r9 | r10 | r11 | r12 | r13 | r14 | r15
  deriving DecidableEq

/-- The instructions of `switch.asm`, up to the `call` of `kernel_thread_entry`. -/
inductive Instr
  | push (src : Reg)
  | pop (dst : Reg)
  /-- `mov [dst], src` -/
  | store (dst src : Reg)
  /-- `mov dst, [src]` -/
  | load (dst src : Reg)
  | ret
  | sti
  | iretq

structure Core where
  reg : Reg → u64
  mem : Bytes
  rip : u64
  rflags : u64
  cs : u64
  ss : u64

def Core.set (c : Core) (r : Reg) (v : u64) : Core :=
  { c with reg := Function.update c.reg r v }

def Core.pushWord (c : Core) (v : u64) : Core :=
  { c.set .rsp (c.reg .rsp - 8) with mem := write64 c.mem (c.reg .rsp - 8) v }

def Core.popWord (c : Core) : u64 × Core :=
  (read64 c.mem (c.reg .rsp), c.set .rsp (c.reg .rsp + 8))

/-- One instruction. The code is straight, so RIP counts only where a thread goes on. -/
def exec (c : Core) : Instr → Core
  | .push s => c.pushWord (c.reg s)
  | .pop d => c.popWord.2.set d c.popWord.1
  | .store d s => { c with mem := write64 c.mem (c.reg d) (c.reg s) }
  | .load d s => c.set d (read64 c.mem (c.reg s))
  | .ret => { c.popWord.2 with rip := c.popWord.1 }
  | .sti => { c with rflags := c.rflags ||| 0x200#64 }
  | .iretq =>
    let sp := c.reg .rsp
    { c.set .rsp (read64 c.mem (sp + 24)) with
      rip := read64 c.mem sp
      cs := read64 c.mem (sp + 8)
      rflags := read64 c.mem (sp + 16)
      ss := read64 c.mem (sp + 32) }

def switchContext : List Instr :=
  [ .push .rbp,
    .push .rbx,
    .push .r12,
    .push .r13,
    .push .r14,
    .push .r15,
    .store .rdi .rsp,
    .load .rsp .rsi,
    .pop .r15,
    .pop .r14,
    .pop .r13,
    .pop .r12,
    .pop .rbx,
    .pop .rbp,
    .ret ]

def userThreadEntry : List Instr := [.sti, .pop .rdi, .iretq]

/-- Where the linker put the entry points. -/
structure Symbols where
  kernelThreadEntry : u64
  userThreadEntry : u64

/-- Where a thread's `KThread`, whose first word is `KernelStackPtr`, and its kernel stack
are. -/
structure Place where
  record : u64
  stackBase : u64
  stackSize : u64

def Place.stackTop (p : Place) : u64 := p.stackBase + p.stackSize

/-- What a thread had when it called `switch_context`: the registers that a call keeps, and
the return address. -/
structure Frame where
  rbx : u64
  rbp : u64
  r12 : u64
  r13 : u64
  r14 : u64
  r15 : u64
  rsp : u64
  rip : u64
  deriving DecidableEq

def Core.frame (c : Core) (rip : u64) : Frame :=
  ⟨c.reg .rbx, c.reg .rbp, c.reg .r12, c.reg .r13, c.reg .r14, c.reg .r15, c.reg .rsp, rip⟩

/-- How a thread came to wait for the processor. -/
inductive Past
  | kernelThread
  | userThread (entry stackVa arg : u64)
  | called (frame : Frame)

/-- The machine, the threads there are, and how each of them got where it is. -/
structure System (T : Type) where
  core : Core
  current : T
  created : T → Bool
  place : T → Place
  past : T → Past

inductive Op (T : Type)
  /-- Whatever the current thread does, up to the state that it leaves. -/
  | work (after : Core)
  | createKernelThread (t : T) (place : Place)
  | createUserThread (t : T) (place : Place) (entry stackVa arg : u64)
  /-- `call switch_context`, with the address behind the call. -/
  | switchContext (next : T) (ret : u64)

abbrev USER_CS : u64 := 0x23#64
abbrev USER_SS : u64 := 0x1B#64
abbrev USER_FLAGS : u64 := 0x202#64
abbrev SWITCH_FRAME_SIZE : u64 := 56#64
abbrev IRETQ_FRAME_SIZE : u64 := 40#64

def stackPoke (m : Bytes) (top : u64) (slot : Nat) (value : u64) : Bytes :=
  write64 m (top - BitVec.ofNat 64 slot * 8) value

/-- `StackPoke` of these values, with the first in slot `slot`. -/
def stackPokes (top : u64) : Nat → List u64 → Bytes → Bytes
  | _, [], m => m
  | slot, v :: vs, m => stackPokes top (slot + 1) vs (stackPoke m top slot v)

/-- The slots that `CreateKernelThread` fills, from the top. -/
def kernelSlots (sym : Symbols) : List u64 := [sym.kernelThreadEntry, 0, 0, 0, 0, 0, 0]

/-- The slots that `CreateUserThread` fills, from the top. -/
def userSlots (sym : Symbols) (entry stackVa arg : u64) : List u64 :=
  [USER_SS, stackVa, USER_FLAGS, USER_CS, entry, arg, sym.userThreadEntry, 0, 0, 0, 0, 0, 0]

/-- `CreateKernelThread`, on its new stack and record. -/
def createKernelThread (sym : Symbols) (m : Bytes) (p : Place) : Bytes :=
  let m := stackPokes p.stackTop 1 (kernelSlots sym) m
  write64 m p.record (p.stackTop - SWITCH_FRAME_SIZE)

/-- `CreateUserThread`, on its new stack and record. -/
def createUserThread (sym : Symbols) (m : Bytes) (p : Place) (entry stackVa arg : u64) : Bytes :=
  let m := stackPokes p.stackTop 1 (userSlots sym entry stackVa arg) m
  write64 m p.record (p.stackTop - SWITCH_FRAME_SIZE - IRETQ_FRAME_SIZE - 8)

/-- `call switch_context` with the two records as arguments. -/
def Core.switchTo (c : Core) (prev next : Place) (ret : u64) : Core :=
  let c := (c.set .rdi prev.record).set .rsi next.record
  switchContext.foldl exec (c.pushWord ret)

variable {T : Type} [DecidableEq T]

def System.create (sys : System T) (t : T) (p : Place) (m : Bytes) (past : Past) : System T :=
  { sys with
    core := { sys.core with mem := m }
    created := Function.update sys.created t true
    place := Function.update sys.place t p
    past := Function.update sys.past t past }

def step (sym : Symbols) (sys : System T) : Op T → Option (System T)
  | .work after => some { sys with core := after }
  | .createKernelThread t p =>
    if sys.created t then none
    else some (sys.create t p (createKernelThread sym sys.core.mem p) .kernelThread)
  | .createUserThread t p entry stackVa arg =>
    if sys.created t then none
    else
      some (sys.create t p (createUserThread sym sys.core.mem p entry stackVa arg)
        (.userThread entry stackVa arg))
  | .switchContext next ret =>
    if sys.created next then
      some
        { sys with
          core := sys.core.switchTo (sys.place sys.current) (sys.place next) ret
          current := next
          past := Function.update sys.past sys.current (.called (sys.core.frame ret)) }
    else none

/-! ## What is promised -/

def Place.InStack (p : Place) (a : u64) : Prop := (a - p.stackBase).toNat < p.stackSize.toNat

def Place.InRecord (p : Place) (a : u64) : Prop := (a - p.record).toNat < 8

/-- The bytes that a thread waits in. -/
def Place.Owns (p : Place) (a : u64) : Prop := p.InStack a ∨ p.InRecord a

/-- A new thread's place: its stack has room for `n` bytes, and it shares no byte with its
record or with another thread. -/
structure Fresh (sys : System T) (p : Place) (n : Nat) : Prop where
  room : n ≤ p.stackSize.toNat
  sound : ∀ a, p.InStack a → ¬ p.InRecord a
  disjoint : ∀ t, sys.created t = true → ∀ a, (sys.place t).Owns a → ¬ p.Owns a

/-- The threads have disjoint stacks, and each keeps to its own: only the thread itself
writes to its stack and through its record, and it calls `switch_context` on its stack, with
room for the seven words. -/
def Confined (sys : System T) : Op T → Prop
  | .work after => ∀ t, sys.created t = true → t ≠ sys.current → ∀ a, (sys.place t).Owns a →
    after.mem a = sys.core.mem a
  | .createKernelThread _ p => Fresh sys p 56
  | .createUserThread _ p _ _ _ => Fresh sys p 104
  | .switchContext _ _ =>
    let p := sys.place sys.current
    56 ≤ (sys.core.reg .rsp - p.stackBase).toNat ∧
      (sys.core.reg .rsp - p.stackBase).toNat ≤ p.stackSize.toNat

/-- The main thread runs, and there is no other. -/
structure Booted (sys : System T) : Prop where
  created : ∀ t, sys.created t = true ↔ t = sys.current
  sound : ∀ a, (sys.place sys.current).InStack a → ¬ (sys.place sys.current).InRecord a

/-- An interrupt handler, and the threads that it may switch to, keep what the thread has on
its stack. -/
def Handler (p : Place) (irq : Core → Bytes) : Prop :=
  ∀ c a, p.InStack a → (c.reg .rsp - p.stackBase).toNat ≤ (a - p.stackBase).toNat →
    irq c a = c.mem a

/-- The words from `a` on. -/
def Words (m : Bytes) : u64 → List u64 → Prop
  | _, [] => True
  | a, w :: ws => read64 m a = w ∧ Words m (a + 8) ws

/-- A memory and a stack pointer, after these words are pushed. -/
def pushWords : List u64 → Bytes × u64 → Bytes × u64
  | [], s => s
  | v :: vs, s => pushWords vs (write64 s.1 (s.2 - 8) v, s.2 - 8)

theorem Words.congr {m m' : Bytes} {a : u64} {ws : List u64} (h : Words m a ws)
    (room : 8 * ws.length ≤ 2 ^ 64)
    (same : ∀ x, (x - a).toNat < 8 * ws.length → m' x = m x) : Words m' a ws := by
  induction ws generalizing a with
  | nil => trivial
  | cons w ws ih =>
    rw [List.length_cons] at room same
    refine ⟨(read64_congr fun x hx => same x (by omega)).trans h.1, ih h.2 (by omega) ?_⟩
    intro x hx
    exact same x (by bv_omega)

theorem Words.append {m : Bytes} {a : u64} {vs ws : List u64} (h : Words m a (vs ++ ws)) :
    Words m a vs ∧ Words m (a + BitVec.ofNat 64 (8 * vs.length)) ws := by
  induction vs generalizing a with
  | nil => exact ⟨trivial, by simpa using h⟩
  | cons v vs ih =>
    obtain ⟨first, rest⟩ := ih h.2
    refine ⟨⟨h.1, first⟩, ?_⟩
    rw [show a + BitVec.ofNat 64 (8 * (v :: vs).length) = a + 8 + BitVec.ofNat 64 (8 * vs.length) by
      rw [List.length_cons]
      bv_omega]
    exact rest

theorem write64_off {m : Bytes} {a x : u64} (v : u64) (h : 8 ≤ (x - a).toNat) :
    write64 m a v x = m x := if_neg (Nat.not_lt.mpr h)

theorem Words.push {m : Bytes} {a : u64} {ws : List u64} (h : Words m a ws)
    (room : 8 * (ws.length + 1) ≤ 2 ^ 64) (v : u64) :
    Words (write64 m (a - 8) v) (a - 8) (v :: ws) := by
  refine ⟨read64_write64_same _ _ _, ?_⟩
  rw [BitVec.sub_add_cancel]
  exact h.congr (by omega) fun x hx => write64_off v (by bv_omega)

theorem pushWords_sp (vs : List u64) (s : Bytes × u64) :
    (pushWords vs s).2 = s.2 - BitVec.ofNat 64 (8 * vs.length) := by
  induction vs generalizing s with
  | nil => exact (BitVec.sub_zero _).symm
  | cons v vs ih =>
    rw [pushWords, ih, List.length_cons]
    dsimp only
    bv_omega

theorem pushWords_words {vs ws : List u64} {s : Bytes × u64} (h : Words s.1 s.2 ws)
    (room : 8 * (vs.length + ws.length) ≤ 2 ^ 64) :
    Words (pushWords vs s).1 (pushWords vs s).2 (vs.reverse ++ ws) := by
  induction vs generalizing s ws with
  | nil => exact h
  | cons v vs ih =>
    rw [List.length_cons] at room
    rw [List.reverse_cons, List.append_assoc]
    exact ih (h.push (by omega) v) (by rw [List.length_append, List.length_singleton]; omega)

/-- What is above or far below the stack pointer stays. -/
theorem pushWords_off {vs : List u64} {s : Bytes × u64} {x : u64}
    (h : 8 * vs.length ≤ (x - (pushWords vs s).2).toNat) : (pushWords vs s).1 x = s.1 x := by
  induction vs generalizing s with
  | nil => rfl
  | cons v vs ih =>
    rw [pushWords] at h ⊢
    rw [List.length_cons] at h
    rw [ih (by omega)]
    refine write64_off v ?_
    rw [pushWords_sp] at h
    dsimp only at h
    bv_omega

/-- The pokes of a new thread are pushes. -/
theorem stackPokes_eq (vs : List u64) (top : u64) (slot : Nat) (m : Bytes) :
    stackPokes top (slot + 1) vs m = (pushWords vs (m, top - BitVec.ofNat 64 slot * 8)).1 := by
  induction vs generalizing slot m with
  | nil => rfl
  | cons v vs ih =>
    have next : top - BitVec.ofNat 64 (slot + 1) * 8 = top - BitVec.ofNat 64 slot * 8 - 8 := by
      bv_omega
    rw [stackPokes, ih, pushWords, stackPoke, next]

/-! ## Waiting threads -/

/-- The words that a waiting thread has on its stack, from `KernelStackPtr` on. -/
def Past.words (sym : Symbols) : Past → List u64
  | .kernelThread => (kernelSlots sym).reverse
  | .userThread entry stackVa arg => (userSlots sym entry stackVa arg).reverse
  | .called f => [f.r15, f.r14, f.r13, f.r12, f.rbx, f.rbp, f.rip]

/-- Where RSP was when the thread called `switch_context`. -/
def Past.CalledAt (sp : u64) : Past → Prop
  | .called f => f.rsp = sp + 56
  | _ => True

/-- A thread waits on its own stack. -/
structure Waits (sym : Symbols) (m : Bytes) (p : Place) (past : Past) : Prop where
  words : Words m (read64 m p.record) (past.words sym)
  inside : (read64 m p.record - p.stackBase).toNat + 8 * (past.words sym).length ≤ p.stackSize.toNat
  calledAt : past.CalledAt (read64 m p.record)

theorem Past.length_words (sym : Symbols) (past : Past) : (past.words sym).length ≤ 13 := by
  cases past with
  | kernelThread => exact Nat.le_of_ble_eq_true rfl
  | userThread => exact Nat.le_of_ble_eq_true rfl
  | called => exact Nat.le_of_ble_eq_true rfl

/-- The words from an address inside a stack on are inside it. -/
theorem Place.inStack_of_le {p : Place} {sp x : u64} {n : Nat}
    (inside : (sp - p.stackBase).toNat + n ≤ p.stackSize.toNat) (h : (x - sp).toNat < n) :
    p.InStack x := by
  unfold Place.InStack
  bv_omega

theorem Waits.congr {sym : Symbols} {m m' : Bytes} {p : Place} {past : Past}
    (h : Waits sym m p past) (same : ∀ a, p.Owns a → m' a = m a) : Waits sym m' p past := by
  have record : read64 m' p.record = read64 m p.record :=
    read64_congr fun x hx => same x (.inr hx)
  have short := past.length_words sym
  refine ⟨?_, ?_, ?_⟩
  all_goals rw [record]
  · exact h.words.congr (by omega) fun x hx => same x (.inl (Place.inStack_of_le h.inside hx))
  · exact h.inside
  · exact h.calledAt

/-- Words that were pushed inside a stack change nothing else. -/
theorem pushWords_own {p : Place} {vs : List u64} {m : Bytes} {sp a : u64}
    (room : 8 * vs.length ≤ (sp - p.stackBase).toNat)
    (top : (sp - p.stackBase).toNat ≤ p.stackSize.toNat) (h : ¬ p.InStack a) :
    (pushWords vs (m, sp)).1 a = m a := by
  refine pushWords_off ?_
  rw [pushWords_sp]
  unfold Place.InStack at h
  dsimp only
  bv_omega

/-- **A frame that is pushed onto a stack** and stored in the record. -/
theorem waits_pushWords {sym : Symbols} {m : Bytes} {p : Place} {vs : List u64} {past : Past}
    {sp : u64} (words : vs.reverse = past.words sym)
    (sound : ∀ a, p.InStack a → ¬ p.InRecord a)
    (room : 8 * vs.length ≤ (sp - p.stackBase).toNat)
    (top : (sp - p.stackBase).toNat ≤ p.stackSize.toNat)
    (calledAt : past.CalledAt (sp - BitVec.ofNat 64 (8 * vs.length))) :
    Waits sym (write64 (pushWords vs (m, sp)).1 p.record (pushWords vs (m, sp)).2) p past := by
  have length : (past.words sym).length = vs.length := by rw [← words, List.length_reverse]
  have short := past.length_words sym
  have inside : ((pushWords vs (m, sp)).2 - p.stackBase).toNat + 8 * (past.words sym).length ≤
      p.stackSize.toNat := by
    rw [pushWords_sp, length]
    dsimp only
    bv_omega
  have pushed : Words (pushWords vs (m, sp)).1 (pushWords vs (m, sp)).2 (vs.reverse ++ []) :=
    pushWords_words trivial (by rw [List.length_nil]; omega)
  rw [List.append_nil, words] at pushed
  refine ⟨?_, ?_, ?_⟩
  all_goals rw [read64_write64_same]
  · refine pushed.congr (by omega) fun x hx => write64_off _ ?_
    exact Nat.not_lt.mp (sound x (Place.inStack_of_le inside hx))
  · exact inside
  · rw [pushWords_sp]
    exact calledAt

/-! ## A switch -/

/-- The seven words of `switch_context`, in the order in which they are pushed. -/
def Core.callWords (c : Core) (ret : u64) : List u64 :=
  [ret, c.reg .rbp, c.reg .rbx, c.reg .r12, c.reg .r13, c.reg .r14, c.reg .r15]

theorem callWords_reverse (sym : Symbols) (c : Core) (ret : u64) :
    (c.callWords ret).reverse = (Past.called (c.frame ret)).words sym := rfl

/-- What the six pops and the `ret` find from `sp` on. -/
def popFrame (m : Bytes) (sp : u64) : Frame where
  r15 := read64 m sp
  r14 := read64 m (sp + 8)
  r13 := read64 m (sp + 8 + 8)
  r12 := read64 m (sp + 8 + 8 + 8)
  rbx := read64 m (sp + 8 + 8 + 8 + 8)
  rbp := read64 m (sp + 8 + 8 + 8 + 8 + 8)
  rip := read64 m (sp + 8 + 8 + 8 + 8 + 8 + 8)
  rsp := sp + 8 + 8 + 8 + 8 + 8 + 8 + 8

theorem exec_pops (c : Core) :
    let d := (switchContext.drop 8).foldl exec c
    d.frame d.rip = popFrame c.mem (c.reg .rsp) ∧ d.mem = c.mem := ⟨rfl, rfl⟩

/-- The processor when it has changed stacks. -/
theorem exec_pushes (c : Core) (prev next : Place) (ret : u64) :
    let d := (switchContext.take 8).foldl exec
      (((c.set .rdi prev.record).set .rsi next.record).pushWord ret)
    d.mem = write64 (pushWords (c.callWords ret) (c.mem, c.reg .rsp)).1 prev.record
        (pushWords (c.callWords ret) (c.mem, c.reg .rsp)).2 ∧
      d.reg .rsp = read64 d.mem next.record := ⟨rfl, rfl⟩

/-- **`switch_context`** stores seven words and a stack pointer, and takes seven words from
where the next record points. -/
theorem switchTo_spec (c : Core) (prev next : Place) (ret : u64) :
    let d := c.switchTo prev next ret
    d.mem = write64 (pushWords (c.callWords ret) (c.mem, c.reg .rsp)).1 prev.record
        (pushWords (c.callWords ret) (c.mem, c.reg .rsp)).2 ∧
      d.frame d.rip = popFrame d.mem (read64 d.mem next.record) := by
  obtain ⟨mem, rsp⟩ := exec_pushes c prev next ret
  have split : c.switchTo prev next ret = (switchContext.drop 8).foldl exec
      ((switchContext.take 8).foldl exec
        (((c.set .rdi prev.record).set .rsi next.record).pushWord ret)) := by
    rw [← List.foldl_append, List.take_append_drop]
    rfl
  intro d
  obtain ⟨frame, same⟩ := exec_pops ((switchContext.take 8).foldl exec
    (((c.set .rdi prev.record).set .rsi next.record).pushWord ret))
  rw [← split] at frame same
  refine ⟨same.trans mem, ?_⟩
  rw [frame, rsp, same]

theorem Words.kept {p : Place} {irq : Core → Bytes} (handler : Handler p irq) {c : Core}
    {ws : List u64} (h : Words c.mem (c.reg .rsp) ws)
    (inside : (c.reg .rsp - p.stackBase).toNat + 8 * ws.length ≤ p.stackSize.toNat) :
    Words (irq c) (c.reg .rsp) ws := by
  have size := p.stackSize.isLt
  refine h.congr (by omega) fun x hx => handler c x (Place.inStack_of_le inside hx) ?_
  bv_omega

/-- The current thread runs, and the others wait on stacks of their own. -/
structure Inv (sym : Symbols) (sys : System T) : Prop where
  current : sys.created sys.current = true
  sound : ∀ t, sys.created t = true → ∀ a, (sys.place t).InStack a → ¬ (sys.place t).InRecord a
  disjoint : ∀ t u, sys.created t = true → sys.created u = true → t ≠ u →
    ∀ a, (sys.place t).Owns a → ¬ (sys.place u).Owns a
  waits : ∀ t, sys.created t = true → t ≠ sys.current →
    Waits sym sys.core.mem (sys.place t) (sys.past t)

variable {sym : Symbols} {sys sys' : System T}

/-- **Behind the pushes of a switch every thread waits**, the caller included. -/
theorem Inv.switchTo (inv : Inv sym sys) {next : T} {ret : u64}
    (room : Confined sys (.switchContext next ret)) {t : T} (created : sys.created t = true) :
    Waits sym (sys.core.switchTo (sys.place sys.current) (sys.place next) ret).mem (sys.place t)
      (Function.update sys.past sys.current (.called (sys.core.frame ret)) t) := by
  rw [(switchTo_spec _ _ _ _).1]
  by_cases e : t = sys.current
  · subst e
    rw [Function.update_self]
    refine waits_pushWords (callWords_reverse sym sys.core ret) (inv.sound _ created) room.1 room.2 ?_
    exact (BitVec.sub_add_cancel _ _).symm
  · rw [Function.update_of_ne e]
    refine (inv.waits t created e).congr fun a owned => ?_
    have other := inv.disjoint t _ created inv.current e a owned
    rw [write64_off _ (Nat.not_lt.mp fun h => other (.inr h))]
    exact pushWords_own room.1 room.2 fun h => other (.inl h)

theorem System.create_self (sys : System T) (t : T) (p : Place) (m : Bytes) (past : Past) :
    (sys.create t p m past).place t = p ∧ (sys.create t p m past).past t = past :=
  ⟨Function.update_self _ _ _, Function.update_self _ _ _⟩

theorem System.create_of_ne {t u : T} (h : u ≠ t) (sys : System T) (p : Place) (m : Bytes)
    (past : Past) :
    (sys.create t p m past).created u = sys.created u ∧
      (sys.create t p m past).place u = sys.place u ∧ (sys.create t p m past).past u = sys.past u :=
  ⟨Function.update_of_ne h _ _, Function.update_of_ne h _ _, Function.update_of_ne h _ _⟩

/-- **A new thread waits** on the slots that were poked. -/
theorem Inv.create (inv : Inv sym sys) {t : T} {p : Place} {past : Past} {slots : List u64}
    {sp : u64} (new : sys.created t = false) (words : slots.reverse = past.words sym)
    (calledAt : past.CalledAt (p.stackTop - BitVec.ofNat 64 (8 * slots.length)))
    (stackPtr : sp = p.stackTop - BitVec.ofNat 64 (8 * slots.length))
    (fresh : Fresh sys p (8 * slots.length)) :
    Inv sym (sys.create t p (write64 (stackPokes p.stackTop 1 slots sys.core.mem) p.record sp)
      past) := by
  have top : (p.stackTop - p.stackBase).toNat = p.stackSize.toNat := by
    unfold Place.stackTop
    bv_omega
  have pokes : stackPokes p.stackTop 1 slots sys.core.mem =
      (pushWords slots (sys.core.mem, p.stackTop)).1 := by
    have h := stackPokes_eq slots p.stackTop 0 sys.core.mem
    rw [show p.stackTop - BitVec.ofNat 64 0 * 8 = p.stackTop by bv_omega] at h
    exact h
  have sp' : sp = (pushWords slots (sys.core.mem, p.stackTop)).2 := by
    rw [stackPtr, pushWords_sp]
  have old : ∀ u, sys.created u = true → u ≠ t := fun u created e => by
    rw [e, new] at created
    cases created
  have room : 8 * slots.length ≤ (p.stackTop - p.stackBase).toNat := top ▸ fresh.room
  have away : ∀ a, ¬ p.Owns a →
      write64 (pushWords slots (sys.core.mem, p.stackTop)).1 p.record sp a = sys.core.mem a := by
    intro a other
    rw [write64_off _ (Nat.not_lt.mp fun h => other (.inr h))]
    exact pushWords_own room top.le fun h => other (.inl h)
  rw [pokes]
  generalize mem : write64 (pushWords slots (sys.core.mem, p.stackTop)).1 p.record sp = m at away
  obtain ⟨place, past'⟩ := sys.create_self t p m past
  have others := fun u (e : u ≠ t) => System.create_of_ne e sys p m past
  constructor
  case current => exact (others _ (old _ inv.current)).1.trans inv.current
  case sound =>
    intro u created
    by_cases e : u = t
    · rw [e, place]
      exact fresh.sound
    · obtain ⟨created', place', -⟩ := others u e
      rw [place']
      exact inv.sound u (created'.symm.trans created)
  case disjoint =>
    intro u v hu hv other a
    by_cases eu : u = t
    · obtain ⟨created', place', -⟩ := others v fun ev => other (eu.trans ev.symm)
      rw [eu, place, place']
      exact fun owned also => fresh.disjoint v (created'.symm.trans hv) a also owned
    · obtain ⟨createdU, placeU, -⟩ := others u eu
      rw [placeU]
      by_cases ev : v = t
      · rw [ev, place]
        exact fresh.disjoint u (createdU.symm.trans hu) a
      · obtain ⟨createdV, placeV, -⟩ := others v ev
        rw [placeV]
        exact inv.disjoint u v (createdU.symm.trans hu) (createdV.symm.trans hv) other a
  case waits =>
    intro u created waiting
    by_cases e : u = t
    · rw [e, place, past']
      show Waits sym m p past
      rw [← mem, sp']
      exact waits_pushWords words fresh.sound room top.le calledAt
    · obtain ⟨created', place', past''⟩ := others u e
      rw [place', past'']
      have there := created'.symm.trans created
      exact (inv.waits u there waiting).congr fun a owned => away a (fresh.disjoint u there a owned)

/-- **One step** of threads that keep to their own stacks. -/
theorem Inv.step (inv : Inv sym sys) {op : Op T} (confined : Confined sys op)
    (hs : Switch.step sym sys op = some sys') : Inv sym sys' := by
  cases op with
  | work after =>
    cases hs
    exact ⟨inv.current, inv.sound, inv.disjoint, fun t created waiting =>
      (inv.waits t created waiting).congr (confined t created waiting)⟩
  | createKernelThread t p =>
    obtain ⟨new, ⟨⟩⟩ := Option.ite_none_left_eq_some.mp hs
    exact inv.create (Bool.not_eq_true _ ▸ new) rfl trivial rfl confined
  | createUserThread t p entry stackVa arg =>
    obtain ⟨new, ⟨⟩⟩ := Option.ite_none_left_eq_some.mp hs
    refine inv.create (Bool.not_eq_true _ ▸ new) rfl trivial ?_ confined
    rw [BitVec.sub_sub, BitVec.sub_sub]
    rfl
  | switchContext next ret =>
    obtain ⟨created, ⟨⟩⟩ := Option.ite_none_right_eq_some.mp hs
    exact ⟨created, inv.sound, inv.disjoint, fun t created _ => inv.switchTo confined created⟩

omit [DecidableEq T] in
theorem Booted.inv (h : Booted sys) : Inv sym sys where
  current := (h.created _).mpr rfl
  sound t created := by
    obtain rfl := (h.created t).mp created
    exact h.sound
  disjoint t u ht hu other :=
    absurd (((h.created t).mp ht).trans ((h.created u).mp hu).symm) other
  waits t created waiting := absurd ((h.created t).mp created) waiting

/-- The main thread, alone on its stack. -/
def alone : System Bool where
  core := ⟨fun r => if r = .rsp then 0x13000 else 0, fun _ => 0, 0, 0x202, 0x08, 0x10⟩
  current := false
  created t := !t
  place _ := ⟨0x1000, 0x10000, 0x4000⟩
  past _ := .kernelThread

end MicroNT.Switch
