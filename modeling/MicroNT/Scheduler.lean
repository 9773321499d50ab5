import Mathlib.Logic.Function.Basic
import MicroNT.Blocking
import MicroNT.Ntdef

/-! # The scheduler (`scheduler.cpp`)

The control blocks of the threads and the three sentinels of the ready queues are one
memory of `KThread` records that point at each other. A function here is a block of
code that runs with interrupts off; what may come between two blocks is left to the
systems that use them. Writes through a null pointer, which `Init` rules out, do
nothing. -/

set_option linter.unusedSectionVars false

namespace MicroNT.Sched

open MicroNT.Sync (ThreadState)

abbrev THREAD_PRIORITY_NORMAL : Fin 3 := 1
abbrev QUANTUM_TICKS : u32 := 5#32

/-- What a `KThread*` points at. -/
inductive Ptr (T : Type)
  | sentinel (pri : Fin 3)
  | thread (t : T)
  deriving DecidableEq

/-- The fields of a `KThread` that the scheduler and the wait lists use. -/
structure KThread (T P : Type) where
  state : ThreadState
  priority : u32
  process : Option P
  kernelStackBase : u64
  kernelStackSize : u64
  next : Option (Ptr T)
  prev : Option (Ptr T)
  waitNext : Option (Ptr T)
  sleepUntil : u64
  sleepNext : Option (Ptr T)
  tebVa : u64

/-- A record of zeros. -/
def KThread.zero {T P : Type} : KThread T P := ⟨.ready, 0, none, 0, 0, none, none, none, 0, none, 0⟩

/-- The machine's part of a thread's context: `CR3`, `TSS.RSP0`, `g_kernel_rsp0` and the
GS base. -/
structure Cpu where
  cr3 : u64
  rsp0 : u64
  kernelRsp0 : u64
  gsBase : u64

structure State (T P : Type) where
  mem : Ptr T → KThread T P
  cr3 : P → u64
  current : Option (Ptr T)
  active : Bool
  quantum : u32
  sleepHead : Option (Ptr T)
  pitTicks : u64
  cpu : Cpu

variable {T P : Type} [DecidableEq T]

/-! ## Fields -/

def State.write (s : State T P) (p : Ptr T) (k : KThread T P) : State T P :=
  { s with mem := Function.update s.mem p k }

theorem State.write_self (s : State T P) (p : Ptr T) (k : KThread T P) : (s.write p k).mem p = k :=
  Function.update_self _ _ _

theorem State.write_of_ne {p q : Ptr T} (h : q ≠ p) (s : State T P) (k : KThread T P) :
    (s.write p k).mem q = s.mem q := Function.update_of_ne h _ _

/-- A field that the new record has from the old one. -/
theorem State.write_field {β : Type} (s : State T P) (f : KThread T P → β) {p : Ptr T}
    {k : KThread T P} (h : f k = f (s.mem p)) (q : Ptr T) :
    f ((s.write p k).mem q) = f (s.mem q) := by
  by_cases e : q = p
  · rw [e, State.write_self]
    exact h
  · rw [State.write_of_ne e]

def State.setState (s : State T P) (p : Ptr T) (x : ThreadState) : State T P :=
  s.write p { s.mem p with state := x }

def State.setNext (s : State T P) (p : Option (Ptr T)) (n : Option (Ptr T)) : State T P :=
  match p with
  | none => s
  | some p => s.write p { s.mem p with next := n }

def State.setPrev (s : State T P) (p : Option (Ptr T)) (n : Option (Ptr T)) : State T P :=
  match p with
  | none => s
  | some p => s.write p { s.mem p with prev := n }

def State.setWaitNext (s : State T P) (p : Ptr T) (n : Option (Ptr T)) : State T P :=
  s.write p { s.mem p with waitNext := n }

theorem State.setState_process (s : State T P) (p : Ptr T) (x : ThreadState) (q : Ptr T) :
    ((s.setState p x).mem q).process = (s.mem q).process :=
  s.write_field KThread.process (k := { s.mem p with state := x }) rfl q

theorem State.setState_waitNext (s : State T P) (p : Ptr T) (x : ThreadState) (q : Ptr T) :
    ((s.setState p x).mem q).waitNext = (s.mem q).waitNext :=
  s.write_field KThread.waitNext (k := { s.mem p with state := x }) rfl q

theorem State.setState_state (s : State T P) (p : Ptr T) (x : ThreadState) :
    ((s.setState p x).mem p).state = x := by
  unfold State.setState
  rw [State.write_self]

theorem State.setState_state_of_ne {p q : Ptr T} (h : q ≠ p) (s : State T P) (x : ThreadState) :
    ((s.setState p x).mem q).state = (s.mem q).state := by
  unfold State.setState
  rw [State.write_of_ne h]

theorem State.setWaitNext_process (s : State T P) (p : Ptr T) (n : Option (Ptr T)) (q : Ptr T) :
    ((s.setWaitNext p n).mem q).process = (s.mem q).process :=
  s.write_field KThread.process (k := { s.mem p with waitNext := n }) rfl q

theorem State.setWaitNext_state (s : State T P) (p : Ptr T) (n : Option (Ptr T)) (q : Ptr T) :
    ((s.setWaitNext p n).mem q).state = (s.mem q).state :=
  s.write_field KThread.state (k := { s.mem p with waitNext := n }) rfl q

theorem State.setWaitNext_waitNext (s : State T P) (p : Ptr T) (n : Option (Ptr T)) (q : Ptr T) :
    ((s.setWaitNext p n).mem q).waitNext = Function.update (fun q => (s.mem q).waitNext) p n q := by
  unfold State.setWaitNext
  by_cases e : q = p
  · rw [e, State.write_self, Function.update_self]
  · rw [State.write_of_ne e, Function.update_of_ne e]

/-! ## The ready queues -/

def clampPri (p : u32) : Fin 3 :=
  if h : p.toNat < 3 then ⟨p.toNat, h⟩ else THREAD_PRIORITY_NORMAL

def queuePushBack (s : State T P) (t : Ptr T) : State T P :=
  let sen := Ptr.sentinel (clampPri (s.mem t).priority)
  let s := s.setNext (some t) (some sen)
  let s := s.setPrev (some t) (s.mem sen).prev
  let s := s.setNext (s.mem sen).prev (some t)
  s.setPrev (some sen) (some t)

def queueRemove (s : State T P) (t : Ptr T) : State T P :=
  if (s.mem t).next = none ∨ (s.mem t).prev = none then s
  else
    let s := s.setNext (s.mem t).prev (s.mem t).next
    let s := s.setPrev (s.mem t).next (s.mem t).prev
    let s := s.setNext (some t) none
    s.setPrev (some t) none

/-- The first thread of the first queue that is not empty, from the highest priority
down. -/
def queuePop (s : State T P) : State T P × Option (Ptr T) :=
  match ([2, 1, 0] : List (Fin 3)).find? fun pri =>
      decide ((s.mem (.sentinel pri)).next ≠ some (.sentinel pri)) with
  | none => (s, none)
  | some pri =>
    match (s.mem (.sentinel pri)).next with
    | none => (s, none)
    | some t => (queueRemove s t, some t)

/-! ## Switching threads -/

abbrev CR3_ADDR_MASK : u64 := 0x000FFFFFFFFFF000#64

/-- The context that `ScheduleInternal` loads before `switch_context`. -/
def loadContext (s : State T P) (next : Ptr T) : Cpu :=
  let k := s.mem next
  let top := k.kernelStackBase + k.kernelStackSize
  { cr3 :=
      match k.process with
      | none => s.cpu.cr3
      | some p => if s.cr3 p ≠ s.cpu.cr3 &&& CR3_ADDR_MASK then s.cr3 p else s.cpu.cr3
    rsp0 := top
    kernelRsp0 := top
    gsBase := k.tebVa }

/-- The part of `ScheduleInternal` that gives the processor to another thread. -/
def switchTo (s : State T P) (prev next : Ptr T) : State T P :=
  let s :=
    if (s.mem prev).state = .running then queuePushBack (s.setState prev .ready) prev else s
  let s := { s with current := some next }
  let s := { s.setState next .running with quantum := QUANTUM_TICKS }
  { s with cpu := loadContext s next }

def scheduleInternal (s : State T P) : State T P :=
  if s.active = false then s
  else
    match s.current with
    | none => s
    | some prev =>
      match queuePop s with
      | (s, none) => s
      | (s, some next) =>
        if next = prev then { queuePushBack s next with quantum := QUANTUM_TICKS }
        else switchTo s prev next

/-! ## The sleep list -/

/-- What `*pp` is: the head of the list, or the link of the node before. -/
def State.slot (s : State T P) : Option (Ptr T) → Option (Ptr T)
  | none => s.sleepHead
  | some p => (s.mem p).sleepNext

def State.setSlot (s : State T P) (pp : Option (Ptr T)) (v : Option (Ptr T)) : State T P :=
  match pp with
  | none => { s with sleepHead := v }
  | some p => s.write p { s.mem p with sleepNext := v }

/-- What `WakeSleepers` does to a thread whose time has come. -/
def wake (s : State T P) (pp : Option (Ptr T)) (t : Ptr T) : State T P :=
  let s := s.setSlot pp (s.mem t).sleepNext
  let s := s.write t { s.mem t with sleepNext := none, sleepUntil := 0, state := .ready }
  queuePushBack s t

/-- The loop of `WakeSleepers`, from the slot `pp` on, if `n` rounds are enough. -/
def wakeFrom : Nat → State T P → Option (Ptr T) → Option (State T P)
  | 0, _, _ => none
  | n + 1, s, pp =>
    match s.slot pp with
    | none => some s
    | some t =>
      if (s.mem t).sleepUntil ≤ s.pitTicks then wakeFrom n (wake s pp t) pp
      else wakeFrom n s (some t)

def wakeSleepers (n : Nat) (s : State T P) : Option (State T P) := wakeFrom n s none

/-- `Tick`, if `n` rounds are enough for the sleep list. -/
def tick (n : Nat) (s : State T P) : Option (State T P) :=
  if s.active = false ∨ s.current = none then some s
  else
    (wakeSleepers n s).map fun s =>
      if s.quantum > 0 then
        let s := { s with quantum := s.quantum - 1 }
        if s.quantum = 0 then scheduleInternal s else s
      else s

/-- The timer interrupt. -/
def timer (n : Nat) (s : State T P) : Option (State T P) :=
  tick n { s with pitTicks := s.pitTicks + 1 }

/-! ## The blocks of the interface -/

/-- `AddThread`, and the part of `UnblockThread` behind its check. -/
def makeReady (s : State T P) (t : Ptr T) : State T P :=
  queuePushBack (s.setState t .ready) t

def blockCurrentThread (s : State T P) : State T P :=
  match s.current with
  | none => s
  | some t => s.setState t .blocked

theorem blockCurrentThread_eq {s : State T P} {t : Ptr T} (current : s.current = some t) :
    blockCurrentThread s = s.setState t .blocked := by
  unfold blockCurrentThread
  rw [current]

def ticksNeeded (ms : u32) : u64 :=
  let ticks := (ms.setWidth 64 * 100#64 + 999#64) / 1000#64
  if ticks = 0 then 1 else ticks

/-- `Sleep` before its `Schedule()`. -/
def sleep (s : State T P) (ms : u32) : State T P :=
  if ms = 0 then s
  else
    match s.current with
    | none => s
    | some t =>
      let s := s.write t
        { s.mem t with
          sleepUntil := s.pitTicks + ticksNeeded ms
          sleepNext := s.sleepHead
          state := .blocked }
      { s with sleepHead := some t }

/-- After `Init`, with the main thread's record filled in by `PS::Init`. -/
structure Initial (s : State T P) (main : T) : Prop where
  sentinel : ∀ pri, (s.mem (.sentinel pri)).next = some (.sentinel pri) ∧
    (s.mem (.sentinel pri)).prev = some (.sentinel pri)
  thread : ∀ t, (s.mem (.thread t)).next = none ∧ (s.mem (.thread t)).prev = none ∧
    (s.mem (.thread t)).sleepNext = none
  sleepHead : s.sleepHead = none
  active : s.active = false
  current : s.current = none

/-- `Start`. -/
def start (s : State T P) (main : T) : State T P :=
  { s.setState (.thread main) .running with
    current := some (.thread main)
    quantum := QUANTUM_TICKS
    active := true }

/-! ## What the scheduler leaves alone

A relation between the old and the new record of every thread that holds across a write
of a link, of a sleep field, or of a state other than TERMINATED holds across every
function above. -/

/-- `R` survives what the scheduler writes. -/
structure Linking (R : KThread T P → KThread T P → Prop) : Prop where
  refl : ∀ k, R k k
  trans : ∀ {k k' k''}, R k k' → R k' k'' → R k k''
  next : ∀ k n, R k { k with next := n }
  prev : ∀ k n, R k { k with prev := n }
  sleepNext : ∀ k n, R k { k with sleepNext := n }
  sleepUntil : ∀ k n, R k { k with sleepUntil := n }
  state : ∀ k x, x ≠ .terminated → R k { k with state := x }

/-- The links and the states may differ, as far as `R` allows; nothing else does. -/
structure Relinked (R : KThread T P → KThread T P → Prop) (s t : State T P) : Prop where
  fields : ∀ p, R (s.mem p) (t.mem p)
  cr3 : t.cr3 = s.cr3
  cpu : t.cpu = s.cpu
  current : t.current = s.current
  active : t.active = s.active

variable {R : KThread T P → KThread T P → Prop} {s t u : State T P} {p q : Ptr T}
  {k : KThread T P} (hR : Linking R)

include hR

theorem Linking.relinked_refl (s : State T P) : Relinked R s s :=
  ⟨fun _ => hR.refl _, rfl, rfl, rfl, rfl⟩

theorem Linking.write (h : Relinked R s t) (same : R (t.mem p) k) : Relinked R s (t.write p k) := by
  refine ⟨fun a => hR.trans (h.fields a) ?_, h.cr3, h.cpu, h.current, h.active⟩
  unfold State.write
  dsimp only
  by_cases e : a = p
  · subst e
    rw [Function.update_self]
    exact same
  · rw [Function.update_of_ne e]
    exact hR.refl _

theorem Linking.setState (h : Relinked R s t) {x : ThreadState} (alive : x ≠ .terminated) :
    Relinked R s (t.setState p x) := hR.write h (hR.state _ x alive)

theorem Linking.setNext (h : Relinked R s t) (a n : Option (Ptr T)) :
    Relinked R s (t.setNext a n) := by
  cases a with
  | none => exact h
  | some a => exact hR.write h (hR.next _ n)

theorem Linking.setPrev (h : Relinked R s t) (a n : Option (Ptr T)) :
    Relinked R s (t.setPrev a n) := by
  cases a with
  | none => exact h
  | some a => exact hR.write h (hR.prev _ n)

theorem Linking.queuePushBack (h : Relinked R s t) (a : Ptr T) :
    Relinked R s (queuePushBack t a) := by
  unfold Sched.queuePushBack
  extract_lets sen t1 t2 t3
  have h1 : Relinked R s t1 := hR.setNext h _ _
  have h2 : Relinked R s t2 := hR.setPrev h1 _ _
  have h3 : Relinked R s t3 := hR.setNext h2 _ _
  exact hR.setPrev h3 _ _

theorem Linking.queueRemove (h : Relinked R s t) (a : Ptr T) : Relinked R s (queueRemove t a) := by
  unfold Sched.queueRemove
  split
  · exact h
  · extract_lets t1 t2 t3
    have h1 : Relinked R s t1 := hR.setNext h _ _
    have h2 : Relinked R s t2 := hR.setPrev h1 _ _
    have h3 : Relinked R s t3 := hR.setNext h2 _ _
    exact hR.setPrev h3 _ _

theorem Linking.queuePop (h : Relinked R s t) {r : State T P × Option (Ptr T)}
    (popped : queuePop t = r) : Relinked R s r.1 := by
  subst popped
  unfold Sched.queuePop
  split
  · exact h
  · split
    · exact h
    · exact hR.queueRemove h _

theorem Linking.setSlot (h : Relinked R s t) (a n : Option (Ptr T)) :
    Relinked R s (t.setSlot a n) := by
  cases a with
  | none => exact ⟨h.fields, h.cr3, h.cpu, h.current, h.active⟩
  | some a => exact hR.write h (hR.sleepNext _ n)

theorem Linking.wake (h : Relinked R s t) (pp : Option (Ptr T)) (a : Ptr T) :
    Relinked R s (wake t pp a) := by
  unfold Sched.wake
  extract_lets t1 k t2
  have h1 : Relinked R s t1 := hR.setSlot h _ _
  have woken : R (t1.mem a) { t1.mem a with sleepNext := none, sleepUntil := 0, state := .ready } :=
    hR.trans (hR.trans (hR.sleepNext _ none) (hR.sleepUntil _ 0))
      (hR.state _ .ready ThreadState.noConfusion)
  have h2 : Relinked R s t2 := hR.write h1 woken
  exact hR.queuePushBack h2 a

theorem Linking.wakeFrom (h : Relinked R s t) {n : Nat} {pp : Option (Ptr T)}
    (woke : wakeFrom n t pp = some u) : Relinked R s u := by
  induction n generalizing t pp with
  | zero => cases woke
  | succ n ih =>
    unfold Sched.wakeFrom at woke
    split at woke
    · cases woke
      exact h
    · split at woke
      · exact ih (hR.wake h _ _) woke
      · exact ih h woke

theorem Linking.makeReady (h : Relinked R s t) (a : Ptr T) : Relinked R s (makeReady t a) :=
  hR.queuePushBack (hR.setState h ThreadState.noConfusion) _

theorem Linking.blockCurrentThread (h : Relinked R s t) : Relinked R s (blockCurrentThread t) := by
  unfold Sched.blockCurrentThread
  split
  · exact h
  · exact hR.setState h ThreadState.noConfusion

theorem Linking.sleep (h : Relinked R s t) (ms : u32) : Relinked R s (sleep t ms) := by
  unfold Sched.sleep
  split
  · exact h
  · split
    · exact h
    case h_2 a current =>
      extract_lets running t1
      have slept : ∀ k : KThread T P,
          R k { k with sleepUntil := t.pitTicks + ticksNeeded ms, sleepNext := t.sleepHead, state := .blocked } :=
        fun k => hR.trans (hR.trans (hR.sleepUntil k _) (hR.sleepNext _ t.sleepHead))
          (hR.state _ .blocked ThreadState.noConfusion)
      have linked : Relinked R s t1 := hR.write h (slept _)
      exact ⟨linked.fields, linked.cr3, linked.cpu, linked.current, linked.active⟩

/-- A switch changes the current thread, but no record beyond `R`. -/
theorem Linking.switchTo (h : Relinked R s t) (prev next q : Ptr T) :
    R (s.mem q) ((switchTo t prev next).mem q) := by
  unfold Sched.switchTo
  extract_lets t1 t2 running t3
  have h1 : Relinked R s t1 := by
    change Relinked R s (if _ then _ else _)
    split
    · exact hR.queuePushBack (hR.setState h ThreadState.noConfusion) prev
    · exact h
  have h2 : Relinked R s (t1.setState next .running) := hR.setState h1 ThreadState.noConfusion
  exact h2.fields q

theorem Linking.scheduleInternal (h : Relinked R s t) (q : Ptr T) :
    R (s.mem q) ((scheduleInternal t).mem q) := by
  unfold Sched.scheduleInternal
  split
  · exact h.fields q
  · split
    · exact h.fields q
    · split
      case h_1 u popped => exact (hR.queuePop h popped).fields q
      case h_2 u next popped =>
        have hu : Relinked R s u := hR.queuePop h popped
        split
        · exact (hR.queuePushBack hu next).fields q
        · exact hR.switchTo hu _ next q

/-- The timer interrupt. -/
theorem Linking.timer {n : Nat} (ticked : timer n s = some t) (q : Ptr T) :
    R (s.mem q) (t.mem q) := by
  unfold Sched.timer tick at ticked
  split at ticked
  · cases ticked
    exact hR.refl _
  · obtain ⟨u, woke, rfl⟩ := Option.map_eq_some_iff.mp ticked
    have start : Relinked R s { s with pitTicks := s.pitTicks + 1 } :=
      ⟨fun _ => hR.refl _, rfl, rfl, rfl, rfl⟩
    have hu : Relinked R s u := hR.wakeFrom start woke
    split
    · extract_lets u1
      have hu1 : Relinked R s u1 := ⟨hu.fields, hu.cr3, hu.cpu, hu.current, hu.active⟩
      split
      · exact hR.scheduleInternal hu1 q
      · exact hu.fields q
    · exact hu.fields q

end MicroNT.Sched
