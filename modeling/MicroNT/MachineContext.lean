import MicroNT.Base.Machine
import MicroNT.SchedulerPointers

/-! # The machine context (`ScheduleInternal`, `SetTSSRsp0`, `CreateUserThread`)

`ScheduleInternal` is the only code that writes `CR3`, the two copies of the kernel
stack's top and the GS base, and it writes them whenever another thread becomes the
current one. The rest of the kernel may link threads into the queues in any order. -/

set_option linter.unusedSectionVars false

namespace MicroNT.Sched

open Base.Machine

/-- The scheduler and the objects that exist. The heap gives out new memory only, so a
thread or a process is created once. -/
structure System (T P : Type) where
  state : State T P
  main : T
  systemProcess : P
  created : T → Bool
  user : T → Bool
  known : P → Bool

variable {T P : Type}

section

variable [DecidableEq T] [DecidableEq P]

/-- `CreateProcess`. -/
def createProcess (s : State T P) (p : P) (cr3 : u64) : State T P :=
  { s with
    cr3 := Function.update s.cr3 p (if cr3 ≠ 0 then cr3 else s.cpu.cr3 &&& CR3_ADDR_MASK) }

/-- The record that `CreateKernelThread` and `CreateUserThread` fill in; only a user
thread gets a TEB. -/
def newThread (user : Bool) (process : P) (stackBase stackSize teb : u64) : KThread T P :=
  { (KThread.zero : KThread T P) with
    priority := 1
    process := some process
    kernelStackBase := stackBase
    kernelStackSize := stackSize
    tebVa := if user then teb else 0 }

inductive Op (T P : Type)
  | timer (n : Nat)
  | schedule
  | block
  | makeReady (t : T)
  | sleep (ms : u32)
  | remove (t : T)
  | setPriority (t : T) (pri : u32)
  | terminate (t : T)
  | createProcess (p : P) (cr3 : u64)
  | createThread (t : T) (user : Bool) (process : Option P) (stackBase stackSize teb : u64)

def System.with (sys : System T P) (s : State T P) : System T P := { sys with state := s }

/-- The blocks of the kernel that run with interrupts off, in any order. What is linked
or changed exists, and an address space is named by the address of a page. -/
def step (sys : System T P) (op : Op T P) : Option (System T P) :=
  let s := sys.state
  match op with
  | .timer n => (timer n s).map sys.with
  | .schedule => some (sys.with (scheduleInternal s))
  | .block => some (sys.with (blockCurrentThread s))
  | .makeReady t => if sys.created t then some (sys.with (makeReady s (.thread t))) else none
  | .sleep ms => some (sys.with (sleep s ms))
  | .remove t => if sys.created t then some (sys.with (queueRemove s (.thread t))) else none
  | .setPriority t pri =>
    if sys.created t then
      some (sys.with (s.write (.thread t) { s.mem (.thread t) with priority := pri }))
    else none
  | .terminate t =>
    if sys.created t then some (sys.with (s.setState (.thread t) .terminated)) else none
  | .createProcess p cr3 =>
    if sys.known p = false ∧ cr3 &&& CR3_ADDR_MASK = cr3 then
      some { sys with state := createProcess s p cr3, known := Function.update sys.known p true }
    else none
  | .createThread t user process stackBase stackSize teb =>
    let p := process.getD sys.systemProcess
    if sys.created t = false ∧ sys.known p = true then
      some
        { sys with
          state := s.write (.thread t) (newThread user p stackBase stackSize teb)
          created := Function.update sys.created t true
          user := Function.update sys.user t user }
    else none

end

/-- Right after `Start`: the main thread runs, the only thread there is. -/
structure Started (sys : System T P) : Prop where
  current : sys.state.current = some (.thread sys.main)
  created : ∀ t, sys.created t = true ↔ t = sys.main
  user : ∀ t, sys.user t = false
  next : ∀ p q, (sys.state.mem p).next = some q → ∃ pri, q = .sentinel pri
  prev : ∀ p q, (sys.state.mem p).prev = some q → ∃ pri, q = .sentinel pri
  sleepNext : ∀ p, (sys.state.mem p).sleepNext = none
  sleepHead : sys.state.sleepHead = none
  process : ∀ q p, (sys.state.mem q).process = some p → sys.known p = true
  cr3 : sys.state.cpu.cr3 &&& CR3_ADDR_MASK = sys.state.cpu.cr3
  known : ∀ p, sys.known p = true → sys.state.cr3 p &&& CR3_ADDR_MASK = sys.state.cr3 p

/-- The machine has the context of this thread. -/
structure Loaded (s : State T P) (k : KThread T P) : Prop where
  cr3 : ∀ p, k.process = some p → s.cpu.cr3 = s.cr3 p
  rsp0 : s.cpu.rsp0 = k.kernelStackBase + k.kernelStackSize
  kernelRsp0 : s.cpu.kernelRsp0 = k.kernelStackBase + k.kernelStackSize
  gsBase : s.cpu.gsBase = k.tebVa

/-- A user thread that is current has a process, and the machine has its context. -/
def Context (sys : System T P) : Prop :=
  ∀ t, sys.state.current = some (.thread t) → sys.user t = true →
    (∃ p, (sys.state.mem (.thread t)).process = some p) ∧
      Loaded sys.state (sys.state.mem (.thread t))

/-! ## Code that leaves the context alone -/

/-- The fields of a thread that its context comes from. -/
def KThread.SameContext (k k' : KThread T P) : Prop :=
  k'.process = k.process ∧ k'.kernelStackBase = k.kernelStackBase ∧
    k'.kernelStackSize = k.kernelStackSize ∧ k'.tebVa = k.tebVa

theorem linking_sameContext : Linking (KThread.SameContext (T := T) (P := P)) where
  refl _ := ⟨rfl, rfl, rfl, rfl⟩
  trans h h' := ⟨h'.1.trans h.1, h'.2.1.trans h.2.1, h'.2.2.1.trans h.2.2.1,
    h'.2.2.2.trans h.2.2.2⟩
  next _ _ := ⟨rfl, rfl, rfl, rfl⟩
  prev _ _ := ⟨rfl, rfl, rfl, rfl⟩
  sleepNext _ _ := ⟨rfl, rfl, rfl, rfl⟩
  sleepUntil _ _ := ⟨rfl, rfl, rfl, rfl⟩
  state _ _ _ := ⟨rfl, rfl, rfl, rfl⟩

/-- The machine context stays. -/
abbrev Kept (s t : State T P) : Prop := Relinked KThread.SameContext s t

variable {s t u : State T P} {p q : Ptr T} {k : KThread T P} [DecidableEq T]

theorem Kept.refl (s : State T P) : Kept s s := linking_sameContext.relinked_refl s

/-! ## Switches load the context -/

/-- The comparison of `ScheduleInternal` skips the write only if nothing would change. -/
theorem loadContext_loaded (plain : s.cpu.cr3 &&& CR3_ADDR_MASK = s.cpu.cr3) (next : Ptr T) :
    Loaded { s with cpu := loadContext s next } (s.mem next) := by
  refine ⟨fun p process => ?_, rfl, rfl, rfl⟩
  unfold loadContext
  dsimp only
  rw [process, plain]
  dsimp only
  split
  · rfl
  case isFalse same => exact (not_not.mp same).symm

/-- What becomes of `CR3`. -/
theorem loadContext_cr3 (s : State T P) (next : Ptr T) :
    (loadContext s next).cr3 = s.cpu.cr3 ∨
      ∃ p, (s.mem next).process = some p ∧ (loadContext s next).cr3 = s.cr3 p := by
  unfold loadContext
  dsimp only
  cases (s.mem next).process with
  | none => exact .inl rfl
  | some p =>
    dsimp only
    split
    · exact .inr ⟨p, rfl, rfl⟩
    · exact .inl rfl

/-- Another thread is current, with its context loaded. -/
structure Switched (s t : State T P) (next : Ptr T) : Prop where
  fields : ∀ p, (s.mem p).SameContext (t.mem p)
  cr3 : t.cr3 = s.cr3
  current : t.current = some next
  loaded : Loaded t (t.mem next)
  cpu : t.cpu.cr3 = s.cpu.cr3 ∨ ∃ p, (s.mem next).process = some p ∧ t.cpu.cr3 = s.cr3 p

theorem switched (plain : s.cpu.cr3 &&& CR3_ADDR_MASK = s.cpu.cr3) (h : Kept s t)
    (prev next : Ptr T) : Switched s (switchTo t prev next) next := by
  unfold switchTo
  extract_lets t1 t2 running t3
  have h1 : Kept s t1 := by
    change Kept s (if _ then _ else _)
    split
    · exact linking_sameContext.queuePushBack
        (linking_sameContext.setState h Sync.ThreadState.noConfusion) prev
    · exact h
  have all : Kept s (t1.setState next .running) :=
    linking_sameContext.setState h1 Sync.ThreadState.noConfusion
  have plain3 : t3.cpu.cr3 &&& CR3_ADDR_MASK = t3.cpu.cr3 := by
    have same : t3.cpu = s.cpu := all.cpu
    rw [same]
    exact plain
  have same := all.fields next
  refine ⟨all.fields, all.cr3, rfl, loadContext_loaded plain3 next, ?_⟩
  obtain e | ⟨p, process, e⟩ := loadContext_cr3 t3 next
  · exact .inl (e.trans (congrArg Cpu.cr3 all.cpu))
  · exact .inr ⟨p, same.1.symm.trans process, e.trans (congrFun all.cr3 p)⟩

/-- **Every way through `ScheduleInternal`** leaves the context alone, or loads the one of
the thread that becomes current. -/
theorem scheduleInternal_cases (plain : s.cpu.cr3 &&& CR3_ADDR_MASK = s.cpu.cr3) :
    Kept s (scheduleInternal s) ∨ ∃ next, Switched s (scheduleInternal s) next := by
  unfold scheduleInternal
  split
  · exact .inl (Kept.refl s)
  · split
    · exact .inl (Kept.refl s)
    case h_2 prev _ =>
      split
      case h_1 u popped => exact .inl (linking_sameContext.queuePop (Kept.refl s) popped)
      case h_2 u next popped =>
        have h : Kept s u := linking_sameContext.queuePop (Kept.refl s) popped
        split
        · have pushed : Kept s (queuePushBack u next) := linking_sameContext.queuePushBack h next
          exact .inl ⟨pushed.fields, pushed.cr3, pushed.cpu, pushed.current, pushed.active⟩
        · exact .inr ⟨next, switched plain h prev next⟩

/-! ## The invariant -/

variable [DecidableEq P] {sys : System T P}

/-- The sentinels and the threads that exist. -/
def Exists (sys : System T P) (q : Ptr T) : Prop := ∀ t, q = .thread t → sys.created t = true

structure Inv (sys : System T P) : Prop where
  main : sys.created sys.main = true
  closed : Closed (Exists sys) sys.state
  process : ∀ q p, (sys.state.mem q).process = some p → sys.known p = true
  cr3 : sys.state.cpu.cr3 &&& CR3_ADDR_MASK = sys.state.cpu.cr3
  spaces : ∀ p, sys.known p = true → sys.state.cr3 p &&& CR3_ADDR_MASK = sys.state.cr3 p
  user : ∀ t, sys.user t = true → sys.created t = true ∧ t ≠ sys.main ∧
    ∃ p, (sys.state.mem (.thread t)).process = some p
  loaded : ∀ q, sys.state.current = some q → q = .thread sys.main ∨
    Loaded sys.state (sys.state.mem q)

theorem Inv.context (inv : Inv sys) : Context sys := by
  intro t current user
  obtain ⟨-, other, process⟩ := inv.user t user
  refine ⟨process, (inv.loaded _ current).resolve_left fun e => other ?_⟩
  cases e
  rfl

theorem Loaded.sameContext {k' : KThread T P} (h : Loaded s k) (same : k.SameContext k')
    (cr3 : t.cr3 = s.cr3) (cpu : t.cpu = s.cpu) : Loaded t k' := by
  obtain ⟨process, base, size, teb⟩ := same
  refine ⟨fun p hp => ?_, ?_, ?_, ?_⟩
  all_goals rw [cpu]
  · rw [cr3]
    exact h.cr3 p (process ▸ hp)
  · rw [base, size]
    exact h.rsp0
  · rw [base, size]
    exact h.kernelRsp0
  · rw [teb]
    exact h.gsBase

/-- A step that only links threads or changes their states. -/
theorem Inv.relinked (inv : Inv sys) (h : Kept sys.state t) (closed : Closed (Exists sys) t) :
    Inv (sys.with t) := by
  refine ⟨inv.main, closed, fun q p hp => ?_, ?_, fun p known => ?_, fun a user => ?_,
    fun q current => ?_⟩
  · exact inv.process q p ((h.fields q).1 ▸ hp)
  · show t.cpu.cr3 &&& CR3_ADDR_MASK = t.cpu.cr3
    rw [h.cpu]
    exact inv.cr3
  · show t.cr3 p &&& CR3_ADDR_MASK = t.cr3 p
    rw [h.cr3]
    exact inv.spaces p known
  · obtain ⟨created, other, p, process⟩ := inv.user a user
    exact ⟨created, other, p, (h.fields _).1.trans process⟩
  · have before := inv.loaded q (h.current ▸ current)
    exact before.imp_right fun loaded => loaded.sameContext (h.fields q) h.cr3 h.cpu

/-- A step that switches threads. -/
theorem Inv.switched (inv : Inv sys) {next : Ptr T} (h : Switched sys.state t next)
    (closed : Closed (Exists sys) t) : Inv (sys.with t) := by
  refine ⟨inv.main, closed, fun q p hp => ?_, ?_, fun p known => ?_, fun a user => ?_,
    fun q current => ?_⟩
  · exact inv.process q p ((h.fields q).1 ▸ hp)
  · show t.cpu.cr3 &&& CR3_ADDR_MASK = t.cpu.cr3
    obtain e | ⟨p, process, e⟩ := h.cpu
    · rw [e]
      exact inv.cr3
    · rw [e]
      exact inv.spaces p (inv.process next p process)
  · show t.cr3 p &&& CR3_ADDR_MASK = t.cr3 p
    rw [h.cr3]
    exact inv.spaces p known
  · obtain ⟨created, other, p, process⟩ := inv.user a user
    exact ⟨created, other, p, (h.fields _).1.trans process⟩
  · obtain rfl : next = q := Option.some.inj (h.current.symm.trans current)
    exact .inr h.loaded

theorem Inv.scheduleInternal (inv : Inv sys) : Inv (sys.with (scheduleInternal sys.state)) := by
  obtain relinked | ⟨next, switched⟩ := scheduleInternal_cases inv.cr3
  · exact inv.relinked relinked inv.closed.scheduleInternal
  · exact inv.switched switched inv.closed.scheduleInternal

theorem Inv.timer (inv : Inv sys) {n : Nat} (h : timer n sys.state = some t) :
    Inv (sys.with t) := by
  have ticked : Inv (sys.with { sys.state with pitTicks := sys.state.pitTicks + 1 }) :=
    inv.relinked ⟨fun _ => ⟨rfl, rfl, rfl, rfl⟩, rfl, rfl, rfl, rfl⟩
      ⟨inv.closed.sentinel, inv.closed.next, inv.closed.prev, inv.closed.sleepNext,
        inv.closed.sleepHead, inv.closed.current⟩
  unfold Sched.timer tick at h
  split at h
  · cases h
    exact ticked
  · obtain ⟨u, woke, rfl⟩ := Option.map_eq_some_iff.mp h
    have woken : Inv (sys.with u) :=
      ticked.relinked (linking_sameContext.wakeFrom (Kept.refl _) woke) (ticked.closed.wakeFrom woke)
    split
    · extract_lets u1
      have counted : Inv (sys.with u1) :=
        woken.relinked ⟨fun _ => ⟨rfl, rfl, rfl, rfl⟩, rfl, rfl, rfl, rfl⟩
          ⟨woken.closed.sentinel, woken.closed.next, woken.closed.prev, woken.closed.sleepNext,
            woken.closed.sleepHead, woken.closed.current⟩
      split
      · exact counted.scheduleInternal
      · exact counted
    · exact woken

theorem Inv.createProcess (inv : Inv sys) {p : P} {cr3 : u64} (fresh : sys.known p = false)
    (plain : cr3 &&& CR3_ADDR_MASK = cr3) :
    Inv { sys with
      state := createProcess sys.state p cr3
      known := Function.update sys.known p true } := by
  have other : ∀ a, sys.known a = true → a ≠ p := fun a known e => by
    rw [e, fresh] at known
    cases known
  refine ⟨inv.main, ⟨inv.closed.sentinel, inv.closed.next, inv.closed.prev, inv.closed.sleepNext,
    inv.closed.sleepHead, inv.closed.current⟩, fun q a process => ?_, inv.cr3, fun a known => ?_,
    inv.user, fun q current => ?_⟩
  · have known := inv.process q a process
    exact (Function.update_of_ne (other a known) true sys.known).trans known
  · show Function.update sys.state.cr3 p _ a &&& CR3_ADDR_MASK = Function.update sys.state.cr3 p _ a
    by_cases e : a = p
    · rw [e, Function.update_self]
      split
      · exact plain
      · rw [BitVec.and_assoc, BitVec.and_self]
    · rw [Function.update_of_ne e]
      exact inv.spaces a ((Function.update_of_ne e true sys.known).symm.trans known)
  · refine (inv.loaded q current).imp_right fun loaded => ⟨fun a process => ?_, loaded.rsp0,
      loaded.kernelRsp0, loaded.gsBase⟩
    show sys.state.cpu.cr3 = Function.update sys.state.cr3 p _ a
    rw [Function.update_of_ne (other a (inv.process q a process))]
    exact loaded.cr3 a process

theorem Inv.createThread (inv : Inv sys) {a : T} {p : P} (fresh : sys.created a = false)
    (known : sys.known p = true) (user : Bool) (stackBase stackSize teb : u64) :
    Inv { sys with
      state := sys.state.write (.thread a) (newThread user p stackBase stackSize teb)
      created := Function.update sys.created a true
      user := Function.update sys.user a user } := by
  have other : ∀ b, sys.created b = true → b ≠ a := fun b old e => by
    rw [e, fresh] at old
    cases old
  have more : ∀ q, Exists sys q → ∀ b, q = .thread b → Function.update sys.created a true b = true :=
    fun q old b e => (Function.update_of_ne (other b (old b e)) true sys.created).trans (old b e)
  have stays : ∀ q, q ≠ .thread a →
      (sys.state.write (.thread a) (newThread user p stackBase stackSize teb)).mem q =
        sys.state.mem q := fun q e => Function.update_of_ne e _ _
  have new : (sys.state.write (.thread a) (newThread user p stackBase stackSize teb)).mem
      (.thread a) = newThread user p stackBase stackSize teb := Function.update_self _ _ _
  have old := inv.closed
  have closed : Closed (fun q => ∀ b, q = .thread b → Function.update sys.created a true b = true)
      sys.state := old.mono more
  refine ⟨more _ (fun b e => Ptr.thread.inj e ▸ inv.main) _ rfl,
    closed.write known_none known_none known_none, fun q b process => ?_, inv.cr3, inv.spaces,
    fun b hb => ?_, fun q current => ?_⟩
  · by_cases e : q = .thread a
    · subst e
      rw [new] at process
      exact Option.some.inj process ▸ known
    · rw [stays q e] at process
      exact inv.process q b process
  · by_cases e : b = a
    · subst e
      refine ⟨Function.update_self _ _ _, fun e => ?_, p, by rw [new]; rfl⟩
      exact other sys.main inv.main e.symm
    · obtain ⟨created, apart, process⟩ :=
        inv.user b ((Function.update_of_ne e user sys.user).symm.trans hb)
      refine ⟨(Function.update_of_ne e true sys.created).trans created, apart, ?_⟩
      rw [stays _ fun no => e (Ptr.thread.inj no)]
      exact process
  · have apart : q ≠ .thread a := fun e => by
      have created := old.current q current a e
      rw [fresh] at created
      cases created
    rw [stays q apart]
    exact (inv.loaded q current).imp_right fun loaded =>
      ⟨loaded.cr3, loaded.rsp0, loaded.kernelRsp0, loaded.gsBase⟩

/-- **One block** of kernel code. -/
theorem Inv.step (inv : Inv sys) {op : Op T P} {sys' : System T P}
    (h : Sched.step sys op = some sys') : Inv sys' := by
  have made : ∀ t, sys.created t = true → Exists sys (.thread t) := fun t created a e =>
    Ptr.thread.inj e ▸ created
  cases op with
  | timer n =>
    obtain ⟨t, ticked, rfl⟩ := Option.map_eq_some_iff.mp h
    exact inv.timer ticked
  | schedule =>
    cases h
    exact inv.scheduleInternal
  | block =>
    cases h
    exact inv.relinked (linking_sameContext.blockCurrentThread (Kept.refl _))
      inv.closed.blockCurrentThread
  | makeReady t =>
    obtain ⟨created, ⟨⟩⟩ := Option.ite_none_right_eq_some.mp h
    exact inv.relinked (linking_sameContext.makeReady (Kept.refl _) (.thread t))
      (inv.closed.makeReady (made t created))
  | sleep ms =>
    cases h
    exact inv.relinked (linking_sameContext.sleep (Kept.refl _) ms) (inv.closed.sleep ms)
  | remove t =>
    obtain ⟨created, ⟨⟩⟩ := Option.ite_none_right_eq_some.mp h
    exact inv.relinked (linking_sameContext.queueRemove (Kept.refl _) _) inv.closed.queueRemove
  | setPriority t pri =>
    obtain ⟨created, ⟨⟩⟩ := Option.ite_none_right_eq_some.mp h
    exact inv.relinked (linking_sameContext.write (Kept.refl _) ⟨rfl, rfl, rfl, rfl⟩)
      (inv.closed.write (inv.closed.next _) (inv.closed.prev _) (inv.closed.sleepNext _))
  | terminate t =>
    obtain ⟨created, ⟨⟩⟩ := Option.ite_none_right_eq_some.mp h
    exact inv.relinked (linking_sameContext.write (Kept.refl _) ⟨rfl, rfl, rfl, rfl⟩)
      (inv.closed.setState _)
  | createProcess p cr3 =>
    obtain ⟨⟨fresh, plain⟩, ⟨⟩⟩ := Option.ite_none_right_eq_some.mp h
    exact inv.createProcess fresh plain
  | createThread t user process stackBase stackSize teb =>
    obtain ⟨⟨fresh, known⟩, ⟨⟩⟩ := Option.ite_none_right_eq_some.mp h
    exact inv.createThread fresh known user stackBase stackSize teb

theorem Inv.started (h : Started sys) : Inv sys := by
  have sentinel : ∀ q, (∃ pri, q = .sentinel pri) → Exists sys q := fun q only t e => by
    obtain ⟨pri, rfl⟩ := only
    cases e
  refine ⟨(h.created _).mpr rfl, ⟨fun pri => sentinel _ ⟨pri, rfl⟩, fun q r e => sentinel r (h.next q r e),
    fun q r e => sentinel r (h.prev q r e), fun q r e => ?_, fun r e => ?_, fun r e => ?_⟩,
    h.process, h.cr3, h.known, fun t user => ?_, fun q e => ?_⟩
  · rw [h.sleepNext] at e
    cases e
  · rw [h.sleepHead] at e
    cases e
  · rw [h.current] at e
    cases e
    exact fun t e => (h.created t).mpr (Ptr.thread.inj e).symm
  · rw [h.user] at user
    cases user
  · rw [h.current] at e
    cases e
    exact .inl rfl

/-- **The machine context follows the current thread** in every state of every run after
`Start`. -/
theorem context_follows_current (h : Started sys) (ops : List (Op T P)) :
    Always Sched.step Context sys ops :=
  (always_invariant (G := fun _ _ => True) (fun _ _ _ inv _ h => inv.step h) (Inv.started h)
    (along_of_forall (fun _ _ => trivial) sys ops)).mono fun _ inv => inv.context

/-- Empty queues, and the main thread. -/
def bootMem : Ptr Bool → KThread Bool Unit
  | .sentinel pri =>
    { (KThread.zero : KThread Bool Unit) with
      next := some (.sentinel pri)
      prev := some (.sentinel pri) }
  | .thread _ => { (KThread.zero : KThread Bool Unit) with state := .running, process := some () }

/-- A machine right after `Start`, with room for one more thread. -/
def booted : System Bool Unit :=
  { state :=
      ⟨bootMem, fun _ => 0x1000, some (.thread false), true, QUANTUM_TICKS, none, 0,
        ⟨0x1000, 0, 0, 0⟩⟩
    main := false
    systemProcess := ()
    created := fun t => !t
    user := fun _ => false
    known := fun _ => true }

theorem booted_started : Started booted where
  current := rfl
  created t := by cases t <;> decide
  user _ := rfl
  next p q e := by
    cases p with
    | sentinel pri =>
      cases e
      exact ⟨pri, rfl⟩
    | thread t => cases e
  prev p q e := by
    cases p with
    | sentinel pri =>
      cases e
      exact ⟨pri, rfl⟩
    | thread t => cases e
  sleepNext p := by cases p <;> rfl
  sleepHead := rfl
  process _ _ _ := rfl
  cr3 := by decide
  known _ _ := (by decide : 0x1000#64 &&& CR3_ADDR_MASK = 0x1000#64)

/-- A user thread is created and becomes current. -/
theorem context_follows_current_user :
    Always Sched.step Context booted
        [.createThread true true none 0x8000 0x4000 0x7FFFE100000, .makeReady true, .schedule] ∧
      (run Sched.step booted
        [.createThread true true none 0x8000 0x4000 0x7FFFE100000, .makeReady true,
          .schedule]).map (fun sys => (sys.state.current, sys.user true, sys.state.cpu.rsp0)) =
        some (some (.thread true), true, 0xC000) :=
  ⟨context_follows_current booted_started _, by rfl⟩

end MicroNT.Sched
