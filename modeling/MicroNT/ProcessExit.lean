import Mathlib.Data.Finset.Card
import MicroNT.Base.Machine
import MicroNT.Base.Tally
import MicroNT.MachineContext

/-! # Processes that end (`process.cpp`, waits for a process)

`TerminateCurrentThread` and `KillProcess` run with interrupts on, statement by
statement, and so does a wait up to its `DisableInterrupts()`. The current thread takes
the next step of its call, and the timer may come between any two steps. Whatever else
the kernel does with threads is a block that runs with interrupts off. -/

set_option linter.unusedSectionVars false

namespace MicroNT.PS

open Base.Machine Base.Tally
open Sched (Ptr KThread State newThread scheduleInternal makeReady blockCurrentThread)

abbrev THREAD_REG_SIZE : Nat := 64
abbrev PROC_REG_SIZE : Nat := 32

/-- The size of the kernel heap in bytes. It gives out new memory only. -/
abbrev HEAP_SIZE : Nat := 1024 * 4096

structure KProcess (T : Type) where
  threadCount : u32
  exited : Bool
  exitWaiters : Option (Ptr T)

/-- What `AllocZeroed` returns. -/
def KProcess.zero {T : Type} : KProcess T := ⟨0, false, none⟩

/-- Who sets `exited` and wakes the waiters. -/
inductive Caller
  | terminate | kill
  deriving DecidableEq

/-- The next statement of the call a thread is in. Two marks belong to no variable of the
code: whether `KillProcess` has terminated a thread, and whether it is this call that
changed `exited`. -/
inductive Pc (T P : Type)
  | idle
  | waitLink (p : P)
  | waitSchedule
  | termTest (p : P)
  | termCount (p : P)
  | termSchedule
  | halted
  | killMark (p : P) (i : Nat) (marked : Bool)
  | killCount (p : P) (marked : Bool)
  | exitSet (p : P) (who : Caller)
  | exitTake (p : P) (who : Caller) (first : Bool)
  | exitClear (p : P) (who : Caller) (first : Bool) (w : Option (Ptr T))
  | wakeNext (p : P) (who : Caller) (w : Ptr T)
  | wakeClear (p : P) (who : Caller) (w : Ptr T) (nxt : Option (Ptr T))
  | wakeTest (p : P) (who : Caller) (w : Ptr T) (nxt : Option (Ptr T))
  | wakePush (p : P) (who : Caller) (w : Ptr T) (nxt : Option (Ptr T))
  | newCount (t : T) (p : P) (user : Bool)
  | newReg (t : T)
  deriving DecidableEq

/-- The kernel. Records are `allocated` first, and threads when their process has counted
them. The threads that linked themselves into `exit_waiters` and for which
`UnblockThread` has not been called yet are kept as a list. -/
structure System (T P : Type) where
  sched : State T P
  proc : P → KProcess T
  pc : T → Pc T P
  threadReg : List T
  procReg : List P
  system : P
  known : P → Bool
  allocated : Finset T
  threads : Finset T
  waiters : P → List (Ptr T)

variable {T P : Type}

section

variable [DecidableEq T] [DecidableEq P]

def System.with (sys : System T P) (s : State T P) : System T P := { sys with sched := s }

def System.goto (sys : System T P) (c : T) (x : Pc T P) : System T P :=
  { sys with pc := Function.update sys.pc c x }

def System.setProc (sys : System T P) (p : P) (k : KProcess T) : System T P :=
  { sys with proc := Function.update sys.proc p k }

/-- `UnblockThread` is through with a waiter. -/
def System.released (sys : System T P) (p : P) (w : Ptr T) : System T P :=
  { sys with waiters := Function.update sys.waiters p ((sys.waiters p).erase w) }

/-- The process counts a new thread. -/
def System.counted (sys : System T P) (t : T) (p : P) : System T P :=
  { sys.setProc p { sys.proc p with threadCount := (sys.proc p).threadCount + 1 } with
    threads := insert t sys.threads }

/-- The head of the loop over the waiters. -/
def walk (p : P) (who : Caller) : Option (Ptr T) → Pc T P
  | some w => .wakeNext p who w
  | none =>
    match who with
    | .terminate => .termSchedule
    | .kill => .idle

/-- The part of a wait that runs with interrupts off. -/
def waitLink (sys : System T P) (c : T) (p : P) : System T P :=
  let s := sys.sched
  let s := s.setWaitNext (.thread c) (sys.proc p).exitWaiters
  let sys := sys.setProc p { sys.proc p with exitWaiters := some (.thread c) }
  { sys with
    sched := blockCurrentThread s
    waiters := Function.update sys.waiters p (.thread c :: sys.waiters p) }

/-- The next step of the current thread `c`, which is inside a call. -/
def proceed (sys : System T P) (c : T) : Option (System T P) :=
  let s := sys.sched
  match sys.pc c with
  | .idle => none
  | .halted => none
  | .waitLink p => some ((waitLink sys c p).goto c .waitSchedule)
  | .waitSchedule => some ((sys.with (scheduleInternal s)).goto c .idle)
  | .termTest p =>
    some (sys.goto c (if (sys.proc p).threadCount > 0 then .termCount p else .termSchedule))
  | .termCount p =>
    let n := (sys.proc p).threadCount - 1
    some ((sys.setProc p { sys.proc p with threadCount := n }).goto c
      (if n = 0 then .exitSet p .terminate else .termSchedule))
  | .termSchedule => some ((sys.with (scheduleInternal s)).goto c .halted)
  | .killMark p i marked =>
    match sys.threadReg[i]? with
    | none => some (sys.goto c (.killCount p marked))
    | some t =>
      if (s.mem (.thread t)).process = some p ∧ (s.mem (.thread t)).state ≠ .terminated then
        some ((sys.with (s.setState (.thread t) .terminated)).goto c (.killMark p (i + 1) true))
      else some (sys.goto c (.killMark p (i + 1) marked))
  | .killCount p _ =>
    some ((sys.setProc p { sys.proc p with threadCount := 0 }).goto c (.exitSet p .kill))
  | .exitSet p who =>
    some ((sys.setProc p { sys.proc p with exited := true }).goto c
      (.exitTake p who (!(sys.proc p).exited)))
  | .exitTake p who first => some (sys.goto c (.exitClear p who first (sys.proc p).exitWaiters))
  | .exitClear p who _ w =>
    some ((sys.setProc p { sys.proc p with exitWaiters := none }).goto c (walk p who w))
  | .wakeNext p who w => some (sys.goto c (.wakeClear p who w (s.mem w).waitNext))
  | .wakeClear p who w nxt =>
    some ((sys.with (s.setWaitNext w none)).goto c (.wakeTest p who w nxt))
  | .wakeTest p who w nxt =>
    if (s.mem w).state = .terminated then some ((sys.released p w).goto c (walk p who nxt))
    else some (sys.goto c (.wakePush p who w nxt))
  | .wakePush p who w nxt =>
    some (((sys.released p w).with (makeReady s w)).goto c (walk p who nxt))
  | .newCount t p user =>
    some ((sys.counted t p).goto c (if user then .newReg t else .idle))
  | .newReg t =>
    some (({ sys with
      threadReg :=
        if sys.threadReg.length < THREAD_REG_SIZE then sys.threadReg ++ [t] else sys.threadReg } :
      System T P).goto c .idle)

/-- What a thread may start. The last seven are blocks of other code. -/
inductive Call (T P : Type)
  | wait (p : P) (timeout : u64)
  | terminate
  | kill (p : P)
  | createProcess (p : P) (cr3 : u64)
  | createThread (t : T) (user : Bool) (process : Option P) (stackBase stackSize teb : u64)
  | schedule
  | block
  | makeReady (t : T)
  | sleep (ms : u32)
  | remove (t : T)
  | setPriority (t : T) (pri : u32)
  | link (t : T) (v : Option (Ptr T))

/-- Up to the first point where the timer may come in, or the whole block. The search of
`KillProcess` changes nothing before it stops. -/
def call (sys : System T P) (c : T) (a : Call T P) : Option (System T P) :=
  let s := sys.sched
  match a with
  | .wait p timeout =>
    if sys.known p then
      some (if (sys.proc p).exited ∨ timeout = 0 then sys else sys.goto c (.waitLink p))
    else none
  | .terminate =>
    some ((sys.with (s.setState (.thread c) .terminated)).goto c
      (match (s.mem (.thread c)).process with
        | some p => .termTest p
        | none => .termSchedule))
  | .kill p =>
    some (if p ∈ sys.procReg ∧ (sys.proc p).exited = false then sys.goto c (.killMark p 0 false)
      else sys)
  -- the record is new: it still is the zeros that no other step has touched
  | .createProcess p cr3 =>
    if sys.known p = false then
      some { sys with
        sched := Sched.createProcess s p cr3
        known := Function.update sys.known p true
        procReg :=
          if sys.procReg.length < PROC_REG_SIZE then sys.procReg ++ [p] else sys.procReg }
    else none
  | .createThread t user process stackBase stackSize teb =>
    let p := process.getD sys.system
    if t ∉ sys.allocated ∧ sys.allocated.card < HEAP_SIZE ∧ sys.known p then
      some (({ sys with
        sched := s.write (.thread t) (newThread user p stackBase stackSize teb)
        allocated := insert t sys.allocated } : System T P).goto c (.newCount t p user))
    else none
  | .schedule => some (sys.with (scheduleInternal s))
  | .block => some (sys.with (blockCurrentThread s))
  | .makeReady t => if t ∈ sys.threads then some (sys.with (makeReady s (.thread t))) else none
  | .sleep ms => some (sys.with (Sched.sleep s ms))
  | .remove t =>
    if t ∈ sys.threads then some (sys.with (Sched.queueRemove s (.thread t))) else none
  | .setPriority t pri =>
    if t ∈ sys.threads then
      some (sys.with (s.write (.thread t) { s.mem (.thread t) with priority := pri }))
    else none
  | .link t v =>
    if t ∈ sys.threads then some (sys.with (s.setWaitNext (.thread t) v)) else none

inductive Op (T P : Type)
  | timer (n : Nat)
  | go
  | call (a : Call T P)

/-- The timer, the next step of the current thread's call, or a call that it starts. -/
def step (sys : System T P) : Op T P → Option (System T P)
  | .timer n => (Sched.timer n sys.sched).map sys.with
  | .go =>
    match sys.sched.current with
    | some (.thread c) => proceed sys c
    | _ => none
  | .call a =>
    match sys.sched.current with
    | some (.thread c) => if sys.pc c = .idle then call sys c a else none
    | _ => none

/-- After `PS::Init` and `Start`: the main thread alone, in the System process. -/
structure Booted (sys : System T P) (main : T) : Prop where
  current : sys.sched.current = some (.thread main)
  running : (sys.sched.mem (.thread main)).state = .running
  process : (sys.sched.mem (.thread main)).process = some sys.system
  next : ∀ q r, (sys.sched.mem q).next = some r → ∃ pri, r = .sentinel pri
  prev : ∀ q r, (sys.sched.mem q).prev = some r → ∃ pri, r = .sentinel pri
  sleepNext : ∀ q, (sys.sched.mem q).sleepNext = none
  sleepHead : sys.sched.sleepHead = none
  system : sys.proc sys.system = ⟨1, false, none⟩
  others : ∀ p, p ≠ sys.system → sys.proc p = KProcess.zero
  pc : ∀ t, sys.pc t = .idle
  threadReg : sys.threadReg = []
  procReg : sys.procReg = [sys.system]
  known : ∀ p, sys.known p = true ↔ p = sys.system
  allocated : sys.allocated = {main}
  threads : sys.threads = {main}
  waiters : ∀ p, sys.waiters p = []

end

end MicroNT.PS
