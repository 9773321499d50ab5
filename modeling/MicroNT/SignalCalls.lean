import MicroNT.ProcessExit
import MicroNT.Semaphore
import MicroNT.Mutant
import MicroNT.Event

/-! # Waits and releases beside `KillProcess` (`syscall.cpp`, `event.cpp`)

Semaphores, mutants and events on top of processes that end. The current thread takes the
next statement of its call, and the timer may come in between wherever interrupts are on.
A wait runs with interrupts off up to its `Schedule()`. `UnblockThread` turns interrupts
on, so the release of a semaphore runs with them off up to the first thread it wakes. -/

set_option linter.unusedSectionVars false

namespace MicroNT.Signals

open Base.Machine Base.Chain
open Sched (Ptr State scheduleInternal makeReady blockCurrentThread)
open Sync (KSema KMutant KEvent i32)
open Sync.Semaphore (units)

/-- The next statement of the call a thread is in. `off` tells that a release of a
semaphore has interrupts off; `w` is its `t`, or that of `EventSet`. -/
inductive Pc (T H : Type)
  | idle
  | schedule
  | semaTest (h : H) (rel : Nat) (off : Bool)
  | semaTake (h : H) (rel : Nat) (off : Bool)
  | semaUnlink (h : H) (rel : Nat) (off : Bool) (w : Ptr T)
  | semaLast (h : H) (rel : Nat) (off : Bool) (w : Ptr T)
  | semaClear (h : H) (rel : Nat) (off : Bool) (w : Ptr T)
  | semaUnblock (h : H) (rel : Nat) (off : Bool) (w : Ptr T)
  | semaPush (h : H) (rel : Nat) (off : Bool) (w : Ptr T)
  | semaCompare (h : H) (rel : Nat) (off : Bool)
  | semaLoad (h : H) (rel : Nat) (off : Bool)
  | semaStore (h : H) (v : i32) (off : Bool)
  | mutantRelease (h : H)
  | eventUnblock (h : H) (w : Ptr T)
  | eventPush (h : H) (w : Ptr T)
  deriving DecidableEq

/-- Interrupts are off before the statement. -/
def Pc.off {T H : Type} : Pc T H → Bool
  | .semaTest _ _ off | .semaTake _ _ off | .semaUnlink _ _ off _ | .semaLast _ _ off _
  | .semaClear _ _ off _ | .semaUnblock _ _ off _ | .semaPush _ _ off _ | .semaCompare _ _ off
  | .semaLoad _ _ off | .semaStore _ _ off => off
  | .idle | .schedule | .mutantRelease _ | .eventUnblock _ _ | .eventPush _ _ => false

/-- The objects of each kind, and the rest of the kernel. -/
structure System (T P H : Type) where
  ps : PS.System T P
  sema : H → KSema (Ptr T)
  mutant : H → KMutant (Ptr T)
  event : H → KEvent (Ptr T)
  pc : T → Pc T H

variable {T P H : Type} [DecidableEq T] [DecidableEq P] [DecidableEq H]

def System.sched (sys : System T P H) : State T P := sys.ps.sched

def System.with (sys : System T P H) (s : State T P) : System T P H := { sys with ps := sys.ps.with s }

def System.goto (sys : System T P H) (c : T) (x : Pc T H) : System T P H :=
  { sys with pc := Function.update sys.pc c x }

def System.setSema (sys : System T P H) (h : H) (v : KSema (Ptr T)) : System T P H :=
  { sys with sema := Function.update sys.sema h v }

def System.setMutant (sys : System T P H) (h : H) (v : KMutant (Ptr T)) : System T P H :=
  { sys with mutant := Function.update sys.mutant h v }

def System.setEvent (sys : System T P H) (h : H) (v : KEvent (Ptr T)) : System T P H :=
  { sys with event := Function.update sys.event h v }

/-! ## Waits -/

/-- `cur` at the end of a wait list. -/
def append (s : State T P) (ends : Ends (Ptr T)) (cur : Ptr T) : State T P × Ends (Ptr T) :=
  let s := s.setWaitNext cur none
  match ends.tail with
  | some z => (s.setWaitNext z (some cur), ⟨ends.head, some cur⟩)
  | none => (s, ⟨some cur, some cur⟩)

/-- `NtWaitForSingleObject` on a semaphore, up to its return or its `Schedule()`. -/
def waitSemaphore (sys : System T P H) (c : T) (h : H) (timeout : u64) : System T P H :=
  let v := sys.sema h
  if 0 < v.count.toInt then sys.setSema h { v with count := v.count - 1 }
  else if timeout = 0 then sys
  else
    let r := append sys.sched v.ends (.thread c)
    ((sys.with (blockCurrentThread r.1)).setSema h { v with ends := r.2 }).goto c .schedule

/-- The same on a mutant. -/
def waitMutant (sys : System T P H) (c : T) (h : H) : System T P H :=
  let v := sys.mutant h
  if v.owner = none then sys.setMutant h { v with owner := some (.thread c), depth := 1 }
  else if v.owner = some (.thread c) then sys.setMutant h { v with depth := v.depth + 1 }
  else
    let r := append sys.sched v.ends (.thread c)
    ((sys.with (blockCurrentThread r.1)).setMutant h { v with ends := r.2 }).goto c .schedule

/-- `EventWait`. -/
def eventWait (sys : System T P H) (c : T) (h : H) (timeout : u32) : System T P H :=
  let v := sys.event h
  if v.signaled then
    if v.autoReset then sys.setEvent h { v with signaled := false } else sys
  else if timeout = 0 then sys
  else
    let s := sys.sched.setWaitNext (.thread c) v.waiters
    ((sys.with (s.setState (.thread c) .blocked)).setEvent h
      { v with waiters := some (.thread c) }).goto c .schedule

/-! ## Releases -/

/-- `UnblockThread` where no thread comes in between. -/
def unblockThread (s : State T P) (w : Ptr T) : State T P :=
  if (s.mem w).state = .terminated then s else makeReady s w

/-- `NtReleaseMutant` behind its test of the owner. -/
def releaseMutant (sys : System T P H) (h : H) : System T P H :=
  let v := sys.mutant h
  let depth := v.depth - 1
  if depth = 0 then
    match v.ends.head with
    | some w =>
      let next := (sys.sched.mem w).waitNext
      let ends : Ends (Ptr T) := ⟨next, if next = none then none else v.ends.tail⟩
      (sys.with (unblockThread (sys.sched.setWaitNext w none) w)).setMutant h ⟨some w, 1, ends⟩
    | none => sys.setMutant h { v with owner := none, depth := depth }
  else sys.setMutant h { v with depth := depth }

/-- `EventSet` up to its first `EnableInterrupts()`. -/
def eventSet (sys : System T P H) (c : T) (h : H) : System T P H :=
  let v := sys.event h
  match v.waiters with
  | some w =>
    let v := { v with waiters := (sys.sched.mem w).waitNext }
    let v := if !v.autoReset then { v with signaled := true } else v
    let s := sys.sched.setWaitNext w none
    ((sys.with (s.setState w .ready)).setEvent h v).goto c (.eventUnblock h w)
  | none => sys.setEvent h { v with signaled := true }

/-- The next step of the current thread `c`, which is inside a call. -/
def proceed (sys : System T P H) (c : T) : Option (System T P H) :=
  let s := sys.sched
  match sys.pc c with
  | .idle => none
  | .schedule => some ((sys.with (scheduleInternal s)).goto c .idle)
  | .semaTest h rel off =>
    some (sys.goto c (if 0 < rel ∧ (sys.sema h).ends.head ≠ none then .semaTake h rel off
      else .semaCompare h rel off))
  | .semaTake h rel off => (sys.sema h).ends.head.map fun w => sys.goto c (.semaUnlink h rel off w)
  | .semaUnlink h rel off w =>
    let ends : Ends (Ptr T) := { (sys.sema h).ends with head := (s.mem w).waitNext }
    some ((sys.setSema h { sys.sema h with ends := ends }).goto c (.semaLast h rel off w))
  | .semaLast h rel off w =>
    let tail := if (sys.sema h).ends.head = none then none else (sys.sema h).ends.tail
    let ends : Ends (Ptr T) := { (sys.sema h).ends with tail := tail }
    some ((sys.setSema h { sys.sema h with ends := ends }).goto c (.semaClear h rel off w))
  | .semaClear h rel off w =>
    some ((sys.with (s.setWaitNext w none)).goto c (.semaUnblock h rel off w))
  | .semaUnblock h rel off w =>
    some (sys.goto c (if (s.mem w).state = .terminated then .semaTest h (rel - 1) off
      else .semaPush h rel off w))
  | .semaPush h rel _ w =>
    some ((sys.with (makeReady s w)).goto c (.semaTest h (rel - 1) false))
  | .semaCompare h rel off =>
    let v := sys.sema h
    some (sys.goto c (if v.maxCount.toInt < (v.count + BitVec.ofNat 32 rel).toInt then
      .semaStore h v.maxCount off else .semaLoad h rel off))
  | .semaLoad h rel off =>
    some (sys.goto c (.semaStore h ((sys.sema h).count + BitVec.ofNat 32 rel) off))
  | .semaStore h v _ => some ((sys.setSema h { sys.sema h with count := v }).goto c .idle)
  | .mutantRelease h => some ((releaseMutant sys h).goto c .idle)
  | .eventUnblock h w =>
    some (sys.goto c (if (s.mem w).state = .terminated then .idle else .eventPush h w))
  | .eventPush _ w => some ((sys.with (makeReady s w)).goto c .idle)

/-- What a thread may start. The calls of `ps` do not write into wait lists of their own. -/
inductive Call (T P H : Type)
  | ps (a : PS.Call T P)
  | waitSemaphore (h : H) (timeout : u64)
  | waitMutant (h : H)
  | waitEvent (h : H) (timeout : u32)
  | releaseSemaphore (h : H) (a2 : u64)
  | releaseMutant (h : H)
  | setEvent (h : H)
  | resetEvent (h : H)

def call (sys : System T P H) (c : T) : Call T P H → Option (System T P H)
  | .ps (.link _ _) => none
  | .ps a => (PS.call sys.ps c a).map fun ps => { sys with ps := ps }
  | .waitSemaphore h timeout => some (waitSemaphore sys c h timeout)
  | .waitMutant h => some (waitMutant sys c h)
  | .waitEvent h timeout => some (eventWait sys c h timeout)
  | .releaseSemaphore h a2 => some (sys.goto c (.semaTest h (units a2) true))
  | .releaseMutant h =>
    some (if (sys.mutant h).owner ≠ some (.thread c) then sys else sys.goto c (.mutantRelease h))
  | .setEvent h => some (eventSet sys c h)
  | .resetEvent h => some (sys.setEvent h { sys.event h with signaled := false })

inductive Op (T P H : Type)
  | timer (n : Nat)
  | go
  | call (a : Call T P H)

/-- The timer, the next step of the current thread's call, or a call that it starts. -/
def step (sys : System T P H) (op : Op T P H) : Option (System T P H) :=
  match sys.sched.current with
  | some (.thread c) =>
    match op with
    | .timer n =>
      if (sys.pc c).off then none
      else (PS.step sys.ps (.timer n)).map fun ps => { sys with ps := ps }
    | .go =>
      if sys.pc c = .idle then (PS.proceed sys.ps c).map fun ps => { sys with ps := ps }
      else proceed sys c
    | .call a => if sys.pc c = .idle ∧ sys.ps.pc c = .idle then call sys c a else none
  | _ => none

/-- After the boot, with objects that nobody waits for. -/
structure Start (sys : System T P H) (main : T) : Prop where
  booted : PS.Booted sys.ps main
  sema : ∀ h, (sys.sema h).ends = ⟨none, none⟩
  mutant : ∀ h, (sys.mutant h).ends = ⟨none, none⟩
  event : ∀ h, (sys.event h).waiters = none
  pc : ∀ t, sys.pc t = .idle

end MicroNT.Signals
