import MicroNT.Base.Machine
import MicroNT.Blocking
import MicroNT.Ntdef

/-! # Semaphores (`NtCreateSemaphore`, `NtReleaseSemaphore`, `NtWaitForSingleObject`)

One semaphore and any number of threads. `UnblockThread` turns interrupts on,
so from its first call on the rest of a release runs statement by statement,
and other threads may come in between. -/

set_option linter.unusedSectionVars false

namespace MicroNT.Sync

open MicroNT.Base.Machine MicroNT.Base.Chain

abbrev i32 := BitVec 32

structure KSema (T : Type) where
  count : i32
  maxCount : i32
  ends : Ends T

namespace Semaphore

/-- `NtCreateSemaphore`, up to the search for a free slot. -/
def ntCreateSemaphore {T : Type} (a1 a2 : u64) : Option (KSema T) :=
  let init : i32 := a1.setWidth 32
  let maxc : i32 := a2.setWidth 32
  if init.toInt < 0 ∨ maxc.toInt ≤ 0 ∨ maxc.toInt < init.toInt then none
  else some ⟨init, maxc, ⟨none, none⟩⟩

/-- Where a thread is: outside, in `Schedule()` inside the wait, or in the part of
`NtReleaseSemaphore` that runs with interrupts on, at the named statement. -/
inductive Pc (T : Type)
  | idle
  | waiting
  | test (rel : Nat)
  | take (rel : Nat)
  | unlink (rel : Nat) (w : T)
  | last (rel : Nat) (w : T)
  | clear (rel : Nat) (w : T)
  | check (rel : Nat) (w : T)
  | push (rel : Nat) (w : T)
  | compare (rel : Nat)
  | load (rel : Nat)
  | store (v : i32)
  deriving DecidableEq

/-- The semaphore and the threads, with a record of what has happened: the waits
that succeeded, the units released, the threads that queued up and those that
were woken, each in their order. -/
structure System (T : Type) where
  thr : Threads T
  sema : KSema T
  pc : T → Pc T
  acquired : Nat
  released : Nat
  queued : List T
  woken : List T

variable {T : Type} [DecidableEq T]

def System.goto (s : System T) (t : T) (p : Pc T) : System T :=
  { s with pc := Function.update s.pc t p }

/-- `NtWaitForSingleObject` on the semaphore, up to its return or `Schedule()`. -/
def ntWait (s : System T) (t : T) (timeout : u64) : System T :=
  if 0 < s.sema.count.toInt then
    { s with
      sema := { s.sema with count := s.sema.count - 1 }
      acquired := s.acquired + 1 }
  else if timeout = 0 then s
  else
    let r := enqueue s.thr.waitNext s.sema.ends t
    ({ s with
        thr := Threads.block { s.thr with waitNext := r.1 } t
        sema := { s.sema with ends := r.2 }
        queued := s.queued ++ [t] } : System T).goto t .waiting

/-- The units a release asks for: its argument, or 1. -/
def units (a2 : u64) : Nat :=
  let rel : i32 := a2.setWidth 32
  if rel.toInt ≤ 0 then 1 else rel.toNat

/-- The count after the units left are added, as the code computes it. -/
def newCount (v : KSema T) (rel : Nat) : i32 :=
  if v.maxCount.toInt < (v.count + BitVec.ofNat 32 rel).toInt then v.maxCount
  else v.count + BitVec.ofNat 32 rel

/-- The part of `UnblockThread` that makes the thread ready. -/
def System.wake (s : System T) (w : T) : System T :=
  { s with thr := s.thr.pushReady w, woken := s.woken ++ [w] }

/-- `NtReleaseSemaphore` as long as interrupts are off: up to the first thread that
is really unblocked, or to the end. -/
def releaseLoop (t : T) : Nat → System T → System T
  | 0, s => { s with sema := { s.sema with count := newCount s.sema 0 } }
  | rel + 1, s =>
    match s.sema.ends.head with
    | none => { s with sema := { s.sema with count := newCount s.sema (rel + 1) } }
    | some w =>
      let r := dequeue s.thr.waitNext s.sema.ends w
      let s : System T :=
        { s with thr := { s.thr with waitNext := r.1 }, sema := { s.sema with ends := r.2 } }
      if s.thr.state w = .terminated then releaseLoop t rel s else (s.wake w).goto t (.test rel)

def ntRelease (s : System T) (t : T) (a2 : u64) : System T :=
  releaseLoop t (units a2) { s with released := s.released + units a2 }

/-- The next statement of a call that is under way. -/
def proceed (s : System T) (t : T) : Option (System T) :=
  match s.pc t with
  | .idle => none
  | .waiting =>
    some (({ s with thr := s.thr.setState t .running, acquired := s.acquired + 1 } :
      System T).goto t .idle)
  | .test rel =>
    some (s.goto t (if 0 < rel ∧ s.sema.ends.head ≠ none then .take rel else .compare rel))
  | .take rel => s.sema.ends.head.map fun w => s.goto t (.unlink rel w)
  | .unlink rel w =>
    some (({ s with sema := { s.sema with ends := { s.sema.ends with head := s.thr.waitNext w } } } :
      System T).goto t (.last rel w))
  | .last rel w =>
    let tail := if s.sema.ends.head = none then none else s.sema.ends.tail
    some (({ s with sema := { s.sema with ends := { s.sema.ends with tail := tail } } } :
      System T).goto t (.clear rel w))
  | .clear rel w =>
    some (({ s with thr := { s.thr with waitNext := Function.update s.thr.waitNext w none } } :
      System T).goto t (.check rel w))
  | .check rel w =>
    some (s.goto t (if s.thr.state w = .terminated then .test (rel - 1) else .push rel w))
  | .push rel w => some ((s.wake w).goto t (.test (rel - 1)))
  | .compare rel =>
    some (s.goto t (if s.sema.maxCount.toInt < (s.sema.count + BitVec.ofNat 32 rel).toInt then
      .store s.sema.maxCount else .load rel))
  | .load rel => some (s.goto t (.store (s.sema.count + BitVec.ofNat 32 rel)))
  | .store v => some (({ s with sema := { s.sema with count := v } } : System T).goto t .idle)

inductive Op
  | wait (timeout : u64)
  | release (a2 : u64)
  | proceed

/-- A step of thread `t`: a call it starts or the next statement of one. -/
def step (s : System T) (a : T × Op) : Option (System T) :=
  if s.thr.runnable a.1 then
    match a.2, s.pc a.1 with
    | .wait timeout, .idle => some (ntWait s a.1 timeout)
    | .release a2, .idle => some (ntRelease s a.1 a2)
    | .proceed, _ => proceed s a.1
    | _, _ => none
  else none

/-- Right after `NtCreateSemaphore`. -/
structure Start (s : System T) : Prop where
  created : ∃ a1 a2, ntCreateSemaphore a1 a2 = some s.sema
  pc : ∀ t, s.pc t = .idle
  acquired : s.acquired = 0
  released : s.released = 0
  queued : s.queued = []
  woken : s.woken = []

/-- A release that has woken a thread and is not finished. -/
def Pc.Open : Pc T → Prop
  | .idle | .waiting => False
  | _ => True

/-- No wait or release of another thread comes between the first wake-up of a
release and its end. Threads that were woken may return from their wait. -/
def Alone (s : System T) (a : T × Op) : Prop :=
  ∀ u, (s.pc u).Open → u = a.1 ∨ s.pc a.1 = .waiting

/-- Acquisitions are covered, waiters leave in the order they came, and no thread
waits for a unit that is there. -/
structure Sound (s₀ s : System T) : Prop where
  conserved : (s.acquired : Int) ≤ s₀.sema.count.toInt + s.released
  fifo : s.woken <+: s.queued
  available : 0 < s.sema.count.toInt → s.sema.ends.head = none

end Semaphore

end MicroNT.Sync
