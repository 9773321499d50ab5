import MicroNT.Base.Chain

/-! # Threads that block (`process.h`, `BlockCurrentThread`, `UnblockThread`)

The scheduler as the synchronization objects rely on it. A thread takes steps
while it is runnable, that is, running or on a ready queue. A blocked thread is
not, and only a push on a ready queue makes it so again. -/

namespace MicroNT.Sync

inductive ThreadState
  | ready | running | blocked | terminated
  deriving DecidableEq

/-- What the wait paths use of `KThread`, for every thread. -/
structure Threads (T : Type) where
  state : T → ThreadState
  waitNext : T → Option T
  runnable : T → Bool

variable {T : Type} [DecidableEq T]

/-- `State = BLOCKED`, and the `Schedule()` that follows: it does not put the
thread back on a ready queue. -/
def Threads.block (h : Threads T) (t : T) : Threads T :=
  { h with
    state := Function.update h.state t .blocked
    runnable := Function.update h.runnable t false }

def Threads.setState (h : Threads T) (t : T) (x : ThreadState) : Threads T :=
  { h with state := Function.update h.state t x }

/-- The part of `UnblockThread` behind its check, with interrupts off. -/
def Threads.pushReady (h : Threads T) (t : T) : Threads T :=
  { h with
    state := Function.update h.state t .ready
    runnable := Function.update h.runnable t true }

/-- `UnblockThread`, where nothing comes in between. -/
def Threads.unblock (h : Threads T) (t : T) : Threads T :=
  if h.state t = .terminated then h else h.pushReady t

theorem Threads.unblock_of_alive {h : Threads T} {t : T} (alive : h.state t ≠ .terminated) :
    h.unblock t = h.pushReady t := if_neg alive

@[simp] theorem Threads.block_waitNext (h : Threads T) (t : T) :
    (h.block t).waitNext = h.waitNext := rfl

@[simp] theorem Threads.setState_waitNext (h : Threads T) (t : T) (x : ThreadState) :
    (h.setState t x).waitNext = h.waitNext := rfl

@[simp] theorem Threads.setState_runnable (h : Threads T) (t : T) (x : ThreadState) :
    (h.setState t x).runnable = h.runnable := rfl

@[simp] theorem Threads.pushReady_waitNext (h : Threads T) (t : T) :
    (h.pushReady t).waitNext = h.waitNext := rfl

end MicroNT.Sync
