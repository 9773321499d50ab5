import MicroNT.Base.Machine
import MicroNT.Blocking
import MicroNT.Ntdef

/-! # Events (`event.cpp`)

Threads call `EventWait`, `EventSet` and `EventReset` on any number of events. A
step is a block of code that runs with interrupts off, or the code between two
such blocks, so any other thread may come in between two steps of a call. -/

set_option linter.unusedSectionVars false

namespace MicroNT.Sync

open MicroNT.Base.Machine MicroNT.Base.Chain

structure KEvent (T : Type) where
  signaled : Bool
  autoReset : Bool
  waiters : Option T

namespace Event

/-- Where a thread is: outside, in `Schedule()` inside `EventWait`, or in
`EventSet`'s call of `UnblockThread`, before and behind its check. -/
inductive Pc (T E : Type)
  | idle
  | waiting (e : E)
  | unblock (w : T)
  | push (w : T)
  deriving DecidableEq

/-- The events and the threads. Two counters belong to no variable of the code:
the calls of `EventWait` that have returned `STATUS_SUCCESS`, and those of
`EventSet`. -/
structure System (T E : Type) where
  thr : Threads T
  ev : E → KEvent T
  pc : T → Pc T E
  succeeded : E → Nat
  sets : E → Nat

variable {T E : Type} [DecidableEq T] [DecidableEq E]

def System.goto (s : System T E) (t : T) (p : Pc T E) : System T E :=
  { s with pc := Function.update s.pc t p }

def System.update (s : System T E) (e : E) (v : KEvent T) : System T E :=
  { s with ev := Function.update s.ev e v }

def System.success (s : System T E) (e : E) : System T E :=
  { s with succeeded := Function.update s.succeeded e (s.succeeded e + 1) }

/-- `EventWait` up to its return or its `Schedule()`. -/
def eventWait (s : System T E) (t : T) (e : E) (timeout : u32) : System T E :=
  if (s.ev e).signaled then
    (if (s.ev e).autoReset then s.update e { s.ev e with signaled := false } else s).success e
  else if timeout = 0 then s
  else
    ({ s.update e { s.ev e with waiters := some t } with
      thr := Threads.block
        { s.thr with waitNext := Function.update s.thr.waitNext t (s.ev e).waiters } t } :
      System T E).goto t (.waiting e)

/-- `EventSet` for the first waiter `w`, up to the `EnableInterrupts()`. -/
def wakeFirst (s : System T E) (t : T) (e : E) (w : T) : System T E :=
  let rest := { s.ev e with waiters := s.thr.waitNext w }
  ({ s.update e (if !rest.autoReset then { rest with signaled := true } else rest) with
    thr := Threads.setState
      { s.thr with waitNext := Function.update s.thr.waitNext w none } w .ready } :
    System T E).goto t (.unblock w)

/-- `EventSet` up to its first `EnableInterrupts()`. -/
def eventSet (s : System T E) (t : T) (e : E) : System T E :=
  let s := { s with sets := Function.update s.sets e (s.sets e + 1) }
  match (s.ev e).waiters with
  | some w => wakeFirst s t e w
  | none => s.update e { s.ev e with signaled := true }

def eventReset (s : System T E) (e : E) : System T E :=
  s.update e { s.ev e with signaled := false }

/-- The next step of a call that is under way. -/
def proceed (s : System T E) (t : T) : System T E :=
  match s.pc t with
  | .idle => s
  | .waiting e => ({ s with thr := s.thr.setState t .running }.success e).goto t .idle
  | .unblock w => if s.thr.state w = .terminated then s.goto t .idle else s.goto t (.push w)
  | .push w => { s with thr := s.thr.pushReady w }.goto t .idle

inductive Op (E : Type)
  | wait (e : E) (timeout : u32)
  | set (e : E)
  | reset (e : E)
  | proceed

/-- A step of thread `t`: a call it starts or the next step of one. -/
def step (s : System T E) (a : T × Op E) : Option (System T E) :=
  if s.thr.runnable a.1 then
    match a.2, s.pc a.1 with
    | .wait e timeout, .idle => some (eventWait s a.1 e timeout)
    | .set e, .idle => some (eventSet s a.1 e)
    | .reset e, .idle => some (eventReset s e)
    | .proceed, .idle => none
    | .proceed, _ => some (proceed s a.1)
    | _, _ => none
  else none

/-- Before the first call: no waiters, and nothing counted yet. -/
structure Start (s : System T E) : Prop where
  waiters : ∀ e, (s.ev e).waiters = none
  pc : ∀ t, s.pc t = .idle
  succeeded : ∀ e, s.succeeded e = 0
  sets : ∀ e, s.sets e = 0

/-- The thread is on the waiter list of the event. -/
def Waits (s : System T E) (e : E) (w : T) : Prop :=
  ∃ l, Linked s.thr.waitNext (s.ev e).waiters l ∧ w ∈ l

/-! ## What one step does -/

/-- The blocks of the three calls, one constructor for each way through. -/
inductive Did (s : System T E) (t : T) : Op E → System T E → Prop
  | take (e : E) (timeout : u32) (idle : s.pc t = .idle) (sig : (s.ev e).signaled = true)
      (auto : (s.ev e).autoReset = true) :
      Did s t (.wait e timeout) ((s.update e { s.ev e with signaled := false }).success e)
  | pass (e : E) (timeout : u32) (idle : s.pc t = .idle) (sig : (s.ev e).signaled = true)
      (manual : (s.ev e).autoReset = false) : Did s t (.wait e timeout) (s.success e)
  | timeout (e : E) (idle : s.pc t = .idle) (sig : (s.ev e).signaled = false) :
      Did s t (.wait e 0) s
  | park (e : E) (timeout : u32) (idle : s.pc t = .idle) (sig : (s.ev e).signaled = false) :
      Did s t (.wait e timeout)
        (({ s.update e { s.ev e with waiters := some t } with
          thr := Threads.block
            { s.thr with waitNext := Function.update s.thr.waitNext t (s.ev e).waiters } t } :
          System T E).goto t (.waiting e))
  | wake (e : E) (w : T) (idle : s.pc t = .idle) (first : (s.ev e).waiters = some w) :
      Did s t (.set e)
        (wakeFirst { s with sets := Function.update s.sets e (s.sets e + 1) } t e w)
  | signal (e : E) (idle : s.pc t = .idle) (none : (s.ev e).waiters = none) :
      Did s t (.set e)
        ({ s with sets := Function.update s.sets e (s.sets e + 1) }.update e
          { s.ev e with signaled := true })
  | reset (e : E) (idle : s.pc t = .idle) :
      Did s t (.reset e) (s.update e { s.ev e with signaled := false })
  | resume (e : E) (at_ : s.pc t = .waiting e) :
      Did s t .proceed
        (({ s with thr := s.thr.setState t .running }.success e : System T E).goto t .idle)
  | gone (w : T) (at_ : s.pc t = .unblock w) : Did s t .proceed (s.goto t .idle)
  | check (w : T) (at_ : s.pc t = .unblock w) : Did s t .proceed (s.goto t (.push w))
  | push (w : T) (at_ : s.pc t = .push w) :
      Did s t .proceed (({ s with thr := s.thr.pushReady w } : System T E).goto t .idle)

theorem eventWait_did (s : System T E) (t : T) (e : E) (timeout : u32) (idle : s.pc t = .idle) :
    Did s t (.wait e timeout) (eventWait s t e timeout) := by
  unfold eventWait
  split
  case isTrue sig =>
    split
    case isTrue auto => exact .take e timeout idle sig auto
    case isFalse auto => exact .pass e timeout idle sig (Bool.eq_false_iff.mpr auto)
  case isFalse sig =>
    have off := Bool.eq_false_iff.mpr sig
    split
    case isTrue zero => exact zero ▸ .timeout e idle off
    case isFalse => exact .park e timeout idle off

theorem eventSet_did (s : System T E) (t : T) (e : E) (idle : s.pc t = .idle) :
    Did s t (.set e) (eventSet s t e) := by
  show Did s t (.set e) (match (s.ev e).waiters with | some w => _ | none => _)
  split
  case h_1 w first => exact .wake e w idle first
  case h_2 first => exact .signal e idle first

theorem proceed_did (s : System T E) (t : T) (busy : s.pc t ≠ .idle) :
    Did s t .proceed (proceed s t) := by
  unfold proceed
  cases at_ : s.pc t with
  | idle => exact absurd at_ busy
  | waiting e => exact .resume e at_
  | unblock w =>
    simp only
    split
    case isTrue => exact .gone w at_
    case isFalse => exact .check w at_
  | push w => exact .push w at_

theorem step_did {s s' : System T E} {t : T} {op : Op E} (h : step s (t, op) = some s') :
    s.thr.runnable t = true ∧ Did s t op s' := by
  unfold step at h
  split at h
  case isFalse => cases h
  case isTrue run =>
    refine ⟨run, ?_⟩
    cases op <;> cases at_ : s.pc t <;> simp only [at_] at h <;> cases h
    case wait.idle => exact eventWait_did s t _ _ at_
    case set.idle => exact eventSet_did s t _ at_
    case reset.idle => exact .reset _ at_
    all_goals exact proceed_did s t (by rw [at_]; nofun)

/-! ## Signals and waiters -/

/-- No thread waits on a signaled event. -/
def Quiet (s : System T E) : Prop :=
  ∀ e, (s.ev e).waiters ≠ none → (s.ev e).signaled = false

/-- A call of `EventSet` on a manual-reset event makes every thread ready that was
waiting, and takes it off the list. -/
def WakesAll (s : System T E) (a : T × Op E) : Prop :=
  ∀ e s', a.2 = .set e → (s.ev e).autoReset = false → step s a = some s' →
    ∀ w, Waits s e w → s'.thr.state w = .ready ∧ ¬ Waits s' e w

/-- `EventSet` is not called on a manual-reset event with two waiters or more. -/
def LoneWaiter (s : System T E) (a : T × Op E) : Prop :=
  ∀ e w, a.2 = .set e → (s.ev e).autoReset = false → (step s a).isSome →
    (s.ev e).waiters = some w → s.thr.waitNext w = none

/-- The event after the first waiter is gone. -/
theorem wakeFirst_ev (s : System T E) (t : T) (e : E) (w : T) :
    (wakeFirst s t e w).ev = Function.update s.ev e
      { s.ev e with
        waiters := s.thr.waitNext w
        signaled := (s.ev e).signaled || !(s.ev e).autoReset } := by
  show Function.update s.ev e _ = _
  congr 1
  cases auto : (s.ev e).autoReset <;> simp [auto]

theorem quiet_update {s : System T E} (h : Quiet s) {s' : System T E} {e : E} {v : KEvent T}
    (hev : s'.ev = Function.update s.ev e v) (hv : v.waiters ≠ none → v.signaled = false) :
    Quiet s' := by
  intro f
  rw [hev]
  by_cases hf : f = e
  · subst hf
    rw [Function.update_self]
    exact hv
  · rw [Function.update_of_ne hf]
    exact h f

theorem quiet_step {s s' : System T E} {a : T × Op E} (h : Quiet s) (hg : LoneWaiter s a)
    (hs : step s a = some s') : Quiet s' := by
  obtain ⟨t, op⟩ := a
  have hsome : (step s (t, op)).isSome := Option.isSome_of_eq_some hs
  cases (step_did hs).2 with
  | take e timeout idle sig auto => exact quiet_update h rfl fun _ => rfl
  | pass | timeout | resume | gone | check | push => exact h
  | park e timeout idle sig => exact quiet_update h rfl fun _ => sig
  | wake e w idle first =>
    refine quiet_update h (wakeFirst_ev ..) fun more => ?_
    -- an auto-reset event stays as it was, a manual-reset one has no waiter left
    have off : (s.ev e).signaled = false := h e (by rw [first]; nofun)
    cases auto : (s.ev e).autoReset with
    | true => simp [off]
    | false => exact absurd (hg e w rfl auto hsome first) more
  | signal e idle empty => exact quiet_update h rfl fun more => absurd empty more
  | reset e idle => exact quiet_update h rfl fun _ => rfl

theorem lone_wakesAll {s : System T E} {a : T × Op E} (hg : LoneWaiter s a) : WakesAll s a := by
  obtain ⟨t, op⟩ := a
  rintro e s' ⟨⟩ manual hs w ⟨l, hl, hw⟩
  have hsome : (step s (t, .set e)).isSome := Option.isSome_of_eq_some hs
  cases (step_did hs).2 with
  | wake e v idle first =>
    have last := hg e v rfl manual hsome first
    rw [first] at hl
    obtain ⟨r, rfl, hr⟩ := hl.eq_cons
    rw [last] at hr
    obtain rfl := hr.eq_nil
    obtain rfl := List.mem_singleton.mp hw
    refine ⟨Function.update_self .., ?_⟩
    rintro ⟨l', hl', hw'⟩
    rw [wakeFirst_ev, Function.update_self] at hl'
    rw [show (s.thr.waitNext w) = none from last] at hl'
    rw [hl'.eq_nil] at hw'
    cases hw'
  | signal e idle empty =>
    rw [empty] at hl
    rw [hl.eq_nil] at hw
    cases hw

/-- After `EventSet` on a manual-reset event the signal is on, so its second
waiter is one too many. -/
theorem lone_of_quiet {s : System T E} {a : T × Op E}
    (h : ∀ s', step s a = some s' → Quiet s') : LoneWaiter s a := by
  obtain ⟨t, op⟩ := a
  rintro e w ⟨⟩ manual hsome first
  obtain ⟨s', hs⟩ := Option.isSome_iff_exists.mp hsome
  by_contra more
  have quiet := h s' hs e
  cases (step_did hs).2 with
  | wake e v idle first' =>
    cases first.symm.trans first'
    rw [wakeFirst_ev, Function.update_self] at quiet
    have on := quiet more
    simp [manual] at on
  | signal e idle empty => cases first.symm.trans empty

/-- **Waiters and signals exclude each other as long as no manual-reset event is
set over two waiters**, and then only: `EventSet` wakes the first waiter of such
an event and leaves the others waiting on a signaled event. -/
theorem events_quiet_iff (s : System T E) (start : Start s) (es : List (T × Op E)) :
    (Always step Quiet s es ∧ Along step WakesAll s es) ↔ Along step LoneWaiter s es := by
  constructor
  · rintro ⟨quiet, -⟩
    exact quiet.along_next fun s a => lone_of_quiet
  · intro lone
    have quiet : Quiet s := fun e more => absurd (start.waiters e) more
    refine ⟨always_invariant (fun s a s' h hg hs => quiet_step h hg hs) quiet lone, ?_⟩
    exact along_invariant (I := fun _ => True) (fun _ _ _ _ _ _ => trivial)
      (fun s a _ hg => lone_wakesAll hg) trivial lone

/-- One manual-reset event, not signaled, and three threads. -/
def threeThreads : System (Fin 3) Unit where
  thr := ⟨fun _ => .running, fun _ => none, fun _ => true⟩
  ev _ := ⟨false, false, none⟩
  pc _ := .idle
  succeeded _ := 0
  sets _ := 0

theorem threeThreads_start : Start threeThreads := ⟨fun _ => rfl, fun _ => rfl, fun _ => rfl, fun _ => rfl⟩

/-- A thread waits and is woken. -/
theorem events_quiet_iff_one :
    (Always step Quiet threeThreads [(0, .wait () 1), (2, .set ())] ∧
      Along step WakesAll threeThreads [(0, .wait () 1), (2, .set ())]) ↔
    Along step LoneWaiter threeThreads [(0, .wait () 1), (2, .set ())] :=
  events_quiet_iff threeThreads threeThreads_start _

/-- Two threads wait; after a whole `EventSet` the second still does, and the
event is signaled. -/
theorem waiter_left_on_signaled_event :
    ∃ s, run step threeThreads
        [(0, .wait () 1), (1, .wait () 1), (2, .set ()), (2, .proceed), (2, .proceed)] = some s ∧
      s.pc 2 = .idle ∧ ¬ Quiet s := by
  refine ⟨_, rfl, rfl, fun quiet => ?_⟩
  exact absurd (quiet ()) (by decide)

end Event

end MicroNT.Sync
