import MicroNT.ProcessPlaces
import MicroNT.SignalsReach

/-! # Every thread is in one place (`scheduler.cpp`)

Threads call `Schedule`, `Sleep`, the waits and releases, `AddThread`, the priority change and
`TerminateCurrentThread`, and the timer comes wherever interrupts are on. No thread is in two of
the ready queues and the sleep list, unless a tick wakes the current thread inside `Sleep`, or a
release unlinks a thread that another one has taken meanwhile. -/

set_option linter.unusedSectionVars false

namespace MicroNT.Signals

open Base.Machine Base.Chain
open Sched (Ptr KThread State Rings Asleep Queues)

/-- The kernel, and the threads that `AddThread` is still to be called for. -/
structure Kernel (T P H : Type) where
  sys : System T P H
  fresh : Finset T

variable {T P H : Type} [DecidableEq T] [DecidableEq P] [DecidableEq H]

instance (s : State T P) (t : T) : Decidable (Awake s t) := inferInstanceAs (Decidable (_ ∧ _))

/-- `KillProcess` and the bare blocks are not called, and `AddThread` once for each new thread. -/
def Kernel.admits (k : Kernel T P H) : Op T P H → Bool
  | .call (.ps (.kill _)) | .call (.ps .block) | .call (.ps (.remove _)) => false
  | .call (.ps (.makeReady t)) => decide (t ∈ k.fresh)
  | _ => true

def Kernel.freshAfter (k : Kernel T P H) : Op T P H → Finset T
  | .call (.ps (.createThread t _ _ _ _ _)) => insert t k.fresh
  | .call (.ps (.makeReady t)) => k.fresh.erase t
  | _ => k.fresh

/-- `Sleep` has its `Schedule()` left to call. -/
def toSchedule (sys : System T P H) (c : T) : Op T P H → System T P H
  | .call (.ps (.sleep ms)) => if ms = 0 then sys else sys.goto c .schedule
  | _ => sys

/-- A step after which the main thread does not wait and has not ended. -/
def Kernel.step (main : T) (k : Kernel T P H) (op : Op T P H) : Option (Kernel T P H) :=
  match k.sys.sched.current with
  | some (.thread c) =>
    if k.admits op then
      (Signals.step k.sys op).bind fun sys =>
        if Awake sys.sched main then some ⟨toSchedule sys c op, k.freshAfter op⟩ else none
    else none
  | _ => none

/-- The semaphore and the thread that the next step unlinks from it. -/
def Kernel.unlinks (k : Kernel T P H) : Option (H × Ptr T) :=
  match k.sys.sched.current with
  | some (.thread c) =>
    match k.sys.pc c with
    | .semaUnlink h _ _ w => some (h, w)
    | _ => none
  | _ => none

/-- The tick does not catch the current thread inside `Sleep`, and what a release unlinks is
still the first thread of the semaphore. -/
def Undisturbed (k : Kernel T P H) : Op T P H → Prop
  | .timer _ => ¬ Caught k.sys.sched
  | .go => ∀ x ∈ k.unlinks, (k.sys.sema x.1).ends.head = some x.2
  | .call _ => True

/-- **The placement of threads**: the queues are rings, the sleep list has an end, no thread is
in two places, the current thread is not queued, and `WakeSleepers` ends. -/
structure Placement (s : State T P) (ready : Queues T) (asleep : List T) : Prop where
  rings : Rings s ready
  sleeping : Asleep s asleep
  once : (ready 2 ++ ready 1 ++ ready 0 ++ asleep).Nodup
  current : ∀ c, s.current = some (.thread c) → ∀ pri, c ∉ ready pri
  wakes : ∀ n, asleep.length < n → ∃ u, Sched.wakeSleepers n (ticked s) = some u

def InPlace (s : State T P) : Prop := ∃ ready asleep, Placement s ready asleep

variable {sys sys' : System T P H} {fresh : Finset T} {main c : T} {k k' : Kernel T P H}

theorem Placed.inPlace (h : Placed sys fresh main) : InPlace sys.sched := by
  obtain ⟨place, ready, asleep, lists, c, parts, here⟩ := h
  have apart : ∀ t ∈ asleep, ∀ pri, t ∉ ready pri := fun t m =>
    parts.unqueued (by simp [parts.inSleep t m])
  have levels : ∀ {p q : Fin 3}, p ≠ q → ∀ a ∈ ready p, ∀ b ∈ ready q, a ≠ b := by
    rintro p q ne a m b m' rfl
    exact ne (parts.rings.once a p q m m')
  refine ⟨ready, asleep, parts.rings, parts.sleeping, ?_, fun t current pri => ?_,
    fun n enough => ?_⟩
  · refine List.nodup_append.mpr ⟨List.nodup_append.mpr ⟨List.nodup_append.mpr
      ⟨parts.rings.nodup 2, parts.rings.nodup 1, levels (by decide)⟩, parts.rings.nodup 0, ?_⟩,
      parts.sleeping.nodup, ?_⟩
    · intro a m
      obtain m | m := List.mem_append.mp m
      · exact levels (by decide) a m
      · exact levels (by decide) a m
    · rintro a m b m' rfl
      obtain m | m := List.mem_append.mp m
      · obtain m | m := List.mem_append.mp m
        · exact apart a m' 2 m
        · exact apart a m' 1 m
      · exact apart a m' 0 m
  · obtain rfl : t = c := Ptr.thread.inj (Option.some.inj (current.symm.trans here.current))
    exact parts.unqueued here.unqueued pri
  · have rings : Rings (ticked sys.sched) ready := parts.rings.congr ⟨rfl, rfl⟩
    exact Sched.wakeFrom_ends (l := []) rings parts.sleeping apart enough

/-! ## One step -/

/-- **A call of the processes.** -/
theorem Placed.psCall {place : Ptr T → Place T P H} {ready : Queues T} {asleep : List T}
    {lists : WaitList T P H → List (Ptr T)}
    (h : Parts k.sys k.fresh place ready asleep lists) (here : Here k.sys place main c ready)
    (idle : k.sys.pc c = .idle) (psIdle : k.sys.ps.pc c = .idle) {a : PS.Call T P}
    (admits : k.admits (.call (.ps a)) = true) (link : ∀ t v, a ≠ .link t v) {ps : PS.System T P}
    (called : PS.call k.sys.ps c a = some ps) (live : Awake ps.sched main) :
    Placed (toSchedule (k.sys.onPs ps) c (.call (.ps a))) (k.freshAfter (.call (.ps a))) main := by
  have off := here.off (by simp [idle]) fun _ => by simp [psIdle]
  cases a with
  | wait p timeout =>
    obtain ⟨-, ⟨⟩⟩ := Option.ite_none_right_eq_some.mp called
    show Placed (k.sys.onPs (if _ then _ else _)) k.fresh main
    split
    case isTrue => exact ⟨_, _, _, _, c, h, here⟩
    case isFalse =>
      exact h.psGoes here off (fun w hw => by cases hw) (by rw [psIdle]; rfl) rfl (fun _ => rfl)
        fun p who fst w e => by cases e
  | terminate =>
    obtain rfl := Option.some.inj called
    refine h.terminate here off psIdle ?_ live
    split
    · exact .inr ⟨_, rfl⟩
    · exact .inl rfl
  | kill p => cases admits
  | createProcess p cr3 =>
    obtain ⟨-, ⟨⟩⟩ := Option.ite_none_right_eq_some.mp called
    exact h.unchanged here off ⟨⟨⟨rfl, rfl⟩, rfl, rfl, rfl, rfl⟩, fun o => by cases o <;> rfl,
      fun _ => rfl, fun _ => rfl, rfl, rfl, rfl⟩ rfl fun _ => rfl
  | createThread t user process stackBase stackSize teb =>
    obtain ⟨⟨unknown, -⟩, ⟨⟩⟩ := Option.ite_none_right_eq_some.mp called
    exact h.createThread here off psIdle unknown ⟨rfl, rfl⟩ live
  | schedule =>
    obtain rfl := Option.some.inj called
    obtain ⟨place', ready', n, parts, next, -, -⟩ := h.scheduleInternal here
    exact ⟨_, _, _, _, n, parts, next⟩
  | block => cases admits
  | makeReady t =>
    obtain ⟨-, ⟨⟩⟩ := Option.ite_none_right_eq_some.mp called
    exact h.addThread here off (of_decide_eq_true admits)
  | sleep ms =>
    obtain rfl := Option.some.inj called
    show Placed (if ms = 0 then _ else _) k.fresh main
    split
    case isTrue none =>
      have same : Sched.sleep k.sys.ps.sched ms = k.sys.ps.sched := if_pos none
      rw [same]
      exact ⟨_, _, _, _, c, h, here⟩
    case isFalse some => exact h.sleep here idle psIdle some live
  | remove t => cases admits
  | setPriority t pri =>
    obtain ⟨-, ⟨⟩⟩ := Option.ite_none_right_eq_some.mp called
    exact h.setPriority here off t pri
  | link t v => exact absurd rfl (link t v)

/-- **Every call.** -/
theorem Placed.call {place : Ptr T → Place T P H} {ready : Queues T} {asleep : List T}
    {lists : WaitList T P H → List (Ptr T)}
    (h : Parts k.sys k.fresh place ready asleep lists) (here : Here k.sys place main c ready)
    (idle : k.sys.pc c = .idle) (psIdle : k.sys.ps.pc c = .idle) {a : Call T P H}
    (admits : k.admits (.call a) = true) (called : call k.sys c a = some sys')
    (live : Awake sys'.sched main) :
    Placed (toSchedule sys' c (.call a)) (k.freshAfter (.call a)) main := by
  have off := here.off (by simp [idle]) fun _ => by simp [psIdle]
  have goes : ∀ y : Pc T H, y.takes = none → Placed (k.sys.goto c y) k.fresh main := fun y empty =>
    h.goes here off (fun w hw => by rw [empty] at hw; cases hw) fun i rel b z at_ => by
      cases idle.symm.trans at_
  cases a with
  | ps a =>
    by_cases link : ∃ t v, a = .link t v
    · obtain ⟨t, v, rfl⟩ := link
      cases called
    · have link : ∀ t v, a ≠ .link t v := fun t v e => link ⟨t, v, e⟩
      rw [call_ps link] at called
      obtain ⟨ps, made, rfl⟩ := Option.map_eq_some_iff.mp called
      exact Placed.psCall h here idle psIdle admits link made live
  | waitSemaphore i timeout =>
    obtain rfl := Option.some.inj called
    exact h.waitSemaphore here idle psIdle i timeout live
  | waitMutant i =>
    obtain rfl := Option.some.inj called
    exact h.waitMutant here idle psIdle i live
  | waitEvent i timeout =>
    obtain rfl := Option.some.inj called
    exact h.eventWait here idle psIdle i timeout live
  | releaseSemaphore i a2 =>
    obtain rfl := Option.some.inj called
    exact goes _ rfl
  | releaseMutant i =>
    obtain rfl := Option.some.inj called
    show Placed (if _ then _ else _) k.fresh main
    split
    · exact ⟨_, _, _, _, c, h, here⟩
    · exact goes _ rfl
  | setEvent i =>
    obtain rfl := Option.some.inj called
    exact h.eventSet here idle off i
  | resetEvent i =>
    obtain rfl := Option.some.inj called
    exact h.unchanged here off (unmoved_setEvent rfl) rfl fun _ => rfl

/-- **One undisturbed step.** -/
theorem Placed.step (h : Placed k.sys k.fresh main) {op : Op T P H} (free : Undisturbed k op)
    (hs : Kernel.step main k op = some k') : Placed k'.sys k'.fresh main := by
  obtain ⟨place, ready, asleep, lists, c, parts, here⟩ := h
  unfold Kernel.step at hs
  rw [here.current] at hs
  obtain ⟨admits, hs⟩ := Option.ite_none_right_eq_some.mp hs
  obtain ⟨sys', stepped, hs⟩ := Option.bind_eq_some_iff.mp hs
  obtain ⟨live, ⟨⟩⟩ := Option.ite_none_right_eq_some.mp hs
  unfold Signals.step at stepped
  rw [here.current] at stepped
  cases op with
  | timer n =>
    dsimp only at stepped
    split at stepped
    case isTrue => cases stepped
    case isFalse =>
      obtain ⟨ps, timed, rfl⟩ := Option.map_eq_some_iff.mp stepped
      obtain ⟨s, ticks, rfl⟩ := Option.map_eq_some_iff.mp timed
      exact parts.timer here free ticks
  | go =>
    dsimp only at stepped
    split at stepped
    case isTrue idle =>
      obtain ⟨ps, proceeds, rfl⟩ := Option.map_eq_some_iff.mp stepped
      exact parts.psProceed here idle proceeds live
    case isFalse busy =>
      refine parts.proceed here (fun i rel b w at_ => ?_) stepped
      refine free (i, w) ?_
      unfold Kernel.unlinks
      rw [here.current]
      dsimp only
      rw [at_]
      rfl
  | call a =>
    dsimp only at stepped
    obtain ⟨⟨idle, psIdle⟩, called⟩ := Option.ite_none_right_eq_some.mp stepped
    exact Placed.call parts here idle psIdle admits called live

/-! ## Every run -/

/-- After the boot, with empty queues. -/
structure Begins (sys : System T P H) (main : T) : Prop where
  start : Start sys main
  sentinel : ∀ pri, (sys.sched.mem (.sentinel pri)).next = some (.sentinel pri) ∧
    (sys.sched.mem (.sentinel pri)).prev = some (.sentinel pri)
  thread : ∀ t, (sys.sched.mem (.thread t)).next = none ∧ (sys.sched.mem (.thread t)).prev = none
  active : sys.sched.active = true

theorem Begins.placed (h : Begins sys main) : Placed sys ∅ main := by
  obtain ⟨⟨booted, sema, mutant, event, pc⟩, sentinel, thread, active⟩ := h
  let place : Ptr T → Place T P H := fun q =>
    if q = .thread main ∨ ∃ pri, q = .sentinel pri then .off else .new
  have quiet : ∀ u, sys.ps.pc u = .idle := booted.pc
  refine ⟨place, fun _ => [], [], fun _ => [], main, ⟨⟨fun pri => ⟨sentinel pri, by simp⟩, ?_,
    fun t _ => thread t⟩, booted.sleepHead, active, fun o => ?_, fun _ _ m => ?_, fun _ m => ?_,
    fun _ _ m => ?_, fun u w hw => ?_, fun u w hw => ?_, fun pri => if_pos (.inr ⟨pri, rfl⟩),
    fun i => ?_, fun i => ⟨fun _ => rfl, fun z last => ?_⟩, fun u hu => ?_, fun u => ?_,
    fun u hu => ?_, fun t m => ?_⟩, booted.current, fun _ => ⟨if_pos (.inl rfl), ?_⟩, ?_,
    .inl (if_pos (.inl rfl)), .inl (if_pos (.inl rfl)), fun slept => ?_, fun p who fst w e => ?_,
    .inl rfl, ?_⟩
  · intro t pri _ m
    cases m
  · cases o with
    | semaphore i => exact congrArg Ends.head (sema i)
    | mutant i => exact congrArg Ends.head (mutant i)
    | event i => exact event i
    | process p =>
      show (sys.ps.proc p).exitWaiters = none
      by_cases e : p = sys.ps.system
      · rw [e, booted.system]
      · rw [booted.others p e]
        rfl
    | ending u =>
      show carries (sys.ps.pc u) = none
      rw [quiet]
      rfl
  · cases m
  · cases m
  · cases m
  · rw [pc] at hw
    cases hw
  · rw [quiet] at hw
    cases hw
  · rw [mutant]
    rfl
  · rw [sema] at last
    cases last
  · rw [quiet] at hu
    cases hu
  · rw [quiet]
    rfl
  · refine if_neg ?_
    rintro (e | ⟨pri, e⟩)
    · obtain rfl := Ptr.thread.inj e
      obtain none | m := hu
      · rw [booted.allocated] at none
        exact none (Finset.mem_singleton_self _)
      · exact Finset.notMem_empty _ m
    · cases e
  · exact absurd m (Finset.notMem_empty t)
  · rw [quiet]
    rfl
  · rw [show (sys.sched.mem (.thread main)).state = .running from booted.running]
    simp
  · have off : place (.thread main) = .off := if_pos (.inl rfl)
    cases off.symm.trans slept
  · rw [quiet] at e
    cases e
  · unfold Awake
    rw [show (sys.sched.mem (.thread main)).state = .running from booted.running]
    simp

/-- **Every thread is in one place** in every state of a run in which no tick catches the current
thread inside `Sleep` and no release comes late. -/
theorem threads_in_place (begins : Begins sys main) (ops : List (Op T P H))
    (undisturbed : Along (Kernel.step main) Undisturbed ⟨sys, ∅⟩ ops) :
    Always (Kernel.step main) (fun k => InPlace k.sys.sched) ⟨sys, ∅⟩ ops := by
  have placed := always_invariant (I := fun k : Kernel T P H => Placed k.sys k.fresh main)
    (fun _ _ _ h free hs => h.step free hs) begins.placed undisturbed
  exact placed.mono fun _ => Placed.inPlace

/-! ## Two runs that are disturbed -/

theorem InPlace.unlinked {s : State T P} (h : InPlace s) (current : s.current = some (.thread c)) :
    (s.mem (.thread c)).next = none := by
  obtain ⟨ready, asleep, placement⟩ := h
  exact (placement.rings.free c (placement.current c current)).1

theorem InPlace.no_loop {s : State T P} (h : InPlace s) (t : T) :
    (s.mem (.thread t)).next ≠ some (.thread t) := by
  obtain ⟨ready, asleep, placement⟩ := h
  intro loop
  obtain ⟨pri, m⟩ := placement.rings.queued_iff.mp (by rw [loop]; simp)
  exact (placement.rings.ring pri).next_ne (List.mem_map_of_mem m) loop

/-- The machine right after the boot. -/
def bootKernel : Kernel Three Three Unit := ⟨bootSystem, ∅⟩

theorem bootSystem_begins : Begins bootSystem .main :=
  ⟨bootSystem_start, fun _ => ⟨rfl, rfl⟩, fun _ => ⟨rfl, rfl⟩, rfl⟩

/-- A thread of the System process is made and added. -/
def addThread (t : Three) : List (Op Three Three Unit) :=
  [.call (.ps (.createThread t true none 0x8000 0x4000 0)), .go, .go, .call (.ps (.makeReady t))]

/-- A thread sleeps for one tick, and the tick comes before its `Schedule()`. -/
def nap : List (Op Three Three Unit) :=
  addThread .first ++ [.call (.ps .schedule), .call (.ps (.sleep 10)), .timer 2]

/-- The main thread releases two units to two waiting threads. Between its look at the second one
and the unlinking the first one runs, releases a unit to the second one and waits again. -/
def lateRelease : List (Op Three Three Unit) :=
  [.call (.ps (.setPriority .main 1))] ++ addThread .first ++ addThread .second ++
    [.call (.ps .schedule), .call (.waitSemaphore () 1), .go, .call (.waitSemaphore () 1), .go,
      .call (.releaseSemaphore () 2)] ++ List.replicate 9 .go ++ List.replicate 5 (.timer 1) ++
    .call (.releaseSemaphore () 1) :: List.replicate 11 .go ++
    [.call (.waitSemaphore () 1)] ++ List.replicate 6 .go

/-- No tick finds the time of the current thread come inside `Sleep`. -/
def Calm (k : Kernel T P H) : Op T P H → Prop
  | .timer _ => ∀ c, k.sys.sched.current = some (.thread c) →
      k.sys.sched.sleepHead = k.sys.sched.current → (ticked k.sys.sched).due c = false
  | .go => ∀ x ∈ k.unlinks, (k.sys.sema x.1).ends.head = some x.2
  | .call _ => True

instance [Fintype T] (k : Kernel T P H) : (op : Op T P H) → Decidable (Calm k op)
  | .timer _ => inferInstanceAs (Decidable (∀ _, _ → _ → _))
  | .go => inferInstanceAs (Decidable (∀ _ ∈ _, _))
  | .call _ => inferInstanceAs (Decidable True)

theorem Calm.undisturbed {op : Op T P H} (h : Calm k op) : Undisturbed k op := by
  cases op with
  | timer n =>
    rintro ⟨c, current, first, due, -⟩
    rw [h c current first] at due
    cases due
  | go => exact h
  | call a => trivial

/-- One thread sleeps for two ticks, the first of which comes before its `Schedule()`; the other
one waits for the event, is woken by the main thread and ends. -/
def quiet : List (Op Three Three Unit) :=
  addThread .first ++ addThread .second ++
    [.call (.ps .schedule), .call (.ps (.sleep 20)), .timer 2, .go, .call (.waitEvent () 1), .go,
      .call (.setEvent ()), .go, .go, .call (.ps .schedule), .call (.ps .terminate), .go, .go, .go,
      .timer 2, .call (.ps .schedule)]

theorem threads_in_place_quiet :
    Always (Kernel.step .main) (fun k => InPlace k.sys.sched) bootKernel quiet :=
  threads_in_place bootSystem_begins quiet
    ((by decide +kernel : Along (Kernel.step .main) Calm bootKernel quiet).mono
      fun _ _ => Calm.undisturbed)

/-- **A thread is in two places**: the current one is queued after the tick, and the thread that
is released twice follows itself in its queue. -/
theorem thread_in_two_places : Begins bootSystem .main ∧
    ¬ Always (Kernel.step .main) (fun k => InPlace k.sys.sched) bootKernel nap ∧
    ¬ Always (Kernel.step .main) (fun k => InPlace k.sys.sched) bootKernel lateRelease := by
  refine ⟨bootSystem_begins, fun always => ?_, fun always => ?_⟩
  · have reached : (run (Kernel.step .main) bootKernel nap).map (fun k =>
        (k.sys.sched.current, (k.sys.sched.mem (.thread .first)).next)) =
          some (some (.thread .first), some (.sentinel 1)) := by decide +kernel
    obtain ⟨k, ran, pair⟩ := Option.map_eq_some_iff.mp reached
    obtain ⟨current, queued⟩ := Prod.mk.inj pair
    have off := (always.last ran).unlinked current
    rw [queued] at off
    cases off
  · have reached : (run (Kernel.step .main) bootKernel lateRelease).map (fun k =>
        (k.sys.sched.mem (.thread .second)).next) = some (some (.thread .second)) := by
      decide +kernel
    obtain ⟨k, ran, loop⟩ := Option.map_eq_some_iff.mp reached
    exact (always.last ran).no_loop .second loop

end MicroNT.Signals
