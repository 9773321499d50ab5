import MicroNT.SignalCalls
import MicroNT.SleepList

/-! # Where threads are (`scheduler.cpp`, `event.cpp`, `process.cpp`, `syscall.cpp`)

The kernel keeps no record of the list that a thread is in. Here every thread is given a
place: a ready queue, the sleep list, one wait list, the hands of a thread that wakes it, or
no list at all. What the lists and the program counters of a state say agrees with the
places. -/

set_option linter.unusedSectionVars false

namespace MicroNT.Signals

open Base.Machine Base.Chain
open Sched (Ptr KThread State Linking Relinked Rings Asleep Queues scheduleInternal makeReady
  blockCurrentThread)

/-! ## Places -/

/-- The lists that are linked through `WaitNext`. A thread that ends has the waiters of its
process for itself. -/
inductive WaitList (T P H : Type)
  | semaphore (h : H)
  | mutant (h : H)
  | event (h : H)
  | process (p : P)
  | ending (u : T)
  deriving DecidableEq

/-- A thread that is `lost` has queued up behind a thread that was off the list already. -/
inductive Place (T P H : Type)
  | new
  | off
  | ready
  | asleep
  | waits (o : WaitList T P H)
  | handed (u : T)
  | released (u : T)
  | lost

/-- The thread that a release has off its list and has still to unblock. -/
def Pc.takes {T H : Type} : Pc T H → Option (Ptr T)
  | .semaLast _ _ _ w | .semaClear _ _ _ w | .semaUnblock _ _ _ w | .semaPush _ _ _ w
  | .eventUnblock _ w | .eventPush _ w => some w
  | .idle | .schedule | .semaTest _ _ _ | .semaTake _ _ _ | .semaUnlink _ _ _ _
  | .semaCompare _ _ _ | .semaLoad _ _ _ | .semaStore _ _ _ | .mutantRelease _ => none

/-- The same for the waiters of a process. -/
def takes {T P : Type} : PS.Pc T P → Option (Ptr T)
  | .wakeClear _ _ w _ | .wakeTest _ _ w _ | .wakePush _ _ w _ => some w
  | _ => none

/-- The waiters of a process that are still to be woken. -/
def carries {T P : Type} : PS.Pc T P → Option (Ptr T)
  | .wakeNext _ _ w => some w
  | .wakeClear _ _ _ nxt | .wakeTest _ _ _ nxt | .wakePush _ _ _ nxt => nxt
  | _ => none

/-- The thread is in `TerminateCurrentThread`. -/
def ends {T P : Type} : PS.Pc T P → Bool
  | .termTest _ | .termCount _ | .termSchedule | .halted => true
  | .exitSet _ _ | .exitTake _ _ _ | .exitClear _ _ _ _ | .wakeNext _ _ _ | .wakeClear _ _ _ _
  | .wakeTest _ _ _ _ | .wakePush _ _ _ _ => true
  | _ => false

/-- The thread is in `KillProcess`. -/
def kills {T P : Type} : PS.Pc T P → Bool
  | .killMark _ _ _ | .killCount _ _ => true
  | .exitSet _ who | .exitTake _ who _ | .exitClear _ who _ _ | .wakeNext _ who _
  | .wakeClear _ who _ _ | .wakeTest _ who _ _ | .wakePush _ who _ _ => decide (who = .kill)
  | _ => false

variable {T P H : Type} [DecidableEq T] [DecidableEq P] [DecidableEq H]

/-- Where a wait list begins. -/
def System.head (sys : System T P H) : WaitList T P H → Option (Ptr T)
  | .semaphore h => (sys.sema h).ends.head
  | .mutant h => (sys.mutant h).ends.head
  | .event h => (sys.event h).waiters
  | .process p => (sys.ps.proc p).exitWaiters
  | .ending u => carries (sys.ps.pc u)

def System.links (sys : System T P H) (q : Ptr T) : Option (Ptr T) := (sys.sched.mem q).waitNext

/-- The last thread that a semaphore knows of is the last of its list, or the list is empty and
the thread is on its way off it, or lost. -/
structure Tails (sys : System T P H) (place : Ptr T → Place T P H) (h : H) (l : List (Ptr T)) :
    Prop where
  none : (sys.sema h).ends.tail = none → l = []
  some : ∀ z, (sys.sema h).ends.tail = some z → l.getLast? = some z ∨
    l = [] ∧ (place z = .lost ∨ ∃ u rel off, sys.pc u = .semaLast h rel off z)

/-- The places of all threads agree with the lists. -/
structure Parts (sys : System T P H) (fresh : Finset T) (place : Ptr T → Place T P H)
    (ready : Queues T) (asleep : List T) (lists : WaitList T P H → List (Ptr T)) : Prop where
  rings : Rings sys.sched ready
  sleeping : Asleep sys.sched asleep
  active : sys.sched.active = true
  linked : ∀ o, Linked sys.links (sys.head o) (lists o)
  inReady : ∀ pri, ∀ t ∈ ready pri, place (.thread t) = .ready
  inSleep : ∀ t ∈ asleep, place (.thread t) = .asleep
  inList : ∀ o, ∀ q ∈ lists o, place q = .waits o
  handed : ∀ u w, (sys.pc u).takes = some w → place w = .handed u
  released : ∀ u w, takes (sys.ps.pc u) = some w → place w = .released u
  sentinel : ∀ pri, place (.sentinel pri) = .off
  mutantTail : ∀ h, (sys.mutant h).ends.tail = (lists (.mutant h)).getLast?
  semaTail : ∀ h, Tails sys place h (lists (.semaphore h))
  ending : ∀ u, ends (sys.ps.pc u) = true → place (.thread u) = .off
  noKill : ∀ u, kills (sys.ps.pc u) = false
  new : ∀ t, t ∉ sys.ps.allocated ∨ t ∈ fresh → place (.thread t) = .new
  made : ∀ t ∈ fresh, t ∈ sys.ps.allocated

/-- The thread neither waits nor has ended. -/
def Awake (s : State T P) (t : T) : Prop :=
  (s.mem (.thread t)).state ≠ .blocked ∧ (s.mem (.thread t)).state ≠ .terminated

/-- The current thread `c`. While it runs it is in no list, and before its `Schedule()` it may
be in one already. -/
structure Here (sys : System T P H) (place : Ptr T → Place T P H) (main c : T)
    (ready : Queues T) : Prop where
  current : sys.sched.current = some (.thread c)
  ran : (sys.sched.mem (.thread c)).state = .running →
    place (.thread c) = .off ∧ ends (sys.ps.pc c) = false
  awake : (sys.sched.mem (.thread c)).state ≠ .ready
  somewhere : place (.thread c) = .off ∨ place (.thread c) = .asleep ∨
    (∃ o, place (.thread c) = .waits o) ∨ place (.thread c) = .lost
  window : place (.thread c) = .off ∨ sys.pc c = .schedule ∨
    sys.pc c = .idle ∧ sys.ps.pc c = .waitSchedule
  first : place (.thread c) = .asleep → sys.sched.sleepHead = some (.thread c)
  taken : ∀ p who first w, sys.ps.pc c = .exitClear p who first w → (sys.ps.proc p).exitWaiters = w
  runnable : main = c ∨ ∃ pri, main ∈ ready pri
  live : Awake sys.sched main

section

variable {sys sys' : System T P H} {fresh : Finset T} {place : Ptr T → Place T P H}
  {ready : Queues T} {asleep : List T} {lists : WaitList T P H → List (Ptr T)} {main c t : T}
  {q w : Ptr T} {x : Place T P H} {s u : State T P}

/-- A thread that has a place has left the sentinels. -/
theorem Parts.thread (h : Parts sys fresh place ready asleep lists) (some : place q ≠ .off) :
    ∃ t, q = .thread t := by
  cases q with
  | sentinel pri => exact absurd (h.sentinel pri) some
  | thread t => exact ⟨t, rfl⟩

theorem Parts.unqueued (h : Parts sys fresh place ready asleep lists)
    (off : place (.thread t) ≠ .ready) (pri : Fin 3) : t ∉ ready pri := fun m =>
  off (h.inReady pri t m)

theorem Parts.awake (h : Parts sys fresh place ready asleep lists)
    (off : place (.thread t) ≠ .asleep) : t ∉ asleep := fun m => off (h.inSleep t m)

theorem Parts.unlisted (h : Parts sys fresh place ready asleep lists) {o : WaitList T P H}
    (off : place q ≠ .waits o) : q ∉ lists o := fun m => off (h.inList o q m)

/-! ## What does not concern the places -/

/-- The ready queues, the sleep list and the current thread are the same. -/
structure Still (s t : State T P) : Prop where
  links : t.nexts = s.nexts ∧ t.prevs = s.prevs
  sleepNexts : t.sleepNexts = s.sleepNexts
  sleepHead : t.sleepHead = s.sleepHead
  active : t.active = s.active
  current : t.current = s.current

theorem Still.refl (s : State T P) : Still s s := ⟨⟨rfl, rfl⟩, rfl, rfl, rfl, rfl⟩

theorem Still.trans {t u : State T P} (h : Still s t) (h' : Still t u) : Still s u :=
  ⟨⟨h'.links.1.trans h.links.1, h'.links.2.trans h.links.2⟩, h'.sleepNexts.trans h.sleepNexts,
    h'.sleepHead.trans h.sleepHead, h'.active.trans h.active, h'.current.trans h.current⟩

theorem Still.write {k : KThread T P} (next : k.next = (s.mem q).next)
    (prev : k.prev = (s.mem q).prev) (sleepNext : k.sleepNext = (s.mem q).sleepNext) :
    Still s (s.write q k) := by
  refine ⟨Sched.links_write next prev, ?_, rfl, rfl, rfl⟩
  rw [Sched.sleepNexts_write, sleepNext]
  exact Function.update_eq_self q s.sleepNexts

theorem Still.setWaitNext (h : Still s u) (q : Ptr T) (n : Option (Ptr T)) :
    Still s (u.setWaitNext q n) := h.trans (.write rfl rfl rfl)

theorem Still.setState (h : Still s u) (q : Ptr T) (x : Sync.ThreadState) :
    Still s (u.setState q x) := h.trans (.write rfl rfl rfl)

theorem Still.rings (h : Still s u) (rings : Rings s ready) : Rings u ready := rings.congr h.links

theorem Still.sleeping (h : Still s u) (slept : Asleep s asleep) : Asleep u asleep := by
  unfold Asleep
  rw [h.sleepNexts, h.sleepHead]
  exact slept

/-- Nothing of the queues, the sleep list, the wait lists or the program counters differs. -/
structure Unmoved (sys sys' : System T P H) : Prop where
  still : Still sys.sched sys'.sched
  head : ∀ o, sys'.head o = sys.head o
  mutantTail : ∀ h, (sys'.mutant h).ends.tail = (sys.mutant h).ends.tail
  semaTail : ∀ h, (sys'.sema h).ends.tail = (sys.sema h).ends.tail
  pc : sys'.pc = sys.pc
  psPc : sys'.ps.pc = sys.ps.pc
  allocated : sys'.ps.allocated = sys.ps.allocated

theorem Parts.unmoved (h : Parts sys fresh place ready asleep lists) (same : Unmoved sys sys')
    (links : ∀ o, ∀ q ∈ lists o, sys'.links q = sys.links q) :
    Parts sys' fresh place ready asleep lists where
  rings := same.still.rings h.rings
  sleeping := same.still.sleeping h.sleeping
  active := same.still.active.trans h.active
  linked o := by
    rw [same.head]
    exact (h.linked o).congr (links o)
  inReady := h.inReady
  inSleep := h.inSleep
  inList := h.inList
  handed := same.pc ▸ h.handed
  released := same.psPc ▸ h.released
  sentinel := h.sentinel
  mutantTail i := (same.mutantTail i).trans (h.mutantTail i)
  semaTail i := by
    obtain ⟨none, some⟩ := h.semaTail i
    refine ⟨fun e => none ((same.semaTail i).symm.trans e), fun z e => ?_⟩
    rw [same.pc]
    exact some z ((same.semaTail i).symm.trans e)
  ending := same.psPc ▸ h.ending
  noKill := same.psPc ▸ h.noKill
  new := same.allocated ▸ h.new
  made := same.allocated ▸ h.made

/-! ## Program counters -/

/-- The thread goes on to another statement. -/
theorem Parts.goto (h : Parts sys fresh place ready asleep lists) {u : T} {y : Pc T H}
    (takes : ∀ w, y.takes = some w → place w = .handed u)
    (last : ∀ i rel off z, sys.pc u = .semaLast i rel off z →
      (sys.sema i).ends.tail = some z → lists (.semaphore i) ≠ []) :
    Parts (sys.goto u y) fresh place ready asleep lists where
  rings := h.rings
  sleeping := h.sleeping
  active := h.active
  linked := h.linked
  inReady := h.inReady
  inSleep := h.inSleep
  inList := h.inList
  handed v w hw := by
    by_cases e : v = u
    · subst e
      have self : (sys.goto v y).pc v = y := Function.update_self _ _ _
      rw [self] at hw
      exact takes w hw
    · have other : (sys.goto u y).pc v = sys.pc v := Function.update_of_ne e _ _
      rw [other] at hw
      exact h.handed v w hw
  released := h.released
  sentinel := h.sentinel
  mutantTail := h.mutantTail
  semaTail i := by
    obtain ⟨none, some⟩ := h.semaTail i
    refine ⟨none, fun z tail => (some z tail).imp_right fun ⟨empty, lost⟩ => ⟨empty, ?_⟩⟩
    refine lost.imp_right fun ⟨v, rel, off, at_⟩ => ⟨v, rel, off, ?_⟩
    have other : v ≠ u := fun e => last i rel off z (e ▸ at_) tail empty
    exact (Function.update_of_ne other _ _).trans at_
  ending := h.ending
  noKill := h.noKill
  new := h.new
  made := h.made

/-- The same inside a call of the processes. -/
theorem Parts.psGoto (h : Parts sys fresh place ready asleep lists) {u : T} {y : PS.Pc T P}
    (takes_ : ∀ w, takes y = some w → place w = .released u)
    (carries_ : carries y = carries (sys.ps.pc u))
    (ends_ : ends y = true → place (.thread u) = .off) (kills_ : kills y = false) :
    Parts { sys with ps := sys.ps.goto u y } fresh place ready asleep lists := by
  have self : (sys.ps.goto u y).pc u = y := Function.update_self _ _ _
  have other : ∀ v, v ≠ u → (sys.ps.goto u y).pc v = sys.ps.pc v := fun v e =>
    Function.update_of_ne e _ _
  refine ⟨h.rings, h.sleeping, h.active, fun o => ?_, h.inReady, h.inSleep, h.inList, h.handed,
    fun v w hw => ?_, h.sentinel, h.mutantTail, fun i => ⟨(h.semaTail i).none, (h.semaTail i).some⟩,
    fun v hv => ?_, fun v => ?_, h.new, h.made⟩
  · cases o with
    | ending v =>
      have same : carries ((sys.ps.goto u y).pc v) = carries (sys.ps.pc v) := by
        by_cases e : v = u
        · rw [e, self, carries_]
        · rw [other v e]
      show Linked sys.links (carries ((sys.ps.goto u y).pc v)) _
      rw [same]
      exact h.linked (.ending v)
    | semaphore i => exact h.linked (.semaphore i)
    | mutant i => exact h.linked (.mutant i)
    | event i => exact h.linked (.event i)
    | process p => exact h.linked (.process p)
  · dsimp only at hw
    by_cases e : v = u
    · subst e
      rw [self] at hw
      exact takes_ w hw
    · rw [other v e] at hw
      exact h.released v w hw
  · dsimp only at hv
    by_cases e : v = u
    · subst e
      rw [self] at hv
      exact ends_ hv
    · rw [other v e] at hv
      exact h.ending v hv
  · dsimp only
    by_cases e : v = u
    · rw [e, self]
      exact kills_
    · rw [other v e]
      exact h.noKill v

/-! ## One thread moves -/

theorem Tails.congr {i : H} {l : List (Ptr T)} {place' : Ptr T → Place T P H}
    (h : Tails sys place i l) (tail : (sys'.sema i).ends.tail = (sys.sema i).ends.tail)
    (pc : sys'.pc = sys.pc) (lost : ∀ z, place z = .lost → place' z = .lost) :
    Tails sys' place' i l := by
  refine ⟨fun e => h.none (tail.symm.trans e), fun z e => ?_⟩
  rw [pc]
  exact (h.some z (tail.symm.trans e)).imp_right fun ⟨empty, at_⟩ => ⟨empty, at_.imp_left (lost z)⟩

omit [DecidableEq P] [DecidableEq H] in
/-- A place that is neither `off` nor in the wait list is another thread's. -/
theorem kept_place {o : WaitList T P H} {y : Place T P H}
    (was : place (.thread t) = .off ∨ place (.thread t) = .waits o) (at_ : place q = y)
    (off : y ≠ .off) (waits : y ≠ .waits o) : Function.update place (.thread t) x q = y := by
  have ne : q ≠ .thread t := by
    rintro rfl
    exact was.elim (fun e => off (at_.symm.trans e)) fun e => waits (at_.symm.trans e)
  rw [Function.update_of_ne ne]
  exact at_

/-- **One thread is put in a wait list or taken off one**, and nothing else changes its place. -/
theorem Parts.change (h : Parts sys fresh place ready asleep lists) {o : WaitList T P H}
    {l : List (Ptr T)} (was : place (.thread t) = .off ∨ place (.thread t) = .waits o)
    (still : Still sys.sched sys'.sched) (linked : Linked sys'.links (sys'.head o) l)
    (links : ∀ o', o' ≠ o → ∀ q ∈ lists o', sys'.links q = sys.links q)
    (head : ∀ o', o' ≠ o → sys'.head o' = sys.head o')
    (members : ∀ q ∈ l, q = .thread t ∧ x = .waits o ∨ q ≠ .thread t ∧ q ∈ lists o)
    (handed : ∀ u w, (sys'.pc u).takes = some w →
      Function.update place (.thread t) x w = .handed u)
    (released : ∀ u w, takes (sys'.ps.pc u) = some w →
      Function.update place (.thread t) x w = .released u)
    (mutantTail : ∀ i, (sys'.mutant i).ends.tail =
      (Function.update lists o l (.mutant i)).getLast?)
    (semaTail : ∀ i, Tails sys' (Function.update place (.thread t) x) i
      (Function.update lists o l (.semaphore i)))
    (ending : ∀ u, ends (sys'.ps.pc u) = true → u ≠ t ∧ ends (sys.ps.pc u) = true)
    (noKill : ∀ u, kills (sys'.ps.pc u) = false)
    (allocated : sys'.ps.allocated = sys.ps.allocated) :
    Parts sys' fresh (Function.update place (.thread t) x) ready asleep
      (Function.update lists o l) := by
  refine ⟨still.rings h.rings, still.sleeping h.sleeping, still.active.trans h.active, fun o' => ?_,
    fun pri u m => kept_place was (h.inReady pri u m) (by simp) (by simp),
    fun u m => kept_place was (h.inSleep u m) (by simp) (by simp), fun o' q m => ?_, handed,
    released, fun pri => ?_, mutantTail, semaTail, fun u hu => ?_, noKill,
    fun u hu => kept_place was (h.new u (allocated ▸ hu)) (by simp) (by simp), allocated ▸ h.made⟩
  · by_cases e : o' = o
    · rw [e, Function.update_self]
      exact linked
    · rw [Function.update_of_ne e, head o' e]
      exact (h.linked o').congr (links o' e)
  · by_cases e : o' = o
    · rw [e, Function.update_self] at m
      obtain ⟨rfl, rfl⟩ | ⟨other, m⟩ := members q m
      · rw [e, Function.update_self]
      · rw [e, Function.update_of_ne other]
        exact h.inList o q m
    · rw [Function.update_of_ne e] at m
      exact kept_place was (h.inList o' q m) (by simp) (by simp [e])
  · rw [Function.update_of_ne (by simp)]
    exact h.sentinel pri
  · obtain ⟨other, ends_⟩ := ending u hu
    rw [Function.update_of_ne fun e => other (Ptr.thread.inj e)]
    exact h.ending u ends_

/-! ## The scheduler -/

/-- The wait lists are no business of the scheduler. -/
theorem linking_links : Linking fun k k' : KThread T P => k'.waitNext = k.waitNext where
  refl _ := rfl
  trans h h' := h'.trans h
  next _ _ := rfl
  prev _ _ := rfl
  sleepNext _ _ := rfl
  sleepUntil _ _ := rfl
  state _ _ _ := rfl

/-- The ready queues and the sleep list change. -/
theorem Parts.queues (h : Parts sys fresh place ready asleep lists) {fresh' : Finset T}
    {place' : Ptr T → Place T P H} {ready' : Queues T} {asleep' : List T}
    (rings : Rings s ready') (sleeping : Asleep s asleep') (active : s.active = true)
    (links : ∀ q, (s.mem q).waitNext = sys.links q)
    (inReady : ∀ pri, ∀ t ∈ ready' pri, place' (.thread t) = .ready)
    (inSleep : ∀ t ∈ asleep', place' (.thread t) = .asleep)
    (waits : ∀ q o, place q = .waits o → place' q = .waits o)
    (lost : ∀ q, place q = .lost → place' q = .lost)
    (handed : ∀ u w, (sys.pc u).takes = some w → place' w = .handed u)
    (released : ∀ u w, takes (sys.ps.pc u) = some w → place' w = .released u)
    (sentinel : ∀ pri, place' (.sentinel pri) = .off)
    (ending : ∀ u, ends (sys.ps.pc u) = true → place' (.thread u) = .off)
    (new : ∀ t, t ∉ sys.ps.allocated ∨ t ∈ fresh' → place' (.thread t) = .new)
    (fewer : ∀ t ∈ fresh', t ∈ fresh) : Parts (sys.with s) fresh' place' ready' asleep' lists where
  rings := rings
  sleeping := sleeping
  active := active
  linked o := by
    have head : (sys.with s).head o = sys.head o := by cases o <;> rfl
    rw [head]
    exact (h.linked o).congr fun q _ => links q
  inReady := inReady
  inSleep := inSleep
  inList o q m := waits q o (h.inList o q m)
  handed := handed
  released := released
  sentinel := sentinel
  mutantTail := h.mutantTail
  semaTail i := (h.semaTail i).congr rfl rfl lost
  ending := ending
  noKill := h.noKill
  new := new
  made t m := h.made t (fewer t m)

/-- **A thread that is in no list becomes ready.** -/
theorem Parts.makeReady (h : Parts sys fresh place ready asleep lists) {fresh' : Finset T}
    (was : place (.thread t) = .new ∨ (∃ u, place (.thread t) = .handed u) ∨
      ∃ u, place (.thread t) = .released u)
    (free : ∀ u, (sys.pc u).takes ≠ some (.thread t) ∧ takes (sys.ps.pc u) ≠ some (.thread t))
    (known : t ∈ sys.ps.allocated) (added : t ∉ fresh') (fewer : ∀ u ∈ fresh', u ∈ fresh) :
    Parts (sys.with (makeReady sys.sched (.thread t))) fresh'
      (Function.update place (.thread t) .ready) (ready.push sys.sched.level t) asleep lists := by
  have off : ∀ x : Place T P H,
      x = .off ∨ x = .ready ∨ x = .asleep ∨ x = .lost ∨ (∃ o, x = .waits o) →
      place (.thread t) ≠ x := by
    rintro x (rfl | rfl | rfl | rfl | ⟨o, rfl⟩) e
    all_goals
      rw [e] at was
      simp at was
  have kept : ∀ {q : Ptr T} {x : Place T P H}, place q = x → place (.thread t) ≠ x →
      Function.update place (.thread t) .ready q = x := fun {q x} at_ other => by
    have ne : q ≠ .thread t := fun e => other (e ▸ at_)
    rw [Function.update_of_ne ne]
    exact at_
  have set := Sched.sameSleep_setState sys.sched (.thread t) .ready
  have pushed := Sched.requeued_queuePushBack (sys.sched.setState (.thread t) .ready) (.thread t)
  have rings := (h.rings.setState (.thread t) .ready).pushBack (h.unqueued (off .ready (by simp)))
  rw [show (sys.sched.setState (.thread t) .ready).level = sys.sched.level from
    funext set.level] at rings
  refine h.queues rings ((set.trans pushed.sameSleep).asleep h.sleeping)
    (pushed.sameSleep.active.trans h.active) (fun q => ?_) (fun pri u m => ?_) (fun u m => ?_)
    (fun q o at_ => kept at_ (off _ (by simp))) (fun q at_ => kept at_ (off _ (by simp)))
    (fun u w hw => ?_) (fun u w hw => ?_) (fun pri => kept (h.sentinel pri) (off _ (by simp)))
    (fun u hu => kept (h.ending u hu) (off _ (by simp))) (fun u hu => ?_) fewer
  · exact (linking_links.makeReady (linking_links.relinked_refl _) (.thread t)).fields q
  · obtain m | ⟨rfl, -⟩ := Queues.mem_push.mp m
    · exact kept (h.inReady pri u m) (off _ (by simp))
    · exact Function.update_self _ _ _
  · exact kept (h.inSleep u m) (off _ (by simp))
  · have ne : w ≠ .thread t := fun e => (free u).1 (e ▸ hw)
    rw [Function.update_of_ne ne]
    exact h.handed u w hw
  · have ne : w ≠ .thread t := fun e => (free u).2 (e ▸ hw)
    rw [Function.update_of_ne ne]
    exact h.released u w hw
  · have other : u ≠ t := by
      rintro rfl
      exact hu.elim (fun none => none known) added
    rw [Function.update_of_ne fun e => other (Ptr.thread.inj e)]
    exact h.new u (hu.imp_right (fewer u))

/-- **`ScheduleInternal` switches** to a ready thread. -/
theorem Parts.switched (h : Parts sys fresh place ready asleep lists)
    (current : sys.sched.current = some (.thread c))
    (ran : (sys.sched.mem (.thread c)).state = .running →
      place (.thread c) = .off ∧ ends (sys.ps.pc c) = false)
    (runnable : main = c ∧ (sys.sched.mem (.thread c)).state = .running ∨ ∃ pri, main ∈ ready pri)
    (live : Awake sys.sched main)
    (other : ∀ pri rest, ready pri = c :: rest → ∃ q, pri < q ∧ ready q ≠ [])
    (some : ∃ pri, ready pri ≠ []) :
    ∃ place' ready' n, n ≠ c ∧
      Parts (sys.with (scheduleInternal sys.sched)) fresh place' ready' asleep lists ∧
      Here (sys.with (scheduleInternal sys.sched)) place' main n ready' ∧
      place' (.thread n) = .off := by
  have waitNext := linking_links.scheduleInternal (linking_links.relinked_refl sys.sched)
  cases h.rings.scheduleInternal h.active current fun r => h.unqueued (by simp [(ran r).1]) with
  | idle empty _ => exact absurd (empty some.choose) some.choose_spec
  | rotated pri rest first above _ _ _ _ =>
    obtain ⟨q, higher, full⟩ := other pri rest first
    exact absurd (above q higher) full
  | switched pri n rest apart first above rings now state sleep =>
    have queued : n ∈ ready pri := by
      rw [first]
      exact List.mem_cons_self
    have ready_ := h.inReady pri n queued
    have quiet : ends (sys.ps.pc n) = false := Bool.eq_false_iff.mpr fun e => by
      have off := h.ending n e
      rw [ready_] at off
      cases off
    -- the thread that ran goes back to the queues
    let place₁ : Ptr T → Place T P H :=
      if (sys.sched.mem (.thread c)).state = .running then Function.update place (.thread c) .ready
      else place
    have kept : ∀ {q : Ptr T} {x : Place T P H}, place q = x → x ≠ .off → x ≠ .ready →
        Function.update place₁ (.thread n) .off q = x := fun {q x} at_ off queued => by
      have ne : q ≠ .thread n := fun e => queued (at_.symm.trans (e ▸ ready_))
      rw [Function.update_of_ne ne]
      show (if _ then _ else _ : Ptr T → Place T P H) q = x
      split
      case isTrue r =>
        have ne : q ≠ .thread c := fun e => off (at_.symm.trans (e ▸ (ran r).1))
        rw [Function.update_of_ne ne]
        exact at_
      case isFalse => exact at_
    have idle : ∀ u, u ≠ n → place (.thread u) = .off →
        (u = c → (sys.sched.mem (.thread c)).state ≠ .running) →
        Function.update place₁ (.thread n) .off (.thread u) = .off := fun u un off stopped => by
      rw [Function.update_of_ne fun e => un (Ptr.thread.inj e)]
      show (if _ then _ else _ : Ptr T → Place T P H) _ = _
      split
      case isTrue r =>
        rw [Function.update_of_ne fun e => stopped (Ptr.thread.inj e) r]
        exact off
      case isFalse => exact off
    have members : ∀ q, ∀ u, u ∈ (if (sys.sched.mem (.thread c)).state = .running then
        (ready.drop n).push sys.sched.level c else ready.drop n) q →
        u ≠ n ∧ (u ∈ ready q ∨ u = c ∧ (sys.sched.mem (.thread c)).state = .running) := by
      intro q u m
      split at m
      case isTrue r =>
        obtain m | ⟨rfl, -⟩ := Queues.mem_push.mp m
        · exact ⟨(h.rings.mem_drop.mp m).2, .inl (h.rings.mem_drop.mp m).1⟩
        · exact ⟨apart.symm, .inr ⟨rfl, r⟩⟩
      case isFalse => exact ⟨(h.rings.mem_drop.mp m).2, .inl (h.rings.mem_drop.mp m).1⟩
    refine ⟨Function.update place₁ (.thread n) .off, _, n, apart,
      h.queues rings (sleep.asleep h.sleeping) (sleep.active.trans h.active) waitNext
        (fun q u m => ?_) (fun u m => kept (h.inSleep u m) (by simp) (by simp))
        (fun q o at_ => kept at_ (by simp) (by simp)) (fun q at_ => kept at_ (by simp) (by simp))
        (fun u w hw => kept (h.handed u w hw) (by simp) (by simp))
        (fun u w hw => kept (h.released u w hw) (by simp) (by simp)) (fun p => ?_) (fun u hu => ?_)
        (fun u hu => kept (h.new u hu) (by simp) (by simp)) fun _ m => m, ?_⟩
    · obtain ⟨un, m | ⟨rfl, r⟩⟩ := members q u m
      · rw [Function.update_of_ne fun e => un (Ptr.thread.inj e)]
        show (if _ then _ else _ : Ptr T → Place T P H) _ = _
        split
        case isTrue r =>
          by_cases e : u = c
          · rw [e, Function.update_self]
          · rw [Function.update_of_ne fun e' => e (Ptr.thread.inj e')]
            exact h.inReady q u m
        case isFalse => exact h.inReady q u m
      · rw [Function.update_of_ne fun e => un (Ptr.thread.inj e)]
        show (if _ then _ else _ : Ptr T → Place T P H) _ = _
        rw [if_pos r, Function.update_self]
    · have sen : Ptr.sentinel p ≠ Ptr.thread n := by simp
      rw [Function.update_of_ne sen]
      show (if _ then _ else _ : Ptr T → Place T P H) _ = _
      split
      case isTrue =>
        rw [Function.update_of_ne (by simp)]
        exact h.sentinel p
      case isFalse => exact h.sentinel p
    · have un : u ≠ n := fun e => by
        rw [e, quiet] at hu
        cases hu
      refine idle u un (h.ending u hu) fun e r => ?_
      rw [e, (ran r).2] at hu
      cases hu
    · have self : Function.update place₁ (.thread n) .off (.thread n) = .off :=
        Function.update_self _ _ _
      refine ⟨⟨now, fun _ => ⟨self, quiet⟩, ?_, .inl self, .inl self,
        fun slept => absurd (self.symm.trans slept) (by simp), fun p who fst w at_ => ?_, ?_, ?_⟩,
        self⟩
      · show ((scheduleInternal sys.sched).mem (.thread n)).state ≠ .ready
        rw [state, if_pos rfl]
        simp
      · have at_ : sys.ps.pc n = .exitClear p who fst w := at_
        rw [at_] at quiet
        cases quiet
      · by_cases e : main = n
        · exact .inl e
        · right
          rcases runnable with ⟨rfl, r⟩ | ⟨q, m⟩
          · refine ⟨sys.sched.level main, ?_⟩
            rw [if_pos r]
            exact Queues.mem_push.mpr (.inr ⟨rfl, rfl⟩)
          · refine ⟨q, ?_⟩
            have dropped := h.rings.mem_drop.mpr ⟨m, e⟩
            split
            · exact Queues.mem_push.mpr (.inl dropped)
            · exact dropped
      · show ((scheduleInternal sys.sched).mem (.thread main)).state ≠ .blocked ∧
          ((scheduleInternal sys.sched).mem (.thread main)).state ≠ .terminated
        rw [state]
        split
        · simp
        · split
          · simp
          · exact live

/-! ## The current thread -/

/-- The places of all threads can be told. -/
def Placed (sys : System T P H) (fresh : Finset T) (main : T) : Prop :=
  ∃ place ready asleep lists c,
    Parts sys fresh place ready asleep lists ∧ Here sys place main c ready

theorem Here.unqueued (here : Here sys place main c ready) : place (.thread c) ≠ .ready := by
  rcases here.somewhere with e | e | ⟨o, e⟩ | e <;> simp [e]

/-- The main thread runs whenever it is the current one. -/
theorem Here.main_runs (here : Here sys place main c ready) (same : main = c) :
    (sys.sched.mem (.thread c)).state = .running := by
  subst same
  have awake := here.awake
  have live := here.live
  cases state : (sys.sched.mem (.thread main)).state with
  | ready => exact absurd state awake
  | running => rfl
  | blocked => exact absurd state live.1
  | terminated => exact absurd state live.2

/-- Between two calls the current thread is in no list. -/
theorem Here.off (here : Here sys place main c ready) (pc : sys.pc c ≠ .schedule)
    (psPc : sys.pc c = .idle → sys.ps.pc c ≠ .waitSchedule) : place (.thread c) = .off :=
  here.window.resolve_right fun e => e.elim pc fun ⟨idle, waits⟩ => psPc idle waits

/-- The current thread stays in no list. -/
theorem Here.stay (here : Here sys place main c ready) {place' : Ptr T → Place T P H}
    {ready' : Queues T} (off : place' (.thread c) = .off)
    (current : sys'.sched.current = sys.sched.current)
    (state : (sys'.sched.mem (.thread c)).state = (sys.sched.mem (.thread c)).state)
    (quiet : ends (sys.ps.pc c) = false → ends (sys'.ps.pc c) = false)
    (taken : ∀ p who first w, sys'.ps.pc c = .exitClear p who first w →
      (sys'.ps.proc p).exitWaiters = w)
    (ready_ : ∀ pri, main ∈ ready pri → ∃ pri', main ∈ ready' pri')
    (live : Awake sys'.sched main) : Here sys' place' main c ready' where
  current := current.trans here.current
  ran r := ⟨off, quiet (here.ran (state.symm.trans r)).2⟩
  awake := by
    rw [state]
    exact here.awake
  somewhere := .inl off
  window := .inl off
  first slept := absurd (off.symm.trans slept) (by simp)
  taken := taken
  runnable := here.runnable.imp_right fun ⟨pri, m⟩ => ready_ pri m
  live := live

/-- The current thread is put in a list. -/
theorem Here.park (here : Here sys place main c ready) {place' : Ptr T → Place T P H}
    (current : sys'.sched.current = sys.sched.current)
    (blocked : (sys'.sched.mem (.thread c)).state = .blocked)
    (somewhere : place' (.thread c) = .asleep ∨ (∃ o, place' (.thread c) = .waits o) ∨
      place' (.thread c) = .lost)
    (window : sys'.pc c = .schedule ∨ sys'.pc c = .idle ∧ sys'.ps.pc c = .waitSchedule)
    (first : place' (.thread c) = .asleep → sys'.sched.sleepHead = some (.thread c))
    (taken : ∀ p who first w, sys'.ps.pc c = .exitClear p who first w →
      (sys'.ps.proc p).exitWaiters = w)
    (live : Awake sys'.sched main) : Here sys' place' main c ready where
  current := current.trans here.current
  ran r := absurd (blocked.symm.trans r) (by simp)
  awake := by
    rw [blocked]
    simp
  somewhere := .inr somewhere
  window := .inr window
  first := first
  taken := taken
  runnable := .inr (here.runnable.resolve_left fun same => live.1 (same ▸ blocked))
  live := live

theorem Here.goto (here : Here sys place main c ready) {u : T} {y : Pc T H}
    (window : u = c → place (.thread c) = .off ∨ y = .schedule) :
    Here (sys.goto u y) place main c ready where
  current := here.current
  ran := here.ran
  awake := here.awake
  somewhere := here.somewhere
  window := by
    show _ ∨ Function.update sys.pc u y c = .schedule ∨
      Function.update sys.pc u y c = .idle ∧ sys.ps.pc c = .waitSchedule
    by_cases e : c = u
    · rw [e, Function.update_self, ← e]
      exact (window e.symm).imp_right .inl
    · rw [Function.update_of_ne e]
      exact here.window
  first := here.first
  taken := here.taken
  runnable := here.runnable
  live := here.live

theorem Here.psGoto (here : Here sys place main c ready) {u : T} {y : PS.Pc T P}
    (window : u = c → place (.thread c) = .off ∨ sys.pc c = .idle ∧ y = .waitSchedule)
    (ran : u = c → (sys.sched.mem (.thread c)).state = .running → ends y = false)
    (taken : u = c → ∀ p who first w, y = .exitClear p who first w →
      (sys.ps.proc p).exitWaiters = w) :
    Here { sys with ps := sys.ps.goto u y } place main c ready := by
  have self : (sys.ps.goto u y).pc u = y := Function.update_self _ _ _
  by_cases e : u = c
  case pos =>
    subst e
    refine ⟨here.current, fun r => ⟨(here.ran r).1, ?_⟩, here.awake, here.somewhere, ?_,
      here.first, fun p who first w at_ => ?_, here.runnable, here.live⟩
    · dsimp only
      rw [self]
      exact ran rfl r
    · dsimp only
      rw [self]
      exact (window rfl).imp_right .inr
    · dsimp only at at_
      rw [self] at at_
      exact taken rfl p who first w at_
  case neg =>
    have other : (sys.ps.goto u y).pc c = sys.ps.pc c := Function.update_of_ne (Ne.symm e) _ _
    refine ⟨here.current, fun r => ⟨(here.ran r).1, ?_⟩, here.awake, here.somewhere, ?_,
      here.first, fun p who first w at_ => ?_, here.runnable, here.live⟩
    · dsimp only
      rw [other]
      exact (here.ran r).2
    · dsimp only
      rw [other]
      exact here.window
    · dsimp only at at_
      rw [other] at at_
      exact here.taken p who first w at_

/-- **`ScheduleInternal`.** Another thread gets the processor, unless the main thread is the only
one that can run. -/
theorem Parts.scheduleInternal (h : Parts sys fresh place ready asleep lists)
    (here : Here sys place main c ready) :
    ∃ place' ready' n,
      Parts (sys.with (scheduleInternal sys.sched)) fresh place' ready' asleep lists ∧
      Here (sys.with (scheduleInternal sys.sched)) place' main n ready' ∧
      place' (.thread n) = .off ∧ (n = c → (sys.sched.mem (.thread c)).state = .running) := by
  have off : ∀ pri, c ∉ ready pri := fun pri => h.unqueued here.unqueued pri
  by_cases none : ∀ pri, ready pri = []
  case pos =>
    have runs : main = c := here.runnable.resolve_right fun ⟨pri, m⟩ => by
      rw [none pri] at m
      cases m
    have same : Sched.scheduleInternal sys.sched = sys.sched := by
      cases h.rings.scheduleInternal h.active here.current fun _ => off with
      | idle _ same => exact same
      | rotated pri _ first =>
        rw [none pri] at first
        cases first
      | switched pri _ _ _ first =>
        rw [none pri] at first
        cases first
    rw [same]
    have ran := here.main_runs runs
    exact ⟨place, ready, c, h, here, (here.ran ran).1, fun _ => ran⟩
  case neg =>
    obtain ⟨pri, full⟩ := not_forall.mp none
    obtain ⟨place', ready', n, other, parts, next, off_⟩ := h.switched here.current here.ran
      (here.runnable.imp_left fun same => ⟨same, here.main_runs same⟩) here.live
      (fun pri rest first => absurd (first ▸ List.mem_cons_self) (off pri)) ⟨pri, full⟩
    exact ⟨place', ready', n, parts, next, off_, fun same => absurd same other⟩

/-! ## The timer -/

/-- The state at which a tick looks at the sleepers. -/
def ticked (s : State T P) : State T P := { s with pitTicks := s.pitTicks + 1 }

/-- A tick that wakes `c` leaves a thread to run before it. -/
def Overtaken (s : State T P) (c : T) : Prop :=
  (∃ pri, s.level c ≤ pri ∧ s.Waiting pri) ∨
    ∃ l, Asleep s l ∧ ∃ t ∈ l, s.level c < s.level t ∧ (ticked s).due t = true

/-- The current thread is the first of the sleep list, since it has not come to the `Schedule()`
of its `Sleep` yet. The tick wakes it and does not take the processor from it. -/
def Caught (s : State T P) : Prop :=
  ∃ c, s.current = some (.thread c) ∧ s.sleepHead = s.current ∧ (ticked s).due c = true ∧
    ¬ (s.quantum = 1 ∧ Overtaken s c)

/-- These threads are woken. -/
def wokenPlace (place : Ptr T → Place T P H) (l : List T) (q : Ptr T) : Place T P H :=
  if q ∈ l.map Ptr.thread then .ready else place q

omit [DecidableEq P] [DecidableEq H] in
theorem wokenPlace_of_not_mem {l : List T} (off : t ∉ l) :
    wokenPlace place l (.thread t) = place (.thread t) :=
  if_neg fun m => by
    obtain ⟨u, m, e⟩ := List.mem_map.mp m
    exact off (Ptr.thread.inj e ▸ m)

/-- **`WakeSleepers`**, whichever thread is the current one. -/
theorem Parts.wakeSleepers (h : Parts sys fresh place ready asleep lists) {n : Nat} {u : State T P}
    (woke : Sched.wakeSleepers n (ticked sys.sched) = some u) :
    Parts (sys.with u) fresh (wokenPlace place (asleep.filter (ticked sys.sched).due))
      ((asleep.filter (ticked sys.sched).due).foldl (Queues.push sys.sched.level) ready)
      (asleep.filter fun t => !(ticked sys.sched).due t) lists ∧
    Sched.Woken (ticked sys.sched) u ready (asleep.filter (ticked sys.sched).due) := by
  have rings : Rings (ticked sys.sched) ready := h.rings.congr ⟨rfl, rfl⟩
  obtain ⟨woken, left⟩ := rings.wakeSleepers h.sleeping
    (fun t m => h.unqueued (by simp [h.inSleep t m])) woke
  refine ⟨?_, woken⟩
  generalize (ticked sys.sched).due = late at *
  have kept : ∀ {q : Ptr T} {x : Place T P H}, place q = x → x ≠ .asleep →
      wokenPlace place (asleep.filter late) q = x := fun {q x} at_ other =>
    (if_neg fun m => by
      obtain ⟨t, slept, rfl⟩ := List.mem_map.mp m
      exact other (at_.symm.trans (h.inSleep t (List.mem_filter.mp slept).1))).trans at_
  have linked := (linking_links.wakeFrom (s := ticked sys.sched)
    (linking_links.relinked_refl _) woke).fields
  refine h.queues woken.rings left (woken.active.trans h.active) linked
    (fun pri t m => ?_) (fun t m => ?_) (fun q o at_ => kept at_ (by simp))
    (fun q at_ => kept at_ (by simp)) (fun u w hw => kept (h.handed u w hw) (by simp))
    (fun u w hw => kept (h.released u w hw) (by simp)) (fun pri => kept (h.sentinel pri) (by simp))
    (fun u hu => kept (h.ending u hu) (by simp)) (fun u hu => kept (h.new u hu) (by simp))
    fun _ m => m
  · obtain m | ⟨m, -⟩ := Sched.mem_pushAll.mp m
    · exact kept (h.inReady pri t m) (by simp)
    · exact if_pos (List.mem_map_of_mem m)
  · obtain ⟨m, early⟩ := List.mem_filter.mp m
    rw [wokenPlace_of_not_mem fun m' => by
      rw [(List.mem_filter.mp m').2] at early
      cases early]
    exact h.inSleep t m

/-- Less of the quantum is left. -/
theorem Parts.spend (h : Parts (sys.with s) fresh place ready asleep lists) (n : u32) :
    Parts (sys.with { s with quantum := n }) fresh place ready asleep lists :=
  h.unmoved ⟨⟨⟨rfl, rfl⟩, rfl, rfl, rfl, rfl⟩, fun o => by cases o <;> rfl, fun _ => rfl,
    fun _ => rfl, rfl, rfl, rfl⟩ fun _ _ _ => rfl

/-- The current thread was awake, or sleeps on. -/
theorem Here.woken (here : Here sys place main c ready) {u : State T P}
    (woken : Sched.Woken (ticked sys.sched) u ready (asleep.filter (ticked sys.sched).due))
    (sleeping : Asleep sys.sched asleep)
    (left : Asleep u (asleep.filter fun t => !(ticked sys.sched).due t))
    (early : c ∉ asleep.filter (ticked sys.sched).due) (n : u32) :
    Here (sys.with { u with quantum := n })
      (wokenPlace place (asleep.filter (ticked sys.sched).due)) main c
      ((asleep.filter (ticked sys.sched).due).foldl (Queues.push sys.sched.level) ready) := by
  have runs : ∀ t, (u.mem (.thread t)).state =
      if t ∈ asleep.filter (ticked sys.sched).due then .ready
      else (sys.sched.mem (.thread t)).state := woken.state
  have state : (u.mem (.thread c)).state = (sys.sched.mem (.thread c)).state := by
    rw [runs, if_neg early]
  have same : wokenPlace place (asleep.filter (ticked sys.sched).due) (.thread c) =
      place (.thread c) := wokenPlace_of_not_mem early
  refine ⟨woken.current.trans here.current, fun r => ?_, ?_, ?_, ?_, fun slept => ?_, here.taken,
    here.runnable.imp_right fun ⟨pri, m⟩ => ⟨pri, Sched.mem_pushAll.mpr (.inl m)⟩, ?_⟩
  · rw [same]
    exact here.ran (state.symm.trans r)
  · show (u.mem (.thread c)).state ≠ .ready
    rw [state]
    exact here.awake
  · rw [same]
    exact here.somewhere
  · rw [same]
    exact here.window
  · rw [same] at slept
    have head := here.first slept
    unfold Asleep at sleeping
    rw [head] at sleeping
    obtain ⟨r, split, -⟩ := sleeping.eq_cons
    obtain ⟨a, l, rfl, e, -⟩ := List.map_eq_cons_iff.mp split
    cases e
    have stays : (ticked sys.sched).due c = false := Bool.eq_false_iff.mpr fun due =>
      early (List.mem_filter.mpr ⟨List.mem_cons_self, due⟩)
    have kept : (c :: l).filter (fun t => !(ticked sys.sched).due t) =
        c :: l.filter fun t => !(ticked sys.sched).due t :=
      List.filter_cons_of_pos (by rw [stays, Bool.not_false])
    rw [kept] at left
    exact left.1
  · show (u.mem (.thread main)).state ≠ .blocked ∧ (u.mem (.thread main)).state ≠ .terminated
    rw [runs]
    split
    case isTrue => simp
    case isFalse => exact here.live

/-- A thread that is overtaken is behind a thread of its queue, or there is a higher one. -/
theorem Parts.overtaken (h : Parts sys fresh place ready asleep lists)
    (slept : place (.thread c) = .asleep) (before : Overtaken sys.sched c) {pri : Fin 3}
    {rest : List T} (first : (asleep.filter (ticked sys.sched).due).foldl
      (Queues.push sys.sched.level) ready pri = c :: rest) :
    ∃ q, pri < q ∧ (asleep.filter (ticked sys.sched).due).foldl
      (Queues.push sys.sched.level) ready q ≠ [] := by
  have off : ∀ q, c ∉ ready q := h.unqueued (by simp [slept])
  have level : pri = sys.sched.level c := by
    obtain m | ⟨-, e⟩ := Sched.mem_pushAll.mp (first ▸ List.mem_cons_self : c ∈ _)
    · exact absurd m (off pri)
    · exact e
  rcases before with ⟨q, le, waiting⟩ | ⟨l, sleeping, t, m, higher, due⟩
  · have full : ready q ≠ [] := h.rings.waiting_iff.mp waiting
    have kept : (asleep.filter (ticked sys.sched).due).foldl
        (Queues.push sys.sched.level) ready q ≠ [] := by
      obtain ⟨a, m⟩ := List.exists_mem_of_ne_nil _ full
      exact List.ne_nil_of_mem (Sched.mem_pushAll.mpr (.inl m))
    rcases Nat.lt_or_eq_of_le le with lt | same
    · exact ⟨q, level ▸ lt, kept⟩
    · have same : pri = q := level.trans (Fin.ext same)
      subst same
      obtain ⟨a, l, queue⟩ := List.exists_cons_of_ne_nil full
      have front : ((asleep.filter (ticked sys.sched).due).foldl (Queues.push sys.sched.level) ready
          pri).head? = some a := Sched.pushAll_head queue
      rw [first, List.head?_cons] at front
      cases front
      exact absurd (queue ▸ List.mem_cons_self) (off pri)
  · have same : l = asleep := List.map_injective_iff.mpr (fun _ _ => Ptr.thread.inj)
      (Linked.unique sleeping h.sleeping)
    refine ⟨sys.sched.level t, level ▸ higher, List.ne_nil_of_mem (Sched.mem_pushAll.mpr
      (.inr ⟨List.mem_filter.mpr ⟨same ▸ m, due⟩, rfl⟩))⟩

/-- The current thread was on its way into `Schedule()`, and is woken and switched off. -/
theorem Parts.leaves (h : Parts sys fresh place ready asleep lists)
    (here : Here sys place main c ready) {u : State T P}
    (woken : Sched.Woken (ticked sys.sched) u ready (asleep.filter (ticked sys.sched).due))
    (due : c ∈ asleep.filter (ticked sys.sched).due) (before : Overtaken sys.sched c)
    {place' : Ptr T → Place T P H} {left : List T} {n : u32}
    (parts : Parts (sys.with { u with quantum := n }) fresh place'
      ((asleep.filter (ticked sys.sched).due).foldl (Queues.push sys.sched.level) ready) left
      lists) :
    Placed (sys.with (Sched.scheduleInternal { u with quantum := n })) fresh main := by
  have slept := h.inSleep c (List.mem_filter.mp due).1
  have runs : ∀ t, (u.mem (.thread t)).state =
      if t ∈ asleep.filter (ticked sys.sched).due then .ready
      else (sys.sched.mem (.thread t)).state := woken.state
  have apart : main ≠ c := fun same => by
    have off := (here.ran (here.main_runs same)).1
    rw [slept] at off
    cases off
  have queued : c ∈ (asleep.filter (ticked sys.sched).due).foldl (Queues.push sys.sched.level)
      ready (sys.sched.level c) := Sched.mem_pushAll.mpr (.inr ⟨due, rfl⟩)
  have live : Awake u main := by
    unfold Awake
    rw [runs]
    split
    case isTrue => simp
    case isFalse => exact here.live
  have state : (u.mem (.thread c)).state = .ready := by rw [runs, if_pos due]
  obtain ⟨place₂, ready₂, m, -, parts₂, here₂, -⟩ := parts.switched
    (woken.current.trans here.current) (fun r => absurd (state.symm.trans r) (by simp))
    (.inr ((here.runnable.resolve_left apart).imp fun _ m => Sched.mem_pushAll.mpr (.inl m))) live
    (fun _ _ first => h.overtaken slept before first) ⟨_, List.ne_nil_of_mem queued⟩
  exact ⟨place₂, _, _, _, m, parts₂, here₂⟩

/-- **The timer interrupt.** -/
theorem Parts.timer (h : Parts sys fresh place ready asleep lists)
    (here : Here sys place main c ready) {n : Nat} (free : ¬ Caught sys.sched)
    (ticks : Sched.timer n sys.sched = some s) : Placed (sys.with s) fresh main := by
  unfold Sched.timer Sched.tick at ticks
  rw [if_neg (by
    rintro (inactive | none)
    · rw [h.active] at inactive
      cases inactive
    · rw [here.current] at none
      cases none)] at ticks
  obtain ⟨u, woke, rfl⟩ := Option.map_eq_some_iff.mp ticks
  obtain ⟨parts, woken⟩ := h.wakeSleepers woke
  by_cases due : c ∈ asleep.filter (ticked sys.sched).due
  case neg =>
    have here' := here.woken woken h.sleeping parts.sleeping due
    split
    · have spent := parts.spend (u.quantum - 1)
      dsimp only
      split
      · obtain ⟨place', ready', m, parts', next, -⟩ := spent.scheduleInternal (here' _)
        exact ⟨place', _, _, _, m, parts', next⟩
      · exact ⟨_, _, _, _, c, spent, here' _⟩
    · exact ⟨_, _, _, _, c, parts, here' u.quantum⟩
  case pos =>
    obtain ⟨m, late⟩ := List.mem_filter.mp due
    have head := here.first (h.inSleep c m)
    obtain ⟨last, before⟩ := Classical.not_not.mp fun stays =>
      free ⟨c, here.current, head.trans here.current.symm, late, stays⟩
    have quantum : u.quantum = 1 := woken.quantum.trans last
    rw [if_pos (by rw [quantum]; decide)]
    dsimp only
    rw [if_pos (by rw [quantum]; decide)]
    exact h.leaves here woken due before (parts.spend (u.quantum - 1))

end

end MicroNT.Signals
