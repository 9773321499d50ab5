import MicroNT.Preemption
import MicroNT.SleepList

/-! # Orderly runs

The kernel keeps no record of the list that a thread is in. In a run in which only a thread
that is in none is made ready or goes to sleep, the ready queues and the sleep list stay lists,
and no thread is in two of them. -/

set_option linter.unusedSectionVars false

namespace MicroNT.Sched

open Base.Machine
open Base.Chain (Linked)
open MicroNT.Sync (ThreadState)

variable {T P : Type} [DecidableEq T] {s t u : State T P} {ready ready' : Queues T} {a b c : T}
  {asleep : List T}

/-- The thread is in no ready queue. -/
def State.Unqueued (s : State T P) (a : T) : Prop := (s.mem (.thread a)).next = none

/-- The thread is neither in a ready queue nor on the sleep list. -/
def State.InNoList (s : State T P) (a : T) : Prop :=
  s.Unqueued a ∧ ∀ l, Asleep s l → a ∉ l

theorem inNoList_of_head (unqueued : s.Unqueued a) (none : s.sleepHead = none) : s.InNoList a := by
  refine ⟨unqueued, fun l asleep m => ?_⟩
  have empty : Linked s.sleepNexts Option.none (l.map .thread) := none ▸ asleep
  exact List.not_mem_nil (List.map_eq_nil_iff.mp empty.eq_nil ▸ m)

/-- Only a thread that is in no list is made ready or goes to sleep, the priority of a queued
thread stays, and `RemoveThread` is for other threads. -/
def Orderly (sys : System T P) : Op T P → Prop
  | .makeReady a => sys.state.InNoList a
  | .sleep ms => ms ≠ 0 → ∀ a, sys.state.current = some (.thread a) → sys.state.InNoList a
  | .setPriority a _ => sys.state.Unqueued a
  | .remove a => sys.state.current ≠ some (.thread a)
  | _ => True

/-- The lists, and the current thread `c`: RUNNING it is in none, READY it is queued. -/
structure Tidy (s : State T P) (ready : Queues T) (asleep : List T) (c : T) : Prop where
  lined : Lined s ready
  sleeping : Asleep s asleep
  active : s.active = true
  current : s.current = some (.thread c)
  apart : ∀ t ∈ asleep, ∀ pri, t ∉ ready pri
  running : (s.mem (.thread c)).state = .running → (∀ pri, c ∉ ready pri) ∧ c ∉ asleep
  runnable : (s.mem (.thread c)).state = .ready → ∃ pri, c ∈ ready pri

/-- The threads that the scheduler knows. -/
def Member (ready : Queues T) (asleep : List T) (c t : T) : Prop :=
  t = c ∨ t ∈ asleep ∨ ∃ pri, t ∈ ready pri

theorem Tidy.inNoList (h : Tidy s ready asleep c) (off : s.InNoList a) :
    (∀ pri, a ∉ ready pri) ∧ a ∉ asleep := ⟨h.lined.unqueued off.1, off.2 _ h.sleeping⟩

/-! ## The scheduler and the clock -/

/-- **`ScheduleInternal`.** A sleeping thread goes on only if no thread is queued. -/
theorem Tidy.scheduleInternal (h : Tidy s ready asleep c) :
    ∃ ready' c', Tidy (scheduleInternal s) ready' asleep c' ∧
      (∀ t, Member ready' asleep c' t → Member ready asleep c t) ∧
      (c' ∈ asleep → c' = c ∧ ∀ pri, ready pri = []) := by
  cases h.lined.scheduleInternal h.active h.current fun ran => (h.running ran).1 with
  | idle empty same =>
    rw [same]
    exact ⟨ready, c, h, fun _ m => m, fun _ => ⟨rfl, empty⟩⟩
  | rotated pri rest first above lined current state sleep =>
    have queued : c ∈ ready pri := by
      rw [first]
      exact List.mem_cons_self
    refine ⟨_, c, ⟨lined, sleep.asleep h.sleeping, sleep.active.trans h.active, current, ?_, ?_, ?_⟩,
      ?_, fun m => absurd queued (h.apart c m pri)⟩
    · intro t m q m'
      obtain m' | ⟨rfl, -⟩ := Queues.mem_push.mp m'
      · exact h.apart t m q (h.lined.mem_drop.mp m').1
      · exact h.apart t m pri queued
    · intro ran
      rw [state] at ran
      exact absurd queued ((h.running ran).1 pri)
    · exact fun _ => ⟨s.level c, Queues.mem_push.mpr (.inr ⟨rfl, rfl⟩)⟩
    · rintro t (e | m | ⟨q, m⟩)
      · exact .inl e
      · exact .inr (.inl m)
      · obtain m | ⟨e, -⟩ := Queues.mem_push.mp m
        · exact .inr (.inr ⟨q, (h.lined.mem_drop.mp m).1⟩)
        · exact .inl e
  | switched pri n rest other first above lined current state sleep =>
    have queued : n ∈ ready pri := by
      rw [first]
      exact List.mem_cons_self
    -- the previous thread is put back only if it was in no list
    have back : ∀ q t, t ∈ (if (s.mem (.thread c)).state = .running then
        (ready.drop n).push s.level c else ready.drop n) q →
        (t ∈ ready q ∧ t ≠ n) ∨ (t = c ∧ (s.mem (.thread c)).state = .running) := by
      intro q t m
      split at m
      case isTrue ran =>
        obtain m | ⟨e, -⟩ := Queues.mem_push.mp m
        · exact .inl (h.lined.mem_drop.mp m)
        · exact .inr ⟨e, ran⟩
      case isFalse => exact .inl (h.lined.mem_drop.mp m)
    refine ⟨_, n, ⟨lined, sleep.asleep h.sleeping, sleep.active.trans h.active, current, ?_, ?_, ?_⟩,
      ?_, fun m => absurd queued (h.apart n m pri)⟩
    · intro t m q m'
      obtain ⟨m', -⟩ | ⟨rfl, ran⟩ := back q t m'
      · exact h.apart t m q m'
      · exact (h.running ran).2 m
    · refine fun _ => ⟨fun q m => ?_, fun m => h.apart n m pri queued⟩
      obtain ⟨-, same⟩ | ⟨same, -⟩ := back q n m
      · exact same rfl
      · exact other same
    · intro waits
      rw [state, if_pos rfl] at waits
      cases waits
    · rintro t (rfl | m | ⟨q, m⟩)
      · exact .inr (.inr ⟨pri, queued⟩)
      · exact .inr (.inl m)
      · obtain ⟨m, -⟩ | ⟨e, -⟩ := back q t m
        · exact .inr (.inr ⟨q, m⟩)
        · exact .inl e

/-- **`WakeSleepers`.** -/
theorem Tidy.wakeSleepers (h : Tidy s ready asleep c) {n : Nat}
    (woke : wakeSleepers n s = some u) :
    Tidy u ((asleep.filter s.due).foldl (Queues.push s.level) ready)
      (asleep.filter fun t => !s.due t) c := by
  obtain ⟨spec, left⟩ := wakeSleepers_spec h.lined h.sleeping h.apart woke
  refine ⟨spec.lined, left, spec.active.trans h.active, spec.current.trans h.current, ?_, ?_, ?_⟩
  · intro t m pri m'
    obtain ⟨m, early⟩ := List.mem_filter.mp m
    obtain m' | ⟨m', -⟩ := mem_pushAll.mp m'
    · exact h.apart t m pri m'
    · rw [(List.mem_filter.mp m').2] at early
      cases early
  · intro ran
    rw [spec.state] at ran
    split at ran
    case isTrue => cases ran
    case isFalse off =>
      obtain ⟨unqueued, awake⟩ := h.running ran
      refine ⟨fun pri m => ?_, fun m => awake (List.mem_filter.mp m).1⟩
      obtain m | ⟨m, -⟩ := mem_pushAll.mp m
      · exact unqueued pri m
      · exact off m
  · intro waits
    rw [spec.state] at waits
    split at waits
    case isTrue m => exact ⟨s.level c, mem_pushAll.mpr (.inr ⟨m, rfl⟩)⟩
    case isFalse =>
      obtain ⟨pri, m⟩ := h.runnable waits
      exact ⟨pri, mem_pushAll.mpr (.inl m)⟩

/-- The lists are in the threads' records. -/
theorem Tidy.congr (h : Tidy s ready asleep c) (mem : t.mem = s.mem)
    (head : t.sleepHead = s.sleepHead) (active : t.active = s.active)
    (current : t.current = s.current) : Tidy t ready asleep c := by
  have links : t.nexts = s.nexts ∧ t.prevs = s.prevs := by
    unfold State.nexts State.prevs
    rw [mem]
    exact ⟨rfl, rfl⟩
  refine ⟨h.lined.congr links fun _ a _ => ?_, ?_, active.trans h.active, current.trans h.current,
    h.apart, ?_, ?_⟩
  · unfold State.level
    rw [mem]
  · unfold Asleep State.sleepNexts
    rw [mem, head]
    exact h.sleeping
  all_goals rw [mem]
  · exact h.running
  · exact h.runnable

/-- Woken threads only move. -/
theorem member_woken {level : T → Fin 3} {due : T → Bool}
    (h : Member ((asleep.filter due).foldl (Queues.push level) ready)
      (asleep.filter fun t => !due t) c a) : Member ready asleep c a := by
  obtain e | m | ⟨pri, m⟩ := h
  · exact .inl e
  · exact .inr (.inl (List.mem_filter.mp m).1)
  · obtain m | ⟨m, -⟩ := mem_pushAll.mp m
    · exact .inr (.inr ⟨pri, m⟩)
    · exact .inr (.inl (List.mem_filter.mp m).1)

/-- What becomes of the sleeping threads: each sleeps on until its time has come, and none
gets the processor. -/
structure Slept (s t : State T P) (asleep asleep' : List T) (c c' : T) : Prop where
  kept : ∀ a ∈ asleep,
    (a ∈ asleep' ∧ (t.mem (.thread a)).sleepUntil = (s.mem (.thread a)).sleepUntil) ∨
      (s.mem (.thread a)).sleepUntil ≤ t.pitTicks
  current : c' ∈ asleep' → c' = c

theorem SameSleep.slept {c' : T} (h : SameSleep s t) (current : c' ∈ asleep → c' = c) :
    Slept s t asleep asleep c c' :=
  ⟨fun a m => .inl ⟨m, h.deadline (.thread a)⟩, current⟩

theorem Tidy.sameSleep (h : Tidy s ready asleep c) : SameSleep s (Sched.scheduleInternal s) := by
  cases h.lined.scheduleInternal h.active h.current fun ran => (h.running ran).1 with
  | idle _ same =>
    rw [same]
    exact .refl s
  | rotated _ _ _ _ _ _ _ sleep => exact sleep
  | switched _ _ _ _ _ _ _ _ _ sleep => exact sleep

/-- **The timer interrupt.** -/
theorem Tidy.timer (h : Tidy s ready asleep c) {n : Nat} (ticked : timer n s = some t) :
    t.pitTicks = s.pitTicks + 1 ∧ ∃ ready' asleep' c', Tidy t ready' asleep' c' ∧
      (∀ t, Member ready' asleep' c' t → Member ready asleep c t) ∧
      Slept s t asleep asleep' c c' := by
  unfold Sched.timer tick at ticked
  rw [if_neg (by
    rintro (inactive | none)
    · rw [h.active] at inactive
      cases inactive
    · rw [h.current] at none
      cases none)] at ticked
  obtain ⟨u, woke, rfl⟩ := Option.map_eq_some_iff.mp ticked
  have later := h.congr (t := { s with pitTicks := s.pitTicks + 1 }) rfl rfl rfl rfl
  have awake := later.wakeSleepers woke
  obtain ⟨spec, -⟩ := wakeSleepers_spec later.lined later.sleeping later.apart woke
  -- the clock has gone on by one when the sleepers are looked at
  have slept : Slept s u asleep (asleep.filter fun t =>
      !({ s with pitTicks := s.pitTicks + 1 } : State T P).due t) c c := by
    refine ⟨fun a m => ?_, fun _ => rfl⟩
    by_cases due : ({ s with pitTicks := s.pitTicks + 1 } : State T P).due a = true
    · refine .inr ?_
      rw [spec.ticks]
      exact of_decide_eq_true due
    · have early := Bool.eq_false_iff.mpr due
      refine .inl ⟨List.mem_filter.mpr ⟨m, by rw [early]; rfl⟩, spec.deadline a fun m' => ?_⟩
      exact due (List.mem_filter.mp m').2
  split
  · extract_lets u1
    have counted := awake.congr (t := u1) rfl rfl rfl rfl
    split
    · obtain ⟨ready', c', tidy, members, current⟩ := counted.scheduleInternal
      have same := counted.sameSleep
      refine ⟨same.ticks.trans spec.ticks, ready', _, c', tidy,
        fun t m => member_woken (members t m), fun a m => ?_, fun m => (current m).1⟩
      rw [same.deadline, same.ticks]
      exact slept.kept a m
    · exact ⟨spec.ticks, _, _, c, counted, fun _ => member_woken, slept.kept, slept.current⟩
  · exact ⟨spec.ticks, _, _, c, awake, fun _ => member_woken, slept⟩

/-! ## One record -/

theorem Tidy.setState (h : Tidy s ready asleep c) {x : ThreadState} (a : T) (stops : x ≠ .running)
    (waits : x ≠ .ready) : Tidy (s.setState (.thread a) x) ready asleep c := by
  refine ⟨h.lined.setState _ x, (sameSleep_setState s _ x).asleep h.sleeping, h.active, h.current,
    h.apart, fun ran => ?_, fun ran => ?_⟩
  all_goals
    by_cases e : c = a
    · rw [e, State.setState_state] at ran
      first
        | exact absurd ran stops
        | exact absurd ran waits
    · rw [State.setState_state_of_ne fun e' => e (Ptr.thread.inj e')] at ran
      first
        | exact h.running ran
        | exact h.runnable ran

/-- `AddThread`, and `UnblockThread`, for a thread in no list. -/
theorem Tidy.makeReady (h : Tidy s ready asleep c) (off : s.InNoList a) :
    Tidy (makeReady s (.thread a)) (ready.push s.level a) asleep c := by
  obtain ⟨unqueued, awake⟩ := h.inNoList off
  have set := sameSleep_setState s (.thread a) .ready
  have pushed := requeued_queuePushBack (s.setState (.thread a) .ready) (.thread a)
  have lined := (h.lined.setState (.thread a) .ready).pushBack unqueued
  rw [show (s.setState (.thread a) .ready).level = s.level from funext set.level] at lined
  refine ⟨lined, (set.trans pushed.sameSleep).asleep h.sleeping, ?_, ?_, ?_, ?_, ?_⟩
  · exact pushed.sameSleep.active.trans h.active
  · exact pushed.current.trans h.current
  · intro t m pri m'
    obtain m' | ⟨rfl, -⟩ := Queues.mem_push.mp m'
    · exact h.apart t m pri m'
    · exact awake m
  · intro ran
    unfold Sched.makeReady at ran
    rw [pushed.state] at ran
    by_cases e : c = a
    · rw [e, State.setState_state] at ran
      cases ran
    · rw [State.setState_state_of_ne fun e' => e (Ptr.thread.inj e')] at ran
      obtain ⟨off, awake⟩ := h.running ran
      refine ⟨fun pri m => ?_, awake⟩
      obtain m | ⟨e', -⟩ := Queues.mem_push.mp m
      · exact off pri m
      · exact e e'
  · intro waits
    unfold Sched.makeReady at waits
    rw [pushed.state] at waits
    by_cases e : c = a
    · exact ⟨s.level a, Queues.mem_push.mpr (.inr ⟨e, rfl⟩)⟩
    · rw [State.setState_state_of_ne fun e' => e (Ptr.thread.inj e')] at waits
      obtain ⟨pri, m⟩ := h.runnable waits
      exact ⟨pri, Queues.mem_push.mpr (.inl m)⟩

/-- `Sleep`, up to its call of `Schedule`. -/
theorem Tidy.sleep (h : Tidy s ready asleep c) {ms : u32} (some : ms ≠ 0) (off : s.InNoList c) :
    Tidy (sleep s ms) ready (c :: asleep) c := by
  obtain ⟨unqueued, awake⟩ := h.inNoList off
  unfold Sched.sleep
  rw [if_neg some, h.current]
  dsimp only
  let k : KThread T P :=
    { s.mem (.thread c) with
      sleepUntil := s.pitTicks + ticksNeeded ms
      sleepNext := s.sleepHead
      state := .blocked }
  have level : ∀ b, (s.write (.thread c) k).level b = s.level b := fun b =>
    congrArg clampPri (s.write_field KThread.priority (k := k) rfl (.thread b))
  have blocked : ∀ k : KThread T P, k.state = .blocked → ∀ x, x ≠ .blocked →
      ((s.write (.thread c) k).mem (.thread c)).state ≠ x := by
    intro k hk x hx e
    rw [State.write_self, hk] at e
    exact hx e.symm
  refine ⟨?_, ?_, h.active, h.current, ?_, ?_, ?_⟩
  · exact h.lined.congr (links_write rfl rfl) fun _ b _ => level b
  · unfold Asleep
    show Linked (s.write (.thread c) _).sleepNexts (Option.some (Ptr.thread c)) _
    rw [sleepNexts_write]
    refine Linked.push h.sleeping fun m => ?_
    obtain ⟨_, m, e⟩ := List.mem_map.mp m
    cases e
    exact awake m
  · intro t m pri m'
    obtain rfl | m := List.mem_cons.mp m
    · exact unqueued pri m'
    · exact h.apart t m pri m'
  · exact fun ran => absurd ran (blocked _ rfl _ ThreadState.noConfusion)
  · exact fun waits => absurd waits (blocked _ rfl _ ThreadState.noConfusion)

/-- Only the record of the thread that goes to sleep is written. -/
theorem sleep_deadline_of_ne (current : s.current = some (.thread c)) (ms : u32) (other : a ≠ c) :
    ((sleep s ms).mem (.thread a)).sleepUntil = (s.mem (.thread a)).sleepUntil := by
  unfold Sched.sleep
  split
  · rfl
  · rw [current]
    exact congrArg KThread.sleepUntil (State.write_of_ne (fun e => other (Ptr.thread.inj e)) s _)

theorem Tidy.remove (h : Tidy s ready asleep c) (other : a ≠ c) :
    Tidy (queueRemove s (.thread a)) (ready.drop a) asleep c := by
  have removed := requeued_queueRemove s (.thread a)
  refine ⟨h.lined.remove a, removed.sameSleep.asleep h.sleeping,
    removed.sameSleep.active.trans h.active, removed.current.trans h.current, ?_, ?_, ?_⟩
  · exact fun t m pri m' => h.apart t m pri (h.lined.mem_drop.mp m').1
  · intro ran
    rw [removed.state] at ran
    exact ⟨fun pri m => (h.running ran).1 pri (h.lined.mem_drop.mp m).1, (h.running ran).2⟩
  · intro waits
    rw [removed.state] at waits
    obtain ⟨pri, m⟩ := h.runnable waits
    exact ⟨pri, h.lined.mem_drop.mpr ⟨m, other.symm⟩⟩

/-- The record of a thread that is in no ready queue is written, but for its state, or that
of a thread that the scheduler does not know. -/
theorem Tidy.write (h : Tidy s ready asleep c) {k : KThread T P} (off : ∀ pri, a ∉ ready pri)
    (next : k.next = (s.mem (.thread a)).next) (prev : k.prev = (s.mem (.thread a)).prev)
    (sleepNext : a ∉ asleep ∨ k.sleepNext = (s.mem (.thread a)).sleepNext)
    (state : a ≠ c ∨ k.state = (s.mem (.thread a)).state) :
    Tidy (s.write (.thread a) k) ready asleep c := by
  have other : ∀ b, b ≠ a → (s.write (.thread a) k).mem (.thread b) = s.mem (.thread b) :=
    fun b hb => State.write_of_ne (fun e => hb (Ptr.thread.inj e)) s k
  have same : ((s.write (.thread a) k).mem (.thread c)).state = (s.mem (.thread c)).state := by
    by_cases e : c = a
    · rw [e, State.write_self]
      exact state.resolve_left fun ne => ne e.symm
    · rw [other c e]
  refine ⟨?_, ?_, h.active, h.current, h.apart, ?_, ?_⟩
  · refine h.lined.congr (links_write next prev) fun pri b m => ?_
    unfold State.level
    rw [other b fun e => off pri (e ▸ m)]
  · unfold Asleep
    rw [sleepNexts_write]
    obtain awake | kept := sleepNext
    · refine Linked.update h.sleeping fun m => ?_
      obtain ⟨_, m, e⟩ := List.mem_map.mp m
      cases e
      exact awake m
    · rw [kept, show (s.mem (.thread a)).sleepNext = s.sleepNexts (.thread a) from rfl,
        Function.update_eq_self]
      exact h.sleeping
  all_goals rw [same]
  · exact h.running
  · exact h.runnable

/-! ## Every orderly run -/

variable [DecidableEq P] {sys sys' : System T P}

/-- The lists of a machine, and only threads that exist are in them. -/
structure InLists (sys : System T P) (ready : Queues T) (asleep : List T) (c : T) : Prop where
  tidy : Tidy sys.state ready asleep c
  created : ∀ t, Member ready asleep c t → sys.created t = true

/-- Right after `Start`, which follows `Init`, no thread waits. -/
theorem InLists.begin (initial : Initial sys.state sys.main) (main : sys.created sys.main = true) :
    InLists sys.begin (fun _ => []) [] sys.main := by
  have links : (start sys.state sys.main).nexts = sys.state.nexts ∧
      (start sys.state sys.main).prevs = sys.state.prevs := links_write rfl rfl
  have ran : (sys.begin.state.mem (.thread sys.main)).state = .running :=
    State.setState_state sys.state _ _
  refine ⟨⟨⟨?_, ?_, ?_⟩, initial.sleepHead, rfl, rfl, ?_, ?_, ?_⟩, ?_⟩
  · intro pri
    rw [show sys.begin.state.nexts = _ from links.1, show sys.begin.state.prevs = _ from links.2]
    exact ⟨⟨(initial.sentinel pri).1, (initial.sentinel pri).2⟩, List.nodup_singleton _⟩
  · intro pri t m
    cases m
  · intro t _
    rw [show sys.begin.state.nexts = _ from links.1, show sys.begin.state.prevs = _ from links.2]
    exact ⟨(initial.thread t).1, (initial.thread t).2.1⟩
  · intro t m
    cases m
  · exact fun _ => ⟨fun _ => List.not_mem_nil, List.not_mem_nil⟩
  · intro waits
    rw [ran] at waits
    cases waits
  · rintro t (rfl | m | ⟨pri, m⟩)
    · exact main
    · cases m
    · cases m

/-- **One orderly step.** -/
theorem InLists.step (h : InLists sys ready asleep c) {op : Op T P} (orderly : Orderly sys op)
    (hs : Sched.step sys op = some sys') :
    ∃ ready' asleep' c', InLists sys' ready' asleep' c' ∧
      Slept sys.state sys'.state asleep asleep' c c' := by
  obtain ⟨tidy, created⟩ := h
  have stays : ∀ {t : State T P}, SameSleep sys.state t →
      Slept sys.state t asleep asleep c c := fun same => same.slept fun _ => rfl
  cases op with
  | timer n =>
    obtain ⟨t, ticked, rfl⟩ := Option.map_eq_some_iff.mp hs
    obtain ⟨-, ready', asleep', c', tidy', members, slept⟩ := tidy.timer ticked
    exact ⟨ready', asleep', c', ⟨tidy', fun a m => created a (members a m)⟩, slept⟩
  | schedule =>
    cases hs
    obtain ⟨ready', c', tidy', members, current⟩ := tidy.scheduleInternal
    exact ⟨ready', asleep, c', ⟨tidy', fun a m => created a (members a m)⟩,
      tidy.sameSleep.slept fun m => (current m).1⟩
  | block =>
    cases hs
    have eq := blockCurrentThread_eq tidy.current
    refine ⟨ready, asleep, c, ⟨?_, created⟩, stays ?_⟩
    · show Tidy (blockCurrentThread sys.state) ready asleep c
      rw [eq]
      exact tidy.setState c ThreadState.noConfusion ThreadState.noConfusion
    · show SameSleep _ (blockCurrentThread sys.state)
      rw [eq]
      exact sameSleep_setState _ _ _
  | makeReady a =>
    obtain ⟨exists_, ⟨⟩⟩ := Option.ite_none_right_eq_some.mp hs
    refine ⟨_, asleep, c, ⟨tidy.makeReady orderly, ?_⟩,
      stays ((sameSleep_setState _ _ _).trans (requeued_queuePushBack _ _).sameSleep)⟩
    rintro t (e | m | ⟨pri, m⟩)
    · exact created t (.inl e)
    · exact created t (.inr (.inl m))
    · obtain m | ⟨rfl, -⟩ := Queues.mem_push.mp m
      · exact created t (.inr (.inr ⟨pri, m⟩))
      · exact exists_
  | sleep ms =>
    cases hs
    by_cases none : ms = 0
    · have eq : Sched.sleep sys.state ms = sys.state := if_pos none
      refine ⟨ready, asleep, c, ⟨?_, created⟩, stays ?_⟩
      · show Tidy (Sched.sleep sys.state ms) ready asleep c
        rw [eq]
        exact tidy
      · show SameSleep _ (Sched.sleep sys.state ms)
        rw [eq]
        exact .refl _
    · have off := orderly none c tidy.current
      refine ⟨ready, c :: asleep, c, ⟨tidy.sleep none off, ?_⟩, fun a m => .inl ⟨?_, ?_⟩,
        fun _ => rfl⟩
      · rintro t (e | m | m)
        · exact created t (.inl e)
        · exact created t ((List.mem_cons.mp m).imp_right .inl)
        · exact created t (.inr (.inr m))
      · exact List.mem_cons_of_mem c m
      · have other : a ≠ c := fun e => (tidy.inNoList off).2 (e ▸ m)
        exact sleep_deadline_of_ne tidy.current ms other
  | remove a =>
    obtain ⟨exists_, ⟨⟩⟩ := Option.ite_none_right_eq_some.mp hs
    have other : a ≠ c := fun e => orderly (e ▸ tidy.current)
    refine ⟨_, asleep, c, ⟨tidy.remove other, ?_⟩, stays (requeued_queueRemove _ _).sameSleep⟩
    rintro t (e | m | ⟨pri, m⟩)
    · exact created t (.inl e)
    · exact created t (.inr (.inl m))
    · exact created t (.inr (.inr ⟨pri, (tidy.lined.mem_drop.mp m).1⟩))
  | setPriority a pri =>
    obtain ⟨exists_, ⟨⟩⟩ := Option.ite_none_right_eq_some.mp hs
    let k : KThread T P := { sys.state.mem (.thread a) with priority := pri }
    exact ⟨ready, asleep, c, ⟨tidy.write (tidy.lined.unqueued orderly) rfl rfl (.inr rfl)
      (.inr rfl), created⟩, fun b m => .inl ⟨m, sys.state.write_field KThread.sleepUntil (k := k)
        rfl (.thread b)⟩, fun _ => rfl⟩
  | terminate a =>
    obtain ⟨exists_, ⟨⟩⟩ := Option.ite_none_right_eq_some.mp hs
    exact ⟨ready, asleep, c,
      ⟨tidy.setState a ThreadState.noConfusion ThreadState.noConfusion, created⟩,
      stays (sameSleep_setState _ _ _)⟩
  | createProcess p cr3 =>
    obtain ⟨exists_, ⟨⟩⟩ := Option.ite_none_right_eq_some.mp hs
    exact ⟨ready, asleep, c, ⟨tidy.congr rfl rfl rfl rfl, created⟩,
      fun b m => .inl ⟨m, rfl⟩, fun _ => rfl⟩
  | createThread a user process stackBase stackSize teb =>
    obtain ⟨⟨new, -⟩, ⟨⟩⟩ := Option.ite_none_right_eq_some.mp hs
    have unknown : ¬ Member ready asleep c a := fun m => by
      rw [created a m] at new
      cases new
    have off : ∀ pri, a ∉ ready pri := fun pri m => unknown (.inr (.inr ⟨pri, m⟩))
    have other : ∀ b ∈ asleep, b ≠ a := fun b m e => unknown (.inr (.inl (e ▸ m)))
    obtain ⟨next, prev⟩ := tidy.lined.free a off
    refine ⟨ready, asleep, c, ⟨tidy.write off next.symm prev.symm
      (.inl fun m => unknown (.inr (.inl m))) (.inl fun e => unknown (.inl e)), fun t m => ?_⟩,
      fun b m => .inl ⟨m, ?_⟩, fun _ => rfl⟩
    · show Function.update sys.created a true t = true
      by_cases e : t = a
      · rw [e, Function.update_self]
      · rw [Function.update_of_ne e]
        exact created t m
    · show ((sys.state.write (.thread a) _).mem (.thread b)).sleepUntil = _
      rw [State.write_of_ne fun e => other b m (Ptr.thread.inj e)]

/-- The threads are in lists. -/
def Listed (sys : System T P) : Prop := ∃ ready asleep c, InLists sys ready asleep c

theorem Listed.step (h : Listed sys) {op : Op T P} (orderly : Orderly sys op)
    (hs : Sched.step sys op = some sys') : Listed sys' := by
  obtain ⟨ready, asleep, c, lists⟩ := h
  obtain ⟨ready', asleep', c', lists', -⟩ := lists.step orderly hs
  exact ⟨ready', asleep', c', lists'⟩

/-- A machine after `Init`, with room for one more thread. -/
def halted : System Bool Unit :=
  booted.with { booted.state with active := false, current := none }

theorem halted_initial : Initial halted.state halted.main where
  sentinel _ := ⟨rfl, rfl⟩
  thread _ := ⟨rfl, rfl, rfl⟩
  sleepHead := rfl
  active := rfl
  current := rfl

end MicroNT.Sched
