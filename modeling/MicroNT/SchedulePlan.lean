import MicroNT.ReadyLists
import MicroNT.SleepLength

/-! # What the scheduler is for

A plan has the threads in lists, without a pointer: three queues in order of arrival, the
sleepers with the ticks they wait for, and the thread that runs. Every run of the scheduler is a
run of the plan, as long as only a thread that is in no list is made ready or goes to sleep. -/

set_option linter.unusedSectionVars false

namespace MicroNT.Sched

open Base.Machine
open Base.Chain (Linked)
open MicroNT.Sync (ThreadState)

variable {T P : Type} [DecidableEq T]

/-! ## The plan -/

/-- The last thread to fall asleep is the first of `asleep`. -/
structure Plan (T : Type) where
  ready : Queues T
  asleep : List T
  running : T
  state : T → ThreadState
  level : T → Fin 3
  wakeAt : T → u64
  quantum : u32
  now : u64
  created : T → Bool

/-- The processor goes to the oldest thread of the highest queue, and the one that had it to the
end of its own queue if it can go on. -/
def Plan.dispatch (p : Plan T) : Plan T :=
  match p.ready.top with
  | none => p
  | some n =>
    let rest := p.ready.drop n
    if n = p.running then
      { p with ready := rest.push p.level n, quantum := QUANTUM_TICKS }
    else if p.state p.running = .running then
      { p with
        ready := rest.push p.level p.running
        state := Function.update (Function.update p.state p.running .ready) n .running
        running := n
        quantum := QUANTUM_TICKS }
    else
      { p with
        ready := rest
        state := Function.update p.state n .running
        running := n
        quantum := QUANTUM_TICKS }

theorem Plan.created_dispatch (p : Plan T) : p.dispatch.created = p.created := by
  unfold Plan.dispatch
  cases p.ready.top with
  | none => rfl
  | some n =>
    dsimp only
    split
    · rfl
    · split <;> rfl

def Plan.due (p : Plan T) (t : T) : Bool := decide (p.wakeAt t ≤ p.now)

/-- The sleepers whose time has come go to their queues, the last to fall asleep first. -/
def Plan.wakeDue (p : Plan T) : Plan T :=
  { p with
    ready := (p.asleep.filter p.due).foldl (Queues.push p.level) p.ready
    asleep := p.asleep.filter fun t => !p.due t
    state := fun t => if t ∈ p.asleep.filter p.due then .ready else p.state t }

def Plan.tick (p : Plan T) : Plan T :=
  let p := { p with now := p.now + 1 }.wakeDue
  if p.quantum > 0 then
    let p := { p with quantum := p.quantum - 1 }
    if p.quantum = 0 then p.dispatch else p
  else p

theorem Plan.created_tick (p : Plan T) : p.tick.created = p.created := by
  unfold Plan.tick
  dsimp only
  split
  · split
    · exact Plan.created_dispatch _
    · rfl
  · rfl

def Plan.sleep (p : Plan T) (ms : u32) : Plan T :=
  if ms = 0 then p
  else
    { p with
      asleep := p.running :: p.asleep
      wakeAt := Function.update p.wakeAt p.running (p.now + ticksNeeded ms)
      state := Function.update p.state p.running .blocked }

def Plan.step (p : Plan T) : Op T P → Option (Plan T)
  | .timer _ => some p.tick
  | .schedule => some p.dispatch
  | .block => some { p with state := Function.update p.state p.running .blocked }
  | .makeReady t =>
    if p.created t then
      some { p with ready := p.ready.push p.level t, state := Function.update p.state t .ready }
    else none
  | .sleep ms => some (p.sleep ms)
  | .remove t => if p.created t then some { p with ready := p.ready.drop t } else none
  | .setPriority t pri =>
    if p.created t then some { p with level := Function.update p.level t (clampPri pri) } else none
  | .terminate t =>
    if p.created t then some { p with state := Function.update p.state t .terminated } else none
  | .createProcess _ _ => some p
  | .createThread t _ _ _ _ _ =>
    if p.created t then none
    else
      some
        { p with
          state := Function.update p.state t .ready
          level := Function.update p.level t ⟨1, by decide⟩
          created := Function.update p.created t true }

/-- Only a thread that is in no list is made ready or goes to sleep, the priority of a queued
thread stays, and `RemoveThread` is for other threads than the one that runs. -/
def Plan.Permits (p : Plan T) : Op T P → Prop
  | .makeReady t => (∀ pri, t ∉ p.ready pri) ∧ t ∉ p.asleep
  | .sleep ms => ms ≠ 0 → (∀ pri, p.running ∉ p.ready pri) ∧ p.running ∉ p.asleep
  | .setPriority t _ => ∀ pri, t ∉ p.ready pri
  | .remove t => t ≠ p.running
  | _ => True

/-! ## The plan of a machine -/

variable {s t u : State T P} {p : Plan T} {a c : T}

/-- The records spell out the plan. -/
structure Agrees (s : State T P) (p : Plan T) : Prop where
  tidy : Tidy s p.ready p.asleep p.running
  state : ∀ a, (s.mem (.thread a)).state = p.state a
  level : s.level = p.level
  wakeAt : ∀ a ∈ p.asleep, (s.mem (.thread a)).sleepUntil = p.wakeAt a
  quantum : s.quantum = p.quantum
  now : s.pitTicks = p.now

/-- The queues of a machine are determined. -/
theorem Lined.unique {ready ready' : Queues T} (h : Lined s ready) (h' : Lined s ready') :
    ready = ready' := by
  funext pri
  exact List.map_injective_iff.mpr (fun _ _ e => Ptr.thread.inj e) ((h.ring pri).unique (h'.ring pri))

theorem Tidy.unique {ready ready' : Queues T} {l l' : List T} {c c' : T} (h : Tidy s ready l c)
    (h' : Tidy s ready' l' c') : ready = ready' ∧ l = l' ∧ c = c' :=
  ⟨h.lined.unique h'.lined, h.sleeping.unique h'.sleeping,
    Ptr.thread.inj (Option.some.inj (h.current.symm.trans h'.current))⟩

theorem Tidy.inNoList_of {ready : Queues T} {l : List T} (h : Tidy s ready l c)
    (unqueued : ∀ pri, a ∉ ready pri) (awake : a ∉ l) : s.InNoList a :=
  ⟨(h.lined.free a unqueued).1, fun _ asleep m => awake (h.sleeping.unique asleep ▸ m)⟩

/-- `ScheduleInternal` keeps the lists, whatever is known of them. -/
theorem Tidy.scheduled {ready ready' : Queues T} {l : List T} {c c' : T} (h : Tidy s ready l c)
    (lined : Lined (Sched.scheduleInternal s) ready')
    (current : (Sched.scheduleInternal s).current = some (.thread c')) :
    Tidy (Sched.scheduleInternal s) ready' l c' := by
  obtain ⟨q, d, tidy, -, -⟩ := h.scheduleInternal
  obtain rfl : q = ready' := tidy.lined.unique lined
  obtain rfl : d = c' := Ptr.thread.inj (Option.some.inj (tidy.current.symm.trans current))
  exact tidy

/-- A new quantum begins whenever a thread is queued. -/
theorem Tidy.quantum_of_queued {ready : Queues T} {l : List T} (h : Tidy s ready l c) {pri : Fin 3}
    (queued : a ∈ ready pri) : (Sched.scheduleInternal s).quantum = QUANTUM_TICKS := by
  have found : s.current ≠ none := by
    rw [h.current]
    exact Option.some_ne_none _
  rw [(scheduleInternal_quantum h.active found).2.2, if_neg]
  intro none
  have empty := h.lined.rings.pop_none_iff.mp none pri
  rw [empty] at queued
  cases queued

/-- **`ScheduleInternal` dispatches.** -/
theorem Agrees.dispatch (h : Agrees s p) : Agrees (scheduleInternal s) p.dispatch := by
  have same := h.tidy.sameSleep
  have level : (scheduleInternal s).level = p.level := (funext same.level).trans h.level
  have wakeAt : ∀ a ∈ p.asleep,
      ((scheduleInternal s).mem (.thread a)).sleepUntil = p.wakeAt a := fun a m =>
    (same.deadline (.thread a)).trans (h.wakeAt a m)
  have now := same.ticks.trans h.now
  unfold Plan.dispatch
  cases h.tidy.lined.scheduleInternal h.tidy.active h.tidy.current fun ran =>
    (h.tidy.running ran).1 with
  | idle empty eq =>
    rw [eq, Queues.top_of_empty empty]
    exact h
  | rotated pri rest first above lined current state =>
    have queued : p.running ∈ p.ready pri := first ▸ List.mem_cons_self
    rw [Queues.top_of_first first above]
    dsimp only
    rw [if_pos rfl]
    rw [h.level] at lined
    exact ⟨h.tidy.scheduled lined current, fun a => (state _).trans (h.state a), level, wakeAt,
      h.tidy.quantum_of_queued queued, now⟩
  | switched pri n rest other first above lined current state =>
    have queued : n ∈ p.ready pri := first ▸ List.mem_cons_self
    have quantum := h.tidy.quantum_of_queued queued
    rw [Queues.top_of_first first above]
    dsimp only
    rw [if_neg other]
    rw [h.level] at lined
    split
    case isTrue ran =>
      rw [if_pos ((h.state _).trans ran)] at lined
      refine ⟨h.tidy.scheduled lined current, fun a => ?_, level, wakeAt, quantum, now⟩
      show _ = Function.update (Function.update p.state p.running .ready) n .running a
      rw [state, h.state, h.state]
      by_cases en : a = n
      · rw [en, if_pos rfl, Function.update_self]
      · rw [if_neg en, Function.update_of_ne en]
        by_cases er : a = p.running
        · rw [er, if_pos ⟨rfl, ran⟩, Function.update_self]
        · rw [if_neg fun h => er h.1, Function.update_of_ne er]
    case isFalse stopped =>
      rw [if_neg fun e => stopped ((h.state _).symm.trans e)] at lined
      refine ⟨h.tidy.scheduled lined current, fun a => ?_, level, wakeAt, quantum, now⟩
      show _ = Function.update p.state n .running a
      rw [state, h.state, h.state]
      by_cases en : a = n
      · rw [en, if_pos rfl, Function.update_self]
      · rw [if_neg en, Function.update_of_ne en, if_neg fun h => stopped h.2]

/-- **`WakeSleepers` wakes those whose time has come.** -/
theorem Agrees.wakeDue (h : Agrees s p) {n : Nat} (woke : wakeSleepers n s = some u) :
    Agrees u p.wakeDue := by
  have due : p.asleep.filter s.due = p.asleep.filter p.due := by
    refine List.filter_congr fun a m => ?_
    unfold State.due Plan.due
    rw [h.wakeAt a m, h.now]
  have early : (p.asleep.filter fun t => !s.due t) = p.asleep.filter fun t => !p.due t := by
    refine List.filter_congr fun a m => ?_
    unfold State.due Plan.due
    rw [h.wakeAt a m, h.now]
  obtain ⟨spec, -⟩ := wakeSleepers_spec h.tidy.lined h.tidy.sleeping h.tidy.apart woke
  have tidy := h.tidy.wakeSleepers woke
  rw [due, early, h.level] at tidy
  refine ⟨tidy, fun a => ?_, spec.level.trans h.level, fun a m => ?_, spec.quantum.trans h.quantum,
    spec.ticks.trans h.now⟩
  · rw [spec.state, h.state, due]
    rfl
  · obtain ⟨m, early⟩ := List.mem_filter.mp m
    refine (spec.deadline a fun m' => ?_).trans (h.wakeAt a m)
    rw [due] at m'
    rw [(List.mem_filter.mp m').2] at early
    cases early

/-- The clock goes on. -/
theorem Agrees.later (h : Agrees s p) :
    Agrees { s with pitTicks := s.pitTicks + 1 } { p with now := p.now + 1 } :=
  ⟨h.tidy.congr rfl rfl rfl rfl, h.state, h.level, h.wakeAt, h.quantum, congrArg (· + 1) h.now⟩

theorem Agrees.setQuantum (h : Agrees s p) (n : u32) :
    Agrees { s with quantum := n } { p with quantum := n } :=
  ⟨h.tidy.congr rfl rfl rfl rfl, h.state, h.level, h.wakeAt, rfl, h.now⟩

/-- **The timer interrupt** is a tick of the plan. -/
theorem Agrees.tick (h : Agrees s p) {n : Nat} (ticked : timer n s = some t) : Agrees t p.tick := by
  unfold Sched.timer Sched.tick at ticked
  rw [if_neg (by
    rintro (inactive | none)
    · rw [h.tidy.active] at inactive
      cases inactive
    · rw [h.tidy.current] at none
      cases none)] at ticked
  obtain ⟨u, woke, rfl⟩ := Option.map_eq_some_iff.mp ticked
  have awake := h.later.wakeDue woke
  have counted := awake.setQuantum (p.quantum - 1)
  unfold Plan.tick
  dsimp only
  rw [show u.quantum = p.quantum from awake.quantum]
  rw [show (Plan.wakeDue { p with now := p.now + 1 }).quantum = p.quantum from rfl]
  split
  · split
    · exact counted.dispatch
    · exact counted
  · exact awake

/-- One thread's state is set. -/
theorem Agrees.setState (h : Agrees s p) {x : ThreadState}
    (tidy : Tidy (s.setState (.thread a) x) p.ready p.asleep p.running) :
    Agrees (s.setState (.thread a) x) { p with state := Function.update p.state a x } := by
  have same := sameSleep_setState s (.thread a) x
  refine ⟨tidy, fun b => ?_, (funext same.level).trans h.level, fun b m => ?_, h.quantum, h.now⟩
  · show _ = Function.update p.state a x b
    by_cases e : b = a
    · rw [e, State.setState_state, Function.update_self]
    · rw [State.setState_state_of_ne fun e' => e (Ptr.thread.inj e'), Function.update_of_ne e, h.state]
  · exact (same.deadline (.thread b)).trans (h.wakeAt b m)

/-- A thread in no list is made ready. -/
theorem Agrees.makeReady (h : Agrees s p) (unqueued : ∀ pri, a ∉ p.ready pri) (awake : a ∉ p.asleep) :
    Agrees (makeReady s (.thread a))
      { p with ready := p.ready.push p.level a, state := Function.update p.state a .ready } := by
  have set := sameSleep_setState s (.thread a) .ready
  have pushed := requeued_queuePushBack (s.setState (.thread a) .ready) (.thread a)
  have same := set.trans pushed.sameSleep
  have tidy := h.tidy.makeReady (h.tidy.inNoList_of unqueued awake)
  rw [h.level] at tidy
  refine ⟨tidy, fun b => ?_, (funext same.level).trans h.level, fun b m => ?_, ?_, ?_⟩
  · show _ = Function.update p.state a .ready b
    refine (pushed.state (.thread b)).trans ?_
    by_cases e : b = a
    · rw [e, State.setState_state, Function.update_self]
    · rw [State.setState_state_of_ne fun e' => e (Ptr.thread.inj e'), Function.update_of_ne e, h.state]
  · exact (same.deadline (.thread b)).trans (h.wakeAt b m)
  · exact (congrArg State.quantum pushed.rest).trans h.quantum
  · exact same.ticks.trans h.now

/-- The thread that runs goes to sleep. -/
theorem Agrees.sleep (h : Agrees s p) {ms : u32}
    (off : ms ≠ 0 → (∀ pri, p.running ∉ p.ready pri) ∧ p.running ∉ p.asleep) :
    Agrees (sleep s ms) (p.sleep ms) := by
  unfold Plan.sleep
  split
  case isTrue none =>
    rw [show Sched.sleep s ms = s from if_pos none]
    exact h
  case isFalse some =>
    obtain ⟨unqueued, awake⟩ := off some
    have tidy := h.tidy.sleep some (h.tidy.inNoList_of unqueued awake)
    let k : KThread T P :=
      { s.mem (.thread p.running) with
        sleepUntil := s.pitTicks + ticksNeeded ms
        sleepNext := s.sleepHead
        state := .blocked }
    have written : Sched.sleep s ms =
        { s.write (.thread p.running) k with sleepHead := Option.some (.thread p.running) } := by
      unfold Sched.sleep
      rw [if_neg some, h.tidy.current]
    rw [written] at tidy ⊢
    have other : ∀ b, b ≠ p.running → (s.write (.thread p.running) k).mem (.thread b) = s.mem (.thread b) :=
      fun b hb => State.write_of_ne (fun e => hb (Ptr.thread.inj e)) s k
    refine ⟨tidy, fun b => ?_, ?_, fun b m => ?_, h.quantum, h.now⟩
    · show ((s.write (.thread p.running) k).mem (.thread b)).state =
        Function.update p.state p.running .blocked b
      by_cases e : b = p.running
      · rw [e, State.write_self, Function.update_self]
      · rw [other b e, Function.update_of_ne e, h.state]
    · refine (funext fun b => ?_).trans h.level
      exact congrArg clampPri (s.write_field KThread.priority (k := k) rfl (.thread b))
    · show ((s.write (.thread p.running) k).mem (.thread b)).sleepUntil =
        Function.update p.wakeAt p.running (p.now + ticksNeeded ms) b
      by_cases e : b = p.running
      · rw [e, State.write_self, Function.update_self, ← h.now]
      · rw [other b e, Function.update_of_ne e]
        exact h.wakeAt b ((List.mem_cons.mp m).resolve_left e)

theorem Agrees.remove (h : Agrees s p) (other : a ≠ p.running) :
    Agrees (queueRemove s (.thread a)) { p with ready := p.ready.drop a } := by
  have removed := requeued_queueRemove s (.thread a)
  exact ⟨h.tidy.remove other, fun b => (removed.state _).trans (h.state b),
    (funext removed.level).trans h.level,
    fun b m => (removed.sameSleep.deadline _).trans (h.wakeAt b m),
    (congrArg State.quantum removed.rest).trans h.quantum, removed.sameSleep.ticks.trans h.now⟩

/-- The record of a thread that is in no ready queue is written, but for its links. -/
theorem Agrees.write (h : Agrees s p) {k : KThread T P} (unqueued : ∀ pri, a ∉ p.ready pri)
    (next : k.next = (s.mem (.thread a)).next) (prev : k.prev = (s.mem (.thread a)).prev)
    (sleep : a ∉ p.asleep ∨ k.sleepNext = (s.mem (.thread a)).sleepNext ∧
      k.sleepUntil = (s.mem (.thread a)).sleepUntil)
    (state : a ≠ p.running ∨ k.state = (s.mem (.thread a)).state) :
    Agrees (s.write (.thread a) k)
      { p with
        state := Function.update p.state a k.state
        level := Function.update p.level a (clampPri k.priority) } := by
  have other : ∀ b, b ≠ a → (s.write (.thread a) k).mem (.thread b) = s.mem (.thread b) :=
    fun b hb => State.write_of_ne (fun e => hb (Ptr.thread.inj e)) s k
  refine ⟨h.tidy.write unqueued next prev (sleep.imp_right And.left) state, fun b => ?_, ?_,
    fun b m => ?_, h.quantum, h.now⟩
  · show _ = Function.update p.state a k.state b
    by_cases e : b = a
    · rw [e, State.write_self, Function.update_self]
    · rw [other b e, Function.update_of_ne e, h.state]
  · funext b
    show clampPri _ = Function.update p.level a (clampPri k.priority) b
    by_cases e : b = a
    · rw [e, State.write_self, Function.update_self]
    · rw [other b e, Function.update_of_ne e, ← h.level]
      rfl
  · by_cases e : b = a
    · rw [e] at m ⊢
      rw [State.write_self]
      obtain awake | ⟨-, kept⟩ := sleep
      · exact absurd m awake
      · exact kept.trans (h.wakeAt a m)
    · rw [other b e]
      exact h.wakeAt b m

/-! ## Every run -/

variable [DecidableEq P] {sys sys' : System T P}

/-- The machine spells out the plan, and only threads that exist are in a list. -/
structure Refines (sys : System T P) (p : Plan T) : Prop where
  agrees : Agrees sys.state p
  created : sys.created = p.created
  member : ∀ t, Member p.ready p.asleep p.running t → p.created t = true

/-- The plan right after `Start`. -/
def System.firstPlan (sys : System T P) : Plan T where
  ready _ := []
  asleep := []
  running := sys.main
  state t := (sys.begin.state.mem (.thread t)).state
  level := sys.state.level
  wakeAt t := (sys.state.mem (.thread t)).sleepUntil
  quantum := QUANTUM_TICKS
  now := sys.state.pitTicks
  created := sys.created

theorem Refines.begin (initial : Initial sys.state sys.main) (main : sys.created sys.main = true) :
    Refines sys.begin sys.firstPlan := by
  obtain ⟨tidy, member⟩ := InLists.begin initial main
  have same := sameSleep_setState sys.state (.thread sys.main) .running
  exact ⟨⟨tidy, fun _ => rfl, funext same.level, fun _ m => (List.not_mem_nil m).elim, rfl, rfl⟩, rfl,
    member⟩

theorem Refines.orderly (h : Refines sys p) {op : Op T P} (permitted : p.Permits op) :
    Orderly sys op := by
  have tidy := h.agrees.tidy
  cases op with
  | makeReady a => exact tidy.inNoList_of permitted.1 permitted.2
  | sleep ms =>
    intro some a current
    obtain rfl : p.running = a := Ptr.thread.inj (Option.some.inj (tidy.current.symm.trans current))
    exact tidy.inNoList_of (permitted some).1 (permitted some).2
  | setPriority a pri => exact (tidy.lined.free a permitted).1
  | remove a =>
    intro current
    exact permitted (Ptr.thread.inj (Option.some.inj (tidy.current.symm.trans current))).symm
  | _ => trivial

/-- What a step does to the records is a step of the plan. -/
theorem Refines.agrees_step (h : Refines sys p) {op : Op T P} (permitted : p.Permits op)
    (hs : Sched.step sys op = some sys') :
    ∃ p', p.step op = some p' ∧ Agrees sys'.state p' ∧ sys'.created = p'.created := by
  obtain ⟨agrees, created, member⟩ := h
  have exists_ : ∀ {a : T}, sys.created a = true → p.created a = true := fun ha => created ▸ ha
  cases op with
  | timer n =>
    obtain ⟨t, ticked, rfl⟩ := Option.map_eq_some_iff.mp hs
    exact ⟨p.tick, rfl, agrees.tick ticked, created.trans p.created_tick.symm⟩
  | schedule =>
    cases hs
    exact ⟨p.dispatch, rfl, agrees.dispatch, created.trans p.created_dispatch.symm⟩
  | block =>
    cases hs
    have eq := blockCurrentThread_eq agrees.tidy.current
    refine ⟨_, rfl, ?_, created⟩
    show Agrees (blockCurrentThread sys.state) _
    rw [eq]
    exact agrees.setState
      (agrees.tidy.setState p.running ThreadState.noConfusion ThreadState.noConfusion)
  | makeReady a =>
    obtain ⟨known, ⟨⟩⟩ := Option.ite_none_right_eq_some.mp hs
    exact ⟨_, if_pos (exists_ known), agrees.makeReady permitted.1 permitted.2, created⟩
  | sleep ms =>
    cases hs
    refine ⟨_, rfl, agrees.sleep permitted, created.trans ?_⟩
    unfold Plan.sleep
    split <;> rfl
  | remove a =>
    obtain ⟨known, ⟨⟩⟩ := Option.ite_none_right_eq_some.mp hs
    exact ⟨_, if_pos (exists_ known), agrees.remove permitted, created⟩
  | setPriority a pri =>
    obtain ⟨known, ⟨⟩⟩ := Option.ite_none_right_eq_some.mp hs
    refine ⟨_, if_pos (exists_ known), ?_, created⟩
    have written := agrees.write (k := { sys.state.mem (.thread a) with priority := pri }) permitted
      rfl rfl (.inr ⟨rfl, rfl⟩) (.inr rfl)
    rw [show ({ sys.state.mem (.thread a) with priority := pri } : KThread T P).state = p.state a from
      agrees.state a, Function.update_eq_self] at written
    exact written
  | terminate a =>
    obtain ⟨known, ⟨⟩⟩ := Option.ite_none_right_eq_some.mp hs
    exact ⟨_, if_pos (exists_ known), agrees.setState
      (agrees.tidy.setState a ThreadState.noConfusion ThreadState.noConfusion), created⟩
  | createProcess q cr3 =>
    obtain ⟨known, ⟨⟩⟩ := Option.ite_none_right_eq_some.mp hs
    exact ⟨p, rfl, ⟨agrees.tidy.congr rfl rfl rfl rfl, agrees.state, agrees.level, agrees.wakeAt,
      agrees.quantum, agrees.now⟩, created⟩
  | createThread a user process stackBase stackSize teb =>
    obtain ⟨⟨new, -⟩, ⟨⟩⟩ := Option.ite_none_right_eq_some.mp hs
    have new' : ¬ p.created a = true := fun known => by
      rw [← created, new] at known
      cases known
    have unknown : ¬ Member p.ready p.asleep p.running a := fun m => new' (member a m)
    have off : ∀ pri, a ∉ p.ready pri := fun pri m => unknown (.inr (.inr ⟨pri, m⟩))
    obtain ⟨next, prev⟩ := agrees.tidy.lined.free a off
    have written := agrees.write
      (k := newThread user (process.getD sys.systemProcess) stackBase stackSize teb) off next.symm
      prev.symm (.inl fun m => unknown (.inr (.inl m))) (.inl fun e => unknown (.inl e))
    refine ⟨_, if_neg new', ?_, ?_⟩
    · exact ⟨written.tidy, written.state, written.level, written.wakeAt, written.quantum, written.now⟩
    · show Function.update sys.created a true = Function.update p.created a true
      rw [created]

/-- **One step.** -/
theorem Refines.step (h : Refines sys p) {op : Op T P} (permitted : p.Permits op)
    (hs : Sched.step sys op = some sys') : ∃ p', p.step op = some p' ∧ Refines sys' p' := by
  obtain ⟨p', stepped, agrees, created⟩ := h.agrees_step permitted hs
  have lists : InLists sys p.ready p.asleep p.running :=
    ⟨h.agrees.tidy, fun t m => h.created ▸ h.member t m⟩
  obtain ⟨ready, asleep, c, ⟨tidy, known⟩, -⟩ := lists.step (h.orderly permitted) hs
  obtain ⟨rfl, rfl, rfl⟩ := tidy.unique agrees.tidy
  exact ⟨p', stepped, agrees, created, fun t m => created ▸ known t m⟩

/-- **A run.** -/
theorem Refines.run (h : Refines sys p) {ops : List (Op T P)}
    (permitted : Along Plan.step Plan.Permits p ops) (ran : Base.Machine.run Sched.step sys ops = some sys') :
    ∃ p', Base.Machine.run Plan.step p ops = some p' ∧ Refines sys' p' :=
  run_simulates (fun _ _ _ _ refines permitted hs => refines.step permitted hs) h permitted ran

end MicroNT.Sched
