import Mathlib.Order.Fin.Basic
import MicroNT.OrderlyRuns

/-! # Priority order (`ScheduleInternal`, `NtSetInformationThread`)

`ScheduleInternal` takes the first thread of the highest queue before it puts the current
one back. A thread that can go on is therefore replaced by one of a lower priority whenever
no other thread of its own priority or above is queued. -/

set_option linter.unusedSectionVars false

namespace MicroNT.Sched

open Base.Machine
open MicroNT.Sync (ThreadState)

variable {T P : Type} [DecidableEq T] {s t u : State T P} {ready : Queues T} {asleep : List T}
  {a c : T}

/-! ## What is promised -/

/-- A thread in this state can go on. -/
def Runnable (x : ThreadState) : Prop := x = .running ∨ x = .ready

/-- If the thread that called `ScheduleInternal` could go on, no READY thread that is queued
has a higher priority than the one that runs now, and this one has no lower priority. -/
def InOrder (s t : State T P) : Prop :=
  ∀ prev next, s.current = some (.thread prev) → Runnable (s.mem (.thread prev)).state →
    t.current = some (.thread next) →
      (∀ a, ¬ t.Unqueued a → (t.mem (.thread a)).state = .ready → t.level a ≤ t.level next) ∧
        (next ≠ prev → t.level prev ≤ t.level next)

/-- If a thread is queued while the current one is RUNNING, one of at least its priority
is. -/
def TopFirst (s : State T P) : Prop :=
  ∀ prev, s.current = some (.thread prev) → (s.mem (.thread prev)).state = .running →
    ∀ pri, s.Waiting pri → ∃ q, s.Waiting q ∧ s.level prev ≤ q

section

variable [DecidableEq P]

/-- The states in which a block calls `ScheduleInternal`. -/
def Schedules (sys : System T P) (u : State T P) : Op T P → Prop
  | .schedule => u = sys.state
  | .timer n =>
    sys.state.active = true ∧ sys.state.current ≠ none ∧
      ∃ v, wakeSleepers n { sys.state with pitTicks := sys.state.pitTicks + 1 } = some v ∧
        v.quantum = 1 ∧ u = { v with quantum := 0 }
  | _ => False

/-- Every call of `ScheduleInternal` keeps the order of the priorities. -/
def KeepsOrder (sys : System T P) (op : Op T P) : Prop :=
  ∀ u, Schedules sys u op → InOrder u (scheduleInternal u)

/-- Every call of `ScheduleInternal` finds a thread of at least the current one's priority,
if it finds any. -/
def FindsTop (sys : System T P) (op : Op T P) : Prop := ∀ u, Schedules sys u op → TopFirst u

/-- A block that calls `ScheduleInternal` ends with it. -/
theorem step_schedules {sys : System T P} {op : Op T P} (h : Schedules sys u op) :
    step sys op = some (sys.with (scheduleInternal u)) := by
  cases op with
  | schedule => rw [h]; rfl
  | timer n =>
    obtain ⟨active, current, v, woke, last, rfl⟩ := h
    show (timer n sys.state).map sys.with = _
    unfold timer tick
    rw [if_neg (by
      rintro (inactive | none)
      · rw [active] at inactive
        cases inactive
      · exact current none), woke]
    simp [last]
  | _ => cases h

end

/-! ## One call -/

/-- **`ScheduleInternal` keeps the order exactly if it finds a thread of at least the current
one's priority, or none.** -/
theorem Tidy.inOrder_iff (h : Tidy s ready asleep c) :
    InOrder s (Sched.scheduleInternal s) ↔ TopFirst s := by
  have below : ∀ {pri q : Fin 3} {a : T}, (∀ q, pri < q → ready q = []) → a ∈ ready q → q ≤ pri := by
    intro pri q a above m
    refine Fin.not_lt.mp fun higher => ?_
    rw [above q higher] at m
    cases m
  have only : ∀ {a : T}, s.current = some (.thread a) → a = c := fun current =>
    Ptr.thread.inj (Option.some.inj (current.symm.trans h.current))
  cases h.lined.scheduleInternal h.active h.current fun ran => (h.running ran).1 with
  | idle empty same =>
    rw [same]
    refine iff_of_true ?_ ?_
    · intro prev next current _ current'
      refine ⟨fun a queued => ?_, fun other => ?_⟩
      · obtain ⟨pri, m⟩ := h.lined.rings.queued_iff.mp queued
        rw [empty pri] at m
        cases m
      · exact absurd ((only current').trans (only current).symm) other
    · intro _ _ _ pri waiting
      exact absurd (empty pri) (h.lined.rings.waiting_iff.mp waiting)
  | rotated pri rest first above lined current state sleep =>
    have queued : c ∈ ready pri := by
      rw [first]
      exact List.mem_cons_self
    have top : s.level c = pri := h.lined.level pri c queued
    refine iff_of_true ?_ ?_
    · intro prev next before _ after
      obtain rfl := only before
      obtain rfl : prev = next := Ptr.thread.inj (Option.some.inj (current.symm.trans after))
      refine ⟨fun a waits _ => ?_, fun other => absurd rfl other⟩
      obtain ⟨q, m⟩ := lined.rings.queued_iff.mp waits
      rw [lined.level q a m, sleep.level, top]
      obtain m | ⟨-, e⟩ := Queues.mem_push.mp m
      · exact below above (h.lined.mem_drop.mp m).1
      · exact (e.trans top).le
    · intro prev before ran
      obtain rfl := only before
      exact absurd queued ((h.running ran).1 pri)
  | switched pri n rest other first above lined current state sleep =>
    have queued : n ∈ ready pri := by
      rw [first]
      exact List.mem_cons_self
    have top : s.level n = pri := h.lined.level pri n queued
    have some : s.Waiting pri := h.lined.rings.waiting_iff.mpr (List.ne_nil_of_mem queued)
    constructor
    · intro order prev before ran q _
      obtain rfl := only before
      have le := (order prev n before (.inl ran) current).2 other
      rw [sleep.level, sleep.level, top] at le
      exact ⟨pri, some, le⟩
    · intro found prev next before runnable after
      obtain rfl := only before
      obtain rfl : n = next := Ptr.thread.inj (Option.some.inj (current.symm.trans after))
      -- the previous thread is RUNNING, or it is queued itself
      have le : s.level prev ≤ pri := by
        obtain ran | waits := runnable
        · obtain ⟨q, waiting, le⟩ := found prev before ran pri some
          obtain ⟨a, m⟩ := List.exists_mem_of_ne_nil _ (h.lined.rings.waiting_iff.mp waiting)
          exact le.trans (below above m)
        · obtain ⟨q, m⟩ := h.runnable waits
          rw [h.lined.level q prev m]
          exact below above m
      refine ⟨fun a waits _ => ?_, fun _ => ?_⟩
      · obtain ⟨q, m⟩ := lined.rings.queued_iff.mp waits
        rw [lined.level q a m, sleep.level, top]
        split at m
        · obtain m | ⟨-, e⟩ := Queues.mem_push.mp m
          · exact below above (h.lined.mem_drop.mp m).1
          · exact e.le.trans le
        · exact below above (h.lined.mem_drop.mp m).1
      · rw [sleep.level, sleep.level, top]
        exact le

/-! ## Every run -/

variable [DecidableEq P] {sys : System T P}

/-- A tick wakes the sleepers before it calls `ScheduleInternal`. -/
theorem Listed.schedules (h : Listed sys) {op : Op T P} (calls : Schedules sys u op) :
    ∃ ready asleep c, Tidy u ready asleep c := by
  obtain ⟨ready, asleep, c, tidy, -⟩ := h
  cases op with
  | schedule => exact ⟨ready, asleep, c, calls ▸ tidy⟩
  | timer n =>
    obtain ⟨-, -, v, woke, -, rfl⟩ := calls
    have ticked := tidy.congr (t := { sys.state with pitTicks := sys.state.pitTicks + 1 })
      rfl rfl rfl rfl
    exact ⟨_, _, c, (ticked.wakeSleepers woke).congr rfl rfl rfl rfl⟩
  | _ => cases calls

/-- **Priority order** holds in every orderly run exactly if every call of `ScheduleInternal`
finds a queued thread of at least the current one's priority, or finds none, or the current
thread cannot go on. -/
theorem priorityOrder_iff (initial : Initial sys.state sys.main)
    (main : sys.created sys.main = true) (ops : List (Op T P))
    (orderly : Along Sched.step Orderly sys.begin ops) :
    Along Sched.step KeepsOrder sys.begin ops ↔ Along Sched.step FindsTop sys.begin ops := by
  refine along_iff_of (I := Listed) (fun _ _ _ lists orderly hs => lists.step orderly hs)
    (fun sys op lists => ?_) ⟨_, _, _, InLists.begin initial main⟩ orderly
  refine forall_congr' fun u => forall_congr' fun calls => ?_
  obtain ⟨_, _, _, tidy⟩ := lists.schedules calls
  exact tidy.inOrder_iff

/-- A thread of high priority is made ready, gets the processor, and calls `Schedule`. -/
def yieldHigh : List (Op Bool Unit) :=
  [.createThread true true none 0x8000 0x4000 0x7FFFE100000, .setPriority true 2,
    .makeReady true, .schedule, .schedule]

/-- The thread of high priority gives way to the main thread, whose priority is low. -/
theorem high_gives_way : ¬ Along Sched.step KeepsOrder halted.begin yieldHigh := by
  intro order
  have last := ((((order.2 _ rfl).2 _ rfl).2 _ rfl).2 _ rfl).1 _ rfl
  have low := (last true false rfl (.inl rfl) rfl).2 Bool.noConfusion
  exact absurd low (show ¬ (2 : Fin 3) ≤ 0 by decide)

/-- The same run is orderly. -/
theorem priorityOrder_iff_yieldHigh :
    Along Sched.step KeepsOrder halted.begin yieldHigh ↔
      Along Sched.step FindsTop halted.begin yieldHigh := by
  refine priorityOrder_iff halted_initial rfl _ ⟨trivial, ?_⟩
  rintro _ ⟨⟩
  refine ⟨rfl, ?_⟩
  rintro _ ⟨⟩
  exact ⟨inNoList_of_head rfl rfl, fun _ _ => ⟨trivial, fun _ _ => ⟨trivial, fun _ _ => trivial⟩⟩⟩

end MicroNT.Sched
