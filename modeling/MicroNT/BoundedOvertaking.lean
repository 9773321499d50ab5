import Mathlib.Order.Fin.Basic
import MicroNT.Base.Outputs
import MicroNT.SchedulePlan

/-! # Threads are not overtaken for ever

A queued thread waits for the higher queues and for those that were in its own queue before it.
Every time the scheduler takes a thread of its own level it comes one place nearer to the
processor, whatever the rest of the kernel does in between. -/

set_option linter.unusedSectionVars false

namespace MicroNT.Sched

open Base.Machine

variable {T P : Type} [DecidableEq T] {s : State T P} {ready : Queues T} {a t : T} {pri q : Fin 3}
  {l : List T}

/-! ## Places in a queue -/

/-- How many threads are in front of this one. -/
def Queues.place (ready : Queues T) (pri : Fin 3) (t : T) : Nat := (ready pri).idxOf t

theorem idxOf_erase_le (h : t ≠ a) : (l.erase a).idxOf t ≤ l.idxOf t := by
  induction l with
  | nil => exact le_rfl
  | cons b l ih =>
    by_cases e : b = a
    · rw [e, List.erase_cons_head, List.idxOf_cons_ne l h.symm]
      exact Nat.le_succ _
    · rw [List.erase_cons_tail (by simpa using e)]
      by_cases e' : b = t
      · rw [e', List.idxOf_cons_self]
        exact Nat.zero_le _
      · rw [List.idxOf_cons_ne _ e', List.idxOf_cons_ne _ e']
        exact Nat.succ_le_succ ih

/-- Who comes later goes to the end. -/
theorem Queues.place_push (level : T → Fin 3) (a : T) (h : t ∈ ready pri) :
    t ∈ ready.push level a pri ∧ (ready.push level a).place pri t = ready.place pri t := by
  refine ⟨Queues.mem_push.mpr (.inl h), ?_⟩
  unfold Queues.place Queues.push
  by_cases e : pri = level a
  · rw [e] at h ⊢
    rw [Function.update_self, List.idxOf_append_of_mem h]
  · rw [Function.update_of_ne e]

theorem Queues.place_pushAll {level : T → Fin 3} (h : t ∈ ready pri) :
    t ∈ l.foldl (Queues.push level) ready pri ∧
      (l.foldl (Queues.push level) ready).place pri t = ready.place pri t := by
  induction l generalizing ready with
  | nil => exact ⟨h, rfl⟩
  | cons b l ih =>
    obtain ⟨m, same⟩ := Queues.place_push level b h
    obtain ⟨m', same'⟩ := ih m
    exact ⟨m', same'.trans same⟩

theorem Queues.place_drop (h : t ∈ ready pri) (other : t ≠ a) :
    t ∈ ready.drop a pri ∧ (ready.drop a).place pri t ≤ ready.place pri t :=
  ⟨(List.mem_erase_of_ne other).mpr h, idxOf_erase_le other⟩

/-- The thread at the top of the lists. -/
theorem Queues.top_some (h : ready.top = some a) :
    ∃ q rest, ready q = a :: rest ∧ ∀ r, q < r → ready r = [] := by
  rw [Queues.top_eq] at h
  cases h2 : ready 2 with
  | cons b l =>
    rw [h2] at h
    obtain rfl : b = a := Option.some.inj h
    exact ⟨2, l, h2, fun r hr => absurd hr (by omega)⟩
  | nil =>
    rw [h2] at h
    cases h1 : ready 1 with
    | cons b l =>
      rw [h1] at h
      obtain rfl : b = a := Option.some.inj h
      refine ⟨1, l, h1, fun r hr => ?_⟩
      obtain rfl : r = 2 := by omega
      exact h2
    | nil =>
      rw [h1] at h
      cases h0 : ready 0 with
      | cons b l =>
        rw [h0] at h
        obtain rfl : b = a := Option.some.inj h
        refine ⟨0, l, h0, fun r hr => ?_⟩
        obtain rfl | rfl : r = 1 ∨ r = 2 := by omega
        · exact h1
        · exact h2
      | nil =>
        rw [h0] at h
        cases h

theorem Queues.top_none (h : ready.top = none) (pri : Fin 3) : ready pri = [] := by
  rw [Queues.top_eq, Option.or_eq_none_iff, Option.or_eq_none_iff] at h
  obtain ⟨⟨h2, h1⟩, h0⟩ := h
  obtain rfl | rfl | rfl : pri = 0 ∨ pri = 1 ∨ pri = 2 := by omega
  · exact List.head?_eq_none_iff.mp h0
  · exact List.head?_eq_none_iff.mp h1
  · exact List.head?_eq_none_iff.mp h2

/-! ## Picks -/

/-- The thread that `ScheduleInternal` takes off the queues, with its level. -/
def pick (s : State T P) : List (T × Fin 3) :=
  if s.active = false ∨ s.current = none then []
  else
    match (queuePop s).2 with
    | some (.thread n) => [(n, s.level n)]
    | _ => []

/-- The same in a plan. -/
def Plan.pick (p : Plan T) : List (T × Fin 3) :=
  (p.ready.top.map fun n => (n, p.level n)).toList

variable {p : Plan T}

theorem Agrees.pick (h : Agrees s p) : pick s = p.pick := by
  unfold Sched.pick Plan.pick
  rw [if_neg (by
    rintro (inactive | none)
    · rw [h.tidy.active] at inactive
      cases inactive
    · rw [h.tidy.current] at none
      cases none)]
  cases top : p.ready.top with
  | none =>
    rw [h.tidy.lined.rings.pop_none_iff.mpr (Queues.top_none top)]
    rfl
  | some n =>
    obtain ⟨q, rest, first, above⟩ := Queues.top_some top
    rw [(h.tidy.lined.rings.pops first above).1, h.level]
    rfl

/-- **A dispatch**: it takes another thread, not of a lower level, and one of the same level only
if it was in front. -/
theorem Plan.place_dispatch (level : ∀ q, ∀ a ∈ p.ready q, p.level a = q) (h : t ∈ p.ready pri)
    (waits : ∀ e ∈ p.pick, e.1 ≠ t) :
    t ∈ p.dispatch.ready pri ∧
      p.dispatch.ready.place pri t + p.pick.countP (fun e => e.2 = pri) ≤ p.ready.place pri t ∧
      ∀ e ∈ p.pick, pri ≤ e.2 := by
  unfold Plan.pick at waits ⊢
  cases top : p.ready.top with
  | none =>
    have same : p.dispatch = p := by
      unfold Plan.dispatch
      rw [top]
    rw [same]
    exact ⟨h, le_rfl, fun e m => (List.not_mem_nil m).elim⟩
  | some n =>
    obtain ⟨q, rest, first, above⟩ := Queues.top_some top
    have other : n ≠ t := by
      rw [top] at waits
      exact waits _ List.mem_cons_self
    have high : pri ≤ q := by
      refine Fin.not_lt.mp fun lt => ?_
      rw [above pri lt] at h
      cases h
    have lv : p.level n = q := level q n (first ▸ List.mem_cons_self)
    have dropped : t ∈ p.ready.drop n pri ∧
        (p.ready.drop n).place pri t + [(n, p.level n)].countP (fun e => e.2 = pri) ≤
          p.ready.place pri t := by
      obtain ⟨m, le⟩ := Queues.place_drop h other.symm
      refine ⟨m, ?_⟩
      rw [List.countP_singleton, lv]
      by_cases e : q = pri
      · subst e
        unfold Queues.place Queues.drop
        rw [first, List.erase_cons_head, List.idxOf_cons_ne rest other]
        simp
      · simpa [e] using le
    -- the thread that gives way goes behind all others
    have kept : t ∈ p.dispatch.ready pri ∧
        p.dispatch.ready.place pri t = (p.ready.drop n).place pri t := by
      unfold Plan.dispatch
      rw [top]
      dsimp only
      split
      · exact Queues.place_push _ _ dropped.1
      · split
        · exact Queues.place_push _ _ dropped.1
        · exact ⟨dropped.1, rfl⟩
    rw [kept.2]
    refine ⟨kept.1, dropped.2, fun e m => ?_⟩
    obtain rfl : e = (n, p.level n) := List.mem_singleton.mp m
    exact high.trans lv.ge

/-- The sleepers go to the end. -/
theorem Plan.place_wakeDue (h : t ∈ p.ready pri) :
    t ∈ p.wakeDue.ready pri ∧ p.wakeDue.ready.place pri t = p.ready.place pri t :=
  Queues.place_pushAll h

/-! ## Every run -/

variable [DecidableEq P] {sys sys' : System T P}

/-- The threads that a block takes off the queues. -/
def picks (sys : System T P) : Op T P → List (T × Fin 3)
  | .schedule => pick sys.state
  | .timer n =>
    match wakeSleepers n { sys.state with pitTicks := sys.state.pitTicks + 1 } with
    | some s => if s.quantum = 1 then pick { s with quantum := 0 } else []
    | none => []
  | _ => []

theorem picks_timer {n : Nat} {u : State T P}
    (woke : wakeSleepers n { sys.state with pitTicks := sys.state.pitTicks + 1 } = some u) :
    picks sys (.timer n) = if u.quantum = 1 then pick { u with quantum := 0 } else [] := by
  show (match wakeSleepers n { sys.state with pitTicks := sys.state.pitTicks + 1 } with
    | some s => if s.quantum = 1 then pick { s with quantum := 0 } else []
    | none => []) = _
  rw [woke]

/-- A tick wakes the sleepers first. -/
theorem Tidy.woke {asleep : List T} {c : T} {u : State T P} (h : Tidy s ready asleep c) {n : Nat}
    (ticked : Sched.timer n s = some u) :
    ∃ v, Sched.wakeSleepers n { s with pitTicks := s.pitTicks + 1 } = some v := by
  unfold Sched.timer Sched.tick at ticked
  rw [if_neg (by
    rintro (inactive | none)
    · rw [h.active] at inactive
      cases inactive
    · rw [h.current] at none
      cases none)] at ticked
  obtain ⟨v, woke, -⟩ := Option.map_eq_some_iff.mp ticked
  exact ⟨v, woke⟩

theorem Refines.permits (h : Refines sys p) {op : Op T P} (orderly : Orderly sys op) :
    p.Permits op := by
  have tidy := h.agrees.tidy
  cases op with
  | makeReady a => exact tidy.inNoList orderly
  | sleep ms => exact fun some => tidy.inNoList (orderly some p.running tidy.current)
  | setPriority a pri => exact fun pri => tidy.lined.unqueued orderly pri
  | remove a => exact fun e => orderly (e ▸ tidy.current)
  | _ => trivial

/-- **One step**: a thread that is not taken keeps its place, or comes nearer by one for each
thread of its level that is. -/
theorem Refines.place_step (h : Refines sys p) (queued : t ∈ p.ready pri) {op : Op T P}
    (orderly : Orderly sys op) (stays : op ≠ .remove t) (waits : ∀ e ∈ picks sys op, e.1 ≠ t)
    (hs : Sched.step sys op = some sys') :
    (∃ p', Refines sys' p' ∧ t ∈ p'.ready pri ∧
      p'.ready.place pri t + (picks sys op).countP (fun e => e.2 = pri) ≤ p.ready.place pri t) ∧
    ∀ e ∈ picks sys op, pri ≤ e.2 := by
  have permitted := h.permits orderly
  obtain ⟨p', stepped, refines⟩ := h.step permitted hs
  have lined := h.agrees.tidy.lined
  have levels : ∀ q, ∀ a ∈ p.ready q, p.level a = q := fun q a m =>
    h.agrees.level ▸ lined.level q a m
  -- a block that takes no thread off the queues
  have quiet : picks sys op = [] → (t ∈ p'.ready pri ∧ p'.ready.place pri t ≤ p.ready.place pri t) →
      (∃ p', Refines sys' p' ∧ t ∈ p'.ready pri ∧
        p'.ready.place pri t + (picks sys op).countP (fun e => e.2 = pri) ≤
          p.ready.place pri t) ∧ ∀ e ∈ picks sys op, pri ≤ e.2 := by
    rintro none ⟨m, le⟩
    rw [none]
    exact ⟨⟨p', refines, m, le⟩, fun e m => (List.not_mem_nil m).elim⟩
  cases op with
  | schedule =>
    obtain rfl := Option.some.inj stepped
    have pick : picks sys .schedule = p.pick := h.agrees.pick
    rw [pick] at waits ⊢
    obtain ⟨m, le, high⟩ := Plan.place_dispatch levels queued waits
    exact ⟨⟨_, refines, m, le⟩, high⟩
  | timer n =>
    obtain ⟨s, ticked, rfl⟩ := Option.map_eq_some_iff.mp hs
    obtain rfl := Option.some.inj stepped
    obtain ⟨u, woke⟩ := h.agrees.tidy.woke ticked
    have awake := h.agrees.later.wakeDue woke
    obtain ⟨queued', same⟩ := Plan.place_wakeDue (p := { p with now := p.now + 1 }) queued
    by_cases last : u.quantum = 1
    · have spent := awake.setQuantum 0
      have pick : picks sys (.timer n) =
          Plan.pick { Plan.wakeDue { p with now := p.now + 1 } with quantum := 0 } := by
        rw [← spent.pick, picks_timer woke, if_pos last]
      have ticks : p.tick =
          Plan.dispatch { Plan.wakeDue { p with now := p.now + 1 } with quantum := 0 } := by
        have one : p.quantum = 1 := awake.quantum.symm.trans last
        simp [Plan.tick, Plan.wakeDue, one]
      rw [ticks] at refines
      rw [pick] at waits ⊢
      have levels' : ∀ q, ∀ a ∈ (Plan.wakeDue { p with now := p.now + 1 }).ready q, p.level a = q :=
        fun q a m => awake.level ▸ awake.tidy.lined.level q a m
      obtain ⟨m, le, high⟩ := Plan.place_dispatch
        (p := { Plan.wakeDue { p with now := p.now + 1 } with quantum := 0 }) levels' queued' waits
      exact ⟨⟨_, refines, m, le.trans same.le⟩, high⟩
    · refine quiet ?_ ?_
      · rw [picks_timer woke, if_neg last]
      · have more : p.quantum ≠ 1 := fun one => last (awake.quantum.trans one)
        have ready : p.tick.ready = (Plan.wakeDue { p with now := p.now + 1 }).ready := by
          unfold Plan.tick
          dsimp only
          split
          · rw [if_neg]
            exact fun spent => more (by
              have : p.quantum - 1 = 0 := spent
              bv_omega)
          · rfl
        rw [ready]
        exact ⟨queued', same.le⟩
  | makeReady a =>
    obtain ⟨-, ⟨⟩⟩ := Option.ite_none_right_eq_some.mp stepped
    obtain ⟨m, same⟩ := Queues.place_push p.level a queued
    exact quiet rfl ⟨m, same.le⟩
  | remove a =>
    obtain ⟨-, ⟨⟩⟩ := Option.ite_none_right_eq_some.mp stepped
    exact quiet rfl (Queues.place_drop queued fun e => stays (e ▸ rfl))
  | sleep ms =>
    obtain rfl := Option.some.inj stepped
    refine quiet rfl ?_
    unfold Plan.sleep
    split
    · exact ⟨queued, le_rfl⟩
    · exact ⟨queued, le_rfl⟩
  | block =>
    obtain rfl := Option.some.inj stepped
    exact quiet rfl ⟨queued, le_rfl⟩
  | createProcess q cr3 =>
    obtain rfl := Option.some.inj stepped
    exact quiet rfl ⟨queued, le_rfl⟩
  | setPriority a pri =>
    obtain ⟨-, ⟨⟩⟩ := Option.ite_none_right_eq_some.mp stepped
    exact quiet rfl ⟨queued, le_rfl⟩
  | terminate a =>
    obtain ⟨-, ⟨⟩⟩ := Option.ite_none_right_eq_some.mp stepped
    exact quiet rfl ⟨queued, le_rfl⟩
  | createThread a user process stackBase stackSize teb =>
    obtain ⟨-, ⟨⟩⟩ := Option.ite_none_left_eq_some.mp stepped
    exact quiet rfl ⟨queued, le_rfl⟩

/-- **No thread is overtaken for ever**: while a queued thread waits for the processor, no thread
of a lower level gets it, and each thread of its own level that does brings it a place nearer. A
thread behind `k` others is therefore taken at the latest when `k` threads of its level have
been. -/
theorem overtaken_at_most (h : Refines sys p) (queued : t ∈ p.ready pri) {ops : List (Op T P)}
    (orderly : Along Sched.step Orderly sys ops) (ran : run Sched.step sys ops = some sys')
    (stays : ∀ op ∈ ops, op ≠ .remove t)
    (waits : ∀ e ∈ outputs Sched.step picks sys ops, e.1 ≠ t) :
    (∃ p', Refines sys' p' ∧ t ∈ p'.ready pri ∧
      p'.ready.place pri t +
        (outputs Sched.step picks sys ops).countP (fun e => e.2 = pri) ≤ p.ready.place pri t) ∧
    ∀ e ∈ outputs Sched.step picks sys ops, pri ≤ e.2 := by
  have guarded := (orderly.and (along_of_forall_mem stays sys)).and (along_outputs waits)
  let Has (n : Nat) (sys : System T P) : Prop :=
    ∃ p, Refines sys p ∧ t ∈ p.ready pri ∧ p.ready.place pri t = n
  refine ⟨?_, ?_⟩
  · obtain ⟨m, ⟨p', refines, queued', rfl⟩, paid⟩ :=
      outputs_paid (fun sys n => Has n sys) (fun e : T × Fin 3 => e.2 = pri)
        (fun sys n op sys' ⟨p, h, queued, place⟩ ⟨⟨orderly, stays⟩, waits⟩ hs => by
          obtain ⟨⟨p', refines, queued', paid⟩, -⟩ :=
            h.place_step queued orderly stays (waits sys' hs) hs
          exact ⟨_, ⟨p', refines, queued', rfl⟩, paid.trans place.le⟩)
        ⟨p, h, queued, rfl⟩ guarded ran
    exact ⟨p', refines, queued', paid⟩
  · refine outputs_forall (I := fun sys => ∃ n, Has n sys) ?_ ⟨_, p, h, queued, rfl⟩ guarded
    rintro sys op sys' ⟨n, p, h, queued, -⟩ ⟨⟨orderly, stays⟩, waits⟩ hs
    obtain ⟨⟨p', refines, queued', -⟩, high⟩ :=
      h.place_step queued orderly stays (waits sys' hs) hs
    exact ⟨⟨_, p', refines, queued', rfl⟩, high⟩

/-- A machine after `Init`, with room for any number of threads. -/
def crowd : System Nat Unit where
  state :=
    { mem := fun p =>
        match p with
        | .sentinel pri =>
          { KThread.zero with next := some (.sentinel pri), prev := some (.sentinel pri) }
        | .thread _ => KThread.zero
      cr3 := fun _ => 0x1000
      current := none
      active := false
      quantum := 0
      sleepHead := none
      pitTicks := 0
      cpu := ⟨0x1000, 0, 0, 0⟩ }
  main := 0
  systemProcess := ()
  created t := t == 0
  user _ := false
  known _ := true

theorem crowd_initial : Initial crowd.state crowd.main where
  sentinel _ := ⟨rfl, rfl⟩
  thread _ := ⟨rfl, rfl, rfl⟩
  sleepHead := rfl
  active := rfl
  current := rfl

/-- Two threads of the main thread's level queue up. -/
def arrive : List (Op Nat Unit) :=
  [.createThread 1 true none 0x8000 0x4000 0x7FFFE100000, .setPriority 1 0, .makeReady 1,
    .createThread 2 true none 0xC000 0x4000 0x7FFFE102000, .setPriority 2 0, .makeReady 2]

/-- The second one is the next when the first one has been taken. -/
theorem overtaken_at_most_second :
    ∃ sys sys' p, run Sched.step crowd.begin arrive = some sys ∧
      run Sched.step sys [.schedule] = some sys' ∧ Refines sys' p ∧ 2 ∈ p.ready 0 ∧
      p.ready.place 0 2 = 0 := by
  have only : ∀ {level : Nat → Fin 3} {q : Fin 3},
      2 ∉ Queues.push level (fun _ => ([] : List Nat)) 1 q := fun m => by
    obtain m | ⟨e, -⟩ := Queues.mem_push.mp m
    · cases m
    · cases e
  have permitted : Along Plan.step Plan.Permits crowd.firstPlan arrive := by
    refine ⟨trivial, ?_⟩
    rintro _ ⟨⟩
    refine ⟨fun _ => List.not_mem_nil, ?_⟩
    rintro _ ⟨⟩
    refine ⟨⟨fun _ => List.not_mem_nil, List.not_mem_nil⟩, ?_⟩
    rintro _ ⟨⟩
    refine ⟨trivial, ?_⟩
    rintro _ ⟨⟩
    refine ⟨fun _ => only, ?_⟩
    rintro _ ⟨⟩
    exact ⟨⟨fun _ => only, List.not_mem_nil⟩, fun _ _ => trivial⟩
  obtain ⟨p, ran, refines⟩ := (Refines.begin crowd_initial rfl).run permitted rfl
  cases ran
  obtain ⟨⟨p', refines', queued', paid⟩, -⟩ :=
    @overtaken_at_most Nat Unit _ 2 0 _ _ _ _ refines
      (List.mem_cons_of_mem 1 List.mem_cons_self) [.schedule] ⟨trivial, fun _ _ => trivial⟩ rfl
      (by simp) fun e m => by
        obtain rfl := List.mem_singleton.mp (show e ∈ [(1, 0)] from m)
        decide
  exact ⟨_, _, p', rfl, rfl, refines', queued',
    Nat.le_zero.mp (Nat.le_of_add_le_add_right paid)⟩

end MicroNT.Sched
