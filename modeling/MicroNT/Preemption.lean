import MicroNT.MachineContext

/-! # The quantum (`Tick`, `ScheduleInternal`)

A tick that uses up the quantum calls the scheduler, which starts a new one unless it finds
no ready thread. It then returns with the quantum at zero, and `Tick` never counts again
until somebody gives the processor up. -/

set_option linter.unusedSectionVars false

namespace MicroNT.Sched

open Base.Machine

variable {T P : Type} [DecidableEq T]

/-! ## What is promised -/

/-- While the scheduler is active the quantum is not used up. -/
def Armed (sys : System T P) : Prop :=
  sys.state.active = true → 1 ≤ sys.state.quantum ∧ sys.state.quantum ≤ QUANTUM_TICKS

/-- `Start`, on a machine that is set up. -/
def System.begin (sys : System T P) : System T P := sys.with (start sys.state sys.main)

/-- A tick that uses up the quantum finds a ready thread, once it has woken the sleepers. -/
def FindsReady (sys : System T P) : Op T P → Prop
  | .timer n => sys.state.quantum = 1 → ∀ u,
    wakeSleepers n { sys.state with pitTicks := sys.state.pitTicks + 1 } = some u →
      (queuePop u).2 ≠ none
  | _ => True

/-! ## Code that leaves the quantum alone -/

/-- The clock's part of the state: what the queues and the sleep list have no part in. -/
structure Untimed (s t : State T P) : Prop where
  active : t.active = s.active
  current : t.current = s.current
  quantum : t.quantum = s.quantum

variable {s t u : State T P} {p q : Ptr T} {k : KThread T P}

theorem Untimed.refl (s : State T P) : Untimed s s := ⟨rfl, rfl, rfl⟩

theorem Untimed.write (h : Untimed s t) : Untimed s (t.write p k) := ⟨h.active, h.current, h.quantum⟩

theorem Untimed.setNext (h : Untimed s t) (a n : Option (Ptr T)) : Untimed s (t.setNext a n) := by
  cases a with
  | none => exact h
  | some a => exact h.write

theorem Untimed.setPrev (h : Untimed s t) (a n : Option (Ptr T)) : Untimed s (t.setPrev a n) := by
  cases a with
  | none => exact h
  | some a => exact h.write

theorem Untimed.queuePushBack (h : Untimed s t) (a : Ptr T) : Untimed s (queuePushBack t a) := by
  unfold Sched.queuePushBack
  exact (((h.setNext _ _).setPrev _ _).setNext _ _).setPrev _ _

theorem Untimed.queueRemove (h : Untimed s t) (a : Ptr T) : Untimed s (queueRemove t a) := by
  unfold Sched.queueRemove
  split
  · exact h
  · exact (((h.setNext _ _).setPrev _ _).setNext _ _).setPrev _ _

theorem Untimed.queuePop (h : Untimed s t) : Untimed s (queuePop t).1 := by
  unfold Sched.queuePop
  split
  · exact h
  · split
    · exact h
    · exact h.queueRemove _

theorem Untimed.wakeFrom (h : Untimed s t) {n : Nat} {pp : Option (Ptr T)}
    (woke : wakeFrom n t pp = some u) : Untimed s u := by
  induction n generalizing t pp with
  | zero => cases woke
  | succ n ih =>
    unfold Sched.wakeFrom at woke
    split at woke
    · cases woke
      exact h
    case h_2 a _ =>
      split at woke
      · refine ih ?_ woke
        have slot : Untimed s (t.setSlot pp (t.mem a).sleepNext) := by
          cases pp with
          | none => exact ⟨h.active, h.current, h.quantum⟩
          | some p => exact h.write
        exact slot.write.queuePushBack a
      · exact ih h woke

/-- Whether `QueuePop` finds a thread does not depend on the clock. -/
theorem queuePop_found (s : State T P) (n : u32) :
    (queuePop { s with quantum := n }).2 = (queuePop s).2 := by
  unfold Sched.queuePop
  dsimp only
  generalize ([2, 1, 0] : List (Fin 3)).find? _ = pri
  cases pri with
  | none => rfl
  | some pri =>
    dsimp only
    cases (s.mem (.sentinel pri)).next <;> rfl

/-! ## The scheduler -/

/-- **`ScheduleInternal`** starts a new quantum if it finds a ready thread, and otherwise
leaves the clock alone. -/
theorem scheduleInternal_quantum (active : s.active = true) (some : s.current ≠ none) :
    (scheduleInternal s).active = true ∧ (scheduleInternal s).current ≠ none ∧
      (scheduleInternal s).quantum =
        if (queuePop s).2 = none then s.quantum else QUANTUM_TICKS := by
  have popped := (Untimed.refl s).queuePop
  unfold scheduleInternal
  rw [if_neg (by rw [active]; exact Bool.noConfusion)]
  cases current : s.current with
  | none => exact absurd current some
  | some prev =>
    cases h : queuePop s with
    | mk u next =>
      rw [h] at popped
      cases next with
      | none => exact ⟨popped.active.trans active, by rw [popped.current]; exact some, popped.quantum⟩
      | some next =>
        dsimp only
        rw [if_neg (Option.some_ne_none next)]
        split
        · have pushed := popped.queuePushBack next
          exact ⟨pushed.active.trans active, by rw [pushed.current]; exact some, rfl⟩
        · refine ⟨?_, Option.some_ne_none next, rfl⟩
          unfold switchTo
          extract_lets t1 t2 running t3
          have first : Untimed s t1 := by
            change Untimed s (if _ then _ else _)
            split
            · exact popped.write.queuePushBack prev
            · exact popped
          exact first.active.trans active

/-! ## The invariant -/

/-- What every block keeps while the quantum is never used up. -/
structure Ticking (s : State T P) : Prop where
  active : s.active = true
  current : s.current ≠ none
  low : 1 ≤ s.quantum
  high : s.quantum ≤ QUANTUM_TICKS

theorem Ticking.untimed (h : Ticking s) (same : Untimed s t) : Ticking t where
  active := same.active.trans h.active
  current := by rw [same.current]; exact h.current
  low := by rw [same.quantum]; exact h.low
  high := by rw [same.quantum]; exact h.high

theorem Ticking.scheduleInternal (h : Ticking s) : Ticking (scheduleInternal s) := by
  obtain ⟨active, current, quantum⟩ := scheduleInternal_quantum h.active h.current
  refine ⟨active, current, ?_, ?_⟩
  all_goals
    rw [quantum]
    split
  · exact h.low
  · show (1 : u32) ≤ 5#32
    decide
  · exact h.high
  · exact BitVec.le_refl _

/-- **The timer** uses the quantum up exactly if it finds no ready thread at the last
tick. -/
theorem Ticking.timer (h : Ticking s) {n : Nat} (ticked : timer n s = some t) :
    t.active = true ∧ t.current ≠ none ∧ t.quantum ≤ QUANTUM_TICKS ∧
      (1 ≤ t.quantum ↔ (s.quantum = 1 → ∀ u,
        wakeSleepers n { s with pitTicks := s.pitTicks + 1 } = some u → (queuePop u).2 ≠ none)) := by
  unfold Sched.timer tick at ticked
  rw [if_neg (by
    rintro (inactive | none)
    · rw [h.active] at inactive
      cases inactive
    · exact h.current none)] at ticked
  obtain ⟨u, woke, rfl⟩ := Option.map_eq_some_iff.mp ticked
  have awake : Ticking u :=
    h.untimed (Untimed.wakeFrom (s := s) (t := { s with pitTicks := s.pitTicks + 1 })
      ⟨rfl, rfl, rfl⟩ woke)
  have same : u.quantum = s.quantum :=
    (Untimed.wakeFrom (s := s) (t := { s with pitTicks := s.pitTicks + 1 }) ⟨rfl, rfl, rfl⟩
      woke).quantum
  have low := awake.low
  have high := awake.high
  dsimp only
  rw [if_pos (show u.quantum > 0 by bv_omega)]
  split
  case isTrue last =>
    have one : u.quantum = 1 := by bv_omega
    obtain ⟨active, current, quantum⟩ := scheduleInternal_quantum
      (s := { u with quantum := u.quantum - 1 }) awake.active awake.current
    rw [queuePop_found] at quantum
    refine ⟨active, current, ?_, ?_⟩
    · rw [quantum]
      split
      · rw [last]
        show (0 : u32) ≤ 5#32
        decide
      · exact BitVec.le_refl _
    · rw [quantum]
      constructor
      · intro low _ v wokeAgain
        obtain rfl : u = v := Option.some.inj (woke.symm.trans wokeAgain)
        intro none
        rw [if_pos none, last] at low
        exact absurd low (show ¬ (1 : u32) ≤ 0 by decide)
      · intro found
        rw [if_neg (found (same.symm.trans one) u woke)]
        show (1 : u32) ≤ 5#32
        decide
  case isFalse more =>
    refine ⟨awake.active, awake.current, by bv_omega, iff_of_true (by bv_omega) fun one => ?_⟩
    rw [← same] at one
    rw [one] at more
    exact absurd rfl more

/-! ## Every run -/

variable [DecidableEq P] {sys sys' : System T P}

/-- **One block**, unless it is a tick that uses the quantum up. -/
theorem Ticking.step (h : Ticking sys.state) {op : Op T P} (found : FindsReady sys op)
    (hs : Sched.step sys op = some sys') : Ticking sys'.state := by
  cases op with
  | timer n =>
    obtain ⟨t, ticked, rfl⟩ := Option.map_eq_some_iff.mp hs
    obtain ⟨active, current, high, low⟩ := h.timer ticked
    exact ⟨active, current, low.mpr found, high⟩
  | schedule =>
    cases hs
    exact h.scheduleInternal
  | block =>
    cases hs
    refine h.untimed ?_
    show Untimed _ (blockCurrentThread sys.state)
    unfold blockCurrentThread
    split
    · exact .refl _
    · exact (Untimed.refl _).write
  | makeReady t =>
    obtain ⟨-, ⟨⟩⟩ := Option.ite_none_right_eq_some.mp hs
    exact h.untimed ((Untimed.refl _).write.queuePushBack _)
  | sleep ms =>
    cases hs
    refine h.untimed ?_
    show Untimed _ (Sched.sleep sys.state ms)
    unfold Sched.sleep
    split
    · exact .refl _
    · split
      · exact .refl _
      · exact ⟨rfl, rfl, rfl⟩
  | remove t =>
    obtain ⟨-, ⟨⟩⟩ := Option.ite_none_right_eq_some.mp hs
    exact h.untimed ((Untimed.refl _).queueRemove _)
  | setPriority t pri =>
    obtain ⟨-, ⟨⟩⟩ := Option.ite_none_right_eq_some.mp hs
    exact h.untimed (Untimed.refl _).write
  | terminate t =>
    obtain ⟨-, ⟨⟩⟩ := Option.ite_none_right_eq_some.mp hs
    exact h.untimed (Untimed.refl _).write
  | createProcess p cr3 =>
    obtain ⟨-, ⟨⟩⟩ := Option.ite_none_right_eq_some.mp hs
    exact ⟨h.active, h.current, h.low, h.high⟩
  | createThread t user process stackBase stackSize teb =>
    obtain ⟨-, ⟨⟩⟩ := Option.ite_none_right_eq_some.mp hs
    exact h.untimed (Untimed.refl _).write

theorem Ticking.begin (sys : System T P) : Ticking sys.begin.state :=
  ⟨rfl, Option.some_ne_none _, by
    show (1 : u32) ≤ QUANTUM_TICKS
    decide, BitVec.le_refl _⟩

/-- **Preemption stays armed** in every state of a run after `Start` exactly if every tick
that uses up the quantum finds a ready thread. -/
theorem armed_iff (sys : System T P) (ops : List (Op T P)) :
    Always Sched.step Armed sys.begin ops ↔ Along Sched.step FindsReady sys.begin ops := by
  refine always_iff_along (I := fun sys => Ticking sys.state) (fun _ _ _ h found hs => h.step found hs)
    (fun _ h _ => ⟨h.low, h.high⟩) (fun sys op sys' h lost hs armed => lost ?_) (fun sys op refused => ?_)
    (Ticking.begin sys)
  · cases op with
    | timer n =>
      obtain ⟨t, ticked, rfl⟩ := Option.map_eq_some_iff.mp hs
      obtain ⟨active, -, -, low⟩ := h.timer ticked
      exact low.mp (armed active).1
    | _ => trivial
  · cases op with
    | timer n =>
      intro one u woke
      -- a tick whose sleepers are all woken ends
      have ended : timer n sys.state ≠ none := by
        unfold Sched.timer tick
        split
        · exact Option.some_ne_none _
        · rw [woke]
          exact Option.some_ne_none _
      exact absurd (Option.map_eq_none_iff.mp refused) ended
    | _ => trivial

/-- The main thread alone: its first quantum runs out, and none follows. -/
theorem five_ticks_unarmed :
    ¬ Always Sched.step Armed booted.begin (List.replicate 5 (.timer 1)) := by
  intro armed
  have spent := (((((armed.2 _ rfl).2 _ rfl).2 _ rfl).2 _ rfl).2 _ rfl).here
  exact absurd (spent rfl).1 (show ¬ (1 : u32) ≤ 0 by decide)

end MicroNT.Sched
