import MicroNT.Base.Machine
import MicroNT.ReadyQueues

/-! # The ready queues as three lists

What the ready queues are for: three lists of threads, of which the highest that is not empty
gives its oldest thread. `Init` makes three empty lists, and each of the queue functions does
to the lists what its name says, whatever the order of the calls. -/

set_option linter.unusedSectionVars false

namespace MicroNT.Sched

open Base.Deque
open Base.Machine (Along run run_simulates)

variable {T P : Type} [DecidableEq T] {s t : State T P} {ready : Queues T} {a : T} {pri : Fin 3}

/-! ## The empty queues -/

/-- `Init`: every sentinel is linked to itself. -/
def initQueues (s : State T P) : State T P :=
  { s with
    mem := fun p =>
      match p with
      | .sentinel pri =>
        { s.mem p with next := some (.sentinel pri), prev := some (.sentinel pri) }
      | .thread _ => s.mem p }

/-- The queues are empty, if no thread has a link. -/
theorem rings_initQueues (new : ∀ t, s.nexts (.thread t) = none ∧ s.prevs (.thread t) = none) :
    Rings (initQueues s) fun _ => [] := by
  refine ⟨fun pri => ?_, fun t pri pri' m => absurd m List.not_mem_nil, fun t _ => new t⟩
  exact ⟨⟨rfl, rfl⟩, List.nodup_singleton _⟩

/-! ## Lists -/

/-- Only the list of the thread changes. -/
theorem Rings.drop_of_mem (h : Rings s ready) (m : a ∈ ready pri) :
    ready.drop a = Function.update ready pri ((ready pri).erase a) := by
  funext q
  unfold Queues.drop
  by_cases same : q = pri
  case pos => rw [same, Function.update_self]
  case neg =>
    rw [Function.update_of_ne same]
    exact List.erase_of_not_mem fun m' => same (h.once a q pri m' m)

/-- A thread that is in no queue is left alone. -/
theorem Rings.remove_unqueued (h : Rings s ready) (off : ∀ pri, a ∉ ready pri) :
    queueRemove s (.thread a) = s := by
  unfold queueRemove
  exact if_pos (.inl (h.free a off).1)

/-- The oldest thread of the highest list that has one. -/
def Queues.top (ready : Queues T) : Option T :=
  (List.finRange 3).reverse.findSome? fun pri => (ready pri).head?

theorem Queues.top_eq : ready.top = ((ready 2).head?.or (ready 1).head?).or (ready 0).head? := by
  have levels : (List.finRange 3).reverse = [2, 1, 0] := by decide
  unfold Queues.top
  rw [levels]
  simp only [List.findSome?_cons, List.findSome?_nil]
  cases (ready 2).head? with
  | some a => rfl
  | none =>
    cases (ready 1).head? with
    | some a => rfl
    | none => cases (ready 0).head? <;> rfl

theorem Queues.top_of_first {rest : List T} (first : ready pri = a :: rest)
    (above : ∀ q, pri < q → ready q = []) : ready.top = some a := by
  rw [Queues.top_eq]
  obtain rfl | rfl | rfl : pri = 0 ∨ pri = 1 ∨ pri = 2 := by omega
  · rw [above 2 (by decide), above 1 (by decide), first]
    rfl
  · rw [above 2 (by decide), first]
    rfl
  · rw [first]
    rfl

theorem Queues.top_of_empty (empty : ∀ pri, ready pri = []) : ready.top = none := by
  rw [Queues.top_eq, empty, empty, empty]
  rfl

/-! ## The functions on the lists -/

theorem Rings.pushes (h : Rings s ready) (new : ∀ pri, a ∉ ready pri) :
    Rings (queuePushBack s (.thread a))
        (Function.update ready (s.level a) (ready (s.level a) ++ [a])) ∧
      Requeued s (queuePushBack s (.thread a)) :=
  ⟨h.pushBack new, requeued_queuePushBack s (.thread a)⟩

theorem Rings.removes (h : Rings s ready) (m : a ∈ ready pri) :
    Rings (queueRemove s (.thread a)) (Function.update ready pri ((ready pri).erase a)) ∧
      Requeued s (queueRemove s (.thread a)) :=
  ⟨h.drop_of_mem m ▸ h.remove a, requeued_queueRemove s (.thread a)⟩

/-- `QueuePop` gives the top of the lists. -/
theorem Rings.pops (h : Rings s ready) {rest : List T} (first : ready pri = a :: rest)
    (above : ∀ q, pri < q → ready q = []) :
    (queuePop s).2 = some (.thread a) ∧
      Rings (queuePop s).1 (Function.update ready pri rest) ∧ Requeued s (queuePop s).1 := by
  obtain ⟨empty, -⟩ | ⟨pri', b, ⟨rest', first'⟩, above', popped⟩ := h.pop
  · rw [empty pri] at first
    cases first
  · -- there is one highest list that is not empty
    have same : pri' = pri := by
      refine Fin.le_antisymm (Fin.not_lt.mp fun lt => ?_) (Fin.not_lt.mp fun lt => ?_)
      · rw [above pri' lt] at first'
        cases first'
      · rw [above' pri lt] at first
        cases first
    subst same
    obtain ⟨rfl, rfl⟩ := List.cons.inj (first'.symm.trans first)
    have m : b ∈ ready pri' := first ▸ List.mem_cons_self
    have erased : (ready pri').erase b = rest' := by
      rw [first, List.erase_cons_head]
    obtain ⟨rings, requeued⟩ := h.removes m
    rw [erased] at rings
    rw [popped]
    exact ⟨rfl, rings, requeued⟩

theorem Rings.pop_none_iff (h : Rings s ready) :
    (queuePop s).2 = none ↔ ∀ pri, ready pri = [] := by
  obtain ⟨empty, popped⟩ | ⟨pri, b, ⟨rest, first⟩, above, popped⟩ := h.pop
  · exact iff_of_true (by rw [popped]) empty
  · refine iff_of_false (by rw [popped]; exact Option.some_ne_none _) fun empty => ?_
    rw [empty pri] at first
    cases first

theorem Rings.pop_empty (h : Rings s ready) (empty : ∀ pri, ready pri = []) :
    queuePop s = (s, none) := by
  obtain ⟨-, popped⟩ | ⟨pri, b, ⟨rest, first⟩, -, -⟩ := h.pop
  · exact popped
  · rw [empty pri] at first
    cases first

/-- **The ready queues refine three FIFO lists**: on any well-formed state each function keeps it
well-formed, does to one list what its name says, and leaves the other lists and all that is not
a link of the queues as it is. -/
theorem ready_queues_refine (h : Rings s ready) :
    (∀ a, (∀ pri, a ∉ ready pri) →
      Rings (queuePushBack s (.thread a))
          (Function.update ready (s.level a) (ready (s.level a) ++ [a])) ∧
        Requeued s (queuePushBack s (.thread a))) ∧
    (∀ a pri, a ∈ ready pri →
      Rings (queueRemove s (.thread a)) (Function.update ready pri ((ready pri).erase a)) ∧
        Requeued s (queueRemove s (.thread a))) ∧
    (∀ a, (∀ pri, a ∉ ready pri) → queueRemove s (.thread a) = s) ∧
    (∀ pri a rest, ready pri = a :: rest → (∀ q, pri < q → ready q = []) →
      (queuePop s).2 = some (.thread a) ∧
        Rings (queuePop s).1 (Function.update ready pri rest) ∧ Requeued s (queuePop s).1) ∧
    ((queuePop s).2 = none ↔ ∀ pri, ready pri = []) ∧
    ((∀ pri, ready pri = []) → queuePop s = (s, none)) :=
  ⟨fun _ new => h.pushes new, fun _ _ m => h.removes m, fun _ off => h.remove_unqueued off,
    fun _ _ _ first above => h.pops first above, h.pop_none_iff, h.pop_empty⟩

/-! ## Runs -/

inductive QueueOp (T : Type)
  | push (t : T)
  | remove (t : T)
  | pop (result : Option T)

/-- A call of one of the functions; `pop` with what it returns. -/
def queueStep (s : State T P) : QueueOp T → Option (State T P)
  | .push t => some (queuePushBack s (.thread t))
  | .remove t => some (queueRemove s (.thread t))
  | .pop result => if (queuePop s).2 = result.map .thread then some (queuePop s).1 else none

/-- The same on lists. -/
def listStep (level : T → Fin 3) (ready : Queues T) : QueueOp T → Option (Queues T)
  | .push t => some (ready.push level t)
  | .remove t => some (ready.drop t)
  | .pop result =>
    if ready.top = result then some ((result.map ready.drop).getD ready) else none

/-- Only a thread that is in no queue is pushed. -/
def PushesNew (ready : Queues T) : QueueOp T → Prop
  | .push t => ∀ pri, t ∉ ready pri
  | .remove _ => True
  | .pop _ => True

/-- One call on the links is the same call on the lists. -/
theorem queueStep_simulates {level : T → Fin 3} (h : Rings s ready ∧ s.level = level)
    {op : QueueOp T} (new : PushesNew ready op) (ran : queueStep s op = some t) :
    ∃ ready', listStep level ready op = some ready' ∧ Rings t ready' ∧ t.level = level := by
  obtain ⟨rings, rfl⟩ := h
  cases op with
  | push a =>
    obtain rfl := Option.some.inj ran
    exact ⟨_, rfl, rings.pushBack new, funext (requeued_queuePushBack s (.thread a)).level⟩
  | remove a =>
    obtain rfl := Option.some.inj ran
    exact ⟨_, rfl, rings.remove a, funext (requeued_queueRemove s (.thread a)).level⟩
  | pop result =>
    simp only [queueStep] at ran
    split at ran
    case isFalse => cases ran
    case isTrue returned =>
      obtain rfl := Option.some.inj ran
      obtain ⟨empty, popped⟩ | ⟨pri, b, ⟨rest, first⟩, above, popped⟩ := rings.pop
      · rw [popped] at returned ⊢
        obtain rfl : result = none := Option.map_eq_none_iff.mp returned.symm
        exact ⟨ready, if_pos (Queues.top_of_empty empty), rings, rfl⟩
      · rw [popped] at returned ⊢
        obtain ⟨c, rfl, same⟩ := Option.map_eq_some_iff.mp returned.symm
        obtain rfl : c = b := Ptr.thread.inj same
        exact ⟨_, if_pos (Queues.top_of_first first above), rings.remove c,
          funext (requeued_queueRemove s (.thread c)).level⟩

/-- **Runs from `Init` are runs on three lists**, with the same results of `QueuePop`. -/
theorem runs_refine (new : ∀ t, s.nexts (.thread t) = none ∧ s.prevs (.thread t) = none)
    {ops : List (QueueOp T)}
    (pushes : Along (listStep s.level) PushesNew (fun _ => []) ops)
    (ran : run queueStep (initQueues s) ops = some t) :
    ∃ ready, run (listStep s.level) (fun _ => []) ops = some ready ∧ Rings t ready := by
  have square : ∀ (u : State T P) (ready : Queues T) (op : QueueOp T) (v : State T P),
      (Rings u ready ∧ u.level = s.level) → PushesNew ready op → queueStep u op = some v →
      ∃ ready', listStep s.level ready op = some ready' ∧ Rings v ready' ∧ v.level = s.level :=
    fun _ _ _ _ h new ran => queueStep_simulates h new ran
  obtain ⟨ready, same, rings, -⟩ := run_simulates square
    (show Rings (initQueues s) _ ∧ (initQueues s).level = s.level from ⟨rings_initQueues new, rfl⟩)
    pushes ran
  exact ⟨ready, same, rings⟩

/-! ## Two threads -/

/-- Two threads of the lowest level, before `Init`. -/
def cold : State Bool Unit where
  mem _ := KThread.zero
  cr3 _ := 0
  current := none
  active := false
  quantum := 0
  sleepHead := none
  pitTicks := 0
  cpu := ⟨0, 0, 0, 0⟩

def bothReady : State Bool Unit :=
  queuePushBack (queuePushBack (initQueues cold) (.thread true)) (.thread false)

theorem rings_bothReady : Rings bothReady (Function.update (fun _ => []) 0 [true, false]) := by
  have first := (rings_initQueues (s := cold) fun _ => ⟨rfl, rfl⟩).pushes (a := true)
    fun _ => List.not_mem_nil
  have second := first.1.pushes (a := false) (by decide)
  have lists : Function.update (Function.update (fun _ : Fin 3 => ([] : List Bool)) 0 [true]) 0
      [true, false] = Function.update (fun _ => []) 0 [true, false] := Function.update_idem ..
  exact lists ▸ second.1

theorem ready_queues_refine_both :
    (queuePop bothReady).2 = some (.thread true) ∧
      Rings (queuePop bothReady).1
        (Function.update (Function.update (fun _ => []) 0 [true, false]) 0 [false]) ∧
      Requeued bothReady (queuePop bothReady).1 :=
  (ready_queues_refine rings_bothReady).2.2.2.1 0 true [false] rfl (by decide)

end MicroNT.Sched
