import MicroNT.Scheduler

/-! # Pointers between threads (`scheduler.cpp`)

What the scheduler can get at from the current thread, the ready queues and the sleep list
is closed under its links, and it changes the state of no other thread. -/

set_option linter.unusedSectionVars false

namespace MicroNT.Sched

variable {T P : Type} [DecidableEq T] {s t u : State T P} {p : Ptr T} {k : KThread T P}
  {K : Ptr T → Prop} {pp n : Option (Ptr T)}

/-- Every pointer is null or leads to a node of `K`. -/
structure Closed (K : Ptr T → Prop) (s : State T P) : Prop where
  sentinel : ∀ pri, K (.sentinel pri)
  next : ∀ p q, (s.mem p).next = some q → K q
  prev : ∀ p q, (s.mem p).prev = some q → K q
  sleepNext : ∀ p q, (s.mem p).sleepNext = some q → K q
  sleepHead : ∀ q, s.sleepHead = some q → K q
  current : ∀ q, s.current = some q → K q

theorem Closed.mono {L : Ptr T → Prop} (h : Closed K s) (more : ∀ q, K q → L q) : Closed L s :=
  ⟨fun pri => more _ (h.sentinel pri), fun q r e => more r (h.next q r e),
    fun q r e => more r (h.prev q r e), fun q r e => more r (h.sleepNext q r e),
    fun r e => more r (h.sleepHead r e), fun r e => more r (h.current r e)⟩

theorem Closed.write (h : Closed K s) (next : ∀ q, k.next = some q → K q)
    (prev : ∀ q, k.prev = some q → K q) (sleepNext : ∀ q, k.sleepNext = some q → K q) :
    Closed K (s.write p k) := by
  refine ⟨h.sentinel, fun a => ?_, fun a => ?_, fun a => ?_, h.sleepHead, h.current⟩
  all_goals
    unfold State.write
    dsimp only
    by_cases e : a = p
  · rw [e, Function.update_self]
    exact next
  · rw [Function.update_of_ne e]
    exact h.next a
  · rw [e, Function.update_self]
    exact prev
  · rw [Function.update_of_ne e]
    exact h.prev a
  · rw [e, Function.update_self]
    exact sleepNext
  · rw [Function.update_of_ne e]
    exact h.sleepNext a

theorem Closed.setState (h : Closed K s) (x : Sync.ThreadState) : Closed K (s.setState p x) :=
  h.write (h.next p) (h.prev p) (h.sleepNext p)

theorem Closed.setWaitNext (h : Closed K s) : Closed K (s.setWaitNext p n) :=
  h.write (h.next p) (h.prev p) (h.sleepNext p)

theorem Closed.slot (h : Closed K s) (q : Ptr T) (at_ : s.slot pp = some q) : K q := by
  cases pp with
  | none => exact h.sleepHead q at_
  | some p => exact h.sleepNext p q at_

theorem known_some (h : K p) : ∀ q, some p = some q → K q := fun _ e => Option.some.inj e ▸ h

theorem known_none : ∀ q, (none : Option (Ptr T)) = some q → K q := fun q e =>
  absurd e.symm (Option.some_ne_none q)

/-! ## Code that goes along the pointers -/

/-- From `s` to `t` the pointers still lead to `K`, and no other thread has a new state. -/
structure Walked (K : Ptr T → Prop) (s t : State T P) : Prop where
  closed : Closed K t
  state : ∀ q, ¬ K q → (t.mem q).state = (s.mem q).state

theorem Closed.walked (h : Closed K s) : Walked K s s := ⟨h, fun _ _ => rfl⟩

theorem Walked.write (h : Walked K s t) (state : K p ∨ k.state = (t.mem p).state)
    (next : ∀ q, k.next = some q → K q) (prev : ∀ q, k.prev = some q → K q)
    (sleepNext : ∀ q, k.sleepNext = some q → K q) : Walked K s (t.write p k) := by
  refine ⟨h.closed.write next prev sleepNext, fun q other => ?_⟩
  by_cases e : q = p
  · subst e
    rw [State.write_self, state.resolve_left other]
    exact h.state q other
  · rw [State.write_of_ne e]
    exact h.state q other

theorem Walked.setState (h : Walked K s t) (known : K p) (x : Sync.ThreadState) :
    Walked K s (t.setState p x) :=
  h.write (.inl known) (h.closed.next p) (h.closed.prev p) (h.closed.sleepNext p)

theorem Walked.setWaitNext (h : Walked K s t) (p : Ptr T) (n : Option (Ptr T)) :
    Walked K s (t.setWaitNext p n) :=
  h.write (.inr rfl) (h.closed.next p) (h.closed.prev p) (h.closed.sleepNext p)

theorem Walked.setNext (h : Walked K s t) (known : ∀ q, n = some q → K q) :
    Walked K s (t.setNext pp n) := by
  cases pp with
  | none => exact h
  | some p => exact h.write (.inr rfl) known (h.closed.prev p) (h.closed.sleepNext p)

theorem Walked.setPrev (h : Walked K s t) (known : ∀ q, n = some q → K q) :
    Walked K s (t.setPrev pp n) := by
  cases pp with
  | none => exact h
  | some p => exact h.write (.inr rfl) (h.closed.next p) known (h.closed.sleepNext p)

theorem Walked.queuePushBack (h : Walked K s t) (known : K p) : Walked K s (queuePushBack t p) := by
  unfold Sched.queuePushBack
  extract_lets sen t1 t2 t3
  have h1 : Walked K s t1 := h.setNext (known_some (h.closed.sentinel _))
  have h2 : Walked K s t2 := h1.setPrev (h1.closed.prev _)
  have h3 : Walked K s t3 := h2.setNext (known_some known)
  exact h3.setPrev (known_some known)

theorem Walked.queueRemove (h : Walked K s t) : Walked K s (queueRemove t p) := by
  unfold Sched.queueRemove
  split
  · exact h
  · extract_lets t1 t2 t3
    have h1 : Walked K s t1 := h.setNext (h.closed.next p)
    have h2 : Walked K s t2 := h1.setPrev (h1.closed.prev p)
    have h3 : Walked K s t3 := h2.setNext known_none
    exact h3.setPrev known_none

theorem Walked.queuePop (h : Walked K s t) {r : State T P × Option (Ptr T)}
    (popped : queuePop t = r) : Walked K s r.1 ∧ ∀ q, r.2 = some q → K q := by
  subst popped
  unfold Sched.queuePop
  split
  · exact ⟨h, known_none⟩
  · split
    · exact ⟨h, known_none⟩
    case h_2 pri _ q first =>
      exact ⟨h.queueRemove, known_some (h.closed.next _ q first)⟩

theorem Walked.setSlot (h : Walked K s t) (known : ∀ q, n = some q → K q) :
    Walked K s (t.setSlot pp n) := by
  cases pp with
  | none =>
    have c := h.closed
    exact ⟨⟨c.sentinel, c.next, c.prev, c.sleepNext, known, c.current⟩, h.state⟩
  | some p => exact h.write (.inr rfl) (h.closed.next p) (h.closed.prev p) known

theorem Walked.wake (h : Walked K s t) (known : K p) : Walked K s (wake t pp p) := by
  unfold Sched.wake
  extract_lets t1 k t2
  have h1 : Walked K s t1 := h.setSlot (h.closed.sleepNext p)
  have h2 : Walked K s t2 := h1.write (.inl known) (h1.closed.next p) (h1.closed.prev p) known_none
  exact h2.queuePushBack known

theorem Walked.wakeFrom (h : Walked K s t) {m : Nat} (woke : wakeFrom m t pp = some u) :
    Walked K s u := by
  induction m generalizing t pp with
  | zero => cases woke
  | succ m ih =>
    unfold Sched.wakeFrom at woke
    split at woke
    · cases woke
      exact h
    case h_2 q at_ =>
      split at woke
      · exact ih (h.wake (h.closed.slot q at_)) woke
      · exact ih h woke

theorem Walked.makeReady (h : Walked K s t) (known : K p) : Walked K s (makeReady t p) :=
  (h.setState known _).queuePushBack known

theorem Walked.blockCurrentThread (h : Walked K s t) : Walked K s (blockCurrentThread t) := by
  unfold Sched.blockCurrentThread
  split
  · exact h
  case h_2 c current => exact h.setState (h.closed.current c current) _

theorem Walked.sleep (h : Walked K s t) (ms : u32) : Walked K s (sleep t ms) := by
  unfold Sched.sleep
  split
  · exact h
  · split
    · exact h
    case h_2 c current =>
      extract_lets running t1
      have known := h.closed.current c current
      have h1 : Walked K s t1 :=
        h.write (.inl known) (h.closed.next c) (h.closed.prev c) h.closed.sleepHead
      have c1 := h1.closed
      exact ⟨⟨c1.sentinel, c1.next, c1.prev, c1.sleepNext, known_some known, c1.current⟩, h1.state⟩

theorem Walked.switchTo {prev next : Ptr T} (h : Walked K s t) (prevKnown : K prev)
    (nextKnown : K next) : Walked K s (switchTo t prev next) := by
  unfold Sched.switchTo
  extract_lets t1 t2 running t3
  have h1 : Walked K s t1 := by
    change Walked K s (if _ then _ else _)
    split
    · exact (h.setState prevKnown _).queuePushBack prevKnown
    · exact h
  have c1 := h1.closed
  have h2 : Walked K s t2 :=
    ⟨⟨c1.sentinel, c1.next, c1.prev, c1.sleepNext, c1.sleepHead, known_some nextKnown⟩, h1.state⟩
  have h3 := h2.setState nextKnown .running
  have c3 := h3.closed
  exact ⟨⟨c3.sentinel, c3.next, c3.prev, c3.sleepNext, c3.sleepHead, c3.current⟩, h3.state⟩

theorem Walked.scheduleInternal (h : Walked K s t) : Walked K s (scheduleInternal t) := by
  unfold Sched.scheduleInternal
  split
  · exact h
  · split
    · exact h
    case h_2 prev current =>
      split
      case h_1 u popped => exact (h.queuePop popped).1
      case h_2 u next popped =>
        obtain ⟨hu, known⟩ := h.queuePop popped
        have nextKnown := known next rfl
        split
        · have pushed := hu.queuePushBack nextKnown
          have c := pushed.closed
          exact ⟨⟨c.sentinel, c.next, c.prev, c.sleepNext, c.sleepHead, c.current⟩, pushed.state⟩
        · exact hu.switchTo (h.closed.current prev current) nextKnown

/-- The timer interrupt. -/
theorem Closed.timer_walked (h : Closed K s) {m : Nat} (ticked : timer m s = some t) :
    Walked K s t := by
  have later : Walked K s { s with pitTicks := s.pitTicks + 1 } :=
    ⟨⟨h.sentinel, h.next, h.prev, h.sleepNext, h.sleepHead, h.current⟩, fun _ _ => rfl⟩
  unfold Sched.timer tick at ticked
  split at ticked
  · cases ticked
    exact later
  · obtain ⟨u, woke, rfl⟩ := Option.map_eq_some_iff.mp ticked
    have hu : Walked K s u := later.wakeFrom woke
    have c := hu.closed
    split
    · extract_lets u1
      have hu1 : Walked K s u1 :=
        ⟨⟨c.sentinel, c.next, c.prev, c.sleepNext, c.sleepHead, c.current⟩, hu.state⟩
      split
      · exact hu1.scheduleInternal
      · exact hu1
    · exact hu

/-! ## The pointers alone -/

theorem Closed.queueRemove (h : Closed K s) : Closed K (queueRemove s p) :=
  h.walked.queueRemove.closed

theorem Closed.wakeFrom (h : Closed K s) {m : Nat} (woke : wakeFrom m s pp = some t) : Closed K t :=
  (h.walked.wakeFrom woke).closed

theorem Closed.makeReady (h : Closed K s) (known : K p) : Closed K (makeReady s p) :=
  (h.walked.makeReady known).closed

theorem Closed.blockCurrentThread (h : Closed K s) : Closed K (blockCurrentThread s) :=
  h.walked.blockCurrentThread.closed

theorem Closed.sleep (h : Closed K s) (ms : u32) : Closed K (sleep s ms) := (h.walked.sleep ms).closed

theorem Closed.scheduleInternal (h : Closed K s) : Closed K (scheduleInternal s) :=
  h.walked.scheduleInternal.closed

theorem Closed.timer (h : Closed K s) {m : Nat} (ticked : timer m s = some t) : Closed K t :=
  (h.timer_walked ticked).closed

end MicroNT.Sched
