import Mathlib.Data.Fintype.Basic
import MicroNT.SignalCalls

/-! # Whom a release wakes (`syscall.cpp`, `event.cpp`, `process.cpp`)

`KillProcess` leaves a thread in the wait list it is on, and a release takes the first
thread of the list. As long as no thread of a wait list is terminated, every unit, mutant
and signal that is handed out goes to a thread that is alive. -/

set_option linter.unusedSectionVars false

namespace MicroNT.Signals

open Base.Machine Base.Chain
open Sched (Ptr KThread State Linking Relinked scheduleInternal makeReady blockCurrentThread)

/-- What threads wait for. -/
inductive Obj (H : Type)
  | semaphore (h : H)
  | mutant (h : H)
  | event (h : H)
  deriving DecidableEq

/-- The thread that a release has taken off a list and not unblocked yet. -/
def Pc.hands {T H : Type} : Pc T H → Option (Ptr T)
  | .semaUnlink _ _ _ w | .semaLast _ _ _ w | .semaClear _ _ _ w | .semaUnblock _ _ _ w
  | .semaPush _ _ _ w | .eventUnblock _ w | .eventPush _ w => some w
  | .idle | .schedule | .semaTest _ _ _ | .semaTake _ _ _ | .semaCompare _ _ _ | .semaLoad _ _ _
  | .semaStore _ _ _ | .mutantRelease _ => none

variable {T P H : Type} [DecidableEq T] [DecidableEq P] [DecidableEq H]

/-- The first thread of an object's wait list. -/
def System.first (sys : System T P H) : Obj H → Option (Ptr T)
  | .semaphore h => (sys.sema h).ends.head
  | .mutant h => (sys.mutant h).ends.head
  | .event h => (sys.event h).waiters

def System.next (sys : System T P H) (q : Ptr T) : Option (Ptr T) := (sys.sched.mem q).waitNext

/-- The thread is on the wait list of the object. -/
def Waits (sys : System T P H) (o : Obj H) (q : Ptr T) : Prop :=
  Met sys.next (fun a => sys.first o = some a) q

/-- Where the wait lists start, with those that a release is at work on. -/
def System.Root (sys : System T P H) (q : Ptr T) : Prop :=
  (∃ o, sys.first o = some q) ∨ ∃ t, (sys.pc t).hands = some q

/-- The thread is on a wait list, or a release has taken it off one and not unblocked it
yet. -/
def Queued (sys : System T P H) (q : Ptr T) : Prop := Met sys.next sys.Root q

/-- The object of which the step hands out a unit, and the thread that it goes to: where
`UnblockThread` tests the thread, and where the thread becomes the owner of a mutant or
is made ready by `EventSet`. -/
def gives (sys : System T P H) (op : Op T P H) : Option (Obj H × Ptr T) :=
  match sys.sched.current with
  | some (.thread c) =>
    match op with
    | .go =>
      match sys.pc c with
      | .semaUnblock h _ _ w => some (.semaphore h, w)
      | .eventUnblock h w => some (.event h, w)
      | .mutantRelease h =>
        if (sys.mutant h).depth - 1 = 0 then (sys.mutant h).ends.head.map fun w => (.mutant h, w)
        else none
      | _ => none
    | .call (.setEvent h) => (sys.event h).waiters.map fun w => (.event h, w)
    | _ => none
  | _ => none

/-- What the step hands out goes to a thread that is not terminated. -/
def Living (sys : System T P H) (op : Op T P H) : Prop :=
  ∀ o w, gives sys op = some (o, w) → (sys.sched.mem w).state ≠ .terminated

/-- The thread that the step terminates, or that it links into the list of a process. -/
def strikes (sys : System T P H) (op : Op T P H) : Option T :=
  match sys.sched.current with
  | some (.thread c) =>
    match op with
    | .go =>
      if sys.pc c = .idle then
        match sys.ps.pc c with
        | .waitLink _ => some c
        | .killMark p i _ =>
          sys.ps.threadReg[i]?.filter fun t =>
            decide ((sys.sched.mem (.thread t)).process = some p ∧
              (sys.sched.mem (.thread t)).state ≠ .terminated)
        | _ => none
      else none
    | .call (.ps .terminate) => some c
    | _ => none
  | _ => none

/-- No thread of a wait list is terminated, and none waits for a process besides. -/
def Spared (sys : System T P H) (op : Op T P H) : Prop :=
  ∀ t, strikes sys op = some t → ¬ Queued sys (.thread t)

/-- Every thread of a wait list is alive. -/
def Inv (sys : System T P H) : Prop :=
  ∀ q, Queued sys q → (sys.sched.mem q).state ≠ .terminated

/-! ## What keeps the lists -/

/-- No wait list grows, and no thread is terminated. -/
def Soft (k k' : KThread T P) : Prop :=
  (k'.waitNext = k.waitNext ∨ k'.waitNext = none) ∧ (k'.state = .terminated → k.state = .terminated)

theorem linking_soft : Linking (Soft (T := T) (P := P)) where
  refl _ := ⟨.inl rfl, id⟩
  trans h h' := ⟨h'.1.elim (fun e => h.1.imp e.trans e.trans) .inr, h.2 ∘ h'.2⟩
  next _ _ := ⟨.inl rfl, id⟩
  prev _ _ := ⟨.inl rfl, id⟩
  sleepNext _ _ := ⟨.inl rfl, id⟩
  sleepUntil _ _ := ⟨.inl rfl, id⟩
  state _ _ alive := ⟨.inl rfl, fun no => absurd no alive⟩

variable {sys sys' : System T P H} {c : T} {x : Pc T H} {q w : Ptr T} {h : H} {s t : State T P}

theorem soft_refl (s : State T P) : Relinked Soft s s := linking_soft.relinked_refl s

/-- A thread is taken off its list. -/
theorem soft_clear (h : Relinked Soft s t) (w : Ptr T) : Relinked Soft s (t.setWaitNext w none) :=
  linking_soft.write h ⟨.inr rfl, id⟩

/-- The lists meet no thread but those of `Q`, and these are alive. -/
theorem Inv.keep (Q : Ptr T → Prop) (roots : ∀ q, sys'.Root q → Q q)
    (links : ∀ a b, Q a → sys'.next a = some b → Q b)
    (alive : ∀ q, Q q → (sys'.sched.mem q).state ≠ .terminated) : Inv sys' := fun q h =>
  alive q (Met.closed h roots links)

/-- No list grows; threads that are on none may be linked or terminated. -/
theorem Inv.apart (inv : Inv sys) (roots : ∀ q, sys'.Root q → Queued sys q)
    (soft : ∀ q, Queued sys q → Soft (sys.sched.mem q) (sys'.sched.mem q)) : Inv sys' := by
  refine Inv.keep (Queued sys) roots (fun a b queued link => ?_) fun q queued dead =>
    inv q queued ((soft q queued).2 dead)
  obtain same | none := (soft a queued).1
  · exact .next queued (same.symm.trans link)
  · exact absurd (none.symm.trans link) (Option.some_ne_none b).symm

theorem Inv.soft (inv : Inv sys) (roots : ∀ q, sys'.Root q → Queued sys q)
    (soft : ∀ q, Soft (sys.sched.mem q) (sys'.sched.mem q)) : Inv sys' :=
  inv.apart roots fun q _ => soft q

theorem root_goto (root : (sys.goto c x).Root q) : sys.Root q ∨ x.hands = some q := by
  obtain ⟨o, first⟩ | ⟨t, hands⟩ := root
  · exact .inl (.inl ⟨o, first⟩)
  · by_cases e : t = c
    · have self : (sys.goto c x).pc c = x := Function.update_self _ _ _
      rw [e, self] at hands
      exact .inr hands
    · have other : (sys.goto c x).pc t = sys.pc t := Function.update_of_ne e _ _
      rw [other] at hands
      exact .inl (.inr ⟨t, hands⟩)

theorem root_setSema {v : Sync.KSema (Ptr T)} (root : (sys.setSema h v).Root q) :
    sys.Root q ∨ v.ends.head = some q := by
  obtain ⟨o, first⟩ | hands := root
  · cases o with
    | mutant h' => exact .inl (.inl ⟨.mutant h', first⟩)
    | event h' => exact .inl (.inl ⟨.event h', first⟩)
    | semaphore h' =>
      have read : (sys.setSema h v).first (.semaphore h') = (Function.update sys.sema h v h').ends.head :=
        rfl
      rw [read] at first
      by_cases e : h' = h
      · rw [e, Function.update_self] at first
        exact .inr first
      · rw [Function.update_of_ne e] at first
        exact .inl (.inl ⟨.semaphore h', first⟩)
  · exact .inl (.inr hands)

theorem root_setMutant {v : Sync.KMutant (Ptr T)} (root : (sys.setMutant h v).Root q) :
    sys.Root q ∨ v.ends.head = some q := by
  obtain ⟨o, first⟩ | hands := root
  · cases o with
    | semaphore h' => exact .inl (.inl ⟨.semaphore h', first⟩)
    | event h' => exact .inl (.inl ⟨.event h', first⟩)
    | mutant h' =>
      have read : (sys.setMutant h v).first (.mutant h') =
          (Function.update sys.mutant h v h').ends.head := rfl
      rw [read] at first
      by_cases e : h' = h
      · rw [e, Function.update_self] at first
        exact .inr first
      · rw [Function.update_of_ne e] at first
        exact .inl (.inl ⟨.mutant h', first⟩)
  · exact .inl (.inr hands)

theorem root_setEvent {v : Sync.KEvent (Ptr T)} (root : (sys.setEvent h v).Root q) :
    sys.Root q ∨ v.waiters = some q := by
  obtain ⟨o, first⟩ | hands := root
  · cases o with
    | semaphore h' => exact .inl (.inl ⟨.semaphore h', first⟩)
    | mutant h' => exact .inl (.inl ⟨.mutant h', first⟩)
    | event h' =>
      have read : (sys.setEvent h v).first (.event h') = (Function.update sys.event h v h').waiters := rfl
      rw [read] at first
      by_cases e : h' = h
      · rw [e, Function.update_self] at first
        exact .inr first
      · rw [Function.update_of_ne e] at first
        exact .inl (.inl ⟨.event h', first⟩)
  · exact .inl (.inr hands)

theorem queued_first {o : Obj H} (first : sys.first o = some q) : Queued sys q :=
  .first (.inl ⟨o, first⟩)

theorem queued_sema (head : (sys.sema h).ends.head = some q) : Queued sys q :=
  queued_first (o := .semaphore h) head

theorem queued_mutant (head : (sys.mutant h).ends.head = some q) : Queued sys q :=
  queued_first (o := .mutant h) head

theorem queued_event (first : (sys.event h).waiters = some q) : Queued sys q :=
  queued_first (o := .event h) first

theorem queued_hands (at_ : sys.pc c = x) (hands : x.hands = some q) : Queued sys q :=
  .first (.inr ⟨c, at_ ▸ hands⟩)

/-! ## Waits -/

theorem append_current (s : State T P) (ends : Ends (Ptr T)) (cur : Ptr T) :
    (append s ends cur).1.current = s.current := by
  unfold append
  dsimp only
  split <;> rfl

theorem append_state (s : State T P) (ends : Ends (Ptr T)) (cur q : Ptr T) :
    ((append s ends cur).1.mem q).state = (s.mem q).state := by
  unfold append
  dsimp only
  split
  · rw [State.setWaitNext_state, State.setWaitNext_state]
  · rw [State.setWaitNext_state]

theorem append_head (s : State T P) (ends : Ends (Ptr T)) (cur : Ptr T) :
    (append s ends cur).2.head = ends.head ∨ (append s ends cur).2.head = some cur := by
  unfold append
  dsimp only
  split
  · exact .inl rfl
  · exact .inr rfl

/-- Only `cur` is new on a list, and it is the last. -/
theorem append_link {ends : Ends (Ptr T)} {cur a b : Ptr T}
    (link : ((append s ends cur).1.mem a).waitNext = some b) :
    b = cur ∨ a ≠ cur ∧ (s.mem a).waitNext = some b := by
  unfold append at link
  dsimp only at link
  have cleared : ((s.setWaitNext cur none).mem a).waitNext = some b →
      a ≠ cur ∧ (s.mem a).waitNext = some b := fun link => by
    rw [State.setWaitNext_waitNext] at link
    by_cases e : a = cur
    · rw [e, Function.update_self] at link
      cases link
    · rw [Function.update_of_ne e] at link
      exact ⟨e, link⟩
  split at link
  case h_1 z tail =>
    rw [State.setWaitNext_waitNext] at link
    by_cases e : a = z
    · rw [e, Function.update_self] at link
      exact .inl (Option.some.inj link).symm
    · rw [Function.update_of_ne e] at link
      exact .inr (cleared link)
  case h_2 => exact .inr (cleared link)

/-- The current thread blocks at a place in a list. -/
theorem Inv.park (inv : Inv sys) (sched : sys'.sched = s.setState (.thread c) .blocked)
    (roots : ∀ q, sys'.Root q → Queued sys q ∨ q = .thread c)
    (links : ∀ a b, Queued sys a ∨ a = .thread c → (s.mem a).waitNext = some b →
      Queued sys b ∨ b = .thread c)
    (states : ∀ a, (s.mem a).state = (sys.sched.mem a).state) : Inv sys' := by
  refine Inv.keep (fun a => Queued sys a ∨ a = .thread c) roots (fun a b queued link => ?_)
    fun q queued => ?_
  · have old : (s.mem a).waitNext = some b := by
      rw [← link, System.next, sched, State.setState_waitNext]
    exact links a b queued old
  · rw [sched]
    by_cases e : q = .thread c
    · rw [e, State.setState_state]
      exact Sync.ThreadState.noConfusion
    · rw [State.setState_state_of_ne e, states]
      exact inv q (queued.resolve_right e)

theorem Inv.append (inv : Inv sys) (current : sys.sched.current = some (.thread c))
    {ends : Ends (Ptr T)}
    (sched : sys'.sched = blockCurrentThread (append sys.sched ends (.thread c)).1)
    (roots : ∀ q, sys'.Root q → sys.Root q ∨ (append sys.sched ends (.thread c)).2.head = some q)
    (head : ∀ q, ends.head = some q → Queued sys q) : Inv sys' := by
  rw [Sched.blockCurrentThread_eq ((append_current ..).trans current)] at sched
  refine inv.park sched (fun q root => ?_) (fun a b queued link => ?_) fun a => append_state ..
  · obtain root | first := roots q root
    · exact .inl (.first root)
    · obtain same | new := append_head sys.sched ends (.thread c)
      · exact .inl (head q (same.symm.trans first))
      · exact .inr (Option.some.inj (first.symm.trans new))
  · obtain e | ⟨other, link⟩ := append_link link
    · exact .inr e
    · exact .inl (.next (queued.resolve_right other) link)

theorem Inv.waitSemaphore (inv : Inv sys) (current : sys.sched.current = some (.thread c)) (h : H)
    (timeout : u64) : Inv (waitSemaphore sys c h timeout) := by
  unfold Signals.waitSemaphore
  dsimp only
  split
  · refine inv.soft (fun q root => ?_) (soft_refl _).fields
    exact (root_setSema root).elim .first queued_sema
  · split
    · exact inv
    · refine inv.append current rfl (fun q root => ?_) fun q first => queued_sema first
      obtain root | no := root_goto root
      · exact root_setSema root
      · cases no

theorem Inv.waitMutant (inv : Inv sys) (current : sys.sched.current = some (.thread c)) (h : H) :
    Inv (waitMutant sys c h) := by
  unfold Signals.waitMutant
  dsimp only
  split
  · refine inv.soft (fun q root => ?_) (soft_refl _).fields
    exact (root_setMutant root).elim .first queued_mutant
  · split
    · refine inv.soft (fun q root => ?_) (soft_refl _).fields
      exact (root_setMutant root).elim .first queued_mutant
    · refine inv.append current rfl (fun q root => ?_) fun q first => queued_mutant first
      obtain root | no := root_goto root
      · exact root_setMutant root
      · cases no

theorem Inv.eventWait (inv : Inv sys) (h : H) (timeout : u32) : Inv (eventWait sys c h timeout) := by
  unfold Signals.eventWait
  dsimp only
  split
  · split
    · refine inv.soft (fun q root => ?_) (soft_refl _).fields
      exact (root_setEvent root).elim .first queued_event
    · exact inv
  · split
    · exact inv
    · refine inv.park rfl (fun q root => ?_) (fun a b queued link => ?_)
        fun a => State.setWaitNext_state ..
      · obtain root | no := root_goto root
        · exact (root_setEvent root).imp .first fun e => (Option.some.inj e).symm
        · cases no
      · rw [State.setWaitNext_waitNext] at link
        by_cases e : a = .thread c
        · rw [e, Function.update_self] at link
          exact .inl (queued_event link)
        · rw [Function.update_of_ne e] at link
          exact .inl (.next (queued.resolve_right e) link)

/-! ## Releases -/

theorem soft_unblock (h : Relinked Soft s t) (w : Ptr T) : Relinked Soft s (unblockThread t w) := by
  unfold unblockThread
  split
  · exact h
  · exact linking_soft.makeReady h w

theorem Inv.releaseMutant (inv : Inv sys) (h : H) : Inv ((releaseMutant sys h).goto c .idle) := by
  unfold Signals.releaseMutant
  dsimp only
  split
  · split
    case h_1 w head =>
      refine inv.soft (fun q root => ?_) (soft_unblock (soft_clear (soft_refl _) w) w).fields
      obtain root | no := root_goto root
      · obtain root | first := root_setMutant root
        · exact .first root
        · exact .next (queued_mutant head) first
      · cases no
    case h_2 =>
      refine inv.soft (fun q root => ?_) (soft_refl _).fields
      obtain root | no := root_goto root
      · exact (root_setMutant root).elim .first queued_mutant
      · cases no
  · refine inv.soft (fun q root => ?_) (soft_refl _).fields
    obtain root | no := root_goto root
    · exact (root_setMutant root).elim .first queued_mutant
    · cases no

theorem Inv.eventSet (inv : Inv sys) (h : H) : Inv (eventSet sys c h) := by
  unfold Signals.eventSet
  dsimp only
  split
  case h_1 w first =>
    have queued : Queued sys w := queued_event first
    refine inv.soft (fun q root => ?_) (linking_soft.setState (soft_clear (soft_refl _) w)
      Sync.ThreadState.noConfusion).fields
    obtain root | hands := root_goto root
    · obtain root | rest := root_setEvent root
      · exact .first root
      · refine .next queued ?_
        split at rest <;> exact rest
    · cases hands
      exact queued
  case h_2 =>
    refine inv.soft (fun q root => ?_) (soft_refl _).fields
    exact (root_setEvent root).elim .first queued_event

/-- A step that leaves the threads and the objects alone. -/
theorem Inv.goto (inv : Inv sys) (hands : ∀ q, x.hands = some q → Queued sys q) :
    Inv (sys.goto c x) := by
  refine inv.soft (fun q root => ?_) (soft_refl _).fields
  exact (root_goto root).elim .first (hands q)

/-- A step that writes a semaphore. -/
theorem Inv.setSema (inv : Inv sys) {v : Sync.KSema (Ptr T)}
    (head : ∀ q, v.ends.head = some q → Queued sys q) (hands : ∀ q, x.hands = some q → Queued sys q) :
    Inv ((sys.setSema h v).goto c x) := by
  refine inv.soft (fun q root => ?_) (soft_refl _).fields
  obtain root | hand := root_goto root
  · exact (root_setSema root).elim .first (head q)
  · exact hands q hand

/-- A step that changes threads as the scheduler does. -/
theorem Inv.with (inv : Inv sys) {s : State T P} (soft : ∀ q, Soft (sys.sched.mem q) (s.mem q))
    (hands : ∀ q, x.hands = some q → Queued sys q) : Inv ((sys.with s).goto c x) := by
  refine inv.soft (fun q root => ?_) soft
  exact (root_goto root).elim .first (hands q)

theorem Inv.proceed (inv : Inv sys) (h : proceed sys c = some sys') : Inv sys' := by
  unfold Signals.proceed at h
  dsimp only at h
  split at h
  case h_1 => cases h
  case h_2 at_ =>
    cases h
    exact inv.with (linking_soft.scheduleInternal (soft_refl _)) fun _ no => by cases no
  case h_3 i rel off at_ =>
    cases h
    refine inv.goto fun q hands => ?_
    split at hands <;> cases hands
  case h_4 i rel off at_ =>
    obtain ⟨w, head, rfl⟩ := Option.map_eq_some_iff.mp h
    refine inv.goto fun q hands => ?_
    cases hands
    exact queued_sema head
  case h_5 i rel off w at_ =>
    cases h
    have queued : Queued sys w := queued_hands at_ rfl
    exact inv.setSema (fun q link => .next queued link) fun q hands => queued_hands at_ hands
  case h_6 i rel off w at_ =>
    cases h
    exact inv.setSema (fun q head => queued_sema head) fun q hands => queued_hands at_ hands
  case h_7 i rel off w at_ =>
    cases h
    exact inv.with (soft_clear (soft_refl _) w).fields fun q hands => queued_hands at_ hands
  case h_8 i rel off w at_ =>
    cases h
    refine inv.goto fun q hands => ?_
    split at hands
    · cases hands
    · exact queued_hands at_ hands
  case h_9 i rel off w at_ =>
    cases h
    exact inv.with (linking_soft.makeReady (soft_refl _) w).fields fun _ no => by cases no
  case h_10 i rel off at_ =>
    cases h
    refine inv.goto fun q hands => ?_
    split at hands <;> cases hands
  case h_11 i rel off at_ =>
    cases h
    exact inv.goto fun _ no => by cases no
  case h_12 i v off at_ =>
    cases h
    exact inv.setSema (fun q head => queued_sema head) fun _ no => by cases no
  case h_13 i at_ =>
    cases h
    exact inv.releaseMutant i
  case h_14 i w at_ =>
    cases h
    refine inv.goto fun q hands => ?_
    split at hands
    · cases hands
    · exact queued_hands at_ hands
  case h_15 i w at_ =>
    cases h
    exact inv.with (linking_soft.makeReady (soft_refl _) w).fields fun _ no => by cases no

/-! ## Processes that end -/

/-- What a step of the processes does to the threads. -/
inductive Struck (ps ps' : PS.System T P) (c : T) : Prop
  | soft (h : ∀ q, Soft (ps.sched.mem q) (ps'.sched.mem q))
  | link (p : P) (at_ : ps.pc c = .waitLink p) (h : ps' = (PS.waitLink ps c p).goto c .waitSchedule)
  | mark (p : P) (i : Nat) (marked : Bool) (t : T) (at_ : ps.pc c = .killMark p i marked)
      (found : ps.threadReg[i]? = some t) (process : (ps.sched.mem (.thread t)).process = some p)
      (alive : (ps.sched.mem (.thread t)).state ≠ .terminated)
      (h : ps'.sched = ps.sched.setState (.thread t) .terminated)

variable {ps ps' : PS.System T P}

theorem ps_proceed (h : PS.proceed ps c = some ps') : Struck ps ps' c := by
  have same := (soft_refl ps.sched).fields
  unfold PS.proceed at h
  dsimp only at h
  split at h
  case h_1 => cases h
  case h_2 => cases h
  case h_3 p at_ =>
    cases h
    exact .link p at_ rfl
  case h_4 =>
    cases h
    exact .soft (linking_soft.scheduleInternal (soft_refl _))
  case h_5 =>
    cases h
    exact .soft same
  case h_6 =>
    cases h
    exact .soft same
  case h_7 =>
    cases h
    exact .soft (linking_soft.scheduleInternal (soft_refl _))
  case h_8 p i marked at_ =>
    split at h
    case h_1 =>
      cases h
      exact .soft same
    case h_2 t found =>
      split at h
      case isTrue marks =>
        cases h
        exact .mark p i marked t at_ found marks.1 marks.2 rfl
      case isFalse =>
        cases h
        exact .soft same
  case h_14 p who w nxt at_ =>
    cases h
    exact .soft (soft_clear (soft_refl _) w).fields
  case h_15 =>
    split at h <;> cases h <;> exact .soft same
  case h_16 p who w nxt at_ =>
    cases h
    exact .soft (linking_soft.makeReady (soft_refl _) w).fields
  all_goals
    cases h
    exact .soft same

/-- A call that is no link of its own and does not terminate the caller. -/
theorem ps_call {a : PS.Call T P} (link : ∀ t v, a ≠ .link t v) (alive : a ≠ .terminate)
    (h : PS.call ps c a = some ps') (q : Ptr T) : Soft (ps.sched.mem q) (ps'.sched.mem q) := by
  have same := (soft_refl ps.sched).fields
  cases a with
  | wait p timeout =>
    obtain ⟨-, ⟨⟩⟩ := Option.ite_none_right_eq_some.mp h
    split <;> exact same q
  | terminate => exact absurd rfl alive
  | kill p =>
    cases h
    split <;> exact same q
  | createProcess p cr3 =>
    obtain ⟨-, ⟨⟩⟩ := Option.ite_none_right_eq_some.mp h
    exact same q
  | createThread t user process stackBase stackSize teb =>
    obtain ⟨-, ⟨⟩⟩ := Option.ite_none_right_eq_some.mp h
    exact (linking_soft.write (soft_refl _) ⟨.inr rfl, Sync.ThreadState.noConfusion⟩).fields q
  | schedule =>
    cases h
    exact linking_soft.scheduleInternal (soft_refl _) q
  | block =>
    cases h
    exact (linking_soft.blockCurrentThread (soft_refl _)).fields q
  | makeReady t =>
    obtain ⟨-, ⟨⟩⟩ := Option.ite_none_right_eq_some.mp h
    exact (linking_soft.makeReady (soft_refl _) (.thread t)).fields q
  | sleep ms =>
    cases h
    exact (linking_soft.sleep (soft_refl _) ms).fields q
  | remove t =>
    obtain ⟨-, ⟨⟩⟩ := Option.ite_none_right_eq_some.mp h
    exact (linking_soft.queueRemove (soft_refl _) (.thread t)).fields q
  | setPriority t pri =>
    obtain ⟨-, ⟨⟩⟩ := Option.ite_none_right_eq_some.mp h
    have kept : Soft (ps.sched.mem (.thread t)) { ps.sched.mem (.thread t) with priority := pri } :=
      ⟨.inl rfl, id⟩
    exact (linking_soft.write (soft_refl _) kept).fields q
  | link t v => exact absurd rfl (link t v)

/-- A step of the processes that strikes no thread of a wait list. -/
theorem Inv.struck (inv : Inv sys) (current : sys.sched.current = some (.thread c))
    (idle : sys.pc c = .idle) (spared : Spared sys .go) (h : Struck sys.ps ps' c) :
    Inv { sys with ps := ps' } := by
  have roots : ∀ q, ({ sys with ps := ps' } : System T P H).Root q → Queued sys q := fun _ => .first
  have hit : ∀ t, strikes sys .go = some t → ∀ q, Queued sys q → q ≠ .thread t :=
    fun t hit q queued e => spared t hit (e ▸ queued)
  obtain soft | ⟨p, at_, rfl⟩ | ⟨p, i, marked, t, at_, found, process, alive, marks⟩ := h
  · exact inv.soft roots soft
  · have strikes_ : strikes sys .go = some c := by
      unfold strikes
      rw [current]
      dsimp only
      rw [if_pos idle, at_]
    have linked : ∀ q, q ≠ .thread c →
        ((PS.waitLink sys.ps c p).goto c .waitSchedule).sched.mem q = sys.sched.mem q := fun q e => by
      have blocks : ((PS.waitLink sys.ps c p).goto c .waitSchedule).sched =
          blockCurrentThread (sys.ps.sched.setWaitNext (.thread c) (sys.ps.proc p).exitWaiters) := rfl
      have stays : (sys.ps.sched.setWaitNext (.thread c) (sys.ps.proc p).exitWaiters).current =
          some (.thread c) := current
      rw [blocks, Sched.blockCurrentThread_eq stays]
      exact (State.write_of_ne e _ _).trans (State.write_of_ne e _ _)
    refine inv.apart roots fun q queued => ?_
    have same := linked q (hit c strikes_ q queued)
    exact same ▸ linking_soft.refl _
  · have strikes_ : strikes sys .go = some t := by
      unfold strikes
      rw [current]
      dsimp only
      rw [if_pos idle, at_]
      dsimp only
      rw [found]
      exact Option.filter_some ▸ if_pos (decide_eq_true ⟨process, alive⟩)
    refine inv.apart roots fun q queued => ?_
    have same : ps'.sched.mem q = sys.sched.mem q := by
      rw [marks]
      exact State.write_of_ne (hit t strikes_ q queued) _ _
    exact same ▸ linking_soft.refl _

theorem Inv.psCall {a : PS.Call T P} (inv : Inv sys) (current : sys.sched.current = some (.thread c))
    (spared : Spared sys (.call (.ps a))) (link : ∀ t v, a ≠ .link t v)
    (h : PS.call sys.ps c a = some ps') : Inv { sys with ps := ps' } := by
  have roots : ∀ q, ({ sys with ps := ps' } : System T P H).Root q → Queued sys q := fun _ => .first
  by_cases ends : a = .terminate
  · subst ends
    cases h
    have strikes_ : strikes sys (.call (.ps .terminate)) = some c := by
      unfold strikes
      rw [current]
    refine inv.apart roots fun q queued => ?_
    have other : q ≠ .thread c := fun e => spared c strikes_ (e ▸ queued)
    have same : (sys.sched.setState (.thread c) .terminated).mem q = sys.sched.mem q :=
      State.write_of_ne other _ _
    show Soft _ ((sys.sched.setState (.thread c) .terminated).mem q)
    exact same ▸ linking_soft.refl _
  · exact inv.soft roots (ps_call link ends h)

theorem call_ps {a : PS.Call T P} (link : ∀ t v, a ≠ .link t v) :
    call sys c (.ps a) = (PS.call sys.ps c a).map fun ps => { sys with ps := ps } := by
  cases a with
  | link t v => exact absurd rfl (link t v)
  | _ => rfl

/-! ## Runs -/

theorem Inv.call {a : Call T P H} (inv : Inv sys) (current : sys.sched.current = some (.thread c))
    (spared : Spared sys (.call a)) (h : call sys c a = some sys') : Inv sys' := by
  cases a with
  | ps a =>
    cases a with
    | link t v => cases h
    | _ =>
      rw [call_ps fun _ _ no => by cases no] at h
      obtain ⟨ps', calls, rfl⟩ := Option.map_eq_some_iff.mp h
      exact inv.psCall current spared (fun _ _ no => by cases no) calls
  | waitSemaphore i timeout =>
    cases h
    exact inv.waitSemaphore current i timeout
  | waitMutant i =>
    cases h
    exact inv.waitMutant current i
  | waitEvent i timeout =>
    cases h
    exact inv.eventWait i timeout
  | releaseSemaphore i a2 =>
    cases h
    exact inv.goto fun _ no => by cases no
  | releaseMutant i =>
    cases h
    split
    · exact inv
    · exact inv.goto fun _ no => by cases no
  | setEvent i =>
    cases h
    exact inv.eventSet i
  | resetEvent i =>
    cases h
    refine inv.soft (fun q root => ?_) (soft_refl _).fields
    exact (root_setEvent root).elim .first queued_event

theorem Inv.step {op : Op T P H} (inv : Inv sys) (spared : Spared sys op)
    (h : step sys op = some sys') : Inv sys' := by
  unfold Signals.step at h
  split at h
  case h_2 => cases h
  case h_1 c current =>
    cases op with
    | timer n =>
      dsimp only at h
      split at h
      · cases h
      · obtain ⟨ps', ticks, rfl⟩ := Option.map_eq_some_iff.mp h
        obtain ⟨s, ticked, rfl⟩ := Option.map_eq_some_iff.mp ticks
        exact inv.soft (fun _ => .first) (linking_soft.timer ticked)
    | go =>
      dsimp only at h
      split at h
      case isTrue idle =>
        obtain ⟨ps', goes, rfl⟩ := Option.map_eq_some_iff.mp h
        exact inv.struck current idle spared (ps_proceed goes)
      case isFalse => exact inv.proceed h
    | call a =>
      obtain ⟨-, h⟩ := Option.ite_none_right_eq_some.mp h
      exact inv.call current spared h

/-- What a step hands out goes to a thread of a wait list. -/
theorem gives_queued {op : Op T P H} {o : Obj H} (given : gives sys op = some (o, w)) :
    Queued sys w := by
  unfold gives at given
  split at given
  case h_2 => cases given
  case h_1 c current =>
    split at given
    case h_1 =>
      split at given
      case h_1 at_ =>
        cases given
        exact queued_hands at_ rfl
      case h_2 at_ =>
        cases given
        exact queued_hands at_ rfl
      case h_3 =>
        obtain ⟨-, given⟩ := Option.ite_none_right_eq_some.mp given
        obtain ⟨w, head, e⟩ := Option.map_eq_some_iff.mp given
        cases e
        exact queued_mutant head
      case h_4 => cases given
    case h_2 h =>
      obtain ⟨w, first, e⟩ := Option.map_eq_some_iff.mp given
      cases e
      exact queued_event first
    case h_3 => cases given

theorem Inv.living {op : Op T P H} (inv : Inv sys) : Living sys op := fun _ w given =>
  inv w (gives_queued given)

theorem Inv.start {main : T} (start : Start sys main) : Inv sys := by
  intro q queued
  refine False.elim (Met.closed queued (Q := fun _ => False) (fun q root => ?_) fun _ _ no _ => no)
  obtain ⟨o, first⟩ | ⟨t, hands⟩ := root
  · cases o with
    | semaphore i => exact Option.some_ne_none q (first.symm.trans (congrArg Ends.head (start.sema i)))
    | mutant i => exact Option.some_ne_none q (first.symm.trans (congrArg Ends.head (start.mutant i)))
    | event i => exact Option.some_ne_none q (first.symm.trans (start.event i))
  · rw [start.pc t] at hands
    cases hands

/-- **Units, mutants and signals reach the living** along every run in which no thread of
a wait list is terminated. -/
theorem signals_reach_living {main : T} (start : Start sys main) (ops : List (Op T P H))
    (spared : Along step Spared sys ops) : Along step Living sys ops :=
  along_invariant (fun _ _ _ inv spared h => inv.step spared h)
    (fun _ _ inv _ => inv.living) (Inv.start start) spared

/-! ## Three threads -/

inductive Three
  | main | first | second
  deriving DecidableEq

instance : Fintype Three := ⟨{.main, .first, .second}, fun x => by cases x <;> decide⟩

/-- Right after the boot, with room for two more processes and threads; every object is
free and has no units. -/
def bootSystem : System Three Three Unit where
  ps :=
    { sched :=
        { mem := fun q =>
            match q with
            | .sentinel pri =>
              { (KThread.zero : KThread Three Three) with
                next := some (.sentinel pri)
                prev := some (.sentinel pri) }
            | .thread _ =>
              { (KThread.zero : KThread Three Three) with
                state := .running
                process := some .main }
          cr3 := fun _ => 0x1000
          current := some (.thread .main)
          active := true
          quantum := Sched.QUANTUM_TICKS
          sleepHead := none
          pitTicks := 0
          cpu := ⟨0x1000, 0, 0, 0⟩ }
      proc := fun p => if p = .main then ⟨1, false, none⟩ else PS.KProcess.zero
      pc := fun _ => .idle
      threadReg := []
      procReg := [.main]
      system := .main
      known := fun p => decide (p = .main)
      allocated := {.main}
      threads := {.main}
      waiters := fun _ => [] }
  sema := fun _ => ⟨0, 1, ⟨none, none⟩⟩
  mutant := fun _ => ⟨none, 0, ⟨none, none⟩⟩
  event := fun _ => ⟨false, true, none⟩
  pc := fun _ => .idle

/-- The main thread starts two processes with one thread each. -/
def launch : List (Op Three Three Unit) :=
  [.call (.ps (.createProcess .first 0x2000)),
    .call (.ps (.createThread .first true (some .first) 0x8000 0x4000 0)), .go, .go,
    .call (.ps (.makeReady .first)),
    .call (.ps (.createProcess .second 0x3000)),
    .call (.ps (.createThread .second true (some .second) 0xC000 0x4000 0)), .go, .go,
    .call (.ps (.makeReady .second)), .call (.ps .schedule)]

/-- Both wait for the semaphore, and the first one's process is killed. -/
def killFirst : List (Op Three Three Unit) :=
  launch ++ [.call (.waitSemaphore () 1), .go, .call (.waitSemaphore () 1), .go,
    .call (.ps (.kill .first)), .go, .go, .go, .go, .go, .go, .go]

theorem bootSystem_start : Start bootSystem .main where
  booted :=
    { current := rfl
      running := rfl
      process := rfl
      next := fun q r e => by
        cases q with
        | sentinel pri =>
          cases e
          exact ⟨pri, rfl⟩
        | thread t => cases e
      prev := fun q r e => by
        cases q with
        | sentinel pri =>
          cases e
          exact ⟨pri, rfl⟩
        | thread t => cases e
      sleepNext := fun q => by cases q <;> rfl
      sleepHead := rfl
      system := rfl
      others := fun p other => if_neg other
      pc := fun _ => rfl
      threadReg := rfl
      procReg := rfl
      known := fun p => decide_eq_true_iff
      allocated := rfl
      threads := rfl
      waiters := fun _ => rfl }
  sema _ := rfl
  mutant _ := rfl
  event _ := rfl
  pc _ := rfl

/-- There are no wait lists when a thread is struck. -/
def Deserted (sys : System T P H) (op : Op T P H) : Prop :=
  (strikes sys op).isSome → (∀ h, (sys.sema h).ends.head = none) ∧
    (∀ h, (sys.mutant h).ends.head = none) ∧ (∀ h, (sys.event h).waiters = none) ∧
    ∀ t, (sys.pc t).hands = none

instance [Fintype T] [Fintype H] (sys : System T P H) (op : Op T P H) : Decidable (Deserted sys op) :=
  inferInstanceAs (Decidable (_ → _))

theorem Deserted.spared {op : Op T P H} (h : Deserted sys op) : Spared sys op := by
  intro t hit queued
  obtain ⟨semas, mutants, events, hands⟩ := h (Option.isSome_of_eq_some hit)
  refine Met.closed queued (Q := fun _ => False) (fun q root => ?_) fun _ _ no _ => no
  obtain ⟨o, first⟩ | ⟨u, hand⟩ := root
  · cases o with
    | semaphore h => exact Option.some_ne_none q (first.symm.trans (semas h))
    | mutant h => exact Option.some_ne_none q (first.symm.trans (mutants h))
    | event h => exact Option.some_ne_none q (first.symm.trans (events h))
  · exact Option.some_ne_none q (hand.symm.trans (hands u))

/-- The first thread waits, the second one releases the semaphore and kills the first
one's process. -/
def served : List (Op Three Three Unit) :=
  launch ++ [.call (.waitSemaphore () 1), .go, .call (.releaseSemaphore () 1), .go, .go, .go, .go,
    .go, .go, .go, .go, .go, .go, .go, .call (.ps (.kill .first)), .go, .go, .go]

theorem signals_reach_living_served : Along step Living bootSystem served :=
  signals_reach_living bootSystem_start served
    ((by decide +kernel : Along step Deserted bootSystem served).mono fun _ _ => Deserted.spared)

/-- **A dead thread takes the unit**: the release gives it to the thread of the killed
process, and a live one waits behind it. -/
theorem killed_thread_takes_unit :
    Start bootSystem .main ∧ ∃ sys : System Three Three Unit,
      run step bootSystem (killFirst ++
        [.call (.releaseSemaphore () 1), .go, .go, .go, .go, .go]) = some sys ∧
      gives sys .go = some (.semaphore (), .thread .first) ∧
      (sys.sched.mem (.thread .first)).state = .terminated ∧
      Waits sys (.semaphore ()) (.thread .second) ∧ (sys.sched.mem (.thread .second)).state = .blocked :=
  ⟨bootSystem_start, _, rfl, rfl, rfl, .first rfl, rfl⟩

end MicroNT.Signals
