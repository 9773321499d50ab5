import MicroNT.WaitPlaces

/-! # Threads on their way off a list (`syscall.cpp`, `event.cpp`, `scheduler.cpp`)

A release unlinks the first thread of a list and makes it ready some statements later. In
between the thread is in no list, and only the thread that releases leads to it. -/

set_option linter.unusedSectionVars false

namespace MicroNT.Signals

open Base.Machine Base.Chain
open Sched (Ptr KThread State Asleep Queues)

variable {T P H : Type} [DecidableEq T] [DecidableEq P] [DecidableEq H]
  {sys sys' : System T P H} {fresh : Finset T} {place : Ptr T → Place T P H}
  {ready : Queues T} {asleep : List T} {lists : WaitList T P H → List (Ptr T)} {main c t : T}
  {q w : Ptr T} {x : Place T P H} {o : WaitList T P H} {l : List (Ptr T)} {i : H}

/-- **The first thread of a list is unlinked.** -/
theorem Parts.pop (h : Parts sys fresh place ready asleep lists)
    (listed : lists o = .thread t :: l) (still : Still sys.sched sys'.sched)
    (links : ∀ q, q ≠ .thread t → sys'.links q = sys.links q)
    (first : sys'.head o = sys.links (.thread t))
    (head : ∀ o', o' ≠ o → sys'.head o' = sys.head o')
    (handed : ∀ u w, (sys'.pc u).takes = some w →
      (sys.pc u).takes = some w ∨ w = .thread t ∧ x = .handed u)
    (released : ∀ u w, takes (sys'.ps.pc u) = some w →
      takes (sys.ps.pc u) = some w ∨ w = .thread t ∧ x = .released u)
    (mutantTail : ∀ i, (sys'.mutant i).ends.tail =
      (Function.update lists o l (.mutant i)).getLast?)
    (semaTail : ∀ i, Tails sys' (Function.update place (.thread t) x) i
      (Function.update lists o l (.semaphore i)))
    (ending : ∀ u, ends (sys'.ps.pc u) = true → ends (sys.ps.pc u) = true)
    (noKill : ∀ u, kills (sys'.ps.pc u) = false)
    (allocated : sys'.ps.allocated = sys.ps.allocated) :
    Parts sys' fresh (Function.update place (.thread t) x) ready asleep
      (Function.update lists o l) := by
  have linked := h.linked o
  have nodup := linked.nodup
  rw [listed] at linked nodup
  have waits : place (.thread t) = .waits o := h.inList o _ (listed ▸ List.mem_cons_self)
  have once := (List.nodup_cons.mp nodup).1
  refine h.change (.inr waits) still ?_ (fun o' other q m => links q ?_) head (fun q m => .inr ?_)
    (fun u w hw => ?_) (fun u w hw => ?_) mutantTail semaTail (fun u hu => ⟨?_, ending u hu⟩) noKill
    allocated
  · rw [first]
    exact linked.2.congr fun q m => links q fun e => once (e ▸ m)
  · rintro rfl
    exact other (Place.waits.inj ((h.inList o' _ m).symm.trans waits))
  · exact ⟨fun e => once (e ▸ m), listed ▸ List.mem_cons_of_mem _ m⟩
  · obtain old | ⟨rfl, rfl⟩ := handed u w hw
    · exact kept_place (.inr waits) (h.handed u w old) (by simp) (by simp)
    · exact Function.update_self _ _ _
  · obtain old | ⟨rfl, rfl⟩ := released u w hw
    · exact kept_place (.inr waits) (h.released u w old) (by simp) (by simp)
    · exact Function.update_self _ _ _
  · rintro rfl
    have off := h.ending u (ending u hu)
    rw [waits] at off
    cases off

/-- The list of an object with a first thread. -/
theorem Parts.first (h : Parts sys fresh place ready asleep lists) (head : sys.head o = some w) :
    ∃ t l, w = .thread t ∧ lists o = .thread t :: l := by
  have linked := h.linked o
  rw [head] at linked
  obtain ⟨l, listed, -⟩ := linked.eq_cons
  have waits := h.inList o w (listed ▸ List.mem_cons_self)
  obtain ⟨t, rfl⟩ := h.thread (q := w) (by simp [waits])
  exact ⟨t, l, rfl, listed⟩

/-- A thread that the current one has taken off a list is another one. -/
theorem Parts.apart (h : Parts sys fresh place ready asleep lists)
    (off : place (.thread c) = .off) (listed : lists o = .thread t :: l) : t ≠ c := by
  rintro rfl
  have waits := h.inList o _ (listed ▸ List.mem_cons_self)
  rw [off] at waits
  cases waits

/-! ## The thread is made ready -/

/-- Another thread becomes ready, and the current one goes on. -/
theorem Here.makeReady (here : Here sys place main c ready) (off : place (.thread c) = .off)
    (other : c ≠ t) :
    Here (sys.with (Sched.makeReady sys.sched (.thread t)))
      (Function.update place (.thread t) .ready) main c (ready.push sys.sched.level t) := by
  have states : ∀ a, a ≠ t → ((Sched.makeReady sys.sched (.thread t)).mem (.thread a)).state =
      (sys.sched.mem (.thread a)).state := fun a ne => by
    unfold Sched.makeReady
    rw [(Sched.requeued_queuePushBack _ _).state,
      State.setState_state_of_ne fun e => ne (Ptr.thread.inj e)]
  refine here.stay ?_ ?_ (states c other) id here.taken
    (fun pri m => ⟨pri, Queues.mem_push.mpr (.inl m)⟩) ?_
  · rw [Function.update_of_ne fun e => other (Ptr.thread.inj e)]
    exact off
  · exact (Sched.requeued_queuePushBack _ _).current
  · show ((Sched.makeReady sys.sched (.thread t)).mem (.thread main)).state ≠ _ ∧
      ((Sched.makeReady sys.sched (.thread t)).mem (.thread main)).state ≠ _
    by_cases e : main = t
    · subst e
      have now :
          ((Sched.makeReady sys.sched (.thread main)).mem (.thread main)).state = .ready := by
        unfold Sched.makeReady
        rw [(Sched.requeued_queuePushBack _ _).state, State.setState_state]
      rw [now]
      simp
    · rw [states main e]
      exact here.live

/-- **A thread that the current one has taken off a list becomes ready.** -/
theorem Parts.wakes (h : Parts sys fresh place ready asleep lists)
    (here : Here sys place main c ready) (off : place (.thread c) = .off)
    (was : place w = .handed c ∨ place w = .released c)
    (free : ∀ u, (sys.pc u).takes ≠ some w ∧ takes (sys.ps.pc u) ≠ some w) :
    Placed (sys.with (Sched.makeReady sys.sched w)) fresh main := by
  obtain ⟨t, rfl⟩ := h.thread (q := w) (by rcases was with e | e <;> simp [e])
  have known : t ∈ sys.ps.allocated ∧ t ∉ fresh := by
    have old := mt (h.new t) (by rcases was with e | e <;> simp [e])
    rw [not_or, Classical.not_not] at old
    exact old
  have other : c ≠ t := by
    rintro rfl
    rw [off] at was
    rcases was with e | e <;> cases e
  exact ⟨_, _, _, _, c, h.makeReady (.inr (was.imp (fun e => ⟨c, e⟩) fun e => ⟨c, e⟩)) free known.1
    known.2 fun _ m => m, here.makeReady off other⟩

/-! ## Mutants and events -/

/-- The current thread is told apart from one that it has taken off a list. -/
theorem Here.popped (here : Here sys place main c ready) (off : place (.thread c) = .off)
    (apart : t ≠ c) (current : sys'.sched.current = sys.sched.current)
    (state : ∀ a, a ≠ t → (sys'.sched.mem (.thread a)).state = (sys.sched.mem (.thread a)).state)
    (quiet : ends (sys.ps.pc c) = false → ends (sys'.ps.pc c) = false)
    (taken : ∀ p who first w, sys'.ps.pc c = .exitClear p who first w →
      (sys'.ps.proc p).exitWaiters = w)
    (alive : (sys'.sched.mem (.thread t)).state = .ready ∨
      (sys'.sched.mem (.thread t)).state = (sys.sched.mem (.thread t)).state) :
    Here sys' (Function.update place (.thread t) x) main c ready := by
  refine here.stay ?_ current (state c apart.symm) quiet taken (fun pri m => ⟨pri, m⟩) ?_
  · rw [Function.update_of_ne fun e => apart (Ptr.thread.inj e).symm]
    exact off
  · by_cases e : main = t
    · subst e
      unfold Awake
      obtain new | old := alive
      · rw [new]
        simp
      · rw [old]
        exact here.live
    · unfold Awake
      rw [state main e]
      exact here.live

omit [DecidableEq P] [DecidableEq H] in
theorem links_clear (s : State T P) (w : Ptr T) (ne : q ≠ w) :
    ((s.setWaitNext w none).mem q).waitNext = (s.mem q).waitNext := by
  rw [State.setWaitNext_waitNext, Function.update_of_ne ne]

/-- **`NtReleaseMutant`** hands the mutant on. -/
theorem Parts.releaseMutant (h : Parts sys fresh place ready asleep lists)
    (here : Here sys place main c ready) (off : place (.thread c) = .off)
    (i : H) : Placed (Signals.releaseMutant sys i) fresh main := by
  unfold Signals.releaseMutant
  dsimp only
  split
  case isFalse => exact h.unchanged here off (unmoved_setMutant rfl) rfl fun _ => rfl
  case isTrue =>
    split
    case h_2 => exact h.unchanged here off (unmoved_setMutant rfl) rfl fun _ => rfl
    case h_1 w head =>
      obtain ⟨t, l, rfl, listed⟩ := h.first (o := .mutant i) head
      have apart := h.apart off listed
      have waits : place (.thread t) = .waits (.mutant i) :=
        h.inList _ _ (listed ▸ List.mem_cons_self)
      have queue := h.queue i
      rw [listed] at queue
      -- the thread is off the list, and nobody is going to unblock it
      let v : Sync.KMutant (Ptr T) := ⟨some (.thread t), 1, (dequeue sys.links (sys.mutant i).ends
        (.thread t)).2⟩
      let s := sys.sched.setWaitNext (.thread t) none
      have parts : Parts ((sys.with s).setMutant i v) fresh
          (Function.update place (.thread t) (.handed c)) ready asleep
          (Function.update lists (.mutant i) l) := by
        refine h.pop listed ((Still.refl _).setWaitNext _ _) (fun q ne => links_clear _ _ ne) ?_
          (fun o other => head_setMutant fun e => absurd e other) (fun u w hw => .inl hw)
          (fun u w hw => .inl hw) (h.mutantTails queue.dequeue.tail) (fun j => ?_) (fun u hu => hu)
          h.noKill rfl
        · show (Function.update sys.mutant i v i).ends.head = _
          rw [Function.update_self]
          rfl
        · exact (h.semaTail j).congr rfl rfl fun z lost =>
            kept_place (.inr waits) lost (by simp) (by simp)
      have here' : Here ((sys.with s).setMutant i v)
          (Function.update place (.thread t) (.handed c)) main c ready :=
        here.popped off apart rfl (fun a _ => State.setWaitNext_state _ _ _ _) id here.taken
          (.inr (State.setWaitNext_state _ _ _ _))
      show Placed ((sys.with (unblockThread s (.thread t))).setMutant i v) fresh main
      unfold unblockThread
      split
      case isTrue => exact ⟨_, _, _, _, c, parts, here'⟩
      case isFalse =>
        refine parts.wakes here' ?_ (.inl (Function.update_self _ _ _)) fun u => ⟨fun e => ?_,
          fun e => ?_⟩
        · rw [Function.update_of_ne fun e => apart (Ptr.thread.inj e).symm]
          exact off
        · have handed := h.handed u _ e
          rw [waits] at handed
          cases handed
        · have released := h.released u _ e
          rw [waits] at released
          cases released

/-- **`EventSet`**, up to its call of `UnblockThread`. -/
theorem Parts.eventSet (h : Parts sys fresh place ready asleep lists)
    (here : Here sys place main c ready) (idle : sys.pc c = .idle) (off : place (.thread c) = .off)
    (i : H) : Placed (Signals.eventSet sys c i) fresh main := by
  unfold Signals.eventSet
  dsimp only
  split
  case h_2 => exact h.unchanged here off (unmoved_setEvent rfl) rfl fun _ => rfl
  case h_1 w head =>
    obtain ⟨t, l, rfl, listed⟩ := h.first (o := .event i) head
    have apart := h.apart off listed
    have waits : place (.thread t) = .waits (.event i) :=
      h.inList _ _ (listed ▸ List.mem_cons_self)
    let s := (sys.sched.setWaitNext (.thread t) none).setState (.thread t) .ready
    have popped : ∀ v : Sync.KEvent (Ptr T), v.waiters = sys.links (.thread t) →
        Placed (((sys.with s).setEvent i v).goto c (.eventUnblock i (.thread t))) fresh main := by
      intro v next
      have parts : Parts ((sys.with s).setEvent i v) fresh
          (Function.update place (.thread t) (.handed c)) ready asleep
          (Function.update lists (.event i) l) := by
        refine h.pop listed (((Still.refl _).setWaitNext _ _).setState _ _)
          (fun q ne => (State.setState_waitNext _ _ _ _).trans (links_clear _ _ ne)) ?_
          (fun o other => head_setEvent fun e => absurd e other) (fun u w hw => .inl hw)
          (fun u w hw => .inl hw) h.mutantTail (fun j => ?_) (fun u hu => hu) h.noKill rfl
        · show (Function.update sys.event i v i).waiters = _
          rw [Function.update_self]
          exact next
        · exact (h.semaTail j).congr rfl rfl fun z lost =>
            kept_place (.inr waits) lost (by simp) (by simp)
      have here' : Here ((sys.with s).setEvent i v)
          (Function.update place (.thread t) (.handed c)) main c ready :=
        here.popped off apart rfl (fun a ne => (State.setState_state_of_ne
          (fun e => ne (Ptr.thread.inj e)) _ _).trans (State.setWaitNext_state _ _ _ _)) id
          here.taken (.inl (State.setState_state _ _ _))
      refine ⟨_, _, _, _, c, parts.goto (fun w hw => ?_) fun j rel off z at_ => ?_,
        here'.goto fun _ => .inl ?_⟩
      · obtain rfl := Option.some.inj hw
        exact Function.update_self _ _ _
      · have at_ : sys.pc c = _ := at_
        rw [idle] at at_
        cases at_
      · rw [Function.update_of_ne fun e => apart (Ptr.thread.inj e).symm]
        exact off
    split
    · exact popped _ rfl
    · exact popped _ rfl

/-! ## Semaphores -/

/-- The current thread goes on to another statement of its release. -/
theorem Parts.goes (h : Parts sys fresh place ready asleep lists)
    (here : Here sys place main c ready) (off : place (.thread c) = .off) {y : Pc T H}
    (takes : ∀ w, y.takes = some w → place w = .handed c)
    (last : ∀ i rel off z, sys.pc c = .semaLast i rel off z →
      (sys.sema i).ends.tail = some z → lists (.semaphore i) ≠ []) :
    Placed (sys.goto c y) fresh main :=
  ⟨_, _, _, _, c, h.goto takes last, here.goto fun _ => .inl off⟩

/-- **The first thread of a semaphore is unlinked.** -/
theorem Parts.semaUnlink (h : Parts sys fresh place ready asleep lists)
    (here : Here sys place main c ready) (off : place (.thread c) = .off) {rel : Nat} {b : Bool}
    (at_ : sys.pc c = .semaUnlink i rel b w) (head : (sys.sema i).ends.head = some w) :
    Placed ((sys.setSema i { sys.sema i with
      ends := { (sys.sema i).ends with head := sys.links w } }).goto c (.semaLast i rel b w))
      fresh main := by
  obtain ⟨t, l, rfl, listed⟩ := h.first (o := .semaphore i) head
  have apart := h.apart off listed
  have waits : place (.thread t) = .waits (.semaphore i) :=
    h.inList _ _ (listed ▸ List.mem_cons_self)
  let v : Sync.KSema (Ptr T) := { sys.sema i with
    ends := { (sys.sema i).ends with head := sys.links (.thread t) } }
  have tails : ∀ j, ((Function.update sys.sema i v) j).ends.tail = (sys.sema j).ends.tail :=
    fun j => by
      by_cases e : j = i
      · rw [e, Function.update_self]
      · rw [Function.update_of_ne e]
  have self : ((sys.setSema i v).goto c (.semaLast i rel b (.thread t))).pc c =
      .semaLast i rel b (.thread t) := Function.update_self _ _ _
  have old : ∀ u, u ≠ c → ((sys.setSema i v).goto c (.semaLast i rel b (.thread t))).pc u =
      sys.pc u := fun u ne => Function.update_of_ne ne _ _
  refine ⟨Function.update place (.thread t) (.handed c), _, _,
    Function.update lists (.semaphore i) l, c, h.pop listed (.refl _) (fun q _ => rfl) ?_
      (fun o other => head_setSema fun e => absurd e other) (fun u w hw => ?_)
      (fun u w hw => .inl hw) h.mutantTail (fun j => ?_) (fun u hu => hu) h.noKill rfl,
    here.popped off apart rfl (fun _ _ => rfl) id here.taken (.inr rfl)⟩
  · show (Function.update sys.sema i v i).ends.head = _
    rw [Function.update_self]
  · by_cases e : u = c
    · subst e
      rw [self] at hw
      exact .inr ⟨(Option.some.inj hw).symm, rfl⟩
    · rw [old u e] at hw
      exact .inl hw
  · obtain ⟨none, some⟩ := h.semaTail j
    by_cases e : j = i
    · subst e
      rw [Function.update_self]
      rw [listed] at none some
      refine ⟨fun none' => absurd (none ((tails j).symm.trans none')) (by simp), fun z last => ?_⟩
      obtain last | ⟨empty, -⟩ := some z ((tails j).symm.trans last)
      · cases l with
        | nil =>
          obtain rfl := Option.some.inj last
          exact .inr ⟨rfl, .inr ⟨c, rel, b, self⟩⟩
        | cons a l => exact .inl last
      · cases empty
    · rw [Function.update_of_ne fun e' => e (WaitList.semaphore.inj e')]
      refine ⟨fun none' => none ((tails j).symm.trans none'), fun z last => ?_⟩
      refine (some z ((tails j).symm.trans last)).imp_right fun ⟨empty, away⟩ => ⟨empty, ?_⟩
      refine away.imp (fun lost => kept_place (.inr waits) lost (by simp) (by simp)) ?_
      rintro ⟨u, rel', b', at_'⟩
      have ne : u ≠ c := fun e => by
        rw [e, at_] at at_'
        cases at_'
      exact ⟨u, rel', b', (old u ne).trans at_'⟩

/-- **The semaphore forgets its last thread** when its list has become empty. -/
theorem Parts.semaLast (h : Parts sys fresh place ready asleep lists)
    (here : Here sys place main c ready) (off : place (.thread c) = .off) {rel : Nat} {b : Bool}
    (at_ : sys.pc c = .semaLast i rel b w) :
    Placed ((sys.setSema i { sys.sema i with ends := { (sys.sema i).ends with
      tail := if (sys.sema i).ends.head = none then none else (sys.sema i).ends.tail } }).goto c
        (.semaClear i rel b w)) fresh main := by
  let v : Sync.KSema (Ptr T) := { sys.sema i with ends := { (sys.sema i).ends with
    tail := if (sys.sema i).ends.head = none then none else (sys.sema i).ends.tail } }
  have linked := h.linked (.semaphore i)
  have full : (sys.sema i).ends.head ≠ none → lists (.semaphore i) ≠ [] := fun some empty => by
    rw [empty] at linked
    exact some linked
  have self : ((sys.setSema i v).sema i).ends.tail =
      if (sys.sema i).ends.head = none then none else (sys.sema i).ends.tail :=
    congrArg (fun v => v.ends.tail) (Function.update_self i v sys.sema)
  have parts : Parts (sys.setSema i v) fresh place ready asleep lists := by
    refine ⟨h.rings, h.sleeping, h.active, fun o => ?_, h.inReady, h.inSleep, h.inList, h.handed,
      h.released, h.sentinel, h.mutantTail, fun j => ?_, h.ending, h.noKill, h.new, h.made⟩
    · have head : (sys.setSema i v).head o = sys.head o := head_setSema fun _ => rfl
      rw [head]
      exact h.linked o
    · by_cases e : j = i
      · subst e
        rw [← show j = j from rfl] at self
        by_cases none : (sys.sema j).ends.head = .none
        · rw [if_pos none] at self
          refine ⟨fun _ => ?_, fun z last => absurd (self.symm.trans last) (by simp)⟩
          have linked : Linked sys.links (sys.sema j).ends.head _ := linked
          rw [none] at linked
          exact linked.eq_nil
        · rw [if_neg none] at self
          exact (h.semaTail j).congr self rfl fun _ lost => lost
      · exact (h.semaTail j).congr
          (congrArg (fun v => v.ends.tail) (Function.update_of_ne e v sys.sema)) rfl
          fun _ lost => lost
  have here' : Here (sys.setSema i v) place main c ready :=
    here.stay off rfl rfl id here.taken (fun pri m => ⟨pri, m⟩) here.live
  refine parts.goes here' off (fun w' hw => h.handed c w' ?_) fun j rel' b' z at_' tail => ?_
  · rw [at_]
    exact hw
  · have at_' : sys.pc c = _ := at_'
    rw [at_] at at_'
    cases at_'
    rw [self] at tail
    split at tail
    case isTrue => cases tail
    case isFalse some => exact full some

/-! ## The next statement -/

/-- A thread that the current one has off a list is in none. -/
theorem Parts.clear (h : Parts sys fresh place ready asleep lists)
    (here : Here sys place main c ready) (off : place (.thread c) = .off)
    (gone : ∀ o, place w ≠ .waits o) :
    Parts (sys.with (sys.sched.setWaitNext w none)) fresh place ready asleep lists ∧
      Here (sys.with (sys.sched.setWaitNext w none)) place main c ready := by
  refine ⟨h.unmoved ⟨(Still.refl _).setWaitNext _ _, fun o => by cases o <;> rfl, fun _ => rfl,
    fun _ => rfl, rfl, rfl, rfl⟩ fun o q m => links_clear _ _ ?_, here.stay off rfl ?_ id here.taken
    (fun pri m => ⟨pri, m⟩) ?_⟩
  · rintro rfl
    exact gone o (h.inList o _ m)
  · exact State.setWaitNext_state _ _ _ _
  · unfold Awake
    show ((sys.sched.setWaitNext w none).mem (.thread main)).state ≠ _ ∧
      ((sys.sched.setWaitNext w none).mem (.thread main)).state ≠ _
    rw [State.setWaitNext_state]
    exact here.live

/-- The current thread unblocks the thread that it has in hand, and goes on. -/
theorem Parts.pushes (h : Parts sys fresh place ready asleep lists)
    (here : Here sys place main c ready) (off : place (.thread c) = .off) {y : Pc T H}
    (has : (sys.pc c).takes = some w) (last : ∀ i rel b z, sys.pc c ≠ .semaLast i rel b z)
    (empty : y.takes = none) :
    Placed ((sys.with (Sched.makeReady sys.sched w)).goto c y) fresh main := by
  have handed := h.handed c w has
  have self : (sys.goto c y).pc c = y := Function.update_self _ _ _
  have parts : Parts (sys.goto c y) fresh place ready asleep lists :=
    h.goto (fun w hw => by rw [empty] at hw; cases hw) fun i rel b z at_ =>
      absurd at_ (last i rel b z)
  refine parts.wakes (here.goto fun _ => .inl off) off (.inl handed) fun u => ⟨fun hw => ?_,
    fun hw => ?_⟩
  · have same := handed.symm.trans (parts.handed u w hw)
    obtain rfl := Place.handed.inj same
    rw [self, empty] at hw
    cases hw
  · have released := parts.released u w hw
    rw [handed] at released
    cases released

theorem releaseMutant_goto (sys : System T P H) (i : H) (c : T) (y : Pc T H) :
    (releaseMutant sys i).goto c y = releaseMutant (sys.goto c y) i := by
  unfold releaseMutant
  dsimp only [System.goto, System.sched]
  split
  · split
    · rfl
    · rfl
  · rfl

/-- **The next statement of a wait or a release.** -/
theorem Parts.proceed (h : Parts sys fresh place ready asleep lists)
    (here : Here sys place main c ready)
    (unlinks : ∀ i rel b w, sys.pc c = .semaUnlink i rel b w → (sys.sema i).ends.head = some w)
    (step : proceed sys c = some sys') : Placed sys' fresh main := by
  unfold Signals.proceed at step
  dsimp only at step
  have away : sys.pc c ≠ .schedule → sys.pc c ≠ .idle → place (.thread c) = .off :=
    fun pc busy => here.off pc fun idle => absurd idle busy
  cases at_ : sys.pc c with
  | idle =>
    rw [at_] at step
    cases step
  | schedule =>
    rw [at_] at step
    obtain rfl := Option.some.inj step
    obtain ⟨place', ready', n, parts, next, off, -⟩ := h.scheduleInternal here
    refine ⟨_, _, _, _, n, parts.goto (fun w hw => by cases hw) fun i rel b z at_' => ?_,
      next.goto fun _ => .inl off⟩
    cases at_.symm.trans at_'
  | semaTest i rel b =>
    rw [at_] at step away
    obtain rfl := Option.some.inj step
    refine h.goes here (away (by simp) (by simp)) (fun w hw => ?_) fun i rel b z at_' => ?_
    · split at hw <;> cases hw
    · cases at_.symm.trans at_'
  | semaTake i rel b =>
    rw [at_] at step away
    obtain ⟨w, -, rfl⟩ := Option.map_eq_some_iff.mp step
    refine h.goes here (away (by simp) (by simp)) (fun w hw => by cases hw) fun i rel b z at_' => ?_
    cases at_.symm.trans at_'
  | semaUnlink i rel b w =>
    rw [at_] at step away
    obtain rfl := Option.some.inj step
    exact h.semaUnlink here (away (by simp) (by simp)) at_ (unlinks i rel b w at_)
  | semaLast i rel b w =>
    rw [at_] at step away
    obtain rfl := Option.some.inj step
    exact h.semaLast here (away (by simp) (by simp)) at_
  | semaClear i rel b w =>
    rw [at_] at step away
    obtain rfl := Option.some.inj step
    have handed := h.handed c w (by rw [at_]; rfl)
    obtain ⟨parts, here'⟩ := h.clear here (away (by simp) (by simp)) (w := w) (by simp [handed])
    refine parts.goes here' (away (by simp) (by simp)) (fun w' hw => ?_) fun i rel b z at_' => ?_
    · rw [← Option.some.inj hw]
      exact handed
    · cases at_.symm.trans at_'
  | semaUnblock i rel b w =>
    rw [at_] at step away
    obtain rfl := Option.some.inj step
    have handed := h.handed c w (by rw [at_]; rfl)
    refine h.goes here (away (by simp) (by simp)) (fun w' hw => ?_) fun i rel b z at_' => ?_
    · split at hw
      · cases hw
      · rw [← Option.some.inj hw]
        exact handed
    · cases at_.symm.trans at_'
  | semaPush i rel b w =>
    rw [at_] at step away
    obtain rfl := Option.some.inj step
    exact h.pushes here (away (by simp) (by simp)) (by rw [at_]; rfl) (by simp [at_]) rfl
  | semaCompare i rel b =>
    rw [at_] at step away
    obtain rfl := Option.some.inj step
    refine h.goes here (away (by simp) (by simp)) (fun w hw => ?_) fun i rel b z at_' => ?_
    · split at hw <;> cases hw
    · cases at_.symm.trans at_'
  | semaLoad i rel b =>
    rw [at_] at step away
    obtain rfl := Option.some.inj step
    refine h.goes here (away (by simp) (by simp)) (fun w hw => by cases hw) fun i rel b z at_' => ?_
    cases at_.symm.trans at_'
  | semaStore i v b =>
    rw [at_] at step away
    obtain rfl := Option.some.inj step
    have parts := h.goto (u := c) (y := .idle) (fun w hw => by cases hw) fun i rel b z at_' => by
      cases at_.symm.trans at_'
    have off := away (by simp) (by simp)
    exact parts.unchanged (here.goto fun _ => .inl off) off (unmoved_setSema rfl) rfl fun _ => rfl
  | mutantRelease i =>
    rw [at_] at step away
    obtain rfl := Option.some.inj step
    rw [releaseMutant_goto]
    have parts := h.goto (u := c) (y := .idle) (fun w hw => by cases hw) fun i rel b z at_' => by
      cases at_.symm.trans at_'
    have off := away (by simp) (by simp)
    exact parts.releaseMutant (here.goto fun _ => .inl off) off i
  | eventUnblock i w =>
    rw [at_] at step away
    obtain rfl := Option.some.inj step
    have handed := h.handed c w (by rw [at_]; rfl)
    refine h.goes here (away (by simp) (by simp)) (fun w' hw => ?_) fun i rel b z at_' => ?_
    · split at hw
      · cases hw
      · rw [← Option.some.inj hw]
        exact handed
    · cases at_.symm.trans at_'
  | eventPush i w =>
    rw [at_] at step away
    obtain rfl := Option.some.inj step
    exact h.pushes here (away (by simp) (by simp)) (by rw [at_]; rfl) (by simp [at_]) rfl

end MicroNT.Signals
