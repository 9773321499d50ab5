import MicroNT.ReleasePlaces

/-! # Threads that wait for a process (`process.cpp`, `syscall.cpp`)

A thread that ends takes all waiters of its process off the list and then wakes them one by
one. The timer may come in between, but a thread that has ended never goes on after it. -/

set_option linter.unusedSectionVars false

namespace MicroNT.Signals

open Base.Machine Base.Chain
open Sched (Ptr KThread State Asleep Queues)

variable {T P H : Type} [DecidableEq T] [DecidableEq P] [DecidableEq H]
  {sys sys' : System T P H} {fresh : Finset T} {place : Ptr T → Place T P H}
  {ready : Queues T} {asleep : List T} {lists : WaitList T P H → List (Ptr T)} {main c t : T}
  {q w : Ptr T} {x : Place T P H} {o : WaitList T P H} {l : List (Ptr T)} {p : P}

/-- The kernel with another state of the processes. -/
def System.onPs (sys : System T P H) (ps : PS.System T P) : System T P H := { sys with ps := ps }

/-- The current thread goes on to another statement of a call of the processes. -/
theorem Parts.psGoes (h : Parts sys fresh place ready asleep lists)
    (here : Here sys place main c ready) (off : place (.thread c) = .off) {y : PS.Pc T P}
    (takes_ : ∀ w, takes y = some w → place w = .released c)
    (carries_ : carries y = carries (sys.ps.pc c)) (kills_ : kills y = false)
    (ends_ : ends (sys.ps.pc c) = false → ends y = false)
    (taken : ∀ p who first w, y = .exitClear p who first w → (sys.ps.proc p).exitWaiters = w) :
    Placed (sys.onPs (sys.ps.goto c y)) fresh main :=
  ⟨_, _, _, _, c, h.psGoto takes_ carries_ (fun _ => off) kills_,
    here.psGoto (fun _ => .inl off) (fun _ r => ends_ (here.ran r).2) fun _ => taken⟩

/-! ## Waits -/

/-- **A wait for a process.** -/
theorem Parts.waitLink (h : Parts sys fresh place ready asleep lists)
    (here : Here sys place main c ready) (off : place (.thread c) = .off)
    (idle : sys.pc c = .idle) (at_ : sys.ps.pc c = .waitLink p)
    (live : Awake (PS.waitLink sys.ps c p).sched main) :
    Placed (sys.onPs ((PS.waitLink sys.ps c p).goto c .waitSchedule)) fresh main := by
  obtain ⟨still, links, blocked⟩ := park_front sys.sched (sys.ps.proc p).exitWaiters c
  have eq : (PS.waitLink sys.ps c p).sched =
      (sys.sched.setWaitNext (.thread c) (sys.ps.proc p).exitWaiters).setState (.thread c)
        .blocked := Sched.blockCurrentThread_eq here.current
  have sched : (sys.onPs (PS.waitLink sys.ps c p)).sched = _ := eq
  rw [← eq] at still links blocked
  have head : ∀ o, o ≠ .process p → (sys.onPs (PS.waitLink sys.ps c p)).head o = sys.head o := by
    intro o other
    cases o with
    | process p' =>
      have ne : p' ≠ p := fun e => other (e ▸ rfl)
      exact congrArg PS.KProcess.exitWaiters (Function.update_of_ne ne _ _)
    | semaphore i => rfl
    | mutant i => rfl
    | event i => rfl
    | ending u => rfl
  have parts : Parts (sys.onPs (PS.waitLink sys.ps c p)) fresh
      (Function.update place (.thread c) (.waits (.process p))) ready asleep
      (Function.update lists (.process p) (.thread c :: lists (.process p))) := by
    refine h.pushFront off (by simp [at_, ends]) ⟨by simp, by simp⟩ still links ?_ head rfl rfl rfl
      rfl rfl
    show (Function.update sys.ps.proc p _ p).exitWaiters = _
    rw [Function.update_self]
  have pc : (sys.onPs (PS.waitLink sys.ps c p)).ps.pc c = .waitLink p := at_
  have self : Function.update sys.ps.pc c .waitSchedule c = .waitSchedule :=
    Function.update_self _ _ _
  have there : Function.update place (.thread c) (.waits (.process p)) (.thread c) =
      .waits (.process p) := Function.update_self _ _ _
  refine ⟨_, _, _, _, c, parts.psGoto (fun w hw => by cases hw) (by rw [pc]; rfl)
    (fun e => by cases e) rfl, here.park still.current blocked (.inr (.inl ⟨_, there⟩))
    (.inr ⟨idle, self⟩)
    (fun slept => ?_) (fun p' who fst w at_' => ?_) live⟩
  · cases there.symm.trans slept
  · cases self.symm.trans at_'

/-! ## The end of a process -/

/-- **The waiters of the process are taken off its list**, all at once. -/
theorem Parts.exitClear (h : Parts sys fresh place ready asleep lists)
    (here : Here sys place main c ready) (off : place (.thread c) = .off) {first : Bool}
    {w : Option (Ptr T)} (at_ : sys.ps.pc c = .exitClear p .terminate first w) :
    Placed (sys.onPs ((sys.ps.setProc p { sys.ps.proc p with exitWaiters := none }).goto c
      (PS.walk p .terminate w))) fresh main := by
  have whole := here.taken p .terminate first w at_
  have self : Function.update sys.ps.pc c (PS.walk p .terminate w) c = PS.walk p .terminate w :=
    Function.update_self _ _ _
  have other : ∀ u, u ≠ c → Function.update sys.ps.pc c (PS.walk p .terminate w) u = sys.ps.pc u :=
    fun u ne => Function.update_of_ne ne _ _
  have carry : carries (PS.walk p .terminate w) = w := by cases w <;> rfl
  let place' : Ptr T → Place T P H := fun q =>
    if q ∈ lists (.process p) then .waits (.ending c) else place q
  let lists' : WaitList T P H → List (Ptr T) :=
    Function.update (Function.update lists (.process p) []) (.ending c) (lists (.process p))
  have emptied : lists' (.process p) = [] :=
    (Function.update_of_ne (by simp) _ _).trans (Function.update_self _ _ _)
  have taken : lists' (.ending c) = lists (.process p) := Function.update_self _ _ _
  have rest : ∀ o, o ≠ .process p → o ≠ .ending c → lists' o = lists o := fun o op oc =>
    (Function.update_of_ne oc _ _).trans (Function.update_of_ne op _ _)
  have kept : ∀ {q : Ptr T} {x : Place T P H}, place q = x → x ≠ .waits (.process p) →
      place' q = x := fun {q x} at_ ne =>
    (if_neg fun m => ne (at_.symm.trans (h.inList _ q m))).trans at_
  have quiet : ∀ u, takes (Function.update sys.ps.pc c (PS.walk p .terminate w) u) =
      takes (sys.ps.pc u) := fun u => by
    by_cases e : u = c
    · rw [e, self, at_]
      cases w <;> rfl
    · rw [other u e]
  have clears : ends (sys.ps.pc c) = true ∧ kills (PS.walk (T := T) p .terminate w) = false := by
    rw [at_]
    refine ⟨rfl, ?_⟩
    cases w <;> rfl
  refine ⟨place', ready, asleep, lists', c, ⟨h.rings, h.sleeping, h.active, fun o => ?_,
    fun pri t m => kept (h.inReady pri t m) (by simp), fun t m => kept (h.inSleep t m) (by simp),
    fun o q m => ?_, fun u w hw => kept (h.handed u w hw) (by simp), fun u w' hw => ?_,
    fun pri => kept (h.sentinel pri) (by simp), fun i => ?_, fun i => ?_, fun u hu => ?_,
    fun u => ?_, fun u hu => kept (h.new u hu) (by simp), h.made⟩,
    here.stay (kept off (by simp)) rfl rfl (fun no => ?_) (fun p' who fst w' at_' => ?_)
    (fun pri m => ⟨pri, m⟩) here.live⟩
  · show Linked sys.links (System.head (sys.onPs _) o) (lists' o)
    cases o with
    | process p' =>
      by_cases e : p' = p
      · rw [e, emptied]
        exact congrArg (PS.KProcess.exitWaiters (T := T)) (Function.update_self p _ sys.ps.proc)
      · rw [rest _ (by simpa using e) (by simp)]
        show Linked sys.links (Function.update sys.ps.proc p _ p').exitWaiters _
        rw [Function.update_of_ne e]
        exact h.linked (.process p')
    | ending u =>
      show Linked sys.links (carries (Function.update sys.ps.pc c (PS.walk p .terminate w) u)) _
      by_cases e : u = c
      · rw [e, self, carry, taken, ← whole]
        exact h.linked (.process p)
      · rw [other u e, rest _ (by simp) (by simpa using e)]
        exact h.linked (.ending u)
    | semaphore i =>
      rw [rest _ (by simp) (by simp)]
      exact h.linked (.semaphore i)
    | mutant i =>
      rw [rest _ (by simp) (by simp)]
      exact h.linked (.mutant i)
    | event i =>
      rw [rest _ (by simp) (by simp)]
      exact h.linked (.event i)
  · by_cases op : o = .process p
    · rw [op, emptied] at m
      cases m
    · by_cases oc : o = .ending c
      · rw [oc, taken] at m
        rw [oc]
        exact if_pos m
      · rw [rest o op oc] at m
        exact kept (h.inList o q m) (by simpa using op)
  · exact kept (h.released u w' ((quiet u).symm.trans hw)) (by simp)
  · rw [rest _ (by simp) (by simp)]
    exact h.mutantTail i
  · rw [rest _ (by simp) (by simp)]
    exact (h.semaTail i).congr rfl rfl fun z lost => kept lost (by simp)
  · have hu : ends (Function.update sys.ps.pc c (PS.walk p .terminate w) u) = true := hu
    by_cases e : u = c
    · rw [e]
      exact kept off (by simp)
    · rw [other u e] at hu
      exact kept (h.ending u hu) (by simp)
  · show kills (Function.update sys.ps.pc c (PS.walk p .terminate w) u) = false
    by_cases e : u = c
    · rw [e, self]
      exact clears.2
    · rw [other u e]
      exact h.noKill u
  · rw [clears.1] at no
    cases no
  · have at_' : Function.update sys.ps.pc c (PS.walk p .terminate w) c = _ := at_'
    rw [self] at at_'
    cases w <;> cases at_'

/-- **The next waiter is taken in hand.** -/
theorem Parts.wakeNext (h : Parts sys fresh place ready asleep lists)
    (here : Here sys place main c ready) (off : place (.thread c) = .off)
    (at_ : sys.ps.pc c = .wakeNext p .terminate w) :
    Placed (sys.onPs (sys.ps.goto c (.wakeClear p .terminate w (sys.links w)))) fresh main := by
  have head : sys.head (.ending c) = some w := by
    show carries (sys.ps.pc c) = some w
    rw [at_]
    rfl
  obtain ⟨t, l, rfl, listed⟩ := h.first head
  have apart := h.apart off listed
  have waits : place (.thread t) = .waits (.ending c) := h.inList _ _ (listed ▸ List.mem_cons_self)
  let y : PS.Pc T P := .wakeClear p .terminate (.thread t) (sys.links (.thread t))
  have self : Function.update sys.ps.pc c y c = y := Function.update_self _ _ _
  have other : ∀ u, u ≠ c → Function.update sys.ps.pc c y u = sys.ps.pc u :=
    fun u ne => Function.update_of_ne ne _ _
  refine ⟨Function.update place (.thread t) (.released c), _, _,
    Function.update lists (.ending c) l, c, h.pop listed (.refl _) (fun _ _ => rfl) ?_
      (fun o ne => ?_) (fun u w hw => .inl hw) (fun u w hw => ?_) h.mutantTail (fun j => ?_)
      (fun u hu => ?_) (fun u => ?_) rfl,
    here.popped off apart rfl (fun _ _ => rfl) (fun no => ?_) (fun p' who fst w' at_' => ?_)
      (.inr rfl)⟩
  · show carries (Function.update sys.ps.pc c y c) = _
    rw [self]
    rfl
  · cases o with
    | ending u =>
      show carries (Function.update sys.ps.pc c y u) = carries (sys.ps.pc u)
      rw [other u (by simpa using ne)]
    | semaphore i => rfl
    | mutant i => rfl
    | event i => rfl
    | process p' => rfl
  · have hw : takes (Function.update sys.ps.pc c y u) = some w := hw
    by_cases e : u = c
    · rw [e, self] at hw
      exact .inr ⟨(Option.some.inj hw).symm, e ▸ rfl⟩
    · rw [other u e] at hw
      exact .inl hw
  · exact (h.semaTail j).congr rfl rfl fun z lost =>
      kept_place (.inr waits) lost (by simp) (by simp)
  · have hu : ends (Function.update sys.ps.pc c y u) = true := hu
    by_cases e : u = c
    · rw [e, at_]
      rfl
    · rw [other u e] at hu
      exact hu
  · show kills (Function.update sys.ps.pc c y u) = false
    by_cases e : u = c
    · rw [e, self]
      rfl
    · rw [other u e]
      exact h.noKill u
  · rw [at_] at no
    cases no
  · have e : y = .exitClear p' who fst w' := self.symm.trans at_'
    simp [y] at e

/-- What a walk over the waiters leads on to. -/
theorem walk_terminate (p : P) (w : Option (Ptr T)) :
    takes (PS.walk p .terminate w) = none ∧ carries (PS.walk p .terminate w) = w ∧
      kills (PS.walk p .terminate w) = false ∧ ends (PS.walk p .terminate w) = true ∧
      ∀ p' who first w', PS.walk p .terminate w ≠ .exitClear p' who first w' := by
  cases w with
  | none => exact ⟨rfl, rfl, rfl, rfl, by simp [PS.walk]⟩
  | some w => exact ⟨rfl, rfl, rfl, rfl, by simp [PS.walk]⟩

/-- The counts of a process and the records of what exists are no lists. -/
theorem Parts.counts (h : Parts sys fresh place ready asleep lists)
    (here : Here sys place main c ready) (ps : PS.System T P) (sched : ps.sched = sys.ps.sched)
    (pc : ps.pc = sys.ps.pc) (allocated : ps.allocated = sys.ps.allocated)
    (waiters : ∀ p, (ps.proc p).exitWaiters = (sys.ps.proc p).exitWaiters) :
    Parts (sys.onPs ps) fresh place ready asleep lists ∧
      Here (sys.onPs ps) place main c ready := by
  have sched : (sys.onPs ps).sched = sys.sched := sched
  have pc : (sys.onPs ps).ps.pc = sys.ps.pc := pc
  refine ⟨h.unmoved ⟨?_, fun o => ?_, fun _ => rfl, fun _ => rfl, rfl, pc, allocated⟩
    fun _ _ _ => ?_, ⟨?_, ?_, ?_, here.somewhere, ?_, ?_, fun p who fst w at_ => ?_, here.runnable,
      ?_⟩⟩
  · rw [sched]
    exact .refl _
  · cases o with
    | process p => exact waiters p
    | ending u =>
      show carries ((sys.onPs ps).ps.pc u) = _
      rw [pc]
      rfl
    | semaphore i => rfl
    | mutant i => rfl
    | event i => rfl
  · unfold System.links
    rw [sched]
  · rw [sched]
    exact here.current
  · rw [sched, pc]
    exact here.ran
  · rw [sched]
    exact here.awake
  · rw [pc]
    exact here.window
  · rw [sched]
    exact here.first
  · rw [pc] at at_
    exact (waiters p).trans (here.taken p who fst w at_)
  · rw [sched]
    exact here.live

omit [DecidableEq T] in
/-- A process with another count, or one that has exited. -/
theorem setProc_waiters (ps : PS.System T P) {k : PS.KProcess T}
    (same : k.exitWaiters = (ps.proc p).exitWaiters) (p' : P) :
    ((ps.setProc p k).proc p').exitWaiters = (ps.proc p').exitWaiters := by
  show (Function.update ps.proc p k p').exitWaiters = _
  by_cases e : p' = p
  · rw [e, Function.update_self]
    exact same
  · rw [Function.update_of_ne e]

/-- **A waiter is unblocked**, and the walk goes on. -/
theorem Parts.wakePush (h : Parts sys fresh place ready asleep lists)
    (here : Here sys place main c ready) (off : place (.thread c) = .off) {nxt : Option (Ptr T)}
    (at_ : sys.ps.pc c = .wakePush p .terminate w nxt) :
    Placed (sys.onPs (((sys.ps.released p w).with (Sched.makeReady sys.sched w)).goto c
      (PS.walk p .terminate nxt))) fresh main := by
  obtain ⟨takes_, carries_, kills_, ends_, clear⟩ := walk_terminate p nxt
  have handed : place w = .released c := h.released c w (by rw [at_]; rfl)
  obtain ⟨parts, here⟩ := h.counts here (sys.ps.released p w) rfl rfl rfl fun _ => rfl
  have parts := parts.psGoto (u := c) (y := PS.walk p .terminate nxt)
    (fun w hw => by rw [takes_] at hw; cases hw) (carries_.trans (by
      show _ = carries (sys.ps.pc c)
      rw [at_]
      rfl)) (fun _ => off) kills_
  have here := here.psGoto (u := c) (y := PS.walk p .terminate nxt) (fun _ => .inl off)
    (fun _ r => by
      have no : ends (sys.ps.pc c) = false := (here.ran r).2
      rw [at_] at no
      cases no) fun _ p' who fst w' e => absurd e (clear p' who fst w')
  refine parts.wakes here off (.inr handed) fun u => ⟨fun hw => ?_, fun hw => ?_⟩
  · have other := parts.handed u w hw
    rw [handed] at other
    cases other
  · have same := handed.symm.trans (parts.released u w hw)
    obtain rfl := Place.released.inj same
    have hw : takes (Function.update sys.ps.pc c (PS.walk p .terminate nxt) c) = some w := hw
    rw [Function.update_self, takes_] at hw
    cases hw

/-- **The next statement of a call of the processes.** -/
theorem Parts.psProceed (h : Parts sys fresh place ready asleep lists)
    (here : Here sys place main c ready) (idle : sys.pc c = .idle) {ps : PS.System T P}
    (step : PS.proceed sys.ps c = some ps) (live : Awake ps.sched main) :
    Placed (sys.onPs ps) fresh main := by
  unfold PS.proceed at step
  dsimp only at step
  have away : sys.ps.pc c ≠ .waitSchedule → place (.thread c) = .off := fun pc =>
    here.off (by simp [idle]) fun _ => pc
  have spared := h.noKill c
  have spares : ∀ {who : PS.Caller}, decide (who = .kill) = false → who = .terminate :=
    fun {who} no => by
      cases who with
      | terminate => rfl
      | kill => cases no
  cases at_ : sys.ps.pc c with
  | idle =>
    rw [at_] at step
    cases step
  | halted =>
    rw [at_] at step
    cases step
  | waitLink p =>
    rw [at_] at step away
    obtain rfl := Option.some.inj step
    exact h.waitLink here (away (by simp)) idle at_ live
  | waitSchedule =>
    rw [at_] at step
    obtain rfl := Option.some.inj step
    obtain ⟨place', ready', n, parts, next, off, -⟩ := h.scheduleInternal here
    have pc : (sys.with (Sched.scheduleInternal sys.sched)).ps.pc c = .waitSchedule := at_
    exact ⟨_, _, _, _, n, parts.psGoto (fun w hw => by cases hw) (by rw [pc]; rfl)
      (fun e => by cases e) rfl, next.psGoto (fun _ => .inl off) (fun _ _ => rfl)
        fun _ p who fst w e => by cases e⟩
  | termTest p =>
    rw [at_] at step away
    obtain rfl := Option.some.inj step
    refine h.psGoes here (away (by simp)) (fun w hw => ?_) ?_ ?_ (fun no => ?_)
      fun p who fst w e => ?_
    · split at hw <;> cases hw
    · rw [at_]
      split <;> rfl
    · split <;> rfl
    · rw [at_] at no
      cases no
    · split at e <;> cases e
  | termCount p =>
    rw [at_] at step away
    obtain rfl := Option.some.inj step
    obtain ⟨parts, here⟩ := h.counts here (sys.ps.setProc p { sys.ps.proc p with
      threadCount := (sys.ps.proc p).threadCount - 1 }) rfl rfl rfl (setProc_waiters _ rfl)
    have pc : (sys.onPs (sys.ps.setProc p { sys.ps.proc p with
      threadCount := (sys.ps.proc p).threadCount - 1 })).ps.pc c = .termCount p := at_
    refine parts.psGoes here (away (by simp)) (fun w hw => ?_) ?_ ?_ (fun no => ?_)
      fun p who fst w e => ?_
    · split at hw <;> cases hw
    · rw [pc]
      split <;> rfl
    · split <;> rfl
    · rw [pc] at no
      cases no
    · split at e <;> cases e
  | termSchedule =>
    rw [at_] at step away
    obtain rfl := Option.some.inj step
    obtain ⟨place', ready', n, parts, next, off, ran⟩ := h.scheduleInternal here
    have pc : (sys.with (Sched.scheduleInternal sys.sched)).ps.pc c = .termSchedule := at_
    refine ⟨_, _, _, _, n, parts.psGoto (fun w hw => by cases hw) (by rw [pc]; rfl)
      (fun _ => parts.ending c (by rw [pc]; rfl)) rfl, next.psGoto (fun _ => .inl off)
        (fun same _ => ?_) fun _ p who fst w e => by cases e⟩
    have no := (here.ran (ran same.symm)).2
    rw [at_] at no
    cases no
  | killMark p i marked =>
    rw [at_] at spared
    cases spared
  | killCount p marked =>
    rw [at_] at spared
    cases spared
  | exitSet p who =>
    rw [at_] at step away spared
    obtain rfl := Option.some.inj step
    obtain ⟨parts, here⟩ := h.counts here (sys.ps.setProc p { sys.ps.proc p with exited := true })
      rfl rfl rfl (setProc_waiters _ rfl)
    have pc : (sys.onPs (sys.ps.setProc p { sys.ps.proc p with exited := true })).ps.pc c =
      .exitSet p who := at_
    refine parts.psGoes here (away (by simp)) (fun w hw => by cases hw) (by rw [pc]; rfl) spared
      (fun no => ?_) fun p who fst w e => by cases e
    rw [pc] at no
    cases no
  | exitTake p who first =>
    rw [at_] at step away spared
    obtain rfl := Option.some.inj step
    refine h.psGoes here (away (by simp)) (fun w hw => by cases hw) (by rw [at_]; rfl) spared
      (fun no => ?_) fun p who fst w e => ?_
    · rw [at_] at no
      cases no
    · cases e
      rfl
  | exitClear p who first w =>
    rw [at_] at step away spared
    obtain rfl := Option.some.inj step
    obtain rfl := spares spared
    exact h.exitClear here (away (by simp)) at_
  | wakeNext p who w =>
    rw [at_] at step away spared
    obtain rfl := Option.some.inj step
    obtain rfl := spares spared
    exact h.wakeNext here (away (by simp)) at_
  | wakeClear p who w nxt =>
    rw [at_] at step away spared
    obtain rfl := Option.some.inj step
    have released := h.released c w (by rw [at_]; rfl)
    obtain ⟨parts, here⟩ := h.clear here (away (by simp)) (w := w) (by simp [released])
    have pc : (sys.with (sys.sched.setWaitNext w none)).ps.pc c = .wakeClear p who w nxt := at_
    refine parts.psGoes here (away (by simp)) (fun w' hw => ?_) (by rw [pc]; rfl) spared
      (fun no => ?_) fun p who fst w e => by cases e
    · rw [← Option.some.inj hw]
      exact released
    · rw [pc] at no
      cases no
  | wakeTest p who w nxt =>
    rw [at_] at step away spared
    obtain rfl := spares spared
    obtain ⟨takes_, carries_, kills_, ends_, clear⟩ := walk_terminate p nxt
    dsimp only at step
    split at step
    case isTrue =>
      obtain rfl := Option.some.inj step
      obtain ⟨parts, here⟩ := h.counts here (sys.ps.released p w) rfl rfl rfl fun _ => rfl
      have pc : (sys.onPs (sys.ps.released p w)).ps.pc c = .wakeTest p .terminate w nxt := at_
      refine parts.psGoes here (away (by simp)) (fun w hw => ?_) (by rw [pc]; exact carries_) kills_
        (fun no => ?_) fun p' who fst w' e => absurd e (clear p' who fst w')
      · rw [takes_] at hw
        cases hw
      · rw [pc] at no
        cases no
    case isFalse =>
      obtain rfl := Option.some.inj step
      refine h.psGoes here (away (by simp)) (fun w' hw => ?_) (by rw [at_]; rfl) rfl (fun no => ?_)
        fun p who fst w e => by cases e
      · rw [← Option.some.inj hw]
        exact h.released c w (by rw [at_]; rfl)
      · rw [at_] at no
        cases no
  | wakePush p who w nxt =>
    rw [at_] at step away spared
    obtain rfl := Option.some.inj step
    obtain rfl := spares spared
    exact h.wakePush here (away (by simp)) at_
  | newCount t p user =>
    rw [at_] at step away
    obtain rfl := Option.some.inj step
    obtain ⟨parts, here⟩ := h.counts here (sys.ps.counted t p) rfl rfl rfl (setProc_waiters _ rfl)
    have pc : (sys.onPs (sys.ps.counted t p)).ps.pc c = .newCount t p user := at_
    refine parts.psGoes here (away (by simp)) (fun w hw => ?_) ?_ ?_ (fun _ => ?_)
      fun p who fst w e => ?_
    · split at hw <;> cases hw
    · rw [pc]
      split <;> rfl
    · split <;> rfl
    · split <;> rfl
    · split at e <;> cases e
  | newReg t =>
    rw [at_] at step away
    obtain rfl := Option.some.inj step
    obtain ⟨parts, here⟩ := h.counts here { sys.ps with threadReg :=
      if sys.ps.threadReg.length < PS.THREAD_REG_SIZE then sys.ps.threadReg ++ [t]
      else sys.ps.threadReg } rfl rfl rfl fun _ => rfl
    exact parts.psGoes here (away (by simp)) (fun w hw => by cases hw) (by
      show _ = carries (sys.ps.pc c)
      rw [at_]
      rfl) rfl (fun _ => rfl) fun p who fst w e => by cases e

/-! ## Threads that end and threads that begin -/

/-- **`TerminateCurrentThread`** marks the thread. -/
theorem Parts.terminate (h : Parts sys fresh place ready asleep lists)
    (here : Here sys place main c ready) (off : place (.thread c) = .off)
    (psIdle : sys.ps.pc c = .idle) {y : PS.Pc T P} (last : y = .termSchedule ∨ ∃ p, y = .termTest p)
    (live : Awake (sys.sched.setState (.thread c) .terminated) main) :
    Placed (sys.onPs ((sys.ps.with (sys.sched.setState (.thread c) .terminated)).goto c y)) fresh
      main := by
  have still := (Still.refl sys.sched).setState (.thread c) .terminated
  have parts : Parts (sys.with (sys.sched.setState (.thread c) .terminated)) fresh place ready
      asleep lists :=
    h.unmoved ⟨still, fun o => by cases o <;> rfl, fun _ => rfl, fun _ => rfl, rfl, rfl, rfl⟩
      fun _ _ _ => State.setState_waitNext _ _ _ _
  have pc : (sys.with (sys.sched.setState (.thread c) .terminated)).ps.pc c = .idle := psIdle
  have state : ((sys.sched.setState (.thread c) .terminated).mem (.thread c)).state =
      .terminated := State.setState_state _ _ _
  have self : Function.update sys.ps.pc c y c = y := Function.update_self _ _ _
  have shape : takes y = none ∧ carries y = none ∧ kills y = false ∧
      ∀ p who fst w, y ≠ .exitClear p who fst w := by
    obtain rfl | ⟨p, rfl⟩ := last
    · exact ⟨rfl, rfl, rfl, by simp⟩
    · exact ⟨rfl, rfl, rfl, by simp⟩
  obtain ⟨takes_, carries_, kills_, clear⟩ := shape
  refine ⟨_, _, _, _, c, parts.psGoto (fun w hw => ?_) (by rw [pc]; exact carries_) (fun _ => off)
    kills_, here.current, fun r => absurd (state.symm.trans r) (by simp), ?_, .inl off, .inl off,
    fun slept => absurd (off.symm.trans slept) (by simp), fun p who fst w e => ?_, here.runnable,
    live⟩
  · rw [takes_] at hw
    cases hw
  · show ((sys.sched.setState (.thread c) .terminated).mem (.thread c)).state ≠ .ready
    rw [state]
    simp
  · exact absurd (self.symm.trans e) (clear p who fst w)

/-- **The record of a new thread** is written. -/
theorem Parts.createThread (h : Parts sys fresh place ready asleep lists)
    (here : Here sys place main c ready) (off : place (.thread c) = .off)
    (psIdle : sys.ps.pc c = .idle) (unknown : t ∉ sys.ps.allocated) {k : KThread T P}
    (blank : k.next = none ∧ k.prev = none) {user : Bool}
    (live : Awake (sys.sched.write (.thread t) k) main) :
    Placed (sys.onPs (({ sys.ps with
      sched := sys.sched.write (.thread t) k
      allocated := insert t sys.ps.allocated } : PS.System T P).goto c (.newCount t p user)))
      (insert t fresh) main := by
  have new : place (.thread t) = .new := h.new t (.inl unknown)
  obtain ⟨next, prev⟩ := h.rings.free t (h.unqueued (by simp [new]))
  let ps : PS.System T P :=
    { sys.ps with sched := sys.sched.write (.thread t) k, allocated := insert t sys.ps.allocated }
  have parts : Parts (sys.onPs ps) (insert t fresh) place ready asleep lists := by
    refine ⟨h.rings.congr (Sched.links_write (blank.1.trans next.symm) (blank.2.trans prev.symm)),
      ?_, h.active, fun o => ?_, h.inReady, h.inSleep, h.inList, h.handed, h.released, h.sentinel,
      h.mutantTail, fun i => (h.semaTail i).congr rfl rfl fun _ lost => lost, h.ending, h.noKill,
      fun u hu => ?_, fun u hu => ?_⟩
    · unfold Asleep
      show Linked (sys.sched.write (Ptr.thread t) k).sleepNexts _ _
      rw [Sched.sleepNexts_write]
      refine Linked.update h.sleeping fun m => ?_
      obtain ⟨_, m, ⟨⟩⟩ := List.mem_map.mp m
      exact h.awake (by simp [new]) m
    · have head : (sys.onPs ps).head o = sys.head o := by cases o <;> rfl
      rw [head]
      refine (h.linked o).congr fun q m => ?_
      have ne : q ≠ .thread t := fun e => h.unlisted (o := o) (by simp [new]) (e ▸ m)
      exact congrArg KThread.waitNext (State.write_of_ne ne _ _)
    · rcases hu with none | some
      · exact h.new u (.inl fun m => none (Finset.mem_insert_of_mem m))
      · obtain rfl | m := Finset.mem_insert.mp some
        · exact new
        · exact h.new u (.inr m)
    · obtain rfl | m := Finset.mem_insert.mp hu
      · exact Finset.mem_insert_self _ _
      · exact Finset.mem_insert_of_mem (h.made u m)
  have apart : c ≠ t := by
    rintro rfl
    rw [off] at new
    cases new
  have here : Here (sys.onPs ps) place main c ready :=
    here.stay off rfl (congrArg KThread.state (State.write_of_ne (fun e =>
      apart (Ptr.thread.inj e)) _ _)) id here.taken (fun pri m => ⟨pri, m⟩) live
  exact parts.psGoes here off (fun w hw => by cases hw) (by
    show _ = carries (sys.ps.pc c)
    rw [psIdle]
    rfl) rfl (fun _ => rfl) fun p who fst w e => by cases e

/-- **`AddThread`** of a thread that is new. -/
theorem Parts.addThread (h : Parts sys fresh place ready asleep lists)
    (here : Here sys place main c ready) (off : place (.thread c) = .off) (m : t ∈ fresh) :
    Placed (sys.with (Sched.makeReady sys.sched (.thread t))) (fresh.erase t) main := by
  have new : place (.thread t) = .new := h.new t (.inr m)
  have apart : c ≠ t := by
    rintro rfl
    rw [off] at new
    cases new
  refine ⟨_, _, _, _, c, h.makeReady (.inl new) (fun u => ⟨fun hw => ?_, fun hw => ?_⟩) (h.made t m)
    (Finset.notMem_erase t fresh) (fun _ => Finset.mem_of_mem_erase), here.makeReady off apart⟩
  · have handed := h.handed u _ hw
    rw [new] at handed
    cases handed
  · have released := h.released u _ hw
    rw [new] at released
    cases released

/-- A new priority moves no thread. -/
theorem Parts.setPriority (h : Parts sys fresh place ready asleep lists)
    (here : Here sys place main c ready) (off : place (.thread c) = .off) (t : T) (pri : u32) :
    Placed (sys.with (sys.sched.write (.thread t)
      { sys.sched.mem (.thread t) with priority := pri })) fresh main := by
  have state := sys.sched.write_field KThread.state (p := .thread t)
    (k := { sys.sched.mem (.thread t) with priority := pri }) rfl
  refine ⟨_, _, _, _, c, h.unmoved ⟨.write rfl rfl rfl, fun o => by cases o <;> rfl, fun _ => rfl,
    fun _ => rfl, rfl, rfl, rfl⟩ fun o q _ => ?_, here.stay off rfl (state _) id here.taken
      (fun pri m => ⟨pri, m⟩) ?_⟩
  · exact sys.sched.write_field KThread.waitNext (p := .thread t)
      (k := { sys.sched.mem (.thread t) with priority := pri }) rfl q
  · show ((sys.sched.write _ _).mem (.thread main)).state ≠ _ ∧
      ((sys.sched.write _ _).mem (.thread main)).state ≠ _
    rw [state]
    exact here.live

end MicroNT.Signals
