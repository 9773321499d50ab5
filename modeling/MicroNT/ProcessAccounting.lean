import MicroNT.ProcessLedger
import MicroNT.ProcessWaiters

/-! # Counting the threads of a process (`process.cpp`)

While no thread of a process is current, `thread_count` is the number of its threads that
are not TERMINATED, and a process whose threads are all TERMINATED has exited and left
nobody waiting. -/

set_option linter.unusedSectionVars false

namespace MicroNT.PS

open Base.Machine Base.Chain Base.Tally
open Sched (Ptr KThread State Relinked Closed)

variable {T P : Type}

section

variable [DecidableEq T] [DecidableEq P]

/-- The process has exited, and nobody waits for it any more. -/
structure Gone (sys : System T P) (p : P) : Prop where
  exited : (sys.proc p).exited = true
  exitWaiters : (sys.proc p).exitWaiters = none
  released : sys.waiters p = []

/-- The count is right, and the process is gone if all its threads are TERMINATED. -/
structure Balanced (sys : System T P) (p : P) : Prop where
  count : (sys.proc p).threadCount.toNat = sys.live p
  gone : (∃ t ∈ sys.threads, sys.Of t p) →
    (∀ t ∈ sys.threads, sys.Of t p → (sys.sched.mem (.thread t)).state = .terminated) → Gone sys p

/-- The accounting of one process, while none of its threads is current. -/
def Accounted (sys : System T P) (p : P) : Prop :=
  (∀ t, sys.sched.current = some (.thread t) → ¬ sys.Of t p) → Balanced sys p

variable {sys sys' : System T P} {c : T} {p : P} {x y : Pc T P} {s : State T P}

/-! ## Threads that exist -/

/-- A sentinel, or a thread that its process has counted. -/
def Counted (sys : System T P) (q : Ptr T) : Prop := ∀ t, q = .thread t → t ∈ sys.threads

/-- Pointers lead to threads, and a thread waits for one process at most. -/
structure Pool (sys : System T P) : Prop where
  closed : Closed (Counted sys) sys.sched
  room : sys.allocated.card ≤ HEAP_SIZE
  threads : sys.threads ⊆ sys.allocated
  fresh : ∀ c t p user, sys.pc c = .newCount t p user →
    t ∈ sys.allocated ∧ t ∉ sys.threads ∧ sys.Of t p ∧
      (sys.sched.mem (.thread t)).state ≠ .terminated
  alone : ∀ c d t p q user user', sys.pc c = .newCount t p user →
    sys.pc d = .newCount t q user' → c = d
  registered : ∀ t ∈ sys.threadReg, t ∈ sys.threads
  registering : ∀ c t, sys.pc c = .newReg t → t ∈ sys.threads
  waiters : ∀ p, ∀ q ∈ sys.waiters p, Counted sys q
  apart : ∀ p q a, a ∈ sys.waiters p → a ∈ sys.waiters q → p = q

/-- A step that creates nothing. -/
theorem Pool.move (h : Pool sys) (closed : Closed (Counted sys) sys'.sched)
    (allocated : sys'.allocated = sys.allocated) (threads : sys'.threads = sys.threads)
    (threadReg : sys'.threadReg = sys.threadReg)
    (fields : ∀ t, t ∉ sys.threads →
      Quietly (sys.sched.mem (.thread t)) (sys'.sched.mem (.thread t)))
    (waiters : ∀ p, ∀ q ∈ sys'.waiters p, q ∈ sys.waiters p)
    (pc : ∀ d, sys'.pc d = sys.pc d ∨ (sys'.pc d).building = none) : Pool sys' := by
  have counted : Counted sys' = Counted sys := by
    unfold Counted
    rw [threads]
  have new : ∀ d t, (sys'.pc d).building = some t → sys'.pc d = sys.pc d := fun d t building =>
    (pc d).resolve_right fun no => Option.some_ne_none t (building.symm.trans no)
  refine ⟨counted ▸ closed, allocated ▸ h.room, ?_, fun c t p user at_ => ?_,
    fun c d t p q user user' hc hd => ?_, ?_, fun c t at_ => ?_, fun p q hq => ?_,
    fun p q a hp hq => h.apart p q a (waiters p a hp) (waiters q a hq)⟩
  · rw [threads, allocated]
    exact h.threads
  · have old := new c t (at_ ▸ rfl)
    obtain ⟨known, apart, of, alive⟩ := h.fresh c t p user (old ▸ at_)
    have same := fields t apart
    refine ⟨allocated ▸ known, threads ▸ apart, same.1.trans of, fun dead => alive (same.2.2 dead)⟩
  · exact h.alone c d t p q user user' (new c t (hc ▸ rfl) ▸ hc) (new d t (hd ▸ rfl) ▸ hd)
  · rw [threadReg, threads]
    exact h.registered
  · rw [threads]
    exact h.registering c t (new c t (at_ ▸ rfl) ▸ at_)
  · rw [counted]
    exact h.waiters p q (waiters p q hq)

/-- Where the threads are after the current one has gone on. -/
theorem goto_pc (same : sys'.pc = sys.pc) (hy : y.building = none) (d : T) :
    (sys'.goto c y).pc d = sys.pc d ∨ ((sys'.goto c y).pc d).building = none := by
  show Function.update sys'.pc c y d = _ ∨ (Function.update sys'.pc c y d).building = none
  by_cases e : d = c
  · rw [e, Function.update_self]
    exact .inr hy
  · rw [Function.update_of_ne e, same]
    exact .inl rfl

theorem Pool.goto (h : Pool sys) (hy : y.building = none) : Pool (sys.goto c y) :=
  h.move h.closed rfl rfl rfl (fun _ _ => linking_quietly.refl _) (fun _ _ => id)
    (goto_pc rfl hy)

theorem Pool.setProc (h : Pool sys) (p : P) (k : KProcess T) : Pool (sys.setProc p k) :=
  h.move h.closed rfl rfl rfl (fun _ _ => linking_quietly.refl _) (fun _ _ => id)
    fun _ => .inl rfl

theorem Pool.released (h : Pool sys) (p : P) (a : Ptr T) : Pool (sys.released p a) := by
  refine h.move h.closed rfl rfl rfl (fun _ _ => linking_quietly.refl _) (fun q b hb => ?_)
    fun _ => .inl rfl
  have hb : b ∈ Function.update sys.waiters p ((sys.waiters p).erase a) q := hb
  by_cases e : q = p
  · subst e
    rw [Function.update_self] at hb
    exact List.mem_of_mem_erase hb
  · rwa [Function.update_of_ne e] at hb

/-- The scheduler's memory changes, but not what is known of threads to come. -/
theorem Pool.with (h : Pool sys) (closed : Closed (Counted sys) s)
    (fields : ∀ t, t ∉ sys.threads → Quietly (sys.sched.mem (.thread t)) (s.mem (.thread t))) :
    Pool (sys.with s) :=
  h.move closed rfl rfl rfl fields (fun _ _ => id) fun _ => .inl rfl

/-- The record of a thread that exists is written. -/
theorem Pool.write (h : Pool sys) {a : Ptr T} (counted : Counted sys a) {k : KThread T P}
    (next : k.next = (sys.sched.mem a).next) (prev : k.prev = (sys.sched.mem a).prev)
    (sleepNext : k.sleepNext = (sys.sched.mem a).sleepNext) :
    Pool (sys.with (sys.sched.write a k)) := by
  refine h.with (h.closed.write (next ▸ h.closed.next a) (prev ▸ h.closed.prev a)
    (sleepNext ▸ h.closed.sleepNext a)) fun t ht => ?_
  have other : Ptr.thread t ≠ a := fun e => ht (counted t e.symm)
  rw [State.write_of_ne other]
  exact linking_quietly.refl _

theorem Pool.current (h : Pool sys) (current : sys.sched.current = some (.thread c)) :
    c ∈ sys.threads := h.closed.current _ current c rfl

theorem walk_building (p : P) (who : Caller) (w : Option (Ptr T)) :
    (walk p who w).building = none := by
  cases w with
  | some w => rfl
  | none => cases who <;> rfl

theorem Pool.waitLink (h : Pool sys) (current : sys.sched.current = some (.thread c))
    (apart : ∀ q, Ptr.thread c ∉ sys.waiters q) : Pool (waitLink sys c p) := by
  have counted : Counted sys (.thread c) := fun t e => Ptr.thread.inj e ▸ h.current current
  have linked : Pool (sys.with (sys.sched.setWaitNext (.thread c) (sys.proc p).exitWaiters)) :=
    h.write counted rfl rfl rfl
  have blocked := linked.with linked.closed.blockCurrentThread fun t _ =>
    (linking_quietly.blockCurrentThread (linking_quietly.relinked_refl _)).fields (.thread t)
  have waiters : ∀ q, (PS.waitLink sys c p).waiters q =
      if q = p then .thread c :: sys.waiters p else sys.waiters q := fun q => by
    show Function.update sys.waiters p (.thread c :: sys.waiters p) q = _
    split
    case isTrue e => rw [e, Function.update_self]
    case isFalse e => rw [Function.update_of_ne e]
  -- who waits for `q` is the new waiter of `p`, or waited for it before
  have cases_ : ∀ q, ∀ a ∈ (PS.waitLink sys c p).waiters q,
      q = p ∧ a = .thread c ∨ a ∈ sys.waiters q := fun q a ha => by
    rw [waiters] at ha
    split at ha
    case isTrue e =>
      subst e
      exact (List.mem_cons.mp ha).imp_left fun here => ⟨rfl, here⟩
    case isFalse => exact .inr ha
  refine ⟨blocked.closed, blocked.room, blocked.threads, blocked.fresh, blocked.alone,
    blocked.registered, blocked.registering, fun q a ha => ?_, fun q r a hq hr => ?_⟩
  · obtain ⟨-, rfl⟩ | old := cases_ q a ha
    · exact counted
    · exact h.waiters q a old
  · obtain ⟨rfl, rfl⟩ | oldq := cases_ q a hq
    · obtain ⟨rfl, -⟩ | oldr := cases_ r _ hr
      · rfl
      · exact absurd oldr (apart r)
    · obtain ⟨-, rfl⟩ | oldr := cases_ r a hr
      · exact absurd oldq (apart q)
      · exact h.apart q r a oldq oldr

theorem Pool.createThread (h : Pool sys) {t : T} (user : Bool) (p : P)
    (stackBase stackSize teb : u64) (new : t ∉ sys.allocated) (room : sys.allocated.card < HEAP_SIZE) :
    Pool (({ sys.with (sys.sched.write (.thread t)
          (Sched.newThread user p stackBase stackSize teb)) with
        allocated := insert t sys.allocated } : System T P).goto c (.newCount t p user)) := by
  have fresh : t ∉ sys.threads := fun no => new (h.threads no)
  have stays : ∀ u, u ≠ t → (sys.sched.write (.thread t)
      (Sched.newThread user p stackBase stackSize teb)).mem (.thread u) =
        sys.sched.mem (.thread u) := fun u e => State.write_of_ne (fun no => e (Ptr.thread.inj no)) _ _
  have pc : ∀ d, d ≠ c → Function.update sys.pc c (.newCount t p user) d = sys.pc d := fun d e =>
    Function.update_of_ne e _ _
  have self : Function.update sys.pc c (.newCount t p user) c = .newCount t p user :=
    Function.update_self _ _ _
  refine ⟨h.closed.write Sched.known_none Sched.known_none Sched.known_none, ?_, ?_,
    fun d u q v hd => ?_, fun d e u q r v v' hd he => ?_, h.registered, fun d u hd => ?_,
    h.waiters, h.apart⟩
  · exact (Finset.card_insert_le _ _).trans room
  · exact h.threads.trans (Finset.subset_insert _ _)
  · have hd : Function.update sys.pc c (.newCount t p user) d = .newCount u q v := hd
    show u ∈ insert t sys.allocated ∧ u ∉ sys.threads ∧ (State.mem _ (.thread u)).process = some q ∧
      (State.mem _ (.thread u)).state ≠ .terminated
    by_cases e : d = c
    · rw [e, self] at hd
      cases hd
      refine ⟨Finset.mem_insert_self _ _, fresh, ?_⟩
      show ((sys.sched.write _ _).mem _).process = _ ∧ ((sys.sched.write _ _).mem _).state ≠ _
      rw [State.write_self]
      exact ⟨rfl, fun no => Sync.ThreadState.noConfusion no⟩
    · rw [pc d e] at hd
      obtain ⟨known, apart, of, alive⟩ := h.fresh d u q v hd
      have other : u ≠ t := fun e => new (e ▸ known)
      refine ⟨Finset.mem_insert_of_mem known, apart, ?_⟩
      show ((sys.sched.write _ _).mem _).process = _ ∧ ((sys.sched.write _ _).mem _).state ≠ _
      rw [stays u other]
      exact ⟨of, alive⟩
  · have hd : Function.update sys.pc c (.newCount t p user) d = .newCount u q v := hd
    have he : Function.update sys.pc c (.newCount t p user) e = .newCount u r v' := he
    -- the record is in use by one creator only, as it was not allocated before
    have mine : ∀ f q' w, f ≠ c → Function.update sys.pc c (.newCount t p user) f = .newCount u q' w →
        u ≠ t := fun f q' w other hf no => by
      rw [pc f other] at hf
      exact new (no ▸ (h.fresh f u q' w hf).1)
    by_cases ed : d = c
    · by_cases ee : e = c
      · rw [ed, ee]
      · rw [ed, self] at hd
        cases hd
        exact absurd rfl (mine e r v' ee he)
    · by_cases ee : e = c
      · rw [ee, self] at he
        cases he
        exact absurd rfl (mine d q v ed hd)
      · rw [pc d ed] at hd
        rw [pc e ee] at he
        exact h.alone d e u q r v v' hd he
  · have hd : Function.update sys.pc c (.newCount t p user) d = .newReg u := hd
    by_cases e : d = c
    · rw [e, self] at hd
      cases hd
    · rw [pc d e] at hd
      exact h.registering d u hd

theorem Pool.newCount (h : Pool sys) {t : T} {user : Bool} (at_ : sys.pc c = .newCount t p user) :
    Pool ((sys.counted t p).goto c (if user then .newReg t else .idle)) := by
  obtain ⟨known, -, -, -⟩ := h.fresh c t p user at_
  have more : ∀ q, Counted sys q → Counted (sys.counted t p) q := fun q old u e =>
    Finset.mem_insert_of_mem (old u e)
  have pc : ∀ d, d ≠ c →
      Function.update sys.pc c (if user then .newReg t else .idle) d = sys.pc d := fun d e =>
    Function.update_of_ne e _ _
  have self : ∀ x, Function.update sys.pc c (if user then .newReg t else .idle) c = x →
      x = if user then .newReg t else .idle := fun x hx => hx.symm.trans (Function.update_self _ _ _)
  have ended : ∀ u q v, (if user then Pc.newReg t else .idle : Pc T P) ≠ .newCount u q v := by
    intro u q v
    cases user <;> exact fun no => by cases no
  refine ⟨h.closed.mono more, h.room, ?_, fun d u q v hd => ?_, fun d e u q r v v' hd he => ?_,
    fun u hu => Finset.mem_insert_of_mem (h.registered u hu), fun d u hd => ?_,
    fun q a ha => more a (h.waiters q a ha), h.apart⟩
  · exact Finset.insert_subset known h.threads
  · have hd : Function.update sys.pc c (if user then .newReg t else .idle) d = .newCount u q v := hd
    have other : d ≠ c := fun e => ended u q v (self _ (e ▸ hd)).symm
    have old : sys.pc d = .newCount u q v := (pc d other).symm.trans hd
    obtain ⟨known, apart, of, alive⟩ := h.fresh d u q v old
    refine ⟨known, fun no => ?_, of, alive⟩
    obtain e | counted := Finset.mem_insert.mp no
    · exact other (h.alone d c t q p v user (e ▸ old) at_)
    · exact apart counted
  · have hd : Function.update sys.pc c (if user then .newReg t else .idle) d = .newCount u q v := hd
    have he : Function.update sys.pc c (if user then .newReg t else .idle) e = .newCount u r v' := he
    have otherd : d ≠ c := fun no => ended u q v (self _ (no ▸ hd)).symm
    have othere : e ≠ c := fun no => ended u r v' (self _ (no ▸ he)).symm
    rw [pc d otherd] at hd
    rw [pc e othere] at he
    exact h.alone d e u q r v v' hd he
  · have hd : Function.update sys.pc c (if user then .newReg t else .idle) d = .newReg u := hd
    by_cases e : d = c
    · have new := self _ (e ▸ hd)
      cases user with
      | true =>
        cases new
        exact Finset.mem_insert_self _ _
      | false => cases new
    · rw [pc d e] at hd
      exact Finset.mem_insert_of_mem (h.registering d u hd)

theorem Pool.newReg (h : Pool sys) {t : T} (at_ : sys.pc c = .newReg t) (reg : List T)
    (from_ : ∀ u ∈ reg, u ∈ sys.threadReg ∨ u = t) :
    Pool (({ sys with threadReg := reg } : System T P).goto c .idle) := by
  have gone : Pool (sys.goto c .idle) := h.goto rfl
  refine ⟨gone.closed, gone.room, gone.threads, gone.fresh, gone.alone, fun u hu => ?_,
    gone.registering, gone.waiters, gone.apart⟩
  obtain old | rfl := from_ u hu
  · exact h.registered u old
  · exact h.registering c u at_

/-! ## One step -/

structure Inv (sys : System T P) : Prop where
  pool : Pool sys
  books : Books sys

/-- There are far fewer threads than `thread_count` can hold. -/
theorem Pool.live_lt (h : Pool sys) (p : P) : sys.live p + 1 < 2 ^ 32 := by
  have few : sys.live p ≤ sys.threads.card := tally_le_card
  have all : sys.threads.card ≤ sys.allocated.card := Finset.card_le_card h.threads
  have bound := (few.trans all).trans h.room
  exact lt_of_le_of_lt (Nat.succ_le_succ bound) (by decide)

theorem Inv.timer (inv : Inv sys) {n : Nat} (free : Uninterrupted sys n)
    (dead : StaysDead sys (.timer n)) (h : Sched.timer n sys.sched = some s) :
    Inv (sys.with s) := by
  have fields := linking_quietly.timer h
  have frame : Frame sys s :=
    ⟨fields, dead (sys.with s) (Option.map_eq_some_iff.mpr ⟨s, h, rfl⟩)⟩
  exact ⟨inv.pool.with (inv.pool.closed.timer h) fun t _ => fields _,
    inv.books.timer free h frame⟩

/-- A block of code that links threads or changes states, and the next statement. -/
theorem Inv.block (inv : Inv sys) (current : sys.sched.current = some (.thread c))
    (hx : (sys.pc c).window = none) (hy : y.window = none) (unbuilt : y.building = none)
    (closed : Closed (Counted sys) s) (fields : ∀ q, Quietly (sys.sched.mem q) (s.mem q))
    (dead : ∀ t ∈ sys.threads, (sys.sched.mem (.thread t)).state = .terminated →
      (s.mem (.thread t)).state = .terminated) : Inv ((sys.with s).goto c y) := by
  have frame : Frame sys s := ⟨fields, dead⟩
  exact ⟨(inv.pool.with closed fun t _ => fields _).goto unbuilt,
    inv.books.quiet current rfl hx hy frame.ledger⟩

/-- The thread that is being woken exists. -/
theorem Pool.woken (h : Pool sys) {own : Prop} {w : Ptr T} {nxt : Option (Ptr T)}
    (woken : (sys.ledger p).Woken own w nxt) : Counted sys w := by
  obtain ⟨l, mine, -⟩ := woken.rest
  have mine : sys.waiters p = w :: l := mine
  refine h.waiters p w ?_
  rw [mine]
  exact List.mem_cons_self

theorem Inv.proceed (inv : Inv sys) (current : sys.sched.current = some (.thread c))
    (orderly : (sys.pc c).Orderly sys c) (dead : StaysDead sys .go)
    (h : proceed sys c = some sys') : Inv sys' := by
  have stepped : step sys .go = some sys' := by
    unfold step
    rw [current]
    exact h
  have stays := dead sys' stepped
  have scheduled : ∀ q, Quietly (sys.sched.mem q) ((Sched.scheduleInternal sys.sched).mem q) :=
    linking_quietly.scheduleInternal (linking_quietly.relinked_refl _)
  have pool := inv.pool
  have books := inv.books
  unfold PS.proceed at h
  dsimp only at h
  split at h
  case h_1 => cases h
  case h_2 => cases h
  case h_3 p at_ =>
    cases h
    rw [at_] at orderly
    have blocked : (sys.sched.setWaitNext (.thread c) (sys.proc p).exitWaiters).current =
      some (.thread c) := current
    have alive : (sys.sched.mem (.thread c)).state ≠ .terminated := fun gone => by
      have still : ((PS.waitLink sys c p).sched.mem (.thread c)).state = .terminated :=
        stays c (pool.current current) gone
      have now : (PS.waitLink sys c p).sched = _ := Sched.blockCurrentThread_eq blocked
      rw [now, State.setState_state] at still
      cases still
    exact ⟨(pool.waitLink current orderly.2).goto rfl,
      books.waitLink current at_ orderly alive⟩
  case h_4 at_ =>
    cases h
    exact inv.block current (by rw [at_]; rfl) rfl rfl pool.closed.scheduleInternal scheduled stays
  case h_5 p at_ =>
    cases h
    refine ⟨pool.goto ?_, books.termTest current at_⟩
    split <;> rfl
  case h_6 p at_ =>
    cases h
    refine ⟨(pool.setProc p _).goto ?_, books.termCount current at_⟩
    split <;> rfl
  case h_7 at_ =>
    cases h
    exact inv.block current (by rw [at_]; rfl) rfl rfl pool.closed.scheduleInternal scheduled stays
  case h_8 p i marked at_ =>
    rw [at_] at orderly
    split at h
    case h_1 none =>
      cases h
      exact ⟨pool.goto rfl, (books.killMark current at_).1⟩
    case h_2 t found =>
      have counted : t ∈ sys.threads := pool.registered t (List.mem_of_getElem? found)
      split at h
      case isTrue both =>
        cases h
        have known : Counted sys (.thread t) := fun u e => Ptr.thread.inj e ▸ counted
        have written : Pool (sys.with (sys.sched.setState (.thread t) .terminated)) :=
          pool.write known rfl rfl rfl
        exact ⟨written.goto rfl,
          books.killThread current at_ both.1 (orderly t found both.1 both.2)⟩
      case isFalse =>
        cases h
        exact ⟨pool.goto rfl, (books.killMark current at_).2⟩
  case h_9 p marked at_ =>
    cases h
    rw [at_] at orderly
    exact ⟨(pool.setProc p _).goto rfl, books.killCount current at_ orderly⟩
  case h_10 p who at_ =>
    cases h
    exact ⟨(pool.setProc p _).goto rfl, books.exitSet current at_ _⟩
  case h_11 p who first at_ =>
    cases h
    exact ⟨pool.goto rfl, books.exitTake current at_⟩
  case h_12 p who first w at_ =>
    cases h
    exact ⟨(pool.setProc p _).goto (walk_building p who w), books.exitClear current at_⟩
  case h_13 p who w at_ =>
    cases h
    exact ⟨pool.goto rfl, books.wakeNext current at_⟩
  case h_14 p who w nxt at_ =>
    cases h
    have woken := (books.phase c p (by rw [at_]; rfl)).2
    rw [at_] at woken
    have written : Pool (sys.with (sys.sched.setWaitNext w none)) :=
      pool.write (pool.woken woken) rfl rfl rfl
    exact ⟨written.goto rfl, books.wakeClear current pool.apart at_⟩
  case h_15 p who w nxt at_ =>
    split at h
    · cases h
      exact ⟨(pool.released p w).goto (walk_building p who nxt), (books.wakeTest current at_).1⟩
    · cases h
      exact ⟨pool.goto rfl, (books.wakeTest current at_).2⟩
  case h_16 p who w nxt at_ =>
    cases h
    have woken := (books.phase c p (by rw [at_]; rfl)).2
    rw [at_] at woken
    have counted := pool.woken woken
    have pushed : Relinked Quietly sys.sched (Sched.makeReady sys.sched w) :=
      linking_quietly.queuePushBack
        (linking_quietly.setState (linking_quietly.relinked_refl _) Sync.ThreadState.noConfusion) _
    exact ⟨((pool.released p w).with (pool.closed.makeReady counted) fun t _ =>
        pushed.fields _).goto (walk_building p who nxt),
      books.wakePush current ⟨pushed.fields, stays⟩ pushed.current at_⟩
  case h_17 t p user at_ =>
    cases h
    obtain ⟨-, fresh, of, alive⟩ := pool.fresh c t p user at_
    exact ⟨pool.newCount at_, books.newCount fresh of current at_ alive (pool.live_lt p)⟩
  case h_18 t at_ =>
    cases h
    refine ⟨pool.newReg at_ _ fun u hu => ?_, books.quiet current rfl (by rw [at_]; rfl) rfl
      fun _ => rfl⟩
    split at hu
    · exact (List.mem_append.mp hu).imp_right List.mem_singleton.mp
    · exact .inl hu

theorem Inv.call (inv : Inv sys) (current : sys.sched.current = some (.thread c))
    (idle : sys.pc c = .idle) {a : Call T P} (orderly : a.Orderly sys c)
    (dead : StaysDead sys (.call a)) (h : call sys c a = some sys') : Inv sys' := by
  have stepped : step sys (.call a) = some sys' := by
    unfold step
    rw [current]
    dsimp only
    rw [if_pos idle]
    exact h
  have stays := dead sys' stepped
  have pool := inv.pool
  have books := inv.books
  have hx : (sys.pc c).window = none := by rw [idle]; rfl
  have here : sys.goto c .idle = sys := by
    unfold System.goto
    rw [← idle, Function.update_eq_self]
  -- the blocks of other code: the current thread is outside a call before and after
  have block : ∀ s, Closed (Counted sys) s → (∀ q, Quietly (sys.sched.mem q) (s.mem q)) →
      (∀ t ∈ sys.threads, (sys.sched.mem (.thread t)).state = .terminated →
        (s.mem (.thread t)).state = .terminated) → Inv (sys.with s) := fun s closed fields dead => by
    have after := inv.block current hx (y := .idle) rfl rfl closed fields dead
    have same : (sys.with s).goto c .idle = sys.with s :=
      congrArg (fun r : System T P => r.with s) here
    rwa [same] at after
  have refl := linking_quietly.relinked_refl sys.sched
  cases a with
  | wait p timeout =>
    obtain ⟨-, ⟨⟩⟩ := Option.ite_none_right_eq_some.mp h
    split
    · exact inv
    · exact ⟨pool.goto rfl, books.quiet current rfl hx rfl fun _ => rfl⟩
  | terminate =>
    cases h
    have known : Counted sys (.thread c) := fun u e => Ptr.thread.inj e ▸ pool.current current
    have written : Pool (sys.with (sys.sched.setState (.thread c) .terminated)) :=
      pool.write known rfl rfl rfl
    refine ⟨written.goto ?_, books.terminate current idle (pool.current current) orderly⟩
    split <;> rfl
  | kill p =>
    cases h
    split
    · exact ⟨pool.goto rfl, books.quiet current rfl hx rfl fun _ => rfl⟩
    · exact inv
  | createProcess p cr3 =>
    obtain ⟨-, ⟨⟩⟩ := Option.ite_none_right_eq_some.mp h
    have closed := pool.closed
    refine ⟨pool.move ⟨closed.sentinel, closed.next, closed.prev, closed.sleepNext,
      closed.sleepHead, closed.current⟩ rfl rfl rfl (fun _ _ => linking_quietly.refl _)
      (fun _ _ => id) fun _ => .inl rfl, ?_⟩
    exact ⟨books.phase, books.settled⟩
  | createThread t user process stackBase stackSize teb =>
    obtain ⟨⟨new, room, -⟩, ⟨⟩⟩ := Option.ite_none_right_eq_some.mp h
    have fresh : t ∉ sys.threads := fun no => new (pool.threads no)
    exact ⟨pool.createThread user _ stackBase stackSize teb new room,
      books.createThread current idle fresh
        (fun q no => fresh (pool.waiters q _ no t rfl)) _ user _⟩
  | schedule =>
    cases h
    exact block _ pool.closed.scheduleInternal (linking_quietly.scheduleInternal refl) stays
  | block =>
    cases h
    exact block _ pool.closed.blockCurrentThread (linking_quietly.blockCurrentThread refl).fields
      stays
  | makeReady t =>
    obtain ⟨counted, ⟨⟩⟩ := Option.ite_none_right_eq_some.mp h
    exact block _ (pool.closed.makeReady fun u e => Ptr.thread.inj e ▸ counted)
      (linking_quietly.makeReady refl (.thread t)).fields stays
  | sleep ms =>
    cases h
    exact block _ (pool.closed.sleep ms) (linking_quietly.sleep refl ms).fields stays
  | remove t =>
    obtain ⟨-, ⟨⟩⟩ := Option.ite_none_right_eq_some.mp h
    exact block _ pool.closed.queueRemove (linking_quietly.queueRemove refl _).fields stays
  | setPriority t pri =>
    obtain ⟨-, ⟨⟩⟩ := Option.ite_none_right_eq_some.mp h
    have closed := pool.closed
    have written : Relinked Quietly sys.sched (sys.sched.write (.thread t)
        { sys.sched.mem (.thread t) with priority := pri }) :=
      linking_quietly.write refl ⟨rfl, rfl, id⟩
    exact block _ (closed.write (closed.next _) (closed.prev _) (closed.sleepNext _))
      written.fields stays
  | link t v =>
    obtain ⟨counted, ⟨⟩⟩ := Option.ite_none_right_eq_some.mp h
    have known : Counted sys (.thread t) := fun u e => Ptr.thread.inj e ▸ counted
    exact ⟨pool.write known rfl rfl rfl, books.link current idle orderly⟩

/-- **One step**: a statement, a block or the timer. -/
theorem Inv.step (inv : Inv sys) {op : Op T P} (orderly : Orderly sys op)
    (h : step sys op = some sys') : Inv sys' := by
  obtain ⟨dead, rest⟩ := orderly
  cases op with
  | timer n =>
    obtain ⟨s, ticked, rfl⟩ := Option.map_eq_some_iff.mp h
    exact inv.timer rest dead ticked
  | go =>
    have moved := h
    dsimp only [PS.step] at moved
    split at moved
    case h_1 c current => exact inv.proceed current (rest c current) dead moved
    case h_2 => cases moved
  | call a =>
    have moved := h
    dsimp only [PS.step] at moved
    split at moved
    case h_1 c current =>
      obtain ⟨idle, called⟩ := Option.ite_none_right_eq_some.mp moved
      exact inv.call current idle (rest c current) dead called
    case h_2 => cases moved

theorem Inv.booted {main : T} (h : Booted sys main) : Inv sys := by
  have mainOnly : ∀ t, t ∈ sys.threads ↔ t = main := fun t => by
    rw [h.threads, Finset.mem_singleton]
  have sentinel : ∀ q : Ptr T, (∃ pri, q = .sentinel pri) → Counted sys q := fun q only t e => by
    obtain ⟨pri, rfl⟩ := only
    cases e
  refine ⟨⟨⟨fun pri => sentinel _ ⟨pri, rfl⟩, fun q r e => sentinel r (h.next q r e),
    fun q r e => sentinel r (h.prev q r e), fun q r e => ?_, fun r e => ?_, fun r e => ?_⟩,
    ?_, ?_, fun c t p user at_ => ?_, fun c d t p q user user' hc hd => ?_, fun t ht => ?_,
    fun c t at_ => ?_, fun p q hq => ?_, fun p q a ha hb => ?_⟩, fun c p at_ => ?_, fun p _ => ?_⟩
  · rw [h.sleepNext] at e
    cases e
  · rw [h.sleepHead] at e
    cases e
  · rw [h.current] at e
    cases e
    exact fun t e => (mainOnly t).mpr (Ptr.thread.inj e).symm
  · rw [h.allocated, Finset.card_singleton]
    exact Nat.succ_le_succ (Nat.zero_le _)
  · rw [h.threads, h.allocated]
  · rw [h.pc] at at_
    cases at_
  · rw [h.pc] at hc
    cases hc
  · rw [h.threadReg] at ht
    exact absurd ht List.not_mem_nil
  · rw [h.pc] at at_
    cases at_
  · rw [h.waiters] at hq
    exact absurd hq List.not_mem_nil
  · rw [h.waiters] at ha
    exact absurd ha List.not_mem_nil
  · rw [h.pc] at at_
    cases at_
  · have one : ∀ P' : KThread T P → Prop, [DecidablePred P'] →
        tally sys.threads P' (fun t => sys.sched.mem (.thread t)) =
          if P' (sys.sched.mem (.thread main)) then 1 else 0 := by
      intro P' _
      unfold tally
      rw [h.threads, Finset.filter_singleton]
      split <;> rfl
    have listed : ∀ k : KProcess T, sys.proc p = k → k.exitWaiters = none →
        (sys.ledger p).Listed := fun k hk none =>
      ⟨by
        show Linked _ (sys.proc p).exitWaiters (sys.waiters p)
        rw [hk, none, h.waiters]
        rfl, fun _ => h.waiters p⟩
    by_cases e : p = sys.system
    · have live : sys.live p = 1 := by
        refine (one _).trans (if_pos ⟨e ▸ h.process, ?_⟩)
        rw [h.running]
        exact fun no => Sync.ThreadState.noConfusion no
      have proc : sys.proc p = ⟨1, false, none⟩ := e ▸ h.system
      refine ⟨?_, listed _ proc rfl, fun none => ?_⟩
      · show (sys.proc p).threadCount.toNat = sys.live p
        rw [proc, live]
        rfl
      · exact absurd (live.symm.trans none) Nat.one_ne_zero
    · have other : ¬ (sys.sched.mem (.thread main)).process = some p := fun of =>
        e (Option.some.inj (of.symm.trans h.process))
      have live : sys.live p = 0 := (one _).trans (if_neg fun no => other no.1)
      have members : sys.members p = 0 := (one _).trans (if_neg other)
      have proc : sys.proc p = KProcess.zero := h.others p e
      refine ⟨?_, listed _ proc rfl, fun _ some => ?_⟩
      · show (sys.proc p).threadCount.toNat = sys.live p
        rw [proc, live]
        rfl
      · exact absurd members (Nat.ne_of_gt some)

/-! ## The accounting -/

theorem members_pos {t : T} (counted : t ∈ sys.threads) (of : sys.Of t p) : 0 < sys.members p :=
  tally_pos counted of

/-- A list that spells out no waiters is empty. -/
theorem linked_none {w : Option (Ptr T)} (linked : Linked (sys.ledger p).links w (sys.waiters p))
    (none : sys.waiters p = []) : w = .none := by
  rw [none] at linked
  exact linked

theorem balanced_settled (h : (sys.ledger p).Settled) : Balanced sys p := by
  refine ⟨h.count, fun some gone => ?_⟩
  obtain ⟨t, counted, of⟩ := some
  have dead : sys.live p = 0 := tally_eq_zero.mpr fun u hu no => no.2 (gone u hu no.1)
  have exited := h.ended dead (members_pos counted of)
  have none := h.listed.woken exited
  exact ⟨exited, linked_none h.listed.linked none, none⟩

/-- Where a thread of another process ends this one. -/
theorem balanced_ending (h : (sys.ledger p).Ending (sys.Of c p)) (other : ¬ sys.Of c p)
    (empty : sys.waiters p = [] → (sys.proc p).exitWaiters = none) : Balanced sys p := by
  refine ⟨(congrArg BitVec.toNat h.count).trans h.live.symm, fun some _ => ?_⟩
  obtain ⟨t, counted, of⟩ := some
  obtain ⟨exited, none⟩ := h.mine.resolve_left other (members_pos counted of)
  exact ⟨exited, empty none, none⟩

/-- A thread inside a call that ends the process is current. -/
theorem Inv.accounted (inv : Inv sys) (p : P) : Accounted sys p := by
  intro away
  by_cases busy : ∃ c, (sys.pc c).window = some p
  · obtain ⟨c, window⟩ := busy
    obtain ⟨current, phase⟩ := inv.books.phase c p window
    have other := away c current
    cases at_ : sys.pc c with
    | termTest q | termCount q | killMark q i marked | killCount q marked =>
      rw [at_] at phase
      exact absurd phase.1 other
    | exitSet q who =>
      rw [at_] at phase
      exact balanced_ending phase.1 other fun none => linked_none phase.2.linked none
    | exitTake q who first =>
      rw [at_] at phase
      exact balanced_ending phase.1 other fun none => linked_none phase.2.2 none
    | exitClear q who first w =>
      rw [at_] at phase
      exact balanced_ending phase.1 other fun none =>
        phase.2.2.1.symm.trans (linked_none phase.2.2.2 none)
    | wakeNext q who w =>
      rw [at_] at phase
      exact balanced_ending phase.ending other fun _ => phase.exitWaiters
    | wakeClear q who w nxt | wakeTest q who w nxt | wakePush q who w nxt =>
      rw [at_] at phase
      exact balanced_ending phase.ending other fun _ => phase.exitWaiters
    | idle | waitLink | waitSchedule | termSchedule | halted | newCount | newReg =>
      rw [at_] at window
      cases window
  · exact balanced_settled (inv.books.settled p fun c hc => busy ⟨c, hc⟩)

/-- **Every process is accounted for** in every state of a run whose steps are orderly. -/
theorem termination_accounting {main : T} (h : Booted sys main) {ops : List (Op T P)}
    (orderly : Along step Orderly sys ops) :
    Always step (fun s => ∀ p, Accounted s p) sys ops :=
  (always_invariant (fun _ _ _ inv orderly h => inv.step orderly h) (Inv.booted h) orderly).mono
    fun _ inv p => inv.accounted p

/-! ## Two runs -/

instance (sys : System T P) (t : T) (p : P) : Decidable (sys.Of t p) :=
  inferInstanceAs (Decidable (_ = _))

variable [Fintype T] [Fintype P]

instance (sys : System T P) (c : T) : (x : Pc T P) → Decidable (x.Orderly sys c)
  | .waitLink p =>
    inferInstanceAs (Decidable ((sys.proc p).exited = false ∧ ∀ q, Ptr.thread c ∉ sys.waiters q))
  | .killMark p i _ =>
    inferInstanceAs (Decidable (∀ t, sys.threadReg[i]? = some t → sys.Of t p →
      (sys.sched.mem (.thread t)).state ≠ .terminated → sys.Of c p))
  | .killCount p _ => inferInstanceAs (Decidable (sys.live p = 0))
  | .idle | .waitSchedule | .termTest _ | .termCount _ | .termSchedule | .halted | .exitSet _ _
  | .exitTake _ _ _ | .exitClear _ _ _ _ | .wakeNext _ _ _ | .wakeClear _ _ _ _
  | .wakeTest _ _ _ _ | .wakePush _ _ _ _ | .newCount _ _ _ | .newReg _ =>
    inferInstanceAs (Decidable True)

instance (sys : System T P) (c : T) : (a : Call T P) → Decidable (a.Orderly sys c)
  | .terminate =>
    inferInstanceAs (Decidable (∀ p, sys.Of c p →
      (sys.sched.mem (.thread c)).state = .terminated → (sys.proc p).threadCount = 0))
  | .link t _ => inferInstanceAs (Decidable (∀ q, Ptr.thread t ∉ sys.waiters q))
  | .wait _ _ | .kill _ | .createProcess _ _ | .createThread _ _ _ _ _ _ | .schedule | .block
  | .makeReady _ | .sleep _ | .remove _ | .setPriority _ _ => inferInstanceAs (Decidable True)

instance (sys : System T P) (n : Nat) : Decidable (Uninterrupted sys n) :=
  inferInstanceAs (Decidable (∀ c, sys.sched.current = some (.thread c) →
    (sys.pc c).window ≠ none → ∀ s ∈ Sched.timer n sys.sched, s.current = some (.thread c)))

instance (sys : System T P) (op : Op T P) : Decidable (StaysDead sys op) :=
  inferInstanceAs (Decidable (∀ sys' ∈ step sys op, ∀ t ∈ sys.threads,
    (sys.sched.mem (.thread t)).state = .terminated →
      (sys'.sched.mem (.thread t)).state = .terminated))

instance (sys : System T P) : (op : Op T P) → Decidable (Orderly sys op)
  | .timer n => inferInstanceAs (Decidable (StaysDead sys _ ∧ Uninterrupted sys n))
  | .go =>
    inferInstanceAs (Decidable (StaysDead sys _ ∧
      ∀ c, sys.sched.current = some (.thread c) → (sys.pc c).Orderly sys c))
  | .call a =>
    inferInstanceAs (Decidable (StaysDead sys _ ∧
      ∀ c, sys.sched.current = some (.thread c) → a.Orderly sys c))

/-- The main thread waits for a process with one thread; after that thread's end it is
back, and the process is gone. -/
theorem termination_accounting_once :
    Always step (fun s => ∀ p, Accounted s p) bootSystem (waitFirst ++ [.go]) ∧
      (run step bootSystem (waitFirst ++ [.go])).map
          (fun s => (s.sched.current, (s.proc true).threadCount, (s.proc true).exited)) =
        some (some (.thread false), 0, true) :=
  ⟨termination_accounting bootSystem_booted (by decide), by rfl⟩

/-- The timer takes the processor away after `State = TERMINATED`: the thread is never
counted out. -/
theorem terminated_not_counted :
    Booted bootSystem false ∧ ∃ s : System Bool Bool,
      run step bootSystem (launch ++ [.call .schedule, .call .terminate, .timer 1, .timer 1,
        .timer 1, .timer 1, .timer 1]) = some s ∧ ¬ Accounted s true := by
  refine ⟨bootSystem_booted, _, rfl, fun accounted => ?_⟩
  have balanced := accounted fun t current of => by
    cases current
    cases of
  exact absurd balanced.count (by decide)

end

end MicroNT.PS
