import MicroNT.Base.Chain
import MicroNT.Base.Tally
import MicroNT.ProcessExit

/-! # The ledger of a process (`process.cpp`)

What the records say about one process is its ledger. The ledger is settled unless the
current thread is inside `TerminateCurrentThread` or `KillProcess` for that process; what
it looks like then depends on the statement. -/

set_option linter.unusedSectionVars false

namespace MicroNT.PS

open Base.Machine Base.Chain Base.Tally
open Sched (Ptr KThread State Linking Relinked Closed)

variable {T P : Type}

/-! ## Ledgers -/

/-- What there is to know about a process: its record, the threads that wait for it, the
`WaitNext` links, and how many of its threads are not TERMINATED, and how many it has. -/
structure Ledger (T : Type) where
  proc : KProcess T
  waiters : List (Ptr T)
  links : Ptr T → Option (Ptr T)
  live : Nat
  members : Nat

namespace Ledger

/-- The list spells out the waiters, and there are none after the exit. -/
structure Listed (L : Ledger T) : Prop where
  linked : Linked L.links L.proc.exitWaiters L.waiters
  woken : L.proc.exited = true → L.waiters = []

structure Settled (L : Ledger T) : Prop where
  count : L.proc.threadCount.toNat = L.live
  listed : L.Listed
  ended : L.live = 0 → 0 < L.members → L.proc.exited = true

/-- A thread is TERMINATED and has still to be taken off the count. -/
structure Leaving (L : Ledger T) : Prop where
  count : L.proc.threadCount.toNat = L.live + 1
  listed : L.Listed

/-- The count is zero and the exit is under way, by a thread of the process if `own`. -/
structure Ending (L : Ledger T) (own : Prop) : Prop where
  count : L.proc.threadCount = 0
  live : L.live = 0
  mine : own ∨ (0 < L.members → L.proc.exited = true ∧ L.waiters = [])

/-- The list is taken, and the waiters from `w` on are still to be woken. -/
structure Waking (L : Ledger T) (own : Prop) (w : Option (Ptr T)) : Prop where
  ending : L.Ending own
  exited : L.proc.exited = true
  exitWaiters : L.proc.exitWaiters = none
  linked : Linked L.links w L.waiters

/-- The same, with `w` taken off. -/
structure Woken (L : Ledger T) (own : Prop) (w : Ptr T) (nxt : Option (Ptr T)) : Prop where
  ending : L.Ending own
  exited : L.proc.exited = true
  exitWaiters : L.proc.exitWaiters = none
  rest : ∃ l, L.waiters = w :: l ∧ w ∉ l ∧ Linked L.links nxt l

/-- The ledger while the current thread, of the process if `own`, is at this statement. -/
def Phase (L : Ledger T) (own : Prop) : Pc T P → Prop
  | .termTest _ => own ∧ (L.Leaving ∨ L.Settled ∧ L.proc.threadCount = 0)
  | .termCount _ => own ∧ L.Leaving
  | .killMark _ _ _ => own ∧ L.Listed
  | .killCount _ _ => own ∧ L.Listed
  | .exitSet _ _ => L.Ending own ∧ L.Listed
  | .exitTake _ _ _ =>
    L.Ending own ∧ L.proc.exited = true ∧ Linked L.links L.proc.exitWaiters L.waiters
  | .exitClear _ _ _ w =>
    L.Ending own ∧ L.proc.exited = true ∧ w = L.proc.exitWaiters ∧ Linked L.links w L.waiters
  | .wakeNext _ _ w => L.Waking own (some w)
  | .wakeClear _ _ w nxt => L.Woken own w nxt
  | .wakeTest _ _ w nxt => L.Woken own w nxt
  | .wakePush _ _ w nxt => L.Woken own w nxt
  | _ => False

variable {L : Ledger T} {own : Prop}

/-- Links of threads that do not wait for the process do not matter. -/
theorem Settled.relink (h : L.Settled) {links : Ptr T → Option (Ptr T)}
    (same : ∀ q ∈ L.waiters, links q = L.links q) : { L with links := links }.Settled :=
  ⟨h.count, ⟨h.listed.linked.congr same, h.listed.woken⟩, h.ended⟩

/-- After the last waiter the ledger is settled. -/
theorem Waking.settled (h : L.Waking own none) : L.Settled := by
  have none : L.waiters = [] := h.linked.eq_nil
  refine ⟨?_, ⟨?_, fun _ => none⟩, fun _ _ => h.exited⟩
  · rw [h.ending.count, h.ending.live]
    rfl
  · rw [h.exitWaiters, none]
    rfl

end Ledger

/-- The process that the current thread has begun to end, where the thread is at this
statement. -/
def Pc.window : Pc T P → Option P
  | .termTest p => some p
  | .termCount p => some p
  | .killMark p _ marked => if marked then some p else none
  | .killCount p marked => if marked then some p else none
  | .exitSet p _ => some p
  | .exitTake p _ _ => some p
  | .exitClear p _ _ _ => some p
  | .wakeNext p _ _ => some p
  | .wakeClear p _ _ _ => some p
  | .wakeTest p _ _ _ => some p
  | .wakePush p _ _ _ => some p
  | _ => none

/-- The thread that is being created. -/
def Pc.building : Pc T P → Option T
  | .newCount t _ _ => some t
  | .newReg t => some t
  | _ => none

section

variable [DecidableEq T] [DecidableEq P]

/-- How many threads of the process are not TERMINATED. -/
def System.live (sys : System T P) (p : P) : Nat :=
  tally sys.threads (fun k : KThread T P => k.process = some p ∧ k.state ≠ .terminated)
    fun t => sys.sched.mem (.thread t)

def System.members (sys : System T P) (p : P) : Nat :=
  tally sys.threads (fun k : KThread T P => k.process = some p) fun t => sys.sched.mem (.thread t)

def System.ledger (sys : System T P) (p : P) : Ledger T :=
  ⟨sys.proc p, sys.waiters p, fun q => (sys.sched.mem q).waitNext, sys.live p, sys.members p⟩

/-- The thread belongs to the process. -/
def System.Of (sys : System T P) (t : T) (p : P) : Prop :=
  (sys.sched.mem (.thread t)).process = some p

/-! ## The condition -/

/-- At a wait's link the process has not exited, and the thread waits for no other one;
`KillProcess` terminates a thread that is not TERMINATED only for a thread of the same
process, and leaves none when it sets the count to zero. -/
def Pc.Orderly (sys : System T P) (c : T) : Pc T P → Prop
  | .waitLink p => (sys.proc p).exited = false ∧ ∀ q, Ptr.thread c ∉ sys.waiters q
  | .killMark p i _ => ∀ t, sys.threadReg[i]? = some t → sys.Of t p →
      (sys.sched.mem (.thread t)).state ≠ .terminated → sys.Of c p
  | .killCount p _ => sys.live p = 0
  | _ => True

/-- A thread that terminates itself was not TERMINATED, and no other list takes the link
of a thread that waits for a process. -/
def Call.Orderly (sys : System T P) (c : T) : Call T P → Prop
  | .terminate => ∀ p, sys.Of c p → (sys.sched.mem (.thread c)).state = .terminated →
      (sys.proc p).threadCount = 0
  | .link t _ => ∀ q, Ptr.thread t ∉ sys.waiters q
  | _ => True

/-- The timer does not take the processor from a thread that has begun to end a process. -/
def Uninterrupted (sys : System T P) (n : Nat) : Prop :=
  ∀ c, sys.sched.current = some (.thread c) → (sys.pc c).window ≠ none →
    ∀ s, Sched.timer n sys.sched = some s → s.current = some (.thread c)

/-- A TERMINATED thread stays TERMINATED. -/
def StaysDead (sys : System T P) (op : Op T P) : Prop :=
  ∀ sys', step sys op = some sys' → ∀ t ∈ sys.threads,
    (sys.sched.mem (.thread t)).state = .terminated →
      (sys'.sched.mem (.thread t)).state = .terminated

def Orderly (sys : System T P) (op : Op T P) : Prop :=
  StaysDead sys op ∧
    match op with
    | .timer n => Uninterrupted sys n
    | .go => ∀ c, sys.sched.current = some (.thread c) → (sys.pc c).Orderly sys c
    | .call a => ∀ c, sys.sched.current = some (.thread c) → a.Orderly sys c

variable {sys sys' : System T P} {c : T} {p : P} {x y : Pc T P} {s : State T P}
  {w : Option (Ptr T)}

/-! ## Code that leaves the ledgers alone -/

/-- Process and wait link stay, and nobody is terminated. -/
def Quietly (k k' : KThread T P) : Prop :=
  k'.process = k.process ∧ k'.waitNext = k.waitNext ∧ (k'.state = .terminated → k.state = .terminated)

theorem linking_quietly : Linking (Quietly (T := T) (P := P)) where
  refl _ := ⟨rfl, rfl, id⟩
  trans h h' := ⟨h'.1.trans h.1, h'.2.1.trans h.2.1, h.2.2 ∘ h'.2.2⟩
  next _ _ := ⟨rfl, rfl, id⟩
  prev _ _ := ⟨rfl, rfl, id⟩
  sleepNext _ _ := ⟨rfl, rfl, id⟩
  sleepUntil _ _ := ⟨rfl, rfl, id⟩
  state _ _ alive := ⟨rfl, rfl, fun dead => absurd dead alive⟩

/-- Nothing of what the ledgers are made of changes in the scheduler's memory. -/
structure Frame (sys : System T P) (s : State T P) : Prop where
  fields : ∀ q, Quietly (sys.sched.mem q) (s.mem q)
  dead : ∀ t ∈ sys.threads, (sys.sched.mem (.thread t)).state = .terminated →
    (s.mem (.thread t)).state = .terminated

theorem live_congr (process : ∀ q, (s.mem q).process = (sys.sched.mem q).process)
    (dead : ∀ t ∈ sys.threads, (s.mem (.thread t)).state = .terminated ↔
      (sys.sched.mem (.thread t)).state = .terminated) (p : P) :
    (sys.with s).live p = sys.live p := by
  refine tally_congr fun t ht => ?_
  show (s.mem (.thread t)).process = some p ∧ (s.mem (.thread t)).state ≠ .terminated ↔ _
  rw [process]
  exact and_congr_right fun _ => not_congr (dead t ht)

theorem members_congr (process : ∀ q, (s.mem q).process = (sys.sched.mem q).process) (p : P) :
    (sys.with s).members p = sys.members p := by
  refine tally_congr fun t _ => ?_
  show (s.mem (.thread t)).process = some p ↔ _
  rw [process]

/-- Only the wait links change. -/
theorem ledger_relinked {links : Ptr T → Option (Ptr T)}
    (process : ∀ q, (s.mem q).process = (sys.sched.mem q).process)
    (dead : ∀ t ∈ sys.threads, (s.mem (.thread t)).state = .terminated ↔
      (sys.sched.mem (.thread t)).state = .terminated)
    (linked : ∀ q, (s.mem q).waitNext = links q) (p : P) :
    (sys.with s).ledger p = { sys.ledger p with links := links } := by
  have all : (fun q => (s.mem q).waitNext) = links := funext linked
  unfold System.ledger
  rw [live_congr process dead, members_congr process]
  exact congrArg (fun l => (⟨_, _, l, _, _⟩ : Ledger T)) all

theorem Frame.ledger (h : Frame sys s) (p : P) : (sys.with s).ledger p = sys.ledger p :=
  ledger_relinked (fun q => (h.fields q).1) (fun t ht => ⟨(h.fields _).2.2, h.dead t ht⟩)
    (fun q => (h.fields q).2.1) p

/-! ## The books -/

/-- A process is settled, or the current thread is ending it. -/
structure Books (sys : System T P) : Prop where
  phase : ∀ c p, (sys.pc c).window = some p → sys.sched.current = some (.thread c) ∧
    (sys.ledger p).Phase (sys.Of c p) (sys.pc c)
  settled : ∀ p, (∀ c, (sys.pc c).window ≠ some p) → (sys.ledger p).Settled

/-- What the ledger of `p` is with the current thread at `x`. -/
def Entry (sys : System T P) (c : T) (x : Pc T P) (p : P) : Prop :=
  x.window = some p ∧ (sys.ledger p).Phase (sys.Of c p) x ∨
    x.window ≠ some p ∧ (sys.ledger p).Settled

theorem Books.entry (b : Books sys) (current : sys.sched.current = some (.thread c)) (p : P) :
    Entry sys c (sys.pc c) p := by
  by_cases h : (sys.pc c).window = some p
  · exact .inl ⟨h, (b.phase c p h).2⟩
  · refine .inr ⟨h, b.settled p fun d hd => ?_⟩
    have same := Option.some.inj (current.symm.trans (b.phase d p hd).1)
    cases same
    exact h hd

/-- The current thread goes on to another statement. -/
theorem Books.move (b : Books sys) (current : sys.sched.current = some (.thread c))
    (pc : sys'.pc = Function.update sys.pc c y)
    (stays : ∀ p, y.window = some p → sys'.sched.current = some (.thread c))
    (entry : ∀ p, Entry sys c (sys.pc c) p → Entry sys' c y p) : Books sys' := by
  have self : sys'.pc c = y := by rw [pc, Function.update_self]
  have other : ∀ d, d ≠ c → sys'.pc d = sys.pc d := fun d e => by
    rw [pc, Function.update_of_ne e]
  refine ⟨fun d p hd => ?_, fun p none => ?_⟩
  · by_cases e : d = c
    · subst e
      rw [self] at hd ⊢
      obtain ⟨-, phase⟩ | ⟨no, -⟩ := entry p (b.entry current p)
      · exact ⟨stays p hd, phase⟩
      · exact absurd hd no
    · rw [other d e] at hd
      have same := Option.some.inj (current.symm.trans (b.phase d p hd).1)
      cases same
      exact absurd rfl e
  · obtain ⟨no, -⟩ | ⟨-, settled⟩ := entry p (b.entry current p)
    · exact absurd (self ▸ no) (none c)
    · exact settled

/-- The ledger stays as it is, and so does what the current thread is about to do to it. -/
theorem Entry.same (h : Entry sys c x p) (hx : x.window ≠ some p) (hy : y.window ≠ some p)
    (ledger : sys'.ledger p = sys.ledger p) : Entry sys' c y p := by
  obtain ⟨no, -⟩ | ⟨-, settled⟩ := h
  · exact absurd no hx
  · exact .inr ⟨hy, ledger ▸ settled⟩

theorem Entry.settled (h : Entry sys c x p) (hx : x.window ≠ some p) : (sys.ledger p).Settled := by
  obtain ⟨no, -⟩ | ⟨-, settled⟩ := h
  · exact absurd no hx
  · exact settled

theorem Entry.phase (h : Entry sys c x p) (hx : x.window = some p) :
    (sys.ledger p).Phase (sys.Of c p) x := by
  obtain ⟨-, phase⟩ | ⟨no, -⟩ := h
  · exact phase
  · exact absurd hx no

/-- The current thread only goes on, and no ledger changes. -/
theorem Books.quiet (b : Books sys) (current : sys.sched.current = some (.thread c))
    (pc : sys'.pc = Function.update sys.pc c y) (hx : (sys.pc c).window = none)
    (hy : y.window = none) (ledger : ∀ p, sys'.ledger p = sys.ledger p) : Books sys' := by
  refine b.move current pc (fun p no => ?_) fun p entry => ?_
  · rw [hy] at no
    cases no
  · exact entry.same (by rw [hx]; exact (Option.some_ne_none p).symm)
      (by rw [hy]; exact (Option.some_ne_none p).symm) (ledger p)

theorem Books.timer (b : Books sys) {n : Nat} (free : Uninterrupted sys n)
    (ticked : Sched.timer n sys.sched = some s) (frame : Frame sys s) : Books (sys.with s) := by
  refine ⟨fun d p hd => ?_, fun p none => ?_⟩
  · obtain ⟨current, phase⟩ := b.phase d p hd
    have busy : (sys.pc d).window ≠ none := fun no => Option.some_ne_none p (hd.symm.trans no)
    refine ⟨free d current busy s ticked, ?_⟩
    have own : (sys.with s).Of d p = sys.Of d p := congrArg (· = some p) (frame.fields _).1
    rw [frame.ledger p, own]
    exact phase
  · rw [frame.ledger p]
    exact b.settled p none

/-- The current thread goes on, and does something for `p` only. -/
theorem Books.within (b : Books sys) (current : sys.sched.current = some (.thread c))
    (at_ : sys.pc c = x) (hx : ∀ q, x.window = some q → q = p)
    (hy : ∀ q, y.window = some q → q = p) (pc : sys'.pc = sys.pc)
    (stays : y.window ≠ none → sys'.sched.current = some (.thread c))
    (rest : ∀ q, q ≠ p → (sys.ledger q).Settled → (sys'.ledger q).Settled)
    (entry : Entry sys c x p → Entry sys' c y p) : Books (sys'.goto c y) := by
  have moved : (sys'.goto c y).pc = Function.update sys.pc c y := by
    rw [← pc]
    rfl
  refine b.move current moved (fun q hq => stays fun no => ?_) fun q old => ?_
  · exact Option.some_ne_none q (hq.symm.trans no)
  · rw [at_] at old
    by_cases e : q = p
    · subst e
      exact entry old
    · exact .inr ⟨fun no => e (hy q no), rest q e (old.settled fun no => e (hx q no))⟩

theorem window_some {p q : P} (h : some p = some q) : q = p := (Option.some.inj h).symm

theorem window_none {q : P} (h : none = some q) : q = p := absurd h.symm (Option.some_ne_none q)

theorem walk_window (p : P) (who : Caller) (w : Option (Ptr T)) (q : P)
    (h : (walk (T := T) p who w).window = some q) : q = p := by
  cases w with
  | some w => exact window_some h
  | none => cases who <;> exact window_none h

theorem ledger_setProc_of_ne {q : P} (e : q ≠ p) (k : KProcess T) :
    (sys.setProc p k).ledger q = sys.ledger q := by
  have same : (sys.setProc p k).proc q = sys.proc q := Function.update_of_ne e _ _
  exact congrArg (fun k => (⟨k, _, _, _, _⟩ : Ledger T)) same

theorem ledger_setProc (p : P) (k : KProcess T) :
    (sys.setProc p k).ledger p = { sys.ledger p with proc := k } := by
  have new : (sys.setProc p k).proc p = k := Function.update_self _ _ _
  exact congrArg (fun k => (⟨k, _, _, _, _⟩ : Ledger T)) new

theorem settled_setProc {q : P} {k : KProcess T} (e : q ≠ p) (h : (sys.ledger q).Settled) :
    ((sys.setProc p k).ledger q).Settled := by
  rw [ledger_setProc_of_ne e]
  exact h

theorem ledger_released_of_ne {q : P} (e : q ≠ p) (w : Ptr T) :
    (sys.released p w).ledger q = sys.ledger q := by
  have same : (sys.released p w).waiters q = sys.waiters q := Function.update_of_ne e _ _
  exact congrArg (fun l => (⟨_, l, _, _, _⟩ : Ledger T)) same

theorem ledger_released (p : P) (w : Ptr T) :
    (sys.released p w).ledger p = { sys.ledger p with waiters := (sys.waiters p).erase w } := by
  have new : (sys.released p w).waiters p = (sys.waiters p).erase w := Function.update_self _ _ _
  exact congrArg (fun l => (⟨_, l, _, _, _⟩ : Ledger T)) new

/-! ## The statements of `TerminateCurrentThread` and `KillProcess` -/

theorem Books.termTest (b : Books sys) (current : sys.sched.current = some (.thread c))
    (at_ : sys.pc c = .termTest p) :
    Books (sys.goto c
      (if (sys.proc p).threadCount > 0 then .termCount p else .termSchedule)) := by
  refine b.within current at_ (fun _ => window_some) (fun q hq => ?_) rfl (fun _ => current)
    (fun _ _ => id) fun entry => ?_
  · split at hq
    · exact window_some hq
    · exact window_none hq
  obtain ⟨own, phase⟩ := entry.phase rfl
  split
  case isTrue some =>
    obtain leaving | ⟨-, zero⟩ := phase
    · exact .inl ⟨rfl, own, leaving⟩
    · have zero : (sys.proc p).threadCount = 0 := zero
      rw [zero] at some
      exact absurd some (BitVec.lt_irrefl 0)
  case isFalse none =>
    obtain leaving | ⟨settled, -⟩ := phase
    · have count : (sys.proc p).threadCount.toNat = sys.live p + 1 := leaving.count
      have some : (sys.proc p).threadCount > 0 := by
        refine BitVec.lt_def.mpr ?_
        rw [count]
        exact Nat.succ_pos _
      exact absurd some none
    · exact .inr ⟨(Option.some_ne_none p).symm, settled⟩

theorem Books.termCount (b : Books sys) (current : sys.sched.current = some (.thread c))
    (at_ : sys.pc c = .termCount p) :
    Books ((sys.setProc p { sys.proc p with threadCount := (sys.proc p).threadCount - 1 }).goto c
      (if (sys.proc p).threadCount - 1 = 0 then .exitSet p .terminate else .termSchedule)) := by
  refine b.within current at_ (fun _ => window_some) (fun q hq => ?_) rfl (fun _ => current)
    (fun _ => settled_setProc) fun entry => ?_
  · split at hq
    · exact window_some hq
    · exact window_none hq
  obtain ⟨own, leaving⟩ := entry.phase rfl
  have before : (sys.proc p).threadCount.toNat = sys.live p + 1 := leaving.count
  have after : ((sys.proc p).threadCount - 1).toNat = sys.live p := by
    have one : (1 : u32) ≤ (sys.proc p).threadCount := BitVec.le_def.mpr (before ▸ Nat.succ_pos _)
    rw [BitVec.toNat_sub_of_le one, before]
    rfl
  have listed : ({ sys.ledger p with proc :=
      { sys.proc p with threadCount := (sys.proc p).threadCount - 1 } } : Ledger T).Listed :=
    ⟨leaving.listed.linked, leaving.listed.woken⟩
  split
  case isTrue zero =>
    refine .inl ⟨rfl, ?_⟩
    show ((sys.setProc p _).ledger p).Phase (sys.Of c p) (Pc.exitSet (T := T) p _)
    rw [ledger_setProc]
    refine ⟨⟨zero, ?_, .inl own⟩, listed⟩
    exact after.symm.trans (congrArg BitVec.toNat zero)
  case isFalse more =>
    refine .inr ⟨(Option.some_ne_none p).symm, ?_⟩
    show ((sys.setProc p _).ledger p).Settled
    rw [ledger_setProc]
    refine ⟨after, listed, fun no => absurd ?_ more⟩
    exact BitVec.eq_of_toNat_eq (after.trans no)

theorem Books.killCount (b : Books sys) (current : sys.sched.current = some (.thread c))
    {marked : Bool} (at_ : sys.pc c = .killCount p marked) (dead : sys.live p = 0) :
    Books ((sys.setProc p { sys.proc p with threadCount := 0 }).goto c (.exitSet p .kill)) := by
  refine b.within current at_ (fun q hq => ?_) (fun _ => window_some) rfl (fun _ => current)
    (fun _ => settled_setProc) fun entry => ?_
  · cases marked with
    | true => exact window_some hq
    | false => exact window_none hq
  refine .inl ⟨rfl, ?_⟩
  show ((sys.setProc p _).ledger p).Phase (sys.Of c p) (Pc.exitSet (T := T) p _)
  rw [ledger_setProc]
  cases marked with
  | true =>
    obtain ⟨own, listed⟩ := entry.phase rfl
    exact ⟨⟨rfl, dead, .inl own⟩, listed.linked, listed.woken⟩
  | false =>
    have settled := entry.settled (Option.some_ne_none p).symm
    have mine : 0 < sys.members p → (sys.proc p).exited = true ∧ sys.waiters p = [] := fun some =>
      have exited := settled.ended dead some
      ⟨exited, settled.listed.woken exited⟩
    exact ⟨⟨rfl, dead, .inr mine⟩, settled.listed.linked, settled.listed.woken⟩

theorem Books.exitSet (b : Books sys) (current : sys.sched.current = some (.thread c))
    {who : Caller} (at_ : sys.pc c = .exitSet p who) (first : Bool) :
    Books ((sys.setProc p { sys.proc p with exited := true }).goto c (.exitTake p who first)) := by
  refine b.within current at_ (fun _ => window_some) (fun _ => window_some) rfl (fun _ => current)
    (fun _ => settled_setProc) fun entry => .inl ⟨rfl, ?_⟩
  obtain ⟨ending, listed⟩ := entry.phase rfl
  show ((sys.setProc p _).ledger p).Phase (sys.Of c p) (Pc.exitTake (T := T) p _ _)
  rw [ledger_setProc]
  exact ⟨⟨ending.count, ending.live, ending.mine.imp_right fun h some => ⟨rfl, (h some).2⟩⟩, rfl,
    listed.linked⟩

theorem Books.exitTake (b : Books sys) (current : sys.sched.current = some (.thread c))
    {who : Caller} {first : Bool} (at_ : sys.pc c = .exitTake p who first) :
    Books (sys.goto c (.exitClear p who first (sys.proc p).exitWaiters)) := by
  refine b.within current at_ (fun _ => window_some) (fun _ => window_some) rfl (fun _ => current)
    (fun _ _ => id) fun entry => .inl ⟨rfl, ?_⟩
  obtain ⟨ending, exited, linked⟩ := entry.phase rfl
  exact ⟨ending, exited, rfl, linked⟩

/-- At the head of the loop over the waiters. -/
theorem entry_walk (h : (sys.ledger p).Waking (sys.Of c p) w) (who : Caller) :
    Entry sys c (walk p who w) p := by
  cases w with
  | some w => exact .inl ⟨rfl, h⟩
  | none => cases who <;> exact .inr ⟨(Option.some_ne_none p).symm, h.settled⟩

theorem Books.exitClear (b : Books sys) (current : sys.sched.current = some (.thread c))
    {who : Caller} {first : Bool} (at_ : sys.pc c = .exitClear p who first w) :
    Books ((sys.setProc p { sys.proc p with exitWaiters := none }).goto c (walk p who w)) := by
  refine b.within current at_ (fun _ => window_some) (walk_window p who w) rfl (fun _ => current)
    (fun _ => settled_setProc) fun entry => ?_
  obtain ⟨ending, exited, -, linked⟩ := entry.phase rfl
  refine entry_walk ?_ who
  show ((sys.setProc p _).ledger p).Waking (sys.Of c p) w
  rw [ledger_setProc]
  exact ⟨⟨ending.count, ending.live, ending.mine⟩, exited, rfl, linked⟩

theorem Books.wakeNext (b : Books sys) (current : sys.sched.current = some (.thread c))
    {who : Caller} {a : Ptr T} (at_ : sys.pc c = .wakeNext p who a) :
    Books (sys.goto c (.wakeClear p who a (sys.sched.mem a).waitNext)) := by
  refine b.within current at_ (fun _ => window_some) (fun _ => window_some) rfl (fun _ => current)
    (fun _ _ => id) fun entry => .inl ⟨rfl, ?_⟩
  have waking := entry.phase rfl
  obtain ⟨l, rest, linked⟩ := waking.linked.eq_cons
  have fresh : a ∉ l := (List.nodup_cons.mp (rest ▸ waking.linked.nodup)).1
  exact ⟨waking.ending, waking.exited, waking.exitWaiters, l, rest, fresh, linked⟩

/-- A write of one wait link. -/
theorem ledger_setWaitNext (a : Ptr T) (v : Option (Ptr T)) (q : P) :
    (sys.with (sys.sched.setWaitNext a v)).ledger q =
      { sys.ledger q with links := Function.update (sys.ledger q).links a v } := by
  refine ledger_relinked (sys.sched.setWaitNext_process a v) (fun t _ => ?_)
    (sys.sched.setWaitNext_waitNext a v) q
  rw [State.setWaitNext_state]

/-- Other processes do not mind the write if the thread waits for none of them. -/
theorem settled_setWaitNext {a : Ptr T} {v : Option (Ptr T)} {q : P} (apart : a ∉ sys.waiters q)
    (h : (sys.ledger q).Settled) :
    ((sys.with (sys.sched.setWaitNext a v)).ledger q).Settled := by
  rw [ledger_setWaitNext]
  refine h.relink fun r hr => Function.update_of_ne (fun e => ?_) _ _
  rw [e] at hr
  exact apart hr

theorem Books.wakeClear (b : Books sys) (current : sys.sched.current = some (.thread c))
    (apart : ∀ q r a, a ∈ sys.waiters q → a ∈ sys.waiters r → q = r)
    {who : Caller} {a : Ptr T} (at_ : sys.pc c = .wakeClear p who a w) :
    Books ((sys.with (sys.sched.setWaitNext a none)).goto c (.wakeTest p who a w)) := by
  refine b.within current at_ (fun _ => window_some) (fun _ => window_some) rfl (fun _ => current)
    ?_ fun entry => .inl ⟨rfl, ?_⟩
  · intro q e settled
    have woken := (b.phase c p (by rw [at_]; rfl)).2
    rw [at_] at woken
    obtain ⟨l, mine, -⟩ := woken.rest
    have here : a ∈ (sys.ledger p).waiters := by
      rw [mine]
      exact List.mem_cons_self
    exact settled_setWaitNext (fun there => e (apart q p a there here)) settled
  · obtain ⟨ending, exited, exitWaiters, l, mine, fresh, linked⟩ := entry.phase rfl
    have own : (sys.with (sys.sched.setWaitNext a none)).Of c p = sys.Of c p :=
      congrArg (· = some p) (sys.sched.setWaitNext_process a none _)
    show ((sys.with _).ledger p).Phase ((sys.with _).Of c p) _
    rw [ledger_setWaitNext, own]
    exact ⟨⟨ending.count, ending.live, ending.mine⟩, exited, exitWaiters, l, mine, fresh,
      linked.update fresh⟩

/-- A waiter is through. -/
theorem waking_released {L : Ledger T} {own : Prop} {a : Ptr T} (h : L.Woken own a w) :
    { L with waiters := L.waiters.erase a }.Waking own w := by
  obtain ⟨ending, exited, exitWaiters, l, mine, -, linked⟩ := h
  have rest : L.waiters.erase a = l := by rw [mine, List.erase_cons_head]
  refine ⟨⟨ending.count, ending.live, ending.mine.imp_right fun h some => ?_⟩, exited, exitWaiters,
    rest ▸ linked⟩
  rw [mine] at h
  exact absurd (h some).2 (List.cons_ne_nil _ _)

theorem settled_released {q : P} {a : Ptr T} (e : q ≠ p) (h : (sys.ledger q).Settled) :
    ((sys.released p a).ledger q).Settled := by
  rw [ledger_released_of_ne e]
  exact h

theorem Books.wakeTest (b : Books sys) (current : sys.sched.current = some (.thread c))
    {who : Caller} {a : Ptr T} (at_ : sys.pc c = .wakeTest p who a w) :
    Books ((sys.released p a).goto c (walk p who w)) ∧ Books (sys.goto c (.wakePush p who a w)) := by
  refine ⟨b.within current at_ (fun _ => window_some) (walk_window p who w) rfl (fun _ => current)
    (fun _ => settled_released) fun entry => entry_walk ?_ who,
    b.within current at_ (fun _ => window_some) (fun _ => window_some) rfl (fun _ => current)
    (fun _ _ => id) fun entry => .inl ⟨rfl, entry.phase rfl⟩⟩
  show ((sys.released p a).ledger p).Waking (sys.Of c p) w
  rw [ledger_released]
  exact waking_released (entry.phase rfl)

theorem Books.wakePush (b : Books sys) (current : sys.sched.current = some (.thread c))
    (frame : Frame sys s) (stays : s.current = sys.sched.current)
    {who : Caller} {a : Ptr T} (at_ : sys.pc c = .wakePush p who a w) :
    Books (((sys.released p a).with s).goto c (walk p who w)) := by
  have frame' : Frame (sys.released p a) s := ⟨frame.fields, frame.dead⟩
  refine b.within current at_ (fun _ => window_some) (walk_window p who w) rfl
    (fun _ => stays.trans current) ?_ fun entry => entry_walk ?_ who
  · intro q e settled
    rw [frame'.ledger]
    exact settled_released e settled
  · have own : ((sys.released p a).with s).Of c p = sys.Of c p :=
      congrArg (· = some p) (frame.fields _).1
    show (((sys.released p a).with s).ledger p).Waking _ w
    rw [frame'.ledger, ledger_released]
    show Ledger.Waking _ (((sys.released p a).with s).Of c p) w
    rw [own]
    exact waking_released (entry.phase rfl)

/-! ## Threads that are terminated -/

/-- The records of the threads, with one of them terminated. -/
theorem mem_terminate (sys : System T P) (t : T) :
    (fun u => (sys.with (sys.sched.setState (.thread t) .terminated)).sched.mem (.thread u)) =
      Function.update (fun u => sys.sched.mem (.thread u)) t
        { sys.sched.mem (.thread t) with state := .terminated } := by
  funext u
  show (sys.sched.setState (.thread t) .terminated).mem (.thread u) = _
  unfold State.setState
  by_cases e : u = t
  · rw [e, State.write_self, Function.update_self]
  · rw [State.write_of_ne fun no => e (Ptr.thread.inj no), Function.update_of_ne e]

theorem live_terminate {t : T} (counted : t ∈ sys.threads) (of : sys.Of t p)
    (alive : (sys.sched.mem (.thread t)).state ≠ .terminated) :
    (sys.with (sys.sched.setState (.thread t) .terminated)).live p + 1 = sys.live p := by
  have pos : 0 < sys.live p := tally_pos counted ⟨of, alive⟩
  have fewer : (sys.with (sys.sched.setState (.thread t) .terminated)).live p = sys.live p - 1 := by
    unfold System.live
    rw [mem_terminate]
    exact tally_leave counted ⟨of, alive⟩ fun no => no.2 rfl
  rw [fewer]
  exact Nat.sub_add_cancel pos

theorem live_terminate_same {t : T}
    (dead : sys.Of t p → (sys.sched.mem (.thread t)).state = .terminated) :
    (sys.with (sys.sched.setState (.thread t) .terminated)).live p = sys.live p := by
  unfold System.live
  rw [mem_terminate]
  exact tally_same ⟨fun no => absurd rfl no.2, fun no => absurd (dead no.1) no.2⟩

theorem ledger_terminate (t : T) (p : P) :
    (sys.with (sys.sched.setState (.thread t) .terminated)).ledger p =
      { sys.ledger p with
        live := (sys.with (sys.sched.setState (.thread t) .terminated)).live p } := by
  have links : (fun q => ((sys.sched.setState (.thread t) .terminated).mem q).waitNext) =
      fun q => (sys.sched.mem q).waitNext := funext fun q => State.setState_waitNext _ _ _ q
  unfold System.ledger
  rw [members_congr fun q => State.setState_process _ _ _ q]
  exact congrArg (fun l => (⟨_, _, l, _, _⟩ : Ledger T)) links

/-- Nothing changes for a process the thread does not belong to. -/
theorem ledger_terminate_same {t : T}
    (dead : sys.Of t p → (sys.sched.mem (.thread t)).state = .terminated) :
    (sys.with (sys.sched.setState (.thread t) .terminated)).ledger p = sys.ledger p := by
  rw [ledger_terminate, live_terminate_same dead]
  rfl

theorem of_terminate (t u : T) (p : P) :
    (sys.with (sys.sched.setState (.thread t) .terminated)).Of u p = sys.Of u p :=
  congrArg (· = some p) (State.setState_process _ _ _ _)

theorem not_of {t : T} {q : P} (of : sys.Of t p) (e : q ≠ p) : ¬ sys.Of t q := fun no =>
  e (Option.some.inj (no.symm.trans of))

theorem mark_window {i : Nat} {marked : Bool} (q : P)
    (h : (Pc.killMark (T := T) p i marked).window = some q) : q = p := by
  cases marked with
  | true => exact window_some h
  | false => exact window_none h

/-- The list is in order, whether `KillProcess` has marked a thread or not. -/
theorem entry_mark {i : Nat} {marked : Bool} (h : Entry sys c (.killMark p i marked) p) :
    (sys.ledger p).Listed := by
  cases marked with
  | true => exact (h.phase rfl).2
  | false => exact (h.settled (Option.some_ne_none p).symm).listed

theorem Books.killMark (b : Books sys) (current : sys.sched.current = some (.thread c))
    {i : Nat} {marked : Bool} (at_ : sys.pc c = .killMark p i marked) :
    Books (sys.goto c (.killCount p marked)) ∧
      Books (sys.goto c (.killMark p (i + 1) marked)) := by
  have hx : ∀ q, (Pc.killMark (T := T) p i marked).window = some q → q = p := mark_window
  constructor
  · refine b.within current at_ hx hx rfl (fun _ => current) (fun _ _ => id) fun entry => ?_
    cases marked with
    | true => exact .inl ⟨rfl, entry.phase rfl⟩
    | false => exact .inr ⟨(Option.some_ne_none p).symm, entry.settled (Option.some_ne_none p).symm⟩
  · refine b.within current at_ hx hx rfl (fun _ => current) (fun _ _ => id) fun entry => ?_
    cases marked with
    | true => exact .inl ⟨rfl, entry.phase rfl⟩
    | false => exact .inr ⟨(Option.some_ne_none p).symm, entry.settled (Option.some_ne_none p).symm⟩

theorem Books.killThread (b : Books sys) (current : sys.sched.current = some (.thread c))
    {i : Nat} {marked : Bool} (at_ : sys.pc c = .killMark p i marked) {t : T} (of : sys.Of t p)
    (own : sys.Of c p) :
    Books ((sys.with (sys.sched.setState (.thread t) .terminated)).goto c
      (.killMark p (i + 1) true)) := by
  refine b.within current at_ mark_window mark_window rfl (fun _ => current) ?_ fun entry =>
    .inl ⟨rfl, ?_⟩
  · intro q e settled
    rw [ledger_terminate_same fun no => absurd no (not_of of e)]
    exact settled
  · have listed := entry_mark entry
    show ((sys.with _).ledger p).Phase ((sys.with _).Of c p) (Pc.killMark (T := T) p _ true)
    rw [ledger_terminate, of_terminate]
    exact ⟨own, listed.linked, listed.woken⟩

/-- `TerminateCurrentThread` up to `State = TERMINATED`. -/
theorem Books.terminate (b : Books sys) (current : sys.sched.current = some (.thread c))
    (idle : sys.pc c = .idle) (counted : c ∈ sys.threads)
    (orderly : Call.Orderly sys c .terminate) :
    Books ((sys.with (sys.sched.setState (.thread c) .terminated)).goto c
      (match (sys.sched.mem (.thread c)).process with
        | some p => .termTest p
        | none => .termSchedule)) := by
  cases of : (sys.sched.mem (.thread c)).process with
  | none =>
    have not : ∀ q, ¬ sys.Of c q := fun q no => Option.some_ne_none q (no.symm.trans of)
    exact b.quiet current rfl (by rw [idle]; rfl) rfl fun q =>
      ledger_terminate_same fun no => absurd no (not q)
  | some p =>
    refine b.within current idle (fun _ => window_none) (fun _ => window_some) rfl
      (fun _ => current) ?_ fun entry => .inl ⟨rfl, ?_⟩
    · intro q e settled
      rw [ledger_terminate_same fun no => absurd no (not_of of e)]
      exact settled
    · have settled := entry.settled (Option.some_ne_none p).symm
      have count : (sys.proc p).threadCount.toNat = sys.live p := settled.count
      show ((sys.with _).ledger p).Phase ((sys.with _).Of c p) (Pc.termTest (T := T) p)
      rw [of_terminate]
      by_cases dead : (sys.sched.mem (.thread c)).state = .terminated
      · rw [ledger_terminate_same fun _ => dead]
        exact ⟨of, .inr ⟨settled, orderly p of dead⟩⟩
      · rw [ledger_terminate]
        have one := live_terminate counted of dead
        exact ⟨of, .inl ⟨count.trans one.symm, settled.listed.linked, settled.listed.woken⟩⟩

/-! ## Waits and new threads -/

theorem Books.waitLink (b : Books sys) (current : sys.sched.current = some (.thread c))
    (at_ : sys.pc c = .waitLink p) (orderly : (Pc.waitLink p).Orderly sys c)
    (alive : (sys.sched.mem (.thread c)).state ≠ .terminated) :
    Books ((waitLink sys c p).goto c .waitSchedule) := by
  obtain ⟨running, apart⟩ := orderly
  let linked := sys.sched.setWaitNext (.thread c) (sys.proc p).exitWaiters
  have sched : (PS.waitLink sys c p).sched = linked.setState (.thread c) .blocked :=
    Sched.blockCurrentThread_eq (s := linked) current
  have relinked : ∀ q, (sys.with (PS.waitLink sys c p).sched).ledger q =
      { sys.ledger q with
        links := Function.update (sys.ledger q).links (.thread c) (sys.proc p).exitWaiters } := by
    intro q
    rw [sched]
    refine ledger_relinked (fun r => ?_) (fun t _ => ?_) (fun r => ?_) q
    · rw [State.setState_process, State.setWaitNext_process]
    · by_cases e : t = c
      · rw [e, State.setState_state]
        exact ⟨fun no => Sync.ThreadState.noConfusion no, fun no => absurd no alive⟩
      · rw [State.setState_state_of_ne fun no => e (Ptr.thread.inj no), State.setWaitNext_state]
    · rw [State.setState_waitNext, State.setWaitNext_waitNext]
      rfl
  have ledger : ∀ q, (PS.waitLink sys c p).ledger q =
      { (sys.with (PS.waitLink sys c p).sched).ledger q with
        proc := (PS.waitLink sys c p).proc q
        waiters := (PS.waitLink sys c p).waiters q } := fun _ => rfl
  refine b.within current at_ (fun _ => window_none) (fun _ => window_none) rfl
    (fun no => absurd rfl no) ?_ fun entry => .inr ⟨(Option.some_ne_none p).symm, ?_⟩
  · intro q e settled
    have proc : (PS.waitLink sys c p).proc q = sys.proc q := Function.update_of_ne e _ _
    have waiters : (PS.waitLink sys c p).waiters q = sys.waiters q := Function.update_of_ne e _ _
    rw [ledger, relinked, proc, waiters]
    refine settled.relink fun r hr => Function.update_of_ne (fun e => ?_) _ _
    rw [e] at hr
    exact apart q hr
  · have settled := entry.settled (Option.some_ne_none p).symm
    have proc : (PS.waitLink sys c p).proc p = { sys.proc p with exitWaiters := some (.thread c) } :=
      Function.update_self _ _ _
    have waiters : (PS.waitLink sys c p).waiters p = .thread c :: sys.waiters p :=
      Function.update_self _ _ _
    show ((PS.waitLink sys c p).ledger p).Settled
    rw [ledger, relinked, proc, waiters]
    refine ⟨settled.count, ⟨settled.listed.linked.push (apart p), fun exited => ?_⟩, settled.ended⟩
    exact absurd (running.symm.trans exited) Bool.false_ne_true

theorem Books.link (b : Books sys) (current : sys.sched.current = some (.thread c))
    (idle : sys.pc c = .idle) {t : T} {v : Option (Ptr T)}
    (orderly : Call.Orderly sys c (.link t v)) :
    Books (sys.with (sys.sched.setWaitNext (.thread t) v)) := by
  have pc : sys.pc = Function.update sys.pc c .idle := by rw [← idle, Function.update_eq_self]
  refine b.move current pc (fun p no => absurd no.symm (Option.some_ne_none p)) fun q entry =>
    .inr ⟨(Option.some_ne_none q).symm, ?_⟩
  rw [idle] at entry
  exact settled_setWaitNext (orderly q) (entry.settled (Option.some_ne_none q).symm)

/-- A record that no process has counted yet. -/
theorem settled_create {t : T} (fresh : t ∉ sys.threads) (apart : Ptr.thread t ∉ sys.waiters p)
    (k : KThread T P) (h : (sys.ledger p).Settled) :
    ((sys.with (sys.sched.write (.thread t) k)).ledger p).Settled := by
  have mem : (fun u => (sys.with (sys.sched.write (.thread t) k)).sched.mem (.thread u)) =
      Function.update (fun u => sys.sched.mem (.thread u)) t k := funext fun u => by
    show (sys.sched.write (.thread t) k).mem (.thread u) = _
    by_cases e : u = t
    · rw [e, State.write_self, Function.update_self]
    · rw [State.write_of_ne fun no => e (Ptr.thread.inj no), Function.update_of_ne e]
  have live : (sys.with (sys.sched.write (.thread t) k)).live p = sys.live p := by
    unfold System.live
    rw [mem]
    exact tally_update_of_notMem fresh
  have members : (sys.with (sys.sched.write (.thread t) k)).members p = sys.members p := by
    unfold System.members
    rw [mem]
    exact tally_update_of_notMem fresh
  unfold System.ledger
  rw [live, members]
  refine h.relink fun q hq => ?_
  have other : q ≠ .thread t := fun e => apart (e ▸ hq)
  exact congrArg KThread.waitNext (State.write_of_ne other sys.sched k)

theorem Books.createThread (b : Books sys) (current : sys.sched.current = some (.thread c))
    (idle : sys.pc c = .idle) {t : T} (fresh : t ∉ sys.threads)
    (apart : ∀ q, Ptr.thread t ∉ sys.waiters q) (k : KThread T P) (user : Bool)
    (allocated : Finset T) :
    Books (({ sys.with (sys.sched.write (.thread t) k) with allocated := allocated } :
      System T P).goto c (.newCount t p user)) := by
  refine b.move current rfl (fun p no => absurd no.symm (Option.some_ne_none p)) fun q entry =>
    .inr ⟨(Option.some_ne_none q).symm, ?_⟩
  rw [idle] at entry
  exact settled_create fresh (apart q) k (entry.settled (Option.some_ne_none q).symm)

section

variable {t : T} (fresh : t ∉ sys.threads) (of : sys.Of t p)

include fresh of

theorem ledger_counted_of_ne {q : P} (e : q ≠ p) :
    (sys.counted t p).ledger q = sys.ledger q := by
  have proc : (sys.counted t p).proc q = sys.proc q := Function.update_of_ne e _ _
  have live : (sys.counted t p).live q = sys.live q := by
    refine (tally_insert fresh).trans ?_
    rw [if_neg fun no => not_of of e no.1]
    rfl
  have members : (sys.counted t p).members q = sys.members q := by
    have other : ¬ ((sys.counted t p).sched.mem (.thread t)).process = some q := not_of of e
    refine (tally_insert fresh).trans ?_
    rw [if_neg other]
    rfl
  unfold System.ledger
  rw [proc, live, members]
  rfl

theorem ledger_counted (alive : (sys.sched.mem (.thread t)).state ≠ .terminated) :
    (sys.counted t p).ledger p =
      { sys.ledger p with
        proc := { sys.proc p with threadCount := (sys.proc p).threadCount + 1 }
        live := sys.live p + 1
        members := sys.members p + 1 } := by
  have proc : (sys.counted t p).proc p =
      { sys.proc p with threadCount := (sys.proc p).threadCount + 1 } := Function.update_self _ _ _
  have live : (sys.counted t p).live p = sys.live p + 1 := by
    refine (tally_insert fresh).trans ?_
    rw [if_pos ⟨of, alive⟩]
    rfl
  have members : (sys.counted t p).members p = sys.members p + 1 := by
    have mine : ((sys.counted t p).sched.mem (.thread t)).process = some p := of
    refine (tally_insert fresh).trans ?_
    rw [if_pos mine]
    rfl
  unfold System.ledger
  rw [proc, live, members]
  rfl

theorem Books.newCount (b : Books sys) (current : sys.sched.current = some (.thread c))
    {user : Bool} (at_ : sys.pc c = .newCount t p user)
    (alive : (sys.sched.mem (.thread t)).state ≠ .terminated) (room : sys.live p + 1 < 2 ^ 32) :
    Books ((sys.counted t p).goto c (if user then .newReg t else .idle)) := by
  have hy : (if user then Pc.newReg t else .idle : Pc T P).window = none := by
    cases user <;> rfl
  refine b.within (p := p) current at_ (fun _ => window_none)
    (fun q no => window_none (hy.symm.trans no)) rfl (fun no => absurd hy no) ?_
    fun entry => .inr ⟨?_, ?_⟩
  · intro q e settled
    rw [ledger_counted_of_ne fresh of e]
    exact settled
  · rw [hy]
    exact (Option.some_ne_none p).symm
  · have settled := entry.settled (Option.some_ne_none p).symm
    have count : (sys.proc p).threadCount.toNat = sys.live p := settled.count
    rw [ledger_counted fresh of alive]
    refine ⟨?_, ⟨settled.listed.linked, settled.listed.woken⟩, fun none => ?_⟩
    · show ((sys.proc p).threadCount + 1).toNat = sys.live p + 1
      rw [BitVec.toNat_add, count]
      exact Nat.mod_eq_of_lt room
    · exact absurd none (Nat.succ_ne_zero _)

end

end

end MicroNT.PS
