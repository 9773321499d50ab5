import Mathlib.Data.Fintype.Basic
import MicroNT.ProcessExit

/-! # Waiters of a process that has ended (`NtWaitForSingleObject`, `process.cpp`)

A wait tests `exited` with interrupts on and links its thread later. A thread that links
itself into the list of a process whose waiters have been woken already stays in it. -/

set_option linter.unusedSectionVars false

namespace MicroNT.PS

open Base.Machine
open Sched (Ptr KThread)

variable {T P : Type}

/-- Inside `TerminateCurrentThread` or `KillProcess` for this process, with more to do
for it. -/
def Pc.ends (p : P) : Pc T P → Prop
  | .termTest q => q = p
  | .termCount q => q = p
  | .killMark q _ _ => q = p
  | .killCount q _ => q = p
  | .exitSet q _ => q = p
  | .exitTake q _ _ => q = p
  | .exitClear q _ _ _ => q = p
  | .wakeNext q _ _ => q = p
  | .wakeClear q _ _ _ => q = p
  | .wakeTest q _ _ _ => q = p
  | .wakePush q _ _ _ => q = p
  | _ => False

/-- The call that set `exited` has still to clear the list. -/
def Pc.clears (p : P) : Pc T P → Prop
  | .exitTake q _ first => q = p ∧ first = true
  | .exitClear q _ first _ => q = p ∧ first = true
  | _ => False

/-- The process has exited, and no operation that ends it is under way. -/
def Finished (sys : System T P) (p : P) : Prop :=
  (sys.proc p).exited = true ∧ ∀ t, ¬ (sys.pc t).ends p

theorem Pc.ends_of_clears {p : P} {x : Pc T P} (h : x.clears p) : x.ends p := by
  cases x with
  | exitTake => exact h.1
  | exitClear => exact h.1
  | _ => exact False.elim h

/-- A thread links itself into the list of a process only as long as the process has not
exited, or its list has still to be cleared. -/
def Timely (sys : System T P) : Op T P → Prop
  | .go => ∀ c p, sys.sched.current = some (.thread c) → sys.pc c = .waitLink p →
      (sys.proc p).exited = false ∨ ∃ t, (sys.pc t).clears p
  | _ => True

section

variable [DecidableEq T] [DecidableEq P]

instance (p : P) : (x : Pc T P) → Decidable (x.clears p)
  | .exitTake q _ first => inferInstanceAs (Decidable (q = p ∧ first = true))
  | .exitClear q _ first _ => inferInstanceAs (Decidable (q = p ∧ first = true))
  | .idle | .waitLink _ | .waitSchedule | .termTest _ | .termCount _ | .termSchedule | .halted
  | .killMark _ _ _ | .killCount _ _ | .exitSet _ _ | .wakeNext _ _ _ | .wakeClear _ _ _ _
  | .wakeTest _ _ _ _ | .wakePush _ _ _ _ | .newCount _ _ _ | .newReg _ =>
    inferInstanceAs (Decidable False)

instance [Fintype T] [Fintype P] (sys : System T P) : (op : Op T P) → Decidable (Timely sys op)
  | .go =>
    inferInstanceAs (Decidable (∀ c p, sys.sched.current = some (.thread c) →
      sys.pc c = .waitLink p → (sys.proc p).exited = false ∨ ∃ t, (sys.pc t).clears p))
  | .timer _ => inferInstanceAs (Decidable True)
  | .call _ => inferInstanceAs (Decidable True)

variable {sys sys' : System T P} {p : P} {c : T} {x y : Pc T P}

/-! ## What a step does to the lists -/

/-- Nothing is linked, cleared or set. -/
structure Quiet (sys sys' : System T P) : Prop where
  exited : ∀ p, (sys'.proc p).exited = (sys.proc p).exited
  exitWaiters : ∀ p, (sys'.proc p).exitWaiters = (sys.proc p).exitWaiters
  clears : ∀ t p, (sys'.pc t).clears p ↔ (sys.pc t).clears p

theorem Quiet.refl (sys : System T P) : Quiet sys sys :=
  ⟨fun _ => rfl, fun _ => rfl, fun _ _ => Iff.rfl⟩

theorem Quiet.with (h : Quiet sys sys') (s : Sched.State T P) : Quiet sys (sys'.with s) :=
  ⟨h.exited, h.exitWaiters, h.clears⟩

theorem Quiet.released (h : Quiet sys sys') (p : P) (w : Ptr T) : Quiet sys (sys'.released p w) :=
  ⟨h.exited, h.exitWaiters, h.clears⟩

/-- The current thread goes on to a statement that clears what the last one cleared. -/
theorem Quiet.goto (h : Quiet sys sys') (same : ∀ p, x.clears p ↔ (sys.pc c).clears p) :
    Quiet sys (sys'.goto c x) := by
  refine ⟨h.exited, h.exitWaiters, fun t p => ?_⟩
  show ((Function.update sys'.pc c x) t).clears p ↔ _
  by_cases e : t = c
  · rw [e, Function.update_self]
    exact same p
  · rw [Function.update_of_ne e]
    exact h.clears t p

theorem Quiet.setProc (h : Quiet sys sys') {k : KProcess T}
    (exited : k.exited = (sys'.proc p).exited)
    (exitWaiters : k.exitWaiters = (sys'.proc p).exitWaiters) : Quiet sys (sys'.setProc p k) := by
  have same : ∀ q, (Function.update sys'.proc p k q).exited = (sys'.proc q).exited ∧
      (Function.update sys'.proc p k q).exitWaiters = (sys'.proc q).exitWaiters := fun q => by
    by_cases e : q = p
    · rw [e, Function.update_self]
      exact ⟨exited, exitWaiters⟩
    · rw [Function.update_of_ne e]
      exact ⟨rfl, rfl⟩
  exact ⟨fun q => (same q).1.trans (h.exited q), fun q => (same q).2.trans (h.exitWaiters q),
    h.clears⟩

theorem walk_clears (q : P) (who : Caller) (w : Option (Ptr T)) : ¬ (walk q who w).clears p := by
  cases w with
  | some w => exact id
  | none => cases who <;> exact id

/-- The steps that matter to a list of waiters. -/
inductive Did (sys : System T P) : Op T P → System T P → Prop
  | quiet {op : Op T P} {sys' : System T P} (h : Quiet sys sys') : Did sys op sys'
  | link (c : T) (p : P) (current : sys.sched.current = some (.thread c))
      (at_ : sys.pc c = .waitLink p) : Did sys .go ((waitLink sys c p).goto c .waitSchedule)
  | set (c : T) (p : P) (who : Caller) (at_ : sys.pc c = .exitSet p who) :
      Did sys .go ((sys.setProc p { sys.proc p with exited := true }).goto c
        (.exitTake p who (!(sys.proc p).exited)))
  | clear (c : T) (p : P) (who : Caller) (first : Bool) (w : Option (Ptr T))
      (at_ : sys.pc c = .exitClear p who first w) :
      Did sys .go ((sys.setProc p { sys.proc p with exitWaiters := none }).goto c (walk p who w))

/-- From one statement that does not clear a list to another. -/
theorem Quiet.next (h : Quiet sys sys') (at_ : sys.pc c = y) (hy : ∀ p, ¬ y.clears p)
    (hx : ∀ p, ¬ x.clears p) : Quiet sys (sys'.goto c x) :=
  h.goto fun p => ⟨fun no => absurd no (hx p), fun no => absurd (at_ ▸ no) (hy p)⟩

theorem proceed_did (current : sys.sched.current = some (.thread c))
    (h : proceed sys c = some sys') : Did sys .go sys' := by
  have same := Quiet.refl sys
  unfold proceed at h
  dsimp only at h
  split at h
  case h_1 => cases h
  case h_2 => cases h
  case h_3 p at_ =>
    cases h
    exact .link c p current at_
  case h_4 at_ =>
    cases h
    exact .quiet ((same.with _).next at_ (fun _ => id) fun _ => id)
  case h_5 p at_ =>
    cases h
    refine .quiet (same.next at_ (fun _ => id) fun q => ?_)
    split <;> exact id
  case h_6 p at_ =>
    cases h
    refine .quiet (Quiet.next (same.setProc rfl rfl) at_ (fun _ => id) fun q => ?_)
    split <;> exact id
  case h_7 at_ =>
    cases h
    exact .quiet ((same.with _).next at_ (fun _ => id) fun _ => id)
  case h_8 p i marked at_ =>
    split at h
    · cases h
      exact .quiet (same.next at_ (fun _ => id) fun _ => id)
    · split at h
      · cases h
        exact .quiet ((same.with _).next at_ (fun _ => id) fun _ => id)
      · cases h
        exact .quiet (same.next at_ (fun _ => id) fun _ => id)
  case h_9 p marked at_ =>
    cases h
    exact .quiet (Quiet.next (same.setProc rfl rfl) at_ (fun _ => id) fun _ => id)
  case h_10 p who at_ =>
    cases h
    exact .set c p who at_
  case h_11 p who first at_ =>
    cases h
    exact .quiet (same.goto fun q => by rw [at_]; exact Iff.rfl)
  case h_12 p who first w at_ =>
    cases h
    exact .clear c p who first w at_
  case h_13 p who w at_ =>
    cases h
    exact .quiet (same.next at_ (fun _ => id) fun _ => id)
  case h_14 p who w nxt at_ =>
    cases h
    exact .quiet ((same.with _).next at_ (fun _ => id) fun _ => id)
  case h_15 p who w nxt at_ =>
    split at h
    · cases h
      exact .quiet ((same.released p w).next at_ (fun _ => id) fun _ => walk_clears p who nxt)
    · cases h
      exact .quiet (same.next at_ (fun _ => id) fun _ => id)
  case h_16 p who w nxt at_ =>
    cases h
    exact .quiet (((same.released p w).with _).next at_ (fun _ => id)
      fun _ => walk_clears p who nxt)
  case h_17 t p user at_ =>
    cases h
    have set := same.setProc (p := p)
      (k := { sys.proc p with threadCount := (sys.proc p).threadCount + 1 }) rfl rfl
    have counted : Quiet sys (sys.counted t p) := ⟨set.exited, set.exitWaiters, set.clears⟩
    refine .quiet (counted.next at_ (fun _ => id) fun q => ?_)
    split <;> exact id
  case h_18 t at_ =>
    cases h
    exact .quiet (Quiet.next ⟨same.exited, same.exitWaiters, same.clears⟩ at_ (fun _ => id)
      fun _ => id)

theorem call_quiet (idle : sys.pc c = .idle) {a : Call T P} (h : call sys c a = some sys') :
    Quiet sys sys' := by
  have same := Quiet.refl sys
  cases a with
  | wait p timeout =>
    obtain ⟨-, ⟨⟩⟩ := Option.ite_none_right_eq_some.mp h
    split
    · exact same
    · exact same.next idle (fun _ => id) fun _ => id
  | terminate =>
    cases h
    refine (same.with _).next idle (fun _ => id) fun q => ?_
    split <;> exact id
  | kill p =>
    cases h
    split
    · exact same.next idle (fun _ => id) fun _ => id
    · exact same
  | createProcess p cr3 =>
    obtain ⟨-, ⟨⟩⟩ := Option.ite_none_right_eq_some.mp h
    exact ⟨same.exited, same.exitWaiters, same.clears⟩
  | createThread t user process stackBase stackSize teb =>
    obtain ⟨-, ⟨⟩⟩ := Option.ite_none_right_eq_some.mp h
    exact Quiet.next ⟨same.exited, same.exitWaiters, same.clears⟩ idle (fun _ => id) fun _ => id
  | schedule =>
    cases h
    exact same.with _
  | block =>
    cases h
    exact same.with _
  | sleep ms =>
    cases h
    exact same.with _
  | makeReady t | remove t | setPriority t pri | link t v =>
    obtain ⟨-, ⟨⟩⟩ := Option.ite_none_right_eq_some.mp h
    exact same.with _

theorem step_did {op : Op T P} (h : step sys op = some sys') : Did sys op sys' := by
  cases op with
  | timer n =>
    obtain ⟨s, -, rfl⟩ := Option.map_eq_some_iff.mp h
    exact .quiet ((Quiet.refl sys).with s)
  | go =>
    dsimp only [step] at h
    split at h
    case h_1 c current => exact proceed_did current h
    case h_2 => cases h
  | call a =>
    dsimp only [step] at h
    split at h
    case h_1 c current =>
      obtain ⟨idle, h⟩ := Option.ite_none_right_eq_some.mp h
      exact .quiet (call_quiet idle h)
    case h_2 => cases h

/-! ## No list is left behind -/

/-- A process that has exited has no waiters, or the call that will clear its list is
under way. -/
def Clearing (sys : System T P) : Prop :=
  ∀ p, (sys.proc p).exited = true →
    (sys.proc p).exitWaiters = none ∨ ∃ t, (sys.pc t).clears p

/-- The list of this process has been cleared for good. -/
structure Cleared (p : P) (sys : System T P) : Prop where
  exited : (sys.proc p).exited = true
  exitWaiters : (sys.proc p).exitWaiters = none
  ended : ∀ t, ¬ (sys.pc t).clears p

theorem waitLink_exited (sys : System T P) (c : T) (p q : P) :
    ((waitLink sys c p).proc q).exited = (sys.proc q).exited := by
  show (Function.update sys.proc p _ q).exited = _
  by_cases e : q = p
  · rw [e, Function.update_self]
  · rw [Function.update_of_ne e]

theorem waitLink_exitWaiters {q : P} (e : q ≠ p) (sys : System T P) (c : T) :
    ((waitLink sys c p).proc q).exitWaiters = (sys.proc q).exitWaiters := by
  show (Function.update sys.proc p _ q).exitWaiters = _
  rw [Function.update_of_ne e]

/-- A step of a thread that clears nothing leaves alone who clears the list. -/
theorem clears_goto {q : P} (same : sys'.pc = sys.pc) (not : ¬ (sys.pc c).clears q)
    (clearing : ∃ t, (sys.pc t).clears q) : ∃ t, ((sys'.goto c x).pc t).clears q := by
  obtain ⟨t, ht⟩ := clearing
  have other : t ≠ c := fun e => not (e ▸ ht)
  refine ⟨t, ?_⟩
  show ((Function.update sys'.pc c x) t).clears q
  rwa [Function.update_of_ne other, same]

/-- Nobody clears the list after a step to a statement that does not. -/
theorem not_clears_goto (same : sys'.pc = sys.pc) (ended : ∀ t, ¬ (sys.pc t).clears p)
    (not : ¬ x.clears p) (t : T) : ¬ ((sys'.goto c x).pc t).clears p := by
  show ¬ ((Function.update sys'.pc c x) t).clears p
  by_cases e : t = c
  · rw [e, Function.update_self]
    exact not
  · rw [Function.update_of_ne e, same]
    exact ended t

/-- **One step**, if no thread links itself too late. -/
theorem Clearing.step (inv : Clearing sys) {op : Op T P} (timely : Timely sys op)
    (h : step sys op = some sys') : Clearing sys' := by
  obtain ⟨quiet⟩ | ⟨c, p, current, at_⟩ | ⟨c, p, who, at_⟩ | ⟨c, p, who, first, w, at_⟩ := step_did h
  · intro q exited
    rw [quiet.exitWaiters]
    refine (inv q ((quiet.exited q).symm.trans exited)).imp_right fun clearing => ?_
    obtain ⟨t, ht⟩ := clearing
    exact ⟨t, (quiet.clears t q).mpr ht⟩
  · intro q exited
    have before : (sys.proc q).exited = true := (waitLink_exited sys c p q).symm.trans exited
    have not : ¬ (sys.pc c).clears q := by
      rw [at_]
      exact id
    by_cases e : q = p
    · subst e
      obtain open_ | clearing := timely c q current at_
      · rw [open_] at before
        cases before
      · exact .inr (clears_goto rfl not clearing)
    · exact (inv q before).imp (waitLink_exitWaiters e sys c).trans (clears_goto rfl not)
  · intro q exited
    have not : ¬ (sys.pc c).clears q := by
      rw [at_]
      exact id
    by_cases e : q = p
    · subst e
      cases old : (sys.proc q).exited with
      | false =>
        refine .inr ⟨c, ?_⟩
        show ((Function.update sys.pc c (Pc.exitTake q who true)) c).clears q
        rw [Function.update_self]
        exact ⟨rfl, rfl⟩
      | true =>
        have same : ((sys.setProc q { sys.proc q with exited := true }).proc q).exitWaiters =
            (sys.proc q).exitWaiters := by
          show (Function.update sys.proc q _ q).exitWaiters = _
          rw [Function.update_self]
        exact (inv q old).imp same.trans (clears_goto rfl not)
    · have same : (sys.setProc p { sys.proc p with exited := true }).proc q = sys.proc q :=
        Function.update_of_ne e _ _
      exact (inv q ((congrArg _ same).symm.trans exited)).imp (congrArg _ same).trans
        (clears_goto rfl not)
  · intro q exited
    by_cases e : q = p
    · subst e
      refine .inl ?_
      show (Function.update sys.proc q _ q).exitWaiters = none
      rw [Function.update_self]
    · have same : (sys.setProc p { sys.proc p with exitWaiters := none }).proc q = sys.proc q :=
        Function.update_of_ne e _ _
      have not : ¬ (sys.pc c).clears q := by
        rw [at_]
        exact fun clears => e clears.1.symm
      exact (inv q ((congrArg _ same).symm.trans exited)).imp (congrArg _ same).trans
        (clears_goto rfl not)

/-- Once the list is cleared, no thread links itself any more. -/
theorem Cleared.step (inv : Cleared p sys) {op : Op T P} (timely : Timely sys op)
    (h : step sys op = some sys') : Cleared p sys' := by
  obtain ⟨quiet⟩ | ⟨c, q, current, at_⟩ | ⟨c, q, who, at_⟩ | ⟨c, q, who, first, w, at_⟩ := step_did h
  · exact ⟨(quiet.exited p).trans inv.exited, (quiet.exitWaiters p).trans inv.exitWaiters,
      fun t ht => inv.ended t ((quiet.clears t p).mp ht)⟩
  · by_cases e : p = q
    · subst e
      obtain open_ | ⟨t, ht⟩ := timely c p current at_
      · rw [inv.exited] at open_
        cases open_
      · exact absurd ht (inv.ended t)
    · exact ⟨(waitLink_exited sys c q p).trans inv.exited,
        (waitLink_exitWaiters e sys c).trans inv.exitWaiters,
        not_clears_goto rfl inv.ended id⟩
  · by_cases e : p = q
    · subst e
      have new : (sys.setProc p { sys.proc p with exited := true }).proc p =
          { sys.proc p with exited := true } := Function.update_self _ _ _
      refine ⟨congrArg _ new, (congrArg _ new).trans inv.exitWaiters,
        not_clears_goto rfl inv.ended ?_⟩
      rw [inv.exited]
      exact fun no => Bool.false_ne_true no.2
    · have same : (sys.setProc q { sys.proc q with exited := true }).proc p = sys.proc p :=
        Function.update_of_ne e _ _
      exact ⟨(congrArg _ same).trans inv.exited, (congrArg _ same).trans inv.exitWaiters,
        not_clears_goto rfl inv.ended fun no => e no.1.symm⟩
  · have rest : ¬ (walk (T := T) q who w).clears p := walk_clears q who w
    by_cases e : p = q
    · subst e
      have new : (sys.setProc p { sys.proc p with exitWaiters := none }).proc p =
          { sys.proc p with exitWaiters := none } := Function.update_self _ _ _
      exact ⟨(congrArg _ new).trans inv.exited, congrArg _ new, not_clears_goto rfl inv.ended rest⟩
    · have same : (sys.setProc q { sys.proc q with exitWaiters := none }).proc p = sys.proc p :=
        Function.update_of_ne e _ _
      exact ⟨(congrArg _ same).trans inv.exited, (congrArg _ same).trans inv.exitWaiters,
        not_clears_goto rfl inv.ended rest⟩

theorem Clearing.booted {main : T} (h : Booted sys main) : Clearing sys := by
  intro p exited
  have none : (sys.proc p).exited = false := by
    by_cases e : p = sys.system
    · rw [e, h.system]
    · rw [h.others p e]
      rfl
  rw [none] at exited
  cases exited

/-- **No waiter is left behind.** In a run where no thread links itself too late, the list
of a process that has exited is empty once the operation that ended it has finished, and
it stays empty. -/
theorem exit_waiters_stay_empty {main : T} (h : Booted sys main) (ops₁ ops₂ : List (Op T P))
    {s₁ s₂ : System T P} (timely : Along step Timely sys (ops₁ ++ ops₂))
    (h₁ : run step sys ops₁ = some s₁) (finished : Finished s₁ p)
    (h₂ : run step s₁ ops₂ = some s₂) : (s₂.proc p).exitWaiters = none := by
  obtain ⟨before, after⟩ := along_append.mp timely
  have clearing : Clearing s₁ :=
    run_invariant (fun _ _ _ inv timely h => inv.step timely h) (Clearing.booted h) before h₁
  have ended : ∀ t, ¬ (s₁.pc t).clears p := fun t ht => finished.2 t (Pc.ends_of_clears ht)
  have cleared : Cleared p s₁ := by
    refine ⟨finished.1, (clearing p finished.1).resolve_right fun no => ?_, ended⟩
    obtain ⟨t, ht⟩ := no
    exact ended t ht
  exact (run_invariant (fun _ _ _ inv timely h => inv.step timely h) cleared (after s₁ h₁)
    h₂).exitWaiters

end

/-! ## Two runs -/

/-- Right after the boot, with room for one more process and one more thread. -/
def bootSystem : System Bool Bool where
  sched :=
    { mem := fun q =>
        match q with
        | .sentinel pri =>
          { (KThread.zero : KThread Bool Bool) with
            next := some (.sentinel pri)
            prev := some (.sentinel pri) }
        | .thread _ =>
          { (KThread.zero : KThread Bool Bool) with
            state := .running
            process := some false }
      cr3 := fun _ => 0x1000
      current := some (.thread false)
      active := true
      quantum := Sched.QUANTUM_TICKS
      sleepHead := none
      pitTicks := 0
      cpu := ⟨0x1000, 0, 0, 0⟩ }
  proc := fun p => if p = false then ⟨1, false, none⟩ else KProcess.zero
  pc := fun _ => .idle
  threadReg := []
  procReg := [false]
  system := false
  known := fun p => !p
  allocated := {false}
  threads := {false}
  waiters := fun _ => []

theorem bootSystem_booted : Booted bootSystem false where
  current := rfl
  running := rfl
  process := rfl
  next q r e := by
    cases q with
    | sentinel pri =>
      cases e
      exact ⟨pri, rfl⟩
    | thread t => cases e
  prev q r e := by
    cases q with
    | sentinel pri =>
      cases e
      exact ⟨pri, rfl⟩
    | thread t => cases e
  sleepNext q := by cases q <;> rfl
  sleepHead := rfl
  system := rfl
  others p other := if_neg other
  pc _ := rfl
  threadReg := rfl
  procReg := rfl
  known p := by cases p <;> decide
  allocated := rfl
  threads := rfl
  waiters _ := rfl

/-- The main thread starts a process with one thread. -/
def launch : List (Op Bool Bool) :=
  [.call (.createProcess true 0x2000), .call (.createThread true true (some true) 0x8000 0x4000 0),
    .go, .go, .call (.makeReady true)]

/-- The main thread waits for the process, which then ends. -/
def waitFirst : List (Op Bool Bool) :=
  launch ++ [.call (.wait true 1), .go, .go, .call .terminate, .go, .go, .go, .go, .go, .go, .go,
    .go, .go]

theorem exit_waiters_stay_empty_once :
    ∃ s₁ s₂ : System Bool Bool, run step bootSystem waitFirst = some s₁ ∧ Finished s₁ true ∧
      run step s₁ [.go] = some s₂ ∧ (s₂.proc true).exitWaiters = none :=
  ⟨_, _, rfl, ⟨rfl, fun t => by cases t <;> exact id⟩, rfl,
    exit_waiters_stay_empty bootSystem_booted waitFirst [.go] (by decide) rfl
      ⟨rfl, fun t => by cases t <;> exact id⟩ rfl⟩

/-- The process ends between the main thread's test of `exited` and its link. -/
theorem late_waiter_stays :
    Booted bootSystem false ∧ ∃ s : System Bool Bool,
      run step bootSystem (launch ++ [.call (.wait true 1), .timer 1, .timer 1, .timer 1,
        .timer 1, .timer 1, .call .terminate, .go, .go, .go, .go, .go, .go, .go]) = some s ∧
      Finished s true ∧ (s.proc true).exitWaiters = some (.thread false) :=
  ⟨bootSystem_booted, _, rfl, ⟨rfl, fun t => by cases t <;> exact id⟩, rfl⟩

end MicroNT.PS
