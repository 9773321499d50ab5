import Mathlib.Data.Fintype.Basic
import Mathlib.Logic.Function.Basic
import MicroNT.Base.Machine
import MicroNT.Ntdef

/-! # Raised exceptions (`NT_RAISE_EXCEPTION`, `syscall_entry.asm`)

`NtRaiseException` stores the caller's handler in one global word, and the next
thread that leaves its system call takes it. Inside a system call interrupts are on,
so other threads take steps in between; from the `cli` on, the way out is one step. -/

namespace MicroNT.Exceptions

open Base.Machine

/-- Where a thread is: in user mode, in `KiSystemCall` before it has done anything,
between the check and the store of `NtRaiseException`, on the way out, or killed. -/
inductive Pc
  | user
  | kernel
  | raise
  | leaving (raised : Bool)
  | dead
  deriving DecidableEq

/-- A return from a system call: what the call did, the thread's handler, and the
address that the return was redirected to. -/
structure Returned (T : Type) where
  thread : T
  raised : Bool
  handler : u64
  target : Option u64

/-- `g_pending_exception_va`, each thread's `ExceptionHandler`, and the threads. The
last three belong to no variable of the code: the returns, how often each thread has
raised, and the thread that raised last, until a return takes the handler. -/
structure System (T : Type) where
  pending : u64
  handler : T → u64
  pc : T → Pc
  returns : List (Returned T)
  raises : T → Nat
  outstanding : Option T

variable {T : Type} [DecidableEq T]

def System.goto (s : System T) (t : T) (p : Pc) : System T :=
  { s with pc := Function.update s.pc t p }

/-- The check of `NtRaiseException`. -/
def raiseException (s : System T) (t : T) : System T :=
  if s.handler t = 0 then s.goto t (.leaving false) else s.goto t .raise

/-- Its store. -/
def storePending (s : System T) (t : T) : System T :=
  { s.goto t (.leaving true) with
    pending := s.handler t
    raises := Function.update s.raises t (s.raises t + 1)
    outstanding := some t }

/-- The way out of a system call, from the `cli` to the `sysret`. -/
def exit (s : System T) (t : T) (raised : Bool) : System T :=
  let s := s.goto t .user
  if s.pending = 0 then { s with returns := ⟨t, raised, s.handler t, none⟩ :: s.returns }
  else
    { s with
      pending := 0
      returns := ⟨t, raised, s.handler t, some s.pending⟩ :: s.returns
      outstanding := none }

/-- `call` stands for every system call that neither raises nor sets the handler,
`fault` for `DeliverUserException`. -/
inductive Op
  | enter
  | call
  | setHandler (va : u64)
  | raise
  | store
  | exit
  | fault
  | kill
  deriving DecidableEq

/-- A step of a thread, or its end at the hands of another. -/
def step (s : System T) (a : T × Op) : Option (System T) :=
  match a.2 with
  | .enter => if s.pc a.1 = .user then some (s.goto a.1 .kernel) else none
  | .call => if s.pc a.1 = .kernel then some (s.goto a.1 (.leaving false)) else none
  | .setHandler va =>
    if s.pc a.1 = .kernel then
      some { s.goto a.1 (.leaving false) with handler := Function.update s.handler a.1 va }
    else none
  | .raise => if s.pc a.1 = .kernel then some (raiseException s a.1) else none
  | .store => if s.pc a.1 = .raise then some (storePending s a.1) else none
  | .exit =>
    match s.pc a.1 with
    | .leaving raised => some (exit s a.1 raised)
    | _ => none
  | .fault =>
    if s.pc a.1 = .user then some { s with handler := Function.update s.handler a.1 0 } else none
  | .kill => if s.pc a.1 = .dead then none else some (s.goto a.1 .dead)

/-- Before the first system call. -/
structure Start (s : System T) : Prop where
  pending : s.pending = 0
  pc : ∀ t, s.pc t = .user
  returns : s.returns = []
  raises : ∀ t, s.raises t = 0
  outstanding : s.outstanding = none

/-- How many of a thread's returns went to a handler. -/
def redirected (s : System T) (t : T) : Nat :=
  s.returns.countP fun r => decide (r.thread = t) && r.target.isSome

/-- Returns go to a handler if the call raised, and then to the thread's own; a thread
has been redirected as often as it has raised, but for the call it is in. -/
structure Sound (s : System T) : Prop where
  own : ∀ r ∈ s.returns, r.target = if r.raised then some r.handler else none
  once : ∀ t, s.pc t ≠ .dead →
    s.raises t = redirected s t + if s.pc t = .leaving true then 1 else 0

/-- From a thread's raise to its return no other thread raises or returns; if the thread
is killed in between, another raises before any returns. -/
def Undisturbed (s : System T) (a : T × Op) : Prop :=
  (a.2 = .store → ∀ u, s.pc u = .leaving true → u = a.1) ∧
    (a.2 = .exit → ∀ u, s.outstanding = some u → u = a.1)

instance [Fintype T] (s : System T) (a : T × Op) : Decidable (Undisturbed s a) :=
  inferInstanceAs (Decidable (_ ∧ _))

/-! ## Undisturbed raises -/

/-- The pending handler is that of the thread that raised last. -/
structure Inv (s : System T) : Prop where
  none_pending : s.outstanding = none → s.pending = 0
  last : ∀ t, s.pc t = .leaving true →
    s.outstanding = some t ∧ s.pending = s.handler t ∧ s.handler t ≠ 0
  checked : ∀ t, s.pc t = .raise → s.handler t ≠ 0
  raiser : ∀ t, s.outstanding = some t → s.pc t = .leaving true ∨ s.pc t = .dead
  sound : Sound s

variable {s : System T} {t u : T}

theorem goto_pc_self (p : Pc) : (s.goto t p).pc t = p := by
  unfold System.goto
  exact Function.update_self t p s.pc

theorem goto_pc_of_ne (h : u ≠ t) (p : Pc) : (s.goto t p).pc u = s.pc u := by
  unfold System.goto
  exact Function.update_of_ne h p s.pc

/-- A step that neither raises nor ends a system call, or a kill. -/
theorem Inv.goto (inv : Inv s) {p : Pc} (raise : p = .raise → s.handler t ≠ 0)
    (leaving : p ≠ .leaving true) (alive : s.pc t ≠ .dead)
    (quiet : p = .dead ∨ s.pc t ≠ .leaving true) : Inv (s.goto t p) := by
  refine ⟨inv.none_pending, fun u hu => ?_, fun u hu => ?_, fun u hu => ?_, inv.sound.own,
    fun u hu => ?_⟩
  all_goals by_cases e : u = t
  · rw [e, goto_pc_self] at hu
    exact absurd hu leaving
  · rw [goto_pc_of_ne e] at hu
    exact inv.last u hu
  · rw [e, goto_pc_self] at hu
    exact e ▸ raise hu
  · rw [goto_pc_of_ne e] at hu
    exact inv.checked u hu
  · subst e
    have was := (inv.raiser u hu).resolve_right alive
    rw [goto_pc_self]
    exact .inr (quiet.resolve_right (not_not_intro was))
  · rw [goto_pc_of_ne e]
    exact inv.raiser u hu
  · subst e
    rw [goto_pc_self] at hu ⊢
    have before := inv.sound.once u alive
    rw [if_neg (quiet.resolve_left hu)] at before
    rw [if_neg leaving]
    exact before
  · rw [goto_pc_of_ne e] at hu ⊢
    exact inv.sound.once u hu

/-- A thread's handler is not in use while the thread is in user mode or in another call. -/
theorem Inv.setHandler (inv : Inv s) (raise : s.pc t ≠ .raise) (leaving : s.pc t ≠ .leaving true)
    (va : u64) : Inv { s with handler := Function.update s.handler t va } := by
  refine ⟨inv.none_pending, fun u hu => ?_, fun u hu => ?_, inv.raiser, inv.sound.own,
    inv.sound.once⟩
  all_goals
    have other : u ≠ t := by
      rintro rfl
      first | exact raise hu | exact leaving hu
    dsimp only
    rw [Function.update_of_ne other]
  · exact inv.last u hu
  · exact inv.checked u hu

theorem Inv.store (inv : Inv s) (raise : s.pc t = .raise)
    (alone : ∀ u, s.pc u = .leaving true → u = t) : Inv (storePending s t) := by
  have gone : ∀ u, u ≠ t → (s.goto t (.leaving true)).pc u ≠ .leaving true := fun u e hu =>
    e (alone u (by rwa [goto_pc_of_ne e] at hu))
  refine ⟨fun no => absurd no (Option.some_ne_none t), fun u hu => ?_, fun u hu => ?_,
    fun u hu => ?_, inv.sound.own, fun u hu => ?_⟩
  · by_cases e : u = t
    · subst e
      exact ⟨rfl, rfl, inv.checked u raise⟩
    · exact absurd hu (gone u e)
  · by_cases e : u = t
    · rw [e] at hu
      exact absurd (hu.symm.trans (goto_pc_self _)) Pc.noConfusion
    · exact inv.checked u ((goto_pc_of_ne e _).symm.trans hu)
  · obtain rfl : t = u := Option.some.inj hu
    exact .inl (goto_pc_self _)
  · by_cases e : u = t
    · subst e
      have before := inv.sound.once u (raise ▸ Pc.noConfusion)
      rw [raise, if_neg Pc.noConfusion] at before
      show Function.update s.raises u (s.raises u + 1) u = redirected s u +
        if (s.goto u (.leaving true)).pc u = .leaving true then 1 else 0
      rw [Function.update_self, goto_pc_self, if_pos rfl, before]
    · have alive : (s.goto t (.leaving true)).pc u ≠ .dead := hu
      show Function.update s.raises t (s.raises t + 1) u = redirected s u +
        if (s.goto t (.leaving true)).pc u = .leaving true then 1 else 0
      rw [goto_pc_of_ne e] at alive ⊢
      rw [Function.update_of_ne e]
      exact inv.sound.once u alive

/-- What a return adds to the record. -/
theorem redirected_cons (r : Returned T) (s' : System T) (h : s'.returns = r :: s.returns) (u : T) :
    redirected s' u = redirected s u + if r.thread = u ∧ r.target.isSome = true then 1 else 0 := by
  unfold redirected
  rw [h, List.countP_cons]
  simp only [Bool.and_eq_true, decide_eq_true_eq]

/-- A return: the thread is in user mode, and it has been redirected as it should. -/
theorem Inv.returned (inv : Inv s) {raised : Bool} (leaving : s.pc t = .leaving raised)
    (alone : ∀ u, s.outstanding = some u → u = t) {pending : u64} {outstanding : Option T}
    (cleared : pending = 0 ∧ outstanding = none) :
    Inv { s.goto t .user with
      pending := pending
      returns := ⟨t, raised, s.handler t, if raised then some (s.handler t) else none⟩ :: s.returns
      outstanding := outstanding } := by
  have others : ∀ u, u ≠ t → s.pc u ≠ .leaving true := fun u e hu =>
    e (alone u (inv.last u hu).1)
  refine ⟨fun _ => cleared.1, fun u hu => ?_, fun u hu => ?_, fun u hu => ?_, fun r hr => ?_,
    fun u hu => ?_⟩
  · by_cases e : u = t
    · rw [e] at hu
      exact absurd ((goto_pc_self _).symm.trans hu) Pc.noConfusion
    · exact absurd ((goto_pc_of_ne e _).symm.trans hu) (others u e)
  · by_cases e : u = t
    · rw [e] at hu
      exact absurd ((goto_pc_self _).symm.trans hu) Pc.noConfusion
    · exact inv.checked u ((goto_pc_of_ne e _).symm.trans hu)
  · exact absurd (cleared.2.symm.trans hu) (Option.some_ne_none u).symm
  · obtain rfl | old := List.mem_cons.mp hr
    · rfl
    · exact inv.sound.own r old
  · have total := fun s' => redirected_cons (s := s)
      ⟨t, raised, s.handler t, if raised then some (s.handler t) else none⟩ s'
    rw [total _ rfl]
    show s.raises u = redirected s u + _ + if (s.goto t .user).pc u = .leaving true then 1 else 0
    have alive : (s.goto t .user).pc u ≠ .dead := hu
    by_cases e : u = t
    · subst e
      have before := inv.sound.once u (leaving ▸ Pc.noConfusion)
      rw [leaving] at before
      rw [goto_pc_self, before]
      cases raised with
      | true => simp
      | false => simp
    · rw [goto_pc_of_ne e] at alive ⊢
      rw [if_neg fun no => e no.1.symm]
      exact inv.sound.once u alive

/-- **The way out** of a system call that raised goes to the handler, and that of any
other call goes back. -/
theorem Inv.exit (inv : Inv s) {raised : Bool} (leaving : s.pc t = .leaving raised)
    (alone : ∀ u, s.outstanding = some u → u = t) : Inv (Exceptions.exit s t raised) := by
  cases raised with
  | true =>
    obtain ⟨-, pending, handler⟩ := inv.last t leaving
    have busy : (s.goto t .user).pending ≠ 0 := pending ▸ handler
    unfold Exceptions.exit
    dsimp only
    rw [if_neg busy]
    have next := inv.returned leaving alone ⟨rfl, rfl⟩
    rw [show (if true = true then some (s.handler t) else none) = some s.pending by
      rw [if_pos rfl, pending]] at next
    exact next
  | false =>
    have none_ : s.outstanding = none := by
      cases h : s.outstanding with
      | none => rfl
      | some u =>
        obtain rfl := alone u h
        obtain raised | dead := inv.raiser u h
        · rw [leaving] at raised
          cases raised
        · rw [leaving] at dead
          cases dead
    have quiet : (s.goto t .user).pending = 0 := inv.none_pending none_
    unfold Exceptions.exit
    dsimp only
    rw [if_pos quiet]
    exact inv.returned leaving alone ⟨quiet, none_⟩

omit [DecidableEq T] in
theorem pc_ne {p q : Pc} (at_ : s.pc t = p) (ne : p ≠ q) : s.pc t ≠ q := at_ ▸ ne

/-- A step on from before the call's work. -/
theorem Inv.leave (inv : Inv s) (at_ : s.pc t = .kernel) : Inv (s.goto t (.leaving false)) :=
  inv.goto (fun no => Pc.noConfusion no) (fun no => by cases no) (pc_ne at_ Pc.noConfusion)
    (.inr (pc_ne at_ Pc.noConfusion))

/-- **One step** of an undisturbed run. -/
theorem Inv.step (inv : Inv s) {a : T × Op} (quiet : Undisturbed s a) {s' : System T}
    (h : Exceptions.step s a = some s') : Inv s' := by
  obtain ⟨t, op⟩ := a
  unfold Exceptions.step at h
  cases op with
  | enter =>
    obtain ⟨at_, ⟨⟩⟩ := Option.ite_none_right_eq_some.mp h
    exact inv.goto (fun no => Pc.noConfusion no) Pc.noConfusion (pc_ne at_ Pc.noConfusion)
      (.inr (pc_ne at_ Pc.noConfusion))
  | call =>
    obtain ⟨at_, ⟨⟩⟩ := Option.ite_none_right_eq_some.mp h
    exact inv.leave at_
  | setHandler va =>
    obtain ⟨at_, ⟨⟩⟩ := Option.ite_none_right_eq_some.mp h
    refine (inv.leave at_).setHandler (pc_ne (goto_pc_self _) Pc.noConfusion) ?_ va
    exact pc_ne (goto_pc_self _) fun no => by cases no
  | raise =>
    obtain ⟨at_, ⟨⟩⟩ := Option.ite_none_right_eq_some.mp h
    unfold raiseException
    split
    · exact inv.leave at_
    case isFalse found =>
      exact inv.goto (fun _ => found) Pc.noConfusion (pc_ne at_ Pc.noConfusion)
        (.inr (pc_ne at_ Pc.noConfusion))
  | store =>
    obtain ⟨at_, ⟨⟩⟩ := Option.ite_none_right_eq_some.mp h
    exact inv.store at_ (quiet.1 rfl)
  | exit =>
    dsimp only at h
    split at h
    case h_1 raised at_ =>
      cases h
      exact inv.exit at_ (quiet.2 rfl)
    case h_2 => cases h
  | fault =>
    obtain ⟨at_, ⟨⟩⟩ := Option.ite_none_right_eq_some.mp h
    exact inv.setHandler (pc_ne at_ Pc.noConfusion) (pc_ne at_ Pc.noConfusion) 0
  | kill =>
    obtain ⟨alive, ⟨⟩⟩ := Option.ite_none_left_eq_some.mp h
    exact inv.goto (fun no => Pc.noConfusion no) Pc.noConfusion alive (.inl rfl)

theorem Inv.start (start : Start s) : Inv s := by
  have user : ∀ t p, s.pc t = p → p = .user := fun t p h => h.symm.trans (start.pc t)
  refine ⟨fun _ => start.pending, fun t h => ?_, fun t h => ?_, fun t h => ?_, fun r hr => ?_,
    fun t _ => ?_⟩
  · cases user t _ h
  · cases user t _ h
  · rw [start.outstanding] at h
    cases h
  · rw [start.returns] at hr
    exact absurd hr List.not_mem_nil
  · rw [start.raises t, start.pc t, if_neg Pc.noConfusion, redirected, start.returns]
    rfl

/-- **Exceptions reach their raisers** in every state of a run in which no other thread
raises or returns from a system call between a thread's raise and its return. -/
theorem exceptions_reach_raiser {s : System T} (start : Start s) {ops : List (T × Op)}
    (quiet : Along step Undisturbed s ops) : Always step Sound s ops :=
  (always_invariant (fun _ _ _ inv g h => inv.step g h) (Inv.start start) quiet).mono
    fun _ inv => inv.sound

/-- Two threads with handlers of their own. -/
def twoThreads : System Bool :=
  ⟨0, fun t => if t then 0x401000 else 0x402000, fun _ => .user, [], fun _ => 0, none⟩

theorem twoThreads_start : Start twoThreads :=
  ⟨rfl, fun _ => rfl, rfl, fun _ => rfl, rfl⟩

/-- One thread raises and returns while the other is in a system call. -/
theorem exceptions_reach_raiser_one :
    Always step Sound twoThreads
      [(false, .enter), (true, .enter), (true, .raise), (false, .call), (true, .store),
        (true, .exit), (false, .exit)] := by
  exact exceptions_reach_raiser twoThreads_start (by decide)

/-- **A handler that goes astray**: between a thread's raise and its return, another
thread returns to the raiser's handler, and the raiser returns as if it had not raised. -/
theorem exception_astray :
    ¬ Always step Sound twoThreads
      [(false, .enter), (true, .enter), (true, .raise), (false, .call), (true, .store),
        (false, .exit), (true, .exit)] := by
  intro sound
  have astray := (sound.last rfl).own ⟨false, false, 0x402000, some 0x401000⟩
    (List.mem_cons_of_mem _ List.mem_cons_self)
  exact Option.some_ne_none _ astray

end MicroNT.Exceptions
