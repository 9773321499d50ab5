import MicroNT.OrderlyRuns

/-! # How long a thread sleeps (`NtDelayExecution`, `Sleep`)

`Sleep` puts its caller on the sleep list and calls `Schedule`, and it returns when that
returns. It is long enough if the system call passes the whole number of milliseconds and
`Schedule` has another thread to switch to. -/

set_option linter.unusedSectionVars false

namespace MicroNT.Sched

open Base.Machine
open Base.Chain (Linked)

variable {T P : Type} [DecidableEq T]

/-! ## Calls that have not returned -/

/-- On the sleep list with `Schedule` still to call, or behind `Schedule`. -/
inductive Phase
  | listed
  | ending
  deriving DecidableEq

structure Call where
  ms : u64
  /-- How many ticks there had been. -/
  start : Nat
  phase : Phase
  deriving DecidableEq

/-- The machine, the ticks there have been, and the call that each thread is in. -/
structure Sleepers (T P : Type) where
  sys : System T P
  ticks : Nat
  calls : T → Option Call

inductive SleepOp (T P : Type)
  /-- The timer, and all code but `Sleep`. -/
  | kernel (op : Op T P)
  | ntDelayExecution (a1 : u64)
  | sleep (ms : u32)
  /-- The call of `Schedule` in `Sleep`. -/
  | schedule
  | ret

/-- The calls before any is made. -/
def System.awake (sys : System T P) : Sleepers T P := ⟨sys, 0, fun _ => none⟩

/-- `Sleep` up to its call of `Schedule`, on behalf of a caller that asked for `ms`. -/
def Sleepers.enter (st : Sleepers T P) (ms : u64) (arg : u32) : Option (Sleepers T P) :=
  match st.sys.state.current with
  | some (.thread c) =>
    if st.calls c = none then
      some
        { st with
          sys := st.sys.with (sleep st.sys.state arg)
          calls := Function.update st.calls c
            (some ⟨ms, st.ticks, if arg = 0 then .ending else .listed⟩) }
    else none
  | _ => none

/-- The call that the current thread is in. -/
def Sleepers.currentCall (st : Sleepers T P) : Option (T × Call) :=
  match st.sys.state.current with
  | some (.thread c) => (st.calls c).map fun call => (c, call)
  | _ => none

/-- The ticks of a block. -/
def Op.ticks : Op T P → Nat
  | .timer _ => 1
  | _ => 0

/-- Everything that happens while threads sleep, in any order. -/
def sleepStep [DecidableEq P] (st : Sleepers T P) : SleepOp T P → Option (Sleepers T P)
  | .kernel (.sleep _) => none
  | .kernel op => (step st.sys op).map fun sys => { st with sys, ticks := st.ticks + op.ticks }
  | .ntDelayExecution a1 => st.enter a1 (if a1 > 0 then a1.setWidth 32 else 0)
  | .sleep ms => st.enter (ms.setWidth 64) ms
  | .schedule =>
    match st.currentCall with
    | some (c, ⟨ms, start, .listed⟩) =>
      some
        { st with
          sys := st.sys.with (scheduleInternal st.sys.state)
          calls := Function.update st.calls c (some ⟨ms, start, .ending⟩) }
    | _ => none
  | .ret =>
    match st.currentCall with
    | some (c, ⟨_, _, .ending⟩) => some { st with calls := Function.update st.calls c none }
    | _ => none

/-! ## What is promised -/

/-- `⌈ms / 10⌉`. -/
def ticksOf (ms : u64) : Nat := (ms.toNat + 9) / 10

/-- A call returns when so many ticks have come. -/
def OnTime (st : Sleepers T P) : SleepOp T P → Prop
  | .ret => ∀ c call, st.currentCall = some (c, call) → call.phase = .ending →
    ticksOf call.ms ≤ st.ticks - call.start
  | _ => True

/-- A thread goes to sleep only if it is in no list, and the tick that wakes it has a
number. -/
def MayEnter (st : Sleepers T P) (arg : u32) : Prop :=
  arg ≠ 0 → (∀ c, st.sys.state.current = some (.thread c) → st.sys.state.InNoList c) ∧
    st.sys.state.pitTicks.toNat + (ticksNeeded arg).toNat < 2 ^ 64

/-- The run is orderly, an argument fits `Sleep`, and a sleeping thread that calls `Schedule`
is not the only one that could run. -/
def Undisturbed (st : Sleepers T P) : SleepOp T P → Prop
  | .kernel op => Orderly st.sys op
  | .ntDelayExecution a1 => a1.toNat < 2 ^ 32 ∧ MayEnter st (a1.setWidth 32)
  | .sleep ms => MayEnter st ms
  | .schedule => ∀ c l, st.sys.state.current = some (.thread c) → Asleep st.sys.state l → c ∈ l →
    ∃ pri, st.sys.state.Waiting pri
  | .ret => True

/-! ## The conversion -/

/-- **`Sleep` rounds up** to ticks of ten milliseconds. -/
theorem ticksNeeded_toNat {ms : u32} (some : ms ≠ 0) :
    (ticksNeeded ms).toNat = (ms.toNat + 9) / 10 := by
  have small := ms.isLt
  have pos : 0 < ms.toNat := Nat.pos_of_ne_zero fun e => some (BitVec.eq_of_toNat_eq e)
  have ticks : ((ms.setWidth 64 * 100#64 + 999#64) / 1000#64 : u64).toNat = (ms.toNat + 9) / 10 := by
    rw [BitVec.toNat_udiv, BitVec.toNat_add, BitVec.toNat_mul, BitVec.toNat_setWidth]
    simp only [BitVec.toNat_ofNat, Nat.reducePow, Nat.reduceMod]
    omega
  unfold ticksNeeded
  rw [if_neg, ticks]
  intro zero
  rw [zero] at ticks
  change 0 = _ at ticks
  omega

theorem ticksOf_setWidth (ms : u32) : ticksOf (ms.setWidth 64) = (ms.toNat + 9) / 10 := by
  have small := ms.isLt
  unfold ticksOf
  rw [BitVec.toNat_setWidth, Nat.mod_eq_of_lt (by omega)]

/-! ## A thread that sleeps -/

section

variable {s t : State T P} {ready : Queues T} {asleep asleep' : List T} {a c c' : T}

/-- **A call that may go on**: its ticks have come, or it waits for them on the sleep list. -/
inductive Pending (st : Sleepers T P) (asleep : List T) (c a : T) (call : Call) : Prop
  | elapsed (ended : call.start + ticksOf call.ms ≤ st.ticks)
  | asleep (member : a ∈ asleep) (phase : a = c → call.phase = .listed)
    (early : st.sys.state.pitTicks.toNat < (st.sys.state.mem (.thread a)).sleepUntil.toNat)
    (enough : call.start + ticksOf call.ms ≤ st.ticks +
      ((st.sys.state.mem (.thread a)).sleepUntil.toNat - st.sys.state.pitTicks.toNat))

/-- **One block**, as a sleeping thread sees it. -/
theorem Pending.slept {st st' : Sleepers T P} {call : Call} (h : Pending st asleep c a call)
    (slept : Slept st.sys.state st'.sys.state asleep asleep' c c') {n : Nat} (one : n ≤ 1)
    (ticks : st'.ticks = st.ticks + n)
    (clock : st'.sys.state.pitTicks = st.sys.state.pitTicks + BitVec.ofNat 64 n) :
    Pending st' asleep' c' a call := by
  cases h with
  | elapsed ended => exact .elapsed (by omega)
  | asleep member phase early enough =>
    have small := (st.sys.state.mem (.thread a)).sleepUntil.isLt
    have now : st'.sys.state.pitTicks.toNat = st.sys.state.pitTicks.toNat + n := by
      rw [clock, BitVec.toNat_add, BitVec.toNat_ofNat]
      omega
    by_cases due : (st.sys.state.mem (.thread a)).sleepUntil ≤ st'.sys.state.pitTicks
    · have due' := BitVec.le_def.mp due
      exact .elapsed (by omega)
    · obtain ⟨m, same⟩ := (slept.kept a member).resolve_right due
      have later : ¬ (st.sys.state.mem (.thread a)).sleepUntil.toNat ≤
        st'.sys.state.pitTicks.toNat := fun le => due (BitVec.le_def.mpr le)
      refine .asleep m (fun e => ?_) ?_ ?_
      · exact phase (e.trans (slept.current (e ▸ m)))
      · rw [same]
        omega
      · rw [same]
        omega

/-- Only the thread that goes to sleep is written. -/
theorem sleep_deadline (current : s.current = some (.thread c)) {ms : u32} (some : ms ≠ 0) :
    ((sleep s ms).mem (.thread c)).sleepUntil = s.pitTicks + ticksNeeded ms := by
  unfold sleep
  rw [if_neg some, current]
  exact congrArg KThread.sleepUntil (State.write_self s _ _)

theorem sleep_pitTicks (s : State T P) (ms : u32) : (sleep s ms).pitTicks = s.pitTicks := by
  unfold sleep
  split
  · rfl
  · split <;> rfl

theorem sleep_current (s : State T P) (ms : u32) : (sleep s ms).current = s.current := by
  unfold sleep
  split
  · rfl
  · split <;> rfl

/-- The sleep list is one list. -/
theorem Asleep.unique (h : Asleep s asleep) (h' : Asleep s asleep') : asleep = asleep' :=
  List.map_injective_iff.mpr (fun _ _ => Ptr.thread.inj) (Linked.unique h h')

end

/-! ## Every run -/

variable [DecidableEq P] {sys sys' : System T P} {ready : Queues T} {asleep : List T} {c : T}

theorem InLists.pitTicks (h : InLists sys ready asleep c) {op : Op T P}
    (hs : Sched.step sys op = some sys') :
    sys'.state.pitTicks = sys.state.pitTicks + BitVec.ofNat 64 op.ticks := by
  have same : ∀ {t : u64}, t = sys.state.pitTicks → t = sys.state.pitTicks + BitVec.ofNat 64 0 :=
    fun e => e.trans (BitVec.add_zero _).symm
  cases op with
  | timer n =>
    obtain ⟨t, ticked, rfl⟩ := Option.map_eq_some_iff.mp hs
    exact (h.tidy.timer ticked).1
  | schedule =>
    cases hs
    exact same h.tidy.sameSleep.ticks
  | block =>
    cases hs
    refine same ?_
    show (blockCurrentThread sys.state).pitTicks = _
    rw [blockCurrentThread_eq h.tidy.current]
    rfl
  | sleep ms =>
    cases hs
    exact same (sleep_pitTicks _ ms)
  | makeReady a =>
    obtain ⟨-, ⟨⟩⟩ := Option.ite_none_right_eq_some.mp hs
    exact same (requeued_queuePushBack _ _).sameSleep.ticks
  | remove a =>
    obtain ⟨-, ⟨⟩⟩ := Option.ite_none_right_eq_some.mp hs
    exact same (requeued_queueRemove _ _).sameSleep.ticks
  | setPriority | terminate | createProcess | createThread =>
    obtain ⟨-, ⟨⟩⟩ := Option.ite_none_right_eq_some.mp hs
    exact same rfl

/-- Every call that has not returned may go on. -/
structure InTime (st : Sleepers T P) (ready : Queues T) (asleep : List T) (c : T) : Prop where
  lists : InLists st.sys ready asleep c
  pending : ∀ a call, st.calls a = some call → Pending st asleep c a call

variable {st st' : Sleepers T P}

theorem InTime.kernel (h : InTime st ready asleep c) {op : Op T P} (orderly : Orderly st.sys op)
    (hs : Sched.step st.sys op = some sys') :
    ∃ ready' asleep' c', InTime { st with sys := sys', ticks := st.ticks + op.ticks }
      ready' asleep' c' := by
  obtain ⟨ready', asleep', c', lists, slept⟩ := h.lists.step orderly hs
  have one : op.ticks ≤ 1 := by cases op <;> simp [Op.ticks]
  exact ⟨ready', asleep', c', lists, fun a call made =>
    (h.pending a call made).slept slept one rfl (h.lists.pitTicks hs)⟩

/-- **The thread that calls `Sleep`** waits for all its ticks. -/
theorem InTime.enter (h : InTime st ready asleep c) {ms : u64} {arg : u32} (may : MayEnter st arg)
    (whole : ticksOf ms = (arg.toNat + 9) / 10) (hs : st.enter ms arg = some st') :
    ∃ ready' asleep' c', InTime st' ready' asleep' c' := by
  have tidy := h.lists.tidy
  unfold Sleepers.enter at hs
  rw [tidy.current] at hs
  dsimp only at hs
  obtain ⟨-, ⟨⟩⟩ := Option.ite_none_right_eq_some.mp hs
  have made : Sched.step st.sys (.sleep arg) = some (st.sys.with (sleep st.sys.state arg)) := rfl
  have orderly : Orderly st.sys (.sleep arg) := fun some a current => (may some).1 a current
  obtain ⟨ready', asleep', c', lists, slept⟩ := h.lists.step orderly made
  obtain rfl : c = c' := Ptr.thread.inj (Option.some.inj (tidy.current.symm.trans
    ((sleep_current _ arg).symm.trans lists.tidy.current)))
  refine ⟨ready', asleep', c, lists, fun a call made' => ?_⟩
  change Function.update st.calls c _ a = some call at made'
  by_cases e : a = c
  · subst e
    rw [Function.update_self] at made'
    cases made'
    by_cases none : arg = 0
    · refine .elapsed ?_
      rw [none] at whole
      change st.ticks + ticksOf ms ≤ st.ticks
      rw [whole]
      exact Nat.le_refl _
    · obtain ⟨off, number⟩ := may none
      have new := tidy.sleep none (off a tidy.current)
      have member : asleep' = a :: asleep := lists.tidy.sleeping.unique new.sleeping
      have needed := ticksNeeded_toNat none
      have pos : 0 < arg.toNat := Nat.pos_of_ne_zero fun e => none (BitVec.eq_of_toNat_eq e)
      have wakes : ((sleep st.sys.state arg).mem (.thread a)).sleepUntil.toNat =
          st.sys.state.pitTicks.toNat + (ticksNeeded arg).toNat := by
        rw [sleep_deadline tidy.current none, BitVec.toNat_add, Nat.mod_eq_of_lt number]
      have clock := congrArg BitVec.toNat (sleep_pitTicks st.sys.state arg)
      refine .asleep (member ▸ List.mem_cons_self) (fun _ => if_neg none) ?_ ?_
      · show (sleep st.sys.state arg).pitTicks.toNat <
          ((sleep st.sys.state arg).mem (.thread a)).sleepUntil.toNat
        omega
      · show st.ticks + ticksOf ms ≤ st.ticks +
          (((sleep st.sys.state arg).mem (.thread a)).sleepUntil.toNat -
            (sleep st.sys.state arg).pitTicks.toNat)
        omega
  · rw [Function.update_of_ne e] at made'
    exact (h.pending a call made').slept slept (Nat.zero_le 1) rfl (h.lists.pitTicks made)

theorem currentCall_eq (current : st.sys.state.current = some (.thread c)) :
    st.currentCall = (st.calls c).map fun call => (c, call) := by
  unfold Sleepers.currentCall
  rw [current]

/-- **The call of `Schedule` in `Sleep`** leaves a thread that still sleeps. -/
theorem InTime.schedule (h : InTime st ready asleep c)
    (others : ∀ l, Asleep st.sys.state l → c ∈ l → ∃ pri, st.sys.state.Waiting pri)
    (hs : sleepStep st .schedule = some st') : ∃ ready' asleep' c', InTime st' ready' asleep' c' := by
  have tidy := h.lists.tidy
  dsimp only [sleepStep] at hs
  rw [currentCall_eq tidy.current] at hs
  split at hs
  case h_2 => cases hs
  case h_1 d ms start which =>
    cases hs
    obtain ⟨call, made, e⟩ := Option.map_eq_some_iff.mp which
    cases e
    have called : Sched.step st.sys .schedule = some (st.sys.with (scheduleInternal st.sys.state)) := rfl
    have orderly : Orderly st.sys .schedule := trivial
    obtain ⟨ready', asleep', c', lists, slept⟩ := h.lists.step orderly called
    refine ⟨ready', asleep', c', lists, fun a call made' => ?_⟩
    change Function.update st.calls c _ a = some call at made'
    by_cases e : a = c
    · subst e
      rw [Function.update_self] at made'
      cases made'
      -- with a thread queued, a sleeping thread is not the one that goes on
      obtain ⟨_, c'', tidy', -, goes⟩ := tidy.scheduleInternal
      have stays : asleep = asleep' := tidy'.sleeping.unique lists.tidy.sleeping
      obtain rfl : c'' = c' :=
        Ptr.thread.inj (Option.some.inj (tidy'.current.symm.trans lists.tidy.current))
      have before : Pending { st with sys := st.sys.with (scheduleInternal st.sys.state) } asleep'
          c'' a ⟨ms, start, .listed⟩ :=
        (h.pending a _ made).slept slept (Nat.zero_le 1) rfl (h.lists.pitTicks called)
      cases before with
      | elapsed ended => exact .elapsed ended
      | asleep member phase early enough =>
        refine .asleep member (fun e => ?_) early enough
        obtain ⟨-, empty⟩ := goes (e ▸ stays ▸ member)
        obtain ⟨pri, waiting⟩ := others asleep tidy.sleeping (stays ▸ member)
        exact absurd (empty pri) (tidy.lined.rings.waiting_iff.mp waiting)
    · rw [Function.update_of_ne e] at made'
      exact (h.pending a call made').slept slept (Nat.zero_le 1) rfl (h.lists.pitTicks called)

theorem sleepStep_kernel {op : Op T P} (hs : sleepStep st (.kernel op) = some st') :
    (Sched.step st.sys op).map (fun sys => { st with sys, ticks := st.ticks + op.ticks }) =
      some st' := by
  cases op with
  | sleep => cases hs
  | _ => exact hs

/-- **One step** of an undisturbed run. -/
theorem InTime.step (h : InTime st ready asleep c) {op : SleepOp T P} (calm : Undisturbed st op)
    (hs : sleepStep st op = some st') : ∃ ready' asleep' c', InTime st' ready' asleep' c' := by
  cases op with
  | kernel op =>
    obtain ⟨sys', made, rfl⟩ := Option.map_eq_some_iff.mp (sleepStep_kernel hs)
    exact h.kernel calm made
  | ntDelayExecution a1 =>
    obtain ⟨fits, may⟩ := calm
    have arg : (if a1 > 0 then a1.setWidth 32 else 0) = a1.setWidth 32 := by
      split
      · rfl
      case isFalse zero =>
        obtain rfl : a1 = 0 := by bv_omega
        rfl
    dsimp only [sleepStep] at hs
    rw [arg] at hs
    refine h.enter may ?_ hs
    unfold ticksOf
    rw [BitVec.toNat_setWidth, Nat.mod_eq_of_lt fits]
  | sleep ms => exact h.enter calm (ticksOf_setWidth ms) hs
  | schedule => exact h.schedule (fun l asleep m => calm c l h.lists.tidy.current asleep m) hs
  | ret =>
    dsimp only [sleepStep] at hs
    split at hs
    case h_2 => cases hs
    case h_1 =>
      cases hs
      refine ⟨ready, asleep, c, h.lists, fun a call made => ?_⟩
      change Function.update st.calls _ none a = some call at made
      have old : st.calls a = some call := by
        rw [Function.update_apply] at made
        split at made
        · cases made
        · exact made
      cases h.pending a call old with
      | elapsed ended => exact .elapsed ended
      | asleep member phase early enough => exact .asleep member phase early enough

theorem InTime.onTime (h : InTime st ready asleep c) (op : SleepOp T P) : OnTime st op := by
  cases op with
  | ret =>
    intro a call current ending
    rw [currentCall_eq h.lists.tidy.current] at current
    obtain ⟨call', made, e⟩ := Option.map_eq_some_iff.mp current
    cases e
    cases h.pending c call made with
    | elapsed ended => omega
    | asleep _ phase =>
      rw [phase rfl] at ending
      cases ending
  | _ => trivial

/-- **A sleep is long enough** in every undisturbed run. -/
theorem sleep_onTime (initial : Initial sys.state sys.main) (main : sys.created sys.main = true)
    (ops : List (SleepOp T P)) (calm : Along sleepStep Undisturbed sys.begin.awake ops) :
    Along sleepStep OnTime sys.begin.awake ops := by
  refine along_invariant (I := fun st => ∃ ready asleep c, InTime st ready asleep c)
    (fun st op st' inTime calm hs => ?_) (fun st op inTime _ => ?_) ?_ calm
  · obtain ⟨ready, asleep, c, inTime⟩ := inTime
    exact inTime.step calm hs
  · obtain ⟨ready, asleep, c, inTime⟩ := inTime
    exact inTime.onTime op
  · exact ⟨_, _, _, InLists.begin initial main, fun _ _ made => by cases made⟩

/-- A user thread gets the processor. -/
def userRuns : List (SleepOp Bool Unit) :=
  [.kernel (.createThread true true none 0x8000 0x4000 0x7FFFE100000), .kernel (.makeReady true),
    .kernel .schedule]

/-- `NtDelayExecution(2^32)` returns at once. -/
theorem long_delay_returns :
    ¬ Along sleepStep OnTime halted.begin.awake
      (userRuns ++ [.ntDelayExecution 0x100000000, .ret]) := by
  intro onTime
  have last := ((((onTime.2 _ rfl).2 _ rfl).2 _ rfl).2 _ rfl).1
  exact absurd (last true _ rfl rfl) (by decide)

/-- The user thread sleeps for a millisecond while the main thread is queued. -/
theorem sleep_onTime_millisecond :
    Along sleepStep OnTime halted.begin.awake
      (userRuns ++ [.ntDelayExecution 1, .schedule, .kernel (.timer 2), .kernel .schedule, .ret]) := by
  refine sleep_onTime halted_initial rfl _ ⟨trivial, ?_⟩
  rintro _ ⟨⟩
  refine ⟨inNoList_of_head rfl rfl, ?_⟩
  rintro _ ⟨⟩
  refine ⟨trivial, ?_⟩
  rintro _ ⟨⟩
  refine ⟨⟨by decide, fun _ => ⟨?_, by decide⟩⟩, ?_⟩
  · rintro c ⟨⟩
    exact inNoList_of_head rfl rfl
  · rintro _ ⟨⟩
    refine ⟨fun _ _ _ _ _ => ⟨0, by unfold State.Waiting; decide⟩, fun _ _ => ⟨trivial, fun _ _ => ?_⟩⟩
    exact ⟨trivial, fun _ _ => ⟨trivial, fun _ _ => trivial⟩⟩

end MicroNT.Sched
