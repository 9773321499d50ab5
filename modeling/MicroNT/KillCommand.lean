import MicroNT.Base.Decimal
import MicroNT.ProcessLedger
import MicroNT.ProcessWaiters

/-! # The `kill` command (`NT_READ_LINE` in `syscall.cpp`, `KillProcess` in `process.cpp`)

A line that begins with `kill ` ends a process and does not reach the shell. The number is
read up to the first character that is not a digit. -/

set_option linter.unusedSectionVars false

namespace MicroNT.PS

open Base.Machine Base.Bytes Base.Decimal
open Sched (Ptr KThread State)

/-! ## The number -/

/-- The digit loop. `char` is signed, so that a byte from 0x80 on lies before `'0'`; here
it lies behind `'9'`. -/
def parsePid (pid : u32) : List u8 → u32
  | [] => pid
  | ch :: rest =>
    if ch.toNat ≥ 0x30 ∧ ch.toNat ≤ 0x39 then parsePid (pid * 10 + (ch - 0x30).setWidth 32) rest
    else pid

/-- The branch of `NT_READ_LINE` for `kill <pid>`, if the line takes it. -/
def killPid (line : List u8) : Option u32 :=
  if line.length > 5 ∧ line.take 5 = ascii "kill " then some (parsePid 0 (line.drop 5)) else none

/-- **The number that is read** is the value of the first digits, as far as 32 bits go. -/
theorem parsePid_toNat (pid : u32) (text : List u8) :
    (parsePid pid text).toNat = valueFrom pid.toNat (digits text) % 2 ^ 32 := by
  suffices same : ∀ v, pid.toNat = v % 2 ^ 32 →
      (parsePid pid text).toNat = valueFrom v (digits text) % 2 ^ 32 from
    same pid.toNat (Nat.mod_eq_of_lt pid.isLt).symm
  induction text generalizing pid with
  | nil => exact fun v start => start
  | cons ch rest ih =>
    intro v start
    by_cases digit : IsDigit ch
    case pos =>
      obtain ⟨low, high⟩ := id digit
      rw [parsePid, if_pos ⟨low, high⟩, digits_cons_of_isDigit digit, valueFrom_cons]
      refine ih _ _ ?_
      have sub : (ch - 0x30).toNat = ch.toNat - 0x30 :=
        BitVec.toNat_sub_of_le (BitVec.le_def.mpr low)
      have ten : (10 : u32).toNat = 10 := rfl
      have bound := ch.isLt
      rw [BitVec.toNat_add, BitVec.toNat_mul, BitVec.toNat_setWidth, sub, start, ten]
      omega
    case neg =>
      rw [parsePid, if_neg (fun yes => digit ⟨yes.1, yes.2⟩), digits_cons_of_not digit, valueFrom_nil, start]

theorem killPid_append (text : List u8) :
    killPid (ascii "kill " ++ text) = if text = [] then none else some (parsePid 0 text) := by
  have five : (ascii "kill ").length = 5 := by decide
  have head : (ascii "kill " ++ text).take 5 = ascii "kill " := List.take_left' five
  have tail : (ascii "kill " ++ text).drop 5 = text := List.drop_left' five
  rw [killPid, head, tail, List.length_append, five]
  by_cases none : text = []
  · rw [if_neg fun h => absurd h.1 (by rw [none]; decide), if_pos none]
  · have some_ := List.length_pos_iff.mpr none
    rw [if_pos ⟨by omega, rfl⟩, if_neg none]

/-! ## The process -/

variable {T P : Type} [DecidableEq T] [DecidableEq P]

/-- The search of `KillProcess`. -/
def findProcess (pid : P → u32) (sys : System T P) (n : u32) : Option P :=
  sys.procReg.find? fun p => pid p = n ∧ (sys.proc p).exited = false

/-- `KillProcess` up to its first statement that changes anything, and what it will return. -/
def killProcess (pid : P → u32) (sys : System T P) (c : T) (n : u32) : System T P × Bool :=
  match findProcess pid sys n with
  | none => (sys, false)
  | some p => (sys.goto c (.killMark p 0 false), true)

/-- What thread `c` does with a line. -/
def enterLine (pid : P → u32) (sys : System T P) (c : T) (line : List u8) : System T P :=
  match killPid line with
  | none => sys
  | some n => (killProcess pid sys c n).1

def Caller.kills (p : P) : Caller → Option P
  | .terminate => none
  | .kill => some p

/-- The process that the thread is killing, where it is at this statement. -/
def Pc.kills : Pc T P → Option P
  | .killMark p _ _ => some p
  | .killCount p _ => some p
  | .exitSet p who => who.kills p
  | .exitTake p who _ => who.kills p
  | .exitClear p who _ _ => who.kills p
  | .wakeNext p who _ => who.kills p
  | .wakeClear p who _ _ => who.kills p
  | .wakeTest p who _ _ => who.kills p
  | .wakePush p who _ _ => who.kills p
  | _ => none

/-- A process is marked as exited, or a thread of it is TERMINATED. -/
def Hits (sys sys' : System T P) (q : P) : Prop :=
  (sys.proc q).exited = false ∧ (sys'.proc q).exited = true ∨
    ∃ t, (sys.sched.mem (.thread t)).process = some q ∧
      (sys.sched.mem (.thread t)).state ≠ .terminated ∧
      (sys'.sched.mem (.thread t)).state = .terminated

/-- Some step of the thread, before it has returned from the line, hits the process. Any
steps of other threads and of the timer may come in between. -/
def Terminates (pid : P → u32) (sys : System T P) (c : T) (line : List u8) (q : P) : Prop :=
  ∃ ops s s', run step (enterLine pid sys c line) ops = some s ∧
    Along step (fun s _ => s.pc c ≠ .idle) (enterLine pid sys c line) ops ∧
    s.sched.current = some (.thread c) ∧ step s .go = some s' ∧ Hits s s' q

variable {pid : P → u32} {sys sys' : System T P} {c d : T} {p q : P} {n : u32}

theorem findProcess_some (h : findProcess pid sys n = some p) :
    p ∈ sys.procReg ∧ (sys.proc p).exited = false ∧ pid p = n := by
  rw [findProcess] at h
  have found := List.find?_some h
  rw [decide_eq_true_eq] at found
  exact ⟨List.mem_of_find?_eq_some h, found.2, found.1⟩

theorem findProcess_none (h : findProcess pid sys n = none) (listed : p ∈ sys.procReg)
    (alive : (sys.proc p).exited = false) : pid p ≠ n := fun e =>
  List.find?_eq_none.mp h p listed (decide_eq_true ⟨e, alive⟩)

/-- It is the call that the system knows, for the process that was found. -/
theorem killProcess_call (h : findProcess pid sys n = some p) :
    call sys c (.kill p) = some (killProcess pid sys c n).1 := by
  obtain ⟨listed, alive, -⟩ := findProcess_some h
  simp only [call, killProcess, h, if_pos (And.intro listed alive)]

/-! ## What the call does -/

/-- A step of one thread leaves the others where they are. -/
theorem proceed_pc (h : proceed sys d = some sys') (e : c ≠ d) : sys'.pc c = sys.pc c := by
  unfold proceed at h
  dsimp only at h
  repeat' split at h
  all_goals cases h
  all_goals exact Function.update_of_ne e _ _

theorem call_pc {a : Call T P} (h : call sys d a = some sys') (e : c ≠ d) :
    sys'.pc c = sys.pc c := by
  have moved : ∀ x, (sys.goto d x).pc c = sys.pc c := fun x => Function.update_of_ne e _ _
  cases a with
  | wait p timeout =>
    obtain ⟨-, ⟨⟩⟩ := Option.ite_none_right_eq_some.mp h
    split
    · rfl
    · exact moved _
  | terminate =>
    cases h
    exact moved _
  | kill p =>
    cases h
    split
    · exact moved _
    · rfl
  | createProcess p cr3 =>
    obtain ⟨-, ⟨⟩⟩ := Option.ite_none_right_eq_some.mp h
    rfl
  | createThread t user process stackBase stackSize teb =>
    obtain ⟨-, ⟨⟩⟩ := Option.ite_none_right_eq_some.mp h
    exact moved _
  | schedule | block | sleep ms =>
    cases h
    rfl
  | makeReady t | remove t | setPriority t pri | link t v =>
    obtain ⟨-, ⟨⟩⟩ := Option.ite_none_right_eq_some.mp h
    rfl

theorem Caller.of_kills {who : Caller} (h : who.kills q = some p) : who = .kill ∧ q = p := by
  cases who with
  | terminate => cases h
  | kill => exact ⟨rfl, Option.some.inj h⟩

/-- Nothing is hit where no process exits and no thread is TERMINATED. -/
theorem misses (exited : ∀ q, (sys'.proc q).exited = (sys.proc q).exited)
    (state : ∀ t, (sys'.sched.mem (.thread t)).state = .terminated →
      (sys.sched.mem (.thread t)).state = .terminated) : ∀ q, Hits sys sys' q → q = p := by
  rintro q (⟨before, after⟩ | ⟨t, -, before, after⟩)
  · cases before.symm.trans ((exited q).symm.trans after)
  · exact absurd (state t after) before

theorem setProc_exited {k : KProcess T} (same : k.exited = (sys.proc p).exited) (q : P) :
    ((sys.setProc p k).proc q).exited = (sys.proc q).exited := by
  show (Function.update sys.proc p k q).exited = _
  by_cases e : q = p
  · rw [e, Function.update_self, same]
  · rw [Function.update_of_ne e]

/-- The call is under way, or over. -/
def Killing (sys : System T P) (c : T) (p : P) : Prop :=
  (sys.pc c).kills = some p ∨ sys.pc c = .idle

theorem killing_goto {x : Pc T P} (hx : x.kills = some p ∨ x = .idle) :
    Killing (sys.goto c x) c p := by
  show (Function.update sys.pc c x c).kills = some p ∨ Function.update sys.pc c x c = .idle
  rw [Function.update_self]
  exact hx

theorem killing_walk (w : Option (Ptr T)) : Killing (sys.goto c (walk p .kill w)) c p := by
  refine killing_goto ?_
  cases w with
  | some w => exact .inl rfl
  | none => exact .inr rfl

/-- **A step of the call** hits nothing but the process that was found, and the call goes on
with it. -/
theorem proceed_kills (h : proceed sys c = some sys') (kills : (sys.pc c).kills = some p) :
    Killing sys' c p ∧ ∀ q, Hits sys sys' q → q = p := by
  unfold proceed at h
  dsimp only at h
  cases at_ : sys.pc c with
  | killMark r i marked =>
    rw [at_] at h kills
    obtain rfl := Option.some.inj kills
    dsimp only at h
    split at h
    case h_1 =>
      obtain rfl := Option.some.inj h
      exact ⟨killing_goto (.inl rfl), misses (fun _ => rfl) fun _ => id⟩
    case h_2 t listed =>
      split at h
      case isTrue mine =>
        obtain rfl := Option.some.inj h
        refine ⟨killing_goto (.inl rfl), fun q hit => ?_⟩
        rcases hit with ⟨before, after⟩ | ⟨u, of, before, after⟩
        · cases before.symm.trans after
        · -- the only thread whose state is written is one of the process
          have e : u = t := by
            by_contra other
            refine before (Eq.trans ?_ after)
            exact (Sched.State.setState_state_of_ne (fun e => other (Ptr.thread.inj e)) _ _).symm
          rw [e, mine.1] at of
          exact (Option.some.inj of).symm
      case isFalse =>
        obtain rfl := Option.some.inj h
        exact ⟨killing_goto (.inl rfl), misses (fun _ => rfl) fun _ => id⟩
  | killCount r marked =>
    rw [at_] at h kills
    obtain rfl := Option.some.inj kills
    obtain rfl := Option.some.inj h
    exact ⟨killing_goto (.inl rfl), misses (setProc_exited rfl) fun _ => id⟩
  | exitSet r who =>
    rw [at_] at h kills
    obtain ⟨rfl, rfl⟩ := Caller.of_kills kills
    obtain rfl := Option.some.inj h
    refine ⟨killing_goto (.inl rfl), fun q hit => ?_⟩
    rcases hit with ⟨before, after⟩ | ⟨u, of, before, after⟩
    · by_contra other
      have same : Function.update sys.proc r { sys.proc r with exited := true } q = sys.proc q :=
        Function.update_of_ne other _ _
      cases before.symm.trans ((congrArg KProcess.exited same).symm.trans after)
    · exact absurd after before
  | exitTake r who first =>
    rw [at_] at h kills
    obtain ⟨rfl, rfl⟩ := Caller.of_kills kills
    obtain rfl := Option.some.inj h
    exact ⟨killing_goto (.inl rfl), misses (fun _ => rfl) fun _ => id⟩
  | exitClear r who first w =>
    rw [at_] at h kills
    obtain ⟨rfl, rfl⟩ := Caller.of_kills kills
    obtain rfl := Option.some.inj h
    exact ⟨killing_walk w, misses (setProc_exited rfl) fun _ => id⟩
  | wakeNext r who w =>
    rw [at_] at h kills
    obtain ⟨rfl, rfl⟩ := Caller.of_kills kills
    obtain rfl := Option.some.inj h
    exact ⟨killing_goto (.inl rfl), misses (fun _ => rfl) fun _ => id⟩
  | wakeClear r who w nxt =>
    rw [at_] at h kills
    obtain ⟨rfl, rfl⟩ := Caller.of_kills kills
    obtain rfl := Option.some.inj h
    exact ⟨killing_goto (.inl rfl), misses (fun _ => rfl)
      fun t ended => (Sched.State.setWaitNext_state _ _ _ _).symm.trans ended⟩
  | wakeTest r who w nxt =>
    rw [at_] at h kills
    obtain ⟨rfl, rfl⟩ := Caller.of_kills kills
    dsimp only at h
    split at h
    case isTrue =>
      obtain rfl := Option.some.inj h
      exact ⟨killing_walk nxt, misses (fun _ => rfl) fun _ => id⟩
    case isFalse =>
      obtain rfl := Option.some.inj h
      exact ⟨killing_goto (.inl rfl), misses (fun _ => rfl) fun _ => id⟩
  | wakePush r who w nxt =>
    rw [at_] at h kills
    obtain ⟨rfl, rfl⟩ := Caller.of_kills kills
    obtain rfl := Option.some.inj h
    have quiet := linking_quietly.makeReady (linking_quietly.relinked_refl sys.sched) w
    exact ⟨killing_walk nxt, misses (fun _ => rfl) fun t => (quiet.fields (.thread t)).2.2⟩
  | _ =>
    rw [at_] at kills
    cases kills

/-- A step of the system while the call is under way. -/
theorem step_kills {op : Op T P} (h : step sys op = some sys') (under : sys.pc c ≠ .idle)
    (killing : Killing sys c p) : Killing sys' c p := by
  have kills := killing.resolve_right under
  by_cases mine : sys.sched.current = some (.thread c) ∧ ∀ n, op ≠ .timer n
  case pos =>
    obtain ⟨current, busy⟩ := mine
    cases op with
    | timer n => exact absurd rfl (busy n)
    | go =>
      simp only [step, current] at h
      exact (proceed_kills h kills).1
    | call a =>
      simp only [step, current, if_neg under] at h
      cases h
  case neg =>
    have same : sys'.pc c = sys.pc c := by
      cases op with
      | timer n =>
        obtain ⟨s, -, rfl⟩ := Option.map_eq_some_iff.mp h
        rfl
      | go =>
        dsimp only [step] at h
        split at h
        case h_1 d current =>
          exact proceed_pc h fun e => mine ⟨e ▸ current, fun n => nofun⟩
        case h_2 => cases h
      | call a =>
        dsimp only [step] at h
        split at h
        case h_1 d current =>
          obtain ⟨-, h⟩ := Option.ite_none_right_eq_some.mp h
          exact call_pc h fun e => mine ⟨e ▸ current, fun n => nofun⟩
        case h_2 => cases h
    rw [Killing, same]
    exact killing

/-! ## Lines -/

theorem enterLine_kill (text : List u8) :
    enterLine pid sys c (ascii "kill " ++ text) =
      if text = [] then sys else (killProcess pid sys c (parsePid 0 text)).1 := by
  rw [enterLine, killPid_append]
  by_cases none : text = []
  · rw [if_pos none, if_pos none]
  · rw [if_neg none, if_neg none]

/-- Whoever is terminated is the process that the search finds. -/
theorem terminates_found {text : List u8} (idle : sys.pc c = .idle)
    (h : Terminates pid sys c (ascii "kill " ++ text) q) :
    text ≠ [] ∧ findProcess pid sys (parsePid 0 text) = some q := by
  obtain ⟨ops, s, s', ran, under, current, went, hit⟩ := h
  rw [enterLine_kill] at ran under
  -- without a call there is no step
  have none : ∀ {s₀ : System T P}, s₀.pc c = .idle → run step s₀ ops = some s →
      Along step (fun s _ => s.pc c ≠ .idle) s₀ ops → False := fun start ran under => by
    cases ops with
    | nil =>
      obtain rfl := Option.some.inj ran
      simp only [step, current, proceed, start] at went
      cases went
    | cons op ops => exact under.1 start
  by_cases empty : text = []
  case pos =>
    rw [if_pos empty] at ran under
    exact (none idle ran under).elim
  case neg =>
    rw [if_neg empty] at ran under
    refine ⟨empty, ?_⟩
    cases found : findProcess pid sys (parsePid 0 text) with
    | none =>
      simp only [killProcess, found] at ran under
      exact (none idle ran under).elim
    | some p =>
      simp only [killProcess, found] at ran under
      have start : Killing (sys.goto c (.killMark p 0 false)) c p := killing_goto (.inl rfl)
      have last : Killing s c p :=
        run_invariant (fun _ _ _ killing under h => step_kills h under killing) start under ran
      have kills : (s.pc c).kills = some p := last.resolve_right fun stopped => by
        simp only [step, current, proceed, stopped] at went
        cases went
      simp only [step, current] at went
      rw [(proceed_kills went kills).2 q hit]

/-- The thread comes to the statement that marks the process, which is still alive. -/
def Comes (sys : System T P) (c : T) (p : P) : Prop :=
  ∃ ops s, run step sys ops = some s ∧ Along step (fun s _ => s.pc c ≠ .idle) sys ops ∧
    s.sched.current = some (.thread c) ∧ s.pc c = .exitSet p .kill ∧ (s.proc p).exited = false

theorem Comes.go (current : sys.sched.current = some (.thread c)) (under : sys.pc c ≠ .idle)
    (went : proceed sys c = some sys') (h : Comes sys' c p) : Comes sys c p := by
  obtain ⟨ops, s, ran, along, rest⟩ := h
  have first : step sys .go = some sys' := by simp only [step, current, went]
  refine ⟨.go :: ops, s, ?_, ⟨under, fun t ht => ?_⟩, rest⟩
  · rw [run, first, Option.bind_some, ran]
  · obtain rfl := Option.some.inj (first.symm.trans ht)
    exact along

theorem goto_self (s : System T P) (c : T) (x : Pc T P) : (s.goto c x).pc c = x :=
  Function.update_self _ _ _

/-- Behind the loop over the threads. -/
theorem comes_of_count {marked : Bool} (current : sys.sched.current = some (.thread c))
    (at_ : sys.pc c = .killCount p marked) (alive : (sys.proc p).exited = false) :
    Comes sys c p := by
  have went : proceed sys c =
      some ((sys.setProc p { sys.proc p with threadCount := 0 }).goto c (.exitSet p .kill)) := by
    simp only [proceed, at_]
  have next := goto_self (sys.setProc p { sys.proc p with threadCount := 0 }) c (.exitSet p .kill)
  refine Comes.go current (fun idle => nomatch at_.symm.trans idle) went
    ⟨[], _, rfl, trivial, current, next, ?_⟩
  have same : (Function.update sys.proc p { sys.proc p with threadCount := 0 } p).exited =
      (sys.proc p).exited := by
    rw [Function.update_self]
  exact same.trans alive

/-- The loop over the threads is through, or goes on behind thread `i`. -/
theorem proceed_mark {i : Nat} {marked : Bool} (at_ : sys.pc c = .killMark p i marked) :
    proceed sys c = some (sys.goto c (.killCount p marked)) ∨
      i < sys.threadReg.length ∧ ∃ (t : State T P) (m : Bool), t.current = sys.sched.current ∧
        proceed sys c = some ((sys.with t).goto c (.killMark p (i + 1) m)) := by
  cases listed : sys.threadReg[i]? with
  | none => exact .inl (by simp only [proceed, at_, listed])
  | some t =>
    refine .inr ⟨(List.getElem?_eq_some_iff.mp listed).1, ?_⟩
    by_cases mine : (sys.sched.mem (.thread t)).process = some p ∧
        (sys.sched.mem (.thread t)).state ≠ .terminated
    case pos =>
      exact ⟨sys.sched.setState (.thread t) .terminated, true, rfl,
        by simp only [proceed, at_, listed, if_pos mine]⟩
    case neg =>
      exact ⟨sys.sched, marked, rfl, by simp only [proceed, at_, listed, if_neg mine]; rfl⟩

/-- The loop over the threads, by induction on how many are left. -/
theorem comes_of_mark (left : Nat) {i : Nat} {marked : Bool}
    (enough : sys.threadReg.length ≤ i + left) (current : sys.sched.current = some (.thread c))
    (at_ : sys.pc c = .killMark p i marked) (alive : (sys.proc p).exited = false) :
    Comes sys c p := by
  have under : sys.pc c ≠ .idle := fun idle => nomatch at_.symm.trans idle
  induction left generalizing sys i marked with
  | zero =>
    have went := (proceed_mark at_).resolve_right fun more => absurd more.1 (Nat.not_lt.mpr enough)
    exact Comes.go current under went (comes_of_count current (goto_self _ _ _) alive)
  | succ left ih =>
    rcases proceed_mark at_ with went | ⟨-, t, m, same, went⟩
    · exact Comes.go current under went (comes_of_count current (goto_self _ _ _) alive)
    · have next := goto_self (sys.with t) c (.killMark p (i + 1) m)
      refine Comes.go current under went (ih ?_ (same.trans current) next alive
        fun idle => nomatch next.symm.trans idle)
      have fewer : sys.threadReg.length ≤ i + 1 + left := by omega
      exact fewer

/-- **Whatever the search finds is terminated.** -/
theorem found_terminates {text : List u8} (current : sys.sched.current = some (.thread c))
    (some_ : text ≠ []) (found : findProcess pid sys (parsePid 0 text) = some p) :
    Terminates pid sys c (ascii "kill " ++ text) p := by
  have start : enterLine pid sys c (ascii "kill " ++ text) = sys.goto c (.killMark p 0 false) := by
    rw [enterLine_kill, if_neg some_]
    simp only [killProcess, found]
  rw [Terminates, start]
  have comes : Comes (sys.goto c (.killMark p 0 false)) c p :=
    comes_of_mark sys.threadReg.length (Nat.le_of_eq (Nat.zero_add _).symm) current
      (goto_self sys c (.killMark p 0 false)) (findProcess_some found).2.1
  obtain ⟨ops, s, ran, under, now, at_, alive⟩ := comes
  have went : step s .go = some ((s.setProc p { s.proc p with exited := true }).goto c
      (.exitTake p .kill (!(s.proc p).exited))) := by
    simp only [step, now, proceed, at_]
  refine ⟨ops, s, _, ran, under, now, went, .inl ⟨alive, ?_⟩⟩
  show (Function.update s.proc p _ p).exited = true
  rw [Function.update_self]

/-- **`kill` hits only the process it names** exactly when there is no text, or the text is
the numeral of a number of 32 bits, or no living process has the number that the first digits
of the text spell in 32 bits. -/
theorem kill_named_iff (pid : P → u32) (sys : System T P) (c : T) (text : List u8)
    (current : sys.sched.current = some (.thread c)) (idle : sys.pc c = .idle) :
    (∀ q, Terminates pid sys c (ascii "kill " ++ text) q → text = decimal (pid q).toNat) ↔
      text = [] ∨ (∃ n < 2 ^ 32, text = decimal n) ∨
        ∀ p ∈ sys.procReg, (sys.proc p).exited = false →
          (pid p).toNat ≠ value (digits text) % 2 ^ 32 := by
  have read : (parsePid 0 text).toNat = value (digits text) % 2 ^ 32 := parsePid_toNat 0 text
  constructor
  · intro named
    by_cases empty : text = []
    case pos => exact .inl empty
    case neg =>
      cases found : findProcess pid sys (parsePid 0 text) with
      | some p =>
        exact .inr (.inl ⟨_, (pid p).isLt, named p (found_terminates current empty found)⟩)
      | none =>
        refine .inr (.inr fun p listed alive e => findProcess_none found listed alive ?_)
        exact BitVec.eq_of_toNat_eq (e.trans read.symm)
  · intro names q ends
    obtain ⟨some_, found⟩ := terminates_found idle ends
    obtain ⟨listed, alive, same⟩ := findProcess_some found
    rw [same, read]
    rcases names with empty | ⟨n, small, rfl⟩ | nobody
    · exact absurd empty some_
    · rw [digits_decimal, value_decimal, Nat.mod_eq_of_lt small]
    · exact absurd (same ▸ read) (nobody q listed alive)

/-- The numeral of another number leaves the System process alone. -/
theorem kill_named_iff_seven :
    ¬ Terminates (fun _ => 0) bootSystem false (ascii "kill " ++ ascii "7") false := by
  intro hit
  have named := (kill_named_iff (fun _ => 0) bootSystem false (ascii "7")
    bootSystem_booted.current (bootSystem_booted.pc false)).mpr (.inr (.inl ⟨7, by decide, by decide⟩))
  exact absurd (named false hit) (by decide)

/-- **A word that is no number** ends the System process. -/
theorem kill_word_hits_system :
    ¬ ∀ q, Terminates (fun _ => 0) bootSystem false (ascii "kill " ++ ascii "abc") q →
      ascii "abc" = decimal (0 : u32).toNat := by
  intro named
  refine absurd (named false ⟨[.go, .go], _, _, rfl, ?_, rfl, rfl, .inl ⟨rfl, rfl⟩⟩) (by decide)
  refine ⟨by decide, fun t ht => ?_⟩
  obtain rfl := Option.some.inj ht
  exact ⟨by decide, fun _ _ => trivial⟩

end MicroNT.PS
