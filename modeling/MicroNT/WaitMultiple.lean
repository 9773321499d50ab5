import MicroNT.ObjectManager
import MicroNT.UserAccess

/-! # Waiting for several objects (`NT_WAIT_MULTI` in `syscall.cpp`)

`NtWaitForMultipleObjects` polls. Only a process can end the wait: other handles are not looked
at, and 0 counts as acquired. Anything may happen between two steps of the loop, so that every
step sees its own state of the kernel. -/

set_option linter.unusedSectionVars false

namespace MicroNT.Waits

open MicroNT.Kernel (readUserByte)
open MicroNT.OB (i32 NTSTATUS STATUS_SUCCESS STATUS_INVALID_HANDLE STATUS_INVALID_PARAMETER)

abbrev STATUS_TIMEOUT : NTSTATUS := 0x00000102#32

abbrev PROC_HANDLE_BASE : u64 := 0x300#64
abbrev MUTANT_HANDLE_BASE : u64 := 0x200#64
abbrev SEMA_HANDLE_BASE : u64 := 0x100#64
abbrev PROC_TABLE_SIZE : Nat := 8
abbrev MUTANT_MAX : Nat := 8
abbrev SEMA_MAX : Nat := 8
abbrev EVENT_TABLE_SIZE : Nat := 32

/-- What handles stand for at one moment, and the clock: whether a process has exited, the owner
of a mutant, the count of a semaphore, whether an event is signaled. -/
structure Objects (T : Type) where
  proc : Nat → Option Bool
  mutant : Nat → Option (Option T)
  sema : Nat → Option i32
  event : Nat → Option Bool
  pitTicks : u64

variable {T : Type} [DecidableEq T]

/-- What `NtWaitForSingleObject` returns for a timeout of 0, unless it blocks. -/
def waitSingle (o : Objects T) (cur : T) (a1 : u64) : Option NTSTATUS :=
  if a1 ≥ PROC_HANDLE_BASE then
    let i := (a1 - PROC_HANDLE_BASE).toNat
    match if i ≥ PROC_TABLE_SIZE then none else o.proc i with
    | none => some STATUS_INVALID_HANDLE
    | some exited => if exited then some STATUS_SUCCESS else some STATUS_TIMEOUT
  else if a1 ≥ MUTANT_HANDLE_BASE then
    let i := (a1 - MUTANT_HANDLE_BASE).toNat
    match if i ≥ MUTANT_MAX then none else o.mutant i with
    | none => some STATUS_INVALID_HANDLE
    | some owner => if owner = none ∨ owner = some cur then some STATUS_SUCCESS else none
  else if a1 ≥ SEMA_HANDLE_BASE then
    let i := (a1 - SEMA_HANDLE_BASE).toNat
    match if i ≥ SEMA_MAX then none else o.sema i with
    | none => some STATUS_INVALID_HANDLE
    | some count => if 0 < count.toInt then some STATUS_SUCCESS else some STATUS_TIMEOUT
  else
    let idx := (a1 - 1).toNat
    match if idx ≥ EVENT_TABLE_SIZE then none else o.event idx with
    | none => some STATUS_INVALID_HANDLE
    | some signaled => if signaled then some STATUS_SUCCESS else some STATUS_TIMEOUT

/-! ## The poll loop -/

/-- The next statement of the loop. -/
inductive Phase
  | check (i : Nat)
  | test
  | clock
  | returned (v : u64)
  deriving DecidableEq

/-- The variables of the call. -/
structure Poll where
  cnt : Nat
  hs : Nat → u64
  wall : Bool
  a4 : u64
  deadline : u64
  acquired : Nat → Bool
  done : Nat
  phase : Phase

/-- The arguments of a call, the memory they point to, and the page table of the caller. -/
structure Call where
  a1 : u64
  a2 : u64
  a3 : u64
  a4 : u64
  mem : VMM.Mem
  cr3 : Option u64

def Call.cnt (c : Call) : Nat := (c.a1.setWidth 32).toNat

/-- A handle of the array, read byte by byte. -/
def Call.handle (c : Call) (pml4 : u64) (i : Nat) : u64 :=
  (List.range 8).foldl (fun h b =>
    h ||| (readUserByte c.mem pml4 (c.a2 + BitVec.ofNat 64 (i * 8 + b))).1.setWidth 64 <<< (8 * b)) 0

def deadline (a4 ticks : u64) : u64 := if a4 = -1 then -1 else ticks + a4 * 100 / 1000 + 1

/-- Up to the loop. -/
def Call.start (c : Call) (o : Objects T) : Poll :=
  let poll : Poll := {
    cnt := c.cnt, hs := fun _ => 0, wall := c.a3 ≠ 0, a4 := c.a4
    deadline := deadline c.a4 o.pitTicks, acquired := fun _ => false, done := 0
    phase := .returned (STATUS_INVALID_PARAMETER.signExtend 64) }
  if c.cnt = 0 ∨ c.cnt > 8 then poll
  else match c.cr3 with
    | none => poll
    | some pml4 => { poll with hs := c.handle pml4, phase := .check 0 }

/-- The check of a handle that is not acquired. -/
def ready (o : Objects T) (h : u64) : Bool :=
  if h ≥ PROC_HANDLE_BASE then
    let idx2 := (h - PROC_HANDLE_BASE).toNat
    idx2 < PROC_TABLE_SIZE ∧ o.proc idx2 = some true
  else h = 0

def Poll.goto (p : Poll) (x : Phase) : Poll := { p with phase := x }

def Poll.step (p : Poll) (o : Objects T) : Poll :=
  match p.phase with
  | .check i =>
    if i < p.cnt then
      if p.acquired i then { p with done := p.done + 1, phase := .check (i + 1) }
      else if ready o (p.hs i) then
        { p with
          acquired := Function.update p.acquired i true
          done := p.done + 1
          phase := .check (i + 1) }
      else p.goto (.check (i + 1))
    else p.goto .test
  | .test =>
    match if p.wall = false ∧ p.done > 0 then (List.range p.cnt).find? p.acquired else none with
    | some i => p.goto (.returned (BitVec.ofNat 64 i))
    | none =>
      if p.wall = true ∧ p.done = p.cnt then p.goto (.returned (STATUS_SUCCESS.signExtend 64))
      else if p.a4 = 0 then p.goto (.returned (STATUS_TIMEOUT.signExtend 64))
      else p.goto .clock
  | .clock =>
    if p.deadline ≠ -1 ∧ o.pitTicks ≥ p.deadline then
      p.goto (.returned (STATUS_TIMEOUT.signExtend 64))
    else { p with done := 0, phase := .check 0 }
  | .returned _ => p

/-- The call after the loop has seen these states of the kernel, one after another. -/
def Call.poll (c : Call) (o : Objects T) (seen : List (Objects T)) : Poll :=
  seen.foldl Poll.step (c.start o)

/-! ## What a call promises -/

/-- The wait for the handle alone would have succeeded at one of these moments. -/
def Satisfied (cur : T) (seen : List (Objects T)) (h : u64) : Prop :=
  ∃ o ∈ seen, waitSingle o cur h = some STATUS_SUCCESS

/-- **A faithful wait**: success is the success of single waits, a handle that is invalid when
the call begins is reported, and a timeout takes its time. -/
structure Faithful (c : Call) (cur : T) (o : Objects T) (seen : List (Objects T)) : Prop where
  all : (c.poll o seen).wall = true →
    (c.poll o seen).phase = .returned (STATUS_SUCCESS.signExtend 64) →
    ∀ i < c.cnt, Satisfied cur seen ((c.poll o seen).hs i)
  any : (c.poll o seen).wall = false → ∀ i < c.cnt,
    (c.poll o seen).phase = .returned (BitVec.ofNat 64 i) →
    Satisfied cur seen ((c.poll o seen).hs i)
  invalid : c.cnt ≤ 8 → ∀ i < c.cnt,
    waitSingle o cur ((c.poll o seen).hs i) = some STATUS_INVALID_HANDLE →
    ∀ v, (c.poll o seen).phase = .returned v → v = STATUS_INVALID_HANDLE.signExtend 64
  timeout : (c.poll o seen).phase = .returned (STATUS_TIMEOUT.signExtend 64) →
    ∃ e ∈ o :: seen, o.pitTicks.toNat + c.a4.toNat * 100 / 1000 ≤ e.pitTicks.toNat

/-- The handle is 0, or that of a process that had exited at one of these moments. -/
def Acquired (cur : T) (seen : List (Objects T)) (h : u64) : Prop :=
  h = 0 ∨ PROC_HANDLE_BASE ≤ h ∧ Satisfied cur seen h

/-- **What the poll loop does**: success stands for handles that are 0 or exited processes, an
invalid handle is never reported, and a timeout takes its time if its deadline can be
computed. -/
structure Polls (c : Call) (cur : T) (o : Objects T) (seen : List (Objects T)) : Prop where
  all : (c.poll o seen).wall = true →
    (c.poll o seen).phase = .returned (STATUS_SUCCESS.signExtend 64) →
    ∀ i < c.cnt, Acquired cur seen ((c.poll o seen).hs i)
  any : (c.poll o seen).wall = false → ∀ i < c.cnt,
    (c.poll o seen).phase = .returned (BitVec.ofNat 64 i) →
    Acquired cur seen ((c.poll o seen).hs i)
  invalid : (c.poll o seen).phase ≠ .returned (STATUS_INVALID_HANDLE.signExtend 64)
  timeout : (c.poll o seen).phase = .returned (STATUS_TIMEOUT.signExtend 64) →
    c.a4.toNat * 100 < 2 ^ 64 → o.pitTicks.toNat + c.a4.toNat * 100 / 1000 + 1 < 2 ^ 64 →
    ∃ e ∈ o :: seen, o.pitTicks.toNat + c.a4.toNat * 100 / 1000 ≤ e.pitTicks.toNat

section

variable {c : Call} {cur : T} {o e : Objects T} {seen : List (Objects T)} {p q : Poll} {h v : u64}
  {i : Nat}

theorem Satisfied.more (h_s : Satisfied cur seen h) (e : Objects T) :
    Satisfied cur (seen ++ [e]) h :=
  let ⟨o, ho, success⟩ := h_s
  ⟨o, List.mem_append_left _ ho, success⟩

theorem Acquired.more (h_a : Acquired cur seen h) (e : Objects T) : Acquired cur (seen ++ [e]) h :=
  h_a.imp_right fun ⟨high, satisfied⟩ => ⟨high, satisfied.more e⟩

/-- **A handle that is ready** is 0 or could be waited for alone. -/
theorem ready_acquired (cur : T) (seen : List (Objects T)) (h_r : ready e h = true) :
    Acquired cur (seen ++ [e]) h := by
  rw [ready] at h_r
  by_cases high : h ≥ PROC_HANDLE_BASE
  case pos =>
    rw [if_pos high] at h_r
    obtain ⟨small, exited⟩ := of_decide_eq_true h_r
    refine .inr ⟨high, e, List.mem_append_right _ (List.mem_singleton.mpr rfl), ?_⟩
    rw [waitSingle, if_pos high]
    simp only [if_neg (Nat.not_le.mpr small), exited, if_true]
  case neg =>
    rw [if_neg high] at h_r
    exact .inl (of_decide_eq_true h_r)

/-- What was given to the call does not change. -/
structure SameCall (p q : Poll) : Prop where
  cnt : q.cnt = p.cnt
  hs : q.hs = p.hs
  wall : q.wall = p.wall
  a4 : q.a4 = p.a4
  deadline : q.deadline = p.deadline

theorem SameCall.trans {r : Poll} (a : SameCall p q) (b : SameCall q r) : SameCall p r :=
  ⟨b.cnt.trans a.cnt, b.hs.trans a.hs, b.wall.trans a.wall, b.a4.trans a.a4,
    b.deadline.trans a.deadline⟩

theorem step_same (p : Poll) (e : Objects T) : SameCall p (p.step e) := by
  rw [Poll.step]
  repeat' split
  all_goals exact ⟨rfl, rfl, rfl, rfl, rfl⟩

/-- How many of the first `i` handles are acquired. -/
def Poll.count (p : Poll) (i : Nat) : Nat := (List.range i).countP p.acquired

theorem count_succ (p : Poll) (i : Nat) :
    p.count (i + 1) = p.count i + if p.acquired i then 1 else 0 := by
  rw [Poll.count, List.range_succ, List.countP_append, List.countP_singleton, Poll.count]

/-- What the counter of the loop says at this statement. -/
def Counts (p : Poll) : Prop :=
  match p.phase with
  | .check i => i ≤ p.cnt ∧ p.done = p.count i
  | .test => p.done = p.count p.cnt
  | _ => True

/-- What a result stands for. -/
def Result (cur : T) (seen : List (Objects T)) (p : Poll) (v : u64) : Prop :=
  v = STATUS_INVALID_PARAMETER.signExtend 64 ∨
  (v = STATUS_TIMEOUT.signExtend 64 ∧
    (p.a4 = 0 ∨ p.deadline ≠ -1 ∧ ∃ e ∈ seen, p.deadline ≤ e.pitTicks)) ∨
  (v = STATUS_SUCCESS.signExtend 64 ∧ p.wall = true ∧ ∀ i < p.cnt, Acquired cur seen (p.hs i)) ∨
  (p.wall = false ∧ ∃ i < p.cnt, v = BitVec.ofNat 64 i ∧ Acquired cur seen (p.hs i))

/-- What holds at every step of the loop. -/
structure Sound (cur : T) (seen : List (Objects T)) (p : Poll) : Prop where
  acquired : ∀ i, p.acquired i = true → Acquired cur seen (p.hs i)
  counts : Counts p
  result : ∀ v, p.phase = .returned v → Result cur seen p v

theorem Result.more (h_r : Result cur seen p v) (e : Objects T) : Result cur (seen ++ [e]) p v := by
  rcases h_r with bad | ⟨late, timeout⟩ | ⟨ok, wall, each⟩ | ⟨any, i, hi, index, acquired⟩
  · exact .inl bad
  · refine .inr (.inl ⟨late, timeout.imp_right fun ⟨some_, o, ho, ticks⟩ => ?_⟩)
    exact ⟨some_, o, List.mem_append_left _ ho, ticks⟩
  · exact .inr (.inr (.inl ⟨ok, wall, fun i hi => (each i hi).more e⟩))
  · exact .inr (.inr (.inr ⟨any, i, hi, index, acquired.more e⟩))

theorem Sound.goto (h_s : Sound cur seen p) (e : Objects T) {x : Phase} (counts : Counts (p.goto x))
    (result : ∀ v, x = .returned v → Result cur (seen ++ [e]) p v) :
    Sound cur (seen ++ [e]) (p.goto x) :=
  ⟨fun i hi => (h_s.acquired i hi).more e, counts, result⟩

theorem Sound.check (h_s : Sound cur seen p) (e : Objects T) (at_ : p.phase = .check i) :
    Sound cur (seen ++ [e]) (p.step e) := by
  have counts := h_s.counts
  simp only [Counts, at_] at counts
  obtain ⟨inside, done⟩ := counts
  rw [Poll.step]
  simp only [at_]
  by_cases more : i < p.cnt
  case neg =>
    rw [if_neg more]
    have last : i = p.cnt := by omega
    have all : p.done = p.count p.cnt := last ▸ done
    exact h_s.goto e all fun v hv => nomatch hv
  case pos =>
    rw [if_pos more]
    by_cases before : p.acquired i = true
    case pos =>
      rw [if_pos before]
      refine ⟨fun j hj => (h_s.acquired j hj).more e, ⟨more, ?_⟩, fun v hv => nomatch hv⟩
      show p.done + 1 = p.count (i + 1)
      rw [count_succ, if_pos before, done]
    case neg =>
      rw [if_neg before]
      by_cases now : ready e (p.hs i) = true
      case neg =>
        rw [if_neg now]
        refine h_s.goto e ⟨more, ?_⟩ fun v hv => nomatch hv
        show p.done = p.count (i + 1)
        rw [count_succ, if_neg before, done, Nat.add_zero]
      case pos =>
        rw [if_pos now]
        refine ⟨fun j hj => ?_, ⟨more, ?_⟩, fun v hv => nomatch hv⟩
        · by_cases same : j = i
          · rw [same]
            exact ready_acquired cur seen now
          · have old : Function.update p.acquired i true j = true := hj
            rw [Function.update_of_ne same] at old
            exact (h_s.acquired j old).more e
        · show p.done + 1 = (List.range (i + 1)).countP (Function.update p.acquired i true)
          have others : (List.range i).countP (Function.update p.acquired i true) = p.count i := by
            refine List.countP_congr fun j hj => ?_
            rw [Function.update_of_ne (Nat.ne_of_lt (List.mem_range.mp hj))]
          rw [List.range_succ, List.countP_append, others, List.countP_singleton,
            Function.update_self, if_pos rfl, done]

theorem Sound.test (h_s : Sound cur seen p) (e : Objects T) (at_ : p.phase = .test) :
    Sound cur (seen ++ [e]) (p.step e) := by
  have counts := h_s.counts
  simp only [Counts, at_] at counts
  rw [Poll.step]
  simp only [at_]
  cases found : if p.wall = false ∧ p.done > 0 then (List.range p.cnt).find? p.acquired else none with
  | some i =>
    obtain ⟨⟨any, -⟩, first⟩ := Option.ite_none_right_eq_some.mp found
    refine h_s.goto e trivial fun v hv => .inr (.inr (.inr ⟨any, i, ?_, ?_, ?_⟩))
    · exact List.mem_range.mp (List.mem_of_find?_eq_some first)
    · exact (Phase.returned.inj hv).symm
    · exact (h_s.acquired i (List.find?_some first)).more e
  | none =>
    dsimp only
    by_cases all : p.wall = true ∧ p.done = p.cnt
    case pos =>
      rw [if_pos all]
      refine h_s.goto e trivial fun v hv =>
        .inr (.inr (.inl ⟨(Phase.returned.inj hv).symm, all.1, fun i hi => ?_⟩))
      have full : (List.range p.cnt).countP p.acquired = (List.range p.cnt).length := by
        rw [List.length_range]
        exact counts.symm.trans all.2
      exact (h_s.acquired i (List.countP_eq_length.mp full i (List.mem_range.mpr hi))).more e
    case neg =>
      rw [if_neg all]
      by_cases zero : p.a4 = 0
      case pos =>
        rw [if_pos zero]
        exact h_s.goto e trivial fun v hv =>
          .inr (.inl ⟨(Phase.returned.inj hv).symm, .inl zero⟩)
      case neg =>
        rw [if_neg zero]
        exact h_s.goto e trivial fun v hv => nomatch hv

theorem Sound.clock (h_s : Sound cur seen p) (e : Objects T) (at_ : p.phase = .clock) :
    Sound cur (seen ++ [e]) (p.step e) := by
  rw [Poll.step]
  simp only [at_]
  by_cases late : p.deadline ≠ -1 ∧ e.pitTicks ≥ p.deadline
  case pos =>
    rw [if_pos late]
    refine h_s.goto e trivial fun v hv =>
      .inr (.inl ⟨(Phase.returned.inj hv).symm, .inr ⟨late.1, e, ?_, late.2⟩⟩)
    exact List.mem_append_right _ (List.mem_singleton.mpr rfl)
  case neg =>
    rw [if_neg late]
    exact ⟨fun i hi => (h_s.acquired i hi).more e, ⟨Nat.zero_le _, rfl⟩, fun v hv => nomatch hv⟩

/-- **One step of the loop**, whatever the kernel is like by then. -/
theorem Sound.step (h_s : Sound cur seen p) (e : Objects T) : Sound cur (seen ++ [e]) (p.step e) := by
  cases at_ : p.phase with
  | check i => exact h_s.check e at_
  | test => exact h_s.test e at_
  | clock => exact h_s.clock e at_
  | returned v =>
    rw [Poll.step]
    simp only [at_]
    exact ⟨fun i hi => (h_s.acquired i hi).more e, h_s.counts, fun v hv => (h_s.result v hv).more e⟩

/-- What the call has been given. -/
theorem start_given (c : Call) (cur : T) (o : Objects T) :
    (c.start o).cnt = c.cnt ∧ (c.start o).a4 = c.a4 ∧
      (c.start o).deadline = deadline c.a4 o.pitTicks ∧ Sound cur [] (c.start o) := by
  rw [Call.start]
  dsimp only
  split
  case isTrue => exact ⟨rfl, rfl, rfl, nofun, trivial, fun v hv => .inl (Phase.returned.inj hv).symm⟩
  case isFalse =>
    split
    · exact ⟨rfl, rfl, rfl, nofun, trivial, fun v hv => .inl (Phase.returned.inj hv).symm⟩
    · exact ⟨rfl, rfl, rfl, nofun, ⟨Nat.zero_le _, rfl⟩, nofun⟩

/-- **Every run of the loop.** -/
theorem poll_sound (c : Call) (cur : T) (o : Objects T) (seen : List (Objects T)) :
    SameCall (c.start o) (c.poll o seen) ∧ Sound cur seen (c.poll o seen) := by
  induction seen using List.reverseRecOn with
  | nil => exact ⟨⟨rfl, rfl, rfl, rfl, rfl⟩, (start_given c cur o).2.2.2⟩
  | append_singleton seen e ih =>
    rw [Call.poll, List.foldl_append]
    exact ⟨ih.1.trans (step_same _ e), ih.2.step e⟩

/-- A call that is refused has returned before the loop, which leaves it alone. -/
theorem poll_refused (o : Objects T) (seen : List (Objects T)) (bad : c.cnt = 0 ∨ c.cnt > 8) :
    (c.poll o seen).phase = .returned (STATUS_INVALID_PARAMETER.signExtend 64) := by
  induction seen using List.reverseRecOn with
  | nil =>
    rw [Call.poll, List.foldl_nil, Call.start, if_pos bad]
  | append_singleton seen e ih =>
    rw [Call.poll] at ih ⊢
    rw [List.foldl_append, List.foldl_cons, List.foldl_nil, Poll.step]
    simp only [ih]

/-- A deadline that can be computed. -/
theorem deadline_toNat {a4 ticks : u64} (finite : a4 ≠ -1) (short : a4.toNat * 100 < 2 ^ 64)
    (fits : ticks.toNat + a4.toNat * 100 / 1000 + 1 < 2 ^ 64) :
    (deadline a4 ticks).toNat = ticks.toNat + a4.toNat * 100 / 1000 + 1 := by
  have hundred : (100 : u64).toNat = 100 := rfl
  have thousand : (1000 : u64).toNat = 1000 := rfl
  have one : (1 : u64).toNat = 1 := rfl
  rw [deadline, if_neg finite, BitVec.toNat_add, BitVec.toNat_add, BitVec.toNat_udiv,
    BitVec.toNat_mul, hundred, thousand, one, Nat.mod_eq_of_lt short]
  omega

end

/-- **The wait as it is**: for every number of handles, array, kind of wait, timeout and
interleaving. -/
theorem waitMultiple_polls (c : Call) (cur : T) (o : Objects T) (seen : List (Objects T)) :
    Polls c cur o seen := by
  obtain ⟨same, sound⟩ := poll_sound c cur o seen
  obtain ⟨cnt, a4, limit, -⟩ := start_given c cur o
  have cnt : (c.poll o seen).cnt = c.cnt := same.cnt.trans cnt
  have a4 : (c.poll o seen).a4 = c.a4 := same.a4.trans a4
  have limit : (c.poll o seen).deadline = deadline c.a4 o.pitTicks := same.deadline.trans limit
  have index : ∀ i < c.cnt, (BitVec.ofNat 64 i).toNat = i := fun i hi => by
    have narrow : c.cnt < 2 ^ 32 := BitVec.isLt _
    rw [BitVec.toNat_ofNat]
    omega
  have few : ∀ v, (c.poll o seen).phase = .returned v →
      v ≠ STATUS_INVALID_PARAMETER.signExtend 64 → c.cnt ≤ 8 := fun v at_ good => by
    by_contra many
    have refused := poll_refused o seen (.inr (Nat.lt_of_not_le many))
    exact good (Phase.returned.inj (at_.symm.trans refused))
  have status : ∀ i < c.cnt, c.cnt ≤ 8 → ∀ v : u64, BitVec.ofNat 64 i = v → v.toNat < 8 :=
    fun i hi small v equal => by
      rw [← equal, index i hi]
      exact Nat.lt_of_lt_of_le hi small
  refine ⟨fun wall ok => ?_, fun wall i hi ok => ?_, fun bad => ?_, fun late short fits => ?_⟩
  · rcases sound.result _ ok with bad | ⟨late, -⟩ | ⟨-, -, each⟩ | ⟨any, -⟩
    · exact absurd bad (by decide)
    · exact absurd late (by decide)
    · exact cnt ▸ each
    · exact absurd (wall.symm.trans any) (by decide)
  · have valid : BitVec.ofNat 64 i ≠ STATUS_INVALID_PARAMETER.signExtend 64 := fun e => by
      have narrow : c.cnt < 2 ^ 32 := BitVec.isLt _
      have equal := congrArg BitVec.toNat e
      rw [index i hi] at equal
      have large : (STATUS_INVALID_PARAMETER.signExtend 64).toNat = 0xFFFFFFFFC000000D := by decide
      omega
    have small := few _ ok valid
    rcases sound.result _ ok with bad | ⟨late, -⟩ | ⟨-, all, -⟩ | ⟨-, j, hj, equal, acquired⟩
    · exact absurd bad valid
    · exact absurd (status i hi small _ late) (by decide)
    · exact absurd (wall.symm.trans all) (by decide)
    · have equal := congrArg BitVec.toNat equal
      rw [index i hi, index j (cnt ▸ hj)] at equal
      exact equal ▸ acquired
  · have small := few _ bad (by decide)
    rcases sound.result _ bad with bad | ⟨late, -⟩ | ⟨ok, -⟩ | ⟨-, j, hj, equal, -⟩
    · exact absurd bad (by decide)
    · exact absurd late (by decide)
    · exact absurd ok (by decide)
    · exact absurd (status j (cnt ▸ hj) small _ equal.symm) (by decide)
  · have small := few _ late (by decide)
    rcases sound.result _ late with bad | ⟨-, timeout⟩ | ⟨ok, -⟩ | ⟨-, j, hj, equal, -⟩
    · exact absurd bad (by decide)
    · rcases timeout with zero | ⟨finite, e, he, ticks⟩
      · refine ⟨o, List.mem_cons_self, ?_⟩
        rw [← a4, zero]
        exact Nat.le_refl _
      · refine ⟨e, List.mem_cons_of_mem o he, ?_⟩
        rw [limit] at finite ticks
        have some_ : c.a4 ≠ -1 := fun e => finite (by rw [deadline, if_pos e])
        have reached := BitVec.le_def.mp ticks
        rw [deadline_toNat some_ short fits] at reached
        omega
    · exact absurd ok (by decide)
    · exact absurd (status j (cnt ▸ hj) small _ equal.symm) (by decide)

/-- One handle in unmapped memory, which is read as 0, when nothing exists. -/
def nothing : Objects Unit where
  proc := fun _ => none
  mutant := fun _ => none
  sema := fun _ => none
  event := fun _ => none
  pitTicks := 0

def oneZero : Call where
  a1 := 1
  a2 := 0
  a3 := 0
  a4 := 0
  mem := fun _ _ => 0#64
  cr3 := some 0

/-- **Handle 0 is acquired**, which a single wait reports as invalid. -/
theorem zero_acquired : ¬ Faithful oneZero () nothing [nothing, nothing, nothing] := fun faithful => by
  have handle : (oneZero.poll nothing [nothing, nothing, nothing]).hs 0 = 0 := by decide
  have index : (oneZero.poll nothing [nothing, nothing, nothing]).phase = .returned 0 := by decide
  have single : waitSingle nothing () 0 = some STATUS_INVALID_HANDLE := by decide
  have reported := faithful.invalid (by decide) 0 (by decide) (by rw [handle, single]) 0 index
  exact absurd reported (by decide)

end MicroNT.Waits
