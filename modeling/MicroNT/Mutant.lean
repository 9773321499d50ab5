import MicroNT.Base.Machine
import MicroNT.Blocking
import MicroNT.Ntdef

/-! # Mutants (`NtCreateMutant`, `NtReleaseMutant`, `NtWaitForSingleObject`)

One mutant and any number of threads. The wait runs with interrupts off up to its
`Schedule()`. A release tests the owner first and turns interrupts off only then,
so other threads may come in between. -/

set_option linter.unusedSectionVars false

namespace MicroNT.Sync

open MicroNT.Base.Machine MicroNT.Base.Chain

structure KMutant (T : Type) where
  owner : Option T
  depth : u32
  ends : Ends T

namespace Mutant

def statusSuccess : u32 := 0x00000000
def statusMutantNotOwned : u32 := 0xC0000046

/-- `NtCreateMutant` by thread `cur`. -/
def ntCreateMutant {T : Type} (a1 : u64) (cur : T) : KMutant T :=
  { owner := if a1 ≠ 0 then some cur else none
    depth := if a1 ≠ 0 then 1 else 0
    ends := ⟨none, none⟩ }

/-- Where a thread is: outside, in `Schedule()` inside the wait, or in a release
behind its test of the owner. -/
inductive Pc
  | idle
  | waiting
  | releasing
  deriving DecidableEq

/-- The mutant and the threads, with a record of what has happened: the status each
thread's last call returned, how often the mutant was given to a thread, how often
a thread knows that it was (its waits that returned `STATUS_SUCCESS`, and its
creation of the mutant), how often it released it, the threads that queued up and
those the mutant was handed to, each in their order. -/
structure System (T : Type) where
  thr : Threads T
  mutant : KMutant T
  pc : T → Pc
  result : T → u32
  granted : T → Nat
  acquired : T → Nat
  released : T → Nat
  queued : List T
  handed : List T

variable {T : Type} [DecidableEq T]

def oneMore (f : T → Nat) (t : T) : T → Nat := Function.update f t (f t + 1)

def System.goto (s : System T) (t : T) (p : Pc) : System T :=
  { s with pc := Function.update s.pc t p }

def System.return (s : System T) (t : T) (status : u32) : System T :=
  { s with
    pc := Function.update s.pc t .idle
    result := Function.update s.result t status }

/-- A wait returns `STATUS_SUCCESS`. -/
def System.succeed (s : System T) (t : T) : System T :=
  { s with acquired := oneMore s.acquired t }.return t statusSuccess

/-- `NtWaitForSingleObject` on the mutant, up to its return or `Schedule()`. -/
def ntWait (s : System T) (t : T) : System T :=
  if s.mutant.owner = none then
    { s with
      mutant := { s.mutant with owner := some t, depth := 1 }
      granted := oneMore s.granted t }.succeed t
  else if s.mutant.owner = some t then
    { s with
      mutant := { s.mutant with depth := s.mutant.depth + 1 }
      granted := oneMore s.granted t }.succeed t
  else
    let r := enqueue s.thr.waitNext s.mutant.ends t
    ({ s with
        thr := Threads.block { s.thr with waitNext := r.1 } t
        mutant := { s.mutant with ends := r.2 }
        queued := s.queued ++ [t] } : System T).goto t .waiting

/-- `NtReleaseMutant` up to its `DisableInterrupts()`. -/
def ntRelease (s : System T) (t : T) : System T :=
  if s.mutant.owner ≠ some t then s.return t statusMutantNotOwned else s.goto t .releasing

/-- The mutant goes to the first thread of the queue. -/
def System.handOff (s : System T) (w : T) : System T :=
  let r := dequeue s.thr.waitNext s.mutant.ends w
  { s with
    thr := Threads.unblock { s.thr with waitNext := r.1 } w
    mutant := ⟨some w, 1, r.2⟩
    granted := oneMore s.granted w
    handed := s.handed ++ [w] }

/-- The rest of `NtReleaseMutant`. Interrupts are off up to the end of
`UnblockThread`, and nothing is done after it. -/
def letGo (s : System T) (t : T) : System T :=
  let s : System T :=
    { s with
      mutant := { s.mutant with depth := s.mutant.depth - 1 }
      released := oneMore s.released t }
  (if s.mutant.depth = 0 then
    match s.mutant.ends.head with
    | some w => s.handOff w
    | none => { s with mutant := { s.mutant with owner := none } }
  else s).return t statusSuccess

inductive Op
  | wait
  | release
  | proceed
  deriving DecidableEq

/-- A step of thread `t`: a call it starts or the next step of one. -/
def step (s : System T) (a : T × Op) : Option (System T) :=
  if s.thr.runnable a.1 then
    match a.2, s.pc a.1 with
    | .wait, .idle => some (ntWait s a.1)
    | .release, .idle => some (ntRelease s a.1)
    | .proceed, .waiting =>
      some ({ s with thr := s.thr.setState a.1 .running }.succeed a.1)
    | .proceed, .releasing => some (letGo s a.1)
    | _, _ => none
  else none

/-- Right after `NtCreateMutant` by some thread. -/
structure Start (s : System T) : Prop where
  created : ∃ a1 cur, s.mutant = ntCreateMutant a1 cur
  pc : ∀ t, s.pc t = .idle
  granted : ∀ t, s.granted t = if s.mutant.owner = some t then 1 else 0
  acquired : s.acquired = s.granted
  released : ∀ t, s.released t = 0
  queued : s.queued = []
  handed : s.handed = []

/-- The thread does not nest `2 ^ 32` acquisitions. -/
def Shallow (s : System T) (a : T × Op) : Prop :=
  a.2 = .wait → s.granted a.1 + 1 < s.released a.1 + 2 ^ 32

instance (s : System T) (a : T × Op) : Decidable (Shallow s a) :=
  inferInstanceAs (Decidable (_ → _))

/-- Mutual exclusion with recursion: what holds in every state. -/
structure Sound (s : System T) : Prop where
  free_iff : s.mutant.owner = none ↔ s.mutant.depth = 0
  outstanding : s.mutant.depth = 0 ↔ ∀ t, s.granted t = s.released t
  depth : ∀ t, s.mutant.owner = some t → s.released t + s.mutant.depth.toNat = s.granted t
  owned : s.mutant.ends.head ≠ none → s.mutant.owner ≠ none
  fifo : s.handed <+: s.queued
  /-- While it is owned, other threads change neither the owner nor the depth, -/
  others : ∀ t u op s', s.mutant.owner = some t → u ≠ t → step s (u, op) = some s' →
    s'.mutant.owner = some t ∧ s'.mutant.depth = s.mutant.depth
  /-- and if they try to release it, nothing of it changes. -/
  release : ∀ u op s', s.mutant.owner ≠ some u → op ≠ .wait → step s (u, op) = some s' →
    s'.mutant = s.mutant
  acquired : ∀ t, s.acquired t ≤ s.granted t
  exclusive : ∀ t, s.released t < s.acquired t → s.mutant.owner = some t

/-! ## The invariant -/

/-- The queue, and for every thread how the record of its calls fits the mutant. A
thread in the wait is on the queue, or the mutant was handed to it. -/
structure Inv (s : System T) (l : List T) : Prop where
  queue : Queue s.thr.waitNext s.mutant.ends l
  parked : ∀ t ∈ l, s.pc t = .waiting ∧ s.thr.runnable t = false ∧ s.thr.state t = .blocked
  given : ∀ t, s.pc t = .waiting → t ∈ l ∨ s.mutant.owner = some t
  waits : ∀ t ∈ l, s.mutant.owner ≠ some t
  owned : s.mutant.owner = none → l = []
  free_iff : s.mutant.owner = none ↔ s.mutant.depth = 0
  releasing : ∀ t, s.pc t = .releasing → s.mutant.owner = some t
  count : ∀ t, s.granted t =
    s.released t + if s.mutant.owner = some t then s.mutant.depth.toNat else 0
  acquired : ∀ t,
    s.acquired t + (if s.pc t = .waiting ∧ s.mutant.owner = some t then 1 else 0) = s.granted t
  fifo : s.queued = s.handed ++ l

theorem Start.inv {s : System T} (start : Start s) : Inv s [] := by
  obtain ⟨a1, cur, hm⟩ := start.created
  have free_iff : s.mutant.owner = none ↔ s.mutant.depth = 0 := by
    rw [hm]
    unfold ntCreateMutant
    by_cases own : a1 = 0 <;> simp [own]
  constructor
  case queue => rw [hm]; exact Queue.empty _
  case parked => nofun
  case given => intro t ht; rw [start.pc t] at ht; cases ht
  case waits => nofun
  case owned => exact fun _ => rfl
  case free_iff => exact free_iff
  case releasing => intro t ht; rw [start.pc t] at ht; cases ht
  case count =>
    intro t
    rw [start.granted, start.released, Nat.zero_add]
    split
    case isTrue own =>
      rw [hm] at own ⊢
      unfold ntCreateMutant at own ⊢
      by_cases h : a1 ≠ 0
      · simp only [if_pos h]
        rfl
      · simp only [if_neg h] at own
        cases own
    case isFalse => rfl
  case acquired => intro t; simp [start.pc t, start.acquired]
  case fifo => rw [start.queued, start.handed]; rfl

variable {s s' : System T} {l : List T} {t : T}

theorem Inv.not_listed (h : Inv s l) (run : s.thr.runnable t = true) : t ∉ l := by
  intro ht
  rw [(h.parked t ht).2.1] at run
  cases run

/-- A call returns and nothing else changes. -/
theorem Inv.answer (h : Inv s l) (idle : s.pc t = .idle) (status : u32) :
    Inv (s.return t status) l := by
  have same : Function.update s.pc t .idle = s.pc := by rw [← idle, Function.update_eq_self]
  unfold System.return
  rw [same]
  exact ⟨h.queue, h.parked, h.given, h.waits, h.owned, h.free_iff, h.releasing, h.count,
    h.acquired, h.fifo⟩

/-- The mutant is given to a thread that asks for it: the first time or again. -/
theorem Inv.give (h : Inv s l) (run : s.thr.runnable t = true) (idle : s.pc t = .idle)
    (mine : s.mutant.owner = none ∨ s.mutant.owner = some t) {d : u32}
    (deeper : d.toNat = s.mutant.depth.toNat + 1) :
    Inv ({ s with
      mutant := { s.mutant with owner := some t, depth := d }
      granted := oneMore s.granted t }.succeed t) l := by
  have free := h.not_listed run
  unfold System.succeed System.return oneMore
  constructor
  case queue => exact h.queue
  case parked =>
    intro u hu
    have old := h.parked u hu
    grind [Function.update_apply]
  case given =>
    intro u hu
    have old := h.given u
    grind [Function.update_apply]
  case waits => grind
  case owned => nofun
  case free_iff =>
    refine ⟨nofun, fun (zero : d = 0) => ?_⟩
    rw [zero] at deeper
    cases deeper
  case releasing =>
    intro u hu
    have old := h.releasing u
    grind [Function.update_apply]
  case count =>
    intro u
    have old := h.count u
    have zero := h.free_iff
    grind [Function.update_apply]
  case acquired =>
    intro u
    have old := h.acquired u
    grind [Function.update_apply]
  case fifo => exact h.fifo

theorem Inv.wait (h : Inv s l) (run : s.thr.runnable t = true) (idle : s.pc t = .idle)
    (shallow : s.granted t + 1 < s.released t + 2 ^ 32) : ∃ l', Inv (ntWait s t) l' := by
  unfold ntWait
  split
  case isTrue free =>
    refine ⟨l, h.give run idle (Or.inl free) ?_⟩
    rw [h.free_iff.mp free]
    rfl
  case isFalse taken =>
    split
    case isTrue mine =>
      have count := h.count t
      rw [if_pos mine] at count
      have deeper : (s.mutant.depth + 1).toNat = s.mutant.depth.toNat + 1 := by
        rw [BitVec.toNat_add_of_lt]
        · rfl
        · show s.mutant.depth.toNat + 1 < 2 ^ 32
          omega
      have keep := h.give run idle (Or.inr mine) deeper
      rw [← mine] at keep
      exact ⟨l, keep⟩
    case isFalse other =>
      have free := h.not_listed run
      refine ⟨l ++ [t], ?_⟩
      unfold System.goto Threads.block
      constructor
      case queue => exact h.queue.enqueue free
      case parked =>
        intro u hu
        have old := h.parked u
        grind [Function.update_apply]
      case given =>
        intro u hu
        have old := h.given u
        grind [Function.update_apply]
      case waits =>
        intro u hu
        have old := h.waits u
        grind
      case owned => exact fun none => absurd none taken
      case free_iff => exact h.free_iff
      case releasing =>
        intro u hu
        have old := h.releasing u
        grind [Function.update_apply]
      case count => exact h.count
      case acquired =>
        intro u
        have old := h.acquired u
        grind [Function.update_apply]
      case fifo =>
        show s.queued ++ [t] = s.handed ++ (l ++ [t])
        rw [h.fifo, List.append_assoc]

theorem Inv.release (h : Inv s l) (idle : s.pc t = .idle) : Inv (ntRelease s t) l := by
  unfold ntRelease
  split
  case isTrue => exact h.answer idle _
  case isFalse mine =>
    unfold System.goto
    constructor
    case queue => exact h.queue
    case parked =>
      intro u hu
      have old := h.parked u hu
      grind [Function.update_apply]
    case given =>
      intro u hu
      have old := h.given u
      grind [Function.update_apply]
    case waits => exact h.waits
    case owned => exact h.owned
    case free_iff => exact h.free_iff
    case releasing =>
      intro u hu
      have old := h.releasing u
      grind [Function.update_apply]
    case count => exact h.count
    case acquired =>
      intro u
      have old := h.acquired u
      grind [Function.update_apply]
    case fifo => exact h.fifo

/-- A thread that the mutant was handed to returns from its wait. -/
theorem Inv.resume (h : Inv s l) (run : s.thr.runnable t = true) (at_ : s.pc t = .waiting) :
    Inv ({ s with thr := s.thr.setState t .running }.succeed t) l := by
  have free := h.not_listed run
  have mine : s.mutant.owner = some t := (h.given t at_).resolve_left free
  unfold System.succeed System.return Threads.setState oneMore
  constructor
  case queue => exact h.queue
  case parked =>
    intro u hu
    have old := h.parked u hu
    grind [Function.update_apply]
  case given =>
    intro u hu
    have old := h.given u
    grind [Function.update_apply]
  case waits => exact h.waits
  case owned => exact h.owned
  case free_iff => exact h.free_iff
  case releasing =>
    intro u hu
    have old := h.releasing u
    grind [Function.update_apply]
  case count => exact h.count
  case acquired =>
    intro u
    have old := h.acquired u
    grind [Function.update_apply]
  case fifo => exact h.fifo

/-- The owner gives up one acquisition: it keeps the mutant, or the first thread of
the queue gets it, or nobody. -/
theorem Inv.letGo (h : Inv s l) (run : s.thr.runnable t = true) (at_ : s.pc t = .releasing) :
    ∃ l', Inv (Mutant.letGo s t) l' := by
  have free := h.not_listed run
  have mine := h.releasing t at_
  have held : s.mutant.depth ≠ 0 := fun zero => by
    rw [h.free_iff.mpr zero] at mine
    cases mine
  have less : (s.mutant.depth - 1).toNat + 1 = s.mutant.depth.toNat := by
    have pos : 0 < s.mutant.depth.toNat := by
      by_contra zero
      exact held (BitVec.eq_of_toNat_eq (by simpa using zero))
    rw [BitVec.toNat_sub_of_le (by bv_omega)]
    exact Nat.sub_add_cancel pos
  unfold Mutant.letGo
  simp only
  split
  case isFalse still =>
    refine ⟨l, ?_⟩
    unfold System.return oneMore
    constructor
    case queue => exact h.queue
    case parked =>
      intro u hu
      have old := h.parked u hu
      grind [Function.update_apply]
    case given =>
      intro u hu
      have old := h.given u
      grind [Function.update_apply]
    case waits => exact h.waits
    case owned => exact h.owned
    case free_iff =>
      refine ⟨fun (none : s.mutant.owner = none) => ?_, fun zero => absurd zero still⟩
      rw [mine] at none
      cases none
    case releasing =>
      intro u hu
      have old := h.releasing u
      grind [Function.update_apply]
    case count =>
      intro u
      have old := h.count u
      grind [Function.update_apply]
    case acquired =>
      intro u
      have old := h.acquired u
      grind [Function.update_apply]
    case fifo => exact h.fifo
  case isTrue last =>
    have one : s.mutant.depth.toNat = 1 := by
      rw [← less, last]
      rfl
    split
    case h_2 none =>
      have empty : l = [] := by
        have linked := h.queue.linked
        rw [none] at linked
        exact linked.eq_nil
      subst empty
      refine ⟨[], ?_⟩
      unfold System.return oneMore
      constructor
      case queue => exact h.queue
      case parked => exact fun u hu => absurd hu List.not_mem_nil
      case given =>
        intro u hu
        have old := h.given u
        grind [Function.update_apply]
      case waits => exact fun u hu => absurd hu List.not_mem_nil
      case owned => exact fun _ => rfl
      case free_iff => exact ⟨fun _ => last, fun _ => rfl⟩
      case releasing =>
        intro u hu
        have old := h.releasing u
        grind [Function.update_apply]
      case count =>
        intro u
        have old := h.count u
        grind [Function.update_apply]
      case acquired =>
        intro u
        have old := h.acquired u
        grind [Function.update_apply]
      case fifo => exact h.fifo
    case h_1 w first =>
      have linked := h.queue.linked
      rw [first] at linked
      obtain ⟨r, rfl, -⟩ := linked.eq_cons
      have here := h.parked w (List.mem_cons_self ..)
      have once : w ∉ r := (List.nodup_cons.mp h.queue.linked.nodup).1
      have apart : w ≠ t := fun e => free (e ▸ List.mem_cons_self ..)
      have unowned := h.waits w (List.mem_cons_self ..)
      have alive : s.thr.state w ≠ .terminated := by
        rw [here.2.2]
        decide
      refine ⟨r, ?_⟩
      unfold System.handOff System.return oneMore
      simp only
      rw [Threads.unblock_of_alive (by exact alive)]
      unfold Threads.pushReady
      constructor
      case queue => exact h.queue.dequeue
      case parked =>
        intro u hu
        have old := h.parked u (List.mem_cons_of_mem w hu)
        grind [Function.update_apply]
      case given =>
        intro u hu
        have old := h.given u
        grind [Function.update_apply]
      case waits =>
        intro u hu
        grind
      case owned => exact fun none => absurd none (Option.some_ne_none w)
      case free_iff =>
        exact ⟨fun none => absurd none (Option.some_ne_none w), fun zero => by cases zero⟩
      case releasing =>
        intro u hu
        have old := h.releasing u
        grind [Function.update_apply]
      case count =>
        intro u
        have old := h.count u
        have unit : (1 : u32).toNat = 1 := rfl
        grind [Function.update_apply]
      case acquired =>
        intro u
        have old := h.acquired u
        grind [Function.update_apply]
      case fifo =>
        show s.queued = s.handed ++ [w] ++ r
        rw [h.fifo, List.append_assoc]
        rfl

theorem step_cases {op : Op} (h : step s (t, op) = some s') :
    s.thr.runnable t = true ∧
    ((op = .wait ∧ s.pc t = .idle ∧ s' = ntWait s t) ∨
    (op = .release ∧ s.pc t = .idle ∧ s' = ntRelease s t) ∨
    (op = .proceed ∧ s.pc t = .waiting ∧
      s' = { s with thr := s.thr.setState t .running }.succeed t) ∨
    (op = .proceed ∧ s.pc t = .releasing ∧ s' = letGo s t)) := by
  unfold step at h
  simp only at h
  split at h
  case isFalse => cases h
  case isTrue run =>
    refine ⟨run, ?_⟩
    cases op <;> cases at_ : s.pc t <;> simp only [at_, Option.some.injEq, reduceCtorEq] at h
    · exact Or.inl ⟨rfl, rfl, h.symm⟩
    · exact Or.inr (Or.inl ⟨rfl, rfl, h.symm⟩)
    · exact Or.inr (Or.inr (Or.inl ⟨rfl, rfl, h.symm⟩))
    · exact Or.inr (Or.inr (Or.inr ⟨rfl, rfl, h.symm⟩))

theorem Inv.step (h : Inv s l) {a : T × Op} (shallow : Shallow s a)
    (hs : Mutant.step s a = some s') : ∃ l', Inv s' l' := by
  obtain ⟨t, op⟩ := a
  obtain ⟨run, step⟩ := step_cases hs
  rcases step with ⟨rfl, idle, rfl⟩ | ⟨rfl, idle, rfl⟩ | ⟨rfl, at_, rfl⟩ | ⟨rfl, at_, rfl⟩
  · exact h.wait run idle (shallow rfl)
  · exact ⟨l, h.release idle⟩
  · exact ⟨l, h.resume run at_⟩
  · exact h.letGo run at_

/-- Only the owner gets behind the test of a release. -/
theorem Inv.release_keeps (h : Inv s l) {op : Op} (other : s.mutant.owner ≠ some t)
    (hop : op ≠ .wait) (hs : Mutant.step s (t, op) = some s') : s'.mutant = s.mutant := by
  obtain ⟨-, step⟩ := step_cases hs
  rcases step with ⟨rfl, -⟩ | ⟨-, -, rfl⟩ | ⟨-, -, rfl⟩ | ⟨-, at_, -⟩
  · exact absurd rfl hop
  · unfold ntRelease
    rw [if_pos other]
    rfl
  · rfl
  · exact absurd (h.releasing t at_) other

theorem Inv.others_keep (h : Inv s l) {op : Op} {u : T} (own : s.mutant.owner = some u)
    (other : t ≠ u) (hs : Mutant.step s (t, op) = some s') :
    s'.mutant.owner = some u ∧ s'.mutant.depth = s.mutant.depth := by
  have foreign : s.mutant.owner ≠ some t := by
    rw [own]
    exact fun e => other (Option.some.inj e).symm
  by_cases hop : op = .wait
  · obtain ⟨-, step⟩ := step_cases hs
    subst hop
    rcases step with ⟨-, -, rfl⟩ | ⟨hop, -⟩ | ⟨hop, -⟩ | ⟨hop, -⟩
    · unfold ntWait
      rw [if_neg (by rw [own]; nofun), if_neg foreign]
      exact ⟨own, rfl⟩
    all_goals cases hop
  · rw [h.release_keeps foreign hop hs]
    exact ⟨own, rfl⟩

theorem Inv.sound (h : Inv s l) : Sound s := by
  constructor
  case free_iff => exact h.free_iff
  case outstanding =>
    constructor
    · intro zero t
      have count := h.count t
      rw [h.free_iff.mpr zero] at count
      exact count
    · intro all
      by_contra held
      obtain ⟨t, own⟩ := Option.ne_none_iff_exists'.mp (mt h.free_iff.mp held)
      have count := h.count t
      rw [all t, if_pos own] at count
      exact held (BitVec.eq_of_toNat_eq (Nat.left_eq_add.mp count))
  case depth =>
    intro t own
    rw [h.count t, if_pos own]
  case owned =>
    intro some none
    have linked := h.queue.linked
    rw [h.owned none] at linked
    exact some linked
  case fifo => exact ⟨l, h.fifo.symm⟩
  case others => exact fun t u op s' own other hs => h.others_keep own other hs
  case release => exact fun u op s' other hop hs => h.release_keeps other hop hs
  case acquired => exact fun t => Nat.le.intro (h.acquired t)
  case exclusive =>
    intro t more
    by_contra other
    have count := h.count t
    have acquired := h.acquired t
    rw [if_neg other] at count
    omega

end Mutant

end MicroNT.Sync
