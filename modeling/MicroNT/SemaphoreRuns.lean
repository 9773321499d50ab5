import MicroNT.Semaphore

/-! # Runs of a semaphore

A release that no other wait or release interrupts hands every unit to a waiter
or to the count. -/

set_option linter.unusedSectionVars false

namespace MicroNT.Sync.Semaphore

open MicroNT.Base.Machine MicroNT.Base.Chain

/-! ## Arithmetic -/

theorem units_lt (a2 : u64) : units a2 < 2 ^ 31 := by
  unfold units
  have h := (a2.setWidth 32).isLt
  have two := @BitVec.two_mul_toInt_lt 32 (a2.setWidth 32)
  have cond := BitVec.toInt_eq_toNat_cond (a2.setWidth 32 : i32)
  simp only
  split <;> split at cond <;> omega

theorem units_pos (a2 : u64) : 0 < units a2 := by
  unfold units
  have cond := BitVec.toInt_eq_toNat_cond (a2.setWidth 32 : i32)
  simp only
  split
  · exact Nat.one_pos
  · split at cond <;> omega

/-- The sum of a count and some units: exact, or too small by `2 ^ 32`. -/
theorem add_cases (c : i32) {rel : Nat} (h : rel < 2 ^ 31) :
    (c.toInt + rel < 2 ^ 31 ∧ (c + BitVec.ofNat 32 rel).toInt = c.toInt + rel) ∨
    (2 ^ 31 ≤ c.toInt + rel ∧ (c + BitVec.ofNat 32 rel).toInt = c.toInt + rel - 2 ^ 32) := by
  have low := @BitVec.le_two_mul_toInt 32 c
  have high := @BitVec.two_mul_toInt_lt 32 c
  have hrel : (BitVec.ofNat 32 rel).toInt = rel := by
    have cond := BitVec.toInt_eq_toNat_cond (BitVec.ofNat 32 rel)
    rw [BitVec.toNat_ofNat, Nat.mod_eq_of_lt (by omega)] at cond
    split at cond <;> omega
  rw [BitVec.toInt_add, hrel, Int.bmod_def]
  split <;> omega

theorem add_le (c : i32) {rel : Nat} (h : rel < 2 ^ 31) :
    (c + BitVec.ofNat 32 rel).toInt ≤ c.toInt + rel := by
  rcases add_cases c h with ⟨-, e⟩ | ⟨-, e⟩ <;> omega

variable {T : Type} [DecidableEq T]

theorem newCount_cases (v : KSema T) (rel : Nat) :
    (v.maxCount.toInt < (v.count + BitVec.ofNat 32 rel).toInt ∧ newCount v rel = v.maxCount) ∨
    ((v.count + BitVec.ofNat 32 rel).toInt ≤ v.maxCount.toInt ∧
      newCount v rel = v.count + BitVec.ofNat 32 rel) := by
  unfold newCount
  split
  case isTrue above => exact Or.inl ⟨above, rfl⟩
  case isFalse below => exact Or.inr ⟨Int.not_lt.mp below, rfl⟩

theorem newCount_le (v : KSema T) {rel : Nat} (h : rel < 2 ^ 31) :
    (newCount v rel).toInt ≤ v.count.toInt + rel := by
  have sum := add_le v.count h
  rcases newCount_cases v rel with ⟨above, e⟩ | ⟨-, e⟩ <;> rw [e] <;> omega

/-! ## The invariant -/

/-- The queue, the thread a release has in its hand, and the threads woken that
have not returned yet. -/
structure Shape (s : System T) (l hand out : List T) : Prop where
  linked : Linked s.thr.waitNext s.sema.ends.head l
  parked : ∀ t ∈ hand ++ l,
    s.pc t = .waiting ∧ s.thr.runnable t = false ∧ s.thr.state t = .blocked
  nodup : (hand ++ l).Nodup
  woken : ∀ t, t ∈ out ↔ s.pc t = .waiting ∧ t ∉ hand ++ l
  out_nodup : out.Nodup
  fifo : s.queued = s.woken ++ hand ++ l

variable {s₀ s s' : System T} {l hand out : List T} {t w : T}

/-- A step of a thread outside the wait that leaves the threads alone. -/
theorem Shape.move (h : Shape s l hand out) (was : s.pc t ≠ .waiting) {p : Pc T}
    (next : p ≠ .waiting) (thr : s'.thr = s.thr) (head : s'.sema.ends.head = s.sema.ends.head)
    (pc : s'.pc = Function.update s.pc t p) (queued : s'.queued = s.queued)
    (woken : s'.woken = s.woken) : Shape s' l hand out := by
  constructor
  case linked => rw [thr, head]; exact h.linked
  case parked =>
    intro u hu
    rw [thr, pc]
    have old := h.parked u hu
    grind [Function.update_apply]
  case nodup => exact h.nodup
  case woken =>
    intro u
    rw [pc]
    have old := h.woken u
    grind [Function.update_apply]
  case out_nodup => exact h.out_nodup
  case fifo => rw [queued, woken]; exact h.fifo

/-- A thread that was woken returns from its wait. -/
theorem Shape.resume (s' : System T) (h : Shape s l hand out) (run : s.thr.runnable t = true)
    (at_ : s.pc t = .waiting) (next : s'.thr.waitNext = s.thr.waitNext)
    (runnable : s'.thr.runnable = s.thr.runnable)
    (state : s'.thr.state = Function.update s.thr.state t .running)
    (ends : s'.sema.ends = s.sema.ends) (pc : s'.pc = Function.update s.pc t .idle)
    (queued : s'.queued = s.queued) (woken : s'.woken = s.woken) :
    t ∈ out ∧ Shape s' l hand (out.erase t) := by
  have free : t ∉ hand ++ l := by
    intro ht
    rw [(h.parked t ht).2.1] at run
    cases run
  have nd := h.out_nodup
  refine ⟨(h.woken t).mpr ⟨at_, free⟩, ?_⟩
  constructor
  case linked => rw [next, ends]; exact h.linked
  case parked =>
    intro u hu
    rw [pc, runnable, state]
    have old := h.parked u hu
    grind [Function.update_apply]
  case nodup => exact h.nodup
  case woken =>
    intro u
    rw [pc]
    have old := h.woken u
    grind [Function.update_apply, List.Nodup.mem_erase_iff]
  case out_nodup => exact nd.erase t
  case fifo => rw [queued, woken]; exact h.fifo

/-- A thread joins the queue. -/
theorem Shape.park (s' : System T) (h : Shape s l [] out) (run : s.thr.runnable t = true)
    (idle : s.pc t = .idle) (tail : s.sema.ends.tail = l.getLast?)
    (next : s'.thr.waitNext = (enqueue s.thr.waitNext s.sema.ends t).1)
    (ends : s'.sema.ends = (enqueue s.thr.waitNext s.sema.ends t).2)
    (runnable : s'.thr.runnable = Function.update s.thr.runnable t false)
    (state : s'.thr.state = Function.update s.thr.state t .blocked)
    (pc : s'.pc = Function.update s.pc t .waiting)
    (queued : s'.queued = s.queued ++ [t]) (woken : s'.woken = s.woken) :
    Shape s' (l ++ [t]) [] out ∧ s'.sema.ends.tail = (l ++ [t]).getLast? := by
  have free : t ∉ l := by
    intro ht
    rw [(h.parked t ht).2.1] at run
    cases run
  have queue := Queue.enqueue ⟨h.linked, tail⟩ free
  refine ⟨?_, by rw [ends]; exact queue.tail⟩
  constructor
  case linked => rw [next, ends]; exact queue.linked
  case parked =>
    intro u hu
    rw [pc, runnable, state]
    have old := h.parked u
    grind [Function.update_apply]
  case nodup =>
    have nd := h.nodup
    grind [List.nodup_append]
  case woken =>
    intro u
    rw [pc]
    have old := h.woken u
    grind [Function.update_apply]
  case out_nodup => exact h.out_nodup
  case fifo =>
    rw [queued, woken, h.fifo]
    simp

/-- The first thread goes from the queue to the hand. -/
theorem Shape.unlink (s' : System T) (h : Shape s (w :: l) [] out)
    (next : s'.thr.waitNext = s.thr.waitNext)
    (runnable : s'.thr.runnable = s.thr.runnable) (state : s'.thr.state = s.thr.state)
    (head : s'.sema.ends.head = s.thr.waitNext w) {p : Pc T} (was : s.pc t ≠ .waiting)
    (now : p ≠ .waiting) (pc : s'.pc = Function.update s.pc t p)
    (queued : s'.queued = s.queued) (woken : s'.woken = s.woken) :
    Shape s' l [w] out := by
  constructor
  case linked => rw [next, head]; exact h.linked.2
  case parked =>
    intro u hu
    rw [pc, runnable, state]
    have old := h.parked u hu
    grind [Function.update_apply]
  case nodup => exact h.nodup
  case woken =>
    intro u
    rw [pc]
    have old := h.woken u
    grind [Function.update_apply]
  case out_nodup => exact h.out_nodup
  case fifo =>
    rw [queued, woken, h.fifo]
    simp

/-- A link outside the queue is cleared. -/
theorem Shape.clear (s' : System T) (h : Shape s l [w] out)
    (next : s'.thr.waitNext = Function.update s.thr.waitNext w none)
    (runnable : s'.thr.runnable = s.thr.runnable) (state : s'.thr.state = s.thr.state)
    (head : s'.sema.ends.head = s.sema.ends.head) {p : Pc T} (was : s.pc t ≠ .waiting)
    (now : p ≠ .waiting) (pc : s'.pc = Function.update s.pc t p)
    (queued : s'.queued = s.queued) (woken : s'.woken = s.woken) :
    Shape s' l [w] out := by
  constructor
  case linked =>
    rw [next, head]
    exact h.linked.update (List.nodup_cons.mp h.nodup).1
  case parked =>
    intro u hu
    rw [pc, runnable, state]
    have old := h.parked u hu
    grind [Function.update_apply]
  case nodup => exact h.nodup
  case woken =>
    intro u
    rw [pc]
    have old := h.woken u
    grind [Function.update_apply]
  case out_nodup => exact h.out_nodup
  case fifo => rw [queued, woken]; exact h.fifo

/-- The thread in the hand is made ready. -/
theorem Shape.push (h : Shape s l [w] out) (next : s'.thr.waitNext = s.thr.waitNext)
    (runnable : s'.thr.runnable = Function.update s.thr.runnable w true)
    (state : s'.thr.state = Function.update s.thr.state w .ready)
    (head : s'.sema.ends.head = s.sema.ends.head) {p : Pc T} (was : s.pc t ≠ .waiting)
    (now : p ≠ .waiting) (pc : s'.pc = Function.update s.pc t p)
    (queued : s'.queued = s.queued) (woken : s'.woken = s.woken ++ [w]) :
    Shape s' l [] (w :: out) := by
  have nd := h.nodup
  have mine := h.parked w (by simp)
  constructor
  case linked => rw [next, head]; exact h.linked
  case parked =>
    intro u hu
    rw [pc, runnable, state]
    have old := h.parked u
    grind [Function.update_apply]
  case nodup => exact nd.of_cons
  case woken =>
    intro u
    rw [pc]
    have old := h.woken u
    grind [Function.update_apply]
  case out_nodup =>
    refine List.nodup_cons.mpr ⟨fun hw => ?_, h.out_nodup⟩
    exact ((h.woken w).mp hw).2 (by simp)
  case fifo =>
    rw [queued, woken, h.fifo]
    simp

/-- The waits that succeeded, the threads on their way back and `n` more units are
covered by the initial count and the releases. -/
def Covered (s₀ s : System T) (out : List T) (n : Nat) : Prop :=
  (s.acquired + out.length + n : Int) ≤ s₀.sema.count.toInt + s.released

/-- What holds while the one release under way, if any, is at a statement. From its
first wake-up on nobody else takes or adds units, so the count stays where it
was when threads queued up. -/
def Phase (s₀ s : System T) (l hand out : List T) : Pc T → Prop
  | .idle | .waiting =>
    hand = [] ∧ s.sema.ends.tail = l.getLast? ∧ (0 < s.sema.count.toInt → l = []) ∧
      Covered s₀ s out s.sema.count.toInt.toNat
  | .test rel =>
    hand = [] ∧ s.sema.ends.tail = l.getLast? ∧ s.sema.count.toInt ≤ 0 ∧ rel < 2 ^ 31 ∧
      Covered s₀ s out (s.sema.count.toInt.toNat + rel)
  | .take rel =>
    hand = [] ∧ s.sema.ends.tail = l.getLast? ∧ s.sema.count.toInt ≤ 0 ∧ rel < 2 ^ 31 ∧
      Covered s₀ s out (s.sema.count.toInt.toNat + rel) ∧ 0 < rel
  | .unlink rel w =>
    hand = [] ∧ s.sema.ends.tail = l.getLast? ∧ s.sema.count.toInt ≤ 0 ∧ rel < 2 ^ 31 ∧
      Covered s₀ s out (s.sema.count.toInt.toNat + rel) ∧ 0 < rel ∧ s.sema.ends.head = some w
  | .last rel w =>
    hand = [w] ∧ (l ≠ [] → s.sema.ends.tail = l.getLast?) ∧ s.sema.count.toInt ≤ 0 ∧
      rel < 2 ^ 31 ∧ Covered s₀ s out (s.sema.count.toInt.toNat + rel) ∧ 0 < rel
  | .clear rel w | .check rel w | .push rel w =>
    hand = [w] ∧ s.sema.ends.tail = l.getLast? ∧ s.sema.count.toInt ≤ 0 ∧ rel < 2 ^ 31 ∧
      Covered s₀ s out (s.sema.count.toInt.toNat + rel) ∧ 0 < rel
  | .compare rel | .load rel =>
    hand = [] ∧ s.sema.ends.tail = l.getLast? ∧ s.sema.count.toInt ≤ 0 ∧ rel < 2 ^ 31 ∧
      Covered s₀ s out (s.sema.count.toInt.toNat + rel) ∧ (0 < rel → l = [])
  | .store v =>
    hand = [] ∧ s.sema.ends.tail = l.getLast? ∧ s.sema.count.toInt ≤ 0 ∧
      Covered s₀ s out v.toInt.toNat ∧ (0 < v.toInt → l = [])

/-- At most one release is under way. -/
structure Inv (s₀ s : System T) (opener : Option T) (l hand out : List T) : Prop where
  shape : Shape s l hand out
  max : s.sema.maxCount = s₀.sema.maxCount
  positive : 0 < s₀.sema.maxCount.toInt
  only : ∀ t, (s.pc t).Open → opener = some t
  open_ : ∀ t, opener = some t → (s.pc t).Open
  phase : Phase s₀ s l hand out (opener.elim .idle s.pc)

/-- The thread that was allowed to move is at `p` now. -/
theorem Inv.arrive {p : Pc T} (only : ∀ u, (s.pc u).Open → u = t)
    (pc : s'.pc = Function.update s.pc t p) (shape : Shape s' l hand out)
    (max : s'.sema.maxCount = s₀.sema.maxCount) (positive : 0 < s₀.sema.maxCount.toInt)
    (phase : Phase s₀ s' l hand out p) : ∃ o l hand out, Inv s₀ s' o l hand out := by
  have others : ∀ u, u ≠ t → ¬ (s'.pc u).Open := by
    intro u hu ho
    rw [pc, Function.update_of_ne hu] at ho
    exact hu (only u ho)
  have mine : s'.pc t = p := by rw [pc, Function.update_self]
  by_cases hp : p.Open
  · refine ⟨some t, l, hand, out, shape, max, positive, fun u ho => ?_, fun u hu => ?_, ?_⟩
    · by_contra hne
      exact others u (fun eq => hne (by rw [eq])) ho
    · obtain rfl := Option.some.inj hu
      rwa [mine]
    · show Phase s₀ s' l hand out (s'.pc t)
      rwa [mine]
  · refine ⟨none, l, hand, out, shape, max, positive, fun u ho => ?_, nofun, ?_⟩
    · by_cases hu : u = t
      · subst hu
        rw [mine] at ho
        exact absurd ho hp
      · exact absurd ho (others u hu)
    · show Phase s₀ s' l hand out .idle
      cases p with
      | idle | waiting => exact phase
      | _ => exact absurd trivial hp

theorem Shape.head_none_iff (h : Shape s l hand out) : s.sema.ends.head = none ↔ l = [] := by
  have hl := h.linked
  constructor
  · intro none
    rw [none] at hl
    exact hl.eq_nil
  · rintro rfl
    exact hl

/-- The release that is under way goes on. -/
theorem Inv.proceed (h : Inv s₀ s (some t) l hand out) (hs : Semaphore.proceed s t = some s') :
    ∃ o l' hand' out', Inv s₀ s' o l' hand' out' := by
  have only : ∀ u, (s.pc u).Open → u = t := fun u hu => (Option.some.inj (h.only u hu)).symm
  have busy := h.open_ t rfl
  have phase : Phase s₀ s l hand out (s.pc t) := h.phase
  have shape := h.shape
  have out_of : s.pc t ≠ .waiting := fun eq => by rw [eq] at busy; exact busy
  unfold Semaphore.proceed at hs
  cases at_ : s.pc t with
  | idle | waiting => rw [at_] at busy; exact busy.elim
  | test rel =>
    simp only [at_] at hs phase
    cases hs
    obtain ⟨hhand, htail, hcount, hrel, hcov⟩ := phase
    split
    case isTrue more =>
      exact Inv.arrive only rfl (shape.move out_of (by nofun) rfl rfl rfl rfl rfl) h.max
        h.positive (p := .take rel) ⟨hhand, htail, hcount, hrel, hcov, more.1⟩
    case isFalse more =>
      have none : 0 < rel → l = [] := fun pos =>
        shape.head_none_iff.mp (by_contra fun some => more ⟨pos, some⟩)
      exact Inv.arrive only rfl (shape.move out_of (by nofun) rfl rfl rfl rfl rfl) h.max
        h.positive (p := .compare rel) ⟨hhand, htail, hcount, hrel, hcov, none⟩
  | take rel =>
    simp only [at_] at hs phase
    obtain ⟨w, hw, rfl⟩ := Option.map_eq_some_iff.mp hs
    obtain ⟨hhand, htail, hcount, hrel, hcov, hpos⟩ := phase
    exact Inv.arrive only rfl (shape.move out_of (by nofun) rfl rfl rfl rfl rfl) h.max
      h.positive (p := .unlink rel w) ⟨hhand, htail, hcount, hrel, hcov, hpos, hw⟩
  | unlink rel w =>
    simp only [at_] at hs phase
    cases hs
    obtain ⟨rfl, htail, hcount, hrel, hcov, hpos, hw⟩ := phase
    have hl := shape.linked
    rw [hw] at hl
    obtain ⟨r, rfl, hr⟩ := hl.eq_cons
    have hlast : r ≠ [] → s.sema.ends.tail = r.getLast? := by
      intro hne
      obtain ⟨b, r, rfl⟩ := List.exists_cons_of_ne_nil hne
      rw [htail, List.getLast?_cons_cons]
    exact Inv.arrive only rfl
      (shape.unlink _ rfl rfl rfl rfl out_of (by nofun) rfl rfl rfl) h.max h.positive
      (p := .last rel w) ⟨rfl, hlast, hcount, hrel, hcov, hpos⟩
  | last rel w =>
    simp only [at_] at hs phase
    cases hs
    obtain ⟨rfl, htail, hcount, hrel, hcov, hpos⟩ := phase
    have fixed : (if s.sema.ends.head = none then none else s.sema.ends.tail) = l.getLast? := by
      split
      case isTrue none => rw [shape.head_none_iff.mp none]; rfl
      case isFalse some => exact htail fun nil => some (shape.head_none_iff.mpr nil)
    exact Inv.arrive only rfl (shape.move out_of (by nofun) rfl rfl rfl rfl rfl) h.max
      h.positive (p := .clear rel w) ⟨rfl, fixed, hcount, hrel, hcov, hpos⟩
  | clear rel w =>
    simp only [at_] at hs phase
    cases hs
    obtain ⟨rfl, htail, hcount, hrel, hcov, hpos⟩ := phase
    exact Inv.arrive only rfl
      (shape.clear _ rfl rfl rfl rfl out_of (by nofun) rfl rfl rfl) h.max h.positive
      (p := .check rel w) ⟨rfl, htail, hcount, hrel, hcov, hpos⟩
  | check rel w =>
    simp only [at_] at hs phase
    cases hs
    obtain ⟨rfl, htail, hcount, hrel, hcov, hpos⟩ := phase
    -- a thread in the queue is blocked, so it has not been terminated
    have alive : s.thr.state w ≠ .terminated := by
      rw [(shape.parked w (by simp)).2.2]
      nofun
    rw [if_neg alive]
    exact Inv.arrive only rfl (shape.move out_of (by nofun) rfl rfl rfl rfl rfl) h.max
      h.positive (p := .push rel w) ⟨rfl, htail, hcount, hrel, hcov, hpos⟩
  | push rel w =>
    simp only [at_] at hs phase
    cases hs
    obtain ⟨rfl, htail, hcount, hrel, hcov, hpos⟩ := phase
    have used : Covered s₀ s (w :: out) (s.sema.count.toInt.toNat + (rel - 1)) := by
      unfold Covered at hcov ⊢
      rw [List.length_cons]
      omega
    exact Inv.arrive only rfl
      (shape.push rfl rfl rfl rfl out_of (by nofun) rfl rfl rfl) h.max h.positive
      (p := .test (rel - 1)) ⟨rfl, htail, hcount, by omega, used⟩
  | compare rel =>
    simp only [at_] at hs phase
    cases hs
    obtain ⟨rfl, htail, hcount, hrel, hcov, hnone⟩ := phase
    have sum := add_le s.sema.count hrel
    split
    case isTrue above =>
      have pos := h.positive
      rw [← h.max] at pos
      have left : 0 < rel := by omega
      have capped : Covered s₀ s out s.sema.maxCount.toInt.toNat := by
        unfold Covered at hcov ⊢
        omega
      exact Inv.arrive only rfl (shape.move out_of (by nofun) rfl rfl rfl rfl rfl) h.max
        h.positive (p := .store s.sema.maxCount)
        ⟨rfl, htail, hcount, capped, fun _ => hnone left⟩
    case isFalse =>
      exact Inv.arrive only rfl (shape.move out_of (by nofun) rfl rfl rfl rfl rfl) h.max
        h.positive (p := .load rel) ⟨rfl, htail, hcount, hrel, hcov, hnone⟩
  | load rel =>
    simp only [at_] at hs phase
    cases hs
    obtain ⟨rfl, htail, hcount, hrel, hcov, hnone⟩ := phase
    have sum := add_le s.sema.count hrel
    have added : Covered s₀ s out (s.sema.count + BitVec.ofNat 32 rel).toInt.toNat := by
      unfold Covered at hcov ⊢
      omega
    exact Inv.arrive only rfl (shape.move out_of (by nofun) rfl rfl rfl rfl rfl) h.max
      h.positive (p := .store (s.sema.count + BitVec.ofNat 32 rel))
      ⟨rfl, htail, hcount, added, fun pos => hnone (by omega)⟩
  | store v =>
    simp only [at_] at hs phase
    cases hs
    obtain ⟨rfl, htail, hcount, hcov, hnone⟩ := phase
    exact Inv.arrive only rfl (shape.move out_of (by nofun) rfl rfl rfl rfl rfl) h.max
      h.positive (p := .idle) ⟨rfl, htail, hnone, hcov⟩

/-- Only the bookkeeping of the tokens changes. -/
theorem Phase.recount (s' : System T) (out' : List T) {p : Pc T} (h : Phase s₀ s l hand out p)
    (sema : s'.sema = s.sema) (cov : ∀ n, Covered s₀ s out n → Covered s₀ s' out' n) :
    Phase s₀ s' l hand out' p := by
  cases p <;> simp only [Phase, sema] at h ⊢ <;> grind

/-- A thread that was woken returns with success, during a release or not. -/
theorem Inv.resume {o : Option T} (h : Inv s₀ s o l hand out) (run : s.thr.runnable t = true)
    (at_ : s.pc t = .waiting) (hs : Semaphore.proceed s t = some s') :
    ∃ o l' hand' out', Inv s₀ s' o l' hand' out' := by
  simp only [Semaphore.proceed, at_] at hs
  cases hs
  obtain ⟨back, shape⟩ := h.shape.resume (System.goto
    { s with thr := s.thr.setState t .running, acquired := s.acquired + 1 } t .idle)
    run at_ rfl rfl rfl rfl rfl rfl rfl
  have len := List.length_erase_of_mem back
  have pos := List.length_pos_of_mem back
  have closed : ¬ (s.pc t).Open := by
    rw [at_]
    exact id
  have same : ∀ u, o = some u → Function.update s.pc t .idle u = s.pc u := by
    intro u hu
    have hne : u ≠ t := fun eq => closed (eq ▸ h.open_ u hu)
    exact Function.update_of_ne hne ..
  refine ⟨o, l, hand, out.erase t, shape, h.max, h.positive, fun u hu => ?_, fun u hu => ?_, ?_⟩
  · change (Function.update s.pc t .idle u).Open at hu
    by_cases hut : u = t
    · subst hut
      rw [Function.update_self] at hu
      exact hu.elim
    · rw [Function.update_of_ne hut] at hu
      exact h.only u hu
  · show (Function.update s.pc t .idle u).Open
    rw [same u hu]
    exact h.open_ u hu
  · have phase := h.phase.recount (System.goto
      { s with thr := s.thr.setState t .running, acquired := s.acquired + 1 } t .idle)
      (out.erase t) rfl fun n hn => by
        unfold Covered at hn ⊢
        show ((s.acquired + 1 : Nat) : Int) + _ + _ ≤ s₀.sema.count.toInt + s.released
        rw [len]
        omega
    cases o with
    | none => exact phase
    | some u =>
      show Phase s₀ _ l hand _ (Function.update s.pc t .idle u)
      rw [same u rfl]
      exact phase

/-- A wait while no release is under way. -/
theorem Inv.wait (h : Inv s₀ s none l hand out) (run : s.thr.runnable t = true)
    (idle : s.pc t = .idle) (timeout : u64) :
    ∃ o l' hand' out', Inv s₀ (ntWait s t timeout) o l' hand' out' := by
  have only : ∀ u, (s.pc u).Open → u = t := fun u hu => by
    have none := h.only u hu
    cases none
  have still : s.pc = Function.update s.pc t .idle := by
    rw [← idle, Function.update_eq_self]
  obtain ⟨rfl, htail, hnone, hcov⟩ :
    hand = [] ∧ s.sema.ends.tail = l.getLast? ∧ (0 < s.sema.count.toInt → l = []) ∧
      Covered s₀ s out s.sema.count.toInt.toNat := h.phase
  have out_of : s.pc t ≠ .waiting := by rw [idle]; nofun
  unfold ntWait
  split
  case isTrue pos =>
    have less : (s.sema.count - 1).toInt = s.sema.count.toInt - 1 := by
      have low := @BitVec.two_mul_toInt_lt 32 s.sema.count
      rw [BitVec.toInt_sub, show (1 : i32).toInt = 1 by decide, Int.bmod_def]
      split <;> omega
    refine Inv.arrive (p := .idle) only still (h.shape.move out_of (by nofun) rfl rfl still rfl rfl)
      h.max h.positive ⟨rfl, htail, fun _ => hnone pos, ?_⟩
    show ((s.acquired + 1 : Nat) : Int) + out.length + (s.sema.count - 1).toInt.toNat ≤
      s₀.sema.count.toInt + s.released
    unfold Covered at hcov
    rw [less]
    push_cast
    omega
  case isFalse zero =>
    split
    case isTrue =>
      exact Inv.arrive (p := .idle) only still
        (h.shape.move out_of (by nofun) rfl rfl still rfl rfl) h.max h.positive
        ⟨rfl, htail, hnone, hcov⟩
    case isFalse =>
      obtain ⟨shape, tail⟩ := h.shape.park
        (System.goto
          { s with
            thr := Threads.block
              { s.thr with waitNext := (enqueue s.thr.waitNext s.sema.ends t).1 } t
            sema := { s.sema with ends := (enqueue s.thr.waitNext s.sema.ends t).2 }
            queued := s.queued ++ [t] } t .waiting) run idle htail rfl rfl rfl rfl rfl rfl rfl
      exact Inv.arrive (p := .waiting) only rfl shape h.max h.positive
        ⟨rfl, tail, fun pos => absurd pos zero, hcov⟩

/-- A release up to its first wake-up, or to its end. -/
theorem Inv.release (h : Inv s₀ s none l hand out) (idle : s.pc t = .idle) (a2 : u64) :
    ∃ o l' hand' out', Inv s₀ (ntRelease s t a2) o l' hand' out' := by
  have only : ∀ u, (s.pc u).Open → u = t := fun u hu => by
    have none := h.only u hu
    cases none
  have still : s.pc = Function.update s.pc t .idle := by
    rw [← idle, Function.update_eq_self]
  obtain ⟨rfl, htail, hnone, hcov⟩ :
    hand = [] ∧ s.sema.ends.tail = l.getLast? ∧ (0 < s.sema.count.toInt → l = []) ∧
      Covered s₀ s out s.sema.count.toInt.toNat := h.phase
  have out_of : s.pc t ≠ .waiting := by rw [idle]; nofun
  have lt := units_lt a2
  unfold ntRelease
  obtain ⟨rel, hrel⟩ : ∃ rel, units a2 = rel + 1 := ⟨units a2 - 1, by have := units_pos a2; omega⟩
  rw [hrel] at lt ⊢
  unfold releaseLoop
  split
  case h_1 none =>
    have empty : l = [] := h.shape.head_none_iff.mp none
    have sum := newCount_le s.sema lt
    refine Inv.arrive (p := .idle) only still (h.shape.move out_of (by nofun) rfl rfl still rfl rfl)
      h.max h.positive ⟨rfl, htail, fun _ => empty, ?_⟩
    show (s.acquired : Int) + out.length + (newCount s.sema (rel + 1)).toInt.toNat ≤
      s₀.sema.count.toInt + (s.released + (rel + 1) : Nat)
    unfold Covered at hcov
    push_cast at sum ⊢
    omega
  case h_2 w first =>
    have hl := h.shape.linked
    rw [show s.sema.ends.head = some w from first] at hl
    obtain ⟨r, rfl, hr⟩ := hl.eq_cons
    have alive : s.thr.state w ≠ .terminated := by
      rw [(h.shape.parked w (by simp)).2.2]
      nofun
    have zero : s.sema.count.toInt ≤ 0 := by
      by_contra pos
      have empty := hnone (by omega)
      cases empty
    have queue := Queue.dequeue ⟨h.shape.linked, htail⟩
    rw [if_neg alive]
    -- the thread goes through the hand and is made ready at once
    have shape₁ := h.shape.unlink (System.goto
      { s with sema := { s.sema with ends := { s.sema.ends with head := s.thr.waitNext w } } } t
      (.last rel w)) rfl rfl rfl rfl out_of (by nofun) rfl rfl rfl
    have shape₂ := shape₁.clear (t := t) (p := .check rel w) (System.goto
      { s with
        thr := { s.thr with waitNext := (dequeue s.thr.waitNext s.sema.ends w).1 }
        sema := { s.sema with ends := (dequeue s.thr.waitNext s.sema.ends w).2 } } t
      (.check rel w)) rfl rfl rfl rfl
      (by show Function.update s.pc t _ t ≠ _; rw [Function.update_self]; nofun) (by nofun)
      (by show Function.update s.pc t _ = Function.update (Function.update s.pc t _) t _
          rw [Function.update_idem]) rfl rfl
    refine Inv.arrive (p := .test rel) only rfl
      (shape₂.push (t := t) (p := .test rel) rfl rfl rfl rfl
        (by show Function.update s.pc t _ t ≠ _; rw [Function.update_self]; nofun) (by nofun)
        (by show Function.update s.pc t _ = Function.update (Function.update s.pc t _) t _
            rw [Function.update_idem]) rfl rfl)
      h.max h.positive ⟨rfl, queue.tail, zero, by omega, ?_⟩
    show (s.acquired : Int) + (w :: out).length + (s.sema.count.toInt.toNat + rel : Nat) ≤
      s₀.sema.count.toInt + (s.released + (rel + 1) : Nat)
    unfold Covered at hcov
    rw [List.length_cons]
    omega

/-! ## Runs -/

theorem Start.inv {s : System T} (start : Start s) : Inv s s none [] [] [] := by
  obtain ⟨a1, a2, hc⟩ := start.created
  unfold ntCreateSemaphore at hc
  simp only [Option.ite_none_left_eq_some, Option.some.injEq] at hc
  obtain ⟨hcond, hsema⟩ := hc
  have closed : ∀ t, ¬ (s.pc t).Open := fun t => by
    rw [start.pc t]
    exact id
  constructor
  case shape =>
    refine ⟨by rw [← hsema]; rfl, nofun, List.nodup_nil, fun t => ?_, List.nodup_nil, ?_⟩
    · rw [start.pc t]
      simp
    · rw [start.queued, start.woken]
      rfl
  case max => rfl
  case positive =>
    rw [← hsema]
    simp only
    omega
  case only => exact fun t ho => absurd ho (closed t)
  case open_ => nofun
  case phase =>
    refine ⟨rfl, by rw [← hsema]; rfl, fun _ => rfl, ?_⟩
    unfold Covered
    rw [start.acquired, start.released, ← hsema]
    simp only [List.length_nil]
    omega

theorem step_cases {op : Op} (h : step s (t, op) = some s') :
    s.thr.runnable t = true ∧
      ((s.pc t = .idle ∧ ∃ timeout, op = .wait timeout ∧ s' = ntWait s t timeout) ∨
        (s.pc t = .idle ∧ ∃ a2, op = .release a2 ∧ s' = ntRelease s t a2) ∨
        (op = .proceed ∧ Semaphore.proceed s t = some s')) := by
  unfold step at h
  split at h
  case isFalse => cases h
  case isTrue run =>
    refine ⟨run, ?_⟩
    cases op with
    | wait timeout =>
      cases at_ : s.pc t <;> simp only [at_] at h <;> cases h
      exact Or.inl ⟨rfl, timeout, rfl, rfl⟩
    | release a2 =>
      cases at_ : s.pc t <;> simp only [at_] at h <;> cases h
      exact Or.inr (Or.inl ⟨rfl, a2, rfl, rfl⟩)
    | proceed => exact Or.inr (Or.inr ⟨rfl, h⟩)

theorem Inv.step {o : Option T} (h : Inv s₀ s o l hand out) {op : Op} (alone : Alone s (t, op))
    (hs : Semaphore.step s (t, op) = some s') : ∃ o l hand out, Inv s₀ s' o l hand out := by
  obtain ⟨run, step⟩ := step_cases hs
  by_cases back : s.pc t = .waiting
  case pos =>
    rcases step with ⟨idle, -⟩ | ⟨idle, -⟩ | ⟨-, step⟩
    · rw [back] at idle; cases idle
    · rw [back] at idle; cases idle
    · exact h.resume run back step
  case neg =>
    -- a release under way is this thread's own
    cases o with
    | none =>
      rcases step with ⟨idle, timeout, -, rfl⟩ | ⟨idle, a2, -, rfl⟩ | ⟨-, step⟩
      · exact h.wait run idle timeout
      · exact h.release idle a2
      · cases at_ : s.pc t with
        | waiting => exact absurd at_ back
        | idle => simp [Semaphore.proceed, at_] at step
        | _ => exact absurd (h.only t (by rw [at_]; trivial)) nofun
    | some u =>
      have busy := h.open_ u rfl
      obtain rfl : u = t := (alone u busy).resolve_right back
      rcases step with ⟨idle, -⟩ | ⟨idle, -⟩ | ⟨-, step⟩
      · rw [idle] at busy; exact busy.elim
      · rw [idle] at busy; exact busy.elim
      · exact h.proceed step

theorem Inv.sound {o : Option T} (h : Inv s₀ s o l hand out) : Sound s₀ s := by
  have phase := h.phase
  constructor
  case conserved =>
    have covered : ∃ n, Covered s₀ s out n := by
      cases at_ : o.elim .idle s.pc <;> rw [at_] at phase <;> simp only [Phase] at phase <;> grind
    obtain ⟨n, hn⟩ := covered
    unfold Covered at hn
    omega
  case fifo => exact ⟨hand ++ l, by rw [h.shape.fifo, List.append_assoc]⟩
  case available =>
    intro pos
    rw [h.shape.head_none_iff]
    cases at_ : o.elim .idle s.pc <;> rw [at_] at phase <;> simp only [Phase] at phase <;> grind

/-- **A semaphore whose releases are not interrupted is sound** in every state of
every run: no acquisition without a unit, first come first served, and no thread
waits while a unit is there. -/
theorem semaphore_sound (s : System T) (start : Start s) (es : List (T × Op))
    (alone : Along Semaphore.step Alone s es) : Always Semaphore.step (Sound s) s es := by
  have keep : ∀ u (a : T × Op) v, (∃ o l hand out, Inv s u o l hand out) → Alone u a →
      Semaphore.step u a = some v → ∃ o l hand out, Inv s v o l hand out := by
    rintro u ⟨t, op⟩ v ⟨o, l, hand, out, h⟩ ha hs
    exact h.step ha hs
  refine (always_invariant keep ⟨_, _, _, _, start.inv⟩ alone).mono ?_
  rintro u ⟨o, l, hand, out, h⟩
  exact h.sound

/-- A new semaphore with count 0 and maximum 10, and three threads. -/
def emptySemaphore : System (Fin 3) where
  thr := ⟨fun _ => .running, fun _ => none, fun _ => true⟩
  sema := ⟨0, 10, ⟨none, none⟩⟩
  pc _ := .idle
  acquired := 0
  released := 0
  queued := []
  woken := []

theorem emptySemaphore_start : Start emptySemaphore :=
  ⟨⟨0, 10, rfl⟩, fun _ => rfl, rfl, rfl, rfl, rfl⟩

instance (s : System (Fin 3)) (a : Fin 3 × Op) : Decidable (Alone s a) :=
  have : ∀ u, Decidable (s.pc u).Open := fun u => match s.pc u with
    | .idle | .waiting => isFalse id
    | .test _ | .take _ | .unlink _ _ | .last _ _ | .clear _ _ | .check _ _ | .push _ _
    | .compare _ | .load _ | .store _ => isTrue trivial
  inferInstanceAs (Decidable (∀ u, (s.pc u).Open → u = a.1 ∨ s.pc a.1 = .waiting))

/-- A thread waits, two units are released, and the thread returns. -/
theorem semaphore_sound_two :
    Always Semaphore.step (Sound emptySemaphore) emptySemaphore
      [(0, .wait 1), (2, .release 2), (2, .proceed), (2, .proceed), (2, .proceed), (2, .proceed),
        (0, .proceed)] :=
  semaphore_sound emptySemaphore emptySemaphore_start _ (by decide)

/-- Two units are released to one waiter. A tick after the test for more waiters
lets another thread queue up, and then the count becomes 1 over it. -/
theorem unit_left_over_waiter :
    ∃ s, run Semaphore.step emptySemaphore
        [(0, .wait 1), (2, .release 2), (2, .proceed), (1, .wait 1), (2, .proceed), (2, .proceed),
          (2, .proceed), (0, .proceed)] = some s ∧
      s.pc 2 = .idle ∧ ¬ Sound emptySemaphore s := by
  refine ⟨_, rfl, rfl, fun sound => ?_⟩
  exact absurd (sound.available (by decide)) (by decide)

/-! ## Bounds of the count -/

/-- The count is within its bounds. -/
def Bounded (s : System T) : Prop :=
  0 ≤ s.sema.count.toInt ∧ s.sema.count.toInt ≤ s.sema.maxCount.toInt

/-- A release that finds nobody waiting does not take the sum beyond 32 bits. -/
def NoOverflow (s : System T) (a : T × Op) : Prop :=
  ∀ a2, a.2 = .release a2 → (Semaphore.step s a).isSome → s.sema.ends.head = none →
    s.sema.count.toInt + units a2 < 2 ^ 31

/-- A new count that is on its way to memory fits. -/
def Pc.Fits (v : KSema T) : Pc T → Prop
  | .load rel => 0 ≤ (v.count + BitVec.ofNat 32 rel).toInt ∧
      (v.count + BitVec.ofNat 32 rel).toInt ≤ v.maxCount.toInt
  | .store x => 0 ≤ x.toInt ∧ x.toInt ≤ v.maxCount.toInt
  | _ => True

structure Within (s : System T) : Prop where
  bounded : Bounded s
  fits : ∀ t, (s.pc t).Fits s.sema

/-- Only the program counter of `t` changes, and the count is untouched. -/
theorem Within.move (h : Within s) {p : Pc T} (count : s'.sema.count = s.sema.count)
    (max : s'.sema.maxCount = s.sema.maxCount) (pc : s'.pc = Function.update s.pc t p)
    (fits : p.Fits s.sema) : Within s' := by
  have same : ∀ q : Pc T, q.Fits s.sema → q.Fits s'.sema := by
    intro q hq
    cases q <;> simp only [Pc.Fits, count, max] at hq ⊢ <;> exact hq
  constructor
  case bounded =>
    unfold Bounded
    rw [count, max]
    exact h.bounded
  case fits =>
    intro u
    rw [pc]
    by_cases hu : u = t
    · subst hu
      rw [Function.update_self]
      exact same p fits
    · rw [Function.update_of_ne hu]
      exact same _ (h.fits u)

/-- The count changes while no other thread has one in its hands. -/
theorem Within.write (only : ∀ u, (s.pc u).Open → u = t) (bounded : Bounded s') {p : Pc T}
    (pc : s'.pc = Function.update s.pc t p) (closed : ¬ p.Open) : Within s' := by
  refine ⟨bounded, fun u => ?_⟩
  rw [pc]
  by_cases hu : u = t
  · subst hu
    rw [Function.update_self]
    cases p <;> first | trivial | exact absurd trivial closed
  · rw [Function.update_of_ne hu]
    have shut : ¬ (s.pc u).Open := fun ho => hu (only u ho)
    cases at_ : s.pc u <;> rw [at_] at shut <;> first | trivial | exact absurd trivial shut

theorem newCount_bounded {v : KSema T} {rel : Nat} (h : 0 ≤ v.count.toInt)
    (pos : 0 < v.maxCount.toInt) (lt : rel < 2 ^ 31) (fits : v.count.toInt + rel < 2 ^ 31) :
    0 ≤ (newCount v rel).toInt ∧ (newCount v rel).toInt ≤ v.maxCount.toInt := by
  have sum := add_cases v.count lt
  rcases newCount_cases v rel with ⟨-, e⟩ | ⟨below, e⟩ <;> rw [e] <;> omega

theorem Inv.positive_here {o : Option T} (h : Inv s₀ s o l hand out) :
    0 < s.sema.maxCount.toInt := by
  rw [h.max]
  exact h.positive

theorem Inv.wait_within (h : Inv s₀ s none l hand out) (hw : Within s) (idle : s.pc t = .idle)
    (timeout : u64) : Within (ntWait s t timeout) := by
  have only : ∀ u, (s.pc u).Open → u = t := fun u hu => by
    have none := h.only u hu
    cases none
  have still : s.pc = Function.update s.pc t .idle := by
    rw [← idle, Function.update_eq_self]
  obtain ⟨low, high⟩ := hw.bounded
  unfold ntWait
  split
  case isTrue pos =>
    have less : (s.sema.count - 1).toInt = s.sema.count.toInt - 1 := by
      have top := @BitVec.two_mul_toInt_lt 32 s.sema.count
      rw [BitVec.toInt_sub, show (1 : i32).toInt = 1 by decide, Int.bmod_def]
      split <;> omega
    refine Within.write (p := .idle) only ?_ still id
    show 0 ≤ (s.sema.count - 1).toInt ∧ (s.sema.count - 1).toInt ≤ s.sema.maxCount.toInt
    omega
  case isFalse =>
    split
    case isTrue => exact hw
    case isFalse => exact hw.move (p := .waiting) rfl rfl rfl trivial

theorem Inv.release_within (h : Inv s₀ s none l hand out) (hw : Within s)
    (idle : s.pc t = .idle) {a2 : u64}
    (fits : s.sema.ends.head = none → s.sema.count.toInt + units a2 < 2 ^ 31) :
    Within (ntRelease s t a2) := by
  have only : ∀ u, (s.pc u).Open → u = t := fun u hu => by
    have none := h.only u hu
    cases none
  have still : s.pc = Function.update s.pc t .idle := by
    rw [← idle, Function.update_eq_self]
  have lt := units_lt a2
  unfold ntRelease
  obtain ⟨rel, hrel⟩ : ∃ rel, units a2 = rel + 1 := ⟨units a2 - 1, by have := units_pos a2; omega⟩
  rw [hrel] at lt fits ⊢
  unfold releaseLoop
  split
  case h_1 none =>
    exact Within.write (p := .idle) only
      (newCount_bounded hw.bounded.1 h.positive_here lt (fits none)) still id
  case h_2 w first =>
    have hl := h.shape.linked
    rw [show s.sema.ends.head = some w from first] at hl
    obtain ⟨r, rfl, hr⟩ := hl.eq_cons
    have alive : s.thr.state w ≠ .terminated := by
      rw [(h.shape.parked w (by simp)).2.2]
      nofun
    rw [if_neg alive]
    exact hw.move (p := .test rel) rfl rfl rfl trivial

theorem Inv.proceed_within (h : Inv s₀ s (some t) l hand out) (hw : Within s)
    (hs : Semaphore.proceed s t = some s') : Within s' := by
  have only : ∀ u, (s.pc u).Open → u = t := fun u hu => (Option.some.inj (h.only u hu)).symm
  have phase : Phase s₀ s l hand out (s.pc t) := h.phase
  have mine := hw.fits t
  have low := hw.bounded.1
  unfold Semaphore.proceed at hs
  cases at_ : s.pc t with
  | idle => simp only [at_] at hs; cases hs
  | waiting | unlink | last | clear | push =>
    simp only [at_] at hs
    cases hs
    exact hw.move rfl rfl rfl trivial
  | test | check =>
    simp only [at_] at hs
    cases hs
    refine hw.move rfl rfl rfl ?_
    split <;> trivial
  | take rel =>
    simp only [at_] at hs
    obtain ⟨w, -, rfl⟩ := Option.map_eq_some_iff.mp hs
    exact hw.move (p := .unlink rel w) rfl rfl rfl trivial
  | compare rel =>
    simp only [at_] at hs phase
    cases hs
    obtain ⟨-, -, hcount, hrel, -, -⟩ := phase
    -- the count is 0 here, so the sum is exact
    have sum := add_cases s.sema.count hrel
    have pos := h.positive_here
    refine hw.move rfl rfl rfl ?_
    split
    case isTrue above => exact ⟨Int.le_of_lt pos, Int.le_refl _⟩
    case isFalse below =>
      show 0 ≤ (s.sema.count + BitVec.ofNat 32 rel).toInt ∧ _ ≤ s.sema.maxCount.toInt
      omega
  | load rel =>
    simp only [at_] at hs mine
    cases hs
    exact hw.move rfl rfl rfl mine
  | store v =>
    simp only [at_] at hs mine
    cases hs
    exact Within.write (p := .idle) only mine rfl id

theorem Inv.within {o : Option T} (h : Inv s₀ s o l hand out) (hw : Within s) {op : Op}
    (alone : Alone s (t, op)) (fits : NoOverflow s (t, op))
    (hs : Semaphore.step s (t, op) = some s') : Within s' := by
  have possible : (Semaphore.step s (t, op)).isSome := Option.isSome_of_eq_some hs
  obtain ⟨run, step⟩ := step_cases hs
  by_cases back : s.pc t = .waiting
  case pos =>
    rcases step with ⟨idle, -⟩ | ⟨idle, -⟩ | ⟨-, step⟩
    · rw [back] at idle; cases idle
    · rw [back] at idle; cases idle
    · simp only [Semaphore.proceed, back] at step
      cases step
      exact hw.move (p := .idle) rfl rfl rfl trivial
  case neg =>
    cases o with
    | none =>
      rcases step with ⟨idle, timeout, -, rfl⟩ | ⟨idle, a2, rfl, rfl⟩ | ⟨-, step⟩
      · exact h.wait_within hw idle timeout
      · exact h.release_within hw idle (fits a2 rfl possible)
      · cases at_ : s.pc t with
        | waiting => exact absurd at_ back
        | idle => simp [Semaphore.proceed, at_] at step
        | _ => exact absurd (h.only t (by rw [at_]; trivial)) nofun
    | some u =>
      have busy := h.open_ u rfl
      obtain rfl : u = t := (alone u busy).resolve_right back
      rcases step with ⟨idle, -⟩ | ⟨idle, -⟩ | ⟨-, step⟩
      · rw [idle] at busy; exact busy.elim
      · rw [idle] at busy; exact busy.elim
      · exact h.proceed_within hw step

/-- A sum beyond 32 bits makes the count negative. -/
theorem noOverflow_of_bounded {s : System T} {a : T × Op}
    (h : ∀ s', Semaphore.step s a = some s' → Bounded s') : NoOverflow s a := by
  obtain ⟨t, op⟩ := a
  rintro a2 ⟨⟩ possible none
  obtain ⟨s', hs⟩ := Option.isSome_iff_exists.mp possible
  obtain ⟨low, high⟩ := h s' hs
  obtain ⟨-, step⟩ := step_cases hs
  rcases step with ⟨-, timeout, hop, -⟩ | ⟨-, a2', hop, rfl⟩ | ⟨hop, -⟩
  · cases hop
  · cases hop
    have lt := units_lt a2
    obtain ⟨rel, hrel⟩ : ∃ rel, units a2 = rel + 1 :=
      ⟨units a2 - 1, by have := units_pos a2; omega⟩
    unfold ntRelease at low high
    rw [hrel] at lt low high ⊢
    simp only [releaseLoop, none] at low high
    have sum := add_cases s.sema.count lt
    have largest := s.sema.count.toInt_lt
    rcases newCount_cases s.sema (rel + 1) with ⟨above, e⟩ | ⟨below, e⟩ <;> rw [e] at low high <;>
      omega
  · cases hop

/-- **The count stays within its bounds as long as no sum of it and a release
exceeds 32 bits**, and only then. The releases are not interrupted. -/
theorem count_bounded_iff (s : System T) (start : Start s) (es : List (T × Op))
    (alone : Along Semaphore.step Alone s es) :
    Always Semaphore.step Bounded s es ↔ Along Semaphore.step NoOverflow s es := by
  constructor
  · intro bounded
    exact bounded.along_next fun u a => noOverflow_of_bounded
  · intro fits
    have keep : ∀ u (a : T × Op) v, ((∃ o l hand out, Inv s u o l hand out) ∧ Within u) →
        Alone u a ∧ NoOverflow u a → Semaphore.step u a = some v →
        (∃ o l hand out, Inv s v o l hand out) ∧ Within v := by
      rintro u ⟨t, op⟩ v ⟨⟨o, l, hand, out, h⟩, hw⟩ ⟨ha, hf⟩ hs
      exact ⟨h.step ha hs, h.within hw ha hf hs⟩
    have within : Within s := by
      refine ⟨?_, fun t => by rw [start.pc t]; trivial⟩
      obtain ⟨a1, a2, hc⟩ := start.created
      unfold ntCreateSemaphore at hc
      simp only [Option.ite_none_left_eq_some, Option.some.injEq] at hc
      unfold Bounded
      rw [← hc.2]
      have cond := hc.1
      simp only
      omega
    exact (always_invariant keep ⟨⟨_, _, _, _, start.inv⟩, within⟩ (alone.and fits)).mono
      fun u hu => hu.2.bounded

/-- A semaphore with count 1 and the largest maximum. -/
def fullRange : System (Fin 3) :=
  { emptySemaphore with sema := ⟨1, 0x7FFFFFFF, ⟨none, none⟩⟩ }

theorem fullRange_start : Start fullRange :=
  ⟨⟨1, 0x7FFFFFFF, rfl⟩, fun _ => rfl, rfl, rfl, rfl, rfl⟩

theorem count_bounded_iff_one :
    Always Semaphore.step Bounded fullRange [(0, .wait 1), (1, .release 1)] ↔
      Along Semaphore.step NoOverflow fullRange [(0, .wait 1), (1, .release 1)] :=
  count_bounded_iff fullRange fullRange_start _ (by decide)

/-- One release of the largest argument makes the count the smallest integer. -/
theorem count_wraps :
    ¬ Always Semaphore.step Bounded fullRange [(0, .release 0x7FFFFFFF)] := by
  intro bounded
  have after := bounded.2 _ rfl
  exact absurd after.1 (by decide)

end MicroNT.Sync.Semaphore
