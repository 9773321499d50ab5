import MicroNT.Base.Chain
import MicroNT.Base.Deque
import MicroNT.MachineContext

/-! # The ready queues (`QueuePushBack`, `QueueRemove`, `QueuePop`)

The three sentinels and the links of the threads spell out three lists, as long as no thread
is put in a queue that is in one already. On these lists the code appends, erases and takes
the first thread of the highest list that has one. -/

set_option linter.unusedSectionVars false

namespace MicroNT.Sched

open Base.Deque
open MicroNT.Sync (ThreadState)

variable {T P : Type} [DecidableEq T] {s t u : State T P}

/-! ## Links -/

def State.nexts (s : State T P) : Ptr T → Option (Ptr T) := fun p => (s.mem p).next

def State.prevs (s : State T P) : Ptr T → Option (Ptr T) := fun p => (s.mem p).prev

/-- Nothing but links of the ready queues differs. -/
structure Requeued (s t : State T P) : Prop where
  fields : ∀ p, t.mem p = { s.mem p with next := (t.mem p).next, prev := (t.mem p).prev }
  rest : t = { s with mem := t.mem }

theorem Requeued.refl (s : State T P) : Requeued s s := ⟨fun _ => rfl, rfl⟩

theorem Requeued.trans (h : Requeued s t) (h' : Requeued t u) : Requeued s u := by
  refine ⟨fun p => ?_, ?_⟩
  · rw [h'.fields p, h.fields p]
  · rw [h'.rest, h.rest]

theorem Requeued.write {p : Ptr T} {k : KThread T P}
    (same : k = { s.mem p with next := k.next, prev := k.prev }) : Requeued s (s.write p k) := by
  refine ⟨fun q => ?_, rfl⟩
  by_cases e : q = p
  · rw [e, State.write_self]
    exact same
  · rw [State.write_of_ne e]

theorem Requeued.setNext (s : State T P) (a n : Option (Ptr T)) : Requeued s (s.setNext a n) := by
  cases a with
  | none => exact .refl s
  | some a => exact .write rfl

theorem Requeued.setPrev (s : State T P) (a n : Option (Ptr T)) : Requeued s (s.setPrev a n) := by
  cases a with
  | none => exact .refl s
  | some a => exact .write rfl

theorem nexts_write (s : State T P) (p : Ptr T) (k : KThread T P) :
    (s.write p k).nexts = Function.update s.nexts p k.next := by
  funext q
  by_cases e : q = p
  · rw [e, Function.update_self, State.nexts, State.write_self]
  · rw [Function.update_of_ne e, State.nexts, State.write_of_ne e]
    rfl

theorem prevs_write (s : State T P) (p : Ptr T) (k : KThread T P) :
    (s.write p k).prevs = Function.update s.prevs p k.prev := by
  funext q
  by_cases e : q = p
  · rw [e, Function.update_self, State.prevs, State.write_self]
  · rw [Function.update_of_ne e, State.prevs, State.write_of_ne e]
    rfl

/-- A write that leaves the links of the record alone. -/
theorem links_write {p : Ptr T} {k : KThread T P} (next : k.next = (s.mem p).next)
    (prev : k.prev = (s.mem p).prev) :
    (s.write p k).nexts = s.nexts ∧ (s.write p k).prevs = s.prevs := by
  rw [nexts_write, prevs_write, next, prev]
  exact ⟨Function.update_eq_self p s.nexts, Function.update_eq_self p s.prevs⟩

theorem links_setNext (s : State T P) (p : Ptr T) (n : Option (Ptr T)) :
    (s.setNext (some p) n).nexts = Function.update s.nexts p n ∧
      (s.setNext (some p) n).prevs = s.prevs := by
  unfold State.setNext
  rw [nexts_write, prevs_write]
  exact ⟨rfl, Function.update_eq_self p s.prevs⟩

theorem links_setPrev (s : State T P) (p : Ptr T) (n : Option (Ptr T)) :
    (s.setPrev (some p) n).nexts = s.nexts ∧
      (s.setPrev (some p) n).prevs = Function.update s.prevs p n := by
  unfold State.setPrev
  rw [nexts_write, prevs_write]
  exact ⟨Function.update_eq_self p s.nexts, rfl⟩

theorem requeued_queuePushBack (s : State T P) (a : Ptr T) : Requeued s (queuePushBack s a) := by
  unfold queuePushBack
  extract_lets sen s1 s2 s3
  have h1 : Requeued s s1 := .setNext s _ _
  have h2 : Requeued s1 s2 := .setPrev s1 _ _
  have h3 : Requeued s2 s3 := .setNext s2 _ _
  exact ((h1.trans h2).trans h3).trans (.setPrev s3 _ _)

theorem requeued_queueRemove (s : State T P) (a : Ptr T) : Requeued s (queueRemove s a) := by
  unfold queueRemove
  split
  · exact .refl s
  · extract_lets s1 s2 s3
    have h1 : Requeued s s1 := .setNext s _ _
    have h2 : Requeued s1 s2 := .setPrev s1 _ _
    have h3 : Requeued s2 s3 := .setNext s2 _ _
    exact ((h1.trans h2).trans h3).trans (.setPrev s3 _ _)

/-- What `QueuePushBack` writes, if the sentinel has a last node `z`. -/
theorem links_queuePushBack {a z : Ptr T}
    (other : a ≠ .sentinel (clampPri (s.mem a).priority))
    (last : s.prevs (.sentinel (clampPri (s.mem a).priority)) = some z) :
    (queuePushBack s a).nexts =
        Function.update (Function.update s.nexts a (some (.sentinel (clampPri (s.mem a).priority)))) z
          (some a) ∧
      (queuePushBack s a).prevs =
        Function.update (Function.update s.prevs a (some z))
          (.sentinel (clampPri (s.mem a).priority)) (some a) := by
  unfold queuePushBack
  extract_lets sen s1 s2 s3
  obtain ⟨n1, p1⟩ := links_setNext s a (some sen)
  have last1 : (s1.mem sen).prev = some z := (congrFun p1 sen).trans last
  have h2 : s2 = s1.setPrev (some a) (some z) := by rw [← last1]
  obtain ⟨n2, p2⟩ := links_setPrev s1 a (some z)
  rw [← h2] at n2 p2
  have last2 : (s2.mem sen).prev = some z := by
    show s2.prevs sen = some z
    rw [p2, Function.update_of_ne other.symm]
    exact last1
  have h3 : s3 = s2.setNext (some z) (some a) := by rw [← last2]
  obtain ⟨n3, p3⟩ := links_setNext s2 z (some a)
  rw [← h3] at n3 p3
  obtain ⟨n4, p4⟩ := links_setPrev s3 sen (some a)
  refine ⟨?_, ?_⟩
  · rw [n4, n3, n2]
    exact congrArg (fun f => Function.update f z (some a)) n1
  · rw [p4, p3, p2]
    exact congrArg (fun f => Function.update (Function.update f a (some z)) sen (some a)) p1

/-- What `QueueRemove` writes, between a predecessor and a successor. -/
theorem links_queueRemove {a p n : Ptr T} (hp : s.prevs a = some p) (hn : s.nexts a = some n)
    (pa : p ≠ a) :
    (queueRemove s a).nexts = Function.update (Function.update s.nexts p (some n)) a none ∧
      (queueRemove s a).prevs = Function.update (Function.update s.prevs n (some p)) a none := by
  have hp' : (s.mem a).prev = some p := hp
  have hn' : (s.mem a).next = some n := hn
  unfold queueRemove
  rw [if_neg (by rw [hp', hn']; simp)]
  extract_lets s1 s2 s3
  have h1 : s1 = s.setNext (some p) (some n) := by rw [← hp', ← hn']
  obtain ⟨n1, p1⟩ := links_setNext s p (some n)
  rw [← h1] at n1 p1
  have hp1 : (s1.mem a).prev = some p := (congrFun p1 a).trans hp
  have hn1 : (s1.mem a).next = some n := by
    show s1.nexts a = some n
    rw [n1, Function.update_of_ne pa.symm]
    exact hn
  have h2 : s2 = s1.setPrev (some n) (some p) := by rw [← hp1, ← hn1]
  obtain ⟨n2, p2⟩ := links_setPrev s1 n (some p)
  rw [← h2] at n2 p2
  obtain ⟨n3, p3⟩ := links_setNext s2 a none
  obtain ⟨n4, p4⟩ := links_setPrev s3 a none
  refine ⟨?_, ?_⟩
  · rw [n4]
    exact n3.trans (by rw [n2, n1])
  · rw [p4]
    exact congrArg (fun f => Function.update f a none) (p3.trans (by rw [p2, p1]))

/-! ## Three lists -/

/-- The threads of each queue, the first one first. -/
abbrev Queues (T : Type) := Fin 3 → List T

/-- A thread goes to the end of the queue of its level. -/
def Queues.push (level : T → Fin 3) (ready : Queues T) (t : T) : Queues T :=
  Function.update ready (level t) (ready (level t) ++ [t])

def Queues.drop (ready : Queues T) (t : T) : Queues T := fun pri => (ready pri).erase t

/-- The queue that a thread goes to. -/
def State.level (s : State T P) (t : T) : Fin 3 := clampPri (s.mem (.thread t)).priority

/-- The queues spell out these lists. -/
structure Lined (s : State T P) (ready : Queues T) : Prop where
  ring : ∀ pri, Ring s.nexts s.prevs (.sentinel pri) ((ready pri).map .thread)
  level : ∀ pri, ∀ t ∈ ready pri, s.level t = pri
  free : ∀ t, (∀ pri, t ∉ ready pri) → s.nexts (.thread t) = none ∧ s.prevs (.thread t) = none

/-- The queues are rings of these threads, and no thread is in two of them. -/
structure Rings (s : State T P) (ready : Queues T) : Prop where
  ring : ∀ pri, Ring s.nexts s.prevs (.sentinel pri) ((ready pri).map .thread)
  once : ∀ t pri pri', t ∈ ready pri → t ∈ ready pri' → pri = pri'
  free : ∀ t, (∀ pri, t ∉ ready pri) → s.nexts (.thread t) = none ∧ s.prevs (.thread t) = none

variable {ready : Queues T} {a b : T}

theorem Lined.rings (h : Lined s ready) : Rings s ready :=
  ⟨h.ring, fun t pri pri' m m' => (h.level pri t m).symm.trans (h.level pri' t m'), h.free⟩

theorem Rings.lined (h : Rings s ready) (level : ∀ pri, ∀ t ∈ ready pri, s.level t = pri) :
    Lined s ready := ⟨h.ring, level, h.free⟩

theorem Rings.queued_iff (h : Rings s ready) :
    (s.mem (.thread a)).next ≠ none ↔ ∃ pri, a ∈ ready pri := by
  constructor
  · intro linked
    refine Classical.byContradiction fun none => linked ?_
    exact (h.free a fun pri m => none ⟨pri, m⟩).1
  · rintro ⟨pri, m⟩
    exact ((h.ring pri).linked (List.mem_map_of_mem m)).1

theorem Lined.unqueued (h : Lined s ready) (off : (s.mem (.thread a)).next = none) (pri : Fin 3) :
    a ∉ ready pri := fun m => h.rings.queued_iff.mpr ⟨pri, m⟩ off

theorem Rings.nodup (h : Rings s ready) (pri : Fin 3) : (ready pri).Nodup :=
  (List.nodup_cons.mp (h.ring pri).nodup).2.of_map _

omit [DecidableEq T] in
theorem thread_mem_nodes {pri : Fin 3} {l : List T} :
    Ptr.thread a ∈ Ptr.sentinel pri :: l.map .thread ↔ a ∈ l := by
  simp

omit [DecidableEq T] in
theorem sentinel_mem_nodes {pri pri' : Fin 3} {l : List T} :
    Ptr.sentinel pri' ∈ Ptr.sentinel pri :: l.map .thread ↔ pri' = pri := by
  simp

/-- A node of one ring is in no other. -/
theorem Rings.apart (h : Rings s ready) {pri pri' : Fin 3} (other : pri' ≠ pri) {p : Ptr T}
    (hp : p ∈ (Ptr.sentinel pri :: (ready pri).map .thread)) :
    p ∉ (Ptr.sentinel pri' :: (ready pri').map .thread) := by
  intro hp'
  cases p with
  | sentinel pri'' =>
    exact other ((sentinel_mem_nodes.mp hp').symm.trans (sentinel_mem_nodes.mp hp))
  | thread t => exact other (h.once t pri' pri (thread_mem_nodes.mp hp') (thread_mem_nodes.mp hp))

/-- The ready queue of this level has a thread. -/
def State.Waiting (s : State T P) (pri : Fin 3) : Prop :=
  (s.mem (.sentinel pri)).next ≠ some (.sentinel pri)

theorem Rings.waiting_iff (h : Rings s ready) {pri : Fin 3} : s.Waiting pri ↔ ready pri ≠ [] := by
  unfold State.Waiting
  rw [show (s.mem (.sentinel pri)).next = _ from (h.ring pri).first]
  cases ready pri <;> simp

/-- A change of other fields. -/
theorem Rings.congr (h : Rings s ready) (links : t.nexts = s.nexts ∧ t.prevs = s.prevs) :
    Rings t ready := by
  obtain ⟨nexts, prevs⟩ := links
  refine ⟨?_, h.once, ?_⟩
  · rw [nexts, prevs]
    exact h.ring
  · rw [nexts, prevs]
    exact h.free

theorem Lined.congr (h : Lined s ready) (links : t.nexts = s.nexts ∧ t.prevs = s.prevs)
    (levels : ∀ pri, ∀ a ∈ ready pri, t.level a = s.level a) : Lined t ready :=
  (h.rings.congr links).lined fun pri a m => (levels pri a m).trans (h.level pri a m)

theorem Requeued.level (h : Requeued s t) (a : T) : t.level a = s.level a := by
  unfold State.level
  rw [h.fields]

/-! ## Membership -/

theorem Queues.mem_push {level : T → Fin 3} {pri : Fin 3} :
    b ∈ ready.push level a pri ↔ b ∈ ready pri ∨ b = a ∧ pri = level a := by
  unfold Queues.push
  by_cases e : pri = level a
  · subst e
    rw [Function.update_self, List.mem_append, List.mem_singleton]
    exact or_congr_right (and_iff_left rfl).symm
  · rw [Function.update_of_ne e]
    exact (or_iff_left fun h => e h.2).symm

theorem Rings.mem_drop (h : Rings s ready) {pri : Fin 3} :
    b ∈ ready.drop a pri ↔ b ∈ ready pri ∧ b ≠ a := by
  unfold Queues.drop
  rw [(h.nodup pri).mem_erase_iff, and_comm]

theorem Lined.mem_drop (h : Lined s ready) {pri : Fin 3} :
    b ∈ ready.drop a pri ↔ b ∈ ready pri ∧ b ≠ a := h.rings.mem_drop

/-! ## The three functions -/

/-- **`QueuePushBack`** appends a thread that is in no queue. -/
theorem Rings.pushBack (h : Rings s ready) (new : ∀ pri, a ∉ ready pri) :
    Rings (queuePushBack s (.thread a)) (ready.push s.level a) := by
  obtain ⟨z, hz, last, pushed⟩ :=
    (h.ring (s.level a)).pushBack fun m => new _ (thread_mem_nodes.mp m)
  obtain ⟨nexts, prevs⟩ := links_queuePushBack (s := s) (a := .thread a) (fun e => by cases e) last
  refine ⟨fun pri => ?_, fun b pri pri' m m' => ?_, fun b off => ?_⟩
  · unfold Queues.push
    rw [nexts, prevs]
    by_cases e : pri = s.level a
    · rw [e, Function.update_self, List.map_append]
      exact pushed
    · rw [Function.update_of_ne e]
      have ya : ∀ y ∈ Ptr.sentinel pri :: (ready pri).map Ptr.thread, y ≠ .thread a :=
        fun y hy same => new pri (thread_mem_nodes.mp (same ▸ hy))
      refine (h.ring pri).congr (fun y hy => ?_) fun y hy => ?_
      · have yz : y ≠ z := fun same => h.apart e hz (same ▸ hy)
        rw [Function.update_of_ne yz, Function.update_of_ne (ya y hy)]
      · have ys : y ≠ .sentinel (s.level a) := fun same =>
          h.apart e List.mem_cons_self (same ▸ hy)
        exact (Function.update_of_ne ys _ _).trans (Function.update_of_ne (ya y hy) _ _)
  · obtain old | ⟨rfl, e⟩ := Queues.mem_push.mp m
    · obtain old' | ⟨rfl, -⟩ := Queues.mem_push.mp m'
      · exact h.once b pri pri' old old'
      · exact absurd old (new pri)
    · obtain old | ⟨-, e'⟩ := Queues.mem_push.mp m'
      · exact absurd old (new pri')
      · exact e.trans e'.symm
  · have other : b ≠ a := by
      rintro rfl
      exact off (s.level b) (Queues.mem_push.mpr (.inr ⟨rfl, rfl⟩))
    have off' : ∀ pri, b ∉ ready pri := fun pri m => off pri (Queues.mem_push.mpr (.inl m))
    have ba : Ptr.thread b ≠ .thread a := fun e => other (Ptr.thread.inj e)
    have bz : Ptr.thread b ≠ z := fun e => off' _ (thread_mem_nodes.mp (e ▸ hz))
    rw [nexts, prevs, Function.update_of_ne bz, Function.update_of_ne ba]
    exact ⟨(h.free b off').1, (Function.update_of_ne ba _ _).trans (h.free b off').2⟩

theorem Lined.pushBack (h : Lined s ready) (new : ∀ pri, a ∉ ready pri) :
    Lined (queuePushBack s (.thread a)) (ready.push s.level a) := by
  refine (h.rings.pushBack new).lined fun pri b m => ?_
  rw [(requeued_queuePushBack s (.thread a)).level]
  obtain m | ⟨rfl, e⟩ := Queues.mem_push.mp m
  · exact h.level pri b m
  · exact e.symm

/-- **`QueueRemove`** erases a thread, if it is in a queue. -/
theorem Rings.remove (h : Rings s ready) (a : T) :
    Rings (queueRemove s (.thread a)) (ready.drop a) := by
  by_cases queued : ∃ pri, a ∈ ready pri
  case neg =>
    have off : ∀ pri, a ∉ ready pri := fun pri m => queued ⟨pri, m⟩
    have same : queueRemove s (.thread a) = s := by
      unfold queueRemove
      rw [if_pos (.inl (h.free a off).1)]
    rw [same, show ready.drop a = ready from funext fun pri => List.erase_of_not_mem (off pri)]
    exact h
  case pos =>
    obtain ⟨lev, m⟩ := queued
    obtain ⟨l, r, split⟩ := List.append_of_mem m
    have nodup := h.nodup lev
    rw [split] at nodup
    have al : a ∉ l := fun ml =>
      (List.nodup_append.mp nodup).2.2 a ml a List.mem_cons_self rfl
    have ring := h.ring lev
    rw [split, List.map_append, List.map_cons] at ring
    obtain ⟨p, hp, n, hn, prev, next, removed⟩ := ring.remove
    have hp' : p ∈ Ptr.sentinel lev :: (ready lev).map Ptr.thread := by
      rw [split, List.map_append]
      exact List.mem_append_left _ hp
    have hn' : n ∈ Ptr.sentinel lev :: (ready lev).map Ptr.thread := by
      rw [split, List.map_append, List.map_cons]
      obtain m | m := List.mem_append.mp hn
      · exact List.mem_cons_of_mem _ (List.mem_append_right _ (List.mem_cons_of_mem _ m))
      · exact (List.mem_singleton.mp m) ▸ List.mem_cons_self
    have pa : p ≠ .thread a := by
      rintro rfl
      exact al (thread_mem_nodes.mp hp)
    obtain ⟨nexts, prevs⟩ := links_queueRemove prev next pa
    have erased : (ready lev).erase a = l ++ r := by
      rw [split, List.erase_append_right _ al, List.erase_cons_head]
    have others : ∀ pri, pri ≠ lev → (ready pri).erase a = ready pri := fun pri e =>
      List.erase_of_not_mem fun ma => e (h.once a pri lev ma m)
    refine ⟨fun pri => ?_, fun b pri pri' mb mb' => ?_, fun b off => ?_⟩
    · unfold Queues.drop
      rw [nexts, prevs]
      by_cases e : pri = lev
      · rw [e, erased, List.map_append]
        exact removed
      · rw [others pri e]
        have nodes : ∀ y ∈ Ptr.sentinel pri :: (ready pri).map Ptr.thread,
            y ≠ .thread a ∧ y ≠ p ∧ y ≠ n := fun y hy =>
          ⟨fun same => h.apart e (thread_mem_nodes.mpr m) (same ▸ hy),
            fun same => h.apart e hp' (same ▸ hy), fun same => h.apart e hn' (same ▸ hy)⟩
        refine (h.ring pri).congr (fun y hy => ?_) fun y hy => ?_
        · rw [Function.update_of_ne (nodes y hy).1, Function.update_of_ne (nodes y hy).2.1]
        · rw [Function.update_of_ne (nodes y hy).1, Function.update_of_ne (nodes y hy).2.2]
    · exact h.once b pri pri' (List.mem_of_mem_erase mb) (List.mem_of_mem_erase mb')
    · by_cases e : b = a
      · rw [nexts, prevs, e, Function.update_self, Function.update_self]
        exact ⟨rfl, rfl⟩
      · have off' : ∀ pri, b ∉ ready pri := fun pri mb =>
          off pri ((List.mem_erase_of_ne e).mpr mb)
        have ba : Ptr.thread b ≠ .thread a := fun e' => e (Ptr.thread.inj e')
        have bp : Ptr.thread b ≠ p := fun e' => off' _ (thread_mem_nodes.mp (e' ▸ hp'))
        have bn : Ptr.thread b ≠ n := fun e' => off' _ (thread_mem_nodes.mp (e' ▸ hn'))
        rw [nexts, prevs, Function.update_of_ne ba, Function.update_of_ne bp,
          Function.update_of_ne ba, Function.update_of_ne bn]
        exact h.free b off'

theorem Lined.remove (h : Lined s ready) (a : T) :
    Lined (queueRemove s (.thread a)) (ready.drop a) := by
  refine (h.rings.remove a).lined fun pri b m => ?_
  rw [(requeued_queueRemove s (.thread a)).level]
  exact h.level pri b (List.mem_of_mem_erase m)

/-- **`QueuePop`** takes the first thread of the highest queue that has one. -/
theorem Rings.pop (h : Rings s ready) :
    ((∀ pri, ready pri = []) ∧ queuePop s = (s, none)) ∨
      ∃ pri a, (∃ rest, ready pri = a :: rest) ∧ (∀ q, pri < q → ready q = []) ∧
        queuePop s = (queueRemove s (.thread a), some (.thread a)) := by
  have first : ∀ pri, (s.mem (.sentinel pri)).next =
      some (((ready pri).map Ptr.thread).headD (.sentinel pri)) := fun pri => (h.ring pri).first
  have test : ∀ pri, decide ((s.mem (.sentinel pri)).next ≠ some (.sentinel pri)) =
      !(ready pri).isEmpty := by
    intro pri
    rw [first]
    cases ready pri <;> simp
  have found : ∀ pri, ready pri ≠ [] → (∀ q, pri < q → ready q = []) →
      ([2, 1, 0] : List (Fin 3)).find? (fun pri => !(ready pri).isEmpty) = some pri := by
    intro pri some above
    refine List.find?_eq_some_iff_append.mpr ⟨by simpa using some, ?_⟩
    match pri, above with
    | 2, _ => exact ⟨[], [1, 0], rfl, fun q hq => by cases hq⟩
    | 1, above =>
      refine ⟨[2], [0], rfl, fun q hq => ?_⟩
      rw [List.mem_singleton.mp hq, above 2 (by decide)]
      rfl
    | 0, above =>
      refine ⟨[2, 1], [], rfl, fun q hq => ?_⟩
      have high : (0 : Fin 3) < q := by
        obtain rfl | rfl : q = 2 ∨ q = 1 := by simpa using hq
        all_goals decide
      rw [above q high]
      rfl
  have tests : (fun pri : Fin 3 =>
      decide ((s.mem (.sentinel pri)).next ≠ some (.sentinel pri))) =
        fun pri => !(ready pri).isEmpty := funext test
  unfold queuePop
  rw [tests]
  by_cases none : ∀ pri, ready pri = []
  · refine .inl ⟨none, ?_⟩
    rw [List.find?_eq_none.mpr fun pri _ => by simp [none pri]]
  · obtain ⟨pri, some, above⟩ : ∃ pri, ready pri ≠ [] ∧ ∀ q, pri < q → ready q = [] := by
      refine Classical.byContradiction fun lacks => none ?_
      -- from the highest queue down
      have high : ready 2 = [] := Classical.byContradiction fun some =>
        lacks ⟨2, some, fun q hq => absurd hq (Fin.not_lt.mpr (Fin.le_last q))⟩
      have normal : ready 1 = [] := Classical.byContradiction fun some =>
        lacks ⟨1, some, fun | 2, _ => high⟩
      have low : ready 0 = [] := Classical.byContradiction fun some =>
        lacks ⟨0, some, fun | 1, _ => normal | 2, _ => high⟩
      exact fun | 0 => low | 1 => normal | 2 => high
    obtain ⟨a, rest, cons⟩ := List.exists_cons_of_ne_nil some
    refine .inr ⟨pri, a, ⟨rest, cons⟩, above, ?_⟩
    have next : (s.mem (.sentinel pri)).next = Option.some (.thread a) := by
      rw [first, cons]
      rfl
    rw [found pri some above]
    dsimp only
    rw [next]

/-! ## `ScheduleInternal` -/

/-- Nothing of the sleep list, the clock or the levels differs. -/
structure SameSleep (s t : State T P) : Prop where
  next : ∀ p, (t.mem p).sleepNext = (s.mem p).sleepNext
  deadline : ∀ p, (t.mem p).sleepUntil = (s.mem p).sleepUntil
  level : ∀ a, t.level a = s.level a
  head : t.sleepHead = s.sleepHead
  ticks : t.pitTicks = s.pitTicks
  active : t.active = s.active

theorem SameSleep.refl (s : State T P) : SameSleep s s :=
  ⟨fun _ => rfl, fun _ => rfl, fun _ => rfl, rfl, rfl, rfl⟩

theorem SameSleep.trans (h : SameSleep s t) (h' : SameSleep t u) : SameSleep s u :=
  ⟨fun p => (h'.next p).trans (h.next p), fun p => (h'.deadline p).trans (h.deadline p),
    fun a => (h'.level a).trans (h.level a), h'.head.trans h.head, h'.ticks.trans h.ticks,
    h'.active.trans h.active⟩

theorem Requeued.sameSleep (h : Requeued s t) : SameSleep s t := by
  refine ⟨fun p => ?_, fun p => ?_, h.level, ?_, ?_, ?_⟩
  · rw [h.fields]
  · rw [h.fields]
  all_goals rw [h.rest]

theorem Requeued.state (h : Requeued s t) (p : Ptr T) : (t.mem p).state = (s.mem p).state := by
  rw [h.fields]

theorem Requeued.current (h : Requeued s t) : t.current = s.current := by
  rw [h.rest]

theorem sameSleep_setState (s : State T P) (p : Ptr T) (x : ThreadState) :
    SameSleep s (s.setState p x) := by
  have same : ∀ {β : Type} (f : KThread T P → β), (∀ k, f { k with state := x } = f k) →
      ∀ q, f ((s.setState p x).mem q) = f (s.mem q) := fun f hf q =>
    s.write_field f (hf (s.mem p)) q
  refine ⟨same KThread.sleepNext fun _ => rfl, same KThread.sleepUntil fun _ => rfl, fun a => ?_,
    rfl, rfl, rfl⟩
  exact congrArg clampPri (same KThread.priority (fun _ => rfl) (.thread a))

theorem Lined.setState (h : Lined s ready) (p : Ptr T) (x : ThreadState) :
    Lined (s.setState p x) ready :=
  h.congr (links_write rfl rfl) fun _ _ _ => (sameSleep_setState s p x).level _

/-- What `ScheduleInternal` does while thread `c` runs. -/
inductive Outcome (s t : State T P) (ready : Queues T) (c : T) : Prop
  /-- No thread is queued. -/
  | idle (empty : ∀ pri, ready pri = []) (same : t = s)
  /-- The current thread is the first one. -/
  | rotated (pri : Fin 3) (rest : List T) (first : ready pri = c :: rest)
    (above : ∀ q, pri < q → ready q = []) (lined : Lined t ((ready.drop c).push s.level c))
    (current : t.current = some (.thread c)) (state : ∀ p, (t.mem p).state = (s.mem p).state)
    (sleep : SameSleep s t)
  | switched (pri : Fin 3) (n : T) (rest : List T) (other : n ≠ c) (first : ready pri = n :: rest)
    (above : ∀ q, pri < q → ready q = [])
    (lined : Lined t
      (if (s.mem (.thread c)).state = .running then (ready.drop n).push s.level c
      else ready.drop n))
    (current : t.current = some (.thread n))
    (state : ∀ a, (t.mem (.thread a)).state =
      if a = n then .running
      else if a = c ∧ (s.mem (.thread c)).state = .running then .ready
      else (s.mem (.thread a)).state)
    (sleep : SameSleep s t)

/-- The same for queues that hold threads of any level. -/
inductive Scheduled (s t : State T P) (ready : Queues T) (c : T) : Prop
  | idle (empty : ∀ pri, ready pri = []) (same : t = s)
  | rotated (pri : Fin 3) (rest : List T) (first : ready pri = c :: rest)
    (above : ∀ q, pri < q → ready q = []) (rings : Rings t ((ready.drop c).push s.level c))
    (current : t.current = some (.thread c)) (state : ∀ p, (t.mem p).state = (s.mem p).state)
    (sleep : SameSleep s t)
  | switched (pri : Fin 3) (n : T) (rest : List T) (other : n ≠ c) (first : ready pri = n :: rest)
    (above : ∀ q, pri < q → ready q = [])
    (rings : Rings t
      (if (s.mem (.thread c)).state = .running then (ready.drop n).push s.level c
      else ready.drop n))
    (current : t.current = some (.thread n))
    (state : ∀ a, (t.mem (.thread a)).state =
      if a = n then .running
      else if a = c ∧ (s.mem (.thread c)).state = .running then .ready
      else (s.mem (.thread a)).state)
    (sleep : SameSleep s t)

theorem Rings.setState (h : Rings s ready) (p : Ptr T) (x : ThreadState) :
    Rings (s.setState p x) ready := h.congr (links_write rfl rfl)

/-- **`ScheduleInternal`**, while the current thread is in a queue only if it is not
RUNNING. -/
theorem Rings.scheduleInternal (h : Rings s ready) {c : T} (active : s.active = true)
    (current : s.current = some (.thread c))
    (running : (s.mem (.thread c)).state = .running → ∀ pri, c ∉ ready pri) :
    Scheduled s (scheduleInternal s) ready c := by
  unfold Sched.scheduleInternal
  rw [if_neg (by rw [active]; exact Bool.noConfusion), current]
  obtain ⟨empty, popped⟩ | ⟨pri, n, ⟨rest, first⟩, above, popped⟩ := h.pop
  · rw [popped]
    exact .idle empty rfl
  · rw [popped]
    dsimp only
    have removed := h.remove n
    have requeued := requeued_queueRemove s (.thread n)
    split
    case isTrue e =>
      obtain rfl : n = c := Ptr.thread.inj e
      have off : ∀ q, n ∉ ready.drop n q := fun q m => (h.mem_drop.mp m).2 rfl
      have all := requeued.trans (requeued_queuePushBack (queueRemove s (.thread n)) (.thread n))
      have pushed := removed.pushBack off
      rw [show (queueRemove s (.thread n)).level = s.level from funext requeued.level] at pushed
      exact .rotated pri rest first above (pushed.congr ⟨rfl, rfl⟩)
        (all.current.trans current) all.state ⟨all.sameSleep.next, all.sameSleep.deadline,
          all.sameSleep.level, all.sameSleep.head, all.sameSleep.ticks, all.sameSleep.active⟩
    case isFalse e =>
      have other : n ≠ c := fun same => e (congrArg Ptr.thread same)
      have otherPtr : Ptr.thread c ≠ Ptr.thread n := fun same => e same.symm
      unfold switchTo
      extract_lets t1 t2 ran t3
      have before : (queueRemove s (.thread n)).level = s.level := funext requeued.level
      -- behind the part that puts the previous thread back
      have back : Rings t1 (if (s.mem (.thread c)).state = .running then
            (ready.drop n).push s.level c else ready.drop n) ∧
          SameSleep s t1 ∧ ∀ a, (t1.mem (.thread a)).state =
            if a = c ∧ (s.mem (.thread c)).state = .running then .ready
            else (s.mem (.thread a)).state := by
        have eq : t1 = if ((queueRemove s (.thread n)).mem (.thread c)).state = .running then
            queuePushBack ((queueRemove s (.thread n)).setState (.thread c) .ready) (.thread c)
          else queueRemove s (.thread n) := rfl
        rw [eq, requeued.state]
        by_cases ran : (s.mem (.thread c)).state = .running
        · rw [if_pos ran, if_pos ran]
          have off : ∀ q, c ∉ ready.drop n q := fun q m => running ran q (h.mem_drop.mp m).1
          have set := sameSleep_setState (queueRemove s (.thread n)) (.thread c) .ready
          have pushed := requeued_queuePushBack
            ((queueRemove s (.thread n)).setState (.thread c) .ready) (.thread c)
          have rings := (removed.setState (.thread c) .ready).pushBack off
          rw [show ((queueRemove s (.thread n)).setState (.thread c) .ready).level = s.level from
            (funext set.level).trans before] at rings
          refine ⟨rings, (requeued.sameSleep.trans set).trans pushed.sameSleep, fun a => ?_⟩
          rw [pushed.state]
          by_cases ac : a = c
          · rw [if_pos ⟨ac, ran⟩, ac, State.setState_state]
          · rw [if_neg fun both => ac both.1, State.setState_state_of_ne fun same =>
              ac (Ptr.thread.inj same), requeued.state]
        · rw [if_neg ran, if_neg ran]
          refine ⟨removed, requeued.sameSleep, fun a => ?_⟩
          rw [if_neg fun both => ran both.2, requeued.state]
      obtain ⟨rings, sleep, state⟩ := back
      have set := sameSleep_setState t2 (.thread n) .running
      have rings2 : Rings t2 _ := rings.congr ⟨rfl, rfl⟩
      refine .switched pri n rest other first above
        ((rings2.setState (.thread n) .running).congr ⟨rfl, rfl⟩) rfl (fun a => ?_)
        ⟨fun p => (set.next p).trans (sleep.next p), fun p => (set.deadline p).trans (sleep.deadline p),
          fun a => (set.level a).trans (sleep.level a), sleep.head, sleep.ticks, sleep.active⟩
      show ((t2.setState (.thread n) .running).mem (.thread a)).state = _
      by_cases an : a = n
      · rw [if_pos an, an, State.setState_state]
      · rw [if_neg an, State.setState_state_of_ne fun same => an (Ptr.thread.inj same)]
        exact state a

/-- The levels of the queued threads stay, and the one that is put back goes to its own. -/
theorem Lined.scheduleInternal (h : Lined s ready) {c : T} (active : s.active = true)
    (current : s.current = some (.thread c))
    (running : (s.mem (.thread c)).state = .running → ∀ pri, c ∉ ready pri) :
    Outcome s (scheduleInternal s) ready c := by
  have dropped : ∀ {n t : T} {pri : Fin 3}, t ∈ ready.drop n pri → s.level t = pri := fun m =>
    h.level _ _ (h.mem_drop.mp m).1
  have pushed : ∀ {n t : T} {pri : Fin 3}, t ∈ (ready.drop n).push s.level c pri →
      s.level t = pri := fun m => by
    obtain m | ⟨rfl, e⟩ := Queues.mem_push.mp m
    · exact dropped m
    · exact e.symm
  cases h.rings.scheduleInternal active current running with
  | idle empty same => exact .idle empty same
  | rotated pri rest first above rings current state sleep =>
    exact .rotated pri rest first above
      (rings.lined fun _ t m => (sleep.level t).trans (pushed m)) current state sleep
  | switched pri n rest other first above rings current state sleep =>
    refine .switched pri n rest other first above (rings.lined fun q t m => ?_) current state sleep
    refine (sleep.level t).trans ?_
    split at m
    · exact pushed m
    · exact dropped m

end MicroNT.Sched
