import MicroNT.ReadyQueues

/-! # The sleep list (`Sleep`, `WakeSleepers`)

The sleep list is linked through `SleepNext`. A tick takes off every thread whose time has
come and puts it in its ready queue, in the order of the list. The runs in which only a
thread that is in neither list is put in one keep the lists apart. -/

set_option linter.unusedSectionVars false

namespace MicroNT.Sched

open Base.Machine
open Base.Chain (Linked)
open MicroNT.Sync (ThreadState)

variable {T P : Type} [DecidableEq T] {s t u : State T P} {ready : Queues T} {a b : T}
  {l r : List T}

def State.sleepNexts (s : State T P) : Ptr T → Option (Ptr T) := fun p => (s.mem p).sleepNext

/-- The sleep list spells out these threads. -/
def Asleep (s : State T P) (l : List T) : Prop := Linked s.sleepNexts s.sleepHead (l.map .thread)

theorem Asleep.nodup (h : Asleep s l) : l.Nodup := (Linked.nodup h).of_map _

theorem SameSleep.asleep (same : SameSleep s t) (h : Asleep s l) : Asleep t l := by
  unfold Asleep
  rw [same.head, show t.sleepNexts = s.sleepNexts from funext same.next]
  exact h

/-- Its time has come. -/
def State.due (s : State T P) (t : T) : Bool :=
  decide ((s.mem (.thread t)).sleepUntil ≤ s.pitTicks)

/-- The slot behind these threads: the head, or the link of the last one. -/
def slotAfter (l : List T) : Option (Ptr T) := l.getLast?.map .thread

theorem Asleep.slot (h : Asleep s (l ++ r)) : s.slot (slotAfter l) = r.head?.map .thread := by
  have head : ∀ {p : Option (Ptr T)} {r : List T}, Linked s.sleepNexts p (r.map .thread) →
      p = r.head?.map .thread := by
    intro p r h
    cases r with
    | nil => exact h
    | cons b r => exact h.1
  obtain rfl | ⟨m, z, rfl⟩ := List.eq_nil_or_concat' l
  · exact head h
  · unfold slotAfter
    rw [List.getLast?_concat]
    refine head (Linked.rest (p := s.sleepHead) (l := m.map .thread) ?_)
    have h' : Linked s.sleepNexts s.sleepHead ((m ++ [z] ++ r).map Ptr.thread) := h
    rwa [List.append_assoc, List.map_append] at h'

/-- These threads were taken off the sleep list and put in their queues. -/
structure Woke (s u : State T P) (ready : Queues T) (l : List T) : Prop where
  lined : Lined u (l.foldl (Queues.push s.level) ready)
  level : u.level = s.level
  state : ∀ a, (u.mem (.thread a)).state = if a ∈ l then .ready else (s.mem (.thread a)).state
  deadline : ∀ a ∉ l, (u.mem (.thread a)).sleepUntil = (s.mem (.thread a)).sleepUntil
  current : u.current = s.current
  active : u.active = s.active
  ticks : u.pitTicks = s.pitTicks
  quantum : u.quantum = s.quantum

/-- The same where the queues may hold threads of any level. -/
structure Woken (s u : State T P) (ready : Queues T) (l : List T) : Prop where
  rings : Rings u (l.foldl (Queues.push s.level) ready)
  level : u.level = s.level
  state : ∀ a, (u.mem (.thread a)).state = if a ∈ l then .ready else (s.mem (.thread a)).state
  deadline : ∀ a ∉ l, (u.mem (.thread a)).sleepUntil = (s.mem (.thread a)).sleepUntil
  current : u.current = s.current
  active : u.active = s.active
  ticks : u.pitTicks = s.pitTicks
  quantum : u.quantum = s.quantum

theorem Woken.nil (h : Rings s ready) : Woken s s ready [] :=
  ⟨h, rfl, fun _ => rfl, fun _ _ => rfl, rfl, rfl, rfl, rfl⟩

theorem Woken.append (h : Woken s t ready l)
    (h' : Woken t u (l.foldl (Queues.push s.level) ready) r) : Woken s u ready (l ++ r) where
  rings := by
    rw [List.foldl_append, ← h.level]
    have rings := h'.rings
    rw [h.level] at rings ⊢
    exact rings
  level := h'.level.trans h.level
  state a := by
    rw [h'.state, h.state]
    by_cases hr : a ∈ r <;> by_cases hl : a ∈ l <;> simp [hr, hl]
  deadline a off := by
    rw [List.mem_append, not_or] at off
    exact (h'.deadline a off.2).trans (h.deadline a off.1)
  current := h'.current.trans h.current
  active := h'.active.trans h.active
  ticks := h'.ticks.trans h.ticks
  quantum := h'.quantum.trans h.quantum

theorem mem_pushAll {level : T → Fin 3} {pri : Fin 3} :
    b ∈ l.foldl (Queues.push level) ready pri ↔ b ∈ ready pri ∨ b ∈ l ∧ pri = level b := by
  induction l generalizing ready with
  | nil => simp
  | cons a l ih =>
    rw [List.foldl_cons, ih, Queues.mem_push, List.mem_cons, or_and_right, or_assoc]
    refine or_congr_right (or_congr_left ⟨fun h => ⟨h.1, h.1 ▸ h.2⟩, fun h => ⟨h.1, h.1 ▸ h.2⟩⟩)

/-- A thread that waits already stays in front. -/
theorem pushAll_head {level : T → Fin 3} {pri : Fin 3} (first : ready pri = a :: r) :
    (l.foldl (Queues.push level) ready pri).head? = some a := by
  induction l generalizing ready r with
  | nil => exact congrArg List.head? first
  | cons b l ih =>
    rw [List.foldl_cons]
    by_cases e : pri = level b
    · refine ih (r := r ++ [b]) ?_
      unfold Queues.push
      rw [e, Function.update_self, ← e, first, List.cons_append]
    · refine ih (r := r) ?_
      unfold Queues.push
      rw [Function.update_of_ne e, first]

theorem Woken.woke (h : Woken s u ready l) (lined : Lined s ready) : Woke s u ready l where
  lined := h.rings.lined fun pri a m => by
    rw [h.level]
    obtain m | ⟨-, e⟩ := mem_pushAll.mp m
    · exact lined.level pri a m
    · exact e.symm
  level := h.level
  state := h.state
  deadline := h.deadline
  current := h.current
  active := h.active
  ticks := h.ticks
  quantum := h.quantum

theorem sleepNexts_write (s : State T P) (p : Ptr T) (k : KThread T P) :
    (s.write p k).sleepNexts = Function.update s.sleepNexts p k.sleepNext := by
  funext q
  by_cases e : q = p
  · rw [e, Function.update_self, State.sleepNexts, State.write_self]
  · rw [Function.update_of_ne e, State.sleepNexts, State.write_of_ne e]
    rfl

/-- Nothing but `SleepNext` fields and the head of the list differs. -/
structure Skips (s t : State T P) : Prop where
  fields : ∀ p, t.mem p = { s.mem p with sleepNext := (t.mem p).sleepNext }
  rest : t = { s with mem := t.mem, sleepHead := t.sleepHead }

theorem skips_setSlot (s : State T P) (pp v : Option (Ptr T)) : Skips s (s.setSlot pp v) := by
  cases pp with
  | none => exact ⟨fun _ => rfl, rfl⟩
  | some p =>
    refine ⟨fun q => ?_, rfl⟩
    unfold State.setSlot
    dsimp only
    by_cases e : q = p
    · rw [e, State.write_self]
    · rw [State.write_of_ne e]

/-- The slot skips a thread. -/
theorem Asleep.setSlot (h : Asleep s (l ++ a :: r)) :
    Asleep (s.setSlot (slotAfter l) (s.mem (.thread a)).sleepNext) (l ++ r) := by
  obtain rfl | ⟨m, z, rfl⟩ := List.eq_nil_or_concat' l
  · exact h.2
  · unfold Asleep slotAfter
    rw [List.getLast?_concat]
    show Linked (s.write (Ptr.thread z) _).sleepNexts s.sleepHead _
    rw [sleepNexts_write, List.append_assoc, List.map_append]
    refine Linked.bypass (a := Ptr.thread a) ?_
    have h' : Linked s.sleepNexts s.sleepHead ((m ++ [z] ++ a :: r).map Ptr.thread) := h
    rwa [List.append_assoc, List.map_append] at h'

/-- **One thread is woken.** -/
theorem wake_spec (h : Rings s ready) (asleep : Asleep s (l ++ a :: r))
    (off : ∀ pri, a ∉ ready pri) :
    Woken s (wake s (slotAfter l) (.thread a)) ready [a] ∧
      Asleep (wake s (slotAfter l) (.thread a)) (l ++ r) := by
  have fresh : a ∉ l ++ r := (List.nodup_cons.mp (List.perm_middle.nodup_iff.mp asleep.nodup)).1
  unfold wake
  extract_lets s1 old s2
  let k : KThread T P := { old with sleepNext := none, sleepUntil := 0, state := .ready }
  have skips : Skips s s1 := skips_setSlot s _ _
  have skipped : Asleep s1 (l ++ r) := asleep.setSlot
  have same : ∀ {β : Type} (f : KThread T P → β), (∀ k n, f { k with sleepNext := n } = f k) →
      ∀ p, f (s1.mem p) = f (s.mem p) := fun f hf p => by rw [skips.fields, hf]
  have level : s2.level = s.level := funext fun b =>
    congrArg clampPri ((s1.write_field KThread.priority (p := .thread a) (k := k) rfl _).trans
      (same KThread.priority (fun _ _ => rfl) (.thread b)))
  have rings : Rings s2 ready := by
    refine h.congr ?_
    obtain ⟨nexts, prevs⟩ := links_write (s := s1) (p := .thread a) (k := k) rfl rfl
    exact ⟨nexts.trans (funext (same KThread.next fun _ _ => rfl)),
      prevs.trans (funext (same KThread.prev fun _ _ => rfl))⟩
  have pushed := requeued_queuePushBack s2 (.thread a)
  have asleep2 : Asleep s2 (l ++ r) := by
    unfold Asleep
    rw [sleepNexts_write]
    refine Linked.update skipped fun m => ?_
    obtain ⟨b, hb, e⟩ := List.mem_map.mp m
    cases e
    exact fresh hb
  have rings' := rings.pushBack off
  rw [level] at rings'
  refine ⟨⟨rings', (funext pushed.level).trans level, fun b => ?_, fun b other => ?_, ?_, ?_, ?_, ?_⟩,
    pushed.sameSleep.asleep asleep2⟩
  · rw [pushed.state]
    by_cases e : b = a
    · rw [if_pos (List.mem_singleton.mpr e), e, State.write_self]
    · rw [if_neg fun m => e (List.mem_singleton.mp m), State.write_of_ne fun e' =>
        e (Ptr.thread.inj e')]
      exact same KThread.state (fun _ _ => rfl) _
  · rw [pushed.sameSleep.deadline, State.write_of_ne fun e =>
      other (List.mem_singleton.mpr (Ptr.thread.inj e))]
    exact same KThread.sleepUntil (fun _ _ => rfl) _
  · rw [pushed.rest]
    show s1.current = s.current
    rw [skips.rest]
  · rw [pushed.rest]
    show s1.active = s.active
    rw [skips.rest]
  · rw [pushed.rest]
    show s1.pitTicks = s.pitTicks
    rw [skips.rest]
  · rw [pushed.rest]
    show s1.quantum = s.quantum
    rw [skips.rest]

/-- The loop from the slot behind `l` on. -/
theorem wakeFrom_spec {n : Nat} (h : Rings s ready) (asleep : Asleep s (l ++ r))
    (off : ∀ t ∈ r, ∀ pri, t ∉ ready pri) (woke : wakeFrom n s (slotAfter l) = some u) :
    Woken s u ready (r.filter s.due) ∧ Asleep u (l ++ r.filter fun t => !s.due t) := by
  induction n generalizing s ready l r with
  | zero => cases woke
  | succ n ih =>
    unfold wakeFrom at woke
    have slot := asleep.slot
    cases r with
    | nil =>
      rw [slot] at woke
      cases woke
      exact ⟨.nil h, asleep⟩
    | cons a r =>
      rw [slot] at woke
      dsimp only [List.head?_cons, Option.map_some] at woke
      have nodup := asleep.nodup
      split at woke
      case isTrue due =>
        have due' : s.due a = true := decide_eq_true due
        obtain ⟨one, left⟩ := wake_spec h asleep (off a List.mem_cons_self)
        have other : ∀ t ∈ r, t ≠ a := fun t m e =>
          (List.nodup_cons.mp (List.nodup_append.mp nodup).2.1).1 (e ▸ m)
        have same : ∀ t ∈ r, (wake s (slotAfter l) (.thread a)).due t = s.due t := by
          intro t m
          unfold State.due
          rw [one.deadline t fun m' => other t m (List.mem_singleton.mp m'), one.ticks]
        obtain ⟨more, rest⟩ := ih one.rings left (fun t m pri m' => by
          obtain m' | ⟨e, -⟩ := Queues.mem_push.mp m'
          · exact off t (List.mem_cons_of_mem a m) pri m'
          · exact other t m e) woke
        rw [List.filter_congr same] at more
        rw [List.filter_congr fun t m => congrArg not (same t m)] at rest
        rw [List.filter_cons_of_pos due', List.filter_cons_of_neg (by rw [due']; decide)]
        exact ⟨one.append more, rest⟩
      case isFalse early =>
        have early' : s.due a = false := decide_eq_false early
        have last : slotAfter (l ++ [a]) = some (.thread a) := by
          unfold slotAfter
          rw [List.getLast?_concat]
          rfl
        rw [← last] at woke
        obtain ⟨more, rest⟩ := ih (l := l ++ [a]) (r := r) h (by rwa [List.append_assoc])
          (fun t m => off t (List.mem_cons_of_mem a m)) woke
        rw [List.filter_cons_of_neg (by rw [early']; decide),
          List.filter_cons_of_pos (by rw [early']; decide)]
        rw [List.append_assoc] at rest
        exact ⟨more, rest⟩

/-- The loop ends when every thread of the list has had its round. -/
theorem wakeFrom_ends {n : Nat} (h : Rings s ready) (asleep : Asleep s (l ++ r))
    (off : ∀ t ∈ r, ∀ pri, t ∉ ready pri) (enough : r.length < n) :
    ∃ u, wakeFrom n s (slotAfter l) = some u := by
  induction n generalizing s ready l r with
  | zero => cases enough
  | succ n ih =>
    unfold wakeFrom
    rw [asleep.slot]
    cases r with
    | nil => exact ⟨s, rfl⟩
    | cons a r =>
      dsimp only [List.head?_cons, Option.map_some]
      have fewer : r.length < n := Nat.lt_of_succ_lt_succ enough
      split
      case isTrue due =>
        obtain ⟨one, left⟩ := wake_spec h asleep (off a List.mem_cons_self)
        refine ih one.rings left (fun t m pri m' => ?_) fewer
        obtain m' | ⟨e, -⟩ := Queues.mem_push.mp m'
        · exact off t (List.mem_cons_of_mem a m) pri m'
        · exact (List.nodup_cons.mp (List.nodup_append.mp asleep.nodup).2.1).1 (e ▸ m)
      case isFalse early =>
        have last : slotAfter (l ++ [a]) = some (.thread a) := by
          unfold slotAfter
          rw [List.getLast?_concat]
          rfl
        rw [← last]
        exact ih (l := l ++ [a]) h (by rwa [List.append_assoc])
          (fun t m => off t (List.mem_cons_of_mem a m)) fewer

/-- **`WakeSleepers`**, if no sleeping thread is in a ready queue. -/
theorem Rings.wakeSleepers {n : Nat} (h : Rings s ready) (asleep : Asleep s l)
    (off : ∀ t ∈ l, ∀ pri, t ∉ ready pri) (woke : wakeSleepers n s = some u) :
    Woken s u ready (l.filter s.due) ∧ Asleep u (l.filter fun t => !s.due t) :=
  wakeFrom_spec (l := []) h asleep off woke

theorem wakeSleepers_spec {n : Nat} (h : Lined s ready) (asleep : Asleep s l)
    (off : ∀ t ∈ l, ∀ pri, t ∉ ready pri) (woke : wakeSleepers n s = some u) :
    Woke s u ready (l.filter s.due) ∧ Asleep u (l.filter fun t => !s.due t) := by
  obtain ⟨woken, left⟩ := h.rings.wakeSleepers asleep off woke
  exact ⟨woken.woke h, left⟩

end MicroNT.Sched
