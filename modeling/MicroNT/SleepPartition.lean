import MicroNT.ReadyLists
import MicroNT.SleepList

/-! # The sleep list after a tick (`WakeSleepers`)

`WakeSleepers` splits the sleep list: the threads whose time has come go to the ends of their
ready queues in the order of the list, and the others stay in theirs. Of the threads that
were not asleep nothing changes but the links of those at the end of a ready queue. -/

set_option linter.unusedSectionVars false

namespace MicroNT.Sched

open MicroNT.Sync (ThreadState)

variable {T P : Type} [DecidableEq T] {s t u : State T P} {ready : Queues T} {a b : T}
  {l l' r d d' : List T}

/-- The threads are appended to the queues of their levels in the order of the list. -/
theorem pushAll_eq (level : T → Fin 3) (l : List T) (ready : Queues T) :
    l.foldl (Queues.push level) ready =
      fun pri => ready pri ++ l.filter fun t => decide (level t = pri) := by
  induction l generalizing ready with
  | nil => exact funext fun pri => (List.append_nil _).symm
  | cons a l ih =>
    rw [List.foldl_cons, ih]
    funext pri
    unfold Queues.push
    by_cases own : level a = pri
    case pos =>
      rw [List.filter_cons_of_pos (p := fun t => decide (level t = pri)) (decide_eq_true own),
        ← own, Function.update_self, List.append_assoc, List.singleton_append]
    case neg =>
      rw [List.filter_cons_of_neg (p := fun t => decide (level t = pri))
        fun yes => own (of_decide_eq_true yes), Function.update_of_ne (Ne.symm own)]

/-! ## What is written -/

/-- Of the threads `l` of the sleep list the threads `d` were woken. -/
structure Wakes (s u : State T P) (l d : List T) : Prop where
  woken : ∀ a ∈ d, u.mem (.thread a) =
    { s.mem (.thread a) with
      state := .ready
      sleepUntil := 0
      sleepNext := none
      next := (u.mem (.thread a)).next
      prev := (u.mem (.thread a)).prev }
  asleep : ∀ b ∉ d, u.mem (.thread b) =
    { s.mem (.thread b) with
      sleepNext := (u.mem (.thread b)).sleepNext
      next := (u.mem (.thread b)).next
      prev := (u.mem (.thread b)).prev }
  others : ∀ b ∉ l, u.mem (.thread b) =
    { s.mem (.thread b) with next := (u.mem (.thread b)).next, prev := (u.mem (.thread b)).prev }
  sentinels : ∀ pri, u.mem (.sentinel pri) =
    { s.mem (.sentinel pri) with
      next := (u.mem (.sentinel pri)).next
      prev := (u.mem (.sentinel pri)).prev }
  rest : u = { s with mem := u.mem, sleepHead := u.sleepHead }

theorem Wakes.nil (s : State T P) (l : List T) : Wakes s s l [] :=
  ⟨fun _ m => absurd m List.not_mem_nil, fun _ _ => rfl, fun _ _ => rfl, fun _ => rfl, rfl⟩

/-- A longer sleep list has fewer other threads. -/
theorem Wakes.mono (h : Wakes s u l d) (sub : ∀ a ∈ l, a ∈ l') : Wakes s u l' d :=
  ⟨h.woken, h.asleep, fun b off => h.others b fun m => off (sub b m), h.sentinels, h.rest⟩

/-- A thread that was woken is not on the list any more. -/
theorem Wakes.append (h : Wakes s t l d) (h' : Wakes t u l' d') (sub : ∀ a ∈ l', a ∈ l)
    (gone : ∀ a ∈ d, a ∉ l') (inside : ∀ a ∈ d', a ∈ l') : Wakes s u l (d ++ d') where
  woken a m := by
    obtain m | m := List.mem_append.mp m
    · rw [h'.others a (gone a m), h.woken a m]
    · have off : a ∉ d := fun m' => gone a m' (inside a m)
      rw [h'.woken a m, h.asleep a off]
  asleep b off := by
    rw [List.mem_append, not_or] at off
    rw [h'.asleep b off.2, h.asleep b off.1]
  others b off := by
    rw [h'.others b fun m => off (sub b m), h.others b off]
  sentinels pri := by
    rw [h'.sentinels pri, h.sentinels pri]
  rest := by
    rw [h'.rest, h.rest]

/-- The slot belongs to the last of these threads, or to none. -/
theorem setSlot_mem (s : State T P) (v : Option (Ptr T)) {p : Ptr T}
    (other : ∀ z ∈ l, p ≠ .thread z) : (s.setSlot (slotAfter l) v).mem p = s.mem p := by
  obtain rfl | ⟨m, z, rfl⟩ := List.eq_nil_or_concat' l
  · rfl
  · unfold slotAfter
    rw [List.getLast?_concat]
    exact State.write_of_ne (other z (by simp)) s _

/-- **One thread is woken.** -/
theorem wakes_one (asleep : Asleep s (l ++ a :: r)) :
    Wakes s (wake s (slotAfter l) (.thread a)) (l ++ a :: r) [a] := by
  have fresh : a ∉ l ++ r := (List.nodup_cons.mp (List.perm_middle.nodup_iff.mp asleep.nodup)).1
  unfold wake
  extract_lets s1 old s2
  have skips : Skips s s1 := skips_setSlot s _ _
  have pushed := requeued_queuePushBack s2 (.thread a)
  have self : s2.mem (.thread a) =
      { s1.mem (.thread a) with sleepNext := none, sleepUntil := 0, state := .ready } :=
    State.write_self ..
  have other : ∀ p, p ≠ .thread a → s2.mem p = s1.mem p := fun p e => State.write_of_ne e ..
  have away : ∀ b, b ∉ [a] → Ptr.thread b ≠ .thread a := fun b off e =>
    off (List.mem_singleton.mpr (Ptr.thread.inj e))
  refine ⟨fun b m => ?_, fun b off => ?_, fun b off => ?_, fun pri => ?_, ?_⟩
  · obtain rfl := List.mem_singleton.mp m
    rw [pushed.fields, self, skips.fields]
  · rw [pushed.fields, other _ (away b off), skips.fields]
  · have early : ∀ z ∈ l, Ptr.thread b ≠ .thread z := fun z m e =>
      off (Ptr.thread.inj e ▸ List.mem_append_left _ m)
    have last : b ∉ [a] := fun m => off (by rw [List.mem_singleton.mp m]; simp)
    rw [pushed.fields, other _ (away b last), setSlot_mem s _ early]
  · rw [pushed.fields, other _ (fun e => by cases e), setSlot_mem s _ fun z _ e => by cases e]
  · have head : (queuePushBack s2 (.thread a)).sleepHead = s1.sleepHead := pushed.sameSleep.head
    rw [head]
    exact pushed.rest.trans (congrArg (fun x : State T P =>
      ({ x with mem := (queuePushBack s2 (.thread a)).mem } : State T P)) skips.rest)

/-- The loop from the slot behind `l` on. -/
theorem wakeFrom_wakes {n : Nat} (h : Rings s ready) (asleep : Asleep s (l ++ r))
    (off : ∀ t ∈ r, ∀ pri, t ∉ ready pri) (woke : wakeFrom n s (slotAfter l) = some u) :
    Wakes s u (l ++ r) (r.filter s.due) := by
  induction n generalizing s ready l r with
  | zero => cases woke
  | succ n ih =>
    unfold wakeFrom at woke
    have slot := asleep.slot
    cases r with
    | nil =>
      rw [slot] at woke
      cases woke
      exact .nil _ _
    | cons a r =>
      rw [slot] at woke
      dsimp only [List.head?_cons, Option.map_some] at woke
      have nodup := asleep.nodup
      split at woke
      case isTrue due =>
        have due' : s.due a = true := decide_eq_true due
        have fresh : a ∉ l ++ r := (List.nodup_cons.mp (List.perm_middle.nodup_iff.mp nodup)).1
        obtain ⟨one, left⟩ := wake_spec h asleep (off a List.mem_cons_self)
        have same : ∀ t ∈ r, (wake s (slotAfter l) (.thread a)).due t = s.due t := by
          intro t m
          have other : t ≠ a := fun e => fresh (e ▸ List.mem_append_right l m)
          unfold State.due
          rw [one.deadline t fun m' => other (List.mem_singleton.mp m'), one.ticks]
        have more := ih one.rings left (fun t m pri m' => by
          obtain m' | ⟨e, -⟩ := Queues.mem_push.mp m'
          · exact off t (List.mem_cons_of_mem a m) pri m'
          · exact fresh (e ▸ List.mem_append_right l m)) woke
        rw [List.filter_congr same] at more
        rw [List.filter_cons_of_pos due']
        refine (wakes_one asleep).append more (fun b m => ?_) (fun b m => ?_) fun b m => ?_
        · obtain m | m := List.mem_append.mp m
          · exact List.mem_append_left _ m
          · exact List.mem_append_right _ (List.mem_cons_of_mem a m)
        · rw [List.mem_singleton.mp m]
          exact fresh
        · exact List.mem_append_right l (List.mem_of_mem_filter m)
      case isFalse early =>
        have early' : s.due a = false := decide_eq_false early
        have last : slotAfter (l ++ [a]) = some (.thread a) := by
          unfold slotAfter
          rw [List.getLast?_concat]
          rfl
        rw [← last] at woke
        have more := ih (l := l ++ [a]) (r := r) h (by rwa [List.append_assoc])
          (fun t m => off t (List.mem_cons_of_mem a m)) woke
        rw [List.filter_cons_of_neg (by rw [early']; decide)]
        rwa [List.append_assoc] at more

/-! ## The partition -/

/-- **`WakeSleepers` partitions the sleep list**: it ends, the threads that sleep on keep their
order, the others are READY at the ends of their queues, and nothing else is written but links of
the ready queues. -/
theorem wakeSleepers_partitions {n : Nat} (h : Rings s ready) (asleep : Asleep s l)
    (off : ∀ t ∈ l, ∀ pri, t ∉ ready pri) (enough : l.length < n) :
    ∃ u, wakeSleepers n s = some u ∧
      Asleep u (l.filter fun t => decide (s.pitTicks < (s.mem (.thread t)).sleepUntil)) ∧
      Rings u (fun pri => ready pri ++
        (l.filter fun t => decide ((s.mem (.thread t)).sleepUntil ≤ s.pitTicks)).filter
          fun t => decide (s.level t = pri)) ∧
      Wakes s u l (l.filter fun t => decide ((s.mem (.thread t)).sleepUntil ≤ s.pitTicks)) ∧
      ∀ b, b ∉ l → (∀ pri, b ∉ ready pri) → u.mem (.thread b) = s.mem (.thread b) := by
  obtain ⟨u, woke⟩ := wakeFrom_ends (l := []) h asleep off enough
  obtain ⟨woken, left⟩ := h.wakeSleepers asleep off woke
  have wakes := wakeFrom_wakes (l := []) h asleep off woke
  have rings := woken.rings
  rw [pushAll_eq] at rings
  have later : (l.filter fun t => !s.due t) =
      l.filter fun t => decide (s.pitTicks < (s.mem (.thread t)).sleepUntil) := by
    refine List.filter_congr fun t _ => ?_
    rw [State.due, ← decide_not, decide_eq_decide]
    exact BitVec.not_le
  rw [later] at left
  refine ⟨u, woke, left, rings, wakes, fun b away unqueued => ?_⟩
  -- without links before and after, its record is the same
  have before := h.free b unqueued
  have after := rings.free b fun pri m => by
    obtain m | m := List.mem_append.mp m
    · exact unqueued pri m
    · exact away (List.mem_of_mem_filter (List.mem_of_mem_filter m))
  have next : (u.mem (.thread b)).next = (s.mem (.thread b)).next := after.1.trans before.1.symm
  have prev : (u.mem (.thread b)).prev = (s.mem (.thread b)).prev := after.2.trans before.2.symm
  rw [wakes.others b away, next, prev]

/-! ## Two sleepers -/

/-- At tick 5 the first thread is to be woken, and the second one at tick 9. -/
def twoAsleep : State Bool Unit :=
  initQueues
    { cold with
      mem := fun p =>
        if p = .thread true then
          { (KThread.zero : KThread Bool Unit) with
            state := .blocked, sleepUntil := 5, sleepNext := some (.thread false) }
        else { (KThread.zero : KThread Bool Unit) with state := .blocked, sleepUntil := 9 }
      sleepHead := some (.thread true)
      pitTicks := 5 }

theorem rings_twoAsleep : Rings twoAsleep fun _ => [] :=
  rings_initQueues fun t => by cases t <;> exact ⟨rfl, rfl⟩

theorem wakeSleepers_partitions_two :
    ∃ u, wakeSleepers 3 twoAsleep = some u ∧
      Asleep u ([true, false].filter fun t =>
        decide (twoAsleep.pitTicks < (twoAsleep.mem (.thread t)).sleepUntil)) ∧
      Rings u (fun pri => [] ++ ([true, false].filter fun t =>
        decide ((twoAsleep.mem (.thread t)).sleepUntil ≤ twoAsleep.pitTicks)).filter
          fun t => decide (twoAsleep.level t = pri)) ∧
      Wakes twoAsleep u [true, false] ([true, false].filter fun t =>
        decide ((twoAsleep.mem (.thread t)).sleepUntil ≤ twoAsleep.pitTicks)) ∧
      ∀ b, b ∉ [true, false] → (∀ _pri : Fin 3, b ∉ ([] : List Bool)) →
        u.mem (.thread b) = twoAsleep.mem (.thread b) :=
  wakeSleepers_partitions rings_twoAsleep ⟨rfl, rfl, rfl⟩
    (fun _ _ _ => List.not_mem_nil) (by decide)

end MicroNT.Sched
