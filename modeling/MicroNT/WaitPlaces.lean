import MicroNT.ThreadPlaces

/-! # Waits and releases move threads (`syscall.cpp`, `event.cpp`)

A wait puts the current thread in a list, and a release takes the first thread of one off and
hands it to the thread that releases. No thread is in two lists at any time. -/

set_option linter.unusedSectionVars false

namespace MicroNT.Signals

open Base.Machine Base.Chain
open Sched (Ptr KThread State Asleep Queues blockCurrentThread)

variable {T P H : Type} [DecidableEq T] [DecidableEq P] [DecidableEq H]
  {sys sys' : System T P H} {fresh : Finset T} {place : Ptr T → Place T P H}
  {ready : Queues T} {asleep : List T} {lists : WaitList T P H → List (Ptr T)} {main c t : T}
  {q w : Ptr T} {x : Place T P H} {o : WaitList T P H} {l : List (Ptr T)}

/-! ## The current thread waits -/

/-- **The current thread goes into a wait list**, or is lost behind one. -/
theorem Parts.enter (h : Parts sys fresh place ready asleep lists)
    (off : place (.thread c) = .off) (quiet : ends (sys.ps.pc c) = false)
    (still : Still sys.sched sys'.sched) (linked : Linked sys'.links (sys'.head o) l)
    (links : ∀ o', o' ≠ o → ∀ q ∈ lists o', sys'.links q = sys.links q)
    (head : ∀ o', o' ≠ o → sys'.head o' = sys.head o')
    (members : ∀ q ∈ l, q = .thread c ∧ x = .waits o ∨ q ∈ lists o)
    (pc : sys'.pc = sys.pc) (psPc : sys'.ps.pc = sys.ps.pc)
    (mutantTail : ∀ i, (sys'.mutant i).ends.tail =
      (Function.update lists o l (.mutant i)).getLast?)
    (semaTail : ∀ i, Tails sys' (Function.update place (.thread c) x) i
      (Function.update lists o l (.semaphore i)))
    (allocated : sys'.ps.allocated = sys.ps.allocated) :
    Parts sys' fresh (Function.update place (.thread c) x) ready asleep
      (Function.update lists o l) := by
  refine h.change (.inl off) still linked links head (fun q m => ?_)
    (fun u w hw => kept_place (o := o) (.inl off) (h.handed u w (pc ▸ hw)) (by simp) (by simp))
    (fun u w hw => kept_place (o := o) (.inl off) (h.released u w (psPc ▸ hw)) (by simp) (by simp))
    mutantTail semaTail (fun u hu => ?_) (psPc ▸ h.noKill) allocated
  · refine (members q m).imp_right fun m => ⟨?_, m⟩
    rintro rfl
    exact h.unlisted (o := o) (by simp [off]) m
  · rw [psPc] at hu
    refine ⟨?_, hu⟩
    rintro rfl
    rw [quiet] at hu
    cases hu

/-- A list that grows in front. -/
theorem Parts.pushFront (h : Parts sys fresh place ready asleep lists)
    (off : place (.thread c) = .off) (quiet : ends (sys.ps.pc c) = false)
    (single : (∀ i, o ≠ .semaphore i) ∧ ∀ i, o ≠ .mutant i) (still : Still sys.sched sys'.sched)
    (links : sys'.links = Function.update sys.links (.thread c) (sys.head o))
    (first : sys'.head o = some (.thread c)) (head : ∀ o', o' ≠ o → sys'.head o' = sys.head o')
    (mutant : sys'.mutant = sys.mutant) (sema : sys'.sema = sys.sema) (pc : sys'.pc = sys.pc)
    (psPc : sys'.ps.pc = sys.ps.pc) (allocated : sys'.ps.allocated = sys.ps.allocated) :
    Parts sys' fresh (Function.update place (.thread c) (.waits o)) ready asleep
      (Function.update lists o (.thread c :: lists o)) := by
  have free : ∀ o', (.thread c) ∉ lists o' := fun o' => h.unlisted (by simp [off])
  refine h.enter off quiet still ?_ (fun o' _ q m => ?_) head (fun q m => ?_) pc psPc
    (fun i => ?_) (fun i => ?_) allocated
  · rw [links, first]
    exact (h.linked o).push (free o)
  · rw [links, Function.update_of_ne]
    rintro rfl
    exact free o' m
  · exact (List.mem_cons.mp m).imp_left fun e => ⟨e, rfl⟩
  · rw [mutant, Function.update_of_ne (single.2 i).symm]
    exact h.mutantTail i
  · rw [Function.update_of_ne (single.1 i).symm]
    exact (h.semaTail i).congr (by rw [sema]) pc fun z lost =>
      kept_place (o := o) (.inl off) lost (by simp) (by simp)

/-! ## Queues with a last thread -/

theorem append_enqueue (s : State T P) (ends : Ends (Ptr T)) (cur : Ptr T) :
    (fun q => ((append s ends cur).1.mem q).waitNext) =
        (enqueue (fun q => (s.mem q).waitNext) ends cur).1 ∧
      (append s ends cur).2 = (enqueue (fun q => (s.mem q).waitNext) ends cur).2 := by
  have cleared : (fun q => ((s.setWaitNext cur none).mem q).waitNext) =
      Function.update (fun q => (s.mem q).waitNext) cur none :=
    funext (s.setWaitNext_waitNext cur none)
  obtain ⟨head, tail⟩ := ends
  cases tail with
  | some z =>
    refine ⟨?_, rfl⟩
    refine Eq.trans ?_ (congrArg (fun f => Function.update f z (some cur)) cleared)
    exact funext ((s.setWaitNext cur none).setWaitNext_waitNext z (some cur))
  | none => exact ⟨cleared, rfl⟩

theorem append_still (s : State T P) (ends : Ends (Ptr T)) (cur : Ptr T) :
    Still s (append s ends cur).1 := by
  unfold append
  dsimp only
  split
  · exact ((Still.refl s).setWaitNext cur none).setWaitNext _ _
  · exact (Still.refl s).setWaitNext cur none

omit [DecidableEq P] [DecidableEq H] in
theorem enqueue_of_ne {next : Ptr T → Option (Ptr T)} {ends : Ends (Ptr T)} {cur : Ptr T}
    (other : q ≠ cur) (tail : ends.tail ≠ some q) : (enqueue next ends cur).1 q = next q := by
  unfold enqueue
  split
  case h_1 z last =>
    have qz : q ≠ z := fun e => tail (e ▸ last)
    exact (Function.update_of_ne qz _ _).trans (Function.update_of_ne other _ _)
  case h_2 => exact Function.update_of_ne other _ _

/-- A list that grows at its end. -/
theorem Parts.pushBack (h : Parts sys fresh place ready asleep lists)
    (off : place (.thread c) = .off) (quiet : ends (sys.ps.pc c) = false) {ends : Ends (Ptr T)}
    (queue : Queue sys.links ends (lists o)) (still : Still sys.sched sys'.sched)
    (links : sys'.links = (enqueue sys.links ends (.thread c)).1)
    (first : sys'.head o = (enqueue sys.links ends (.thread c)).2.head)
    (head : ∀ o', o' ≠ o → sys'.head o' = sys.head o') (pc : sys'.pc = sys.pc)
    (psPc : sys'.ps.pc = sys.ps.pc)
    (mutantTail : ∀ i, (sys'.mutant i).ends.tail =
      (Function.update lists o (lists o ++ [.thread c]) (.mutant i)).getLast?)
    (semaTail : ∀ i, Tails sys' (Function.update place (.thread c) (.waits o)) i
      (Function.update lists o (lists o ++ [.thread c]) (.semaphore i)))
    (allocated : sys'.ps.allocated = sys.ps.allocated) :
    Parts sys' fresh (Function.update place (.thread c) (.waits o)) ready asleep
      (Function.update lists o (lists o ++ [.thread c])) := by
  have free : ∀ o', (.thread c) ∉ lists o' := fun o' => h.unlisted (by simp [off])
  refine h.enter off quiet still ?_ (fun o' other q m => ?_) head (fun q m => ?_) pc psPc
    mutantTail semaTail allocated
  · rw [links, first]
    exact (queue.enqueue (free o)).linked
  · rw [links]
    refine enqueue_of_ne (fun e => free o' (e ▸ m)) fun last => other ?_
    have m' := List.mem_of_getLast? (queue.tail.symm.trans last)
    have same := (h.inList o q m').symm.trans (h.inList o' q m)
    exact (Place.waits.inj same).symm
  · obtain m | m := List.mem_append.mp m
    · exact .inr m
    · exact .inl ⟨List.mem_singleton.mp m, rfl⟩

/-- A wait behind a thread that is off the list already. -/
theorem Parts.lose (h : Parts sys fresh place ready asleep lists)
    (off : place (.thread c) = .off) (quiet : ends (sys.ps.pc c) = false) {i : H} {z : Ptr T}
    (tail : (sys.sema i).ends.tail = some z) (empty : lists (.semaphore i) = [])
    (gone : ∀ o, place z ≠ .waits o) (still : Still sys.sched sys'.sched)
    (links : sys'.links = (enqueue sys.links (sys.sema i).ends (.thread c)).1)
    (sema : ∀ j, (sys'.sema j).ends = if j = i then ⟨(sys.sema i).ends.head, some (.thread c)⟩
      else (sys.sema j).ends)
    (head : ∀ o, o ≠ .semaphore i → sys'.head o = sys.head o) (mutant : sys'.mutant = sys.mutant)
    (pc : sys'.pc = sys.pc) (psPc : sys'.ps.pc = sys.ps.pc)
    (allocated : sys'.ps.allocated = sys.ps.allocated) :
    Parts sys' fresh (Function.update place (.thread c) .lost) ready asleep lists := by
  have same : Function.update lists (.semaphore i) [] = lists := by
    rw [← empty]
    exact Function.update_eq_self _ _
  have none : (sys.sema i).ends.head = none := by
    have linked := h.linked (.semaphore i)
    rw [empty] at linked
    exact linked
  rw [← same]
  refine h.enter off quiet still ?_ (fun o _ q m => ?_) head (fun q m => ?_) pc psPc (fun j => ?_)
    (fun j => ?_) allocated
  · show (sys'.sema i).ends.head = .none
    rw [sema, if_pos rfl]
    exact none
  · rw [links]
    refine enqueue_of_ne (fun e => ?_) fun last => ?_
    · exact h.unlisted (o := o) (by simp [off]) (e ▸ m)
    · have e : z = q := Option.some.inj (tail.symm.trans last)
      exact gone o (e ▸ h.inList o q m)
  · cases m
  · rw [mutant, same]
    exact h.mutantTail j
  · rw [same]
    by_cases e : j = i
    · subst e
      refine ⟨fun _ => empty, fun y last => .inr ⟨empty, .inl ?_⟩⟩
      rw [sema, if_pos rfl] at last
      cases last
      exact Function.update_self _ _ _
    · exact (h.semaTail j).congr (by rw [sema, if_neg e]) pc fun y lost =>
        kept_place (o := .semaphore i) (.inl off) lost (by simp) (by simp)

/-! ## Objects -/

theorem head_setSema {i : H} {v : Sync.KSema (Ptr T)}
    (other : o = .semaphore i → v.ends.head = (sys.sema i).ends.head) :
    (sys.setSema i v).head o = sys.head o := by
  cases o with
  | semaphore j =>
    show (Function.update sys.sema i v j).ends.head = _
    by_cases e : j = i
    · subst e
      rw [Function.update_self]
      exact other rfl
    · rw [Function.update_of_ne e]
      rfl
  | mutant j => rfl
  | event j => rfl
  | process p => rfl
  | ending u => rfl

theorem head_setMutant {i : H} {v : Sync.KMutant (Ptr T)}
    (other : o = .mutant i → v.ends.head = (sys.mutant i).ends.head) :
    (sys.setMutant i v).head o = sys.head o := by
  cases o with
  | mutant j =>
    show (Function.update sys.mutant i v j).ends.head = _
    by_cases e : j = i
    · subst e
      rw [Function.update_self]
      exact other rfl
    · rw [Function.update_of_ne e]
      rfl
  | semaphore j => rfl
  | event j => rfl
  | process p => rfl
  | ending u => rfl

theorem head_setEvent {i : H} {v : Sync.KEvent (Ptr T)}
    (other : o = .event i → v.waiters = (sys.event i).waiters) :
    (sys.setEvent i v).head o = sys.head o := by
  cases o with
  | event j =>
    show (Function.update sys.event i v j).waiters = _
    by_cases e : j = i
    · subst e
      rw [Function.update_self]
      exact other rfl
    · rw [Function.update_of_ne e]
      rfl
  | semaphore j => rfl
  | mutant j => rfl
  | process p => rfl
  | ending u => rfl

theorem unmoved_setSema {i : H} {v : Sync.KSema (Ptr T)} (same : v.ends = (sys.sema i).ends) :
    Unmoved sys (sys.setSema i v) := by
  refine ⟨Still.refl _, fun o => head_setSema fun _ => congrArg Ends.head same, fun _ => rfl,
    fun j => ?_, rfl, rfl, rfl⟩
  show (Function.update sys.sema i v j).ends.tail = _
  by_cases e : j = i
  · rw [e, Function.update_self, same]
  · rw [Function.update_of_ne e]

theorem unmoved_setMutant {i : H} {v : Sync.KMutant (Ptr T)}
    (same : v.ends = (sys.mutant i).ends) : Unmoved sys (sys.setMutant i v) := by
  refine ⟨Still.refl _, fun o => head_setMutant fun _ => congrArg Ends.head same, fun j => ?_,
    fun _ => rfl, rfl, rfl, rfl⟩
  show (Function.update sys.mutant i v j).ends.tail = _
  by_cases e : j = i
  · rw [e, Function.update_self, same]
  · rw [Function.update_of_ne e]

theorem unmoved_setEvent {i : H} {v : Sync.KEvent (Ptr T)}
    (same : v.waiters = (sys.event i).waiters) : Unmoved sys (sys.setEvent i v) :=
  ⟨Still.refl _, fun _ => head_setEvent fun _ => same, fun _ => rfl, fun _ => rfl, rfl, rfl, rfl⟩

theorem Parts.mutantTails (h : Parts sys fresh place ready asleep lists) {s : State T P} {i : H}
    {v : Sync.KMutant (Ptr T)} (tail : v.ends.tail = l.getLast?) (j : H) :
    (((sys.with s).setMutant i v).mutant j).ends.tail =
      (Function.update lists (.mutant i) l (.mutant j)).getLast? := by
  show (Function.update sys.mutant i v j).ends.tail = _
  by_cases e : j = i
  · rw [e, Function.update_self, Function.update_self]
    exact tail
  · rw [Function.update_of_ne e, Function.update_of_ne fun e' => e (WaitList.mutant.inj e')]
    exact h.mutantTail j

/-! ## Calls that wait -/

/-- The current thread has only `Schedule()` left to call. -/
theorem Parts.parked (h : Parts sys' fresh (Function.update place (.thread c) x) ready asleep lists)
    (here : Here sys place main c ready) (pc : sys'.pc c = .idle) (psPc : sys'.ps.pc c = .idle)
    (somewhere : x = .asleep ∨ (∃ o, x = .waits o) ∨ x = .lost)
    (current : sys'.sched.current = sys.sched.current)
    (blocked : (sys'.sched.mem (.thread c)).state = .blocked)
    (first : x = .asleep → sys'.sched.sleepHead = some (.thread c))
    (live : Awake sys'.sched main) : Placed (sys'.goto c .schedule) fresh main := by
  have self : Function.update place (.thread c) x (.thread c) = x := Function.update_self _ _ _
  refine ⟨_, ready, asleep, lists, c, h.goto (fun w hw => by cases hw) fun i rel off z at_ => ?_,
    here.park current blocked ?_ (.inl (Function.update_self _ _ _)) (fun slept => ?_)
    (fun p who fst w at_ => ?_) live⟩
  · rw [pc] at at_
    cases at_
  · rw [self]
    exact somewhere
  · rw [self] at slept
    exact first slept
  · have at_ : sys'.ps.pc c = _ := at_
    rw [psPc] at at_
    cases at_

/-- The system with other counts. -/
theorem Parts.unchanged (h : Parts sys fresh place ready asleep lists)
    (here : Here sys place main c ready) (off : place (.thread c) = .off)
    (same : Unmoved sys sys') (mem : sys'.sched.mem = sys.sched.mem)
    (proc : ∀ p, (sys'.ps.proc p).exitWaiters = (sys.ps.proc p).exitWaiters) :
    Placed sys' fresh main := by
  refine ⟨place, ready, asleep, lists, c, h.unmoved same fun _ q _ => ?_,
    here.stay off same.still.current ?_ ?_ (fun p who fst w at_ => ?_) (fun pri m => ⟨pri, m⟩) ?_⟩
  · unfold System.links
    rw [mem]
  · rw [mem]
  · rw [same.psPc]
    exact id
  · rw [same.psPc] at at_
    exact (proc p).trans (here.taken p who fst w at_)
  · unfold Awake
    rw [mem]
    exact here.live

theorem Parts.queue (h : Parts sys fresh place ready asleep lists) (i : H) :
    Queue sys.links (sys.mutant i).ends (lists (.mutant i)) :=
  ⟨h.linked (.mutant i), h.mutantTail i⟩

/-- What a wait on a queue does to the scheduler. -/
theorem park_append (ends : Ends (Ptr T)) (current : sys.sched.current = some (.thread c)) :
    Still sys.sched (blockCurrentThread (append sys.sched ends (.thread c)).1) ∧
      (fun q => ((blockCurrentThread (append sys.sched ends (.thread c)).1).mem q).waitNext) =
        (enqueue sys.links ends (.thread c)).1 ∧
      ((blockCurrentThread (append sys.sched ends (.thread c)).1).mem (.thread c)).state =
        .blocked := by
  have still := append_still sys.sched ends (.thread c)
  rw [Sched.blockCurrentThread_eq (still.current.trans current)]
  refine ⟨still.setState _ _, ?_, State.setState_state _ _ _⟩
  exact (funext (State.setState_waitNext _ _ _)).trans (append_enqueue _ _ _).1

/-- **`NtWaitForSingleObject` on a mutant.** -/
theorem Parts.waitMutant (h : Parts sys fresh place ready asleep lists)
    (here : Here sys place main c ready) (idle : sys.pc c = .idle) (psIdle : sys.ps.pc c = .idle)
    (i : H) (live : Awake (waitMutant sys c i).sched main) :
    Placed (Signals.waitMutant sys c i) fresh main := by
  have off := here.off (by simp [idle]) fun _ => by simp [psIdle]
  unfold Signals.waitMutant at live ⊢
  dsimp only at live ⊢
  split
  case isTrue => exact h.unchanged here off (unmoved_setMutant rfl) rfl fun _ => rfl
  case isFalse free =>
    rw [if_neg free] at live
    split
    case isTrue => exact h.unchanged here off (unmoved_setMutant rfl) rfl fun _ => rfl
    case isFalse other =>
      rw [if_neg other] at live
      obtain ⟨still, links, blocked⟩ := park_append (sys.mutant i).ends here.current
      have ends := (append_enqueue sys.sched (sys.mutant i).ends (.thread c)).2
      have parts : Parts ((sys.with (blockCurrentThread
          (append sys.sched (sys.mutant i).ends (.thread c)).1)).setMutant i
            { sys.mutant i with ends := (append sys.sched (sys.mutant i).ends (.thread c)).2 })
          fresh (Function.update place (.thread c) (.waits (.mutant i))) ready asleep
          (Function.update lists (.mutant i) (lists (.mutant i) ++ [.thread c])) := by
        refine h.pushBack off (by simp [psIdle, Signals.ends]) (h.queue i) still links ?_
          (fun o other => head_setMutant fun e => absurd e other) rfl rfl (fun j => ?_)
          (fun j => ?_) rfl
        · show (Function.update sys.mutant i _ i).ends.head = _
          rw [Function.update_self]
          exact congrArg Ends.head ends
        · exact h.mutantTails (ends ▸ ((h.queue i).enqueue (h.unlisted (by simp [off]))).tail) j
        · exact (h.semaTail j).congr rfl rfl fun z lost =>
            kept_place (o := .mutant i) (.inl off) lost (by simp) (by simp)
      exact parts.parked here idle psIdle (.inr (.inl ⟨_, rfl⟩)) still.current blocked
        (fun e => by cases e) live

/-- **`NtWaitForSingleObject` on a semaphore.** -/
theorem Parts.waitSemaphore (h : Parts sys fresh place ready asleep lists)
    (here : Here sys place main c ready) (idle : sys.pc c = .idle) (psIdle : sys.ps.pc c = .idle)
    (i : H) (timeout : u64) (live : Awake (waitSemaphore sys c i timeout).sched main) :
    Placed (Signals.waitSemaphore sys c i timeout) fresh main := by
  have off := here.off (by simp [idle]) fun _ => by simp [psIdle]
  have quiet : ends (sys.ps.pc c) = false := by simp [psIdle, Signals.ends]
  unfold Signals.waitSemaphore at live ⊢
  dsimp only at live ⊢
  split
  case isTrue => exact h.unchanged here off (unmoved_setSema rfl) rfl fun _ => rfl
  case isFalse none =>
    rw [if_neg none] at live
    split
    case isTrue => exact ⟨_, _, _, _, c, h, here⟩
    case isFalse blocks =>
      rw [if_neg blocks] at live
      obtain ⟨still, links, blocked⟩ := park_append (sys.sema i).ends here.current
      have ends : (append sys.sched (sys.sema i).ends (.thread c)).2 =
          (enqueue sys.links (sys.sema i).ends (.thread c)).2 := (append_enqueue _ _ _).2
      generalize (append sys.sched (sys.sema i).ends (.thread c)) = r at *
      have other : ∀ o, o ≠ .semaphore i → (((sys.with (blockCurrentThread r.1)).setSema i
          { sys.sema i with ends := r.2 }).head o) = sys.head o := fun o other =>
        head_setSema fun e => absurd e other
      have set : ∀ j, (((sys.with (blockCurrentThread r.1)).setSema i
          { sys.sema i with ends := r.2 }).sema j).ends =
            if j = i then r.2 else (sys.sema j).ends := fun j => by
        show (Function.update sys.sema i _ j).ends = _
        by_cases e : j = i
        · rw [if_pos e, e, Function.update_self]
        · rw [if_neg e, Function.update_of_ne e]
      -- the last thread that the semaphore knows of is on its list, or off it already
      rcases Classical.em ((sys.sema i).ends.tail = (lists (.semaphore i)).getLast?) with
        tail | gone
      case inl =>
        have queue : Queue sys.links (sys.sema i).ends (lists (.semaphore i)) :=
          ⟨h.linked (.semaphore i), tail⟩
        have after := queue.enqueue (h.unlisted (q := .thread c) (by simp [off]))
        have parts : Parts ((sys.with (blockCurrentThread r.1)).setSema i
              { sys.sema i with ends := r.2 }) fresh
            (Function.update place (.thread c) (.waits (.semaphore i))) ready asleep
            (Function.update lists (.semaphore i) (lists (.semaphore i) ++ [.thread c])) := by
          refine h.pushBack off quiet queue still links ?_ other rfl rfl h.mutantTail (fun j => ?_)
            rfl
          · rw [← ends]
            exact congrArg Ends.head ((set i).trans (if_pos rfl))
          · by_cases e : j = i
            · subst e
              rw [Function.update_self]
              refine ⟨fun none => ?_, fun z last => .inl ?_⟩
              · rw [set, if_pos rfl, ends, after.tail, List.getLast?_concat] at none
                cases none
              · rw [← last, set, if_pos rfl, ends]
                exact after.tail.symm
            · rw [Function.update_of_ne fun e' => e (WaitList.semaphore.inj e')]
              refine (h.semaTail j).congr ?_ rfl fun z lost =>
                kept_place (o := .semaphore i) (.inl off) lost (by simp) (by simp)
              rw [set, if_neg e]
        exact parts.parked here idle psIdle (.inr (.inl ⟨_, rfl⟩)) still.current blocked
          (fun e => by cases e) live
      case inr =>
        obtain ⟨none, some⟩ := h.semaTail i
        cases tail : (sys.sema i).ends.tail with
        | none => exact absurd (by rw [tail, none tail, List.getLast?_nil]) gone
        | some z =>
          obtain last | ⟨empty, away⟩ := some z tail
          · exact absurd (tail.trans last.symm) gone
          · have parts : Parts ((sys.with (blockCurrentThread r.1)).setSema i
                { sys.sema i with ends := r.2 }) fresh (Function.update place (.thread c) .lost)
                ready asleep lists := by
              refine h.lose off quiet tail empty (fun o e => ?_) still links (fun j => ?_) other rfl
                rfl rfl rfl
              · rcases away with lost | ⟨u, rel, off_, at_⟩
                · rw [e] at lost
                  cases lost
                · have handed := h.handed u z (by rw [at_]; rfl)
                  rw [e] at handed
                  cases handed
              · rw [set, ends]
                unfold enqueue
                rw [tail]
            exact parts.parked here idle psIdle (.inr (.inr rfl)) still.current blocked
              (fun e => by cases e) live

/-- What a wait in front of a list does to the scheduler. -/
theorem park_front (s : State T P) (first : Option (Ptr T)) (c : T) :
    Still s ((s.setWaitNext (.thread c) first).setState (.thread c) .blocked) ∧
      (fun q =>
        (((s.setWaitNext (.thread c) first).setState (.thread c) .blocked).mem q).waitNext) =
        Function.update (fun q => (s.mem q).waitNext) (.thread c) first ∧
      ((((s.setWaitNext (.thread c) first).setState (.thread c) .blocked).mem (.thread c)).state =
        .blocked) := by
  refine ⟨((Still.refl s).setWaitNext _ _).setState _ _, ?_, State.setState_state _ _ _⟩
  exact (funext (State.setState_waitNext _ _ _)).trans (funext (s.setWaitNext_waitNext _ first))

/-- **`EventWait`.** -/
theorem Parts.eventWait (h : Parts sys fresh place ready asleep lists)
    (here : Here sys place main c ready) (idle : sys.pc c = .idle) (psIdle : sys.ps.pc c = .idle)
    (i : H) (timeout : u32) (live : Awake (eventWait sys c i timeout).sched main) :
    Placed (Signals.eventWait sys c i timeout) fresh main := by
  have off := here.off (by simp [idle]) fun _ => by simp [psIdle]
  unfold Signals.eventWait at live ⊢
  dsimp only at live ⊢
  split
  case isTrue =>
    split
    case isTrue => exact h.unchanged here off (unmoved_setEvent rfl) rfl fun _ => rfl
    case isFalse => exact ⟨_, _, _, _, c, h, here⟩
  case isFalse unset =>
    rw [if_neg unset] at live
    split
    case isTrue => exact ⟨_, _, _, _, c, h, here⟩
    case isFalse blocks =>
      rw [if_neg blocks] at live
      obtain ⟨still, links, blocked⟩ := park_front sys.sched (sys.event i).waiters c
      generalize (sys.sched.setWaitNext (.thread c) (sys.event i).waiters).setState (.thread c)
        .blocked = s at *
      have parts : Parts ((sys.with s).setEvent i { sys.event i with waiters := some (.thread c) })
          fresh (Function.update place (.thread c) (.waits (.event i))) ready asleep
          (Function.update lists (.event i) (.thread c :: lists (.event i))) := by
        refine h.pushFront off (by simp [psIdle, ends]) ⟨by simp, by simp⟩ still links ?_
          (fun o other => head_setEvent fun e => absurd e other) rfl rfl rfl rfl rfl
        show (Function.update sys.event i _ i).waiters = _
        rw [Function.update_self]
      exact parts.parked here idle psIdle (.inr (.inl ⟨_, rfl⟩)) still.current blocked
        (fun e => by cases e) live

/-- **`Sleep`**, up to its `Schedule()`. -/
theorem Parts.sleep (h : Parts sys fresh place ready asleep lists)
    (here : Here sys place main c ready) (idle : sys.pc c = .idle) (psIdle : sys.ps.pc c = .idle)
    {ms : u32} (some : ms ≠ 0) (live : Awake (Sched.sleep sys.sched ms) main) :
    Placed ((sys.with (Sched.sleep sys.sched ms)).goto c .schedule) fresh main := by
  have off := here.off (by simp [idle]) fun _ => by simp [psIdle]
  have eq : Sched.sleep sys.sched ms =
      { sys.sched.write (.thread c)
          { sys.sched.mem (.thread c) with
            sleepUntil := sys.sched.pitTicks + Sched.ticksNeeded ms
            sleepNext := sys.sched.sleepHead
            state := .blocked } with
        sleepHead := Option.some (.thread c) } := by
    unfold Sched.sleep
    rw [if_neg some, here.current]
  have links : ∀ q, ((Sched.sleep sys.sched ms).mem q).waitNext = sys.links q :=
    (linking_links.sleep (linking_links.relinked_refl sys.sched) ms).fields
  have other : ∀ {q : Ptr T} {y : Place T P H}, place q = y → y ≠ .off →
      Function.update place (.thread c) .asleep q = y := fun {q y} at_ some => by
    have ne : q ≠ .thread c := fun e => some (at_.symm.trans (e ▸ off))
    rw [Function.update_of_ne ne]
    exact at_
  have parts : Parts (sys.with (Sched.sleep sys.sched ms)) fresh
      (Function.update place (.thread c) .asleep) ready (c :: asleep) lists := by
    rw [eq] at links ⊢
    refine h.queues (h.rings.congr (Sched.links_write rfl rfl)) ?_ h.active links
      (fun pri t m => other (h.inReady pri t m) (by simp)) (fun t m => ?_)
      (fun q o at_ => other at_ (by simp)) (fun q at_ => other at_ (by simp))
      (fun u w hw => other (h.handed u w hw) (by simp))
      (fun u w hw => other (h.released u w hw) (by simp)) (fun pri => ?_) (fun u hu => ?_)
      (fun u hu => other (h.new u hu) (by simp)) fun _ m => m
    · unfold Asleep
      show Linked (sys.sched.write (Ptr.thread c) _).sleepNexts (Option.some (Ptr.thread c)) _
      rw [Sched.sleepNexts_write]
      refine Linked.push h.sleeping fun m => ?_
      obtain ⟨_, m, ⟨⟩⟩ := List.mem_map.mp m
      exact h.awake (by simp [off]) m
    · obtain rfl | m := List.mem_cons.mp m
      · exact Function.update_self _ _ _
      · exact other (h.inSleep t m) (by simp)
    · rw [Function.update_of_ne (by simp)]
      exact h.sentinel pri
    · have ne : u ≠ c := by
        rintro rfl
        rw [psIdle] at hu
        cases hu
      rw [Function.update_of_ne fun e => ne (Ptr.thread.inj e)]
      exact h.ending u hu
  refine parts.parked here idle psIdle (.inl rfl) ?_ ?_ (fun _ => ?_) live
  · show (Sched.sleep sys.sched ms).current = _
    rw [eq]
    rfl
  · show ((Sched.sleep sys.sched ms).mem (.thread c)).state = _
    rw [eq]
    exact congrArg KThread.state (State.write_self sys.sched _ _)
  · show (Sched.sleep sys.sched ms).sleepHead = _
    rw [eq]

end MicroNT.Signals
