import MicroNT.Event

/-! # Tokens of an auto-reset event

A token is a call of `EventSet` or the initial signal. It is spent by a call of
`EventWait` that succeeds, and until then it is the event's signal or a thread
that has been taken off the list and has not returned yet. -/

set_option linter.unusedSectionVars false

namespace MicroNT.Sync.Event

open MicroNT.Base.Machine MicroNT.Base.Chain

variable {T E : Type} [DecidableEq T] [DecidableEq E]

/-- A thread inside `EventSet` that has taken `w` off a list and not yet queued it. -/
def Pc.Holds : Pc T E → T → Prop
  | .unblock w, v => w = v
  | .push w, v => w = v
  | _, _ => False

/-- The waiter lists, the threads woken but not back, and where every token is. -/
structure Inv (s₀ s : System T E) (lists out : E → List T) : Prop where
  linked : ∀ e, Linked s.thr.waitNext (s.ev e).waiters (lists e)
  parked : ∀ e, ∀ t ∈ lists e,
    s.pc t = .waiting e ∧ s.thr.runnable t = false ∧ s.thr.state t = .blocked
  woken : ∀ e t, t ∈ out e ↔ s.pc t = .waiting e ∧ t ∉ lists e
  nodup : ∀ e, (out e).Nodup
  held : ∀ t w, (s.pc t).Holds w →
    (∃ e, w ∈ out e) ∧ s.thr.runnable w = false ∧ s.thr.state w = .ready
  one : ∀ t u w, (s.pc t).Holds w → (s.pc u).Holds w → t = u
  auto : ∀ e, (s.ev e).autoReset = (s₀.ev e).autoReset
  tokens : ∀ e, (s₀.ev e).autoReset = true →
    s.succeeded e + (out e).length + (s.ev e).signaled.toNat ≤
      (s₀.ev e).signaled.toNat + s.sets e

theorem Start.inv {s : System T E} (start : Start s) : Inv s s (fun _ => []) (fun _ => []) where
  linked e := start.waiters e
  parked e t ht := by cases ht
  woken e t := by rw [start.pc t]; simp
  nodup e := List.nodup_nil
  held t w h := by rw [start.pc t] at h; cases h
  one t u w h := by rw [start.pc t] at h; cases h
  auto e := rfl
  tokens e _ := by simp [start.succeeded e]

variable {s₀ s : System T E} {lists out : E → List T}

/-- A thread that can take a step is on no list. -/
theorem Inv.not_listed (h : Inv s₀ s lists out) {t : T} (run : s.thr.runnable t = true) (e : E) :
    t ∉ lists e := by
  intro ht
  rw [(h.parked e t ht).2.1] at run
  cases run

theorem Inv.not_held (h : Inv s₀ s lists out) {t : T} (run : s.thr.runnable t = true) (u : T) :
    ¬ (s.pc u).Holds t := by
  intro hu
  rw [(h.held u t hu).2.1] at run
  cases run

theorem Inv.listed_once (h : Inv s₀ s lists out) {t : T} {e f : E} (he : t ∈ lists e)
    (hf : t ∈ lists f) : e = f := by
  have same := (h.parked e t he).1.symm.trans (h.parked f t hf).1
  cases same
  rfl

theorem Inv.listed_not_woken (h : Inv s₀ s lists out) {t : T} {e f : E} (he : t ∈ lists e) :
    t ∉ out f := by
  intro hf
  obtain ⟨hpc, hno⟩ := (h.woken f t).mp hf
  have same := (h.parked e t he).1.symm.trans hpc
  cases same
  exact hno he

/-- A step that changes a signal and the counters only. -/
theorem Inv.recount (h : Inv s₀ s lists out) {s' : System T E} {e : E} {b : Bool}
    (thr : s'.thr = s.thr) (pc : s'.pc = s.pc)
    (ev : s'.ev = Function.update s.ev e { s.ev e with signaled := b })
    (tokens : ∀ f, (s.ev f).autoReset = true →
      s'.succeeded f + (if f = e then b else (s.ev f).signaled).toNat + s.sets f ≤
        s.succeeded f + (s.ev f).signaled.toNat + s'.sets f) :
    Inv s₀ s' lists out where
  linked f := by
    rw [thr, ev]
    have old := h.linked f
    grind [Function.update_apply]
  parked := by rw [thr, pc]; exact h.parked
  woken := by rw [pc]; exact h.woken
  nodup := h.nodup
  held := by rw [thr, pc]; exact h.held
  one := by rw [pc]; exact h.one
  auto f := by
    rw [ev, ← h.auto f]
    grind [Function.update_apply]
  tokens f hf := by
    rw [ev]
    have t₁ := h.tokens f hf
    have t₂ := tokens f ((h.auto f).trans hf)
    grind [Function.update_apply]

/-! ## Steps -/

variable {s' : System T E} {t w : T} {e : E}

theorem Inv.park (h : Inv s₀ s lists out) (run : s.thr.runnable t = true) (idle : s.pc t = .idle)
    (next : s'.thr.waitNext = Function.update s.thr.waitNext t (s.ev e).waiters)
    (runnable : s'.thr.runnable = Function.update s.thr.runnable t false)
    (state : s'.thr.state = Function.update s.thr.state t .blocked)
    (pc : s'.pc = Function.update s.pc t (.waiting e))
    (ev : s'.ev = Function.update s.ev e { s.ev e with waiters := some t })
    (succeeded : s'.succeeded = s.succeeded) (sets : s'.sets = s.sets) :
    Inv s₀ s' (Function.update lists e (t :: lists e)) out := by
  have free := h.not_listed run
  have unheld := h.not_held run
  constructor
  case linked =>
    intro f
    rw [next, ev]
    by_cases hf : f = e
    · subst hf
      rw [Function.update_self, Function.update_self]
      exact (h.linked f).push (free f)
    · rw [Function.update_of_ne hf, Function.update_of_ne hf]
      exact (h.linked f).update (free f)
  case parked =>
    intro f u hu
    rw [pc, runnable, state]
    have old := h.parked f u
    grind [Function.update_apply]
  case woken =>
    intro f u
    rw [pc]
    have old := h.woken f u
    grind [Function.update_apply]
  case nodup => exact h.nodup
  case held =>
    intro u v hv
    rw [pc] at hv
    rw [runnable, state]
    have old := h.held u v
    grind [Function.update_apply, Pc.Holds]
  case one =>
    intro u u' v hu hu'
    rw [pc] at hu hu'
    have old := h.one u u' v
    grind [Function.update_apply, Pc.Holds]
  case auto =>
    intro f
    rw [ev, ← h.auto f]
    grind [Function.update_apply]
  case tokens =>
    intro f hf
    rw [ev, succeeded, sets]
    have old := h.tokens f hf
    grind [Function.update_apply]

theorem Inv.wake (h : Inv s₀ s lists out) (run : s.thr.runnable t = true) (idle : s.pc t = .idle)
    {rest : List T} (first : lists e = w :: rest)
    (next : s'.thr.waitNext = Function.update s.thr.waitNext w none)
    (runnable : s'.thr.runnable = s.thr.runnable)
    (state : s'.thr.state = Function.update s.thr.state w .ready)
    (pc : s'.pc = Function.update s.pc t (.unblock w))
    (ev : s'.ev = Function.update s.ev e
      { s.ev e with
        waiters := s.thr.waitNext w
        signaled := (s.ev e).signaled || !(s.ev e).autoReset })
    (succeeded : s'.succeeded = s.succeeded)
    (sets : s'.sets = Function.update s.sets e (s.sets e + 1)) :
    Inv s₀ s' (Function.update lists e rest) (Function.update out e (w :: out e)) := by
  have hw : w ∈ lists e := first ▸ List.mem_cons_self ..
  have hnd := (h.linked e).nodup
  rw [first] at hnd
  have hlast : w ∉ rest := (List.nodup_cons.mp hnd).1
  have free := h.not_listed run
  have apart : w ≠ t := fun eq => free e (eq ▸ hw)
  have only : ∀ f, w ∈ lists f → f = e := fun f hf => h.listed_once hf hw
  have out_free : ∀ f, w ∉ out f := fun f => h.listed_not_woken hw
  have here := h.parked e w hw
  -- nobody holds a thread that is still on a list
  have unheld : ∀ u, ¬ (s.pc u).Holds w := by
    intro u hu
    obtain ⟨f, hf⟩ := (h.held u w hu).1
    exact out_free f hf
  constructor
  case linked =>
    intro f
    rw [next, ev]
    by_cases hf : f = e
    · subst hf
      rw [Function.update_self, Function.update_self]
      have hl := h.linked f
      rw [first] at hl
      exact hl.2.update hlast
    · rw [Function.update_of_ne hf, Function.update_of_ne hf]
      exact (h.linked f).update fun hm => hf (only f hm)
  case parked =>
    intro f u hu
    rw [pc, runnable, state]
    have old := h.parked f u
    grind [Function.update_apply]
  case woken =>
    intro f u
    rw [pc]
    have old := h.woken f u
    grind [Function.update_apply]
  case nodup =>
    intro f
    have old := h.nodup f
    grind [Function.update_apply]
  case held =>
    intro u v hv
    rw [pc] at hv
    rw [runnable, state]
    by_cases hut : u = t
    · subst hut
      rw [Function.update_self] at hv
      obtain rfl : w = v := hv
      exact ⟨⟨e, by simp⟩, here.2.1, by simp⟩
    · rw [Function.update_of_ne hut] at hv
      obtain ⟨⟨f, hf⟩, hrun, hready⟩ := h.held u v hv
      have hvw : v ≠ w := fun eq => unheld u (eq ▸ hv)
      refine ⟨⟨f, ?_⟩, hrun, by rwa [Function.update_of_ne hvw]⟩
      grind [Function.update_apply]
  case one =>
    intro u u' v hu hu'
    rw [pc] at hu hu'
    have old := h.one u u' v
    grind [Function.update_apply, Pc.Holds]
  case auto =>
    intro f
    rw [ev, ← h.auto f]
    grind [Function.update_apply]
  case tokens =>
    intro f hf
    rw [ev, succeeded, sets]
    have old := h.tokens f hf
    have same := h.auto f
    grind [Function.update_apply]

theorem Inv.resume (h : Inv s₀ s lists out) (run : s.thr.runnable t = true)
    (at_ : s.pc t = .waiting e) (next : s'.thr.waitNext = s.thr.waitNext)
    (runnable : s'.thr.runnable = s.thr.runnable)
    (state : s'.thr.state = Function.update s.thr.state t .running)
    (pc : s'.pc = Function.update s.pc t .idle) (ev : s'.ev = s.ev)
    (succeeded : s'.succeeded = Function.update s.succeeded e (s.succeeded e + 1))
    (sets : s'.sets = s.sets) :
    Inv s₀ s' lists (Function.update out e ((out e).erase t)) := by
  have free := h.not_listed run
  have unheld := h.not_held run
  have back : t ∈ out e := (h.woken e t).mpr ⟨at_, free e⟩
  have once : ∀ f, t ∈ out f → f = e := by
    intro f hf
    have same := at_.symm.trans ((h.woken f t).mp hf).1
    cases same
    rfl
  constructor
  case linked =>
    intro f
    rw [next, ev]
    exact h.linked f
  case parked =>
    intro f u hu
    rw [pc, runnable, state]
    have old := h.parked f u hu
    grind [Function.update_apply]
  case woken =>
    intro f u
    rw [pc]
    have old := h.woken f u
    have nd := h.nodup e
    grind [Function.update_apply, List.Nodup.mem_erase_iff]
  case nodup =>
    intro f
    have old := h.nodup f
    grind [Function.update_apply, List.Nodup.erase]
  case held =>
    intro u v hv
    rw [pc] at hv
    rw [runnable, state]
    have hut : u ≠ t := by
      rintro rfl
      rw [Function.update_self] at hv
      exact hv
    rw [Function.update_of_ne hut] at hv
    obtain ⟨⟨f, hf⟩, hrun, hready⟩ := h.held u v hv
    have hvt : v ≠ t := fun eq => unheld u (eq ▸ hv)
    refine ⟨⟨f, ?_⟩, hrun, by rwa [Function.update_of_ne hvt]⟩
    have nd := h.nodup e
    grind [Function.update_apply, List.Nodup.mem_erase_iff]
  case one =>
    intro u u' v hu hu'
    rw [pc] at hu hu'
    have old := h.one u u' v
    grind [Function.update_apply, Pc.Holds]
  case auto =>
    intro f
    rw [ev]
    exact h.auto f
  case tokens =>
    intro f hf
    rw [ev, succeeded, sets]
    have old := h.tokens f hf
    have len := List.length_erase_of_mem back
    have pos := List.length_pos_of_mem back
    grind [Function.update_apply]

/-- A step inside `UnblockThread`: the thread moves on to `p`, and what it held
until then is runnable if it is not held any more. -/
theorem Inv.handOver (h : Inv s₀ s lists out) (run : s.thr.runnable t = true)
    (at_ : (s.pc t).Holds w) {p : Pc T E} (held : ∀ v, p.Holds v → v = w)
    (out_of : ∀ f, p ≠ .waiting f)
    (next : s'.thr.waitNext = s.thr.waitNext)
    (runnable : s'.thr.runnable = s.thr.runnable ∨
      (¬ p.Holds w ∧ s'.thr.runnable = Function.update s.thr.runnable w true))
    (state : s'.thr.state = s.thr.state ∨ s'.thr.state = Function.update s.thr.state w .ready)
    (pc : s'.pc = Function.update s.pc t p) (ev : s'.ev = s.ev)
    (succeeded : s'.succeeded = s.succeeded) (sets : s'.sets = s.sets) :
    Inv s₀ s' lists out := by
  obtain ⟨⟨g, hg⟩, hrun, hready⟩ := h.held t w at_
  have unlisted : ∀ f, w ∉ lists f := fun f hf => h.listed_not_woken hf hg
  have before : ∀ f, s.pc t ≠ .waiting f := fun f eq => by rw [eq] at at_; exact at_
  have same : s'.thr.state = s.thr.state := by
    rcases state with eq | eq
    · exact eq
    · rw [eq, ← hready, Function.update_eq_self]
  have free := h.not_listed run
  constructor
  case linked =>
    intro f
    rw [next, ev]
    exact h.linked f
  case parked =>
    intro f u hu
    rw [pc, same]
    have old := h.parked f u hu
    have huw : u ≠ w := fun eq => unlisted f (eq ▸ hu)
    have hut : u ≠ t := fun eq => free f (eq ▸ hu)
    rw [Function.update_of_ne hut]
    rcases runnable with eq | ⟨-, eq⟩
    · rwa [eq]
    · rwa [eq, Function.update_of_ne huw]
  case woken =>
    intro f u
    rw [pc]
    have old := h.woken f u
    grind [Function.update_apply]
  case nodup => exact h.nodup
  case held =>
    intro u v hv
    rw [pc] at hv
    rw [same]
    by_cases hut : u = t
    · subst hut
      rw [Function.update_self] at hv
      obtain rfl := held v hv
      rcases runnable with eq | ⟨gone, -⟩
      · rw [eq]
        exact h.held u v at_
      · exact absurd hv gone
    · rw [Function.update_of_ne hut] at hv
      have hvw : v ≠ w := fun eq => hut (h.one u t w (eq ▸ hv) at_)
      rcases runnable with eq | ⟨-, eq⟩
      · rw [eq]
        exact h.held u v hv
      · rw [eq, Function.update_of_ne hvw]
        exact h.held u v hv
  case one =>
    intro u u' v hu hu'
    rw [pc] at hu hu'
    have old := h.one u u' v
    have single₁ := h.one u t w
    have single₂ := h.one u' t w
    grind [Function.update_apply]
  case auto =>
    intro f
    rw [ev]
    exact h.auto f
  case tokens =>
    intro f hf
    rw [ev, succeeded, sets]
    exact h.tokens f hf

/-! ## Runs -/

/-- The thread leaves the waiter list of an event. -/
def Released (s s' : System T E) (w : T) : Prop := ∃ e, Waits s e w ∧ ¬ Waits s' e w

/-- Only `EventSet` releases waiters, one at most, and the waiter that is released
is the thread made ready. -/
def OneReleased (s : System T E) (a : T × Op E) : Prop :=
  ∀ s', step s a = some s' →
    (∀ w, Released s s' w → ∃ e, a.2 = .set e) ∧
    (∀ v w, Released s s' v → Released s s' w → v = w) ∧
    ∀ w, Released s s' w ↔ s.thr.state w = .blocked ∧ s'.thr.state w = .ready

theorem Inv.waits_iff (h : Inv s₀ s lists out) (e : E) (w : T) : Waits s e w ↔ w ∈ lists e := by
  constructor
  · rintro ⟨l, hl, hw⟩
    rwa [(h.linked e).unique hl]
  · intro hw
    exact ⟨lists e, h.linked e, hw⟩

/-- What a step does to the lists: nobody leaves and nobody is made ready, or one
thread leaves and is made ready. -/
def Change (s s' : System T E) (op : Op E) (lists lists' : E → List T) : Prop :=
  ((∀ e w, w ∈ lists e → w ∈ lists' e) ∧
    ∀ w, s.thr.state w = .blocked → s'.thr.state w ≠ .ready) ∨
  ∃ e w, op = .set e ∧ w ∈ lists e ∧ (∀ f v, v ∈ lists f → (v ∈ lists' f ↔ v ≠ w)) ∧
    s.thr.state w = .blocked ∧ s'.thr.state = Function.update s.thr.state w .ready

theorem Inv.did (h : Inv s₀ s lists out) {op : Op E} (run : s.thr.runnable t = true)
    (did : Did s t op s') : ∃ lists' out', Inv s₀ s' lists' out' ∧ Change s s' op lists lists' := by
  have still : ∀ w, s.thr.state w = .blocked → s.thr.state w ≠ .ready := fun w hw => by
    rw [hw]
    nofun
  cases did with
  | take e timeout idle sig auto =>
    refine ⟨lists, out, h.recount rfl rfl rfl fun f _ => ?_, Or.inl ⟨fun _ _ => id, still⟩⟩
    show Function.update s.succeeded e (s.succeeded e + 1) f + _ + _ ≤ s.succeeded f + _ + s.sets f
    grind [Function.update_apply]
  | pass e timeout idle sig manual =>
    refine ⟨lists, out, h.recount (e := e) rfl rfl (Function.update_eq_self e s.ev).symm
      fun f hf => ?_, Or.inl ⟨fun _ _ => id, still⟩⟩
    show Function.update s.succeeded e (s.succeeded e + 1) f + _ + _ ≤ s.succeeded f + _ + s.sets f
    grind [Function.update_apply]
  | timeout e => exact ⟨lists, out, h, Or.inl ⟨fun _ _ => id, still⟩⟩
  | park e timeout idle sig =>
    refine ⟨_, _, h.park run idle rfl rfl rfl rfl rfl rfl rfl, Or.inl ⟨fun f w hw => ?_, ?_⟩⟩
    · grind [Function.update_apply]
    · intro w hw
      show Function.update s.thr.state t .blocked w ≠ .ready
      grind [Function.update_apply]
  | wake e w idle first =>
    have hl := h.linked e
    rw [first] at hl
    obtain ⟨rest, hrest, -⟩ := hl.eq_cons
    have hnd := (h.linked e).nodup
    have hw : w ∈ lists e := hrest ▸ List.mem_cons_self ..
    have only : ∀ f, w ∈ lists f → f = e := fun f hf => h.listed_once hf hw
    refine ⟨_, _, h.wake run idle hrest rfl rfl rfl rfl (wakeFirst_ev ..) rfl rfl,
      Or.inr ⟨e, w, rfl, hw, fun f v hv => ?_, (h.parked e w hw).2.2, rfl⟩⟩
    rw [hrest] at hnd
    grind [Function.update_apply]
  | signal e idle empty =>
    refine ⟨lists, out, h.recount rfl rfl rfl fun f _ => ?_, Or.inl ⟨fun _ _ => id, still⟩⟩
    show s.succeeded f + _ + _ ≤
      s.succeeded f + _ + Function.update s.sets e (s.sets e + 1) f
    grind [Function.update_apply, Bool.toNat_le]
  | reset e idle =>
    refine ⟨lists, out, h.recount rfl rfl rfl fun f _ => ?_, Or.inl ⟨fun _ _ => id, still⟩⟩
    show s.succeeded f + _ + _ ≤ s.succeeded f + _ + s.sets f
    grind
  | resume e at_ =>
    refine ⟨_, _, h.resume run at_ rfl rfl rfl rfl rfl rfl rfl, Or.inl ⟨fun _ _ => id, ?_⟩⟩
    intro w hw
    show Function.update s.thr.state t .running w ≠ .ready
    grind [Function.update_apply]
  | gone w at_ =>
    exact ⟨_, _, h.handOver run (w := w) (p := .idle) (by rw [at_]; rfl) nofun nofun rfl
      (Or.inl rfl) (Or.inl rfl) rfl rfl rfl rfl, Or.inl ⟨fun _ _ => id, still⟩⟩
  | check w at_ =>
    exact ⟨_, _, h.handOver run (w := w) (p := .push w) (by rw [at_]; rfl) (fun _ eq => eq.symm)
      nofun rfl (Or.inl rfl) (Or.inl rfl) rfl rfl rfl rfl, Or.inl ⟨fun _ _ => id, still⟩⟩
  | push w at_ =>
    refine ⟨_, _, h.handOver run (w := w) (p := .idle) (by rw [at_]; rfl) nofun nofun rfl
      (Or.inr ⟨nofun, rfl⟩) (Or.inr rfl) rfl rfl rfl rfl, Or.inl ⟨fun _ _ => id, ?_⟩⟩
    intro v hv
    have ready := (h.held t w (by rw [at_]; rfl)).2.2
    show Function.update s.thr.state w .ready v ≠ .ready
    grind [Function.update_apply]

theorem Inv.oneReleased (h : Inv s₀ s lists out) {lists' out' : E → List T}
    (h' : Inv s₀ s' lists' out') {op : Op E} (change : Change s s' op lists lists') :
    (∀ w, Released s s' w → ∃ e, op = .set e) ∧
    (∀ v w, Released s s' v → Released s s' w → v = w) ∧
    ∀ w, Released s s' w ↔ s.thr.state w = .blocked ∧ s'.thr.state w = .ready := by
  have released : ∀ w, Released s s' w ↔ ∃ e, w ∈ lists e ∧ w ∉ lists' e := by
    intro w
    unfold Released
    simp only [h.waits_iff, h'.waits_iff]
  rcases change with ⟨kept, still⟩ | ⟨e, w, hop, hw, gone, blocked, state⟩
  · have nobody : ∀ w, ¬ Released s s' w := by
      intro w hw
      obtain ⟨e, he, hno⟩ := (released w).mp hw
      exact hno (kept e w he)
    refine ⟨fun w hw => absurd hw (nobody w), fun v w hv => absurd hv (nobody v), fun w => ?_⟩
    exact ⟨fun hw => absurd hw (nobody w), fun hw => absurd hw.2 (still w hw.1)⟩
  · have this_one : ∀ v, Released s s' v ↔ v = w := by
      intro v
      rw [released]
      constructor
      · rintro ⟨f, hf, hno⟩
        by_contra hne
        exact hno ((gone f v hf).mpr hne)
      · rintro rfl
        exact ⟨e, hw, fun hin => (gone e v hw).mp hin rfl⟩
    refine ⟨fun v _ => ⟨e, hop⟩, fun u v hu hv => ?_, fun v => ?_⟩
    · rw [(this_one u).mp hu, (this_one v).mp hv]
    · rw [this_one, state]
      grind [Function.update_apply]

/-- No more waits have succeeded than there were tokens. -/
def Conserved (s₀ s : System T E) : Prop :=
  ∀ e, (s₀.ev e).autoReset = true →
    s.succeeded e ≤ (s₀.ev e).signaled.toNat + s.sets e

/-- **An auto-reset event passes on no more than it was given**, in every
interleaving of any number of threads, and a call of `EventSet` makes ready
exactly the waiter it takes off the list. -/
theorem auto_reset_conserved (s : System T E) (start : Start s) (es : List (T × Op E)) :
    Always step (Conserved s) s es ∧ Along step OneReleased s es := by
  have keep : ∀ u (a : T × Op E) v, (∃ lists out, Inv s u lists out) → True →
      step u a = some v → ∃ lists out, Inv s v lists out := by
    rintro u ⟨t, op⟩ v ⟨lists, out, h⟩ - hs
    obtain ⟨run, did⟩ := step_did hs
    obtain ⟨lists', out', h', -⟩ := h.did run did
    exact ⟨lists', out', h'⟩
  have first : ∃ lists out, Inv s s lists out := ⟨_, _, start.inv⟩
  have free : Along step (fun (_ : System T E) (_ : T × Op E) => True) s es :=
    along_of_forall (fun _ _ => trivial) s es
  constructor
  · refine (always_invariant keep first free).mono ?_
    rintro u ⟨lists, out, h⟩ e auto
    have tokens := h.tokens e auto
    omega
  · refine along_invariant keep ?_ first free
    rintro u ⟨t, op⟩ ⟨lists, out, h⟩ - v hs
    obtain ⟨run, did⟩ := step_did hs
    obtain ⟨lists', out', h', change⟩ := h.did run did
    exact h.oneReleased h' change

/-- Two threads wait on an auto-reset event and one signal comes. -/
theorem auto_reset_conserved_two :
    let s : System (Fin 3) Unit := { threeThreads with ev := fun _ => ⟨false, true, none⟩ }
    Always step (Conserved s) s [(0, .wait () 1), (1, .wait () 1), (2, .set ()), (2, .proceed)] ∧
      Along step OneReleased s
        [(0, .wait () 1), (1, .wait () 1), (2, .set ()), (2, .proceed)] :=
  auto_reset_conserved _ ⟨fun _ => rfl, fun _ => rfl, fun _ => rfl, fun _ => rfl⟩ _

end MicroNT.Sync.Event
