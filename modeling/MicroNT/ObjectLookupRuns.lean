import MicroNT.ObjectLookups

/-! # Runs with lookups (`object_manager.cpp`)

Every statement of a call keeps the counts and what its thread knows, under the condition;
without it a thread gets a reference to a dead object. -/

set_option linter.unusedSectionVars false

namespace MicroNT.OB.Calls

open Base.Machine Base.Tally

section

variable {T : Type} [Fintype T] [DecidableEq T] {sys sys' : System T} {t u : T} {x y : Pc}
  {o : Nat} {i : Fin OB_HANDLE_TABLE_SIZE}

/-! ## Counting down -/

/-- `--RefCount` leaves an object whose name is being looked up with a reference. -/
theorem Inv.drefDec (inv : Inv sys) (at_ : sys.pc t = .drefDec o) (calm : Calm sys (.drefDec o))
    (target : x = if ((sys.state.headers o).refCount - 1).sle 0 then .drefName o else .idle)
    (pc : sys'.pc = Function.update sys.pc t x) (held : sys'.held = sys.held)
    (owner : sys'.owner = sys.owner)
    (state : sys'.state = sys.state.setHeader o
      { sys.state.headers o with refCount := (sys.state.headers o).refCount - 1 }) :
    Inv sys' := by
  have pos : 0 < refs sys o := refs_of_holds (t := t) (by rw [at_]; exact rfl)
  have few := inv.few o
  have count := inv.sound.refCount o
  have dec : (sys.state.headers o).refCount - 1 = BitVec.ofNat 32 (refs sys o - 1) := by
    rw [count, ofNat_pred pos]
  have leaves : x = .drefName o ∧ refs sys o - 1 = 0 ∨ x = .idle := by
    rw [target]
    split
    case isTrue sle =>
      rw [dec] at sle
      exact .inl ⟨rfl, (ofNat_sle_zero (Nat.lt_of_le_of_lt (Nat.sub_le _ _) few)).mp sle⟩
    case isFalse => exact .inr rfl
  have after : ¬ x.Inserting ∧ ∀ a, ¬ x.holds a := by
    obtain ⟨rfl, -⟩ | rfl := leaves <;> exact ⟨id, fun _ => id⟩
  have less : refs sys' = Function.update (refs sys) o (refs sys o - 1) := by
    refine Function.eq_update_iff.mpr ⟨?_, fun a other => ?_⟩
    all_goals
      unfold refs
      rw [held, owner, pc]
    · have moved := refs_goto sys t x o
      rw [at_, if_neg (after.2 o), if_pos (show Pc.holds o (.drefDec o) from rfl)] at moved
      exact Nat.eq_sub_of_add_eq moved
    · have moved := refs_goto sys t x a
      have not : ¬ Pc.holds a (.drefDec o) := Ne.symm other
      rwa [at_, if_neg (after.2 a), if_neg not] at moved
  have lower : ∀ a, a ≠ o → refs sys' a = refs sys a := fun a other => by
    rw [less, Function.update_of_ne other]
  have here : refs sys' o = refs sys o - 1 := by rw [less, Function.update_self]
  refine inv.move pc ?_ (fun a => ?_) (fun i => by rw [state]; rfl) owner (by rw [state]; exact le_rfl)
    (fun a none _ => ?_) (fun u a _ naming => ?_) at_ id after.1 ?_
  · rw [less, state]
    exact inv.sound.setHeader pos rfl dec
  · by_cases e : a = o
    · rw [e, here]
      exact Nat.lt_of_le_of_lt (Nat.sub_le _ _) few
    · rw [lower a e]
      exact inv.few a
  · rw [lower a fun e => Nat.ne_of_gt pos (e ▸ none), none]
  · by_cases e : a = o
    · subst e
      have more : refs sys a ≠ 1 := fun one => calm (by rw [count, one]; rfl) u naming
      rw [here]
      omega
    · rw [lower a e]
      exact (inv.at_ u).named naming
  · obtain ⟨rfl, none⟩ | rfl := leaves
    · refine ⟨here.trans none, ?_⟩
      rw [state]
      exact inv.sound.old pos
    · trivial

/-! ## Handles -/

/-- An entry is filled, and its reference not yet counted. -/
theorem Inv.insAlloc {access : u32} {s : State} (inv : Inv sys) (at_ : sys.pc t = .insAlloc o access)
    (got : alloc sys.state o access = some (s, i)) (unused : ∀ u, ¬ (sys.pc u).Looked i)
    (pc : sys'.pc = Function.update sys.pc t (.insCount o i)) (held : sys'.held = sys.held)
    (owner : sys'.owner = sys.owner) (state : sys'.state = s) : Inv sys' := by
  obtain ⟨free, rfl⟩ := alloc_spec got
  have unowned : sys.owner i = none := Option.eq_none_iff_forall_ne_some.mpr fun a own =>
    Option.some_ne_none a ((inv.owner i a own).symm.trans free)
  have uncounted : ∀ u a j, sys.pc u = .insCount a j → j ≠ i := fun u a j hu e => by
    have known := inv.at_ u
    rw [hu, e] at known
    exact Option.some_ne_none a (known.1.symm.trans free)
  have same : refs sys' = refs sys := funext fun a => by
    have moved : refs (sys.goto t (.insCount o i)) a = refs sys a :=
      refs_goto_same sys (x := .insCount o i) at_ (fun _ => Iff.rfl) a
    rw [← moved]
    unfold refs
    rw [held, owner, pc]
    rfl
  have self : sys'.pc t = .insCount o i := by rw [pc, Function.update_self]
  have other : ∀ u, u ≠ t → sys'.pc u = sys.pc u := fun u e => by
    rw [pc, Function.update_of_ne e]
  have filled : (sys'.state.ktable i).object = some o := by
    rw [state]
    dsimp only
    rw [Function.update_self]
  have rest : ∀ j, j ≠ i → (sys'.state.ktable j).object = (sys.state.ktable j).object := fun j e => by
    rw [state]
    dsimp only
    rw [Function.update_of_ne e]
  refine ⟨?_, fun a => ?_, fun j a own => ?_, fun j a object => ?_, fun u v a b j hu hv => ?_,
    fun u => ?_⟩
  · rw [same, state]
    exact inv.sound.tables _ sys.state.ns
  · rw [same]
    exact inv.few a
  · rw [owner] at own
    have e : j ≠ i := fun e => Option.some_ne_none a (own.symm.trans (e ▸ unowned))
    rw [rest j e]
    exact inv.owner j a own
  · by_cases e : j = i
    · subst e
      cases filled.symm.trans object
      exact .inr ⟨t, self⟩
    · rw [owner]
      refine (inv.entry j a ((rest j e).symm.trans object)).imp_right fun h => ?_
      obtain ⟨u, hu⟩ := h
      have away : u ≠ t := fun e => Pc.noConfusion (hu.symm.trans (e ▸ at_))
      exact ⟨u, (other u away).trans hu⟩
  · by_cases eu : u = t
    · by_cases ev : v = t
      · rw [eu, ev]
      · rw [eu, self] at hu
        cases hu
        exact absurd rfl (uncounted v b i ((other v ev).symm.trans hv))
    · have hu := (other u eu).symm.trans hu
      by_cases ev : v = t
      · rw [ev, self] at hv
        cases hv
        exact absurd rfl (uncounted u a i hu)
      · exact inv.single u v a b j hu ((other v ev).symm.trans hv)
  · by_cases e : u = t
    · rw [e, self]
      exact ⟨filled, by rw [owner, unowned]⟩
    · rw [other u e]
      refine (inv.at_ u).frame (fun a none _ => by rw [same, none]) (by rw [state])
        (fun a naming => ?_) (fun j looked => .inl (rest j fun e => unused u (e ▸ looked)))
        fun a j hu => ⟨rest j (uncounted u a j hu), by rw [owner]⟩
      rw [same]
      exact (inv.at_ u).named naming

/-- The handle's reference is counted, and the caller has its own back. -/
theorem Inv.insCount (inv : Inv sys) (at_ : sys.pc t = .insCount o i) (calm : Calm sys (.insCount o i))
    (pc : sys'.pc = Function.update sys.pc t .idle)
    (held : sys'.held = Function.update sys.held o (sys.held o + 1))
    (owner : sys'.owner = Function.update sys.owner i (some o))
    (state : sys'.state = sys.state.setHeader o { sys.state.headers o with
      handleCount := (sys.state.headers o).handleCount + 1
      refCount := (sys.state.headers o).refCount + 1 }) : Inv sys' := by
  have pos : 0 < refs sys o := refs_of_holds (t := t) (by rw [at_]; exact rfl)
  have known := inv.at_ t
  rw [at_] at known
  have more : refs sys' = Function.update (refs sys) o (refs sys o + 1) := by
    have moved : ∀ a, refs sys' a + (if o = a then 1 else 0) =
        refs sys a + (if a = o then 1 else 0) + if some o = some a then 1 else 0 := fun a => by
      have out := refs_goto ((sys.own i (some o)).give o 1) t .idle a
      have own := refs_own sys i (some o) a
      rw [if_neg (fun e => Option.some_ne_none a (e.symm.trans known.2))] at own
      rw [refs_give, if_neg (show ¬ Pc.holds a .idle from id)] at out
      have same : refs sys' a = refs (((sys.own i (some o)).give o 1).goto t .idle) a := by
        unfold refs
        rw [held, owner, pc]
        rfl
      have at_' : (((sys.own i (some o)).give o 1).pc t).holds a ↔ o = a := by
        show (sys.pc t).holds a ↔ _
        rw [at_]
        exact Iff.rfl
      rw [if_congr at_' rfl rfl] at out
      rw [same]
      omega
    refine Function.eq_update_iff.mpr ⟨?_, fun a other => ?_⟩
    · have moved := moved o
      simp only [if_true] at moved
      omega
    · have moved := moved a
      rwa [if_neg (Ne.symm other), if_neg other, if_neg fun e => other (Option.some.inj e).symm]
        at moved
  have table : ∀ j, (sys'.state.ktable j).object = (sys.state.ktable j).object := fun j => by
    rw [state]
    rfl
  have other : ∀ u, u ≠ t → sys'.pc u = sys.pc u := fun u e => by
    rw [pc, Function.update_of_ne e]
  have inserting : ∀ u a j, sys'.pc u = .insCount a j → u ≠ t ∧ sys.pc u = .insCount a j :=
    fun u a j hu => by
      have e : u ≠ t := fun e => by
        rw [e, pc, Function.update_self] at hu
        cases hu
      exact ⟨e, (other u e).symm.trans hu⟩
  refine ⟨?_, fun a => ?_, fun j a own => ?_, fun j a object => ?_, fun u v a b j hu hv => ?_,
    fun u => ?_⟩
  · rw [more, state]
    refine inv.sound.setHeader pos rfl ?_
    dsimp only
    rw [inv.sound.refCount o, ofNat_succ]
  · rw [more]
    by_cases e : a = o
    · rw [e, Function.update_self]
      exact inv.below calm
    · rw [Function.update_of_ne e]
      exact inv.few a
  · rw [table]
    rw [owner] at own
    by_cases e : j = i
    · subst e
      rw [Function.update_self] at own
      cases own
      exact known.1
    · rw [Function.update_of_ne e] at own
      exact inv.owner j a own
  · rw [owner]
    have object := (table j).symm.trans object
    by_cases e : j = i
    · subst e
      rw [Function.update_self]
      exact .inl (known.1.symm.trans object)
    · rw [Function.update_of_ne e]
      refine (inv.entry j a object).imp_right fun h => ?_
      obtain ⟨u, hu⟩ := h
      have away : u ≠ t := fun eq => by
        rw [eq, at_] at hu
        cases hu
        exact e rfl
      exact ⟨u, (other u away).trans hu⟩
  · exact inv.single u v a b j (inserting u a j hu).2 (inserting v b j hv).2
  · by_cases e : u = t
    · rw [e, pc, Function.update_self]
      trivial
    · rw [other u e]
      refine (inv.at_ u).frame (fun a none _ => ?_) (by rw [state]; exact le_rfl) (fun a naming => ?_)
        (fun j _ => .inl (table j)) fun a j hu => ⟨table j, ?_⟩
      · have away : a ≠ o := fun e => Nat.ne_of_gt pos (e ▸ none)
        rw [more, Function.update_of_ne away, none]
      · rw [more]
        by_cases e : a = o
        · rw [e, Function.update_self]
          exact Nat.succ_pos _
        · rw [Function.update_of_ne e]
          exact (inv.at_ u).named naming
      · rw [owner, Function.update_of_ne]
        intro eq
        exact e (inv.single u t a o i (eq ▸ hu) at_)

/-- The closing call gets the reference of the handle. -/
theorem Inv.closeFree {found : Nat} (inv : Inv sys) (at_ : sys.pc t = .closeFree i found (some found))
    (entry : (sys.state.ktable i).object = some found) (unused : ∀ u, ¬ (sys.pc u).Using i)
    (pc : sys'.pc = Function.update sys.pc t (.closeCheck found)) (held : sys'.held = sys.held)
    (owner : sys'.owner = Function.update sys.owner i none)
    (state : sys'.state = freeEntry sys.state i) : Inv sys' := by
  have own : sys.owner i = some found := by
    obtain own | ⟨u, hu⟩ := inv.entry i found entry
    · exact own
    · exact absurd (hu ▸ rfl) (unused u)
  have same : refs sys' = refs sys := funext fun a => by
    have out := refs_goto (sys.own i none) t (.closeCheck found) a
    have own' := refs_own sys i none a
    have at_' : ¬ ((sys.own i none).pc t).holds a := by
      show ¬ (sys.pc t).holds a
      rw [at_]
      exact id
    have here : (Pc.closeCheck found).holds a ↔ found = a := Iff.rfl
    have owned : some found = some a ↔ found = a := Option.some_inj
    rw [if_neg at_', if_congr here rfl rfl] at out
    rw [own, if_neg (Option.some_ne_none a).symm, if_congr owned rfl rfl] at own'
    have eq : refs sys' a = refs ((sys.own i none).goto t (.closeCheck found)) a := by
      unfold refs
      rw [held, owner, pc]
      rfl
    rw [eq]
    omega
  have self : sys'.pc t = .closeCheck found := by rw [pc, Function.update_self]
  have other : ∀ u, u ≠ t → sys'.pc u = sys.pc u := fun u e => by
    rw [pc, Function.update_of_ne e]
  have emptied : (sys'.state.ktable i).object = none := by
    rw [state, freeEntry]
    dsimp only
    rw [Function.update_self]
  have rest : ∀ j, j ≠ i → (sys'.state.ktable j).object = (sys.state.ktable j).object := fun j e => by
    rw [state, freeEntry]
    dsimp only
    rw [Function.update_of_ne e]
  have inserting : ∀ u a j, sys'.pc u = .insCount a j → sys.pc u = .insCount a j :=
    fun u a j hu => by
      have e : u ≠ t := fun e => Pc.noConfusion (self.symm.trans (e ▸ hu))
      exact (other u e).symm.trans hu
  refine ⟨?_, fun a => ?_, fun j a own => ?_, fun j a object => ?_, fun u v a b j hu hv => ?_,
    fun u => ?_⟩
  · rw [same, state]
    exact inv.sound.tables _ sys.state.ns
  · rw [same]
    exact inv.few a
  · rw [owner] at own
    have e : j ≠ i := fun e => by
      rw [e, Function.update_self] at own
      cases own
    rw [Function.update_of_ne e] at own
    rw [rest j e]
    exact inv.owner j a own
  · have e : j ≠ i := fun e => Option.some_ne_none a (object.symm.trans (e ▸ emptied))
    rw [owner, Function.update_of_ne e]
    refine (inv.entry j a ((rest j e).symm.trans object)).imp_right fun h => ?_
    obtain ⟨u, hu⟩ := h
    have away : u ≠ t := fun e => Pc.noConfusion (hu.symm.trans (e ▸ at_))
    exact ⟨u, (other u away).trans hu⟩
  · exact inv.single u v a b j (inserting u a j hu) (inserting v b j hv)
  · by_cases e : u = t
    · rw [e, self]
      trivial
    · rw [other u e]
      refine (inv.at_ u).frame (fun a none _ => by rw [same, none]) (by rw [state]; exact le_rfl)
        (fun a naming => ?_) (fun j _ => ?_) fun a j hu => ?_
      · rw [same]
        exact (inv.at_ u).named naming
      · by_cases e : j = i
        · rw [e]
          exact .inr ⟨emptied, unused u⟩
        · exact .inl (rest j e)
      · have e : j ≠ i := fun e => unused u (hu ▸ e)
        rw [owner, Function.update_of_ne e]
        exact ⟨rest j e, rfl⟩

/-! ## Steps -/

/-- A new object has the reference that its caller gets. -/
theorem Inv.allocate (inv : Inv sys) (at_ : sys.pc t = .idle) (type : Option ObType)
    (name : Option (List u8)) (pc : sys'.pc = Function.update sys.pc t x)
    (state : sys'.state = (newObject sys.state type name true).1) (owner : sys'.owner = sys.owner)
    (new : ∀ o, refs sys' o = refs sys o + if o = sys.state.count then 1 else 0)
    (after : ¬ x.Inserting) (here : At sys' x) : Inv sys' := by
  have fresh : refs sys sys.state.count = 0 := (inv.sound.fresh _ le_rfl).1
  have eq : refs sys' = Function.update (refs sys) sys.state.count 1 := by
    refine Function.eq_update_iff.mpr ⟨?_, fun a other => ?_⟩
    · rw [new, fresh, if_pos rfl]
    · rw [new, if_neg other, Nat.add_zero]
  refine inv.move pc ?_ (fun a => ?_) (fun i => by rw [state]; rfl) owner
    (by rw [state]; exact Nat.le_succ _) (fun a none old => ?_) (fun u a _ naming => ?_)
    at_ id after here
  · rw [eq, state]
    exact inv.sound.newObject type name
  · rw [new]
    split
    case isTrue e =>
      rw [e, fresh]
      decide
    case isFalse => exact inv.few a
  · rw [new, if_neg (Nat.ne_of_lt old), none]
  · rw [new]
    exact Nat.lt_of_lt_of_le ((inv.at_ u).named naming) (Nat.le_add_right _ _)

/-- A call ends; it had one reference, and its caller gets `n` more. -/
theorem refs_out (sys : System T) (at_ : sys.pc t = y) (holds : ∀ a, y.holds a ↔ o = a) (n a : Nat) :
    refs ((sys.give o (n + 1)).goto t .idle) a = refs sys a + if a = o then n else 0 := by
  have out := refs_goto (sys.give o (n + 1)) t .idle a
  have here : ((sys.give o (n + 1)).pc t).holds a ↔ a = o := by
    show (sys.pc t).holds a ↔ _
    rw [at_, holds, eq_comm]
  rw [refs_give, if_congr here rfl rfl, if_neg (show ¬ Pc.holds a .idle from id)] at out
  by_cases e : a = o
  · rw [if_pos e, if_pos e] at out
    rw [if_pos e]
    omega
  · rw [if_neg e, if_neg e] at out
    rw [if_neg e]
    exact out

/-- A call takes a reference. -/
theorem refs_take (sys : System T) (at_ : sys.pc t = y) (none : ∀ a, ¬ y.holds a)
    (holds : ∀ a, x.holds a ↔ o = a) (a : Nat) : refs (sys.goto t x) a = refs sys a + if a = o then 1 else 0 := by
  have moved := refs_goto sys t x a
  rwa [at_, if_neg (none a), if_congr ((holds a).trans eq_comm) rfl rfl] at moved

theorem Inv.out {s : State} (inv : Inv sys) (at_ : sys.pc t = y) (holds : ∀ a, y.holds a ↔ o = a)
    (before : ¬ y.Inserting) (sound : Sound s (refs sys))
    (table : ∀ i, (s.ktable i).object = (sys.state.ktable i).object)
    (count : sys.state.count ≤ s.count) : Inv (((sys.with s).give o 1).goto t .idle) :=
  inv.same rfl (fun a => (refs_out (sys.with s) at_ holds 0 a).trans
    (congrArg (refs sys a + ·) (ite_self 0))) sound table rfl count at_ before id trivial

theorem Inv.proceed (inv : Inv sys) (calm : Calm sys (sys.pc t)) (h : proceed sys t = some sys') :
    Inv sys' := by
  have known := inv.at_ t
  have live : ∀ y o, sys.pc t = y → y.holds o → sys.state.Live o := fun y o e holds =>
    inv.holder (e ▸ holds)
  have pos : ∀ y o, sys.pc t = y → y.holds o → 0 < refs sys o := fun y o e holds =>
    refs_of_holds (e ▸ holds)
  unfold Calls.proceed at h
  cases at_ : sys.pc t
  all_goals
    rw [at_] at h calm known
    dsimp only at h
  case idle => cases h
  case refCheck o =>
    rw [if_pos (live _ o at_ rfl)] at h
    obtain rfl := Option.some.inj h
    exact inv.goto at_ (fun _ => Iff.rfl) id id trivial
  case refInc o =>
    obtain rfl := Option.some.inj h
    have some := pos _ o at_ rfl
    exact inv.bump rfl (refs_out (sys.with (increment sys.state o)) at_ (fun _ => Iff.rfl) 1)
      (inv.sound.increment some) calm some (fun _ => rfl) rfl le_rfl at_ id id trivial
  case drefCheck o =>
    rw [if_pos (live _ o at_ rfl)] at h
    obtain rfl := Option.some.inj h
    exact inv.goto at_ (fun _ => Iff.rfl) id id trivial
  case drefDec o =>
    obtain rfl := Option.some.inj h
    exact inv.drefDec at_ calm rfl rfl rfl rfl rfl
  case drefName o =>
    split at h
    case isTrue =>
      obtain ⟨-, ⟨⟩⟩ := Option.ite_none_right_eq_some.mp h
      rw [removeObjectByName_eq]
      exact inv.with at_ (fun _ => Iff.rfl) id id known (inv.sound.tables sys.state.ktable _)
        (fun _ => rfl) le_rfl
    case isFalse =>
      obtain rfl := Option.some.inj h
      exact inv.goto at_ (fun _ => Iff.rfl) id id known
  case drefClose o =>
    obtain rfl := Option.some.inj h
    split
    case isTrue =>
      exact inv.with at_ (fun _ => Iff.rfl) id id known (inv.sound.close known.1 known.2 _)
        (fun _ => rfl) le_rfl
    case isFalse => exact inv.goto at_ (fun _ => Iff.rfl) id id known
  case drefWipe o =>
    obtain rfl := Option.some.inj h
    exact inv.with at_ (fun _ => Iff.rfl) id id trivial (inv.sound.wipe known.1) (fun _ => rfl) le_rfl
  case insCheck o access =>
    rw [if_pos (live _ o at_ rfl)] at h
    obtain rfl := Option.some.inj h
    exact inv.goto at_ (fun _ => Iff.rfl) id id trivial
  case insAlloc o access =>
    split at h
    case h_1 =>
      obtain rfl := Option.some.inj h
      exact inv.out at_ (fun _ => Iff.rfl) id inv.sound (fun _ => rfl) le_rfl
    case h_2 s i got =>
      obtain rfl := Option.some.inj h
      exact inv.insAlloc at_ got (calm _ got) rfl rfl rfl rfl
  case insCount o i =>
    obtain rfl := Option.some.inj h
    exact inv.insCount at_ calm rfl rfl rfl rfl
  case closeRead i found =>
    obtain rfl := Option.some.inj h
    exact inv.goto at_ (fun _ => Iff.rfl) id id (known.imp_right fun e => ⟨e, e⟩)
  case closeFree i found object =>
    split at h
    case isTrue =>
      obtain rfl := Option.some.inj h
      exact inv.goto at_ (fun _ => Iff.rfl) id id trivial
    case isFalse used =>
      obtain ⟨entry, rfl⟩ := known.resolve_left used
      obtain rfl := Option.some.inj h
      exact inv.closeFree at_ entry (calm used) rfl rfl rfl rfl
  case closeCheck o =>
    rw [if_pos (live _ o at_ rfl)] at h
    obtain rfl := Option.some.inj h
    exact inv.goto at_ (fun _ => Iff.rfl) id id trivial
  case closeCount o =>
    obtain rfl := Option.some.inj h
    exact inv.with at_ (fun _ => Iff.rfl) id id trivial (inv.sound.handleCount (pos _ o at_ rfl) _)
      (fun _ => rfl) le_rfl
  case byHandleRead i found expected =>
    split at h
    case h_1 =>
      obtain rfl := Option.some.inj h
      exact inv.goto at_ (fun _ => Iff.rfl) id id trivial
    case h_2 o object =>
      have entry := known.resolve_left fun none => Option.some_ne_none o (object.symm.trans none)
      obtain rfl := Option.some.inj h
      split
      case isTrue => exact inv.goto at_ (fun _ => Iff.rfl) id id entry
      case isFalse => exact inv.goto at_ (fun _ => Iff.rfl) id id trivial
  case byHandleArg i found =>
    obtain rfl := Option.some.inj h
    exact inv.goto at_ (fun _ => Iff.rfl) id id ⟨known, known⟩
  case byHandleCheck i found object =>
    obtain ⟨entry, rfl⟩ := known
    dsimp only at h
    rw [if_pos (inv.live (inv.opened entry))] at h
    obtain rfl := Option.some.inj h
    exact inv.goto at_ (fun _ => Iff.rfl) id id ⟨entry, rfl⟩
  case byHandleInc i found o =>
    obtain ⟨entry, rfl⟩ := known
    obtain rfl := Option.some.inj h
    have counted := inv.opened entry
    have taken := refs_take (sys.with (increment sys.state o)) (x := .byHandleOut i o (some o))
      at_ (fun _ => id) fun _ => Option.some_inj
    exact inv.bump rfl taken (inv.sound.increment counted) calm counted (fun _ => rfl) rfl le_rfl at_ id id
      ⟨entry, rfl⟩
  case byHandleOut i found counted =>
    obtain ⟨entry, rfl⟩ := known
    rw [entry] at h
    obtain rfl := Option.some.inj h
    exact inv.out at_ (fun _ => Option.some_inj) id inv.sound (fun _ => rfl) le_rfl
  case nameLock path expected =>
    obtain ⟨-, ⟨⟩⟩ := Option.ite_none_right_eq_some.mp h
    exact (inv.lock (some t)).goto at_ (fun _ => Iff.rfl) id id trivial
  case nameScan path expected i =>
    split at h
    case isTrue bound =>
      split at h
      case h_1 =>
        obtain rfl := Option.some.inj h
        exact inv.goto at_ (fun _ => Iff.rfl) id id trivial
      case h_2 o object =>
        split at h
        case isTrue =>
          obtain rfl := Option.some.inj h
          exact inv.goto at_ (fun _ => Iff.rfl) id id trivial
        case isFalse found =>
          split at h
          case isTrue =>
            obtain rfl := Option.some.inj h
            exact (inv.lock none).goto at_ (fun _ => Iff.rfl) id id trivial
          case isFalse fits =>
            obtain ⟨path, live⟩ := not_or.mp found
            obtain rfl := Option.some.inj h
            have counted := calm bound o object (Bool.of_not_eq_false path) (not_not.mp live)
              (Bool.eq_false_of_not_eq_true fits)
            refine inv.goto at_ (fun _ => Iff.rfl) id id (Nat.pos_of_ne_zero fun none => ?_)
            exact counted (by rw [inv.sound.refCount o, none]; rfl)
    case isFalse =>
      obtain rfl := Option.some.inj h
      exact (inv.lock none).goto at_ (fun _ => Iff.rfl) id id trivial
  case nameCheck o =>
    rw [if_pos (inv.live known)] at h
    obtain rfl := Option.some.inj h
    exact inv.goto at_ (fun _ => Iff.rfl) id id known
  case nameInc o =>
    obtain rfl := Option.some.inj h
    have taken := refs_take (sys.with (increment sys.state o)) (x := .nameOut o true)
      at_ (fun _ => id) fun a => and_iff_left rfl
    exact inv.bump rfl taken (inv.sound.increment known) calm known (fun _ => rfl) rfl le_rfl at_ id
      id rfl
  case nameOut o counted =>
    obtain rfl : counted = true := known
    obtain rfl := Option.some.inj h
    exact (inv.out at_ (fun a => and_iff_left rfl) id inv.sound (fun _ => rfl) le_rfl).lock none
  case newInsert o path =>
    obtain ⟨-, ⟨⟩⟩ := Option.ite_none_right_eq_some.mp h
    obtain ⟨ns, e⟩ := insertObjectByName_state sys.state (some o) (some path)
    rw [e]
    exact inv.out at_ (fun _ => Iff.rfl) id (inv.sound.tables sys.state.ktable ns) (fun _ => rfl) le_rfl

/-- A call up to its first statement. -/
theorem Inv.call {c : Call} (inv : Inv sys) (at_ : sys.pc t = .idle)
    (h : call sys t c = some sys') : Inv sys' := by
  have start : ∀ {o x}, 0 < sys.held o → (∀ a, x.holds a ↔ o = a) → ¬ x.Inserting →
      (∀ sys', At sys' x) → Inv ((sys.pass o).goto t x) := fun {o x} some holds after here => by
    have passed := fun a => refs_pass some a
    have same : ∀ a, refs ((sys.pass o).goto t x) a = refs sys a := fun a =>
      (refs_take (sys.pass o) at_ (fun _ => id) holds a).trans (passed a)
    exact inv.same rfl same inv.sound (fun _ => rfl) rfl le_rfl at_ id after (here sys)
  have unmoved : ∀ type name, ((sys.with (newObject sys.state type name true).1).give
      sys.state.count 1).pc = Function.update sys.pc t .idle := fun type name =>
    (at_ ▸ Function.update_eq_self t sys.pc).symm
  cases c with
  | allocateObject type path granted =>
    cases granted with
    | false =>
      cases h
      exact inv
    | true =>
      obtain rfl := Option.some.inj h
      split
      case isTrue =>
        exact inv.allocate at_ (some type) path rfl rfl rfl
          (refs_take (sys.with (newObject sys.state (some type) path true).1) at_
            (fun _ => id) fun _ => Iff.rfl) id trivial
      case isFalse =>
        exact inv.allocate at_ (some type) path (unmoved (some type) path) rfl rfl
          (refs_give (sys.with (newObject sys.state (some type) path true).1) _ 1) id trivial
  | allocateObjectRaw name granted =>
    cases granted with
    | false =>
      cases h
      exact inv
    | true =>
      cases h
      exact inv.allocate at_ none name (unmoved none name) rfl rfl
        (refs_give (sys.with (newObject sys.state none name true).1) _ 1) id trivial
  | referenceObject o =>
    obtain ⟨some, ⟨⟩⟩ := Option.ite_none_right_eq_some.mp h
    exact start some (fun _ => Iff.rfl) id fun _ => trivial
  | dereferenceObject o =>
    obtain ⟨some, ⟨⟩⟩ := Option.ite_none_right_eq_some.mp h
    exact start some (fun _ => Iff.rfl) id fun _ => trivial
  | insertObject o access =>
    obtain ⟨some, ⟨⟩⟩ := Option.ite_none_right_eq_some.mp h
    exact start some (fun _ => Iff.rfl) id fun _ => trivial
  | closeHandle handle =>
    unfold Calls.call at h
    dsimp only at h
    split at h
    case h_1 =>
      cases h
      exact inv
    case h_2 i o found =>
      cases h
      exact inv.goto at_ (fun _ => Iff.rfl) id id (.inr (lookup_open found))
  | referenceObjectByHandle handle expected =>
    unfold Calls.call at h
    dsimp only at h
    split at h
    case h_1 =>
      cases h
      exact inv
    case h_2 i o found =>
      cases h
      exact inv.goto at_ (fun _ => Iff.rfl) id id (.inr (lookup_open found))
  | lookupObjectByName path expected =>
    cases h
    exact inv.goto at_ (fun _ => Iff.rfl) id id trivial

theorem Inv.step {e : T × Op} (inv : Inv sys) (calm : Apart sys e) (h : step sys e = some sys') :
    Inv sys' := by
  obtain ⟨t, op⟩ := e
  cases op with
  | go => exact inv.proceed calm h
  | call c =>
    obtain ⟨at_, h⟩ := Option.ite_none_right_eq_some.mp h
    exact inv.call at_ h

theorem Inv.init : Inv (System.init : System T) := by
  have none : ∀ o, refs (System.init : System T) o = 0 := fun o => by
    have owners : tally Finset.univ (fun a => a = some o) (System.init : System T).owner = 0 :=
      tally_eq_zero.mpr fun i _ => (Option.some_ne_none o).symm
    have calls : tally Finset.univ (fun x : Pc => x.holds o) (System.init : System T).pc = 0 :=
      tally_eq_zero.mpr fun t _ => id
    unfold refs
    rw [owners, calls]
    rfl
  refine ⟨⟨fun o => ?_, fun o some => ?_, fun o _ => ⟨none o, rfl⟩⟩, fun o => ?_, fun i o own => ?_,
    fun i o object => ?_, fun t u a o i at_ _ => ?_, fun t => trivial⟩
  · rw [none]
    rfl
  · exact absurd (none o) (Nat.ne_of_gt some)
  · rw [none]
    decide
  · cases own
  · cases object
  · cases at_

/-- **Lookups are safe** along every run whose steps are apart: what callers got a
reference to is alive and was not closed, and no call reads another object from the entry
of the handle it looked up. -/
theorem lookups_safe (ops : List (T × Op)) (apart : Along step Apart System.init ops) :
    Always step Safe System.init ops :=
  (always_invariant (fun _ _ _ inv calm h => inv.step calm h) Inv.init apart).mono fun _ => Inv.safe

end

/-! ## Two threads -/

section

variable {T : Type} [Fintype T] [DecidableEq T]

def decForallSome {α : Type} (x : Option α) (P : α → Prop) [∀ a, Decidable (P a)] :
    Decidable (∀ a, x = some a → P a) :=
  match x with
  | none => isTrue fun _ e => by cases e
  | some a => decidable_of_iff (P a) ⟨fun h _ e => Option.some.inj e ▸ h, fun h => h a rfl⟩

instance (o : Nat) : (x : Pc) → Decidable (x.Naming o)
  | .nameCheck a | .nameInc a => inferInstanceAs (Decidable (a = o))
  | .idle | .refCheck _ | .refInc _ | .drefCheck _ | .drefDec _ | .drefName _ | .drefClose _
  | .drefWipe _ | .insCheck _ _ | .insAlloc _ _ | .insCount _ _ | .closeRead _ _
  | .closeFree _ _ _ | .closeCheck _ | .closeCount _ | .byHandleRead _ _ _ | .byHandleArg _ _
  | .byHandleCheck _ _ _ | .byHandleInc _ _ _ | .byHandleOut _ _ _ | .nameLock _ _
  | .nameScan _ _ _ | .nameOut _ _ | .newInsert _ _ => inferInstanceAs (Decidable False)

instance (i : Fin OB_HANDLE_TABLE_SIZE) : (x : Pc) → Decidable (x.Looked i)
  | .closeRead j _ | .closeFree j _ _ | .byHandleRead j _ _ | .byHandleArg j _
  | .byHandleCheck j _ _ | .byHandleInc j _ _ | .byHandleOut j _ _ =>
    inferInstanceAs (Decidable (j = i))
  | .idle | .refCheck _ | .refInc _ | .drefCheck _ | .drefDec _ | .drefName _ | .drefClose _
  | .drefWipe _ | .insCheck _ _ | .insAlloc _ _ | .insCount _ _ | .closeCheck _ | .closeCount _
  | .nameLock _ _ | .nameScan _ _ _ | .nameCheck _ | .nameInc _ | .nameOut _ _
  | .newInsert _ _ => inferInstanceAs (Decidable False)

instance (i : Fin OB_HANDLE_TABLE_SIZE) : (x : Pc) → Decidable (x.Using i)
  | .byHandleArg j _ | .byHandleCheck j _ _ | .byHandleInc j _ _ | .byHandleOut j _ _
  | .insCount _ j => inferInstanceAs (Decidable (j = i))
  | .idle | .refCheck _ | .refInc _ | .drefCheck _ | .drefDec _ | .drefName _ | .drefClose _
  | .drefWipe _ | .insCheck _ _ | .insAlloc _ _ | .closeRead _ _ | .closeFree _ _ _
  | .closeCheck _ | .closeCount _ | .byHandleRead _ _ _ | .nameLock _ _ | .nameScan _ _ _
  | .nameCheck _ | .nameInc _ | .nameOut _ _ | .newInsert _ _ => inferInstanceAs (Decidable False)

instance (sys : System T) : (x : Pc) → Decidable (Calm sys x)
  | .nameScan path expected i =>
    have (h : i < OB_NAMESPACE_SIZE) := decForallSome (sys.state.ns ⟨i, h⟩).object fun o =>
      strEq (sys.state.ns ⟨i, h⟩).path path = true → sys.state.Live o →
        mismatch (sys.state.headers o) expected = false → (sys.state.headers o).refCount ≠ 0
    inferInstanceAs (Decidable (∀ (h : i < OB_NAMESPACE_SIZE) (o : Nat),
      (sys.state.ns ⟨i, h⟩).object = some o → strEq (sys.state.ns ⟨i, h⟩).path path = true →
      sys.state.Live o → mismatch (sys.state.headers o) expected = false →
      (sys.state.headers o).refCount ≠ 0))
  | .drefDec o =>
    inferInstanceAs (Decidable ((sys.state.headers o).refCount = 1 → ∀ u, ¬ (sys.pc u).Naming o))
  | .insAlloc o access => decForallSome (alloc sys.state o access) fun r =>
      ∀ u, ¬ (sys.pc u).Looked r.2
  | .closeFree i _ _ =>
    inferInstanceAs (Decidable ((sys.state.ktable i).object ≠ none → ∀ u, ¬ (sys.pc u).Using i))
  | .refInc o | .nameInc o | .byHandleInc _ _ o | .insCount o _ =>
    inferInstanceAs (Decidable ((sys.state.headers o).refCount ≠ 0x7FFFFFFF))
  | .idle | .refCheck _ | .drefCheck _ | .drefName _ | .drefClose _ | .drefWipe _ | .insCheck _ _
  | .closeRead _ _ | .closeCheck _ | .closeCount _ | .byHandleRead _ _ _ | .byHandleArg _ _
  | .byHandleCheck _ _ _ | .byHandleOut _ _ _ | .nameLock _ _ | .nameCheck _ | .nameOut _ _
  | .newInsert _ _ => inferInstanceAs (Decidable True)

instance (sys : System T) : (e : T × Op) → Decidable (Apart sys e)
  | (t, .go) => inferInstanceAs (Decidable (Calm sys (sys.pc t)))
  | (_, .call _) => inferInstanceAs (Decidable True)

end

/-- The first thread makes a named object. -/
def naming : List (Bool × Op) :=
  [(false, .call (.allocateObject ⟨1, true⟩ (some [0x5C#8, 0x61#8]) true)), (false, .go)]

/-- The second thread looks the object up, from the lock to its return. -/
def looking : List (Bool × Op) :=
  [(true, .call (.lookupObjectByName [0x5C#8, 0x61#8] none)), (true, .go), (true, .go), (true, .go),
    (true, .go), (true, .go)]

/-- The first thread drops its reference after the second one has its own, and the second
one drops the last. -/
theorem lookups_safe_in_turn :
    Always step Safe System.init (naming ++ [(false, .call (.dereferenceObject 0)), (false, .go)] ++
      looking ++ [(false, .go), (true, .call (.dereferenceObject 0)), (true, .go), (true, .go),
        (true, .go), (true, .go), (true, .go)]) :=
  lookups_safe _ (by decide +kernel)

/-- The second thread looks the object up when its count is zero and its name is still
there. -/
def reviving : List (Bool × Op) :=
  naming ++ [(false, .call (.dereferenceObject 0)), (false, .go), (false, .go)] ++ looking ++
    [(false, .go), (false, .go), (false, .go)]

/-- **A dying object is handed out**: the second thread has a reference to an object that
was closed and lost its magic. -/
theorem lookup_revives : ¬ Always step Safe System.init reviving := by
  intro safe
  have ends : (run step System.init reviving).map (fun sys => (sys.held 0, sys.state.closes 0)) =
      some (1, 1) := by decide +kernel
  obtain ⟨sys, reached, e⟩ := Option.map_eq_some_iff.mp ends
  obtain ⟨held, closes⟩ := Prod.mk.inj e
  have intact := ((safe.last reached).held 0 (held ▸ Nat.one_pos)).2
  rw [closes] at intact
  cases intact

/-- The second thread has looked up a handle when the first one closes it and gives its
entry to a new object. -/
def reusing : List (Bool × Op) :=
  [(false, .call (.allocateObjectRaw none true)), (false, .call (.insertObject 0 0)), (false, .go),
    (false, .go), (false, .go), (true, .call (.referenceObjectByHandle 8 none)),
    (false, .call (.closeHandle 8)), (false, .go), (false, .go), (false, .go), (false, .go),
    (false, .go), (false, .go), (false, .call (.allocateObjectRaw none true)),
    (false, .call (.insertObject 1 0)), (false, .go), (false, .go)]

/-- **A closed handle's entry is read as another object's.** -/
theorem entry_read_as_another : ¬ Always step Safe System.init reusing := by
  intro safe
  have ends : (run step System.init reusing).map
      (fun sys => ((sys.pc true).reads, (sys.state.ktable 0).object)) =
        some (some (0, 0), some 1) := by decide +kernel
  obtain ⟨sys, reached, e⟩ := Option.map_eq_some_iff.mp ends
  obtain ⟨reads, object⟩ := Prod.mk.inj e
  obtain none | same := (safe.last reached).reads true 0 0 reads
  · exact Option.some_ne_none 1 (object.symm.trans none)
  · exact absurd (object.symm.trans same) (by decide)

end MicroNT.OB.Calls
