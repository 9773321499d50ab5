import MicroNT.Base.Tally
import MicroNT.ObjectCalls
import MicroNT.ObjectReferences

/-! # Lookups beside the last dereference (`object_manager.cpp`)

A lookup tests an object's magic and takes its reference later, and the object's name and
handle are withdrawn some statements after its count is zero or its entry was read. -/

set_option linter.unusedSectionVars false

namespace MicroNT.OB.Calls

open Base.Machine Base.Tally

/-! ## References -/

/-- A thread at this statement holds a reference of the object. -/
def Pc.holds (o : Nat) : Pc → Prop
  | .refCheck a => a = o
  | .refInc a => a = o
  | .drefCheck a => a = o
  | .drefDec a => a = o
  | .insCheck a _ => a = o
  | .insAlloc a _ => a = o
  | .insCount a _ => a = o
  | .closeCheck a => a = o
  | .closeCount a => a = o
  | .byHandleOut _ _ counted => counted = some o
  | .nameOut a counted => a = o ∧ counted = true
  | .newInsert a _ => a = o
  | _ => False

instance (o : Nat) : (x : Pc) → Decidable (x.holds o)
  | .refCheck a | .refInc a | .drefCheck a | .drefDec a | .insCheck a _ | .insAlloc a _
  | .insCount a _ | .closeCheck a | .closeCount a | .newInsert a _ =>
    inferInstanceAs (Decidable (a = o))
  | .byHandleOut _ _ counted => inferInstanceAs (Decidable (counted = some o))
  | .nameOut a counted => inferInstanceAs (Decidable (a = o ∧ counted = true))
  | .idle | .drefName _ | .drefClose _ | .drefWipe _ | .closeRead _ _ | .closeFree _ _ _
  | .byHandleRead _ _ _ | .byHandleArg _ _ | .byHandleCheck _ _ _ | .byHandleInc _ _ _
  | .nameLock _ _ | .nameScan _ _ _ | .nameCheck _ | .nameInc _ =>
    inferInstanceAs (Decidable False)

/-- Between the test of the magic and `++RefCount` in `LookupObjectByName`. -/
def Pc.Naming (o : Nat) : Pc → Prop
  | .nameCheck a => a = o
  | .nameInc a => a = o
  | _ => False

/-- Behind the `Lookup` of an entry that is still to be read or freed. -/
def Pc.Looked (i : Fin OB_HANDLE_TABLE_SIZE) : Pc → Prop
  | .closeRead j _ => j = i
  | .closeFree j _ _ => j = i
  | .byHandleRead j _ _ => j = i
  | .byHandleArg j _ => j = i
  | .byHandleCheck j _ _ => j = i
  | .byHandleInc j _ _ => j = i
  | .byHandleOut j _ _ => j = i
  | _ => False

/-- Behind the first read of an entry in `ReferenceObjectByHandle`, or in `InsertObject`
before the handle's reference is counted. -/
def Pc.Using (i : Fin OB_HANDLE_TABLE_SIZE) : Pc → Prop
  | .byHandleArg j _ => j = i
  | .byHandleCheck j _ _ => j = i
  | .byHandleInc j _ _ => j = i
  | .byHandleOut j _ _ => j = i
  | .insCount _ j => j = i
  | _ => False

/-- In `InsertObject` before the handle's reference is counted. -/
def Pc.Inserting : Pc → Prop
  | .insCount _ _ => True
  | _ => False

/-- The entry that the statement is about to read, and what `Lookup` found in it. -/
def Pc.reads : Pc → Option (Fin OB_HANDLE_TABLE_SIZE × Nat)
  | .closeRead i found => some (i, found)
  | .byHandleRead i found _ => some (i, found)
  | .byHandleArg i found => some (i, found)
  | .byHandleOut i found _ => some (i, found)
  | _ => none

section

variable {T : Type} [Fintype T] [DecidableEq T]

/-- All references of an object: those of callers, of handles, and of calls under way. -/
def refs (sys : System T) (o : Nat) : Nat :=
  sys.held o + tally Finset.univ (fun a => a = some o) sys.owner +
    tally Finset.univ (fun x : Pc => x.holds o) sys.pc

/-- A referenced object is not destroyed, and what is read from a handle's entry is the
object it was for when the handle was looked up. -/
structure Safe (sys : System T) : Prop where
  held : ∀ o, 0 < sys.held o → sys.state.Live o ∧ sys.state.closes o = 0
  reads : ∀ t i found, (sys.pc t).reads = some (i, found) →
    (sys.state.ktable i).object = none ∨ (sys.state.ktable i).object = some found

/-! ## The condition -/

/-- What must hold at a thread's next statement: a name is not looked up while its object
is being destroyed; the last reference is not dropped while another thread has found the
object by its name and not counted it; an entry is not given to a new handle while a
thread has looked up the old one, and not freed while a thread uses it; and the count is
not at its maximum. -/
def Calm (sys : System T) : Pc → Prop
  | .nameScan path expected i => ∀ (h : i < OB_NAMESPACE_SIZE) (o : Nat),
      (sys.state.ns ⟨i, h⟩).object = some o → strEq (sys.state.ns ⟨i, h⟩).path path = true →
      sys.state.Live o → mismatch (sys.state.headers o) expected = false →
      (sys.state.headers o).refCount ≠ 0
  | .drefDec o => (sys.state.headers o).refCount = 1 → ∀ u, ¬ (sys.pc u).Naming o
  | .insAlloc o access => ∀ r, alloc sys.state o access = some r → ∀ u, ¬ (sys.pc u).Looked r.2
  | .closeFree i _ _ => (sys.state.ktable i).object ≠ none → ∀ u, ¬ (sys.pc u).Using i
  | .refInc o => (sys.state.headers o).refCount ≠ 0x7FFFFFFF
  | .nameInc o => (sys.state.headers o).refCount ≠ 0x7FFFFFFF
  | .byHandleInc _ _ o => (sys.state.headers o).refCount ≠ 0x7FFFFFFF
  | .insCount o _ => (sys.state.headers o).refCount ≠ 0x7FFFFFFF
  | _ => True

/-- The same at a step. -/
def Apart (sys : System T) (a : T × Op) : Prop :=
  match a.2 with
  | .go => Calm sys (sys.pc a.1)
  | .call _ => True

/-! ## Headers -/

/-- The counts are the numbers of references, and nothing that has references is
destroyed. -/
structure Sound (s : State) (R : Nat → Nat) : Prop where
  refCount : ∀ o, (s.headers o).refCount = BitVec.ofNat 32 (R o)
  alive : ∀ o, 0 < R o → s.Live o ∧ s.closes o = 0
  fresh : ∀ o, s.count ≤ o → R o = 0 ∧ s.closes o = 0

end

variable {s : State} {R : Nat → Nat} {o n : Nat} {hdr : ObjectHeader}

theorem Sound.tables (h : Sound s R) (ktable : Fin OB_HANDLE_TABLE_SIZE → HandleEntry)
    (ns : Fin OB_NAMESPACE_SIZE → NamespaceEntry) :
    Sound { s with ktable := ktable, ns := ns } R :=
  ⟨h.refCount, h.alive, h.fresh⟩

theorem Sound.old (h : Sound s R) (some : 0 < R o) : o < s.count :=
  Nat.lt_of_not_le fun above => Nat.ne_of_gt some (h.fresh o above).1

/-- A referenced object gets a new count. -/
theorem Sound.setHeader (h : Sound s R) (pos : 0 < R o)
    (magic : hdr.magic = (s.headers o).magic) (count : hdr.refCount = BitVec.ofNat 32 n) :
    Sound (s.setHeader o hdr) (Function.update R o n) := by
  have old := h.old pos
  refine ⟨fun a => ?_, fun a ha => ?_, fun a ha => ?_⟩
  all_goals
    simp only [State.setHeader, State.Live] at *
    by_cases e : a = o
  · rw [e, Function.update_self, Function.update_self, count]
  · rw [Function.update_of_ne e, Function.update_of_ne e, h.refCount a]
  · rw [e, Function.update_self, magic]
    exact h.alive o pos
  · rw [Function.update_of_ne e] at ha ⊢
    exact h.alive a ha
  · exact absurd old (Nat.not_lt.mpr (e ▸ ha))
  · rw [Function.update_of_ne e]
    exact h.fresh a ha

theorem Sound.increment (h : Sound s R) (pos : 0 < R o) :
    Sound (increment s o) (Function.update R o (R o + 1)) := by
  refine h.setHeader pos rfl ?_
  show (s.headers o).refCount + 1 = _
  rw [h.refCount o, ofNat_succ]

/-- The handle count does not matter. -/
theorem Sound.handleCount (h : Sound s R) (pos : 0 < R o) (c : i32) :
    Sound (s.setHeader o { s.headers o with handleCount := c }) R := by
  have set : Sound (s.setHeader o { s.headers o with handleCount := c })
      (Function.update R o (R o)) := h.setHeader pos rfl (h.refCount o)
  rwa [Function.update_eq_self] at set

/-- An object without references is closed. -/
theorem Sound.close (h : Sound s R) (none : R o = 0) (old : o < s.count) (c : Nat) :
    Sound { s with closes := Function.update s.closes o c } R := by
  refine ⟨h.refCount, fun a ha => ⟨(h.alive a ha).1, ?_⟩, fun a ha => ⟨(h.fresh a ha).1, ?_⟩⟩
  · have other : a ≠ o := fun e => Nat.ne_of_gt ha (e ▸ none)
    exact (Function.update_of_ne other _ _).trans (h.alive a ha).2
  · have other : a ≠ o := fun e => absurd old (Nat.not_lt.mpr (e ▸ ha))
    exact (Function.update_of_ne other _ _).trans (h.fresh a ha).2

/-- An object without references loses its magic. -/
theorem Sound.wipe (h : Sound s R) (none : R o = 0) :
    Sound (s.setHeader o { s.headers o with magic := 0 }) R := by
  refine ⟨fun a => ?_, fun a ha => ?_, h.fresh⟩
  · simp only [State.setHeader]
    by_cases e : a = o
    · rw [e, Function.update_self]
      exact h.refCount o
    · rw [Function.update_of_ne e, h.refCount a]
  · have other : a ≠ o := fun e => Nat.ne_of_gt ha (e ▸ none)
    simp only [State.setHeader, State.Live]
    rw [Function.update_of_ne other]
    exact h.alive a ha

theorem Sound.newObject (h : Sound s R) (type : Option ObType) (name : Option (List u8)) :
    Sound (newObject s type name true).1 (Function.update R s.count 1) := by
  refine ⟨fun a => ?_, fun a ha => ?_, fun a ha => ?_⟩
  all_goals
    simp only [OB.newObject, State.setHeader, State.Live, if_true] at *
    by_cases e : a = s.count
  · rw [e, Function.update_self, Function.update_self]
    rfl
  · rw [Function.update_of_ne e, Function.update_of_ne e, h.refCount a]
  · rw [e, Function.update_self]
    exact ⟨rfl, (h.fresh s.count le_rfl).2⟩
  · rw [Function.update_of_ne e] at ha ⊢
    exact h.alive a ha
  · exact absurd ha (e ▸ Nat.not_succ_le_self _)
  · rw [Function.update_of_ne e]
    exact h.fresh a (Nat.le_of_succ_le ha)

/-! ## Where the references are -/

section

variable {T : Type} [Fintype T] [DecidableEq T] {sys sys' : System T} {t u : T} {x y : Pc}
  {a : Nat} {i : Fin OB_HANDLE_TABLE_SIZE}

theorem refs_goto (sys : System T) (t : T) (x : Pc) (o : Nat) :
    refs (sys.goto t x) o + (if (sys.pc t).holds o then 1 else 0) =
      refs sys o + if x.holds o then 1 else 0 := by
  have moved := tally_update (P := fun x : Pc => x.holds o) (t := sys.pc) (b := x)
    (Finset.mem_univ t)
  have same : refs (sys.goto t x) o = sys.held o +
      tally Finset.univ (fun a => a = some o) sys.owner +
      tally Finset.univ (fun x : Pc => x.holds o) (Function.update sys.pc t x) := rfl
  rw [same]
  unfold refs
  omega

theorem refs_goto_same (sys : System T) (at_ : sys.pc t = y) (holds : ∀ o, x.holds o ↔ y.holds o) (o : Nat) :
    refs (sys.goto t x) o = refs sys o := by
  have moved := refs_goto sys t x o
  rw [at_, if_congr (holds o) rfl rfl] at moved
  omega

theorem refs_give (sys : System T) (a n o : Nat) :
    refs (sys.give a n) o = refs sys o + if o = a then n else 0 := by
  have same : refs (sys.give a n) o = Function.update sys.held a (sys.held a + n) o +
      tally Finset.univ (fun a => a = some o) sys.owner +
      tally Finset.univ (fun x : Pc => x.holds o) sys.pc := rfl
  rw [same]
  unfold refs
  split
  case isTrue e =>
    rw [e, Function.update_self]
    omega
  case isFalse e => rw [Function.update_of_ne e, Nat.add_zero]

theorem refs_pass (some : 0 < sys.held a) (o : Nat) :
    refs (sys.pass a) o + (if o = a then 1 else 0) = refs sys o := by
  have same : refs (sys.pass a) o = Function.update sys.held a (sys.held a - 1) o +
      tally Finset.univ (fun a => a = .some o) sys.owner +
      tally Finset.univ (fun x : Pc => x.holds o) sys.pc := rfl
  rw [same]
  unfold refs
  split
  case isTrue e =>
    rw [e, Function.update_self]
    omega
  case isFalse e => rw [Function.update_of_ne e, Nat.add_zero]

/-- The reference of a handle. -/
def System.own (sys : System T) (i : Fin OB_HANDLE_TABLE_SIZE) (v : Option Nat) : System T :=
  { sys with owner := Function.update sys.owner i v }

theorem refs_own (sys : System T) (i : Fin OB_HANDLE_TABLE_SIZE) (v : Option Nat) (o : Nat) :
    refs (sys.own i v) o + (if sys.owner i = some o then 1 else 0) =
      refs sys o + if v = some o then 1 else 0 := by
  have moved := tally_update (P := fun a => a = some o) (t := sys.owner) (b := v)
    (Finset.mem_univ i)
  have same : refs (sys.own i v) o = sys.held o +
      tally Finset.univ (fun a => a = some o) (Function.update sys.owner i v) +
      tally Finset.univ (fun x : Pc => x.holds o) sys.pc := rfl
  rw [same]
  unfold refs
  omega

theorem refs_of_holds (holds : (sys.pc t).holds o) : 0 < refs sys o :=
  Nat.lt_of_lt_of_le (tally_pos (P := fun x : Pc => x.holds o) (Finset.mem_univ t) holds)
    (Nat.le_add_left _ _)

theorem refs_of_owner (owner : sys.owner i = some o) : 0 < refs sys o := by
  have pos : 0 < tally Finset.univ (fun a => a = some o) sys.owner :=
    tally_pos (Finset.mem_univ i) owner
  unfold refs
  omega

theorem refs_of_held (held : 0 < sys.held o) : 0 < refs sys o := by
  unfold refs
  omega

/-! ## The invariant -/

/-- What is known with a thread at a statement. -/
def At (sys : System T) : Pc → Prop
  | .drefName o => refs sys o = 0 ∧ o < sys.state.count
  | .drefClose o => refs sys o = 0 ∧ o < sys.state.count
  | .drefWipe o => refs sys o = 0 ∧ o < sys.state.count
  | .insCount o i => (sys.state.ktable i).object = some o ∧ sys.owner i = none
  | .closeRead i found =>
    (sys.state.ktable i).object = none ∨ (sys.state.ktable i).object = some found
  | .closeFree i found object =>
    (sys.state.ktable i).object = none ∨
      (sys.state.ktable i).object = some found ∧ object = some found
  | .byHandleRead i found _ =>
    (sys.state.ktable i).object = none ∨ (sys.state.ktable i).object = some found
  | .byHandleArg i found => (sys.state.ktable i).object = some found
  | .byHandleCheck i found object =>
    (sys.state.ktable i).object = some found ∧ object = some found
  | .byHandleInc i found o => (sys.state.ktable i).object = some found ∧ o = found
  | .byHandleOut i found counted =>
    (sys.state.ktable i).object = some found ∧ counted = some found
  | .nameCheck o => 0 < refs sys o
  | .nameInc o => 0 < refs sys o
  | .nameOut _ counted => counted = true
  | _ => True

structure Inv (sys : System T) : Prop where
  sound : Sound sys.state (refs sys)
  few : ∀ o, refs sys o < 2 ^ 31
  owner : ∀ i o, sys.owner i = some o → (sys.state.ktable i).object = some o
  entry : ∀ i o, (sys.state.ktable i).object = some o →
    sys.owner i = some o ∨ ∃ t, sys.pc t = .insCount o i
  single : ∀ t u a o i, sys.pc t = .insCount a i → sys.pc u = .insCount o i → t = u
  at_ : ∀ t, At sys (sys.pc t)

theorem Inv.live (inv : Inv sys) (some : 0 < refs sys o) : sys.state.Live o :=
  (inv.sound.alive o some).1

theorem Inv.holder (inv : Inv sys) (holds : (sys.pc t).holds o) : sys.state.Live o :=
  inv.live (refs_of_holds holds)

/-- An open handle's object is referenced, if only by the thread that made the handle. -/
theorem Inv.opened (inv : Inv sys) (object : (sys.state.ktable i).object = some o) :
    0 < refs sys o := by
  obtain owner | ⟨t, at_⟩ := inv.entry i o object
  · exact refs_of_owner owner
  · exact refs_of_holds (t := t) (by rw [at_]; exact rfl)

theorem Inv.safe (inv : Inv sys) : Safe sys := by
  refine ⟨fun o held => inv.sound.alive o (refs_of_held held), fun t i found reads => ?_⟩
  have known := inv.at_ t
  cases at_ : sys.pc t with
  | closeRead j f | byHandleRead j f e =>
    rw [at_] at known reads
    cases reads
    exact known
  | byHandleArg j f =>
    rw [at_] at known reads
    cases reads
    exact .inr known
  | byHandleOut j f c =>
    rw [at_] at known reads
    cases reads
    exact .inr known.1
  | _ =>
    rw [at_] at reads
    cases reads

/-- What is known of a thread that stays where it is, while another one takes a step. -/
theorem At.frame (h : At sys x) (zero : ∀ o, refs sys o = 0 → o < sys.state.count → refs sys' o = 0)
    (count : sys.state.count ≤ sys'.state.count)
    (naming : ∀ o, x.Naming o → 0 < refs sys' o)
    (looked : ∀ i, x.Looked i → (sys'.state.ktable i).object = (sys.state.ktable i).object ∨
      (sys'.state.ktable i).object = none ∧ ¬ x.Using i)
    (inserting : ∀ o i, x = .insCount o i →
      (sys'.state.ktable i).object = (sys.state.ktable i).object ∧ sys'.owner i = sys.owner i) :
    At sys' x := by
  have dying : ∀ o, refs sys o = 0 ∧ o < sys.state.count → refs sys' o = 0 ∧ o < sys'.state.count :=
    fun o h => ⟨zero o h.1 h.2, Nat.lt_of_lt_of_le h.2 count⟩
  cases x with
  | drefName o | drefClose o | drefWipe o => exact dying o h
  | insCount o i =>
    obtain ⟨table, owner⟩ := inserting o i rfl
    exact ⟨table.trans h.1, owner.trans h.2⟩
  | closeRead i found | byHandleRead i found expected =>
    obtain same | ⟨gone, -⟩ := looked i rfl
    · exact h.imp same.trans same.trans
    · exact .inl gone
  | closeFree i found object =>
    obtain same | ⟨gone, -⟩ := looked i rfl
    · exact h.imp same.trans fun h => ⟨same.trans h.1, h.2⟩
    · exact .inl gone
  | byHandleArg i found =>
    obtain same | ⟨-, not⟩ := looked i rfl
    · exact same.trans h
    · exact absurd rfl not
  | byHandleCheck i found object | byHandleInc i found o | byHandleOut i found counted =>
    obtain same | ⟨-, not⟩ := looked i rfl
    · exact ⟨same.trans h.1, h.2⟩
    · exact absurd rfl not
  | nameCheck o | nameInc o => exact naming o rfl
  | nameOut o counted => exact h
  | idle | refCheck o | refInc o | drefCheck o | drefDec o | insCheck o a | insAlloc o a
  | closeCheck o | closeCount o | nameLock p e | nameScan p e i | newInsert o p => trivial

theorem At.named (h : At sys x) (naming : x.Naming o) : 0 < refs sys o := by
  cases x with
  | nameCheck a | nameInc a =>
    cases naming
    exact h
  | _ => cases naming

/-- A step that leaves the handles alone. -/
theorem Inv.move (inv : Inv sys) (pc : sys'.pc = Function.update sys.pc t x)
    (sound : Sound sys'.state (refs sys')) (few : ∀ o, refs sys' o < 2 ^ 31)
    (table : ∀ i, (sys'.state.ktable i).object = (sys.state.ktable i).object)
    (owner : sys'.owner = sys.owner) (count : sys.state.count ≤ sys'.state.count)
    (zero : ∀ o, refs sys o = 0 → o < sys.state.count → refs sys' o = 0)
    (naming : ∀ u o, u ≠ t → (sys.pc u).Naming o → 0 < refs sys' o)
    (at_ : sys.pc t = y) (before : ¬ y.Inserting) (after : ¬ x.Inserting) (here : At sys' x) : Inv sys' := by
  have self : sys'.pc t = x := by rw [pc, Function.update_self]
  have other : ∀ u, u ≠ t → sys'.pc u = sys.pc u := fun u e => by
    rw [pc, Function.update_of_ne e]
  have inserting : ∀ u o i, sys'.pc u = .insCount o i → sys.pc u = .insCount o i := fun u o i at_ => by
    by_cases e : u = t
    · rw [e, self] at at_
      exact absurd (at_ ▸ trivial) after
    · rwa [other u e] at at_
  refine ⟨sound, few, fun i o own => ?_, fun i o object => ?_, fun u v a o i hu hv => ?_,
    fun u => ?_⟩
  · rw [table]
    exact inv.owner i o (owner ▸ own)
  · rw [owner]
    refine (inv.entry i o ((table i).symm.trans object)).imp_right fun h => ?_
    obtain ⟨u, hu⟩ := h
    have e : u ≠ t := fun e => before (at_ ▸ e ▸ hu ▸ trivial)
    exact ⟨u, (other u e).trans hu⟩
  · exact inv.single u v a o i (inserting u a i hu) (inserting v o i hv)
  · by_cases e : u = t
    · rw [e, self]
      exact here
    · rw [other u e]
      exact (inv.at_ u).frame zero count (naming u · e) (fun i _ => .inl (table i))
        fun o i _ => ⟨table i, congrFun owner i⟩

/-- A step that changes no number of references either. -/
theorem Inv.same (inv : Inv sys) (pc : sys'.pc = Function.update sys.pc t x)
    (same : ∀ o, refs sys' o = refs sys o) (sound : Sound sys'.state (refs sys))
    (table : ∀ i, (sys'.state.ktable i).object = (sys.state.ktable i).object)
    (owner : sys'.owner = sys.owner) (count : sys.state.count ≤ sys'.state.count)
    (at_ : sys.pc t = y) (before : ¬ y.Inserting) (after : ¬ x.Inserting) (here : At sys x) : Inv sys' := by
  have named : ∀ y o, At sys y → y.Naming o → 0 < refs sys' o := fun y o at_ naming => by
    rw [same]
    exact at_.named naming
  have gone : ∀ o, refs sys o = 0 → o < sys.state.count → refs sys' o = 0 := fun o none _ => by
    rw [same, none]
  refine inv.move pc ?_ (fun o => ?_) table owner count gone
    (fun u o _ => named _ o (inv.at_ u)) at_ before after ?_
  · rwa [funext same]
  · rw [same]
    exact inv.few o
  · refine here.frame gone count (named x · here) (fun i _ => .inl (table i)) fun o i e => ?_
    exact absurd (e ▸ trivial) after

/-- A step to a statement that holds the same references. -/
theorem Inv.with {s : State} (inv : Inv sys) (at_ : sys.pc t = y)
    (holds : ∀ o, x.holds o ↔ y.holds o) (before : ¬ y.Inserting) (after : ¬ x.Inserting)
    (here : At sys x) (sound : Sound s (refs sys))
    (table : ∀ i, (s.ktable i).object = (sys.state.ktable i).object)
    (count : sys.state.count ≤ s.count) : Inv ((sys.with s).goto t x) :=
  inv.same rfl (refs_goto_same (sys.with s) at_ holds) sound table rfl count at_ before after
    here

theorem Inv.goto (inv : Inv sys) (at_ : sys.pc t = y) (holds : ∀ o, x.holds o ↔ y.holds o)
    (before : ¬ y.Inserting) (after : ¬ x.Inserting) (here : At sys x) : Inv (sys.goto t x) :=
  inv.with at_ holds before after here inv.sound (fun _ => rfl) le_rfl

theorem Inv.lock (inv : Inv sys) (l : Option T) : Inv { sys with nsLock := l } :=
  ⟨inv.sound, inv.few, inv.owner, inv.entry, inv.single, inv.at_⟩

/-- A count below its maximum. -/
theorem Inv.below (inv : Inv sys) (small : (sys.state.headers o).refCount ≠ 0x7FFFFFFF) :
    refs sys o + 1 < 2 ^ 31 := by
  have few := inv.few o
  have top : refs sys o ≠ 2 ^ 31 - 1 := fun e => small <| by
    rw [inv.sound.refCount o, e]
    rfl
  omega

/-- `++RefCount` in a statement that keeps the new reference or hands it out. -/
theorem Inv.bump (inv : Inv sys) (pc : sys'.pc = Function.update sys.pc t x)
    (more : ∀ a, refs sys' a = refs sys a + if a = o then 1 else 0)
    (sound : Sound sys'.state (Function.update (refs sys) o (refs sys o + 1)))
    (small : (sys.state.headers o).refCount ≠ 0x7FFFFFFF) (pos : 0 < refs sys o)
    (table : ∀ i, (sys'.state.ktable i).object = (sys.state.ktable i).object)
    (owner : sys'.owner = sys.owner) (count : sys.state.count ≤ sys'.state.count)
    (at_ : sys.pc t = y) (before : ¬ y.Inserting) (after : ¬ x.Inserting) (here : At sys' x) : Inv sys' := by
  have eq : refs sys' = Function.update (refs sys) o (refs sys o + 1) := by
    refine Function.eq_update_iff.mpr ⟨(more o).trans (by rw [if_pos rfl]), fun a other => ?_⟩
    rw [more, if_neg other, Nat.add_zero]
  refine inv.move pc (eq ▸ sound) (fun a => ?_) table owner count (fun a none _ => ?_)
    (fun u a _ naming => ?_) at_ before after here
  · rw [more]
    split
    case isTrue e => exact e ▸ inv.below small
    case isFalse => exact inv.few a
  · have other : a ≠ o := fun e => Nat.ne_of_gt pos (e ▸ none)
    rw [more, if_neg other, none]
  · rw [more]
    exact Nat.lt_of_lt_of_le ((inv.at_ u).named naming) (Nat.le_add_right _ _)

end

end MicroNT.OB.Calls
