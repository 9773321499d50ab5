import Mathlib.Data.Fintype.Basic
import MicroNT.Base.Machine
import MicroNT.Base.Tally
import MicroNT.ObjectManager

/-! # Reference counts

An object's references are the creation reference, its open handles and the references
that callers have taken. The header's counters are these numbers modulo `2 ^ 32`, and
`DereferenceObject` reads them as signed, so they are exact while no object has `2 ^ 31`
references. -/

namespace MicroNT.OB
open Base.Machine Base.Tally

/-! ## Counters -/

theorem ofNat_succ (n : Nat) : BitVec.ofNat 32 n + 1 = BitVec.ofNat 32 (n + 1) := by
  rw [BitVec.ofNat_add]
  rfl

theorem ofNat_pred {n : Nat} (pos : 0 < n) : BitVec.ofNat 32 n - 1 = BitVec.ofNat 32 (n - 1) := by
  obtain ⟨m, rfl⟩ : ∃ m, n = m + 1 := ⟨n - 1, by omega⟩
  rw [Nat.add_sub_cancel, ← ofNat_succ]
  exact BitVec.add_sub_cancel _ _

theorem ofNat_toInt {n : Nat} (small : n < 2 ^ 31) : (BitVec.ofNat 32 n).toInt = n := by
  rw [BitVec.toInt_eq_toNat_of_lt]
  all_goals rw [BitVec.toNat_ofNat, Nat.mod_eq_of_lt (by omega)]
  omega

/-- The test of `DereferenceObject`. -/
theorem ofNat_sle_zero {n : Nat} (small : n < 2 ^ 31) :
    (BitVec.ofNat 32 n).sle 0 = true ↔ n = 0 := by
  rw [BitVec.sle_iff_toInt_le, ofNat_toInt small]
  simp

/-! ## References -/

/-- The open handles of an object. -/
def handles (s : State) (o : Nat) : Nat :=
  tally Finset.univ (fun e : HandleEntry => e.object = some o) s.ktable

/-- All references to an object. -/
def refs (sys : System) (o : Nat) : Nat :=
  (sys.created o).toNat + handles sys.state o + sys.taken o

/-- Callers only drop references they hold. -/
def Held (sys : System) : Op → Prop
  | .dereferenceObject (some o) .creation => sys.created o = true
  | .dereferenceObject (some o) .taken => 0 < sys.taken o
  | _ => True

/-- No object has `2 ^ 31` references. -/
def Few (sys : System) : Prop := ∀ o, refs sys o < 2 ^ 31

/-- The counters are exact, `OnClose` has run once for the objects without references
only, and nothing leads to a destroyed object. -/
structure Exact (sys : System) : Prop where
  refCount : ∀ o, sys.state.Live o → (sys.state.headers o).refCount.toInt = refs sys o
  handleCount : ∀ o, sys.state.Live o →
    (sys.state.headers o).handleCount.toInt = handles sys.state o
  destroyed : ∀ o, ¬ sys.state.Live o ↔ refs sys o = 0
  onClose : ∀ o, o < sys.state.count → (sys.state.headers o).type.any ObType.onClose = true →
    sys.state.closes o = if refs sys o = 0 then 1 else 0
  handle : ∀ i o, (sys.state.ktable i).object = some o → sys.state.Live o
  byHandle : ∀ h expected out s o,
    referenceObjectByHandle sys.state h expected out = (s, STATUS_SUCCESS, some o) → s.Live o
  byName : ∀ path expected out s o,
    lookupObjectByName sys.state path expected out = (s, STATUS_SUCCESS, some o) → s.Live o

/-- An exact counter is a signed word. -/
theorem Exact.few {sys : System} (h : Exact sys) : Few sys := by
  intro o
  by_cases live : sys.state.Live o
  · have bound := (sys.state.headers o).refCount.toInt_lt
    rw [h.refCount o live] at bound
    omega
  · rw [(h.destroyed o).mp live]
    decide

/-! ## What the operations leave alone -/

section

variable (s : State) (o : Nat) (object : Option Nat) (path : Option (List u8))

/-- The namespace without the entry under a path. -/
def without (s : State) (p : List u8) : Fin OB_NAMESPACE_SIZE → NamespaceEntry :=
  match findPath s p with
  | none => s.ns
  | some i => Function.update s.ns i ⟨[], none⟩

theorem removeObjectByName_eq (s : State) (p : List u8) :
    removeObjectByName s (some p) = { s with ns := without s p } := by
  unfold removeObjectByName without
  dsimp only
  cases findPath s p with
  | none => rfl
  | some i => rfl

/-- An insertion changes the namespace only. -/
theorem insertObjectByName_state :
    ∃ ns, (insertObjectByName s object path).1 = { s with ns := ns } := by
  unfold insertObjectByName
  split
  · split
    · exact ⟨s.ns, rfl⟩
    · split
      · exact ⟨s.ns, rfl⟩
      · split
        · exact ⟨s.ns, rfl⟩
        · split
          · exact ⟨_, rfl⟩
          · exact ⟨s.ns, rfl⟩
  · exact ⟨s.ns, rfl⟩

/-- The state with an object destroyed, but for its names. -/
def destroyed (s : State) (o : Nat) : State :=
  { s with
    headers := Function.update s.headers o { s.headers o with magic := 0 }
    closes :=
      if (s.headers o).type.any ObType.onClose then Function.update s.closes o (s.closes o + 1)
      else s.closes }

/-- The namespace after the destruction of an object. -/
def namesWithout (s : State) (o : Nat) : Fin OB_NAMESPACE_SIZE → NamespaceEntry :=
  if (s.headers o).name ≠ [] then without s (s.headers o).name else s.ns

theorem destroy_eq : destroy s o = { destroyed s o with ns := namesWithout s o } := by
  unfold destroy destroyed namesWithout
  by_cases named : (s.headers o).name ≠ []
  · simp only [if_pos named, removeObjectByName_eq, State.setHeader]
    split <;> rfl
  · simp only [if_neg named, State.setHeader]
    split <;> rfl

end

/-! ## The counters count -/

/-- The headers say that each object `o` has `R o` references, and those with none are
the ones destroyed. -/
structure Counts (s : State) (R : Nat → Nat) : Prop where
  refCount : ∀ o, (s.headers o).refCount = BitVec.ofNat 32 (R o)
  live : ∀ o, s.Live o ↔ 0 < R o
  fresh : ∀ o, s.count ≤ o → R o = 0 ∧ s.closes o = 0
  onClose : ∀ o, o < s.count → (s.headers o).type.any ObType.onClose = true →
    s.closes o = if R o = 0 then 1 else 0

variable {s t : State} {R : Nat → Nat} {o n : Nat} {hdr : ObjectHeader}

/-- The tables do not matter. -/
theorem Counts.tables (h : Counts s R) (ktable : Fin OB_HANDLE_TABLE_SIZE → HandleEntry)
    (ns : Fin OB_NAMESPACE_SIZE → NamespaceEntry) :
    Counts { s with ktable := ktable, ns := ns } R :=
  ⟨h.refCount, h.live, h.fresh, h.onClose⟩

/-- A living object has a header. -/
theorem Counts.old (h : Counts s R) (live : s.Live o) : o < s.count := by
  by_contra above
  have none := (h.fresh o (Nat.le_of_not_lt above)).1
  have some := (h.live o).mp live
  omega

/-- A living object gets a new count. -/
theorem Counts.setHeader (h : Counts s R) (live : s.Live o) (magic : hdr.magic = OB_MAGIC)
    (type : hdr.type = (s.headers o).type) (count : hdr.refCount = BitVec.ofNat 32 n)
    (pos : 0 < n) : Counts (s.setHeader o hdr) (Function.update R o n) := by
  have old := h.old live
  refine ⟨fun a => ?_, fun a => ?_, fun a ha => ?_, fun a ha closes => ?_⟩
  all_goals
    simp only [State.setHeader, State.Live] at *
    by_cases e : a = o
  · rw [e, Function.update_self, Function.update_self, count]
  · rw [Function.update_of_ne e, Function.update_of_ne e, h.refCount a]
  · rw [e, Function.update_self, Function.update_self, magic]
    exact iff_of_true rfl pos
  · rw [Function.update_of_ne e, Function.update_of_ne e]
    exact h.live a
  · exact absurd old (Nat.not_lt.mpr (e ▸ ha))
  · rw [Function.update_of_ne e]
    exact h.fresh a ha
  · rw [e] at closes ⊢
    rw [Function.update_self, type] at closes
    rw [Function.update_self, h.onClose o old closes, if_neg, if_neg]
    · exact Nat.ne_of_gt pos
    · exact Nat.ne_of_gt ((h.live o).mp live)
  · rw [Function.update_of_ne e] at closes ⊢
    exact h.onClose a ha closes

theorem Counts.reference (h : Counts s R) (live : s.Live o) :
    Counts (referenceObject s (some o)) (Function.update R o (R o + 1)) := by
  have magic : (s.headers o).magic = OB_MAGIC := live
  unfold referenceObject
  dsimp only
  rw [if_neg (not_not_intro magic)]
  refine h.setHeader live magic rfl ?_ (Nat.succ_pos _)
  rw [h.refCount o, ofNat_succ]

/-- A living object whose count has become 0 is destroyed. -/
theorem Counts.destroyed (h : Counts s R) (live : s.Live o)
    (type : hdr.type = (s.headers o).type) (count : hdr.refCount = 0) :
    Counts (destroyed (s.setHeader o hdr) o) (Function.update R o 0) := by
  have old := h.old live
  refine ⟨fun a => ?_, fun a => ?_, fun a ha => ?_, fun a ha closes => ?_⟩
  all_goals
    simp only [OB.destroyed, State.setHeader, State.Live, Function.update_self,
      Function.update_idem] at *
    by_cases e : a = o
  · rw [e, Function.update_self, Function.update_self, count]
    rfl
  · rw [Function.update_of_ne e, Function.update_of_ne e, h.refCount a]
  · rw [e, Function.update_self, Function.update_self]
    exact iff_of_false (fun no : (0 : u32) = OB_MAGIC => absurd no (by decide)) (Nat.lt_irrefl 0)
  · rw [Function.update_of_ne e, Function.update_of_ne e]
    exact h.live a
  · exact absurd old (Nat.not_lt.mpr (e ▸ ha))
  · rw [Function.update_of_ne e]
    refine ⟨(h.fresh a ha).1, ?_⟩
    split
    · rw [Function.update_of_ne e]
      exact (h.fresh a ha).2
    · exact (h.fresh a ha).2
  · rw [e] at closes ⊢
    rw [Function.update_self] at closes
    rw [if_pos closes, Function.update_self, Function.update_self, if_pos rfl]
    rw [type] at closes
    rw [h.onClose o old closes, if_neg (Nat.ne_of_gt ((h.live o).mp live))]
  · rw [Function.update_of_ne e] at closes ⊢
    rw [← h.onClose a ha closes]
    split
    · rw [Function.update_of_ne e]
    · rfl

/-- **A reference is dropped**: the count goes down, and the object is destroyed with
its last reference. -/
theorem Counts.dereference (h : Counts s R) (live : s.Live o) (small : R o < 2 ^ 31) :
    Counts (dereferenceObject s (some o)) (Function.update R o (R o - 1)) := by
  have magic : (s.headers o).magic = OB_MAGIC := live
  have pos := (h.live o).mp live
  have ref : (s.headers o).refCount - 1 = BitVec.ofNat 32 (R o - 1) := by
    rw [h.refCount o, ofNat_pred pos]
  unfold dereferenceObject
  dsimp only
  rw [if_neg (not_not_intro magic), ref]
  split
  case isTrue zero =>
    have last := (ofNat_sle_zero (by omega)).mp zero
    rw [last]
    have dead : Counts (OB.destroyed (s.setHeader o { s.headers o with refCount := 0 }) o)
        (Function.update R o 0) := h.destroyed live rfl rfl
    rw [destroy_eq]
    exact dead.tables s.ktable _
  case isFalse more =>
    refine h.setHeader live magic rfl rfl ?_
    exact Nat.pos_of_ne_zero fun last => more ((ofNat_sle_zero (by omega)).mpr last)

/-- A new object has its creation reference. -/
theorem Counts.newObject (h : Counts s R) (type : Option ObType) (name : Option (List u8)) :
    Counts (newObject s type name true).1 (Function.update R s.count 1) := by
  refine ⟨fun a => ?_, fun a => ?_, fun a ha => ?_, fun a ha closes => ?_⟩
  all_goals
    simp only [OB.newObject, State.setHeader, State.Live, if_true] at *
    by_cases e : a = s.count
  · rw [e, Function.update_self, Function.update_self]
    rfl
  · rw [Function.update_of_ne e, Function.update_of_ne e, h.refCount a]
  · rw [e, Function.update_self, Function.update_self]
    exact iff_of_true rfl Nat.one_pos
  · rw [Function.update_of_ne e, Function.update_of_ne e]
    exact h.live a
  · omega
  · rw [Function.update_of_ne e]
    exact h.fresh a (by omega)
  · rw [e, Function.update_self, if_neg Nat.one_ne_zero]
    exact (h.fresh s.count le_rfl).2
  · rw [Function.update_of_ne e] at closes ⊢
    exact h.onClose a (by omega) closes

/-! ## The handle table and the callers' references -/

/-- The headers count the open handles, and all references. -/
structure Inv (sys : System) : Prop where
  counts : Counts sys.state (refs sys)
  handleCount : ∀ o, (sys.state.headers o).handleCount = BitVec.ofNat 32 (handles sys.state o)

variable {sys : System} {i : Fin OB_HANDLE_TABLE_SIZE} {h : HANDLE}

theorem handles_pos (open_ : (s.ktable i).object = some o) : 0 < handles s o :=
  tally_pos (Finset.mem_univ i) open_

/-- An open handle's object is alive. -/
theorem Inv.open_live (inv : Inv sys) (open_ : (sys.state.ktable i).object = some o) :
    sys.state.Live o := by
  refine (inv.counts.live o).mpr ?_
  have pos := handles_pos open_
  unfold refs
  omega

/-- The state with a handle to an object in entry `i`. -/
def opened (s : State) (o : Nat) (i : Fin OB_HANDLE_TABLE_SIZE) (access : u32) : State :=
  ({ s with ktable := Function.update s.ktable i ⟨some o, access⟩ } : State).setHeader o
    { s.headers o with
      handleCount := (s.headers o).handleCount + 1
      refCount := (s.headers o).refCount + 1 }

/-- The state with a handle closed and its reference still to be dropped. -/
def closing (s : State) (o : Nat) (i : Fin OB_HANDLE_TABLE_SIZE) : State :=
  ({ s with ktable := Function.update s.ktable i ⟨none, 0⟩ } : State).setHeader o
    { s.headers o with handleCount := (s.headers o).handleCount - 1 }

theorem handles_opened (free : (s.ktable i).object = none) (access : u32) (a : Nat) :
    handles (opened s o i access) a = if a = o then handles s a + 1 else handles s a := by
  have empty : ¬ (s.ktable i).object = some a := free ▸ (Option.some_ne_none a).symm
  split
  case isTrue e => exact tally_enter (Finset.mem_univ i) empty (congrArg some e.symm)
  case isFalse e => exact tally_same (iff_of_false (fun no => e (Option.some.inj no).symm) empty)

theorem handles_closing (open_ : (s.ktable i).object = some o) (a : Nat) :
    handles (closing s o i) a = if a = o then handles s a - 1 else handles s a := by
  have empty : ¬ (none : Option Nat) = some a := (Option.some_ne_none a).symm
  split
  case isTrue e => exact tally_leave (Finset.mem_univ i) (e ▸ open_) empty
  case isFalse e =>
    refine tally_same (iff_of_false empty ?_)
    rw [open_]
    exact fun no => e (Option.some.inj no).symm

/-! ### Where the references are -/

theorem refs_state (sys : System) (same : s.ktable = sys.state.ktable) :
    refs { sys with state := s } = refs sys := by
  funext a
  simp only [refs, handles, same]

theorem refs_took (same : s.ktable = sys.state.ktable) :
    refs (sys.took s (some o)) = Function.update (refs sys) o (refs sys o + 1) := by
  refine Function.eq_update_iff.mpr ⟨?_, fun a other => ?_⟩
  · simp only [refs, handles, System.took, same, Function.update_self]
    omega
  · simp only [refs, handles, System.took, same, Function.update_of_ne other]

theorem refs_made (same : s.ktable = sys.state.ktable) (fresh : refs sys o = 0) :
    refs (sys.made s (some o)) = Function.update (refs sys) o 1 := by
  refine Function.eq_update_iff.mpr ⟨?_, fun a other => ?_⟩
  · simp only [refs, handles, System.made, same, Function.update_self, Bool.toNat_true] at fresh ⊢
    omega
  · simp only [refs, handles, System.made, same, Function.update_of_ne other]

theorem refs_dropped (same : s.ktable = sys.state.ktable) {ref : Ref}
    (held : Held sys (.dereferenceObject (some o) ref)) :
    refs (sys.dropped s o ref) = Function.update (refs sys) o (refs sys o - 1) ∧ 0 < refs sys o := by
  cases ref with
  | creation =>
    have held : sys.created o = true := held
    refine ⟨Function.eq_update_iff.mpr ⟨?_, fun a other => ?_⟩, ?_⟩
    · simp only [refs, handles, System.dropped, same, Function.update_self, held, Bool.toNat_true,
        Bool.toNat_false]
      omega
    · simp only [refs, handles, System.dropped, same, Function.update_of_ne other]
    · simp only [refs, held, Bool.toNat_true]
      omega
  | taken =>
    have held : 0 < sys.taken o := held
    refine ⟨Function.eq_update_iff.mpr ⟨?_, fun a other => ?_⟩, ?_⟩
    · simp only [refs, handles, System.dropped, same, Function.update_self]
      omega
    · simp only [refs, handles, System.dropped, same, Function.update_of_ne other]
    · unfold refs
      omega

/-! ## Every operation counts -/

theorem referenceObject_ktable (s : State) (object : Option Nat) :
    (referenceObject s object).ktable = s.ktable := by
  unfold referenceObject
  split
  · rfl
  · dsimp only
    split <;> rfl

theorem referenceObject_handleCount (s : State) (object : Option Nat) (a : Nat) :
    ((referenceObject s object).headers a).handleCount = (s.headers a).handleCount := by
  unfold referenceObject
  split
  case h_1 => rfl
  case h_2 o =>
    dsimp only
    split
    · rfl
    · by_cases e : a = o
      · simp only [State.setHeader, e, Function.update_self]
      · simp only [State.setHeader, Function.update_of_ne e]

theorem dereferenceObject_ktable (s : State) (object : Option Nat) :
    (dereferenceObject s object).ktable = s.ktable := by
  unfold dereferenceObject
  split
  · rfl
  · dsimp only
    split
    · rfl
    · split
      · rw [destroy_eq]
        rfl
      · rfl

theorem dereferenceObject_handleCount (s : State) (object : Option Nat) (a : Nat) :
    ((dereferenceObject s object).headers a).handleCount = (s.headers a).handleCount := by
  unfold dereferenceObject
  split
  case h_1 => rfl
  case h_2 o =>
    dsimp only
    split
    · rfl
    · split
      · rw [destroy_eq]
        by_cases e : a = o
        · simp only [OB.destroyed, State.setHeader, e, Function.update_self]
        · simp only [OB.destroyed, State.setHeader, Function.update_of_ne e]
      · by_cases e : a = o
        · simp only [State.setHeader, e, Function.update_self]
        · simp only [State.setHeader, Function.update_of_ne e]

/-- A state with the same handles and handle counts. -/
theorem Inv.keep (inv : Inv sys) {t : System} (same : t.state.ktable = sys.state.ktable)
    (counted : ∀ a, (t.state.headers a).handleCount = (sys.state.headers a).handleCount)
    (counts : Counts t.state (refs t)) : Inv t := by
  refine ⟨counts, fun a => ?_⟩
  rw [counted a, inv.handleCount a]
  simp only [handles, same]

/-- A reference is handed out. -/
theorem Inv.took (inv : Inv sys) (live : sys.state.Live o) :
    Inv (sys.took (referenceObject sys.state (some o)) (some o)) := by
  have same := referenceObject_ktable sys.state (some o)
  refine inv.keep same (referenceObject_handleCount sys.state (some o)) ?_
  rw [refs_took same]
  exact inv.counts.reference live

/-- An object is created. -/
theorem Inv.made (inv : Inv sys) (type : Option ObType) (name : Option (List u8))
    (ns : Fin OB_NAMESPACE_SIZE → NamespaceEntry) :
    Inv (sys.made { (newObject sys.state type name true).1 with ns := ns }
      (some sys.state.count)) := by
  have fresh := (inv.counts.fresh sys.state.count le_rfl).1
  have none_open : handles sys.state sys.state.count = 0 := by
    unfold refs at fresh
    omega
  refine ⟨?_, fun a => ?_⟩
  · rw [refs_made (s := { (newObject sys.state type name true).1 with ns := ns }) rfl fresh]
    exact (inv.counts.newObject type name).tables sys.state.ktable ns
  · by_cases e : a = sys.state.count
    · subst e
      simp only [System.made, OB.newObject, State.setHeader, if_true, Function.update_self]
      exact (congrArg (BitVec.ofNat 32) none_open).symm
    · simp only [System.made, OB.newObject, State.setHeader, if_true, Function.update_of_ne e]
      exact inv.handleCount a

/-- What the entry of a handle holds. -/
theorem lookup_open (found : lookup s h = some (i, o)) : (s.ktable i).object = some o := by
  obtain ⟨j, -, entry⟩ := Option.bind_eq_some_iff.mp found
  obtain ⟨a, holds, e⟩ := Option.map_eq_some_iff.mp entry
  cases e
  exact holds

theorem alloc_spec {access : u32} (got : alloc s o access = some (t, i)) :
    (s.ktable i).object = none ∧
      t = { s with ktable := Function.update s.ktable i ⟨some o, access⟩ } := by
  obtain ⟨j, found, e⟩ := Option.map_eq_some_iff.mp got
  have free := List.find?_some found
  cases e
  exact ⟨Option.isNone_iff_eq_none.mp free, rfl⟩

/-- A handle is given to a living object, or nothing changes. -/
theorem insertObject_cases (s : State) (object : Option Nat) (access : u32) (out : Bool) :
    (insertObject s object access out).1 = s ∨
      ∃ o i, s.Live o ∧ (s.ktable i).object = none ∧
        (insertObject s object access out).1 = opened s o i access := by
  unfold insertObject
  split
  case h_1 o =>
    split
    case isTrue => exact .inl rfl
    case isFalse live =>
      split
      case h_1 => exact .inl rfl
      case h_2 t i got =>
        obtain ⟨free, rfl⟩ := alloc_spec got
        exact .inr ⟨o, i, not_not.mp live, free, rfl⟩
  case h_2 => exact .inl rfl

theorem Inv.insertObject (inv : Inv sys) (object : Option Nat) (access : u32) (out : Bool) :
    Inv { sys with state := (insertObject sys.state object access out).1 } := by
  obtain e | ⟨o, i, live, free, e⟩ := insertObject_cases sys.state object access out
  · rw [e]
    exact inv
  rw [e]
  have count := handles_opened (o := o) free access
  have counted : refs { sys with state := opened sys.state o i access } =
      Function.update (refs sys) o (refs sys o + 1) := by
    refine Function.eq_update_iff.mpr ⟨?_, fun a other => ?_⟩
    · simp only [refs, count, if_true]
      omega
    · simp only [refs, count, if_neg other]
  refine ⟨?_, fun a => ?_⟩
  · rw [counted]
    refine (inv.counts.tables _ sys.state.ns).setHeader live live rfl ?_ (Nat.succ_pos _)
    rw [inv.counts.refCount o, ofNat_succ]
  · dsimp only
    rw [count]
    by_cases e : a = o
    · subst e
      rw [if_pos rfl, ← ofNat_succ, ← inv.handleCount a]
      simp only [opened, State.setHeader, Function.update_self]
    · rw [if_neg e, ← inv.handleCount a]
      simp only [opened, State.setHeader, Function.update_of_ne e]

theorem closeHandle_absent (absent : lookup s h = none) : (closeHandle s h).1 = s := by
  unfold closeHandle
  rw [absent]

/-- An open handle of a living object is closed. -/
theorem closeHandle_live (found : lookup s h = some (i, o)) (live : s.Live o) :
    (closeHandle s h).1 = dereferenceObject (closing s o i) (some o) := by
  have magic : (s.headers o).magic = OB_MAGIC := live
  unfold closeHandle
  simp only [found, free]
  rw [if_neg (by decide), if_pos magic]
  rfl

theorem Inv.closeHandle (inv : Inv sys) (few : Few sys) (h : HANDLE) :
    Inv { sys with state := (closeHandle sys.state h).1 } := by
  cases found : lookup sys.state h with
  | none =>
    rw [closeHandle_absent found]
    exact inv
  | some e =>
  obtain ⟨i, o⟩ := e
  have open_ := lookup_open found
  have live := inv.open_live open_
  rw [closeHandle_live found live]
  have pos := handles_pos open_
  have count := handles_closing open_
  have same := dereferenceObject_ktable (closing sys.state o i) (some o)
  have counts : Counts (closing sys.state o i) (Function.update (refs sys) o (refs sys o)) :=
    (inv.counts.tables _ sys.state.ns).setHeader live live rfl (inv.counts.refCount o)
      ((inv.counts.live o).mp live)
  rw [Function.update_eq_self] at counts
  have live' : (closing sys.state o i).Live o :=
    (counts.live o).mpr ((inv.counts.live o).mp live)
  have counted : refs { sys with state := dereferenceObject (closing sys.state o i) (some o) } =
      Function.update (refs sys) o (refs sys o - 1) := by
    rw [refs_state { sys with state := closing sys.state o i } same]
    refine Function.eq_update_iff.mpr ⟨?_, fun a other => ?_⟩
    · simp only [refs, count, if_true]
      omega
    · simp only [refs, count, if_neg other]
  refine ⟨?_, fun a => ?_⟩
  · rw [counted]
    exact counts.dereference live' (few o)
  · dsimp only
    rw [dereferenceObject_handleCount, handles, same]
    show _ = BitVec.ofNat 32 (handles (closing sys.state o i) a)
    rw [count]
    by_cases e : a = o
    · subst e
      rw [if_pos rfl, ← ofNat_pred pos, ← inv.handleCount a]
      simp only [closing, State.setHeader, Function.update_self]
    · rw [if_neg e, ← inv.handleCount a]
      simp only [closing, State.setHeader, Function.update_of_ne e]

/-- A new object is all that an allocation makes, but for its name. -/
theorem allocateObject_cases (s : State) (type : Option ObType) (path : Option (List u8))
    (granted : Bool) :
    allocateObject s type path granted = (s, none) ∨
      ∃ ns, allocateObject s type path granted =
        ({ (newObject s type path true).1 with ns := ns }, some s.count) := by
  unfold allocateObject
  split
  case h_1 => exact .inl rfl
  case h_2 type =>
    cases granted with
    | false => exact .inl rfl
    | true =>
      have new : newObject s (some type) path true =
          ((newObject s (some type) path true).1, some s.count) := rfl
      rw [new]
      dsimp only
      refine .inr ?_
      split
      · obtain ⟨ns, e⟩ := insertObjectByName_state (newObject s (some type) path true).1
          (some s.count) path
        exact ⟨ns, by rw [e]⟩
      · exact ⟨s.ns, rfl⟩

theorem findLive_spec {path : List u8} (found : findLive s path = some o) :
    s.Live o ∧ ∃ i, (s.ns i).object = some o ∧ (s.ns i).path = path := by
  obtain ⟨i, -, entry⟩ := List.exists_of_findSome?_eq_some found
  split at entry
  · cases entry
  case h_2 a holds =>
    split at entry
    case isTrue both =>
      cases entry
      rw [Bool.and_eq_true] at both
      exact ⟨of_decide_eq_true both.2, i, holds, strEq_iff.mp both.1⟩
    case isFalse => cases entry

/-- A reference to a living object is taken, or nothing changes. -/
theorem referenceObjectByHandle_cases (s : State) (h : HANDLE) (expected : Option ObType)
    (out : Bool) :
    (∃ st, referenceObjectByHandle s h expected out = (s, st, none)) ∨
      ∃ o, s.Live o ∧ referenceObjectByHandle s h expected out =
        (referenceObject s (some o), STATUS_SUCCESS, some o) := by
  unfold referenceObjectByHandle
  split
  · exact .inl ⟨_, rfl⟩
  · split
    case h_1 => exact .inl ⟨_, rfl⟩
    case h_2 o _ =>
      split
      case isTrue => exact .inl ⟨_, rfl⟩
      case isFalse live =>
        split
        · exact .inl ⟨_, rfl⟩
        · exact .inr ⟨o, not_not.mp live, rfl⟩

theorem lookupObjectByName_cases (s : State) (path : Option (List u8)) (expected : Option ObType)
    (out : Bool) :
    (∃ st, lookupObjectByName s path expected out = (s, st, none)) ∨
      ∃ o, s.Live o ∧ lookupObjectByName s path expected out =
        (referenceObject s (some o), STATUS_SUCCESS, some o) := by
  unfold lookupObjectByName
  split
  case h_1 p =>
    split
    case h_1 => exact .inl ⟨_, rfl⟩
    case h_2 o found =>
      split
      · exact .inl ⟨_, rfl⟩
      · exact .inr ⟨o, (findLive_spec found).1, rfl⟩
  case h_2 => exact .inl ⟨_, rfl⟩

/-- A state that differs in the namespace only. -/
theorem Inv.names (inv : Inv sys) (ns : Fin OB_NAMESPACE_SIZE → NamespaceEntry) :
    Inv { sys with state := { sys.state with ns := ns } } :=
  ⟨inv.counts.tables sys.state.ktable ns, inv.handleCount⟩

/-- **One operation** keeps the counts. -/
theorem Inv.next (inv : Inv sys) (few : Few sys) {op : Op} (held : Held sys op) :
    Inv (OB.next sys op) := by
  cases op with
  | allocateObject type path granted =>
    dsimp only [OB.next]
    obtain e | ⟨ns, e⟩ := allocateObject_cases sys.state type path granted
    · rw [e]
      exact inv
    · rw [e]
      exact inv.made type path ns
  | allocateObjectRaw name granted =>
    cases granted with
    | false => exact inv
    | true => exact inv.made none name sys.state.ns
  | referenceObject object =>
    cases object with
    | none => exact inv
    | some o =>
      dsimp only [OB.next]
      by_cases live : sys.state.Live o
      · rw [Option.filter_some, if_pos (decide_eq_true live)]
        exact inv.took live
      · have dead : (sys.state.headers o).magic ≠ OB_MAGIC := live
        rw [Option.filter_some, if_neg fun no => live (of_decide_eq_true no)]
        unfold referenceObject
        dsimp only
        rw [if_pos dead]
        exact inv
  | dereferenceObject object ref =>
    cases object with
    | none => exact inv
    | some o =>
      dsimp only [OB.next]
      have same := dereferenceObject_ktable sys.state (some o)
      obtain ⟨counted, pos⟩ := refs_dropped same held
      have state : (sys.dropped (dereferenceObject sys.state (some o)) o ref).state =
          dereferenceObject sys.state (some o) := by cases ref <;> rfl
      refine inv.keep ?_ ?_ ?_
      all_goals rw [state]
      · exact same
      · exact dereferenceObject_handleCount sys.state (some o)
      · rw [counted]
        exact inv.counts.dereference ((inv.counts.live o).mpr pos) (few o)
  | insertObject object access out => exact inv.insertObject object access out
  | closeHandle h => exact inv.closeHandle few h
  | referenceObjectByHandle h expected out =>
    dsimp only [OB.next]
    obtain ⟨st, e⟩ | ⟨o, live, e⟩ := referenceObjectByHandle_cases sys.state h expected out
    · rw [e]
      exact inv
    · rw [e]
      exact inv.took live
  | insertObjectByName object path =>
    dsimp only [OB.next]
    obtain ⟨ns, e⟩ := insertObjectByName_state sys.state object path
    rw [e]
    exact inv.names ns
  | removeObjectByName path =>
    dsimp only [OB.next]
    cases path with
    | none => exact inv
    | some p =>
      rw [removeObjectByName_eq]
      exact inv.names _
  | lookupObjectByName path expected out =>
    dsimp only [OB.next]
    obtain ⟨st, e⟩ | ⟨o, live, e⟩ := lookupObjectByName_cases sys.state path expected out
    · rw [e]
      exact inv
    · rw [e]
      exact inv.took live

theorem Inv.init : Inv System.init := by
  have none_open : ∀ o, handles State.init o = 0 := fun o =>
    tally_eq_zero.mpr fun i _ => (Option.some_ne_none o).symm
  have none_held : ∀ o, refs System.init o = 0 := fun o => by
    simp only [refs, System.init, none_open, Bool.toNat_false]
  refine ⟨⟨fun o => ?_, fun o => ?_, fun o _ => ⟨none_held o, rfl⟩, fun o ho => ?_⟩, fun o => ?_⟩
  · rw [none_held o]
    rfl
  · rw [none_held o]
    exact iff_of_false (fun no : (0 : u32) = OB_MAGIC => absurd no (by decide)) (Nat.lt_irrefl 0)
  · exact absurd ho (Nat.not_lt_zero o)
  · simp only [System.init, none_open]
    rfl

/-- A reference is taken to a living object, and it stays so. -/
theorem Inv.took_live (inv : Inv sys) (live : sys.state.Live o) :
    (referenceObject sys.state (some o)).Live o := by
  refine ((inv.took live).counts.live o).mpr ?_
  rw [refs_took (referenceObject_ktable sys.state (some o)), Function.update_self]
  exact Nat.succ_pos _

theorem Inv.exact (inv : Inv sys) (few : Few sys) : Exact sys where
  refCount o _ := by rw [inv.counts.refCount o, ofNat_toInt (few o)]
  handleCount o _ := by
    rw [inv.handleCount o, ofNat_toInt]
    have bound := few o
    unfold refs at bound
    omega
  destroyed o := by rw [inv.counts.live o, Nat.pos_iff_ne_zero, not_not]
  onClose := inv.counts.onClose
  handle _ _ open_ := inv.open_live open_
  byHandle h expected out s o e := by
    obtain ⟨st, e'⟩ | ⟨a, live, e'⟩ := referenceObjectByHandle_cases sys.state h expected out
    all_goals
      rw [e'] at e
      cases e
    exact inv.took_live live
  byName path expected out s o e := by
    obtain ⟨st, e'⟩ | ⟨a, live, e'⟩ := lookupObjectByName_cases sys.state path expected out
    all_goals
      rw [e'] at e
      cases e
    exact inv.took_live live

/-- **Counts are exact** along every run in which callers only drop what they hold, if
and only if no object ever has `2 ^ 31` references. -/
theorem references_exact_iff (ops : List Op) (held : Along OB.step Held System.init ops) :
    Always OB.step Exact System.init ops ↔ Always OB.step Few System.init ops := by
  refine ⟨Always.mono fun _ => Exact.few, fun few => ?_⟩
  have guard : Along OB.step (fun sys _ => Few sys) System.init ops := few.along fun _ _ h => h
  have counted : Always OB.step Inv System.init ops :=
    always_invariant (fun _ _ _ inv g h => Option.some.inj h ▸ inv.next g.2 g.1) Inv.init (held.and guard)
  exact (counted.and few).mono fun _ h => h.1.exact h.2

/-- The smoke test of the kernel's start: an object gets a handle, a caller looks it up,
and both references are dropped. -/
theorem references_exact_iff_smoke :
    Always OB.step Exact System.init
        [.allocateObjectRaw none true, .insertObject (some 0) 0 true,
          .referenceObjectByHandle 8 none true, .dereferenceObject (some 0) .taken,
          .closeHandle 8] ↔
      Always OB.step Few System.init
        [.allocateObjectRaw none true, .insertObject (some 0) 0 true,
          .referenceObjectByHandle 8 none true, .dereferenceObject (some 0) .taken,
          .closeHandle 8] := by
  refine references_exact_iff _ ⟨trivial, fun a first => ?_⟩
  cases first
  refine ⟨trivial, fun b second => ?_⟩
  cases second
  refine ⟨trivial, fun c third => ?_⟩
  cases third
  refine ⟨?_, fun _ _ => ⟨trivial, fun _ _ => trivial⟩⟩
  exact (by decide +kernel : 0 < (OB.next (OB.next (OB.next System.init
    (.allocateObjectRaw none true)) (.insertObject (some 0) 0 true))
      (.referenceObjectByHandle 8 none true)).taken 0)

/-! ### The counter wraps -/

theorem took_reference (live : sys.state.Live o) :
    ((OB.next sys (.referenceObject (some o))).state.Live o) ∧
      refs (OB.next sys (.referenceObject (some o))) o = refs sys o + 1 := by
  have magic : (sys.state.headers o).magic = OB_MAGIC := live
  have same := refs_took (o := o) (referenceObject_ktable sys.state (some o))
  dsimp only [OB.next]
  rw [Option.filter_some, if_pos (decide_eq_true live), same, Function.update_self]
  refine ⟨?_, rfl⟩
  unfold System.took referenceObject
  dsimp only
  rw [if_neg (not_not_intro magic)]
  simp only [State.Live, State.setHeader, Function.update_self, magic]

/-- References pile up. -/
theorem references_pile (live : sys.state.Live o) (n : Nat) :
    ∃ t, run OB.step sys (List.replicate n (.referenceObject (some o))) = some t ∧
      refs t o = refs sys o + n := by
  induction n generalizing sys with
  | zero => exact ⟨sys, rfl, rfl⟩
  | succ n ih =>
    obtain ⟨live', more⟩ := took_reference live
    obtain ⟨t, reached, total⟩ := ih live'
    exact ⟨t, reached, by rw [total, more]; omega⟩

/-- An object is created and `n` more references to it are taken. -/
def piling (n : Nat) : List Op :=
  .allocateObjectRaw none true :: List.replicate n (.referenceObject (some 0))

theorem piling_held (n : Nat) : Along OB.step Held System.init (piling n) := by
  refine along_of_forall_mem (G := fun op => ∀ sys, Held sys op) ?_ _ |>.mono fun sys _ h => h sys
  intro op hop sys
  unfold piling at hop
  obtain rfl | more := List.mem_cons.mp hop
  · trivial
  · rw [List.eq_of_mem_replicate more]
    trivial

/-- Exact counts bound how many references there can be. -/
theorem piling_bound {n : Nat} (exact_ : Always OB.step Exact System.init (piling n)) :
    n + 1 < 2 ^ 31 := by
  let first := OB.next System.init (.allocateObjectRaw none true)
  have live : first.state.Live 0 := rfl
  obtain ⟨t, reached, total⟩ := references_pile live n
  have few := (exact_.mono fun _ => Exact.few).last (t := t) reached 0
  have counted : Inv first := Inv.init.next (Exact.few exact_.1) trivial
  have pos := (counted.counts.live 0).mp live
  omega

/-- **Too many references**: an object is created and `2 ^ 31 - 1` more references to it
are taken, and its counter is negative. -/
theorem piling_not_exact :
    Along OB.step Held System.init (piling (2 ^ 31 - 1)) ∧
      ¬ Always OB.step Exact System.init (piling (2 ^ 31 - 1)) :=
  ⟨piling_held _, fun exact_ => absurd (piling_bound exact_) (by omega)⟩

end MicroNT.OB
