import MicroNT.Base.Machine
import MicroNT.ObjectReferences

/-! # Names

An object's name is kept twice: the namespace has the whole path, and the header the
first 63 bytes of the path that `AllocateObject` was given. A destroyed object takes
away the entry under its header's name, whosever it is. -/

namespace MicroNT.OB
open Base.Machine

variable {s t : State} {i j : Fin OB_NAMESPACE_SIZE} {p : List u8} {o d : Nat}

/-! ## The namespace -/

/-- Entry `i` is in use, under the path `p`. -/
def Under (s : State) (i : Fin OB_NAMESPACE_SIZE) (p : List u8) : Prop :=
  (s.ns i).object.isSome = true ∧ (s.ns i).path = p

/-- Paths are accepted ones, and no two entries have the same. -/
structure Names (s : State) : Prop where
  accepted : ∀ i p, Under s i p → p.head? = some 0x5C#8 ∧ p.length < PATH_SIZE
  distinct : ∀ i j p, Under s i p → Under s j p → i = j

theorem findPath_some (found : findPath s p = some i) : Under s i p := by
  have both := List.find?_some found
  rw [Bool.and_eq_true, strEq_iff] at both
  exact both

theorem findPath_none (found : findPath s p = none) (i : Fin OB_NAMESPACE_SIZE) :
    ¬ Under s i p := by
  intro under
  have no := List.find?_eq_none.mp found i (List.mem_finRange i)
  rw [Bool.and_eq_true, strEq_iff] at no
  exact no under

theorem Names.findPath_eq (names : Names s) (under : Under s i p) : findPath s p = some i := by
  cases found : findPath s p with
  | none => exact absurd under (findPath_none found i)
  | some j => rw [names.distinct i j p under (findPath_some found)]

theorem findSlot_some (found : findSlot s = some i) : (s.ns i).object = none := by
  have free := List.find?_some found
  exact Option.isNone_iff_eq_none.mp free

theorem findSlot_none (found : findSlot s = none) (i : Fin OB_NAMESPACE_SIZE) :
    (s.ns i).object ≠ none := fun free =>
  List.find?_eq_none.mp found i (List.mem_finRange i) (Option.isNone_iff_eq_none.mpr free)

theorem Names.without_under (names : Names s) (under : Under s i p) :
    without s p = Function.update s.ns i ⟨[], none⟩ := by
  unfold without
  rw [names.findPath_eq under]

theorem without_absent (absent : ∀ i, ¬ Under s i p) : without s p = s.ns := by
  unfold without
  cases found : findPath s p with
  | none => rfl
  | some i => exact absurd (findPath_some found) (absent i)

/-- The other entries stay. -/
theorem Names.without_other (names : Names s) (other : (s.ns i).path ≠ p) :
    without s p i = s.ns i := by
  by_cases present : ∃ j, Under s j p
  · obtain ⟨j, under⟩ := present
    have apart : i ≠ j := fun e => other (e ▸ under.2)
    rw [names.without_under under, Function.update_of_ne apart]
  · rw [without_absent fun j under => present ⟨j, under⟩]

/-! ## Who destroys what -/

/-- The object is alive and about to lose its last reference. -/
def Last (s : State) (o : Nat) : Prop :=
  s.Live o ∧ ((s.headers o).refCount - 1).sle 0 = true

/-- The call drops a reference to `o`. -/
def Drops (s : State) (o : Nat) : Op → Prop
  | .dereferenceObject (some a) _ => a = o
  | .closeHandle h => ∃ i, lookup s h = some (i, o)
  | _ => False

theorem dereference_last (last : Last s o) :
    (dereferenceObject s (some o)).ns = namesWithout s o ∧
      ∀ a, (dereferenceObject s (some o)).Live a ↔ a ≠ o ∧ s.Live a := by
  have magic : (s.headers o).magic = OB_MAGIC := last.1
  unfold dereferenceObject
  dsimp only
  rw [if_neg (not_not_intro magic), if_pos last.2, destroy_eq]
  refine ⟨?_, fun a => ?_⟩
  · simp only [namesWithout, State.setHeader, Function.update_self]
    rfl
  · simp only [destroyed, State.Live, State.setHeader, Function.update_self, Function.update_idem]
    by_cases e : a = o
    · rw [e, Function.update_self]
      exact iff_of_false (fun no : (0 : u32) = OB_MAGIC => absurd no (by decide))
        fun no => no.1 rfl
    · rw [Function.update_of_ne e, and_iff_right e]

theorem dereference_kept (more : ¬ Last s o) : (dereferenceObject s (some o)).ns = s.ns := by
  unfold dereferenceObject
  dsimp only
  split
  case isTrue => rfl
  case isFalse magic =>
    rw [if_neg fun zero => more ⟨not_not.mp magic, zero⟩]
    rfl

theorem closing_last {k : Fin OB_HANDLE_TABLE_SIZE} : Last (closing s o k) o ↔ Last s o := by
  simp only [Last, closing, State.Live, State.setHeader, Function.update_self]

theorem closing_live {k : Fin OB_HANDLE_TABLE_SIZE} (a : Nat) :
    (closing s o k).Live a ↔ s.Live a := by
  by_cases e : a = o
  · simp only [closing, State.Live, State.setHeader, e, Function.update_self]
  · simp only [closing, State.Live, State.setHeader, Function.update_of_ne e]

theorem closing_namesWithout {k : Fin OB_HANDLE_TABLE_SIZE} :
    namesWithout (closing s o k) o = namesWithout s o := by
  simp only [namesWithout, closing, State.setHeader, Function.update_self]
  rfl

/-! ## What a call does to the names -/

variable {sys : System} {op : Op}

theorem dropped_state (s : State) (ref : Ref) : (sys.dropped s o ref).state = s := by
  cases ref <;> rfl

theorem took_state (s : State) (object : Option Nat) : (sys.took s object).state = s := by
  cases object <;> rfl

theorem made_state (s : State) (object : Option Nat) : (sys.made s object).state = s := by
  cases object <;> rfl

/-- **The last reference is dropped**: the object dies and the entry under its header's
name goes. -/
theorem next_last (last : Last sys.state d) (drops : Drops sys.state d op) :
    (next sys op).state.ns = namesWithout sys.state d ∧
      ∀ a, (next sys op).state.Live a ↔ a ≠ d ∧ sys.state.Live a := by
  cases op with
  | dereferenceObject object ref =>
    cases object with
    | none => exact False.elim drops
    | some a =>
      obtain rfl : a = d := drops
      dsimp only [next]
      rw [dropped_state]
      exact dereference_last last
  | closeHandle h =>
    obtain ⟨k, found⟩ := drops
    dsimp only [next]
    rw [closeHandle_live found last.1]
    obtain ⟨names, live⟩ := dereference_last (closing_last.mpr last)
    refine ⟨names.trans closing_namesWithout, fun a => ?_⟩
    rw [live a, closing_live]
  | allocateObject => exact False.elim drops
  | allocateObjectRaw => exact False.elim drops
  | referenceObject => exact False.elim drops
  | insertObject => exact False.elim drops
  | referenceObjectByHandle => exact False.elim drops
  | insertObjectByName => exact False.elim drops
  | removeObjectByName => exact False.elim drops
  | lookupObjectByName => exact False.elim drops

/-- A free entry gets an accepted path that no entry has. -/
def Inserts (s : State) (ns : Fin OB_NAMESPACE_SIZE → NamespaceEntry) : Prop :=
  ∃ i p o, (s.ns i).object = none ∧ p.head? = some 0x5C#8 ∧ p.length < PATH_SIZE ∧
    (∀ j, ¬ Under s j p) ∧ ns = Function.update s.ns i ⟨p, some o⟩

theorem insertObjectByName_ns (s : State) (object : Option Nat) (path : Option (List u8)) :
    (insertObjectByName s object path).1.ns = s.ns ∨
      Inserts s (insertObjectByName s object path).1.ns := by
  unfold insertObjectByName
  split
  case h_1 o p =>
    split
    · exact .inl rfl
    case isFalse slash =>
      split
      · exact .inl rfl
      case isFalse short =>
        have short := Nat.lt_of_not_ge short
        split
        · exact .inl rfl
        case isFalse new =>
          split
          case h_1 i found =>
            refine .inr ⟨i, p, o, findSlot_some found, not_not.mp slash, short, ?_, ?_⟩
            · exact findPath_none (Option.not_isSome_iff_eq_none.mp new)
            · rw [strCopy, List.take_of_length_le (Nat.le_sub_one_of_lt short)]
          case h_2 => exact .inl rfl
  case h_2 => exact .inl rfl

theorem allocateObject_ns (s : State) (type : Option ObType) (path : Option (List u8))
    (granted : Bool) :
    (allocateObject s type path granted).1.ns = s.ns ∨
      Inserts s (allocateObject s type path granted).1.ns := by
  unfold allocateObject
  split
  case h_1 => exact .inl rfl
  case h_2 type =>
    cases granted with
    | false => exact .inl rfl
    | true =>
      have new : newObject s (some type) path true =
          ((newObject s (some type) path true).1, some s.count) := rfl
      rw [new]
      dsimp only
      split
      · exact insertObjectByName_ns (newObject s (some type) path true).1 (some s.count) path
      · exact .inl rfl

theorem referenceObject_ns (s : State) (object : Option Nat) :
    (referenceObject s object).ns = s.ns := by
  unfold referenceObject
  split
  · rfl
  · dsimp only
    split <;> rfl

theorem insertObject_ns (s : State) (object : Option Nat) (access : u32) (out : Bool) :
    (insertObject s object access out).1.ns = s.ns := by
  obtain e | ⟨o, k, -, -, e⟩ := insertObject_cases s object access out
  all_goals rw [e]
  rfl

/-- A handle to a dead object is only taken from the table. -/
theorem closeHandle_dead {h : HANDLE} {k : Fin OB_HANDLE_TABLE_SIZE}
    (found : lookup s h = some (k, o)) (dead : ¬ s.Live o) : (closeHandle s h).1.ns = s.ns := by
  have magic : ¬ (s.headers o).magic = OB_MAGIC := dead
  unfold closeHandle
  simp only [found, free]
  rw [if_neg (by decide), if_neg magic]

/-- **One call**: the names stay, an entry is added, the entry under a path is removed on
request, or an object dies. -/
theorem next_cases (sys : System) (op : Op) :
    (next sys op).state.ns = sys.state.ns ∨ Inserts sys.state (next sys op).state.ns ∨
      (∃ p, op = .removeObjectByName (some p) ∧ (next sys op).state.ns = without sys.state p) ∨
      ∃ d, Last sys.state d ∧ Drops sys.state d op := by
  cases op with
  | allocateObject type path granted =>
    dsimp only [next]
    rw [made_state]
    exact (allocateObject_ns sys.state type path granted).imp_right .inl
  | allocateObjectRaw name granted =>
    dsimp only [next]
    rw [made_state]
    cases granted <;> exact .inl rfl
  | referenceObject object =>
    dsimp only [next]
    rw [took_state]
    exact .inl (referenceObject_ns sys.state object)
  | dereferenceObject object ref =>
    cases object with
    | none => exact .inl rfl
    | some o =>
      by_cases last : Last sys.state o
      · exact .inr (.inr (.inr ⟨o, last, rfl⟩))
      · dsimp only [next]
        rw [dropped_state]
        exact .inl (dereference_kept last)
  | insertObject object access out => exact .inl (insertObject_ns sys.state object access out)
  | closeHandle h =>
    cases found : lookup sys.state h with
    | none =>
      dsimp only [next]
      rw [closeHandle_absent found]
      exact .inl rfl
    | some e =>
      obtain ⟨k, o⟩ := e
      by_cases last : Last sys.state o
      · exact .inr (.inr (.inr ⟨o, last, k, found⟩))
      · dsimp only [next]
        by_cases live : sys.state.Live o
        · rw [closeHandle_live found live]
          exact .inl (dereference_kept fun no => last (closing_last.mp no))
        · exact .inl (closeHandle_dead found live)
  | referenceObjectByHandle h expected out =>
    dsimp only [next]
    rw [took_state]
    obtain ⟨st, e⟩ | ⟨o, -, e⟩ := referenceObjectByHandle_cases sys.state h expected out
    all_goals rw [e]
    · exact .inl rfl
    · exact .inl (referenceObject_ns sys.state (some o))
  | insertObjectByName object path =>
    exact (insertObjectByName_ns sys.state object path).imp_right .inl
  | removeObjectByName path =>
    cases path with
    | none => exact .inl rfl
    | some p =>
      refine .inr (.inr (.inl ⟨p, rfl, ?_⟩))
      dsimp only [next]
      rw [removeObjectByName_eq]
  | lookupObjectByName path expected out =>
    dsimp only [next]
    rw [took_state]
    obtain ⟨st, e⟩ | ⟨o, -, e⟩ := lookupObjectByName_cases sys.state path expected out
    all_goals rw [e]
    · exact .inl rfl
    · exact .inl (referenceObject_ns sys.state (some o))

/-! ## Paths stay distinct -/

theorem Names.congr (names : Names s) (same : t.ns = s.ns) : Names t := by
  have under : ∀ i p, Under t i p → Under s i p := fun i p h => by
    unfold Under at h ⊢
    rwa [same] at h
  exact ⟨fun i p h => names.accepted i p (under i p h),
    fun i j p h h' => names.distinct i j p (under i p h) (under j p h')⟩

theorem Names.inserts (names : Names s) (h : Inserts s t.ns) : Names t := by
  obtain ⟨k, q, o, free, slash, short, new, e⟩ := h
  have under : ∀ i p, Under t i p → i = k ∧ p = q ∨ i ≠ k ∧ Under s i p := fun i p h => by
    unfold Under at h ⊢
    rw [e] at h
    by_cases here : i = k
    · rw [here, Function.update_self] at h
      exact .inl ⟨here, h.2.symm⟩
    · rw [Function.update_of_ne here] at h
      exact .inr ⟨here, h⟩
  refine ⟨fun i p h => ?_, fun i j p h h' => ?_⟩
  · obtain ⟨-, rfl⟩ | ⟨-, old⟩ := under i p h
    · exact ⟨slash, short⟩
    · exact names.accepted i p old
  · obtain ⟨rfl, rfl⟩ | ⟨-, old⟩ := under i p h
    · obtain ⟨rfl, -⟩ | ⟨-, old'⟩ := under j p h'
      · rfl
      · exact absurd old' (new j)
    · obtain ⟨rfl, rfl⟩ | ⟨-, old'⟩ := under j p h'
      · exact absurd old (new i)
      · exact names.distinct i j p old old'

theorem Names.removed (names : Names s) (e : t.ns = without s p) : Names t := by
  have under : ∀ i q, Under t i q → Under s i q := fun i q h => by
    unfold Under at h ⊢
    rw [e] at h
    by_cases present : ∃ j, Under s j p
    · obtain ⟨j, found⟩ := present
      rw [names.without_under found] at h
      by_cases here : i = j
      · rw [here, Function.update_self] at h
        exact Bool.noConfusion h.1
      · rwa [Function.update_of_ne here] at h
    · rwa [without_absent fun j found => present ⟨j, found⟩] at h
  exact ⟨fun i q h => names.accepted i q (under i q h),
    fun i j q h h' => names.distinct i j q (under i q h) (under j q h')⟩

theorem Names.next (names : Names sys.state) (op : Op) : Names (OB.next sys op).state := by
  obtain same | inserts | ⟨p, -, removed⟩ | ⟨d, last, drops⟩ := next_cases sys op
  · exact names.congr same
  · exact names.inserts inserts
  · exact names.removed removed
  · have gone := (next_last last drops).1
    unfold namesWithout at gone
    split at gone
    · exact names.removed gone
    · exact names.congr gone

theorem Names.init : Names State.init :=
  ⟨fun _ _ h => Bool.noConfusion h.1, fun _ _ _ h _ => Bool.noConfusion h.1⟩

theorem names_reached {ops : List Op} (reached : run step System.init ops = some sys) :
    Names sys.state :=
  run_invariant (G := fun _ _ => True) (I := fun sys => Names sys.state)
    (fun _ op _ names _ h => Option.some.inj h ▸ names.next op) Names.init
    (along_of_forall (fun _ _ => trivial) System.init ops) reached

/-! ## Destroying an object frees its name -/

/-- Nothing is found under a path, and another object can have it. -/
def Free (s : State) (p : List u8) : Prop :=
  (∀ expected, (lookupObjectByName s (some p) expected true).2 =
      (STATUS_OBJECT_NAME_NOT_FOUND, none)) ∧
    ∀ a, (insertObjectByName s (some a) (some p)).2 = STATUS_SUCCESS

theorem Names.not_nil (names : Names s) (under : Under s i p) : p ≠ [] := by
  obtain ⟨slash, -⟩ := names.accepted i p under
  rintro rfl
  cases slash

/-- A path whose entry is gone is free. -/
theorem free_of_gone (names : Names s) (under : Under s i p) (gone : t.ns = without s p) :
    Free t p := by
  have entry := names.without_under under
  rw [← gone] at entry
  have absent : ∀ j, ¬ Under t j p := by
    intro j h
    unfold Under at h
    rw [entry] at h
    by_cases here : j = i
    · rw [here, Function.update_self] at h
      exact Bool.noConfusion h.1
    · rw [Function.update_of_ne here] at h
      exact here (names.distinct j i p h under)
  refine ⟨fun expected => ?_, fun a => ?_⟩
  · unfold lookupObjectByName
    dsimp only
    cases found : findLive t p with
    | none => rfl
    | some o =>
      obtain ⟨-, j, holds, path⟩ := findLive_spec found
      exact absurd ⟨by rw [holds]; rfl, path⟩ (absent j)
  · obtain ⟨slash, short⟩ := names.accepted i p under
    unfold insertObjectByName
    dsimp only
    rw [if_neg (not_not_intro slash), if_neg (Nat.not_le_of_lt short)]
    cases found : findPath t p with
    | some j => exact absurd (findPath_some found) (absent j)
    | none =>
      rw [Option.isSome_none, if_neg Bool.false_ne_true]
      cases slot : findSlot t with
      | some j => rfl
      | none =>
        refine absurd ?_ (findSlot_none slot i)
        rw [entry, Function.update_self]

/-- A path that still has an entry is not free. -/
theorem not_free_of_under (names : Names s) (under : Under s i p) : ¬ Free s p := by
  intro free
  obtain ⟨slash, short⟩ := names.accepted i p under
  have refused := free.2 0
  unfold insertObjectByName at refused
  dsimp only at refused
  rw [if_neg (not_not_intro slash), if_neg (Nat.not_le_of_lt short), names.findPath_eq under,
    Option.isSome_some, if_pos rfl] at refused
  have refused : STATUS_ALREADY_EXISTS = STATUS_SUCCESS := refused
  exact absurd refused (by decide)

/-- **A destroyed object's path is free** if and only if it is the name in the object's
header, whatever was done before. -/
theorem destroyed_path_free_iff {ops : List Op} (reached : run step System.init ops = some sys)
    (entry : sys.state.ns i = ⟨p, some o⟩) (last : Last sys.state o)
    (drops : Drops sys.state o op) :
    Free (next sys op).state p ↔ (sys.state.headers o).name = p := by
  have names := names_reached reached
  have under : Under sys.state i p := by
    unfold Under
    rw [entry]
    exact ⟨rfl, rfl⟩
  have gone := (next_last last drops).1
  unfold namesWithout at gone
  constructor
  · intro free
    by_contra other
    refine not_free_of_under (names.next op) (i := i) ?_ free
    have stays : (next sys op).state.ns i = sys.state.ns i := by
      rw [gone]
      split
      · refine names.without_other fun same => other ?_
        rw [← same, entry]
      · rfl
    unfold Under
    rwa [stays]
  · intro same
    rw [same, if_pos (names.not_nil under)] at gone
    exact free_of_gone names under gone

/-- A path of 64 bytes, one more than a header keeps. -/
def longPath : List u8 := 0x5C#8 :: List.replicate 63 0x61#8

/-- **A name that stays**: an object that was given a path of 64 bytes, and one that was
given its path after its allocation, are destroyed, and the paths are still taken. -/
theorem destroyed_path_taken :
    (∃ sys, run step System.init [.allocateObject (some ⟨1, false⟩) (some longPath) true] =
        some sys ∧
      sys.state.ns 0 = ⟨longPath, some 0⟩ ∧ Last sys.state 0 ∧
      ¬ Free (next sys (.dereferenceObject (some 0) .creation)).state longPath) ∧
    ∃ sys, run step System.init
        [.allocateObjectRaw none true, .insertObjectByName (some 0) (some [0x5C#8, 0x61#8])] =
        some sys ∧
      sys.state.ns 0 = ⟨[0x5C#8, 0x61#8], some 0⟩ ∧ Last sys.state 0 ∧
      ¬ Free (next sys (.dereferenceObject (some 0) .creation)).state [0x5C#8, 0x61#8] := by
  refine ⟨⟨_, rfl, by rfl, ⟨by rfl, by rfl⟩, fun free => ?_⟩,
    ⟨_, rfl, by rfl, ⟨by rfl, by rfl⟩, fun free => ?_⟩⟩
  all_goals exact absurd (free.2 1) (by decide +kernel)

/-- An object whose path its header has is destroyed. -/
theorem destroyed_path_free_short :
    Free (next (next System.init
        (.allocateObject (some ⟨1, false⟩) (some [0x5C#8, 0x61#8]) true))
          (.dereferenceObject (some 0) .creation)).state [0x5C#8, 0x61#8] ↔
      ((next System.init
        (.allocateObject (some ⟨1, false⟩) (some [0x5C#8, 0x61#8]) true)).state.headers 0).name =
          [0x5C#8, 0x61#8] := by
  have reached : run step System.init
      [.allocateObject (some ⟨1, false⟩) (some [0x5C#8, 0x61#8]) true] =
        some (next System.init
          (.allocateObject (some ⟨1, false⟩) (some [0x5C#8, 0x61#8]) true)) := rfl
  exact destroyed_path_free_iff (i := 0) reached (by rfl) ⟨by rfl, by rfl⟩ rfl

/-! ## Destroying one object leaves the others' names -/

/-- A live object's entry stays, unless a caller removes its path or the object dies. -/
def Preserves (sys : System) (op : Op) : Prop :=
  ∀ i p o, sys.state.ns i = ⟨p, some o⟩ → sys.state.Live o →
    (next sys op).state.ns i = ⟨p, some o⟩ ∨ op = .removeObjectByName (some p) ∨
      ¬ (next sys op).state.Live o

/-- No other live object has an entry under the header's name of an object that dies. -/
def OwnName (sys : System) (op : Op) : Prop :=
  ∀ d, Last sys.state d → Drops sys.state d op → ∀ i o, o ≠ d →
    sys.state.ns i = ⟨(sys.state.headers d).name, some o⟩ → ¬ sys.state.Live o

theorem preserves_iff (names : Names sys.state) (op : Op) :
    Preserves sys op ↔ OwnName sys op := by
  constructor
  · intro keeps d last drops i o other entry live
    obtain ⟨gone, alive⟩ := next_last last drops
    have under : Under sys.state i (sys.state.headers d).name := by
      unfold Under
      rw [entry]
      exact ⟨rfl, rfl⟩
    obtain stays | asked | died := keeps i _ o entry live
    · unfold namesWithout at gone
      rw [if_pos (names.not_nil under), names.without_under under] at gone
      rw [gone, Function.update_self] at stays
      exact Option.some_ne_none o (congrArg NamespaceEntry.object stays).symm
    · subst asked
      exact drops
    · exact died ((alive o).mpr ⟨other, live⟩)
  · intro own i p o entry live
    obtain same | ⟨k, q, a, free, -, -, -, e⟩ | ⟨q, asked, removed⟩ | ⟨d, last, drops⟩ :=
      next_cases sys op
    · exact .inl (same ▸ entry)
    · have apart : i ≠ k := by
        rintro rfl
        rw [entry] at free
        exact Option.some_ne_none o free
      exact .inl (by rw [e, Function.update_of_ne apart, entry])
    · by_cases h : p = q
      · exact .inr (.inl (h ▸ asked))
      · have other : (sys.state.ns i).path ≠ q := by
          rw [entry]
          exact h
        exact .inl (by rw [removed, names.without_other other, entry])
    · obtain ⟨gone, alive⟩ := next_last last drops
      by_cases self : o = d
      · exact .inr (.inr fun no => ((alive o).mp no).1 self)
      · have other : (sys.state.ns i).path ≠ (sys.state.headers d).name := by
          rw [entry]
          rintro rfl
          exact own d last drops i o self entry live
        refine .inl ?_
        rw [gone]
        unfold namesWithout
        split
        · rw [names.without_other other, entry]
        · exact entry

/-- **Names stay** along a run if and only if no object dies while another live one has an
entry under the name in its header. -/
theorem names_stay_iff (ops : List Op) :
    Along step Preserves System.init ops ↔ Along step OwnName System.init ops := by
  constructor
  · exact along_invariant (I := fun sys => Names sys.state)
      (fun _ op _ names _ e => Option.some.inj e ▸ names.next op)
      (fun _ op names keeps => (preserves_iff names op).mp keeps) Names.init
  · exact along_invariant (I := fun sys => Names sys.state)
      (fun _ op _ names _ e => Option.some.inj e ▸ names.next op)
      (fun _ op names own => (preserves_iff names op).mpr own) Names.init

/-- **A name that is lost**: an object whose insertion under a path failed is destroyed,
and the entry of the object that has the path goes with it. -/
theorem name_lost :
    ¬ Along step Preserves System.init
      [.allocateObject (some ⟨1, false⟩) (some [0x5C#8, 0x61#8]) true,
        .allocateObject (some ⟨1, false⟩) (some [0x5C#8, 0x61#8]) true,
        .dereferenceObject (some 1) .creation] := by
  intro keeps
  obtain ⟨last, -⟩ := ((keeps.2 _ rfl).2 _ rfl)
  obtain stays | asked | died := last 0 [0x5C#8, 0x61#8] 0 (by rfl) (by rfl)
  · exact absurd (congrArg NamespaceEntry.object stays) (by decide +kernel)
  · cases asked
  · exact died (by rfl)

end MicroNT.OB
