import Mathlib.Data.Set.Card
import MicroNT.Base.Simulation
import MicroNT.ObjectReferences

/-! # The handle table as a finite map (`HandleTable`)

A handle is eight times a number from 1 to 256, and every other word is refused. The table
stands for the map that takes the open handles to their objects with the access granted.
Its only caller, `InsertObject`, never stores a null object. -/

namespace MicroNT.OB

open MicroNT.Base.Simulation

/-! ## The map -/

/-- An aligned word in the range of the handles; null and `INVALID_HANDLE` are none. -/
def IsHandle (h : HANDLE) : Prop :=
  h.toNat % 8 = 0 ∧ 1 ≤ h.toNat / 8 ∧ h.toNat / 8 ≤ OB_HANDLE_TABLE_SIZE

instance (h : HANDLE) : Decidable (IsHandle h) := inferInstanceAs (Decidable (_ ∧ _ ∧ _))

/-- A map from handles to objects with the access granted. -/
@[ext] structure HandleMap where
  entry : HANDLE → Option (Nat × u32)
  rejects : ∀ h, ¬ IsHandle h → entry h = none

namespace HandleMap

def empty : HandleMap := ⟨fun _ => none, fun _ _ => rfl⟩

/-- The handles that are open. -/
def opened (m : HandleMap) : Set HANDLE := {h | m.entry h ≠ none}

def insert (m : HandleMap) (h : HANDLE) (ok : IsHandle h) (e : Nat × u32) : HandleMap where
  entry g := if g = h then some e else m.entry g
  rejects g bad := by
    rw [if_neg fun e => bad (by rw [e]; exact ok)]
    exact m.rejects g bad

def erase (m : HandleMap) (h : HANDLE) : HandleMap where
  entry g := if g = h then none else m.entry g
  rejects g bad := by
    split
    · rfl
    · exact m.rejects g bad

@[simp] theorem insert_entry (m : HandleMap) {h : HANDLE} (ok : IsHandle h) (e : Nat × u32)
    (g : HANDLE) : (m.insert h ok e).entry g = if g = h then some e else m.entry g := rfl

@[simp] theorem erase_entry (m : HandleMap) (h g : HANDLE) :
    (m.erase h).entry g = if g = h then none else m.entry g := rfl

end HandleMap

inductive TableCall
  | alloc (object : Nat) (access : u32)
  | free (h : HANDLE)
  | lookup (h : HANDLE)

inductive TableAnswer
  | handle (h : HANDLE)
  | status (st : NTSTATUS)
  | entry (e : Option (Nat × u32))
  deriving DecidableEq

/-- What a finite map of at most 256 handles may answer. -/
inductive MapStep : HandleMap → TableCall → TableAnswer → HandleMap → Prop
  | opens {m o a h} (ok : IsHandle h) (fresh : m.entry h = none) :
      MapStep m (.alloc o a) (.handle h) (m.insert h ok (o, a))
  | full {m o a} (all : m.opened.ncard = OB_HANDLE_TABLE_SIZE) :
      MapStep m (.alloc o a) (.handle INVALID_HANDLE) m
  | closes {m h e} (held : m.entry h = some e) :
      MapStep m (.free h) (.status STATUS_SUCCESS) (m.erase h)
  | refuses {m h} (absent : m.entry h = none) :
      MapStep m (.free h) (.status STATUS_INVALID_HANDLE) m
  | finds {m h} : MapStep m (.lookup h) (.entry (m.entry h)) m

/-- The handle that an event has opened. -/
def opensHandle : TableCall × TableAnswer → Option HANDLE
  | (.alloc _ _, .handle h) => if h = INVALID_HANDLE then none else some h
  | _ => none

/-- The handle that an event has closed. -/
def closesHandle : TableCall × TableAnswer → Option HANDLE
  | (.free h, .status st) => if st = STATUS_SUCCESS then some h else none
  | _ => none

/-- Every handle was freed as often as it was handed out, once less while it is open. -/
def FreedOnce (m : HandleMap) (l : List (TableCall × TableAnswer)) : Prop :=
  ∀ h, (l.filterMap opensHandle).count h =
    (l.filterMap closesHandle).count h + (m.entry h).isSome.toNat

/-! ## The table -/

/-- A call of `HandleTable` and its answer. -/
def tableCall (s : State) : TableCall → State × TableAnswer
  | .alloc object access =>
    match alloc s object access with
    | some (s, i) => (s, .handle (indexToHandle i))
    | none => (s, .handle INVALID_HANDLE)
  | .free h =>
    let r := free s h
    (r.1, .status r.2)
  | .lookup h => (s, .entry ((lookup s h).map fun e => (e.2, (s.ktable e.1).grantedAccess)))

/-! ## Handles and entries -/

theorem handleValid_iff {h : HANDLE} : handleValid h = true ↔ IsHandle h := by
  unfold handleValid IsHandle
  split
  case isTrue outside =>
    refine iff_of_false Bool.false_ne_true ?_
    rcases outside with rfl | rfl <;> decide
  case isFalse =>
    split
    case isTrue odd => exact iff_of_false Bool.false_ne_true fun h => odd h.1
    case isFalse even => rw [decide_eq_true_eq, and_iff_right (not_not.mp even)]

theorem indexToHandle_toNat (i : Fin OB_HANDLE_TABLE_SIZE) :
    (indexToHandle i).toNat = 8 * (i.val + 1) := by
  have bound : i.val < 256 := i.isLt
  unfold indexToHandle
  rw [BitVec.toNat_mul, BitVec.toNat_add, BitVec.toNat_ofNat]
  simp
  omega

theorem isHandle_indexToHandle (i : Fin OB_HANDLE_TABLE_SIZE) : IsHandle (indexToHandle i) := by
  have bound : i.val < 256 := i.isLt
  unfold IsHandle OB_HANDLE_TABLE_SIZE
  rw [indexToHandle_toNat]
  omega

/-- **Encoding and decoding** are inverse. -/
theorem handleToIndex_iff {h : HANDLE} {i : Fin OB_HANDLE_TABLE_SIZE} :
    handleToIndex h = some i ↔ h = indexToHandle i := by
  unfold handleToIndex
  constructor
  · intro found
    split at found
    case isTrue valid =>
      obtain ⟨even, low, -⟩ := handleValid_iff.mp valid
      have index := congrArg Fin.val (Option.some.inj found)
      apply BitVec.eq_of_toNat_eq
      rw [indexToHandle_toNat, ← index]
      dsimp only
      omega
    case isFalse => cases found
  · rintro rfl
    rw [dif_pos (handleValid_iff.mpr (isHandle_indexToHandle i))]
    refine congrArg some (Fin.ext ?_)
    have value := indexToHandle_toNat i
    dsimp only
    omega

theorem handleToIndex_none {h : HANDLE} (bad : ¬ IsHandle h) : handleToIndex h = none := by
  unfold handleToIndex
  rw [dif_neg fun valid => bad (handleValid_iff.mp valid)]

theorem exists_index {h : HANDLE} (ok : IsHandle h) : ∃ i, h = indexToHandle i := by
  obtain ⟨even, low, high⟩ := ok
  refine ⟨⟨h.toNat / 8 - 1, by omega⟩, BitVec.eq_of_toNat_eq ?_⟩
  rw [indexToHandle_toNat]
  dsimp only
  omega

theorem indexToHandle_injective : Function.Injective indexToHandle := by
  intro i j e
  have values := congrArg BitVec.toNat e
  rw [indexToHandle_toNat, indexToHandle_toNat] at values
  exact Fin.ext (by omega)

/-- There are as many handles as entries. -/
theorem ncard_handles : {h : HANDLE | IsHandle h}.ncard = OB_HANDLE_TABLE_SIZE := by
  have range : {h : HANDLE | IsHandle h} = indexToHandle '' Set.univ := by
    ext h
    refine ⟨fun ok => ?_, ?_⟩
    · obtain ⟨i, rfl⟩ := exists_index ok
      exact ⟨i, trivial, rfl⟩
    · rintro ⟨i, -, rfl⟩
      exact isHandle_indexToHandle i
  rw [range, Set.ncard_image_of_injective _ indexToHandle_injective, Set.ncard_univ, Nat.card_fin]

theorem finite_handles : {h : HANDLE | IsHandle h}.Finite :=
  Set.finite_of_ncard_ne_zero (by rw [ncard_handles]; decide)

theorem HandleMap.opened_subset (m : HandleMap) : m.opened ⊆ {h | IsHandle h} := fun h held => by
  by_contra bad
  exact held (m.rejects h bad)

/-- **At most 256 handles** are open. -/
theorem HandleMap.ncard_opened (m : HandleMap) : m.opened.ncard ≤ OB_HANDLE_TABLE_SIZE := by
  rw [← ncard_handles]
  exact Set.ncard_le_ncard m.opened_subset finite_handles

/-! ## The table as a map -/

/-- What the entries stand for. -/
def handleMap (s : State) : HandleMap where
  entry h := (lookup s h).map fun e => (e.2, (s.ktable e.1).grantedAccess)
  rejects h bad := by rw [lookup, handleToIndex_none bad]; rfl

theorem lookup_indexToHandle (s : State) (i : Fin OB_HANDLE_TABLE_SIZE) :
    lookup s (indexToHandle i) = (s.ktable i).object.map fun o => (i, o) := by
  rw [lookup, handleToIndex_iff.mpr rfl, Option.bind_some]

theorem handleMap_index (s : State) (i : Fin OB_HANDLE_TABLE_SIZE) :
    (handleMap s).entry (indexToHandle i) =
      (s.ktable i).object.map fun o => (o, (s.ktable i).grantedAccess) := by
  show (lookup s (indexToHandle i)).map _ = _
  rw [lookup_indexToHandle, Option.map_map]
  rfl

/-- Two maps are the same if they agree on the handles of the entries. -/
theorem HandleMap.ext_index {m n : HandleMap}
    (same : ∀ i, m.entry (indexToHandle i) = n.entry (indexToHandle i)) : m = n := by
  ext1
  funext h
  by_cases ok : IsHandle h
  · obtain ⟨i, rfl⟩ := exists_index ok
    exact same i
  · rw [m.rejects h ok, n.rejects h ok]

variable {s t : State} {i : Fin OB_HANDLE_TABLE_SIZE} {o : Nat} {access : u32} {h : HANDLE}

theorem handleMap_update (e : HandleEntry) (j : Fin OB_HANDLE_TABLE_SIZE) :
    (handleMap { s with ktable := Function.update s.ktable i e }).entry (indexToHandle j) =
      if j = i then e.object.map fun o => (o, e.grantedAccess)
      else (handleMap s).entry (indexToHandle j) := by
  rw [handleMap_index, handleMap_index]
  dsimp only
  split
  case isTrue same => rw [same, Function.update_self]
  case isFalse other => rw [Function.update_of_ne other]

theorem handleMap_alloc (got : alloc s o access = some (t, i)) :
    (handleMap s).entry (indexToHandle i) = none ∧
      handleMap t = (handleMap s).insert (indexToHandle i) (isHandle_indexToHandle i) (o, access) := by
  obtain ⟨free, rfl⟩ := alloc_spec got
  refine ⟨by rw [handleMap_index, free]; rfl, HandleMap.ext_index fun j => ?_⟩
  rw [handleMap_update, HandleMap.insert_entry]
  simp only [indexToHandle_injective.eq_iff]
  rfl

theorem alloc_full (none : alloc s o access = none) :
    (handleMap s).opened.ncard = OB_HANDLE_TABLE_SIZE := by
  have taken := List.find?_eq_none.mp (Option.map_eq_none_iff.mp none)
  have all : (handleMap s).opened = {h | IsHandle h} := by
    refine Set.Subset.antisymm (handleMap s).opened_subset fun h ok => ?_
    obtain ⟨i, rfl⟩ := exists_index ok
    have used := taken i (List.mem_finRange i)
    intro absent
    rw [handleMap_index, Option.map_eq_none_iff] at absent
    rw [absent] at used
    exact used rfl
  rw [all, ncard_handles]

theorem handleMap_free (found : lookup s h = some (i, o)) :
    free s h = ({ s with ktable := Function.update s.ktable i ⟨none, 0⟩ }, STATUS_SUCCESS) ∧
      h = indexToHandle i := by
  refine ⟨by rw [free, found], ?_⟩
  obtain ⟨j, decoded, rest⟩ := Option.bind_eq_some_iff.mp found
  obtain ⟨p, -, e⟩ := Option.map_eq_some_iff.mp rest
  cases e
  exact handleToIndex_iff.mp decoded

/-- **One call** does what the map allows. -/
theorem tableCall_allowed (s : State) (c : TableCall) :
    MapStep (handleMap s) c (tableCall s c).2 (handleMap (tableCall s c).1) := by
  cases c with
  | alloc o access =>
    cases got : alloc s o access with
    | none =>
      simp only [tableCall, got]
      exact .full (alloc_full got)
    | some r =>
      obtain ⟨t, i⟩ := r
      obtain ⟨fresh, same⟩ := handleMap_alloc got
      simp only [tableCall, got]
      rw [same]
      exact .opens _ fresh
  | free h =>
    unfold tableCall
    cases found : lookup s h with
    | none =>
      have absent : (handleMap s).entry h = none := by
        show (lookup s h).map _ = none
        rw [found]
        rfl
      have same : free s h = (s, STATUS_INVALID_HANDLE) := by rw [free, found]
      dsimp only
      rw [same]
      exact .refuses absent
    | some e =>
      obtain ⟨i, o⟩ := e
      obtain ⟨freed, rfl⟩ := handleMap_free found
      have held : (handleMap s).entry (indexToHandle i) = some (o, (s.ktable i).grantedAccess) := by
        show (lookup s _).map _ = _
        rw [found]
        rfl
      have erased : handleMap { s with ktable := Function.update s.ktable i ⟨none, 0⟩ } =
          (handleMap s).erase (indexToHandle i) := by
        refine HandleMap.ext_index fun j => ?_
        rw [handleMap_update, HandleMap.erase_entry]
        simp only [indexToHandle_injective.eq_iff]
        rfl
      dsimp only
      rw [freed, erased]
      exact .closes held
  | lookup h => exact .finds

/-! ## Every run -/

theorem FreedOnce.step {m n : HandleMap} {c : TableCall} {a : TableAnswer}
    {l : List (TableCall × TableAnswer)} (once : FreedOnce m l) (step : MapStep m c a n) :
    FreedOnce n ((c, a) :: l) := by
  intro g
  have before := once g
  cases step with
  | @opens _ _ h ok fresh =>
    have some : h ≠ INVALID_HANDLE := by
      rintro rfl
      exact absurd ok (by decide)
    simp only [List.filterMap_cons, opensHandle, closesHandle, if_neg some, List.count_cons,
      HandleMap.insert_entry, beq_iff_eq]
    by_cases e : g = h
    · subst e
      rw [fresh] at before
      rw [before, if_pos rfl, if_pos rfl]
      rfl
    · rw [if_neg e, if_neg (Ne.symm e), before, Nat.add_zero]
  | full =>
    simp only [List.filterMap_cons, opensHandle, closesHandle, if_true]
    exact before
  | @closes h e held =>
    simp only [List.filterMap_cons, opensHandle, closesHandle, if_true, List.count_cons,
      HandleMap.erase_entry, beq_iff_eq]
    by_cases e : g = h
    · subst e
      rw [held] at before
      rw [before, if_pos rfl, if_pos rfl]
      rfl
    · rw [if_neg e, if_neg (Ne.symm e), before, Nat.add_zero]
  | refuses =>
    have failed : ¬ STATUS_INVALID_HANDLE = STATUS_SUCCESS := by decide
    simp only [List.filterMap_cons, opensHandle, closesHandle, if_neg failed]
    exact before
  | finds =>
    simp only [List.filterMap_cons, opensHandle, closesHandle]
    exact before

theorem handleMap_init : handleMap State.init = HandleMap.empty :=
  HandleMap.ext_index fun i => by
    rw [handleMap_index]
    rfl

/-- **The handle table is a finite map.** Every run of `Alloc`, `Free` and `Lookup` from an
empty table, with any words for handles, is a run of a map of at most 256 handles, and each
handle is freed once for every time that it was handed out. -/
theorem handleTable_finite_map (calls : List TableCall) :
    Allowed MapStep .empty (trace tableCall State.init calls)
        (handleMap (after tableCall State.init calls)) ∧
      FreedOnce (handleMap (after tableCall State.init calls))
        (trace tableCall State.init calls).reverse ∧
      (handleMap (after tableCall State.init calls)).opened.ncard ≤ OB_HANDLE_TABLE_SIZE := by
  have allowed : Allowed MapStep (handleMap State.init) (trace tableCall State.init calls)
      (handleMap (after tableCall State.init calls)) := refines tableCall_allowed State.init calls
  rw [handleMap_init] at allowed
  have start : FreedOnce .empty [] := fun h => rfl
  have once := allowed.invariant (I := FreedOnce) (fun h s => h.step s) start
  rw [List.append_nil] at once
  exact ⟨allowed, once, HandleMap.ncard_opened _⟩

end MicroNT.OB
