import MicroNT.Base.Machine
import MicroNT.ObjectManager

/-! # The registry of object types (`object_manager.cpp`)

`CreateType` looks for a type by its whole name and adds one if there is none. The name goes
into a field of 32 bytes, which cuts a longer one. Both calls hold the registry's lock. -/

namespace MicroNT.OB

open MicroNT.Base.Machine

abbrev MAX_TYPES : Nat := 32
/-- The size of `ObType::Name`. -/
abbrev TYPE_NAME_SIZE : Nat := 32

/-- A slot of `s_types`; `onClose` is the address of the function, 0 for none. -/
structure TypeSlot where
  name : List u8
  bodySize : u64
  onClose : u64
  index : u32

/-- `s_types` and `s_type_count`. -/
structure TypeRegistry where
  types : Fin MAX_TYPES → TypeSlot
  count : u32
  bound : count.toNat ≤ MAX_TYPES

/-- After `Init`. -/
def TypeRegistry.init : TypeRegistry := ⟨fun _ => ⟨[], 0, 0, 0⟩, 0, by decide⟩

/-- The loop over the registered types. -/
def TypeRegistry.find (r : TypeRegistry) (name : List u8) : Option (Fin MAX_TYPES) :=
  (List.finRange MAX_TYPES).find? fun i =>
    decide (i.val < r.count.toNat) && strEq (r.types i).name name

/-- The new type, in the first slot that is not taken. -/
def TypeRegistry.add (r : TypeRegistry) (room : r.count.toNat < MAX_TYPES) (name : List u8)
    (bodySize onClose : u64) : TypeRegistry where
  types := Function.update r.types ⟨r.count.toNat, room⟩
    ⟨strCopy name TYPE_NAME_SIZE, bodySize, onClose, r.count + 1⟩
  count := r.count + 1
  bound := by
    rw [BitVec.toNat_add]
    exact (Nat.mod_le _ _).trans room

/-- `CreateType`; a type is its slot, and `outType` tells whether there is a place for it. -/
def createType (r : TypeRegistry) (name : Option (List u8)) (bodySize onClose : u64)
    (outType : Bool) : TypeRegistry × NTSTATUS × Option (Fin MAX_TYPES) :=
  match name, outType with
  | some name, true =>
    match r.find name with
    | some i => (r, STATUS_SUCCESS, some i)
    | none =>
      if room : r.count.toNat < MAX_TYPES then
        (r.add room name bodySize onClose, STATUS_SUCCESS, some ⟨r.count.toNat, room⟩)
      else (r, STATUS_INSUFFICIENT_RESOURCES, none)
  | _, _ => (r, STATUS_INVALID_PARAMETER, none)

def lookupType (r : TypeRegistry) (name : Option (List u8)) : Option (Fin MAX_TYPES) :=
  name.bind r.find

/-! ## Runs -/

/-- The registry, and which type each name has got from `CreateType`. -/
structure Registering where
  registry : TypeRegistry
  made : List (List u8 × Fin MAX_TYPES)

def Registering.init : Registering := ⟨.init, []⟩

inductive TypeCall
  | createType (name : Option (List u8)) (bodySize onClose : u64) (outType : Bool)
  | lookupType (name : Option (List u8))

/-- What a call has got for its name. -/
def gotType (name : Option (List u8)) (type : Option (Fin MAX_TYPES)) :
    List (List u8 × Fin MAX_TYPES) :=
  match name, type with
  | some n, some i => [(n, i)]
  | _, _ => []

def stepTypes (s : Registering) : TypeCall → Option Registering
  | .createType name bodySize onClose outType =>
    let r := createType s.registry name bodySize onClose outType
    some ⟨r.1, gotType name r.2.2 ++ s.made⟩
  | .lookupType _ => some s

/-- What is promised of the names and the types. -/
structure TypesRight (s : Registering) : Prop where
  again : ∀ n i, (n, i) ∈ s.made → ∀ bodySize onClose,
    createType s.registry (some n) bodySize onClose true = (s.registry, STATUS_SUCCESS, some i)
  apart : ∀ n m i, (n, i) ∈ s.made → (m, i) ∈ s.made → n = m
  found : ∀ n i, lookupType s.registry (some n) = some i ↔ (n, i) ∈ s.made
  index : ∀ n i, (n, i) ∈ s.made → (s.registry.types i).index.toNat = i.val + 1
  gapless : ∀ i : Fin MAX_TYPES, i.val < s.registry.count.toNat ↔ ∃ n, (n, i) ∈ s.made
  room : ∀ n, (∀ i, (n, i) ∉ s.made) → s.registry.count.toNat < MAX_TYPES →
    ∀ bodySize onClose, (createType s.registry (some n) bodySize onClose true).2.1 = STATUS_SUCCESS

/-- The call does not add a type under a name that is cut. -/
def NameFits (s : Registering) : TypeCall → Prop
  | .createType (some n) _ _ true =>
    n.length < TYPE_NAME_SIZE ∨ s.registry.count.toNat = MAX_TYPES
  | _ => True

/-! ## What the registry keeps -/

/-- The types and the names they have been made for are the same, name by name. -/
structure Named (s : Registering) : Prop where
  stored : ∀ n i, (n, i) ∈ s.made ↔
    i.val < s.registry.count.toNat ∧ (s.registry.types i).name = n
  index : ∀ i : Fin MAX_TYPES, i.val < s.registry.count.toNat →
    (s.registry.types i).index.toNat = i.val + 1
  distinct : ∀ i j : Fin MAX_TYPES, i.val < s.registry.count.toNat →
    j.val < s.registry.count.toNat → (s.registry.types i).name = (s.registry.types j).name → i = j
  short : ∀ i : Fin MAX_TYPES, i.val < s.registry.count.toNat →
    (s.registry.types i).name.length < TYPE_NAME_SIZE

section

variable {s s' : Registering} {r : TypeRegistry} {n : List u8} {i : Fin MAX_TYPES}

theorem TypeRegistry.find_some (h : r.find n = some i) :
    i.val < r.count.toNat ∧ (r.types i).name = n := by
  have found := List.find?_some h
  rw [Bool.and_eq_true, decide_eq_true_eq, strEq_iff] at found
  exact found

theorem TypeRegistry.find_none (h : r.find n = none) (i : Fin MAX_TYPES)
    (hi : i.val < r.count.toNat) : (r.types i).name ≠ n := by
  intro same
  have passed := List.find?_eq_none.mp h i (List.mem_finRange i)
  rw [Bool.and_eq_true, decide_eq_true_eq, strEq_iff] at passed
  exact passed ⟨hi, same⟩

/-- The search finds the type of a name. -/
theorem Named.find_iff (h : Named s) : s.registry.find n = some i ↔ (n, i) ∈ s.made := by
  rw [h.stored]
  refine ⟨TypeRegistry.find_some, fun ⟨hi, same⟩ => ?_⟩
  cases found : s.registry.find n with
  | none => exact absurd same (TypeRegistry.find_none found i hi)
  | some j =>
    obtain ⟨hj, name⟩ := TypeRegistry.find_some found
    rw [h.distinct j i hj hi (name.trans same.symm)]

theorem createType_found (h : r.find n = some i) (bodySize onClose : u64) :
    createType r (some n) bodySize onClose true = (r, STATUS_SUCCESS, some i) := by
  simp only [createType, h]

theorem createType_new (h : r.find n = none) (room : r.count.toNat < MAX_TYPES)
    (bodySize onClose : u64) : createType r (some n) bodySize onClose true =
      (r.add room n bodySize onClose, STATUS_SUCCESS, some ⟨r.count.toNat, room⟩) := by
  simp only [createType, h, room, dite_true]

theorem createType_full (h : r.find n = none) (full : ¬ r.count.toNat < MAX_TYPES)
    (bodySize onClose : u64) : createType r (some n) bodySize onClose true =
      (r, STATUS_INSUFFICIENT_RESOURCES, none) := by
  simp only [createType, h, full, dite_false]

theorem Named.right (h : Named s) : TypesRight s where
  again _ _ made := createType_found (h.find_iff.mpr made)
  apart n m i hn hm := ((h.stored n i).mp hn).2.symm.trans ((h.stored m i).mp hm).2
  found _ _ := h.find_iff
  index n i made := h.index i ((h.stored n i).mp made).1
  gapless i := by
    refine ⟨fun hi => ⟨_, (h.stored _ i).mpr ⟨hi, rfl⟩⟩, ?_⟩
    rintro ⟨n, made⟩
    exact ((h.stored n i).mp made).1
  room n fresh room bodySize onClose := by
    cases found : s.registry.find n with
    | none => rw [createType_new found room]
    | some i => exact absurd (h.find_iff.mp found) (fresh i)

/-! ### Adding a type -/

theorem TypeRegistry.add_count (r : TypeRegistry) (room : r.count.toNat < MAX_TYPES)
    (bodySize onClose : u64) :
    (r.add room n bodySize onClose).count.toNat = r.count.toNat + 1 := by
  show (r.count + 1#32).toNat = _
  rw [BitVec.toNat_add]
  exact Nat.mod_eq_of_lt (by simp only [MAX_TYPES] at room; simp; omega)

/-- The types that there were keep their slots, and the new one comes after them. -/
theorem TypeRegistry.add_types (r : TypeRegistry) (room : r.count.toNat < MAX_TYPES)
    (bodySize onClose : u64) (hi : i.val < (r.add room n bodySize onClose).count.toNat) :
    (i = ⟨r.count.toNat, room⟩ ∧ (r.add room n bodySize onClose).types i =
        ⟨strCopy n TYPE_NAME_SIZE, bodySize, onClose, r.count + 1⟩) ∨
      (i ≠ ⟨r.count.toNat, room⟩ ∧ i.val < r.count.toNat ∧
        (r.add room n bodySize onClose).types i = r.types i) := by
  rw [TypeRegistry.add_count] at hi
  by_cases last : i = ⟨r.count.toNat, room⟩
  · refine .inl ⟨last, ?_⟩
    rw [last]
    exact Function.update_self _ _ _
  · have before : i.val ≠ r.count.toNat := fun e => last (Fin.ext e)
    exact .inr ⟨last, by omega, Function.update_of_ne last _ _⟩

/-- **A new type** under a name that fits. -/
theorem Named.add (h : Named s) (absent : s.registry.find n = none)
    (room : s.registry.count.toNat < MAX_TYPES) (short : n.length < TYPE_NAME_SIZE)
    (bodySize onClose : u64) :
    Named ⟨s.registry.add room n bodySize onClose, (n, ⟨s.registry.count.toNat, room⟩) :: s.made⟩ := by
  have whole : strCopy n TYPE_NAME_SIZE = n := List.take_of_length_le (by omega)
  have count := s.registry.add_count (n := n) room bodySize onClose
  have types : ∀ i : Fin MAX_TYPES, _ := fun i =>
    s.registry.add_types (n := n) (i := i) room bodySize onClose
  constructor
  case stored =>
    intro m i
    simp only [List.mem_cons, Prod.mk.injEq]
    constructor
    · rintro (⟨rfl, rfl⟩ | made)
      · have now : s.registry.count.toNat <
            (s.registry.add room m bodySize onClose).count.toNat := by omega
        rcases types ⟨_, room⟩ now with ⟨-, at_⟩ | ⟨ne, -⟩
        · exact ⟨now, by rw [at_, whole]⟩
        · exact absurd rfl ne
      · obtain ⟨hi, name⟩ := (h.stored m i).mp made
        have now : i.val < (s.registry.add room n bodySize onClose).count.toNat := by omega
        rcases types i now with ⟨rfl, -⟩ | ⟨-, -, at_⟩
        · exact absurd hi (lt_irrefl _)
        · exact ⟨now, by rw [at_, name]⟩
    · rintro ⟨now, name⟩
      rcases types i now with ⟨rfl, at_⟩ | ⟨-, hi, at_⟩
      · rw [at_, whole] at name
        exact .inl ⟨name.symm, rfl⟩
      · rw [at_] at name
        exact .inr ((h.stored m i).mpr ⟨hi, name⟩)
  case index =>
    intro i now
    rcases types i now with ⟨rfl, at_⟩ | ⟨-, hi, at_⟩
    · simp only [at_]
      exact count
    · simp only [at_]
      exact h.index i hi
  case distinct =>
    intro i j hi hj same
    rcases types i hi with ⟨rfl, ati⟩ | ⟨-, hi, ati⟩ <;>
      rcases types j hj with ⟨rfl, atj⟩ | ⟨-, hj, atj⟩
    · rfl
    · simp only [ati, atj, whole] at same
      exact absurd same.symm (TypeRegistry.find_none absent j hj)
    · simp only [ati, atj, whole] at same
      exact absurd same (TypeRegistry.find_none absent i hi)
    · simp only [ati, atj] at same
      exact h.distinct i j hi hj same
  case short =>
    intro i now
    rcases types i now with ⟨rfl, at_⟩ | ⟨-, hi, at_⟩
    · simp only [at_, whole]
      exact short
    · simp only [at_]
      exact h.short i hi

/-- A call that changes nothing names nothing new. -/
theorem Named.same (h : Named s) {l : List (List u8 × Fin MAX_TYPES)}
    (old : ∀ e ∈ l, e ∈ s.made) : Named ⟨s.registry, l ++ s.made⟩ where
  stored m i := by
    rw [← h.stored m i, List.mem_append]
    exact ⟨fun either => either.elim (old _) id, .inr⟩
  index := h.index
  distinct := h.distinct
  short := h.short

theorem Named.step (h : Named s) {a : TypeCall} (fits : NameFits s a)
    (hs : stepTypes s a = some s') : Named s' := by
  cases a with
  | lookupType name => exact Option.some.inj hs ▸ h
  | createType name bodySize onClose outType =>
    obtain rfl := Option.some.inj hs
    match name, outType with
    | none, _ => exact h.same (l := []) (fun _ he => absurd he List.not_mem_nil)
    | some n, false => exact h.same (l := []) (fun _ he => absurd he List.not_mem_nil)
    | some n, true =>
      cases found : s.registry.find n with
      | some i =>
        rw [createType_found found]
        exact h.same (l := [(n, i)]) (fun e he => by
          rw [List.mem_singleton.mp he]
          exact h.find_iff.mp found)
      | none =>
        by_cases room : s.registry.count.toNat < MAX_TYPES
        · rw [createType_new found room]
          rcases fits with short | full
          · exact h.add found room short bodySize onClose
          · exact absurd room (by omega)
        · rw [createType_full found room]
          exact h.same (l := []) (fun _ he => absurd he List.not_mem_nil)

/-- A name that is cut is not found again. -/
theorem Named.cut (h : Named s) {a : TypeCall} (cut : ¬ NameFits s a)
    (hs : stepTypes s a = some s') : ¬ TypesRight s' := by
  intro right
  match a, cut with
  | .createType (some n) bodySize onClose true, cut =>
    obtain ⟨long, some⟩ := not_or.mp cut
    obtain rfl := Option.some.inj hs
    have room : s.registry.count.toNat < MAX_TYPES := lt_of_le_of_ne s.registry.bound some
    have absent : s.registry.find n = none := by
      cases found : s.registry.find n with
      | none => rfl
      | some i =>
        obtain ⟨hi, name⟩ := TypeRegistry.find_some found
        exact absurd (name ▸ h.short i hi) long
    rw [createType_new absent room] at right
    have found := (right.found n ⟨_, room⟩).mpr List.mem_cons_self
    obtain ⟨now, name⟩ := TypeRegistry.find_some (r := s.registry.add room n bodySize onClose) found
    rcases s.registry.add_types room bodySize onClose now with ⟨-, at_⟩ | ⟨ne, -⟩
    · rw [at_] at name
      have length := congrArg List.length name
      simp only [strCopy, List.length_take, TYPE_NAME_SIZE] at length long
      omega
    · exact ne rfl
  | .createType (some n) _ _ false, cut => exact cut trivial
  | .createType none _ _ _, cut => exact cut trivial
  | .lookupType _, cut => exact cut trivial

end

theorem init_named : Named .init where
  stored _ _ := by
    refine ⟨fun made => absurd made List.not_mem_nil, fun ⟨hi, _⟩ => absurd hi (Nat.not_lt_zero _)⟩
  index _ hi := absurd hi (Nat.not_lt_zero _)
  distinct _ _ hi := absurd hi (Nat.not_lt_zero _)
  short _ hi := absurd hi (Nat.not_lt_zero _)

/-- **Types are told apart by their names** in every state of a run, if and only if no type is
added under a name of 32 characters or more. -/
theorem types_right_iff (as : List TypeCall) :
    Always stepTypes TypesRight .init as ↔ Along stepTypes NameFits .init as :=
  always_iff_along (I := Named) (fun _ _ _ h fits hs => h.step fits hs) (fun _ h => h.right)
    (fun _ _ _ h cut hs => h.cut cut hs)
    (fun s a none => by cases a <;> cases none) init_named

/-- **A name of 32 characters** gets a type that no lookup finds. -/
theorem long_name_lost : ¬ Always stepTypes TypesRight .init
    [.createType (some (List.replicate 32 0x41)) 8 0 true] := by
  rw [Always, and_comm]
  intro right
  have later := (right.1 _ rfl).here
  have found := (later.found _ _).mpr List.mem_cons_self
  exact absurd found (by decide)

end MicroNT.OB
