import Mathlib.Data.List.FinRange
import Mathlib.Logic.Function.Basic
import MicroNT.Ntdef

/-! # The object manager (`object_manager.cpp`)

An object is a header and a body on the kernel heap, which never takes memory back,
so its place in the order of allocation stands for its address; memory that is no
header yet reads as zeros. Handles are slots of one table, names are entries of one
namespace. A C string is the list of its bytes before the terminating zero, and a
null pointer is `none`. -/

namespace MicroNT.OB

abbrev i32 := BitVec 32

abbrev NTSTATUS := i32

abbrev STATUS_SUCCESS : NTSTATUS := 0x00000000#32
abbrev STATUS_INVALID_HANDLE : NTSTATUS := 0xC0000008#32
abbrev STATUS_INVALID_PARAMETER : NTSTATUS := 0xC000000D#32
abbrev STATUS_OBJECT_TYPE_MISMATCH : NTSTATUS := 0xC0000024#32
abbrev STATUS_OBJECT_NAME_NOT_FOUND : NTSTATUS := 0xC0000034#32
abbrev STATUS_ALREADY_EXISTS : NTSTATUS := 0xC0000035#32
abbrev STATUS_INSUFFICIENT_RESOURCES : NTSTATUS := 0xC000009A#32

def ntSuccess (st : NTSTATUS) : Bool := (0#32).sle st

abbrev OB_MAGIC : u32 := 0x4E544F42#32
abbrev OB_HANDLE_TABLE_SIZE : Nat := 256
abbrev OB_NAMESPACE_SIZE : Nat := 128
/-- The sizes of `ObjectHeader::Name` and `NamespaceEntry::Path`. -/
abbrev NAME_SIZE : Nat := 64
abbrev PATH_SIZE : Nat := 128

/-- A registered type: its index tells it from the others. -/
structure ObType where
  index : u32
  onClose : Bool
  deriving DecidableEq

structure ObjectHeader where
  magic : u32
  type : Option ObType
  refCount : i32
  handleCount : i32
  name : List u8

def ObjectHeader.zero : ObjectHeader := ⟨0, none, 0, 0, []⟩

structure HandleEntry where
  object : Option Nat
  grantedAccess : u32

structure NamespaceEntry where
  path : List u8
  object : Option Nat

/-- The headers, how many objects there are, the two tables, and how often each
object's `OnClose` has run. -/
structure State where
  headers : Nat → ObjectHeader
  count : Nat
  ktable : Fin OB_HANDLE_TABLE_SIZE → HandleEntry
  ns : Fin OB_NAMESPACE_SIZE → NamespaceEntry
  closes : Nat → Nat

/-- After `Init`. -/
def State.init : State :=
  ⟨fun _ => .zero, 0, fun _ => ⟨none, 0⟩, fun _ => ⟨[], none⟩, fun _ => 0⟩

def State.setHeader (s : State) (o : Nat) (hdr : ObjectHeader) : State :=
  { s with headers := Function.update s.headers o hdr }

/-- The header has its magic. -/
def State.Live (s : State) (o : Nat) : Prop := (s.headers o).magic = OB_MAGIC

instance (s : State) (o : Nat) : Decidable (s.Live o) := decEq _ _

/-! ## Strings -/

def strEq : List u8 → List u8 → Bool
  | a :: as, b :: bs => if a = b then strEq as bs else false
  | [], [] => true
  | _, _ => false

theorem strEq_iff {a b : List u8} : strEq a b = true ↔ a = b := by
  induction a generalizing b with
  | nil => cases b <;> simp [strEq]
  | cons c as ih =>
    cases b with
    | nil => simp [strEq]
    | cons d bs =>
      rw [strEq, List.cons.injEq]
      by_cases h : c = d
      · rw [if_pos h, ih, and_iff_right h]
      · rw [if_neg h, iff_false_intro h, false_and]
        simp

/-- `str_copy` to a field of `max` bytes. -/
def strCopy (s : List u8) (max : Nat) : List u8 := s.take (max - 1)

/-! ## Handles -/

abbrev HANDLE := u64

abbrev INVALID_HANDLE : HANDLE := -1#64

def indexToHandle (i : Fin OB_HANDLE_TABLE_SIZE) : HANDLE := (BitVec.ofNat 64 i.val + 1#64) * 8#64

def handleValid (h : HANDLE) : Bool :=
  if h = 0 ∨ h = INVALID_HANDLE then false
  else if h.toNat % 8 ≠ 0 then false
  else decide (1 ≤ h.toNat / 8 ∧ h.toNat / 8 ≤ OB_HANDLE_TABLE_SIZE)

theorem handleValid_bound {h : HANDLE} (valid : handleValid h = true) :
    h.toNat / 8 - 1 < OB_HANDLE_TABLE_SIZE := by
  unfold handleValid at valid
  split at valid
  · cases valid
  · split at valid
    · cases valid
    · have bound := of_decide_eq_true valid
      omega

/-- The entry that a handle stands for, if the handle can be one. -/
def handleToIndex (h : HANDLE) : Option (Fin OB_HANDLE_TABLE_SIZE) :=
  if valid : handleValid h = true then some ⟨h.toNat / 8 - 1, handleValid_bound valid⟩ else none

/-- `HandleTable::Alloc`: the table with the object in its first free entry. -/
def alloc (s : State) (object : Nat) (access : u32) :
    Option (State × Fin OB_HANDLE_TABLE_SIZE) :=
  ((List.finRange OB_HANDLE_TABLE_SIZE).find? fun i => (s.ktable i).object.isNone).map fun i =>
    ({ s with ktable := Function.update s.ktable i ⟨some object, access⟩ }, i)

/-- `HandleTable::Lookup`: the entry and the object in it. -/
def lookup (s : State) (h : HANDLE) : Option (Fin OB_HANDLE_TABLE_SIZE × Nat) :=
  (handleToIndex h).bind fun i => (s.ktable i).object.map fun o => (i, o)

/-- `HandleTable::Free`. -/
def free (s : State) (h : HANDLE) : State × NTSTATUS :=
  match lookup s h with
  | none => (s, STATUS_INVALID_HANDLE)
  | some e => ({ s with ktable := Function.update s.ktable e.1 ⟨none, 0⟩ }, STATUS_SUCCESS)

/-! ## Names -/

/-- The first entry in use under a path. -/
def findPath (s : State) (path : List u8) : Option (Fin OB_NAMESPACE_SIZE) :=
  (List.finRange OB_NAMESPACE_SIZE).find? fun i =>
    (s.ns i).object.isSome && strEq (s.ns i).path path

def findSlot (s : State) : Option (Fin OB_NAMESPACE_SIZE) :=
  (List.finRange OB_NAMESPACE_SIZE).find? fun i => (s.ns i).object.isNone

def insertObjectByName (s : State) (object : Option Nat) (path : Option (List u8)) :
    State × NTSTATUS :=
  match object, path with
  | some o, some p =>
    if p.head? ≠ some 0x5C#8 then (s, STATUS_INVALID_PARAMETER)
    else if p.length ≥ PATH_SIZE then (s, STATUS_INVALID_PARAMETER)
    else if (findPath s p).isSome then (s, STATUS_ALREADY_EXISTS)
    else
      match findSlot s with
      | some i =>
        ({ s with ns := Function.update s.ns i ⟨strCopy p PATH_SIZE, some o⟩ }, STATUS_SUCCESS)
      | none => (s, STATUS_INSUFFICIENT_RESOURCES)
  | _, _ => (s, STATUS_INVALID_PARAMETER)

def removeObjectByName (s : State) (path : Option (List u8)) : State :=
  match path with
  | none => s
  | some p =>
    match findPath s p with
    | none => s
    | some i => { s with ns := Function.update s.ns i ⟨[], none⟩ }

/-! ## The life of an object -/

/-- A new header at the next address; `granted` tells whether the heap has room. -/
def newObject (s : State) (type : Option ObType) (name : Option (List u8)) (granted : Bool) :
    State × Option Nat :=
  if granted then
    let hdr : ObjectHeader := ⟨OB_MAGIC, type, 1, 0, (name.map (strCopy · NAME_SIZE)).getD []⟩
    ({ s.setHeader s.count hdr with count := s.count + 1 }, some s.count)
  else (s, none)

def allocateObject (s : State) (type : Option ObType) (path : Option (List u8)) (granted : Bool) :
    State × Option Nat :=
  match type with
  | none => (s, none)
  | some t =>
    match newObject s (some t) path granted with
    | (s, none) => (s, none)
    | (s, some o) =>
      if path.getD [] ≠ [] then ((insertObjectByName s (some o) path).1, some o)
      else (s, some o)

def allocateObjectRaw (s : State) (name : Option (List u8)) (granted : Bool) :
    State × Option Nat :=
  newObject s none name granted

def referenceObject (s : State) (object : Option Nat) : State :=
  match object with
  | none => s
  | some o =>
    let hdr := s.headers o
    if hdr.magic ≠ OB_MAGIC then s
    else s.setHeader o { hdr with refCount := hdr.refCount + 1 }

/-- What `DereferenceObject` does to an object whose last reference it has dropped. -/
def destroy (s : State) (o : Nat) : State :=
  let hdr := s.headers o
  let s := if hdr.name ≠ [] then removeObjectByName s (some hdr.name) else s
  let s :=
    if hdr.type.any ObType.onClose then
      { s with closes := Function.update s.closes o (s.closes o + 1) }
    else s
  s.setHeader o { hdr with magic := 0 }

def dereferenceObject (s : State) (object : Option Nat) : State :=
  match object with
  | none => s
  | some o =>
    let hdr := s.headers o
    if hdr.magic ≠ OB_MAGIC then s
    else
      let ref := hdr.refCount - 1
      let s := s.setHeader o { hdr with refCount := ref }
      if ref.sle 0 then destroy s o else s

/-! ## Handles to objects

`out` tells whether the caller gave an address for the result. -/

def insertObject (s : State) (object : Option Nat) (access : u32) (out : Bool) :
    State × NTSTATUS × Option HANDLE :=
  match object, out with
  | some o, true =>
    if (s.headers o).magic ≠ OB_MAGIC then (s, STATUS_INVALID_PARAMETER, none)
    else
      match alloc s o access with
      | none => (s, STATUS_INSUFFICIENT_RESOURCES, none)
      | some (s, i) =>
        let hdr := s.headers o
        (s.setHeader o
          { hdr with handleCount := hdr.handleCount + 1, refCount := hdr.refCount + 1 },
          STATUS_SUCCESS, some (indexToHandle i))
  | _, _ => (s, STATUS_INVALID_PARAMETER, none)

def closeHandle (s : State) (h : HANDLE) : State × NTSTATUS :=
  match lookup s h with
  | none => (s, STATUS_INVALID_HANDLE)
  | some (_, o) =>
    match free s h with
    | (s, st) =>
      if !ntSuccess st then (s, st)
      else
        let hdr := s.headers o
        if hdr.magic = OB_MAGIC then
          (dereferenceObject (s.setHeader o { hdr with handleCount := hdr.handleCount - 1 }) (some o),
            STATUS_SUCCESS)
        else (s, STATUS_SUCCESS)

/-- The test of the expected type, null for any. -/
def mismatch (hdr : ObjectHeader) (expected : Option ObType) : Bool :=
  expected.isSome && decide (hdr.type ≠ expected)

def referenceObjectByHandle (s : State) (h : HANDLE) (expected : Option ObType) (out : Bool) :
    State × NTSTATUS × Option Nat :=
  if !out then (s, STATUS_INVALID_PARAMETER, none)
  else
    match lookup s h with
    | none => (s, STATUS_INVALID_HANDLE, none)
    | some (_, o) =>
      if (s.headers o).magic ≠ OB_MAGIC then (s, STATUS_INVALID_HANDLE, none)
      else if mismatch (s.headers o) expected then (s, STATUS_OBJECT_TYPE_MISMATCH, none)
      else (referenceObject s (some o), STATUS_SUCCESS, some o)

/-- The first entry under a path whose object is not dead. -/
def findLive (s : State) (path : List u8) : Option Nat :=
  (List.finRange OB_NAMESPACE_SIZE).findSome? fun i =>
    match (s.ns i).object with
    | none => none
    | some o => if strEq (s.ns i).path path && decide (s.Live o) then some o else none

def lookupObjectByName (s : State) (path : Option (List u8)) (expected : Option ObType)
    (out : Bool) : State × NTSTATUS × Option Nat :=
  match path, out with
  | some p, true =>
    match findLive s p with
    | none => (s, STATUS_OBJECT_NAME_NOT_FOUND, none)
    | some o =>
      if mismatch (s.headers o) expected then (s, STATUS_OBJECT_TYPE_MISMATCH, none)
      else (referenceObject s (some o), STATUS_SUCCESS, some o)
  | _, _ => (s, STATUS_INVALID_PARAMETER, none)

/-! ## The callers

A caller holds an object's creation reference or a reference that it has taken;
every call that hands one out is remembered. -/

inductive Ref
  | creation
  | taken

inductive Op
  | allocateObject (type : Option ObType) (path : Option (List u8)) (granted : Bool)
  | allocateObjectRaw (name : Option (List u8)) (granted : Bool)
  | referenceObject (object : Option Nat)
  | dereferenceObject (object : Option Nat) (ref : Ref)
  | insertObject (object : Option Nat) (access : u32) (out : Bool)
  | closeHandle (h : HANDLE)
  | referenceObjectByHandle (h : HANDLE) (expected : Option ObType) (out : Bool)
  | insertObjectByName (object : Option Nat) (path : Option (List u8))
  | removeObjectByName (path : Option (List u8))
  | lookupObjectByName (path : Option (List u8)) (expected : Option ObType) (out : Bool)

/-- The state, the objects whose creation reference is still held, and how many taken
references of each object are. -/
structure System where
  state : State
  created : Nat → Bool
  taken : Nat → Nat

def System.init : System := ⟨.init, fun _ => false, fun _ => 0⟩

/-- A caller has taken a reference to what a call returned. -/
def System.took (sys : System) (s : State) : Option Nat → System
  | none => { sys with state := s }
  | some o => { sys with state := s, taken := Function.update sys.taken o (sys.taken o + 1) }

/-- A caller has the creation reference of a new object. -/
def System.made (sys : System) (s : State) : Option Nat → System
  | none => { sys with state := s }
  | some o => { sys with state := s, created := Function.update sys.created o true }

/-- A caller lets go of a reference. -/
def System.dropped (sys : System) (s : State) (o : Nat) : Ref → System
  | .creation => { sys with state := s, created := Function.update sys.created o false }
  | .taken => { sys with state := s, taken := Function.update sys.taken o (sys.taken o - 1) }

/-- The system after a call. -/
def next (sys : System) : Op → System
  | .allocateObject type path granted =>
    let r := allocateObject sys.state type path granted
    sys.made r.1 r.2
  | .allocateObjectRaw name granted =>
    let r := allocateObjectRaw sys.state name granted
    sys.made r.1 r.2
  | .referenceObject object =>
    -- a dead object gives no reference
    sys.took (referenceObject sys.state object) (object.filter fun o => sys.state.Live o)
  | .dereferenceObject none _ => sys
  | .dereferenceObject (some o) ref =>
    sys.dropped (dereferenceObject sys.state (some o)) o ref
  | .insertObject object access out =>
    { sys with state := (insertObject sys.state object access out).1 }
  | .closeHandle h => { sys with state := (closeHandle sys.state h).1 }
  | .referenceObjectByHandle h expected out =>
    let r := referenceObjectByHandle sys.state h expected out
    sys.took r.1 r.2.2
  | .insertObjectByName object path =>
    { sys with state := (insertObjectByName sys.state object path).1 }
  | .removeObjectByName path => { sys with state := removeObjectByName sys.state path }
  | .lookupObjectByName path expected out =>
    let r := lookupObjectByName sys.state path expected out
    sys.took r.1 r.2.2

def step (sys : System) (op : Op) : Option System := some (next sys op)

end MicroNT.OB
