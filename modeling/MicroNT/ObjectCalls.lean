import Mathlib.Data.Fintype.Basic
import MicroNT.Base.Machine
import MicroNT.ObjectManager

/-! # Calls of the object manager side by side (`object_manager.cpp`)

The calls run with interrupts on, so another thread may come in between any two of their
statements. What a spinlock protects is one step where the lock is given back at once: the
handle table's lock always is, and the namespace's except by `LookupObjectByName`, which
keeps it up to its end. -/

set_option linter.unusedSectionVars false

namespace MicroNT.OB.Calls

open Base.Machine

/-- The next statement of the call a thread is in. The statements of
`ReferenceObjectByHandle` and `CloseHandle` also know the object that the entry held when
`Lookup` found it. -/
inductive Pc
  | idle
  | refCheck (o : Nat)
  | refInc (o : Nat)
  | drefCheck (o : Nat)
  | drefDec (o : Nat)
  | drefName (o : Nat)
  | drefClose (o : Nat)
  | drefWipe (o : Nat)
  | insCheck (o : Nat) (access : u32)
  | insAlloc (o : Nat) (access : u32)
  | insCount (o : Nat) (i : Fin OB_HANDLE_TABLE_SIZE)
  | closeRead (i : Fin OB_HANDLE_TABLE_SIZE) (found : Nat)
  | closeFree (i : Fin OB_HANDLE_TABLE_SIZE) (found : Nat) (object : Option Nat)
  | closeCheck (o : Nat)
  | closeCount (o : Nat)
  | byHandleRead (i : Fin OB_HANDLE_TABLE_SIZE) (found : Nat) (expected : Option ObType)
  | byHandleArg (i : Fin OB_HANDLE_TABLE_SIZE) (found : Nat)
  | byHandleCheck (i : Fin OB_HANDLE_TABLE_SIZE) (found : Nat) (object : Option Nat)
  | byHandleInc (i : Fin OB_HANDLE_TABLE_SIZE) (found o : Nat)
  | byHandleOut (i : Fin OB_HANDLE_TABLE_SIZE) (found : Nat) (counted : Option Nat)
  | nameLock (path : List u8) (expected : Option ObType)
  | nameScan (path : List u8) (expected : Option ObType) (i : Nat)
  | nameCheck (o : Nat)
  | nameInc (o : Nat)
  | nameOut (o : Nat) (counted : Bool)
  | newInsert (o : Nat) (path : List u8)
  deriving DecidableEq

/-- The object manager, the holder of the namespace's lock, and where each thread is. How
many references of an object callers hold, and whose reference a handle keeps, belong to
no variable of the code. -/
structure System (T : Type) where
  state : State
  nsLock : Option T
  pc : T → Pc
  held : Nat → Nat
  owner : Fin OB_HANDLE_TABLE_SIZE → Option Nat

variable {T : Type}

/-- After `Init`. -/
def System.init : System T := ⟨.init, none, fun _ => .idle, fun _ => 0, fun _ => none⟩

variable [DecidableEq T]

def System.goto (sys : System T) (t : T) (x : Pc) : System T :=
  { sys with pc := Function.update sys.pc t x }

def System.with (sys : System T) (s : State) : System T := { sys with state := s }

/-- Callers get `n` references. -/
def System.give (sys : System T) (o n : Nat) : System T :=
  { sys with held := Function.update sys.held o (sys.held o + n) }

/-- A caller passes one reference on to a call. -/
def System.pass (sys : System T) (o : Nat) : System T :=
  { sys with held := Function.update sys.held o (sys.held o - 1) }

/-- The end of `LookupObjectByName`. -/
def System.unlock (sys : System T) : System T := { sys with nsLock := none }

/-- `++RefCount`. -/
def increment (s : State) (o : Nat) : State :=
  let hdr := s.headers o
  s.setHeader o { hdr with refCount := hdr.refCount + 1 }

/-- `Free` behind its checks of the handle. -/
def freeEntry (s : State) (i : Fin OB_HANDLE_TABLE_SIZE) : State :=
  { s with ktable := Function.update s.ktable i ⟨none, 0⟩ }

/-- The next step of the call that thread `t` is in. -/
def proceed (sys : System T) (t : T) : Option (System T) :=
  let s := sys.state
  match sys.pc t with
  | .idle => none
  -- `ReferenceObject`
  | .refCheck o =>
    some (if s.Live o then sys.goto t (.refInc o) else (sys.give o 1).goto t .idle)
  | .refInc o => some (((sys.with (increment s o)).give o 2).goto t .idle)
  -- `DereferenceObject`
  | .drefCheck o => some (sys.goto t (if s.Live o then .drefDec o else .idle))
  | .drefDec o =>
    let hdr := s.headers o
    let ref := hdr.refCount - 1
    some ((sys.with (s.setHeader o { hdr with refCount := ref })).goto t
      (if ref.sle 0 then .drefName o else .idle))
  | .drefName o =>
    let hdr := s.headers o
    if hdr.name ≠ [] then
      if sys.nsLock = none then
        some ((sys.with (removeObjectByName s (some hdr.name))).goto t (.drefClose o))
      else none
    else some (sys.goto t (.drefClose o))
  | .drefClose o =>
    let s :=
      if (s.headers o).type.any ObType.onClose then
        { s with closes := Function.update s.closes o (s.closes o + 1) }
      else s
    some ((sys.with s).goto t (.drefWipe o))
  | .drefWipe o =>
    some ((sys.with (s.setHeader o { s.headers o with magic := 0 })).goto t .idle)
  -- `InsertObject`
  | .insCheck o access =>
    some (if s.Live o then sys.goto t (.insAlloc o access) else (sys.give o 1).goto t .idle)
  | .insAlloc o access =>
    match alloc s o access with
    | none => some ((sys.give o 1).goto t .idle)
    | some (s, i) => some ((sys.with s).goto t (.insCount o i))
  | .insCount o i =>
    let hdr := s.headers o
    some (({ (sys.with (s.setHeader o
        { hdr with handleCount := hdr.handleCount + 1, refCount := hdr.refCount + 1 })) with
      owner := Function.update sys.owner i (some o) } : System T).give o 1 |>.goto t .idle)
  -- `CloseHandle`
  | .closeRead i found => some (sys.goto t (.closeFree i found (s.ktable i).object))
  | .closeFree i _ object =>
    if (s.ktable i).object = none then some (sys.goto t .idle)
    else
      some (({ sys.with (freeEntry s i) with owner := Function.update sys.owner i none } :
        System T).goto t (match object with | none => .idle | some o => .closeCheck o))
  | .closeCheck o => some (sys.goto t (if s.Live o then .closeCount o else .idle))
  | .closeCount o =>
    let hdr := s.headers o
    some ((sys.with (s.setHeader o { hdr with handleCount := hdr.handleCount - 1 })).goto t
      (.drefCheck o))
  -- `ReferenceObjectByHandle`, which reads the entry three times
  | .byHandleRead i found expected =>
    match (s.ktable i).object with
    | none => some (sys.goto t .idle)
    | some o =>
      some (sys.goto t
        (if s.Live o ∧ mismatch (s.headers o) expected = false then .byHandleArg i found
        else .idle))
  | .byHandleArg i found => some (sys.goto t (.byHandleCheck i found (s.ktable i).object))
  | .byHandleCheck i found object =>
    match object with
    | none => some (sys.goto t (.byHandleOut i found none))
    | some o =>
      some (sys.goto t (if s.Live o then .byHandleInc i found o else .byHandleOut i found none))
  | .byHandleInc i found o =>
    some ((sys.with (increment s o)).goto t (.byHandleOut i found (some o)))
  | .byHandleOut i _ _ =>
    match (s.ktable i).object with
    | none => some (sys.goto t .idle)
    | some o => some ((sys.give o 1).goto t .idle)
  -- `LookupObjectByName`
  | .nameLock path expected =>
    if sys.nsLock = none then
      some (({ sys with nsLock := some t } : System T).goto t (.nameScan path expected 0))
    else none
  | .nameScan path expected i =>
    if h : i < OB_NAMESPACE_SIZE then
      match (s.ns ⟨i, h⟩).object with
      | none => some (sys.goto t (.nameScan path expected (i + 1)))
      | some o =>
        if strEq (s.ns ⟨i, h⟩).path path = false ∨ ¬ s.Live o then
          some (sys.goto t (.nameScan path expected (i + 1)))
        else if mismatch (s.headers o) expected then some (sys.unlock.goto t .idle)
        else some (sys.goto t (.nameCheck o))
    else some (sys.unlock.goto t .idle)
  | .nameCheck o => some (sys.goto t (if s.Live o then .nameInc o else .nameOut o false))
  | .nameInc o => some ((sys.with (increment s o)).goto t (.nameOut o true))
  | .nameOut o _ => some ((sys.give o 1).unlock.goto t .idle)
  -- the end of `AllocateObject`
  | .newInsert o path =>
    if sys.nsLock = none then
      some (((sys.with (insertObjectByName s (some o) (some path)).1).give o 1).goto t .idle)
    else none

/-- The calls. A null argument or a null result pointer makes each of them return at
once. -/
inductive Call
  | allocateObject (type : ObType) (path : Option (List u8)) (granted : Bool)
  | allocateObjectRaw (name : Option (List u8)) (granted : Bool)
  | referenceObject (o : Nat)
  | dereferenceObject (o : Nat)
  | insertObject (o : Nat) (access : u32)
  | closeHandle (h : HANDLE)
  | referenceObjectByHandle (h : HANDLE) (expected : Option ObType)
  | lookupObjectByName (path : List u8) (expected : Option ObType)

/-- A call up to its first statement. A caller that names an object holds a reference to
it. -/
def call (sys : System T) (t : T) : Call → Option (System T)
  | .allocateObject type path granted =>
    match newObject sys.state (some type) path granted with
    | (_, none) => some sys
    | (s, some o) =>
      some (if path.getD [] ≠ [] then (sys.with s).goto t (.newInsert o (path.getD []))
        else (sys.with s).give o 1)
  | .allocateObjectRaw name granted =>
    match newObject sys.state none name granted with
    | (_, none) => some sys
    | (s, some o) => some ((sys.with s).give o 1)
  | .referenceObject o => if 0 < sys.held o then some ((sys.pass o).goto t (.refCheck o)) else none
  | .dereferenceObject o =>
    if 0 < sys.held o then some ((sys.pass o).goto t (.drefCheck o)) else none
  | .insertObject o access =>
    if 0 < sys.held o then some ((sys.pass o).goto t (.insCheck o access)) else none
  | .closeHandle h =>
    match lookup sys.state h with
    | none => some sys
    | some (i, o) => some (sys.goto t (.closeRead i o))
  | .referenceObjectByHandle h expected =>
    match lookup sys.state h with
    | none => some sys
    | some (i, o) => some (sys.goto t (.byHandleRead i o expected))
  | .lookupObjectByName path expected => some (sys.goto t (.nameLock path expected))

inductive Op
  | go
  | call (a : Call)

/-- A step of thread `t`: the next statement of its call, or a call that it starts. -/
def step (sys : System T) (a : T × Op) : Option (System T) :=
  match a.2 with
  | .go => proceed sys a.1
  | .call c => if sys.pc a.1 = .idle then call sys a.1 c else none

end MicroNT.OB.Calls
