import Mathlib.Data.List.FinRange
import Mathlib.Logic.Function.Basic
import MicroNT.Ntdef

/-! # The writable files (`vfs.cpp`)

Sixteen nodes in memory hold the writable files and directories. `SaveNVRAM` copies
all of them to a variable of the firmware, and `Init` reads it back after a reboot.
A C string is the list of its bytes before the terminating zero. -/

namespace MicroNT.VFS

abbrev WNODE_MAX : Nat := 16
abbrev WNODE_NAME_MAX : Nat := 64
abbrev WNODE_DATA_MAX : Nat := 2048

structure WNode where
  name : List u8
  used : Bool
  isDir : Bool
  size : u32
  data : Nat → u8
  bound : size.toNat ≤ WNODE_DATA_MAX

/-- The node `{}`. -/
def WNode.zero : WNode := ⟨[], false, false, 0, fun _ => 0, by decide⟩

abbrev Nodes := Fin WNODE_MAX → WNode

/-! ## Strings -/

def lower (c : u8) : u8 := if 0x41#8 ≤ c ∧ c ≤ 0x5A#8 then c + 32#8 else c

def strIeq : List u8 → List u8 → Bool
  | a :: as, b :: bs => if lower a ≠ lower b then false else strIeq as bs
  | [], [] => true
  | _, _ => false

/-- `str_copy` to a field of `max` bytes. -/
def strCopy (s : List u8) (max : Nat) : List u8 := s.take (max - 1)

/-! ## The firmware's variable -/

abbrev NVRAM_MAGIC : u32 := 0x5346544E#32

structure NvramHeader where
  magic : u32
  count : u32
  nodes : Nodes

/-- What the kernel finds of the runtime services: their address, 0 without any, and
the functions that are there. A variable that can be set can be read. -/
structure Firmware where
  efiRuntimeVa : u64
  getVariable : Bool
  setVariable : Bool
  readable : setVariable = true → getVariable = true

/-- The nodes, and the variable in the firmware once it is set. -/
structure System where
  nodes : Nodes
  nvram : Option NvramHeader

/-- `LoadNVRAM`. The firmware returns the variable as it was set. -/
def loadNvram (fw : Firmware) (var : Option NvramHeader) (nodes : Nodes) : Nodes :=
  if fw.efiRuntimeVa = 0 then nodes
  else if !fw.getVariable then nodes
  else
    match var with
    | none => nodes
    | some hdr =>
      if hdr.magic ≠ NVRAM_MAGIC then nodes
      else
        let count := if hdr.count.toNat < WNODE_MAX then hdr.count.toNat else WNODE_MAX
        fun i => if i.val < count then hdr.nodes i else nodes i

def init (fw : Firmware) (var : Option NvramHeader) : Nodes :=
  loadNvram fw var fun _ => WNode.zero

/-- `SaveNVRAM`; `accepts` tells whether `SetVariable` succeeds. -/
def saveNvram (fw : Firmware) (accepts : Bool) (s : System) : System :=
  if fw.efiRuntimeVa = 0 then s
  else if !fw.setVariable then s
  else if accepts then { s with nvram := some ⟨NVRAM_MAGIC, BitVec.ofNat 32 WNODE_MAX, s.nodes⟩ }
  else s

/-! ## Nodes -/

/-- The search for a node in use by its name. -/
def findName (nodes : Nodes) (name : List u8) : Option (Fin WNODE_MAX) :=
  (List.finRange WNODE_MAX).find? fun i => (nodes i).used && strIeq (nodes i).name name

def findFree (nodes : Nodes) : Option (Fin WNODE_MAX) :=
  (List.finRange WNODE_MAX).find? fun i => !(nodes i).used

/-- The index that the functions return, `WNODE_MAX` for none. -/
def index (i : Option (Fin WNODE_MAX)) : u32 := BitVec.ofNat 32 (i.elim WNODE_MAX Fin.val)

def wFind (nodes : Nodes) (name : List u8) : u32 := index (findName nodes name)

def newNode (name : List u8) (isDir : Bool) : WNode :=
  { WNode.zero with used := true, isDir := isDir, name := strCopy name WNODE_NAME_MAX }

def wFindOrCreate (nodes : Nodes) (name : List u8) (isDir : Bool) : Nodes × u32 :=
  match findName nodes name with
  | some i => (nodes, index (some i))
  | none =>
    match findFree nodes with
    | some i => (Function.update nodes i (newNode name isDir), index (some i))
    | none => (nodes, index none)

def mkDir (nodes : Nodes) (name : List u8) : Nodes × Bool :=
  if name = [] then (nodes, false)
  else if (wFind nodes name).toNat < WNODE_MAX then (nodes, false)
  else
    let r := wFindOrCreate nodes name true
    (r.1, decide (r.2.toNat < WNODE_MAX))

def delete (nodes : Nodes) (name : List u8) : Nodes × Bool :=
  match findName nodes name with
  | some i => (Function.update nodes i WNode.zero, true)
  | none => (nodes, false)

/-- The node of an index, if it is one in use. -/
def nodeAt (nodes : Nodes) (idx : u32) : Option (Fin WNODE_MAX) :=
  if h : idx.toNat < WNODE_MAX then
    if (nodes ⟨idx.toNat, h⟩).used then some ⟨idx.toNat, h⟩ else none
  else none

/-- The loop that copies `n` bytes of `src`, from byte `i` on, to the end of the data. -/
def copyIn (src : Nat → u8) (size : Nat) : Nat → Nat → (Nat → u8) → Nat → u8
  | 0, _, data => data
  | n + 1, i, data => copyIn src size n (i + 1) (Function.update data (size + i) (src i))

/-- The length that `WWrite` comes down to. -/
def accepted (n : WNode) (len : u32) : u32 :=
  let space := BitVec.ofNat 32 WNODE_DATA_MAX - n.size
  if len > space then space else len

theorem accepted_toNat (n : WNode) (len : u32) :
    (accepted n len).toNat = min len.toNat (WNODE_DATA_MAX - n.size.toNat) := by
  have bound := n.bound
  have space : (BitVec.ofNat 32 WNODE_DATA_MAX - n.size).toNat = WNODE_DATA_MAX - n.size.toNat := by
    rw [BitVec.toNat_sub_of_le]
    · rfl
    · exact BitVec.le_def.mpr bound
  unfold accepted
  simp only [gt_iff_lt, BitVec.lt_def, space]
  split
  case isTrue more => rw [space]; omega
  case isFalse => omega

def append (n : WNode) (src : Nat → u8) (len : u32) : WNode :=
  { n with
    data := copyIn src n.size.toNat (accepted n len).toNat 0 n.data
    size := n.size + accepted n len
    bound := by
      have bound := n.bound
      rw [BitVec.toNat_add, accepted_toNat]
      simp only [WNODE_DATA_MAX] at *
      omega }

def wWrite (nodes : Nodes) (idx : u32) (src : Nat → u8) (len : u32) : Nodes × u32 :=
  match nodeAt nodes idx with
  | none => (nodes, 0)
  | some i => (Function.update nodes i (append (nodes i) src len), accepted (nodes i) len)

/-- `WRead`: the bytes that it stores, as many as it returns. -/
def wRead (nodes : Nodes) (idx : u32) (offset : u64) (len : u32) : List u8 :=
  match nodeAt nodes idx with
  | none => []
  | some i =>
    let n := nodes i
    if offset ≥ n.size.setWidth 64 then []
    else
      let avail := n.size - offset.setWidth 32
      let len := if len > avail then avail else len
      (List.range len.toNat).map fun k => n.data ((offset.setWidth 32).toNat + k)

def wSize (nodes : Nodes) (idx : u32) : u32 :=
  (nodeAt nodes idx).elim 0 fun i => (nodes i).size

def wIsDir (nodes : Nodes) (idx : u32) : Bool :=
  (nodeAt nodes idx).elim false fun i => (nodes i).isDir

/-! ## Requests -/

inductive Op
  | wFind (name : List u8)
  | wFindOrCreate (name : List u8) (isDir : Bool)
  | mkDir (name : List u8)
  | delete (name : List u8)
  | wWrite (idx : u32) (src : Nat → u8) (len : u32)
  | wRead (idx : u32) (offset : u64) (len : u32)
  | wSize (idx : u32)
  | wIsDir (idx : u32)
  | saveNvram (accepts : Bool)
  | reboot

inductive Answer
  | word (w : u32)
  | flag (b : Bool)
  | bytes (l : List u8)
  | none
  deriving DecidableEq

def step (fw : Firmware) (s : System) : Op → System × Answer
  | .wFind name => (s, .word (wFind s.nodes name))
  | .wFindOrCreate name isDir =>
    let r := wFindOrCreate s.nodes name isDir
    ({ s with nodes := r.1 }, .word r.2)
  | .mkDir name =>
    let r := mkDir s.nodes name
    ({ s with nodes := r.1 }, .flag r.2)
  | .delete name =>
    let r := delete s.nodes name
    ({ s with nodes := r.1 }, .flag r.2)
  | .wWrite idx src len =>
    let r := wWrite s.nodes idx src len
    ({ s with nodes := r.1 }, .word r.2)
  | .wRead idx offset len => (s, .bytes (wRead s.nodes idx offset len))
  | .wSize idx => (s, .word (wSize s.nodes idx))
  | .wIsDir idx => (s, .flag (wIsDir s.nodes idx))
  | .saveNvram accepts => (saveNvram fw accepts s, .none)
  | .reboot => ({ s with nodes := init fw s.nvram }, .none)

/-- The first start: the variable has never been set. -/
def firstBoot (fw : Firmware) : System := ⟨init fw none, none⟩

end MicroNT.VFS
