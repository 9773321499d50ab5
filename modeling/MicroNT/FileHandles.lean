import MicroNT.NamedPipes

/-! # File handles

A handle of a file is the number of its slot, and nothing records who opened it. What a
call on a handle comes to is whatever file is in the slot that the number leads to. -/

namespace MicroNT.FileIo

open MicroNT.VMM (Mem)
open MicroNT.Kernel (readUserBytes)
open MicroNT.VFS (WNode Nodes WNODE_MAX findName findFree nodeAt)
open MicroNT.Base.Machine

/-! ## Files and the numbers that lead to them -/

/-- A file, or what is left of one that was deleted. -/
inductive Target
  | boot (i : Nat)
  | node (i : Fin WNODE_MAX)
  | gone
  deriving DecidableEq

def BootFile.content (f : BootFile) : List u8 := (List.range f.size.toNat).map f.bytes

def FileSystem.content (fs : FileSystem) : Target → List u8
  | .boot i => (fs.boot[i]?.map BootFile.content).getD []
  | .node i => (fs.nodes i).bytes
  | .gone => []

def nodeHandle (i : Fin WNODE_MAX) : u64 := WFILE_HANDLE_BASE + BitVec.ofNat 64 i.val

/-- The file that a number leads to. -/
def FileSystem.target (fs : FileSystem) (h : u64) : Option Target :=
  if (pipeAt h).isSome then none
  else if NodeHandle h then (nodeAt fs.nodes ((h - WFILE_HANDLE_BASE).setWidth 32)).map .node
  else if (bootHandle h).toNat < fs.boot.length then some (.boot (bootHandle h).toNat)
  else none

def slice (bytes : List u8) (offset len : u64) : List u8 :=
  (bytes.drop offset.toNat).take (min len.toNat 512)

/-- The bytes that a read under a number comes to. -/
def FileSystem.readAt (fs : FileSystem) (t : Option Target) (offset len : u64) : List u8 :=
  slice ((t.map fs.content).getD []) offset len

theorem slice_nil (offset len : u64) : slice [] offset len = [] := by
  rw [slice, List.drop_nil, List.take_nil]

theorem slice_length (bytes : List u8) (offset len : u64) :
    (slice bytes offset len).length = min (min len.toNat 512) (bytes.length - offset.toNat) := by
  rw [slice, List.length_take, List.length_drop]

theorem slice_small (bytes : List u8) (offset len : u64) : (slice bytes offset len).length ≤ 512 := by
  rw [slice_length]
  omega

theorem slice_eq_nil (bytes : List u8) (offset len : u64) :
    slice bytes offset len = [] ↔ len = 0 ∨ bytes.length ≤ offset.toNat := by
  have zero : len = 0 ↔ len.toNat = 0 := by
    rw [← BitVec.toNat_inj]
    rfl
  rw [← List.length_eq_zero_iff, slice_length, zero]
  omega

theorem BootFile.content_length (f : BootFile) : f.content.length = f.size.toNat := by
  rw [BootFile.content, List.length_map, List.length_range]

/-- **`VFS::Read`** gives the slice at the offset. -/
theorem readBoot_slice {boot : List BootFile} (room : boot.length ≤ BOOT_FILES_MAX) (handle : u32)
    (offset len : u64) :
    readBoot boot handle offset (BitVec.ofNat 64 (min len.toNat 512)) =
      boot[handle.toNat]?.map fun f => slice f.content offset len := by
  have count : (BitVec.ofNat 64 (min len.toNat 512)).toNat = min len.toNat 512 := by
    rw [BitVec.toNat_ofNat, Nat.mod_eq_of_lt (by omega)]
  cases found : boot[handle.toNat]? with
  | none =>
    rw [readBoot, found]
    split
    all_goals rfl
  | some f =>
    have small := (List.getElem?_eq_some_iff.mp found).1
    have positive : handle.slt 0#32 = false := by
      rw [BitVec.slt_zero_eq_msb, BitVec.msb_eq_false_iff_two_mul_lt]
      simp only [BOOT_FILES_MAX] at room
      omega
    rw [readBoot, positive, found, Option.map_some]
    simp only [Bool.false_eq_true, if_false]
    split
    case isTrue past =>
      have past := BitVec.le_def.mp past
      rw [slice, List.drop_eq_nil_of_le (by rw [f.content_length]; exact past), List.take_nil]
    case isFalse inside =>
      have inside : offset.toNat < f.size.toNat := by
        rw [ge_iff_le, BitVec.le_def] at inside
        omega
      have avail : (f.size - offset).toNat = f.size.toNat - offset.toNat :=
        BitVec.toNat_sub_of_le (BitVec.le_def.mpr (by omega))
      have cut : (if BitVec.ofNat 64 (min len.toNat 512) > f.size - offset then f.size - offset
          else BitVec.ofNat 64 (min len.toNat 512)).toNat =
          min (min len.toNat 512) (f.size.toNat - offset.toNat) := by
        simp only [gt_iff_lt, BitVec.lt_def, avail, count]
        split
        case isTrue more => rw [avail]; omega
        case isFalse => rw [count]; omega
      simp only [cut, Option.some.injEq]
      refine List.ext_getElem ?_ fun j h1 h2 => ?_
      · rw [List.length_map, List.length_range, slice_length, f.content_length]
      · simp only [List.getElem_map, List.getElem_range, slice, List.getElem_take,
          List.getElem_drop, BootFile.content]

/-- **`VFS::WRead`** gives the slice at the offset. -/
theorem wRead_eq_slice (nodes : Nodes) (idx : u32) (offset len : u64) :
    VFS.wRead nodes idx offset (BitVec.ofNat 32 (min len.toNat 512)) =
      slice (((nodeAt nodes idx).map fun i => (nodes i).bytes).getD []) offset len := by
  have count : (BitVec.ofNat 32 (min len.toNat 512)).toNat = min len.toNat 512 := by
    rw [BitVec.toNat_ofNat, Nat.mod_eq_of_lt (by omega)]
  rw [VFS.wRead]
  cases nodeAt nodes idx with
  | none => exact (slice_nil offset len).symm
  | some i =>
    have part := VFS.wRead_slice (nodes i) offset (BitVec.ofNat 32 (min len.toNat 512))
    rw [count] at part
    exact part

section

variable {fs : FileSystem} {m : Mem} {pml4 h va offset len : u64}

/-- **`NtReadFile`** returns and stores what is in the file that the number leads to. -/
theorem ntReadFile_eq (other : pipeAt h = none) :
    ntReadFile fs m (some pml4) h va offset len =
      { ret := BitVec.ofNat 64 (fs.readAt (fs.target h) offset len).length
        files := fs
        mem := (storeBytes pml4 va (fs.readAt (fs.target h) offset len) m).1
        accesses := (storeBytes pml4 va (fs.readAt (fs.target h) offset len) m).2
        console := [] } := by
  simp only [ntReadFile, other, FileSystem.target, Option.isSome_none, Bool.false_eq_true, if_false]
  by_cases node : NodeHandle h
  case pos =>
    rw [if_pos node, if_pos node, wRead_eq_slice, FileSystem.readAt, Option.map_map]
    rfl
  case neg =>
    rw [if_neg node, if_neg node, readBoot_slice fs.room]
    cases found : fs.boot[(bootHandle h).toNat]? with
    | none =>
      have out := List.getElem?_eq_none_iff.mp found
      rw [if_neg (Nat.not_lt.mpr out)]
      simp only [FileSystem.readAt, Option.map_none, Option.getD_none, slice_nil]
      rfl
    | some f =>
      have inside := (List.getElem?_eq_some_iff.mp found).1
      rw [if_pos inside]
      simp only [FileSystem.readAt, Option.map_some, Option.getD_some, FileSystem.content, found]

end

/-! ## What callers know of the files -/

/-- The file that `NtCreateFile` opens: a boot file of the name, else a writable node,
which it may create. -/
def FileSystem.fileNamed (fs : FileSystem) (name : List u8) : Option Target :=
  match openBoot fs.boot name with
  | some i => some (.boot i)
  | none => (findName fs.nodes name <|> findFree fs.nodes).map .node

def Event.path (e : Event) (va len : u64) : List u8 := userString e.mem (some e.cr3) va len 127

/-- The files, with the file that each number was last returned for, and the numbers
that were returned for pipes. -/
structure HandleState where
  files : FileSystem
  opened : u64 → Option Target
  piped : List u64

/-- Deleting a file leaves its handles without one. -/
def forget (opened : u64 → Option Target) (i : Fin WNODE_MAX) (h : u64) : Option Target :=
  if opened h = some (.node i) then some .gone else opened h

def HandleState.record (s : HandleState) (e : Event) (r : Reply) : HandleState :=
  match e.call with
  | .ntCreateFile va len =>
    if r.ret = 0 then ⟨r.files, s.opened, s.piped⟩
    else ⟨r.files, Function.update s.opened r.ret (s.files.fileNamed (e.path va len)), s.piped⟩
  | .ntCreateNamedPipe _ _ =>
    if r.ret = 0 then ⟨r.files, s.opened, s.piped⟩ else ⟨r.files, s.opened, r.ret :: s.piped⟩
  | .rm name =>
    match findName s.files.nodes name with
    | some i => ⟨r.files, forget s.opened i, s.piped⟩
    | none => ⟨r.files, s.opened, s.piped⟩
  | _ => ⟨r.files, s.opened, s.piped⟩

def stepFiles (s : HandleState) (e : Event) : Option HandleState :=
  some (s.record e (e.perform s.files))

/-- A read gives the bytes of the file that was last opened under the number, none if it
was deleted or there is none, and changes no file. A write changes no other file, and
under a number of a file it neither prints nor changes a pipe. -/
def HandlesRight (s : HandleState) (e : Event) : Prop :=
  let r := e.perform s.files
  match e.call with
  | .ntReadFile h va offset len =>
    r.files.nodes = s.files.nodes ∧
      (h ∉ s.piped →
        r.ret = BitVec.ofNat 64 (s.files.readAt (s.opened h) offset len).length ∧
          r.mem = (storeBytes e.cr3 va (s.files.readAt (s.opened h) offset len) e.mem).1 ∧
          r.files = s.files)
  | .ntWriteFile h _ _ =>
    (∀ j, s.opened h ≠ some (.node j) → r.files.nodes j = s.files.nodes j) ∧
      (s.opened h ≠ none → r.files.pipes = s.files.pipes ∧ r.console = []) ∧
      (s.opened h = some .gone → r.ret = 0)
  | _ => True

/-- The number leads to the file that was last opened under it, or the call moves no
byte: there is none to be read, no room to write, or nothing to print. -/
def LeadsToOpened (s : HandleState) (e : Event) : Prop :=
  match e.call with
  | .ntReadFile h _ offset len =>
    s.opened h = s.files.target h ∨ len = 0 ∨
      (((s.files.target h).map s.files.content).getD []).length ≤ offset.toNat
  | .ntWriteFile h va len =>
    match s.files.target h with
    | some (.node i) =>
      s.opened h = some (.node i) ∨ len = 0 ∨ (s.files.nodes i).size.toNat = VFS.WNODE_DATA_MAX
    | some (.boot _) => s.opened h = none ∨ len = 0 ∨ VMM.translateInPml4 e.mem e.cr3 va = 0
    | _ => True
  | _ => True

/-! ## The numbers of files -/

theorem NodeHandle.toNat {h : u64} : NodeHandle h ↔ 0x40 ≤ h.toNat ∧ h.toNat < 0x50 := by
  rw [NodeHandle, BitVec.le_def, BitVec.lt_def]
  rfl

theorem nodeHandle_toNat (i : Fin WNODE_MAX) : (nodeHandle i).toNat = 0x40 + i.val := by
  have hi : i.val < 16 := i.isLt
  rw [nodeHandle, BitVec.toNat_add, BitVec.toNat_ofNat]
  simp only [BitVec.toNat_ofNat]
  omega

theorem nodeHandle_node (i : Fin WNODE_MAX) : NodeHandle (nodeHandle i) := by
  have hi : i.val < 16 := i.isLt
  rw [NodeHandle.toNat, nodeHandle_toNat]
  omega

theorem NodeHandle.no_pipe {h : u64} (node : NodeHandle h) : pipeAt h = none := by
  rw [NodeHandle.toNat] at node
  refine dif_neg fun at_ => ?_
  simp only [BitVec.toNat_ofNat] at at_
  omega

theorem nodeHandle_index (i : Fin WNODE_MAX) :
    ((nodeHandle i - WFILE_HANDLE_BASE).setWidth 32 : u32).toNat = i.val := by
  have hi : i.val < 16 := i.isLt
  rw [nodeHandle, BitVec.add_comm, BitVec.add_sub_cancel, BitVec.toNat_setWidth, BitVec.toNat_ofNat]
  omega

theorem bootHandle_toNat {i : Nat} (small : i < BOOT_FILES_MAX) :
    (bootHandle (BitVec.ofNat 64 (i + 1))).toNat = i := by
  rw [bootHandle, BitVec.ofNat_add, BitVec.add_sub_cancel, BitVec.toNat_setWidth,
    BitVec.toNat_ofNat]
  simp only [BOOT_FILES_MAX] at small
  omega

theorem bootNumber_toNat {i : Nat} (small : i < BOOT_FILES_MAX) :
    (BitVec.ofNat 64 (i + 1)).toNat = i + 1 := by
  rw [BitVec.toNat_ofNat]
  simp only [BOOT_FILES_MAX] at small
  omega

theorem nodeAt_nodeHandle {nodes : Nodes} {i : Fin WNODE_MAX} (used : (nodes i).used = true) :
    nodeAt nodes ((nodeHandle i - WFILE_HANDLE_BASE).setWidth 32) = some i := by
  have index := nodeHandle_index i
  have inside : ((nodeHandle i - WFILE_HANDLE_BASE).setWidth 32 : u32).toNat < WNODE_MAX :=
    index ▸ i.isLt
  have same : (⟨_, inside⟩ : Fin WNODE_MAX) = i := Fin.ext index
  rw [nodeAt, dif_pos inside, same, if_pos used]

section

variable {fs : FileSystem}

theorem target_node {i : Fin WNODE_MAX} (used : (fs.nodes i).used = true) :
    fs.target (nodeHandle i) = some (.node i) := by
  rw [FileSystem.target, (nodeHandle_node i).no_pipe, if_neg (by simp), if_pos (nodeHandle_node i),
    nodeAt_nodeHandle used]
  rfl

theorem target_boot {i : Nat} (inside : i < fs.boot.length) :
    fs.target (BitVec.ofNat 64 (i + 1)) = some (.boot i) := by
  have small := inside.trans_le fs.room
  have number := bootNumber_toNat small
  simp only [BOOT_FILES_MAX] at small
  have pipe : pipeAt (BitVec.ofNat 64 (i + 1)) = none := by
    refine dif_neg fun at_ => ?_
    rw [number] at at_
    simp only [BitVec.toNat_ofNat] at at_
    omega
  have node : ¬ NodeHandle (BitVec.ofNat 64 (i + 1)) := by
    rw [NodeHandle.toNat, number]
    omega
  rw [FileSystem.target, pipe, if_neg (by simp), if_neg node,
    bootHandle_toNat (inside.trans_le fs.room), if_pos inside]

end

/-! ## The invariant -/

/-- A number that was returned for a file is the number of its slot, and the pipes in use
have numbers that were returned for pipes. -/
structure HandleInv (s : HandleState) : Prop where
  boot : ∀ h i, s.opened h = some (.boot i) → i < s.files.boot.length ∧ h = BitVec.ofNat 64 (i + 1)
  node : ∀ h i, s.opened h = some (.node i) → h = nodeHandle i ∧ (s.files.nodes i).used = true
  gone : ∀ h, s.opened h = some .gone → NodeHandle h
  piped : ∀ i, (s.files.pipes i).used = true → pipeHandle i ∈ s.piped
  numbers : ∀ h ∈ s.piped, ∃ i, h = pipeHandle i

theorem HandleInv.start (fs : FileSystem) : HandleInv ⟨fs.start, fun _ => none, []⟩ where
  boot _ _ no := by cases no
  node _ _ no := by cases no
  gone _ no := by cases no
  piped _ used := Bool.noConfusion used
  numbers _ no := absurd no List.not_mem_nil

section

variable {s : HandleState} (inv : HandleInv s) {e : Event} {h va len : u64}
include inv

/-- The number of a file that is still there leads to it. -/
theorem HandleInv.leads {t : Target} (opened : s.opened h = some t) (there : t ≠ .gone) :
    s.files.target h = some t := by
  cases t with
  | boot i =>
    obtain ⟨inside, rfl⟩ := inv.boot h i opened
    exact target_boot inside
  | node i =>
    obtain ⟨rfl, used⟩ := inv.node h i opened
    exact target_node used
  | gone => exact absurd rfl there

/-- A number leads to another file than the one opened only if that is gone. -/
theorem HandleInv.readAt_opened {offset : u64} (other : s.opened h ≠ s.files.target h) :
    s.files.readAt (s.opened h) offset len = [] := by
  cases opened : s.opened h with
  | none => exact slice_nil offset len
  | some t =>
    by_cases there : t = .gone
    · rw [there]
      exact slice_nil offset len
    · rw [opened, inv.leads opened there] at other
      exact absurd rfl other

theorem HandleInv.opened_number (opened : s.opened h ≠ none) : pipeAt h = none := by
  obtain ⟨t, ht⟩ := Option.ne_none_iff_exists'.mp opened
  cases t with
  | boot i =>
    have leads := inv.leads ht fun no => by cases no
    rw [FileSystem.target] at leads
    by_contra pipe
    rw [if_pos (Option.isSome_iff_ne_none.mpr pipe)] at leads
    cases leads
  | node i =>
    obtain ⟨rfl, -⟩ := inv.node h i ht
    exact (nodeHandle_node i).no_pipe
  | gone => exact (inv.gone h ht).no_pipe

theorem HandleInv.pipe_number {i : Fin 4} : s.opened (pipeHandle i) = none := by
  by_contra opened
  have no := inv.opened_number opened
  rw [pipeAt_pipeHandle] at no
  cases no

/-- **A read is right** exactly if the number leads to the file opened, or nothing is read. -/
theorem HandleInv.read_right {offset : u64} (call : e.call = .ntReadFile h va offset len) :
    HandlesRight s e ↔ LeadsToOpened s e := by
  simp only [HandlesRight, LeadsToOpened, call]
  rw [Event.perform, call, Call.perform]
  cases at_ : pipeAt h with
  | some i =>
    obtain rfl := pipeAt_some.mp at_
    have nowhere : s.files.target (pipeHandle i) = none := by
      rw [FileSystem.target, at_]
      rfl
    refine iff_of_true ?_ (.inl (inv.pipe_number.trans nowhere.symm))
    rw [ntReadFile_pipe _ _ _ _ at_]
    cases used : (s.files.pipes i).used with
    | false =>
      rw [writePipe_unused _ _ _ _ used, inv.pipe_number]
      simp only [FileSystem.readAt, Option.map_none, Option.getD_none, slice_nil]
      exact ⟨rfl, fun _ => ⟨rfl, rfl, rfl⟩⟩
    | true =>
      refine ⟨?_, fun unpiped => absurd (inv.piped i used) unpiped⟩
      rw [(writePipe_used _ _ _ _ used).2.2]
      rfl
  | none =>
    have unpiped : h ∉ s.piped := by
      intro piped
      obtain ⟨i, rfl⟩ := inv.numbers h piped
      rw [pipeAt_pipeHandle] at at_
      cases at_
    rw [ntReadFile_eq at_]
    by_cases same : s.opened h = s.files.target h
    · rw [same]
      exact iff_of_true ⟨rfl, fun _ => ⟨rfl, rfl, rfl⟩⟩ (.inl rfl)
    · have empty := slice_eq_nil (((s.files.target h).map s.files.content).getD []) offset len
      rw [inv.readAt_opened same, or_iff_right same, ← empty]
      constructor
      · intro right
        have count := congrArg BitVec.toNat (right.2 unpiped).1
        have small := slice_small (((s.files.target h).map s.files.content).getD []) offset len
        rw [BitVec.toNat_ofNat, FileSystem.readAt, Nat.mod_eq_of_lt (by omega)] at count
        exact List.length_eq_zero_iff.mp count
      · intro nothing
        rw [FileSystem.readAt, nothing]
        exact ⟨rfl, fun _ => ⟨rfl, rfl, rfl⟩⟩

end

/-! ## Writes -/

theorem readUserBytes_eq_nil (m : Mem) (pml4 va : u64) (n : Nat) :
    (readUserBytes m pml4 va n).1 = [] ↔ n = 0 ∨ VMM.translateInPml4 m pml4 va = 0 := by
  rw [readUserBytes]
  cases n with
  | zero => exact iff_of_true rfl (.inl rfl)
  | succ n =>
    have first : va + BitVec.ofNat 64 0 = va := BitVec.add_zero va
    rw [Kernel.readChunks, if_neg (Nat.not_succ_le_zero n)]
    simp only [first]
    split
    case isTrue unmapped => exact iff_of_true rfl (.inr unmapped)
    case isFalse mapped =>
      refine iff_of_false (fun none => ?_) (not_or.mpr ⟨Nat.succ_ne_zero n, mapped⟩)
      have offset := Kernel.chunk_offset va 0
      rw [first] at offset
      have none := congrArg List.length none
      rw [List.length_append, List.length_map, List.length_range, offset, List.length_nil] at none
      have below : (va.toNat + 0) % PAGE_SIZE < PAGE_SIZE := Nat.mod_lt _ (by decide)
      omega

/-- A node that accepts nothing is not changed by a write. -/
theorem append_nothing {n : WNode} {src : Nat → u8} {len : u32}
    (none : (VFS.accepted n len).toNat = 0) : VFS.append n src len = n := by
  have zero : VFS.accepted n len = 0#32 := BitVec.eq_of_toNat_eq none
  obtain ⟨name, used, isDir, size, data, bound⟩ := n
  simp only [VFS.append, zero, BitVec.add_zero]
  rfl

theorem accepted_zero (n : WNode) (len : u64) :
    (VFS.accepted n (BitVec.ofNat 32 (min len.toNat 2048))).toNat = 0 ↔
      len = 0 ∨ n.size.toNat = VFS.WNODE_DATA_MAX := by
  have zero : len = 0 ↔ len.toNat = 0 := by
    rw [← BitVec.toNat_inj]
    rfl
  have bound := n.bound
  rw [VFS.accepted_toNat, BitVec.toNat_ofNat, zero]
  simp only [VFS.WNODE_DATA_MAX] at *
  omega

theorem append_same_size {n : WNode} {src : Nat → u8} {len : u32}
    (same : (VFS.append n src len).size = n.size) : (VFS.accepted n len).toNat = 0 := by
  have same : n.size + VFS.accepted n len = n.size := same
  have count := congrArg BitVec.toNat same
  have bound := n.bound
  have room := VFS.accepted_toNat n len
  rw [BitVec.toNat_add] at count
  simp only [VFS.WNODE_DATA_MAX] at *
  omega

section

variable {fs : FileSystem} (m : Mem) (pml4 va len : u64) {h : u64} {i : Fin WNODE_MAX}

theorem ntWriteFile_unused (node : NodeHandle h)
    (unused : nodeAt fs.nodes ((h - WFILE_HANDLE_BASE).setWidth 32) = none) :
    ∃ acc, ntWriteFile fs m (some pml4) h va len = ⟨0, fs, m, acc, []⟩ := by
  simp only [ntWriteFile, node.no_pipe, if_pos node, VFS.wWrite, unused]
  exact ⟨_, rfl⟩

theorem ntWriteFile_node (node : NodeHandle h)
    (slot : nodeAt fs.nodes ((h - WFILE_HANDLE_BASE).setWidth 32) = some i) :
    ∃ src acc, ntWriteFile fs m (some pml4) h va len =
      ⟨(VFS.accepted (fs.nodes i) (BitVec.ofNat 32 (min len.toNat 2048))).setWidth 64,
        { fs with
          nodes := Function.update fs.nodes i
            (VFS.append (fs.nodes i) src (BitVec.ofNat 32 (min len.toNat 2048))) }, m, acc, []⟩ := by
  simp only [ntWriteFile, node.no_pipe, if_pos node, VFS.wWrite, slot]
  exact ⟨_, _, rfl⟩

theorem ntWriteFile_console (other : pipeAt h = none) (node : ¬ NodeHandle h) :
    ntWriteFile fs m (some pml4) h va len =
      ⟨0, fs, m, (readUserBytes m pml4 va (min len.toNat 512)).2,
        (readUserBytes m pml4 va (min len.toNat 512)).1⟩ := by
  simp only [ntWriteFile, other, if_neg node]

theorem target_of_node (node : NodeHandle h) :
    fs.target h = (nodeAt fs.nodes ((h - WFILE_HANDLE_BASE).setWidth 32)).map .node := by
  rw [FileSystem.target, node.no_pipe, if_neg (by simp), if_pos node]

theorem target_of_other (other : pipeAt h = none) (node : ¬ NodeHandle h) :
    fs.target h =
      if (bootHandle h).toNat < fs.boot.length then some (.boot (bootHandle h).toNat) else none := by
  rw [FileSystem.target, other, if_neg (by simp), if_neg node]

end

section

variable {s : HandleState} {e : Event} {h va len : u64}

theorem write_node_right (call : e.call = .ntWriteFile h va len) (node : NodeHandle h) :
    HandlesRight s e ↔ LeadsToOpened s e := by
  simp only [HandlesRight, LeadsToOpened, call]
  rw [Event.perform, call, Call.perform, target_of_node node]
  cases slot : nodeAt s.files.nodes ((h - WFILE_HANDLE_BASE).setWidth 32) with
  | none =>
    obtain ⟨acc, eq⟩ := ntWriteFile_unused e.mem e.cr3 va len node slot
    rw [eq]
    exact iff_of_true ⟨fun _ _ => rfl, fun _ => ⟨rfl, rfl⟩, fun _ => rfl⟩ trivial
  | some i =>
    obtain ⟨src, acc, eq⟩ :=
      ntWriteFile_node e.mem e.cr3 va len node slot
    have nothing := accepted_zero (s.files.nodes i) len
    rw [eq]
    constructor
    · intro right
      by_cases opened : s.opened h = some (.node i)
      · exact .inl opened
      · have same := congrArg WNode.size (right.1 i opened)
        simp only [Function.update_self] at same
        exact .inr (nothing.mp (append_same_size same))
    · rintro (opened | none)
      · refine ⟨fun j other => ?_, fun _ => ⟨rfl, rfl⟩, fun gone => ?_⟩
        · refine Function.update_of_ne (fun same => other ?_) _ _
          rw [same]
          exact opened
        · rw [opened] at gone
          cases gone
      · have none := nothing.mpr none
        rw [append_nothing none, Function.update_eq_self]
        refine ⟨fun _ _ => rfl, fun _ => ⟨rfl, rfl⟩, fun _ => ?_⟩
        rw [show VFS.accepted (s.files.nodes i) (BitVec.ofNat 32 (min len.toNat 2048)) = 0#32 from
          BitVec.eq_of_toNat_eq none]
        rfl

variable (inv : HandleInv s)
include inv

theorem HandleInv.write_other_right (call : e.call = .ntWriteFile h va len) (other : pipeAt h = none)
    (node : ¬ NodeHandle h) : HandlesRight s e ↔ LeadsToOpened s e := by
  simp only [HandlesRight, LeadsToOpened, call]
  rw [Event.perform, call, Call.perform, ntWriteFile_console _ _ _ _ other node, target_of_other other node]
  have print := readUserBytes_eq_nil e.mem e.cr3 va (min len.toNat 512)
  have zero : len = 0 ↔ min len.toNat 512 = 0 := by
    rw [← BitVec.toNat_inj]
    show len.toNat = 0 ↔ _
    omega
  rw [← zero] at print
  by_cases boot : (bootHandle h).toNat < s.files.boot.length
  case pos =>
    rw [if_pos boot]
    constructor
    · intro right
      by_cases opened : s.opened h = none
      · exact .inl opened
      · exact .inr (print.mp (right.2.1 opened).2)
    · rintro (opened | nothing)
      · exact ⟨fun _ _ => rfl, fun no => absurd opened no, fun _ => rfl⟩
      · exact ⟨fun _ _ => rfl, fun _ => ⟨rfl, print.mpr nothing⟩, fun _ => rfl⟩
  case neg =>
    rw [if_neg boot]
    refine iff_of_true ⟨fun _ _ => rfl, fun opened => ?_, fun _ => rfl⟩ trivial
    obtain ⟨t, ht⟩ := Option.ne_none_iff_exists'.mp opened
    by_cases there : t = .gone
    · exact absurd (inv.gone h (there ▸ ht)) node
    · have leads := inv.leads ht there
      rw [target_of_other other node, if_neg boot] at leads
      cases leads

/-- **A write is right** exactly if the number leads to the file opened, or it moves nothing. -/
theorem HandleInv.write_right (call : e.call = .ntWriteFile h va len) :
    HandlesRight s e ↔ LeadsToOpened s e := by
  cases at_ : pipeAt h with
  | none =>
    by_cases node : NodeHandle h
    · exact write_node_right call node
    · exact inv.write_other_right call at_ node
  | some i =>
    simp only [HandlesRight, LeadsToOpened, call]
    rw [Event.perform, call, Call.perform, ntWriteFile_pipe _ _ _ _ at_]
    obtain rfl := pipeAt_some.mp at_
    have nowhere : s.files.target (pipeHandle i) = none := by
      rw [FileSystem.target, at_]
      rfl
    rw [nowhere, inv.pipe_number]
    refine iff_of_true ⟨fun j _ => ?_, fun no => absurd rfl no, fun no => by cases no⟩ trivial
    cases used : (s.files.pipes i).used with
    | false => rw [writePipe_unused _ _ _ _ used]; rfl
    | true => rw [(writePipe_used _ _ _ _ used).2.2]; rfl

theorem HandleInv.right_iff : HandlesRight s e ↔ LeadsToOpened s e := by
  cases call : e.call with
  | ntReadFile h va offset len => exact inv.read_right call
  | ntWriteFile h va len => exact inv.write_right call
  | _ => simp only [HandlesRight, LeadsToOpened, call]

end

/-! ## Every event keeps the invariant -/

/-- Nodes in use stay in use. -/
def Keeps (nodes nodes' : Nodes) : Prop := ∀ i, (nodes i).used = true → (nodes' i).used = true

theorem Keeps.update {nodes : Nodes} {i : Fin WNODE_MAX} {n : WNode} (used : n.used = true) :
    Keeps nodes (Function.update nodes i n) := by
  intro j hj
  rw [Function.update_apply]
  split
  case isTrue => exact used
  case isFalse => exact hj

theorem wFindOrCreate_keeps (nodes : Nodes) (name : List u8) (isDir : Bool) :
    Keeps nodes (VFS.wFindOrCreate nodes name isDir).1 := by
  unfold VFS.wFindOrCreate
  split
  case h_1 => exact fun _ => id
  case h_2 =>
    split
    case h_1 => exact Keeps.update rfl
    case h_2 => exact fun _ => id

theorem mkDir_keeps (nodes : Nodes) (name : List u8) : Keeps nodes (VFS.mkDir nodes name).1 := by
  unfold VFS.mkDir
  split
  case isTrue => exact fun _ => id
  case isFalse =>
    split
    case isTrue => exact fun _ => id
    case isFalse => exact wFindOrCreate_keeps nodes name true

theorem wWrite_keeps (nodes : Nodes) (idx : u32) (src : Nat → u8) (len : u32) :
    Keeps nodes (VFS.wWrite nodes idx src len).1 := by
  unfold VFS.wWrite
  split
  case h_1 => exact fun _ => id
  case h_2 i slot =>
    refine Keeps.update ?_
    unfold nodeAt at slot
    split at slot
    case isFalse => cases slot
    case isTrue =>
      split at slot
      case isFalse => cases slot
      case isTrue used =>
        obtain rfl := Option.some.inj slot
        exact used

/-- The file is there under this number. -/
def Lives (fs : FileSystem) (h : u64) : Target → Prop
  | .boot i => i < fs.boot.length ∧ h = BitVec.ofNat 64 (i + 1)
  | .node i => h = nodeHandle i ∧ (fs.nodes i).used = true
  | .gone => False

section

variable {s : HandleState} (inv : HandleInv s)
include inv

/-- Where no file goes and nothing is opened, the invariant stays. -/
theorem HandleInv.same {t : HandleState} (boot : t.files.boot = s.files.boot)
    (nodes : Keeps s.files.nodes t.files.nodes)
    (pipes : ∀ i, (t.files.pipes i).used = true → (s.files.pipes i).used = true)
    (opened : t.opened = s.opened) (piped : t.piped = s.piped) : HandleInv t where
  boot h i := by
    rw [opened, boot]
    exact inv.boot h i
  node h i ht := by
    rw [opened] at ht
    exact ⟨(inv.node h i ht).1, nodes i (inv.node h i ht).2⟩
  gone h := by
    rw [opened]
    exact inv.gone h
  piped i used := by
    rw [piped]
    exact inv.piped i (pipes i used)
  numbers h := by
    rw [piped]
    exact inv.numbers h

/-- Opening a file under its number. -/
theorem HandleInv.opens {fs : FileSystem} {t : Target} {h : u64} (boot : fs.boot = s.files.boot)
    (nodes : Keeps s.files.nodes fs.nodes) (pipes : fs.pipes = s.files.pipes) (lives : Lives fs h t) :
    HandleInv ⟨fs, Function.update s.opened h (some t), s.piped⟩ where
  boot k i := by
    simp only [Function.update_apply]
    split
    case isTrue self =>
      intro same
      obtain rfl := Option.some.inj same
      exact self ▸ lives
    case isFalse =>
      rw [boot]
      exact inv.boot k i
  node k i := by
    simp only [Function.update_apply]
    split
    case isTrue self =>
      intro same
      obtain rfl := Option.some.inj same
      exact self ▸ lives
    case isFalse =>
      intro opened
      exact ⟨(inv.node k i opened).1, nodes i (inv.node k i opened).2⟩
  gone k := by
    simp only [Function.update_apply]
    split
    case isTrue self =>
      intro same
      obtain rfl := Option.some.inj same
      exact absurd lives id
    case isFalse => exact inv.gone k
  piped i used := inv.piped i (pipes ▸ used)
  numbers := inv.numbers

/-- Deleting a node. -/
theorem HandleInv.forget {i : Fin WNODE_MAX} :
    HandleInv ⟨{ s.files with nodes := Function.update s.files.nodes i WNode.zero },
      FileIo.forget s.opened i, s.piped⟩ where
  boot h j := by
    simp only [FileIo.forget]
    split
    case isTrue => exact fun no => by cases no
    case isFalse => exact inv.boot h j
  node h j := by
    simp only [FileIo.forget]
    split
    case isTrue => exact fun no => by cases no
    case isFalse other =>
      intro opened
      have there : j ≠ i := by
        rintro rfl
        exact other opened
      simp only [Function.update_of_ne there]
      exact inv.node h j opened
  gone h := by
    simp only [FileIo.forget]
    split
    case isTrue opened =>
      intro _
      rw [(inv.node h i opened).1]
      exact nodeHandle_node i
    case isFalse => exact inv.gone h
  piped := inv.piped
  numbers := inv.numbers

end

/-- The number that `NtCreateFile` makes of the index of a node. -/
theorem index_number (i : Fin WNODE_MAX) :
    (VFS.index (some i)).toNat < WNODE_MAX ∧
      ((VFS.index (some i)).setWidth 64 : u64).toNat < WNODE_MAX ∧
      WFILE_HANDLE_BASE + (VFS.index (some i)).setWidth 64 = nodeHandle i := by
  have hi : i.val < 16 := i.isLt
  have index : (VFS.index (some i)).toNat = i.val := by
    show (BitVec.ofNat 32 i.val).toNat = i.val
    rw [BitVec.toNat_ofNat, Nat.mod_eq_of_lt (by omega)]
  have wide : ((VFS.index (some i)).setWidth 64 : u64) = BitVec.ofNat 64 i.val := by
    refine BitVec.eq_of_toNat_eq ?_
    rw [BitVec.toNat_setWidth, index, BitVec.toNat_ofNat]
  refine ⟨index ▸ hi, ?_, by rw [wide, nodeHandle]⟩
  rw [wide, BitVec.toNat_ofNat, Nat.mod_eq_of_lt (by omega)]
  exact hi

/-- **`NtCreateFile`**: the file of the name is there under the number it returns, or
there was no room. -/
theorem ntCreateFile_opens (fs : FileSystem) (e : Event) (va len : u64) :
    let r := ntCreateFile fs e.mem (some e.cr3) va len
    r.files.boot = fs.boot ∧ Keeps fs.nodes r.files.nodes ∧ r.files.pipes = fs.pipes ∧
      (r.ret = 0 ∨ ∃ t, fs.fileNamed (e.path va len) = some t ∧ Lives r.files r.ret t) := by
  have path : userString e.mem (some e.cr3) va len 127 = e.path va len := rfl
  simp only [ntCreateFile, FileSystem.fileNamed, path]
  cases boot : openBoot fs.boot (e.path va len) with
  | some i =>
    have inside := (List.findIdx?_eq_some_iff_findIdx_eq.mp boot).1
    exact ⟨rfl, fun _ => id, rfl, .inr ⟨_, rfl, inside, rfl⟩⟩
  | none =>
    have keeps := wFindOrCreate_keeps fs.nodes (e.path va len) false
    refine ⟨rfl, keeps, rfl, ?_⟩
    unfold VFS.wFindOrCreate
    cases found : findName fs.nodes (e.path va len) with
    | some i =>
      obtain ⟨small, wide, number⟩ := index_number i
      have used := List.find?_some found
      rw [Bool.and_eq_true] at used
      simp only [if_pos small, if_pos wide, number]
      exact .inr ⟨.node i, rfl, rfl, used.1⟩
    | none =>
      cases free : findFree fs.nodes with
      | some i =>
        obtain ⟨small, wide, number⟩ := index_number i
        simp only [if_pos small, if_pos wide, number]
        refine .inr ⟨.node i, rfl, rfl, ?_⟩
        simp only [Function.update_self, VFS.newNode]
      | none => exact .inl rfl

theorem ntCreateNamedPipe_files (fs : FileSystem) (m : Mem) (proc : Option u64) (va len : u64) :
    let r := ntCreateNamedPipe fs m proc va len
    (r.files = fs ∧ (r.ret = 0 ∨ ∃ i, (fs.pipes i).used = true ∧ r.ret = pipeHandle i)) ∨
      ∃ i kp, r.files = fs.setPipe i kp ∧ r.ret = pipeHandle i := by
  simp only [ntCreateNamedPipe]
  split
  case h_1 i found =>
    have used := List.find?_some found
    rw [Bool.and_eq_true] at used
    exact .inl ⟨rfl, .inr ⟨i, used.1, rfl⟩⟩
  case h_2 =>
    split
    case h_1 i free => exact .inr ⟨i, _, rfl, rfl⟩
    case h_2 => exact .inl ⟨rfl, .inl rfl⟩

theorem writePipe_files (fs : FileSystem) (m : Mem) (pml4 va len : u64) (i : Fin 4) :
    let r := writePipe fs m (some pml4) i va len
    r.files.boot = fs.boot ∧ r.files.nodes = fs.nodes ∧
      ∀ j, (r.files.pipes j).used = (fs.pipes j).used := by
  cases used : (fs.pipes i).used with
  | false =>
    rw [writePipe_unused _ _ _ _ used]
    exact ⟨rfl, rfl, fun _ => rfl⟩
  | true =>
    simp only [(writePipe_used _ _ _ _ used).2.2]
    refine ⟨rfl, rfl, fun j => ?_⟩
    rw [setPipe_pipes]
    split
    case isTrue self => rw [self, KPipe.add]
    case isFalse => rfl

section

variable {s : HandleState} (inv : HandleInv s) {e : Event}
include inv

theorem HandleInv.create {va len : u64} (call : e.call = .ntCreateFile va len) :
    HandleInv (s.record e (e.perform s.files)) := by
  obtain ⟨boot, nodes, pipes, number⟩ := ntCreateFile_opens s.files e va len
  simp only [HandleState.record, call]
  rw [Event.perform, call, Call.perform]
  rcases number with zero | ⟨t, named, lives⟩
  · rw [if_pos zero]
    exact inv.same boot nodes (fun i => pipes ▸ id) rfl rfl
  · by_cases zero : (ntCreateFile s.files e.mem (some e.cr3) va len).ret = 0
    · rw [if_pos zero]
      exact inv.same boot nodes (fun i => pipes ▸ id) rfl rfl
    · rw [if_neg zero, named]
      exact inv.opens boot nodes pipes lives

theorem HandleInv.createPipe {va len : u64} (call : e.call = .ntCreateNamedPipe va len) :
    HandleInv (s.record e (e.perform s.files)) := by
  have files := ntCreateNamedPipe_files s.files e.mem (some e.cr3) va len
  simp only [HandleState.record, call]
  rw [Event.perform, call, Call.perform]
  rcases files with ⟨files, zero | ⟨i, used, ret⟩⟩ | ⟨i, kp, files, ret⟩
  · rw [if_pos zero, files]
    exact inv
  · rw [if_neg (ret ▸ pipeHandle_ne_zero i), files, ret]
    exact ⟨inv.boot, inv.node, inv.gone, fun j on => List.mem_cons_of_mem _ (inv.piped j on),
      fun h piped => (List.mem_cons.mp piped).elim (fun eq => ⟨i, eq⟩) (inv.numbers h)⟩
  · rw [if_neg (ret ▸ pipeHandle_ne_zero i), files, ret]
    refine ⟨inv.boot, inv.node, inv.gone, fun j on => ?_,
      fun h piped => (List.mem_cons.mp piped).elim (fun eq => ⟨i, eq⟩) (inv.numbers h)⟩
    rw [setPipe_pipes] at on
    split at on
    case isTrue self => exact self ▸ List.mem_cons_self
    case isFalse => exact List.mem_cons_of_mem _ (inv.piped j on)

theorem HandleInv.write {h va len : u64} (call : e.call = .ntWriteFile h va len) :
    HandleInv (s.record e (e.perform s.files)) := by
  simp only [HandleState.record, call]
  rw [Event.perform, call, Call.perform]
  cases at_ : pipeAt h with
  | some i =>
    rw [ntWriteFile_pipe _ _ _ _ at_]
    obtain ⟨boot, nodes, used⟩ := writePipe_files s.files e.mem e.cr3 va len i
    exact inv.same boot (fun j => nodes ▸ id) (fun j => used j ▸ id) rfl rfl
  | none =>
    by_cases node : NodeHandle h
    · simp only [ntWriteFile, at_, if_pos node]
      exact inv.same rfl (wWrite_keeps _ _ _ _) (fun _ => id) rfl rfl
    · rw [ntWriteFile_console _ _ _ _ at_ node]
      exact inv

theorem HandleInv.read {h va offset len : u64} (call : e.call = .ntReadFile h va offset len) :
    HandleInv (s.record e (e.perform s.files)) := by
  simp only [HandleState.record, call]
  rw [Event.perform, call, Call.perform]
  cases at_ : pipeAt h with
  | some i =>
    rw [ntReadFile_pipe _ _ _ _ at_]
    obtain ⟨boot, nodes, used⟩ := writePipe_files s.files e.mem e.cr3 va offset i
    exact inv.same boot (fun j => nodes ▸ id) (fun j => used j ▸ id) rfl rfl
  | none =>
    rw [ntReadFile_eq at_]
    exact inv

theorem HandleInv.rm {name : List u8} (call : e.call = .rm name) :
    HandleInv (s.record e (e.perform s.files)) := by
  simp only [HandleState.record, call]
  rw [Event.perform, call, Call.perform]
  simp only [VFS.delete]
  cases findName s.files.nodes name with
  | some i => exact inv.forget
  | none => exact inv

/-- **Every event** keeps the invariant. -/
theorem HandleInv.step {t : HandleState} (step : stepFiles s e = some t) : HandleInv t := by
  obtain rfl := Option.some.inj step
  cases call : e.call with
  | ntCreateFile va len => exact inv.create call
  | ntCreateNamedPipe va len => exact inv.createPipe call
  | ntWriteFile h va len => exact inv.write call
  | ntReadFile h va offset len => exact inv.read call
  | rm name => exact inv.rm call
  | ntClose h =>
    simp only [HandleState.record, call]
    rw [Event.perform, call]
    exact inv
  | mkdir name =>
    simp only [HandleState.record, call]
    rw [Event.perform, call]
    exact inv.same rfl (mkDir_keeps _ _) (fun _ => id) rfl rfl

end

/-! ## Runs -/

/-- **File handles are sound exactly in the runs that use no number for another file**:
every read and write goes to the file that was last opened under its number, or it moves
no byte. -/
theorem file_handles_iff (fs : FileSystem) (es : List Event) :
    Along stepFiles HandlesRight ⟨fs.start, fun _ => none, []⟩ es ↔
      Along stepFiles LeadsToOpened ⟨fs.start, fun _ => none, []⟩ es :=
  along_iff (I := HandleInv) (fun _ _ _ inv _ step => inv.step step) (fun _ _ inv => inv.right_iff)
    (HandleInv.start fs)

/-- One boot file, of one byte. -/
def oneFile : FileSystem :=
  ⟨[⟨[0x61#8], fun _ => 0x4D#8, 1⟩], by decide, fun _ => WNode.zero, fun _ => KPipe.zero⟩

/-- The number 1 was never returned, and reads the first boot file. -/
theorem unopened_handle_reads :
    ¬ Along stepFiles HandlesRight ⟨oneFile.start, fun _ => none, []⟩
      [⟨.ntReadFile 1 0 0 1, fun _ _ => 0, 0⟩] := by
  intro right
  rcases (HandleInv.start oneFile).right_iff.mp right.1 with opened | zero | past
  · exact absurd opened (by decide +kernel)
  · cases zero
  · exact absurd past (by decide +kernel)

end MicroNT.FileIo
