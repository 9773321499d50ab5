import MicroNT.UserAccess
import MicroNT.VfsMap

/-! # System calls on files and pipes (`syscall.cpp`, `vfs.cpp`)

A handle is a number. 1 to 8 stand for the files of the boot loader, 0x40 to 0x4F for
the writable nodes and 0x80 to 0x83 for the named pipes; every other number goes to
the boot files by its low 32 bits, or to the console. -/

namespace MicroNT.FileIo

open MicroNT.VMM (Mem)
open MicroNT.Kernel (Access readUserByte readUserBytes writeUserByte)
open MicroNT.VFS (WNode Nodes WNODE_MAX strIeq)

/-! ## The state -/

abbrev BOOT_FILES_MAX : Nat := 8
abbrev PIPE_SIZE : Nat := 512
abbrev WFILE_HANDLE_BASE : u64 := 0x40#64
abbrev WFILE_HANDLE_MAX : u64 := 0x50#64
abbrev PIPE_HANDLE_BASE : u64 := 0x80#64

/-- A file that the boot loader has left in memory. -/
structure BootFile where
  name : List u8
  bytes : Nat → u8
  size : u64

/-- A pipe; the bytes of `data` are the first `size` ones. -/
structure KPipe where
  name : List u8
  data : List u8
  used : Bool

def KPipe.zero : KPipe := ⟨[], [], false⟩

structure FileSystem where
  boot : List BootFile
  room : boot.length ≤ BOOT_FILES_MAX
  nodes : Nodes
  pipes : Fin 4 → KPipe

def FileSystem.setPipe (fs : FileSystem) (i : Fin 4) (kp : KPipe) : FileSystem :=
  { fs with pipes := Function.update fs.pipes i kp }

/-- What a call leaves behind: its result, the files, the memory, the user memory it
has accessed and what it has printed on the console. -/
structure Reply where
  ret : u64
  files : FileSystem
  mem : Mem
  accesses : List Access
  console : List u8

/-- The reply of a call that returns at once. -/
def FileSystem.reply (fs : FileSystem) (m : Mem) (ret : u64) : Reply := ⟨ret, fs, m, [], []⟩

/-! ## User memory -/

/-- A loop of `WriteUserByte` over bytes that follow one another. -/
def storeBytes (pml4 : u64) : u64 → List u8 → Mem → Mem × List Access
  | _, [], m => (m, [])
  | va, b :: bs, m =>
    let r := writeUserByte m pml4 va b
    let q := storeBytes pml4 (va + 1#64) bs r.2.1
    (q.1, r.2.2 ++ q.2)

/-- A loop of `ReadUserByte`: an unmapped byte counts as 0. -/
def loadBytes (m : Mem) (pml4 va : u64) (n : Nat) : List u8 :=
  (List.range n).map fun i => (readUserByte m pml4 (va + BitVec.ofNat 64 i)).1

def loadAccesses (m : Mem) (pml4 va : u64) (n : Nat) : List Access :=
  (List.range n).flatMap fun i => (readUserByte m pml4 (va + BitVec.ofNat 64 i)).2

/-- The string in a zeroed buffer that takes at most `max` bytes of user memory. A
thread without a process reads none. -/
def userString (m : Mem) (proc : Option u64) (va len : u64) (max : Nat) : List u8 :=
  match proc with
  | none => []
  | some pml4 => (readUserBytes m pml4 va (min len.toNat max)).1.takeWhile (· != 0)

def stringAccesses (m : Mem) (proc : Option u64) (va len : u64) (max : Nat) : List Access :=
  match proc with
  | none => []
  | some pml4 => (readUserBytes m pml4 va (min len.toNat max)).2

theorem readChunks_length (m : Mem) (pml4 va : u64) (len fuel copied : Nat) :
    (Kernel.readChunks m pml4 va len fuel copied).1.length ≤ len - copied := by
  induction fuel generalizing copied with
  | zero => exact Nat.zero_le _
  | succ fuel ih =>
    rw [Kernel.readChunks]
    split
    case isTrue => exact Nat.zero_le _
    case isFalse more =>
      simp only
      split
      case isTrue => exact Nat.zero_le _
      case isFalse =>
        rw [List.length_append, List.length_map, List.length_range]
        have rest := ih (copied + min (len - copied)
          (PAGE_SIZE - ((va + BitVec.ofNat 64 copied) &&& 0xFFF#64).toNat))
        omega

theorem userString_length (m : Mem) (proc : Option u64) (va len : u64) (max : Nat) :
    (userString m proc va len max).length ≤ max := by
  cases proc with
  | none => exact Nat.zero_le _
  | some pml4 =>
    have all := readChunks_length m pml4 va (min len.toNat max) (min len.toNat max) 0
    have some := (List.takeWhile_sublist (· != 0) (l := (readUserBytes m pml4 va
      (min len.toNat max)).1)).length_le
    rw [userString]
    rw [readUserBytes] at some ⊢
    omega

theorem userString_nonzero (m : Mem) (proc : Option u64) (va len : u64) (max : Nat) :
    0 ∉ userString m proc va len max := by
  cases proc with
  | none => exact List.not_mem_nil
  | some pml4 =>
    intro h
    have nonzero := List.all_eq_true.mp List.all_takeWhile 0 h
    exact absurd nonzero (by decide)

/-! ## Boot files -/

/-- `VFS::Open`; `none` stands for -1. -/
def openBoot (boot : List BootFile) (name : List u8) : Option Nat :=
  boot.findIdx? fun f => strIeq f.name name

/-- `VFS::Read`: the bytes it copies, `none` for the result -1. -/
def readBoot (boot : List BootFile) (handle : u32) (offset len : u64) : Option (List u8) :=
  if handle.slt 0#32 then none
  else
    match boot[handle.toNat]? with
    | none => none
    | some f =>
      if offset ≥ f.size then some []
      else
        let avail := f.size - offset
        let len := if len > avail then avail else len
        some ((List.range len.toNat).map fun k => f.bytes (offset.toNat + k))

/-- The `i32` that a handle of a boot file is cut down to. -/
def bootHandle (h : u64) : u32 := (h - 1#64).setWidth 32

/-- The numbers of the writable nodes. -/
def NodeHandle (h : u64) : Prop := WFILE_HANDLE_BASE ≤ h ∧ h < WFILE_HANDLE_MAX

instance (h : u64) : Decidable (NodeHandle h) := inferInstanceAs (Decidable (_ ∧ _))

/-! ## Pipes -/

def pipeAt (h : u64) : Option (Fin 4) :=
  if at_ : PIPE_HANDLE_BASE.toNat ≤ h.toNat ∧ h.toNat < PIPE_HANDLE_BASE.toNat + 4 then
    some ⟨h.toNat - PIPE_HANDLE_BASE.toNat, by omega⟩
  else none

def pipeHandle (i : Fin 4) : u64 := PIPE_HANDLE_BASE + BitVec.ofNat 64 i.val

/-- The loop that compares at most `n` bytes of two names, from byte `j` on. -/
def sameName (a b : List u8) : Nat → Nat → Bool
  | 0, _ => true
  | n + 1, j =>
    if a.getD j 0 ≠ b.getD j 0 then false
    else if b.getD j 0 = 0 then true
    else sameName a b n (j + 1)

/-- The loop that adds the caller's bytes to a pipe, `n` more and from byte `written` on. -/
def fillPipe (m : Mem) (pml4 va : u64) : Nat → Nat → List u8 → List u8
  | 0, _, data => data
  | n + 1, written, data =>
    if data.length < PIPE_SIZE then
      fillPipe m pml4 va n (written + 1)
        (data ++ [(readUserByte m pml4 (va + BitVec.ofNat 64 written)).1])
    else data

/-- The handler of writes to a pipe. -/
def writePipe (fs : FileSystem) (m : Mem) (proc : Option u64) (i : Fin 4) (va len : u64) : Reply :=
  let kp := fs.pipes i
  if kp.used = false then fs.reply m 0
  else
    match proc with
    | none => fs.reply m 0
    | some pml4 =>
      let data := fillPipe m pml4 va (min len.toNat 512) 0 kp.data
      let written := data.length - kp.data.length
      ⟨BitVec.ofNat 64 written, fs.setPipe i { kp with data := data }, m,
        loadAccesses m pml4 va written, []⟩

/-- The handler of reads from a pipe. -/
def readPipe (fs : FileSystem) (m : Mem) (pml4 : u64) (i : Fin 4) (va offset : u64) (len : Nat) :
    Reply :=
  let kp := fs.pipes i
  if kp.used = false ∨ offset.toNat ≥ kp.data.length then fs.reply m 0
  else
    let out := (kp.data.drop offset.toNat).take len
    let r := storeBytes pml4 va out m
    ⟨BitVec.ofNat 64 out.length, fs, r.1, r.2, []⟩

/-! ## The calls -/

def ntCreateFile (fs : FileSystem) (m : Mem) (proc : Option u64) (va len : u64) : Reply :=
  let kpath := userString m proc va len 127
  let acc := stringAccesses m proc va len 127
  match openBoot fs.boot kpath with
  | some h => ⟨BitVec.ofNat 64 (h + 1), fs, m, acc, []⟩
  | none =>
    let w := VFS.wFindOrCreate fs.nodes kpath false
    let wi : u64 := if w.2.toNat < WNODE_MAX then w.2.setWidth 64 else 0xFF#64
    ⟨if wi.toNat < WNODE_MAX then WFILE_HANDLE_BASE + wi else 0, { fs with nodes := w.1 }, m, acc,
      []⟩

def ntCreateNamedPipe (fs : FileSystem) (m : Mem) (proc : Option u64) (va len : u64) : Reply :=
  let kname := userString m proc va len 31
  let acc := stringAccesses m proc va len 31
  match (List.finRange 4).find? fun i => (fs.pipes i).used && sameName (fs.pipes i).name kname 31 0
  with
  | some i => ⟨pipeHandle i, fs, m, acc, []⟩
  | none =>
    match (List.finRange 4).find? fun i => !(fs.pipes i).used with
    | some i => ⟨pipeHandle i, fs.setPipe i ⟨kname, [], true⟩, m, acc, []⟩
    | none => ⟨0, fs, m, acc, []⟩

def ntWriteFile (fs : FileSystem) (m : Mem) (proc : Option u64) (h va len : u64) : Reply :=
  match pipeAt h with
  | some i => writePipe fs m proc i va len
  | none =>
    if NodeHandle h then
      match proc with
      | none => fs.reply m 0
      | some pml4 =>
        let wlen := min len.toNat 2048
        let wbuf := loadBytes m pml4 va wlen
        let w := VFS.wWrite fs.nodes ((h - WFILE_HANDLE_BASE).setWidth 32) (fun i => wbuf.getD i 0)
          (BitVec.ofNat 32 wlen)
        ⟨w.2.setWidth 64, { fs with nodes := w.1 }, m, loadAccesses m pml4 va wlen, []⟩
    else
      match proc with
      | none => fs.reply m 0
      | some pml4 =>
        -- everything else is printed on the console, with the result STATUS_SUCCESS
        let r := readUserBytes m pml4 va (min len.toNat 512)
        ⟨0, fs, m, r.2, r.1⟩

def ntReadFile (fs : FileSystem) (m : Mem) (proc : Option u64) (h va offset len : u64) : Reply :=
  let len := min len.toNat 512
  match proc with
  | none => fs.reply m 0
  | some pml4 =>
    match pipeAt h with
    -- the handler of writes comes first here too, with the offset as its length
    | some i => writePipe fs m (some pml4) i va offset
    | none =>
      match pipeAt h with
      | some i => readPipe fs m pml4 i va offset len
      | none =>
        if NodeHandle h then
          let rbuf := VFS.wRead fs.nodes ((h - WFILE_HANDLE_BASE).setWidth 32) offset
            (BitVec.ofNat 32 len)
          let r := storeBytes pml4 va rbuf m
          ⟨BitVec.ofNat 64 rbuf.length, fs, r.1, r.2, []⟩
        else
          match readBoot fs.boot (bootHandle h) offset (BitVec.ofNat 64 len) with
          | none => fs.reply m 0
          | some kbuf =>
            let r := storeBytes pml4 va kbuf m
            ⟨BitVec.ofNat 64 kbuf.length, fs, r.1, r.2, []⟩

/-- `NtClose`: `VFS::Close` does nothing. -/
def ntClose (fs : FileSystem) (m : Mem) : Reply := fs.reply m 0

/-- A call of a process, or a command of the shell that the kernel carries out. -/
inductive Call
  | ntCreateFile (va len : u64)
  | ntCreateNamedPipe (va len : u64)
  | ntWriteFile (h va len : u64)
  | ntReadFile (h va offset len : u64)
  | ntClose (h : u64)
  | mkdir (name : List u8)
  | rm (name : List u8)

def Call.perform (fs : FileSystem) (m : Mem) (proc : Option u64) : Call → Reply
  | .ntCreateFile va len => FileIo.ntCreateFile fs m proc va len
  | .ntCreateNamedPipe va len => FileIo.ntCreateNamedPipe fs m proc va len
  | .ntWriteFile h va len => FileIo.ntWriteFile fs m proc h va len
  | .ntReadFile h va offset len => FileIo.ntReadFile fs m proc h va offset len
  | .ntClose _ => FileIo.ntClose fs m
  | .mkdir name => { fs with nodes := (VFS.mkDir fs.nodes name).1 }.reply m 0
  | .rm name => { fs with nodes := (VFS.delete fs.nodes name).1 }.reply m 0

/-- A call, with the memory as the call finds it and the address space of its process.
Programs change memory between two calls, so it may be any. -/
structure Event where
  call : Call
  mem : Mem
  cr3 : u64

def Event.perform (e : Event) (fs : FileSystem) : Reply := e.call.perform fs e.mem (some e.cr3)

end MicroNT.FileIo
