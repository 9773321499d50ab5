import MicroNT.FileReads

/-! # Writing files with the Win32 API (`user/kernel32/kernel32.cpp`)

`WriteFile` takes the result of the system call for the number of bytes written. The kernel
returns that number for pipes and writable nodes, and `STATUS_SUCCESS`, which is 0, for the
console. -/

namespace MicroNT.FileIo

open MicroNT.VMM (Mem)
open MicroNT.Kernel (readUserByte readUserBytes)
open MicroNT.VFS (WNode Nodes WNODE_MAX nodeAt)

/-! ## The library -/

/-- `WriteFile`: the number of bytes written, and what the system call has left behind. -/
def writeFile (fs : FileSystem) (m : Mem) (cr3 hFile buf : u64) (len : u32) : u32 × Reply :=
  let r := ntWriteFile fs m (some cr3) hFile buf (len.setWidth 64)
  (r.ret.setWidth 32, r)

/-- A caller's loop over what remains, with the number of bytes that it has counted as written and
what was printed. -/
def writeLoop (m : Mem) (cr3 h buf : u64) (len : u32) :
    Nat → FileSystem → u32 → FileSystem × u32 × List u8
  | 0, fs, done => (fs, done, [])
  | calls + 1, fs, done =>
    let r := writeFile fs m cr3 h (buf + done.setWidth 64) (len - done)
    let q := writeLoop m cr3 h buf len calls r.2.files (done + r.1)
    (q.1, q.2.1, r.2.console ++ q.2.2)

/-! ## What is promised -/

/-- Every number that is no pipe's and no writable node's prints. -/
def PrintsTo (h : u64) : Prop := pipeAt h = none ∧ ¬ NodeHandle h

instance (h : u64) : Decidable (PrintsTo h) := inferInstanceAs (Decidable (_ ∧ _))

/-- The bytes in the pipe or the file of a handle. -/
def FileSystem.received (fs : FileSystem) (h : u64) : List u8 :=
  match pipeAt h with
  | some i => (fs.pipes i).data
  | none =>
    if NodeHandle h then
      ((nodeAt fs.nodes ((h - WFILE_HANDLE_BASE).setWidth 32)).map fun i => (fs.nodes i).bytes).getD []
    else []

/-- The first `n` bytes of a buffer have come to where the handle leads, in order. -/
def Delivers (fs : FileSystem) (m : Mem) (cr3 h buf : u64) (n : u32) (fs' : FileSystem)
    (console : List u8) : Prop :=
  if PrintsTo h then fs' = fs ∧ console = loadBytes m cr3 buf n.toNat
  else fs'.received h = fs.received h ++ loadBytes m cr3 buf n.toNat ∧ console = []

/-- What `WriteFile` reports is at most what it was given, and what it has delivered; so is what a
loop over the remainder has counted. -/
structure WriteRight (fs : FileSystem) (m : Mem) (cr3 h buf : u64) (len : u32) : Prop where
  least : (writeFile fs m cr3 h buf len).1.toNat ≤ len.toNat
  once : Delivers fs m cr3 h buf (writeFile fs m cr3 h buf len).1
    (writeFile fs m cr3 h buf len).2.files (writeFile fs m cr3 h buf len).2.console
  loop : ∀ calls, let q := writeLoop m cr3 h buf len calls fs 0
    q.2.1.toNat ≤ len.toNat ∧ Delivers fs m cr3 h buf q.2.1 q.1 q.2.2

/-! ## One call -/

section

variable {fs : FileSystem} {m : Mem} {cr3 h buf : u64} {len : u32}

theorem loadBytes_add (m : Mem) (cr3 buf : u64) (a b : Nat) :
    loadBytes m cr3 buf (a + b) = loadBytes m cr3 buf a ++ loadBytes m cr3 (buf + BitVec.ofNat 64 a) b := by
  rw [loadBytes, List.range_add, List.map_append, List.map_map, loadBytes, loadBytes]
  congr 1
  refine List.map_congr_left fun j _ => ?_
  show (readUserByte m cr3 (buf + BitVec.ofNat 64 (a + j))).1 = _
  rw [BitVec.ofNat_add, BitVec.add_assoc]

theorem loadBytes_take (m : Mem) (cr3 buf : u64) {n k : Nat} (hk : k ≤ n) :
    (loadBytes m cr3 buf n).take k = loadBytes m cr3 buf k := by
  rw [loadBytes, ← List.map_take, List.take_range, Nat.min_eq_left hk, loadBytes]

/-- A node stays under its number. -/
theorem nodeAt_append (nodes : Nodes) (i : Fin WNODE_MAX) (src : Nat → u8) (len idx : u32) :
    nodeAt (Function.update nodes i (VFS.append (nodes i) src len)) idx = nodeAt nodes idx := by
  have used : ∀ j, (Function.update nodes i (VFS.append (nodes i) src len) j).used = (nodes j).used := by
    intro j
    by_cases here : j = i
    · rw [here, Function.update_self]
      rfl
    · rw [Function.update_of_ne here]
  simp only [nodeAt, used]

theorem wide_toNat (len : u32) : (len.setWidth 64 : u64).toNat = len.toNat := by
  have bound := len.isLt
  rw [BitVec.toNat_setWidth]
  omega

theorem loadBytes_zero (m : Mem) (cr3 buf : u64) : loadBytes m cr3 buf 0 = [] := rfl

/-- **A write to a pipe** delivers what it reports. -/
theorem writeFile_pipe {i : Fin 4} (pipe : pipeAt h = some i) :
    ∃ n, n ≤ len.toNat ∧ (writeFile fs m cr3 h buf len).1.toNat = n ∧
      (writeFile fs m cr3 h buf len).2.files.received h =
        fs.received h ++ loadBytes m cr3 buf n ∧
      (writeFile fs m cr3 h buf len).2.console = [] := by
  have call : ntWriteFile fs m (some cr3) h buf (len.setWidth 64) =
      writePipe fs m (some cr3) i buf (len.setWidth 64) := by
    simp only [ntWriteFile, pipe]
  have console : (writePipe fs m (some cr3) i buf (len.setWidth 64)).console = [] := by
    simp only [writePipe]
    split <;> rfl
  simp only [writeFile, call, console, and_true]
  cases used : (fs.pipes i).used with
  | false =>
    rw [writePipe_unused m cr3 buf (len.setWidth 64) used]
    exact ⟨0, Nat.zero_le _, rfl, by rw [loadBytes_zero, List.append_nil, FileSystem.reply]⟩
  | true =>
    obtain ⟨ret, -, files⟩ := writePipe_used m cr3 buf (len.setWidth 64) used
    have small := taken_le (min (len.setWidth 64 : u64).toNat 512) (fs.pipes i).data
    refine ⟨taken (min (len.setWidth 64 : u64).toNat 512) (fs.pipes i).data, ?_, ?_, ?_⟩
    · rw [taken, wide_toNat]
      omega
    · rw [ret, BitVec.toNat_setWidth, taken_toNat]
      simp only [PIPE_SIZE] at small
      omega
    · rw [files]
      simp only [FileSystem.received, pipe, FileSystem.setPipe, Function.update_self, KPipe.add]

/-- The buffer that `NT_WRITE_FILE` fills for a node. -/
theorem wbuf_eq (m : Mem) (cr3 buf : u64) (n : Nat) :
    (List.range n).map (fun j => (loadBytes m cr3 buf n).getD j 0) = loadBytes m cr3 buf n := by
  refine List.ext_getElem (by simp [loadBytes_length]) fun j hj _ => ?_
  have below : j < (loadBytes m cr3 buf n).length := by
    rw [loadBytes_length]
    simpa using hj
  rw [List.getElem_map, List.getElem_range, List.getD_eq_getElem _ _ below]

/-- **A write to a node** delivers what it reports. -/
theorem writeFile_node (node : NodeHandle h) :
    ∃ n, n ≤ len.toNat ∧ (writeFile fs m cr3 h buf len).1.toNat = n ∧
      (writeFile fs m cr3 h buf len).2.files.received h =
        fs.received h ++ loadBytes m cr3 buf n ∧
      (writeFile fs m cr3 h buf len).2.console = [] := by
  cases slot : nodeAt fs.nodes ((h - WFILE_HANDLE_BASE).setWidth 32) with
  | none =>
    obtain ⟨acc, call⟩ := ntWriteFile_unused m cr3 buf (len.setWidth 64) node slot
    simp only [writeFile, call, and_true]
    exact ⟨0, Nat.zero_le _, rfl, by rw [loadBytes_zero, List.append_nil]⟩
  | some i =>
    simp only [writeFile, ntWriteFile, node.no_pipe, if_pos node, VFS.wWrite, slot, and_true]
    rw [wide_toNat]
    have given : (BitVec.ofNat 32 (min len.toNat 2048)).toNat = min len.toNat 2048 := by
      rw [BitVec.toNat_ofNat]
      omega
    have room := VFS.accepted_toNat (fs.nodes i) (BitVec.ofNat 32 (min len.toNat 2048))
    rw [given] at room
    refine ⟨min (min len.toNat 2048) (VFS.WNODE_DATA_MAX - (fs.nodes i).size.toNat), by omega, ?_, ?_⟩
    · have bound := (VFS.accepted (fs.nodes i) (BitVec.ofNat 32 (min len.toNat 2048))).isLt
      rw [← room, BitVec.toNat_setWidth, BitVec.toNat_setWidth]
      omega
    · simp only [FileSystem.received, node.no_pipe, if_pos node, nodeAt_append, slot, Option.map_some,
        Option.getD_some, Function.update_self, VFS.append_bytes, given, wbuf_eq]
      rw [VFS.bytes_length, List.take_eq_take_min, loadBytes_length,
        loadBytes_take m cr3 buf (Nat.min_le_right _ _),
        Nat.min_comm (VFS.WNODE_DATA_MAX - (fs.nodes i).size.toNat)]

variable (fs m cr3 buf len) in
/-- **A write to anything else** prints and reports nothing. -/
theorem writeFile_console (prints : PrintsTo h) :
    (writeFile fs m cr3 h buf len).1 = 0 ∧ (writeFile fs m cr3 h buf len).2.files = fs ∧
      (writeFile fs m cr3 h buf len).2.console = (readUserBytes m cr3 buf (min len.toNat 512)).1 := by
  simp only [writeFile, ntWriteFile_console m cr3 buf (len.setWidth 64) prints.1 prints.2, wide_toNat]
  exact ⟨rfl, trivial, trivial⟩

variable (fs m cr3 buf len) in
/-- A write that does not print delivers what it reports. -/
theorem writeFile_delivers (target : ¬ PrintsTo h) :
    ∃ n, n ≤ len.toNat ∧ (writeFile fs m cr3 h buf len).1.toNat = n ∧
      (writeFile fs m cr3 h buf len).2.files.received h =
        fs.received h ++ loadBytes m cr3 buf n ∧
      (writeFile fs m cr3 h buf len).2.console = [] := by
  cases pipe : pipeAt h with
  | some i => exact writeFile_pipe pipe
  | none => exact writeFile_node (not_not.mp fun other => target ⟨pipe, other⟩)

/-! ## The loop -/

variable (fs m cr3 buf len) in
/-- What a loop has counted, and where the bytes are, whatever it had counted before. -/
theorem writeLoop_delivers (target : ¬ PrintsTo h) (calls : Nat) (done : u32)
    (before : done.toNat ≤ len.toNat) :
    ∃ n, (writeLoop m cr3 h buf len calls fs done).2.1.toNat = done.toNat + n ∧
      done.toNat + n ≤ len.toNat ∧
      (writeLoop m cr3 h buf len calls fs done).1.received h =
        fs.received h ++ loadBytes m cr3 (buf + done.setWidth 64) n ∧
      (writeLoop m cr3 h buf len calls fs done).2.2 = [] := by
  induction calls generalizing fs done with
  | zero => exact ⟨0, rfl, before, by rw [loadBytes_zero, List.append_nil, writeLoop], rfl⟩
  | succ calls ih =>
    simp only [writeLoop]
    have rest : (len - done).toNat = len.toNat - done.toNat :=
      BitVec.toNat_sub_of_le (BitVec.le_def.mpr before)
    obtain ⟨n, small, count, received, console⟩ :=
      writeFile_delivers fs m cr3 (buf + done.setWidth 64) (len - done) target
    rw [rest] at small
    have sum : (done + (writeFile fs m cr3 h (buf + done.setWidth 64) (len - done)).1).toNat =
        done.toNat + n := by
      have bound := len.isLt
      rw [BitVec.toNat_add, count]
      omega
    obtain ⟨k, counted, most, delivered, quiet⟩ :=
      ih (writeFile fs m cr3 h (buf + done.setWidth 64) (len - done)).2.files
        (done + (writeFile fs m cr3 h (buf + done.setWidth 64) (len - done)).1) (by omega)
    refine ⟨n + k, by omega, by omega, ?_, ?_⟩
    · have next : buf + (done + (writeFile fs m cr3 h (buf + done.setWidth 64) (len - done)).1).setWidth 64 =
          buf + done.setWidth 64 + BitVec.ofNat 64 n := by
        rw [BitVec.add_assoc]
        congr 1
        apply BitVec.eq_of_toNat_eq
        have bound := len.isLt
        rw [wide_toNat, sum, BitVec.toNat_add, wide_toNat, BitVec.toNat_ofNat]
        omega
      rw [delivered, received, next, List.append_assoc, ← loadBytes_add]
    · rw [console, quiet, List.nil_append]

/-- A loop on the console that prints nothing. -/
theorem writeLoop_nothing (prints : PrintsTo h)
    (nothing : (readUserBytes m cr3 buf (min len.toNat 512)).1 = []) (calls : Nat) :
    writeLoop m cr3 h buf len calls fs 0 = (fs, 0, []) := by
  induction calls with
  | zero => rfl
  | succ calls ih =>
    have from_ : buf + (0 : u32).setWidth 64 = buf := BitVec.add_zero buf
    have all : len - 0 = len := BitVec.sub_zero len
    have still : (0 : u32) + 0 = 0 := rfl
    obtain ⟨none, files, console⟩ := writeFile_console fs m cr3 buf len prints
    rw [nothing] at console
    simp only [writeLoop, from_, all, none, files, console, still, ih, List.append_nil]

end

/-- **`WriteFile` reports what was accepted exactly off the console**, or where there is nothing
to print: no byte is given, or the first one is not mapped. -/
theorem write_right_iff (fs : FileSystem) (m : Mem) (cr3 h buf : u64) (len : u32) :
    WriteRight fs m cr3 h buf len ↔
      ¬ PrintsTo h ∨ len = 0 ∨ VMM.translateInPml4 m cr3 buf = 0 := by
  have empty : (readUserBytes m cr3 buf (min len.toNat 512)).1 = [] ↔
      len = 0 ∨ VMM.translateInPml4 m cr3 buf = 0 := by
    rw [readUserBytes_eq_nil]
    refine or_congr_left ⟨fun none => BitVec.eq_of_toNat_eq ?_, ?_⟩
    · show len.toNat = 0
      omega
    · rintro rfl
      rfl
  rw [← empty]
  by_cases prints : PrintsTo h
  · obtain ⟨none, files, console⟩ := writeFile_console fs m cr3 buf len prints
    constructor
    · intro right
      have once := right.once
      rw [Delivers, if_pos prints, console, none] at once
      exact .inr once.2
    · intro either
      have nothing := either.resolve_left (not_not.mpr prints)
      refine ⟨by rw [none]; exact Nat.zero_le _, ?_, fun calls => ?_⟩
      · rw [Delivers, if_pos prints, files, console, none]
        exact ⟨rfl, nothing⟩
      · rw [writeLoop_nothing prints nothing]
        refine ⟨Nat.zero_le _, ?_⟩
        rw [Delivers, if_pos prints]
        exact ⟨rfl, rfl⟩
  · refine iff_of_true ?_ (.inl prints)
    obtain ⟨n, small, count, received, console⟩ := writeFile_delivers fs m cr3 buf len prints
    refine ⟨count ▸ small, ?_, fun calls => ?_⟩
    · rw [Delivers, if_neg prints, count]
      exact ⟨received, console⟩
    · obtain ⟨k, counted, most, delivered, quiet⟩ := writeLoop_delivers fs m cr3 buf len prints calls 0
        (Nat.zero_le _)
      have zero : (0 : u32).toNat = 0 := rfl
      rw [zero, Nat.zero_add] at counted most
      have from_ : buf + (0 : u32).setWidth 64 = buf := BitVec.add_zero buf
      rw [from_] at delivered
      refine ⟨counted ▸ most, ?_⟩
      rw [Delivers, if_neg prints, counted]
      exact ⟨delivered, quiet⟩

/-- Memory in which every word is mapped, and every byte is the letter a. -/
def letters : Mem := fun _ _ => 0x6161616161616161#64

/-- **Printing one letter** reports that none was written. -/
theorem console_write_unreported : ¬ WriteRight noFiles letters 0 1 0 1 := by
  intro right
  have once := right.once
  rw [Delivers, if_pos (by decide)] at once
  exact absurd once.2 (by decide)

end MicroNT.FileIo
