import MicroNT.FileHandles

/-! # Reading files with the Win32 API (`user/kernel32/kernel32.cpp`)

`ReadFile` passes the offset 0 with every call and the kernel keeps no position of a
handle, so a loop that reads until nothing is left reads the beginning of the file again
and again. -/

namespace MicroNT.FileIo

open MicroNT.VMM (Mem)
open MicroNT.Kernel (readUserByte)
open MicroNT.VFS (WNode)

/-! ## The library -/

/-- `a_strlen`, from byte `n` on; `none` while it is still running. -/
def aStrlen (m : Mem) (cr3 s : u64) : Nat → u32 → Option u32
  | 0, _ => none
  | fuel + 1, n =>
    if (readUserByte m cr3 (s + n.setWidth 64)).1 ≠ 0 then aStrlen m cr3 s fuel (n + 1) else some n

abbrev INVALID_HANDLE_VALUE : u64 := -1

/-- `CreateFileA`: the handle, and what the system call has left behind. -/
def createFileA (fuel : Nat) (fs : FileSystem) (m : Mem) (cr3 name : u64) : Option (u64 × Reply) :=
  (aStrlen m cr3 name fuel 0).map fun n =>
    let r := ntCreateFile fs m (some cr3) name (n.setWidth 64)
    (if (0#64).slt r.ret then r.ret else INVALID_HANDLE_VALUE, r)

/-- `ReadFile`: the number of bytes read, and what the system call has left behind. -/
def readFile (fs : FileSystem) (m : Mem) (cr3 hFile buf : u64) (len : u32) : u32 × Reply :=
  let r := ntReadFile fs m (some cr3) hFile buf 0 (len.setWidth 64)
  (r.ret.setWidth 32, r)

/-- The loop that reads a file until a call reads nothing, with the bytes it has found in
its buffer after each call; `none` after as many calls as it may make. -/
def readLoop (cr3 h buf : u64) (n : u32) : Nat → FileSystem → Mem → List u8 → Option (List u8)
  | 0, _, _, _ => none
  | calls + 1, fs, m, acc =>
    let r := readFile fs m cr3 h buf n
    if r.1 = 0 then some acc
    else readLoop cr3 h buf n calls r.2.files r.2.mem (acc ++ loadBytes r.2.mem cr3 buf r.1.toNat)

/-! ## The loop -/

section

variable {fs : FileSystem} {h : u64} {t : Target}

theorem Lives.target (lives : Lives fs h t) : fs.target h = some t := by
  cases t with
  | boot i =>
    obtain ⟨inside, rfl⟩ := lives
    exact target_boot inside
  | node i =>
    obtain ⟨rfl, used⟩ := lives
    exact target_node used
  | gone => exact absurd lives id

theorem Lives.no_pipe (lives : Lives fs h t) : pipeAt h = none := by
  have leads := lives.target
  rw [FileSystem.target] at leads
  by_contra pipe
  rw [if_pos (Option.isSome_iff_ne_none.mpr pipe)] at leads
  cases leads

/-- The numbers of files are small and positive. -/
theorem Lives.positive (lives : Lives fs h t) : (0#64).slt h = true := by
  have small : 0 < h.toNat ∧ h.toNat < 0x50 := by
    cases t with
    | boot i =>
      obtain ⟨inside, rfl⟩ := lives
      have small : i < 8 := inside.trans_le fs.room
      rw [bootNumber_toNat small]
      omega
    | node i =>
      obtain ⟨rfl, -⟩ := lives
      have hi : i.val < 16 := i.isLt
      rw [nodeHandle_toNat]
      omega
    | gone => exact absurd lives id
  rw [BitVec.slt_eq_decide, decide_eq_true_eq, BitVec.toInt_eq_toNat_of_lt (x := h) (by omega)]
  show (0 : Int) < _
  omega

/-- **`ReadFile`** reads the beginning of the file. -/
theorem Lives.readFile (lives : Lives fs h t) (m : Mem) (cr3 buf : u64) (n : u32) :
    (FileIo.readFile fs m cr3 h buf n).1.toNat = min (min n.toNat 512) (fs.content t).length ∧
      (FileIo.readFile fs m cr3 h buf n).2.files = fs := by
  have wide : (n.setWidth 64 : u64).toNat = n.toNat := by
    rw [BitVec.toNat_setWidth]
    exact Nat.mod_eq_of_lt (n.isLt.trans (by decide))
  have count := slice_length (fs.content t) 0 (n.setWidth 64)
  rw [wide, show (0 : u64).toNat = 0 from rfl, Nat.sub_zero] at count
  simp only [FileIo.readFile, ntReadFile_eq lives.no_pipe, lives.target, FileSystem.readAt,
    Option.map_some, Option.getD_some, count, and_true]
  rw [BitVec.toNat_setWidth, BitVec.toNat_ofNat]
  omega

theorem Lives.readLoop_running (lives : Lives fs h t) {n : u32} (some : n ≠ 0)
    (content : fs.content t ≠ []) (cr3 buf : u64) (calls : Nat) (m : Mem) (acc : List u8) :
    readLoop cr3 h buf n calls fs m acc = none := by
  induction calls generalizing m acc with
  | zero => rfl
  | succ calls ih =>
    obtain ⟨got, files⟩ := lives.readFile m cr3 buf n
    have more : (FileIo.readFile fs m cr3 h buf n).1 ≠ 0 := by
      intro zero
      rw [zero] at got
      have length := List.length_pos_iff.mpr content
      have positive : 0 < n.toNat := Nat.pos_of_ne_zero fun no => some (BitVec.eq_of_toNat_eq no)
      have none : (0 : u32).toNat = 0 := rfl
      omega
    rw [readLoop, if_neg more, files]
    exact ih _ _

end

/-- **The loop reads the whole file exactly if the file is empty**; otherwise it never ends. -/
theorem read_loop_complete_iff (fuel : Nat) (fs : FileSystem) (m : Mem) (cr3 name h : u64) (r : Reply)
    (created : createFileA fuel fs m cr3 name = some (h, r)) (valid : h ≠ INVALID_HANDLE_VALUE)
    (buf : u64) (n : u32) (room : n ≠ 0) :
    ∃ len t, aStrlen m cr3 name fuel 0 = some len ∧
      fs.fileNamed (userString m (some cr3) name (len.setWidth 64) 127) = some t ∧
      ((∃ calls, readLoop cr3 h buf n calls r.files r.mem [] = some (r.files.content t)) ↔
        r.files.content t = []) := by
  obtain ⟨len, length, same⟩ := Option.map_eq_some_iff.mp created
  obtain ⟨rfl, rfl⟩ := Prod.mk.inj same
  obtain ⟨-, -, -, zero | ⟨t, named, lives⟩⟩ :=
    ntCreateFile_opens fs ⟨.ntClose 0, m, cr3⟩ name (len.setWidth 64)
  · rw [zero] at valid
    exact absurd rfl valid
  · refine ⟨len, t, length, named, ?_⟩
    simp only [lives.positive, if_true]
    constructor
    · rintro ⟨calls, ends⟩
      by_contra content
      rw [lives.readLoop_running room content] at ends
      cases ends
    · intro content
      refine ⟨1, ?_⟩
      obtain ⟨got, -⟩ := lives.readFile (ntCreateFile fs m (some cr3) name (len.setWidth 64)).mem
        cr3 buf n
      rw [content, List.length_nil, Nat.min_zero] at got
      rw [readLoop, if_pos (BitVec.eq_of_toNat_eq got), content]

/-- One writable file, without a name and of one byte. -/
def oneNode : FileSystem where
  boot := []
  room := Nat.zero_le BOOT_FILES_MAX
  nodes := Function.update (fun _ => WNode.zero) 0 ⟨[], true, false, 1, fun _ => 0x4D#8, by decide⟩
  pipes _ := KPipe.zero

theorem oneNode_created :
    createFileA 1 oneNode (fun _ _ => 0) 0 0 =
      some (0x40#64, ntCreateFile oneNode (fun _ _ => 0) (some 0) 0 0) := by
  rfl

theorem read_loop_complete_iff_node :
    ∃ len t, aStrlen (fun _ _ => 0) 0 0 1 0 = some len ∧
      oneNode.fileNamed (userString (fun _ _ => 0) (some 0) 0 (len.setWidth 64) 127) = some t ∧
      ((∃ calls, readLoop 0 0x40#64 0 4 calls
          (ntCreateFile oneNode (fun _ _ => 0) (some 0) 0 0).files
          (ntCreateFile oneNode (fun _ _ => 0) (some 0) 0 0).mem [] =
            some ((ntCreateFile oneNode (fun _ _ => 0) (some 0) 0 0).files.content t)) ↔
        (ntCreateFile oneNode (fun _ _ => 0) (some 0) 0 0).files.content t = []) :=
  read_loop_complete_iff 1 oneNode (fun _ _ => 0) 0 0 0x40#64 _ oneNode_created (by decide) 0 4
    (by decide)

/-- Reading a file of one byte never ends. -/
theorem read_loop_runs_on :
    createFileA 1 oneNode (fun _ _ => 0) 0 0 =
        some (0x40#64, ntCreateFile oneNode (fun _ _ => 0) (some 0) 0 0) ∧
      oneNode.content (.node 0) = [0x4D#8] ∧
      ¬ ∃ calls out, readLoop 0 0x40#64 0 4 calls
        (ntCreateFile oneNode (fun _ _ => 0) (some 0) 0 0).files (fun _ _ => 0) [] = some out := by
  refine ⟨oneNode_created, by decide, fun ends => ?_⟩
  obtain ⟨calls, out, ends⟩ := ends
  have lives : Lives oneNode 0x40#64 (.node 0) := ⟨by decide, rfl⟩
  have files : (ntCreateFile oneNode (fun _ _ => 0) (some 0) 0 0).files = oneNode := rfl
  rw [files, lives.readLoop_running (by decide) (by decide)] at ends
  cases ends

end MicroNT.FileIo
