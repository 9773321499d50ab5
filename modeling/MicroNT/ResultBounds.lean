import Mathlib.Data.BitVec
import MicroNT.ResultCalls

/-! # Filling a buffer and no more

A call keeps to the caller's buffer if every byte that it stores lies in it and its
result is at most the length. The cases that do not are a terminating zero behind a full
buffer, a length of 0, a closing bracket behind the end, and reads of pipes. -/

namespace MicroNT.FileIo

open MicroNT.VMM (Mem)
open MicroNT.Kernel (Access readUserByte writeUserByte)
open MicroNT.VFS (WNode WNODE_MAX)

/-! ## The calls and what they may do -/

inductive ResultCall
  | readLine (run : List u8 → Mem → Mem) (src : LineSource)
  | queryDirectory (d : Directory)
  | querySystemInformation (pages : PageCounts) (procs : List ProcessEntry) (cls : u64)
  | readFile (fs : FileSystem) (h offset : u64)

def ResultCall.perform (m : Mem) (pml4 buf len : u64) : ResultCall → Outcome
  | .readLine run src => (ntReadLine run src m (some pml4) buf len).1
  | .queryDirectory d => ntQueryDirectory d m (some pml4) buf len
  | .querySystemInformation pages procs cls =>
    ntQuerySystemInformation pages procs m (some pml4) cls buf len
  | .readFile fs h offset =>
    let r := ntReadFile fs m (some pml4) h buf offset len
    .returns r.ret r.mem r.accesses

/-- Every byte that is stored lies in the buffer, and the result is at most its length. -/
def Within (buf len : u64) : Outcome → Prop
  | .returns ret _ acc =>
    (∀ a ∈ acc, a.write = true → (a.va - buf).toNat < len.toNat) ∧ ret.toNat ≤ len.toNat
  | .waiting => True
  | .overrun => False

/-! ## The conditions -/

/-- The length of a node's entry. -/
def entrySize (n : WNode) : Nat := n.name.length + if n.isDir then 3 else 1

/-- The entry of a node, `s` bytes from the start of the buffer, stays inside it: it is
left out within the last five bytes, unless the buffer ends before address 4, it ends
inside, or it is a file's and starts inside. -/
def EntryFits (room : Nat) (low : Prop) (s : Nat) (n : WNode) : Prop :=
  (¬ low ∧ room ≤ s + 5) ∨ if n.isDir then s + entrySize n ≤ room else s < room

def EntriesFit (room : Nat) (low : Prop) : Nat → List WNode → Prop
  | _, [] => True
  | s, n :: ns => EntryFits room low s n ∧ EntriesFit room low (s + entrySize n) ns

/-- No entry fills the buffer. -/
def EntriesShort (room : Nat) : Nat → List WNode → Prop
  | _, [] => True
  | s, n :: ns => (room ≤ s + 5 ∨ s + entrySize n < room) ∧ EntriesShort room (s + entrySize n) ns

/-- What the names of the boot files take up; the last byte is not used. -/
def Directory.bootSize (d : Directory) (room : Nat) : Nat :=
  min (room - 1) (d.files.boot.map fun f => f.name.length + 1).sum

/-- The room that `NtQueryDirectory` counts with. -/
def directoryRoom (len : u64) : Nat := min len.toNat 2048

/-- Every entry fits in the buffer. The buffer is not the empty one at address 0; if it
ends at the last address no entry fills it, and if it runs on past that, it goes so far
or is so short that nothing is listed. -/
def Directory.Fits (d : Directory) (buf len : u64) : Prop :=
  let room := directoryRoom len
  let stop := buf.toNat + room
  if stop = 0 then False
  else if stop < 2 ^ 64 then
    2048 < len.toNat ∧ stop + 1 < 2 ^ 64 ∨ EntriesFit room (stop ≤ 4) (d.bootSize room) d.usedNodes
  else if stop = 2 ^ 64 then EntriesShort room (d.bootSize room) d.usedNodes
  else 2 ^ 64 + 4 < stop ∨ room ≤ 5 ∨ d.usedNodes = []

/-- The text of a class of system information. -/
def infoText (pages : PageCounts) (m : Mem) (pml4 cls : u64) : List u8 :=
  if cls = 0 then versionText m pml4 else memoryText pages

/-- The buffer is not empty, or the byte there is not mapped; the text is shorter than the
buffer, or nothing is mapped behind it; the names fit; and no read of a pipe adds more to
it than it asks for. The line that is typed stays below 512 characters. -/
def ResultCall.Fits (m : Mem) (pml4 buf len : u64) : ResultCall → Prop
  | .readLine _ src =>
    if src.cmds = [] then
      (len = 0 → VMM.translateInPml4 m pml4 buf = 0) ∧
        (editLine src.hist (len.toNat - 1) ⟨[], 0⟩ src.keys).1 ≠ .overrun
    else len ≠ 0
  | .queryDirectory d => d.Fits buf len
  | .querySystemInformation pages _ cls => cls = 0 ∨ cls = 1 →
    (infoText pages m pml4 cls).length < len.toNat ∨
      VMM.translateInPml4
        (storeBytes pml4 buf ((infoText pages m pml4 cls).take len.toNat) m).1 pml4 (buf + len) = 0
  | .readFile fs h offset => ∀ i, pipeAt h = some i → (fs.pipes i).used = true →
    taken (min offset.toNat 512) (fs.pipes i).data ≤ len.toNat

/-! ## Storing bytes -/

section

variable {pml4 va buf len : u64} {m : Mem}

end

/-! ## `NtReadFile` -/

/-- A line that has room for a character has at most `maxlen` afterwards. -/
def Edited.Below (maxlen : Nat) : Edited → Prop
  | .more e => e.line.length ≤ maxlen
  | .line l => l.length ≤ maxlen
  | _ => True

theorem digits_length {fuel : Nat} (v k : Nat) (h : v < 10 ^ k) : (digits fuel v).length ≤ k := by
  induction fuel generalizing v k with
  | zero => exact Nat.zero_le _
  | succ fuel ih =>
    rw [digits]
    split
    case isTrue => exact Nat.zero_le _
    case isFalse positive =>
      cases k with
      | zero => omega
      | succ k =>
        rw [List.length_append, List.length_singleton]
        exact Nat.succ_le_succ (ih (v / 10) k (by rw [Nat.pow_succ] at h; omega))

theorem decimal_length {v k : Nat} (h : v < 10 ^ (k + 1)) : (decimal v).length ≤ k + 1 := by
  rw [decimal]
  split
  case isTrue => exact Nat.succ_le_succ (Nat.zero_le _)
  case isFalse => exact digits_length v (k + 1) h

/-- The position follows the bytes stored. -/
def Listing.At (buf : u64) (w : Listing) : Prop := w.pos = buf + BitVec.ofNat 64 w.out.length

theorem Listing.At.put {buf : u64} {w : Listing} (h : w.At buf) (b : u8) : (w.put b).At buf := by
  rw [Listing.At, Listing.put, List.length_append, List.length_singleton, h, BitVec.ofNat_add,
    BitVec.add_assoc]

section

variable {buf last : u64} {room : Nat} {w : Listing}

theorem Listing.At.toNat (h : w.At buf) (below : buf.toNat + w.out.length < 2 ^ 64) :
    w.pos.toNat = buf.toNat + w.out.length := by
  rw [h, BitVec.toNat_add, BitVec.toNat_ofNat]
  omega

/-- The listing after entries of `s` bytes, in a buffer that may end before address 5
(`low`): it has all of them, or it is full, or the rest is left out. -/
structure Listed (buf : u64) (room : Nat) (low : Prop) (s : Nat) (w : Listing) : Prop where
  at_ : w.At buf
  inside : w.out.length ≤ room
  le : w.out.length ≤ s
  all : w.out.length = s ∨ w.out.length = room ∨ ¬ low ∧ room ≤ w.out.length + 5

end

/-! ## A buffer that runs on past the last address -/

section

variable {buf last : u64}

end

/-! ## `NtQueryDirectory` as a whole -/

/-- The zero at the end of the list. -/
def Listing.finish (last : u64) (w : Listing) : Listing := if w.pos < last then w.put 0 else w

theorem Listing.At.finish {buf : u64} {w : Listing} (h : w.At buf) (last : u64) :
    (w.finish last).At buf := by
  rw [Listing.finish]
  split
  case isTrue => exact h.put 0
  case isFalse => exact h

section

variable (d : Directory) (buf last : u64)

end

section

variable (d : Directory) {buf last : u64} {room : Nat}

end

/-- A queue with the command `p`. -/
def queued : LineSource where
  cmds := [{
    bytes := fun i => if i = 0 then 0x70#8 else 0
    length := 1
    nonzero := fun i hi => by rw [if_pos (Nat.lt_one_iff.mp hi)]; decide
    ends := rfl
    small := by decide }]
  hist := []
  keys := []

end MicroNT.FileIo
