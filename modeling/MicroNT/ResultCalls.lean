import MicroNT.FileHandles

/-! # System calls that fill a buffer (`syscall.cpp`)

`NtReadLine`, `NtQueryDirectory`, `NtQuerySystemInformation` and `NtReadFile` store text
in the caller's buffer, byte after byte from its start on. -/

namespace MicroNT.FileIo

open MicroNT.VMM (Mem)
open MicroNT.Kernel (Access readUserByte writeUserByte)
open MicroNT.VFS (WNode WNODE_MAX)

/-- A call returns, waits for a key, or has written past the end of a buffer of the
kernel, after which anything may happen. -/
inductive Outcome
  | returns (ret : u64) (mem : Mem) (accesses : List Access)
  | waiting
  | overrun

/-- The bytes that a call stores from an address on, and its result. -/
def Outcome.store (m : Mem) (pml4 va : u64) (out : List u8) (ret : u64) : Outcome :=
  .returns ret (storeBytes pml4 va out m).1 (storeBytes pml4 va out m).2

def ascii (s : String) : List u8 := s.toList.map fun c => BitVec.ofNat 8 c.toNat

/-! ## `NtReadLine` -/

/-- A string in the kernel's memory, with what follows it there. -/
structure KString where
  bytes : Nat → u8
  length : Nat
  nonzero : ∀ i < length, bytes i ≠ 0
  ends : bytes length = 0
  small : length < 2 ^ 64

abbrev HIST_N : Nat := 16
abbrev HIST_MAX : Nat := 256
abbrev LINE_MAX : Nat := 512

/-- The queued commands, the lines that were typed, with the last one first, and the
characters that come from the keyboard. -/
structure LineSource where
  cmds : List KString
  hist : List (List u8)
  keys : List u8

def histAdd (hist : List (List u8)) (line : List u8) : List (List u8) :=
  if line = [] ∨ hist.head? = some line then hist
  else (line.take (HIST_MAX - 1) :: hist).take HIST_N

def histGet (hist : List (List u8)) (back : Nat) : Option (List u8) :=
  if back = 0 then none else hist[back - 1]?

/-- The words that Tab completes. -/
def tabWords : List (List u8) :=
  ["ver", "dir", "mem", "ps", "exec", "cat", "echo", "write", "help", "exit", "clear", "pipe"].map
    ascii

/-- `TabComplete`: the only word that continues the line. -/
def tabComplete (line : List u8) : Option (List u8) :=
  match tabWords.filter fun w => line.isPrefixOf w && line.length < w.length with
  | [w] => some w
  | _ => none

structure Editor where
  line : List u8
  histPos : Nat

inductive Edited
  | more (e : Editor)
  | line (l : List u8)
  | waiting
  | overrun

/-- What the line editor does with a character. -/
def editKey (hist : List (List u8)) (maxlen : Nat) (e : Editor) (ch : u8) : Edited :=
  if ch = 0x0A#8 ∨ ch = 0x0D#8 then
    -- the terminating zero goes to the line's buffer too
    if e.line.length < LINE_MAX then .line e.line else .overrun
  else if ch = 0x08#8 then .more { e with line := e.line.dropLast }
  else if ch = 0x09#8 then
    match tabComplete e.line with
    | none => .more e
    | some comp =>
      .more { e with line := e.line ++ (comp.drop e.line.length).take (maxlen - e.line.length) }
  else if ch = 0x10#8 ∨ ch = 0x11#8 then
    let newPos := if ch = 0x10#8 then e.histPos + 1 else e.histPos - 1
    if newPos = 0 then .more ⟨[], 0⟩
    else
      match histGet hist newPos with
      | none => .more e
      | some entry => .more ⟨entry.take maxlen, newPos⟩
  else if e.line.length < LINE_MAX then .more { e with line := e.line ++ [ch] }
  else .overrun

/-- The loop of the line editor, which ends on Enter or with a line of `maxlen` characters. -/
def editLine (hist : List (List u8)) (maxlen : Nat) : Editor → List u8 → Edited × List u8
  | e, [] =>
    if e.line.length < maxlen then (.waiting, [])
    else if e.line.length < LINE_MAX then (.line e.line, [])
    else (.overrun, [])
  | e, ch :: keys =>
    if e.line.length < maxlen then
      match editKey hist maxlen e ch with
      | .more e => editLine hist maxlen e keys
      | r => (r, keys)
    else if e.line.length < LINE_MAX then (.line e.line, ch :: keys)
    else (.overrun, ch :: keys)

/-- A line that the kernel carries out itself. -/
def kernelCommand (line : List u8) : Bool :=
  line == ascii "ps" || line == ascii "save" ||
    ["kill ", "bg ", "winexec ", "mkdir ", "rm "].any fun c =>
      (ascii c).isPrefixOf line && (ascii c).length < line.length

/-- `NtReadLine`; `run` is what a command does to memory. -/
def ntReadLine (run : List u8 → Mem → Mem) (src : LineSource) (m : Mem) (proc : Option u64)
    (buf len : u64) : Outcome × LineSource :=
  match proc with
  | none => (.returns 0 m [], src)
  | some pml4 =>
    match src.cmds with
    | cmd :: cmds =>
      let n := if BitVec.ofNat 64 cmd.length ≥ len then len - 1#64 else BitVec.ofNat 64 cmd.length
      (.store m pml4 buf ((List.range n.toNat).map cmd.bytes ++ [0]) n, { src with cmds := cmds })
    | [] =>
      let maxlen := if len > 1#64 then (len - 1#64).toNat else 0
      let r := editLine src.hist maxlen ⟨[], 0⟩ src.keys
      match r.1 with
      | .line line =>
        let src := { src with hist := histAdd src.hist line, keys := r.2 }
        if kernelCommand line then (.store (run line m) pml4 buf [0] 0, src)
        else (.store m pml4 buf (line ++ [0]) (BitVec.ofNat 64 line.length), src)
      | .overrun => (.overrun, { src with keys := r.2 })
      | _ => (.waiting, { src with keys := r.2 })

/-! ## `NtQuerySystemInformation` -/

/-- The digits of a positive number, `fuel` at most. -/
def digits : Nat → Nat → List u8
  | 0, _ => []
  | fuel + 1, v => if v = 0 then [] else digits fuel (v / 10) ++ [0x30#8 + BitVec.ofNat 8 (v % 10)]

def decimal (v : Nat) : List u8 := if v = 0 then [0x30#8] else digits 20 v

/-- The pages that the PMM counts: at most 2^21 in each of 256 entries of the boot map. -/
structure PageCounts where
  free : Nat
  total : Nat
  le : free ≤ total
  small : total < 2 ^ 32

/-- A process in the registry. Its number stays far below the room for its digits. -/
structure ProcessEntry where
  name : List u8
  pid : u32
  small : pid.toNat < 10 ^ 8

def userWord (m : Mem) (pml4 va : u64) : u32 :=
  (readUserByte m pml4 (va + 3#64)).1 ++ (readUserByte m pml4 (va + 2#64)).1 ++
    ((readUserByte m pml4 (va + 1#64)).1 ++ (readUserByte m pml4 va).1)

/-- Class 0: the version, which is read from the shared page. -/
def versionText (m : Mem) (pml4 : u64) : List u8 :=
  let maj := userWord m pml4 0x7FFE026C#64
  let min := userWord m pml4 0x7FFE0270#64
  let bld := userWord m pml4 0x7FFE0274#64
  ascii "MicroNT [Windows " ++ ascii (if maj = 10 ∧ min = 0 then "11" else "NT") ++ ascii "] " ++
    decimal maj.toNat ++ ascii "." ++ decimal min.toNat ++ ascii "." ++ decimal bld.toNat ++
    ascii "\r\n"

/-- Class 1: the use of memory. -/
def memoryText (c : PageCounts) : List u8 :=
  ascii "Memory: Free=" ++ decimal (c.free * 4) ++ ascii " KB Used=" ++
    decimal ((c.total - c.free) * 4) ++ ascii " KB Total=" ++ decimal (c.total * 4) ++
    ascii " KB Pages=" ++ decimal (c.total - c.free) ++ ascii "/" ++ decimal c.total ++ ascii "\r\n"

def processLine (p : ProcessEntry) : List u8 :=
  p.name.take 28 ++ ascii " (" ++ decimal p.pid.toNat ++ ascii ")\n"

/-- Class 2: the processes, as long as 64 bytes are left. -/
def processText (maxlen : Nat) : List ProcessEntry → List u8 → List u8
  | [], out => out
  | p :: ps, out =>
    if out.length + 64 < maxlen then processText maxlen ps (out ++ processLine p) else out

def ntQuerySystemInformation (pages : PageCounts) (procs : List ProcessEntry) (m : Mem)
    (proc : Option u64) (cls buf len : u64) : Outcome :=
  match proc with
  | none => .returns 0 m []
  | some pml4 =>
    let maxlen := min len.toNat 256
    if cls = 2 then
      let out := processText maxlen procs []
      let ret := BitVec.ofNat 64 out.length
      if out.length < maxlen then .store m pml4 buf (out ++ [0]) ret else .store m pml4 buf out ret
    else if cls = 0 ∨ cls = 1 then
      let str := if cls = 0 then versionText m pml4 else memoryText pages
      let n := min str.length maxlen
      .store m pml4 buf (str.take n ++ [0]) (BitVec.ofNat 64 n)
    else .returns 0 m []

/-! ## `NtQueryDirectory` -/

/-- The files, under names that fit their fields. -/
structure Directory where
  files : FileSystem
  boot : ∀ f ∈ files.boot, f.name.length < 64
  node : ∀ i, (files.nodes i).name.length < 64

/-- The position in the buffer and the bytes that are stored before it. -/
structure Listing where
  pos : u64
  out : List u8

def Listing.put (w : Listing) (b : u8) : Listing := ⟨w.pos + 1#64, w.out ++ [b]⟩

/-- The loop over a name. -/
def putName (last : u64) : List u8 → Listing → Listing
  | [], w => w
  | c :: cs, w => if w.pos < last then putName last cs (w.put c) else w

def listBoot (last : u64) (w : Listing) (name : List u8) : Listing :=
  let w := putName last name w
  if w.pos < last then w.put 0 else w

/-- An entry for a writable node: a directory stands in brackets, and neither the closing
one nor the zero is kept from the end. -/
def listNode (last : u64) (w : Listing) (n : WNode) : Listing :=
  if w.pos ≥ last - 4#64 then w
  else
    let w := if n.isDir then (putName last n.name (w.put 0x5B#8)).put 0x5D#8
      else putName last n.name w
    w.put 0

def Directory.usedNodes (d : Directory) : List WNode :=
  ((List.finRange WNODE_MAX).map d.files.nodes).filter WNode.used

def listDirectory (d : Directory) (buf last : u64) : Listing :=
  let w := (d.files.boot.map BootFile.name).foldl (listBoot last) ⟨buf, []⟩
  let w := d.usedNodes.foldl (listNode last) w
  if w.pos < last then w.put 0 else w

def ntQueryDirectory (d : Directory) (m : Mem) (proc : Option u64) (buf len : u64) : Outcome :=
  match proc with
  | none => .returns 0 m []
  | some pml4 =>
    let bufLen := if len > 2048#64 then 2048#64 else len
    let w := listDirectory d buf (buf + bufLen - 1#64)
    .store m pml4 buf w.out (w.pos - buf)

end MicroNT.FileIo
