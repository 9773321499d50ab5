import MicroNT.PeLoader

/-! # Memory and process system calls (`syscall.cpp`, `process.cpp`, `heap.cpp`)

The calls by which a process gets sections, memory, threads and child processes,
with what they keep: the kernel heap, the process and thread objects, the section
and process tables, and the ready queue. A call returns its value, or `none`
while a loop of the PE loader that never ends is still running. -/

namespace MicroNT.Kernel

open MicroNT.PMM hiding step Op System
open MicroNT.VMM MicroNT.Boot MicroNT.Base.Radix

/-! ## The kernel heap -/

/-- The static variables of `heap.cpp`. -/
structure KernelHeap where
  base : u64
  size : u64
  used : u64

/-- `KernelHeap::Alloc`: the heap afterwards, if there was room. -/
def KernelHeap.alloc (h : KernelHeap) (size align : u64) : Option KernelHeap :=
  let cur := alignUp (h.base + h.used) align - h.base
  if cur + size > h.size then none else some { h with used := cur + size }

/-- `sizeof(KProcess)` and `sizeof(KThread)`; both are aligned to 8 bytes. -/
abbrev KPROCESS_SIZE : u64 := 360#64
abbrev KTHREAD_SIZE : u64 := 168#64

/-! ## Objects -/

/-- Where the heap of every process starts. -/
abbrev HEAP_START : u64 := 0x500000000#64
abbrev HEAP_MAX : u64 := 0x580000000#64
abbrev TEB_BASE : u64 := 0x7FFFE100000#64

/-- The part of a `KProcess` that the calls read and write. -/
structure Process where
  pid : u32
  cr3 : u64
  userHeapCursor : u64
  pebVa : u64
  nextTebVa : u64
  threadCount : u32

structure Thread where
  tid : u32
  process : Nat
  kernelStackBase : u64
  tebVa : u64

abbrev MAX_SECTION_PAGES : Nat := 32
abbrev SECTION_SLOTS : Nat := 8
abbrev PROC_TABLE_SIZE : Nat := 8
abbrev PROC_HANDLE_BASE : u64 := 0x300#64

/-- A section has room for 32 pages. -/
structure KSection where
  phys : Nat → u64
  pageCount : Nat
  inUse : Bool
  bound : pageCount ≤ MAX_SECTION_PAGES

/-- The processes and threads are listed in the order of their creation. A section
handle or a process handle is an index of its table; the ready queue is the one of
`THREAD_PRIORITY_NORMAL`, which every new thread joins. -/
structure NtState where
  loader : Loader
  heap : KernelHeap
  processes : List Process
  threads : List Thread
  nextPid : u32
  nextTid : u32
  sections : Fin SECTION_SLOTS → KSection
  procTable : Fin PROC_TABLE_SIZE → Option Nat
  ready : List Nat

/-- What the boot image provides: the libraries that every launch loads, the
catalog of `LoadLibrary`, the address of `user_thread_entry`, and how many rounds a
loop of the PE loader is given. -/
structure Platform where
  fuel : Nat
  libs : Libraries
  catalog : List Library
  userThreadEntry : u64

namespace NtState

def vmm (k : NtState) : Vmm := k.loader.sys.vmm

def withVmm (k : NtState) (v : Vmm) : NtState := { k with loader := k.loader.withVmm v }

def updateProcess (k : NtState) (i : Nat) (f : Process → Process) : NtState :=
  { k with processes := k.processes.modify i f }

/-- `proc->UserHeapCursor += bytes`. -/
def bumpCursor (k : NtState) (i : Nat) (bytes : u64) : NtState :=
  k.updateProcess i fun p => { p with userHeapCursor := p.userHeapCursor + bytes }

end NtState

/-! ## Pages for a process -/

/-- The loop that maps new zeroed pages from `va` on: `NtAllocateVirtualMemory` and
the stacks of `NtCreateThread` and `NtCreateProcess`. -/
def mapZeroed (pml4 va : u64) : Nat → Nat → Vmm → Bool × Vmm
  | 0, _, s => (true, s)
  | n + 1, i, s =>
    let r := allocPage s.pmm
    if r.1 = 0 then (false, { s with pmm := r.2 })
    else
      let q := mapPageInto { s with pmm := r.2, mem := fill s.mem r.1 fun _ => 0 } pml4
        (va + pageAddr i) r.1 (userFlags true)
      if q.1 then mapZeroed pml4 va n (i + 1) q.2 else (false, q.2)

abbrev STACK_PAGES : Nat := 4
abbrev STACK_SIZE : u64 := 0x4000#64

/-- The stack loop of the shell's launchers: it stops when memory is short, and a
page that cannot be mapped is passed over. -/
def mapStack (pml4 stk : u64) : Nat → Nat → Vmm → Vmm
  | 0, _, s => s
  | n + 1, i, s =>
    let r := setupPage s pml4 (stk + pageAddr i) fun _ => 0
    if r.1 then mapStack pml4 stk n (i + 1) r.2 else r.2

/-- `size + PAGE_SIZE - 1`, in pages. -/
def pagesOf (size : u64) : u64 := (size + (pageSize64 - 1#64)) / pageSize64

/-- The length of `n` pages, modulo 2^64. -/
def pagesLength (n : u64) : u64 := n * pageSize64

/-! ## Threads -/

abbrev USER_CS : u64 := 0x23#64
abbrev USER_SS : u64 := 0x1B#64
abbrev USER_FLAGS : u64 := 0x202#64

/-- The further pages of `AllocStack`, hoped to follow the first. -/
def allocStackRest : Nat → Pmm → Bool × Pmm
  | 0, s => (true, s)
  | n + 1, s =>
    let r := allocPage s
    if r.1 = 0 then (false, r.2) else allocStackRest n r.2

/-- `AllocStack` of 16 KB: the first page is the base. -/
def allocStack (s : Pmm) : u64 × Pmm :=
  let r := allocPage s
  if r.1 = 0 then r
  else
    let q := allocStackRest 3 r.2
    (if q.1 then r.1 else 0, q.2)

/-- The slots of a new thread's kernel stack, from the top: the IRETQ frame, the
argument, the return address and six saved registers. -/
def stackSlots (plat : Platform) (entry stackVa arg : u64) : List u64 :=
  [USER_SS, stackVa, USER_FLAGS, USER_CS, entry, arg, plat.userThreadEntry, 0, 0, 0, 0, 0, 0]

/-- `StackPoke` of these values, with the first in slot `slot`. -/
def pokeStack (top : u64) : Nat → List u64 → Mem → Mem
  | _, [], m => m
  | slot, v :: vs, m =>
    pokeStack top (slot + 1) vs (writeU64 m (top - BitVec.ofNat 64 (8 * slot)) v)

/-- The TEB of a thread. -/
def tebPage (p : Process) (tid : u32) (tebVa stackTop : u64) : Table := fun i =>
  if i = 1#9 then stackTop
  else if i = 6#9 then tebVa
  else if i = 8#9 then p.pid.setWidth 64
  else if i = 9#9 then tid.setWidth 64
  else if i = 11#9 then tebVa + 0x800#64
  else if i = 12#9 then p.pebVa
  else 0

/-- `SetupTeb`, in process `i`, whose object is `p`. -/
def setupTeb (k : NtState) (i : Nat) (p : Process) (tid : u32) (stackTop : u64) : u64 × NtState :=
  if p.cr3 = 0 ∨ p.pebVa = 0 then (0, k)
  else
    let tebVa := p.nextTebVa
    let k := k.updateProcess i fun p => { p with nextTebVa := p.nextTebVa + 0x2000#64 }
    let r := setupPage k.vmm p.cr3 tebVa (tebPage p tid tebVa stackTop)
    (if r.1 then tebVa else 0, k.withVmm r.2)

/-- `AllocStack` and the frame on the new stack: its base, or 0. -/
def kernelStack (plat : Platform) (k : NtState) (entry stackVa arg : u64) : u64 × NtState :=
  let r := allocStack k.vmm.pmm
  let v := { k.vmm with pmm := r.2 }
  if r.1 = 0 then (0, k.withVmm v)
  else
    let m := pokeStack (r.1 + STACK_SIZE) 1 (stackSlots plat entry stackVa arg) v.mem
    (r.1, k.withVmm { v with mem := m })

/-- A `KThread` in process `i`, with a number, a kernel stack and a TEB. -/
def newThread (k : NtState) (i : Nat) (p : Process) (stackBase stackVa : u64) :
    Option Nat × NtState :=
  let tid := k.nextTid
  let k := { k with nextTid := k.nextTid + 1#32 }
  let k := k.updateProcess i fun p => { p with threadCount := p.threadCount + 1#32 }
  let q := setupTeb k i p tid stackVa
  (some q.2.threads.length, { q.2 with threads := q.2.threads ++ [⟨tid, i, stackBase, q.1⟩] })

/-- `CreateUserThread` in process `i`: the new thread's index, if there is one. -/
def createUserThread (plat : Platform) (k : NtState) (i : Nat) (p : Process)
    (entry stackVa arg : u64) : Option Nat × NtState :=
  let r := kernelStack plat k entry stackVa arg
  if r.1 = 0 then (none, r.2)
  else
    match r.2.heap.alloc KTHREAD_SIZE 8#64 with
    | none => (none, r.2)
    | some heap => newThread { r.2 with heap := heap } i p r.1 stackVa

/-- `Sched::AddThread`. -/
def addThread (k : NtState) (t : Nat) : NtState := { k with ready := k.ready ++ [t] }

/-! ## Sections -/

/-- The loop that fills a section from page `j` on, with the contents given. -/
def fillSection (content : Nat → Table) : Nat → Nat → (Nat → u64) → Vmm → Bool × (Nat → u64) × Vmm
  | 0, _, phys, s => (true, phys, s)
  | n + 1, j, phys, s =>
    let r := allocPage s.pmm
    if r.1 = 0 then (false, phys, { s with pmm := r.2 })
    else
      fillSection content n (j + 1) (Function.update phys j r.1)
        { s with pmm := r.2, mem := fill s.mem r.1 (content j) }

def freeSection (k : NtState) : Option (Fin SECTION_SLOTS) :=
  (List.finRange SECTION_SLOTS).find? fun i => !(k.sections i).inUse

/-- A section of `size` bytes with these pages: its handle, or 0. -/
def createSection (k : NtState) (size : u64) (content : Nat → Table) : u64 × NtState :=
  if h : size = 0 ∨ (pagesOf size).toNat > MAX_SECTION_PAGES then (0, k)
  else
    match freeSection k with
    | none => (0, k)
    | some i =>
      let r := fillSection content (pagesOf size).toNat 0 (k.sections i).phys k.vmm
      let sec : KSection := ⟨r.2.1, (pagesOf size).toNat, r.1, by omega⟩
      (if r.1 then BitVec.ofNat 64 (i.val + 1) else 0,
        { k.withVmm r.2.2 with sections := Function.update k.sections i sec })

def ntCreateSection (k : NtState) (size : u64) : u64 × NtState :=
  createSection k size fun _ _ => 0

/-- Page `j` of a file, with zeros after its end. -/
def filePage (f : Image) (j : Nat) : Table :=
  pageOfBytes fun b => if j * PAGE_SIZE + b < f.size then f.bytes (j * PAGE_SIZE + b) else 0

def createSectionFromData (k : NtState) (f : Image) : u64 × NtState :=
  createSection k (BitVec.ofNat 64 f.size) (filePage f)

/-- `NtCreateFileSection` on the file that the name finds. -/
def ntCreateFileSection (k : NtState) : Option Image → u64 × NtState
  | none => (0, k)
  | some f => if f.size = 0 then (0, k) else createSectionFromData k f

/-- The pages of a section that are left to map, from page `i` on. -/
def mapViewPages (pml4 va : u64) (phys : Nat → u64) : Nat → Nat → Vmm → Bool × Vmm
  | 0, _, s => (true, s)
  | n + 1, i, s =>
    let q := mapPageInto s pml4 (va + pageAddr i) (phys i) (userFlags true)
    if q.1 then mapViewPages pml4 va phys n (i + 1) q.2 else (false, q.2)

/-- The section of a handle, if there is one. -/
def sectionOf (k : NtState) (handle : u64) : Option KSection :=
  if h : handle.toNat ≠ 0 ∧ handle.toNat ≤ SECTION_SLOTS then
    let sec := k.sections ⟨handle.toNat - 1, by omega⟩
    if sec.inUse then some sec else none
  else none

/-! ## The system calls

Process `i` is the one whose thread makes the call. -/

def ntAllocVm (k : NtState) (i : Nat) (size : u64) : u64 × NtState :=
  if size = 0 then (0, k)
  else
    let length := pagesLength (pagesOf size)
    match k.processes[i]? with
    | none => (0, k)
    | some p =>
      let va := p.userHeapCursor
      if va + length > HEAP_MAX then (0, k)
      else
        let k := k.bumpCursor i length
        let r := mapZeroed p.cr3 va (pagesOf size).toNat 0 k.vmm
        (if r.1 then va else 0, k.withVmm r.2)

def ntMapView (k : NtState) (i : Nat) (handle : u64) : u64 × NtState :=
  match sectionOf k handle, k.processes[i]? with
  | some sec, some p =>
    let length := pagesLength (BitVec.ofNat 64 sec.pageCount)
    let va := p.userHeapCursor
    if va + length > HEAP_MAX then (0, k)
    else
      let k := k.bumpCursor i length
      let r := mapViewPages p.cr3 va sec.phys sec.pageCount 0 k.vmm
      (if r.1 then va else 0, k.withVmm r.2)
  | _, _ => (0, k)

/-- `NtCreateThread` returns the new thread's number. -/
def ntCreateThread (plat : Platform) (k : NtState) (i : Nat) (entry arg : u64) : u64 × NtState :=
  match k.processes[i]? with
  | none => (0, k)
  | some p =>
    let va := p.userHeapCursor
    if va + STACK_SIZE > HEAP_MAX then (0, k)
    else
      let k := k.bumpCursor i STACK_SIZE
      let r := mapZeroed p.cr3 va STACK_PAGES 0 k.vmm
      let k := k.withVmm r.2
      if !r.1 then (0, k)
      else
        let tid := k.nextTid
        match createUserThread plat k i p entry (va + STACK_SIZE) arg with
        | (none, k) => (0, k)
        | (some t, k) => (tid.setWidth 64, addThread k t)

/-! ## Child processes -/

/-- `PS::CreateProcess`: the new object's index, if the kernel heap has room. -/
def psCreateProcess (k : NtState) (cr3 : u64) (pages : Nat → Table) : Option Nat × NtState :=
  match k.heap.alloc KPROCESS_SIZE 8#64 with
  | none => (none, k)
  | some heap =>
    let peb := (setupPeb k.vmm cr3 pages).1
    let p : Process :=
      { pid := k.nextPid, cr3 := cr3, userHeapCursor := HEAP_START, pebVa := peb
        nextTebVa := if peb = 0 then 0 else TEB_BASE, threadCount := 0 }
    (some k.processes.length,
      { k with
        heap := heap
        nextPid := k.nextPid + 1#32
        loader := createProcess k.loader cr3 pages
        processes := k.processes ++ [p] })

/-- Whether the loading of these libraries ends. -/
def loadsEnd (fuel : Nat) (pml4 : u64) : Loader → List Library → Bool
  | _, [] => true
  | l, d :: ds =>
    decide ((loadPe fuel l d.image pml4 d.base).1 ≠ none) &&
      loadsEnd fuel pml4 (loadAndRegister fuel l d.name d.image pml4 d.base) ds

/-- What a launcher has done once the program's `LoadPe` is over. -/
inductive Launched
  | failed
  | running
  | process (i : Nat) (cr3 : u64) (status : Status) (entry : Option u64)

/-- The common start of the launchers: a new address space, its process, the
launcher's libraries and the program. -/
def launchImage (plat : Platform) (k : NtState) (kind : Launcher) (f : Image)
    (pages : Nat → Table) : Launched × NtState :=
  let r := newSpace k.loader
  let k := { k with loader := r.2 }
  if r.1 = 0 then (.failed, k)
  else
    match psCreateProcess k r.1 pages with
    | (none, k) => (.failed, k)
    | (some i, k) =>
      let libs := plat.libs.of kind
      let ends := loadsEnd plat.fuel r.1 k.loader libs
      let l := loadLibraries plat.fuel r.1 k.loader libs
      if !ends then (.running, { k with loader := l })
      else
        let q := loadPe plat.fuel l f r.1 (kind.loadBase f)
        let k := { k with loader := q.2.2 }
        match q.1 with
        | none => (.running, k)
        | some status => (.process i r.1 status q.2.1, k)

/-- How far above its base the program's stack lies. -/
def Launcher.stackOffset : Launcher → u64
  | .winexec => 0x1000000#64
  | _ => 0x100000#64

def freeProcSlot (k : NtState) : Option (Fin PROC_TABLE_SIZE) :=
  (List.finRange PROC_TABLE_SIZE).find? fun i => (k.procTable i).isNone

/-- `CreateUserThread` for a new process; the thread becomes ready. -/
def startThread (plat : Platform) (k : NtState) (i : Nat) (entry stackTop : u64) : Bool × NtState :=
  match k.processes[i]? with
  | none => (false, k)
  | some p =>
    match createUserThread plat k i p entry stackTop 0 with
    | (none, k) => (false, k)
    | (some t, k) => (true, addThread k t)

/-- The end of `NtCreateProcess`: stack, thread and handle. -/
def finishProcess (plat : Platform) (k : NtState) (i : Nat) (cr3 entry stackBase : u64) :
    u64 × NtState :=
  let r := mapZeroed cr3 stackBase STACK_PAGES 0 k.vmm
  let k := k.withVmm r.2
  if !r.1 then (0, k)
  else
    let q := startThread plat k i entry (stackBase + STACK_SIZE)
    if !q.1 then (0, q.2)
    else
      match freeProcSlot q.2 with
      | none => (0, q.2)
      | some j =>
        (PROC_HANDLE_BASE + BitVec.ofNat 64 j.val,
          { q.2 with procTable := Function.update q.2.procTable j (some i) })

/-- `NtCreateProcess` on the file that the name finds. -/
def ntCreateProcess (plat : Platform) (k : NtState) (file : Option Image) (pages : Nat → Table) :
    Option u64 × NtState :=
  match file with
  | none => (some 0, k)
  | some f =>
    if f.size = 0 then (some 0, k)
    else
      match launchImage plat k .ntCreateProcess f pages with
      | (.failed, k) => (some 0, k)
      | (.running, k) => (none, k)
      | (.process i cr3 status entry, k) =>
        match status, entry with
        | .success, some entry =>
          let base := Launcher.ntCreateProcess.loadBase f
          let r := finishProcess plat k i cr3 entry (base + Launcher.ntCreateProcess.stackOffset)
          (some r.1, r.2)
        | _, _ => (some 0, k)

/-- The shell's `bg` and `winexec`, which go on only with an entry address. -/
def shellLaunch (plat : Platform) (k : NtState) (kind : Launcher) (f : Image)
    (pages : Nat → Table) : Option u64 × NtState :=
  if kind.Takes f then
    match launchImage plat k kind f pages with
    | (.failed, k) => (some 0, k)
    | (.running, k) => (none, k)
    | (.process i cr3 _ entry, k) =>
      match entry with
      | none => (some 0, k)
      | some entry =>
        if entry = 0 then (some 0, k)
        else
          let stk := kind.loadBase f + kind.stackOffset
          let k := k.withVmm (mapStack cr3 stk STACK_PAGES 0 k.vmm)
          (some 0, (startThread plat k i entry (stk + STACK_SIZE)).2)
  else (some 0, k)

/-- `LDR::LoadLibrary`: the base of a registered module, or of a library that the
catalog provides. -/
def loadLibrary (plat : Platform) (l : Loader) (name : List u8) (pml4 : u64) :
    Option u64 × Loader :=
  let cstr (n : List u8) : Nat → u8 := fun k => n.getD k 0
  match findModule plat.fuel l.mods (cstr name) with
  | some mod => (some mod.imageBase, l)
  | none =>
    match plat.catalog.find? fun d => streq plat.fuel (cstr d.name) (cstr name) with
    | none => (some 0, l)
    | some d =>
      let r := loadPe plat.fuel l d.image pml4 d.base
      let l := loadAndRegister plat.fuel l name d.image pml4 d.base
      (r.1.map fun status => if status = .success then d.base else 0, l)

def ntLoadLibrary (plat : Platform) (k : NtState) (i : Nat) (name : List u8) :
    Option u64 × NtState :=
  match k.processes[i]? with
  | none => (some 0, k)
  | some p =>
    let r := loadLibrary plat k.loader name p.cr3
    (r.1, { k with loader := r.2 })

/-! ## Calls -/

/-- The calls, with the file that a name was found to be and the contents that the
pages of a new process get. -/
inductive MemoryCall
  | ntCreateSection (size : u64)
  | ntCreateFileSection (file : Option Image)
  | ntAllocVm (size : u64)
  | ntCreateThread (entry arg : u64)
  | ntMapView (handle : u64)
  | ntCreateProcess (file : Option Image) (pages : Nat → Table)
  | bg (file : Image) (pages : Nat → Table)
  | winexec (file : Image) (pages : Nat → Table)
  | ntLoadLibrary (name : List u8)

/-- Process `i` makes a call. -/
def call (plat : Platform) (k : NtState) (i : Nat) : MemoryCall → Option u64 × NtState
  | .ntCreateSection size => Prod.map some id (ntCreateSection k size)
  | .ntCreateFileSection file => Prod.map some id (ntCreateFileSection k file)
  | .ntAllocVm size => Prod.map some id (ntAllocVm k i size)
  | .ntCreateThread entry arg => Prod.map some id (ntCreateThread plat k i entry arg)
  | .ntMapView handle => Prod.map some id (ntMapView k i handle)
  | .ntCreateProcess file pages => ntCreateProcess plat k file pages
  | .bg file pages => shellLaunch plat k .bg file pages
  | .winexec file pages => shellLaunch plat k .winexec file pages
  | .ntLoadLibrary name => ntLoadLibrary plat k i name

end MicroNT.Kernel
