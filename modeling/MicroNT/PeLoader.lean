import MicroNT.UserAccess

/-! # The PE loader (`kernel/ldr/pe_loader.cpp`)

`LoadPe` maps the headers and sections of a file into an address space, patches
its import table and records the image in the PEB. The file is the byte at each
offset: the loader reads past the end as well, so only the size is bounded. A
loop that a malformed file never ends takes the number of rounds it may run. -/

namespace MicroNT.Kernel

open MicroNT.PMM hiding step Op System
open MicroNT.VMM MicroNT.Boot MicroNT.Base.Radix

inductive Status
  | success
  | insufficientResources
  | invalidImageFormat
  | invalidParameter
  | notFound
  deriving DecidableEq

/-! ## Files -/

structure Image where
  bytes : Nat → u8
  size : Nat

def u16At (f : Nat → u8) (off : Nat) : u16 := f (off + 1) ++ f off

def u32At (f : Nat → u8) (off : Nat) : u32 := u16At f (off + 2) ++ u16At f off

def u64At (f : Nat → u8) (off : Nat) : u64 := u32At f (off + 4) ++ u32At f off

/-- A page of memory that holds these bytes. -/
def pageOfBytes (f : Nat → u8) : Table := fun i => u64At f (8 * i.toNat)

/-- `e_lfanew`: where the signature is. -/
def peOff (f : Nat → u8) : Nat := (u32At f 60).toNat

/-- The second byte of the signature, at an index that is a sum of 32-bit words. -/
def peNext (f : Nat → u8) : Nat := (u32At f 60 + 1#32).toNat

/-- The optional header follows the signature and the COFF header. -/
def optOff (f : Nat → u8) : Nat := peOff f + 4 + 20

structure SectionHeader where
  vSize : u32
  vRva : u32
  rawSize : u32
  rawOff : u32
  chars : u32

def sectionAt (f : Nat → u8) (sh : Nat) : SectionHeader where
  vSize := u32At f (sh + 8)
  vRva := u32At f (sh + 12)
  rawSize := u32At f (sh + 16)
  rawOff := u32At f (sh + 20)
  chars := u32At f (sh + 36)

/-- The section headers, after an optional header of the size the file gives. -/
def sectionHeaders (f : Nat → u8) : List SectionHeader :=
  (List.range (u16At f (peOff f + 4 + 2)).toNat).map fun s =>
    sectionAt f (optOff f + (u16At f (peOff f + 4 + 16)).toNat + s * 40)

/-- `rva_to_off`, with the sums of 32-bit words. -/
def rvaToOff (f : Nat → u8) (rva : u32) : u32 :=
  match (sectionHeaders f).find? fun h => rva ≥ h.vRva && rva < h.vRva + h.vSize with
  | none => 0
  | some h => h.rawOff + (rva - h.vRva)

/-- The bytes from an offset on, as a string ends with its first zero. -/
def strAt (f : Nat → u8) (off : Nat) : Nat → u8 := fun k => f (off + k)

def streq : Nat → (Nat → u8) → (Nat → u8) → Bool
  | 0, _, _ => false
  | fuel + 1, a, b =>
    if a 0 ≠ 0 ∧ a 0 = b 0 then streq fuel (strAt a 1) (strAt b 1) else a 0 == b 0

/-! ## Modules -/

structure Module where
  name : List u8
  imageBase : u64
  pe : Image

abbrev MAX_MODULES : Nat := 64

/-- `RegisterModule` keeps 31 bytes of the name. -/
def registerModule (mods : List Module) (name : List u8) (base : u64) (pe : Image) : List Module :=
  if mods.length ≥ MAX_MODULES then mods else mods ++ [⟨name.take 31, base, pe⟩]

def findModule (fuel : Nat) (mods : List Module) (name : Nat → u8) : Option Module :=
  mods.find? fun m => streq fuel (fun k => m.name.getD k 0) name

/-- `FindExport`: the address of a named export, or 0. -/
def findExport (fuel : Nat) (mod : Module) (func : Nat → u8) : u64 :=
  let f := mod.pe.bytes
  let expRva := u32At f (optOff f + 112)
  if expRva = 0 then 0
  else
    let ed := rvaToOff f expRva
    if ed = 0 then 0
    else
      let fnOff := rvaToOff f (u32At f (ed.toNat + 28))
      let nmOff := rvaToOff f (u32At f (ed.toNat + 32))
      let orOff := rvaToOff f (u32At f (ed.toNat + 36))
      if fnOff = 0 ∨ nmOff = 0 ∨ orOff = 0 then 0
      else
        let nameOff (i : Nat) := rvaToOff f (u32At f (nmOff.toNat + 4 * i))
        match (List.range (u32At f (ed.toNat + 24)).toNat).find? fun i =>
          nameOff i ≠ 0 && streq fuel (strAt f (nameOff i).toNat) func with
        | none => 0
        | some i =>
          let ord := (u16At f (orOff.toNat + 2 * i)).toNat
          mod.imageBase + (u32At f (fnOff.toNat + 4 * ord)).setWidth 64

/-! ## Mapping -/

def sectionPteFlags (chars : u32) : u64 := userFlags (chars &&& 0x80000000#32 != 0#32)

/-- A new page with these contents, given back if it cannot be mapped. -/
def mapFresh (s : Vmm) (pml4 virt flags : u64) (page : Table) : Bool × Vmm :=
  let r := allocPage s.pmm
  if r.1 = 0 then (false, { s with pmm := r.2 })
  else
    let q := mapPageInto { s with pmm := r.2, mem := fill s.mem r.1 page } pml4 virt r.1 flags
    if q.1 then (true, q.2) else (false, { q.2 with pmm := freePage q.2.pmm r.1 })

/-- The headers of the file, up to one page. -/
def headerPage (f : Image) : Table :=
  pageOfBytes fun i => if i < min f.size PAGE_SIZE then f.bytes i else 0

/-- Page `pg` of a section: the file's bytes as far as they go. The end of the raw
data is a sum of 32-bit words. -/
def sectionPage (f : Image) (h : SectionHeader) (pg : Nat) : Table :=
  let fileOff := h.rawOff.toNat + pg * PAGE_SIZE
  let copy :=
    if h.rawOff ≠ 0 ∧ h.rawSize ≠ 0 ∧ fileOff < f.size then
      if fileOff ≥ (h.rawOff + h.rawSize).toNat then 0 else min PAGE_SIZE (f.size - fileOff)
    else 0
  pageOfBytes fun i => if i < copy then f.bytes (fileOff + i) else 0

/-- The pages of a section, computed modulo 2^32. -/
def sectionPages (h : SectionHeader) : Nat := ((h.vSize + 0xFFF#32) / 0x1000#32).toNat

def sectionVa (loadBase : u64) (h : SectionHeader) : u64 := loadBase + h.vRva.setWidth 64

/-- A section that `MapSections` does not skip. -/
def SectionHeader.Mapped (h : SectionHeader) : Prop := h.vSize ≠ 0 ∧ h.vRva ≠ 0

instance (h : SectionHeader) : Decidable h.Mapped := inferInstanceAs (Decidable (_ ∧ _))

def mapPages (f : Image) (pml4 loadBase : u64) (h : SectionHeader) : Nat → Nat → Vmm → Bool × Vmm
  | 0, _, s => (true, s)
  | n + 1, pg, s =>
    let r := mapFresh s pml4 (sectionVa loadBase h + pageAddr pg) (sectionPteFlags h.chars)
      (sectionPage f h pg)
    if r.1 then mapPages f pml4 loadBase h n (pg + 1) r.2 else (false, r.2)

def mapSectionList (f : Image) (pml4 loadBase : u64) : List SectionHeader → Vmm → Bool × Vmm
  | [], s => (true, s)
  | h :: hs, s =>
    if h.Mapped then
      let r := mapPages f pml4 loadBase h (sectionPages h) 0 s
      if r.1 then mapSectionList f pml4 loadBase hs r.2 else (false, r.2)
    else mapSectionList f pml4 loadBase hs s

/-- `MapSections`; it fails with STATUS_INSUFFICIENT_RESOURCES only. -/
def mapSections (f : Image) (pml4 loadBase : u64) (s : Vmm) : Bool × Vmm :=
  let r := mapFresh s pml4 loadBase (userFlags false) (headerPage f)
  if r.1 then mapSectionList f pml4 loadBase (sectionHeaders f.bytes) r.2 else (false, r.2)

/-! ## Imports -/

/-- Stores `n` bytes of `val`, from byte `i` on, at a physical address. -/
def writeBytes (phys val : u64) : Nat → Nat → Mem → Mem
  | 0, _, m => m
  | n + 1, i, m =>
    writeBytes phys val n (i + 1)
      (writeByte m (phys + BitVec.ofNat 64 i) ((val >>> (8 * i)).setWidth 8))

def writeU64 (m : Mem) (phys val : u64) : Mem := writeBytes phys val 8 0 m

/-- `PatchIATSlot` stores twice at the same address. -/
def patchIatSlot (s : Vmm) (pml4 iatVa funcVa : u64) : Bool × Vmm :=
  let phys := translateInPml4 s.mem pml4 iatVa
  if phys = 0 then (false, s)
  else
    let off := iatVa &&& 0xFFF#64
    (true, { s with mem := writeU64 (writeU64 s.mem (phys - off + off) funcVa) phys funcVa })

/-- The offset of a 32-bit counter times a size, modulo 2^32. -/
def stride (i size : Nat) : u32 := BitVec.ofNat 32 i * BitVec.ofNat 32 size

structure ImportDescriptor where
  intRva : u32
  dllRva : u32
  iatRva : u32

def importRva (f : Nat → u8) : u32 := u32At f (optOff f + 112 + 8)

def importAt (f : Nat → u8) (idx : Nat) : ImportDescriptor :=
  let d := (rvaToOff f (importRva f)).toNat + (stride idx 20).toNat
  { intRva := u32At f d, dllRva := u32At f (d + 12), iatRva := u32At f (d + 16) }

/-- The null terminator of the import table. -/
def ImportDescriptor.Last (d : ImportDescriptor) : Prop := d.dllRva = 0 ∧ d.iatRva = 0

instance (d : ImportDescriptor) : Decidable d.Last := inferInstanceAs (Decidable (_ ∧ _))

def ImportDescriptor.thunks (f : Nat → u8) (d : ImportDescriptor) : u32 :=
  rvaToOff f (if d.intRva ≠ 0 then d.intRva else d.iatRva)

def thunkAt (f : Nat → u8) (d : ImportDescriptor) (slot : Nat) : u64 :=
  u64At f ((d.thunks f).toNat + (stride slot 8).toNat)

def iatSlotVa (loadBase : u64) (d : ImportDescriptor) (slot : Nat) : u64 :=
  loadBase + d.iatRva.setWidth 64 + (stride slot 8).setWidth 64

/-- The loop over the slots of one DLL: `none` while it is still running. -/
def patchSlots (fuel : Nat) (f : Nat → u8) (mod : Module) (pml4 loadBase : u64)
    (d : ImportDescriptor) : Nat → Nat → Vmm → Option Status × Vmm
  | 0, _, s => (none, s)
  | n + 1, slot, s =>
    let thunk := thunkAt f d slot
    if thunk = 0 then (some .success, s)
    -- imports by ordinal are skipped
    else if thunk >>> 63 ≠ 0 then patchSlots fuel f mod pml4 loadBase d n (slot + 1) s
    else
      let ibnOff := rvaToOff f (thunk.setWidth 32)
      if ibnOff = 0 then patchSlots fuel f mod pml4 loadBase d n (slot + 1) s
      else
        let funcVa := findExport fuel mod (strAt f (ibnOff.toNat + 2))
        if funcVa = 0 then (some .notFound, s)
        else
          let r := patchIatSlot s pml4 (iatSlotVa loadBase d slot) funcVa
          if r.1 then patchSlots fuel f mod pml4 loadBase d n (slot + 1) r.2
          else (some .insufficientResources, r.2)

/-- The loop over the import descriptors. -/
def resolveDescriptors (fuel : Nat) (f : Nat → u8) (mods : List Module) (pml4 loadBase : u64) :
    Nat → Nat → Vmm → Option Status × Vmm
  | 0, _, s => (none, s)
  | n + 1, idx, s =>
    let d := importAt f idx
    if d.Last then (some .success, s)
    else
      let dllOff := rvaToOff f d.dllRva
      if dllOff = 0 then resolveDescriptors fuel f mods pml4 loadBase n (idx + 1) s
      else
        match findModule fuel mods (strAt f dllOff.toNat) with
        | none => (some .notFound, s)
        | some mod =>
          if d.thunks f = 0 then resolveDescriptors fuel f mods pml4 loadBase n (idx + 1) s
          else
            let r := patchSlots fuel f mod pml4 loadBase d fuel 0 s
            if r.1 = some .success then resolveDescriptors fuel f mods pml4 loadBase n (idx + 1) r.2
            else r

def resolveImports (fuel : Nat) (f : Nat → u8) (mods : List Module) (pml4 loadBase : u64)
    (s : Vmm) : Option Status × Vmm :=
  if importRva f = 0 then (some .success, s)
  else if rvaToOff f (importRva f) = 0 then (some .invalidImageFormat, s)
  else resolveDescriptors fuel f mods pml4 loadBase fuel 0 s

/-! ## Processes -/

abbrev PEB_VA : u64 := 0x7FFFE000000#64
abbrev LDR_VA : u64 := PEB_VA + 0x1000#64

structure KProcess where
  cr3 : u64
  pebVa : u64
  imageBase : u64

/-- The system with the loader's modules and the registered processes. -/
structure Loader where
  sys : System
  mods : List Module
  procs : List KProcess

def Loader.withVmm (l : Loader) (s : Vmm) : Loader := { l with sys := { l.sys with vmm := s } }

/-- One page of the process environment: mapped, and kept if that fails. -/
def setupPage (s : Vmm) (pml4 va : u64) (page : Table) : Bool × Vmm :=
  let r := allocPage s.pmm
  if r.1 = 0 then (false, { s with pmm := r.2 })
  else
    (true, (mapPageInto { s with pmm := r.2, mem := fill s.mem r.1 page } pml4 va r.1
      (userFlags true)).2)

/-- The pages of `SetupPeb` from page `k` on, which follow one another. -/
def setupPages (pml4 : u64) (pages : Nat → Table) : Nat → Nat → Vmm → Vmm
  | 0, _, s => s
  | n + 1, k, s =>
    let r := setupPage s pml4 (PEB_VA + pageAddr k) (pages k)
    if r.1 then setupPages pml4 pages n (k + 1) r.2 else r.2

/-- `SetupPeb`: the PEB, `PEB_LDR_DATA`, the process parameters and the heap, with
the contents that the four pages get. The PEB counts once its page is there. -/
def setupPeb (s : Vmm) (pml4 : u64) (pages : Nat → Table) : u64 × Vmm :=
  let r := setupPage s pml4 PEB_VA (pages 0)
  if r.1 then (PEB_VA, setupPages pml4 pages 3 1 r.2) else (0, r.2)

abbrev MAX_PROCESSES : Nat := 32

/-- `CreateProcess` with room in the kernel heap. -/
def createProcess (l : Loader) (cr3 : u64) (pages : Nat → Table) : Loader :=
  let r := setupPeb l.sys.vmm cr3 pages
  let l := l.withVmm r.2
  if l.procs.length < MAX_PROCESSES then { l with procs := l.procs ++ [⟨cr3, r.1, 0⟩] } else l

/-- Where `NotifyImageLoaded` stores the image base: in the PEB and in the
loader's entry for the image. -/
def notifySlots : List u64 := [PEB_VA + 0x10#64, LDR_VA + 0x80#64 + 0x30#64]

/-- Stores `val` at an address of the space, if it is mapped. -/
def storeAt (pml4 val : u64) (m : Mem) (va : u64) : Mem :=
  let phys := translateInPml4 m pml4 va
  if phys = 0 then m else writeU64 m phys val

def notifyImageLoaded (l : Loader) (cr3 imageBase : u64) : Loader :=
  match l.procs.findIdx? fun p => p.cr3 == cr3 && p.pebVa != 0 with
  | none => l
  | some i =>
    let s := l.sys.vmm
    { l.withVmm { s with mem := notifySlots.foldl (storeAt cr3 imageBase) s.mem } with
      procs := l.procs.modify i fun p => { p with imageBase := imageBase } }

/-! ## Loading -/

/-- The checks of `LoadPe` on the headers. -/
def Image.Accepted (f : Image) : Prop :=
  f.bytes 0 = 0x4D ∧ f.bytes 1 = 0x5A ∧ f.bytes (peOff f.bytes) = 0x50 ∧
    f.bytes (peNext f.bytes) = 0x45 ∧ u16At f.bytes (peOff f.bytes + 4) = 0x8664#16 ∧
    u16At f.bytes (optOff f.bytes) = 0x020B#16

instance (f : Image) : Decidable f.Accepted := inferInstanceAs (Decidable (_ ∧ _))

/-- `LoadPe`: the status, `none` while a loop is still running, the entry address
if it succeeds, and the new state. -/
def loadPe (fuel : Nat) (l : Loader) (f : Image) (pml4 loadBase : u64) :
    Option Status × Option u64 × Loader :=
  if f.size < 64 then (some .invalidParameter, none, l)
  else if ¬ f.Accepted then (some .invalidImageFormat, none, l)
  else
    let r := mapSections f pml4 loadBase l.sys.vmm
    if !r.1 then (some .insufficientResources, none, l.withVmm r.2)
    else
      let q := resolveImports fuel f.bytes l.mods pml4 loadBase r.2
      if q.1 ≠ some .success then (q.1, none, l.withVmm q.2)
      else
        (some .success, some (loadBase + (u32At f.bytes (optOff f.bytes + 16)).setWidth 64),
          notifyImageLoaded (l.withVmm q.2) pml4 loadBase)

def loadAndRegister (fuel : Nat) (l : Loader) (name : List u8) (f : Image) (pml4 loadBase : u64) :
    Loader :=
  let r := loadPe fuel l f pml4 loadBase
  if r.1 = some .success then
    { r.2.2 with mods := registerModule r.2.2.mods name loadBase f }
  else r.2.2

/-! ## Launching a program -/

/-- The ways to start a program from a file. -/
inductive Launcher
  | ntCreateProcess
  | winexec
  | bg
  deriving DecidableEq

/-- A library that the kernel carries, with the base it is loaded at. -/
structure Library where
  name : List u8
  image : Image
  base : u64

/-- The libraries each launcher loads first: `ntdll.dll` or `kernel32.dll`. -/
structure Libraries where
  ntdll : Library
  kernel32 : Library

def Libraries.of (libs : Libraries) : Launcher → List Library
  | .ntCreateProcess => [libs.ntdll]
  | .winexec => [libs.kernel32]
  | .bg => []

def preferredBase (f : Image) : u64 := u64At f.bytes (optOff f.bytes + 24)

/-- Where the program is loaded. `NtCreateProcess` reads the preferred base only
if the headers are in the file, with a sum of 32-bit words. -/
def Launcher.loadBase (k : Launcher) (f : Image) : u64 :=
  match k with
  | .ntCreateProcess =>
    let base :=
      if 64 ≤ f.size ∧ (u32At f.bytes 60 + 4#32 + 20#32 + 32#32).toNat ≤ f.size ∧
          f.bytes (peOff f.bytes) = 0x50 ∧ f.bytes (peNext f.bytes) = 0x45 then
        preferredBase f
      else 0
    if base = 0 then 0x500000000#64 else base
  | .winexec => preferredBase f
  | .bg => 0x500000000#64

/-- The file is there and long enough for the launcher. -/
def Launcher.Takes (k : Launcher) (f : Image) : Prop :=
  if k = .winexec then 64 ≤ f.size else f.size ≠ 0

instance (k : Launcher) (f : Image) : Decidable (k.Takes f) :=
  inferInstanceAs (Decidable (if k = .winexec then 64 ≤ f.size else f.size ≠ 0))

/-- A new address space; 0 when memory is short. -/
def newSpace (l : Loader) : u64 × Loader :=
  let r := createUserPml4 l.sys.vmm
  let spaces := if r.1 = 0 then l.sys.spaces else r.1 :: l.sys.spaces
  (r.1, { l with sys := { l.sys with vmm := r.2, spaces := spaces } })

def loadLibraries (fuel : Nat) (pml4 : u64) (l : Loader) (ds : List Library) : Loader :=
  ds.foldl (fun l d => loadAndRegister fuel l d.name d.image pml4 d.base) l

/-- What happens to a new address space before the program's own `LoadPe`: its
process is created and the libraries are loaded. -/
def prepare (fuel : Nat) (libs : Libraries) (pages : Nat → Table) (l : Loader) (k : Launcher)
    (pml4 : u64) : Loader :=
  loadLibraries fuel pml4 (createProcess l pml4 pages) (libs.of k)

def launch (fuel : Nat) (libs : Libraries) (pages : Nat → Table) (l : Loader) (k : Launcher)
    (f : Image) : Loader :=
  if k.Takes f then
    let r := newSpace l
    if r.1 = 0 then r.2
    else (loadPe fuel (prepare fuel libs pages r.2 k r.1) f r.1 (k.loadBase f)).2.2
  else l

/-- System calls on address spaces, and launches of a file. -/
inductive LoaderOp
  | op (op : Op)
  | launch (k : Launcher) (f : Image)

def stepLoader (fuel : Nat) (libs : Libraries) (pages : Nat → Table) (l : Loader) :
    LoaderOp → Option Loader
  | .op op => (step l.sys op).map fun t => { l with sys := t }
  | .launch k f => some (launch fuel libs pages l k f)

end MicroNT.Kernel
