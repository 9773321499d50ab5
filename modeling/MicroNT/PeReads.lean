import MicroNT.Base.Reads
import MicroNT.PeLoader

/-! # What the PE loader reads (`kernel/ldr/pe_loader.cpp`)

The functions of the loader once more, with each read through a file pointer on
record, in the order of the source, those of the log messages included. What they
do to memory is what the loader's model does. -/

namespace MicroNT.Kernel

open MicroNT.PMM hiding step Op System
open MicroNT.VMM MicroNT.Base.Radix MicroNT.Base.Reads

/-- `len` bytes of a file, from `off` on. -/
structure FileRange where
  file : Image
  off : Nat
  len : Nat

/-- Every byte of the range is in the file. -/
def FileRange.Inside (r : FileRange) : Prop := ∀ k, k < r.len → r.off + k < r.file.size

/-- A computation that reads files. -/
abbrev FileRead (α : Type) := Traced FileRange α

/-- The computation ends with `a`, and each of its reads is in the file. -/
abbrev InFile {α : Type} (x : FileRead α) (a : α) : Prop := x.Stays FileRange.Inside a

namespace FileReads

def readU8 (f : Image) (off : Nat) : FileRead u8 := .read ⟨f, off, 1⟩ (f.bytes off)

def readU16 (f : Image) (off : Nat) : FileRead u16 := .read ⟨f, off, 2⟩ (u16At f.bytes off)

def readU32 (f : Image) (off : Nat) : FileRead u32 := .read ⟨f, off, 4⟩ (u32At f.bytes off)

def readU64 (f : Image) (off : Nat) : FileRead u64 := .read ⟨f, off, 8⟩ (u64At f.bytes off)

/-! ## Strings -/

/-- What a `char*` points to: the name of a module, or a place in a file. -/
inductive Text
  | name (bytes : List u8)
  | file (f : Image) (off : Nat)

namespace Text

def byte : Text → Nat → u8
  | name l, k => l.getD k 0
  | file f off, k => f.bytes (off + k)

def read : Text → Nat → FileRead u8
  | name l, k => pure (l.getD k 0)
  | file f off, k => readU8 f (off + k)

end Text

/-- The comparison reads a byte of both strings in each round. -/
def streq (a b : Text) : Nat → Nat → FileRead Bool
  | 0, _ => .running
  | fuel + 1, k => do
    let x ← a.read k
    let y ← b.read k
    if x ≠ 0 ∧ x = y then streq a b fuel (k + 1) else pure (x == y)

/-- `%s` in a log message. -/
def printStr (s : Text) : Nat → Nat → FileRead Unit
  | 0, _ => .running
  | fuel + 1, k => do
    let x ← s.read k
    if x ≠ 0 then printStr s fuel (k + 1) else pure ()

/-! ## Modules -/

/-- `rva_to_off` from section header `s` on. -/
def rvaToOff (f : Image) (shdrs : Nat) (rva : u32) : Nat → Nat → FileRead u32
  | 0, _ => pure 0
  | n + 1, s => do
    let vRva ← readU32 f (shdrs + s * 40 + 12)
    let vSize ← readU32 f (shdrs + s * 40 + 8)
    let rawOff ← readU32 f (shdrs + s * 40 + 20)
    if rva ≥ vRva && rva < vRva + vSize then pure (rawOff + (rva - vRva))
    else rvaToOff f shdrs rva n (s + 1)

def findModule (fuel : Nat) (name : Text) : List Module → FileRead (Option Module)
  | [] => pure none
  | m :: ms => do
    if ← streq (.name m.name) name fuel 0 then pure (some m) else findModule fuel name ms

/-- The loop of `FindExport` over the names, from name `i` on. -/
def searchNames (fuel : Nat) (mod : Module) (func : Text) (lookup : u32 → FileRead u32)
    (fnOff nmOff orOff : u32) : Nat → Nat → FileRead u64
  | 0, _ => pure 0
  | n + 1, i => do
    let nameOff ← lookup (← readU32 mod.pe (nmOff.toNat + 4 * i))
    if nameOff = 0 then searchNames fuel mod func lookup fnOff nmOff orOff n (i + 1)
    else if ← streq (.file mod.pe nameOff.toNat) func fuel 0 then
      let ord ← readU16 mod.pe (orOff.toNat + 2 * i)
      let funcRva ← readU32 mod.pe (fnOff.toNat + 4 * ord.toNat)
      printStr func fuel 0
      pure (mod.imageBase + funcRva.setWidth 64)
    else searchNames fuel mod func lookup fnOff nmOff orOff n (i + 1)

def findExport (fuel : Nat) (mod : Module) (func : Text) : FileRead u64 := do
  let f := mod.pe
  let e ← readU32 f 60
  let opt := e.toNat + 4 + 20
  let expRva ← readU32 f (opt + 112)
  if expRva = 0 then pure 0
  else
    let numSects ← readU16 f (e.toNat + 4 + 2)
    let optSz ← readU16 f (e.toNat + 4 + 16)
    let lookup := fun rva => rvaToOff f (opt + optSz.toNat) rva numSects.toNat 0
    let ed ← lookup expRva
    if ed = 0 then pure 0
    else
      let numNames ← readU32 f (ed.toNat + 24)
      let fnRva ← readU32 f (ed.toNat + 28)
      let nmRva ← readU32 f (ed.toNat + 32)
      let orRva ← readU32 f (ed.toNat + 36)
      let fnOff ← lookup fnRva
      let nmOff ← lookup nmRva
      let orOff ← lookup orRva
      if fnOff = 0 ∨ nmOff = 0 ∨ orOff = 0 then pure 0
      else searchNames fuel mod func lookup fnOff nmOff orOff numNames.toNat 0

/-! ## Mapping -/

/-- A new page, filled from the file once it is there. -/
def mapFresh (s : Vmm) (pml4 virt flags : u64) (page : FileRead Table) : FileRead (Bool × Vmm) :=
  let r := allocPage s.pmm
  if r.1 = 0 then pure (false, { s with pmm := r.2 })
  else do
    let page ← page
    let q := mapPageInto { s with pmm := r.2, mem := fill s.mem r.1 page } pml4 virt r.1 flags
    if q.1 then pure (true, q.2) else pure (false, { q.2 with pmm := freePage q.2.pmm r.1 })

def headerPage (f : Image) : FileRead Table :=
  .read ⟨f, 0, min f.size PAGE_SIZE⟩ (Kernel.headerPage f)

/-- The number of bytes that page `pg` of a section gets from the file. -/
def sectionCopy (f : Image) (h : SectionHeader) (pg : Nat) : Nat :=
  let fileOff := h.rawOff.toNat + pg * PAGE_SIZE
  if h.rawOff ≠ 0 ∧ h.rawSize ≠ 0 ∧ fileOff < f.size then
    if fileOff ≥ (h.rawOff + h.rawSize).toNat then 0 else min PAGE_SIZE (f.size - fileOff)
  else 0

def sectionPage (f : Image) (h : SectionHeader) (pg : Nat) : FileRead Table :=
  .read ⟨f, h.rawOff.toNat + pg * PAGE_SIZE, sectionCopy f h pg⟩ (Kernel.sectionPage f h pg)

def mapPages (f : Image) (pml4 loadBase : u64) (h : SectionHeader) :
    Nat → Nat → Vmm → FileRead (Bool × Vmm)
  | 0, _, s => pure (true, s)
  | n + 1, pg, s => do
    let r ← mapFresh s pml4 (sectionVa loadBase h + pageAddr pg) (sectionPteFlags h.chars)
      (sectionPage f h pg)
    if r.1 then mapPages f pml4 loadBase h n (pg + 1) r.2 else pure (false, r.2)

def readHeader (f : Image) (sh : Nat) : FileRead SectionHeader := do
  let vSize ← readU32 f (sh + 8)
  let vRva ← readU32 f (sh + 12)
  let rawSize ← readU32 f (sh + 16)
  let rawOff ← readU32 f (sh + 20)
  let chars ← readU32 f (sh + 36)
  pure ⟨vSize, vRva, rawSize, rawOff, chars⟩

/-- The loop of `MapSections`, from section header `s` on. -/
def mapSectionList (f : Image) (pml4 loadBase : u64) (shdrs : Nat) :
    Nat → Nat → Vmm → FileRead (Bool × Vmm)
  | 0, _, v => pure (true, v)
  | n + 1, s, v => do
    let h ← readHeader f (shdrs + s * 40)
    if h.Mapped then
      -- the name of the section, for a message
      let _ ← readU64 f (shdrs + s * 40)
      let r ← mapPages f pml4 loadBase h (sectionPages h) 0 v
      if r.1 then mapSectionList f pml4 loadBase shdrs n (s + 1) r.2 else pure (false, r.2)
    else mapSectionList f pml4 loadBase shdrs n (s + 1) v

def mapSections (f : Image) (pml4 loadBase : u64) (s : Vmm) : FileRead (Bool × Vmm) := do
  let e ← readU32 f 60
  let numSects ← readU16 f (e.toNat + 4 + 2)
  let optSz ← readU16 f (e.toNat + 4 + 16)
  let r ← mapFresh s pml4 loadBase (userFlags false) (headerPage f)
  if r.1 then
    mapSectionList f pml4 loadBase (e.toNat + 4 + 20 + optSz.toNat) numSects.toNat 0 r.2
  else pure (false, r.2)

/-! ## Imports -/

/-- The loop over the slots of one DLL, whose name is `dll`. -/
def patchSlots (fuel : Nat) (f : Image) (mod : Module) (dll : Text) (lookup : u32 → FileRead u32)
    (pml4 loadBase : u64) (intOff iatRva : u32) : Nat → Nat → Vmm → FileRead (Status × Vmm)
  | 0, _, _ => .running
  | n + 1, slot, s => do
    let next := patchSlots fuel f mod dll lookup pml4 loadBase intOff iatRva n (slot + 1)
    let thunk ← readU64 f (intOff.toNat + (stride slot 8).toNat)
    if thunk = 0 then pure (.success, s)
    else if thunk >>> 63 ≠ 0 then next s
    else
      let ibnOff ← lookup (thunk.setWidth 32)
      if ibnOff = 0 then next s
      else
        let fname : Text := .file f (ibnOff.toNat + 2)
        let funcVa ← findExport fuel mod fname
        if funcVa = 0 then
          printStr fname fuel 0
          printStr dll fuel 0
          pure (.notFound, s)
        else
          let r := patchIatSlot s pml4 (loadBase + iatRva.setWidth 64 + (stride slot 8).setWidth 64)
            funcVa
          if r.1 then
            printStr fname fuel 0
            next r.2
          else pure (.insufficientResources, r.2)

/-- The loop over the import descriptors. -/
def resolveDescriptors (fuel : Nat) (f : Image) (mods : List Module) (lookup : u32 → FileRead u32)
    (pml4 loadBase : u64) (impOff : u32) : Nat → Nat → Vmm → FileRead (Status × Vmm)
  | 0, _, _ => .running
  | n + 1, idx, s => do
    let next := resolveDescriptors fuel f mods lookup pml4 loadBase impOff n (idx + 1)
    let d := impOff.toNat + (stride idx 20).toNat
    let intRva ← readU32 f d
    let dllRva ← readU32 f (d + 12)
    let iatRva ← readU32 f (d + 16)
    if dllRva = 0 ∧ iatRva = 0 then pure (.success, s)
    else
      let dllOff ← lookup dllRva
      if dllOff = 0 then next s
      else
        let dll : Text := .file f dllOff.toNat
        printStr dll fuel 0
        match ← findModule fuel dll mods with
        | none =>
          printStr dll fuel 0
          pure (.notFound, s)
        | some mod =>
          let intOff ← lookup (if intRva ≠ 0 then intRva else iatRva)
          if intOff = 0 then next s
          else
            let r ← patchSlots fuel f mod dll lookup pml4 loadBase intOff iatRva fuel 0 s
            if r.1 = .success then next r.2 else pure r

def resolveImports (fuel : Nat) (f : Image) (mods : List Module) (pml4 loadBase : u64) (s : Vmm) :
    FileRead (Status × Vmm) := do
  let e ← readU32 f 60
  let numSects ← readU16 f (e.toNat + 4 + 2)
  let optSz ← readU16 f (e.toNat + 4 + 16)
  let opt := e.toNat + 4 + 20
  let impRva ← readU32 f (opt + 112 + 8)
  if impRva = 0 then pure (.success, s)
  else
    let lookup := fun rva => rvaToOff f (opt + optSz.toNat) rva numSects.toNat 0
    let impOff ← lookup impRva
    if impOff = 0 then pure (.invalidImageFormat, s)
    else resolveDescriptors fuel f mods lookup pml4 loadBase impOff fuel 0 s

/-! ## Loading -/

/-- The checks on the headers, each made only if the ones before it hold: where the
optional header is. -/
def checkHeaders (f : Image) : FileRead (Option Nat) := do
  if (← readU8 f 0) ≠ 0x4D then pure none
  else if (← readU8 f 1) ≠ 0x5A then pure none
  else
    let e ← readU32 f 60
    if (← readU8 f e.toNat) ≠ 0x50 then pure none
    else if (← readU8 f (e + 1#32).toNat) ≠ 0x45 then pure none
    else if (← readU16 f (e.toNat + 4)) ≠ 0x8664#16 then pure none
    else
      let opt := e.toNat + 4 + 20
      if (← readU16 f opt) ≠ 0x020B#16 then pure none
      else pure (some opt)

/-- `LoadPe`: the status, the entry address if it succeeds, and the new state. -/
def loadPe (fuel : Nat) (l : Loader) (f : Image) (pml4 loadBase : u64) :
    FileRead (Status × Option u64 × Loader) :=
  if f.size < 64 then pure (.invalidParameter, none, l)
  else do
    match ← checkHeaders f with
    | none => pure (.invalidImageFormat, none, l)
    | some opt =>
      let entryRva ← readU32 f (opt + 16)
      -- the preferred base, for a message
      let _ ← readU64 f (opt + 24)
      let r ← mapSections f pml4 loadBase l.sys.vmm
      if !r.1 then pure (.insufficientResources, none, l.withVmm r.2)
      else
        let q ← resolveImports fuel f l.mods pml4 loadBase r.2
        if q.1 ≠ .success then pure (q.1, none, l.withVmm q.2)
        else
          pure (.success, some (loadBase + entryRva.setWidth 64),
            notifyImageLoaded (l.withVmm q.2) pml4 loadBase)

end FileReads

end MicroNT.Kernel
