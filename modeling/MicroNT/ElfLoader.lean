import Mathlib.Data.List.Pairwise
import MicroNT.PeLoader

/-! # Loading the kernel (`bootloader.cpp`, `elf64.h`)

`LoadElf` places the segments of the kernel's ELF file at their distance from the lowest
one, in pages that it first clears. It returns the address of the entry point there; the
address that `EfiMain` calls in the end is the first byte of the image. -/

namespace MicroNT.Uefi

open MicroNT.Kernel (u16At u32At u64At)

/-! ## The file -/

abbrev PT_LOAD : u32 := 1

/-- The fields of a program header that the loader reads, and where it is to run. -/
structure Elf64Phdr where
  type : u32
  offset : u64
  vaddr : u64
  paddr : u64
  filesz : u64
  memsz : u64
  deriving DecidableEq

def entryPoint (f : Nat → u8) : u64 := u64At f 24
def phoff (f : Nat → u8) : u64 := u64At f 32
def phentsize (f : Nat → u8) : u16 := u16At f 54
def phnum (f : Nat → u8) : u16 := u16At f 56

def phdrAt (f : Nat → u8) (i : Nat) : Elf64Phdr :=
  let off := (phoff f).toNat + 56 * i
  { type := u32At f off
    offset := u64At f (off + 8)
    vaddr := u64At f (off + 16)
    paddr := u64At f (off + 24)
    filesz := u64At f (off + 32)
    memsz := u64At f (off + 40) }

def phdrs (f : Nat → u8) : List Elf64Phdr := (List.range (phnum f).toNat).map (phdrAt f)

/-- The checks on the file header: magic, 64 bit, x86-64. -/
def ElfAccepted (f : Nat → u8) : Prop :=
  f 0 = 0x7F ∧ f 1 = 0x45 ∧ f 2 = 0x4C ∧ f 3 = 0x46 ∧ f 4 = 2 ∧ u16At f 18 = 62

instance (f : Nat → u8) : Decidable (ElfAccepted f) := by
  unfold ElfAccepted; infer_instance

/-! ## Memory -/

/-- Memory by its physical address. -/
abbrev Bytes := u64 → u8

def memset (m : Bytes) (dst : u64) (val : u8) : Nat → Bytes
  | 0 => m
  | len + 1 => memset (Function.update m dst val) (dst + 1) val len

def memcpy (m : Bytes) (dst : u64) (src : Nat → u8) : Nat → Bytes
  | 0 => m
  | len + 1 => memcpy (Function.update m dst (src 0)) (dst + 1) (fun k => src (k + 1)) len

/-- The firmware's `AllocatePages`: whether it grants an address, and what it grants when
any address will do. -/
structure PageAllocator where
  allocateAddress : u64 → u64 → Bool
  allocateAnyPages : u64 → Option u64

/-- The base that the loader gets for `pages` pages, or `none` for the panic. -/
def PageAllocator.grant (alloc : PageAllocator) (base pages : u64) : Option u64 :=
  if alloc.allocateAddress base pages then some base else alloc.allocateAnyPages pages

/-! ## `LoadElf` -/

/-- The first loop, on `loadBase` and `loadEnd`. -/
def extend (r : u64 × u64) (p : Elf64Phdr) : u64 × u64 :=
  if p.type ≠ PT_LOAD then r
  else
    (if p.paddr < r.1 then p.paddr else r.1,
      if p.paddr + p.memsz > r.2 then p.paddr + p.memsz else r.2)

def loadRange (f : Nat → u8) : u64 × u64 := (phdrs f).foldl extend (~~~0, 0)

def loadBase (f : Nat → u8) : u64 := alignDown (loadRange f).1 pageSize64

def loadEnd (f : Nat → u8) : u64 := alignDown ((loadRange f).2 + 0xFFF#64) pageSize64

def loadPages (f : Nat → u8) : u64 := (loadEnd f - loadBase f) / 4096#64

/-- The second loop, on the memory. -/
def copySegment (f : Nat → u8) (physBase : u64) (m : Bytes) (p : Elf64Phdr) : Bytes :=
  if p.type ≠ PT_LOAD ∨ p.filesz = 0 then m
  else
    memcpy m (physBase + (p.paddr - loadBase f)) (fun k => f (p.offset.toNat + k)) p.filesz.toNat

/-- What `LoadElf` leaves in memory and returns. -/
structure LoadedKernel where
  mem : Bytes
  outBase : u64
  outEnd : u64
  entry : u64

/-- `none` where it panics. -/
def loadElf (f : Nat → u8) (alloc : PageAllocator) (m : Bytes) : Option LoadedKernel :=
  if ¬ ElfAccepted f then none
  else if (loadRange f).1 = ~~~0 then none
  else
    (alloc.grant (loadBase f) (loadPages f)).map fun physBase =>
      { mem := (phdrs f).foldl (copySegment f physBase)
          (memset m physBase 0 (loadPages f * 4096#64).toNat)
        outBase := physBase
        outEnd := physBase + loadPages f * 4096#64
        entry := physBase + (entryPoint f - loadBase f) }

/-- The address that `EfiMain` calls: it takes `kernel_phys_base` for the entry, because the
linker puts `.text` first. -/
def calledEntry (k : LoadedKernel) : u64 :=
  let kernelPhysBase := k.outBase
  kernelPhysBase

/-! ## A well-formed file -/

/-- The segment occupies this physical address. -/
def Elf64Phdr.Holds (p : Elf64Phdr) (a : Nat) : Prop :=
  p.type = PT_LOAD ∧ p.paddr.toNat ≤ a ∧ a < p.paddr.toNat + p.memsz.toNat

structure WellFormedElf (f : Nat → u8) (size : Nat) : Prop where
  accepted : ElfAccepted f
  headers : phentsize f = 56 ∧ (phoff f).toNat + 56 * (phnum f).toNat ≤ size
  inFile : ∀ p ∈ phdrs f, p.type = PT_LOAD →
    p.filesz.toNat ≤ p.memsz.toNat ∧ p.offset.toNat + p.filesz.toNat ≤ size
  apart : (phdrs f).Pairwise fun p q => ∀ a, ¬ (p.Holds a ∧ q.Holds a)
  entry : ∃ p ∈ phdrs f, p.type = PT_LOAD ∧ p.vaddr.toNat ≤ (entryPoint f).toNat ∧
    (entryPoint f).toNat < p.vaddr.toNat + p.memsz.toNat

/-- Every segment ends before the last page of the 64-bit address space, so that rounding
its end up does not wrap. -/
def EndsBelow (f : Nat → u8) : Prop :=
  ∀ p ∈ phdrs f, p.type = PT_LOAD → p.paddr.toNat + p.memsz.toNat + 0xFFF < 2 ^ 64

/-! ## Copies -/

theorem memcpy_apply {m : Bytes} {dst a : u64} {src : Nat → u8} {len : Nat} (hlen : len ≤ 2 ^ 64) :
    memcpy m dst src len a = if (a - dst).toNat < len then src (a - dst).toNat else m a := by
  induction len generalizing m dst src with
  | zero => rfl
  | succ len ih =>
    rw [memcpy, ih (by omega)]
    by_cases first : a = dst
    · have wraps : ¬ (a - (dst + 1)).toNat < len := by bv_omega
      rw [if_neg wraps, first, Function.update_self, BitVec.sub_self]
      rfl
    · have next : (a - dst).toNat = (a - (dst + 1)).toNat + 1 := by bv_omega
      rw [next, Function.update_of_ne first]
      simp

theorem memset_eq (m : Bytes) (dst : u64) (val : u8) (len : Nat) :
    memset m dst val len = memcpy m dst (fun _ => val) len := by
  induction len generalizing m dst with
  | zero => rfl
  | succ len ih => rw [memset, memcpy, ih]

/-- The byte `a` of the segment's part in the file. -/
def Elf64Phdr.Copies (p : Elf64Phdr) (a : u64) : Prop :=
  p.type = PT_LOAD ∧ (a - p.paddr).toNat < p.filesz.toNat

theorem copySegment_apply (f : Nat → u8) (physBase a : u64) (m : Bytes) (p : Elf64Phdr) :
    (p.Copies a → copySegment f physBase m p (physBase + (a - loadBase f)) =
        f (p.offset.toNat + (a - p.paddr).toNat)) ∧
      (¬ p.Copies a → copySegment f physBase m p (physBase + (a - loadBase f)) =
        m (physBase + (a - loadBase f))) := by
  have distance : physBase + (a - loadBase f) - (physBase + (p.paddr - loadBase f)) = a - p.paddr := by
    bv_omega
  rw [copySegment, Elf64Phdr.Copies]
  split
  case isTrue skipped =>
    refine ⟨fun copies => ?_, fun _ => rfl⟩
    rcases skipped with other | empty
    · exact absurd copies.1 other
    · rw [empty] at copies
      exact absurd copies.2 (Nat.not_lt_zero _)
  case isFalse load =>
    rw [not_or, not_not] at load
    rw [memcpy_apply p.filesz.isLt.le, distance]
    exact ⟨fun copies => if_pos copies.2, fun others => if_neg fun inside => others ⟨load.1, inside⟩⟩

/-- A byte that no segment copies stays. -/
theorem foldl_copySegment (f : Nat → u8) (physBase a : u64) (ps : List Elf64Phdr)
    (others : ∀ p ∈ ps, ¬ p.Copies a) (m : Bytes) :
    ps.foldl (copySegment f physBase) m (physBase + (a - loadBase f)) =
      m (physBase + (a - loadBase f)) := by
  induction ps generalizing m with
  | nil => rfl
  | cons p ps ih =>
    obtain ⟨here, rest⟩ := List.forall_mem_cons.mp others
    rw [List.foldl_cons, ih rest, (copySegment_apply f physBase a m p).2 here]

/-! ## The range of the segments -/

/-- The range holds every segment, and ends where one of them does. -/
structure Spans (r : u64 × u64) (ps : List Elf64Phdr) : Prop where
  low : ∀ p ∈ ps, p.type = PT_LOAD → r.1.toNat ≤ p.paddr.toNat
  high : ∀ p ∈ ps, p.type = PT_LOAD → p.paddr.toNat + p.memsz.toNat ≤ r.2.toNat
  ends : r.2.toNat + 0xFFF < 2 ^ 64

theorem forall_snoc {P : Elf64Phdr → Prop} {ps : List Elf64Phdr} {p : Elf64Phdr}
    (all : ∀ q ∈ ps, P q) (last : P p) : ∀ q ∈ ps ++ [p], P q :=
  List.forall_mem_append.mpr ⟨all, List.forall_mem_singleton.mpr last⟩

theorem Spans.extend {r : u64 × u64} {ps : List Elf64Phdr} (h : Spans r ps) {p : Elf64Phdr}
    (below : p.type = PT_LOAD → p.paddr.toNat + p.memsz.toNat + 0xFFF < 2 ^ 64) :
    Spans (extend r p) (ps ++ [p]) := by
  rw [Uefi.extend]
  split
  case isTrue other =>
    exact ⟨forall_snoc h.low fun load => absurd load other,
      forall_snoc h.high fun load => absurd load other, h.ends⟩
  case isFalse load =>
    have fits := below (not_not.mp load)
    have stop : (p.paddr + p.memsz).toNat = p.paddr.toNat + p.memsz.toNat := by
      rw [BitVec.toNat_add, Nat.mod_eq_of_lt (by omega)]
    have low : (if p.paddr < r.1 then p.paddr else r.1).toNat ≤ r.1.toNat ∧
        (if p.paddr < r.1 then p.paddr else r.1).toNat ≤ p.paddr.toNat := by
      split <;> bv_omega
    have high : (if p.paddr + p.memsz > r.2 then p.paddr + p.memsz else r.2).toNat =
        max r.2.toNat (p.paddr.toNat + p.memsz.toNat) := by
      split <;> bv_omega
    refine ⟨forall_snoc (fun q hq load => low.1.trans (h.low q hq load)) fun _ => low.2,
      forall_snoc (fun q hq load => ?_) fun _ => ?_, ?_⟩
    · exact (h.high q hq load).trans ((le_max_left _ _).trans_eq high.symm)
    · exact (le_max_right _ _).trans_eq high.symm
    · show (if p.paddr + p.memsz > r.2 then p.paddr + p.memsz else r.2).toNat + _ < _
      rw [high]
      have ends := h.ends
      omega

theorem spans_loadRange {f : Nat → u8} (below : EndsBelow f) : Spans (loadRange f) (phdrs f) := by
  have fold (ps : List Elf64Phdr) (hps : ∀ p ∈ ps, p ∈ phdrs f) :
      Spans (ps.foldl extend (~~~0, 0)) ps := by
    induction ps using List.reverseRecOn with
    | nil =>
      exact ⟨fun _ hp => absurd hp List.not_mem_nil, fun _ hp => absurd hp List.not_mem_nil,
        by decide⟩
    | append_singleton ps p ih =>
      rw [List.foldl_append]
      exact (ih fun q hq => hps q (List.mem_append_left _ hq)).extend
        (below p (hps p (List.mem_append_right _ (List.mem_singleton_self p))))
  exact fold _ fun _ hp => hp

theorem wholePages {d : u64} (whole : d.toNat % 4096 = 0) :
    (d / 4096#64 * 4096#64).toNat = d.toNat := by
  have bound := d.isLt
  rw [BitVec.toNat_mul, BitVec.toNat_udiv, show (4096#64).toNat = 4096 from rfl,
    Nat.div_mul_cancel (Nat.dvd_of_mod_eq_zero whole), Nat.mod_eq_of_lt bound]

/-- The cleared pages hold every byte of a segment. -/
theorem inPages {f : Nat → u8} (below : EndsBelow f) {p : Elf64Phdr} (mem : p ∈ phdrs f) {a : u64}
    (holds : p.Holds a.toNat) : (a - loadBase f).toNat < (loadPages f * 4096#64).toNat := by
  obtain ⟨low, high, ends⟩ := spans_loadRange below
  obtain ⟨load, start, stop⟩ := holds
  have low := low p mem load
  have high := high p mem load
  have base : (loadBase f).toNat = (loadRange f).1.toNat / PAGE_SIZE * PAGE_SIZE := alignDown_toNat _
  have last : (loadEnd f).toNat = ((loadRange f).2.toNat + 0xFFF) / PAGE_SIZE * PAGE_SIZE := by
    have sum : ((loadRange f).2 + 0xFFF#64).toNat = (loadRange f).2.toNat + 0xFFF := by
      rw [BitVec.toNat_add]
      exact Nat.mod_eq_of_lt ends
    rw [loadEnd, alignDown_toNat, sum]
  have difference : (loadEnd f - loadBase f).toNat = (loadEnd f).toNat - (loadBase f).toNat := by
    simp only [PAGE_SIZE] at base last
    exact BitVec.toNat_sub_of_le (by rw [BitVec.le_def]; omega)
  have size : (loadPages f * 4096#64).toNat = (loadEnd f).toNat - (loadBase f).toNat := by
    rw [loadPages, wholePages, difference]
    rw [difference, base, last, ← Nat.sub_mul]
    exact Nat.mul_mod_left _ _
  have distance : (a - loadBase f).toNat = a.toNat - (loadBase f).toNat := by
    simp only [PAGE_SIZE] at base
    exact BitVec.toNat_sub_of_le (by rw [BitVec.le_def]; omega)
  simp only [PAGE_SIZE] at base last
  omega

/-! ## The loaded image -/

/-- **Every segment is in place**: its bytes of the file, then zeros. -/
def Placed (f : Nat → u8) (k : LoadedKernel) : Prop :=
  ∀ p ∈ phdrs f, p.type = PT_LOAD → ∀ o, o < p.memsz.toNat →
    k.mem (k.outBase + (p.paddr - loadBase f) + BitVec.ofNat 64 o) =
      if o < p.filesz.toNat then f (p.offset.toNat + o) else 0

section

variable {f : Nat → u8} {size : Nat}

theorem sub_add_shift (b p l o : u64) : b + (p - l) + o = b + (p + o - l) := by bv_omega

/-- Only the segment that holds a byte copies it. -/
theorem WellFormedElf.copies_holds (wf : WellFormedElf f size) (below : EndsBelow f) {p : Elf64Phdr}
    (mem : p ∈ phdrs f) {a : u64} (copies : p.Copies a) : p.Holds a.toNat := by
  obtain ⟨load, inside⟩ := copies
  have inFile := (wf.inFile p mem load).1
  have ends := below p mem load
  exact ⟨load, by bv_omega, by bv_omega⟩

theorem WellFormedElf.placed (wf : WellFormedElf f size) (below : EndsBelow f) (physBase : u64)
    (m : Bytes) {p : Elf64Phdr} (mem : p ∈ phdrs f) (load : p.type = PT_LOAD) {o : Nat}
    (ho : o < p.memsz.toNat) :
    (phdrs f).foldl (copySegment f physBase) (memset m physBase 0 (loadPages f * 4096#64).toNat)
        (physBase + (p.paddr - loadBase f) + BitVec.ofNat 64 o) =
      if o < p.filesz.toNat then f (p.offset.toNat + o) else 0 := by
  -- the byte at offset `o`, seen as the address the file gives it
  have ends := below p mem load
  have offset : (p.paddr + BitVec.ofNat 64 o - p.paddr).toNat = o := by
    rw [BitVec.add_comm, BitVec.add_sub_cancel, BitVec.toNat_ofNat, Nat.mod_eq_of_lt (by omega)]
  have holds : p.Holds (p.paddr + BitVec.ofNat 64 o).toNat := by
    rw [BitVec.toNat_add, BitVec.toNat_ofNat, Nat.mod_eq_of_lt (a := o) (by omega),
      Nat.mod_eq_of_lt (by omega)]
    exact ⟨load, Nat.le_add_right _ _, Nat.add_lt_add_left ho _⟩
  rw [sub_add_shift]
  generalize p.paddr + BitVec.ofNat 64 o = a at offset holds
  have others {q : Elf64Phdr} (hq : q ∈ phdrs f) (apart : ¬ q.Holds a.toNat) : ¬ q.Copies a :=
    fun copies => apart (wf.copies_holds below hq copies)
  have cleared : memset m physBase 0 (loadPages f * 4096#64).toNat
      (physBase + (a - loadBase f)) = 0 := by
    rw [memset_eq, memcpy_apply (BitVec.isLt _).le,
      BitVec.add_comm, BitVec.add_sub_cancel, if_pos (inPages below mem holds)]
  -- the headers before this one and after it copy other bytes
  have apart := wf.apart
  obtain ⟨before, after, split⟩ := List.append_of_mem mem
  rw [split, List.pairwise_append, List.pairwise_cons] at apart
  rw [split] at others ⊢
  rw [List.foldl_append, List.foldl_cons, foldl_copySegment f physBase a after fun q hq =>
    others (List.mem_append_right _ (List.mem_cons_of_mem _ hq)) fun h =>
      apart.2.1.1 q hq _ ⟨holds, h⟩]
  have first := foldl_copySegment f physBase a before (fun q hq =>
    others (List.mem_append_left _ hq) fun h =>
      apart.2.2 q hq p List.mem_cons_self _ ⟨h, holds⟩)
    (memset m physBase 0 (loadPages f * 4096#64).toNat)
  obtain ⟨copied, kept⟩ := copySegment_apply f physBase a
    (before.foldl (copySegment f physBase)
      (memset m physBase 0 (loadPages f * 4096#64).toNat)) p
  by_cases inside : o < p.filesz.toNat
  · rw [if_pos inside, copied ⟨load, by rw [offset]; exact inside⟩, offset]
  · rw [if_neg inside, kept fun copies => inside (by rw [← offset]; exact copies.2), first, cleared]

/-- There is something to load, and so `LoadElf` fails only for want of pages. -/
theorem WellFormedElf.loads (wf : WellFormedElf f size) (below : EndsBelow f) :
    (loadRange f).1 ≠ ~~~0 := by
  intro none
  obtain ⟨p, mem, load, low, high⟩ := wf.entry
  have least := (spans_loadRange below).low p mem load
  have ends := below p mem load
  rw [none] at least
  have top : (~~~0 : u64).toNat = 2 ^ 64 - 1 := by decide
  omega

/-- **Loading the kernel.** Every segment of a well-formed file is in place at its distance
from `loadBase`, the bytes beyond the file's part are zero, and `LoadElf` returns the entry
point there. `EfiMain` calls the first byte of the image, which is the entry point exactly if
the file's entry is `loadBase`. -/
theorem loadElf_placed (wf : WellFormedElf f size) (below : EndsBelow f) (alloc : PageAllocator)
    (m : Bytes) {physBase : u64} (granted : alloc.grant (loadBase f) (loadPages f) = some physBase) :
    ∃ k, loadElf f alloc m = some k ∧ k.outBase = physBase ∧ Placed f k ∧
      k.entry = physBase + (entryPoint f - loadBase f) ∧ calledEntry k = physBase ∧
      (calledEntry k = physBase + (entryPoint f - loadBase f) ↔ entryPoint f = loadBase f) := by
  rw [loadElf, if_neg (not_not_intro wf.accepted), if_neg (wf.loads below), granted, Option.map_some]
  refine ⟨_, rfl, rfl, fun p mem load o ho => wf.placed below physBase m mem load ho, rfl, rfl, ?_⟩
  show physBase = physBase + (entryPoint f - loadBase f) ↔ entryPoint f = loadBase f
  constructor <;> intro h <;> bv_omega

end

/-! ## Two files -/

/-- A file with these bytes and zeros elsewhere, behind the parts of the header that are
checked and the place of the program headers. -/
def elfFile (data : List (Nat × u8)) (off : Nat) : u8 :=
  (([(0, 0x7F), (1, 0x45), (2, 0x4C), (3, 0x46), (4, 2), (18, 62), (32, 64), (54, 56)] ++
    data).lookup off).getD 0

/-- The firmware that grants every request. -/
def granting : PageAllocator where
  allocateAddress _ _ := true
  allocateAnyPages _ := none

/-- One segment of 64 bytes at 1 MB, half of them in the file, with the entry at its byte 16. -/
def tinyElf : Nat → u8 :=
  elfFile [(24, 0x10), (26, 0x10), (56, 1), (64, 1), (72, 120), (82, 0x10), (90, 0x10), (96, 0x20),
    (104, 0x40), (136, 0xF4)]

theorem phdrs_tinyElf : phdrs tinyElf = [⟨PT_LOAD, 120, 0x100000, 0x100000, 0x20, 0x40⟩] := by
  decide

theorem wellFormed_tinyElf : WellFormedElf tinyElf 152 where
  accepted := by decide
  headers := by decide
  inFile := by
    rw [phdrs_tinyElf]
    decide
  apart := by
    rw [phdrs_tinyElf]
    exact List.pairwise_singleton _ _
  entry := by
    rw [phdrs_tinyElf]
    decide

theorem endsBelow_tinyElf : EndsBelow tinyElf := by
  rw [EndsBelow, phdrs_tinyElf]
  decide

theorem loadElf_placed_tiny :
    ∃ k, loadElf tinyElf granting (fun _ => 0xFF) = some k ∧ k.outBase = 0x100000 ∧
      Placed tinyElf k ∧ k.entry = 0x100000 + (entryPoint tinyElf - loadBase tinyElf) ∧
      calledEntry k = 0x100000 ∧
      (calledEntry k = 0x100000 + (entryPoint tinyElf - loadBase tinyElf) ↔
        entryPoint tinyElf = loadBase tinyElf) :=
  loadElf_placed wellFormed_tinyElf endsBelow_tinyElf granting (fun _ => 0xFF) (by decide)

/-- `EfiMain` does not call the entry point of this file. -/
theorem tinyElf_not_entered :
    WellFormedElf tinyElf 152 ∧ ∃ k, loadElf tinyElf granting (fun _ => 0xFF) = some k ∧
      k.entry = k.outBase + (entryPoint tinyElf - loadBase tinyElf) ∧
      calledEntry k ≠ k.outBase + (entryPoint tinyElf - loadBase tinyElf) := by
  refine ⟨wellFormed_tinyElf, ?_⟩
  have base : loadBase tinyElf = 0x100000 := by decide
  have granted : granting.grant (loadBase tinyElf) (loadPages tinyElf) = some 0x100000 := by decide
  rw [loadElf, if_neg (not_not_intro wellFormed_tinyElf.accepted),
    if_neg (wellFormed_tinyElf.loads endsBelow_tinyElf), granted, Option.map_some]
  refine ⟨_, rfl, rfl, ?_⟩
  show (0x100000 : u64) ≠ 0x100000 + (entryPoint tinyElf - loadBase tinyElf)
  decide

/-- Two segments of one page in the last two pages of the address space, both without bytes
in the file. -/
def topElf : Nat → u8 :=
  elfFile ([(25, 0xE0)] ++ (List.range 6).map (fun k => (26 + k, 0xFF)) ++ [(56, 2), (64, 1), (120, 1),
    (81, 0xE0), (89, 0xE0), (105, 0x10), (137, 0xF0), (145, 0xF0), (161, 0x10)] ++
    (List.range 6).flatMap fun k => [(82 + k, 0xFF), (90 + k, 0xFF), (138 + k, 0xFF), (146 + k, 0xFF)])

theorem phdrs_topElf : phdrs topElf =
    [⟨PT_LOAD, 0, 0xFFFFFFFFFFFFE000, 0xFFFFFFFFFFFFE000, 0, 0x1000⟩,
      ⟨PT_LOAD, 0, 0xFFFFFFFFFFFFF000, 0xFFFFFFFFFFFFF000, 0, 0x1000⟩] := by
  decide

theorem wellFormed_topElf : WellFormedElf topElf 176 where
  accepted := by decide
  headers := by decide
  inFile := by
    rw [phdrs_topElf]
    decide
  apart := by
    rw [phdrs_topElf]
    refine List.pairwise_pair.mpr fun a both => ?_
    obtain ⟨⟨-, -, stop⟩, -, start, -⟩ := both
    have next : (0xFFFFFFFFFFFFE000 : u64).toNat + (0x1000 : u64).toNat =
        (0xFFFFFFFFFFFFF000 : u64).toNat := by decide
    exact Nat.lt_irrefl a ((stop.trans_eq next).trans_le start)
  entry := by
    rw [phdrs_topElf]
    decide

/-- The end of the second segment wraps to 0, and its page is not cleared. -/
theorem topElf_not_cleared :
    WellFormedElf topElf 176 ∧
      ∃ k, loadElf topElf granting (fun _ => 0xFF) = some k ∧ ¬ Placed topElf k := by
  refine ⟨wellFormed_topElf, ?_⟩
  have granted : granting.grant (loadBase topElf) (loadPages topElf) =
      some 0xFFFFFFFFFFFFE000 := by decide
  rw [loadElf, if_neg (not_not_intro wellFormed_topElf.accepted), if_neg (by decide), granted,
    Option.map_some]
  refine ⟨_, rfl, fun placed => ?_⟩
  have mem : ⟨PT_LOAD, 0, 0xFFFFFFFFFFFFF000, 0xFFFFFFFFFFFFF000, 0, 0x1000⟩ ∈ phdrs topElf := by
    decide
  have zero := placed _ mem rfl 0 (by decide)
  have others : ∀ p ∈ phdrs topElf, p.filesz = 0 := by
    rw [phdrs_topElf]
    decide
  have kept (a : u64) := foldl_copySegment topElf 0xFFFFFFFFFFFFE000 a (phdrs topElf)
    fun p hp copies => Nat.not_lt_zero _ (others p hp ▸ copies.2)
  dsimp only at zero
  rw [sub_add_shift, kept, memset_eq, memcpy_apply (BitVec.isLt _).le, if_neg (by decide),
    if_neg (by decide)] at zero
  revert zero
  decide

end MicroNT.Uefi
