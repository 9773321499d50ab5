import Mathlib.Data.List.Pairwise
import MicroNT.PeLoader
import MicroNT.PhysicalMemoryRuns

/-! # The memory map at boot (`bootloader.cpp`, `bootinfo.h`)

The loader copies the firmware's memory map into the boot information and then gives up
the boot services. If the firmware refuses because the map has changed, the loader asks
for the map again, into the same buffer and with the size of the first map. `PMM::Init`
reads what the last copy left. -/

namespace MicroNT.Uefi

open MicroNT.PMM
open MicroNT.Kernel (u32At u64At u16At)

/-! ## Descriptors -/

abbrev efiLoaderCode : u32 := 1
abbrev efiLoaderData : u32 := 2
abbrev efiBootServicesCode : u32 := 3
abbrev efiBootServicesData : u32 := 4
abbrev efiRuntimeServicesData : u32 := 6
abbrev efiConventionalMemory : u32 := 7
abbrev efiACPIReclaimMemory : u32 := 9
abbrev efiACPIMemoryNVS : u32 := 10
abbrev efiMemoryMappedIO : u32 := 11
abbrev efiMemoryMappedIOPortSpace : u32 := 12

/-- The fields of a descriptor that the loader reads. -/
structure EfiMemoryDescriptor where
  type : u32
  physicalStart : u64
  numberOfPages : u64
  deriving DecidableEq

def descriptorAt (buf : Nat → u8) (off : Nat) : EfiMemoryDescriptor where
  type := u32At buf off
  physicalStart := u64At buf (off + 8)
  numberOfPages := u64At buf (off + 24)

/-- The `switch` of `FillMemoryMap`. -/
def bootType (type : u32) : BootMemoryType :=
  if type = efiConventionalMemory ∨ type = efiBootServicesCode ∨ type = efiBootServicesData then
    .available
  else if type = efiLoaderCode ∨ type = efiLoaderData then .loader
  else if type = efiACPIReclaimMemory then .acpi
  else if type = efiACPIMemoryNVS then .nvs
  else if type = efiMemoryMappedIO ∨ type = efiMemoryMappedIOPortSpace then .mmio
  else .reserved

def EfiMemoryDescriptor.entry (d : EfiMemoryDescriptor) : BootMemoryEntry where
  base := d.physicalStart
  length := d.numberOfPages * 4096#64
  type := bootType d.type

abbrev BOOT_MEMORY_MAX : Nat := 256

/-- The descriptors that the loop of `FillMemoryMap` visits, from offset `p` on, if the
table has room for `n` more entries. -/
def visited (buf : Nat → u8) (mapSize descSize : Nat) : Nat → Nat → List EfiMemoryDescriptor
  | 0, _ => []
  | n + 1, p =>
    if p < mapSize then descriptorAt buf p :: visited buf mapSize descSize n (p + descSize) else []

def fillMemoryMap (buf : Nat → u8) (mapSize descSize : Nat) : List BootMemoryEntry :=
  (visited buf mapSize descSize BOOT_MEMORY_MAX 0).map EfiMemoryDescriptor.entry

/-! ## The firmware -/

namespace EfiMemoryDescriptor

/-- Where the descriptor's memory ends. -/
def stop (d : EfiMemoryDescriptor) : Nat := d.physicalStart.toNat + d.numberOfPages.toNat * PAGE_SIZE

/-- The whole page lies in the descriptor's memory. -/
def Covers (d : EfiMemoryDescriptor) (q : Nat) : Prop :=
  d.physicalStart.toNat ≤ q * PAGE_SIZE ∧ q * PAGE_SIZE + PAGE_SIZE ≤ d.stop

def Holds (d : EfiMemoryDescriptor) (a : Nat) : Prop := d.physicalStart.toNat ≤ a ∧ a < d.stop

def Apart (d e : EfiMemoryDescriptor) : Prop :=
  d.stop ≤ e.physicalStart.toNat ∨ e.stop ≤ d.physicalStart.toNat

/-- Memory that is free once the boot services are gone. -/
def Usable (d : EfiMemoryDescriptor) : Prop :=
  d.type = efiConventionalMemory ∨ d.type = efiBootServicesCode ∨ d.type = efiBootServicesData

instance (d : EfiMemoryDescriptor) (q : Nat) : Decidable (d.Covers q) := by
  unfold Covers; infer_instance

instance (d : EfiMemoryDescriptor) : Decidable d.Usable := by
  unfold Usable; infer_instance

/-- Byte `i` of the descriptor. -/
def byte (d : EfiMemoryDescriptor) (i : Nat) : u8 :=
  if i < 4 then (d.type >>> (8 * i)).setWidth 8
  else if 8 ≤ i ∧ i < 16 then (d.physicalStart >>> (8 * (i - 8))).setWidth 8
  else if 24 ≤ i ∧ i < 32 then (d.numberOfPages >>> (8 * (i - 24))).setWidth 8
  else 0

end EfiMemoryDescriptor

/-- What the loader allocates as `EfiLoaderData`: the kernel, the page tables, the boot
information and the boot files. -/
structure Block where
  base : Nat
  size : Nat

/-- The memory map at one moment, and the bytes that describe it: one descriptor every
`descSize` bytes. -/
structure MemoryMap (descSize : Nat) (blocks : List Block) where
  descriptors : List EfiMemoryDescriptor
  bytes : Nat → u8
  encodes : ∀ k, ∀ h : k < descriptors.length,
    descriptorAt bytes (k * descSize) = descriptors.get ⟨k, h⟩
  aligned : ∀ d ∈ descriptors, d.physicalStart.toNat % PAGE_SIZE = 0
  apart : descriptors.Pairwise EfiMemoryDescriptor.Apart
  loaderData : ∀ b ∈ blocks, ∀ a, b.base ≤ a → a < b.base + b.size →
    ∃ d ∈ descriptors, d.type = efiLoaderData ∧ d.Holds a

def MemoryMap.size {descSize : Nat} {blocks : List Block} (m : MemoryMap descSize blocks) : Nat :=
  m.descriptors.length * descSize

/-- What the firmware answers: `needed` when it is asked for the size, then the map and
whether it lets go at each attempt. -/
structure Firmware where
  descSize : Nat
  wide : 40 ≤ descSize
  blocks : List Block
  needed : Nat
  map : Nat → MemoryMap descSize blocks
  exits : Nat → Bool

/-- `GetMemoryMap` into a buffer of `size` bytes: what the buffer then holds and the size
returned. A map that does not fit leaves the buffer as it is. -/
def getMemoryMap {descSize : Nat} {blocks : List Block} (m : MemoryMap descSize blocks) (size : Nat)
    (buf : Nat → u8) : Bool × Nat × (Nat → u8) :=
  if m.size ≤ size then (true, m.size, fun i => if i < m.size then m.bytes i else buf i)
  else (false, m.size, buf)

/-! ## Step 7 of `EfiMain` -/

/-- The buffer `memMap` and the table in the boot information. -/
structure Handover where
  buf : Nat → u8
  entries : List BootMemoryEntry

/-- Another `GetMemoryMap` into the buffer, whose status is not looked at. -/
def refresh (fw : Firmware) (mapSize attempt : Nat) (s : Handover) : Handover :=
  let r := getMemoryMap (fw.map attempt) mapSize s.buf
  { buf := r.2.2, entries := fillMemoryMap r.2.2 r.2.1 fw.descSize }

/-- The loop around `ExitBootServices` with `n` attempts left: the attempt that succeeded,
or `none` for the panic after it. -/
def exitBootServices (fw : Firmware) (mapSize : Nat) : Nat → Nat → Handover → Option (Nat × Handover)
  | 0, _, _ => none
  | n + 1, attempt, s =>
    let s := if attempt > 0 then refresh fw mapSize attempt s else s
    if fw.exits attempt then some (attempt, s) else exitBootServices fw mapSize n (attempt + 1) s

/-- What the kernel is given, and the attempt that succeeded. `pool` is what the buffer's
memory held, and what lies behind it. -/
def handOver (fw : Firmware) (pool : Nat → u8) : Option (Nat × BootInfo) :=
  let r := getMemoryMap (fw.map 0) (fw.needed + 4 * fw.descSize) pool
  if !r.1 then none
  else
    (exitBootServices fw r.2.1 5 0
      { buf := r.2.2, entries := fillMemoryMap r.2.2 r.2.1 fw.descSize }).map fun t =>
        (t.1, { magic := BOOTINFO_MAGIC, memoryMap := t.2.entries })

/-! ## What the table holds -/

theorem descriptorAt_congr {f g : Nat → u8} {off : Nat} (h : ∀ i, i < 32 → f (off + i) = g (off + i)) :
    descriptorAt f off = descriptorAt g off := by
  have first := h 0 (by decide)
  simp only [Nat.add_zero] at first
  simp (disch := decide) only [descriptorAt, u64At, u32At, u16At, Nat.add_assoc, Nat.reduceAdd, h,
    first]

theorem bootType_available {type : u32} : bootType type = .available ↔
    type = efiConventionalMemory ∨ type = efiBootServicesCode ∨ type = efiBootServicesData := by
  by_cases usable : type = efiConventionalMemory ∨ type = efiBootServicesCode ∨
      type = efiBootServicesData
  · rw [bootType, if_pos usable, iff_true_left rfl]
    exact usable
  · rw [bootType, if_neg usable]
    refine iff_of_false ?_ usable
    split_ifs <;> intro h <;> cases h

theorem mem_visited {buf : Nat → u8} {size descSize n k : Nat} {d : EfiMemoryDescriptor}
    (h : d ∈ visited buf size descSize n (k * descSize)) :
    ∃ j, j * descSize < size ∧ d = descriptorAt buf (j * descSize) := by
  induction n generalizing k with
  | zero => cases h
  | succ n ih =>
    rw [visited] at h
    split at h
    case isTrue inside =>
      rcases List.mem_cons.mp h with rfl | h
      · exact ⟨k, inside, rfl⟩
      · rw [← Nat.succ_mul] at h
        exact ih h
    case isFalse => cases h

section

variable {descSize : Nat} {blocks : List Block} {m : MemoryMap descSize blocks}

/-- **A map that fits** is what the loop visits. -/
theorem MemoryMap.visited_mem (wide : 40 ≤ descSize) {size n : Nat} (fits : m.size ≤ size)
    {buf : Nat → u8} {d : EfiMemoryDescriptor}
    (h : d ∈ visited (getMemoryMap m size buf).2.2 m.size descSize n 0) : d ∈ m.descriptors := by
  rw [← Nat.zero_mul descSize] at h
  obtain ⟨j, inside, rfl⟩ := mem_visited h
  rw [MemoryMap.size] at inside
  have index : j < m.descriptors.length := Nat.lt_of_mul_lt_mul_right inside
  have last : j * descSize + descSize ≤ m.size := by
    rw [← Nat.succ_mul]
    exact Nat.mul_le_mul_right _ index
  rw [getMemoryMap, if_pos fits, descriptorAt_congr (g := m.bytes) fun i hi => if_pos (by omega),
    m.encodes j index]
  exact List.get_mem _ _

/-- A page that an aligned descriptor's entry offers lies in its memory. -/
theorem MemoryMap.offers_covers {d : EfiMemoryDescriptor} (mem : d ∈ m.descriptors) {q : Nat}
    (offers : d.entry.Offers q) : d.Usable ∧ d.Covers q := by
  have aligned := m.aligned d mem
  have start := d.physicalStart.isLt
  obtain ⟨low, high⟩ := offers.inside (e := d.entry) (by
    show d.physicalStart.toNat + 0xFFF < 2 ^ 64
    simp only [PAGE_SIZE] at aligned
    omega)
  have length : (d.numberOfPages * 4096#64).toNat ≤ d.numberOfPages.toNat * PAGE_SIZE := by
    rw [BitVec.toNat_mul]
    exact Nat.mod_le _ _
  exact ⟨bootType_available.mp offers.1, low, high.trans (Nat.add_le_add_left length _)⟩

/-- Two descriptors of one map that hold the same byte are the same. -/
theorem MemoryMap.unique {d e : EfiMemoryDescriptor} (hd : d ∈ m.descriptors)
    (he : e ∈ m.descriptors) {a : Nat} (inD : d.Holds a) (inE : e.Holds a) : d = e := by
  by_contra ne
  have symmetric : Std.Symm EfiMemoryDescriptor.Apart := ⟨fun _ _ => Or.symm⟩
  have apart : d.Apart e := m.apart.forall hd he ne
  obtain ⟨lowD, highD⟩ := inD
  obtain ⟨lowE, highE⟩ := inE
  rcases apart with apart | apart <;> omega

end

/-! ## The last map -/

/-- **What the kernel may allocate**, seen from the firmware's last map. -/
structure HandedOver (bmStart : u64) {descSize : Nat} {blocks : List Block}
    (last : MemoryMap descSize blocks) (bi : BootInfo) : Prop where
  usable : ∀ q, bitmapTest (init bmStart (some bi)).bitmap q = false →
    ∃ d ∈ last.descriptors, d.Usable ∧ d.Covers q
  loaderData : ∀ q, bitmapTest (init bmStart (some bi)).bitmap q = false → ∀ b ∈ blocks,
    b.base + b.size ≤ q * PAGE_SIZE ∨ q * PAGE_SIZE + PAGE_SIZE ≤ b.base ∨ b.size = 0

/-- The buffer and the table once attempt `n` has asked for the map. -/
def tableAt (fw : Firmware) (pool : Nat → u8) : Nat → Handover
  | 0 =>
    let r := getMemoryMap (fw.map 0) (fw.needed + 4 * fw.descSize) pool
    { buf := r.2.2, entries := fillMemoryMap r.2.2 r.2.1 fw.descSize }
  | n + 1 => refresh fw (fw.map 0).size (n + 1) (tableAt fw pool n)

/-- The descriptors that are copied at attempt `n`. -/
def copiedAt (fw : Firmware) (pool : Nat → u8) (n : Nat) : List EfiMemoryDescriptor :=
  visited (tableAt fw pool n).buf (fw.map n).size fw.descSize BOOT_MEMORY_MAX 0

/-- The descriptors that the buffer holds before attempt `n`, where its map belongs. -/
def leftover (fw : Firmware) (pool : Nat → u8) (n : Nat) : List EfiMemoryDescriptor :=
  visited (tableAt fw pool (n - 1)).buf (fw.map n).size fw.descSize BOOT_MEMORY_MAX 0

/-- Every page that the copied descriptors offer above 2 MB and off the bitmap is one that
the map calls usable. -/
def Agrees (bmStart : u64) {descSize : Nat} {blocks : List Block} (last : MemoryMap descSize blocks)
    (copied : List EfiMemoryDescriptor) : Prop :=
  ∀ d ∈ copied, ∀ q, d.entry.Offers q → ¬ OnBitmap bmStart q → LOW_PAGES ≤ q →
    ∃ e ∈ last.descriptors, e.Usable ∧ e.Covers q

section

variable {fw : Firmware} {pool : Nat → u8}

@[simp] theorem getMemoryMap_size {descSize : Nat} {blocks : List Block}
    (m : MemoryMap descSize blocks) (size : Nat) (buf : Nat → u8) :
    (getMemoryMap m size buf).2.1 = m.size := by
  rw [getMemoryMap]
  split <;> rfl

theorem tableAt_entries (n : Nat) :
    (tableAt fw pool n).entries = (copiedAt fw pool n).map EfiMemoryDescriptor.entry := by
  cases n with
  | zero => rw [copiedAt, tableAt, fillMemoryMap, getMemoryMap_size]
  | succ n => rw [copiedAt, tableAt, refresh, fillMemoryMap, getMemoryMap_size]

/-- The loop ends with the table of the attempt that succeeds. -/
theorem exitBootServices_table {n attempt i : Nat} {t : Handover}
    (h : exitBootServices fw (fw.map 0).size n (attempt + 1) (tableAt fw pool attempt) =
      some (i, t)) : t = tableAt fw pool i := by
  induction n generalizing attempt with
  | zero => cases h
  | succ n ih =>
    rw [exitBootServices, if_pos (Nat.succ_pos attempt)] at h
    split at h
    case isTrue =>
      obtain ⟨rfl, rfl⟩ := Prod.mk.inj (Option.some.inj h)
      rfl
    case isFalse => exact ih h

theorem handOver_table {i : Nat} {bi : BootInfo} (h : handOver fw pool = some (i, bi)) :
    bi = { magic := BOOTINFO_MAGIC, memoryMap := (tableAt fw pool i).entries } ∧
      (fw.map 0).size ≤ fw.needed + 4 * fw.descSize := by
  rw [handOver] at h
  split at h
  case isTrue => cases h
  case isFalse filled =>
    have fits : (fw.map 0).size ≤ fw.needed + 4 * fw.descSize := by
      by_contra grown
      exact filled (by rw [getMemoryMap, if_neg grown]; rfl)
    obtain ⟨⟨j, t⟩, loop, eq⟩ := Option.map_eq_some_iff.mp h
    obtain ⟨rfl, rfl⟩ := Prod.mk.inj eq
    refine ⟨?_, fits⟩
    rw [getMemoryMap_size] at loop
    have table : t = tableAt fw pool j := by
      rw [exitBootServices, if_neg (Nat.lt_irrefl 0)] at loop
      split at loop
      case isTrue =>
        obtain ⟨rfl, rfl⟩ := Prod.mk.inj (Option.some.inj loop)
        rw [tableAt, getMemoryMap_size]
      case isFalse =>
        have rest : exitBootServices fw (fw.map 0).size 4 (0 + 1) (tableAt fw pool 0) =
            some (j, t) := by
          rwa [tableAt, getMemoryMap_size]
        exact exitBootServices_table rest
    rw [table]

/-- A map that fits is copied from itself. -/
theorem copiedAt_mem {n : Nat} (first : (fw.map 0).size ≤ fw.needed + 4 * fw.descSize)
    (fits : (fw.map n).size ≤ (fw.map 0).size) {d : EfiMemoryDescriptor}
    (h : d ∈ copiedAt fw pool n) : d ∈ (fw.map n).descriptors := by
  cases n with
  | zero => exact MemoryMap.visited_mem fw.wide first h
  | succ n => exact MemoryMap.visited_mem fw.wide fits h

/-- A map that has grown leaves the buffer as it is. -/
theorem copiedAt_leftover {n : Nat} (grown : ¬ (fw.map n).size ≤ (fw.map 0).size) :
    copiedAt fw pool n = leftover fw pool n := by
  cases n with
  | zero => exact absurd le_rfl grown
  | succ n =>
    rw [copiedAt, leftover, tableAt, refresh, getMemoryMap, if_neg grown]
    rfl

theorem free_iff_copied {bmStart : u64} {n q : Nat} :
    bitmapTest (init bmStart (some
        { magic := BOOTINFO_MAGIC, memoryMap := (tableAt fw pool n).entries })).bitmap q = false ↔
      ∃ d ∈ copiedAt fw pool n, d.entry.Offers q ∧ ¬ OnBitmap bmStart q ∧ LOW_PAGES ≤ q := by
  rw [init_free_iff, bootEntries, if_neg (not_not_intro rfl), tableAt_entries]
  constructor
  · rintro ⟨⟨e, he, offers⟩, off⟩
    obtain ⟨d, hd, rfl⟩ := List.mem_map.mp he
    exact ⟨d, hd, offers, off⟩
  · rintro ⟨d, hd, offers, off⟩
    exact ⟨⟨d.entry, List.mem_map_of_mem hd, offers⟩, off⟩

/-- A page of usable memory holds nothing of the loader's. -/
theorem MemoryMap.off_loaderData {m : MemoryMap fw.descSize fw.blocks} {d : EfiMemoryDescriptor}
    (mem : d ∈ m.descriptors) (usable : d.Usable) {q : Nat} (covers : d.Covers q) {b : Block}
    (hb : b ∈ fw.blocks) :
    b.base + b.size ≤ q * PAGE_SIZE ∨ q * PAGE_SIZE + PAGE_SIZE ≤ b.base ∨ b.size = 0 := by
  by_contra touches
  simp only [not_or, not_le] at touches
  obtain ⟨below, above, some⟩ := touches
  -- a byte in both
  have low : b.base ≤ max b.base (q * PAGE_SIZE) := le_max_left _ _
  obtain ⟨e, he, type, holds⟩ := m.loaderData b hb (max b.base (q * PAGE_SIZE)) low
    (max_lt (by omega) below)
  have inD : d.Holds (max b.base (q * PAGE_SIZE)) := by
    obtain ⟨start, stop⟩ := covers
    refine ⟨start.trans (le_max_right _ _), lt_of_lt_of_le (max_lt above ?_) stop⟩
    exact Nat.lt_add_of_pos_right (by decide)
  obtain rfl := MemoryMap.unique mem he inD holds
  rw [EfiMemoryDescriptor.Usable, type] at usable
  revert usable
  decide

/-- The kernel gets the map right if what is copied agrees with it. -/
theorem handedOver_iff_agrees {bmStart : u64} {n : Nat} :
    HandedOver bmStart (fw.map n)
        { magic := BOOTINFO_MAGIC, memoryMap := (tableAt fw pool n).entries } ↔
      Agrees bmStart (fw.map n) (copiedAt fw pool n) := by
  constructor
  · intro given d hd q offers off low
    exact given.usable q (free_iff_copied.mpr ⟨d, hd, offers, off, low⟩)
  · intro agrees
    have usable (q : Nat) (free : bitmapTest (init bmStart (some
        { magic := BOOTINFO_MAGIC, memoryMap := (tableAt fw pool n).entries })).bitmap q = false) :
        ∃ d ∈ (fw.map n).descriptors, d.Usable ∧ d.Covers q := by
      obtain ⟨d, hd, offers, off, low⟩ := free_iff_copied.mp free
      exact agrees d hd q offers off low
    refine ⟨usable, fun q free b hb => ?_⟩
    obtain ⟨d, hd, isUsable, covers⟩ := usable q free
    exact MemoryMap.off_loaderData hd isUsable covers hb

/-- **Boot memory handover.** The pages that `PMM::Init` makes allocatable are whole pages
that the firmware's last map calls conventional or boot-services memory, and nothing that
the loader allocated is on them, exactly if the last map fits into the size of the first, or
what the buffer holds in its place agrees with it. -/
theorem handOver_usable_iff (bmStart : u64) {i : Nat} {bi : BootInfo}
    (exited : handOver fw pool = some (i, bi)) :
    HandedOver bmStart (fw.map i) bi ↔
      (fw.map i).size ≤ (fw.map 0).size ∨ Agrees bmStart (fw.map i) (leftover fw pool i) := by
  obtain ⟨rfl, first⟩ := handOver_table exited
  rw [handedOver_iff_agrees]
  by_cases fits : (fw.map i).size ≤ (fw.map 0).size
  · refine iff_of_true (fun d hd q offers _ _ => ?_) (.inl fits)
    have mem := copiedAt_mem first fits hd
    exact ⟨d, mem, MemoryMap.offers_covers mem offers⟩
  · rw [copiedAt_leftover fits, or_iff_right fits]

end

/-! ## A map that grows -/

/-- Descriptors of 40 bytes, one after the other. -/
def packed (ds : List EfiMemoryDescriptor) (off : Nat) : u8 :=
  (ds.getD (off / 40) ⟨0, 0, 0⟩).byte (off % 40)

/-- A kernel of one page at 1 MB, and 2 MB of free memory. -/
def firstMap : MemoryMap 40 [⟨0x100000, 0x1000⟩] where
  descriptors := [⟨efiLoaderData, 0x100000, 1⟩, ⟨efiConventionalMemory, 0x200000, 512⟩]
  bytes := packed [⟨efiLoaderData, 0x100000, 1⟩, ⟨efiConventionalMemory, 0x200000, 512⟩]
  encodes k h := by
    have all : ∀ k : Fin 2, descriptorAt
        (packed [⟨efiLoaderData, 0x100000, 1⟩, ⟨efiConventionalMemory, 0x200000, 512⟩]) (k * 40) =
        [⟨efiLoaderData, 0x100000, 1⟩, ⟨efiConventionalMemory, 0x200000, 512⟩].get k := by decide
    exact all ⟨k, h⟩
  aligned := by decide
  apart := List.pairwise_pair.mpr (.inl (by decide))
  loaderData b hb a low high := by
    obtain rfl := List.mem_singleton.mp hb
    exact ⟨_, List.mem_cons_self, rfl, low, high⟩

/-- The second half of the free memory has gone to the firmware. -/
def grownMap : MemoryMap 40 [⟨0x100000, 0x1000⟩] where
  descriptors := [⟨efiLoaderData, 0x100000, 1⟩, ⟨efiConventionalMemory, 0x200000, 256⟩,
    ⟨efiRuntimeServicesData, 0x300000, 256⟩]
  bytes := packed [⟨efiLoaderData, 0x100000, 1⟩, ⟨efiConventionalMemory, 0x200000, 256⟩,
    ⟨efiRuntimeServicesData, 0x300000, 256⟩]
  encodes k h := by
    have all : ∀ k : Fin 3, descriptorAt
        (packed [⟨efiLoaderData, 0x100000, 1⟩, ⟨efiConventionalMemory, 0x200000, 256⟩,
          ⟨efiRuntimeServicesData, 0x300000, 256⟩]) (k * 40) =
        [⟨efiLoaderData, 0x100000, 1⟩, ⟨efiConventionalMemory, 0x200000, 256⟩,
          ⟨efiRuntimeServicesData, 0x300000, 256⟩].get k := by decide
    exact all ⟨k, h⟩
  aligned := by decide
  apart := by
    refine List.pairwise_cons.mpr ⟨fun d hd => .inl ?_, List.pairwise_pair.mpr (.inl (by decide))⟩
    revert d
    decide
  loaderData b hb a low high := by
    obtain rfl := List.mem_singleton.mp hb
    exact ⟨_, List.mem_cons_self, rfl, low, high⟩

/-- The first attempt fails, and by the second the map has grown. -/
def growingFirmware : Firmware where
  descSize := 40
  wide := le_rfl
  blocks := [⟨0x100000, 0x1000⟩]
  needed := 80
  map n := if n = 0 then firstMap else grownMap
  exits n := n ≠ 0

/-- What the kernel then gets. -/
def growingInfo : BootInfo where
  magic := BOOTINFO_MAGIC
  memoryMap := (tableAt growingFirmware (fun _ => 0) 1).entries

theorem handOver_usable_iff_growing :
    HandedOver 0x120000#64 (growingFirmware.map 1) growingInfo ↔
      (growingFirmware.map 1).size ≤ (growingFirmware.map 0).size ∨
        Agrees 0x120000#64 (growingFirmware.map 1) (leftover growingFirmware (fun _ => 0) 1) :=
  handOver_usable_iff 0x120000#64
    (rfl : handOver growingFirmware (fun _ => 0) = some (1, growingInfo))

/-- The kernel gets the stale map, and may allocate memory of the firmware's. -/
theorem growing_map_stale :
    handOver growingFirmware (fun _ => 0) = some (1, growingInfo) ∧
      ¬ HandedOver 0x120000#64 (growingFirmware.map 1) growingInfo := by
  refine ⟨rfl, fun given => ?_⟩
  have copied : ⟨efiConventionalMemory, 0x200000, 512⟩ ∈
      copiedAt growingFirmware (fun _ => 0) 1 := by decide
  obtain ⟨d, hd, usable, covers⟩ := given.usable 0x300
    (free_iff_copied.mpr ⟨_, copied, by decide, by decide, by decide⟩)
  have none : ∀ d ∈ grownMap.descriptors, d.Usable → ¬ d.Covers 0x300 := by decide
  exact none d hd usable covers

end MicroNT.Uefi
