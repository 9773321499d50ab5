import MicroNT.ElfLoader

/-! # What `LoadElf` reads and writes (`bootloader.cpp`)

The loader takes every offset, count and size from the file as it finds it. All its
addresses are sums that wrap, so a place in the file is the distance from its first byte. -/

namespace MicroNT.Uefi

open MicroNT.Kernel (u16At u32At u64At)

/-! ## Accesses -/

/-- The memory from `elfData` on, by the distance from it. The file is where it begins. -/
def fromElfData (memory : u64 → u8) : Nat → u8 := fun n => memory (BitVec.ofNat 64 n)

/-- Bytes one after the other, by the distance of the first one. -/
structure Span where
  start : u64
  len : Nat

/-- Every byte lies in the first `size` ones. -/
def Span.Within (s : Span) (size : Nat) : Prop :=
  ∀ k, k < s.len → (s.start + BitVec.ofNat 64 k).toNat < size

/-- `e_ident` up to the class, `e_machine`, `e_entry`, `e_phoff` and `e_phnum`. -/
def headerReads : List Span := [⟨0, 5⟩, ⟨18, 2⟩, ⟨24, 8⟩, ⟨32, 8⟩, ⟨56, 2⟩]

/-- A segment that is copied. -/
def Elf64Phdr.Copied (p : Elf64Phdr) : Prop := p.type = PT_LOAD ∧ p.filesz ≠ 0

instance (p : Elf64Phdr) : Decidable p.Copied := inferInstanceAs (Decidable (_ ∧ _))

/-- What both loops read of program header `i`: `p_type`; for a segment to load `p_paddr`,
`p_filesz` and `p_memsz`; and for one that is copied `p_offset`. -/
def phdrReads (f : Nat → u8) (i : Nat) : List Span :=
  let off := phoff f + BitVec.ofNat 64 (56 * i)
  let p := phdrAt f i
  [⟨off, 4⟩] ++
    (if p.type = PT_LOAD then [⟨off + 24#64, 8⟩, ⟨off + 32#64, 8⟩, ⟨off + 40#64, 8⟩] else []) ++
    (if p.Copied then [⟨off + 8#64, 8⟩] else [])

/-- The source of a copy. -/
def Elf64Phdr.source (p : Elf64Phdr) : Span := ⟨p.offset, p.filesz.toNat⟩

/-- Byte `j` of the destination of a copy. -/
def copyTo (f : Nat → u8) (physBase : u64) (p : Elf64Phdr) (j : Nat) : u64 :=
  physBase + (p.paddr - loadBase f) + BitVec.ofNat 64 j

/-- The address lies in the pages from `physBase` on, which end before memory does. -/
def InRegion (f : Nat → u8) (physBase a : u64) : Prop :=
  (a - physBase).toNat < (loadPages f).toNat * 4096

/-- **Memory safety** of a call on a file of this size, which got its pages at `physBase`. -/
structure MemorySafe (f : Nat → u8) (size : Nat) (physBase : u64) : Prop where
  header : ∀ s ∈ headerReads, s.Within size
  entries : ∀ i, i < (phnum f).toNat → ∀ s ∈ phdrReads f i, s.Within size
  sources : ∀ p ∈ phdrs f, p.Copied → p.source.Within size
  copies : ∀ p ∈ phdrs f, p.Copied → ∀ j, j < p.filesz.toNat →
    InRegion f physBase (copyTo f physBase p j)

/-! ## Files that are safe to load -/

/-- The end of a segment in memory. -/
def Elf64Phdr.stop (p : Elf64Phdr) : u64 := p.paddr + p.memsz

/-- `low` is a segment with the lowest address of all, `high` one with the highest end. -/
structure Extremes (ps : List Elf64Phdr) (low high : Elf64Phdr) : Prop where
  low_mem : low ∈ ps ∧ low.type = PT_LOAD
  high_mem : high ∈ ps ∧ high.type = PT_LOAD
  least : ∀ p ∈ ps, p.type = PT_LOAD → low.paddr ≤ p.paddr
  most : ∀ p ∈ ps, p.type = PT_LOAD → p.stop ≤ high.stop

/-- The bytes of the whole pages from the lowest segment to the highest end. -/
def pageSpan (low high : Elf64Phdr) : Nat :=
  (alignDown (high.stop + 0xFFF#64) pageSize64 - alignDown low.paddr pageSize64).toNat

/-- The headers that are read end in the file, the bytes of each segment lie in the file,
and none of them has more bytes there than fit in its place in the pages that the memory
sizes ask for. -/
structure Bounded (f : Nat → u8) (size : Nat) : Prop where
  header : 58 ≤ size
  entries : ∀ i, i < (phnum f).toNat → ∀ s ∈ phdrReads f i, s.start.toNat + s.len ≤ size
  sources : ∀ p ∈ phdrs f, p.Copied → p.offset.toNat + p.filesz.toNat ≤ size
  room : ∃ low high, Extremes (phdrs f) low high ∧ ∀ p ∈ phdrs f, p.Copied →
    p.paddr.toNat - low.paddr.toNat / 4096 * 4096 + p.filesz.toNat ≤ pageSpan low high

/-! ## Spans -/

/-- **Bytes one after the other** lie in a file exactly if their end does. -/
theorem within_iff {s : Span} {size : Nat} (some_ : 0 < s.len) (len : s.len ≤ 2 ^ 64)
    (small : size < 2 ^ 64) : s.Within size ↔ s.start.toNat + s.len ≤ size := by
  have bound := s.start.isLt
  constructor
  · intro within
    by_contra past
    -- the first byte that is not in the file
    by_cases start : size ≤ s.start.toNat
    case pos =>
      have first := within 0 some_
      rw [BitVec.toNat_add, BitVec.toNat_ofNat] at first
      omega
    case neg =>
      have next := within (size - s.start.toNat) (by omega)
      rw [BitVec.toNat_add, BitVec.toNat_ofNat] at next
      omega
  · intro ends k hk
    rw [BitVec.toNat_add, BitVec.toNat_ofNat]
    omega

theorem headerReads_within {size : Nat} (small : size < 2 ^ 64) :
    (∀ s ∈ headerReads, s.Within size) ↔ 58 ≤ size := by
  have each : ∀ s ∈ headerReads, s.Within size ↔ s.start.toNat + s.len ≤ size := by
    intro s hs
    simp only [headerReads, List.mem_cons, List.not_mem_nil, or_false] at hs
    rcases hs with rfl | rfl | rfl | rfl | rfl <;> exact within_iff (by decide) (by decide) small
  have last : ∀ s ∈ headerReads, s.start.toNat + s.len ≤ 58 := by decide
  constructor
  · intro within
    have last : ⟨56, 2⟩ ∈ headerReads := by simp [headerReads]
    exact (each _ last).mp (within _ last)
  · intro size s hs
    exact (each s hs).mpr ((last s hs).trans size)

theorem phdrReads_len {f : Nat → u8} {i : Nat} {s : Span} (hs : s ∈ phdrReads f i) :
    0 < s.len ∧ s.len ≤ 2 ^ 64 := by
  have field : 0 < 8 ∧ 8 ≤ 2 ^ 64 := by decide
  have type : 0 < 4 ∧ 4 ≤ 2 ^ 64 := by decide
  rw [phdrReads, List.mem_append, List.mem_append] at hs
  rcases hs with (hs | hs) | hs
  · obtain rfl := List.mem_singleton.mp hs
    exact type
  · split at hs
    case isTrue =>
      simp only [List.mem_cons, List.not_mem_nil, or_false] at hs
      rcases hs with rfl | rfl | rfl <;> exact field
    case isFalse => exact absurd hs List.not_mem_nil
  · split at hs
    case isTrue =>
      obtain rfl := List.mem_singleton.mp hs
      exact field
    case isFalse => exact absurd hs List.not_mem_nil

/-! ## The range -/

/-- What the first loop has found after these headers. -/
structure Found (ps : List Elf64Phdr) (r : u64 × u64) : Prop where
  least : ∀ p ∈ ps, p.type = PT_LOAD → r.1 ≤ p.paddr
  most : ∀ p ∈ ps, p.type = PT_LOAD → p.stop ≤ r.2
  low : r.1 = ~~~0 ∨ ∃ p ∈ ps, p.type = PT_LOAD ∧ r.1 = p.paddr
  high : r.2 = 0 ∨ ∃ p ∈ ps, p.type = PT_LOAD ∧ r.2 = p.stop

theorem Found.extend {ps : List Elf64Phdr} {r : u64 × u64} (h : Found ps r) (p : Elf64Phdr) :
    Found (ps ++ [p]) (extend r p) := by
  have old {P : Elf64Phdr → Prop} (found : ∃ q ∈ ps, P q) : ∃ q ∈ ps ++ [p], P q := by
    obtain ⟨q, hq, holds⟩ := found
    exact ⟨q, List.mem_append_left _ hq, holds⟩
  have new : p ∈ ps ++ [p] := List.mem_append_right _ (List.mem_singleton_self p)
  rw [Uefi.extend]
  split
  case isTrue other =>
    exact ⟨forall_snoc h.least fun load => absurd load other,
      forall_snoc h.most fun load => absurd load other, h.low.imp_right old, h.high.imp_right old⟩
  case isFalse load =>
    have load := not_not.mp load
    have low : (if p.paddr < r.1 then p.paddr else r.1) ≤ r.1 ∧
        (if p.paddr < r.1 then p.paddr else r.1) ≤ p.paddr := by
      split <;> bv_omega
    have high : r.2 ≤ (if p.stop > r.2 then p.stop else r.2) ∧
        p.stop ≤ (if p.stop > r.2 then p.stop else r.2) := by
      split <;> bv_omega
    refine ⟨forall_snoc (fun q hq ql => BitVec.le_trans low.1 (h.least q hq ql)) fun _ => low.2,
      forall_snoc (fun q hq ql => BitVec.le_trans (h.most q hq ql) high.1) fun _ => high.2, ?_, ?_⟩
    · dsimp only
      split
      case isTrue => exact .inr ⟨p, new, load, rfl⟩
      case isFalse => exact h.low.imp_right old
    · dsimp only
      split
      case isTrue => exact .inr ⟨p, new, load, rfl⟩
      case isFalse => exact h.high.imp_right old

theorem found_loadRange (f : Nat → u8) : Found (phdrs f) (loadRange f) := by
  rw [loadRange]
  induction phdrs f using List.reverseRecOn with
  | nil =>
    exact ⟨fun _ hp => absurd hp List.not_mem_nil, fun _ hp => absurd hp List.not_mem_nil,
      .inl rfl, .inl rfl⟩
  | append_singleton ps p ih =>
    rw [List.foldl_append]
    exact ih.extend p

/-- Unless the loader panics, there are a lowest and a highest segment, and the first loop
finds their bounds. -/
theorem loadRange_extremes {f : Nat → u8} (some_ : (loadRange f).1 ≠ ~~~0) :
    ∃ low high, Extremes (phdrs f) low high ∧ loadRange f = (low.paddr, high.stop) := by
  obtain ⟨least, most, low, high⟩ := found_loadRange f
  obtain ⟨low, lowMem, lowLoad, lowEq⟩ := low.resolve_left some_
  -- if no segment ends above 0, then all of them wrap to 0, the lowest one too
  have high : ∃ p ∈ phdrs f, p.type = PT_LOAD ∧ (loadRange f).2 = p.stop := by
    rcases high with zero | high
    · refine ⟨low, lowMem, lowLoad, ?_⟩
      have stop := most low lowMem lowLoad
      rw [zero] at stop ⊢
      bv_omega
    · exact high
  obtain ⟨high, highMem, highLoad, highEq⟩ := high
  exact ⟨low, high, ⟨⟨lowMem, lowLoad⟩, ⟨highMem, highLoad⟩, lowEq ▸ least, highEq ▸ most⟩,
    Prod.ext lowEq highEq⟩

/-- Any two pairs of extremes have the same bounds. -/
theorem Extremes.unique {ps : List Elf64Phdr} {low high low' high' : Elf64Phdr}
    (h : Extremes ps low high) (h' : Extremes ps low' high') :
    low.paddr = low'.paddr ∧ high.stop = high'.stop :=
  ⟨BitVec.le_antisymm (h.least _ h'.low_mem.1 h'.low_mem.2) (h'.least _ h.low_mem.1 h.low_mem.2),
    BitVec.le_antisymm (h'.most _ h.high_mem.1 h.high_mem.2) (h.most _ h'.high_mem.1 h'.high_mem.2)⟩

/-! ## Copies -/

theorem loadPages_bytes (f : Nat → u8) :
    (loadPages f).toNat * 4096 = (loadEnd f - loadBase f).toNat := by
  have bound := (loadEnd f - loadBase f).isLt
  have base : (loadBase f).toNat = (loadRange f).1.toNat / PAGE_SIZE * PAGE_SIZE := alignDown_toNat _
  have last : (loadEnd f).toNat = ((loadRange f).2 + 0xFFF#64).toNat / PAGE_SIZE * PAGE_SIZE :=
    alignDown_toNat _
  simp only [PAGE_SIZE] at base last
  rw [loadPages, BitVec.toNat_udiv, show (4096#64).toNat = 4096 from rfl]
  rw [BitVec.toNat_sub] at bound ⊢
  omega

/-- A segment's copy stays in the pages exactly if its last byte does. -/
theorem copies_iff {f : Nat → u8} {low high p : Elf64Phdr} (physBase : u64)
    (range : loadRange f = (low.paddr, high.stop)) (above : low.paddr ≤ p.paddr)
    (copied : p.filesz ≠ 0) :
    (∀ j, j < p.filesz.toNat → InRegion f physBase (copyTo f physBase p j)) ↔
      p.paddr.toNat - low.paddr.toNat / 4096 * 4096 + p.filesz.toNat ≤ pageSpan low high := by
  have base : loadBase f = alignDown low.paddr pageSize64 := by rw [loadBase, range]
  have last : loadEnd f = alignDown (high.stop + 0xFFF#64) pageSize64 := by rw [loadEnd, range]
  have down : (alignDown low.paddr pageSize64).toNat = low.paddr.toNat / 4096 * 4096 :=
    alignDown_toNat _
  have start : (p.paddr - loadBase f).toNat =
      p.paddr.toNat - low.paddr.toNat / 4096 * 4096 := by
    rw [BitVec.le_def] at above
    rw [base, BitVec.toNat_sub_of_le (by rw [BitVec.le_def, down]; omega), down]
  have some_ : 0 < p.filesz.toNat := by bv_omega
  rw [pageSpan, ← base, ← last, ← start,
    ← within_iff (s := ⟨p.paddr - loadBase f, p.filesz.toNat⟩) some_ p.filesz.isLt.le
      (loadEnd f - loadBase f).isLt]
  refine forall₂_congr fun j hj => ?_
  have distance : copyTo f physBase p j - physBase =
      p.paddr - loadBase f + BitVec.ofNat 64 j := by
    rw [copyTo]
    bv_omega
  rw [InRegion, distance, loadPages_bytes]

/-! ## Which files are safe -/

/-- **Which files are safe to load.** A call that does not panic reads only the file and copies
only into its pages exactly if the headers and the segments end in the file, and every segment
ends in the pages from the lowest one to the highest end. None of this is checked. -/
theorem loadElf_safe (memory : u64 → u8) (elfSize : u64) (alloc : PageAllocator) (m : Bytes)
    (k : LoadedKernel) (loaded : loadElf (fromElfData memory) alloc m = some k) :
    MemorySafe (fromElfData memory) elfSize.toNat k.outBase ↔
      Bounded (fromElfData memory) elfSize.toNat := by
  generalize fromElfData memory = f at loaded ⊢
  have small := elfSize.isLt
  have some_ : (loadRange f).1 ≠ ~~~0 := by
    intro none
    rw [loadElf, if_pos none, ite_self] at loaded
    cases loaded
  obtain ⟨low, high, extremes, range⟩ := loadRange_extremes some_
  have copies (p) (hp : p ∈ phdrs f) (copied : p.Copied) :=
    copies_iff k.outBase range (extremes.least p hp copied.1) copied.2
  have entries : (∀ i, i < (phnum f).toNat → ∀ s ∈ phdrReads f i, s.Within elfSize.toNat) ↔
      ∀ i, i < (phnum f).toNat → ∀ s ∈ phdrReads f i, s.start.toNat + s.len ≤ elfSize.toNat :=
    forall₂_congr fun i _ => forall₂_congr fun s hs =>
      within_iff (phdrReads_len hs).1 (phdrReads_len hs).2 small
  have sources : (∀ p ∈ phdrs f, p.Copied → p.source.Within elfSize.toNat) ↔
      ∀ p ∈ phdrs f, p.Copied → p.offset.toNat + p.filesz.toNat ≤ elfSize.toNat :=
    forall₂_congr fun p _ => forall_congr' fun copied =>
      within_iff (by have := copied.2; show 0 < p.filesz.toNat; bv_omega) p.filesz.isLt.le small
  constructor
  · intro safe
    exact ⟨(headerReads_within small).mp safe.header, entries.mp safe.entries,
      sources.mp safe.sources, low, high, extremes, fun p hp copied =>
        (copies p hp copied).mp (safe.copies p hp copied)⟩
  · intro bounded
    obtain ⟨low', high', extremes', room⟩ := bounded.room
    obtain ⟨sameLow, sameHigh⟩ := extremes.unique extremes'
    refine ⟨(headerReads_within small).mpr bounded.header, entries.mpr bounded.entries,
      sources.mpr bounded.sources, fun p hp copied => (copies p hp copied).mpr ?_⟩
    rw [pageSpan, sameLow, sameHigh]
    exact room p hp copied

/-- A file at the start of memory. -/
def inMemory (file : Nat → u8) (a : u64) : u8 := file a.toNat

theorem phdrs_tinyElf_inMemory : phdrs (fromElfData (inMemory tinyElf)) =
    [⟨PT_LOAD, 120, 0x100000, 0x100000, 0x20, 0x40⟩] := by
  decide

theorem loadElf_safe_tiny : ∃ k,
    loadElf (fromElfData (inMemory tinyElf)) granting (fun _ => 0xFF) = some k ∧
      MemorySafe (fromElfData (inMemory tinyElf)) (152 : u64).toNat k.outBase := by
  have granted : granting.grant (loadBase (fromElfData (inMemory tinyElf)))
      (loadPages (fromElfData (inMemory tinyElf))) = some 0x100000 := by decide
  have loaded : ∃ k, loadElf (fromElfData (inMemory tinyElf)) granting (fun _ => 0xFF) = some k := by
    rw [loadElf, if_neg (by decide), if_neg (by decide), granted, Option.map_some]
    exact ⟨_, rfl⟩
  obtain ⟨k, loaded⟩ := loaded
  refine ⟨k, loaded, (loadElf_safe (inMemory tinyElf) 152 granting _ k loaded).mpr ⟨?_, ?_, ?_, ?_⟩⟩
  · decide
  · decide
  · rw [phdrs_tinyElf_inMemory]
    decide
  · rw [phdrs_tinyElf_inMemory]
    refine ⟨⟨PT_LOAD, 120, 0x100000, 0x100000, 0x20, 0x40⟩,
      ⟨PT_LOAD, 120, 0x100000, 0x100000, 0x20, 0x40⟩, ⟨?_, ?_, ?_, ?_⟩, ?_⟩ <;> decide

/-- One segment with more bytes in the file, a page and one, than in memory, one page. -/
def longElf : Nat → u8 :=
  elfFile [(56, 1), (64, 1), (72, 120), (90, 0x10), (96, 0x01), (97, 0x10), (105, 0x10)]

/-- The last byte of this segment is copied behind its page. -/
theorem loadElf_overrun : ∃ k,
    loadElf (fromElfData (inMemory longElf)) granting (fun _ => 0xFF) = some k ∧
      ¬ MemorySafe (fromElfData (inMemory longElf)) (4217 : u64).toNat k.outBase := by
  have granted : granting.grant (loadBase (fromElfData (inMemory longElf)))
      (loadPages (fromElfData (inMemory longElf))) = some 0x100000 := by decide
  rw [loadElf, if_neg (by decide), if_neg (by decide), granted, Option.map_some]
  refine ⟨_, rfl, fun safe => ?_⟩
  have mem : ⟨PT_LOAD, 120, 0, 0x100000, 0x1001, 0x1000⟩ ∈
      phdrs (fromElfData (inMemory longElf)) := by decide
  have copied := safe.copies _ mem ⟨rfl, by decide⟩ 0x1000 (by decide)
  revert copied
  unfold InRegion
  decide

end MicroNT.Uefi
