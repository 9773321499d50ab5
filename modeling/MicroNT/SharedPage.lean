import MicroNT.IdentityMap

/-! # The split of the shared page's block (`VMM::MapSharedUserData`)

The bootloader maps the first 4 GB in 2 MB pages for the supervisor. To show one 4 KB page
of them to user code, the USER bit is set on the two entries above and one 2 MB page becomes
a page table. Every other address keeps its translation and stays with the supervisor. -/

namespace MicroNT.Kernel

open MicroNT.PMM hiding step Op System
open MicroNT.VMM MicroNT.Boot MicroNT.Base.Radix

/-! ## What is promised -/

/-- The upper 17 bits of an address are equal. -/
def Canonical (v : u64) : Prop := v.toNat < 2 ^ 47 ∨ 2 ^ 64 - 2 ^ 47 ≤ v.toNat

/-- Ring 3 is kept out by one of the levels. -/
def Supervised (m : Mem) (pml4 v : u64) : Prop :=
  ∃ e ∈ entries m pml4 v, has e PTE_USER = false

/-- The page at `KUSER_VA` shows the frame to user code, and every other address is as it was
before. -/
structure Shows (m m' : Mem) (pt phys : u64) : Prop where
  kept : ∀ v, Canonical v → v.toNat / PAGE_SIZE ≠ KUSER_PAGE →
    translateInPml4 m' pt v = translateInPml4 m pt v
  supervised : ∀ v, Canonical v → v.toNat / PAGE_SIZE ≠ KUSER_PAGE → Supervised m' pt v
  shared : ∀ v, v.toNat / PAGE_SIZE = KUSER_PAGE → translateInPml4 m' pt v = phys + (v &&& 0xFFF#64)
  reads : ∀ v, v.toNat / PAGE_SIZE = KUSER_PAGE → userReads m' pt v = true
  writes : ∀ v, v.toNat / PAGE_SIZE = KUSER_PAGE → userWrites m' pt v = false

/-- The tables above the pages: those of the bootloader, with the USER bit or without. -/
structure LowTables (m : Mem) (pt : u64) : Prop where
  slot0 : link (m pt 0#9) = some (pdptAddr pt)
  slots : ∀ i, i ≠ 0#9 → m pt i = 0
  dirs : ∀ j, j.toNat < 4 → link (m (pdptAddr pt) j) = some (pdAddr pt j.toNat)
  rest : ∀ j, 4 ≤ j.toNat → m (pdptAddr pt) j = 0

/-- The 2 MB page of the bootloader that an address is on. -/
def blockEntry (v : u64) : u64 := pdEntry (pdptIdx v).toNat (pdIdx v)

/-- Where an address leads through the bootloader's pages. -/
def lowTarget (v : u64) : u64 :=
  if Low v then (blockEntry v &&& HUGE_2M_MASK) ||| (v &&& 0x1FFFFF#64) else 0

section

variable {m : Mem} {pt v : u64}

theorem LowTables.entries_high (h : LowTables m pt) (high : ¬ Low v) :
    ∃ l, entries m pt v = l ++ [0] ∧ l.length ≤ 1 := by
  rw [entries, path]
  by_cases h4 : pml4Idx v = 0#9
  · have h3 : 4 ≤ (pdptIdx v).toNat := Nat.not_lt.mp fun h3 => high ⟨h4, h3⟩
    refine ⟨[m pt 0#9], ?_, le_rfl⟩
    rw [h4, walk_cons_cons, h.slot0, Option.elim_some, walk_cons_cons, h.rest _ h3, link_zero]
    rfl
  · refine ⟨[], ?_, Nat.zero_le 1⟩
    rw [walk_cons_cons, h.slots _ h4, link_zero]
    rfl

theorem LowTables.entries_low (h : LowTables m pt) (low : Low v) :
    entries m pt v = [m pt 0#9, m (pdptAddr pt) (pdptIdx v)] ++
      walk link m (pdAddr pt (pdptIdx v).toNat) [pdIdx v, ptIdx v] := by
  rw [entries, path, low.1, walk_cons_cons, h.slot0, Option.elim_some, walk_cons_cons,
    h.dirs _ low.2]
  rfl

/-- **An address on a 2 MB page** of the bootloader. -/
theorem LowTables.block (h : LowTables m pt)
    (page : Low v → m (pdAddr pt (pdptIdx v).toNat) (pdIdx v) = blockEntry v) :
    translateInPml4 m pt v = lowTarget v ∧ Supervised m pt v := by
  rw [translateInPml4_eq, lowTarget, Supervised]
  by_cases low : Low v
  · obtain ⟨present, -⟩ := pdEntry_bits (pdptIdx v).toNat (pdIdx v)
    have walked : entries m pt v =
        [m pt 0#9, m (pdptAddr pt) (pdptIdx v), blockEntry v] := by
      rw [h.entries_low low, walk_cons_cons, page low, blockEntry, link_pdEntry]
      rfl
    rw [walked, if_pos low]
    refine ⟨if_pos present, blockEntry v, by simp, pdEntry_user _ _⟩
  · obtain ⟨l, walked, short⟩ := h.entries_high low
    rw [walked, if_neg low]
    refine ⟨?_, 0, by simp, by decide⟩
    rcases l with _ | ⟨e, _ | ⟨e', l⟩⟩
    · rfl
    · rfl
    · simp at short

/-! ## The bootloader's pages -/

theorem lowTarget_identity (h : v.toNat < 2 ^ 32) : lowTarget v = v := by
  have low : Low v := (low_iff v).mpr (by omega)
  rw [lowTarget, if_pos low]
  exact pdEntry_identity h

end

/-! ## The split block -/

/-- An address below 4 GB is on the split block. -/
theorem onBlock_iff {v : u64} (h : v.toNat < 2 ^ 32) :
    (pdptIdx v = 1#9 ∧ pdIdx v = 511#9) ↔ v.toNat / 2 ^ 21 = 1023 := by
  have h3 : (pdptIdx v).toNat = v.toNat / 2 ^ 30 % 512 := index_toNat v 30
  have h2 : (pdIdx v).toNat = v.toNat / 2 ^ 21 % 512 := index_toNat v 21
  rw [← BitVec.toNat_inj, ← BitVec.toNat_inj, h3, h2]
  show _ = 1 ∧ _ = 511 ↔ _
  omega

/-- The other pages of the block are the supervisor's. -/
theorem splitEntry_user (phys : u64) {i : Index} (h : i ≠ ptIdx KUSER_VA) :
    has (splitEntry phys i) PTE_USER = false := by
  have small := i.isLt
  have page : (0x7FE00000#64 + i.setWidth 64 * pageSize64).toNat =
      0x7FE00000 + i.toNat * PAGE_SIZE := by
    rw [BitVec.toNat_add, BitVec.toNat_mul, BitVec.toNat_setWidth,
      show (0x7FE00000#64).toNat = 0x7FE00000 from rfl, show pageSize64.toNat = 0x1000 from rfl]
    simp only [PAGE_SIZE]
    omega
  have frame : IsFrame (0x7FE00000#64 + i.setWidth 64 * pageSize64) := by
    rw [isFrame_iff, page]
    simp only [PAGE_SIZE]
    omega
  rw [splitEntry, if_neg h, BitVec.or_assoc]
  exact (super_bits frame).2.2.1

/-- The shared page is readable for user code, and not writable. -/
theorem sharedEntry_bits {phys : u64} (frame : IsFrame phys) :
    has (phys ||| PTE_PRESENT ||| PTE_USER) PTE_PRESENT = true ∧
      has (phys ||| PTE_PRESENT ||| PTE_USER) PTE_USER = true ∧
      has (phys ||| PTE_PRESENT ||| PTE_USER) PTE_WRITABLE = false ∧
      (phys ||| PTE_PRESENT ||| PTE_USER) &&& PTE_ADDR_MASK = phys := by
  have flags : (PTE_PRESENT ||| PTE_USER) &&& PTE_ADDR_MASK = 0#64 := by decide
  rw [BitVec.or_assoc]
  refine ⟨?_, ?_, ?_, ?_⟩
  · rw [has_present, BitVec.getLsbD_or]
    exact Bool.or_true _
  · rw [has_user, BitVec.getLsbD_or]
    exact Bool.or_true _
  · rw [has_writable, BitVec.getLsbD_or, isFrame_bits frame (i := 1) (by omega)]
    rfl
  · rw [BitVec.and_or_distrib_right, frame, flags, BitVec.or_zero]

/-- The shared page's indices below the PDPT. -/
theorem kuserPage_path {v : u64} (h : v.toNat / PAGE_SIZE = KUSER_PAGE) :
    Low v ∧ pdptIdx v = 1#9 ∧ pdIdx v = 511#9 ∧ ptIdx v = ptIdx KUSER_VA := by
  have h1 : (ptIdx v).toNat = v.toNat / 2 ^ 12 % 512 := index_toNat v 12
  simp only [PAGE_SIZE, KUSER_PAGE] at h
  have below : v.toNat < 2 ^ 32 := by omega
  obtain ⟨h3, h2⟩ := (onBlock_iff below).mpr (by omega)
  refine ⟨(low_iff v).mpr (by omega), h3, h2, ?_⟩
  rw [← BitVec.toNat_inj, h1, show (ptIdx KUSER_VA).toNat = 480 by decide]
  omega

/-- Memory after the split, with its page table at `f`. -/
structure Split (m : Mem) (pt f phys : u64) : Prop where
  tables : LowTables m pt
  upper0 : IsTable (m pt 0#9)
  upper1 : IsTable (m (pdptAddr pt) 1#9)
  pages : ∀ j, j < 4 → ∀ i, ¬ (j = 1 ∧ i = 511#9) → m (pdAddr pt j) i = pdEntry j i
  frame : IsFrame f
  block : m (pdAddr pt 1) 511#9 = tableEntry f
  leaves : m f = splitEntry phys

section

variable {m : Mem} {pt f phys v : u64}

theorem Split.entries_block (h : Split m pt f phys) (low : Low v) (h3 : pdptIdx v = 1#9)
    (h2 : pdIdx v = 511#9) :
    entries m pt v =
      [m pt 0#9, m (pdptAddr pt) 1#9, tableEntry f, splitEntry phys (ptIdx v)] := by
  rw [h.tables.entries_low low, h3, h2, show (1#9).toNat = 1 from rfl, walk_cons_cons, h.block,
    link_tableEntry h.frame, Option.elim_some, walk_single, h.leaves]
  rfl

/-- **Off the shared page** an address leads where it led, and stays the supervisor's. -/
theorem Split.other (h : Split m pt f phys) (canonical : Canonical v)
    (off : v.toNat / PAGE_SIZE ≠ KUSER_PAGE) :
    translateInPml4 m pt v = lowTarget v ∧ Supervised m pt v := by
  by_cases block : Low v ∧ pdptIdx v = 1#9 ∧ pdIdx v = 511#9
  · obtain ⟨low, h3, h2⟩ := block
    have below : v.toNat < 2 ^ 32 := by
      by_contra above
      have bound := v.isLt
      rw [low_iff] at low
      rcases canonical with canonical | canonical <;> omega
    obtain ⟨present, -, same⟩ := splitEntry_identity phys below h3 h2 off
    have page : ptIdx v ≠ ptIdx KUSER_VA := by
      intro same
      have h1 : (ptIdx v).toNat = v.toNat / 2 ^ 12 % 512 := index_toNat v 12
      rw [same, show (ptIdx KUSER_VA).toNat = 480 by decide] at h1
      have on := (onBlock_iff below).mp ⟨h3, h2⟩
      simp only [PAGE_SIZE, KUSER_PAGE] at off
      omega
    rw [translateInPml4_eq, Supervised, h.entries_block low h3 h2, lowTarget_identity below]
    refine ⟨?_, splitEntry phys (ptIdx v), by simp, splitEntry_user phys page⟩
    rw [resolve, if_pos present, same]
  · refine h.tables.block fun low => h.pages _ low.2 _ fun on => block ⟨low, ?_, on.2⟩
    exact BitVec.eq_of_toNat_eq on.1

theorem Split.kuser (h : Split m pt f phys) (frame : IsFrame phys)
    (on : v.toNat / PAGE_SIZE = KUSER_PAGE) :
    translateInPml4 m pt v = phys + (v &&& 0xFFF#64) ∧ userReads m pt v = true ∧
      userWrites m pt v = false := by
  obtain ⟨low, h3, h2, h1⟩ := kuserPage_path on
  obtain ⟨present, user, readOnly, target⟩ := sharedEntry_bits frame
  have third : IsTable (tableEntry f) := ⟨f, h.frame, rfl⟩
  have leaf : splitEntry phys (ptIdx v) = phys ||| PTE_PRESENT ||| PTE_USER := by
    rw [splitEntry, if_pos h1, frame]
  rw [translateInPml4_eq, userReads, userWrites, h.entries_block low h3 h2, leaf]
  refine ⟨?_, ?_, ?_⟩
  · rw [resolve, if_pos present, target, frame_or_offset frame]
  · simp [userCan, isTable_present, isTable_user, h.upper0, h.upper1, third, present, user]
  · simp [userCan, readOnly]

end

/-! ## `MapSharedUserData` -/

/-- The bootloader has built its tables at `pt`, CR3 points there, and the allocator does
not give the six frames away. -/
structure BuiltAt (pt : u64) (s : Vmm) : Prop where
  aligned : pt.toNat % PAGE_SIZE = 0
  below : pt.toNat + 6 * PAGE_SIZE ≤ 2 ^ 52
  mem : ∃ m, s.mem = buildPageTables m pt
  pml4Phys : s.pml4Phys = pt
  used : ∀ k, k < 6 → Used s (frameAt pt k)

section

variable {pt phys : u64} {s : Vmm}

theorem BuiltAt.tablesAt (h : BuiltAt pt s) : TablesAt pt none :=
  ⟨h.aligned, h.below, fun _ he => absurd he List.not_mem_nil⟩

theorem BuiltAt.pds (h : BuiltAt pt s) {j : Nat} (hj : j < 4) : s.mem (pdAddr pt j) = pdEntry j := by
  obtain ⟨m, mem⟩ := h.mem
  rw [mem, buildPageTables_pd h.tablesAt m hj]

theorem BuiltAt.lowTables (h : BuiltAt pt s) : LowTables s.mem pt := by
  obtain ⟨m, mem⟩ := h.mem
  have at_ := h.tablesAt
  rw [mem]
  refine ⟨?_, fun i hi => ?_, fun j hj => ?_, fun j hj => ?_⟩
  · simp only [buildPageTables_pml4 at_, if_true, link_super at_.pdptFrame]
  · simp only [buildPageTables_pml4 at_, hi, if_false]
  · simp only [buildPageTables_pdpt at_, hj, if_true, link_super (at_.pdFrame hj)]
  · simp only [buildPageTables_pdpt at_, Nat.not_lt.mpr hj, if_false]

/-- The two entries above the block may have the USER bit. -/
theorem LowTables.sharedUpper {m : Mem} (h : LowTables m pt) (at_ : TablesAt pt none) :
    LowTables (sharedUpper m pt) pt := by
  obtain ⟨row0, -, row1, -⟩ := sharedUpper_rows at_ m
  have ne : pt ≠ pdptAddr pt := at_.pml4_ne (by decide) (by decide)
  have other {j : Index} (hj : j ≠ 1#9) :
      Kernel.sharedUpper m pt (pdptAddr pt) j = m (pdptAddr pt) j := by
    rw [Kernel.sharedUpper, write_of_ne fun e => hj e.2, write_of_table_ne ne.symm]
  refine ⟨?_, fun i hi => ?_, fun j hj => ?_, fun j hj => ?_⟩
  · rw [row0, link_tableEntry at_.pdptFrame]
  · rw [Kernel.sharedUpper, write_of_table_ne ne, write_of_ne fun e => hi e.2]
    exact h.slots i hi
  · by_cases h1 : j = 1#9
    · subst h1
      rw [row1, link_tableEntry (at_.pdFrame (by decide))]
      rfl
    · rw [other h1]
      exact h.dirs j hj
  · rw [other fun h1 => absurd hj (by rw [h1]; decide)]
    exact h.rest j hj

/-- Writes off the PML4 and the PDPT leave the upper tables. -/
theorem LowTables.congr {m m' : Mem} (h : LowTables m pt) (root : m' pt = m pt)
    (pdpt : m' (pdptAddr pt) = m (pdptAddr pt)) : LowTables m' pt := by
  refine ⟨?_, ?_, ?_, ?_⟩
  · rw [root]
    exact h.slot0
  · rw [root]
    exact h.slots
  · rw [pdpt]
    exact h.dirs
  · rw [pdpt]
    exact h.rest

theorem BuiltAt.split (h : BuiltAt pt s) {k : Nat} {p : Pmm} (taken : Takes s.pmm p k 1) :
    Split (write (fill (sharedUpper s.mem pt) (pageAddr k) (splitEntry phys)) (pdAddr pt 1) 511#9
      (tableEntry (pageAddr k))) pt (pageAddr k) phys := by
  have at_ := h.tablesAt
  obtain ⟨row0, -, row1, rowP⟩ := sharedUpper_rows at_ s.mem
  -- the new page is none of the six
  have free : ¬ Used s (pageAddr k) := not_used_free taken le_rfl (by omega)
  have fresh {i : Nat} (hi : i < 6) : frameAt pt i ≠ pageAddr k := fun e => free (e ▸ h.used i hi)
  have root : pt ≠ pageAddr k := by
    have first := fresh (i := 0) (by decide)
    rwa [frameAt_zero] at first
  have freshDir {j : Nat} (hj : j < 4) : pdAddr pt j ≠ pageAddr k := fresh (i := j + 2) (by omega)
  have upper {t : u64} (new : t ≠ pageAddr k) (dir : t ≠ pdAddr pt 1) :
      write (fill (sharedUpper s.mem pt) (pageAddr k) (splitEntry phys)) (pdAddr pt 1) 511#9
        (tableEntry (pageAddr k)) t = sharedUpper s.mem pt t := by
    rw [write_of_table_ne dir, fill_of_ne new]
  have rootRow := upper root (at_.pml4_ne (k := 3) (by decide) (by decide))
  have pdptRow := upper (t := pdptAddr pt) (fresh (i := 1) (by decide))
    (at_.ne (j := 1) (k := 3) (by decide) (by decide) (by decide))
  refine ⟨(h.lowTables.sharedUpper at_).congr rootRow pdptRow, ?_, ?_, fun j hj i hn => ?_,
    isFrame_pageAddr taken.within, write_same _ _ _ _, ?_⟩
  · rw [rootRow]
    exact ⟨_, at_.pdptFrame, row0⟩
  · rw [pdptRow]
    exact ⟨_, at_.pdFrame (by decide), row1⟩
  · by_cases h1 : j = 1
    · subst h1
      rw [write_of_ne fun e => hn ⟨rfl, e.2⟩, fill_of_ne (freshDir hj), rowP 1 hj,
        h.pds hj]
    · have dir : pdAddr pt j ≠ pdAddr pt 1 :=
        at_.ne (j := j + 2) (k := 3) (by omega) (by decide) (by omega)
      rw [upper (freshDir hj) dir, rowP j hj, h.pds hj]
  · rw [write_of_table_ne (freshDir (j := 1) (by decide)).symm, fill_same]

end

end MicroNT.Kernel
