import MicroNT.KernelBoot
import MicroNT.PhysicalMemoryPool

/-! # When boot succeeds

`kernel_main` gets through its memory set-up, and shows the shared page, when the
lowest 1029 free pages follow one another: 1024 for the heap, one that serves the
test page and then the shared page, three tables and the split table. -/

namespace MicroNT.Kernel

open MicroNT.PMM MicroNT.VMM MicroNT.Boot MicroNT.Base.Radix

/-! ## The pages taken in order -/

section

variable {F : Set Nat} {L : Nat}

theorem isLeast_after (low : ∀ q ∈ F, L ≤ q) {n : Nat} (hn : L + n ∈ F) :
    IsLeast (F \ Set.Ico L (L + n)) (L + n) := by
  refine ⟨⟨hn, fun h => absurd h.2 (Nat.lt_irrefl _)⟩, fun q hq => ?_⟩
  have hL := low q hq.1
  by_contra hlt
  exact hq.2 ⟨hL, by omega⟩

theorem diff_after (n : Nat) :
    (F \ Set.Ico L (L + n)) \ {L + n} = F \ Set.Ico L (L + (n + 1)) := by
  ext q
  simp only [Set.mem_sdiff, Set.mem_Ico, Set.mem_singleton_iff, not_and, not_lt]
  constructor
  · intro ⟨⟨hF, h1⟩, h2⟩
    exact ⟨hF, fun hL => by have := h1 hL; omega⟩
  · intro ⟨hF, h1⟩
    exact ⟨⟨hF, fun hL => by have := h1 hL; omega⟩, fun heq => by have := h1 (by omega); omega⟩

/-- Taking the next page. -/
theorem Pool.next {s : Pmm} {n : Nat} (h : Pool (F \ Set.Ico L (L + n)) s)
    (low : ∀ q ∈ F, L ≤ q) (hn : L + n ∈ F) :
    ∃ t, allocPage s = (pageAddr (L + n), t) ∧ Takes s t (L + n) 1 ∧
      Pool (F \ Set.Ico L (L + (n + 1))) t := by
  obtain ⟨t, heq, ht, hp⟩ := h.allocPage (isLeast_after low hn)
  rw [diff_after] at hp
  exact ⟨t, heq, ht, hp⟩

end

/-! ## Counting the pages taken -/

/-- At most `n` calls of `AllocPage` lie between two states of the allocator. -/
def Allocs (n : Nat) (s t : Pmm) : Prop := ∃ k, k ≤ n ∧ t = (fun p => (allocPage p).2)^[k] s

theorem Allocs.refl (n : Nat) (s : Pmm) : Allocs n s s := ⟨0, Nat.zero_le n, rfl⟩

theorem Allocs.one (s : Pmm) : Allocs 1 s (allocPage s).2 := ⟨1, le_rfl, rfl⟩

theorem Allocs.trans {m n : Nat} {s t u : Pmm} (h : Allocs m s t) (h' : Allocs n t u) :
    Allocs (m + n) s u := by
  obtain ⟨j, hj, rfl⟩ := h
  obtain ⟨k, hk, rfl⟩ := h'
  exact ⟨k + j, by omega, (Function.iterate_add_apply _ k j s).symm⟩

theorem Allocs.mono {m n : Nat} {s t : Pmm} (h : Allocs m s t) (hmn : m ≤ n) : Allocs n s t :=
  h.imp fun _ hk => ⟨hk.1.trans hmn, hk.2⟩

/-- A few calls leave the pool without its first pages only. -/
theorem Pool.allocs {F : Set Nat} {L a n : Nat} {s t : Pmm} (h : Pool (F \ Set.Ico L (L + a)) s)
    (low : ∀ q ∈ F, L ≤ q) (hF : ∀ k, k < a + n → L + k ∈ F) (hs : Allocs n s t) :
    ∃ b, b ≤ a + n ∧ Pool (F \ Set.Ico L (L + b)) t := by
  obtain ⟨k, hk, rfl⟩ := hs
  refine ⟨a + k, by omega, ?_⟩
  induction k with
  | zero => exact h
  | succ k ih =>
    obtain ⟨u, hu, -, hpool⟩ := Pool.next (ih (by omega)) low (hF (a + k) (by omega))
    rw [Function.iterate_succ_apply', hu]
    exact hpool

theorem getOrAlloc_allocs (s : Vmm) (t : u64) (i : Index) (alloc : Bool) :
    Allocs 1 s.pmm (getOrAlloc s t i alloc).2.pmm := by
  rw [getOrAlloc]
  simp only
  split
  case isTrue => split <;> exact .refl 1 s.pmm
  case isFalse =>
    split
    case isTrue => exact .refl 1 s.pmm
    case isFalse => split <;> exact .one s.pmm

theorem mapPageInto_allocs (s : Vmm) (pml4 v p flags : u64) :
    Allocs 3 s.pmm (mapPageInto s pml4 v p flags).2.pmm := by
  have h1 := getOrAlloc_allocs s pml4 (pml4Idx v) true
  rw [mapPageInto]
  simp only
  generalize getOrAlloc s pml4 (pml4Idx v) true = r1 at *
  split
  case isTrue => exact h1.mono (by decide)
  case isFalse =>
    have h2 := h1.trans (getOrAlloc_allocs r1.2 r1.1 (pdptIdx v) true)
    generalize getOrAlloc r1.2 r1.1 (pdptIdx v) true = r2 at *
    split
    case isTrue => exact h2.mono (by decide)
    case isFalse =>
      have h3 := h2.trans (getOrAlloc_allocs r2.2 r2.1 (pdIdx v) true)
      split <;> exact h3

/-! ## Mapping a page through three fresh tables -/

theorem getOrAlloc_fresh {s : Vmm} {t f : u64} {i : Index} {p : Pmm}
    (habs : has (s.mem t i) PTE_PRESENT = false) (ha : allocPage s.pmm = (f, p)) (hf : f ≠ 0) :
    getOrAlloc s t i true =
      (f, { s with pmm := p, mem := graft s.mem t i f (fun _ => 0) (tableEntry f) }) := by
  rw [getOrAlloc, habs, ha]
  simp only [Bool.not_true, Bool.false_eq_true, if_false, if_neg hf]

/-- The memory after a page was mapped through the fresh tables `f1`, `f2` and `f3`. -/
def mappedFresh (m : Mem) (pml4 v f1 f2 f3 e : u64) : Mem :=
  let zero : Table := fun _ => 0
  let m := graft m pml4 (pml4Idx v) f1 zero (tableEntry f1)
  let m := graft m f1 (pdptIdx v) f2 zero (tableEntry f2)
  write (graft m f2 (pdIdx v) f3 zero (tableEntry f3)) f3 (ptIdx v) e

section

variable {s : Vmm} {pml4 v f1 f2 f3 : u64} (d1 : pml4 ∉ [f1, f2, f3]) (d2 : f1 ∉ [f2, f3])
include d1 d2

theorem mapPageInto_fresh (phys flags : u64) {p1 p2 p3 : Pmm}
    (habs : has (s.mem pml4 (pml4Idx v)) PTE_PRESENT = false)
    (a1 : allocPage s.pmm = (f1, p1)) (a2 : allocPage p1 = (f2, p2)) (a3 : allocPage p2 = (f3, p3))
    (n1 : f1 ≠ 0) (n2 : f2 ≠ 0) (n3 : f3 ≠ 0) :
    mapPageInto s pml4 v phys flags = (true, { s with
      pmm := p3, mem := mappedFresh s.mem pml4 v f1 f2 f3 (leafEntry phys flags) }) := by
  simp only [List.mem_cons, List.not_mem_nil, or_false, not_or] at d1 d2
  rw [mapPageInto, getOrAlloc_fresh habs a1 n1]
  simp only [if_neg n1]
  rw [getOrAlloc_fresh _ a2 n2]
  · simp only [if_neg n2]
    rw [getOrAlloc_fresh _ a3 n3]
    · simp only [if_neg n3]
      rfl
    · simp only [graft, write_of_table_ne (Ne.symm d2.1), fill_same]
      decide
  · simp only [graft, write_of_table_ne (Ne.symm d1.1), fill_same]
    decide

variable (d3 : f2 ≠ f3)
include d3

theorem mappedFresh_entries (m : Mem) (e : u64) :
    mappedFresh m pml4 v f1 f2 f3 e pml4 (pml4Idx v) = tableEntry f1 ∧
      mappedFresh m pml4 v f1 f2 f3 e f1 (pdptIdx v) = tableEntry f2 ∧
      mappedFresh m pml4 v f1 f2 f3 e f2 (pdIdx v) = tableEntry f3 ∧
      mappedFresh m pml4 v f1 f2 f3 e f3 (ptIdx v) = e := by
  simp only [List.mem_cons, List.not_mem_nil, or_false, not_or] at d1 d2
  obtain ⟨d11, d12, d13⟩ := d1
  obtain ⟨d21, d22⟩ := d2
  refine ⟨?_, ?_, ?_, write_same _ _ _ _⟩
  · simp [mappedFresh, graft, write_of_table_ne, fill_of_ne, d11, d12, d13]
  · simp [mappedFresh, graft, write_of_table_ne, fill_of_ne, d21, d22]
  · simp [mappedFresh, graft, write_of_table_ne, d3]

/-- `V2P` finds the page just mapped. -/
theorem v2p_mappedFresh (m : Mem) (flags : u64) {phys : u64} (hphys : IsFrame phys)
    (hflags : flags &&& PTE_ADDR_MASK = 0) (h1 : IsFrame f1) (h2 : IsFrame f2) (h3 : IsFrame f3)
    (hv : v &&& 0xFFF#64 = 0) :
    v2p (mappedFresh m pml4 v f1 f2 f3 (leafEntry phys flags)) pml4 v = phys := by
  obtain ⟨e1, e2, e3, e4⟩ := mappedFresh_entries d1 d2 d3 m (v := v) (leafEntry phys flags)
  have table : ∀ f, IsFrame f → has (tableEntry f) PTE_PRESENT = true ∧
      has (tableEntry f) PTE_PS = false ∧ tableEntry f &&& PTE_ADDR_MASK = f := fun f hf =>
    link_eq_some.mp (link_tableEntry hf)
  obtain ⟨p1, s1, m1⟩ := table f1 h1
  obtain ⟨p2, s2, m2⟩ := table f2 h2
  obtain ⟨p3, s3, m3⟩ := table f3 h3
  simp only [v2p, e1, p1, m1, e2, p2, s2, m2, e3, p3, s3, m3, e4, leafEntry_present, Bool.not_true,
    Bool.false_eq_true, if_false, leafEntry_frame hphys hflags, hv]
  exact BitVec.or_zero

end

/-! ## The run of boot -/

theorem unmapPage_pmm (s : Vmm) (v : u64) : (unmapPage s v).pmm = s.pmm := by
  simp only [unmapPage]
  split
  case isTrue => rfl
  case isFalse =>
    split
    case isTrue => rfl
    case isFalse => split <;> rfl

section

variable {pt bmStart : u64} {bi : Option BootInfo} {F : Set Nat} {L : Nat}

/-- The smoke test passes when slot 511 is empty and four pages are there. -/
theorem smokeTest_passes {m : Mem} {p0 : Pmm} {a : Nat} (hslot : m pt SOFT_SLOT = 0)
    (hroot : ∀ k, L ≤ k → k < L + 1029 → pt ≠ pageAddr k)
    (hp : Pool (F \ Set.Ico L (L + a)) p0) (ha : a + 4 ≤ 1029) (low : ∀ q ∈ F, L ≤ q)
    (run : Set.Ico L (L + 1029) ⊆ F) (hL : 0 < L) :
    ∃ t, smokeTest { mem := m, pmm := p0, pml4Phys := pt } = some t ∧
      Pool (insert (L + a) (F \ Set.Ico L (L + (a + 4)))) t.pmm := by
  have inF : ∀ k, k < 1029 → L + k ∈ F := fun k hk => run ⟨by omega, by omega⟩
  have bound : ∀ k, k < 1029 → L + k < MAX_PAGES := by
    intro k hk
    by_cases hka : k < a
    · have := hp.within (L + a) ⟨inF a (by omega), fun h => absurd h.2 (Nat.lt_irrefl _)⟩
      omega
    · exact hp.within (L + k) ⟨inF k hk, fun h => absurd h.2 (by omega)⟩
  have nonzero : ∀ k, k < 1029 → pageAddr (L + k) ≠ 0 := by
    intro k hk hz
    have := pageAddr_inj (bound k hk) (q := 0) (by decide) (by rw [hz]; rfl)
    omega
  have apart : ∀ j k, j < 1029 → k < 1029 → j ≠ k → pageAddr (L + j) ≠ pageAddr (L + k) := by
    intro j k hj hk hne heq
    have := pageAddr_inj (bound j hj) (bound k hk) heq
    omega
  have frame : ∀ k, k < 1029 → IsFrame (pageAddr (L + k)) := fun k hk => isFrame_pageAddr (bound k hk)
  obtain ⟨p1, e1, -, h1⟩ := Pool.next hp low (inF a (by omega))
  obtain ⟨p2, e2, -, h2⟩ := Pool.next h1 low (inF (a + 1) (by omega))
  obtain ⟨p3, e3, -, h3⟩ := Pool.next h2 low (inF (a + 1 + 1) (by omega))
  obtain ⟨p4, e4, -, h4⟩ := Pool.next h3 low (inF (a + 1 + 1 + 1) (by omega))
  have d1 : pt ∉ [pageAddr (L + (a + 1)), pageAddr (L + (a + 1 + 1)),
      pageAddr (L + (a + 1 + 1 + 1))] := by
    simp only [List.mem_cons, List.not_mem_nil, or_false, not_or]
    exact ⟨hroot _ (by omega) (by omega), hroot _ (by omega) (by omega),
      hroot _ (by omega) (by omega)⟩
  have d2 : pageAddr (L + (a + 1)) ∉ [pageAddr (L + (a + 1 + 1)),
      pageAddr (L + (a + 1 + 1 + 1))] := by
    simp only [List.mem_cons, List.not_mem_nil, or_false, not_or]
    exact ⟨apart _ _ (by omega) (by omega) (by omega), apart _ _ (by omega) (by omega) (by omega)⟩
  have d3 := apart (a + 1 + 1) (a + 1 + 1 + 1) (by omega) (by omega) (by omega)
  have hslot' : has (m pt (pml4Idx TEST_VA)) PTE_PRESENT = false := by
    rw [show pml4Idx TEST_VA = SOFT_SLOT by decide, hslot]
    decide
  have hmap := mapPageInto_fresh (s := { mem := m, pmm := p1, pml4Phys := pt }) (v := TEST_VA) d1 d2
    (pageAddr (L + a)) (PTE_PRESENT ||| PTE_WRITABLE) hslot' e2 e3 e4
    (nonzero _ (by omega)) (nonzero _ (by omega)) (nonzero _ (by omega))
  have hv := v2p_mappedFresh d1 d2 d3 m (PTE_PRESENT ||| PTE_WRITABLE) (v := TEST_VA) (frame a (by omega))
    (by decide) (frame _ (by omega)) (frame _ (by omega))
    (frame _ (by omega)) (by decide)
  rw [smokeTest, e1]
  simp only [if_neg (nonzero a (by omega)), mapPage, hmap, hv, Bool.not_true, Bool.false_eq_true,
    if_false, ne_eq, not_true_eq_false]
  refine ⟨_, rfl, ?_⟩
  rw [unmapPage_pmm]
  exact h4.freePage (bound a (by omega)) fun h => h.2 ⟨by omega, by omega⟩

/-- **Boot succeeds** and shows the shared page when the lowest free pages are
1029 in a row; it uses exactly these. -/
theorem boot_shows (hb : TablesAt pt bi) (hF : Pool F (init bmStart bi)) (low : ∀ q ∈ F, L ≤ q)
    (run : Set.Ico L (L + 1029) ⊆ F) (m : Mem) (page : Table) :
    ∃ s, boot m pt bmStart bi page = some (true, s) ∧ Pool (F \ Set.Ico L (L + 1029)) s.pmm := by
  have inF : ∀ k, k < 1029 → L + k ∈ F := fun k hk => run ⟨by omega, by omega⟩
  have hL : 0 < L := by
    have := ((init_free_iff bmStart bi (L + 0)).mp
      ((hF.free _ (hF.within _ (inF 0 (by omega)))).mpr (inF 0 (by omega)))).2.2
    simp only [LOW_PAGES, PAGE_SIZE] at this
    omega
  have nonzero : ∀ k, k < 1029 → pageAddr (L + k) ≠ 0 := by
    intro k hk hz
    have := pageAddr_inj (hF.within _ (inF k hk)) (q := 0) (by decide) (by rw [hz]; rfl)
    omega
  have hpt : pt &&& PTE_ADDR_MASK = pt := frameAt_zero pt ▸ hb.isFrame (k := 0) (by decide)
  have hroot : ∀ k, L ≤ k → k < L + 1029 → pt ≠ pageAddr k := by
    intro k h1 h2
    have hk : k ∈ F := run ⟨h1, h2⟩
    have hused := hb.used (k := 0) bmStart
      (s := { mem := m, pmm := init bmStart bi, pml4Phys := pt }) rfl (by decide)
    rw [frameAt_zero] at hused
    exact hused k (hF.within k hk) ((hF.free k (hF.within k hk)).mpr hk)
  -- the heap
  obtain ⟨p0, e0, t0, h0⟩ := hF.allocPages (i := L) (n := 1024) (by omega)
    (fun q hq => run ⟨hq.1, by have := hq.2; omega⟩) fun j hj hrun =>
      absurd (low j (hrun ⟨le_rfl, Nat.lt_add_of_pos_right (by omega)⟩)) (Nat.not_le.mpr hj)
  -- the test page
  have hslot : buildPageTables m pt pt SOFT_SLOT = 0 := by
    rw [buildPageTables_pml4 hb]
    rfl
  obtain ⟨t, ht, h4⟩ := smokeTest_passes hslot hroot h0 (by omega) low run hL
  obtain ⟨is, hB, htbl, hsplit, hpds, -⟩ :=
    ((booting_start hb m bmStart fun _ _ => True).takes t0).smokeTest ht
  have hpds' : ∀ j, j < 4 → t.mem (pdAddr pt j) = pdEntry j := by
    intro j hj
    rw [hpds j hj]
    simp only [buildPageTables_pd hb m hj]
  -- the shared page, which is the test page again
  have least : IsLeast (insert (L + 1024) (F \ Set.Ico L (L + (1024 + 4)))) (L + 1024) := by
    refine ⟨Set.mem_insert _ _, fun q hq => ?_⟩
    rcases Set.mem_insert_iff.mp hq with rfl | hq
    · exact le_rfl
    · have hlow := low q hq.1
      by_contra hlt
      exact hq.2 ⟨hlow, by omega⟩
  have rest : insert (L + 1024) (F \ Set.Ico L (L + (1024 + 4))) \ {L + 1024} =
      F \ Set.Ico L (L + (1024 + 4)) := by
    rw [Set.insert_sdiff_self_of_notMem]
    exact fun h => h.2 ⟨by omega, by omega⟩
  obtain ⟨p5, e5, t5, h5⟩ := h4.allocPage least
  rw [rest] at h5
  obtain ⟨p6, e6, t6, h6⟩ := Pool.next h5 low (inF 1028 (by omega))
  obtain ⟨hD, same⟩ := hB.dataPage (fun u hu => hsplit u hu) t5 page
    (splitEntry (pageAddr (L + 1024)))
  have hshow := mapSharedUserData_eq hb hD
    (fun j hj => by simp only [same _ _ ((hB.kpd j _).mpr ⟨hj, rfl⟩), hpds' j hj])
  simp only [e6, if_neg (nonzero (1024 + 4) (by omega))] at hshow
  have hheap : pageAddr L ≠ 0 := nonzero 0 (by omega)
  have hboot : boot m pt bmStart bi page = some (kuserInit t page) := by
    simp only [Boot.boot, hpt, HEAP_PAGES, e0, if_neg hheap, ht, Option.map_some]
  have hkuser : kuserInit t page = mapSharedUserData
      { t with pmm := p5, mem := fill t.mem (pageAddr (L + 1024)) page } (pageAddr (L + 1024)) := by
    rw [kuserInit, e5]
    simp only [if_neg (nonzero 1024 (by omega))]
  exact ⟨_, by rw [hboot, hkuser, hshow], h6⟩

/-- A boot map with an entry that offers the pages from 2 MB on, with the tables
at 256 MB and the bitmap in the first 2 MB. -/
theorem boot_shows_from_2MB (hb : TablesAt 0x10000000#64 bi) {e : BootMemoryEntry}
    (he : e ∈ bootEntries bi) (ht : e.type = .available) (hf : e.first.toNat ≤ 0x200000)
    (hs : 0x605000 ≤ e.stop.toNat) :
    ∃ s, boot (fun _ _ => 0) 0x10000000#64 0x120000#64 bi (fun _ => 0) = some (true, s) ∧
      Pool {q | (∃ e ∈ bootEntries bi, e.Offers q) ∧ 1541 ≤ q} s.pmm := by
  have bitmap : ∀ q, 512 ≤ q → ¬ OnBitmap 0x120000#64 q := by
    intro q hq h
    have hend : (alignUp (0x120000#64 + BitVec.ofNat 64 BITMAP_BYTES) pageSize64).toNat = 0x160000 := by
      decide
    have := h.2
    rw [hend] at this
    simp only [PAGE_SIZE] at this
    omega
  have run : Set.Ico 512 (512 + 1029) ⊆ {q | (∃ e ∈ bootEntries bi, e.Offers q) ∧
      ¬ OnBitmap 0x120000#64 q ∧ LOW_PAGES ≤ q} := by
    intro q ⟨h1, h2⟩
    refine ⟨⟨e, he, ht, ?_, ?_, ?_⟩, bitmap q h1, h1⟩
    · simp only [PAGE_SIZE]; omega
    · simp only [PAGE_SIZE]; omega
    · simp only [MAX_PAGES, PAGE_SIZE]; omega
  obtain ⟨s, hboot, hp⟩ := boot_shows hb (pool_init 0x120000#64 bi) (L := 512)
    (fun q hq => hq.2.2) run (fun _ _ => 0) fun _ => 0
  refine ⟨s, hboot, ?_⟩
  convert hp using 1
  ext q
  symm
  constructor
  · intro ⟨hF, hn⟩
    have hlow : 512 ≤ q := hF.2.2
    refine ⟨hF.1, ?_⟩
    by_contra hlt
    exact hn ⟨hlow, by omega⟩
  · intro ⟨ho, hq'⟩
    exact ⟨⟨ho, bitmap q (by omega), show 512 ≤ q by omega⟩, fun h => absurd h.2 (by omega)⟩

end

/-- 5 MB of memory from 2 MB on. -/
def lowBoot : BootInfo :=
  { magic := BOOTINFO_MAGIC, memoryMap := [⟨0x200000#64, 0x500000#64, .available⟩] }

theorem tablesAt_lowBoot : TablesAt 0x10000000#64 (some lowBoot) where
  aligned := by decide
  below := by decide
  apart := by
    intro e he q ho
    obtain rfl := List.mem_singleton.mp he
    have hstop := ho.2.2.1
    rw [show (BootMemoryEntry.stop ⟨0x200000#64, 0x500000#64, .available⟩).toNat = 0x700000 by decide]
      at hstop
    simp only [PAGE_SIZE, show (0x10000000#64).toNat = 0x10000000 from rfl] at *
    omega

/-- The pages that boot leaves free with that memory. -/
def lowPages : Set Nat := {q | (∃ e ∈ bootEntries (some lowBoot), e.Offers q) ∧ 1541 ≤ q}

theorem lowPages_mem {q : Nat} (h1 : 1541 ≤ q) (h2 : q < 1792) : q ∈ lowPages := by
  refine ⟨⟨_, List.mem_cons_self, rfl, ?_, ?_, ?_⟩, h1⟩
  · rw [show (BootMemoryEntry.first ⟨0x200000#64, 0x500000#64, .available⟩).toNat = 0x200000 by
      decide]
    simp only [PAGE_SIZE]
    omega
  · rw [show (BootMemoryEntry.stop ⟨0x200000#64, 0x500000#64, .available⟩).toNat = 0x700000 by
      decide]
    simp only [PAGE_SIZE]
    omega
  · simp only [MAX_PAGES, PAGE_SIZE]
    omega

theorem lowBoot_pool :
    ∃ v, boot (fun _ _ => 0) 0x10000000#64 0x120000#64 (some lowBoot) (fun _ => 0) =
        some (true, v) ∧ Pool (lowPages \ Set.Ico 1541 (1541 + 0)) v.pmm := by
  obtain ⟨v, hboot, hpool⟩ := boot_shows_from_2MB tablesAt_lowBoot List.mem_cons_self rfl
    (by decide) (by decide)
  rw [Nat.add_zero, Set.Ico_self, Set.sdiff_empty]
  exact ⟨v, hboot, hpool⟩

end MicroNT.Kernel
