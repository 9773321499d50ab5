import MicroNT.BootSucceeds
import MicroNT.KernelSpaces
import MicroNT.Permissions

/-! # The identity map

The kernel uses physical addresses as pointers. The bootloader maps the first
4 GB onto themselves, and every user PML4 takes that over; the allocator manages
8 GB, and the shared page sits on one of the identity-mapped addresses. -/

namespace MicroNT.Kernel

open MicroNT.PMM hiding step Op System
open MicroNT.VMM MicroNT.Boot MicroNT.Base.Radix MicroNT.Base.Machine

/-! ## Indices of low addresses -/

theorem index_toNat (v : u64) (k : Nat) :
    ((v >>> k).setWidth 9).toNat = v.toNat / 2 ^ k % 512 := by
  rw [BitVec.toNat_setWidth, BitVec.toNat_ushiftRight, Nat.shiftRight_eq_div_pow]

theorem low_iff (v : u64) : Low v ↔ v.toNat % 2 ^ 48 < 2 ^ 32 := by
  have h4 : (pml4Idx v).toNat = v.toNat / 2 ^ 39 % 512 := index_toNat v 39
  have h3 : (pdptIdx v).toNat = v.toNat / 2 ^ 30 % 512 := index_toNat v 30
  rw [Low, ← BitVec.toNat_inj, h4, h3, show (0#9).toNat = 0 from rfl]
  omega

theorem low_pd {v : u64} (h : v.toNat < 2 ^ 32) :
    (pdptIdx v).toNat * 512 + (pdIdx v).toNat = v.toNat / 2 ^ 21 := by
  have h3 : (pdptIdx v).toNat = v.toNat / 2 ^ 30 % 512 := index_toNat v 30
  have h2 : (pdIdx v).toNat = v.toNat / 2 ^ 21 % 512 := index_toNat v 21
  omega

/-- A 2 MB page of the bootloader maps an address to itself. -/
theorem pdEntry_identity {v : u64} (h : v.toNat < 2 ^ 32) :
    (pdEntry (pdptIdx v).toNat (pdIdx v) &&& HUGE_2M_MASK) ||| (v &&& 0x1FFFFF#64) = v := by
  have base : BitVec.ofNat 64 (((pdptIdx v).toNat * 512 + (pdIdx v).toNat) * 0x200000) =
      (v >>> 21) <<< 21 := by
    rw [low_pd h, ← BitVec.toNat_inj, BitVec.toNat_ofNat, BitVec.toNat_shiftLeft,
      BitVec.toNat_ushiftRight, Nat.shiftRight_eq_div_pow, Nat.shiftLeft_eq]
  rw [pdEntry, base]
  refine BitVec.eq_of_getLsbD_eq fun i hi => ?_
  have flags : ∀ j : Fin 64, (0x83#64).getLsbD j = true → j.val < 8 := by decide
  have mask : ∀ j : Fin 64, HUGE_2M_MASK.getLsbD j = (decide (21 ≤ j.val) && decide (j.val < 52)) := by
    decide
  have offset : ∀ j : Fin 64, (0x1FFFFF#64).getLsbD j = decide (j.val < 21) := by decide
  simp only [BitVec.getLsbD_or, BitVec.getLsbD_and, BitVec.getLsbD_shiftLeft,
    BitVec.getLsbD_ushiftRight, mask ⟨i, hi⟩, offset ⟨i, hi⟩]
  by_cases h21 : i < 21
  · simp [h21, show ¬ 21 ≤ i by omega]
  · have hf : (0x83#64).getLsbD i = false := by
      cases hf : (0x83#64).getLsbD i with
      | false => rfl
      | true => have := flags ⟨i, hi⟩ hf; exact absurd this (by simp only; omega)
    rw [show 21 + (i - 21) = i by omega]
    rw [hf]
    by_cases h52 : i < 52
    · simp [h21, h52, hi, show 21 ≤ i by omega]
    · have hv : v.getLsbD i = false := by
        rw [← BitVec.testBit_toNat]
        exact Nat.testBit_lt_two_pow (Nat.lt_of_lt_of_le h (Nat.pow_le_pow_right (by omega)
          (by omega)))
      simp [h52, hv]

/-- The page of the shared user data, as an identity-mapped page. -/
abbrev KUSER_PAGE : Nat := 0x7FFE0

/-- The split block maps an address to itself, but for the shared page. -/
theorem splitEntry_identity (phys : u64) {v : u64} (h : v.toNat < 2 ^ 32) (h1 : pdptIdx v = 1#9)
    (h2 : pdIdx v = 511#9) (hk : v.toNat / PAGE_SIZE ≠ KUSER_PAGE) :
    has (splitEntry phys (ptIdx v)) PTE_PRESENT = true ∧
      has (splitEntry phys (ptIdx v)) PTE_WRITABLE = true ∧
      (splitEntry phys (ptIdx v) &&& PTE_ADDR_MASK) ||| (v &&& 0xFFF#64) = v := by
  have hpd := low_pd h
  rw [h1, h2] at hpd
  have hi : (ptIdx v).toNat = v.toNat / 2 ^ 12 % 512 := index_toNat v 12
  have hne : ptIdx v ≠ ptIdx KUSER_VA := by
    intro heq
    have := congrArg BitVec.toNat heq
    rw [hi, show (ptIdx KUSER_VA).toNat = 480 by decide] at this
    simp only [PAGE_SIZE, KUSER_PAGE, show (1#9).toNat = 1 from rfl,
      show (511#9).toNat = 511 from rfl] at *
    omega
  have page : (0x7FE00000#64 + (ptIdx v).setWidth 64 * pageSize64).toNat =
      v.toNat / PAGE_SIZE * PAGE_SIZE := by
    rw [BitVec.toNat_add, BitVec.toNat_mul, BitVec.toNat_setWidth, hi]
    simp only [PAGE_SIZE, pageSize64, show (1#9).toNat = 1 from rfl,
      show (511#9).toNat = 511 from rfl, show (0x7FE00000#64).toNat = 0x7FE00000 from rfl,
      show (0x1000#64).toNat = 0x1000 from rfl] at *
    omega
  have frame : IsFrame (0x7FE00000#64 + (ptIdx v).setWidth 64 * pageSize64) := by
    rw [isFrame_iff, page]
    simp only [PAGE_SIZE]
    omega
  have three : ∀ f : u64, f ||| PTE_PRESENT ||| PTE_WRITABLE = f ||| 3#64 := by
    intro f
    rw [BitVec.or_assoc]
    rfl
  rw [splitEntry, if_neg hne, three]
  obtain ⟨hp, hw, -, -⟩ := super_bits frame
  refine ⟨hp, hw, ?_⟩
  rw [(link_eq_some.mp (link_super frame)).2.2, frame_or_offset frame, ← BitVec.toNat_inj,
    BitVec.toNat_add, page, offset_toNat]
  simp only [PAGE_SIZE]
  omega

/-! ## Usable frames -/

/-- The frame is mapped to itself, writable, in the kernel's PML4 and in every
user PML4. -/
def Usable (s : System) (q : Nat) : Prop :=
  ∀ pml4, s.IsSpace pml4 → ∀ o, o < 0x1000#64 →
    translateInPml4 s.vmm.mem pml4 (pageAddr q + o) = pageAddr q + o ∧
      ∀ e ∈ entries s.vmm.mem pml4 (pageAddr q + o), has e PTE_WRITABLE = true

/-- Below 4 GB, and not where the shared page is shown. -/
def InMap (shown : Bool) (q : Nat) : Prop :=
  q * PAGE_SIZE < 2 ^ 32 ∧ (shown = true → q ≠ KUSER_PAGE)

section

variable {R : Rows} {shown : Bool} {split : Index → u64 → Prop} {Ok : Nat → Prop}
  {is : Role → u64 → Prop} {s : System} {phys : u64}

theorem page_offset {q : Nat} (hq : q < MAX_PAGES) {o : u64} (ho : o < 0x1000#64) :
    (pageAddr q + o).toNat = q * PAGE_SIZE + o.toNat := by
  have h := toNat_add_offset (v := pageAddr q) (by
    rw [pageAddr_toNat hq]
    exact Nat.mul_mod_left _ _) ho
  rw [h, pageAddr_toNat hq]

/-- A low address outside the split block is in a 2 MB page. -/
theorem Inv.low_huge (h : Inv R split Ok is s) (hg : R.Good shown) {pml4 v : u64}
    (hp : s.IsSpace pml4) (hlow : Low v)
    (hblock : ¬ (shown = true ∧ pdptIdx v = 1#9 ∧ pdIdx v = 511#9)) :
    ∃ e1 e2, entries s.vmm.mem pml4 v = [e1, e2, pdEntry (pdptIdx v).toNat (pdIdx v)] ∧
      has e1 PTE_WRITABLE = true ∧ has e2 PTE_WRITABLE = true := by
  obtain ⟨pdpt, pd, l1, l2, e2, e3, -, w1, -⟩ := h.low_walk hg hp hlow
  obtain ⟨-, -, w2⟩ := hg.pdpt_entry hlow.2
  rw [← e2] at w2
  have he : s.vmm.mem pd (pdIdx v) = pdEntry (pdptIdx v).toNat (pdIdx v) := by
    rw [e3]
    by_cases hb : (pdptIdx v).toNat = 1 ∧ pdIdx v = 511#9
    · have h1 : pdptIdx v = 1#9 := BitVec.eq_of_toNat_eq hb.1
      have hs : shown = false := by
        cases shown with
        | false => rfl
        | true => exact absurd ⟨rfl, h1, hb.2⟩ hblock
      rw [hb.1, hb.2]
      exact hg.whole hs
    · exact hg.pd _ _ hlow.2 hb
  refine ⟨_, _, ?_, w1, w2⟩
  simp only [VMM.entries, path, walk_cons_cons, l1, l2, he, link_pdEntry, Option.elim_some,
    Option.elim_none]

/-- Ring 3 reads no 2 MB page of the kernel. -/
theorem Inv.low_closed (h : Inv R split Ok is s) (hg : R.Good shown) {pml4 v : u64}
    (hp : s.IsSpace pml4) (hlow : Low v)
    (hblock : ¬ (shown = true ∧ pdptIdx v = 1#9 ∧ pdIdx v = 511#9)) :
    userReads s.vmm.mem pml4 v = false := by
  obtain ⟨e1, e2, hl, -, -⟩ := h.low_huge hg hp hlow hblock
  simp [userReads, userCan, hl, pdEntry_user]

/-- Low addresses are identity-mapped, but for the shared page. -/
theorem Inv.identity (h : Inv R (fun i e => e = splitEntry phys i) Ok is s) (hg : R.Good shown)
    {pml4 v : u64} (hp : s.IsSpace pml4) (hv : v.toNat < 2 ^ 32)
    (hk : shown = true → v.toNat / PAGE_SIZE ≠ KUSER_PAGE) :
    translateInPml4 s.vmm.mem pml4 v = v ∧
      ∀ e ∈ entries s.vmm.mem pml4 v, has e PTE_WRITABLE = true := by
  have hlow : Low v := (low_iff v).mpr (by omega)
  by_cases hblock : shown = true ∧ pdptIdx v = 1#9 ∧ pdIdx v = 511#9
  case neg =>
    obtain ⟨e1, e2, hl, w1, w2⟩ := h.low_huge hg hp hlow hblock
    refine ⟨?_, fun e hm => ?_⟩
    · rw [translateInPml4_eq, hl]
      simp only [resolve, (pdEntry_bits _ _).1, if_true]
      exact pdEntry_identity hv
    · rw [hl] at hm
      simp only [List.mem_cons, List.not_mem_nil, or_false] at hm
      rcases hm with rfl | rfl | rfl
      · exact w1
      · exact w2
      · rw [has_writable, pdEntry, BitVec.getLsbD_or]
        exact Bool.or_true _
  case pos =>
    obtain ⟨hs, h1, h2⟩ := hblock
    -- a page of the split block
    obtain ⟨pdpt, pd, pt, hr, hsplit⟩ := h.block_reaches hg hs hp hlow h1 h2
    have ho := (h.low_block hg hp hlow hr).2.2.2
    have he : s.vmm.mem pt (ptIdx v) = splitEntry phys (ptIdx v) := h.typed.entry _ _ _ hsplit
    obtain ⟨p4, w4, hid⟩ := splitEntry_identity phys hv h1 h2 (hk hs)
    refine ⟨?_, fun e hm => ?_⟩
    · rw [hr.translate, he, if_pos p4, hid]
    · rw [hr.entries, he] at hm
      simp only [List.mem_cons, List.not_mem_nil, or_false] at hm
      rcases hm with rfl | rfl | rfl | rfl
      · exact (ho _ (by simp)).2.2
      · exact (ho _ (by simp)).2.2
      · exact (ho _ (by simp)).2.2
      · exact w4

theorem Inv.usable (h : Inv R (fun i e => e = splitEntry phys i) Ok is s) (hg : R.Good shown)
    {q : Nat} (hq : q < MAX_PAGES) (hm : InMap shown q) : Usable s q := by
  intro pml4 hp o ho
  have hv := page_offset hq ho
  have hlt : o.toNat < 0x1000 := ho
  refine h.identity hg hp ?_ fun hs => ?_
  · have := hm.1
    simp only [PAGE_SIZE] at *
    omega
  · have := hm.2 hs
    simp only [PAGE_SIZE] at *
    omega

/-- A page outside the map is not usable, already in the kernel's PML4. -/
theorem Inv.inMap (h : Inv R (fun i e => e = splitEntry phys i) Ok is s) (hg : R.Good shown)
    {q : Nat} (hq : q < MAX_PAGES) (hu : Usable s q) : InMap shown q := by
  obtain ⟨htr, hw⟩ := hu _ (.inl rfl) 0#64 (by decide)
  rw [BitVec.add_zero] at htr hw
  have hval := pageAddr_toNat hq
  constructor
  · -- from 4 GB on the kernel's PDPT has no entry
    by_contra hge
    have h4 : (pml4Idx (pageAddr q)).toNat = (pageAddr q).toNat / 2 ^ 39 % 512 := index_toNat _ 39
    have h3 : (pdptIdx (pageAddr q)).toNat = (pageAddr q).toNat / 2 ^ 30 % 512 := index_toNat _ 30
    have h0 : pml4Idx (pageAddr q) = 0#9 := by
      refine BitVec.eq_of_toNat_eq ?_
      rw [h4, hval, show (0#9).toNat = 0 from rfl]
      simp only [PAGE_SIZE, MAX_PAGES] at *
      omega
    have hj : 4 ≤ (pdptIdx (pageAddr q)).toNat := by
      rw [h3, hval]
      simp only [PAGE_SIZE, MAX_PAGES] at *
      omega
    have hlow := h.kernelLow hg
    obtain ⟨pdpt, hl, -, -, -⟩ := h.slot0 hg (show s.IsSpace s.vmm.pml4Phys from .inl rfl)
    rw [(link_eq_some.mp hl).2.2] at hlow
    have hz : s.vmm.mem pdpt (pdptIdx (pageAddr q)) = 0 := by
      rw [show s.vmm.mem pdpt (pdptIdx (pageAddr q)) = R.kpdpt (pdptIdx (pageAddr q)) from
        h.typed.entry .kpdpt pdpt _ hlow]
      exact hg.pdptRest _ hj
    have hent : entries s.vmm.mem s.vmm.pml4Phys (pageAddr q) =
        [s.vmm.mem s.vmm.pml4Phys 0#9] ++ [0] := by
      simp only [VMM.entries, path, walk_cons_cons, h0, hl, hz, link_zero, Option.elim_some,
        Option.elim_none]
      rfl
    have hbad : pageAddr q = 0 := by
      rw [← htr, translateInPml4_eq, hent]
      exact resolve_absent _ _ (by decide)
    have hzero := congrArg BitVec.toNat hbad
    rw [hval] at hzero
    simp only [PAGE_SIZE] at *
    have : q * 4096 = 0 := hzero
    omega
  · -- the shared page is read-only
    intro hs hk
    have hv : pageAddr q = KUSER_VA := by rw [hk]; decide
    rw [hv] at hw
    obtain ⟨pdpt, pd, pt, hr, hsplit⟩ :=
      h.block_reaches hg hs (show s.IsSpace s.vmm.pml4Phys from .inl rfl) (v := KUSER_VA) (by decide)
        (by decide) (by decide)
    have he : s.vmm.mem pt (ptIdx KUSER_VA) = splitEntry phys (ptIdx KUSER_VA) :=
      h.typed.entry _ _ _ hsplit
    have hwr := hw (splitEntry phys (ptIdx KUSER_VA)) (by rw [hr.entries, he]; simp)
    rw [(splitEntry_kuser phys).2.2] at hwr
    cases hwr

end

/-! ## Runs -/

/-- The operation maps, unmaps and protects no low address. -/
def Op.Apart : Op → Prop
  | .mapPageInto _ v _ _ => ¬ Low v
  | .unmapPageFrom _ v => ¬ Low v
  | .ntProtectVm _ a1 a2 _ => ∀ k, k < (protectSpan a1 a2).toNat → ¬ Low (protectBase a1 + pageAddr k)
  | _ => True

theorem Op.Apart.fits {split : Index → u64 → Prop} {op : Op} (h : op.Apart) : op.Fits split := by
  cases op with
  | mapPageInto p v phys w => exact fun hl => absurd hl h
  | unmapPageFrom p v => exact fun hl => absurd hl h
  | ntProtectVm p a1 a2 a3 => exact fun k e hk hl => absurd hl (h k hk)
  | _ => trivial

/-- Whatever the allocator hands out was free after boot, and every frame that
was free then is usable. -/
structure FramesUsable (v : Vmm) (s : System) : Prop where
  free : ∀ q, q < MAX_PAGES → bitmapTest s.vmm.pmm.bitmap q = false →
    bitmapTest v.pmm.bitmap q = false
  live : ∀ a ∈ s.live.flatten, ∃ q, q < MAX_PAGES ∧ a = pageAddr q ∧
    bitmapTest v.pmm.bitmap q = false
  usable : ∀ q, q < MAX_PAGES → bitmapTest v.pmm.bitmap q = false → Usable s q

/-- If no entry of the boot map offers a page outside the identity map, no such
page is free after boot. -/
theorem free_inMap {m : Mem} {pt bmStart : u64} {bi : Option BootInfo} {page : Table} {shown : Bool}
    {v : Vmm} (hb : TablesAt pt bi) (hboot : boot m pt bmStart bi page = some (shown, v))
    (h : ∀ e ∈ bootEntries bi, ∀ q, e.Offers q → InMap shown q) (q : Nat)
    (hfree : bitmapTest v.pmm.bitmap q = false) : InMap shown q := by
  obtain ⟨-, bits⟩ := boot_booted hb hboot
  have hinit : bitmapTest (init bmStart bi).bitmap q = false := by
    cases hq : bitmapTest (init bmStart bi).bitmap q with
    | false => rfl
    | true => rw [bits q hq] at hfree; cases hfree
  obtain ⟨⟨e, he, ho⟩, -, -⟩ := (init_free_iff bmStart bi q).mp hinit
  exact h e he q ho

/-- **Frames are usable through the identity map** in every run of allocations,
frees, new address spaces and mappings at high addresses exactly when no page
free after boot lies at or above 4 GB or where the shared page is shown. -/
theorem frames_usable_iff (m : Mem) (pt bmStart : u64) (bi : Option BootInfo) (page : Table)
    (shown : Bool) (v : Vmm) (hb : TablesAt pt bi)
    (hboot : boot m pt bmStart bi page = some (shown, v)) :
    (∀ ops : List Op, (∀ op ∈ ops, op.Apart) → Always step (FramesUsable v) (start v) ops) ↔
      ∀ q, q < MAX_PAGES → bitmapTest v.pmm.bitmap q = false → InMap shown q := by
  obtain ⟨⟨R, phys, is, hg, -, hbooted⟩, -⟩ := boot_booted hb hboot
  have hstart : Inv R (fun i e => e = splitEntry phys i)
      (fun q => bitmapTest v.pmm.bitmap q = false) is (start v) := start_inv hbooted fun _ _ h => h
  constructor
  · intro h q hq hfree
    have h0 : FramesUsable v (start v) := h [] (by simp)
    exact hstart.inMap hg hq (h0.usable q hq hfree)
  · intro hin ops hops
    have keep : Always step (fun s => ∃ is, Inv R (fun i e => e = splitEntry phys i)
        (fun q => bitmapTest v.pmm.bitmap q = false) is s) (start v) ops := by
      refine always_invariant (G := fun _ op => op.Apart) ?_ ⟨is, hstart⟩ (along_of_forall_mem hops _)
      intro s op t hs hop ht
      obtain ⟨is, hs⟩ := hs
      exact hs.step hg hop.fits ht
    refine keep.mono fun s hs => ?_
    obtain ⟨is, hs⟩ := hs
    refine ⟨hs.owned.free, fun a ha => ?_, fun q hq hfree => hs.usable hg hq (hin q hq hfree)⟩
    obtain ⟨q, hq, ha, hfree, -⟩ := hs.owned.used a ha
    exact ⟨q, hq, ha, hfree⟩

/-- 1029 pages from 2 MB on and one at 4 GB. -/
def highBoot : BootInfo :=
  { magic := BOOTINFO_MAGIC, memoryMap := [⟨0x200000#64, 0x405000#64, .available⟩,
      ⟨0x100000000#64, 0x1000#64, .available⟩] }

theorem tablesAt_highBoot : TablesAt 0x10000000#64 (some highBoot) where
  aligned := by decide
  below := by decide
  apart := by
    intro e he q ho
    have he : e = ⟨0x200000#64, 0x405000#64, .available⟩ ∨
        e = ⟨0x100000000#64, 0x1000#64, .available⟩ := by
      simpa [bootEntries, highBoot] using he
    rcases he with rfl | rfl
    · have hstop := ho.2.2.1
      rw [show (BootMemoryEntry.stop ⟨0x200000#64, 0x405000#64, .available⟩).toNat = 0x605000 by
        decide] at hstop
      simp only [PAGE_SIZE, show (0x10000000#64).toNat = 0x10000000 from rfl] at *
      omega
    · have hfirst := ho.2.1
      rw [show (BootMemoryEntry.first ⟨0x100000000#64, 0x1000#64, .available⟩).toNat = 0x100000000 by
        decide] at hfirst
      simp only [PAGE_SIZE, show (0x10000000#64).toNat = 0x10000000 from rfl] at *
      omega

/-- With little memory every run is fine. -/
theorem frames_usable_iff_low :
    ∃ v, boot (fun _ _ => 0) 0x10000000#64 0x120000#64 (some lowBoot) (fun _ => 0) = some (true, v) ∧
      ∀ ops : List Op, (∀ op ∈ ops, op.Apart) → Always step (FramesUsable v) (start v) ops := by
  obtain ⟨v, hboot, -⟩ := boot_shows_from_2MB tablesAt_lowBoot List.mem_cons_self rfl
    (by decide) (by decide)
  refine ⟨v, hboot, ?_⟩
  refine (frames_usable_iff _ _ _ _ _ _ v tablesAt_lowBoot hboot).mpr fun q _ hfree => ?_
  refine free_inMap tablesAt_lowBoot hboot (fun e he q ho => ?_) q hfree
  obtain rfl := List.mem_singleton.mp he
  have hstop := ho.2.2.1
  rw [show (BootMemoryEntry.stop ⟨0x200000#64, 0x500000#64, .available⟩).toNat = 0x700000 by decide]
    at hstop
  simp only [InMap, PAGE_SIZE, KUSER_PAGE] at *
  exact ⟨by omega, fun _ => by omega⟩

/-- With a page at 4 GB, `AllocPage` hands that page out, which no PML4 maps. -/
theorem frame_at_4GB_not_usable :
    ∃ v, boot (fun _ _ => 0) 0x10000000#64 0x120000#64 (some highBoot) (fun _ => 0) = some (true, v) ∧
      (allocPage v.pmm).1 = 0x100000000#64 ∧ ¬ Usable (start v) 0x100000 ∧
      ¬ Always step (FramesUsable v) (start v) [.pmm .allocPage] := by
  obtain ⟨v, hboot, hp⟩ := boot_shows_from_2MB tablesAt_highBoot List.mem_cons_self rfl
    (by decide) (by decide)
  have least : IsLeast {q | (∃ e ∈ bootEntries (some highBoot), e.Offers q) ∧ 1541 ≤ q} 0x100000 := by
    refine ⟨⟨⟨_, List.mem_cons_of_mem _ List.mem_cons_self, by decide⟩, by decide⟩, fun q hq => ?_⟩
    obtain ⟨⟨e, he, ho⟩, hge⟩ := hq
    have he : e = ⟨0x200000#64, 0x405000#64, .available⟩ ∨
        e = ⟨0x100000000#64, 0x1000#64, .available⟩ := by
      simpa [bootEntries, highBoot] using he
    rcases he with rfl | rfl
    · have hstop := ho.2.2.1
      rw [show (BootMemoryEntry.stop ⟨0x200000#64, 0x405000#64, .available⟩).toNat = 0x605000 by
        decide] at hstop
      simp only [PAGE_SIZE] at hstop
      omega
    · have hfirst := ho.2.1
      rw [show (BootMemoryEntry.first ⟨0x100000000#64, 0x1000#64, .available⟩).toNat = 0x100000000 by
        decide] at hfirst
      simp only [PAGE_SIZE] at hfirst
      omega
  obtain ⟨t, ht, -, -⟩ := hp.allocPage least
  obtain ⟨⟨R, phys, is, hg, -, hbooted⟩, -⟩ := boot_booted tablesAt_highBoot hboot
  have hstart : Inv R (fun i e => e = splitEntry phys i) (fun _ => True) is (start v) :=
    start_inv hbooted fun _ _ _ => trivial
  have hnot : ¬ Usable (start v) 0x100000 := fun hu =>
    absurd (hstart.inMap hg (by decide) hu).1 (by decide)
  refine ⟨v, hboot, by rw [ht]; rfl, hnot, fun h => hnot (h.1.usable _ (by decide) ?_)⟩
  exact (hp.free 0x100000 (by decide)).mpr least.1

end MicroNT.Kernel
