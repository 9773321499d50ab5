import MicroNT.BootSucceeds
import MicroNT.Permissions
import MicroNT.PhysicalMemoryRuns

/-! # The running kernel's address spaces

After boot the system calls create address spaces, map, unmap and protect user
pages in them at any address, and take pages from the allocator. Low addresses
and slot 511 go through tables that all address spaces share; the roles stay. -/

namespace MicroNT.Kernel

open MicroNT.PMM (Owned block mem_block)
open MicroNT.PMM hiding step Op System
open MicroNT.VMM MicroNT.Boot MicroNT.Base.Radix MicroNT.Base.Machine

/-- The memory manager, the PML4s of the processes and the live blocks of pages. -/
structure System where
  vmm : Vmm
  spaces : List u64
  live : List (List u64)

/-- What every system call maps and protects with: `SectionPteFlags` and the like. -/
def userFlags (writable : Bool) : u64 :=
  if writable then PTE_PRESENT ||| PTE_USER ||| PTE_WRITABLE else PTE_PRESENT ||| PTE_USER

/-- The loop of `NtProtectVirtualMemory`, from page `k` on. -/
def protectPages (pml4 base flags : u64) : Nat → Nat → Vmm → Vmm
  | 0, _, s => s
  | n + 1, k, s =>
    protectPages pml4 base flags n (k + 1) (protectPageInto s pml4 (base + pageAddr k) flags).2

def protectBase (a1 : u64) : u64 := a1 &&& ~~~0xFFF#64

/-- The number of pages, computed modulo 2^64. -/
def protectSpan (a1 a2 : u64) : u64 :=
  let span := (a2 + (a1 &&& 0xFFF#64) + pageSize64 - 1#64) / pageSize64
  if span = 0#64 then 1#64 else span

/-- `NtProtectVirtualMemory` in the process with page tables `cr3`. -/
def ntProtectVm (s : Vmm) (cr3 a1 a2 a3 : u64) : Vmm :=
  protectPages cr3 (protectBase a1) (userFlags (a3 &&& 0xCC#64 != 0#64))
    (protectSpan a1 a2).toNat 0 s

inductive Op
  | pmm (op : PMM.Op)
  | store (physAddr : u64) (i : Index) (value : u64)
  | createUserPml4
  | mapPageInto (pml4 virt phys : u64) (writable : Bool)
  | unmapPageFrom (pml4 virt : u64)
  | ntProtectVm (cr3 a1 a2 a3 : u64)

/-- The allocator's part of the state. -/
def System.pages (s : System) : PMM.System := { pmm := s.vmm.pmm, live := s.live }

/-- System calls work on the PML4 of some process; clients of the allocator
write to pages they hold. -/
def step (s : System) : Op → Option System
  | .pmm op =>
    (PMM.step s.pages op).map fun t =>
      { s with vmm := { s.vmm with pmm := t.pmm }, live := t.live }
  | .store a i value =>
    if pageOf a ∈ s.live.flatten then
      some { s with vmm := { s.vmm with mem := write s.vmm.mem (pageOf a) i value } }
    else none
  | .createUserPml4 =>
    let r := createUserPml4 s.vmm
    some { s with vmm := r.2, spaces := if r.1 = 0 then s.spaces else r.1 :: s.spaces }
  | .mapPageInto pml4 v phys writable =>
    if pml4 ∈ s.spaces then
      some { s with vmm := (mapPageInto s.vmm pml4 v phys (userFlags writable)).2 }
    else none
  | .unmapPageFrom pml4 v =>
    if pml4 ∈ s.spaces then some { s with vmm := unmapPageFrom s.vmm pml4 v } else none
  | .ntProtectVm cr3 a1 a2 a3 =>
    if cr3 ∈ s.spaces then some { s with vmm := ntProtectVm s.vmm cr3 a1 a2 a3 } else none

/-- After boot there is no process yet. -/
def start (s : Vmm) : System := { vmm := s, spaces := [], live := [] }

theorem userFlags_user (w : Bool) : has (userFlags w) PTE_USER = true := by
  cases w <;> decide

theorem userFlags_writable (w : Bool) : has (userFlags w) PTE_WRITABLE = w := by
  cases w <;> decide

theorem userFlags_mask (w : Bool) : userFlags w &&& PTE_ADDR_MASK = 0 := by
  cases w <;> decide

theorem leafEntry_user (p f : u64) (h : has f PTE_USER = true) :
    has (leafEntry p f) PTE_USER = true := by
  rw [has_user] at h
  rw [has_user, leafEntry, BitVec.getLsbD_or, BitVec.getLsbD_or, h]
  simp

/-! ## Paths below a user PML4 -/

/-- The address goes through the kernel's low tables, which all PML4s share. -/
def Low (v : u64) : Prop := pml4Idx v = 0#9 ∧ (pdptIdx v).toNat < 4

instance (v : u64) : Decidable (Low v) := inferInstanceAs (Decidable (_ ∧ _))

/-- The role of the page table of an address. -/
def leafRole (p v : u64) : Role :=
  if Low v then .ksplit
  else if pml4Idx v = SOFT_SLOT then .soft 1
  else .own p 1

theorem leaf_eq (σ : Shape) (p v : u64) : (roles σ).leaf (.root p) v = leafRole p v := by
  simp only [Roles.leaf, Roles.pd, Roles.pdpt, roles, Role.child, leafRole, Low]
  have hne : ¬ (0#9 : Index) = SOFT_SLOT := by decide
  by_cases h0 : pml4Idx v = 0#9
  · by_cases h4 : (pdptIdx v).toNat < 4 <;> simp [h0, h4, hne]
  · by_cases h1 : pml4Idx v = SOFT_SLOT
    · simp [h1, Ne.symm hne]
    · simp [h0, h1]

section

variable {R : Rows} {shown : Bool} {split : Index → u64 → Prop}

theorem Rows.Good.low_present (h : R.Good shown) : has (R.kroot 0#9) PTE_PRESENT = true := by
  rcases h.low with hl | ⟨-, f, hf, he⟩
  · exact isTable_present hl
  · rw [he]
    exact (super_bits hf).1

theorem Rows.Good.pdpt_present (h : R.Good shown) {j : Index} (hj : j.toNat < 4) :
    has (R.kpdpt j) PTE_PRESENT = true := by
  by_cases h1 : j = 1#9
  · subst h1
    rcases h.pdpt1 with hl | ⟨-, f, hf, he⟩
    · exact isTable_present hl
    · rw [he]
      exact (super_bits hf).1
  · obtain ⟨f, hf, he⟩ := h.pdpt j hj h1
    rw [he]
    exact (super_bits hf).1

theorem Rows.Good.pd_present (h : R.Good shown) {j : Nat} (hj : j < 4) (i : Index) :
    has (R.kpd j i) PTE_PRESENT = true := by
  by_cases hb : j = 1 ∧ i = 511#9
  · obtain ⟨rfl, rfl⟩ := hb
    cases shown with
    | true => exact isTable_present (h.block rfl)
    | false => rw [h.whole rfl]; exact (pdEntry_bits 1 511#9).1
  · rw [h.pd j i hj hb]
    exact (pdEntry_bits j i).1

/-- A kernel entry that is there is not replaced. -/
theorem growable_present {σ : Shape} {r : Role} {i : Index}
    (h : ∀ e, (roles σ).ok r i e → has e PTE_PRESENT = true) : Growable (roles σ) r i where
  sole := trivial
  table e f he hn _ := by rw [h e he] at hn; cases hn
  blank e j he hn := by rw [h e he] at hn; cases hn

theorem growable_own (σ : Shape) (p : u64) (n : Nat) (hn : 1 < n) (i : Index) :
    Growable (roles σ) (.own p n) i where
  sole := trivial
  table _ f _ _ hf := by
    simp only [roles, Role.ok, hn, if_true]
    exact fun _ => ⟨f, hf, rfl⟩
  blank _ _ _ _ := by
    simp only [roles, Role.child, Role.ok]
    split
    case isTrue => exact tabular_zero
    case isFalse => exact fun h => absurd h (by decide)

theorem growable_soft (σ : Shape) (n : Nat) (i : Index) : Growable (roles σ) (.soft n) i where
  sole := trivial
  table _ f _ _ hf := fun _ => fun _ => ⟨f, hf, rfl⟩
  blank _ _ _ _ := fun _ => tabular_zero

theorem growable_root (split : Index → u64 → Prop) (h : R.Good shown) (p : u64) (i : Index) :
    Growable (roles (R.shape split)) (.root p) i := by
  by_cases h0 : i = 0#9
  · refine growable_present fun e he => ?_
    simp only [roles, Role.ok, h0, if_true] at he
    exact isTable_present he
  · by_cases h1 : i = SOFT_SLOT
    · refine growable_present fun e he => ?_
      rw [h1] at he
      obtain rfl : e = R.kroot SOFT_SLOT := he
      exact isTable_present h.soft
    · refine ⟨trivial, fun e f _ _ hf => ?_, fun e j _ _ => ?_⟩
      · simp only [roles, Role.ok, h0, h1, if_false]
        exact fun _ => ⟨f, hf, rfl⟩
      · simp only [roles, Role.child, h0, h1, if_false, Role.ok]
        exact tabular_zero

theorem growable_low (h : R.Good shown) (p : u64) (j : Index) :
    Growable (roles (R.shape split)) (.low p) j := by
  by_cases h4 : j.toNat < 4
  · refine growable_present fun e he => ?_
    simp only [roles, Role.ok, h4, if_true] at he
    rw [show e = R.kpdpt j from he]
    exact h.pdpt_present h4
  · refine ⟨trivial, fun e f _ _ hf => ?_, fun e i _ _ => ?_⟩
    · simp only [roles, Role.ok, h4, if_false]
      exact fun _ => ⟨f, hf, rfl⟩
    · simp only [roles, Role.child, h4, if_false, Role.ok]
      exact tabular_zero

theorem growable_kpd (h : R.Good shown) {j : Nat} (hj : j < 4) (i : Index) :
    Growable (roles (R.shape split)) (.kpd j) i :=
  growable_present fun e he => by
    rw [show e = R.kpd j i from he]
    exact h.pd_present hj i

/-- Every address may be given to `MapPageInto` on a user PML4. -/
theorem through_user (h : R.Good shown) (p v : u64) :
    Through (roles (R.shape split)) (.root p) v := by
  have hne : ¬ (0#9 : Index) = SOFT_SLOT := by decide
  have h1 := growable_root split h p (pml4Idx v)
  by_cases h0 : pml4Idx v = 0#9
  · have e3 : (roles (R.shape split)).pdpt (.root p) v = .low p := by
      simp [Roles.pdpt, roles, Role.child, h0]
    by_cases h4 : (pdptIdx v).toNat < 4
    · have e2 : (roles (R.shape split)).pd (.root p) v = .kpd (pdptIdx v).toNat := by
        rw [Roles.pd, e3]
        simp [roles, Role.child, h4]
      exact ⟨h1, e3 ▸ growable_low h p _, e2 ▸ growable_kpd h h4 _, trivial⟩
    · have e2 : (roles (R.shape split)).pd (.root p) v = .own p 2 := by
        rw [Roles.pd, e3]
        simp [roles, Role.child, h4]
      exact ⟨h1, e3 ▸ growable_low h p _, e2 ▸ growable_own _ p 2 (by decide) _, trivial⟩
  · by_cases h511 : pml4Idx v = SOFT_SLOT
    · have e3 : (roles (R.shape split)).pdpt (.root p) v = .soft 3 := by
        simp [Roles.pdpt, roles, Role.child, h511, Ne.symm hne]
      have e2 : (roles (R.shape split)).pd (.root p) v = .soft 2 := by
        rw [Roles.pd, e3]
        rfl
      exact ⟨h1, e3 ▸ growable_soft _ 3 _, e2 ▸ growable_soft _ 2 _, trivial⟩
    · have e3 : (roles (R.shape split)).pdpt (.root p) v = .own p 3 := by
        simp [Roles.pdpt, roles, Role.child, h0, h511]
      have e2 : (roles (R.shape split)).pd (.root p) v = .own p 2 := by
        rw [Roles.pd, e3]
        rfl
      exact ⟨h1, e3 ▸ growable_own _ p 3 (by decide) _, e2 ▸ growable_own _ p 2 (by decide) _,
        trivial⟩

/-- What the page table of an address may hold. -/
theorem leaf_ok {p v e : u64} (hu : has e PTE_PRESENT = true → has e PTE_USER = true)
    (hs : Low v → split (ptIdx v) e) :
    (roles (R.shape split)).ok ((roles (R.shape split)).leaf (.root p) v) (ptIdx v) e := by
  rw [leaf_eq, leafRole]
  split
  case isTrue hl => exact hs hl
  case isFalse =>
    split
    case isTrue => exact fun h => absurd h (by decide)
    case isFalse => exact hu

/-! ## The invariant -/

/-- The tables have their roles and the kernel's own keep their rows, every
process has its PML4, and a page that a client holds is no table. -/
structure Inv (R : Rows) (split : Index → u64 → Prop) (Ok : Nat → Prop) (is : Role → u64 → Prop)
    (s : System) : Prop where
  typed : Typed (roles (R.shape split)) is s.vmm
  root : is .kroot s.vmm.pml4Phys
  spaces : ∀ p ∈ s.spaces, is (.root p) p
  owned : Owned Ok s.pages
  apart : ∀ a ∈ s.live.flatten, ∀ r, ¬ is r a

/-- What an operation writes to the page table of the split block is allowed. -/
def Op.Fits (split : Index → u64 → Prop) : Op → Prop
  | .mapPageInto _ v phys w => Low v → split (ptIdx v) (leafEntry phys (userFlags w))
  | .unmapPageFrom _ v => Low v → split (ptIdx v) 0
  | .ntProtectVm _ a1 a2 a3 => ∀ k e, k < (protectSpan a1 a2).toNat →
    Low (protectBase a1 + pageAddr k) → split (ptIdx (protectBase a1 + pageAddr k)) e →
    split (ptIdx (protectBase a1 + pageAddr k)) (leafEntry e (userFlags (a3 &&& 0xCC#64 != 0#64)))
  | _ => True

variable {Ok : Nat → Prop} {is is' : Role → u64 → Prop} {new : Role → Prop} {s : System}

theorem owned_used {pages : PMM.System} (h : Owned Ok pages) {v : Vmm} (hv : v.pmm = pages.pmm)
    {a : u64} (ha : a ∈ pages.live.flatten) : Used v a := by
  intro q hq hfree heq
  obtain ⟨q', hq', rfl, -, hbit⟩ := h.used a ha
  obtain rfl := pageAddr_inj hq' hq heq
  rw [hv, hbit] at hfree
  cases hfree

theorem Inv.grows (h : Inv R split Ok is s) {t : Vmm} (ht : Typed (roles (R.shape split)) is' t)
    (hg : Grows new is is' s.vmm t) : Inv R split Ok is' { s with vmm := t } where
  typed := ht
  root := by
    show is' .kroot t.pml4Phys
    rw [hg.pml4Phys]
    exact hg.keep _ _ h.root
  spaces p hp := hg.keep _ _ (h.spaces p hp)
  owned := h.owned.grow hg.bits
  apart a ha r hr := by
    rcases hg.fresh r a hr with hr | ⟨-, hfree⟩
    · exact h.apart a ha r hr
    · exact hfree (owned_used h.owned rfl ha)

/-- Changing memory without giving out roles. -/
theorem Inv.mem (h : Inv R split Ok is s) {m : Mem}
    (ht : Typed (roles (R.shape split)) is { s.vmm with mem := m }) :
    Inv R split Ok is { s with vmm := { s.vmm with mem := m } } :=
  h.grows ht (.mem (fun _ => True) _ _ _)

/-- Handing out pages that were free. -/
theorem Inv.granted (h : Inv R split Ok is s) {count : Nat} {r : u64 × Pmm}
    (hr : (∃ i, r.1 = pageAddr i ∧ Takes s.vmm.pmm r.2 i count) ∨ r = (0, s.vmm.pmm)) :
    Inv R split Ok is { s with
      vmm := { s.vmm with pmm := (s.pages.granted count r).pmm }
      live := (s.pages.granted count r).live } := by
  have howned := h.owned.granted hr
  rcases hr with ⟨i, hi, ht⟩ | rfl
  · refine ⟨h.typed.takes ht, h.root, h.spaces, howned, fun a ha r' hr' => ?_⟩
    simp only [PMM.System.granted] at ha
    split at ha
    case isTrue => exact h.apart a ha r' hr'
    case isFalse =>
      rw [List.flatten_cons, List.mem_append, hi] at ha
      rcases ha with ha | ha
      · obtain ⟨k, hk, rfl⟩ := mem_block.mp ha
        exact not_used_free ht (by omega) (by omega) (h.typed.used r' _ hr')
      · exact h.apart a ha r' hr'
  · exact h

theorem Inv.freed (h : Inv R split Ok is s) {a : u64} (ha : pageOf a ∈ s.live.flatten) :
    Inv R split Ok is { s with
      vmm := { s.vmm with pmm := freePage s.vmm.pmm a }
      live := s.live.map fun b => b.filter (· ≠ pageOf a) } where
  typed := h.typed.freePage fun r t hr heq => h.apart _ ha r (heq ▸ hr)
  root := h.root
  spaces := h.spaces
  owned := h.owned.freed ha
  apart b hb r hr := by
    have hflat : (s.live.map fun b => b.filter (· ≠ pageOf a)).flatten =
        s.live.flatten.filter (· ≠ pageOf a) := (List.filter_flatten).symm
    rw [hflat, List.mem_filter] at hb
    exact h.apart b hb.1 r hr

/-- The kernel's PDPT for slot 0. -/
theorem Inv.kernelLow (h : Inv R split Ok is s) (hg : R.Good shown) :
    is .kpdpt (s.vmm.mem s.vmm.pml4Phys 0#9 &&& PTE_ADDR_MASK) := by
  have he : s.vmm.mem s.vmm.pml4Phys 0#9 = R.kroot 0#9 := h.typed.entry _ _ 0#9 h.root
  obtain ⟨f, hf⟩ : ∃ f, link (R.kroot 0#9) = some f := by
    rcases hg.low with hl | ⟨-, f, hf, he⟩
    · exact isTable_link hl
    · exact ⟨f, he ▸ link_super hf⟩
  have hm : R.kroot 0#9 &&& PTE_ADDR_MASK = f := (link_eq_some.mp hf).2.2
  rw [he, hm]
  exact h.typed.linked .kroot _ 0#9 f (show 1 < 4 by decide) h.root (by rw [he]; exact hf)

/-- A new user PML4 takes over slot 511 and the first four entries of the
kernel's PDPT; the other slots of the kernel are empty. -/
theorem Inv.clonable (h : Inv R split Ok is s) (hg : R.Good shown) (p : u64) :
    Clonable (roles (R.shape split)) is s.vmm (.root p) (.low p) := by
  have row : ∀ i, s.vmm.mem s.vmm.pml4Phys i = R.kroot i := fun i => h.typed.entry _ _ i h.root
  have hlow := h.kernelLow hg
  have rowLow : ∀ j, s.vmm.mem (s.vmm.mem s.vmm.pml4Phys 0#9 &&& PTE_ADDR_MASK) j = R.kpdpt j :=
    fun j => h.typed.entry _ _ j hlow
  have soft : copiedSlot (R.kroot SOFT_SLOT) = R.kroot SOFT_SLOT := by
    rw [copiedSlot, if_pos (isTable_present hg.soft)]
    obtain ⟨f, -, hf⟩ := hg.soft
    rw [hf, user_or_user]
  have copied : ∀ i, i ≠ 0#9 → i ≠ SOFT_SLOT → copiedSlot (s.vmm.mem s.vmm.pml4Phys i) = 0 := by
    intro i h0 h1
    rw [row, hg.rest i h0 h1]
    decide
  refine ⟨rfl, fun f hf => ⟨f, hf, rfl⟩, fun i h0 => ?_, fun i b h0 hb => ?_, fun j => ?_,
    fun j b hb => ?_⟩
  · simp only [roles, Role.ok, h0, if_false]
    by_cases h1 : i = SOFT_SLOT
    · rw [if_pos h1, h1, row, soft]
      rfl
    · rw [if_neg h1, copied i h0 h1]
      exact tabular_zero
  · by_cases h1 : i = SOFT_SLOT
    · rw [h1, row, soft] at hb
      have := h.typed.linked .kroot _ SOFT_SLOT b (show 1 < 4 by decide) h.root (by rw [row]; exact hb)
      rw [h1]
      exact this
    · rw [copied i h0 h1, link_zero] at hb
      cases hb
  · simp only [roles, Role.ok, lowTable, row, hg.low_present, Bool.true_and, decide_eq_true_eq]
    split
    case isTrue => rw [← row]; exact rowLow j
    case isFalse => exact tabular_zero
  · simp only [lowTable, row, hg.low_present, Bool.true_and, decide_eq_true_eq] at hb
    split at hb
    case isTrue h4 =>
      rw [← row] at hb
      have := h.typed.linked .kpdpt _ j b (show 1 < 3 by decide) hlow hb
      simpa [roles, Role.child, h4] using this
    case isFalse => rw [link_zero] at hb; cases hb

/-- The PML4 of the kernel or of a process. -/
def System.IsSpace (s : System) (pml4 : u64) : Prop := pml4 = s.vmm.pml4Phys ∨ pml4 ∈ s.spaces

theorem Inv.role (h : Inv R split Ok is s) {pml4 : u64} (hp : s.IsSpace pml4) :
    is .kroot pml4 ∨ is (.root pml4) pml4 := by
  rcases hp with rfl | hp
  · exact .inl h.root
  · exact .inr (h.spaces pml4 hp)

/-- The entry of the kernel's PDPT for a low gigabyte. -/
theorem Rows.Good.pdpt_entry (hg : R.Good shown) {j : Index} (hj : j.toNat < 4) :
    ∃ f, link (R.kpdpt j) = some f ∧ has (R.kpdpt j) PTE_WRITABLE = true := by
  by_cases h1 : j = 1#9
  · subst h1
    rcases hg.pdpt1 with hl | ⟨-, f, hf, he⟩
    · obtain ⟨f, hf⟩ := isTable_link hl
      exact ⟨f, hf, isTable_writable hl⟩
    · rw [he]
      exact ⟨f, link_super hf, (super_bits hf).2.1⟩
  · obtain ⟨f, hf, he⟩ := hg.pdpt j hj h1
    rw [he]
    exact ⟨f, link_super hf, (super_bits hf).2.1⟩

/-- The PDPT for slot 0: the kernel's or the one of a process. -/
theorem Inv.slot0 (h : Inv R split Ok is s) (hg : R.Good shown) {pml4 : u64}
    (hp : s.IsSpace pml4) :
    ∃ pdpt, link (s.vmm.mem pml4 0#9) = some pdpt ∧ (is .kpdpt pdpt ∨ is (.low pml4) pdpt) ∧
      has (s.vmm.mem pml4 0#9) PTE_WRITABLE = true ∧
      (shown = true → IsTable (s.vmm.mem pml4 0#9)) := by
  rcases h.role hp with hr | hr
  · have he : s.vmm.mem pml4 0#9 = R.kroot 0#9 := h.typed.entry _ _ 0#9 hr
    rcases hg.low with hl | ⟨hs, f, hf, hf'⟩
    · obtain ⟨f, hf⟩ := isTable_link hl
      rw [he]
      refine ⟨f, hf, .inl ?_, isTable_writable hl, fun _ => hl⟩
      exact h.typed.linked .kroot _ 0#9 f (show 1 < 4 by decide) hr (by rw [he, hf])
    · rw [he, hf']
      refine ⟨f, link_super hf, .inl ?_, (super_bits hf).2.1, fun h1 => ?_⟩
      · exact h.typed.linked .kroot _ 0#9 f (show 1 < 4 by decide) hr
          (by rw [he, hf', link_super hf])
      · rw [hs] at h1
        cases h1
  · have he : IsTable (s.vmm.mem pml4 0#9) := h.typed.entry _ _ 0#9 hr
    obtain ⟨f, hf⟩ := isTable_link he
    refine ⟨f, hf, .inr ?_, isTable_writable he, fun _ => he⟩
    exact h.typed.linked (.root pml4) _ 0#9 f (show 1 < 4 by decide) hr hf

/-- The walk of a low address comes to a page directory of the kernel. -/
theorem Inv.low_walk (h : Inv R split Ok is s) (hg : R.Good shown) {pml4 v : u64}
    (hp : s.IsSpace pml4) (hv : Low v) :
    ∃ pdpt pd, link (s.vmm.mem pml4 (pml4Idx v)) = some pdpt ∧
      link (s.vmm.mem pdpt (pdptIdx v)) = some pd ∧
      s.vmm.mem pdpt (pdptIdx v) = R.kpdpt (pdptIdx v) ∧
      (∀ i, s.vmm.mem pd i = R.kpd (pdptIdx v).toNat i) ∧ is (.kpd (pdptIdx v).toNat) pd ∧
      has (s.vmm.mem pml4 (pml4Idx v)) PTE_WRITABLE = true ∧
      (shown = true → IsTable (s.vmm.mem pml4 (pml4Idx v))) := by
  obtain ⟨h0, h4⟩ := hv
  obtain ⟨pdpt, hl, hr, hw, hs⟩ := h.slot0 hg hp
  obtain ⟨pd, hpd, -⟩ := hg.pdpt_entry h4
  have he : s.vmm.mem pdpt (pdptIdx v) = R.kpdpt (pdptIdx v) := by
    rcases hr with hr | hr
    · exact h.typed.entry _ _ (pdptIdx v) hr
    · have := h.typed.entry _ _ (pdptIdx v) hr
      simp only [roles, Role.ok, h4, if_true] at this
      exact this
  have hrole : is (.kpd (pdptIdx v).toNat) pd := by
    rcases hr with hr | hr
    · exact h.typed.linked .kpdpt _ _ pd (show 1 < 3 by decide) hr (by rw [he, hpd])
    · have := h.typed.linked (.low pml4) _ (pdptIdx v) pd (show 1 < 3 by decide) hr (by rw [he, hpd])
      simpa only [roles, Role.child, h4, if_true] using this
  rw [h0]
  exact ⟨pdpt, pd, hl, by rw [he, hpd], he, fun i => h.typed.entry _ _ i hrole, hrole, hw, hs⟩

/-- Writing a leaf in a page table of some process. -/
theorem Inv.leaf (h : Inv R split Ok is s) {p v pt e : u64} (hp : p ∈ s.spaces)
    (hpt : pageTable s.vmm.mem p v = some pt)
    (hu : has e PTE_PRESENT = true → has e PTE_USER = true) (hs : Low v → split (ptIdx v) e) :
    Inv R split Ok is { s with vmm := { s.vmm with mem := write s.vmm.mem pt (ptIdx v) e } } := by
  have hleaf := h.typed.pageTable (h.spaces p hp) rfl hpt
  have hrank := ((roles (R.shape split)).ranks (r := .root p) rfl v).2.2
  exact h.mem (h.typed.writeLeaf hleaf trivial hrank (leaf_ok hu hs))

theorem Inv.protect (h : Inv R split Ok is s) {p v : u64} {w : Bool} (hp : p ∈ s.spaces)
    (hs : ∀ e, Low v → split (ptIdx v) e → split (ptIdx v) (leafEntry e (userFlags w))) :
    Inv R split Ok is { s with vmm := (protectPageInto s.vmm p v (userFlags w)).2 } := by
  rw [protectPageInto]
  cases hpt : pageTable s.vmm.mem p v with
  | none => exact h
  | some pt =>
    simp only
    split
    case isTrue => exact h
    case isFalse =>
      refine h.leaf hp hpt (fun _ => leafEntry_user _ _ (userFlags_user w)) fun hl => hs _ hl ?_
      have hleaf := h.typed.pageTable (h.spaces p hp) rfl hpt
      rw [leaf_eq, leafRole, if_pos hl] at hleaf
      exact h.typed.entry _ _ (ptIdx v) hleaf

theorem Inv.protectPages {p base : u64} {w : Bool} (hp : p ∈ s.spaces) (n k : Nat)
    (hs : ∀ j e, j < k + n → Low (base + pageAddr j) → split (ptIdx (base + pageAddr j)) e →
      split (ptIdx (base + pageAddr j)) (leafEntry e (userFlags w))) {v : Vmm}
    (h : Inv R split Ok is { s with vmm := v }) :
    Inv R split Ok is { s with vmm := protectPages p base (userFlags w) n k v } := by
  induction n generalizing k v with
  | zero => exact h
  | succ n ih =>
    exact ih (k + 1) (fun j e hj => hs j e (by omega)) (h.protect hp fun e => hs k e (by omega))

/-- **Every operation keeps the roles**, whatever addresses it is given. -/
theorem Inv.step (h : Inv R split Ok is s) (hg : R.Good shown) {op : Op} {t : System}
    (hfit : op.Fits split) (hs : step s op = some t) : ∃ is', Inv R split Ok is' t := by
  cases op with
  | pmm op =>
    obtain ⟨u, hu, rfl⟩ := Option.map_eq_some_iff.mp hs
    refine ⟨is, ?_⟩
    cases op with
    | allocPage =>
      obtain rfl := Option.some.inj hu
      exact h.granted ((allocPage_cases s.vmm.pmm).imp_right And.left)
    | allocPages count =>
      obtain rfl := Option.some.inj hu
      rcases allocPages_cases s.vmm.pmm count with ⟨i, hi, -, ht⟩ | hr
      · exact h.granted (.inl ⟨i, hi, ht⟩)
      · exact h.granted (.inr hr)
    | freePage a =>
      simp only [PMM.step] at hu
      split at hu
      case isTrue ha => obtain rfl := Option.some.inj hu; exact h.freed ha
      case isFalse => cases hu
  | store a i value =>
    simp only [Kernel.step] at hs
    split at hs
    case isTrue ha =>
      obtain rfl := Option.some.inj hs
      exact ⟨is, h.mem (h.typed.writeData (f := pageOf a) (fun r t hr heq => h.apart _ ha r (heq ▸ hr))
        fun t ht => write_of_table_ne ht)⟩
    case isFalse => cases hs
  | createUserPml4 =>
    obtain rfl := Option.some.inj hs
    obtain ⟨is', htyped, hgrows, -, hroot⟩ :=
      h.typed.createUserPml4 h.root (fun _ => h.kernelLow hg) (h.clonable hg)
    have hi := h.grows htyped hgrows
    refine ⟨is', hi.typed, hi.root, fun p hp => ?_, hi.owned, hi.apart⟩
    simp only at hp
    split at hp
    case isTrue => exact hi.spaces p hp
    case isFalse hn =>
      rcases List.mem_cons.mp hp with rfl | hp
      · exact hroot hn
      · exact hi.spaces p hp
  | mapPageInto p v phys w =>
    simp only [Kernel.step] at hs
    split at hs
    case isTrue hp =>
      obtain rfl := Option.some.inj hs
      obtain ⟨is', htyped, hgrows, -, -⟩ := h.typed.mapPageInto phys _ (h.spaces p hp) rfl
        (through_user hg p v) fun _ => leaf_ok (fun _ => leafEntry_user _ _ (userFlags_user w)) hfit
      exact ⟨is', h.grows htyped hgrows⟩
    case isFalse => cases hs
  | unmapPageFrom p v =>
    simp only [Kernel.step] at hs
    split at hs
    case isTrue hp =>
      obtain rfl := Option.some.inj hs
      rw [unmapPageFrom]
      cases hpt : pageTable s.vmm.mem p v with
      | none => exact ⟨is, h⟩
      | some pt => exact ⟨is, h.leaf hp hpt (fun h0 => absurd h0 (by decide)) hfit⟩
    case isFalse => cases hs
  | ntProtectVm p a1 a2 a3 =>
    simp only [Kernel.step] at hs
    split at hs
    case isTrue hp =>
      obtain rfl := Option.some.inj hs
      exact ⟨is, Inv.protectPages hp _ 0 (fun j e hj => hfit j e (by omega)) h⟩
    case isFalse => cases hs

theorem start_inv {v : Vmm} (h : Booted R split is v)
    (hok : ∀ q, q < MAX_PAGES → bitmapTest v.pmm.bitmap q = false → Ok q) :
    Inv R split Ok is (start v) where
  typed := h.typed
  root := h.root
  spaces p hp := by cases hp
  owned := ⟨hok, fun a ha => by simp [System.pages, start] at ha, by simp [System.pages, start]⟩
  apart a ha := by simp [start] at ha

/-! ## Shared page tables -/

/-- The address goes through tables that all PML4s share. -/
def Shared (v : u64) : Prop := Low v ∨ pml4Idx v = SOFT_SLOT

instance (v : u64) : Decidable (Shared v) := inferInstanceAs (Decidable (_ ∨ _))

theorem isTable_of_link {e b : u64} (h : Tabular e) (hl : link e = some b) : IsTable e :=
  h (link_eq_some.mp hl).1

/-- Of the low 2 MB pages only the block of the shared page is split. -/
theorem Rows.Good.block_of_link (hg : R.Good shown) {j : Nat} (hj : j < 4) {i : Index} {b : u64}
    (hl : link (R.kpd j i) = some b) : shown = true ∧ j = 1 ∧ i = 511#9 := by
  by_cases hb : j = 1 ∧ i = 511#9
  · refine ⟨?_, hb⟩
    cases shown with
    | true => rfl
    | false =>
      rw [hb.1, hb.2, hg.whole rfl, link_pdEntry] at hl
      cases hl
  · rw [hg.pd j i hj hb, link_pdEntry] at hl
    cases hl

/-- A low address with a page table lies in the split block. -/
theorem Inv.low_block (h : Inv R split Ok is s) (hg : R.Good shown) {pml4 v pdpt pd pt : u64}
    (hp : s.IsSpace pml4) (hlow : Low v) (hv : Reaches s.vmm.mem pml4 v pdpt pd pt) :
    shown = true ∧ pdptIdx v = 1#9 ∧ pdIdx v = 511#9 ∧ Open s.vmm.mem pml4 v pdpt pd := by
  obtain ⟨pdpt', pd', l1, l2, e2, e3, -, -, ht⟩ := h.low_walk hg hp hlow
  obtain rfl := Option.some.inj (l1.symm.trans hv.pml4)
  obtain rfl := Option.some.inj (l2.symm.trans hv.pdpt)
  have hl := hv.pd
  rw [e3] at hl
  obtain ⟨hs, h1, h2⟩ := hg.block_of_link hlow.2 hl
  have h1' : pdptIdx v = 1#9 := BitVec.eq_of_toNat_eq h1
  have t2 : IsTable (s.vmm.mem pdpt' (pdptIdx v)) := by
    rw [e2, h1']
    exact hg.pdpt1.resolve_right fun hc => by rw [hs] at hc; cases hc.1
  have t3 : IsTable (s.vmm.mem pd' (pdIdx v)) := by
    rw [e3, h1, h2]
    exact hg.block hs
  refine ⟨hs, h1', h2, fun e he => ?_⟩
  have : IsTable e := by
    simp only [List.mem_cons, List.not_mem_nil, or_false] at he
    rcases he with rfl | rfl | rfl
    · exact ht hs
    · exact t2
    · exact t3
  exact ⟨isTable_present this, isTable_user this, isTable_writable this⟩

/-- Once the shared page is shown, its block has a page table. -/
theorem Inv.block_reaches (h : Inv R split Ok is s) (hg : R.Good shown) (hs : shown = true)
    {pml4 v : u64} (hp : s.IsSpace pml4) (hlow : Low v) (h1 : pdptIdx v = 1#9)
    (h2 : pdIdx v = 511#9) :
    ∃ pdpt pd pt, Reaches s.vmm.mem pml4 v pdpt pd pt ∧ is .ksplit pt := by
  obtain ⟨pdpt, pd, l1, l2, -, e3, hrole, -, -⟩ := h.low_walk hg hp hlow
  have hb : IsTable (s.vmm.mem pd (pdIdx v)) := by
    rw [e3, h1, h2]
    exact hg.block hs
  obtain ⟨pt, l3⟩ := isTable_link hb
  exact ⟨pdpt, pd, pt, ⟨l1, l2, l3⟩,
    h.typed.linked (.kpd (pdptIdx v).toNat) pd _ pt (show 1 < 2 by decide) hrole l3⟩

/-- The entry of the shared page: present, for users, read-only. -/
theorem splitEntry_kuser (phys : u64) :
    has (splitEntry phys (ptIdx KUSER_VA)) PTE_PRESENT = true ∧
      has (splitEntry phys (ptIdx KUSER_VA)) PTE_USER = true ∧
      has (splitEntry phys (ptIdx KUSER_VA)) PTE_WRITABLE = false := by
  simp only [splitEntry, if_true, has_present, has_user, has_writable, BitVec.getLsbD_or,
    isFrame_bits (isFrame_and phys) (i := 0) (by omega),
    isFrame_bits (isFrame_and phys) (i := 1) (by omega),
    isFrame_bits (isFrame_and phys) (i := 2) (by omega)]
  decide

/-- The entries on the way of an address that is not low: tables or nothing. -/
theorem Inv.tabular (h : Inv R split Ok is s) (hg : R.Good shown) {p v : u64} (hp : p ∈ s.spaces)
    (hlow : ¬ Low v) :
    Tabular (s.vmm.mem p (pml4Idx v)) ∧
      ∀ pdpt, link (s.vmm.mem p (pml4Idx v)) = some pdpt → Tabular (s.vmm.mem pdpt (pdptIdx v)) ∧
        ∀ pd, link (s.vmm.mem pdpt (pdptIdx v)) = some pd → Tabular (s.vmm.mem pd (pdIdx v)) := by
  have hroot := h.spaces p hp
  have e1 := h.typed.entry _ _ (pml4Idx v) hroot
  have r3 := fun pdpt => h.typed.linked (.root p) p (pml4Idx v) pdpt (show 1 < 4 by decide) hroot
  by_cases h0 : pml4Idx v = 0#9
  · have h4 : ¬ (pdptIdx v).toNat < 4 := fun h4 => hlow ⟨h0, h4⟩
    simp only [roles, Role.child, Role.ok, h0, if_true] at e1 r3
    rw [h0]
    refine ⟨fun _ => e1, fun pdpt hl => ?_⟩
    have e2 := h.typed.entry _ _ (pdptIdx v) (r3 pdpt hl)
    have r2 := fun pd => h.typed.linked (.low p) pdpt (pdptIdx v) pd (show 1 < 3 by decide)
      (r3 pdpt hl)
    simp only [roles, Role.child, Role.ok, h4, if_false] at e2 r2
    exact ⟨e2, fun pd hl2 => h.typed.entry _ _ (pdIdx v) (r2 pd hl2)⟩
  · by_cases h1 : pml4Idx v = SOFT_SLOT
    · have hne : ¬ SOFT_SLOT = (0#9 : Index) := by decide
      simp only [roles, Role.child, Role.ok, h1, hne, if_false, if_true] at e1 r3
      rw [h1]
      have e1 : s.vmm.mem p SOFT_SLOT = R.kroot SOFT_SLOT := e1
      refine ⟨fun _ => e1 ▸ hg.soft, fun pdpt hl => ?_⟩
      have e2 := h.typed.entry _ _ (pdptIdx v) (r3 pdpt hl)
      refine ⟨e2 (by decide), fun pd hl2 => ?_⟩
      have r2 := h.typed.linked (.soft 3) pdpt (pdptIdx v) pd (show 1 < 3 by decide) (r3 pdpt hl) hl2
      exact h.typed.entry _ _ (pdIdx v) r2 (by decide)
    · simp only [roles, Role.child, Role.ok, h0, h1, if_false] at e1 r3
      refine ⟨e1, fun pdpt hl => ?_⟩
      have e2 := h.typed.entry _ _ (pdptIdx v) (r3 pdpt hl)
      refine ⟨e2, fun pd hl2 => ?_⟩
      have r2 := h.typed.linked (.own p 3) pdpt (pdptIdx v) pd (show 1 < 3 by decide) (r3 pdpt hl) hl2
      exact h.typed.entry _ _ (pdIdx v) r2

/-- Above every page table that a process reaches, ring 3 may write. -/
theorem Inv.open_above (h : Inv R split Ok is s) (hg : R.Good shown) {p v pdpt pd pt : u64}
    (hp : p ∈ s.spaces) (hv : Reaches s.vmm.mem p v pdpt pd pt) : Open s.vmm.mem p v pdpt pd := by
  by_cases hlow : Low v
  · exact (h.low_block hg (.inr hp) hlow hv).2.2.2
  · obtain ⟨t1, below⟩ := h.tabular hg hp hlow
    obtain ⟨t2, below⟩ := below pdpt hv.pml4
    have t3 := below pd hv.pdpt
    intro e he
    have : IsTable e := by
      simp only [List.mem_cons, List.not_mem_nil, or_false] at he
      rcases he with rfl | rfl | rfl
      · exact isTable_of_link t1 hv.pml4
      · exact isTable_of_link t2 hv.pdpt
      · exact isTable_of_link t3 hv.pd
    exact ⟨isTable_present this, isTable_user this, isTable_writable this⟩

/-- An address that is not low is mapped through a page table or not at all. -/
theorem Inv.mapped (h : Inv R split Ok is s) (hg : R.Good shown) {p v : u64} (hp : p ∈ s.spaces)
    (hlow : ¬ Low v) (ht : translateInPml4 s.vmm.mem p v ≠ 0) :
    ∃ pdpt pd pt, Reaches s.vmm.mem p v pdpt pd pt := by
  have absent {e : u64} (hn : ¬ has e PTE_PRESENT = true) : has e PTE_PRESENT = false := by
    simpa using hn
  obtain ⟨t1, below⟩ := h.tabular hg hp hlow
  by_cases p1 : has (s.vmm.mem p (pml4Idx v)) PTE_PRESENT = true
  case neg => exact absurd (by simp [translateInPml4, absent p1]) ht
  obtain ⟨pdpt, l1⟩ := isTable_link (t1 p1)
  obtain ⟨t2, below⟩ := below pdpt l1
  obtain ⟨-, s1, rfl⟩ := link_eq_some.mp l1
  generalize hpdpt : s.vmm.mem p (pml4Idx v) &&& PTE_ADDR_MASK = pdpt at *
  by_cases p2 : has (s.vmm.mem pdpt (pdptIdx v)) PTE_PRESENT = true
  case neg => exact absurd (by simp [translateInPml4, p1, s1, hpdpt, absent p2]) ht
  obtain ⟨pd, l2⟩ := isTable_link (t2 p2)
  have t3 := below pd l2
  obtain ⟨-, s2, rfl⟩ := link_eq_some.mp l2
  generalize hpd : s.vmm.mem pdpt (pdptIdx v) &&& PTE_ADDR_MASK = pd at *
  by_cases p3 : has (s.vmm.mem pd (pdIdx v)) PTE_PRESENT = true
  case neg => exact absurd (by simp [translateInPml4, p1, s1, hpdpt, p2, s2, hpd, absent p3]) ht
  obtain ⟨pt, l3⟩ := isTable_link (t3 p3)
  exact ⟨pdpt, pd, pt, l1, l2, l3⟩

/-- A page that is mapped through private tables is a user page. -/
theorem Inv.private_user (h : Inv R split Ok is s) {p v pt : u64} (hp : p ∈ s.spaces)
    (hs : ¬ Shared v) (hpt : pageTable s.vmm.mem p v = some pt) {i : Index}
    (hpres : has (s.vmm.mem pt i) PTE_PRESENT = true) : has (s.vmm.mem pt i) PTE_USER = true := by
  have hleaf := h.typed.pageTable (h.spaces p hp) rfl hpt
  have hlow : ¬ Low v := fun hl => hs (.inl hl)
  have hsoft : ¬ pml4Idx v = SOFT_SLOT := fun hl => hs (.inr hl)
  rw [leaf_eq, leafRole, if_neg hlow, if_neg hsoft] at hleaf
  exact h.typed.entry _ _ i hleaf hpres

/-- The kernel's PML4 reaches the same page table for a shared address. -/
theorem Inv.kernel_reaches (h : Inv R split Ok is s) (hg : R.Good shown) {p v pdpt pd pt : u64}
    (hp : p ∈ s.spaces) (hs : Shared v) (hv : Reaches s.vmm.mem p v pdpt pd pt) :
    ∃ pdpt', Reaches s.vmm.mem s.vmm.pml4Phys v pdpt' pd pt ∧
      Open s.vmm.mem s.vmm.pml4Phys v pdpt' pd := by
  rcases hs with hlow | h511
  · obtain ⟨pdpt1, pd1, l1, l2, e2, -, -, -, -⟩ := h.low_walk hg (.inr hp) hlow
    obtain rfl := Option.some.inj (l1.symm.trans hv.pml4)
    obtain rfl := Option.some.inj (l2.symm.trans hv.pdpt)
    obtain ⟨pdpt2, pd2, k1, k2, f2, -, -, -, -⟩ :=
      h.low_walk hg (show s.IsSpace s.vmm.pml4Phys from .inl rfl) hlow
    obtain rfl : pd2 = pd1 := by
      rw [f2, ← e2, l2] at k2
      exact (Option.some.inj k2).symm
    have hk : Reaches s.vmm.mem s.vmm.pml4Phys v pdpt2 pd2 pt := ⟨k1, k2, hv.pd⟩
    exact ⟨pdpt2, hk, (h.low_block hg (.inl rfl) hlow hk).2.2.2⟩
  · have e1 : s.vmm.mem s.vmm.pml4Phys (pml4Idx v) = s.vmm.mem p (pml4Idx v) := by
      rw [h511]
      have hu : s.vmm.mem p SOFT_SLOT = R.kroot SOFT_SLOT :=
        h.typed.entry _ _ SOFT_SLOT (h.spaces p hp)
      rw [hu]
      exact h.typed.entry _ _ SOFT_SLOT h.root
    have ho := h.open_above hg hp hv
    refine ⟨pdpt, ⟨by rw [e1]; exact hv.pml4, hv.pdpt, hv.pd⟩, ?_⟩
    rw [Open, e1]
    exact ho

/-! ## Reachable states -/

/-- Forgetting what the split block holds. -/
theorem typed_free {v : Vmm} (h : Typed (roles (R.shape split)) is v) :
    Typed (roles (R.shape fun _ _ => True)) is v where
  linked := h.linked
  entry r t i hr := by
    cases r with
    | ksplit => trivial
    | _ => exact h.entry _ t i hr
  alone := h.alone
  used := h.used

theorem Op.fits_free (op : Op) : op.Fits fun _ _ => True := by
  cases op with
  | mapPageInto p v phys w => exact fun _ => trivial
  | unmapPageFrom p v => exact fun _ => trivial
  | ntProtectVm p a1 a2 a3 => exact fun _ _ _ _ _ => trivial
  | _ => trivial

/-- Every state that system calls reach after boot keeps the invariant. -/
theorem run_inv {m : Mem} {pt bmStart : u64} {bi : Option BootInfo} {page : Table} {v : Vmm}
    {ops : List Op} (hb : TablesAt pt bi) (hboot : boot m pt bmStart bi page = some (shown, v))
    (hrun : run step (start v) ops = some s) :
    ∃ R is, R.Good shown ∧ Inv R (fun _ _ => True) (fun _ => True) is s := by
  obtain ⟨⟨R, phys, is, hg, -, hbooted⟩, -⟩ := boot_booted hb hboot
  have hstart : Inv R (fun _ _ => True) (fun _ => True) is (start v) :=
    start_inv ⟨typed_free hbooted.typed, hbooted.root, hbooted.kernel⟩ fun _ _ _ => trivial
  have keep := run_invariant (G := fun _ _ => True)
    (I := fun s => ∃ is, Inv R (fun _ _ => True) (fun _ => True) is s)
    (fun s op t hs _ ht => hs.elim fun is hs => hs.step hg op.fits_free ht) ⟨is, hstart⟩
    (along_of_forall (fun _ _ => trivial) _ _) hrun
  obtain ⟨is', hs⟩ := keep
  exact ⟨R, is', hg, hs⟩

end

/-! ## One process -/

theorem createUserPml4_succeeds {s : Vmm} {f g : u64} {p q : Pmm}
    (e1 : allocPage s.pmm = (f, p)) (e2 : allocPage p = (g, q)) (hf : f ≠ 0) (hg : g ≠ 0) :
    (createUserPml4 s).1 = f ∧ (createUserPml4 s).2.pmm = q ∧
      (createUserPml4 s).2.mem f 0#9 = tableEntry g := by
  simp only [createUserPml4, e1, if_neg hf, e2, if_neg hg, write_same, and_self]

/-- With 5 MB of memory the system boots, creates a process, and the shared page
is mapped read-only in it. -/
theorem lowBoot_process :
    ∃ v s pt, boot (fun _ _ => 0) 0x10000000#64 0x120000#64 (some lowBoot) (fun _ => 0) =
        some (true, v) ∧
      run step (start v) [.createUserPml4] = some s ∧ 0x605000#64 ∈ s.spaces ∧
      pageTable s.vmm.mem 0x605000#64 KUSER_VA = some pt ∧
      has (s.vmm.mem pt (ptIdx KUSER_VA)) PTE_PRESENT = true ∧
      has (s.vmm.mem pt (ptIdx KUSER_VA)) PTE_USER = true ∧
      has (s.vmm.mem pt (ptIdx KUSER_VA)) PTE_WRITABLE = false := by
  obtain ⟨v, hboot, start0⟩ := lowBoot_pool
  obtain ⟨p, e1, -, h1⟩ := Pool.next start0 (fun q hq => hq.2)
    (lowPages_mem (by omega) (by omega))
  obtain ⟨q, e2, -, -⟩ := Pool.next h1 (fun q hq => hq.2) (lowPages_mem (by omega) (by omega))
  have hnew := (createUserPml4_succeeds e1 e2 (by decide) (by decide)).1
  have hstep : step (start v) .createUserPml4 =
      some { vmm := (createUserPml4 v).2, spaces := [0x605000#64], live := [] } := by
    simp only [step, start, hnew]
    rfl
  obtain ⟨⟨R, phys, is, hg, -, hbooted⟩, -⟩ := boot_booted tablesAt_lowBoot hboot
  have hstart : Inv R (fun i e => e = splitEntry phys i) (fun _ => True) is (start v) :=
    start_inv hbooted fun _ _ _ => trivial
  obtain ⟨is', h⟩ := hstart.step hg (show Op.Fits _ .createUserPml4 from trivial) hstep
  obtain ⟨pdpt, pd, pt, hr, hsplit⟩ := h.block_reaches hg rfl (v := KUSER_VA)
    (show System.IsSpace _ 0x605000#64 from .inr List.mem_cons_self) (by decide) (by decide) (by decide)
  have he := h.typed.entry _ _ (ptIdx KUSER_VA) hsplit
  refine ⟨v, _, pt, hboot, by rw [run, hstep]; rfl, List.mem_cons_self,
    pageTable_eq_some.mpr ⟨pdpt, pd, hr⟩, ?_⟩
  rw [show (createUserPml4 v).2.mem pt (ptIdx KUSER_VA) = splitEntry phys (ptIdx KUSER_VA) from he]
  exact splitEntry_kuser phys

end MicroNT.Kernel
