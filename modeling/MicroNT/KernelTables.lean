import MicroNT.Boot

/-! # The tables of the running kernel

Every table has one role. The kernel's own tables are the six from the
bootloader, the page table that splits the 2 MB page of the shared user data,
and those in slot 511; a user PML4 owns its PDPT for slot 0 and whatever is
below its private entries. After boot the kernel's own tables keep their rows. -/

namespace MicroNT.Kernel

open MicroNT.PMM MicroNT.VMM MicroNT.Boot MicroNT.Base.Radix

inductive Role
  | kroot
  | kpdpt
  | kpd (j : Nat)
  | ksplit
  | soft (rank : Nat)
  | root (space : u64)
  | low (space : u64)
  | own (space : u64) (rank : Nat)
  deriving DecidableEq

def Role.rank : Role → Nat
  | .kroot => 4
  | .kpdpt => 3
  | .kpd _ => 2
  | .ksplit => 1
  | .soft n => n
  | .root _ => 4
  | .low _ => 3
  | .own _ n => n

/-- The PML4 slot that `AllocKernelVA` hands out addresses from. -/
abbrev SOFT_SLOT : Index := 511#9

def Role.child : Role → Index → Role
  | .kroot, i => if i = 0#9 then .kpdpt else .soft 3
  | .kpdpt, j => .kpd j.toNat
  | .kpd _, _ => .ksplit
  | .ksplit, _ => .ksplit
  | .soft n, _ => .soft (n - 1)
  | .root p, i => if i = 0#9 then .low p else if i = SOFT_SLOT then .soft 3 else .own p 3
  | .low p, j => if j.toNat < 4 then .kpd j.toNat else .own p 2
  | .own p n, _ => .own p (n - 1)

/-- An entry that `get_or_alloc` or the split wrote. -/
def IsTable (e : u64) : Prop := ∃ f, IsFrame f ∧ e = tableEntry f

/-- An entry as the bootloader writes it: for the supervisor only. -/
def IsSuper (e : u64) : Prop := ∃ f, IsFrame f ∧ e = f ||| 3#64

/-- Absent, or a table. -/
def Tabular (e : u64) : Prop := has e PTE_PRESENT = true → IsTable e

/-- What the entries of the kernel's own tables may be. -/
structure Shape where
  kroot : Index → u64 → Prop
  kpdpt : Index → u64 → Prop
  kpd : Nat → Index → u64 → Prop
  split : Index → u64 → Prop

/-- What an entry may be. A private page that is present is a user page. -/
def Role.ok (σ : Shape) : Role → Index → u64 → Prop
  | .kroot, i, e => σ.kroot i e
  | .kpdpt, j, e => σ.kpdpt j e
  | .kpd j, i, e => σ.kpd j i e
  | .ksplit, i, e => σ.split i e
  | .soft n, _, e => 1 < n → Tabular e
  | .root _, i, e =>
    if i = 0#9 then IsTable e else if i = SOFT_SLOT then σ.kroot SOFT_SLOT e else Tabular e
  | .low _, j, e => if j.toNat < 4 then σ.kpdpt j e else Tabular e
  | .own _ n, _, e =>
    if 1 < n then Tabular e else has e PTE_PRESENT = true → has e PTE_USER = true

def roles (σ : Shape) : Roles Role where
  child := Role.child
  rank := Role.rank
  sole _ := True
  ok := Role.ok σ
  rank_child r i h := by
    cases r with
    | kroot => simp only [Role.child]; split <;> rfl
    | kpdpt => rfl
    | kpd j => rfl
    | ksplit => exact absurd h (by decide)
    | soft n => simp only [Role.child, Role.rank] at *; omega
    | root p => simp only [Role.child]; split <;> [rfl; (split <;> rfl)]
    | low p => simp only [Role.child]; split <;> rfl
    | own p n => simp only [Role.child, Role.rank] at *; omega

/-! ## Entries -/

theorem isTable_link {e : u64} (h : IsTable e) : ∃ f, link e = some f := by
  obtain ⟨f, hf, rfl⟩ := h
  exact ⟨f, link_tableEntry hf⟩

theorem tabular_zero : Tabular 0 := fun h => absurd h (by decide)

theorem isTable_present {e : u64} (h : IsTable e) : has e PTE_PRESENT = true := by
  obtain ⟨f, -, rfl⟩ := h
  rw [has_present, tableEntry_eq, BitVec.getLsbD_or, seven_getLsbD]
  exact Bool.or_true _

theorem isTable_user {e : u64} (h : IsTable e) : has e PTE_USER = true := by
  obtain ⟨f, -, rfl⟩ := h
  rw [has_user, tableEntry_eq, BitVec.getLsbD_or, seven_getLsbD]
  exact Bool.or_true _

theorem isTable_writable {e : u64} (h : IsTable e) : has e PTE_WRITABLE = true := by
  obtain ⟨f, -, rfl⟩ := h
  rw [has_writable, tableEntry_eq, BitVec.getLsbD_or, seven_getLsbD]
  exact Bool.or_true _

theorem isTable_ps {e : u64} (h : IsTable e) : has e PTE_PS = false := by
  obtain ⟨f, hf⟩ := isTable_link h
  exact (link_eq_some.mp hf).2.1

theorem three_getLsbD (i : Nat) : (3#64).getLsbD i = decide (i < 2) := by
  by_cases h : i < 64
  · have all : ∀ j : Fin 64, (3#64).getLsbD j = decide (j.val < 2) := by decide
    exact all ⟨i, h⟩
  · rw [BitVec.getLsbD_of_ge _ _ (by omega), decide_eq_false (by omega)]

theorem super_bits {f : u64} (hf : IsFrame f) :
    has (f ||| 3#64) PTE_PRESENT = true ∧ has (f ||| 3#64) PTE_WRITABLE = true ∧
      has (f ||| 3#64) PTE_USER = false ∧ has (f ||| 3#64) PTE_PS = false := by
  simp only [has_present, has_writable, has_user, has_ps, BitVec.getLsbD_or, three_getLsbD,
    isFrame_bits hf (i := 2) (by omega), isFrame_bits hf (i := 7) (by omega)]
  simp

theorem link_super {f : u64} (hf : IsFrame f) : link (f ||| 3#64) = some f := by
  have h3 : 3#64 &&& PTE_ADDR_MASK = 0#64 := by decide
  obtain ⟨hp, -, -, hs⟩ := super_bits hf
  refine link_eq_some.mpr ⟨hp, hs, ?_⟩
  rw [BitVec.and_or_distrib_right, hf, h3, BitVec.or_zero]

/-- The USER bit makes a bootloader entry one of `get_or_alloc`'s. -/
theorem super_or_user (f : u64) : f ||| 3#64 ||| PTE_USER = tableEntry f := by
  rw [tableEntry_eq, BitVec.or_assoc]
  rfl

theorem user_or_user (f : u64) : tableEntry f ||| PTE_USER = tableEntry f := by
  rw [tableEntry_eq, BitVec.or_assoc]
  rfl

/-- An entry to `f`, before or after it gained the USER bit. -/
theorem entry_to {e f : u64} (hf : IsFrame f) (h : e = f ||| 3#64 ∨ e = tableEntry f) :
    has e PTE_PRESENT = true ∧ e &&& PTE_ADDR_MASK = f ∧ e ||| PTE_USER = tableEntry f := by
  rcases h with rfl | rfl
  · obtain ⟨hp, -, hm⟩ := link_eq_some.mp (link_super hf)
    exact ⟨hp, hm, super_or_user f⟩
  · obtain ⟨hp, -, hm⟩ := link_eq_some.mp (link_tableEntry hf)
    exact ⟨hp, hm, user_or_user f⟩

theorem pdEntry_bits (j : Nat) (i : Index) :
    has (pdEntry j i) PTE_PRESENT = true ∧ has (pdEntry j i) PTE_PS = true := by
  rw [has_present, has_ps, pdEntry, BitVec.getLsbD_or, BitVec.getLsbD_or]
  exact ⟨Bool.or_true _, Bool.or_true _⟩

theorem pdEntry_user (j : Nat) (i : Index) : has (pdEntry j i) PTE_USER = false := by
  rw [has_user, pdEntry, BitVec.getLsbD_or, BitVec.getLsbD_ofNat,
    show 0x200000 = 2 ^ 21 from rfl, Nat.testBit_mul_two_pow]
  rfl

theorem link_pdEntry (j : Nat) (i : Index) : link (pdEntry j i) = none :=
  link_eq_none.mpr (.inr (pdEntry_bits j i).2)

/-! ## The bootloader's tables -/

/-- Where the bootloader may put its tables: six frames that no available entry
offers. UEFI hands them out as loader data. -/
structure TablesAt (pt : u64) (bi : Option BootInfo) : Prop where
  aligned : pt.toNat % PAGE_SIZE = 0
  below : pt.toNat + 6 * PAGE_SIZE ≤ 2 ^ 52
  apart : ∀ e ∈ bootEntries bi, ∀ q, e.Offers q →
    q * PAGE_SIZE + PAGE_SIZE ≤ pt.toNat ∨ pt.toNat + 6 * PAGE_SIZE ≤ q * PAGE_SIZE

theorem frameAt_zero (pt : u64) : frameAt pt 0 = pt := BitVec.add_zero pt

section

variable {pt : u64} {bi : Option BootInfo} (h : TablesAt pt bi)
include h

theorem TablesAt.toNat {k : Nat} (hk : k < 6) :
    (frameAt pt k).toNat = pt.toNat + PAGE_SIZE * k := by
  have hb := h.below
  simp only [PAGE_SIZE] at *
  rw [frameAt, BitVec.toNat_add, BitVec.toNat_ofNat]
  omega

theorem TablesAt.pdAddr_ne_zero {j : Nat} (hj : j < 4) : pdAddr pt j ≠ 0 := by
  intro h0
  have hn := h.toNat (k := j + 2) (by omega)
  rw [show frameAt pt (j + 2) = 0 from h0] at hn
  simp only [PAGE_SIZE, show (0 : u64).toNat = 0 from rfl] at hn
  omega

theorem TablesAt.isFrame {k : Nat} (hk : k < 6) : IsFrame (frameAt pt k) := by
  have hb := h.below
  have ha := h.aligned
  rw [isFrame_iff, h.toNat hk]
  simp only [PAGE_SIZE] at *
  omega

theorem TablesAt.pdptFrame : IsFrame (pdptAddr pt) := h.isFrame (k := 1) (by decide)

theorem TablesAt.pdFrame {j : Nat} (hj : j < 4) : IsFrame (pdAddr pt j) :=
  h.isFrame (k := j + 2) (by omega)

theorem TablesAt.inj {j k : Nat} (hj : j < 6) (hk : k < 6) (heq : frameAt pt j = frameAt pt k) :
    j = k := by
  have := congrArg BitVec.toNat heq
  rw [h.toNat hj, h.toNat hk] at this
  simp only [PAGE_SIZE] at this
  omega

theorem TablesAt.ne {j k : Nat} (hj : j < 6) (hk : k < 6) (hne : j ≠ k) :
    frameAt pt j ≠ frameAt pt k := fun heq => hne (h.inj hj hk heq)

/-- The allocator does not hold the frames after `Init`. -/
theorem TablesAt.used (bmStart : u64) {s : Vmm} (hs : s.pmm = init bmStart bi) {k : Nat}
    (hk : k < 6) : Used s (frameAt pt k) := by
  intro q hq hfree heq
  rw [hs] at hfree
  obtain ⟨⟨e, he, ho⟩, -, -⟩ := (init_free_iff bmStart bi q).mp hfree
  have hn := congrArg BitVec.toNat heq
  rw [h.toNat hk, pageAddr_toNat hq] at hn
  have := h.apart e he q ho
  simp only [PAGE_SIZE] at *
  omega

theorem TablesAt.pml4_ne {k : Nat} (hk : k < 6) (h0 : k ≠ 0) : pt ≠ frameAt pt k := by
  have := h.ne (j := 0) (by decide) hk h0.symm
  rwa [frameAt_zero] at this

theorem buildPageTables_pml4 (m : Mem) :
    buildPageTables m pt pt = fun i => if i = 0#9 then pdptAddr pt ||| 3#64 else 0 := by
  have ne : ∀ j, j < 4 → pt ≠ pdAddr pt j := fun j hj => h.pml4_ne (by omega) (by omega)
  have ne1 : pt ≠ pdptAddr pt := h.pml4_ne (by decide) (by decide)
  simp only [buildPageTables]
  rw [fill_of_ne (ne 3 (by decide)), fill_of_ne (ne 2 (by decide)), fill_of_ne (ne 1 (by decide)),
    fill_of_ne (ne 0 (by decide)), fill_of_ne ne1, fill_same]

theorem buildPageTables_pdpt (m : Mem) :
    buildPageTables m pt (pdptAddr pt) =
      fun j => if j.toNat < 4 then pdAddr pt j.toNat ||| 3#64 else 0 := by
  have ne : ∀ j, j < 4 → pdptAddr pt ≠ pdAddr pt j := fun j hj =>
    h.ne (j := 1) (by decide) (by omega) (by omega)
  simp only [buildPageTables]
  rw [fill_of_ne (ne 3 (by decide)), fill_of_ne (ne 2 (by decide)), fill_of_ne (ne 1 (by decide)),
    fill_of_ne (ne 0 (by decide)), fill_same]

theorem buildPageTables_pd (m : Mem) {j : Nat} (hj : j < 4) :
    buildPageTables m pt (pdAddr pt j) = pdEntry j := by
  have ne : ∀ k, k < 4 → j ≠ k → pdAddr pt j ≠ pdAddr pt k := fun k hk hjk =>
    h.ne (j := j + 2) (k := k + 2) (by omega) (by omega) (by omega)
  simp only [buildPageTables]
  by_cases h3 : j = 3
  · subst h3; rw [fill_same]
  · rw [fill_of_ne (ne 3 (by decide) h3)]
    by_cases h2 : j = 2
    · subst h2; rw [fill_same]
    · rw [fill_of_ne (ne 2 (by decide) h2)]
      by_cases h1 : j = 1
      · subst h1; rw [fill_same]
      · obtain rfl : j = 0 := by omega
        rw [fill_of_ne (ne 1 (by decide) (by decide)), fill_same]

end

end MicroNT.Kernel
