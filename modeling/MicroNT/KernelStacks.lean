import MicroNT.FirstFit
import MicroNT.MemoryCalls

/-! # Kernel stacks (`AllocStack`, `StackPoke`)

A kernel stack is the first of the pages that `AllocStack` takes one by one, in the hope
that the others follow it. They do exactly if no page between them is in use. -/

namespace MicroNT.PS

open MicroNT.PMM MicroNT.Base.Machine
open Kernel (allocStackRest STACK_SIZE)

/-- `AllocStack`: the first page is the base, and the others hopefully follow it. -/
def allocStack (s : Pmm) (size : u64) : u64 × Pmm :=
  let pages := (size + pageSize64 - 1#64) / pageSize64
  let base := allocPage s
  if base.1 = 0 then (0, base.2)
  else
    let rest := allocStackRest (pages.toNat - 1) base.2
    if rest.1 then (base.1, rest.2) else (0, rest.2)

/-- Every thread of the kernel gets the default size. -/
theorem allocStack_default (s : Pmm) : allocStack s STACK_SIZE = Kernel.allocStack s := by
  have pages : ((STACK_SIZE + pageSize64 - 1#64) / pageSize64).toNat - 1 = 3 := rfl
  rw [allocStack, Kernel.allocStack, pages]
  dsimp only
  split
  case isTrue failed => rw [← failed]
  case isFalse =>
    cases (allocStackRest 3 (allocPage s).2).1 with
    | true => rfl
    | false => rfl

/-- The address that `StackPoke` stores to. -/
def stackSlot (top : u64) (slot : u32) : u64 := top - slot.setWidth 64 * 8#64

/-! ## What is promised -/

/-- Page `q` has a byte of `[base, base + size)`. -/
def StackPage (base size : u64) (q : Nat) : Prop :=
  base.toNat < (q + 1) * PAGE_SIZE ∧ q * PAGE_SIZE < base.toNat + size.toNat

/-- Page `q` was allocated between two states. -/
def Allocated (s t : Pmm) (q : Nat) : Prop :=
  q < MAX_PAGES ∧ bitmapTest s.bitmap q = false ∧ bitmapTest t.bitmap q = true

/-- A stack has the pages that its own call allocated, and a failed call keeps none. -/
structure OwnsStack (s : Pmm) (size : u64) : Prop where
  owned : (allocStack s size).1 ≠ 0 →
    ∀ q, StackPage (allocStack s size).1 size q → Allocated s (allocStack s size).2 q
  kept : (allocStack s size).1 = 0 →
    ∀ q, bitmapTest (allocStack s size).2.bitmap q = bitmapTest s.bitmap q

/-- The pages of a stack. -/
def stackPages (size : u64) : Nat := (size.toNat + (PAGE_SIZE - 1)) / PAGE_SIZE

/-- Where the lowest free page is, there are free pages enough for the stack. -/
def Contiguous (s : Pmm) (size : u64) : Prop :=
  ∀ i, IsLeast (freeSet s : Set Nat) i → ∀ q, i ≤ q → q < i + stackPages size → q ∈ freeSet s

/-! ## The loop -/

variable {s t : Pmm} {size : u64} {n i : Nat}

theorem allocStackRest_bits (q : Nat) (used : bitmapTest s.bitmap q = true) :
    bitmapTest (allocStackRest n s).2.bitmap q = true := by
  induction n generalizing s with
  | zero => exact used
  | succ n ih =>
    rw [allocStackRest]
    split
    case isTrue => exact allocPage_bits s q used
    case isFalse => exact ih (allocPage_bits s q used)

theorem pageAddr_ne_zero (zero : bitmapTest s.bitmap 0 = true) (free : i ∈ freeSet s) :
    pageAddr i ≠ 0 := by
  obtain ⟨inside, clear⟩ := mem_freeSet.mp free
  intro e
  obtain rfl : i = 0 := pageAddr_inj inside (by decide) e
  rw [clear] at zero
  cases zero

theorem mem_freeSet_takes (taken : Takes s t i 1) (q : Nat) :
    q ∈ freeSet t ↔ q ∈ freeSet s ∧ q ≠ i := by
  rw [freeSet_takes taken, Finset.mem_sdiff, Finset.mem_Ico]
  exact and_congr_right fun _ => by omega

/-- **The loop takes a run** if the lowest free pages are one. -/
theorem allocStackRest_run (pool : PMM.Pool (freeSet s : Set Nat) s)
    (zero : bitmapTest s.bitmap 0 = true) (run : ∀ q, i ≤ q → q < i + n → q ∈ freeSet s)
    (low : ∀ q ∈ freeSet s, i ≤ q) :
    (allocStackRest n s).1 = true ∧
      ∀ q, i ≤ q → q < i + n → bitmapTest (allocStackRest n s).2.bitmap q = true := by
  induction n generalizing s i with
  | zero => exact ⟨rfl, fun q h1 h2 => absurd h2 (Nat.not_lt.mpr h1)⟩
  | succ n ih =>
    have first : i ∈ freeSet s := run i le_rfl (Nat.lt_add_of_pos_right (Nat.succ_pos n))
    obtain ⟨t, eq, taken, rest⟩ := pool.allocPage ⟨first, fun q hq => low q hq⟩
    have used : bitmapTest t.bitmap i = true := by simp [taken.bits]
    have zero' : bitmapTest t.bitmap 0 = true := by rw [taken.bits, zero, Bool.or_true]
    have run' : ∀ q, i + 1 ≤ q → q < i + 1 + n → q ∈ freeSet t := fun q h1 h2 =>
      (mem_freeSet_takes taken q).mpr ⟨run q (by omega) (by omega), by omega⟩
    have low' : ∀ q ∈ freeSet t, i + 1 ≤ q := by
      intro q hq
      obtain ⟨free, other⟩ := (mem_freeSet_takes taken q).mp hq
      have := low q free
      omega
    obtain ⟨ok, bits⟩ := ih rest.again zero' run' low'
    rw [allocStackRest, eq, if_neg (pageAddr_ne_zero zero first)]
    refine ⟨ok, fun q h1 h2 => ?_⟩
    by_cases e : q = i
    · rw [e]
      exact allocStackRest_bits i used
    · exact bits q (by omega) (by omega)

/-- The code's number of pages is the number of pages that the stack needs, if the sum
does not wrap. -/
theorem pages_toNat (room : size.toNat + (PAGE_SIZE - 1) < 2 ^ 64) :
    ((size + pageSize64 - 1#64) / pageSize64).toNat = stackPages size := by
  have sum : (size + pageSize64 - 1#64).toNat = size.toNat + (PAGE_SIZE - 1) := by
    simp only [PAGE_SIZE] at *
    bv_omega
  rw [BitVec.toNat_udiv, sum]
  rfl

theorem stackPage_iff (inside : i < MAX_PAGES) {q : Nat} :
    StackPage (pageAddr i) size q ↔ i ≤ q ∧ q < i + stackPages size := by
  unfold StackPage stackPages
  rw [pageAddr_toNat inside]
  simp only [PAGE_SIZE]
  omega

/-- **The pages behind the first one** are taken in order if they are free. -/
theorem allocStack_run (least : IsLeast (freeSet s : Set Nat) i) (taken : Takes s t i 1)
    (pool : PMM.Pool (freeSet t : Set Nat) t) (zero : bitmapTest s.bitmap 0 = true)
    (run : ∀ q, i ≤ q → q < i + stackPages size → q ∈ freeSet s) :
    (allocStackRest (((size + pageSize64 - 1#64) / pageSize64).toNat - 1) t).1 = true ∧
      ∀ q, i ≤ q → q < i + stackPages size →
        bitmapTest (allocStackRest (((size + pageSize64 - 1#64) / pageSize64).toNat - 1) t).2.bitmap
          q = true := by
  by_cases empty : stackPages size = 0
  · have zeroSize : size = 0#64 := by
      unfold stackPages at empty
      simp only [PAGE_SIZE] at empty
      exact BitVec.eq_of_toNat_eq (by simp; omega)
    subst zeroSize
    exact ⟨rfl, fun q h1 h2 => by omega⟩
  · have last := (mem_freeSet.mp (run (i + stackPages size - 1) (by omega) (by omega))).1
    have room : size.toNat + (PAGE_SIZE - 1) < 2 ^ 64 := by
      unfold stackPages at last
      simp only [MAX_PAGES, PAGE_SIZE] at *
      omega
    rw [pages_toNat room]
    have used : bitmapTest t.bitmap i = true := by simp [taken.bits]
    have zero' : bitmapTest t.bitmap 0 = true := by rw [taken.bits, zero, Bool.or_true]
    have run' : ∀ q, i + 1 ≤ q → q < i + 1 + (stackPages size - 1) → q ∈ freeSet t := fun q h1 h2 =>
      (mem_freeSet_takes taken q).mpr ⟨run q (by omega) (by omega), by omega⟩
    have low' : ∀ q ∈ freeSet t, i + 1 ≤ q := by
      intro q hq
      obtain ⟨free, other⟩ := (mem_freeSet_takes taken q).mp hq
      have := least.2 free
      omega
    obtain ⟨ok, bits⟩ := allocStackRest_run pool zero' run' low'
    refine ⟨ok, fun q h1 h2 => ?_⟩
    by_cases e : q = i
    · rw [e]
      exact allocStackRest_bits i used
    · exact bits q (by omega) (by omega)

/-- **One call**: the stack is owned exactly if the lowest free pages are one run. -/
theorem ownsStack_iff (pool : PMM.Pool (freeSet s : Set Nat) s) (zero : bitmapTest s.bitmap 0 = true)
    (size : u64) : OwnsStack s size ↔ Contiguous s size := by
  rcases pool.allocPage_freeSet with ⟨none, failed⟩ | ⟨i, t, least, eq, taken, rest⟩
  · -- there is no free page
    have result : allocStack s size = (0, s) := by
      rw [allocStack, failed]
      rfl
    refine iff_of_true ⟨fun h => absurd (by rw [result]) h, fun _ q => by rw [result]⟩ ?_
    intro i least
    rw [none] at least
    exact absurd least.1 (by simp)
  · obtain ⟨inside, free⟩ := mem_freeSet.mp least.1
    have some := pageAddr_ne_zero zero least.1
    have used : bitmapTest t.bitmap i = true := by simp [taken.bits]
    have grown := allocStackRest_bits (n := ((size + pageSize64 - 1#64) / pageSize64).toNat - 1) i used
    have whole (run : ∀ q, i ≤ q → q < i + stackPages size → q ∈ freeSet s) :=
      allocStack_run least taken rest zero run
    have result : allocStack s size =
        let r := allocStackRest (((size + pageSize64 - 1#64) / pageSize64).toNat - 1) t
        if r.1 then (pageAddr i, r.2) else (0, r.2) := by
      rw [allocStack, eq, if_neg some]
    generalize allocStackRest (((size + pageSize64 - 1#64) / pageSize64).toNat - 1) t = r at *
    dsimp only at result
    constructor
    · intro owns j least' q low high
      obtain rfl : i = j := least.unique least'
      cases ok : r.1 with
      | true =>
        rw [ok, if_pos rfl] at result
        have stack : StackPage (pageAddr i) size q := (stackPage_iff inside).mpr ⟨low, high⟩
        have mine := owns.owned (by rw [result]; exact some) q (by rw [result]; exact stack)
        exact mem_freeSet.mpr ⟨mine.1, mine.2.1⟩
      | false =>
        -- the first page is lost
        rw [ok, if_neg Bool.false_ne_true] at result
        have lost := owns.kept (by rw [result]) i
        rw [result, free, grown] at lost
        cases lost
    · intro contiguous
      have run := contiguous i least
      obtain ⟨ok, bits⟩ := whole run
      rw [ok, if_pos rfl] at result
      refine ⟨fun _ q stack => ?_, fun failed => ?_⟩
      · rw [result] at stack ⊢
        obtain ⟨low, high⟩ := (stackPage_iff inside).mp stack
        obtain ⟨inside, wasFree⟩ := mem_freeSet.mp (run q low high)
        exact ⟨inside, wasFree, bits q low high⟩
      · rw [result] at failed
        exact absurd failed some

/-! ## The frame at the top -/

theorem stackSlot_toNat {base : u64} {slot : u32} (some : 0 < slot.toNat)
    (fits : 8 * slot.toNat ≤ size.toNat) (top : base.toNat + size.toNat < 2 ^ 64) :
    (stackSlot (base + size) slot).toNat = base.toNat + size.toNat - 8 * slot.toNat := by
  have product : (slot.setWidth 64 * 8#64).toNat = 8 * slot.toNat := by
    have := slot.isLt
    rw [BitVec.toNat_mul, BitVec.toNat_setWidth]
    simp
    omega
  rw [stackSlot, BitVec.toNat_sub, product, BitVec.toNat_add]
  have := size.isLt
  omega

/-- **`StackPoke` stays on the stack**, in a slot for which the stack is large enough. -/
theorem OwnsStack.poke (owns : OwnsStack s size) (some : (allocStack s size).1 ≠ 0) {slot : u32}
    (first : 0 < slot.toNat) (fits : 8 * slot.toNat ≤ size.toNat) (k : Nat) (byte : k < 8) :
    Allocated s (allocStack s size).2
      (((stackSlot ((allocStack s size).1 + size) slot).toNat + k) / PAGE_SIZE) := by
  have owned := owns.owned some
  generalize (allocStack s size).1 = base at *
  -- the last page of the stack is below 8 GB
  have last := (owned ((base.toNat + size.toNat - 1) / PAGE_SIZE)
    ⟨by simp only [PAGE_SIZE]; omega, by simp only [PAGE_SIZE]; omega⟩).1
  have top : base.toNat + size.toNat < 2 ^ 64 := by
    simp only [MAX_PAGES, PAGE_SIZE] at last
    omega
  rw [stackSlot_toNat first fits top]
  exact owned _ ⟨by simp only [PAGE_SIZE]; omega, by simp only [PAGE_SIZE]; omega⟩

/-! ## Every reachable state -/

/-- **A kernel stack owns its pages** exactly if the pages from the lowest free one on, as
many as the stack has, are all free: in every state of the allocator that calls after `Init`
lead to, and for every size. -/
theorem stack_owned_iff (bmStart : u64) (bi : Option BootInfo) (ops : List PMM.Op) :
    Always PMM.step (fun s => ∀ size, OwnsStack s.pmm size ↔ Contiguous s.pmm size)
      (PMM.boot bmStart bi) ops :=
  (intact_run bmStart bi ops).mono fun _ h size => ownsStack_iff h.pool h.zero size

/-- Three pages from 2 MB on. -/
def threePages : BootInfo where
  magic := BOOTINFO_MAGIC
  memoryMap := [⟨0x200000#64, 0x3000#64, .available⟩]

theorem pool_threePages : PMM.Pool {512, 513, 514} (init 0x100000#64 (some threePages)) := by
  have pool := pool_init 0x100000#64 (some threePages)
  have same : {q | (∃ e ∈ bootEntries (some threePages), e.Offers q) ∧ ¬ OnBitmap 0x100000#64 q ∧
      LOW_PAGES ≤ q} = ({512, 513, 514} : Set Nat) := by
    have only : bootEntries (some threePages) = [⟨0x200000#64, 0x3000#64, .available⟩] := rfl
    have first : (BootMemoryEntry.first ⟨0x200000#64, 0x3000#64, .available⟩).toNat = 0x200000 := by
      decide
    have stop : (BootMemoryEntry.stop ⟨0x200000#64, 0x3000#64, .available⟩).toNat = 0x203000 := by
      decide
    have low : (alignDown 0x100000#64 pageSize64).toNat = 0x100000 := by decide
    have high : (alignUp (0x100000#64 + BitVec.ofNat 64 BITMAP_BYTES) pageSize64).toNat = 0x140000 := by
      decide
    ext q
    simp only [only, List.mem_singleton, exists_eq_left, BootMemoryEntry.Offers, first, stop, OnBitmap,
      low, high, Set.mem_ofPred_eq, Set.mem_insert_iff, Set.mem_singleton_iff, true_and, LOW_PAGES,
      PAGE_SIZE, MAX_PAGES]
    omega
  rwa [same] at pool

/-- The first of two pages is given back. A stack of two pages gets it and the third one,
and its top is on the second, which is another's. -/
theorem second_page_not_owned :
    ∃ s, run PMM.step (PMM.boot 0x100000#64 (some threePages))
        [.allocPage, .allocPage, .freePage (pageAddr 512)] = some s ∧
      ¬ OwnsStack s.pmm 0x2000#64 := by
  obtain ⟨t, first, -, pool⟩ := pool_threePages.allocPage (i := 512)
    ⟨by simp, fun q hq => by rcases hq with rfl | rfl | rfl <;> decide⟩
  obtain ⟨u, second, -, pool⟩ := pool.allocPage (i := 513)
    ⟨by simp, fun q hq => by rcases hq with ⟨rfl | rfl | rfl, other⟩ <;> simp at *⟩
  have pool := pool.freePage (i := 512) (by decide) (by simp)
  refine ⟨_, by
    simp only [run, PMM.step, PMM.boot, System.granted, first, second, Option.bind_some]
    rfl, ?_⟩
  have free : (freeSet (freePage u (pageAddr 512)) : Set Nat) = {512, 514} := by
    rw [pool.freeSet_eq]
    ext q
    simp only [Set.mem_insert_iff, Set.mem_sdiff, Set.mem_singleton_iff]
    omega
  have zero : bitmapTest (freePage u (pageAddr 512)).bitmap 0 = true :=
    pool.used (by decide) (by simp)
  intro owns
  have contiguous := (ownsStack_iff pool.again zero 0x2000#64).mp owns
  have least : IsLeast (freeSet (freePage u (pageAddr 512)) : Set Nat) 512 := by
    rw [free]
    exact ⟨by simp, fun q hq => by rcases hq with rfl | rfl <;> decide⟩
  have next := contiguous 512 least 513 (by decide) (by decide)
  rw [← Finset.mem_coe, free] at next
  simp at next

end MicroNT.PS
