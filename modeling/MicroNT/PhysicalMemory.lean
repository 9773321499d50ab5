import Mathlib.Logic.Function.Basic
import MicroNT.Ntdef

/-! # Physical memory manager (`kernel/mm/physical_memory.cpp`)

One bit per 4 KB page, a free count and a search hint. `Init` reserves
everything, frees the whole pages of available boot entries and reserves the
bitmap and the first 2 MB again; `AllocPage` scans from the hint, `AllocPages`
scans for a run from page 0. Page numbers are naturals: every one the code
computes is below `2 ^ 52`. Addresses stay 64-bit words, because `Init` adds
and aligns boot addresses modulo `2 ^ 64`. -/

namespace MicroNT.PMM

abbrev MAX_PAGES : Nat := 8 * 1024 * 1024 * 1024 / PAGE_SIZE
abbrev BITMAP_BYTES : Nat := MAX_PAGES / 8

/-- The file's static variables. -/
structure Pmm where
  bitmap : Nat → u8
  totalPages : Nat
  freePages : Nat
  searchHint : Nat

/-! ## Bitmap -/

def bitmapSet (b : Nat → u8) (page : Nat) : Nat → u8 :=
  Function.update b (page / 8) (b (page / 8) ||| (1#8 <<< (page % 8)))

def bitmapClear (b : Nat → u8) (page : Nat) : Nat → u8 :=
  Function.update b (page / 8) (b (page / 8) &&& ~~~(1#8 <<< (page % 8)))

def bitmapTest (b : Nat → u8) (page : Nat) : Bool :=
  (b (page / 8) >>> (page % 8)) &&& 1#8 != 0#8

theorem bitmapTest_eq (b : Nat → u8) (page : Nat) :
    bitmapTest b page = (b (page / 8)).getLsbD (page % 8) := by
  have h : ∀ x : u8, (x &&& 1#8 != 0#8) = x.getLsbD 0 := by decide
  rw [bitmapTest, h, BitVec.getLsbD_ushiftRight, Nat.add_zero]

theorem bit_getLsbD {k i : Nat} (hi : i < 8) :
    (1#8 <<< k).getLsbD i = decide (i = k) := by
  rw [BitVec.getLsbD_shiftLeft, BitVec.getLsbD_one]
  grind

/-- Two pages share a bit only if they are the same page. -/
theorem page_eq_iff {p q : Nat} : p = q ↔ p / 8 = q / 8 ∧ p % 8 = q % 8 := by omega

@[simp] theorem bitmapTest_set (b : Nat → u8) (p q : Nat) :
    bitmapTest (bitmapSet b p) q = (decide (q = p) || bitmapTest b q) := by
  simp only [bitmapTest_eq, bitmapSet, Function.update_apply, page_eq_iff (p := q)]
  by_cases h : q / 8 = p / 8
  · rw [if_pos h, BitVec.getLsbD_or, bit_getLsbD (Nat.mod_lt _ (by decide)), h, Bool.or_comm]
    simp
  · simp [h]

@[simp] theorem bitmapTest_clear (b : Nat → u8) (p q : Nat) :
    bitmapTest (bitmapClear b p) q = (!decide (q = p) && bitmapTest b q) := by
  have hq : q % 8 < 8 := Nat.mod_lt _ (by decide)
  simp only [bitmapTest_eq, bitmapClear, Function.update_apply, page_eq_iff (p := q)]
  by_cases h : q / 8 = p / 8
  · rw [if_pos h, BitVec.getLsbD_and, BitVec.getLsbD_not, bit_getLsbD hq, h, Bool.and_comm]
    simp [hq]
  · simp [h]

/-! ## Init -/

inductive BootMemoryType
  | reserved | available | acpi | nvs | mmio | loader
  deriving DecidableEq, Repr

structure BootMemoryEntry where
  base : u64
  length : u64
  type : BootMemoryType

abbrev BOOTINFO_MAGIC : u64 := 0x544E424D01#64

/-- The part of `MicroNTBootInfo` that `Init` reads. -/
structure BootInfo where
  magic : u64
  memoryMap : List BootMemoryEntry

/-- `AlignUp(e.base)`: where the loop over an entry starts. -/
def BootMemoryEntry.first (e : BootMemoryEntry) : u64 := alignUp e.base pageSize64

/-- `AlignDown(e.base + e.length)`: where it ends. -/
def BootMemoryEntry.stop (e : BootMemoryEntry) : u64 := alignDown (e.base + e.length) pageSize64

/-- The page loop over one entry, with `n` pages left from `page` on. -/
def initPages (isFree : Bool) : Nat → Nat → Pmm → Pmm
  | 0, _, s => s
  | n + 1, page, s =>
    if page ≥ MAX_PAGES then s
    else if isFree then
      initPages isFree n (page + 1)
        { s with
          bitmap := bitmapClear s.bitmap page
          freePages := s.freePages + 1
          totalPages := s.totalPages + 1 }
    else initPages isFree n (page + 1) { s with totalPages := s.totalPages + 1 }

def initEntry (s : Pmm) (e : BootMemoryEntry) : Pmm :=
  if e.first ≥ e.stop then s
  else initPages (e.type == .available)
    ((e.stop.toNat - e.first.toNat) / PAGE_SIZE) (e.first.toNat / PAGE_SIZE) s

/-- `if (!BitmapTest(pg)) { BitmapSet(pg); if (s_free_pages) --s_free_pages; }` -/
def reserve (s : Pmm) (page : Nat) : Pmm :=
  if bitmapTest s.bitmap page then s
  else { s with bitmap := bitmapSet s.bitmap page, freePages := s.freePages - 1 }

/-- The loop that reserves the bitmap's own pages. -/
def reserveBitmap : Nat → Nat → Pmm → Pmm
  | 0, _, s => s
  | n + 1, pg, s => reserveBitmap n (pg + 1) (if pg < MAX_PAGES then reserve s pg else s)

/-- The loop that reserves the first 2 MB. -/
def reserveLow : Nat → Nat → Pmm → Pmm
  | 0, _, s => s
  | n + 1, page, s => reserveLow n (page + 1) (reserve s page)

abbrev LOW_PAGES : Nat := 2 * 1024 * 1024 / PAGE_SIZE

/-- Everything reserved: the state before the memory map is read. -/
def allReserved : Pmm :=
  { bitmap := fun _ => 0xFF#8, totalPages := 0, freePages := 0, searchHint := 0 }

/-- `bmStart` is the address of `s_bitmap`, which the linker chooses. -/
def init (bmStart : u64) : Option BootInfo → Pmm
  | none => allReserved
  | some bi =>
    if bi.magic ≠ BOOTINFO_MAGIC then allReserved
    else
      let s := bi.memoryMap.foldl initEntry allReserved
      let bmEnd := bmStart + BitVec.ofNat 64 BITMAP_BYTES
      let lo := alignDown bmStart pageSize64
      let hi := alignUp bmEnd pageSize64
      let s := reserveBitmap ((hi.toNat - lo.toNat) / PAGE_SIZE) (lo.toNat / PAGE_SIZE) s
      reserveLow LOW_PAGES 0 s

/-! ## Allocation -/

/-- The scan of `AllocPage`: the first clear bit among `n` pages from `i` on. -/
def findFree (b : Nat → u8) : Nat → Nat → Option Nat
  | 0, _ => none
  | n + 1, i => if bitmapTest b i then findFree b n (i + 1) else some i

/-- `BitmapSet(j); if (s_free_pages) --s_free_pages;` -/
def take (s : Pmm) (j : Nat) : Pmm :=
  { s with bitmap := bitmapSet s.bitmap j, freePages := s.freePages - 1 }

/-- The 64-bit address of a page. -/
def pageAddr (i : Nat) : u64 := BitVec.ofNat 64 (i * PAGE_SIZE)

def allocPage (s : Pmm) : u64 × Pmm :=
  match findFree s.bitmap (MAX_PAGES - s.searchHint) s.searchHint with
  | some i => (pageAddr i, { take s i with searchHint := i + 1 })
  | none => (0, s)

def freePage (s : Pmm) (physAddr : u64) : Pmm :=
  let page := physAddr.toNat / PAGE_SIZE
  if page ≥ MAX_PAGES || !bitmapTest s.bitmap page then s
  else
    { s with
      bitmap := bitmapClear s.bitmap page
      freePages := s.freePages + 1
      searchHint := if page < s.searchHint then page else s.searchHint }

/-- The scan of `AllocPages`: the start of the first run of `count` clear bits
among `n` pages from `i` on, when the `run` pages before `i` are clear. -/
def findRun (b : Nat → u8) (count : Nat) : Nat → Nat → Nat → Option Nat
  | 0, _, _ => none
  | n + 1, i, run =>
    if bitmapTest b i then findRun b count n (i + 1) 0
    else if run + 1 = count then some (i + 1 - count)
    else findRun b count n (i + 1) (run + 1)

/-- The loop that marks the run. -/
def takeRun : Nat → Nat → Pmm → Pmm
  | 0, _, s => s
  | n + 1, j, s => takeRun n (j + 1) (take s j)

def allocPages (s : Pmm) (count : Nat) : u64 × Pmm :=
  if count = 0 then (0, s)
  else
    match findRun s.bitmap count MAX_PAGES 0 0 with
    | some start => (pageAddr start, takeRun count start s)
    | none => (0, s)

/-! ## What each operation does to a page's bit -/

theorem initPages_bitmap (f : Bool) (n p q : Nat) (s : Pmm) :
    bitmapTest (initPages f n p s).bitmap q =
      (bitmapTest s.bitmap q && !(f && decide (p ≤ q ∧ q < p + n ∧ q < MAX_PAGES))) := by
  induction n generalizing p s with
  | zero =>
    have h : ¬ (p ≤ q ∧ q < p + 0 ∧ q < MAX_PAGES) := by omega
    rw [initPages, decide_eq_false h]
    simp
  | succ n ih =>
    rw [initPages]
    split
    case isTrue hp =>
      have h : ¬ (p ≤ q ∧ q < p + (n + 1) ∧ q < MAX_PAGES) := by omega
      simp [h]
    case isFalse hp =>
      cases f with
      | false => simp [ih]
      | true =>
        simp only [if_true, ih, bitmapTest_clear, Bool.true_and]
        by_cases hq : q = p
        · subst hq
          have h : q ≤ q ∧ q < q + (n + 1) ∧ q < MAX_PAGES := by omega
          simp [h]
        · have h : (p + 1 ≤ q ∧ q < p + 1 + n ∧ q < MAX_PAGES) ↔
              (p ≤ q ∧ q < p + (n + 1) ∧ q < MAX_PAGES) := by omega
          simp only [h]
          simp [hq]

/-- The entry offers the page: `Init`'s loop over the entry reaches it. -/
def BootMemoryEntry.Offers (e : BootMemoryEntry) (page : Nat) : Prop :=
  e.type = .available ∧ e.first.toNat ≤ page * PAGE_SIZE ∧ page * PAGE_SIZE < e.stop.toNat ∧
    page < MAX_PAGES

instance (e : BootMemoryEntry) (page : Nat) : Decidable (e.Offers page) := by
  unfold BootMemoryEntry.Offers; infer_instance

theorem alignDown_mod (x : u64) : (alignDown x pageSize64).toNat % PAGE_SIZE = 0 := by
  rw [alignDown_toNat]; exact Nat.mul_mod_left _ _

theorem first_mod (e : BootMemoryEntry) : e.first.toNat % PAGE_SIZE = 0 := by
  rw [BootMemoryEntry.first, alignUp_eq]; exact alignDown_mod _

theorem stop_mod (e : BootMemoryEntry) : e.stop.toNat % PAGE_SIZE = 0 := alignDown_mod _

theorem initEntry_bitmap (s : Pmm) (e : BootMemoryEntry) (q : Nat) :
    bitmapTest (initEntry s e).bitmap q = (bitmapTest s.bitmap q && !decide (e.Offers q)) := by
  have hf := first_mod e
  have hs := stop_mod e
  simp only [PAGE_SIZE] at hf hs
  rw [initEntry]
  split
  case isTrue h =>
    have h' : e.stop.toNat ≤ e.first.toNat := h
    have : ¬ e.Offers q := by unfold BootMemoryEntry.Offers; omega
    simp [this]
  case isFalse h =>
    have h' : ¬ e.stop.toNat ≤ e.first.toNat := h
    rw [initPages_bitmap]
    have range : (e.first.toNat / PAGE_SIZE ≤ q ∧
        q < e.first.toNat / PAGE_SIZE + (e.stop.toNat - e.first.toNat) / PAGE_SIZE ∧
        q < MAX_PAGES) ↔ (e.first.toNat ≤ q * PAGE_SIZE ∧ q * PAGE_SIZE < e.stop.toNat ∧
        q < MAX_PAGES) := by
      simp only [PAGE_SIZE]; omega
    simp only [range, BootMemoryEntry.Offers]
    by_cases ht : e.type = .available <;> simp [ht]

theorem foldl_initEntry_bitmap (m : List BootMemoryEntry) (s : Pmm) (q : Nat) :
    bitmapTest (m.foldl initEntry s).bitmap q =
      (bitmapTest s.bitmap q && !decide (∃ e ∈ m, e.Offers q)) := by
  induction m generalizing s with
  | nil => simp
  | cons e m ih => simp [ih, initEntry_bitmap, Bool.and_assoc]

@[simp] theorem reserve_bitmap (s : Pmm) (p q : Nat) :
    bitmapTest (reserve s p).bitmap q = (decide (q = p) || bitmapTest s.bitmap q) := by
  rw [reserve]
  split
  case isTrue h =>
    by_cases hq : q = p
    · subst hq; simp [h]
    · simp [hq]
  case isFalse h => simp

theorem reserveBitmap_bitmap (n p q : Nat) (s : Pmm) :
    bitmapTest (reserveBitmap n p s).bitmap q =
      (bitmapTest s.bitmap q || decide (p ≤ q ∧ q < p + n ∧ q < MAX_PAGES)) := by
  induction n generalizing p s with
  | zero =>
    have h : ¬ (p ≤ q ∧ q < p + 0 ∧ q < MAX_PAGES) := by omega
    rw [reserveBitmap, decide_eq_false h]
    simp
  | succ n ih =>
    rw [reserveBitmap, ih]
    by_cases hq : q = p
    · subst hq
      have h : ¬ (q + 1 ≤ q ∧ q < q + 1 + n ∧ q < MAX_PAGES) := by omega
      have h' : (q ≤ q ∧ q < q + (n + 1) ∧ q < MAX_PAGES) ↔ q < MAX_PAGES := by omega
      simp only [h, h', decide_false, Bool.or_false]
      split <;> simp [*]
    · have h : (p + 1 ≤ q ∧ q < p + 1 + n ∧ q < MAX_PAGES) ↔
          (p ≤ q ∧ q < p + (n + 1) ∧ q < MAX_PAGES) := by omega
      simp only [h]
      split <;> simp [hq]

theorem reserveLow_bitmap (n p q : Nat) (s : Pmm) :
    bitmapTest (reserveLow n p s).bitmap q =
      (bitmapTest s.bitmap q || decide (p ≤ q ∧ q < p + n)) := by
  induction n generalizing p s with
  | zero =>
    have h : ¬ (p ≤ q ∧ q < p + 0) := by omega
    rw [reserveLow, decide_eq_false h]
    simp
  | succ n ih =>
    rw [reserveLow, ih, reserve_bitmap]
    by_cases hq : q = p
    · subst hq; simp
    · have h : (p + 1 ≤ q ∧ q < p + 1 + n) ↔ (p ≤ q ∧ q < p + (n + 1)) := by omega
      simp only [h]
      simp [hq]

@[simp] theorem allReserved_bitmap (q : Nat) : bitmapTest allReserved.bitmap q = true := by
  have h : ∀ i : Fin 8, (0xFF#8).getLsbD i = true := by decide
  rw [bitmapTest_eq]
  exact h ⟨q % 8, Nat.mod_lt _ (by decide)⟩

theorem initPages_searchHint (f : Bool) (n p : Nat) (s : Pmm) :
    (initPages f n p s).searchHint = s.searchHint := by
  induction n generalizing p s with
  | zero => rfl
  | succ n ih => rw [initPages]; split <;> [rfl; (split <;> rw [ih])]

theorem initEntry_searchHint (s : Pmm) (e : BootMemoryEntry) :
    (initEntry s e).searchHint = s.searchHint := by
  rw [initEntry]; split <;> [rfl; exact initPages_searchHint _ _ _ _]

@[simp] theorem reserve_searchHint (s : Pmm) (p : Nat) :
    (reserve s p).searchHint = s.searchHint := by
  rw [reserve]; split <;> rfl

theorem reserveBitmap_searchHint (n p : Nat) (s : Pmm) :
    (reserveBitmap n p s).searchHint = s.searchHint := by
  induction n generalizing p s with
  | zero => rfl
  | succ n ih => rw [reserveBitmap, ih]; split <;> simp

theorem reserveLow_searchHint (n p : Nat) (s : Pmm) :
    (reserveLow n p s).searchHint = s.searchHint := by
  induction n generalizing p s with
  | zero => rfl
  | succ n ih => rw [reserveLow, ih, reserve_searchHint]

/-- `Init` leaves the hint at page 0. -/
theorem init_searchHint (bmStart : u64) (bi : Option BootInfo) :
    (init bmStart bi).searchHint = 0 := by
  have entries (m : List BootMemoryEntry) (s : Pmm) :
      (m.foldl initEntry s).searchHint = s.searchHint := by
    induction m generalizing s with
    | nil => rfl
    | cons e m ih => rw [List.foldl_cons, ih, initEntry_searchHint]
  rcases bi with _ | bi
  · rfl
  · rw [init]
    split
    case isTrue => rfl
    case isFalse => rw [reserveLow_searchHint, reserveBitmap_searchHint, entries]; rfl

/-- The entries that `Init` reads: none when it refuses the boot information. -/
def bootEntries : Option BootInfo → List BootMemoryEntry
  | none => []
  | some bi => if bi.magic ≠ BOOTINFO_MAGIC then [] else bi.memoryMap

/-- The bitmap covers the page, wholly or in part. -/
def OnBitmap (bmStart : u64) (page : Nat) : Prop :=
  (alignDown bmStart pageSize64).toNat ≤ page * PAGE_SIZE ∧
    page * PAGE_SIZE < (alignUp (bmStart + BitVec.ofNat 64 BITMAP_BYTES) pageSize64).toNat

instance (bmStart : u64) (page : Nat) : Decidable (OnBitmap bmStart page) := by
  unfold OnBitmap; infer_instance

/-- **Which pages are free after `Init`.** A page is free exactly when an
available entry offers it, the bitmap does not lie on it and it is not in the
first 2 MB. -/
theorem init_free_iff (bmStart : u64) (bi : Option BootInfo) (q : Nat) :
    bitmapTest (init bmStart bi).bitmap q = false ↔
      (∃ e ∈ bootEntries bi, e.Offers q) ∧ ¬ OnBitmap bmStart q ∧ LOW_PAGES ≤ q := by
  rcases bi with _ | bi
  · simp [init, bootEntries]
  · by_cases hm : bi.magic ≠ BOOTINFO_MAGIC
    · simp [init, bootEntries, hm]
    · have hd := alignDown_mod bmStart
      have hu : (alignUp (bmStart + BitVec.ofNat 64 BITMAP_BYTES) pageSize64).toNat
          % PAGE_SIZE = 0 := by rw [alignUp_eq]; exact alignDown_mod _
      simp only [init, bootEntries, hm, if_false]
      rw [reserveLow_bitmap, reserveBitmap_bitmap, foldl_initEntry_bitmap]
      simp only [allReserved_bitmap, Bool.true_and, Bool.or_eq_false_iff,
        Bool.not_eq_false', decide_eq_true_eq, decide_eq_false_iff_not, OnBitmap]
      generalize (alignDown bmStart pageSize64).toNat = lo at *
      generalize (alignUp (bmStart + BitVec.ofNat 64 BITMAP_BYTES) pageSize64).toNat = hi at *
      constructor
      · rintro ⟨⟨he, hb⟩, hl⟩
        have hq : q < MAX_PAGES := by obtain ⟨e, -, ho⟩ := he; exact ho.2.2.2
        refine ⟨he, ?_, by omega⟩
        simp only [PAGE_SIZE] at *; omega
      · rintro ⟨he, hb, hl⟩
        refine ⟨⟨he, ?_⟩, by omega⟩
        simp only [PAGE_SIZE] at *; omega

/-! ## Allocation, one spec lemma per function -/

theorem findFree_some {b : Nat → u8} {n i j : Nat} (h : findFree b n i = some j) :
    i ≤ j ∧ j < i + n ∧ bitmapTest b j = false := by
  induction n generalizing i with
  | zero => simp [findFree] at h
  | succ n ih =>
    rw [findFree] at h
    split at h
    case isTrue hb => have := ih h; exact ⟨by omega, by omega, this.2.2⟩
    case isFalse hb =>
      simp only [Option.some.injEq] at h
      subst h
      exact ⟨le_rfl, by omega, by simpa using hb⟩

theorem findFree_none {b : Nat → u8} {n i : Nat} (h : findFree b n i = none) {q : Nat}
    (hi : i ≤ q) (hq : q < i + n) : bitmapTest b q = true := by
  induction n generalizing i with
  | zero => omega
  | succ n ih =>
    rw [findFree] at h
    split at h
    case isTrue hb =>
      rcases Nat.eq_or_lt_of_le hi with rfl | hlt
      · exact hb
      · exact ih h hlt (by omega)
    case isFalse => cases h

/-- The scan keeps `run` clear bits behind it, so a result is a clear run. -/
theorem findRun_some {b : Nat → u8} {count n i run start : Nat}
    (h : findRun b count n i run = some start) (hc : run < count) (hi : run ≤ i)
    (hclear : ∀ k, i - run ≤ k → k < i → bitmapTest b k = false) :
    start + count ≤ i + n ∧ ∀ k, start ≤ k → k < start + count → bitmapTest b k = false := by
  induction n generalizing i run with
  | zero => simp [findRun] at h
  | succ n ih =>
    rw [findRun] at h
    split at h
    case isTrue hb =>
      have := ih h (by omega) (by omega) (by intro k h1 h2; omega)
      exact ⟨by omega, this.2⟩
    case isFalse hb =>
      have hclear' : ∀ k, i + 1 - (run + 1) ≤ k → k < i + 1 → bitmapTest b k = false := by
        intro k h1 h2
        rcases Nat.lt_succ_iff_lt_or_eq.mp h2 with h3 | rfl
        · exact hclear k (by omega) h3
        · simpa using hb
      split at h
      case isTrue hr =>
        simp only [Option.some.injEq] at h
        exact ⟨by omega, fun k h1 h2 => hclear' k (by omega) (by omega)⟩
      case isFalse hr =>
        have := ih h (by omega) (by omega) hclear'
        exact ⟨by omega, this.2⟩

@[simp] theorem take_bitmap (s : Pmm) (p q : Nat) :
    bitmapTest (take s p).bitmap q = (decide (q = p) || bitmapTest s.bitmap q) :=
  bitmapTest_set _ _ _

theorem takeRun_bitmap (n j q : Nat) (s : Pmm) :
    bitmapTest (takeRun n j s).bitmap q =
      (decide (j ≤ q ∧ q < j + n) || bitmapTest s.bitmap q) := by
  induction n generalizing j s with
  | zero =>
    have h : ¬ (j ≤ q ∧ q < j + 0) := by omega
    rw [takeRun, decide_eq_false h]
    simp
  | succ n ih =>
    rw [takeRun, ih, take_bitmap]
    by_cases hq : q = j
    · subst hq; simp
    · have h : (j + 1 ≤ q ∧ q < j + 1 + n) ↔ (j ≤ q ∧ q < j + (n + 1)) := by omega
      simp only [h]
      simp [hq]

/-- The pages `start .. start + count - 1` were free and are now in use. -/
structure Takes (s s' : Pmm) (start count : Nat) : Prop where
  within : start + count ≤ MAX_PAGES
  wasFree : ∀ k, start ≤ k → k < start + count → bitmapTest s.bitmap k = false
  bits : ∀ q, bitmapTest s'.bitmap q =
    (decide (start ≤ q ∧ q < start + count) || bitmapTest s.bitmap q)

/-- `AllocPage` takes a page, or every page from the hint on is in use. -/
theorem allocPage_cases (s : Pmm) :
    (∃ i, (allocPage s).1 = pageAddr i ∧ Takes s (allocPage s).2 i 1) ∨
      (allocPage s = (0, s) ∧
        ∀ q, s.searchHint ≤ q → q < MAX_PAGES → bitmapTest s.bitmap q = true) := by
  rw [allocPage]
  split
  case h_1 i hi =>
    have h := findFree_some hi
    refine .inl ⟨i, rfl, by omega, fun k h1 h2 => ?_, fun q => ?_⟩
    · rw [show k = i by omega]; exact h.2.2
    · have hq : (i ≤ q ∧ q < i + 1) ↔ q = i := by omega
      simp only [take_bitmap, hq]
  case h_2 hn => exact .inr ⟨rfl, fun q h1 h2 => findFree_none hn h1 (by omega)⟩

theorem allocPage_bits (s : Pmm) (q : Nat) (hq : bitmapTest s.bitmap q = true) :
    bitmapTest (allocPage s).2.bitmap q = true := by
  rcases allocPage_cases s with ⟨i, -, ht⟩ | ⟨h0, -⟩
  · simp [ht.bits, hq]
  · rw [h0]
    exact hq

/-- `AllocPages` marks a run of free pages, or changes nothing. -/
theorem allocPages_run (s : Pmm) (count : Nat) :
    allocPages s count = (0, s) ∨
      ∃ i, allocPages s count = (pageAddr i, takeRun count i s) ∧ 0 < count ∧
        Takes s (takeRun count i s) i count := by
  rw [allocPages]
  split
  case isTrue => exact .inl rfl
  case isFalse h0 =>
    split
    case h_1 i hi =>
      have h := findRun_some hi (by omega) le_rfl (by intro k h1 h2; omega)
      exact .inr ⟨i, rfl, by omega, by omega, h.2, fun q => takeRun_bitmap _ _ _ _⟩
    case h_2 => exact .inl rfl

theorem allocPages_cases (s : Pmm) (count : Nat) :
    (∃ i, (allocPages s count).1 = pageAddr i ∧ 0 < count ∧
      Takes s (allocPages s count).2 i count) ∨ allocPages s count = (0, s) := by
  rcases allocPages_run s count with none | ⟨i, run, some, taken⟩
  · exact .inr none
  · rw [run]
    exact .inl ⟨i, rfl, some, taken⟩

/-- `FreePage` clears the bit of the page it is given, if that page is tracked. -/
theorem freePage_bitmap (s : Pmm) (a : u64) (q : Nat) :
    bitmapTest (freePage s a).bitmap q =
      (!decide (q = a.toNat / PAGE_SIZE ∧ q < MAX_PAGES) && bitmapTest s.bitmap q) := by
  rw [freePage]
  split
  case isTrue h =>
    by_cases hq : q = a.toNat / PAGE_SIZE
    · subst hq
      by_cases hm : a.toNat / PAGE_SIZE < MAX_PAGES
      · have hb : bitmapTest s.bitmap (a.toNat / PAGE_SIZE) = false := by
          simp only [Bool.or_eq_true, decide_eq_true_eq, Bool.not_eq_true'] at h
          exact h.resolve_left (by omega)
        simp [hb]
      · simp [hm]
    · simp [hq]
  case isFalse h =>
    have hm : a.toNat / PAGE_SIZE < MAX_PAGES := by
      simp only [Bool.or_eq_true, decide_eq_true_eq, not_or] at h; omega
    by_cases hq : q = a.toNat / PAGE_SIZE
    · subst hq; simp [hm]
    · simp [hq]

theorem pageAddr_toNat {i : Nat} (h : i < MAX_PAGES) : (pageAddr i).toNat = i * PAGE_SIZE := by
  rw [pageAddr, BitVec.toNat_ofNat, Nat.mod_eq_of_lt]
  simp only [MAX_PAGES, PAGE_SIZE] at *
  omega

theorem pageAddr_inj {p q : Nat} (hp : p < MAX_PAGES) (hq : q < MAX_PAGES)
    (h : pageAddr p = pageAddr q) : p = q := by
  have h' := congrArg BitVec.toNat h
  rw [pageAddr_toNat hp, pageAddr_toNat hq] at h'
  simp only [PAGE_SIZE] at h'
  omega

/-- The page an address lies on. -/
def pageOf (a : u64) : u64 := alignDown a pageSize64

theorem pageOf_eq {a : u64} {q : Nat} (hq : q < MAX_PAGES) (h : pageOf a = pageAddr q) :
    a.toNat / PAGE_SIZE = q := by
  have h' := congrArg BitVec.toNat h
  rw [pageOf, alignDown_toNat, pageAddr_toNat hq] at h'
  simp only [PAGE_SIZE] at *
  omega

theorem pageOf_pageAddr {i : Nat} (h : i < MAX_PAGES) : pageOf (pageAddr i) = pageAddr i := by
  rw [← BitVec.toNat_inj, pageOf, alignDown_toNat, pageAddr_toNat h,
    Nat.mul_div_cancel _ (by decide)]

theorem pageAddr_div (a : u64) : pageAddr (a.toNat / PAGE_SIZE) = pageOf a := by
  have ha := a.isLt
  rw [← BitVec.toNat_inj, pageOf, alignDown_toNat, pageAddr, BitVec.toNat_ofNat]
  simp only [PAGE_SIZE]
  omega

end MicroNT.PMM
