import Mathlib.Data.Finset.Card
import Mathlib.Data.Finset.Range
import Mathlib.Order.Bounds.Basic
import MicroNT.PhysicalMemory

/-! # The page allocator as a set of free pages

Abstractly the allocator is the set of its free pages: `AllocPage` takes the
least one, `AllocPages` the first run that is long enough, `FreePage` adds one.
The search hint is a lower bound of the set, so no free page is ever missed. -/

namespace MicroNT.PMM

/-- The allocator holds the free pages `F`, none of them below its hint. -/
structure Pool (F : Set Nat) (s : Pmm) : Prop where
  free : ∀ q, q < MAX_PAGES → (bitmapTest s.bitmap q = false ↔ q ∈ F)
  hint : ∀ q ∈ F, s.searchHint ≤ q
  within : ∀ q ∈ F, q < MAX_PAGES

/-- After `Init` the pages are free that an available entry offers, above 2 MB
and off the bitmap. -/
theorem pool_init (bmStart : u64) (bi : Option BootInfo) :
    Pool {q | (∃ e ∈ bootEntries bi, e.Offers q) ∧ ¬ OnBitmap bmStart q ∧ LOW_PAGES ≤ q}
      (init bmStart bi) where
  free q _ := init_free_iff bmStart bi q
  hint q _ := by rw [init_searchHint]; exact Nat.zero_le q
  within q hq := by
    obtain ⟨e, -, ho⟩ := hq.1
    exact ho.2.2.2

section

variable {F : Set Nat} {s : Pmm}

theorem Pool.used (h : Pool F s) {q : Nat} (hq : q < MAX_PAGES) (hn : q ∉ F) :
    bitmapTest s.bitmap q = true := by
  cases hb : bitmapTest s.bitmap q with
  | true => rfl
  | false => exact absurd ((h.free q hq).mp hb) hn

/-! ## AllocPage -/

theorem findFree_least {b : Nat → u8} {n i j : Nat} (hi : i ≤ j) (hj : j < i + n)
    (hfree : bitmapTest b j = false) (least : ∀ q, i ≤ q → q < j → bitmapTest b q = true) :
    findFree b n i = some j := by
  induction n generalizing i with
  | zero => omega
  | succ n ih =>
    unfold findFree
    split
    case isTrue hb =>
      have hne : i ≠ j := by
        intro heq
        rw [heq, hfree] at hb
        cases hb
      exact ih (by omega) (by omega) fun q h1 h2 => least q (by omega) h2
    case isFalse hb =>
      have heq : i = j := by
        by_contra hne
        exact hb (least i le_rfl (by omega))
      rw [heq]

/-- `AllocPage` takes the least free page. -/
theorem Pool.allocPage (h : Pool F s) {i : Nat} (hi : IsLeast F i) :
    ∃ t, allocPage s = (pageAddr i, t) ∧ Takes s t i 1 ∧ Pool (F \ {i}) t := by
  have hlt := h.within i hi.1
  have hhint := h.hint i hi.1
  have hscan : findFree s.bitmap (MAX_PAGES - s.searchHint) s.searchHint = some i :=
    findFree_least hhint (by omega) ((h.free i hlt).mpr hi.1) fun q _ hq =>
      h.used (by omega) fun hF => absurd (hi.2 hF) (by omega)
  refine ⟨{ take s i with searchHint := i + 1 }, by rw [PMM.allocPage, hscan],
    ⟨hlt, fun k h1 h2 => ?_, fun q => ?_⟩, ?_, ?_, ?_⟩
  · rw [show k = i by omega]
    exact (h.free i hlt).mpr hi.1
  · have hq : (i ≤ q ∧ q < i + 1) ↔ q = i := by omega
    simp only [take_bitmap, hq]
  · intro q hq
    rw [take_bitmap, Bool.or_eq_false_iff, h.free q hq, decide_eq_false_iff_not]
    exact and_comm
  · intro q hq
    have hle := hi.2 hq.1
    have hne : q ≠ i := hq.2
    show i + 1 ≤ q
    omega
  · exact fun q hq => h.within q hq.1

/-- `AllocPage` fails only when no page is free. -/
theorem Pool.allocPage_empty (h : Pool ∅ s) : PMM.allocPage s = (0, s) := by
  rcases allocPage_cases s with ⟨i, -, ht⟩ | ⟨h0, -⟩
  · have hlt : i < MAX_PAGES := ht.within
    exact absurd ((h.free i hlt).mp (ht.wasFree i le_rfl (by omega))) (Set.notMem_empty i)
  · exact h0

/-! ## AllocPages -/

/-- The scan finds the first run: it has `run` clear bits behind it and no run
began before them. -/
theorem findRun_first {b : Nat → u8} {count n p run i : Nat} (hc : run < count) (hp : run ≤ p)
    (behind : ∀ k, p - run ≤ k → k < p → bitmapTest b k = false)
    (hn : i + count ≤ p + n) (hi : p - run ≤ i)
    (clear : ∀ k, i ≤ k → k < i + count → bitmapTest b k = false)
    (first : ∀ j, p - run ≤ j → j < i → ∃ k, j ≤ k ∧ k < j + count ∧ bitmapTest b k = true) :
    findRun b count n p run = some i := by
  induction n generalizing p run with
  | zero => omega
  | succ n ih =>
    unfold findRun
    split
    case isTrue hb =>
      have hpi : p < i := by
        by_contra hle
        rw [clear p (by omega) (by omega)] at hb
        cases hb
      exact ih (by omega) (by omega) (fun k h1 h2 => by omega) (by omega) (by omega)
        fun j h1 h2 => first j (by omega) h2
    case isFalse hb =>
      have behind' : ∀ k, p - run ≤ k → k < p + 1 → bitmapTest b k = false := by
        intro k h1 h2
        rcases Nat.lt_succ_iff_lt_or_eq.mp h2 with h3 | rfl
        · exact behind k h1 h3
        · simpa using hb
      split
      case isTrue hr =>
        have heq : i = p - run := by
          by_contra hne
          obtain ⟨k, h1, h2, hk⟩ := first (p - run) le_rfl (by omega)
          rw [behind' k h1 (by omega)] at hk
          cases hk
        congr 1
        omega
      case isFalse hr =>
        exact ih (by omega) (by omega) (fun k h1 h2 => behind' k (by omega) h2) (by omega)
          (by omega) fun j h1 h2 => first j (by omega) h2

theorem takeRun_searchHint (n j : Nat) (s : Pmm) : (takeRun n j s).searchHint = s.searchHint := by
  induction n generalizing j s with
  | zero => rfl
  | succ n ih => rw [takeRun, ih]; rfl

/-- `AllocPages` takes the first run of free pages. -/
theorem Pool.allocPages (h : Pool F s) {i n : Nat} (hcount : 0 < n)
    (run : Set.Ico i (i + n) ⊆ F)
    (first : ∀ j, j < i → ¬ Set.Ico j (j + n) ⊆ F) :
    ∃ t, allocPages s n = (pageAddr i, t) ∧ Takes s t i n ∧
      Pool (F \ Set.Ico i (i + n)) t := by
  have inF : ∀ k, i ≤ k → k < i + n → k ∈ F := fun k h1 h2 => run ⟨h1, h2⟩
  have hlast := h.within _ (inF (i + n - 1) (by omega) (by omega))
  have wasFree : ∀ k, i ≤ k → k < i + n → bitmapTest s.bitmap k = false := by
    intro k h1 h2
    have hk := inF k h1 h2
    exact (h.free k (h.within k hk)).mpr hk
  have hscan : findRun s.bitmap n MAX_PAGES 0 0 = some i := by
    refine findRun_first hcount le_rfl (fun k _ hk => absurd hk (Nat.not_lt_zero k)) (by omega)
      (Nat.zero_le i) wasFree fun j _ hj => ?_
    · obtain ⟨k, hk, hn⟩ := Set.not_subset.mp (first j hj)
      exact ⟨k, hk.1, hk.2, h.used (by have := hk.2; omega) hn⟩
  refine ⟨takeRun n i s, by rw [PMM.allocPages, if_neg (by omega), hscan],
    ⟨by omega, wasFree, fun q => takeRun_bitmap _ _ _ _⟩, ?_, ?_, ?_⟩
  · intro q hq
    rw [takeRun_bitmap, Bool.or_eq_false_iff, h.free q hq, decide_eq_false_iff_not]
    exact and_comm
  · intro q hq
    rw [takeRun_searchHint]
    exact h.hint q hq.1
  · exact fun q hq => h.within q hq.1

/-! ## FreePage -/

/-- `FreePage` adds a page that was in use. -/
theorem Pool.freePage (h : Pool F s) {i : Nat} (hi : i < MAX_PAGES) (hn : i ∉ F) :
    Pool (insert i F) (freePage s (pageAddr i)) := by
  have hpage : (pageAddr i).toNat / PAGE_SIZE = i := by
    rw [pageAddr_toNat hi, Nat.mul_div_cancel _ (by decide)]
  refine ⟨fun q hq => ?_, fun q hq => ?_, fun q hq => ?_⟩
  · rw [freePage_bitmap, hpage, Set.mem_insert_iff, ← h.free q hq]
    by_cases hqi : q = i
    · simp [hqi, hi]
    · simp [hqi]
  · have hge : ¬ i ≥ MAX_PAGES := by omega
    have hhint : (PMM.freePage s (pageAddr i)).searchHint =
        if i < s.searchHint then i else s.searchHint := by
      simp only [PMM.freePage, hpage, hge, decide_false, h.used hi hn, Bool.not_true, Bool.or_self,
        Bool.false_eq_true, if_false]
    rw [hhint]
    rcases Set.mem_insert_iff.mp hq with rfl | hF
    · split <;> omega
    · have := h.hint q hF
      split <;> omega
  · rcases Set.mem_insert_iff.mp hq with rfl | hF
    · exact hi
    · exact h.within q hF

end

/-! ## The number of free pages -/

/-- The number of free physical pages. -/
def freeCount (s : Pmm) : Nat :=
  ((Finset.range MAX_PAGES).filter fun q => bitmapTest s.bitmap q = false).card

/-- No page is free from the hint on, where `AllocPage` looks. -/
def NoPage (s : Pmm) : Prop :=
  ∀ q, s.searchHint ≤ q → q < MAX_PAGES → bitmapTest s.bitmap q = true

theorem NoPage.allocPage {s : Pmm} (h : NoPage s) : PMM.allocPage s = (0, s) := by
  rw [PMM.allocPage]
  cases hf : findFree s.bitmap (MAX_PAGES - s.searchHint) s.searchHint with
  | none => rfl
  | some i =>
    obtain ⟨h1, h2, hfree⟩ := findFree_some hf
    rw [h i h1 (by omega)] at hfree
    cases hfree

theorem freeCount_takes {s t : Pmm} {i : Nat} (h : Takes s t i 1) :
    freeCount t + 1 = freeCount s := by
  have hi := h.within
  have same : (Finset.range MAX_PAGES).filter (fun q => bitmapTest t.bitmap q = false) =
      ((Finset.range MAX_PAGES).filter fun q => bitmapTest s.bitmap q = false).erase i := by
    ext q
    simp only [Finset.mem_filter, Finset.mem_range, Finset.mem_erase, h.bits, Bool.or_eq_false_iff,
      decide_eq_false_iff_not]
    constructor
    · exact fun ⟨hq, hn, hf⟩ => ⟨fun e => hn (by omega), hq, hf⟩
    · exact fun ⟨hn, hq, hf⟩ => ⟨hq, fun e => hn (by omega), hf⟩
  have mem : i ∈ (Finset.range MAX_PAGES).filter fun q => bitmapTest s.bitmap q = false := by
    simp only [Finset.mem_filter, Finset.mem_range]
    exact ⟨by omega, h.wasFree i le_rfl (by omega)⟩
  rw [freeCount, same, freeCount, Finset.card_erase_add_one mem]

/-- `AllocPage` takes one free page unless there is none. -/
theorem freeCount_allocPage (s : Pmm) :
    (NoPage s ∧ PMM.allocPage s = (0, s)) ∨
      freeCount (PMM.allocPage s).2 + 1 = freeCount s := by
  rcases allocPage_cases s with ⟨i, -, ht⟩ | ⟨h0, hn⟩
  · exact .inr (freeCount_takes ht)
  · exact .inl ⟨hn, h0⟩

theorem freeCount_allocPage_le (s : Pmm) : freeCount (PMM.allocPage s).2 ≤ freeCount s := by
  rcases freeCount_allocPage s with ⟨-, h⟩ | h
  · rw [h]
  · omega

/-- `FreePage` gives back one page at most. -/
theorem freeCount_freePage_le (s : Pmm) (a : u64) : freeCount (freePage s a) ≤ freeCount s + 1 := by
  have sub : (Finset.range MAX_PAGES).filter (fun q => bitmapTest (freePage s a).bitmap q = false) ⊆
      insert (a.toNat / PAGE_SIZE)
        ((Finset.range MAX_PAGES).filter fun q => bitmapTest s.bitmap q = false) := by
    intro q hq
    simp only [Finset.mem_filter, Finset.mem_range, freePage_bitmap, Finset.mem_insert] at *
    by_cases h : q = a.toNat / PAGE_SIZE
    · exact .inl h
    · simp only [h, false_and, decide_false, Bool.not_false, Bool.true_and] at hq
      exact .inr hq
  exact (Finset.card_le_card sub).trans (Finset.card_insert_le _ _)

/-- Giving back the page just taken restores the number. -/
theorem freeCount_freePage_takes {s t : Pmm} {i : Nat} (h : Takes s t i 1) :
    freeCount (freePage t (pageAddr i)) = freeCount s := by
  have hi := h.within
  have page : (pageAddr i).toNat / PAGE_SIZE = i := by
    rw [pageAddr_toNat (by omega), Nat.mul_div_cancel _ (by decide)]
  refine congrArg Finset.card (Finset.filter_congr fun q hq => ?_)
  rw [Finset.mem_range] at hq
  have same : bitmapTest (freePage t (pageAddr i)).bitmap q = bitmapTest s.bitmap q := by
    rw [freePage_bitmap, page, h.bits]
    by_cases hqi : q = i
    · subst hqi
      rw [h.wasFree q le_rfl (by omega)]
      simp [hq]
    · rw [decide_eq_false fun h => hqi h.1, decide_eq_false fun h => hqi (by omega)]
      rfl
  rw [same]

end MicroNT.PMM
