import Mathlib.Data.Finset.Max
import Mathlib.Order.Interval.Finset.Nat
import MicroNT.PhysicalMemoryPool
import MicroNT.PhysicalMemoryRuns

/-! # The allocator's counters

`Init` counts every page that an available entry offers, and so a page that two entries
offer counts twice. From then on the number of free pages moves with the bitmap, and the
search hint stays at or below the lowest free page. -/

namespace MicroNT.PMM

open MicroNT.Base.Machine

/-! ## What is promised -/

/-- The free pages. -/
def freeSet (s : Pmm) : Finset Nat :=
  (Finset.range MAX_PAGES).filter fun q => bitmapTest s.bitmap q = false

/-- The counters agree with the bitmap, and `AllocPage` takes the lowest free page. -/
structure Accounted (s : System) : Prop where
  counted : s.pmm.freePages = (freeSet s.pmm).card
  hint : ∀ q, q < MAX_PAGES → q < s.pmm.searchHint → bitmapTest s.pmm.bitmap q = true
  total : s.pmm.freePages ≤ s.pmm.totalPages
  lowest : ∀ i, IsLeast (freeSet s.pmm : Set Nat) i → (allocPage s.pmm).1 = pageAddr i
  none : (allocPage s.pmm).1 = 0 → freeSet s.pmm = ∅

/-- No page is offered by two entries. -/
def OfferedOnce (map : List BootMemoryEntry) : Prop :=
  map.Pairwise fun e f => ∀ q, ¬ (e.Offers q ∧ f.Offers q)

section

variable {s t : Pmm} {e f : BootMemoryEntry}

@[simp] theorem mem_freeSet {q : Nat} :
    q ∈ freeSet s ↔ q < MAX_PAGES ∧ bitmapTest s.bitmap q = false := by
  rw [freeSet, Finset.mem_filter, Finset.mem_range]

/-- **Disjoint entries** offer different pages, if rounding their bases up does not wrap. -/
theorem offeredOnce_of_apart {map : List BootMemoryEntry} (apart : map.Pairwise BootMemoryEntry.Apart)
    (below : ∀ e ∈ map, e.type = .available → e.base.toNat + 0xFFF < 2 ^ 64) : OfferedOnce map := by
  refine apart.imp_of_mem fun {e f} he hf apart q both => ?_
  have h := both.1.inside (below e he both.1.1)
  have h' := both.2.inside (below f hf both.2.1)
  simp only [PAGE_SIZE] at h h'
  rcases apart with apart | apart <;> omega

/-! ## The entries of the boot map -/

/-- The pages that an entry offers. -/
def offered (e : BootMemoryEntry) : Finset Nat := (Finset.range MAX_PAGES).filter e.Offers

@[simp] theorem mem_offered {q : Nat} : q ∈ offered e ↔ e.Offers q := by
  rw [offered, Finset.mem_filter, Finset.mem_range, and_iff_right_iff_imp]
  exact fun h => h.2.2.2

theorem initPages_counts (free : Bool) (n p : Nat) (s : Pmm) :
    (initPages free n p s).freePages = s.freePages + (if free then min n (MAX_PAGES - p) else 0) ∧
      (initPages free n p s).totalPages = s.totalPages + min n (MAX_PAGES - p) := by
  induction n generalizing p s with
  | zero => simp [initPages]
  | succ n ih =>
    rw [initPages]
    split
    case isTrue outside => simp [show MAX_PAGES - p = 0 by omega]
    case isFalse inside =>
      have more : min (n + 1) (MAX_PAGES - p) = 1 + min n (MAX_PAGES - (p + 1)) := by
        have left : MAX_PAGES - p = MAX_PAGES - (p + 1) + 1 := by omega
        rw [left, Nat.add_min_add_right, Nat.add_comm]
      cases free with
      | true => simp [ih, more, Nat.add_assoc]
      | false => simp [ih, more, Nat.add_assoc]

/-- The pages that `Init` runs through for an available entry. -/
theorem offered_card (available : e.type = .available) (some : ¬ e.first ≥ e.stop) :
    (offered e).card = min ((e.stop.toNat - e.first.toNat) / PAGE_SIZE)
      (MAX_PAGES - e.first.toNat / PAGE_SIZE) := by
  have first := first_mod e
  have stop := stop_mod e
  have order : ¬ e.stop.toNat ≤ e.first.toNat := some
  have range : offered e = Finset.Ico (e.first.toNat / PAGE_SIZE)
      (min (e.stop.toNat / PAGE_SIZE) MAX_PAGES) := by
    ext q
    rw [mem_offered, Finset.mem_Ico, BootMemoryEntry.Offers]
    simp only [available, true_and, PAGE_SIZE] at *
    omega
  rw [range, Nat.card_Ico]
  simp only [PAGE_SIZE] at *
  omega

theorem offered_empty (h : ¬ e.type = .available ∨ e.first ≥ e.stop) : offered e = ∅ := by
  refine Finset.eq_empty_of_forall_notMem fun q hq => ?_
  obtain ⟨available, low, high, -⟩ := mem_offered.mp hq
  rcases h with h | h
  · exact h available
  · have order : e.stop.toNat ≤ e.first.toNat := h
    omega

/-- **An entry** adds the pages that it offers to the free count. -/
theorem initEntry_counts (s : Pmm) (e : BootMemoryEntry) :
    (initEntry s e).freePages = s.freePages + (offered e).card ∧
      s.totalPages + (offered e).card ≤ (initEntry s e).totalPages := by
  rw [initEntry]
  split
  case isTrue none => simp [offered_empty (.inr none)]
  case isFalse some =>
    obtain ⟨free, total⟩ := initPages_counts (e.type == .available)
      ((e.stop.toNat - e.first.toNat) / PAGE_SIZE) (e.first.toNat / PAGE_SIZE) s
    rw [free, total]
    by_cases available : e.type = .available
    · simp [available, offered_card available some]
    · simp [available, offered_empty (.inl available)]

theorem freeSet_initEntry (s : Pmm) (e : BootMemoryEntry) :
    freeSet (initEntry s e) = freeSet s ∪ offered e := by
  ext q
  simp only [mem_freeSet, Finset.mem_union, mem_offered, initEntry_bitmap, Bool.and_eq_false_iff,
    Bool.not_eq_false', decide_eq_true_eq]
  constructor
  · rintro ⟨hq, free | offers⟩
    · exact .inl ⟨hq, free⟩
    · exact .inr offers
  · rintro (⟨hq, free⟩ | offers)
    · exact ⟨hq, .inl free⟩
    · exact ⟨offers.2.2.2, .inr offers⟩

theorem mem_freeSet_entries (m : List BootMemoryEntry) {q : Nat} :
    q ∈ freeSet (m.foldl initEntry allReserved) ↔ ∃ e ∈ m, e.Offers q := by
  rw [mem_freeSet, foldl_initEntry_bitmap, allReserved_bitmap, Bool.true_and, Bool.not_eq_false',
    decide_eq_true_eq, and_iff_right_iff_imp]
  rintro ⟨e, -, offers⟩
  exact offers.2.2.2

/-- **The entries together** count a page once for every entry that offers it. -/
theorem entries_counted (m : List BootMemoryEntry) :
    (freeSet (m.foldl initEntry allReserved)).card ≤ (m.foldl initEntry allReserved).freePages ∧
      ((m.foldl initEntry allReserved).freePages = (freeSet (m.foldl initEntry allReserved)).card ↔
        OfferedOnce m) ∧
      (m.foldl initEntry allReserved).freePages ≤ (m.foldl initEntry allReserved).totalPages := by
  induction m using List.reverseRecOn with
  | nil =>
    have none : freeSet (List.foldl initEntry allReserved []) = ∅ :=
      Finset.eq_empty_of_forall_notMem fun q hq => by simpa using (mem_freeSet_entries []).mp hq
    rw [none]
    exact ⟨le_rfl, iff_of_true rfl List.Pairwise.nil, le_rfl⟩
  | append_singleton m e ih =>
    obtain ⟨atLeast, exact_, total⟩ := ih
    have again : freeSet (m.foldl initEntry allReserved) ∩ offered e = ∅ ↔
        ∀ a ∈ m, ∀ q, ¬ (a.Offers q ∧ e.Offers q) := by
      rw [← Finset.not_nonempty_iff_eq_empty, Finset.Nonempty, not_exists]
      simp only [Finset.mem_inter, mem_freeSet_entries, mem_offered]
      exact ⟨fun h a ha q both => h q ⟨⟨a, ha, both.1⟩, both.2⟩,
        fun h q both => by
          obtain ⟨⟨a, ha, first⟩, second⟩ := both
          exact h a ha q ⟨first, second⟩⟩
    rw [List.foldl_append, List.foldl_cons, List.foldl_nil, OfferedOnce, List.pairwise_append]
    obtain ⟨free, known⟩ := initEntry_counts (m.foldl initEntry allReserved) e
    have union := Finset.card_union_add_card_inter (freeSet (m.foldl initEntry allReserved)) (offered e)
    rw [← freeSet_initEntry] at union
    rw [free]
    refine ⟨by omega, ?_, by omega⟩
    rw [← Finset.card_eq_zero] at again
    simp only [List.pairwise_singleton, true_and, List.mem_singleton, forall_eq, ← again]
    rw [OfferedOnce] at exact_
    rw [← exact_]
    omega

/-! ## Pages that are taken and given back -/

theorem freeSet_takes {i n : Nat} (h : Takes s t i n) :
    freeSet t = freeSet s \ Finset.Ico i (i + n) := by
  ext q
  simp only [mem_freeSet, Finset.mem_sdiff, Finset.mem_Ico, h.bits, Bool.or_eq_false_iff,
    decide_eq_false_iff_not]
  exact ⟨fun h => ⟨⟨h.1, h.2.2⟩, h.2.1⟩, fun h => ⟨h.1.1, h.2, h.1.2⟩⟩

/-- **Taking `n` pages** leaves `n` fewer. -/
theorem card_takes {i n : Nat} (h : Takes s t i n) : (freeSet t).card + n = (freeSet s).card := by
  have sub : Finset.Ico i (i + n) ⊆ freeSet s := by
    intro q hq
    obtain ⟨low, high⟩ := Finset.mem_Ico.mp hq
    exact mem_freeSet.mpr ⟨lt_of_lt_of_le high h.within, h.wasFree q low high⟩
  have card := Finset.card_sdiff_add_card_eq_card sub
  rwa [← freeSet_takes h, Nat.card_Ico, Nat.add_sub_cancel_left] at card

/-- `s_free_pages` and the free pages fall alike, and so their difference stays. -/
structure Even (s t : Pmm) : Prop where
  diff : t.freePages + (freeSet s).card = s.freePages + (freeSet t).card
  total : t.totalPages = s.totalPages
  fewer : t.freePages ≤ s.freePages
  least : (freeSet t).card ≤ t.freePages

theorem Even.refl (h : (freeSet s).card ≤ s.freePages) : Even s s := ⟨rfl, rfl, le_rfl, h⟩

theorem Even.trans {u : Pmm} (h : Even s t) (h' : Even t u) : Even s u where
  diff := by
    have first := h.diff
    have second := h'.diff
    omega
  total := h'.total.trans h.total
  fewer := h'.fewer.trans h.fewer
  least := h'.least

/-- The guarded decrement is never at zero. -/
theorem Even.reserve (h : (freeSet s).card ≤ s.freePages) {p : Nat} (hp : p < MAX_PAGES) :
    Even s (reserve s p) := by
  rw [PMM.reserve]
  split
  case isTrue => exact .refl h
  case isFalse free =>
    have taken : Takes s { s with bitmap := bitmapSet s.bitmap p, freePages := s.freePages - 1 } p 1 := by
      refine ⟨hp, fun k h1 h2 => ?_, fun q => ?_⟩
      · obtain rfl : k = p := by omega
        simpa using free
      · rw [bitmapTest_set]
        exact congrArg (· || _) (decide_eq_decide.mpr ⟨fun e => by omega, fun e => by omega⟩)
    have card := card_takes taken
    refine ⟨?_, rfl, Nat.sub_le _ _, ?_⟩
    · show s.freePages - 1 + _ = _
      omega
    · show _ ≤ s.freePages - 1
      omega

theorem Even.reserveBitmap (n p : Nat) (h : (freeSet s).card ≤ s.freePages) :
    Even s (reserveBitmap n p s) := by
  induction n generalizing p s with
  | zero => exact .refl h
  | succ n ih =>
    rw [PMM.reserveBitmap]
    split
    case isTrue inside =>
      have first := Even.reserve h inside
      exact first.trans (ih (p + 1) first.least)
    case isFalse => exact ih (p + 1) h

theorem Even.reserveLow (n p : Nat) (low : p + n ≤ MAX_PAGES) (h : (freeSet s).card ≤ s.freePages) :
    Even s (reserveLow n p s) := by
  induction n generalizing p s with
  | zero => exact .refl h
  | succ n ih =>
    rw [PMM.reserveLow]
    have first := Even.reserve h (show p < MAX_PAGES by omega)
    exact first.trans (ih (p + 1) (by omega) first.least)

end

/-! ## After `Init` -/

/-- `Init` counts every free page, and each once exactly if no page is offered twice. -/
theorem init_counts (bmStart : u64) (bi : Option BootInfo) :
    (freeSet (init bmStart bi)).card ≤ (init bmStart bi).freePages ∧
      ((init bmStart bi).freePages = (freeSet (init bmStart bi)).card ↔
        OfferedOnce (bootEntries bi)) ∧
      (init bmStart bi).freePages ≤ (init bmStart bi).totalPages := by
  have reserved : (freeSet allReserved).card ≤ allReserved.freePages ∧
      (allReserved.freePages = (freeSet allReserved).card ↔ OfferedOnce []) ∧
      allReserved.freePages ≤ allReserved.totalPages := entries_counted []
  rcases bi with _ | bi
  · exact reserved
  · rw [init, bootEntries]
    split
    case isTrue => exact reserved
    case isFalse =>
      obtain ⟨atLeast, exact_, total⟩ := entries_counted bi.memoryMap
      simp only
      generalize bi.memoryMap.foldl initEntry allReserved = s at *
      have bitmap := Even.reserveBitmap
        (((alignUp (bmStart + BitVec.ofNat 64 BITMAP_BYTES) pageSize64).toNat -
          (alignDown bmStart pageSize64).toNat) / PAGE_SIZE)
        ((alignDown bmStart pageSize64).toNat / PAGE_SIZE) atLeast
      have all := bitmap.trans (Even.reserveLow LOW_PAGES 0 (by decide) bitmap.least)
      have diff := all.diff
      refine ⟨all.least, ?_, all.fewer.trans (total.trans_eq all.total.symm)⟩
      rw [← exact_]
      omega

/-- **`Init` counts right** exactly if no page is offered twice. -/
theorem init_counted (bmStart : u64) (bi : Option BootInfo) :
    ((init bmStart bi).freePages = (freeSet (init bmStart bi)).card ↔ OfferedOnce (bootEntries bi)) ∧
      (init bmStart bi).freePages ≤ (init bmStart bi).totalPages := (init_counts bmStart bi).2

/-! ## Runs -/

/-- What every call keeps: the count of the free pages, which were free at the start. -/
structure Counting (start : Pmm) (s : System) : Prop where
  counted : s.pmm.freePages = (freeSet s.pmm).card
  pool : Pool (freeSet s.pmm : Set Nat) s.pmm
  owned : Owned (fun q => bitmapTest start.bitmap q = false) s
  total : s.pmm.totalPages = start.totalPages

section

variable {start : Pmm} {s t : System}

theorem takeRun_counts (n j : Nat) (s : Pmm) :
    (takeRun n j s).freePages = s.freePages - n ∧ (takeRun n j s).totalPages = s.totalPages := by
  induction n generalizing j s with
  | zero => exact ⟨rfl, rfl⟩
  | succ n ih =>
    obtain ⟨free, total⟩ := ih (j + 1) (take s j)
    rw [takeRun, free, total]
    exact ⟨by rw [take]; exact Nat.sub_sub _ _ _ |>.trans (congrArg _ (Nat.add_comm 1 n)), rfl⟩

/-- The free pages that a pool holds are its set. -/
theorem Pool.freeSet_eq {F : Set Nat} {p : Pmm} (h : Pool F p) : (freeSet p : Set Nat) = F := by
  ext q
  rw [Finset.mem_coe, mem_freeSet]
  exact ⟨fun hq => (h.free q hq.1).mp hq.2,
    fun hq => ⟨h.within q hq, (h.free q (h.within q hq)).mpr hq⟩⟩

theorem Pool.again {F : Set Nat} {p : Pmm} (h : Pool F p) : Pool (freeSet p : Set Nat) p := by
  rw [h.freeSet_eq]
  exact h

/-- **`AllocPage`** takes the lowest free page, if there is one. -/
theorem Pool.allocPage_freeSet {p : Pmm} (h : Pool (freeSet p : Set Nat) p) :
    (freeSet p = ∅ ∧ PMM.allocPage p = (0, p)) ∨
      ∃ i t, IsLeast (freeSet p : Set Nat) i ∧ PMM.allocPage p = (pageAddr i, t) ∧ Takes p t i 1 ∧
        Pool (freeSet t : Set Nat) t := by
  rcases Finset.eq_empty_or_nonempty (freeSet p) with none | some
  · rw [none, Finset.coe_empty] at h
    exact .inl ⟨none, h.allocPage_empty⟩
  · have least : IsLeast (freeSet p : Set Nat) ((freeSet p).min' some) :=
      (freeSet p).isLeast_min' some
    obtain ⟨t, eq, taken, pool⟩ := h.allocPage least
    exact .inr ⟨_, t, least, eq, taken, pool.again⟩

theorem allocPage_counters (p : Pmm) {i : Nat} {t : Pmm} (h : PMM.allocPage p = (pageAddr i, t))
    (taken : Takes p t i 1) : t.freePages = p.freePages - 1 ∧ t.totalPages = p.totalPages := by
  rw [PMM.allocPage] at h
  split at h
  case h_1 j hj =>
    obtain ⟨-, rfl⟩ := Prod.mk.inj h
    exact ⟨rfl, rfl⟩
  case h_2 =>
    obtain ⟨-, rfl⟩ := Prod.mk.inj h
    -- the page it took cannot have been free
    have free := taken.wasFree i le_rfl (by omega)
    rw [taken.bits] at free
    simp at free

/-- The pool of the free pages, from the hint alone. -/
theorem pool_freeSet {p : Pmm} (hint : ∀ q ∈ freeSet p, p.searchHint ≤ q) :
    Pool (freeSet p : Set Nat) p where
  free q hq := by rw [Finset.mem_coe, mem_freeSet, and_iff_right hq]
  hint q hq := hint q (Finset.mem_coe.mp hq)
  within q hq := (mem_freeSet.mp (Finset.mem_coe.mp hq)).1

theorem Counting.allocPage (h : Counting start s) :
    Counting start (s.granted 1 (PMM.allocPage s.pmm)) := by
  have owned := h.owned.granted ((allocPage_cases s.pmm).imp_right And.left)
  rcases h.pool.allocPage_freeSet with ⟨-, none⟩ | ⟨i, t, -, eq, taken, pool⟩
  · rw [none] at owned ⊢
    exact ⟨h.counted, h.pool, owned, h.total⟩
  · obtain ⟨free, total⟩ := allocPage_counters s.pmm eq taken
    rw [eq] at owned ⊢
    have card := card_takes taken
    have counted := h.counted
    refine ⟨?_, pool, owned, total.trans h.total⟩
    show t.freePages = (freeSet t).card
    omega

/-- A run of pages does not move the hint, and no page becomes free. -/
theorem Pool.takeRun {p : Pmm} {i n : Nat} (h : Pool (freeSet p : Set Nat) p)
    (taken : Takes p (takeRun n i p) i n) :
    Pool (freeSet (takeRun n i p) : Set Nat) (takeRun n i p) := by
  refine pool_freeSet fun q free => ?_
  rw [freeSet_takes taken, Finset.mem_sdiff] at free
  rw [takeRun_searchHint]
  exact h.hint q free.1

theorem Counting.allocPages (h : Counting start s) (count : Nat) :
    Counting start (s.granted count (PMM.allocPages s.pmm count)) := by
  rcases allocPages_run s.pmm count with none | ⟨i, eq, -, taken⟩
  · rw [none]
    exact ⟨h.counted, h.pool, h.owned, h.total⟩
  · have owned := h.owned.granted (r := (pageAddr i, takeRun count i s.pmm)) (.inl ⟨i, rfl, taken⟩)
    rw [eq]
    obtain ⟨free, total⟩ := takeRun_counts count i s.pmm
    have card := card_takes taken
    have counted := h.counted
    refine ⟨?_, h.pool.takeRun taken, owned, total.trans h.total⟩
    show (takeRun count i s.pmm).freePages = (freeSet (takeRun count i s.pmm)).card
    omega

/-- What `FreePage` does with a live page. -/
structure GivesBack (p t : Pmm) (i : Nat) : Prop where
  fresh : i ∉ freeSet p
  more : freeSet t = insert i (freeSet p)
  free : t.freePages = p.freePages + 1
  total : t.totalPages = p.totalPages
  pool : Pool (freeSet p : Set Nat) p → Pool (freeSet t : Set Nat) t

theorem Owned.freePage {Ok : Nat → Prop} (h : Owned Ok s) {a : u64}
    (live : pageOf a ∈ s.live.flatten) : ∃ i, GivesBack s.pmm (PMM.freePage s.pmm a) i := by
  obtain ⟨i, inside, page, -, used⟩ := h.used _ live
  have page := pageOf_eq inside page
  have fresh : i ∉ freeSet s.pmm := by
    rw [mem_freeSet, used]
    rintro ⟨-, h⟩
    cases h
  have more : freeSet (PMM.freePage s.pmm a) = insert i (freeSet s.pmm) := by
    ext q
    rw [Finset.mem_insert, mem_freeSet, mem_freeSet, freePage_bitmap, page]
    by_cases hq : q = i
    · simp [hq, inside]
    · simp [hq]
  have counters : (PMM.freePage s.pmm a).freePages = s.pmm.freePages + 1 ∧
      (PMM.freePage s.pmm a).totalPages = s.pmm.totalPages := by
    have outside : ¬ i ≥ MAX_PAGES := Nat.not_le.mpr inside
    simp [PMM.freePage, page, outside, used]
  refine ⟨i, fresh, more, counters.1, counters.2, fun pool => ?_⟩
  have same : PMM.freePage s.pmm a = PMM.freePage s.pmm (pageAddr i) := by
    rw [PMM.freePage, PMM.freePage, page, pageAddr_toNat inside, Nat.mul_div_cancel _ (by decide)]
  rw [same]
  exact (pool.freePage inside fresh).again

theorem Counting.freePage (h : Counting start s) {a : u64} (live : pageOf a ∈ s.live.flatten) :
    Counting start
      { pmm := PMM.freePage s.pmm a, live := s.live.map fun b => b.filter (· ≠ pageOf a) } := by
  obtain ⟨i, back⟩ := h.owned.freePage live
  refine ⟨?_, back.pool h.pool, h.owned.freed live, back.total.trans h.total⟩
  show (PMM.freePage s.pmm a).freePages = (freeSet (PMM.freePage s.pmm a)).card
  rw [back.free, back.more, Finset.card_insert_of_notMem back.fresh, h.counted]

/-- **One call** keeps the counters. -/
theorem Counting.step (h : Counting start s) {op : Op} (hs : PMM.step s op = some t) :
    Counting start t := by
  cases op with
  | allocPage =>
    obtain rfl := Option.some.inj hs
    exact h.allocPage
  | allocPages count =>
    obtain rfl := Option.some.inj hs
    exact h.allocPages count
  | freePage a =>
    simp only [PMM.step] at hs
    split at hs
    case isTrue live =>
      obtain rfl := Option.some.inj hs
      exact h.freePage live
    case isFalse => cases hs

/-- The counters give what is promised, if they began right. -/
theorem Counting.accounted (h : Counting start s) (zero : bitmapTest start.bitmap 0 = true)
    (known : (freeSet start).card ≤ start.totalPages) : Accounted s where
  counted := h.counted
  hint q inside low := h.pool.used inside fun free =>
    absurd (h.pool.hint q free) (Nat.not_le.mpr low)
  total := by
    rw [h.counted, h.total]
    refine le_trans (Finset.card_le_card fun q hq => ?_) known
    obtain ⟨inside, free⟩ := mem_freeSet.mp hq
    exact mem_freeSet.mpr ⟨inside, h.owned.free q inside free⟩
  lowest i least := by
    obtain ⟨t, eq, -⟩ := h.pool.allocPage least
    rw [eq]
  none failed := by
    rcases h.pool.allocPage_freeSet with ⟨none, -⟩ | ⟨i, t, least, eq, taken, -⟩
    · exact none
    · -- page 0 was not free at the start
      rw [eq] at failed
      obtain ⟨inside, free⟩ := mem_freeSet.mp least.1
      obtain rfl : i = 0 := pageAddr_inj inside (by decide) failed
      rw [h.owned.free 0 inside free] at zero
      cases zero

end

theorem counting_boot {bmStart : u64} {bi : Option BootInfo} (once : OfferedOnce (bootEntries bi)) :
    Counting (init bmStart bi) (boot bmStart bi) where
  counted := (init_counted bmStart bi).1.mpr once
  pool := (pool_init bmStart bi).again
  owned := owned_boot fun _ _ free => free
  total := rfl

theorem Accounted.offeredOnce {bmStart : u64} {bi : Option BootInfo}
    (h : Accounted (boot bmStart bi)) : OfferedOnce (bootEntries bi) :=
  (init_counted bmStart bi).1.mp h.counted

/-- **The allocator's counters.** After every run of calls the free count is the number of
clear bits, no page below the hint is free and `AllocPage` takes the lowest free page,
exactly if no two available entries of the boot map offer the same page. -/
theorem pmm_accounted_iff (bmStart : u64) (bi : Option BootInfo) (ops : List Op) :
    Always step Accounted (boot bmStart bi) ops ↔ OfferedOnce (bootEntries bi) := by
  obtain ⟨counted, known⟩ := init_counted bmStart bi
  constructor
  · exact fun h => h.here.offeredOnce
  · intro once
    have zero := init_page_zero bmStart bi
    rw [counted.mpr once] at known
    exact (always_invariant (fun _ _ _ h _ hs => h.step hs) (counting_boot once)
      (along_of_forall (fun _ _ => trivial) _ _)).mono fun _ h => h.accounted zero known

/-- Memory from 1 MB on, and 256 bytes in the last page of the address space. -/
def twiceBoot : BootInfo where
  magic := BOOTINFO_MAGIC
  memoryMap :=
    [⟨0x100000#64, 0x7F00000#64, .available⟩, ⟨0xFFFFFFFFFFFFF800#64, 0x100#64, .available⟩]

/-- The two entries are apart, but the base of the second is rounded up to 0, and `Init`
counts the pages of the first once more. -/
theorem twice_offered_not_accounted :
    (bootEntries (some twiceBoot)).Pairwise BootMemoryEntry.Apart ∧
      ¬ Always step Accounted (boot 0x120000#64 (some twiceBoot)) [] := by
  constructor
  · exact List.pairwise_pair.mpr (.inl (by decide))
  · intro accounted
    exact List.pairwise_pair.mp accounted.here.offeredOnce LOW_PAGES ⟨by decide, by decide⟩

end MicroNT.PMM
