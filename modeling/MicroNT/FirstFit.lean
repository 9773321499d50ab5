import MicroNT.PoolAccounting

/-! # The first run that fits (`AllocPages`)

The scan counts the clear bits behind it, and so the first run that is long enough ends
it. Page 0 stays in use and the free count covers the clear bits in every state that calls
of the allocator lead to, whatever `Init` has counted. -/

namespace MicroNT.PMM

open MicroNT.Base.Machine

/-- `count` consecutive free pages begin at page `i`. -/
def FreeRun (s : Pmm) (count i : Nat) : Prop :=
  i + count ≤ MAX_PAGES ∧ ∀ q, i ≤ q → q < i + count → bitmapTest s.bitmap q = false

/-- `AllocPages(count)` takes the first run of `count` free pages, and returns 0 and changes
nothing exactly if there is none. -/
structure FirstFit (s : Pmm) (count : Nat) : Prop where
  first : ∀ i, IsLeast {i | FreeRun s count i} i →
    (allocPages s count).1 = pageAddr i ∧ Takes s (allocPages s count).2 i count ∧
      (allocPages s count).2.freePages + count = s.freePages
  none : (allocPages s count).1 = 0 ↔ ∀ i, ¬ FreeRun s count i
  unchanged : (allocPages s count).1 = 0 → (allocPages s count).2 = s

section

variable {s t : Pmm} {count i : Nat}

theorem FreeRun.findRun (some : 0 < count) (least : IsLeast {i | FreeRun s count i} i) :
    findRun s.bitmap count MAX_PAGES 0 0 = .some i := by
  obtain ⟨within, clear⟩ := least.1
  refine findRun_first some le_rfl (fun k _ hk => absurd hk (Nat.not_lt_zero k)) (by omega)
    (Nat.zero_le i) clear fun j _ before => ?_
  by_contra none
  -- a run that begins earlier would be the least one
  have run : FreeRun s count j := by
    refine ⟨by omega, fun q low high => ?_⟩
    by_contra used
    exact none ⟨q, low, high, by simpa using used⟩
  exact absurd (least.2 run) (by omega)

theorem FreeRun.exists_least (run : FreeRun s count i) :
    ∃ j, IsLeast {i | FreeRun s count i} j := by
  classical
  exact ⟨Nat.find ⟨i, run⟩, Nat.find_spec ⟨i, run⟩, fun j hj => Nat.find_le hj⟩

/-- **The first run**, in a state whose page 0 is in use and whose free count covers the
free pages. -/
theorem firstFit (zero : bitmapTest s.bitmap 0 = true) (counted : (freeSet s).card ≤ s.freePages)
    (some : 0 < count) : FirstFit s count := by
  have first : ∀ i, IsLeast {i | FreeRun s count i} i →
      allocPages s count = (pageAddr i, takeRun count i s) := by
    intro i least
    rw [allocPages, if_neg (by omega), FreeRun.findRun some least]
  have taken : ∀ i, FreeRun s count i → Takes s (takeRun count i s) i count :=
    fun i run => ⟨run.1, run.2, fun q => takeRun_bitmap _ _ _ _⟩
  have none : (∀ i, ¬ FreeRun s count i) → allocPages s count = (0, s) := by
    intro none
    refine (allocPages_run s count).resolve_right ?_
    rintro ⟨i, -, -, taken⟩
    exact none i ⟨taken.within, taken.wasFree⟩
  have zero_iff : (allocPages s count).1 = 0 ↔ ∀ i, ¬ FreeRun s count i := by
    refine ⟨fun failed i run => ?_, fun h => by rw [none h]⟩
    obtain ⟨j, least⟩ := run.exists_least
    rw [first j least] at failed
    have inside := least.1.1
    obtain rfl : j = 0 := pageAddr_inj (by omega) (by decide) failed
    rw [least.1.2 0 le_rfl (by omega)] at zero
    cases zero
  refine ⟨fun i least => ?_, zero_iff, fun failed => by rw [none (zero_iff.mp failed)]⟩
  rw [first i least]
  refine ⟨rfl, taken i least.1, ?_⟩
  have card := card_takes (taken i least.1)
  have free := (takeRun_counts count i s).1
  dsimp only
  omega

end

/-! ## Every reachable state -/

/-- What every call keeps, whatever `Init` has counted: page 0 is neither free nor live. -/
structure Intact (s : System) : Prop where
  pool : Pool (freeSet s.pmm : Set Nat) s.pmm
  owned : Owned (· ≠ 0) s
  counted : (freeSet s.pmm).card ≤ s.pmm.freePages

section

variable {s t : System}

theorem Intact.zero (h : Intact s) : bitmapTest s.pmm.bitmap 0 = true := by
  cases free : bitmapTest s.pmm.bitmap 0 with
  | true => rfl
  | false => exact absurd rfl (h.owned.free 0 (by decide) free)

theorem intact_boot (bmStart : u64) (bi : Option BootInfo) : Intact (boot bmStart bi) where
  pool := (pool_init bmStart bi).again
  owned := owned_boot fun q _ free => by
    rintro rfl
    rw [init_page_zero] at free
    cases free
  counted := (init_counts bmStart bi).1

theorem Intact.allocPage (h : Intact s) : Intact (s.granted 1 (PMM.allocPage s.pmm)) := by
  have owned := h.owned.granted ((allocPage_cases s.pmm).imp_right And.left)
  have counted := h.counted
  rcases h.pool.allocPage_freeSet with ⟨-, none⟩ | ⟨i, t, -, eq, taken, pool⟩
  · rw [none] at owned ⊢
    exact ⟨h.pool, owned, counted⟩
  · obtain ⟨free, -⟩ := allocPage_counters s.pmm eq taken
    have card := card_takes taken
    rw [eq] at owned ⊢
    refine ⟨pool, owned, ?_⟩
    show (freeSet t).card ≤ t.freePages
    omega

theorem Intact.allocPages (h : Intact s) (count : Nat) :
    Intact (s.granted count (PMM.allocPages s.pmm count)) := by
  have counted := h.counted
  rcases allocPages_run s.pmm count with none | ⟨i, eq, -, taken⟩
  · rw [none]
    exact ⟨h.pool, h.owned, counted⟩
  · have owned := h.owned.granted (r := (pageAddr i, takeRun count i s.pmm)) (.inl ⟨i, rfl, taken⟩)
    obtain ⟨free, -⟩ := takeRun_counts count i s.pmm
    have card := card_takes taken
    rw [eq]
    refine ⟨h.pool.takeRun taken, owned, ?_⟩
    show (freeSet (takeRun count i s.pmm)).card ≤ (takeRun count i s.pmm).freePages
    omega

theorem Intact.freePage (h : Intact s) {a : u64} (live : pageOf a ∈ s.live.flatten) :
    Intact { pmm := PMM.freePage s.pmm a, live := s.live.map fun b => b.filter (· ≠ pageOf a) } := by
  obtain ⟨i, back⟩ := h.owned.freePage live
  refine ⟨back.pool h.pool, h.owned.freed live, ?_⟩
  show (freeSet (PMM.freePage s.pmm a)).card ≤ (PMM.freePage s.pmm a).freePages
  rw [back.free, back.more, Finset.card_insert_of_notMem back.fresh]
  exact Nat.add_le_add_right h.counted 1

/-- **One call** keeps it. -/
theorem Intact.step (h : Intact s) {op : Op} (hs : PMM.step s op = some t) : Intact t := by
  cases op with
  | allocPage =>
    obtain rfl := Option.some.inj hs
    exact h.allocPage
  | allocPages count =>
    obtain rfl := Option.some.inj hs
    exact h.allocPages count
  | freePage a =>
    simp only [PMM.step] at hs
    split at hs
    case isTrue live =>
      obtain rfl := Option.some.inj hs
      exact h.freePage live
    case isFalse => cases hs

end

theorem intact_run (bmStart : u64) (bi : Option BootInfo) (ops : List Op) :
    Always step Intact (boot bmStart bi) ops :=
  always_invariant (fun _ _ _ h _ hs => h.step hs) (intact_boot bmStart bi)
    (along_of_forall (fun _ _ => trivial) _ _)

/-- **`AllocPages` finds the first run that fits**, in every state that calls after `Init`
lead to and for every count of at least one page, more than there are included. -/
theorem allocPages_firstFit (bmStart : u64) (bi : Option BootInfo) (ops : List Op) :
    Always step (fun s => ∀ count, 0 < count → FirstFit s.pmm count) (boot bmStart bi) ops :=
  (intact_run bmStart bi ops).mono fun _ h _ some => firstFit h.zero h.counted some

end MicroNT.PMM
