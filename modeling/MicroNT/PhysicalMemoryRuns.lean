import Mathlib.Data.List.Nodup
import MicroNT.Base.Machine
import MicroNT.PhysicalMemory

/-! # Runs of the page allocator

A run is any sequence of `AllocPage`, `AllocPages` and `FreePage` calls after
`Init`. The ghost `live` records the pages of every block handed out and not yet
freed; `FreePage` is only called on a live page. The invariant `Owned` says what
the bitmap knows about a page, for any property `Ok` of the pages that `Init`
leaves free. -/

namespace MicroNT.PMM

open MicroNT.Base.Machine

/-- The allocator and the page addresses of each live block. -/
structure System where
  pmm : Pmm
  live : List (List u64)

inductive Op
  | allocPage
  | allocPages (count : Nat)
  | freePage (physAddr : u64)
  deriving DecidableEq

/-- The pages of a block of `count` pages at `a`. -/
def block (a : u64) (count : Nat) : List u64 := (List.range count).map fun k => a + pageAddr k

/-- A returned block becomes live; 0 is the failure value and adds none. -/
def System.granted (s : System) (count : Nat) (r : u64 × Pmm) : System :=
  { pmm := r.2, live := if r.1 = 0 then s.live else block r.1 count :: s.live }

def step (s : System) : Op → Option System
  | .allocPage => some (s.granted 1 (allocPage s.pmm))
  | .allocPages count => some (s.granted count (allocPages s.pmm count))
  | .freePage a =>
    if pageOf a ∈ s.live.flatten then
      some { pmm := freePage s.pmm a, live := s.live.map fun b => b.filter (· ≠ pageOf a) }
    else none

def boot (bmStart : u64) (bi : Option BootInfo) : System :=
  { pmm := init bmStart bi, live := [] }

/-! ## The invariant -/

/-- Free pages are `Ok`; live pages are `Ok`, distinct and marked in use. -/
structure Owned (Ok : Nat → Prop) (s : System) : Prop where
  free : ∀ q, q < MAX_PAGES → bitmapTest s.pmm.bitmap q = false → Ok q
  used : ∀ a ∈ s.live.flatten,
    ∃ q, q < MAX_PAGES ∧ a = pageAddr q ∧ Ok q ∧ bitmapTest s.pmm.bitmap q = true
  nodup : s.live.flatten.Nodup

theorem pageAddr_add (i k : Nat) : pageAddr i + pageAddr k = pageAddr (i + k) := by
  rw [pageAddr, pageAddr, pageAddr, ← BitVec.ofNat_add, Nat.add_mul]

theorem mem_block {i count : Nat} {a : u64} :
    a ∈ block (pageAddr i) count ↔ ∃ k, k < count ∧ a = pageAddr (i + k) := by
  simp only [block, List.mem_map, List.mem_range, pageAddr_add]
  exact ⟨fun ⟨k, hk, h⟩ => ⟨k, hk, h.symm⟩, fun ⟨k, hk, h⟩ => ⟨k, hk, h.symm⟩⟩

theorem block_nodup {i count : Nat} (h : i + count ≤ MAX_PAGES) :
    (block (pageAddr i) count).Nodup := by
  refine List.Nodup.map_on (fun x hx y hy hxy => ?_) List.nodup_range
  rw [List.mem_range] at hx hy
  rw [pageAddr_add, pageAddr_add] at hxy
  have := pageAddr_inj (by omega) (by omega) hxy
  omega

/-- Marking a free run in use and making it a block keeps the invariant. -/
theorem Owned.takes {Ok : Nat → Prop} {s : System} {p : Pmm} {i count : Nat}
    (h : Owned Ok s) (ht : Takes s.pmm p i count) :
    Owned Ok { pmm := p, live := block (pageAddr i) count :: s.live } where
  free q hq hb := by
    have hb : bitmapTest p.bitmap q = false := hb
    rw [ht.bits] at hb
    exact h.free q hq (Bool.or_eq_false_iff.mp hb).2
  used a ha := by
    rw [List.flatten_cons, List.mem_append] at ha
    rcases ha with ha | ha
    · obtain ⟨k, hk, rfl⟩ := mem_block.mp ha
      have hlt : i + k < MAX_PAGES := by have := ht.within; omega
      refine ⟨i + k, hlt, rfl, h.free _ hlt (ht.wasFree _ (by omega) (by omega)), ?_⟩
      simp [ht.bits, hk]
    · obtain ⟨q, hq, rfl, hok, hb⟩ := h.used a ha
      exact ⟨q, hq, rfl, hok, by simp [ht.bits, hb]⟩
  nodup := by
    rw [List.flatten_cons, List.nodup_append]
    refine ⟨block_nodup ht.within, h.nodup, fun a ha b hb hab => ?_⟩
    -- the run was free, a live page is not
    obtain ⟨k, hk, rfl⟩ := mem_block.mp ha
    obtain ⟨q, hq, rfl, -, hbit⟩ := h.used b hb
    have hlt : i + k < MAX_PAGES := by have := ht.within; omega
    obtain rfl := pageAddr_inj hlt hq hab
    rw [ht.wasFree _ (by omega) (by omega)] at hbit
    exact Bool.false_ne_true hbit

/-- Pages that others take do not matter to the live ones. -/
theorem Owned.grow {Ok : Nat → Prop} {s : System} {p : Pmm} (h : Owned Ok s)
    (bits : ∀ q, bitmapTest s.pmm.bitmap q = true → bitmapTest p.bitmap q = true) :
    Owned Ok { s with pmm := p } where
  free q hq hb := by
    refine h.free q hq ?_
    cases hs : bitmapTest s.pmm.bitmap q with
    | false => rfl
    | true => rw [bits q hs] at hb; cases hb
  used a ha := by
    obtain ⟨q, hq, rfl, hok, hb⟩ := h.used a ha
    exact ⟨q, hq, rfl, hok, bits q hb⟩
  nodup := h.nodup

theorem Owned.granted {Ok : Nat → Prop} {s : System} {count : Nat} {r : u64 × Pmm}
    (h : Owned Ok s)
    (hr : (∃ i, r.1 = pageAddr i ∧ Takes s.pmm r.2 i count) ∨ r = (0, s.pmm)) :
    Owned Ok (s.granted count r) := by
  rcases hr with ⟨i, hi, ht⟩ | rfl
  · rw [System.granted]
    split
    case isTrue => exact h.grow fun q hq => by simp [ht.bits, hq]
    case isFalse => rw [hi]; exact h.takes ht
  · exact h

theorem Owned.freed {Ok : Nat → Prop} {s : System} {a : u64} (h : Owned Ok s)
    (ha : pageOf a ∈ s.live.flatten) :
    Owned Ok { pmm := freePage s.pmm a, live := s.live.map fun b => b.filter (· ≠ pageOf a) } := by
  obtain ⟨p, hp, hpa, hok, -⟩ := h.used _ ha
  have hpage := pageOf_eq hp hpa
  have hflat : (s.live.map fun b => b.filter (· ≠ pageOf a)).flatten =
      s.live.flatten.filter (· ≠ pageOf a) := (List.filter_flatten).symm
  refine ⟨fun q hq hb => ?_, fun b hb => ?_, ?_⟩
  · have hb : bitmapTest (freePage s.pmm a).bitmap q = false := hb
    rw [freePage_bitmap, hpage] at hb
    by_cases hqp : q = p
    · exact hqp ▸ hok
    · exact h.free q hq (by simpa [hqp] using hb)
  · have hb : b ∈ (s.live.map fun b => b.filter (· ≠ pageOf a)).flatten := hb
    rw [hflat, List.mem_filter] at hb
    obtain ⟨q, hq, rfl, hokq, hbit⟩ := h.used b hb.1
    have hqp : q ≠ p := by
      rintro rfl
      simp [hpa] at hb
    exact ⟨q, hq, rfl, hokq, by simp [freePage_bitmap, hpage, hqp, hbit]⟩
  · have := h.nodup.filter (· ≠ pageOf a)
    rwa [← hflat] at this

theorem Owned.step {Ok : Nat → Prop} {s t : System} {op : Op} (h : Owned Ok s)
    (hs : step s op = some t) : Owned Ok t := by
  cases op with
  | allocPage =>
    obtain rfl := Option.some.inj hs
    exact h.granted ((allocPage_cases s.pmm).imp_right And.left)
  | allocPages count =>
    obtain rfl := Option.some.inj hs
    rcases allocPages_cases s.pmm count with ⟨i, hi, -, ht⟩ | hr
    · exact h.granted (.inl ⟨i, hi, ht⟩)
    · rw [hr]; exact h
  | freePage a =>
    simp only [PMM.step] at hs
    split at hs
    case isTrue ha => obtain rfl := Option.some.inj hs; exact h.freed ha
    case isFalse => cases hs

theorem owned_boot {Ok : Nat → Prop} {bmStart : u64} {bi : Option BootInfo}
    (h : ∀ q, q < MAX_PAGES → bitmapTest (init bmStart bi).bitmap q = false → Ok q) :
    Owned Ok (boot bmStart bi) where
  free := h
  used a ha := by simp [boot] at ha
  nodup := by simp [boot]

/-- Page 0 is never free after `Init`, so 0 can stand for failure. -/
theorem init_page_zero (bmStart : u64) (bi : Option BootInfo) :
    bitmapTest (init bmStart bi).bitmap 0 = true := by
  have h := (init_free_iff bmStart bi 0).not.mpr (fun h => absurd h.2.2 (by decide))
  simpa using h

/-! ## Exclusive allocation -/

/-- The bytes of the page at `a` lie inside the entry. -/
def BootMemoryEntry.Holds (e : BootMemoryEntry) (a : u64) : Prop :=
  e.base.toNat ≤ a.toNat ∧ a.toNat + PAGE_SIZE ≤ e.base.toNat + e.length.toNat

/-- What the clients of the allocator rely on. -/
structure Exclusive (bmStart : u64) (map : List BootMemoryEntry) (s : System) : Prop where
  disjoint : s.live.Pairwise List.Disjoint
  nodup : ∀ b ∈ s.live, b.Nodup
  aligned : ∀ b ∈ s.live, ∀ a ∈ b, a.toNat % PAGE_SIZE = 0
  available : ∀ b ∈ s.live, ∀ a ∈ b, ∃ e ∈ map, e.type = .available ∧ e.Holds a
  aboveLow : ∀ b ∈ s.live, ∀ a ∈ b, 2 * 1024 * 1024 ≤ a.toNat
  offBitmap : ∀ b ∈ s.live, ∀ a ∈ b,
    a.toNat + PAGE_SIZE ≤ bmStart.toNat ∨ bmStart.toNat + BITMAP_BYTES ≤ a.toNat

/-- A call that returns 0 has taken nothing: no block was handed out as 0. -/
def ZeroTakesNothing (s : System) : Op → Prop
  | .allocPage => (allocPage s.pmm).1 = 0 → (allocPage s.pmm).2 = s.pmm
  | .allocPages count => (allocPages s.pmm count).1 = 0 → (allocPages s.pmm count).2 = s.pmm
  | .freePage _ => True

/-- Two entries do not overlap. -/
def BootMemoryEntry.Apart (e f : BootMemoryEntry) : Prop :=
  e.base.toNat + e.length.toNat ≤ f.base.toNat ∨ f.base.toNat + f.length.toNat ≤ e.base.toNat

/-- The page is above 2 MB, off the bitmap and inside an available entry. -/
def Grantable (bmStart : u64) (map : List BootMemoryEntry) (q : Nat) : Prop :=
  LOW_PAGES ≤ q ∧
  (q * PAGE_SIZE + PAGE_SIZE ≤ bmStart.toNat ∨ bmStart.toNat + BITMAP_BYTES ≤ q * PAGE_SIZE) ∧
  ∃ e ∈ map, e.type = .available ∧ e.base.toNat ≤ q * PAGE_SIZE ∧
    q * PAGE_SIZE + PAGE_SIZE ≤ e.base.toNat + e.length.toNat

/-- An offered page lies inside the entry if rounding the base up does not wrap.
The end may wrap: the loop then stops short. -/
theorem BootMemoryEntry.Offers.inside {e : BootMemoryEntry} {q : Nat} (h : e.Offers q)
    (hb : e.base.toNat + 0xFFF < 2 ^ 64) :
    e.base.toNat ≤ q * PAGE_SIZE ∧ q * PAGE_SIZE + PAGE_SIZE ≤ e.base.toNat + e.length.toNat := by
  obtain ⟨-, hf, hs, -⟩ := h
  rw [BootMemoryEntry.first, alignUp_toNat hb] at hf
  rw [BootMemoryEntry.stop, alignDown_toNat, BitVec.toNat_add] at hs
  have hmod := Nat.mod_le (e.base.toNat + e.length.toNat) (2 ^ 64)
  simp only [PAGE_SIZE] at *
  omega

theorem off_bitmap {bmStart : u64} {q : Nat}
    (hbm : bmStart.toNat + BITMAP_BYTES + 0xFFF < 2 ^ 64) (h : ¬ OnBitmap bmStart q) :
    q * PAGE_SIZE + PAGE_SIZE ≤ bmStart.toNat ∨ bmStart.toNat + BITMAP_BYTES ≤ q * PAGE_SIZE := by
  have hb : (BitVec.ofNat 64 BITMAP_BYTES).toNat = BITMAP_BYTES := by decide
  have hend : (bmStart + BitVec.ofNat 64 BITMAP_BYTES).toNat = bmStart.toNat + BITMAP_BYTES := by
    rw [BitVec.toNat_add, hb, Nat.mod_eq_of_lt (by omega)]
  rw [OnBitmap, alignDown_toNat, alignUp_toNat (by omega), hend] at h
  simp only [PAGE_SIZE] at *
  omega

theorem init_grantable {bmStart : u64} {bi : Option BootInfo}
    (hbm : bmStart.toNat + BITMAP_BYTES + 0xFFF < 2 ^ 64)
    (hmap : ∀ e ∈ bootEntries bi, e.type = .available → e.base.toNat + 0xFFF < 2 ^ 64)
    {q : Nat} (h : bitmapTest (init bmStart bi).bitmap q = false) :
    Grantable bmStart (bootEntries bi) q := by
  obtain ⟨⟨e, he, ho⟩, hoff, hlow⟩ := (init_free_iff bmStart bi q).mp h
  exact ⟨hlow, off_bitmap hbm hoff, e, he, ho.1, ho.inside (hmap e he ho.1)⟩

theorem Owned.exclusive {bmStart : u64} {map : List BootMemoryEntry} {s : System}
    (h : Owned (Grantable bmStart map) s) : Exclusive bmStart map s := by
  have page : ∀ b ∈ s.live, ∀ a ∈ b, ∃ q, a.toNat = q * PAGE_SIZE ∧ Grantable bmStart map q := by
    intro b hb a ha
    obtain ⟨q, hq, rfl, hok, -⟩ := h.used a (List.mem_flatten_of_mem hb ha)
    exact ⟨q, pageAddr_toNat hq, hok⟩
  have hn := List.nodup_flatten.mp h.nodup
  refine ⟨hn.2, hn.1, ?_, ?_, ?_, ?_⟩ <;> intro b hb a ha <;>
    obtain ⟨q, hq, hlow, hoff, e, he, ht, hin⟩ := page b hb a ha
  case refine_1 => rw [hq]; exact Nat.mul_mod_left _ _
  case refine_2 => exact ⟨e, he, ht, by rw [BootMemoryEntry.Holds, hq]; exact hin⟩
  case refine_3 => rw [hq]; simp only [LOW_PAGES, PAGE_SIZE] at *; omega
  case refine_4 => rw [hq]; exact hoff

theorem Owned.zeroTakesNothing {Ok : Nat → Prop} {s : System} (h : Owned Ok s) (h0 : ¬ Ok 0)
    (op : Op) : ZeroTakesNothing s op := by
  have nonzero : ∀ {p : Pmm} {i n : Nat}, 0 < n → Takes s.pmm p i n → pageAddr i ≠ 0 := by
    intro p i n hn ht hz
    have hlt : i < MAX_PAGES := by have := ht.within; omega
    obtain rfl : i = 0 := pageAddr_inj hlt (by decide) (by rw [hz]; rfl)
    exact h0 (h.free 0 hlt (ht.wasFree 0 le_rfl (by omega)))
  cases op with
  | allocPage =>
    intro hz
    rcases allocPage_cases s.pmm with ⟨i, hi, ht⟩ | hr
    · exact absurd (hi ▸ hz) (nonzero (by omega) ht)
    · rw [hr.1]
  | allocPages count =>
    intro hz
    rcases allocPages_cases s.pmm count with ⟨i, hi, hc, ht⟩ | hr
    · exact absurd (hi ▸ hz) (nonzero hc ht)
    · rw [hr]
  | freePage => trivial

/-- **Exclusive allocation.** If no available entry begins in the last page of
the address space, every run of calls keeps the live blocks disjoint, aligned,
inside available memory, above 2 MB and off the bitmap, and 0 is only ever the
failure value. The bitmap's address is the linker's and does not wrap. -/
theorem pmm_allocations_exclusive (bmStart : u64) (bi : Option BootInfo)
    (hbm : bmStart.toNat + BITMAP_BYTES + 0xFFF < 2 ^ 64)
    (hmap : ∀ e ∈ bootEntries bi, e.type = .available → e.base.toNat + 0xFFF < 2 ^ 64)
    (ops : List Op) :
    Always step (Exclusive bmStart (bootEntries bi)) (boot bmStart bi) ops ∧
      Along step ZeroTakesNothing (boot bmStart bi) ops := by
  have h0 : ¬ Grantable bmStart (bootEntries bi) 0 := fun h => absurd h.1 (by decide)
  have hboot : Owned (Grantable bmStart (bootEntries bi)) (boot bmStart bi) :=
    owned_boot fun q _ hq => init_grantable hbm hmap hq
  have hrun : Always step (Owned (Grantable bmStart (bootEntries bi))) (boot bmStart bi) ops :=
    always_invariant (G := fun _ _ => True) (fun _ _ _ hs _ ht => hs.step ht) hboot
      (along_of_forall (fun _ _ => trivial) _ _)
  exact ⟨hrun.mono fun _ h => h.exclusive, hrun.along fun _ op h => h.zeroTakesNothing h0 op⟩

/-- 127 MB of memory from 1 MB on, the bitmap at the start of it. -/
def smallBoot : BootInfo :=
  { magic := BOOTINFO_MAGIC, memoryMap := [⟨0x100000#64, 0x7F00000#64, .available⟩] }

theorem pmm_allocations_exclusive_small :
    Always step (Exclusive 0x120000#64 (bootEntries (some smallBoot)))
        (boot 0x120000#64 (some smallBoot)) [.allocPages 1024, .allocPage, .freePage 0x200000#64] ∧
      Along step ZeroTakesNothing
        (boot 0x120000#64 (some smallBoot)) [.allocPages 1024, .allocPage, .freePage 0x200000#64] :=
  pmm_allocations_exclusive 0x120000#64 (some smallBoot) (by decide) (by decide) _

/-- An available entry of 256 bytes that begins in the last page. -/
def lastPageBoot : BootInfo :=
  { magic := BOOTINFO_MAGIC, memoryMap := [⟨0xFFFFFFFFFFFFF800#64, 0x100#64, .available⟩] }

/-- `AlignUp` takes the base of that entry to 0, so `Init` frees all of the first
8 GB and the first allocation is a page outside every entry. -/
theorem last_page_entry_not_exclusive :
    (bootEntries (some lastPageBoot)).Pairwise BootMemoryEntry.Apart ∧
      ¬ Always step (Exclusive 0x120000#64 (bootEntries (some lastPageBoot)))
        (boot 0x120000#64 (some lastPageBoot)) [.allocPage] := by
  refine ⟨List.pairwise_singleton _ _, fun h => ?_⟩
  have free : bitmapTest (init 0x120000#64 (some lastPageBoot)).bitmap LOW_PAGES = false :=
    (init_free_iff _ _ _).mpr ⟨⟨_, List.mem_singleton_self _, by decide⟩, by decide, le_rfl⟩
  have hlive := h.2 _ rfl
  rcases allocPage_cases (init 0x120000#64 (some lastPageBoot)) with ⟨i, hi, ht⟩ | ⟨-, hall⟩
  · have hlt : i < MAX_PAGES := ht.within
    have hne : pageAddr i ≠ 0 := by
      intro hz
      obtain rfl : i = 0 := pageAddr_inj hlt (by decide) (by rw [hz]; rfl)
      have := init_page_zero 0x120000#64 (some lastPageBoot)
      rw [ht.wasFree 0 le_rfl (by omega)] at this
      cases this
    -- the page is below 8 GB, the only entry above
    have hmem : pageAddr i ∈ block (pageAddr i) 1 := mem_block.mpr ⟨0, by omega, rfl⟩
    obtain ⟨e, he, -, hbase, -⟩ := hlive.available (block (pageAddr i) 1)
      (by simp only [boot, System.granted, hi, if_neg hne]; exact List.mem_cons_self) _ hmem
    obtain rfl := List.mem_singleton.mp he
    rw [pageAddr_toNat hlt] at hbase
    have : (0xFFFFFFFFFFFFF800#64).toNat ≤ i * PAGE_SIZE := hbase
    simp only [MAX_PAGES, PAGE_SIZE] at *
    simp at this
    omega
  · have hint := init_searchHint 0x120000#64 (some lastPageBoot)
    rw [hall LOW_PAGES (by omega) (by decide)] at free
    cases free

end MicroNT.PMM
