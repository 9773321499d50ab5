import MicroNT.BootSucceeds
import MicroNT.SpacePages

/-! # When mapping succeeds

A private page can be mapped as long as the allocator has pages for its tables, and without
any page once its page table is there. -/

namespace MicroNT.Kernel

open MicroNT.PMM hiding step Op System
open MicroNT.VMM MicroNT.Boot MicroNT.Base.Radix

/-- The first page of memory is in use, and no table. -/
def NullPage (s : System) : Prop := Used s.vmm 0 ∧ ¬ Tables s.IsSpace s.vmm.mem 0

section

variable {R : Rows} {shown : Bool} {P : u64 → u64 → Prop} {F : u64 → Prop} {s t : System}
  {split : Index → u64 → Prop} {Ok : Nat → Prop} {is : Role → u64 → Prop} {p va f : u64}

theorem NullPage.moves (h : NullPage s) (m : Moves R P F s t) : NullPage t :=
  ⟨m.used h.1, m.data 0 h.1 h.2⟩

/-- The entries above a private page are absent or lead to tables. -/
theorem Inv.private_way (h : Inv R split Ok is s) (hp : p ∈ s.spaces) (hw : ¬ Shared va) :
    Tabular (s.vmm.mem p (pml4Idx va)) ∧
      ∀ pdpt, link (s.vmm.mem p (pml4Idx va)) = some pdpt →
        Tabular (s.vmm.mem pdpt (pdptIdx va)) ∧
          ∀ pd, link (s.vmm.mem pdpt (pdptIdx va)) = some pd → Tabular (s.vmm.mem pd (pdIdx va)) := by
  have root := h.spaces p hp
  have first := h.typed.entry _ p (pml4Idx va) root
  have next : ∀ b, link (s.vmm.mem p (pml4Idx va)) = some b → is (Role.child (.root p) (pml4Idx va)) b :=
    fun b hb => h.typed.linked (.root p) p _ b (show 1 < 4 by decide) root hb
  have lower : ∀ t, is (.own p 2) t → Tabular (s.vmm.mem t (pdIdx va)) := fun t ht =>
    h.typed.entry _ t (pdIdx va) ht
  simp only [Shared, Low, not_or, not_and] at hw
  simp only [roles, Role.ok] at first
  simp only [Role.child] at next
  by_cases zero : pml4Idx va = 0#9
  case pos =>
    simp only [if_pos zero] at first next
    refine ⟨fun _ => first, fun pdpt hb => ?_⟩
    have own : ¬ (pdptIdx va).toNat < 4 := hw.1 zero
    have second := h.typed.entry _ pdpt (pdptIdx va) (next pdpt hb)
    simp only [roles, Role.ok, if_neg own] at second
    refine ⟨second, fun pd hd => lower pd ?_⟩
    have role := h.typed.linked (.low p) pdpt _ pd (show 1 < 3 by decide) (next pdpt hb) hd
    simpa only [roles, Role.child, if_neg own] using role
  case neg =>
    simp only [if_neg zero, if_neg hw.2] at first next
    refine ⟨first, fun pdpt hb => ?_⟩
    exact ⟨h.typed.entry _ pdpt (pdptIdx va) (next pdpt hb),
      fun pd hd => lower pd (h.typed.linked (.own p 3) pdpt _ pd (show 1 < 3 by decide) (next pdpt hb) hd)⟩

/-- `get_or_alloc` with a page at hand follows an entry or links a blank table. -/
theorem getOrAlloc_leads {s : Vmm} {t : u64} {i : Index} (way : Tabular (s.mem t i))
    (nonzero : ∀ f, link (s.mem t i) = some f → f ≠ 0) (used : Used s t)
    (page : (allocPage s.pmm).1 ≠ 0) :
    (getOrAlloc s t i true).1 ≠ 0 ∧
      (((getOrAlloc s t i true).2 = s ∧ link (s.mem t i) = some (getOrAlloc s t i true).1) ∨
        ((getOrAlloc s t i true).2.mem (getOrAlloc s t i true).1 = (fun _ => 0) ∧
          Used (getOrAlloc s t i true).2 (getOrAlloc s t i true).1)) := by
  rw [getOrAlloc]
  simp only [Bool.not_true, Bool.false_eq_true, if_false, if_neg page]
  split
  case isTrue present =>
    obtain ⟨g, hg⟩ := isTable_link (way present)
    obtain ⟨-, small, here⟩ := link_eq_some.mp hg
    simp only [small, Bool.false_eq_true, if_false, here]
    exact ⟨nonzero g hg, .inl ⟨trivial, hg⟩⟩
  case isFalse =>
    rcases allocPage_cases s.pmm with ⟨k, hk, ht⟩ | ⟨h0, -⟩
    case inr =>
      rw [h0] at page
      exact absurd rfl page
    case inl =>
      refine ⟨page, .inr ⟨?_, ?_⟩⟩
      · have apart : (allocPage s.pmm).1 ≠ t := by
          rw [hk]
          rintro rfl
          exact not_used_free ht le_rfl (by omega) used
        simp only [graft, write_of_table_ne apart, fill_same]
      · rw [hk]
        exact used_taken ht le_rfl (by omega)

/-- **A private page is mapped** when the allocator has pages for its tables. -/
theorem Sound.mapPageInto_succeeds (h : Sound R s) (null : NullPage s) (hp : p ∈ s.spaces)
    (hw : ¬ Shared va) (pages : ∀ q, Allocs 2 s.vmm.pmm q → (allocPage q).1 ≠ 0) (g flags : u64) :
    (VMM.mapPageInto s.vmm p va g flags).1 = true := by
  obtain ⟨is, inv⟩ := h.inv
  obtain ⟨first, deeper⟩ := inv.private_way hp hw
  have nonzero : ∀ q f, q.length ≤ 3 → descend link s.vmm.mem p q = some f → f ≠ 0 := by
    rintro q f hq hd rfl
    exact null.2 ⟨p, q, .inr hp, hq, hd⟩
  have used : ∀ q f, q.length ≤ 3 → descend link s.vmm.mem p q = some f → Used s.vmm f :=
    fun q f hq hd => h.trees.used f ⟨p, q, .inr hp, hq, hd⟩
  have blank : ∀ {v : Vmm} {t : u64}, v.mem t = (fun _ => 0) → ∀ i, Tabular (v.mem t i) ∧
      ∀ f, link (v.mem t i) = some f → f ≠ 0 := by
    intro v t zero i
    rw [zero]
    exact ⟨tabular_zero, fun f hf => by rw [link_zero] at hf; cases hf⟩
  have way1 : ∀ f, link (s.vmm.mem p (pml4Idx va)) = some f →
      descend link s.vmm.mem p [pml4Idx va] = some f := fun f hf => by rw [descend, hf]; rfl
  have some1 := getOrAlloc_allocs s.vmm p (pml4Idx va) true
  obtain ⟨n1, c1⟩ := getOrAlloc_leads first (fun f hf => nonzero _ f (by simp) (way1 f hf))
    (used [] p (by simp) rfl) (pages _ (.refl 2 _))
  rw [VMM.mapPageInto]
  simp only [if_neg n1]
  generalize getOrAlloc s.vmm p (pml4Idx va) true = r1 at *
  -- the last step, from a page directory that is followed or blank
  have last : ∀ {v : Vmm} {pd : u64}, Allocs 2 s.vmm.pmm v.pmm → Used v pd →
      (Tabular (v.mem pd (pdIdx va)) ∧ ∀ f, link (v.mem pd (pdIdx va)) = some f → f ≠ 0) →
      (getOrAlloc v pd (pdIdx va) true).1 ≠ 0 := fun some2 hu way =>
    (getOrAlloc_leads way.1 way.2 hu (pages _ some2)).1
  rcases c1 with ⟨same1, link1⟩ | ⟨zero1, used1⟩
  case inl =>
    obtain ⟨second, third⟩ := deeper _ link1
    have way2 : ∀ f, link (s.vmm.mem r1.1 (pdptIdx va)) = some f →
        descend link s.vmm.mem p [pml4Idx va, pdptIdx va] = some f := fun f hf => by
      rw [descend, link1, Option.bind_some, descend, hf]
      rfl
    rw [same1] at some1 ⊢
    have some2 := getOrAlloc_allocs s.vmm r1.1 (pdptIdx va) true
    obtain ⟨n2, c2⟩ := getOrAlloc_leads second (fun f hf => nonzero _ f (by simp) (way2 f hf))
      (used _ _ (by simp) (way1 _ link1)) (pages _ (.refl 2 _))
    simp only [if_neg n2]
    generalize getOrAlloc s.vmm r1.1 (pdptIdx va) true = r2 at *
    rcases c2 with ⟨same2, link2⟩ | ⟨zero2, used2⟩
    case inl =>
      rw [same2]
      simp only [if_neg (last (.refl 2 _) (used _ _ (by simp) (way2 _ link2))
        ⟨third _ link2, fun f hf => nonzero [pml4Idx va, pdptIdx va, pdIdx va] f (by simp) (by
          rw [descend, link1, Option.bind_some, descend, link2, Option.bind_some, descend, hf]
          rfl)⟩)]
    case inr => simp only [if_neg (last (some2.mono (by decide)) used2 (blank zero2 _))]
  case inr =>
    obtain ⟨second, empty⟩ := blank zero1 (pdptIdx va)
    have some2 := some1.trans (getOrAlloc_allocs r1.2 r1.1 (pdptIdx va) true)
    obtain ⟨n2, c2⟩ := getOrAlloc_leads second empty used1 (pages _ (some1.mono (by decide)))
    simp only [if_neg n2]
    generalize getOrAlloc r1.2 r1.1 (pdptIdx va) true = r2 at *
    rcases c2 with ⟨-, link2⟩ | ⟨zero2, used2⟩
    case inl =>
      rw [zero1, link_zero] at link2
      cases link2
    case inr => simp only [if_neg (last some2 used2 (blank zero2 _))]

/-- **A page whose page table is there** is mapped without the allocator. -/
theorem Sound.mapPageInto_again (null : NullPage s) (hp : p ∈ s.spaces) {w : u64}
    (there : has (getPteInto s.vmm.mem p w) PTE_PRESENT = true) (i4 : pml4Idx va = pml4Idx w)
    (i3 : pdptIdx va = pdptIdx w) (i2 : pdIdx va = pdIdx w) (g flags : u64) :
    (VMM.mapPageInto s.vmm p va g flags).1 = true := by
  have nonzero : ∀ q f, q.length ≤ 3 → descend link s.vmm.mem p q = some f → f ≠ 0 := by
    rintro q f hq hd rfl
    exact null.2 ⟨p, q, .inr hp, hq, hd⟩
  have follows : ∀ {t f : u64} {i : Index}, link (s.vmm.mem t i) = some f →
      getOrAlloc s.vmm t i true = (f, s.vmm) := by
    intro t f i hl
    obtain ⟨present, small, here⟩ := link_eq_some.mp hl
    simp only [getOrAlloc, present, small, if_true, Bool.false_eq_true, if_false, here]
  obtain ⟨pt, table⟩ := getPteInto_present there
  obtain ⟨pdpt, pd, l4, l3, l2⟩ := pageTable_eq_some.mp table
  rw [← i4] at l4
  rw [← i3] at l3
  rw [← i2] at l2
  have n1 : pdpt ≠ 0 := nonzero [pml4Idx va] pdpt (by simp) (by rw [descend, l4]; rfl)
  have n2 : pd ≠ 0 := nonzero [pml4Idx va, pdptIdx va] pd (by simp) (by
    rw [descend, l4, Option.bind_some, descend, l3]
    rfl)
  have n3 : pt ≠ 0 := nonzero [pml4Idx va, pdptIdx va, pdIdx va] pt (by simp) (by
    rw [descend, l4, Option.bind_some, descend, l3, Option.bind_some, descend, l2]
    rfl)
  simp only [VMM.mapPageInto, follows l4, if_neg n1, follows l3, if_neg n2, follows l2, if_neg n3]

/-! ## Enough memory -/

/-- After `n` more calls of `AllocPage` there still is a page. -/
def Plenty (n : Nat) (s : Pmm) : Prop := ∀ q, Allocs n s q → (allocPage q).1 ≠ 0

theorem Plenty.after {m n : Nat} {a b : Pmm} (h : Plenty (m + n) a) (taken : Allocs m a b) :
    Plenty n b := fun q hq => h q (taken.trans hq)

theorem Plenty.mono {m n : Nat} {a : Pmm} (h : Plenty n a) (le : m ≤ n) : Plenty m a :=
  fun q hq => h q (hq.mono le)

theorem setupPeb_allocs (v : Vmm) (p : u64) (pages : Nat → Table) :
    Allocs 16 v.pmm (setupPeb v p pages).2.pmm := by
  rw [Kernel.setupPeb]
  have first := setupPage_allocs v p PEB_VA (pages 0)
  split
  case isTrue => exact first.trans (setupPages_allocs p pages 3 1 _)
  case isFalse => exact first.mono (by decide)

/-- The page is in the address space, in a frame of its own, with these contents. -/
def InPlace (s : System) (p va : u64) (page : Table) : Prop := ∃ f, DataPage s f page ∧
  getPteInto s.vmm.mem p va = leafEntry f (userFlags true)

theorem InPlace.moves {page : Table} (h : InPlace s p va page) (hp : p ∈ s.spaces)
    (hw : ¬ Shared va) (m : Moves R P noFrames s t) (apart : ¬ P p va) : InPlace t p va page := by
  obtain ⟨f, data, pte⟩ := h
  exact ⟨f, data.moves m, (m.entries p hp va hw apart).trans pte⟩

/-- **A page of the process environment** is in place when there is memory. -/
theorem Sound.setupPage_inPlace (h : Sound R s) (hg : R.Good shown) (null : NullPage s)
    (hp : p ∈ s.spaces) (hw : ¬ Shared va) (plenty : Plenty 3 s.vmm.pmm) (page : Table) :
    (Kernel.setupPage s.vmm p va page).1 = true ∧
      InPlace { s with vmm := (Kernel.setupPage s.vmm p va page).2 } p va page := by
  have first := plenty _ (.refl 3 _)
  have more : Plenty 2 (allocPage s.vmm.pmm).2 := plenty.after (.one _)
  rw [Kernel.setupPage]
  rcases allocPage_cases s.vmm.pmm with ⟨q, hq, ht⟩ | ⟨h0, -⟩
  case inr =>
    rw [h0] at first
    exact absurd rfl first
  case inl =>
    obtain ⟨filled, used, data, -⟩ := h.newPage ht page
    generalize allocPage s.vmm.pmm = r at *
    simp only [if_neg first, true_and]
    rw [hq] at first ⊢
    have here : DataPage { s with vmm := { s.vmm with pmm := r.2
                                                      mem := fill s.vmm.mem (pageAddr q) page } }
        (pageAddr q) page := ⟨isFrame_pageAddr ht.within, first, used, data, fill_same _ _ _⟩
    have success := filled.sound.mapPageInto_succeeds (null.moves filled) hp hw more (pageAddr q)
      (userFlags true)
    obtain ⟨mapped, pte, -⟩ := filled.sound.mapPageInto hg hp va (pageAddr q) true
    exact ⟨pageAddr q, here.moves mapped, pte success⟩

theorem peb_private {k : Nat} (hk : k < 4) : ¬ Shared (PEB_VA + pageAddr k) := by
  have all : ∀ k : Fin 4, ¬ Shared (PEB_VA + pageAddr k.val) := by decide
  exact all ⟨k, hk⟩

theorem Sound.setupPages_inPlace (hg : R.Good shown) (pages : Nat → Table) (n k : Nat)
    (hk : k + n ≤ 4) (h : Sound R s) (null : NullPage s) (hp : p ∈ s.spaces)
    (plenty : Plenty (4 * n) s.vmm.pmm) : ∀ j, k ≤ j → j < k + n →
      InPlace { s with vmm := Kernel.setupPages p pages n k s.vmm } p (PEB_VA + pageAddr j) (pages j) := by
  induction n generalizing k s with
  | zero => exact fun j h1 h2 => absurd h2 (by omega)
  | succ n ih =>
    have taken := setupPage_allocs s.vmm p (PEB_VA + pageAddr k) (pages k)
    have moved := h.setupPage hg hp (PEB_VA + pageAddr k) (pages k)
    obtain ⟨success, here⟩ := h.setupPage_inPlace hg null hp (peb_private (k := k) (by omega))
      (plenty.mono (by omega)) (pages k)
    rw [Kernel.setupPages]
    generalize Kernel.setupPage s.vmm p (PEB_VA + pageAddr k) (pages k) = r at *
    rw [if_pos success]
    intro j h1 h2
    rcases Nat.lt_or_eq_of_le h1 with h1 | rfl
    · refine ih (k + 1) (by omega) moved.sound (null.moves moved) hp ?_ j h1 (by omega)
      exact Plenty.after (plenty.mono (by omega)) taken
    · refine here.moves hp (peb_private (by omega)) (moved.sound.setupPages hg pages n (k + 1) hp) ?_
      rintro ⟨-, l, h3, h4, same⟩
      exact vpn_pageAddr_ne PEB_VA (by omega) (by omega) (by omega : k ≠ l) same

/-- **The process environment** is in place when there is memory. -/
theorem Sound.setupPeb_inPlace (h : Sound R s) (hg : R.Good shown) (null : NullPage s)
    (hp : p ∈ s.spaces) (plenty : Plenty 16 s.vmm.pmm) (pages : Nat → Table) :
    (Kernel.setupPeb s.vmm p pages).1 = PEB_VA ∧ ∀ j, j < 4 →
      InPlace { s with vmm := (Kernel.setupPeb s.vmm p pages).2 } p (PEB_VA + pageAddr j) (pages j) := by
  have first : PEB_VA + pageAddr 0 = PEB_VA := BitVec.add_zero PEB_VA
  have all := h.setupPages_inPlace hg pages 4 0 (by decide) null hp plenty
  rw [Kernel.setupPages, first] at all
  obtain ⟨success, -⟩ := h.setupPage_inPlace hg null hp (first ▸ peb_private (by decide))
    (plenty.mono (by decide)) (pages 0)
  rw [Kernel.setupPeb]
  simp only [success, if_true] at all ⊢
  exact ⟨trivial, fun j hj => all j (Nat.zero_le j) (by omega)⟩

/-- A new address space takes two pages. -/
theorem createUserPml4_plenty {v : Vmm} (plenty : Plenty 1 v.pmm) :
    (createUserPml4 v).1 ≠ 0 ∧ Allocs 2 v.pmm (createUserPml4 v).2.pmm := by
  have n1 := plenty _ (.refl 1 _)
  have n2 := plenty _ (.one _)
  obtain ⟨root, pmm, -⟩ := createUserPml4_succeeds (s := v) rfl rfl n1 n2
  rw [root, pmm]
  exact ⟨n1, (Allocs.one v.pmm).trans (.one _)⟩

end

/-! ## After boot -/

theorem boot_nullPage {m : Mem} {pt bmStart : u64} {bi : Option BootInfo} {page : Table}
    {shown : Bool} {v : Vmm} (hb : TablesAt pt bi) (hpt : pt ≠ 0)
    (hboot : boot m pt bmStart bi page = some (shown, v)) : NullPage (start v) := by
  obtain ⟨used, data⟩ := boot_null hb hpt hboot
  obtain ⟨-, root, -⟩ := boot_trees hb hboot
  refine ⟨used, fun table => data ?_⟩
  obtain ⟨a, q, ha | ha, hq, hd⟩ := table
  · exact ⟨a, q, ha.trans root, hq, hd⟩
  · cases ha

/-- With 5 MB of memory boot leaves more than two hundred pages. -/
theorem lowBoot_plenty : ∃ v, boot (fun _ _ => 0) 0x10000000#64 0x120000#64 (some lowBoot)
    (fun _ => 0) = some (true, v) ∧ Plenty 200 v.pmm := by
  obtain ⟨v, hboot, pool⟩ := lowBoot_pool
  have low : ∀ q ∈ lowPages, 1541 ≤ q := fun q hq => hq.2
  refine ⟨v, hboot, fun q taken => ?_⟩
  obtain ⟨b, hb, left⟩ := Pool.allocs pool low (fun k hk => lowPages_mem (by omega) (by omega)) taken
  obtain ⟨t, next, -, -⟩ := Pool.next left low (lowPages_mem (by omega) (by omega))
  rw [next]
  intro zero
  have place := congrArg BitVec.toNat zero
  rw [pageAddr_toNat (by simp only [MAX_PAGES, PAGE_SIZE]; omega), show (0 : u64).toNat = 0 from rfl]
    at place
  simp only [PAGE_SIZE] at place
  omega

end MicroNT.Kernel
