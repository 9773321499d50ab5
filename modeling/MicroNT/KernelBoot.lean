import MicroNT.KernelTables

/-! # What `boot` leaves behind

While the kernel boots, its tables have their roles and only the rows that boot
touches are open (`Booting`). Afterwards the rows are fixed (`Booted`). -/

namespace MicroNT.Kernel

open MicroNT.PMM MicroNT.VMM MicroNT.Boot MicroNT.Base.Radix

/-- The entries of the kernel's tables at any point of the boot. -/
def bootShape (pt : u64) (split : Index → u64 → Prop) : Shape where
  kroot i e :=
    if i = 0#9 then e = pdptAddr pt ||| 3#64 ∨ e = tableEntry (pdptAddr pt)
    else if i = SOFT_SLOT then Tabular e else e = 0
  kpdpt j e :=
    if j.toNat < 4 then
      e = pdAddr pt j.toNat ||| 3#64 ∨ (j = 1#9 ∧ e = tableEntry (pdAddr pt 1))
    else e = 0
  kpd j i e := e = pdEntry j i ∨ (j = 1 ∧ i = 511#9 ∧ IsTable e)
  split := split

/-- The role belongs to the kernel, not to a user PML4. -/
def Role.isKernel : Role → Prop
  | .root _ => False
  | .low _ => False
  | .own _ _ => False
  | _ => True

structure Booting (pt : u64) (split : Index → u64 → Prop) (is : Role → u64 → Prop) (s : Vmm) :
    Prop where
  typed : Typed (roles (bootShape pt split)) is s
  kroot : ∀ t, is .kroot t ↔ t = pt
  kpdpt : ∀ t, is .kpdpt t ↔ t = pdptAddr pt
  kpd : ∀ j t, is (.kpd j) t ↔ j < 4 ∧ t = pdAddr pt j
  kernel : ∀ r t, is r t → r.isKernel
  pml4Phys : s.pml4Phys = pt

section

variable {pt : u64} {split : Index → u64 → Prop} {is is' : Role → u64 → Prop} {s t : Vmm}
  {bi : Option BootInfo}

/-- The six tables right after the bootloader. -/
def firstRoles (pt : u64) : Role → u64 → Prop
  | .kroot, t => t = pt
  | .kpdpt, t => t = pdptAddr pt
  | .kpd j, t => j < 4 ∧ t = pdAddr pt j
  | _, _ => False

theorem Booting.takes (h : Booting pt split is s) {p : Pmm} {i count : Nat}
    (ht : Takes s.pmm p i count) : Booting pt split is { s with pmm := p } :=
  ⟨h.typed.takes ht, h.kroot, h.kpdpt, h.kpd, h.kernel, h.pml4Phys⟩

/-- Growing the tables of slot 511 keeps the first six. -/
theorem Booting.grows (h : Booting pt split is s) {new : Role → Prop}
    (ht : Typed (roles (bootShape pt split)) is' t) (hg : Grows new is is' s t)
    (hnew : ∀ r, new r → ∃ n, r = .soft n) : Booting pt split is' t := by
  have old : ∀ r u, (∀ n, r ≠ .soft n) → (is' r u ↔ is r u) := fun r u hr =>
    ⟨fun hu => (hg.fresh r u hu).resolve_right fun hn =>
      let ⟨n, hn⟩ := hnew r hn.1
      hr n hn, hg.keep r u⟩
  refine ⟨ht, fun u => ?_, fun u => ?_, fun j u => ?_, fun r u hu => ?_, ?_⟩
  · rw [old _ u (by intro n; nofun)]; exact h.kroot u
  · rw [old _ u (by intro n; nofun)]; exact h.kpdpt u
  · rw [old _ u (by intro n; nofun)]; exact h.kpd j u
  · rcases hg.fresh r u hu with hu | ⟨hn, -⟩
    · exact h.kernel r u hu
    · obtain ⟨n, rfl⟩ := hnew r hn
      trivial
  · rw [hg.pml4Phys]; exact h.pml4Phys

theorem firstRoles_alone (h : TablesAt pt bi) {r r' : Role} {t : u64} (hr : firstRoles pt r t)
    (hr' : firstRoles pt r' t) : r = r' := by
  have at0 : pt = frameAt pt 0 := (frameAt_zero pt).symm
  -- a role is at one of the six frames, and the frame tells the role
  have at_ : ∀ r, firstRoles pt r t → ∃ k, k < 6 ∧ t = frameAt pt k ∧
      r = if k = 0 then .kroot else if k = 1 then .kpdpt else .kpd (k - 2) := by
    intro r hr
    cases r with
    | kroot => exact ⟨0, by decide, hr.trans at0, rfl⟩
    | kpdpt => exact ⟨1, by decide, hr, rfl⟩
    | kpd j => exact ⟨j + 2, by have := hr.1; omega, hr.2, by simp⟩
    | _ => exact hr.elim
  obtain ⟨k, hk, hkt, rfl⟩ := at_ r hr
  obtain ⟨k', hk', hkt', rfl⟩ := at_ r' hr'
  rw [h.inj hk hk' (hkt.symm.trans hkt')]

theorem booting_start (h : TablesAt pt bi) (m : Mem) (bmStart : u64)
    (split : Index → u64 → Prop) :
    Booting pt split (firstRoles pt)
      { mem := buildPageTables m pt, pmm := init bmStart bi, pml4Phys := pt } where
  typed := {
    linked := by
      intro r t i b h1 hr hb
      cases r with
      | kroot =>
        obtain rfl : t = pt := hr
        simp only [buildPageTables_pml4 h] at hb
        split at hb
        case isTrue h0 =>
          rw [link_super h.pdptFrame] at hb
          simp only [roles, Role.child, h0, if_true]
          exact (Option.some.inj hb).symm
        case isFalse => rw [link_zero] at hb; cases hb
      | kpdpt =>
        obtain rfl : t = pdptAddr pt := hr
        simp only [buildPageTables_pdpt h] at hb
        split at hb
        case isTrue hi =>
          rw [link_super (h.pdFrame hi)] at hb
          exact ⟨hi, (Option.some.inj hb).symm⟩
        case isFalse => rw [link_zero] at hb; cases hb
      | kpd j =>
        obtain ⟨hj, rfl⟩ : j < 4 ∧ t = pdAddr pt j := hr
        simp only [buildPageTables_pd h m hj, link_pdEntry] at hb
        cases hb
      | _ => exact hr.elim
    entry := by
      intro r t i hr
      cases r with
      | kroot =>
        obtain rfl : t = pt := hr
        simp only [roles, Role.ok, bootShape, buildPageTables_pml4 h]
        split
        case isTrue => exact .inl rfl
        case isFalse => split <;> [exact tabular_zero; rfl]
      | kpdpt =>
        obtain rfl : t = pdptAddr pt := hr
        simp only [roles, Role.ok, bootShape, buildPageTables_pdpt h]
        split <;> simp
      | kpd j =>
        obtain ⟨hj, rfl⟩ : j < 4 ∧ t = pdAddr pt j := hr
        simp only [roles, Role.ok, bootShape]
        exact .inl (congrFun (buildPageTables_pd h m hj) i)
      | _ => exact hr.elim
    alone := fun r r' t hr hr' _ => firstRoles_alone h hr hr'
    used := by
      intro r t hr
      cases r with
      | kroot =>
        obtain rfl : t = pt := hr
        have := h.used (k := 0) bmStart
          (s := { mem := buildPageTables m t, pmm := init bmStart bi, pml4Phys := t }) rfl (by decide)
        rwa [frameAt_zero] at this
      | kpdpt =>
        obtain rfl : t = pdptAddr pt := hr
        exact h.used (k := 1) bmStart rfl (by decide)
      | kpd j =>
        obtain ⟨hj, rfl⟩ : j < 4 ∧ t = pdAddr pt j := hr
        exact h.used (k := j + 2) bmStart rfl (by omega)
      | _ => exact hr.elim }
  kroot _ := Iff.rfl
  kpdpt _ := Iff.rfl
  kpd _ _ := Iff.rfl
  kernel r t hr := by cases r <;> trivial
  pml4Phys := rfl

/-! ## The smoke test -/

theorem through_test (pt : u64) (split : Index → u64 → Prop) :
    Through (roles (bootShape pt split)) .kroot TEST_VA where
  pml4 := ⟨trivial, fun e f _ _ hf => fun _ => ⟨f, hf, rfl⟩, fun e j _ _ => fun _ => tabular_zero⟩
  pdpt := ⟨trivial, fun e f _ _ hf => fun _ _ => ⟨f, hf, rfl⟩, fun e j _ _ => fun _ => tabular_zero⟩
  pd := ⟨trivial, fun e f _ _ hf => fun _ _ => ⟨f, hf, rfl⟩,
    fun e j _ _ => fun h => absurd h (by decide)⟩
  pt := trivial

theorem below_test {pt : u64} {split : Index → u64 → Prop} {r : Role}
    (h : (roles (bootShape pt split)).below .kroot TEST_VA r) : ∃ n, r = .soft n := by
  rcases h with rfl | rfl | rfl
  · exact ⟨3, rfl⟩
  · exact ⟨2, rfl⟩
  · exact ⟨1, rfl⟩

theorem v2p_present {m : Mem} {pml4 v : u64} (h : v2p m pml4 v ≠ 0) :
    has (m pml4 (pml4Idx v)) PTE_PRESENT = true := by
  cases hp : has (m pml4 (pml4Idx v)) PTE_PRESENT with
  | true => rfl
  | false =>
    simp only [v2p, hp, Bool.not_false, if_true] at h
    exact absurd rfl h

/-- The successful run of the smoke test, step by step. -/
theorem smokeTest_some {s t : Vmm} (h : smokeTest s = some t) :
    ∃ i p q, Takes s.pmm p i 1 ∧ pageAddr i ≠ 0 ∧
      (mapPage { s with pmm := p } TEST_VA (pageAddr i) (PTE_PRESENT ||| PTE_WRITABLE)).2 = q ∧
      has (q.mem q.pml4Phys SOFT_SLOT) PTE_PRESENT = true ∧
      t = { unmapPage { q with mem := write q.mem (pageAddr i) 0#9 SENTINEL } TEST_VA with
            pmm := freePage (unmapPage { q with
              mem := write q.mem (pageAddr i) 0#9 SENTINEL } TEST_VA).pmm (pageAddr i) } := by
  simp only [smokeTest] at h
  rcases allocPage_cases s.pmm with ⟨i, hi, ht⟩ | ⟨h0, -⟩
  case inr => rw [h0] at h; cases h
  case inl =>
    generalize allocPage s.pmm = r at *
    rw [hi] at h
    split at h
    case isTrue => cases h
    case isFalse hn =>
      split at h
      case isTrue => cases h
      case isFalse =>
        split at h
        case isTrue => cases h
        case isFalse hv =>
          have hv := not_not.mp hv
          refine ⟨i, r.2, _, ht, hn, rfl, v2p_present (v := TEST_VA) ?_, (Option.some.inj h).symm⟩
          rw [hv]
          exact hn

/-- Unmapping the test page writes a page table of slot 511 at most. -/
theorem Booting.unmapTest (h : Booting pt split is s) (htbl : IsTable (s.mem pt SOFT_SLOT)) :
    Booting pt split is (unmapPage s TEST_VA) ∧ (unmapPage s TEST_VA).pmm = s.pmm ∧
      ∀ r u, is r u → r ≠ .soft 1 → (unmapPage s TEST_VA).mem u = s.mem u := by
  have hroot : is .kroot pt := (h.kroot pt).mpr rfl
  have hps : has (s.mem s.pml4Phys (pml4Idx TEST_VA)) PTE_PS = false := by
    rw [h.pml4Phys]
    exact isTable_ps htbl
  rw [unmapPage_eq s TEST_VA hps, h.pml4Phys, unmapPageFrom]
  cases hpt : pageTable s.mem pt TEST_VA with
  | none => exact ⟨h, rfl, fun _ _ _ _ => rfl⟩
  | some t =>
    have hleaf : is (.soft 1) t := h.typed.pageTable hroot rfl hpt
    refine ⟨⟨h.typed.writeLeaf hleaf trivial rfl (fun h => absurd h (by decide)), h.kroot, h.kpdpt,
      h.kpd, h.kernel, h.pml4Phys⟩, rfl, fun r u hu hne => write_of_table_ne ?_⟩
    rintro rfl
    exact hne (h.typed.alone _ _ _ hu hleaf trivial)

/-- The test page is mapped through new tables of slot 511, and is itself no table. -/
theorem Booting.testMapped (h : Booting pt split is s) {i : Nat} {p : Pmm} {q : Vmm}
    (htake : Takes s.pmm p i 1)
    (hq : (mapPage { s with pmm := p } TEST_VA (pageAddr i) (PTE_PRESENT ||| PTE_WRITABLE)).2 = q)
    (hpresent : has (q.mem q.pml4Phys SOFT_SLOT) PTE_PRESENT = true) :
    mapPageInto { s with pmm := p } pt TEST_VA (pageAddr i) (PTE_PRESENT ||| PTE_WRITABLE) =
        mapPage { s with pmm := p } TEST_VA (pageAddr i) (PTE_PRESENT ||| PTE_WRITABLE) ∧
      ∃ is', Booting pt split is' q ∧
        Grows ((roles (bootShape pt split)).below .kroot TEST_VA) is is' { s with pmm := p } q ∧
        (∀ r u, is r u → ¬ (roles (bootShape pt split)).onPath .kroot TEST_VA r →
          q.mem u = s.mem u) ∧
        (∀ r u, is' r u → u ≠ pageAddr i) ∧ IsTable (q.mem pt SOFT_SLOT) := by
  have h1 := h.takes htake
  have hroot : is .kroot pt := (h.kroot pt).mpr rfl
  obtain ⟨is', htyped, hgrows, same, -⟩ := h1.typed.mapPageInto (pageAddr i)
    (PTE_PRESENT ||| PTE_WRITABLE) hroot rfl (through_test pt split) fun _ h => absurd h (by decide)
  have hpml4 : mapPageInto { s with pmm := p } pt TEST_VA (pageAddr i) (PTE_PRESENT ||| PTE_WRITABLE)
      = mapPage { s with pmm := p } TEST_VA (pageAddr i) (PTE_PRESENT ||| PTE_WRITABLE) := by
    rw [mapPage, h.pml4Phys]
  rw [hpml4, hq] at htyped hgrows same
  have h2 : Booting pt split is' q := h1.grows htyped hgrows fun _ hr => below_test hr
  refine ⟨hpml4, is', h2, hgrows, same, fun r u hu heq => ?_, ?_⟩
  · rcases hgrows.fresh r u hu with hold | ⟨-, hfree⟩
    · exact not_used_free htake le_rfl (by omega) (heq ▸ h.typed.used r u hold)
    · exact hfree (heq ▸ used_taken htake le_rfl (by omega))
  · have hslot : Tabular (q.mem pt SOFT_SLOT) :=
      h2.typed.entry _ _ SOFT_SLOT ((h2.kroot pt).mpr rfl)
    rw [h2.pml4Phys] at hpresent
    exact hslot hpresent

/-- What the smoke test leaves: slot 511 has a table, the page directories are
as they were. -/
theorem Booting.smokeTest (h : Booting pt split is s) (ht : smokeTest s = some t) :
    ∃ is', Booting pt split is' t ∧ IsTable (t.mem pt SOFT_SLOT) ∧
      (∀ u, is' .ksplit u → is .ksplit u) ∧
      (∀ j, j < 4 → t.mem (pdAddr pt j) = s.mem (pdAddr pt j)) ∧
      ∀ q, bitmapTest s.pmm.bitmap q = true → bitmapTest t.pmm.bitmap q = true := by
  obtain ⟨i, p, q, htake, -, hq, hpresent, rfl⟩ := smokeTest_some ht
  obtain ⟨-, is', h2, hgrows, same, htest, hslot⟩ := h.testMapped htake hq hpresent
  have h3 : Booting pt split is' { q with mem := write q.mem (pageAddr i) 0#9 SENTINEL } :=
    ⟨h2.typed.writeData htest fun u hu => write_of_table_ne hu, h2.kroot, h2.kpdpt, h2.kpd,
      h2.kernel, h2.pml4Phys⟩
  have hroot' : is' .kroot pt := (h2.kroot pt).mpr rfl
  have htbl : IsTable (write q.mem (pageAddr i) 0#9 SENTINEL pt SOFT_SLOT) := by
    rw [write_of_table_ne (htest _ _ hroot')]
    exact hslot
  obtain ⟨h4, hpmm, hsame⟩ := h3.unmapTest htbl
  refine ⟨is', ⟨h4.typed.freePage fun r u hu => ?_, h4.kroot, h4.kpdpt, h4.kpd, h4.kernel,
    h4.pml4Phys⟩, ?_, fun u hu => ?_, fun j hj => ?_, fun k hk => ?_⟩
  · rw [pageOf_pageAddr htake.within]
    exact htest r u hu
  · have := hsame _ _ hroot' fun e => by cases e
    simp only [this]
    exact htbl
  · rcases hgrows.fresh _ u hu with hold | ⟨hn, -⟩
    · exact hold
    · obtain ⟨n, hn⟩ := below_test hn
      cases hn
  · have hpd : is (.kpd j) (pdAddr pt j) := (h.kpd j _).mpr ⟨hj, rfl⟩
    have hpd' : is' (.kpd j) (pdAddr pt j) := (h2.kpd j _).mpr ⟨hj, rfl⟩
    have hoff : ¬ (roles (bootShape pt split)).onPath .kroot TEST_VA (.kpd j) := by
      intro hp
      rcases hp with hp | hp
      · cases hp
      · obtain ⟨n, hn⟩ := below_test hp
        cases hn
    have h5 := hsame _ _ hpd' fun e => by cases e
    simp only [h5, write_of_table_ne (htest _ _ hpd'), same _ _ hpd hoff]
  · simp only [hpmm]
    exact freePage_takes htake (fun k hk => hgrows.bits k (by simp [htake.bits, hk])) hk

/-! ## The shared user data page -/

/-- The rows of the kernel's tables. -/
structure Rows where
  kroot : Table
  kpdpt : Table
  kpd : Nat → Table

def Rows.shape (R : Rows) (split : Index → u64 → Prop) : Shape where
  kroot i e := e = R.kroot i
  kpdpt j e := e = R.kpdpt j
  kpd j i e := e = R.kpd j i
  split := split

/-- What the rows hold after boot; `shown` tells whether the shared page was
mapped. Everything but that page's 2 MB block is a supervisor identity map. -/
structure Rows.Good (R : Rows) (shown : Bool) : Prop where
  low : IsTable (R.kroot 0#9) ∨ (shown = false ∧ IsSuper (R.kroot 0#9))
  soft : IsTable (R.kroot SOFT_SLOT)
  rest : ∀ i, i ≠ 0#9 → i ≠ SOFT_SLOT → R.kroot i = 0
  pdpt1 : IsTable (R.kpdpt 1#9) ∨ (shown = false ∧ IsSuper (R.kpdpt 1#9))
  pdpt : ∀ j, j.toNat < 4 → j ≠ 1#9 → IsSuper (R.kpdpt j)
  pdptRest : ∀ j, 4 ≤ j.toNat → R.kpdpt j = 0
  pd : ∀ j i, j < 4 → ¬ (j = 1 ∧ i = 511#9) → R.kpd j i = pdEntry j i
  block : shown = true → IsTable (R.kpd 1 511#9)
  whole : shown = false → R.kpd 1 511#9 = pdEntry 1 511#9
  nonzero : ∀ f, (∃ j, link (R.kpdpt j) = some f) ∨ link (R.kpd 1 511#9) = some f → f ≠ 0

/-- The rows that a memory holds now. -/
def rowsOf (pt : u64) (m : Mem) : Rows := ⟨m pt, m (pdptAddr pt), fun j => m (pdAddr pt j)⟩

/-- The page table of the split block: the shared page at its place, read-only for
users, and supervisor identity pages around it. -/
def splitEntry (phys : u64) (i : Index) : u64 :=
  if i = ptIdx KUSER_VA then (phys &&& PTE_ADDR_MASK) ||| PTE_PRESENT ||| PTE_USER
  else (0x7FE00000#64 + i.setWidth 64 * pageSize64) ||| PTE_PRESENT ||| PTE_WRITABLE

theorem kuser_path : pml4Idx KUSER_VA = 0#9 ∧ pdptIdx KUSER_VA = 1#9 ∧ pdIdx KUSER_VA = 511#9 := by
  decide

theorem Booting.reshape (h : Booting pt split is s) (split' : Index → u64 → Prop)
    (hno : ∀ u, ¬ is .ksplit u) : Booting pt split' is s :=
  ⟨⟨h.typed.linked, fun r u i hu => by
    cases r with
    | ksplit => exact absurd hu (hno u)
    | root p => exact (h.kernel _ u hu).elim
    | low p => exact (h.kernel _ u hu).elim
    | own p n => exact (h.kernel _ u hu).elim
    | _ => exact h.typed.entry _ u i hu, h.typed.alone, h.typed.used⟩,
    h.kroot, h.kpdpt, h.kpd, h.kernel, h.pml4Phys⟩

/-- The rows are good once the entries above the block have the USER bit, or
when the shared page is not mapped. -/
theorem Booting.good (h : Booting pt split is s) (hb : TablesAt pt bi) {m : Mem} (hm : s.mem = m)
    {shown : Bool} (soft : IsTable (m pt SOFT_SLOT))
    (upper : shown = true → IsTable (m pt 0#9) ∧ IsTable (m (pdptAddr pt) 1#9))
    (block : shown = true → ∃ f, IsFrame f ∧ f ≠ 0 ∧ m (pdAddr pt 1) 511#9 = tableEntry f)
    (whole : shown = false → m (pdAddr pt 1) 511#9 = pdEntry 1 511#9) :
    (rowsOf pt m).Good shown := by
  subst hm
  have kroot := fun i => h.typed.entry _ _ i ((h.kroot pt).mpr rfl)
  have kpdpt := fun j => h.typed.entry _ _ j ((h.kpdpt _).mpr rfl)
  have first : ∀ {e f : u64}, IsFrame f → e = f ||| 3#64 ∨ e = tableEntry f →
      (shown = true → IsTable e) → IsTable e ∨ (shown = false ∧ IsSuper e) := by
    intro e f hf he hs
    cases shown with
    | true => exact .inl (hs rfl)
    | false => exact he.symm.imp (fun h => ⟨f, hf, h⟩) fun h => ⟨rfl, f, hf, h⟩
  refine ⟨first hb.pdptFrame ?_ fun hs => (upper hs).1, soft, fun i h0 h1 => ?_,
    first (hb.pdFrame (j := 1) (by decide)) ?_ fun hs => (upper hs).2, fun j hj h1 => ?_,
    fun j hj => ?_, fun j i hj hn => ?_, fun hs => (block hs).imp fun f hf => ⟨hf.1, hf.2.2⟩, whole,
    fun f hf => ?_⟩
  · show s.mem pt 0#9 = _ ∨ s.mem pt 0#9 = _
    simpa [roles, Role.ok, bootShape] using kroot 0#9
  · show s.mem pt i = 0
    simpa [roles, Role.ok, bootShape, h0, h1] using kroot i
  · show s.mem (pdptAddr pt) 1#9 = _ ∨ s.mem (pdptAddr pt) 1#9 = _
    simpa [roles, Role.ok, bootShape] using kpdpt 1#9
  · have : s.mem (pdptAddr pt) j = pdAddr pt j.toNat ||| 3#64 := by
      simpa [roles, Role.ok, bootShape, hj, h1] using kpdpt j
    exact ⟨_, hb.pdFrame hj, this⟩
  · show s.mem (pdptAddr pt) j = 0
    simpa [roles, Role.ok, bootShape, Nat.not_lt.mpr hj] using kpdpt j
  · have := h.typed.entry _ _ i ((h.kpd j _).mpr ⟨hj, rfl⟩)
    simp only [roles, Role.ok, bootShape] at this
    exact this.resolve_right fun hc => hn ⟨hc.1, hc.2.1⟩
  · rcases hf with ⟨j, hl⟩ | hl
    · by_cases hj : j.toNat < 4
      · have hpd := h.typed.linked .kpdpt _ j f (show 1 < 3 by decide) ((h.kpdpt _).mpr rfl) hl
        obtain rfl := ((h.kpd j.toNat f).mp hpd).2
        exact hb.pdAddr_ne_zero hj
      · have hz : s.mem (pdptAddr pt) j = 0 := by
          simpa [roles, Role.ok, bootShape, hj] using kpdpt j
        rw [show (rowsOf pt s.mem).kpdpt j = 0 from hz, link_zero] at hl
        cases hl
    · cases shown with
      | true =>
        obtain ⟨g, hg, hg0, he⟩ := block rfl
        rw [show (rowsOf pt s.mem).kpd 1 511#9 = tableEntry g from he, link_tableEntry hg] at hl
        exact Option.some.inj hl ▸ hg0
      | false =>
        rw [show (rowsOf pt s.mem).kpd 1 511#9 = pdEntry 1 511#9 from whole rfl, link_pdEntry] at hl
        cases hl

section Shared

variable {phys : u64} (hb : TablesAt pt bi)
  (h : Booting pt (fun i e => e = splitEntry phys i) is s)
  (hpds : ∀ j, j < 4 → s.mem (pdAddr pt j) = pdEntry j)
  (htbl : IsTable (s.mem pt SOFT_SLOT))
include hb h

/-- Memory after the two entries above the block gained the USER bit. -/
def sharedUpper (m : Mem) (pt : u64) : Mem :=
  write (write m pt 0#9 (tableEntry (pdptAddr pt))) (pdptAddr pt) 1#9 (tableEntry (pdAddr pt 1))

theorem Booting.sharedUpper :
    Booting pt (fun i e => e = splitEntry phys i) is { s with mem := sharedUpper s.mem pt } := by
  have hroot : is .kroot pt := (h.kroot pt).mpr rfl
  have hpdpt : is .kpdpt (pdptAddr pt) := (h.kpdpt _).mpr rfl
  have hpd : is (.kpd 1) (pdAddr pt 1) := (h.kpd 1 _).mpr ⟨by decide, rfl⟩
  have h1 := h.typed.writeEntry (i := 0#9) (e := tableEntry (pdptAddr pt)) hroot trivial
    (.inr rfl) (fun _ b hl => by
      rw [link_tableEntry hb.pdptFrame] at hl
      exact Option.some.inj hl ▸ hpdpt)
  have h2 := h1.writeEntry (i := 1#9) (e := tableEntry (pdAddr pt 1)) hpdpt trivial
    (.inr ⟨rfl, rfl⟩) (fun _ b hl => by
      rw [link_tableEntry (hb.pdFrame (by decide))] at hl
      exact Option.some.inj hl ▸ hpd)
  exact ⟨h2, h.kroot, h.kpdpt, h.kpd, h.kernel, h.pml4Phys⟩

include hpds in
theorem mapSharedUserData_eq :
    mapSharedUserData s phys =
      if (allocPage s.pmm).1 = 0 then
        (false, { s with mem := Kernel.sharedUpper s.mem pt, pmm := (allocPage s.pmm).2 })
      else
        (true, { s with
          pmm := (allocPage s.pmm).2
          mem := write (fill (Kernel.sharedUpper s.mem pt) (allocPage s.pmm).1 (splitEntry phys))
            (pdAddr pt 1) 511#9 (tableEntry (allocPage s.pmm).1) }) := by
  obtain ⟨i4, i3, i2⟩ := kuser_path
  have hne : pdptAddr pt ≠ pt := (hb.pml4_ne (by decide) (by decide)).symm
  have hne1 : pdAddr pt 1 ≠ pt := (hb.pml4_ne (by decide) (by decide)).symm
  have hne2 : pdAddr pt 1 ≠ pdptAddr pt := hb.ne (j := 3) (k := 1) (by decide) (by decide) (by decide)
  obtain ⟨p1, m1, u1⟩ := entry_to hb.pdptFrame (h.typed.entry _ _ 0#9 ((h.kroot pt).mpr rfl))
  have old2 : s.mem (pdptAddr pt) 1#9 = pdAddr pt 1 ||| 3#64 ∨
      s.mem (pdptAddr pt) 1#9 = tableEntry (pdAddr pt 1) := by
    simpa [roles, Role.ok, bootShape] using h.typed.entry _ _ 1#9 ((h.kpdpt _).mpr rfl)
  obtain ⟨p2, m2, u2⟩ := entry_to (hb.pdFrame (by decide)) old2
  obtain ⟨p3, s3⟩ := pdEntry_bits 1 511#9
  have row3 : s.mem (pdAddr pt 1) 511#9 = pdEntry 1 511#9 := congrFun (hpds 1 (by decide)) _
  have base : pdEntry 1 511#9 &&& 0x000FFFFFFFE00000#64 = 0x7FE00000#64 := by decide
  simp only [mapSharedUserData, h.pml4Phys, i4, i3, i2, p1, m1, u1, write_of_table_ne hne, p2, m2, u2,
    write_of_table_ne hne2, write_of_table_ne hne1, row3, p3, s3, base, Bool.not_true,
    Bool.or_self, Bool.false_eq_true, if_false, Kernel.sharedUpper]
  split
  case isTrue => rfl
  case isFalse =>
    rw [write_fill]
    congr 4
    funext i
    rw [Function.update_apply, splitEntry]

omit h in
/-- The rows above the block when both entries have the USER bit. -/
theorem sharedUpper_rows (m : Mem) :
    Kernel.sharedUpper m pt pt 0#9 = tableEntry (pdptAddr pt) ∧
      Kernel.sharedUpper m pt pt SOFT_SLOT = m pt SOFT_SLOT ∧
      Kernel.sharedUpper m pt (pdptAddr pt) 1#9 = tableEntry (pdAddr pt 1) ∧
      ∀ j, j < 4 → Kernel.sharedUpper m pt (pdAddr pt j) = m (pdAddr pt j) := by
  have hne : pt ≠ pdptAddr pt := hb.pml4_ne (by decide) (by decide)
  refine ⟨?_, ?_, write_same _ _ _ _, fun j hj => ?_⟩
  · rw [Kernel.sharedUpper, write_of_table_ne hne, write_same]
  · rw [Kernel.sharedUpper, write_of_table_ne hne,
      write_of_ne fun h => absurd h.2 (by decide)]
  · rw [Kernel.sharedUpper, write_of_table_ne, write_of_table_ne]
    · exact (hb.pml4_ne (by omega) (by omega)).symm
    · exact hb.ne (j := j + 2) (k := 1) (by omega) (by decide) (by omega)

include hpds htbl

/-- `MapSharedUserData` keeps the roles and fixes the rows. -/
theorem Booting.mapShared :
    ∃ is', Booting pt (fun i e => e = splitEntry phys i) is' (mapSharedUserData s phys).2 ∧
      (rowsOf pt (mapSharedUserData s phys).2.mem).Good (mapSharedUserData s phys).1 := by
  rw [mapSharedUserData_eq hb h hpds]
  have hU := h.sharedUpper hb
  obtain ⟨row0, rowS, row1, rowP⟩ := sharedUpper_rows hb s.mem
  have t0 : IsTable (Kernel.sharedUpper s.mem pt pt 0#9) := ⟨_, hb.pdptFrame, row0⟩
  have t1 : IsTable (Kernel.sharedUpper s.mem pt (pdptAddr pt) 1#9) :=
    ⟨_, hb.pdFrame (j := 1) (by decide), row1⟩
  rw [← rowS] at htbl
  have hblock : Kernel.sharedUpper s.mem pt (pdAddr pt 1) 511#9 = pdEntry 1 511#9 := by
    rw [rowP 1 (by decide), hpds 1 (by decide)]
  rcases allocPage_cases s.pmm with ⟨k, hk, htake⟩ | ⟨h0, -⟩
  case inr =>
    simp only [h0, if_true]
    exact ⟨is, hU, hU.good (m := Kernel.sharedUpper s.mem pt) hb rfl htbl (fun _ => ⟨t0, t1⟩)
        (fun no => Bool.noConfusion no) fun _ => hblock⟩
  case inl =>
    generalize allocPage s.pmm = r at *
    have hT := hU.takes htake
    split
    case isTrue =>
      exact ⟨is, hT,
        hT.good (m := Kernel.sharedUpper s.mem pt) hb rfl htbl (fun _ => ⟨t0, t1⟩)
        (fun no => Bool.noConfusion no) fun _ => hblock⟩
    case isFalse hk0 =>
      rw [hk] at hk0 ⊢
      have hfree : ¬ Used s (pageAddr k) := not_used_free htake le_rfl (by omega)
      have hnone : ∀ r' u, is r' u → u ≠ pageAddr k :=
        fun r' u hu heq => hfree (heq ▸ h.typed.used r' u hu)
      have hframe := isFrame_pageAddr (i := k) htake.within
      have hpd : is (.kpd 1) (pdAddr pt 1) := (h.kpd 1 _).mpr ⟨by decide, rfl⟩
      have h1 := hT.typed.addTable (r := .ksplit) (splitEntry phys) hnone
        (used_taken htake le_rfl (by omega)) (fun _ => rfl) (fun h1 => absurd h1 (Nat.lt_irrefl 1))
      have h2 := h1.writeEntry (i := 511#9) (e := tableEntry (pageAddr k)) (.inl hpd) trivial
        (.inr ⟨rfl, rfl, _, hframe, rfl⟩) (fun _ b hl => by
          rw [link_tableEntry hframe] at hl
          exact .inr ⟨rfl, (Option.some.inj hl).symm⟩)
      have old : ∀ r' u, r' ≠ .ksplit → ((is r' u ∨ r' = .ksplit ∧ u = pageAddr k) ↔ is r' u) :=
        fun r' u hr => ⟨fun hu => hu.resolve_right fun hc => hr hc.1, .inl⟩
      let m := write (fill (Kernel.sharedUpper s.mem pt) (pageAddr k) (splitEntry phys))
        (pdAddr pt 1) 511#9 (tableEntry (pageAddr k))
      have hB : Booting pt (fun i e => e = splitEntry phys i)
          (fun r' u => is r' u ∨ r' = .ksplit ∧ u = pageAddr k) { s with pmm := r.2, mem := m } := by
        refine ⟨h2, fun u => ?_, fun u => ?_, fun j u => ?_, fun r' u hu => ?_, h.pml4Phys⟩
        · rw [old _ u fun e => by cases e]; exact h.kroot u
        · rw [old _ u fun e => by cases e]; exact h.kpdpt u
        · rw [old _ u fun e => by cases e]; exact h.kpd j u
        · rcases hu with hu | ⟨rfl, -⟩
          · exact h.kernel r' u hu
          · trivial
      -- the split writes neither the PML4 nor the PDPT
      have hpd1 : ∀ u, is .kroot u ∨ is .kpdpt u → m u = Kernel.sharedUpper s.mem pt u := by
        intro u hu
        simp only [m]
        rw [write_of_table_ne, fill_of_ne]
        · rcases hu with hu | hu <;> exact hnone _ u hu
        · rintro rfl
          rcases hu with hu | hu <;> cases h.typed.alone _ _ _ hu hpd trivial
      have rowR := hpd1 pt (.inl ((h.kroot pt).mpr rfl))
      have rowP' := hpd1 (pdptAddr pt) (.inr ((h.kpdpt _).mpr rfl))
      refine ⟨_, hB, hB.good (m := m) hb rfl ?_ (fun _ => ?_) (fun _ => ?_)
        fun no => Bool.noConfusion no⟩
      · rw [rowR]; exact htbl
      · rw [rowR, rowP']; exact ⟨t0, t1⟩
      · simp only [m, write_same]; exact ⟨_, hframe, hk0, rfl⟩

end Shared

/-! ## After boot -/

/-- The kernel's tables once boot is over. Their rows do not change any more. -/
structure Booted (R : Rows) (split : Index → u64 → Prop) (is : Role → u64 → Prop) (s : Vmm) :
    Prop where
  typed : Typed (roles (R.shape split)) is s
  root : is .kroot s.pml4Phys
  kernel : ∀ r t, is r t → r.isKernel

theorem Booting.booted (h : Booting pt split is s) : Booted (rowsOf pt s.mem) split is s where
  typed := ⟨h.typed.linked, fun r t i ht => by
    cases r with
    | kroot => obtain rfl := (h.kroot t).mp ht; rfl
    | kpdpt => obtain rfl := (h.kpdpt t).mp ht; rfl
    | kpd j => obtain ⟨-, rfl⟩ := (h.kpd j t).mp ht; rfl
    | ksplit => exact h.typed.entry _ t i ht
    | soft n => exact h.typed.entry _ t i ht
    | _ => exact (h.kernel _ t ht).elim, h.typed.alone, h.typed.used⟩
  root := by rw [h.pml4Phys]; exact (h.kroot pt).mpr rfl
  kernel := h.kernel

/-- Taking a page for the shared data and filling it. -/
theorem Booting.dataPage (h : Booting pt split is s) (hno : ∀ u, ¬ is .ksplit u) {p : Pmm} {k : Nat}
    (htake : Takes s.pmm p k 1) (page row : Table) :
    Booting pt (fun i e => e = row i) is { s with pmm := p, mem := fill s.mem (pageAddr k) page } ∧
      ∀ r u, is r u → fill s.mem (pageAddr k) page u = s.mem u := by
  have hnone : ∀ r u, is r u → u ≠ pageAddr k := fun r u hu heq =>
    not_used_free htake le_rfl (by omega) (heq ▸ h.typed.used r u hu)
  have h1 := (h.takes htake).reshape (fun i e => e = row i) hno
  exact ⟨⟨h1.typed.writeData hnone fun t ht => fill_of_ne ht, h.kroot, h.kpdpt, h.kpd, h.kernel,
    h.pml4Phys⟩, fun r u hu => fill_of_ne (hnone r u hu)⟩

/-- `KUSER::Init` on the tables that the smoke test leaves. -/
theorem Booting.kuserInit (hb : TablesAt pt bi) (h : Booting pt split is s)
    (hno : ∀ u, ¬ is .ksplit u) (hpds : ∀ j, j < 4 → s.mem (pdAddr pt j) = pdEntry j)
    (htbl : IsTable (s.mem pt SOFT_SLOT)) (page : Table) :
    (∃ R phys is', R.Good (kuserInit s page).1 ∧
      ((kuserInit s page).1 = true → IsFrame phys ∧ Used (kuserInit s page).2 phys) ∧
      Booted R (fun i e => e = splitEntry phys i) is' (kuserInit s page).2) ∧
      ∀ q, bitmapTest s.pmm.bitmap q = true →
        bitmapTest (kuserInit s page).2.pmm.bitmap q = true := by
  rw [Boot.kuserInit]
  have hroot : is .kroot pt := (h.kroot pt).mpr rfl
  rcases allocPage_cases s.pmm with ⟨k, hk, htake⟩ | ⟨h0, -⟩
  case inr =>
    have h := h.reshape (fun i e => e = splitEntry 0 i) hno
    rw [h0, if_pos rfl]
    exact ⟨⟨_, _, is, h.good hb rfl htbl (fun no => Bool.noConfusion no)
      (fun no => Bool.noConfusion no) fun _ => congrFun (hpds 1 (by decide)) _,
      fun no => Bool.noConfusion no, h.booted⟩, fun _ hq => hq⟩
  case inl =>
    generalize allocPage s.pmm = r at *
    have bits : ∀ q, bitmapTest s.pmm.bitmap q = true → bitmapTest r.2.bitmap q = true :=
      fun q hq => by simp [htake.bits, hq]
    split
    case isTrue =>
      have h1 := (h.takes htake).reshape (fun i e => e = splitEntry r.1 i) hno
      exact ⟨⟨_, _, is, h1.good hb rfl htbl (fun no => Bool.noConfusion no)
      (fun no => Bool.noConfusion no) fun _ => congrFun (hpds 1 (by decide)) _,
        fun no => Bool.noConfusion no, h1.booted⟩, bits⟩
    case isFalse =>
      rw [hk]
      obtain ⟨h2, same⟩ := h.dataPage hno htake page (splitEntry (pageAddr k))
      obtain ⟨is', h3, hgood⟩ := h2.mapShared hb
        (fun j hj => by simp only [same _ _ ((h.kpd j _).mpr ⟨hj, rfl⟩), hpds j hj])
        (by simp only [same _ _ hroot]; exact htbl)
      have more : ∀ q, bitmapTest r.2.bitmap q = true → bitmapTest (mapSharedUserData
          { s with pmm := r.2, mem := fill s.mem (pageAddr k) page } (pageAddr k)).2.pmm.bitmap q =
            true := fun q hq => by
        rw [mapSharedUserData_eq hb h2 fun j hj => by
          simp only [same _ _ ((h.kpd j _).mpr ⟨hj, rfl⟩), hpds j hj]]
        split <;> exact allocPage_bits _ q hq
      refine ⟨⟨_, _, is', hgood, fun _ => ⟨isFrame_pageAddr htake.within, ?_⟩, h3.booted⟩,
        fun q hq => more q (bits q hq)⟩
      exact Used.mono (used_taken (s := s) htake le_rfl (by omega)) more

/-- **What boot leaves**: roles for all tables in use, fixed rows for the first
six, and the split page table and the shared data when that page is mapped. No
page is free that was not free after `Init`. -/
theorem boot_booted (hb : TablesAt pt bi) {m : Mem} {bmStart : u64} {page : Table} {shown : Bool}
    (h : boot m pt bmStart bi page = some (shown, s)) :
    (∃ R phys is, R.Good shown ∧ (shown = true → IsFrame phys ∧ Used s phys) ∧
      Booted R (fun i e => e = splitEntry phys i) is s) ∧
      ∀ q, bitmapTest (init bmStart bi).bitmap q = true → bitmapTest s.pmm.bitmap q = true := by
  have hpt : pt &&& PTE_ADDR_MASK = pt := frameAt_zero pt ▸ hb.isFrame (k := 0) (by decide)
  simp only [Boot.boot, hpt] at h
  split at h
  case isTrue => cases h
  case isFalse hheap =>
    obtain ⟨s', hs', heq⟩ := Option.map_eq_some_iff.mp h
    have hstart := booting_start hb m bmStart fun _ _ => True
    rcases allocPages_cases (init bmStart bi) HEAP_PAGES with ⟨i, -, -, htake⟩ | h0
    case inr => rw [h0] at hheap; exact absurd rfl hheap
    case inl =>
      obtain ⟨is', h1, htbl, hsplit, hpds, bits⟩ := (hstart.takes htake).smokeTest hs'
      have hpds' : ∀ j, j < 4 → s'.mem (pdAddr pt j) = pdEntry j := by
        intro j hj
        rw [hpds j hj]
        simp only [buildPageTables_pd hb m hj]
      have := h1.kuserInit hb (fun u hu => hsplit u hu) hpds' htbl page
      rw [heq] at this
      exact ⟨this.1, fun q hq => this.2 q (bits q (by simp [htake.bits, hq]))⟩

end

end MicroNT.Kernel
