import MicroNT.KernelSpaces
import MicroNT.Trees

/-! # The address spaces of the running kernel are a forest

Boot leaves the kernel one tree of page tables, and every operation afterwards
keeps the address spaces a forest (`Inv.forest_step`). So in each state that the
kernel reaches, mapping a page in a space changes no other page of that space. -/

namespace MicroNT.Kernel

open MicroNT.PMM hiding step Op System
open MicroNT.VMM MicroNT.Boot MicroNT.Base.Radix MicroNT.Base.Machine

/-! ## Running -/

section

variable {R : Rows} {shown : Bool} {split : Index → u64 → Prop} {Ok : Nat → Prop}
  {is : Role → u64 → Prop} {s t : System} {p f : u64}

/-- A table of an address space has the role of its path. -/
theorem Inv.table_role (h : Inv R split Ok is s) (hf : Tables s.IsSpace s.vmm.mem f) :
    ∃ r, is r f := by
  obtain ⟨a, q, ha, hq, hd⟩ := hf
  rcases h.role ha with hr | hr
  · exact ⟨_, h.typed.descend hr (show q.length < 4 by omega) hd⟩
  · exact ⟨_, h.typed.descend hr (show q.length < 4 by omega) hd⟩

theorem Inv.trees (h : Inv R split Ok is s) (hf : Forest link s.vmm.mem s.IsSpace 3) :
    Trees s.IsSpace s.vmm := by
  refine ⟨hf, fun u hu => ?_⟩
  obtain ⟨r, hr⟩ := h.table_role hu
  exact h.typed.used r u hr

/-- A page that a client holds is no table. -/
theorem Inv.held_no_table (h : Inv R split Ok is s) (hf : f ∈ s.live.flatten) :
    ¬ Tables s.IsSpace s.vmm.mem f := by
  intro ht
  obtain ⟨r, hr⟩ := h.table_role ht
  exact h.apart f hf r hr

theorem isSpace_withVmm {v : Vmm} (hv : v.pml4Phys = s.vmm.pml4Phys) :
    ({ s with vmm := v } : System).IsSpace = s.IsSpace := by
  funext a
  simp only [System.IsSpace, hv]

theorem Trees.protectPages {roots : u64 → Prop} {base flags : u64} (hp : roots p) (n k : Nat)
    {v : Vmm} (h : Trees roots v) :
    Extends roots v (protectPages p base flags n k v) := by
  induction n generalizing k v with
  | zero => exact .refl h
  | succ n ih =>
    have x := h.protectPageInto hp (base + pageAddr k) flags
    exact x.trans (ih (k + 1) x.trees)

theorem Inv.createUserPml4_trees (h : Inv R (fun _ _ => True) (fun _ => True) is s)
    (hg : R.Good shown) (hf : Forest link s.vmm.mem s.IsSpace 3) :
    (createUserPml4 s.vmm).2.pml4Phys = s.vmm.pml4Phys ∧
      Trees (fun a => s.IsSpace a ∨
        ((createUserPml4 s.vmm).1 ≠ 0 ∧ a = (createUserPml4 s.vmm).1)) (createUserPml4 s.vmm).2 := by
  obtain ⟨is', -, hgrows, -⟩ :=
    h.typed.createUserPml4 h.root (fun _ => h.kernelLow hg) (h.clonable hg)
  refine ⟨hgrows.pml4Phys, ((h.trees hf).createUserPml4 (.inl rfl) fun _ => ?_).1⟩
  obtain ⟨pdpt, hl, -⟩ := h.slot0 hg (show s.IsSpace s.vmm.pml4Phys from .inl rfl)
  rw [hl, (link_eq_some.mp hl).2.2]

/-- **Every operation keeps the forest.** -/
theorem Inv.forest_step (h : Inv R (fun _ _ => True) (fun _ => True) is s) (hg : R.Good shown)
    (hf : Forest link s.vmm.mem s.IsSpace 3) {op : Op} (hs : Kernel.step s op = some t) :
    Forest link t.vmm.mem t.IsSpace 3 := by
  have trees := h.trees hf
  have root : ∀ p ∈ s.spaces, s.IsSpace p := fun p hp => .inr hp
  have after : ∀ v, Extends s.IsSpace s.vmm v →
      Forest link v.mem ({ s with vmm := v } : System).IsSpace 3 := by
    intro v hv
    rw [isSpace_withVmm hv.pml4Phys]
    exact hv.trees.forest
  cases op with
  | pmm op =>
    obtain ⟨u, -, rfl⟩ := Option.map_eq_some_iff.mp hs
    exact hf
  | store a i value =>
    simp only [Kernel.step] at hs
    split at hs
    case isFalse => cases hs
    case isTrue ha =>
      cases hs
      refine (trees.data (m := write s.vmm.mem (pageOf a) i value) fun u hu => ?_).1.forest
      refine write_of_table_ne ?_
      rintro rfl
      exact h.held_no_table ha hu
  | createUserPml4 =>
    cases hs
    obtain ⟨hk, new⟩ := h.createUserPml4_trees hg hf
    have roots : ∀ a, System.IsSpace
        { s with
          vmm := (createUserPml4 s.vmm).2
          spaces := if (createUserPml4 s.vmm).1 = 0 then s.spaces
            else (createUserPml4 s.vmm).1 :: s.spaces } a →
        s.IsSpace a ∨ ((createUserPml4 s.vmm).1 ≠ 0 ∧ a = (createUserPml4 s.vmm).1) := by
      intro a ha
      simp only [System.IsSpace, hk] at ha ⊢
      split at ha
      case isTrue => exact .inl ha
      case isFalse hne =>
        rcases ha with ha | ha
        · exact .inl (.inl ha)
        · rcases List.mem_cons.mp ha with ha | ha
          · exact .inr ⟨hne, ha⟩
          · exact .inl (.inr ha)
    intro a b q r u ha hb hq hr hd hd'
    exact new.forest a b q r u (roots a ha) (roots b hb) hq hr hd hd'
  | mapPageInto p v phys w =>
    simp only [Kernel.step] at hs
    split at hs
    case isFalse => cases hs
    case isTrue hp =>
      cases hs
      exact after _ (trees.mapPageInto (root p hp) v phys (userFlags w)).1
  | unmapPageFrom p v =>
    simp only [Kernel.step] at hs
    split at hs
    case isFalse => cases hs
    case isTrue hp =>
      cases hs
      exact after _ (trees.unmapPageFrom (root p hp) v)
  | ntProtectVm p a1 a2 a3 =>
    simp only [Kernel.step] at hs
    split at hs
    case isFalse => cases hs
    case isTrue hp =>
      cases hs
      exact after _ (Trees.protectPages (root p hp) _ 0 trees)

end

/-! ## Boot -/

section

variable {pt : u64} {bi : Option BootInfo} (hb : TablesAt pt bi)
include hb

/-- The bootloader's tables: one PML4, one PDPT and four page directories. -/
theorem buildPageTables_reached (m : Mem) {q : List Index} {u : u64}
    (hu : descend link (buildPageTables m pt) pt q = some u) :
    (q = [] ∧ u = pt) ∨ (q = [0#9] ∧ u = pdptAddr pt) ∨
      ∃ j : Index, j.toNat < 4 ∧ q = [0#9, j] ∧ u = pdAddr pt j.toNat := by
  cases q with
  | nil => exact .inl ⟨rfl, (Option.some.inj hu).symm⟩
  | cons i q =>
    obtain ⟨c, hc, hu1⟩ := Option.bind_eq_some_iff.mp hu
    rw [buildPageTables_pml4 hb] at hc
    simp only at hc
    split at hc
    case isFalse => rw [link_zero] at hc; cases hc
    case isTrue h0 =>
      rw [link_super hb.pdptFrame] at hc
      obtain rfl := Option.some.inj hc
      subst h0
      cases q with
      | nil => exact .inr (.inl ⟨rfl, (Option.some.inj hu1).symm⟩)
      | cons j q =>
        obtain ⟨d, hd, hu2⟩ := Option.bind_eq_some_iff.mp hu1
        rw [buildPageTables_pdpt hb] at hd
        simp only at hd
        split at hd
        case isFalse => rw [link_zero] at hd; cases hd
        case isTrue hj =>
          rw [link_super (hb.pdFrame hj)] at hd
          obtain rfl := Option.some.inj hd
          cases q with
          | nil => exact .inr (.inr ⟨j, hj, rfl, (Option.some.inj hu2).symm⟩)
          | cons k q =>
            obtain ⟨e, he, -⟩ := Option.bind_eq_some_iff.mp hu2
            rw [buildPageTables_pd hb m hj, link_pdEntry] at he
            cases he

/-- The bootloader maps 2 MB pages only. -/
theorem buildPageTables_pte (m : Mem) (w : u64) : getPteInto (buildPageTables m pt) pt w = 0 := by
  have table : pageTable (buildPageTables m pt) pt w = none := by
    rw [pageTable_eq]
    refine Option.eq_none_iff_forall_not_mem.mpr fun u hu => ?_
    have short : [pml4Idx w, pdptIdx w, pdIdx w].length ≤ 2 := by
      rcases buildPageTables_reached hb m hu with ⟨path, -⟩ | ⟨path, -⟩ | ⟨j, -, path, -⟩ <;>
        simp [path]
    simp at short
  rw [getPteInto, table]

theorem buildPageTables_trees (m : Mem) (bmStart : u64) {s : Vmm} (hm : s.mem = buildPageTables m pt)
    (hpmm : s.pmm = init bmStart bi) : Trees (· = pt) s := by
  have zero : pt = frameAt pt 0 := (frameAt_zero pt).symm
  -- each table is one of six frames, whose number tells the path
  have place : ∀ q u, descend link s.mem pt q = some u → ∃ k, k < 6 ∧ u = frameAt pt k ∧
      q = if k = 0 then [] else if k = 1 then [0#9] else [0#9, BitVec.ofNat 9 (k - 2)] := by
    intro q u hu
    rw [hm] at hu
    rcases buildPageTables_reached hb m hu with ⟨rfl, rfl⟩ | ⟨rfl, rfl⟩ | ⟨j, hj, rfl, rfl⟩
    · exact ⟨0, by decide, zero, rfl⟩
    · exact ⟨1, by decide, rfl, rfl⟩
    · refine ⟨j.toNat + 2, by omega, rfl, ?_⟩
      simp
  refine ⟨?_, ?_⟩
  · rintro a b q r u rfl rfl - - hu hu'
    obtain ⟨k, hk, rfl, rfl⟩ := place q u hu
    obtain ⟨l, hl, heq, rfl⟩ := place r _ hu'
    rw [hb.inj hk hl heq]
  · rintro u ⟨a, q, rfl, -, hu⟩
    obtain ⟨k, hk, rfl, -⟩ := place q u hu
    exact hb.used bmStart hpmm hk

end

/-- Frames in use that are no tables stay in use, and do not become tables. -/
def SparesData (pt : u64) (s t : Vmm) : Prop := ∀ f, Used s f → ¬ Tables (· = pt) s.mem f →
  Used t f ∧ ¬ Tables (· = pt) t.mem f

section

variable {pt phys : u64} {bi : Option BootInfo} {split : Index → u64 → Prop}
  {is : Role → u64 → Prop} {s t u : Vmm}

theorem SparesData.refl (pt : u64) (s : Vmm) : SparesData pt s s := fun _ hf hn => ⟨hf, hn⟩

theorem SparesData.trans (h : SparesData pt s t) (h' : SparesData pt t u) : SparesData pt s u :=
  fun f hf hn => h' f (h f hf hn).1 (h f hf hn).2

theorem SparesData.of_extends (x : Extends (· = pt) s t) : SparesData pt s t :=
  fun f hf hn => ⟨hf.mono x.bits, (x.frames f hf hn).2⟩

/-- The smoke test grows the tables of slot 511, gives its page back and leaves no page. -/
theorem Booting.smokeTest_trees (h : Booting pt split is s) (trees : Trees (· = pt) s)
    (ht : Boot.smokeTest s = some t) : Trees (· = pt) t ∧ SparesData pt s t ∧
      ∀ w, getPteInto s.mem pt w = 0 → getPteInto t.mem pt w = 0 := by
  obtain ⟨i, p, q, htake, -, hq, hpresent, rfl⟩ := smokeTest_some ht
  obtain ⟨hpml4, is', h2, -, -, -, hslot⟩ := h.testMapped htake hq hpresent
  have x1 := trees.takes htake
  obtain ⟨x2, -, other2⟩ :=
    x1.trees.mapPageInto rfl TEST_VA (pageAddr i) (PTE_PRESENT ||| PTE_WRITABLE)
  rw [hpml4, hq] at x2 other2
  -- the test page was free
  have blank : ¬ Tables (· = pt) s.mem (pageAddr i) := fun hd =>
    not_used_free htake le_rfl (by omega) (trees.used _ hd)
  have page : ¬ Tables (· = pt) q.mem (pageAddr i) :=
    (x2.frames (pageAddr i) (used_taken htake le_rfl (by omega)) blank).2
  obtain ⟨trees3, tables3, other3⟩ := x2.trees.data (m := write q.mem (pageAddr i) 0#9 SENTINEL)
    fun u hu => write_of_table_ne fun heq => page (heq ▸ hu)
  have apart : pt ≠ pageAddr i := fun heq => page ⟨pt, [], rfl, by simp, by rw [heq]; rfl⟩
  obtain ⟨u, hu⟩ : ∃ u : Vmm, u = { q with mem := write q.mem (pageAddr i) 0#9 SENTINEL } := ⟨_, rfl⟩
  have root : u.pml4Phys = pt := by
    rw [hu]
    exact h2.pml4Phys
  have ps : has (u.mem u.pml4Phys (pml4Idx TEST_VA)) PTE_PS = false := by
    rw [root, hu]
    simp only [write_of_table_ne apart]
    exact isTable_ps hslot
  have spared : SparesData pt s u := by
    intro f hf hn
    obtain ⟨used, data⟩ := SparesData.of_extends (x1.trans x2) f hf hn
    rw [hu]
    exact ⟨used, fun hd => data ((tables3 f).mp hd)⟩
  have before : ∀ w, vpn w ≠ vpn TEST_VA → getPteInto u.mem pt w = getPteInto s.mem pt w := by
    intro w hw
    rw [hu]
    exact (other3 pt w rfl).trans (other2 pt w rfl (.inr hw))
  rw [← hu] at trees3 ⊢
  have x4 := trees3.unmapPageFrom (a := pt) rfl TEST_VA
  obtain ⟨here4, other4⟩ := trees3.unmapPageFrom_pte (a := pt) rfl TEST_VA
  rw [← root, ← unmapPage_eq u TEST_VA ps, root] at x4 here4 other4
  refine ⟨x4.trees.freePage ?_, fun f hf hn => ?_, fun w blank => ?_⟩
  · rw [pageOf_pageAddr htake.within]
    have data : ¬ Tables (· = pt) u.mem (pageAddr i) := by
      rw [hu]
      exact fun hd => page ((tables3 _).mp hd)
    refine (x4.frames (pageAddr i) ?_ data).2
    rw [hu]
    exact Used.mono (used_taken htake le_rfl (by omega)) x2.bits
  · obtain ⟨used, data⟩ := (spared.trans (.of_extends x4)) f hf hn
    refine ⟨used.freePage fun given => not_used_free htake le_rfl (Nat.lt_succ_self i) ?_, data⟩
    rw [pageOf_pageAddr htake.within] at given
    exact given ▸ hf
  · by_cases test : vpn w = vpn TEST_VA
    · rw [getPteInto_eq, entries, (path_eq_iff w TEST_VA).mpr test, ← entries, ← getPteInto_eq]
      exact here4
    · exact (other4 pt w rfl test).trans ((before w test).trans blank)

/-- The shared page's block is split by a page table at the end of a path. -/
theorem Booting.mapShared_trees (hb : TablesAt pt bi)
    (h : Booting pt (fun i e => e = splitEntry phys i) is s)
    (hpds : ∀ j, j < 4 → s.mem (pdAddr pt j) = pdEntry j) (trees : Trees (· = pt) s) :
    Trees (· = pt) (mapSharedUserData s phys).2 ∧ SparesData pt s (mapSharedUserData s phys).2 := by
  rw [mapSharedUserData_eq hb h hpds]
  have first := h.typed.entry _ _ 0#9 ((h.kroot pt).mpr rfl)
  have second : s.mem (pdptAddr pt) 1#9 = pdAddr pt 1 ||| 3#64 ∨
      s.mem (pdptAddr pt) 1#9 = tableEntry (pdAddr pt 1) := by
    simpa [roles, Role.ok, bootShape] using h.typed.entry _ _ 1#9 ((h.kpdpt _).mpr rfl)
  have leads : ∀ {f e : u64}, IsFrame f → e = f ||| 3#64 ∨ e = tableEntry f → link e = some f := by
    rintro f e hf (rfl | rfl)
    · exact link_super hf
    · exact link_tableEntry hf
  -- the USER bit changes no link
  have same : ∀ u i, link (Kernel.sharedUpper s.mem pt u i) = link (s.mem u i) := by
    intro u i
    rw [Kernel.sharedUpper]
    by_cases at2 : pdptAddr pt = u ∧ 1#9 = i
    · obtain ⟨rfl, rfl⟩ := at2
      rw [write_same, link_tableEntry (hb.pdFrame (by decide)), leads (hb.pdFrame (by decide)) second]
    · rw [write_of_ne fun hc => at2 ⟨hc.1.symm, hc.2.symm⟩]
      by_cases at1 : pt = u ∧ 0#9 = i
      · obtain ⟨rfl, rfl⟩ := at1
        rw [write_same, link_tableEntry hb.pdptFrame, leads hb.pdptFrame first]
      · rw [write_of_ne fun hc => at1 ⟨hc.1.symm, hc.2.symm⟩]
  obtain ⟨upper, tables⟩ := trees.agree (m := Kernel.sharedUpper s.mem pt) fun u _ => same u
  have spared : SparesData pt s { s with mem := Kernel.sharedUpper s.mem pt } :=
    fun f hf hn => ⟨hf, fun hd => hn ((tables f).mp hd)⟩
  rcases allocPage_cases s.pmm with ⟨k, hk, htake⟩ | ⟨h0, -⟩
  case inr =>
    simp only [h0, if_true]
    exact ⟨upper, spared⟩
  case inl =>
    generalize allocPage s.pmm = r at *
    have taken := upper.takes htake
    split
    case isTrue => exact ⟨taken.trees, spared.trans (.of_extends taken)⟩
    case isFalse =>
      rw [hk]
      have fresh : ¬ Tables (· = pt) (Kernel.sharedUpper s.mem pt) (pageAddr k) := fun hd =>
        not_used_free htake le_rfl (by omega) (trees.used _ ((tables _).mp hd))
      have hframe := isFrame_pageAddr (i := k) htake.within
      have way : descend link (Kernel.sharedUpper s.mem pt) pt [0#9, 1#9] = some (pdAddr pt 1) := by
        rw [descend, same, leads hb.pdptFrame first, Option.bind_some, descend, same,
          leads (hb.pdFrame (by decide)) second]
        rfl
      -- first a blank page table, whose entries do not matter at the end of a path
      have blank : ∀ _ : Index, link (0 : u64) = none := fun _ => link_zero
      have grafted := upper.forest.graft rfl (p := [0#9, 1#9]) (by decide) way fresh
        (i := 511#9) (link_tableEntry hframe) blank
      have there := descend_graft (i := 511#9) (t := fun _ => 0) (upper.forest.injective rfl)
        (p := [0#9, 1#9]) (by decide) way (fun q hq hd => fresh ⟨pt, q, rfl, hq, hd⟩)
        (link_tableEntry hframe)
      have filled : ∀ a q, a = pt → q.length ≤ 3 →
          descend link (write (fill (Kernel.sharedUpper s.mem pt) (pageAddr k) (splitEntry phys))
            (pdAddr pt 1) 511#9 (tableEntry (pageAddr k))) a q =
          descend link (graft (Kernel.sharedUpper s.mem pt) (pdAddr pt 1) 511#9 (pageAddr k)
            (fun _ => 0) (tableEntry (pageAddr k))) a q := by
        intro a q ha hq
        refine grafted.descend_last (p := [0#9, 1#9] ++ [511#9]) rfl rfl there (fun u hu => ?_) ha hq
        funext i
        by_cases at_ : u = pdAddr pt 1
        · subst at_
          simp only [graft, write, Function.update_self, fill_of_ne hu]
        · rw [graft, write_of_table_ne at_, write_of_table_ne at_, fill_of_ne hu, fill_of_ne hu]
      have came : ∀ u, Tables (· = pt) (write (fill (Kernel.sharedUpper s.mem pt) (pageAddr k)
          (splitEntry phys)) (pdAddr pt 1) 511#9 (tableEntry (pageAddr k))) u →
          Tables (· = pt) s.mem u ∨ u = pageAddr k := by
        rintro u ⟨a, q, rfl, hq, hd⟩
        rw [filled a q rfl hq] at hd
        rcases upper.forest.graft_cases rfl (p := [0#9, 1#9]) (by decide) way fresh
          (link_tableEntry hframe) blank rfl hq hd with hd | ⟨-, rfl⟩
        · exact .inl ((tables u).mp ⟨a, q, rfl, hq, hd⟩)
        · exact .inr rfl
      refine ⟨⟨grafted.congr filled, fun u hu => ?_⟩, fun f hf hn => ⟨hf.mono taken.bits, fun hd => ?_⟩⟩
      · rcases came u hu with old | rfl
        · exact (trees.used u old).mono taken.bits
        · exact used_taken htake le_rfl (by omega)
      · rcases came f hd with old | rfl
        · exact hn old
        · exact not_used_free htake le_rfl (by omega) hf

/-- The split is about low addresses only. -/
theorem Booting.mapShared_pte (hb : TablesAt pt bi)
    (h : Booting pt (fun i e => e = splitEntry phys i) is s)
    (hpds : ∀ j, j < 4 → s.mem (pdAddr pt j) = pdEntry j) {w : u64} (high : ¬ Low w) :
    getPteInto (mapSharedUserData s phys).2.mem pt w = getPteInto s.mem pt w := by
  have root : is .kroot pt := (h.kroot pt).mpr rfl
  have pdpt : is .kpdpt (pdptAddr pt) := (h.kpdpt _).mpr rfl
  have pd : is (.kpd 1) (pdAddr pt 1) := (h.kpd 1 _).mpr ⟨by decide, rfl⟩
  have ne : pdptAddr pt ≠ pt := (hb.pml4_ne (by decide) (by decide)).symm
  -- what is written: two entries of the kernel's tables, one of a page directory, a new frame
  have off : pt ≠ pdAddr pt 1 := hb.pml4_ne (k := 3) (by decide) (by decide)
  have writes : ∃ new : u64 → Prop, (∀ r t, is r t → ¬ new t) ∧
      (mapSharedUserData s phys).2.mem pt 0#9 = tableEntry (pdptAddr pt) ∧ ∀ t i, ¬ new t →
      ¬ (t = pt ∧ i = 0#9) → ¬ (t = pdptAddr pt ∧ i = 1#9) → t ≠ pdAddr pt 1 →
      (mapSharedUserData s phys).2.mem t i = s.mem t i := by
    have first := (sharedUpper_rows hb s.mem).1
    have upper : ∀ t i, ¬ (t = pt ∧ i = 0#9) → ¬ (t = pdptAddr pt ∧ i = 1#9) →
        Kernel.sharedUpper s.mem pt t i = s.mem t i := fun t i h1 h2 => by
      rw [Kernel.sharedUpper, write_of_ne h2, write_of_ne h1]
    rw [mapSharedUserData_eq hb h hpds]
    rcases allocPage_cases s.pmm with ⟨k, hk, htake⟩ | ⟨h0, -⟩
    case inr =>
      simp only [h0, if_true]
      exact ⟨fun _ => False, fun _ _ _ no => no, first, fun t i _ h1 h2 _ => upper t i h1 h2⟩
    case inl =>
      have fresh : ∀ r t, is r t → t ≠ pageAddr k := fun r t hr heq =>
        not_used_free htake le_rfl (by omega) (heq ▸ h.typed.used r t hr)
      refine ⟨(· = pageAddr k), fresh, ?_, fun t i hn h1 h2 h3 => ?_⟩
      · split
        case isTrue => exact first
        case isFalse =>
          rw [hk]
          simp only [write_of_table_ne off, fill_of_ne (fresh _ pt root), first]
      · split
        case isTrue => exact upper t i h1 h2
        case isFalse =>
          rw [hk]
          simp only [write_of_table_ne h3, fill_of_ne hn]
          exact upper t i h1 h2
  obtain ⟨new, fresh, first, same⟩ := writes
  have soft : ∀ n t i, is (.soft n) t → (mapSharedUserData s phys).2.mem t i = s.mem t i := by
    intro n t i ht
    refine same t i (fresh _ t ht) ?_ ?_ ?_
    · rintro ⟨rfl, -⟩
      cases h.typed.alone _ _ _ ht root trivial
    · rintro ⟨rfl, -⟩
      cases h.typed.alone _ _ _ ht pdpt trivial
    · rintro rfl
      cases h.typed.alone _ _ _ ht pd trivial
  have e0 : ∀ i, i ≠ 0#9 → (mapSharedUserData s phys).2.mem pt i = s.mem pt i := fun i hi =>
    same pt i (fresh _ pt root) (fun no => hi no.2) (fun no => ne no.1.symm) fun heq => by
      cases h.typed.alone _ _ _ root (show is (.kpd 1) pt from heq.symm ▸ pd) trivial
  by_cases low : pml4Idx w = 0#9
  case neg =>
    -- the walk goes on in tables of slot 511
    have closed : ∀ (r : Role) (i : Index), (∃ n, r = .soft n) →
        1 < (roles (bootShape pt fun i e => e = splitEntry phys i)).rank r →
        ∃ n, r.child i = .soft n := by
      rintro r i ⟨n, rfl⟩ -
      exact ⟨n - 1, rfl⟩
    have unchanged : ∀ (r : Role) t, (∃ n, r = .soft n) → is r t →
        (mapSharedUserData s phys).2.mem t = s.mem t := by
      rintro r t ⟨n, rfl⟩ ht
      funext i
      exact soft n t i ht
    have below : ∀ c, link (s.mem pt (pml4Idx w)) = some c →
        walk link (mapSharedUserData s phys).2.mem c [pdptIdx w, pdIdx w, ptIdx w] =
          walk link s.mem c [pdptIdx w, pdIdx w, ptIdx w] := fun c hc => by
      have role := h.typed.linked .kroot pt _ c (show 1 < 4 by decide) root hc
      have role : is (.soft 3) c := by
        simpa only [roles, Role.child, if_neg low] using role
      exact walk_eq_of_roles (roles _).rank_child h.typed.linked closed unchanged role ⟨3, rfl⟩ le_rfl
    rw [getPteInto_eq, getPteInto_eq, VMM.entries, VMM.entries, path, walk_cons_cons,
      walk_cons_cons, e0 _ low]
    cases hc : link (s.mem pt (pml4Idx w)) with
    | none => rfl
    | some c => rw [Option.elim_some, Option.elim_some, below c hc]
  case pos =>
    -- the kernel's PDPT has nothing above 4 GB
    have above : ¬ (pdptIdx w).toNat < 4 := fun four => high ⟨low, four⟩
    have empty : s.mem (pdptAddr pt) (pdptIdx w) = 0 := by
      have entry := h.typed.entry _ _ (pdptIdx w) pdpt
      simpa only [roles, Role.ok, bootShape, if_neg above] using entry
    have later : (mapSharedUserData s phys).2.mem (pdptAddr pt) (pdptIdx w) = 0 := by
      refine (same _ _ (fresh _ _ pdpt) (fun no => ne no.1) (fun no => above ?_) fun heq => ?_).trans
        empty
      · rw [no.2]
        decide
      · cases h.typed.alone _ _ _ pdpt (show is (.kpd 1) (pdptAddr pt) from heq.symm ▸ pd) trivial
    have none : ∀ m : Mem, link (m pt 0#9) = some (pdptAddr pt) →
        m (pdptAddr pt) (pdptIdx w) = 0 → getPteInto m pt w = 0 := by
      intro m root zero
      have table : pageTable m pt w = none := by
        rw [pageTable_eq, low, descend, root, Option.bind_some, descend, zero, link_zero]
        rfl
      rw [getPteInto, table]
    have before : link (s.mem pt 0#9) = some (pdptAddr pt) := by
      rcases h.typed.entry _ _ 0#9 root with e | e
      · rw [e, link_super hb.pdptFrame]
      · rw [e, link_tableEntry hb.pdptFrame]
    have after : link ((mapSharedUserData s phys).2.mem pt 0#9) = some (pdptAddr pt) := by
      rw [first, link_tableEntry hb.pdptFrame]
    rw [none _ after later, none _ before empty]

theorem Booting.kuserInit_trees (hb : TablesAt pt bi) (h : Booting pt split is s)
    (hno : ∀ u, ¬ is .ksplit u) (hpds : ∀ j, j < 4 → s.mem (pdAddr pt j) = pdEntry j)
    (trees : Trees (· = pt) s) (page : Table) :
    Trees (· = pt) (Boot.kuserInit s page).2 ∧ SparesData pt s (Boot.kuserInit s page).2 ∧
      (Boot.kuserInit s page).2.pml4Phys = pt ∧
      ∀ w, ¬ Low w → getPteInto (Boot.kuserInit s page).2.mem pt w = getPteInto s.mem pt w := by
  rw [Boot.kuserInit]
  rcases allocPage_cases s.pmm with ⟨k, hk, htake⟩ | ⟨h0, -⟩
  case inr =>
    rw [h0, if_pos rfl]
    exact ⟨trees, .refl pt s, h.pml4Phys, fun _ _ => rfl⟩
  case inl =>
    generalize allocPage s.pmm = r at *
    split
    case isTrue =>
      exact ⟨(trees.takes htake).trees, .of_extends (trees.takes htake), h.pml4Phys, fun _ _ => rfl⟩
    case isFalse =>
      rw [hk]
      obtain ⟨h2, same⟩ := h.dataPage hno htake page (splitEntry (pageAddr k))
      have pds : ∀ j, j < 4 → ({ s with pmm := r.2, mem := fill s.mem (pageAddr k) page } : Vmm).mem
          (pdAddr pt j) = pdEntry j := fun j hj => by
        simp only [same _ _ ((h.kpd j _).mpr ⟨hj, rfl⟩), hpds j hj]
      obtain ⟨filled, -, -, rest⟩ := trees.newPage htake page
      obtain ⟨shared, spared⟩ := Booting.mapShared_trees hb h2 pds filled.trees
      refine ⟨shared, (SparesData.of_extends filled).trans spared, ?_, fun w high => ?_⟩
      · rw [mapSharedUserData_eq hb h2 pds]
        split <;> exact h.pml4Phys
      · exact (h2.mapShared_pte hb pds high).trans ((trees.data rest).2.2 pt w rfl)

/-- **Boot leaves one tree** of page tables, the kernel's, with no page above 4 GB. No frame
in use becomes a table but the six of the bootloader. -/
theorem boot_trees (hb : TablesAt pt bi) {m : Mem} {bmStart : u64} {page : Table} {shown : Bool}
    (h : boot m pt bmStart bi page = some (shown, s)) :
    Trees (· = pt) s ∧ s.pml4Phys = pt ∧
      SparesData pt { mem := buildPageTables m pt, pmm := init bmStart bi, pml4Phys := pt } s ∧
      ∀ w, ¬ Low w → getPteInto s.mem pt w = 0 := by
  have hpt : pt &&& PTE_ADDR_MASK = pt := frameAt_zero pt ▸ hb.isFrame (k := 0) (by decide)
  simp only [Boot.boot, hpt] at h
  split at h
  case isTrue => cases h
  case isFalse hheap =>
    obtain ⟨s', hs', heq⟩ := Option.map_eq_some_iff.mp h
    have hstart := booting_start hb m bmStart fun _ _ => True
    have tstart := buildPageTables_trees hb m bmStart
      (s := { mem := buildPageTables m pt, pmm := init bmStart bi, pml4Phys := pt }) rfl rfl
    rcases allocPages_cases (init bmStart bi) HEAP_PAGES with ⟨i, -, -, htake⟩ | h0
    case inr => rw [h0] at hheap; exact absurd rfl hheap
    case inl =>
      have heap := hstart.takes htake
      obtain ⟨is', h1, -, hsplit, hpds, -⟩ := heap.smokeTest hs'
      have grown := tstart.takes htake
      obtain ⟨trees, tested, blank⟩ := heap.smokeTest_trees grown.trees hs'
      obtain ⟨done, spared, root, rest⟩ := h1.kuserInit_trees hb (fun u hu => hsplit u hu) (fun j hj => by
        rw [hpds j hj]
        simp only [buildPageTables_pd hb m hj]) trees page
      rw [heq] at done spared root rest
      refine ⟨done, root, ((SparesData.of_extends grown).trans tested).trans spared, fun w high => ?_⟩
      exact (rest w high).trans (blank w (buildPageTables_pte hb m w))

/-- The first page of memory is never a table, unless the bootloader made it one. -/
theorem boot_null (hb : TablesAt pt bi) (hpt : pt ≠ 0) {m : Mem} {bmStart : u64} {page : Table}
    {shown : Bool} (h : boot m pt bmStart bi page = some (shown, s)) :
    Used s 0 ∧ ¬ Tables (· = pt) s.mem 0 := by
  obtain ⟨-, -, spared, -⟩ := boot_trees hb h
  refine spared 0 (fun q hq free heq => ?_) ?_
  · obtain ⟨-, -, low⟩ := (init_free_iff bmStart bi q).mp free
    have place := congrArg BitVec.toNat heq
    rw [pageAddr_toNat hq, show (0 : u64).toNat = 0 from rfl] at place
    simp only [LOW_PAGES, PAGE_SIZE] at low place
    omega
  · rintro ⟨a, q, rfl, -, hd⟩
    rcases buildPageTables_reached hb m hd with ⟨-, h0⟩ | ⟨-, h0⟩ | ⟨j, hj, -, h0⟩
    · exact hpt h0.symm
    · have place := hb.toNat (k := 1) (by decide)
      rw [show frameAt a 1 = 0 from h0.symm, show (0 : u64).toNat = 0 from rfl] at place
      simp only [PAGE_SIZE] at place
      omega
    · exact hb.pdAddr_ne_zero hj h0.symm

end

end MicroNT.Kernel
