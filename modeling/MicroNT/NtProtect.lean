import MicroNT.KernelSpaces

/-! # NtProtectVirtualMemory

The call rewrites the leaf entry of every mapped page of its range. A page of the
caller alone is a user page already; a page reached through shared tables is seen
by every address space, so the call is confined exactly when it gives such a page
the rights it has. -/

namespace MicroNT.Kernel

open MicroNT.PMM hiding step Op System
open MicroNT.VMM MicroNT.Boot MicroNT.Base.Radix MicroNT.Base.Machine

/-! ## What the loop writes -/

/-- `ProtectPageInto` on `v` rewrites entry `i` of table `t`. -/
def Hits (m : Mem) (p v t : u64) (i : Index) : Prop :=
  pageTable m p v = some t ∧ ptIdx v = i ∧ has (m t i) PTE_PRESENT = true

theorem leafEntry_leafEntry (e f : u64) (hf : f &&& PTE_ADDR_MASK = 0) :
    leafEntry (leafEntry e f) f = leafEntry e f := by
  have h1 : PTE_PRESENT &&& PTE_ADDR_MASK = 0#64 := by decide
  rw [leafEntry, leafEntry, BitVec.and_or_distrib_right, BitVec.and_or_distrib_right, hf, h1,
    BitVec.and_assoc, BitVec.and_self]
  exact congrArg (· ||| (f ||| PTE_PRESENT)) (BitVec.or_zero)

/-- A leaf keeps its frame when it is protected; its rights are the flags'. -/
theorem leafEntry_bits (e : u64) (w : Bool) :
    leafEntry e (userFlags w) &&& PTE_ADDR_MASK = e &&& PTE_ADDR_MASK ∧
      has (leafEntry e (userFlags w)) PTE_USER = true ∧
      has (leafEntry e (userFlags w)) PTE_WRITABLE = w := by
  have h1 : PTE_PRESENT &&& PTE_ADDR_MASK = 0#64 := by decide
  refine ⟨?_, leafEntry_user _ _ (userFlags_user w), ?_⟩
  · rw [leafEntry, BitVec.and_or_distrib_right, BitVec.and_or_distrib_right, userFlags_mask, h1,
      BitVec.and_assoc, BitVec.and_self]
    exact BitVec.or_zero
  · have hw := userFlags_writable w
    rw [has_writable] at hw
    rw [has_writable, leafEntry, BitVec.getLsbD_or, BitVec.getLsbD_or, hw,
      isFrame_bits (isFrame_and e) (i := 1) (by omega)]
    simp

theorem protectPageInto_mem (s : Vmm) (p v f t : u64) (i : Index) :
    (Hits s.mem p v t i → (protectPageInto s p v f).2.mem t i = leafEntry (s.mem t i) f) ∧
      (¬ Hits s.mem p v t i → (protectPageInto s p v f).2.mem t i = s.mem t i) := by
  unfold protectPageInto
  cases hpt : pageTable s.mem p v with
  | none =>
    refine ⟨fun h => ?_, fun _ => rfl⟩
    have := h.1
    rw [hpt] at this
    cases this
  | some pt =>
    simp only
    cases hp : has (s.mem pt (ptIdx v)) PTE_PRESENT with
    | false =>
      refine ⟨fun h => ?_, fun _ => rfl⟩
      obtain ⟨h1, h2, h3⟩ := h
      obtain rfl := Option.some.inj (hpt.symm.trans h1)
      rw [← h2, hp] at h3
      cases h3
    | true =>
      refine ⟨fun h => ?_, fun h => ?_⟩
      · obtain ⟨h1, h2, -⟩ := h
        obtain rfl := Option.some.inj (hpt.symm.trans h1)
        rw [← h2]
        exact write_same _ _ _ _
      · refine write_of_ne fun heq => h ?_
        obtain ⟨rfl, rfl⟩ := heq
        exact ⟨hpt, rfl, hp⟩

section

variable {R : Rows} {shown : Bool} {split : Index → u64 → Prop} {Ok : Nat → Prop}
  {is : Role → u64 → Prop} {s : System}

/-- A protected page table is a page table: the tables above stay. -/
theorem Inv.protect_upper (h : Inv R split Ok is s) {p v f : u64} (hp : p ∈ s.spaces) (r : Role)
    (t : u64) (ht : is r t) (hr : 1 < (roles (R.shape split)).rank r) :
    (protectPageInto s.vmm p v f).2.mem t = s.vmm.mem t := by
  funext i
  refine (protectPageInto_mem s.vmm p v f t i).2 fun hit => ?_
  have hleaf := h.typed.pageTable (h.spaces p hp) rfl hit.1
  have hrank := ((roles (R.shape split)).ranks (r := .root p) rfl v).2.2
  obtain rfl := h.typed.alone _ _ _ ht hleaf trivial
  omega

/-- Entry `i` of table `t` is hit by one of the pages from `k` on. -/
def HitsAny (m : Mem) (p base : u64) (k n : Nat) (t : u64) (i : Index) : Prop :=
  ∃ j, k ≤ j ∧ j < k + n ∧ Hits m p (base + pageAddr j) t i

/-- **The loop** rewrites each entry that a page of the range hits, once. -/
theorem Inv.protectPages_mem {p base : u64} {w : Bool} (hp : p ∈ s.spaces) (n k : Nat) {v : Vmm}
    (h : Inv R (fun _ _ => True) Ok is { s with vmm := v }) (t : u64) (i : Index) :
    (HitsAny v.mem p base k n t i →
        (Kernel.protectPages p base (userFlags w) n k v).mem t i = leafEntry (v.mem t i) (userFlags w)) ∧
      (¬ HitsAny v.mem p base k n t i →
        (Kernel.protectPages p base (userFlags w) n k v).mem t i = v.mem t i) := by
  induction n generalizing k v with
  | zero => exact ⟨fun ⟨j, h1, h2, _⟩ => by omega, fun _ => rfl⟩
  | succ n ih =>
    have hstep := h.protect (v := base + pageAddr k) (w := w) hp fun _ _ _ => trivial
    obtain ⟨hit, miss⟩ := protectPageInto_mem v p (base + pageAddr k) (userFlags w) t i
    have upper := h.protect_upper (v := base + pageAddr k) (f := userFlags w) hp
    -- a later page hits the same entries as before the step
    have later : ∀ a, Hits (protectPageInto v p (base + pageAddr k) (userFlags w)).2.mem p a t i ↔
        Hits v.mem p a t i := by
      intro a
      have hpres : has ((protectPageInto v p (base + pageAddr k) (userFlags w)).2.mem t i)
          PTE_PRESENT = has (v.mem t i) PTE_PRESENT := by
        by_cases hh : Hits v.mem p (base + pageAddr k) t i
        · rw [hit hh, leafEntry_present, hh.2.2]
        · rw [miss hh]
      rw [Hits, Hits, h.typed.pageTable_leaf upper (h.spaces p hp) rfl, hpres]
    have any : HitsAny (protectPageInto v p (base + pageAddr k) (userFlags w)).2.mem p base (k + 1)
        n t i ↔ HitsAny v.mem p base (k + 1) n t i :=
      exists_congr fun j => by rw [later]
    obtain ⟨ih1, ih2⟩ := ih (k + 1) hstep
    rw [any] at ih1 ih2
    have split : HitsAny v.mem p base k (n + 1) t i ↔
        Hits v.mem p (base + pageAddr k) t i ∨ HitsAny v.mem p base (k + 1) n t i := by
      constructor
      · intro ⟨j, h1, h2, hj⟩
        rcases Nat.eq_or_lt_of_le h1 with rfl | hlt
        · exact .inl hj
        · exact .inr ⟨j, hlt, by omega, hj⟩
      · intro hh
        rcases hh with hh | ⟨j, h1, h2, hj⟩
        · exact ⟨k, le_rfl, by omega, hh⟩
        · exact ⟨j, by omega, by omega, hj⟩
    rw [split]
    show (_ → (Kernel.protectPages p base (userFlags w) n (k + 1) _).mem t i = _) ∧
      (_ → (Kernel.protectPages p base (userFlags w) n (k + 1) _).mem t i = _)
    by_cases hl : HitsAny v.mem p base (k + 1) n t i
    · rw [ih1 hl]
      refine ⟨fun _ => ?_, fun hn => absurd (.inr hl) hn⟩
      by_cases hh : Hits v.mem p (base + pageAddr k) t i
      · rw [hit hh, leafEntry_leafEntry _ _ (userFlags_mask w)]
      · rw [miss hh]
    · rw [ih2 hl]
      exact ⟨fun hh => hit (hh.resolve_right hl), fun hn => miss fun hh => hn (.inl hh)⟩

/-! ## Confinement -/

/-- The call changes nothing in any other address space, the kernel's included,
and in its own opens nothing that was closed to ring 3: no supervisor address
and not the shared page for writing. -/
structure Confined (s t : System) (cr3 : u64) : Prop where
  others : ∀ pml4, s.IsSpace pml4 → pml4 ≠ cr3 → ∀ v, SameView s.vmm.mem t.vmm.mem pml4 v
  reads : ∀ v, userReads t.vmm.mem cr3 v = true → userReads s.vmm.mem cr3 v = true
  kuser : ∀ v, vpn v = vpn KUSER_VA → userWrites t.vmm.mem cr3 v = true →
    userWrites s.vmm.mem cr3 v = true

/-- A page of the range that goes through shared tables and is mapped is mapped
for users already, and writable exactly if the call makes it so. -/
def KeepsShared (s : System) (cr3 a1 a2 a3 : u64) : Prop :=
  ∀ k, k < (protectSpan a1 a2).toNat → Shared (protectBase a1 + pageAddr k) →
    has (getPteInto s.vmm.mem cr3 (protectBase a1 + pageAddr k)) PTE_PRESENT = true →
    has (getPteInto s.vmm.mem cr3 (protectBase a1 + pageAddr k)) PTE_USER = true ∧
      has (getPteInto s.vmm.mem cr3 (protectBase a1 + pageAddr k)) PTE_WRITABLE =
        (a3 &&& 0xCC#64 != 0#64)

/-- The kernel's own leaves are shared. -/
theorem leaf_kernel (σ : Shape) (p v : u64) : (roles σ).leaf .kroot v ≠ .own p 1 := by
  simp only [Roles.leaf, Roles.pd, Roles.pdpt, roles, Role.child]
  by_cases h0 : pml4Idx v = 0#9 <;> simp [h0]

/-- A page table that another address space reaches too is shared. -/
theorem Inv.shared_of_other (h : Inv R split Ok is s) {p pml4 v w pt : u64} (hp : p ∈ s.spaces)
    (hpt : pageTable s.vmm.mem p v = some pt) (hq : s.IsSpace pml4) (hne : pml4 ≠ p)
    (hpt' : pageTable s.vmm.mem pml4 w = some pt) : Shared v := by
  by_contra hn
  have hleaf := h.typed.pageTable (h.spaces p hp) rfl hpt
  have hlow : ¬ Low v := fun hl => hn (.inl hl)
  have hsoft : ¬ pml4Idx v = SOFT_SLOT := fun hs => hn (.inr hs)
  rw [leaf_eq, leafRole, if_neg hlow, if_neg hsoft] at hleaf
  rcases h.role hq with hr | hr
  · have hleaf' := h.typed.pageTable hr rfl hpt'
    exact leaf_kernel _ p w (h.typed.alone _ _ _ hleaf' hleaf trivial)
  · have hleaf' := h.typed.pageTable hr rfl hpt'
    have heq := h.typed.alone _ _ _ hleaf' hleaf trivial
    rw [leaf_eq, leafRole] at heq
    split at heq
    case isTrue => cases heq
    case isFalse =>
      split at heq
      case isTrue => cases heq
      case isFalse =>
        injection heq with heq _
        exact hne heq

section Call

variable {t : System} {cr3 a1 a2 a3 : u64} (h : Inv R (fun _ _ => True) Ok is s)
  (hg : R.Good shown) (hp : cr3 ∈ s.spaces) (ht : Kernel.step s (.ntProtectVm cr3 a1 a2 a3) = some t)
include h hp ht

theorem Inv.call_mem (u : u64) (i : Index) :
    (HitsAny s.vmm.mem cr3 (protectBase a1) 0 (protectSpan a1 a2).toNat u i →
        t.vmm.mem u i = leafEntry (s.vmm.mem u i) (userFlags (a3 &&& 0xCC#64 != 0#64))) ∧
      (¬ HitsAny s.vmm.mem cr3 (protectBase a1) 0 (protectSpan a1 a2).toNat u i →
        t.vmm.mem u i = s.vmm.mem u i) := by
  simp only [Kernel.step, if_pos hp, Option.some.injEq] at ht
  subst ht
  exact Inv.protectPages_mem hp _ 0 h u i

theorem Inv.call_upper (r : Role) (u : u64) (hu : is r u)
    (hr : 1 < (roles (R.shape fun _ _ => True)).rank r) : t.vmm.mem u = s.vmm.mem u := by
  funext i
  refine (h.call_mem hp ht u i).2 fun ⟨j, _, _, hit⟩ => ?_
  have hleaf := h.typed.pageTable (h.spaces cr3 hp) rfl hit.1
  have hrank := ((roles (R.shape fun _ _ => True)).ranks (r := .root cr3) rfl
    (protectBase a1 + pageAddr j)).2.2
  obtain rfl := h.typed.alone _ _ _ hu hleaf trivial
  omega

include hg

/-- The views of a mapped address before and after the call. -/
theorem Inv.call_view {v pt : u64} (hpt : pageTable s.vmm.mem cr3 v = some pt) (w : Bool) :
    userCan w (entries s.vmm.mem cr3 v) = (has (s.vmm.mem pt (ptIdx v)) PTE_PRESENT &&
        has (s.vmm.mem pt (ptIdx v)) PTE_USER &&
        (!w || has (s.vmm.mem pt (ptIdx v)) PTE_WRITABLE)) ∧
      userCan w (entries t.vmm.mem cr3 v) = (has (t.vmm.mem pt (ptIdx v)) PTE_PRESENT &&
        has (t.vmm.mem pt (ptIdx v)) PTE_USER &&
        (!w || has (t.vmm.mem pt (ptIdx v)) PTE_WRITABLE)) := by
  obtain ⟨pdpt, pd, hv⟩ := pageTable_eq_some.mp hpt
  have ho := h.open_above hg hp hv
  obtain ⟨hv', e1, e2, e3⟩ :=
    h.typed.reaches_leaf (h.call_upper hp ht) (h.spaces cr3 hp) rfl hv
  exact ⟨hv.userCan ho w, hv'.userCan (open_congr ho e1 e2 e3) w⟩

/-- A call that is confined keeps the rights of shared pages. -/
theorem Inv.keepsShared (hc : Confined s t cr3) : KeepsShared s cr3 a1 a2 a3 := by
  intro k hk hs hpres
  obtain ⟨pt, hpt⟩ := getPteInto_present hpres
  rw [getPteInto_some hpt] at hpres ⊢
  generalize hv : protectBase a1 + pageAddr k = v at *
  have hit : HitsAny s.vmm.mem cr3 (protectBase a1) 0 (protectSpan a1 a2).toNat pt (ptIdx v) :=
    ⟨k, Nat.zero_le k, by omega, by rw [hv]; exact ⟨hpt, rfl, hpres⟩⟩
  have hnew := (h.call_mem hp ht pt (ptIdx v)).1 hit
  obtain ⟨-, hu', hw'⟩ := leafEntry_bits (s.vmm.mem pt (ptIdx v)) (a3 &&& 0xCC#64 != 0#64)
  -- the page is user-accessible after the call, so it was before
  obtain ⟨hread, hread'⟩ := h.call_view hg hp ht hpt false
  have huser : has (s.vmm.mem pt (ptIdx v)) PTE_USER = true := by
    have hr := hc.reads v (by rw [userReads, hread', hnew, leafEntry_present, hu']; rfl)
    rw [userReads, hread, hpres] at hr
    simpa using hr
  refine ⟨huser, ?_⟩
  -- the kernel's view of the page did not change
  obtain ⟨pdpt, pd, hreach⟩ := pageTable_eq_some.mp hpt
  obtain ⟨pdpt', hk, ho⟩ := h.kernel_reaches hg hp hs hreach
  obtain ⟨hk', e1, e2, e3⟩ := h.typed.reaches_leaf (h.call_upper hp ht) h.root rfl hk
  have hne : s.vmm.pml4Phys ≠ cr3 := by
    intro heq
    have := h.typed.alone _ _ _ h.root (heq ▸ h.spaces cr3 hp) trivial
    cases this
  have hsame := (hc.others _ (.inl rfl) hne v).writes
  rw [userWrites, userWrites, hk.userCan ho, hk'.userCan (open_congr ho e1 e2 e3), hnew,
    leafEntry_present, hu', hw', hpres, huser] at hsame
  simpa using hsame.symm

/-- A call that keeps the rights of shared pages is confined. -/
theorem Inv.confined (hk : KeepsShared s cr3 a1 a2 a3) : Confined s t cr3 := by
  -- a hit entry of a shared table keeps its frame and rights
  have keeps : ∀ j pt i, j < (protectSpan a1 a2).toNat → Shared (protectBase a1 + pageAddr j) →
      Hits s.vmm.mem cr3 (protectBase a1 + pageAddr j) pt i →
      has (s.vmm.mem pt i) PTE_USER = true ∧
        has (s.vmm.mem pt i) PTE_WRITABLE = (a3 &&& 0xCC#64 != 0#64) := by
    intro j pt i hj hs ⟨hpt, hi, hpres⟩
    have := hk j hj hs
    rw [getPteInto_some hpt, hi] at this
    exact this hpres
  refine ⟨fun pml4 hq hne v => ?_, fun v hr => ?_, fun v hv hw => ?_⟩
  · obtain ⟨r, hr, hrank⟩ : ∃ r, is r pml4 ∧ (roles (R.shape fun _ _ => True)).rank r = 4 := by
      rcases h.role hq with hr | hr <;> exact ⟨_, hr, rfl⟩
    refine h.typed.sameView_leaf (h.call_upper hp ht) hr hrank fun pt hpt => ?_
    by_cases hh : HitsAny s.vmm.mem cr3 (protectBase a1) 0 (protectSpan a1 a2).toNat pt (ptIdx v)
    · rw [(h.call_mem hp ht pt (ptIdx v)).1 hh]
      obtain ⟨j, -, hj, hit⟩ := hh
      have hs := h.shared_of_other hp hit.1 hq hne hpt
      obtain ⟨hu, hw⟩ := keeps j pt _ (by omega) hs hit
      obtain ⟨hf, hu', hw'⟩ := leafEntry_bits (s.vmm.mem pt (ptIdx v)) (a3 &&& 0xCC#64 != 0#64)
      exact ⟨hf, by rw [leafEntry_present, hit.2.2], by rw [hu', hu], by rw [hw', hw]⟩
    · rw [(h.call_mem hp ht pt (ptIdx v)).2 hh]
      exact ⟨rfl, rfl, rfl, rfl⟩
  · cases hpt : pageTable s.vmm.mem cr3 v with
    | none =>
      have hsame := h.typed.entries_leaf (h.call_upper hp ht) (h.spaces cr3 hp) rfl hpt
      rwa [userReads, hsame] at hr
    | some pt =>
      obtain ⟨hread, hread'⟩ := h.call_view hg hp ht hpt false
      by_cases hh : HitsAny s.vmm.mem cr3 (protectBase a1) 0 (protectSpan a1 a2).toNat pt (ptIdx v)
      · obtain ⟨j, -, hj, hit⟩ := hh
        have hu : has (s.vmm.mem pt (ptIdx v)) PTE_USER = true := by
          by_cases hs : Shared (protectBase a1 + pageAddr j)
          · exact (keeps j pt _ (by omega) hs hit).1
          · exact h.private_user hp hs hit.1 hit.2.2
        rw [userReads, hread, hit.2.2, hu]
        rfl
      · rw [userReads, hread', (h.call_mem hp ht pt (ptIdx v)).2 hh, ← hread] at hr
        exact hr
  · cases hpt : pageTable s.vmm.mem cr3 v with
    | none =>
      have hsame := h.typed.entries_leaf (h.call_upper hp ht) (h.spaces cr3 hp) rfl hpt
      rwa [userWrites, hsame] at hw
    | some pt =>
      obtain ⟨hwrite, hwrite'⟩ := h.call_view hg hp ht hpt true
      by_cases hh : HitsAny s.vmm.mem cr3 (protectBase a1) 0 (protectSpan a1 a2).toNat pt (ptIdx v)
      · obtain ⟨j, -, hj, hit⟩ := hh
        -- the page table of the shared page is the split block's
        have hlow : Low v := by
          have hpath := (path_eq_iff v KUSER_VA).mpr hv
          simp only [path, List.cons.injEq] at hpath
          rw [Low, hpath.1, hpath.2.1]
          decide
        have hleaf := h.typed.pageTable (h.spaces cr3 hp) rfl hpt
        have hleaf' := h.typed.pageTable (h.spaces cr3 hp) rfl hit.1
        have heq := h.typed.alone _ _ _ hleaf hleaf' trivial
        rw [leaf_eq, leaf_eq, leafRole, if_pos hlow, leafRole] at heq
        have hs : Shared (protectBase a1 + pageAddr j) := by
          split at heq
          case isTrue hl => exact .inl hl
          case isFalse => split at heq <;> cases heq
        obtain ⟨hu, hw0⟩ := keeps j pt _ (by omega) hs hit
        obtain ⟨-, hu', hw'⟩ := leafEntry_bits (s.vmm.mem pt (ptIdx v)) (a3 &&& 0xCC#64 != 0#64)
        rw [userWrites, hwrite', (h.call_mem hp ht pt (ptIdx v)).1 ⟨j, Nat.zero_le j, hj, hit⟩,
          leafEntry_present, hu', hw'] at hw
        rw [userWrites, hwrite, hit.2.2, hu, hw0]
        exact hw
      · rw [userWrites, hwrite', (h.call_mem hp ht pt (ptIdx v)).2 hh, ← hwrite] at hw
        exact hw

end Call

/-- **NtProtectVirtualMemory is confined** to the caller's private mappings, in
any state that system calls reach after boot, exactly when it keeps the rights of
every mapped page of its range that goes through shared tables. -/
theorem ntProtectVm_confined_iff (m : Mem) (pt bmStart : u64) (bi : Option BootInfo)
    (page : Table) (shown : Bool) (v : Vmm) (hb : TablesAt pt bi)
    (hboot : boot m pt bmStart bi page = some (shown, v)) (ops : List Op) (s t : System)
    (cr3 a1 a2 a3 : u64) (hrun : run step (start v) ops = some s)
    (hcall : step s (.ntProtectVm cr3 a1 a2 a3) = some t) :
    Confined s t cr3 ↔ KeepsShared s cr3 a1 a2 a3 := by
  obtain ⟨R, is, hg, h⟩ := run_inv hb hboot hrun
  have hp : cr3 ∈ s.spaces := by
    simp only [step] at hcall
    split at hcall
    case isTrue hp => exact hp
    case isFalse => cases hcall
  exact ⟨h.keepsShared hg hp hcall, h.confined hg hp hcall⟩

end

/-- Protecting the shared page read-only, as it is, is confined. -/
theorem ntProtectVm_confined_iff_readonly :
    ∃ v s t, boot (fun _ _ => 0) 0x10000000#64 0x120000#64 (some lowBoot) (fun _ => 0) =
        some (true, v) ∧
      run step (start v) [.createUserPml4] = some s ∧
      step s (.ntProtectVm 0x605000#64 KUSER_VA 0x1000#64 2#64) = some t ∧
      Confined s t 0x605000#64 := by
  obtain ⟨v, s, pt, hboot, hrun, hp, hpt, -, hu, hw⟩ := lowBoot_process
  have hcall : step s (.ntProtectVm 0x605000#64 KUSER_VA 0x1000#64 2#64) =
      some { s with vmm := ntProtectVm s.vmm 0x605000#64 KUSER_VA 0x1000#64 2#64 } := by
    rw [step, if_pos hp]
  refine ⟨v, s, _, hboot, hrun, hcall, ?_⟩
  refine (ntProtectVm_confined_iff _ _ _ _ _ _ v tablesAt_lowBoot hboot _ s _ _ _ _ _ hrun
    hcall).mpr fun k hk _ _ => ?_
  obtain rfl : k = 0 := by
    rw [show (protectSpan KUSER_VA 0x1000#64).toNat = 1 by decide] at hk
    omega
  rw [show protectBase KUSER_VA + pageAddr 0 = KUSER_VA by decide, getPteInto_some hpt]
  exact ⟨hu, hw⟩

/-- `NtProtectVirtualMemory` with PAGE_READWRITE on the shared page makes it
writable for users, in the caller and in every other address space. -/
theorem protect_shared_page_not_confined :
    ∃ v s t, boot (fun _ _ => 0) 0x10000000#64 0x120000#64 (some lowBoot) (fun _ => 0) =
        some (true, v) ∧
      run step (start v) [.createUserPml4] = some s ∧
      step s (.ntProtectVm 0x605000#64 KUSER_VA 1#64 4#64) = some t ∧
      ¬ Confined s t 0x605000#64 := by
  obtain ⟨v, s, pt, hboot, hrun, hp, hpt, hpres, -, hw⟩ := lowBoot_process
  have hcall : step s (.ntProtectVm 0x605000#64 KUSER_VA 1#64 4#64) =
      some { s with vmm := ntProtectVm s.vmm 0x605000#64 KUSER_VA 1#64 4#64 } := by
    rw [step, if_pos hp]
  refine ⟨v, s, _, hboot, hrun, hcall, fun hc => ?_⟩
  obtain ⟨R, is, hg, h⟩ := run_inv tablesAt_lowBoot hboot hrun
  have hkeep := h.keepsShared hg hp hcall hc 0 (by decide) (by decide)
  rw [show protectBase KUSER_VA + pageAddr 0 = KUSER_VA by decide, getPteInto_some hpt, hw] at hkeep
  exact absurd (hkeep hpres).2 (by decide)

end MicroNT.Kernel
