import MicroNT.HeapCalls
import MicroNT.IdentityMap
import MicroNT.ProtectQuery

/-! # The frames that pages show (`virtual_memory.cpp`)

The entry of a page gives it a frame. What the kernel maps for a process is either a page
that it has just taken from the allocator or a page of a section, and `UnmapPageFrom`
takes the frame of one page away. -/

namespace MicroNT.Kernel

open MicroNT.PMM hiding step Op System
open MicroNT.VMM MicroNT.Boot MicroNT.Base.Radix

/-! ## The frame of a page -/

/-- The frame in the entry of a page, if the page is mapped. -/
def frameOf (m : Mem) (b w : u64) : Option u64 :=
  if has (getPteInto m b w) PTE_PRESENT then some (getPteInto m b w &&& PTE_ADDR_MASK) else none

/-- An address as the walk sees it, without its upper 16 bits. -/
def walked (v : u64) : Nat := v.toNat % 2 ^ 48

section

variable {m m' : Mem} {b b' v w f : u64}

theorem frameOf_entry (same : getPteInto m' b' w = getPteInto m b w) :
    frameOf m' b' w = frameOf m b w := by
  rw [frameOf, frameOf, same]

theorem frameOf_congr (page : vpn v = vpn w) : frameOf m b v = frameOf m b w := by
  rw [frameOf, frameOf, getPteInto_congr page]

theorem frameOf_none (empty : getPteInto m b w = 0) : frameOf m b w = none := by
  rw [frameOf, empty, if_neg (by decide)]

theorem frameOf_leaf {r : Bool} (frame : IsFrame f)
    (pte : getPteInto m b w = leafEntry f (userFlags r)) : frameOf m b w = some f := by
  rw [frameOf, pte, if_pos (leafEntry_present _ _), leafEntry_frame frame (userFlags_mask r)]

theorem frameOf_some (h : frameOf m b w = some f) :
    has (getPteInto m b w) PTE_PRESENT = true ∧ getPteInto m b w &&& PTE_ADDR_MASK = f := by
  unfold frameOf at h
  split at h
  case isTrue present => exact ⟨present, Option.some.inj h⟩
  case isFalse => cases h

theorem frameOf_isFrame (h : frameOf m b w = some f) : IsFrame f := by
  rw [← (frameOf_some h).2]
  exact isFrame_and _

/-- Two words that agree below bit 48 lie in the same page. -/
theorem vpn_walked (same : walked v = walked w) : vpn v = vpn w := by
  refine BitVec.eq_of_toNat_eq ?_
  rw [vpn_toNat, vpn_toNat]
  simp only [walked, PAGE_SIZE] at *
  omega

/-- The address that the walk sees. -/
def lower (v : u64) : u64 := BitVec.ofNat 64 (walked v)

theorem lower_toNat (v : u64) : (lower v).toNat = walked v := by
  rw [lower, BitVec.toNat_ofNat]
  simp only [walked]
  omega

theorem path_lower (v : u64) : path (lower v) = path v := by
  refine (path_eq_iff _ v).mpr (vpn_walked ?_)
  rw [walked, lower_toNat]
  simp only [walked]
  omega

/-- A page below bit 48 is known from its number. -/
theorem walked_of_vpn (page : vpn v = vpn w) (hv : v.toNat % PAGE_SIZE = 0)
    (hw : w.toNat % PAGE_SIZE = 0) : walked v = walked w := by
  have same := congrArg BitVec.toNat page
  rw [vpn_toNat, vpn_toNat] at same
  simp only [walked, PAGE_SIZE] at *
  omega

end

section

variable {R : Rows} {shown : Bool} {s t : System} {p b v w f : u64}

/-- A page that is mapped is translated by its frame. -/
theorem translate_some {m : Mem} (h : frameOf m b w = some f) :
    translateInPml4 m b w = f ||| (w &&& 0xFFF#64) := by
  obtain ⟨present, rfl⟩ := frameOf_some h
  obtain ⟨pt, hpt⟩ := getPteInto_present present
  obtain ⟨pdpt, pd, way⟩ := pageTable_eq_some.mp hpt
  rw [way.getPteInto] at present ⊢
  rw [way.translate, if_pos present]

/-- **A page above 4 GB** is translated by its frame. -/
theorem Sound.translate_frame (h : Sound R s) (hg : R.Good shown) (hp : p ∈ s.spaces)
    (high : ¬ Low w) : translateInPml4 s.vmm.mem p w =
      (frameOf s.vmm.mem p w).elim 0 fun f => f ||| (w &&& 0xFFF#64) := by
  obtain ⟨is, inv⟩ := h.inv
  by_cases zero : translateInPml4 s.vmm.mem p w = 0
  case pos =>
    cases frame : frameOf s.vmm.mem p w with
    | none => exact zero
    | some f => exact translate_some frame
  case neg =>
    obtain ⟨pdpt, pd, pt, way⟩ := inv.mapped hg hp high zero
    rw [frameOf, way.getPteInto]
    rw [way.translate] at zero ⊢
    split
    case isTrue => rfl
    case isFalse => rfl

/-- **A page that all address spaces share** has the entry of the kernel's PML4. -/
theorem Sound.shared_pte (h : Sound R s) (hg : R.Good shown) (hp : p ∈ s.spaces)
    (shared : Shared w) :
    getPteInto s.vmm.mem p w = getPteInto s.vmm.mem s.vmm.pml4Phys w := by
  obtain ⟨is, inv⟩ := h.inv
  have table : pageTable s.vmm.mem p w = pageTable s.vmm.mem s.vmm.pml4Phys w := by
    rw [pageTable_eq, pageTable_eq]
    rcases shared with low | soft
    · obtain ⟨pdpt, pd, l1, l2, e1, -⟩ := inv.low_walk hg (.inr hp) low
      obtain ⟨pdpt', pd', k1, k2, e2, -⟩ :=
        inv.low_walk hg (show s.IsSpace s.vmm.pml4Phys from .inl rfl) low
      have same : link (s.vmm.mem pdpt' (pdptIdx w)) = some pd := by rw [e2, ← e1, l2]
      simp only [descend, l1, l2, k1, same, Option.bind_some]
    · have own : s.vmm.mem p SOFT_SLOT = R.kroot SOFT_SLOT :=
        inv.typed.entry _ _ SOFT_SLOT (inv.spaces p hp)
      have kernel : s.vmm.mem s.vmm.pml4Phys SOFT_SLOT = R.kroot SOFT_SLOT :=
        inv.typed.entry _ _ SOFT_SLOT inv.root
      simp only [descend, soft, own, kernel]
  rw [getPteInto, getPteInto, table]

/-- **A page of the identity map** is translated to itself, if it has no page table. -/
theorem Sound.translate_huge (h : Sound R s) (hg : R.Good shown) (hp : p ∈ s.spaces)
    (low : Low w) (none : pageTable s.vmm.mem p w = none) :
    (translateInPml4 s.vmm.mem p w).toNat = walked w := by
  obtain ⟨is, inv⟩ := h.inv
  have below : walked w < 2 ^ 32 := (low_iff w).mp low
  have block : ¬ (shown = true ∧ pdptIdx w = 1#9 ∧ pdIdx w = 511#9) := by
    rintro ⟨hs, h1, h2⟩
    obtain ⟨pdpt, pd, pt, way, -⟩ := inv.block_reaches hg hs (.inr hp) low h1 h2
    rw [pageTable_eq_some.mpr ⟨pdpt, pd, way⟩] at none
    cases none
  obtain ⟨e1, e2, walk, -, -⟩ := inv.low_huge hg (.inr hp) low block
  have indices := path_lower w
  simp only [path, List.cons.injEq, and_true] at indices
  have offset : lower w &&& 0x1FFFFF#64 = w &&& 0x1FFFFF#64 := by
    refine BitVec.eq_of_toNat_eq ?_
    have mask (x : u64) : (x &&& 0x1FFFFF#64).toNat = x.toNat % 2 ^ 21 :=
      (BitVec.toNat_and x _).trans (Nat.and_two_pow_sub_one_eq_mod x.toNat 21)
    rw [mask, mask, lower_toNat]
    simp only [walked]
    omega
  have identity := pdEntry_identity (v := lower w) (by rw [lower_toNat]; exact below)
  rw [indices.2.1, indices.2.2.1, offset] at identity
  rw [translateInPml4_eq, walk]
  simp only [resolve, (pdEntry_bits _ _).1, if_true]
  rw [identity, lower_toNat]

end

/-! ## New pages -/

/-- A page that gets another frame gets one that was free. -/
structure Fills (s t : System) : Prop where
  bits : ∀ q, bitmapTest s.vmm.pmm.bitmap q = true → bitmapTest t.vmm.pmm.bitmap q = true
  frames : ∀ b ∈ t.spaces, ∀ w, ¬ Shared w → ∀ f, frameOf t.vmm.mem b w = some f →
    (b ∈ s.spaces ∧ frameOf s.vmm.mem b w = some f) ∨ (¬ Used s.vmm f ∧ Used t.vmm f)
  shared : ∀ w, Shared w → ∀ f, frameOf t.vmm.mem t.vmm.pml4Phys w = some f →
    frameOf s.vmm.mem s.vmm.pml4Phys w = some f ∨ (¬ Used s.vmm f ∧ Used t.vmm f)

section

variable {R : Rows} {shown : Bool} {s t u : System} {v : Vmm} {p va : u64} {q : Pmm} {k : Nat}

theorem Fills.refl (s : System) : Fills s s :=
  ⟨fun _ hq => hq, fun _ hb _ _ _ hf => .inl ⟨hb, hf⟩, fun _ _ _ hf => .inl hf⟩

theorem Fills.trans (h : Fills s t) (h' : Fills t u) : Fills s u where
  bits q hq := h'.bits q (h.bits q hq)
  frames b hb w hw f hf := by
    rcases h'.frames b hb w hw f hf with ⟨hb, hf⟩ | ⟨free, used⟩
    · rcases h.frames b hb w hw f hf with old | ⟨free, used⟩
      · exact .inl old
      · exact .inr ⟨free, used.mono h'.bits⟩
    · exact .inr ⟨fun old => free (old.mono h.bits), used⟩
  shared w hw f hf := by
    rcases h'.shared w hw f hf with hf | ⟨free, used⟩
    · rcases h.shared w hw f hf with old | ⟨free, used⟩
      · exact .inl old
      · exact .inr ⟨free, used.mono h'.bits⟩
    · exact .inr ⟨fun old => free (old.mono h.bits), used⟩

/-- No page gets another frame. -/
theorem Fills.of_frames (kernel : v.pml4Phys = s.vmm.pml4Phys)
    (bits : ∀ q, bitmapTest s.vmm.pmm.bitmap q = true → bitmapTest v.pmm.bitmap q = true)
    (same : ∀ b, s.IsSpace b → ∀ w, frameOf v.mem b w = frameOf s.vmm.mem b w) :
    Fills s { s with vmm := v } where
  bits := bits
  frames b hb w _ f hf := .inl ⟨hb, (same b (.inr hb) w).symm.trans hf⟩
  shared w _ f hf := by
    simp only [kernel] at hf
    exact .inl ((same _ (.inl rfl) w).symm.trans hf)

/-- A page taken from the allocator and filled. -/
theorem Sound.newPage_frames (h : Sound R s) (ht : Takes s.vmm.pmm q k 1) (page : Table) {b : u64}
    (hb : s.IsSpace b) (w : u64) :
    frameOf (fill s.vmm.mem (pageAddr k) page) b w = frameOf s.vmm.mem b w := by
  obtain ⟨-, -, -, same⟩ := h.trees.newPage ht page
  exact frameOf_entry ((h.trees.data same).2.2 b w hb)

theorem Sound.newPage_fills (h : Sound R s) (ht : Takes s.vmm.pmm q k 1) (page : Table) :
    Fills s { s with vmm := { s.vmm with pmm := q, mem := fill s.vmm.mem (pageAddr k) page } } :=
  .of_frames rfl (h.newPage ht page).1.bits fun _ hb w => h.newPage_frames ht page hb w

/-- A page that is taken and not used. -/
theorem Sound.takes_fills (h : Sound R s) (ht : Takes s.vmm.pmm q k 1) :
    Fills s { s with vmm := { s.vmm with pmm := q } } :=
  .of_frames rfl (h.trees.takes ht).bits fun _ _ _ => rfl

/-- **A new page is mapped.** -/
theorem Fills.mapPageInto {f : u64} (x : Fills s t) (h : Sound R t) (hg : R.Good shown)
    (hp : p ∈ t.spaces) (frame : IsFrame f) (free : ¬ Used s.vmm f) (used : Used t.vmm f)
    (r : Bool) :
    Fills s { t with vmm := (VMM.mapPageInto t.vmm p va f (userFlags r)).2 } := by
  obtain ⟨mapped, here, failed⟩ := h.mapPageInto hg hp va f r
  obtain ⟨-, -, other⟩ := h.trees.mapPageInto (.inr hp) va f (userFlags r)
  have root := mapped.kernel
  have kernel := fun w => mapped.sound.shared_pte (w := w) hg (mapped.spaces p hp)
  generalize VMM.mapPageInto t.vmm p va f (userFlags r) = z at *
  simp only at root kernel
  refine ⟨fun q hq => mapped.bits q (x.bits q hq), fun b hb w hw g hf => ?_,
    fun w hw g hf => ?_⟩
  · have old : getPteInto z.2.mem b w = getPteInto t.vmm.mem b w →
        (b ∈ s.spaces ∧ frameOf s.vmm.mem b w = some g) ∨ (¬ Used s.vmm g ∧ Used z.2 g) :=
      fun same => (x.frames b hb w hw g ((frameOf_entry same).symm.trans hf)).imp_right
        fun ⟨no, yes⟩ => ⟨no, mapped.used yes⟩
    by_cases page : b = p ∧ vpn w = vpn va
    case neg => exact old (mapped.entries b hb w hw page)
    case pos =>
      obtain ⟨rfl, page⟩ := page
      cases success : z.1 with
      | false => exact old (failed success b hb w)
      | true =>
        rw [frameOf_congr page, frameOf_leaf frame (here success)] at hf
        obtain rfl := Option.some.inj hf
        exact .inr ⟨free, mapped.used used⟩
  · simp only at hf
    have old : getPteInto z.2.mem t.vmm.pml4Phys w = getPteInto t.vmm.mem t.vmm.pml4Phys w →
        frameOf s.vmm.mem s.vmm.pml4Phys w = some g ∨ (¬ Used s.vmm g ∧ Used z.2 g) :=
      fun same => (x.shared w hw g ((frameOf_entry same).symm.trans (root ▸ hf))).imp_right
        fun ⟨no, yes⟩ => ⟨no, mapped.used yes⟩
    by_cases page : vpn w = vpn va
    case neg => exact old (other _ w (.inl rfl) (.inr page))
    case pos =>
      cases success : z.1 with
      | false => exact old (other _ w (.inl rfl) (.inl success))
      | true =>
        rw [← frameOf_entry (kernel w hw), frameOf_congr page, frameOf_leaf frame (here success)]
          at hf
        obtain rfl := Option.some.inj hf
        exact .inr ⟨free, mapped.used used⟩

/-- The page comes from the allocator. -/
theorem Sound.mapNew_fills (h : Sound R s) (hg : R.Good shown) (hp : p ∈ s.spaces)
    (ht : Takes s.vmm.pmm q k 1) (va : u64) (page : Table) (r : Bool) :
    Fills s { s with vmm := (VMM.mapPageInto { s.vmm with
      pmm := q, mem := fill s.vmm.mem (pageAddr k) page } p va (pageAddr k) (userFlags r)).2 } := by
  obtain ⟨moved, used, -, free⟩ := h.newPage ht page
  exact (h.newPage_fills ht page).mapPageInto moved.sound hg hp (isFrame_pageAddr ht.within)
    free used r

theorem Sound.setupPage_fills (h : Sound R s) (hg : R.Good shown) (hp : p ∈ s.spaces)
    (va : u64) (page : Table) :
    Fills s { s with vmm := (Kernel.setupPage s.vmm p va page).2 } := by
  rw [Kernel.setupPage]
  rcases allocPage_cases s.vmm.pmm with ⟨q, hq, ht⟩ | ⟨h0, -⟩
  case inr =>
    simp only [h0, if_true]
    exact .refl s
  case inl =>
    have taken := h.takes_fills ht
    have mapped := h.mapNew_fills hg hp ht va page true
    generalize allocPage s.vmm.pmm = r at *
    split
    case isTrue => exact taken
    case isFalse =>
      rw [hq]
      exact mapped

/-- **A page of an image**, given back if it cannot be mapped. -/
theorem Sound.mapFresh (h : Sound R s) (hg : R.Good shown) (hp : p ∈ s.spaces) (va : u64) (w : Bool)
    (page : Table) :
    Moves R (onlyPage p va) noFrames s
        { s with vmm := (Kernel.mapFresh s.vmm p va (userFlags w) page).2 } ∧
      Fills s { s with vmm := (Kernel.mapFresh s.vmm p va (userFlags w) page).2 } := by
  rw [Kernel.mapFresh]
  rcases allocPage_cases s.vmm.pmm with ⟨q, hq, ht⟩ | ⟨h0, -⟩
  case inr =>
    simp only [h0, if_true]
    exact ⟨.refl h _ _, .refl s⟩
  case inl =>
    have taken := h.takes_fills ht
    have took := h.takes (P := onlyPage p va) (F := noFrames) ht
    have fills := h.mapNew_fills hg hp ht va page w
    have same := fun b (hb : s.IsSpace b) x => h.newPage_frames ht page hb x
    obtain ⟨filled, -, data, free⟩ := h.newPage ht page
    generalize allocPage s.vmm.pmm = r at *
    split
    case isTrue => exact ⟨took, taken⟩
    case isFalse =>
      rw [hq]
      obtain ⟨mapped, -, -⟩ := filled.sound.mapPageInto hg hp va (pageAddr q) w
      obtain ⟨-, -, other⟩ := filled.sound.trees.mapPageInto (.inr hp) va (pageAddr q) (userFlags w)
      have used : Used { s.vmm with pmm := r.2, mem := fill s.vmm.mem (pageAddr q) page }
          (pageAddr q) := used_taken ht le_rfl (by omega)
      have apart := mapped.data (pageAddr q) used data
      have moved := (filled.mono (fun _ _ no => no.elim) fun _ no => no).trans mapped
      dsimp only at fills moved other apart ⊢
      generalize VMM.mapPageInto _ p va (pageAddr q) (userFlags w) = z at *
      split
      case isTrue => exact ⟨moved, fills⟩
      case isFalse fails =>
        have bits : ∀ j, bitmapTest s.vmm.pmm.bitmap j = true →
            bitmapTest (freePage z.2.pmm (pageAddr q)).bitmap j = true :=
          fun j hj => freePage_takes ht moved.bits hj
        obtain ⟨is, inv, tables⟩ := moved.sound.roles
        have whole := pageOf_pageAddr ht.within
        have live : pageAddr q ∉ s.live.flatten := by
          obtain ⟨is, inv⟩ := h.inv
          exact fun hl => free (owned_used inv.owned rfl hl)
        have released := inv.released (a := pageAddr q) (by rwa [whole])
          (by rw [whole]; exact fun r hr => apart (tables r _ hr))
        have sound : Sound R { s with vmm := { z.2 with pmm := freePage z.2.pmm (pageAddr q) } } :=
          ⟨⟨is, released⟩, moved.sound.forest⟩
        refine ⟨⟨sound, moved.spaces, moved.kernel, bits, moved.data, moved.frames, moved.entries⟩,
          .of_frames moved.kernel bits fun b hb x => ?_⟩
        exact (frameOf_entry (other b x hb (.inl (Bool.eq_false_iff.mpr fails)))).trans (same b hb x)

theorem Sound.setupPages_fills (hg : R.Good shown) (pages : Nat → Table) (n k : Nat)
    (h : Sound R s) (hp : p ∈ s.spaces) :
    Fills s { s with vmm := Kernel.setupPages p pages n k s.vmm } := by
  induction n generalizing k s with
  | zero => exact .refl s
  | succ n ih =>
    rw [Kernel.setupPages]
    have moved := h.setupPage hg hp (PEB_VA + pageAddr k) (pages k)
    have first := h.setupPage_fills hg hp (PEB_VA + pageAddr k) (pages k)
    generalize Kernel.setupPage s.vmm p (PEB_VA + pageAddr k) (pages k) = r at *
    split
    case isFalse => exact first
    case isTrue => exact first.trans (ih (k + 1) moved.sound hp)

theorem Sound.setupPeb_fills (h : Sound R s) (hg : R.Good shown) (hp : p ∈ s.spaces)
    (pages : Nat → Table) : Fills s { s with vmm := (Kernel.setupPeb s.vmm p pages).2 } := by
  rw [Kernel.setupPeb]
  have moved := h.setupPage hg hp PEB_VA (pages 0)
  have first := h.setupPage_fills hg hp PEB_VA (pages 0)
  generalize Kernel.setupPage s.vmm p PEB_VA (pages 0) = r at *
  split
  case isFalse => exact first
  case isTrue => exact first.trans (moved.sound.setupPages_fills hg pages 3 1 hp)

/-- **A new address space** has no private page. -/
theorem Sound.createUserPml4_fills (h : Sound R s) (hg : R.Good shown)
    (hs : Kernel.step s .createUserPml4 = some t) : Fills s t := by
  have moved : Moves R noPages noFrames s t := h.createUserPml4 hg hs
  have old := h.trees.createUserPml4 (.inl rfl) fun _ => by
    obtain ⟨is, inv⟩ := h.inv
    obtain ⟨pdpt, hl, -⟩ := inv.slot0 hg (show s.IsSpace s.vmm.pml4Phys from .inl rfl)
    rw [hl, (link_eq_some.mp hl).2.2]
  obtain ⟨-, -, -, -, ptes⟩ := old
  refine ⟨moved.bits, fun b hb w hw f hf => ?_, fun w _ f hf => ?_⟩
  · by_cases here : b ∈ s.spaces
    · exact .inl ⟨here, (frameOf_entry (moved.entries b here w hw id)).symm.trans hf⟩
    · cases hs
      simp only at hb
      split at hb
      case isTrue => exact absurd hb here
      case isFalse new =>
        obtain rfl := (List.mem_cons.mp hb).resolve_right here
        rw [frameOf, h.createUserPml4_private hg new hw, if_neg Bool.false_ne_true] at hf
        cases hf
  · rw [moved.kernel] at hf
    cases hs
    exact .inl ((frameOf_entry (ptes _ w (.inl rfl))).symm.trans hf)

/-- The loop that maps new pages. -/
theorem Sound.mapZeroed_fills (hg : R.Good shown) (va : u64) (n i : Nat) (h : Sound R s)
    (hp : p ∈ s.spaces) :
    Fills s { s with vmm := (Kernel.mapZeroed p va n i s.vmm).2 } := by
  induction n generalizing i s with
  | zero => exact .refl s
  | succ n ih =>
    rw [Kernel.mapZeroed]
    rcases allocPage_cases s.vmm.pmm with ⟨q, hq, ht⟩ | ⟨h0, -⟩
    case inr =>
      simp only [h0, if_true]
      exact .refl s
    case inl =>
      have taken := h.takes_fills ht
      have first := h.mapNew_fills hg hp ht (va + pageAddr i) (fun _ => 0) true
      obtain ⟨zeroed, -⟩ := h.newPage ht fun _ => 0
      generalize allocPage s.vmm.pmm = r at *
      split
      case isTrue => exact taken
      case isFalse =>
        rw [hq]
        obtain ⟨mapped, -⟩ := zeroed.sound.mapPageInto hg hp (va + pageAddr i) (pageAddr q) true
        dsimp only at first mapped ⊢
        generalize VMM.mapPageInto _ p (va + pageAddr i) (pageAddr q) (userFlags true) = m at *
        split
        case isFalse => exact first
        case isTrue =>
          exact first.trans (ih (i + 1) mapped.sound hp)

/-- **The loop that fills a section** takes pages that were free, a new one each time, and
maps none of them. -/
theorem Sound.fillSection_frames (content : Nat → Table) (n j : Nat) (phys : Nat → u64)
    (h : Sound R s) :
    (∀ b, s.IsSpace b → ∀ w, frameOf (Kernel.fillSection content n j phys s.vmm).2.2.mem b w =
        frameOf s.vmm.mem b w) ∧
      ((Kernel.fillSection content n j phys s.vmm).1 = true →
        (∀ i, i < j → (Kernel.fillSection content n j phys s.vmm).2.1 i = phys i) ∧
        (∀ i, j ≤ i → i < j + n →
          ¬ Used s.vmm ((Kernel.fillSection content n j phys s.vmm).2.1 i)) ∧
        ∀ a b, j ≤ a → a < b → b < j + n →
          (Kernel.fillSection content n j phys s.vmm).2.1 a ≠
            (Kernel.fillSection content n j phys s.vmm).2.1 b) := by
  induction n generalizing j phys s with
  | zero =>
    exact ⟨fun _ _ _ => rfl, fun _ => ⟨fun _ _ => rfl, fun i h1 h2 => absurd h2 (by omega),
      fun a b _ _ h3 => absurd h3 (by omega)⟩⟩
  | succ n ih =>
    rw [Kernel.fillSection]
    rcases allocPage_cases s.vmm.pmm with ⟨q, hq, ht⟩ | ⟨h0, -⟩
    case inr =>
      simp only [h0, if_true]
      exact ⟨fun _ _ _ => trivial, fun no => Bool.noConfusion no⟩
    case inl =>
      have same := fun b (hb : s.IsSpace b) w => h.newPage_frames ht (content j) hb w
      obtain ⟨moved, used, -, free⟩ := h.newPage ht (content j)
      generalize allocPage s.vmm.pmm = r at *
      split
      case isTrue => exact ⟨fun _ _ _ => rfl, fun no => Bool.noConfusion no⟩
      case isFalse =>
        rw [hq]
        obtain ⟨rest, new⟩ := ih (j + 1) (Function.update phys j (pageAddr q)) moved.sound
        generalize Kernel.fillSection content n (j + 1) (Function.update phys j (pageAddr q)) _ = f
          at *
        refine ⟨fun b hb w => (rest b hb w).trans (same b hb w), fun success => ?_⟩
        obtain ⟨before, later, apart⟩ := new success
        have here : f.2.1 j = pageAddr q := by
          rw [before j (by omega), Function.update_self]
        have unused : ∀ i, j + 1 ≤ i → i < j + (n + 1) → ¬ Used _ (f.2.1 i) := fun i h1 h2 =>
          later i h1 (by omega)
        refine ⟨fun i hi => ?_, fun i h1 h2 => ?_, fun a b h1 h2 h3 => ?_⟩
        · rw [before i (by omega), Function.update_of_ne (by omega)]
        · rcases Nat.lt_or_eq_of_le h1 with h1 | rfl
          · exact fun old => unused i h1 h2 (old.mono moved.bits)
          · rw [here]
            exact free
        · rcases Nat.lt_or_eq_of_le h1 with h1 | rfl
          · exact apart a b h1 h2 (by omega)
          · rw [here]
            exact fun same => unused b h2 h3 (same ▸ used)

end

/-! ## The pages of a view -/

section

variable {R : Rows} {shown : Bool} {s t : System} {p b v w : u64}

/-- **The loop that maps a view** gives its pages the frames of the section, beginning with
the first, and no other page another one. -/
theorem Sound.mapViewPages_frames (hg : R.Good shown) {va : u64} (phys : Nat → u64) (n i : Nat)
    (hn : i + n ≤ MAX_SECTION_PAGES) (own : ∀ k, k < i + n → ¬ Shared (va + pageAddr k))
    (frames : ∀ k, k < i + n → IsFrame (phys k)) (h : Sound R s) (hp : p ∈ s.spaces) :
    (∀ b ∈ s.spaces, ∀ w, ¬ Shared w → ∀ f,
      frameOf (Kernel.mapViewPages p va phys n i s.vmm).2.mem b w = some f →
        frameOf s.vmm.mem b w = some f ∨ (b = p ∧
          frameOf (Kernel.mapViewPages p va phys n i s.vmm).2.mem p (va + pageAddr i) =
            some (phys i) ∧
          ∃ k, i ≤ k ∧ k < i + n ∧ vpn w = vpn (va + pageAddr k) ∧ f = phys k)) ∧
      ∀ w, Shared w → frameOf (Kernel.mapViewPages p va phys n i s.vmm).2.mem s.vmm.pml4Phys w =
        frameOf s.vmm.mem s.vmm.pml4Phys w := by
  induction n generalizing i s with
  | zero => exact ⟨fun b _ w _ f hf => .inl hf, fun _ _ => rfl⟩
  | succ n ih =>
    obtain ⟨moved, here, failed⟩ := h.mapPageInto hg hp (va + pageAddr i) (phys i) true
    obtain ⟨-, -, other⟩ := h.trees.mapPageInto (.inr hp) (va + pageAddr i) (phys i) (userFlags true)
    have shared : ∀ w, Shared w → frameOf (VMM.mapPageInto s.vmm p (va + pageAddr i) (phys i)
        (userFlags true)).2.mem s.vmm.pml4Phys w = frameOf s.vmm.mem s.vmm.pml4Phys w :=
      fun w hw => frameOf_entry (other _ w (.inl rfl)
        (.inr fun same => own i (by omega) ((shared_congr same).mp hw)))
    rw [Kernel.mapViewPages]
    generalize VMM.mapPageInto s.vmm p (va + pageAddr i) (phys i) (userFlags true) = q at *
    split
    case isFalse fails =>
      refine ⟨fun b hb w _ f hf => .inl ?_, shared⟩
      exact (frameOf_entry (failed (Bool.eq_false_iff.mpr fails) b hb w)).symm.trans hf
    case isTrue success =>
      obtain ⟨rest, low⟩ := ih (i + 1) (by omega) (fun k hk => own k (by omega))
        (fun k hk => frames k (by omega)) moved.sound hp
      obtain ⟨later, -⟩ := moved.sound.mapViewPages hg phys n (i + 1) (by omega)
        (fun k hk => own k (by omega)) hp
      have kernel : q.2.pml4Phys = s.vmm.pml4Phys := moved.kernel
      have first : frameOf q.2.mem p (va + pageAddr i) = some (phys i) :=
        frameOf_leaf (frames i (by omega)) (here success)
      -- the pages behind leave the first one alone
      have kept : frameOf (Kernel.mapViewPages p va phys n (i + 1) q.2).2.mem p (va + pageAddr i) =
          some (phys i) := by
        refine (frameOf_entry (later.entries p hp _ (own i (by omega)) ?_)).trans first
        rintro ⟨-, k, h3, h4, same⟩
        simp only [MAX_SECTION_PAGES] at hn
        exact vpn_pageAddr_ne va (by omega) (by omega) (by omega : i ≠ k) same
      dsimp only at rest low
      rw [kernel] at low
      refine ⟨fun b hb w hw f hf => ?_, fun w hw => (low w hw).trans (shared w hw)⟩
      rcases rest b hb w hw f hf with old | ⟨rfl, -, k, h1, h2, page, rfl⟩
      · by_cases page : b = p ∧ vpn w = vpn (va + pageAddr i)
        case neg => exact .inl ((frameOf_entry (moved.entries b hb w hw page)).symm.trans old)
        case pos =>
          obtain ⟨rfl, page⟩ := page
          rw [frameOf_congr page, first] at old
          exact .inr ⟨rfl, kept, i, le_rfl, by omega, page, (Option.some.inj old).symm⟩
      · exact .inr ⟨rfl, kept, k, by omega, by omega, page, rfl⟩

/-- Every PML4 has the role of a root. -/
theorem Inv.root_role {split : Index → u64 → Prop} {Ok : Nat → Prop} {is : Role → u64 → Prop}
    (h : Inv R split Ok is s) (hb : s.IsSpace b) :
    ∃ r, is r b ∧ (roles (R.shape split)).rank r = 4 := by
  rcases h.role hb with hr | hr
  · exact ⟨_, hr, rfl⟩
  · exact ⟨_, hr, rfl⟩

/-- **`UnmapPageFrom`** on a private page is about that page only. -/
theorem Sound.unmapPageFrom_moves (h : Sound R s) (hg : R.Good shown) (hp : p ∈ s.spaces)
    (own : ¬ Shared v) :
    Moves R (onlyPage p v) noFrames s { s with vmm := VMM.unmapPageFrom s.vmm p v } ∧
      ∀ b, s.IsSpace b → ∀ w, ¬ onlyPage p v b w →
        getPteInto (VMM.unmapPageFrom s.vmm p v).mem b w = getPteInto s.vmm.mem b w ∧
          translateInPml4 (VMM.unmapPageFrom s.vmm p v).mem b w =
            translateInPml4 s.vmm.mem b w := by
  obtain ⟨-, other⟩ := h.unmapPageFrom hp v
  have same : ∀ b, s.IsSpace b → ∀ w, ¬ onlyPage p v b w →
      getPteInto (VMM.unmapPageFrom s.vmm p v).mem b w = getPteInto s.vmm.mem b w := by
    intro b hb w apart
    refine other b hb w (or_iff_not_imp_left.mpr fun page => ?_)
    have page := not_not.mp page
    exact ⟨fun eq => apart ⟨eq, page⟩, fun shared => own ((shared_congr page).mp shared)⟩
  have step : Kernel.step s (.unmapPageFrom p v) =
      some { s with vmm := VMM.unmapPageFrom s.vmm p v } := if_pos hp
  have sound := h.step hg step
  refine ⟨.of_extends (h.trees.unmapPageFrom (.inr hp) v) sound.inv fun b hb w _ apart =>
    same b (.inr hb) w apart, fun b hb w apart => ⟨same b hb w apart, ?_⟩⟩
  obtain ⟨is, inv⟩ := h.inv
  cases hpt : pageTable s.vmm.mem p v with
  | none => rw [VMM.unmapPageFrom, hpt]
  | some pt =>
    have entry := same b hb w apart
    have leaf := inv.typed.pageTable (inv.spaces p hp) rfl hpt
    have upper : ∀ r x, is r x → 1 < (Kernel.roles (R.shape fun _ _ => True)).rank r →
        (VMM.unmapPageFrom s.vmm p v).mem x = s.vmm.mem x := by
      intro r x hx rank
      rw [VMM.unmapPageFrom, hpt]
      refine write_of_table_ne fun eq => ?_
      obtain rfl := inv.typed.alone _ _ _ hx (eq ▸ leaf) trivial
      have last := ((Kernel.roles (R.shape fun _ _ => True)).ranks (r := .root p) rfl v).2.2
      omega
    obtain ⟨r, hr, rank⟩ := inv.root_role hb
    cases hw : pageTable s.vmm.mem b w with
    | none => rw [translateInPml4_eq, translateInPml4_eq, inv.typed.entries_leaf upper hr rank hw]
    | some pt' =>
      obtain ⟨pdpt, pd, way⟩ := pageTable_eq_some.mp hw
      obtain ⟨way', -⟩ := inv.typed.reaches_leaf upper hr rank way
      rw [way.getPteInto, way'.getPteInto] at entry
      rw [way.translate, way'.translate, entry]

/-- **`NtProtectVirtualMemory`** changes the frame of no page. -/
theorem Sound.ntProtectVm_moves (h : Sound R s) (hg : R.Good shown) (hp : p ∈ s.spaces)
    (a1 a2 a3 : u64) :
    Moves R (fun _ _ => True) noFrames s { s with vmm := Kernel.ntProtectVm s.vmm p a1 a2 a3 } ∧
      ∀ b, s.IsSpace b → ∀ w,
        frameOf (Kernel.ntProtectVm s.vmm p a1 a2 a3).mem b w = frameOf s.vmm.mem b w := by
  have step : Kernel.step s (.ntProtectVm p a1 a2 a3) =
      some { s with vmm := Kernel.ntProtectVm s.vmm p a1 a2 a3 } := if_pos hp
  have sound := h.step hg step
  refine ⟨.of_extends (Trees.protectPages (.inr hp) _ 0 h.trees) sound.inv fun _ _ _ _ no =>
    absurd trivial no, fun b hb w => ?_⟩
  obtain ⟨is, inv⟩ := h.inv
  have upper := inv.call_upper hp step
  obtain ⟨r, hr, rank⟩ := inv.root_role hb
  have table := inv.typed.pageTable_leaf upper hr rank (v := w)
  dsimp only at table
  cases hpt : pageTable s.vmm.mem b w with
  | none =>
    rw [hpt] at table
    rw [frameOf_none (by rw [getPteInto, table]), frameOf_none (by rw [getPteInto, hpt])]
  | some pt =>
    rw [hpt] at table
    rw [frameOf, frameOf, getPteInto_some table, getPteInto_some hpt]
    obtain ⟨hit, miss⟩ := inv.call_mem hp step pt (ptIdx w)
    by_cases covered : HitsAny s.vmm.mem p (protectBase a1) 0 (protectSpan a1 a2).toNat pt (ptIdx w)
    · have present : has (s.vmm.mem pt (ptIdx w)) PTE_PRESENT = true := by
        obtain ⟨k, -, -, -, -, present⟩ := covered
        exact present
      have entry := hit covered
      dsimp only at entry
      rw [entry, leafEntry_present, (leafEntry_bits _ _).1, present]
    · have entry := miss covered
      dsimp only at entry
      rw [entry]

end

/-! ## After boot -/

/-- The first address of a page of the identity map. -/
def walkedPage (w : u64) : Nat := walked w / PAGE_SIZE * PAGE_SIZE

/-- The offset is added to the frame. -/
theorem frame_offset {f : u64} (hf : IsFrame f) (w : u64) :
    (f ||| (w &&& 0xFFF#64)).toNat = f.toNat + w.toNat % PAGE_SIZE := by
  obtain ⟨-, small⟩ := (isFrame_iff f).mp hf
  have offset := offset_toNat w
  rw [frame_or_offset hf, BitVec.toNat_add, offset]
  simp only [PAGE_SIZE] at *
  omega

/-- **The pages after boot** are identity pages, or show a frame in use. -/
theorem boot_frames {m : Mem} {pt bmStart : u64} {bi : Option BootInfo} {page : Table}
    {shown : Bool} {v : Vmm} (hb : TablesAt pt bi)
    (hboot : boot m pt bmStart bi page = some (shown, v)) {w f : u64}
    (hf : frameOf v.mem v.pml4Phys w = some f) : Used v f ∨ Low w ∧ f.toNat = walkedPage w := by
  obtain ⟨-, root, -, above⟩ := boot_trees hb hboot
  rw [root] at hf
  by_cases low : Low w
  case neg =>
    rw [frameOf_none (above w low)] at hf
    cases hf
  case pos =>
    obtain ⟨⟨R, phys, is, hg, kuser, booted⟩, -⟩ := boot_booted hb hboot
    have inv : Inv R (fun i e => e = splitEntry phys i) (fun _ => True) is (start v) :=
      start_inv booted fun _ _ _ => trivial
    have space : (start v).IsSpace pt := .inl root.symm
    obtain ⟨present, frame⟩ := frameOf_some hf
    obtain ⟨leaf, table⟩ := getPteInto_present present
    obtain ⟨pdpt, pd, way⟩ := pageTable_eq_some.mp table
    obtain ⟨hs, h1, h2, -⟩ := inv.low_block hg space low way
    obtain ⟨pdpt', pd', leaf', way', split⟩ := inv.block_reaches hg hs space low h1 h2
    have table' := pageTable_eq_some.mpr ⟨pdpt', pd', way'⟩
    obtain rfl : leaf = leaf' := Option.some.inj (table.symm.trans table')
    have entry : v.mem leaf (ptIdx w) = splitEntry phys (ptIdx w) :=
      inv.typed.entry _ _ (ptIdx w) split
    rw [getPteInto_some table, entry] at frame
    obtain ⟨hframe, used⟩ := kuser hs
    by_cases shared : ptIdx w = ptIdx KUSER_VA
    case pos =>
      have flags : (PTE_PRESENT ||| PTE_USER) &&& PTE_ADDR_MASK = 0#64 := by decide
      rw [splitEntry, if_pos shared, hframe, BitVec.or_assoc, BitVec.and_or_distrib_right, hframe,
        flags, BitVec.or_zero] at frame
      exact .inl (frame ▸ used)
    case neg =>
      have indices := path_lower w
      simp only [path, List.cons.injEq, and_true] at indices
      obtain ⟨-, i3, i2, i1⟩ := indices
      have off : (lower w).toNat / PAGE_SIZE ≠ KUSER_PAGE := fun on => by
        have at_ : (ptIdx (lower w)).toNat = (lower w).toNat / 2 ^ 12 % 512 := index_toNat _ 12
        refine shared (i1.symm.trans (BitVec.eq_of_toNat_eq ?_))
        rw [at_, show (ptIdx KUSER_VA).toNat = 480 by decide]
        simp only [PAGE_SIZE, KUSER_PAGE] at on
        omega
      obtain ⟨-, -, identity⟩ := splitEntry_identity phys
        (by rw [lower_toNat]; exact (low_iff w).mp low) (i3.trans h1) (i2.trans h2) off
      rw [i1, frame] at identity
      refine .inr ⟨low, ?_⟩
      have sum := congrArg BitVec.toNat identity
      rw [frame_offset (frame ▸ isFrame_and _), lower_toNat] at sum
      rw [walkedPage]
      simp only [PAGE_SIZE] at *
      omega

end MicroNT.Kernel
