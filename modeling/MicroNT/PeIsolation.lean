import MicroNT.PeLoader

/-! # Loading a file stays in its address space

A loader works on a fresh address space, whose private pages all map frames that
the loader took from the allocator. As long as it maps private pages and patches
slots inside them, it writes to these frames, to private tables, and to tables
that it has just allocated. -/

namespace MicroNT.Kernel

open MicroNT.PMM hiding step Op System
open MicroNT.VMM MicroNT.Boot MicroNT.Base.Radix MicroNT.Base.Machine

/-! ## What the file must keep to -/

/-- The 2 MB block of the shared page, whose page table is the kernel's. -/
def KuserBlock (v : u64) : Prop := pml4Idx v = 0#9 ∧ pdptIdx v = 1#9 ∧ pdIdx v = 511#9

/-- No page table that the kernel shares is on the way of the page. The rest of
the first 4 GB has none: there `MapPageInto` meets a huge page and fails. -/
def PrivatePage (shown : Bool) (v : u64) : Prop :=
  pml4Idx v ≠ SOFT_SLOT ∧ (shown = true → ¬ KuserBlock v)

/-- Eight bytes in one page that is not reached through shared tables. -/
def PrivateSlot (v : u64) : Prop := ¬ Shared v ∧ v.toNat % PAGE_SIZE + 8 ≤ PAGE_SIZE

/-- An import by name that the loader looks up, in a descriptor before the last. -/
structure Patched (f : Nat → u8) (idx slot : Nat) : Prop where
  descriptors : ∀ i, i ≤ idx → ¬ (importAt f i).Last
  dll : rvaToOff f (importAt f idx).dllRva ≠ 0
  thunks : ∀ k, k ≤ slot → thunkAt f (importAt f idx) k ≠ 0
  byName : thunkAt f (importAt f idx) slot >>> 63 = 0
  name : rvaToOff f ((thunkAt f (importAt f idx) slot).setWidth 32) ≠ 0

/-! ## The import loops -/

section

variable {fuel : Nat} {f : Nat → u8} {mod : Module} {mods : List Module} {pml4 loadBase : u64}
  {P : Vmm → Prop}

/-- What every patch of an import keeps, the slots of one DLL keep. -/
theorem patchSlots_keeps {idx : Nat} (hidx : ∀ i, i ≤ idx → ¬ (importAt f i).Last)
    (hdll : rvaToOff f (importAt f idx).dllRva ≠ 0)
    (patch : ∀ slot funcVa s, Patched f idx slot → P s →
      P (patchIatSlot s pml4 (iatSlotVa loadBase (importAt f idx) slot) funcVa).2)
    (n slot : Nat) (hslot : ∀ k, k < slot → thunkAt f (importAt f idx) k ≠ 0) {s : Vmm} (h : P s) :
    P (patchSlots fuel f mod pml4 loadBase (importAt f idx) n slot s).2 := by
  induction n generalizing slot s with
  | zero => exact h
  | succ n ih =>
    rw [patchSlots]
    simp only
    split
    case isTrue => exact h
    case isFalse hthunk =>
      have thunks : ∀ k, k ≤ slot → thunkAt f (importAt f idx) k ≠ 0 := by
        intro k hk
        rcases Nat.lt_or_eq_of_le hk with hk | rfl
        · exact hslot k hk
        · exact hthunk
      have next := fun {u} => ih (s := u) (slot + 1) fun k hk => thunks k (by omega)
      split
      case isTrue => exact next h
      case isFalse hname =>
        split
        case isTrue => exact next h
        case isFalse hibn =>
          split
          case isTrue => exact h
          case isFalse =>
            have h1 := patch slot (findExport fuel mod (strAt f ((rvaToOff f
                ((thunkAt f (importAt f idx) slot).setWidth 32)).toNat + 2))) s
              ⟨hidx, hdll, thunks, not_not.mp hname, hibn⟩ h
            split
            case isTrue => exact next h1
            case isFalse => exact h1

theorem resolveDescriptors_keeps
    (patch : ∀ idx slot funcVa s, Patched f idx slot → P s →
      P (patchIatSlot s pml4 (iatSlotVa loadBase (importAt f idx) slot) funcVa).2)
    (n idx : Nat) (hidx : ∀ i, i < idx → ¬ (importAt f i).Last) {s : Vmm} (h : P s) :
    P (resolveDescriptors fuel f mods pml4 loadBase n idx s).2 := by
  induction n generalizing idx s with
  | zero => exact h
  | succ n ih =>
    rw [resolveDescriptors]
    simp only
    split
    case isTrue => exact h
    case isFalse hlast =>
      have descriptors : ∀ i, i ≤ idx → ¬ (importAt f i).Last := by
        intro i hi
        rcases Nat.lt_or_eq_of_le hi with hi | rfl
        · exact hidx i hi
        · exact hlast
      have next := fun {u} => ih (s := u) (idx + 1) fun i hi => descriptors i (by omega)
      split
      case isTrue => exact next h
      case isFalse hdll =>
        cases findModule fuel mods (strAt f (rvaToOff f (importAt f idx).dllRva).toNat) with
        | none => exact h
        | some mod =>
          simp only
          split
          case isTrue => exact next h
          case isFalse =>
            have h1 : P (patchSlots fuel f mod pml4 loadBase (importAt f idx) fuel 0 s).2 :=
              patchSlots_keeps descriptors hdll (patch idx) fuel 0
                (fun k hk => absurd hk (Nat.not_lt_zero k)) h
            split
            case isTrue => exact next h1
            case isFalse => exact h1

/-- **What every patch keeps, `ResolveImports` keeps.** -/
theorem resolveImports_keeps
    (patch : importRva f ≠ 0 → ∀ idx slot funcVa s, Patched f idx slot → P s →
      P (patchIatSlot s pml4 (iatSlotVa loadBase (importAt f idx) slot) funcVa).2)
    {s : Vmm} (h : P s) : P (resolveImports fuel f mods pml4 loadBase s).2 := by
  rw [resolveImports]
  split
  case isTrue => exact h
  case isFalse hrva =>
    split
    case isTrue => exact h
    case isFalse =>
      exact resolveDescriptors_keeps (patch hrva) fuel 0
        (fun i hi => absurd hi (Nat.not_lt_zero i)) h

end

/-! ## Files that keep to their address space -/

/-- The headers, the pages of the sections and the import slots are private. -/
structure Image.Private (shown : Bool) (f : Image) (loadBase : u64) : Prop where
  header : PrivatePage shown loadBase
  sections : ∀ h ∈ sectionHeaders f.bytes, h.Mapped → ∀ pg, pg < sectionPages h →
    PrivatePage shown (sectionVa loadBase h + pageAddr pg)
  slots : importRva f.bytes ≠ 0 → ∀ idx slot, Patched f.bytes idx slot →
    PrivateSlot (iatSlotVa loadBase (importAt f.bytes idx) slot)

/-- A file that `LoadPe` accepts keeps to private pages. -/
def Image.Safe (shown : Bool) (f : Image) (loadBase : u64) : Prop :=
  64 ≤ f.size → f.Accepted → f.Private shown loadBase

def LoaderOp.Safe (shown : Bool) (libs : Libraries) : LoaderOp → Prop
  | .op _ => True
  | .launch k f => k.Takes f → f.Safe shown (k.loadBase f) ∧
    ∀ d ∈ libs.of k, d.image.Safe shown d.base

/-! ## Roles of one address space -/

/-- The address space whose own table the role is. -/
def Role.space : Role → Option u64
  | .root p => some p
  | .low p => some p
  | .own p _ => some p
  | _ => none

theorem Role.space_child (r : Role) (i : Index) :
    (r.child i).space = r.space ∨ (r.child i).space = none := by
  cases r with
  | kroot => simp only [Role.child]; split <;> exact .inr rfl
  | root p =>
    simp only [Role.child]
    split
    case isTrue => exact .inl rfl
    case isFalse => split <;> [exact .inr rfl; exact .inl rfl]
  | low p => simp only [Role.child]; split <;> [exact .inr rfl; exact .inl rfl]
  | own p n => exact .inl rfl
  | _ => exact .inr rfl

theorem Role.space_foldl (q : List Index) (r : Role) :
    (q.foldl Role.child r).space = r.space ∨ (q.foldl Role.child r).space = none := by
  induction q generalizing r with
  | nil => exact .inl rfl
  | cons i q ih =>
    rw [List.foldl_cons]
    rcases ih (r.child i) with h | h
    · rw [h]
      exact r.space_child i
    · exact .inr h

/-- Tables of the other address spaces and of the kernel. -/
def Role.Foreign (p : u64) (r : Role) : Prop := r.space ≠ some p

theorem Role.Foreign.child {p : u64} {r : Role} (h : r.Foreign p) (i : Index) :
    (r.child i).Foreign p := by
  rcases r.space_child i with hc | hc
  · rw [Role.Foreign, hc]
    exact h
  · rw [Role.Foreign, hc]
    nofun

/-- The tables on the way of a private address are private. -/
theorem private_path (σ : Shape) {p v : u64} (hv : ¬ Shared v) {r : Role}
    (h : (roles σ).onPath (.root p) v r) : r.space = some p := by
  have hlow : ¬ (pml4Idx v = 0#9 ∧ (pdptIdx v).toNat < 4) := fun hl => hv (.inl hl)
  have hsoft : ¬ pml4Idx v = SOFT_SLOT := fun hs => hv (.inr hs)
  have hpdpt : (roles σ).pdpt (.root p) v = if pml4Idx v = 0#9 then .low p else .own p 3 := by
    simp only [Roles.pdpt, roles, Role.child, hsoft, if_false]
  have hpd : (roles σ).pd (.root p) v = .own p 2 := by
    rw [Roles.pd, hpdpt]
    by_cases h0 : pml4Idx v = 0#9
    · have h4 : ¬ (pdptIdx v).toNat < 4 := fun h4 => hlow ⟨h0, h4⟩
      rw [if_pos h0]
      simp only [roles, Role.child, h4, if_false]
    · rw [if_neg h0]
      rfl
  rcases h with rfl | rfl | rfl | rfl
  · rfl
  · rw [hpdpt]
    split <;> rfl
  · rw [hpd]
    rfl
  · rw [Roles.leaf, hpd]
    rfl

theorem private_leaf (σ : Shape) {p v : u64} (hv : ¬ Shared v) :
    (roles σ).leaf (.root p) v = .own p 1 := by
  have hlow : ¬ Low v := fun hl => hv (.inl hl)
  have hsoft : ¬ pml4Idx v = SOFT_SLOT := fun hs => hv (.inr hs)
  rw [leaf_eq, leafRole, if_neg hlow, if_neg hsoft]

/-! ## The invariant of a loader -/

/-- A leaf of the space that is present maps a frame of `D`. -/
def MapsTo (p : u64) (D : Set u64) (r : Role) (e : u64) : Prop :=
  r = .own p 1 → has e PTE_PRESENT = true → e &&& PTE_ADDR_MASK ∈ D

/-- The private pages of the space map frames of `D`, which are in use and are no
tables. -/
structure Loading (R : Rows) (p : u64) (D : Set u64) (is : Role → u64 → Prop) (s : System) :
    Prop where
  inv : Inv R (fun _ _ => True) (fun _ => True) is s
  space : p ∈ s.spaces
  pages : ∀ r t i, is r t → MapsTo p D r (s.vmm.mem t i)
  used : ∀ f ∈ D, Used s.vmm f
  apart : ∀ f ∈ D, ∀ r, ¬ is r f

/-- What a loader leaves alone: the tables of others, and every entry above the
leaves that is there already. -/
structure Spares (p : u64) (is is' : Role → u64 → Prop) (v v' : Vmm) : Prop where
  keep : ∀ r t, is r t → is' r t
  foreign : ∀ r t, is r t → r.Foreign p → v'.mem t = v.mem t
  tables : ∀ r t i, is r t → 1 < r.rank → has (v.mem t i) PTE_PRESENT = true →
    v'.mem t i = v.mem t i
  pml4Phys : v'.pml4Phys = v.pml4Phys

/-- A loader has come from `s` to `v`. -/
def Loaded (R : Rows) (p : u64) (is₀ : Role → u64 → Prop) (s : System) (v : Vmm) : Prop :=
  ∃ D is, Loading R p D is { s with vmm := v } ∧ Spares p is₀ is s.vmm v

section

variable {R : Rows} {shown : Bool} {p : u64} {D : Set u64} {is is' is₀ : Role → u64 → Prop}
  {s : System} {v v' v₀ : Vmm}

theorem Spares.agree (same : ∀ r t, is r t → v'.mem t = v.mem t) (hk : v'.pml4Phys = v.pml4Phys) :
    Spares p is is v v' :=
  ⟨fun _ _ h => h, fun r t hr _ => same r t hr, fun r t i hr _ _ => congrFun (same r t hr) i, hk⟩

theorem Spares.trans (h : Spares p is₀ is v₀ v) (h' : Spares p is is' v v') :
    Spares p is₀ is' v₀ v' where
  keep r t hr := h'.keep r t (h.keep r t hr)
  foreign r t hr hf := (h'.foreign r t (h.keep r t hr) hf).trans (h.foreign r t hr hf)
  tables r t i hr h1 hp := by
    have heq := h.tables r t i hr h1 hp
    rw [h'.tables r t i (h.keep r t hr) h1 (by rw [heq, hp]), heq]
  pml4Phys := h'.pml4Phys.trans h.pml4Phys

/-- Giving back a page that no client holds. -/
theorem Inv.released (h : Inv R (fun _ _ => True) (fun _ => True) is s) {a : u64}
    (hlive : pageOf a ∉ s.live.flatten) (hr : ∀ r, ¬ is r (pageOf a)) :
    Inv R (fun _ _ => True) (fun _ => True) is
      { s with vmm := { s.vmm with pmm := freePage s.vmm.pmm a } } where
  typed := h.typed.freePage fun r t ht heq => hr r (heq ▸ ht)
  root := h.root
  spaces := h.spaces
  owned := by
    refine ⟨fun _ _ _ => trivial, fun b hb => ?_, h.owned.nodup⟩
    obtain ⟨q, hq, rfl, -, hbit⟩ := h.owned.used b hb
    refine ⟨q, hq, rfl, trivial, ?_⟩
    have hne : q ≠ a.toNat / PAGE_SIZE := by
      rintro rfl
      exact hlive (pageAddr_div a ▸ hb)
    show bitmapTest (freePage s.vmm.pmm a).bitmap q = true
    rw [freePage_bitmap, decide_eq_false fun hc => hne hc.1]
    exact hbit
  apart := h.apart

/-- Writing outside the tables. -/
theorem Loading.agree (h : Loading R p D is { s with vmm := v }) {m : Mem}
    (same : ∀ r t, is r t → m t = v.mem t) :
    Loading R p D is { s with vmm := { v with mem := m } } ∧
      Spares p is is v { v with mem := m } := by
  refine ⟨⟨h.inv.mem (h.inv.typed.of_agree same h.inv.typed.used), h.space, fun r t i ht => ?_,
    h.used, h.apart⟩, Spares.agree same rfl⟩
  show MapsTo p D r (m t i)
  rw [same r t ht]
  exact h.pages r t i ht

/-- Taking a page from the allocator. -/
theorem Loading.takes (h : Loading R p D is { s with vmm := v }) {q : Pmm} {k : Nat}
    (ht : Takes v.pmm q k 1) : Loading R p D is { s with vmm := { v with pmm := q } } where
  inv := h.inv.grows (h.inv.typed.takes ht) (show Grows (fun _ => True) is is _ _ from
    ⟨fun _ _ hr => hr, fun _ _ hr => .inl hr, fun q hq => by simp [ht.bits, hq], rfl⟩)
  space := h.space
  pages := h.pages
  used f hf := (h.used f hf).mono fun q hq => by simp [ht.bits, hq]
  apart := h.apart

/-- A page that was free is no table, no page of the loader and no client's. -/
theorem Loading.fresh (h : Loading R p D is { s with vmm := v }) {q : Pmm} {k : Nat}
    (ht : Takes v.pmm q k 1) :
    (∀ r, ¬ is r (pageAddr k)) ∧ pageAddr k ∉ D ∧ pageAddr k ∉ s.live.flatten := by
  have hfree : ¬ Used v (pageAddr k) := not_used_free ht le_rfl (by omega)
  exact ⟨fun r hr => hfree (h.inv.typed.used r _ hr), fun hd => hfree (h.used _ hd),
    fun hl => hfree (owned_used h.inv.owned rfl hl)⟩

/-- Below a huge page nothing can be mapped. -/
theorem Inv.low_refused (h : Inv R (fun _ _ => True) (fun _ => True) is s) (hg : R.Good shown)
    {va : u64} (hp : p ∈ s.spaces) (hlow : Low va) (hblock : shown = true → ¬ KuserBlock va)
    (f flags : u64) : mapPageInto s.vmm p va f flags = (false, s.vmm) := by
  obtain ⟨pdpt, pd, l1, l2, -, e3, -, -, -⟩ := h.low_walk hg (.inr hp) hlow
  have hpd : s.vmm.mem pd (pdIdx va) = pdEntry (pdptIdx va).toNat (pdIdx va) := by
    rw [e3]
    by_cases hb : (pdptIdx va).toNat = 1 ∧ pdIdx va = 511#9
    · have h1 : pdptIdx va = 1#9 := BitVec.eq_of_toNat_eq hb.1
      have hs : shown = false := by
        cases shown with
        | false => rfl
        | true => exact absurd ⟨hlow.1, h1, hb.2⟩ (hblock rfl)
      rw [hb.1, hb.2]
      exact hg.whole hs
    · exact hg.pd _ _ hlow.2 hb
  obtain ⟨p1, s1, m1⟩ := link_eq_some.mp l1
  obtain ⟨p2, s2, m2⟩ := link_eq_some.mp l2
  obtain ⟨p3, s3⟩ := pdEntry_bits (pdptIdx va).toNat (pdIdx va)
  have g1 : getOrAlloc s.vmm p (pml4Idx va) true = (pdpt, s.vmm) := by
    simp only [getOrAlloc, p1, s1, m1, if_true, Bool.false_eq_true, if_false]
  have g2 : getOrAlloc s.vmm pdpt (pdptIdx va) true = (pd, s.vmm) := by
    simp only [getOrAlloc, p2, s2, m2, if_true, Bool.false_eq_true, if_false]
  have g3 : getOrAlloc s.vmm pd (pdIdx va) true = (0, s.vmm) := by
    simp only [getOrAlloc, hpd, p3, s3, if_true]
  simp only [mapPageInto, g1, g2, g3, if_true]
  split <;> [rfl; (split <;> rfl)]

/-- **Mapping a private page** to a frame in use, which becomes the loader's if
that succeeds. -/
theorem Loading.map (h : Loading R p D is { s with vmm := v }) (hg : R.Good shown) {f va : u64}
    (hf : Used v f) (hnf : ∀ r, ¬ is r f) (hframe : IsFrame f) (hva : PrivatePage shown va)
    (w : Bool) :
    ∃ is', Loading R p
        (if (mapPageInto v p va f (userFlags w)).1 = true then insert f D else D) is'
        { s with vmm := (mapPageInto v p va f (userFlags w)).2 } ∧
      Spares p is is' v (mapPageInto v p va f (userFlags w)).2 ∧ ∀ r, ¬ is' r f := by
  by_cases hs : Shared va
  case pos =>
    have hlow : Low va := hs.resolve_right hva.1
    have heq := h.inv.low_refused hg h.space hlow hva.2 f (userFlags w)
    simp only at heq
    rw [heq]
    exact ⟨is, h, Spares.agree (fun _ _ _ => rfl) rfl, hnf⟩
  case neg =>
    obtain ⟨D', hD'⟩ : ∃ D', D' =
        if (mapPageInto v p va f (userFlags w)).1 = true then insert f D else D := ⟨_, rfl⟩
    have grown : ∀ g ∈ D, g ∈ D' := by
      intro g hgD
      rw [hD']
      split
      · exact Set.mem_insert_of_mem f hgD
      · exact hgD
    have added : ∀ g ∈ D', g ∈ D ∨ g = f := by
      intro g hgD
      rw [hD'] at hgD
      split at hgD
      · exact (Set.mem_insert_iff.mp hgD).symm
      · exact .inl hgD
    -- the leaf tables of the space map frames of `D'`
    have typed := h.inv.typed.also (MapsTo p D') fun r t i hr heq hp =>
      grown _ (h.pages r t i hr heq hp)
    have everywhere : Through (roles (R.shape fun _ _ => True)) (.root p) va :=
      through_user hg p va
    have through := everywhere.also rfl (MapsTo p D')
      (fun r e h1 heq => by subst heq; exact absurd h1 (Nat.lt_irrefl 1))
      fun r _ h0 => absurd h0 (by decide)
    obtain ⟨is', ht, hgrow, frame, held⟩ := typed.mapPageInto f (userFlags w)
      (h.inv.spaces p h.space) rfl through fun hsucc => by
        refine ⟨leaf_ok (fun _ => leafEntry_user _ _ (userFlags_user w)) fun _ => trivial,
          fun _ _ => ?_⟩
        rw [leafEntry_frame hframe (userFlags_mask w), hD', if_pos hsucc]
        exact Set.mem_insert f D
    rw [← hD']
    have used : ∀ g ∈ D', Used v g := by
      intro g hgD
      rcases added g hgD with hgD | rfl
      · exact h.used g hgD
      · exact hf
    have apart : ∀ g, Used v g → (∀ r, ¬ is r g) → ∀ r, ¬ is' r g := by
      intro g hu hn r hr
      rcases hgrow.fresh r g hr with hr | ⟨-, hfree⟩
      · exact hn r hr
      · exact hfree hu
    refine ⟨is', ⟨h.inv.grows ht.of_also hgrow, h.space, fun r t i hr => (ht.entry r t i hr).2,
      fun g hgD => (used g hgD).mono hgrow.bits, fun g hgD => apart g (used g hgD) fun r hr => ?_⟩,
      ⟨hgrow.keep, fun r t hr hfor => frame r t hr fun hpath => hfor (private_path (R.shape fun _ _ => True) hs hpath), held,
        hgrow.pml4Phys⟩, apart f hf hnf⟩
    rcases added g hgD with hgD | rfl
    · exact h.apart g hgD r hr
    · exact hnf r hr

/-! ## The loader's functions -/

/-- A page taken from the allocator and filled, ready to be mapped. -/
theorem Loading.newPage (h : Loading R p D is { s with vmm := v }) {q : Pmm} {k : Nat}
    (ht : Takes v.pmm q k 1) (page : Table) :
    Loading R p D is
        { s with vmm := { v with pmm := q, mem := fill v.mem (pageAddr k) page } } ∧
      Spares p is is v { v with pmm := q, mem := fill v.mem (pageAddr k) page } ∧
      Used { v with pmm := q, mem := fill v.mem (pageAddr k) page } (pageAddr k) := by
  have same : ∀ r t, is r t → fill v.mem (pageAddr k) page t = v.mem t := fun r t hr =>
    fill_of_ne fun heq => (h.fresh ht).1 r (heq ▸ hr)
  refine ⟨((h.takes ht).agree same).1, Spares.agree same rfl, ?_⟩
  exact used_taken ht le_rfl (by omega)

theorem Loaded.mapFresh (h : Loaded R p is₀ s v) (hg : R.Good shown) {va : u64}
    (hva : PrivatePage shown va) (w : Bool) (page : Table) :
    Loaded R p is₀ s (mapFresh v p va (userFlags w) page).2 := by
  obtain ⟨D, is, h, hs⟩ := h
  rw [Kernel.mapFresh]
  rcases allocPage_cases v.pmm with ⟨k, hk, ht⟩ | ⟨h0, -⟩
  case inr =>
    simp only [h0, if_true]
    exact ⟨D, is, h, hs⟩
  case inl =>
    generalize allocPage v.pmm = r at *
    split
    case isTrue =>
      exact ⟨D, is, h.takes ht, hs.trans (Spares.agree (fun _ _ _ => rfl) rfl)⟩
    case isFalse =>
      rw [hk]
      obtain ⟨hnf, hnD, hlive⟩ := h.fresh ht
      obtain ⟨h1, s1, hu⟩ := h.newPage ht page
      obtain ⟨is', h2, s2, hnf'⟩ := h1.map hg hu hnf (isFrame_pageAddr ht.within) hva w
      generalize mapPageInto _ p va (pageAddr k) (userFlags w) = q at *
      have hs := (hs.trans s1).trans s2
      simp only
      split
      case isTrue hsucc =>
        rw [if_pos hsucc] at h2
        exact ⟨_, is', h2, hs⟩
      case isFalse hfail =>
        rw [if_neg hfail] at h2
        have hpage := pageOf_pageAddr ht.within
        refine ⟨D, is', ⟨h2.inv.released (by rwa [hpage]) (by rwa [hpage]), h2.space, h2.pages,
          fun f hf => (h2.used f hf).freePage ?_, h2.apart⟩,
          hs.trans (Spares.agree (fun _ _ _ => rfl) rfl)⟩
        rintro rfl
        exact hnD (hpage ▸ hf)

theorem Loaded.setupPage (h : Loaded R p is₀ s v) (hg : R.Good shown) {va : u64}
    (hva : PrivatePage shown va) (page : Table) :
    Loaded R p is₀ s (setupPage v p va page).2 := by
  obtain ⟨D, is, h, hs⟩ := h
  rw [Kernel.setupPage]
  rcases allocPage_cases v.pmm with ⟨k, hk, ht⟩ | ⟨h0, -⟩
  case inr =>
    simp only [h0, if_true]
    exact ⟨D, is, h, hs⟩
  case inl =>
    generalize allocPage v.pmm = r at *
    split
    case isTrue =>
      exact ⟨D, is, h.takes ht, hs.trans (Spares.agree (fun _ _ _ => rfl) rfl)⟩
    case isFalse =>
      rw [hk]
      obtain ⟨h1, s1, hu⟩ := h.newPage ht page
      obtain ⟨is', h2, s2, -⟩ :=
        h1.map hg hu (h.fresh ht).1 (isFrame_pageAddr ht.within) hva true
      exact ⟨_, is', h2, (hs.trans s1).trans s2⟩

theorem Loaded.mapPages (hg : R.Good shown) {f : Image} {loadBase : u64} {hd : SectionHeader}
    (n pg : Nat) (hva : ∀ k, pg ≤ k → k < pg + n →
      PrivatePage shown (sectionVa loadBase hd + pageAddr k))
    (h : Loaded R p is₀ s v) : Loaded R p is₀ s (mapPages f p loadBase hd n pg v).2 := by
  induction n generalizing pg v with
  | zero => exact h
  | succ n ih =>
    have h1 := h.mapFresh hg (hva pg le_rfl (by omega)) (hd.chars &&& 0x80000000#32 != 0#32)
      (sectionPage f hd pg)
    rw [Kernel.mapPages]
    split
    case isTrue => exact ih (pg + 1) (fun k h1 h2 => hva k (by omega) (by omega)) h1
    case isFalse => exact h1

theorem Loaded.mapSectionList (hg : R.Good shown) {f : Image} {loadBase : u64}
    (hs : List SectionHeader) (hva : ∀ hd ∈ hs, hd.Mapped → ∀ pg, pg < sectionPages hd →
      PrivatePage shown (sectionVa loadBase hd + pageAddr pg))
    (h : Loaded R p is₀ s v) : Loaded R p is₀ s (mapSectionList f p loadBase hs v).2 := by
  induction hs generalizing v with
  | nil => exact h
  | cons hd hs ih =>
    have rest := fun e he => hva e (List.mem_cons_of_mem hd he)
    rw [Kernel.mapSectionList]
    split
    case isTrue hm =>
      have h1 := Loaded.mapPages hg (f := f) (sectionPages hd) 0
        (fun k _ hk => hva hd List.mem_cons_self hm k (by omega)) h
      simp only
      split
      case isTrue => exact ih rest h1
      case isFalse => exact h1
    case isFalse => exact ih rest h

theorem Loaded.mapSections (h : Loaded R p is₀ s v) (hg : R.Good shown) {f : Image}
    {loadBase : u64} (hf : f.Private shown loadBase) :
    Loaded R p is₀ s (mapSections f p loadBase v).2 := by
  have h1 := h.mapFresh hg hf.header false (headerPage f)
  rw [Kernel.mapSections]
  split
  case isTrue => exact Loaded.mapSectionList hg _ hf.sections h1
  case isFalse => exact h1

/-! ## Stores through the page tables -/

/-- A store of eight bytes inside a frame. -/
theorem writeBytes_of_ne {phys val f t : u64} (n i : Nat) (ht : t ≠ f)
    (hp : ∀ k, i ≤ k → k < i + n → pageOf (phys + BitVec.ofNat 64 k) = f) (m : Mem) :
    writeBytes phys val n i m t = m t := by
  induction n generalizing i m with
  | zero => rfl
  | succ n ih =>
    rw [writeBytes, ih (i + 1) (fun k h1 h2 => hp k (by omega) (by omega))]
    refine write_of_table_ne fun heq => ht (heq.trans ?_)
    exact hp i le_rfl (by omega)

theorem pageOf_add {f o : u64} (hf : IsFrame f) {k : Nat} (h : o.toNat + k < PAGE_SIZE) :
    pageOf (f + o + BitVec.ofNat 64 k) = f := by
  have hf := (isFrame_iff f).mp hf
  simp only [PAGE_SIZE] at *
  rw [← BitVec.toNat_inj, pageOf, alignDown_toNat, BitVec.toNat_add, BitVec.toNat_add,
    BitVec.toNat_ofNat]
  simp only [PAGE_SIZE]
  omega

/-- **A store to a private slot** stays in a frame of the loader. -/
theorem Loading.store (h : Loading R p D is { s with vmm := v }) (hg : R.Good shown) {va : u64}
    (hva : PrivateSlot va) (ht : translateInPml4 v.mem p va ≠ 0) :
    ∃ f ∈ D, ∀ m val t, t ≠ f → writeU64 m (translateInPml4 v.mem p va) val t = m t := by
  have hlow : ¬ Low va := fun hl => hva.1 (.inl hl)
  obtain ⟨pdpt, pd, pt, hr⟩ := h.inv.mapped hg h.space hlow ht
  have hleaf := h.inv.typed.pageTable (h.inv.spaces p h.space) rfl
    (pageTable_eq_some.mpr ⟨pdpt, pd, hr⟩)
  rw [private_leaf _ hva.1] at hleaf
  have hr : Reaches v.mem p va pdpt pd pt := hr
  rw [hr.translate] at ht ⊢
  split at ht
  case isFalse => exact absurd rfl ht
  case isTrue hpres =>
    rw [if_pos hpres]
    refine ⟨_, h.pages _ _ _ hleaf rfl hpres, fun m val t hne => ?_⟩
    rw [frame_or_offset (isFrame_and _)]
    refine writeBytes_of_ne 8 0 hne (fun k _ hk => pageOf_add (isFrame_and _) ?_) m
    have hoff := hva.2
    rw [offset_toNat]
    omega

theorem Loaded.store (h : Loaded R p is₀ s v) (hg : R.Good shown) {va : u64}
    (hva : PrivateSlot va) (ht : translateInPml4 v.mem p va ≠ 0) {m : Mem}
    (hm : ∀ t, (∀ m' val, writeU64 m' (translateInPml4 v.mem p va) val t = m' t) →
      m t = v.mem t) : Loaded R p is₀ s { v with mem := m } := by
  obtain ⟨D, is, h, hs⟩ := h
  obtain ⟨f, hf, hw⟩ := h.store hg hva ht
  obtain ⟨h', s'⟩ := h.agree fun r t hr => hm t fun m' val => hw m' val t fun heq =>
    h.apart f hf r (heq ▸ hr)
  exact ⟨D, is, h', hs.trans s'⟩

theorem Loaded.patchIatSlot (h : Loaded R p is₀ s v) (hg : R.Good shown) {va : u64}
    (hva : PrivateSlot va) (funcVa : u64) :
    Loaded R p is₀ s (patchIatSlot v p va funcVa).2 := by
  rw [Kernel.patchIatSlot]
  simp only
  split
  case isTrue => exact h
  case isFalse ht =>
    refine h.store hg hva ht fun t hw => ?_
    rw [hw, BitVec.sub_add_cancel, hw]

theorem Loaded.storeAt (h : Loaded R p is₀ s v) (hg : R.Good shown) {va : u64}
    (hva : PrivateSlot va) (val : u64) :
    Loaded R p is₀ s { v with mem := storeAt p val v.mem va } := by
  rw [Kernel.storeAt]
  split
  case isTrue => exact h
  case isFalse ht => exact h.store hg hva ht fun t hw => hw _ _

theorem Loaded.storeAll (hg : R.Good shown) (val : u64) {vas : List u64}
    (hvas : ∀ va ∈ vas, PrivateSlot va) {m : Mem} (h : Loaded R p is₀ s { v with mem := m }) :
    Loaded R p is₀ s { v with mem := vas.foldl (Kernel.storeAt p val) m } := by
  induction vas generalizing m with
  | nil => exact h
  | cons va vas ih =>
    exact ih (fun w hw => hvas w (List.mem_cons_of_mem va hw))
      (Loaded.storeAt h hg (hvas va List.mem_cons_self) val)

theorem Loaded.resolveImports (h : Loaded R p is₀ s v) (hg : R.Good shown) (fuel : Nat)
    (mods : List Module) {f : Image} {loadBase : u64} (hf : f.Private shown loadBase) :
    Loaded R p is₀ s (resolveImports fuel f.bytes mods p loadBase v).2 :=
  resolveImports_keeps (P := Loaded R p is₀ s)
    (fun hrva idx slot funcVa _ hp h => h.patchIatSlot hg (hf.slots hrva idx slot hp) funcVa) h

/-! ## Processes and whole files -/

/-- A loader has come from `s` to the system of `l`. -/
def Arrived (R : Rows) (p : u64) (is₀ : Role → u64 → Prop) (s : System) (l : Loader) : Prop :=
  ∃ v, l.sys = { s with vmm := v } ∧ Loaded R p is₀ s v

theorem Arrived.withVmm {l : Loader} (h : Arrived R p is₀ s l)
    (hv : ∀ v, Loaded R p is₀ s v → l.sys.vmm = v → Loaded R p is₀ s v') :
    Arrived R p is₀ s (l.withVmm v') := by
  obtain ⟨v, hl, hload⟩ := h
  refine ⟨v', ?_, hv v hload (by rw [hl])⟩
  rw [Loader.withVmm, hl]

theorem notifySlots_private : ∀ va ∈ notifySlots, PrivateSlot va := by
  intro va hva
  simp only [notifySlots, List.mem_cons, List.not_mem_nil, or_false] at hva
  rcases hva with rfl | rfl <;> exact ⟨by decide, by decide⟩

theorem Arrived.notifyImageLoaded {l : Loader} (h : Arrived R p is₀ s l) (hg : R.Good shown)
    (imageBase : u64) : Arrived R p is₀ s (notifyImageLoaded l p imageBase) := by
  rw [Kernel.notifyImageLoaded]
  split
  case h_1 => exact h
  case h_2 =>
    obtain ⟨v, hl, hload⟩ := h
    refine ⟨_, by simp only [Loader.withVmm, hl]; rfl, ?_⟩
    exact Loaded.storeAll hg imageBase notifySlots_private hload

theorem Arrived.loadPe {l : Loader} (h : Arrived R p is₀ s l) (hg : R.Good shown) (fuel : Nat)
    {f : Image} {loadBase : u64} (hf : f.Safe shown loadBase) :
    Arrived R p is₀ s (loadPe fuel l f p loadBase).2.2 := by
  rw [Kernel.loadPe]
  split
  case isTrue => exact h
  case isFalse hsize =>
    split
    case isTrue => exact h
    case isFalse hacc =>
      have hf := hf (by omega) (not_not.mp hacc)
      obtain ⟨v, hl, hload⟩ := h
      have h1 := hload.mapSections hg hf
      have hv : l.sys.vmm = v := by rw [hl]
      have at1 : ∀ {u}, Loaded R p is₀ s u → Arrived R p is₀ s (l.withVmm u) := fun hu =>
        ⟨_, by rw [Loader.withVmm, hl], hu⟩
      simp only [hv]
      split
      case isTrue => exact at1 h1
      case isFalse =>
        have h2 := h1.resolveImports hg fuel l.mods hf
        split
        case isTrue => exact at1 h2
        case isFalse => exact (at1 h2).notifyImageLoaded hg loadBase

theorem Arrived.loadLibraries {l : Loader} (hg : R.Good shown) (fuel : Nat) {ds : List Library}
    (hds : ∀ d ∈ ds, d.image.Safe shown d.base) (h : Arrived R p is₀ s l) :
    Arrived R p is₀ s (loadLibraries fuel p l ds) := by
  induction ds generalizing l with
  | nil => exact h
  | cons d ds ih =>
    have h1 := h.loadPe hg fuel (hds d List.mem_cons_self)
    refine ih (fun e he => hds e (List.mem_cons_of_mem d he)) ?_
    show Arrived R p is₀ s (loadAndRegister fuel l d.name d.image p d.base)
    rw [loadAndRegister]
    simp only
    split
    case isTrue => exact h1
    case isFalse => exact h1

theorem setupVa_private (shown : Bool) {k : Nat} (hk : k < 4) :
    PrivatePage shown (PEB_VA + pageAddr k) := by
  have all : ∀ k : Fin 4, pml4Idx (PEB_VA + pageAddr k) ≠ SOFT_SLOT ∧
      ¬ KuserBlock (PEB_VA + pageAddr k) := by
    unfold KuserBlock
    decide
  exact ⟨(all ⟨k, hk⟩).1, fun _ => (all ⟨k, hk⟩).2⟩

theorem Loaded.setupPages (hg : R.Good shown) {pages : Nat → Table} (n k : Nat) (hk : k + n ≤ 4)
    (h : Loaded R p is₀ s v) : Loaded R p is₀ s (setupPages p pages n k v) := by
  induction n generalizing k v with
  | zero => exact h
  | succ n ih =>
    have h1 := h.setupPage hg (setupVa_private shown (k := k) (by omega)) (pages k)
    rw [Kernel.setupPages]
    split
    case isTrue => exact ih (k + 1) (by omega) h1
    case isFalse => exact h1

theorem Arrived.createProcess {l : Loader} (h : Arrived R p is₀ s l) (hg : R.Good shown)
    (pages : Nat → Table) : Arrived R p is₀ s (createProcess l p pages) := by
  obtain ⟨v, hl, hload⟩ := h
  have hpeb : Loaded R p is₀ s (setupPeb v p pages).2 := by
    have h1 := hload.setupPage hg (setupVa_private shown (k := 0) (by omega)) (pages 0)
    rw [show PEB_VA + pageAddr 0 = PEB_VA by decide] at h1
    rw [setupPeb]
    split
    case isTrue => exact Loaded.setupPages hg 3 1 (by omega) h1
    case isFalse => exact h1
  have hv : l.sys.vmm = v := by rw [hl]
  rw [Kernel.createProcess]
  simp only [hv]
  split <;> exact ⟨_, by simp only [Loader.withVmm, hl], hpeb⟩

/-! ## A fresh address space -/

/-- Only the tables that an address space reaches have roles. -/
theorem Inv.reached_space (h : Inv R (fun _ _ => True) (fun _ => True) is s) :
    ∃ is', Inv R (fun _ _ => True) (fun _ => True) is' s ∧
      ∀ r t q, is' r t → r.space = some q → Used s.vmm q := by
  refine ⟨_, h.reached, fun r t q hr hq => ?_⟩
  obtain ⟨hr, pml4, hp, path, hlen, hrank, hd⟩ := hr
  have hrank : path.length + r.rank = 4 := hrank
  rcases h.role hp with hroot | hroot
  · have hend := h.typed.descend (r := .kroot) hroot (show path.length < 4 by omega) hd
    obtain rfl := h.typed.alone _ _ _ hr hend trivial
    rcases Role.space_foldl path .kroot with hs | hs
    · rw [show (roles (R.shape fun _ _ => True)).child = Role.child from rfl, hs] at hq
      cases hq
    · rw [show (roles (R.shape fun _ _ => True)).child = Role.child from rfl, hs] at hq
      cases hq
  · have hend := h.typed.descend (r := .root pml4) hroot (show path.length < 4 by omega) hd
    obtain rfl := h.typed.alone _ _ _ hr hend trivial
    rcases Role.space_foldl path (.root pml4) with hs | hs
    · rw [show (roles (R.shape fun _ _ => True)).child = Role.child from rfl, hs] at hq
      obtain rfl := Option.some.inj hq
      exact h.typed.used _ _ hroot
    · rw [show (roles (R.shape fun _ _ => True)).child = Role.child from rfl, hs] at hq
      cases hq

/-- The frame of a new PML4 was free. -/
theorem createUserPml4_fresh (h : Inv R (fun _ _ => True) (fun _ => True) is s)
    (hg : R.Good shown) (hne : (createUserPml4 s.vmm).1 ≠ 0) :
    ¬ Used s.vmm (createUserPml4 s.vmm).1 := by
  rcases createUserPml4_cases (h.typed.used _ _ h.root)
    (fun _ => h.typed.used _ _ (h.kernelLow hg)) with ⟨t, ht, -⟩ | ⟨i, j, q, q', ht, -, -, heq⟩
  · rw [ht] at hne
    exact absurd rfl hne
  · rw [heq]
    exact not_used_free ht le_rfl (by omega)

/-- **A new address space** has no private page yet. -/
theorem Inv.newSpace {l : Loader} (h : Inv R (fun _ _ => True) (fun _ => True) is l.sys)
    (hg : R.Good shown) (hne : (newSpace l).1 ≠ 0) :
    ∃ is', Loading R (newSpace l).1 ∅ is' (newSpace l).2.sys := by
  have hne : (createUserPml4 l.sys.vmm).1 ≠ 0 := hne
  have hfree := createUserPml4_fresh h hg hne
  obtain ⟨is₁, h₁, hspace⟩ := h.reached_space
  obtain ⟨is', htyped, hgrows, -, hroot⟩ :=
    h₁.typed.createUserPml4 h₁.root (fun _ => h₁.kernelLow hg) (h₁.clonable hg)
  have hi := h₁.grows htyped hgrows
  simp only [Kernel.newSpace, if_neg hne]
  refine ⟨is', ⟨hi.typed, hi.root, fun q hq => ?_, hi.owned, hi.apart⟩, List.mem_cons_self,
    fun r t i hr heq => ?_, nofun, nofun⟩
  · rcases List.mem_cons.mp hq with rfl | hq
    · exact hroot hne
    · exact hi.spaces q hq
  · subst heq
    rcases hgrows.fresh _ t hr with hr | ⟨⟨f, hf⟩, -⟩
    · exact absurd (hspace _ t _ hr rfl) hfree
    · rcases hf with hf | hf <;> cases hf

/-! ## Confinement -/

/-- Loading changes no translation and no right in other address spaces, the
kernel's included, nor in what the space has taken over from the kernel. -/
structure LoadConfined (s t : System) (p : u64) : Prop where
  others : ∀ pml4, s.IsSpace pml4 → pml4 ≠ p → ∀ v, SameView s.vmm.mem t.vmm.mem pml4 v
  copied : ∀ v, Shared v → SameView s.vmm.mem t.vmm.mem p v

/-- **What spares the other tables is confined.** -/
theorem Spares.confined (h : Inv R (fun _ _ => True) (fun _ => True) is s) (hg : R.Good shown)
    (hp : p ∈ s.spaces) (hs : Spares p is is' s.vmm v) :
    LoadConfined s { s with vmm := v } p := by
  have closed : ∀ (r : Role) (i : Index), r.Foreign p → 1 < r.rank → (r.child i).Foreign p :=
    fun r i hr _ => hr.child i
  have same : ∀ (r : Role) (t : u64), r.Foreign p → is r t → v.mem t = s.vmm.mem t :=
    fun r t hf hr => hs.foreign r t hr hf
  refine ⟨fun pml4 hq hne va => ?_, fun va hva => ?_⟩
  · refine .of_entries ?_
    rcases h.role hq with hr | hr
    · exact h.typed.entries_eq closed same hr (fun e => by cases e) rfl va
    · exact h.typed.entries_eq closed same hr (fun heq => hne (Option.some.inj heq)) rfl va
  · refine .of_entries ?_
    have hroot := h.spaces p hp
    have below : ∀ {r : Role} {t : u64} {q : List Index}, is r t → r.Foreign p →
        q.length ≤ r.rank → walk link v.mem t q = walk link s.vmm.mem t q := fun hr hf hq =>
      walk_eq_of_roles (roles (R.shape fun _ _ => True)).rank_child h.typed.linked closed same hr hf
        hq
    have first : ∀ {pdpt}, link (s.vmm.mem p (pml4Idx va)) = some pdpt →
        v.mem p (pml4Idx va) = s.vmm.mem p (pml4Idx va) := fun hl =>
      hs.tables (.root p) p _ hroot (show 1 < 4 by decide) (link_eq_some.mp hl).1
    have linked := fun pdpt => h.typed.linked (.root p) p (pml4Idx va) pdpt
      (show 1 < 4 by decide) hroot
    rcases hva with hlow | hsoft
    · -- two private tables, then the kernel's page directory
      obtain ⟨pdpt, pd, l1, l2, -, -, hpd, -, -⟩ := h.low_walk hg (.inr hp) hlow
      have hpdpt : is (.low p) pdpt := by
        have := linked pdpt l1
        simpa only [roles, Role.child, hlow.1, if_true] using this
      have second : v.mem pdpt (pdptIdx va) = s.vmm.mem pdpt (pdptIdx va) :=
        hs.tables (.low p) pdpt _ hpdpt (show 1 < 3 by decide) (link_eq_some.mp l2).1
      simp only [VMM.entries, path, walk_cons_cons _ _ (pml4Idx va), first l1, l1,
        walk_cons_cons _ _ (pdptIdx va), second, l2, Option.elim_some]
      rw [below hpd (fun e => by cases e) (show [pdIdx va, ptIdx va].length ≤ 2 from le_rfl)]
    · -- the PML4 leads to a table of the kernel at once
      obtain ⟨pdpt, l1⟩ : ∃ pdpt, link (s.vmm.mem p (pml4Idx va)) = some pdpt := by
        rw [hsoft, show s.vmm.mem p SOFT_SLOT = R.kroot SOFT_SLOT from
          h.typed.entry _ _ SOFT_SLOT hroot]
        exact isTable_link hg.soft
      have hpdpt : is (.soft 3) pdpt := by
        have := linked pdpt l1
        simp only [roles, Role.child, hsoft] at this
        exact this
      simp only [VMM.entries, path, walk_cons_cons _ _ (pml4Idx va), first l1, l1, Option.elim_some]
      rw [below hpdpt (fun e => by cases e)
        (show [pdptIdx va, pdIdx va, ptIdx va].length ≤ 3 from le_rfl)]

end

/-! ## Runs -/

/-- Every `LoadPe` of a launch, that of a library included, is confined. -/
def LoadsConfined (fuel : Nat) (libs : Libraries) (pages : Nat → Table) (l : Loader) :
    LoaderOp → Prop
  | .op _ => True
  | .launch k f =>
    let p := (newSpace l).1
    let created := createProcess (newSpace l).2 p pages
    let ready := loadLibraries fuel p created (libs.of k)
    k.Takes f → p ≠ 0 → LoadConfined created.sys ready.sys p ∧
      LoadConfined ready.sys (loadPe fuel ready f p (k.loadBase f)).2.2.sys p

section

variable {R : Rows} {shown : Bool} {p : u64} {D : Set u64} {is is₀ : Role → u64 → Prop}
  {s : System} {fuel : Nat} {libs : Libraries} {pages : Nat → Table} {l l' : Loader}

/-- A loader that has come to a state may start anew there. -/
theorem Arrived.restart (h : Arrived R p is₀ s l) :
    ∃ D is, Loading R p D is l.sys ∧ Arrived R p is l.sys l := by
  obtain ⟨v, hl, D, is, hload, -⟩ := h
  rw [← hl] at hload
  exact ⟨D, is, hload, l.sys.vmm, rfl, D, is, hload, Spares.agree (fun _ _ _ => rfl) rfl⟩

theorem Arrived.confined (hs : Loading R p D is s) (hg : R.Good shown) (h : Arrived R p is s l) :
    LoadConfined s l.sys p := by
  obtain ⟨v, hl, D', is', -, hspares⟩ := h
  rw [hl]
  exact hspares.confined hs.inv hg hs.space

/-- The stages of a launch. -/
theorem launch_stages (h : Inv R (fun _ _ => True) (fun _ => True) is l.sys) (hg : R.Good shown)
    {k : Launcher} {f : Image} (hsafe : (LoaderOp.launch k f).Safe shown libs) (ht : k.Takes f)
    (hne : (newSpace l).1 ≠ 0) :
    LoadsConfined fuel libs pages l (.launch k f) ∧
      ∃ is', Inv R (fun _ _ => True) (fun _ => True) is' (launch fuel libs pages l k f).sys := by
  obtain ⟨hf, hlibs⟩ := hsafe ht
  obtain ⟨is₁, h₁⟩ := h.newSpace hg hne
  have a₁ : Arrived R (newSpace l).1 is₁ (newSpace l).2.sys (newSpace l).2 :=
    ⟨_, rfl, ∅, is₁, h₁, Spares.agree (fun _ _ _ => rfl) rfl⟩
  obtain ⟨D₂, is₂, h₂, a₂⟩ := (a₁.createProcess hg pages).restart
  have a₃ := Arrived.loadLibraries hg fuel hlibs a₂
  obtain ⟨D₃, is₃, h₃, b₃⟩ := a₃.restart
  have a₄ := b₃.loadPe hg fuel hf
  obtain ⟨D₄, is₄, h₄, -⟩ := a₄.restart
  refine ⟨fun _ _ => ⟨a₃.confined h₂ hg, a₄.confined h₃ hg⟩, is₄, ?_⟩
  rw [launch, if_pos ht]
  simp only [if_neg hne]
  exact h₄.inv

theorem Inv.stepLoader (h : Inv R (fun _ _ => True) (fun _ => True) is l.sys) (hg : R.Good shown)
    {e : LoaderOp} (hsafe : e.Safe shown libs) (ht : stepLoader fuel libs pages l e = some l') :
    ∃ is', Inv R (fun _ _ => True) (fun _ => True) is' l'.sys := by
  cases e with
  | op op =>
    obtain ⟨t, hop, rfl⟩ := Option.map_eq_some_iff.mp ht
    exact h.step hg op.fits_free hop
  | launch k f =>
    obtain rfl := Option.some.inj ht
    by_cases hk : k.Takes f
    case neg =>
      rw [launch, if_neg hk]
      exact ⟨is, h⟩
    case pos =>
      by_cases hne : (Kernel.newSpace l).1 = 0
      case neg => exact (launch_stages h hg hsafe hk hne).2
      case pos =>
        have hnew : Kernel.step l.sys .createUserPml4 = some (Kernel.newSpace l).2.sys := rfl
        rw [launch, if_pos hk]
        simp only [if_pos hne]
        exact h.step hg (show Op.Fits _ .createUserPml4 from trivial) hnew

end

/-- The system after boot: no module, and the System process, which has no PEB. -/
def startLoader (v : Vmm) : Loader :=
  { sys := start v, mods := [], procs := [⟨v.pml4Phys, 0, 0⟩] }

/-- **Loading a file cannot leak out of its process**, in every run of system calls
and launches whose files and libraries map private pages only and keep the slots
of their imports inside private pages. -/
theorem pe_loading_confined (m : Mem) (pt bmStart : u64) (bi : Option BootInfo) (page : Table)
    (shown : Bool) (v : Vmm) (hb : TablesAt pt bi)
    (hboot : boot m pt bmStart bi page = some (shown, v)) (fuel : Nat) (libs : Libraries)
    (pages : Nat → Table) (es : List LoaderOp) (hes : ∀ e ∈ es, e.Safe shown libs) :
    Along (stepLoader fuel libs pages) (LoadsConfined fuel libs pages) (startLoader v) es := by
  obtain ⟨R, is, hg, h⟩ := run_inv hb hboot (show run step (start v) [] = some (start v) from rfl)
  refine along_invariant
    (I := fun l => ∃ is, Inv R (fun _ _ => True) (fun _ => True) is l.sys)
    (fun l e l' hl he ht => ?_) (fun l e hl he => ?_) ⟨is, h⟩ (along_of_forall_mem hes _)
  · obtain ⟨is, hl⟩ := hl
    exact hl.stepLoader hg he ht
  · obtain ⟨is, hl⟩ := hl
    cases e with
    | op op => trivial
    | launch k f => exact fun hk hne => (launch_stages hl hg he hk hne).1 hk hne

/-! ## Two files -/

/-- A file of 256 bytes with headers that `LoadPe` accepts and no section; `more`
gives further bytes. -/
def headersOnly (more : List (Nat × u8)) : Image where
  bytes n := (([(0, 0x4D), (1, 0x5A), (60, 64), (64, 0x50), (65, 0x45), (68, 0x64), (69, 0x86),
    (88, 0x0B), (89, 0x02)] ++ more).lookup n).getD 0
  size := 256

/-- A file without imports, started in the background. -/
theorem pe_loading_confined_headersOnly :
    ∃ v, boot (fun _ _ => 0) 0x10000000#64 0x120000#64 (some lowBoot) (fun _ => 0) = some (true, v) ∧
      ∀ fuel libs pages, Along (stepLoader fuel libs pages) (LoadsConfined fuel libs pages)
        (startLoader v) [.launch .bg (headersOnly [])] := by
  obtain ⟨v, hboot, -⟩ := lowBoot_pool
  refine ⟨v, hboot, fun fuel libs pages =>
    pe_loading_confined _ _ _ _ _ _ v tablesAt_lowBoot hboot fuel libs pages _ fun e he => ?_⟩
  obtain rfl := List.mem_singleton.mp he
  refine fun _ => ⟨fun _ _ => ⟨⟨by decide, fun _ h => absurd h.2.1 (by decide)⟩, fun h hh => ?_,
    fun h0 => absurd (by decide) h0⟩, nofun⟩
  rw [show sectionHeaders (headersOnly []).bytes = [] by decide] at hh
  cases hh

section

variable {R : Rows} {is : Role → u64 → Prop} {s : System}

/-- A page mapped over the shared block opens an address of the kernel's PML4. -/
theorem Inv.map_block (h : Inv R (fun _ _ => True) (fun _ => True) is s) (hg : R.Good true)
    {p va g : u64} (hp : p ∈ s.spaces) (hva : KuserBlock va) (hlow : s.vmm.mem p 0#9 = tableEntry g)
    (hframe : IsFrame g) (hg0 : g ≠ 0) (f : u64) (w : Bool) :
    (mapPageInto s.vmm p va f (userFlags w)).1 = true ∧
      userReads (mapPageInto s.vmm p va f (userFlags w)).2.mem s.vmm.pml4Phys va = true := by
  obtain ⟨i4, i3, i2⟩ := hva
  have hl : Low va := ⟨i4, by rw [i3]; decide⟩
  obtain ⟨pdpt, pd, pt, hr, hsplit⟩ := h.block_reaches hg rfl (.inr hp) hl i3 i2
  obtain ⟨pdpt', pd', l1, l2, e2, e3, -, -, -⟩ := h.low_walk hg (.inr hp) hl
  obtain rfl := Option.some.inj (l1.symm.trans hr.pml4)
  obtain rfl := Option.some.inj (l2.symm.trans hr.pdpt)
  have n1 : pdpt' ≠ 0 := by
    rw [i4, hlow, link_tableEntry hframe] at l1
    exact Option.some.inj l1 ▸ hg0
  have n2 : pd' ≠ 0 := hg.nonzero _ (.inl ⟨_, e2 ▸ l2⟩)
  have n3 : pt ≠ 0 := hg.nonzero _ (.inr (by
    have hl := hr.pd
    rwa [e3, i3, i2] at hl))
  have goes : ∀ {t b : u64} {i : Index}, link (s.vmm.mem t i) = some b →
      getOrAlloc s.vmm t i true = (b, s.vmm) := by
    intro t b i hl
    obtain ⟨hpres, hps, rfl⟩ := link_eq_some.mp hl
    simp only [getOrAlloc, hpres, hps, if_true, Bool.false_eq_true, if_false]
  simp only [mapPageInto, goes l1, goes l2, goes hr.pd, if_neg n1, if_neg n2, if_neg n3, true_and]
  -- the kernel reaches the same page table
  obtain ⟨pdpt, hk, ho⟩ := h.kernel_reaches hg hp (.inl hl) hr
  have upper : ∀ r t, is r t → 1 < (roles (R.shape fun _ _ => True)).rank r →
      write s.vmm.mem pt (ptIdx va) (leafEntry f (userFlags w)) t = s.vmm.mem t :=
    fun r t hrt hrank => write_of_table_ne fun heq => by
      subst heq
      obtain rfl := h.typed.alone _ _ _ hrt hsplit trivial
      exact absurd hrank (Nat.lt_irrefl 1)
  obtain ⟨hk', k1, k2, k3⟩ := h.typed.reaches_leaf upper h.root rfl hk
  rw [userReads, hk'.userCan (open_congr ho k1 k2 k3), write_same, leafEntry_present,
    leafEntry_user _ _ (userFlags_user w)]
  rfl

end

theorem setupPage_allocs (s : Vmm) (pml4 va : u64) (page : Table) :
    Allocs 4 s.pmm (setupPage s pml4 va page).2.pmm := by
  rw [setupPage]
  split
  case isTrue => exact (Allocs.one s.pmm).mono (by decide)
  case isFalse =>
    have h3 := mapPageInto_allocs
      { s with pmm := (allocPage s.pmm).2, mem := fill s.mem (allocPage s.pmm).1 page } pml4 va
      (allocPage s.pmm).1 (userFlags true)
    exact (Allocs.one s.pmm).trans h3

theorem setupPages_allocs (pml4 : u64) (pages : Nat → Table) (n k : Nat) (s : Vmm) :
    Allocs (4 * n) s.pmm (setupPages pml4 pages n k s).pmm := by
  induction n generalizing k s with
  | zero => exact .refl 0 s.pmm
  | succ n ih =>
    have h1 := setupPage_allocs s pml4 (PEB_VA + pageAddr k) (pages k)
    rw [setupPages]
    split
    case isTrue => exact (h1.trans (ih (k + 1) _)).mono (by omega)
    case isFalse => exact h1.mono (by omega)

theorem createProcess_allocs (l : Loader) (p : u64) (pages : Nat → Table) :
    Allocs 16 l.sys.vmm.pmm (createProcess l p pages).sys.vmm.pmm := by
  have h : Allocs 16 l.sys.vmm.pmm (setupPeb l.sys.vmm p pages).2.pmm := by
    have h1 := setupPage_allocs l.sys.vmm p PEB_VA (pages 0)
    rw [setupPeb]
    split
    case isTrue => exact h1.trans (setupPages_allocs p pages 3 1 _)
    case isFalse => exact h1.mono (by decide)
  rw [createProcess]
  split <;> exact h

/-- A file for the first page of the shared block, whose import table is missing. -/
def sharedBlockFile : Image := headersOnly [(114, 0xE0), (115, 0x7F), (208, 1)]

abbrev SHARED_BLOCK : u64 := 0x7FE00000#64

/-- `LoadPe` maps the headers and then misses the import table. -/
theorem loadPe_sharedBlockFile {l : Loader} {p a : u64} {t : Pmm} {v : Vmm}
    (ha : allocPage l.sys.vmm.pmm = (a, t)) (ha0 : a ≠ 0)
    (hv : v = { l.sys.vmm with pmm := t, mem := fill l.sys.vmm.mem a (headerPage sharedBlockFile) })
    (hmap : (mapPageInto v p SHARED_BLOCK a (userFlags false)).1 = true) :
    (loadPe 1 l sharedBlockFile p SHARED_BLOCK).2.2 =
      l.withVmm (mapPageInto v p SHARED_BLOCK a (userFlags false)).2 := by
  have hsections : sectionHeaders sharedBlockFile.bytes = [] := by decide
  have himports : importRva sharedBlockFile.bytes ≠ 0 := by decide
  have hoff : rvaToOff sharedBlockFile.bytes (importRva sharedBlockFile.bytes) = 0 := by decide
  have hmapped : mapSections sharedBlockFile p SHARED_BLOCK l.sys.vmm =
      (true, (mapPageInto v p SHARED_BLOCK a (userFlags false)).2) := by
    simp only [mapSections, mapFresh, ha, if_neg ha0, ← hv, hmap, if_true, hsections,
      mapSectionList]
  rw [loadPe, if_neg (by decide), if_neg (not_not.mpr (by decide)), hmapped]
  simp only [resolveImports, if_neg himports, hoff, if_true]
  rfl

/-- Libraries of size 0, which `LoadPe` refuses. -/
def noLibraries : Libraries where
  ntdll := ⟨[], ⟨fun _ => 0, 0⟩, 0⟩
  kernel32 := ⟨[], ⟨fun _ => 0, 0⟩, 0⟩

/-- Starting that file by `winexec` makes the page a user page in the kernel's
PML4, and so in every address space. -/
theorem shared_block_file_not_confined :
    ∃ v, boot (fun _ _ => 0) 0x10000000#64 0x120000#64 (some lowBoot) (fun _ => 0) = some (true, v) ∧
      ¬ LoadsConfined 1 noLibraries (fun _ _ => 0) (startLoader v) (.launch .winexec sharedBlockFile) := by
  obtain ⟨v, hboot, hpool⟩ := lowBoot_pool
  have low : ∀ q ∈ lowPages, 1541 ≤ q := fun q hq => hq.2
  obtain ⟨p1, e1, -, hpool1⟩ := Pool.next hpool low (lowPages_mem (by omega) (by omega))
  obtain ⟨p2, e2, -, hpool2⟩ := Pool.next hpool1 low (lowPages_mem (by omega) (by omega))
  obtain ⟨hp, hpmm, hroot⟩ := createUserPml4_succeeds e1 e2 (by decide) (by decide)
  obtain ⟨⟨R, phys, is, hg, -, hbooted⟩, -⟩ := boot_booted tablesAt_lowBoot hboot
  refine ⟨v, hboot, fun hc => ?_⟩
  have hsplit : Inv R (fun i e => e = splitEntry phys i) (fun _ => True) is (start v) :=
    start_inv hbooted fun _ _ _ => trivial
  have hfree : Inv R (fun _ _ => True) (fun _ => True) is (start v) :=
    start_inv ⟨typed_free hbooted.typed, hbooted.root, hbooted.kernel⟩ fun _ _ _ => trivial
  -- a new address space, in which the block is as boot left it
  obtain ⟨l, hl⟩ : ∃ l, l = newSpace (startLoader v) := ⟨_, rfl⟩
  have hl1 : l.1 = pageAddr 1541 := by rw [hl]; exact hp
  have hne : (newSpace (startLoader v)).1 ≠ 0 := by rw [← hl, hl1]; decide
  obtain ⟨is₁, h₁⟩ := hfree.newSpace hg hne
  have hstep : step (start v) .createUserPml4 = some (newSpace (startLoader v)).2.sys := rfl
  obtain ⟨is', hs⟩ := hsplit.step hg (show Op.Fits _ .createUserPml4 from trivial) hstep
  have hclosed : userReads l.2.sys.vmm.mem l.2.sys.vmm.pml4Phys SHARED_BLOCK = false := by
    obtain ⟨pdpt, pd, pt, hr, hks⟩ := hs.block_reaches hg rfl (v := SHARED_BLOCK) (.inl rfl)
      (by decide) (by decide) (by decide)
    have ho := (hs.low_block hg (.inl rfl) (by decide) hr).2.2.2
    have he := hs.typed.entry _ _ (ptIdx SHARED_BLOCK) hks
    rw [hl, userReads, hr.userCan ho, he, splitEntry, if_neg (by decide)]
    decide
  -- its process
  have hspace := h₁.space
  rw [← hl] at h₁ hspace
  have a₁ : Arrived R l.1 is₁ l.2.sys l.2 :=
    ⟨_, rfl, ∅, is₁, h₁, Spares.agree (fun _ _ _ => rfl) rfl⟩
  have a₂ := a₁.createProcess hg fun _ _ => 0
  have hallocs := createProcess_allocs l.2 l.1 fun _ _ => 0
  have hready : loadLibraries 1 l.1 (createProcess l.2 l.1 fun _ _ => 0) (noLibraries.of .winexec) =
      createProcess l.2 l.1 fun _ _ => 0 := rfl
  simp only [LoadsConfined] at hc
  rw [← hl, hready] at hc
  have hc := (hc (by decide) (by rw [hl1]; decide)).2
  generalize createProcess l.2 l.1 (fun _ _ => 0) = created at *
  obtain ⟨D₂, is₂, h₂, -⟩ := a₂.restart
  have hother : l.2.sys.vmm.pml4Phys ≠ l.1 := fun heq => by
    have hroot := h₁.inv.spaces _ h₁.space
    rw [← heq] at hroot
    cases h₁.inv.typed.alone _ _ _ h₁.inv.root hroot trivial
  have hstill := ((a₂.confined h₁ hg).others _ (.inl rfl) hother SHARED_BLOCK).reads
  obtain ⟨u, hu, _, _, _, hspares⟩ := a₂
  have hk : created.sys.vmm.pml4Phys = l.2.sys.vmm.pml4Phys := by
    rw [hu]
    exact hspares.pml4Phys
  have hlow : created.sys.vmm.mem l.1 0#9 = tableEntry (pageAddr 1542) := by
    have hold : l.2.sys.vmm.mem l.1 0#9 = tableEntry (pageAddr 1542) := by
      rw [hl1, hl]
      exact hroot
    rw [hu, ← hold]
    refine hspares.tables (.root l.1) _ 0#9 (h₁.inv.spaces _ h₁.space) (show 1 < 4 by decide) ?_
    rw [hold]
    decide
  -- the page for the headers
  have hpmm : l.2.sys.vmm.pmm = p2 := by rw [hl]; exact hpmm
  rw [hpmm] at hallocs
  obtain ⟨b, hb, hpool3⟩ := Pool.allocs hpool2 low
    (fun k hk => lowPages_mem (by omega) (by omega)) hallocs
  obtain ⟨t, e3, htake, -⟩ := Pool.next hpool3 low (lowPages_mem (by omega) (by omega))
  have ha0 : pageAddr (1541 + b) ≠ 0 := by
    intro h0
    have hn := pageAddr_toNat htake.within
    rw [h0] at hn
    simp only [PAGE_SIZE, show (0 : u64).toNat = 0 from rfl] at hn
    omega
  obtain ⟨h₃, s₃, -⟩ := Loading.newPage (v := created.sys.vmm) h₂ htake (headerPage sharedBlockFile)
  obtain ⟨hsucc, hopen⟩ := h₃.inv.map_block hg h₃.space
    (show KuserBlock SHARED_BLOCK from ⟨by decide, by decide, by decide⟩)
    ((s₃.tables (.root l.1) _ 0#9 (h₂.inv.spaces _ h₂.space) (show 1 < 4 by decide)
      (by rw [hlow]; decide)).trans hlow) (isFrame_pageAddr (by decide)) (by decide)
    (pageAddr (1541 + b)) false
  rw [show Launcher.winexec.loadBase sharedBlockFile = SHARED_BLOCK by decide,
    loadPe_sharedBlockFile e3 ha0 rfl hsucc] at hc
  have hsame := (hc.others _ (.inl rfl) (hk ▸ hother) SHARED_BLOCK).reads
  rw [hk, hstill, hclosed, ← hk] at hsame
  exact absurd (hopen.symm.trans hsame) (by decide)

end MicroNT.Kernel
