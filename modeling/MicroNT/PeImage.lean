import MicroNT.PageLayout
import MicroNT.PeBounds

/-! # The image that the PE loader builds

`MapSections` lays out one page for the headers and the pages of every section.
What a loaded file shows is what it describes, up to the last page of a section's
raw data: it is copied to its end, past `SizeOfRawData`. -/

namespace MicroNT.Kernel

open MicroNT.PMM hiding step Op System
open MicroNT.VMM MicroNT.Boot MicroNT.Base.Radix

/-! ## The file -/

/-- Headers and raw data inside the file, and page-aligned sections from 0x1000 on,
below 4 GB and apart from each other. -/
structure Image.WellFormed (f : Image) : Prop where
  headers : optOff f.bytes + (u16At f.bytes (peOff f.bytes + 4 + 16)).toNat +
    40 * (sectionHeaders f.bytes).length ≤ f.size
  aligned : ∀ h ∈ sectionHeaders f.bytes, h.vRva.toNat % PAGE_SIZE = 0
  above : ∀ h ∈ sectionHeaders f.bytes, PAGE_SIZE ≤ h.vRva.toNat
  below : ∀ h ∈ sectionHeaders f.bytes, h.vRva.toNat + h.vSize.toNat ≤ 2 ^ 32
  apart : (sectionHeaders f.bytes).Pairwise fun h g => ∀ rva,
    ¬ (h.vRva.toNat ≤ rva ∧ rva < h.vRva.toNat + h.vSize.toNat ∧
      g.vRva.toNat ≤ rva ∧ rva < g.vRva.toNat + g.vSize.toNat)
  raw : ∀ h ∈ sectionHeaders f.bytes, h.rawOff.toNat + h.rawSize.toNat ≤ f.size

/-- A byte of an import slot that the loader looks up. -/
def Image.IatByte (f : Image) (loadBase va : u64) : Prop :=
  importRva f.bytes ≠ 0 ∧ ∃ idx slot j, Patched f.bytes idx slot ∧ j < 8 ∧
    va = iatSlotVa loadBase (importAt f.bytes idx) slot + BitVec.ofNat 64 j

/-- What user code sees of a loaded image, with the entry address. -/
structure Image.Shown (f : Image) (m : Mem) (pml4 loadBase : u64) (entry : Option u64) : Prop where
  sections : ∀ h ∈ sectionHeaders f.bytes, ∀ o, o < h.vSize.toNat →
    ¬ f.IatByte loadBase (sectionVa loadBase h + BitVec.ofNat 64 o) →
    byteAt m pml4 (sectionVa loadBase h + BitVec.ofNat 64 o) =
      if o < h.rawSize.toNat then f.bytes (h.rawOff.toNat + o) else 0
  rights : ∀ h ∈ sectionHeaders f.bytes, ∀ o, o < sectionPages h * PAGE_SIZE →
    userReads m pml4 (sectionVa loadBase h + BitVec.ofNat 64 o) = true ∧
      (userWrites m pml4 (sectionVa loadBase h + BitVec.ofNat 64 o) = true ↔
        h.chars &&& 0x80000000#32 ≠ 0#32)
  headers : ∀ o, o < min PAGE_SIZE f.size → ¬ f.IatByte loadBase (loadBase + BitVec.ofNat 64 o) →
    userReads m pml4 (loadBase + BitVec.ofNat 64 o) = true ∧
      byteAt m pml4 (loadBase + BitVec.ofNat 64 o) = f.bytes o
  entry : entry = some (loadBase + (u32At f.bytes (optOff f.bytes + 16)).setWidth 64)

/-! ## The layout -/

def headerPiece (f : Image) (loadBase : u64) : Piece := ⟨loadBase, false, headerPage f⟩

def sectionPiece (f : Image) (loadBase : u64) (h : SectionHeader) (pg : Nat) : Piece :=
  ⟨sectionVa loadBase h + pageAddr pg, h.chars &&& 0x80000000#32 != 0#32, sectionPage f h pg⟩

def sectionPieces (f : Image) (loadBase : u64) (h : SectionHeader) : List Piece :=
  if h.Mapped then (List.range (sectionPages h)).map (sectionPiece f loadBase h) else []

def pieces (f : Image) (loadBase : u64) : List Piece :=
  headerPiece f loadBase :: (sectionHeaders f.bytes).flatMap (sectionPieces f loadBase)

section

variable {f : Image} {pml4 loadBase : u64}

theorem mapPages_eq (h : SectionHeader) (n pg : Nat) (s : Vmm) :
    mapPages f pml4 loadBase h n pg s =
      mapAll pml4 ((List.range' pg n).map (sectionPiece f loadBase h)) s := by
  induction n generalizing pg s with
  | zero => rfl
  | succ n ih =>
    rw [mapPages, List.range'_succ, List.map_cons, mapAll]
    simp only [ih]
    rfl

theorem mapSectionList_eq (hs : List SectionHeader) (s : Vmm) :
    mapSectionList f pml4 loadBase hs s = mapAll pml4 (hs.flatMap (sectionPieces f loadBase)) s := by
  induction hs generalizing s with
  | nil => rfl
  | cons h hs ih =>
    rw [mapSectionList, List.flatMap_cons, mapAll_append, sectionPieces]
    split
    case isTrue hm =>
      rw [mapPages_eq, ← List.range_eq_range']
      simp only [ih]
    case isFalse => exact ih s

/-- **`MapSections`** lays out the header page and the pages of the sections. -/
theorem mapSections_eq (s : Vmm) :
    mapSections f pml4 loadBase s = mapAll pml4 (pieces f loadBase) s := by
  rw [mapSections, pieces, mapAll]
  simp only [mapSectionList_eq]
  rfl

/-! ## The pages are apart -/

/-- The RVA of a page of a section. -/
def pageRva (h : SectionHeader) (pg : Nat) : Nat := h.vRva.toNat + pg * PAGE_SIZE

theorem sectionVa_add (h : SectionHeader) (o : Nat) :
    sectionVa loadBase h + BitVec.ofNat 64 o = loadBase + BitVec.ofNat 64 (h.vRva.toNat + o) := by
  rw [sectionVa, BitVec.ofNat_add, BitVec.ofNat_toNat, BitVec.add_assoc]

theorem sectionPiece_va (h : SectionHeader) (pg : Nat) :
    (sectionPiece f loadBase h pg).va = loadBase + BitVec.ofNat 64 (pageRva h pg) :=
  sectionVa_add h _

section

variable (hf : f.WellFormed) {h : SectionHeader} (hh : h ∈ sectionHeaders f.bytes)
include hf hh

theorem Image.WellFormed.pages :
    sectionPages h = (h.vSize.toNat + (PAGE_SIZE - 1)) / PAGE_SIZE := by
  have above := hf.above h hh
  have below := hf.below h hh
  simp only [PAGE_SIZE] at above
  have sum : (h.vSize + 0xFFF#32).toNat = h.vSize.toNat + 0xFFF := by
    rw [BitVec.toNat_add, show (0xFFF#32).toNat = 0xFFF from rfl, Nat.mod_eq_of_lt (by omega)]
  rw [sectionPages, BitVec.toNat_udiv, sum]
  rfl

/-- A page of a section starts inside it. -/
theorem Image.WellFormed.pageRva {pg : Nat} (hpg : pg < sectionPages h) :
    h.vRva.toNat ≤ pageRva h pg ∧ pageRva h pg < h.vRva.toNat + h.vSize.toNat ∧
      pageRva h pg < 2 ^ 32 ∧ pageRva h pg % PAGE_SIZE = 0 ∧ PAGE_SIZE ≤ pageRva h pg := by
  have aligned := hf.aligned h hh
  have above := hf.above h hh
  have below := hf.below h hh
  rw [hf.pages hh] at hpg
  simp only [Kernel.pageRva, PAGE_SIZE] at *
  omega

theorem Image.WellFormed.mapped {o : Nat} (ho : o < sectionPages h * PAGE_SIZE) : h.Mapped := by
  have above := hf.above h hh
  rw [hf.pages hh] at ho
  constructor
  · intro h0
    rw [h0] at ho
    exact absurd ho (Nat.not_lt_zero o)
  · intro h0
    rw [h0] at above
    exact absurd above (by decide)

end

theorem mem_sectionPieces {h : SectionHeader} {x : Piece} (hx : x ∈ sectionPieces f loadBase h) :
    ∃ pg, pg < sectionPages h ∧ x = sectionPiece f loadBase h pg := by
  rw [sectionPieces] at hx
  split at hx
  case isTrue =>
    obtain ⟨pg, hpg, rfl⟩ := List.mem_map.mp hx
    exact ⟨pg, List.mem_range.mp hpg, rfl⟩
  case isFalse => cases hx

/-- **The pages of a well-formed file** have different page numbers. -/
theorem Image.WellFormed.pieces_apart (hf : f.WellFormed) :
    (pieces f loadBase).Pairwise fun x y => vpn x.va ≠ vpn y.va := by
  refine List.pairwise_cons.mpr ⟨fun x hx => ?_, List.pairwise_flatMap.mpr ⟨fun h hh => ?_, ?_⟩⟩
  · obtain ⟨h, hh, hx⟩ := List.mem_flatMap.mp hx
    obtain ⟨pg, hpg, rfl⟩ := mem_sectionPieces hx
    obtain ⟨-, -, small, aligned, above⟩ := hf.pageRva hh hpg
    rw [sectionPiece_va, show (headerPiece f loadBase).va = loadBase + BitVec.ofNat 64 0 from
      (BitVec.add_zero loadBase).symm]
    refine vpn_add_ne loadBase (by decide) aligned (by decide) small ?_
    simp only [PAGE_SIZE] at above
    omega
  · rw [sectionPieces]
    split
    case isFalse => exact .nil
    case isTrue =>
      refine List.pairwise_map.mpr (List.pairwise_lt_range.imp_of_mem fun hi hj hlt => ?_)
      obtain ⟨-, -, small, aligned, -⟩ := hf.pageRva hh (List.mem_range.mp hi)
      obtain ⟨-, -, small', aligned', -⟩ := hf.pageRva hh (List.mem_range.mp hj)
      rw [sectionPiece_va, sectionPiece_va]
      refine vpn_add_ne loadBase aligned aligned' small small' ?_
      simp only [Kernel.pageRva, PAGE_SIZE]
      omega
  · refine hf.apart.imp_of_mem fun hh hg apart x hx y hy => ?_
    obtain ⟨i, hi, rfl⟩ := mem_sectionPieces hx
    obtain ⟨j, hj, rfl⟩ := mem_sectionPieces hy
    obtain ⟨h1, h2, small, aligned, -⟩ := hf.pageRva hh hi
    obtain ⟨g1, g2, small', aligned', -⟩ := hf.pageRva hg hj
    rw [sectionPiece_va, sectionPiece_va]
    refine vpn_add_ne loadBase aligned aligned' small small' fun heq => ?_
    exact apart _ ⟨h1, h2, heq ▸ g1, heq ▸ g2⟩

/-! ## The bytes of a section -/

/-- Byte `o` of a section is as the file describes it: raw data that is not copied
must be zero, and so must the bytes behind the raw data in its last page. -/
def PaddedAt (f : Image) (h : SectionHeader) (o : Nat) : Prop :=
  if h.rawOff = 0 ∨ 2 ^ 32 ≤ h.rawOff.toNat + h.rawSize.toNat then
    o < h.rawSize.toNat → f.bytes (h.rawOff.toNat + o) = 0
  else
    h.rawSize.toNat ≤ o → o / PAGE_SIZE * PAGE_SIZE < h.rawSize.toNat →
      h.rawOff.toNat + o < f.size → f.bytes (h.rawOff.toNat + o) = 0

/-- The raw data of every section is copied, and zeros follow it in the file up to
the end of the page, of the section or of the file; import slots do not count. -/
def Image.Padded (f : Image) (loadBase : u64) : Prop :=
  ∀ h ∈ sectionHeaders f.bytes, ∀ o, o < h.vSize.toNat →
    ¬ f.IatByte loadBase (sectionVa loadBase h + BitVec.ofNat 64 o) → PaddedAt f h o

theorem sectionPage_byte (f : Image) (h : SectionHeader) (pg : Nat) {k : Nat} (hk : k < PAGE_SIZE) :
    byteIn (sectionPage f h pg) k =
      if h.rawOff ≠ 0 ∧ h.rawSize ≠ 0 ∧
          h.rawOff.toNat + pg * PAGE_SIZE < (h.rawOff + h.rawSize).toNat ∧
          h.rawOff.toNat + pg * PAGE_SIZE + k < f.size then
        f.bytes (h.rawOff.toNat + pg * PAGE_SIZE + k)
      else 0 := by
  rw [sectionPage, byteIn_pageOfBytes _ hk]
  by_cases hcopy : h.rawOff ≠ 0 ∧ h.rawSize ≠ 0 ∧ h.rawOff.toNat + pg * PAGE_SIZE < f.size
  case neg =>
    rw [if_neg hcopy, if_neg (Nat.not_lt_zero k), if_neg]
    intro hall
    exact hcopy ⟨hall.1, hall.2.1, by omega⟩
  case pos =>
    rw [if_pos hcopy]
    by_cases hend : h.rawOff.toNat + pg * PAGE_SIZE ≥ (h.rawOff + h.rawSize).toNat
    case pos =>
      rw [if_pos hend, if_neg (Nat.not_lt_zero k), if_neg]
      intro hall
      omega
    case neg =>
      rw [if_neg hend]
      refine if_congr ?_ rfl rfl
      constructor
      · intro hlt
        exact ⟨hcopy.1, hcopy.2.1, by omega, by omega⟩
      · intro hall
        omega

/-- **A byte of a section's page is the one described** exactly if it is padded. -/
theorem sectionPage_iff {f : Image} {h : SectionHeader}
    (raw : h.rawOff.toNat + h.rawSize.toNat ≤ f.size) (o : Nat) :
    byteIn (sectionPage f h (o / PAGE_SIZE)) (o % PAGE_SIZE) =
      (if o < h.rawSize.toNat then f.bytes (h.rawOff.toNat + o) else 0) ↔ PaddedAt f h o := by
  have split : o / PAGE_SIZE * PAGE_SIZE + o % PAGE_SIZE = o := Nat.div_add_mod' o PAGE_SIZE
  have zero : ∀ w : u32, w ≠ 0 ↔ w.toNat ≠ 0 := fun w => by
    rw [ne_eq, ← BitVec.toNat_inj]
    rfl
  have off := h.rawOff.isLt
  have size := h.rawSize.isLt
  rw [sectionPage_byte f h _ (Nat.mod_lt o (by decide)), Nat.add_assoc, split, PaddedAt,
    BitVec.toNat_add]
  by_cases lost : h.rawOff = 0 ∨ 2 ^ 32 ≤ h.rawOff.toNat + h.rawSize.toNat
  case pos =>
    -- the end of the raw data lies before its start, or it counts as absent
    rw [if_pos lost, if_neg]
    · by_cases ho : o < h.rawSize.toNat
      · rw [if_pos ho]
        exact ⟨fun e _ => e.symm, fun e => (e ho).symm⟩
      · rw [if_neg ho]
        exact ⟨fun _ h => absurd h ho, fun _ => rfl⟩
    · rintro ⟨nonzero, -, before, -⟩
      rcases lost with lost | lost
      · exact nonzero lost
      · omega
  case neg =>
    obtain ⟨nonzero, small⟩ := not_or.mp lost
    rw [if_neg lost, Nat.mod_eq_of_lt (by omega)]
    by_cases ho : o < h.rawSize.toNat
    · rw [if_pos ho, if_pos ⟨nonzero, (zero _).mpr (by omega), by omega, by omega⟩]
      exact ⟨fun _ h => absurd h (by omega), fun _ => rfl⟩
    · rw [if_neg ho]
      by_cases copied : o / PAGE_SIZE * PAGE_SIZE < h.rawSize.toNat ∧ h.rawOff.toNat + o < f.size
      · rw [if_pos ⟨nonzero, (zero _).mpr (by omega), by omega, copied.2⟩]
        exact ⟨fun e _ _ _ => e, fun e => e (by omega) copied.1 copied.2⟩
      · rw [if_neg fun h => copied ⟨by omega, h.2.2.2⟩]
        exact ⟨fun _ _ h h' => absurd ⟨h, h'⟩ copied, fun _ => rfl⟩

/-! ## Loading -/

/-- Where the image and the imports may be: at a page boundary, with every import
slot inside one of the image's pages. The pages of the PEB that take the image base
are no pages of the image, and their frames are in use and are no page tables. -/
structure Placed (l : Loader) (f : Image) (pml4 loadBase : u64) : Prop where
  aligned : loadBase.toNat % PAGE_SIZE = 0
  slots : importRva f.bytes ≠ 0 → ∀ idx slot, Patched f.bytes idx slot →
    ∃ x ∈ pieces f loadBase, ∃ o, o + 8 ≤ PAGE_SIZE ∧
      iatSlotVa loadBase (importAt f.bytes idx) slot = x.va + BitVec.ofNat 64 o
  peb : ∀ q ∈ l.procs, q.cr3 = pml4 → q.pebVa ≠ 0 → ∀ va ∈ notifySlots,
    (∀ x ∈ pieces f loadBase, vpn va ≠ vpn x.va) ∧
      (translateInPml4 l.sys.vmm.mem pml4 va ≠ 0 →
        Used l.sys.vmm (pageOf (translateInPml4 l.sys.vmm.mem pml4 va)) ∧
          ¬ Tables (· = pml4) l.sys.vmm.mem (pageOf (translateInPml4 l.sys.vmm.mem pml4 va)))

/-- What `LoadPe` has done when it succeeds. -/
theorem loadPe_success {fuel : Nat} {l : Loader}
    (h : (loadPe fuel l f pml4 loadBase).1 = some .success) :
    (mapSections f pml4 loadBase l.sys.vmm).1 = true ∧
      (loadPe fuel l f pml4 loadBase).2.1 =
        some (loadBase + (u32At f.bytes (optOff f.bytes + 16)).setWidth 64) ∧
      (loadPe fuel l f pml4 loadBase).2.2 = notifyImageLoaded (l.withVmm
        (resolveImports fuel f.bytes l.mods pml4 loadBase
          (mapSections f pml4 loadBase l.sys.vmm).2).2) pml4 loadBase := by
  rw [loadPe] at h ⊢
  split at h
  case isTrue => cases h
  case isFalse hsize =>
    rw [if_neg hsize]
    split at h
    case isTrue => cases h
    case isFalse hacc =>
      rw [if_neg hacc]
      simp only at h ⊢
      cases hmap : (mapSections f pml4 loadBase l.sys.vmm).1 with
      | false =>
        rw [hmap] at h
        cases h
      | true =>
        rw [hmap] at h
        simp only [Bool.not_true, Bool.false_eq_true, if_false] at h ⊢
        split at h
        case isTrue hne => exact absurd h hne
        case isFalse hok =>
          rw [if_neg hok]
          exact ⟨trivial, rfl, rfl⟩

section

variable {S : u64 → Prop} {s₀ : Vmm} {L : List (Piece × u64)} {s : Vmm}

/-- Patching a slot in a page of the image. -/
theorem Laid.patchIatSlot (h : Laid pml4 S s₀ L s)
    (aligned : ∀ y ∈ L, y.1.va.toNat % PAGE_SIZE = 0) {y : Piece × u64} (hy : y ∈ L) {o : Nat}
    (ho : o + 8 ≤ PAGE_SIZE) (hS : ∀ j, j < 8 → S (y.1.va + BitVec.ofNat 64 (o + j)))
    (funcVa : u64) :
    Laid pml4 S s₀ L (Kernel.patchIatSlot s pml4 (y.1.va + BitVec.ofNat 64 o) funcVa).2 := by
  rw [Kernel.patchIatSlot]
  simp only
  split
  case isTrue => exact h
  case isFalse =>
    rw [BitVec.sub_add_cancel, (h.lies y hy).translate (aligned y hy) (by omega)]
    exact (h.store hy ho hS funcVa).store hy ho hS funcVa

/-- The image base goes to pages outside the image. -/
theorem Laid.notify (h : Laid pml4 S s₀ L s) (val : u64) {vas : List u64}
    (hvas : ∀ va ∈ vas, va.toNat % PAGE_SIZE + 8 ≤ PAGE_SIZE ∧
      (∀ x ∈ L, vpn va ≠ vpn x.1.va) ∧ (translateInPml4 s₀.mem pml4 va ≠ 0 →
        Used s₀ (pageOf (translateInPml4 s₀.mem pml4 va)) ∧
          ¬ Tables (· = pml4) s₀.mem (pageOf (translateInPml4 s₀.mem pml4 va))))
    {m : Mem} (hm : Keeps pml4 S L s m) :
    Keeps pml4 S L s (vas.foldl (storeAt pml4 val) m) := by
  induction vas generalizing m with
  | nil => exact hm
  | cons va vas ih =>
    obtain ⟨hoff, hout, hframe⟩ := hvas va List.mem_cons_self
    refine ih (fun w hw => hvas w (List.mem_cons_of_mem va hw)) (hm.storeAt hoff ?_ val)
    rw [h.others va hout]
    intro ht
    obtain ⟨used, noTable⟩ := hframe ht
    refine ⟨h.data _ used noTable, fun x hx heq => h.fresh x hx ?_⟩
    rw [heq]
    exact used

end

theorem aligned_add {b : u64} (hb : b.toNat % PAGE_SIZE = 0) {i : Nat} (hi : i % PAGE_SIZE = 0) :
    (b + BitVec.ofNat 64 i).toNat % PAGE_SIZE = 0 := by
  rw [BitVec.toNat_add, BitVec.toNat_ofNat]
  simp only [PAGE_SIZE] at *
  omega

theorem Image.WellFormed.pieces_aligned (hf : f.WellFormed) (hb : loadBase.toNat % PAGE_SIZE = 0)
    {x : Piece} (hx : x ∈ pieces f loadBase) : x.va.toNat % PAGE_SIZE = 0 := by
  rcases List.mem_cons.mp hx with rfl | hx
  · exact hb
  · obtain ⟨h, hh, hx⟩ := List.mem_flatMap.mp hx
    obtain ⟨pg, hpg, rfl⟩ := mem_sectionPieces hx
    rw [sectionPiece_va]
    exact aligned_add hb (hf.pageRva hh hpg).2.2.2.1

theorem notifySlots_offset : ∀ va ∈ notifySlots, va.toNat % PAGE_SIZE + 8 ≤ PAGE_SIZE := by
  intro va hva
  exact (notifySlots_private va hva).2

/-- **What a successful `LoadPe` leaves**: every page of the image in place. -/
theorem loadPe_lies {fuel : Nat} {l : Loader} (hf : f.WellFormed)
    (hs : UserSpace l.sys.vmm pml4) (hp : Placed l f pml4 loadBase)
    (h : (loadPe fuel l f pml4 loadBase).1 = some .success) :
    UserSpace (loadPe fuel l f pml4 loadBase).2.2.sys.vmm pml4 ∧
      ∀ x ∈ pieces f loadBase, ∃ fr,
        Lies pml4 (f.IatByte loadBase) (loadPe fuel l f pml4 loadBase).2.2.sys.vmm x fr := by
  obtain ⟨hmap, -, hend⟩ := loadPe_success h
  rw [mapSections_eq] at hmap
  rw [hend, mapSections_eq]
  -- the pages are laid out
  obtain ⟨L, hL, laid⟩ := (Laid.nil hs (S := f.IatByte loadBase)).mapAll hf.pieces_apart
    (fun _ _ _ hy => absurd hy List.not_mem_nil) hmap
  rw [List.nil_append] at laid
  have mem : ∀ y ∈ L, y.1 ∈ pieces f loadBase := fun y hy =>
    hL ▸ List.mem_map_of_mem (f := Prod.fst) hy
  have aligned : ∀ y ∈ L, y.1.va.toNat % PAGE_SIZE = 0 := fun y hy =>
    hf.pieces_aligned hp.aligned (mem y hy)
  -- the imports are patched inside them
  have patched : Laid pml4 (f.IatByte loadBase) l.sys.vmm L
      (resolveImports fuel f.bytes l.mods pml4 loadBase
        (mapAll pml4 (pieces f loadBase) l.sys.vmm).2).2 := by
    refine resolveImports_keeps (P := Laid pml4 (f.IatByte loadBase) l.sys.vmm L)
      (fun hrva idx slot funcVa s hslot hlaid => ?_) laid
    obtain ⟨x, hx, o, ho, hva⟩ := hp.slots hrva idx slot hslot
    rw [← hL] at hx
    obtain ⟨y, hy, rfl⟩ := List.mem_map.mp hx
    rw [hva]
    refine hlaid.patchIatSlot aligned hy ho (fun j hj => ⟨hrva, idx, slot, j, hslot, hj, ?_⟩) funcVa
    rw [hva, BitVec.ofNat_add, BitVec.add_assoc]
  generalize (resolveImports fuel f.bytes l.mods pml4 loadBase
    (mapAll pml4 (pieces f loadBase) l.sys.vmm).2).2 = s at *
  -- the image base is stored outside them
  have kept : ∀ q ∈ l.procs, q.cr3 = pml4 → q.pebVa ≠ 0 →
      Keeps pml4 (f.IatByte loadBase) L s (notifySlots.foldl (storeAt pml4 loadBase) s.mem) := by
    intro q hq hcr3 hpeb
    refine patched.notify loadBase (fun va hva => ?_)
      ⟨patched.space, patched.lies, fun _ => rfl, fun _ => Iff.rfl⟩
    obtain ⟨hout, hframe⟩ := hp.peb q hq hcr3 hpeb va hva
    exact ⟨notifySlots_offset va hva, fun y hy => hout y.1 (mem y hy), hframe⟩
  have find : ∀ {t : Vmm}, (∀ y ∈ L, Lies pml4 (f.IatByte loadBase) t y.1 y.2) →
      ∀ x ∈ pieces f loadBase, ∃ fr, Lies pml4 (f.IatByte loadBase) t x fr := by
    intro t lies x hx
    rw [← hL] at hx
    obtain ⟨y, hy, rfl⟩ := List.mem_map.mp hx
    exact ⟨y.2, lies y hy⟩
  rw [notifyImageLoaded]
  split
  case h_1 => exact ⟨patched.space, find patched.lies⟩
  case h_2 i hi =>
    obtain ⟨hlt, hfound, -⟩ := List.findIdx?_eq_some_iff_getElem.mp hi
    have both := Bool.and_eq_true_iff.mp hfound
    have k := kept _ (List.getElem_mem hlt) (by simpa using both.1) (by simpa using both.2)
    exact ⟨k.space, find k.lies⟩

/-! ## What a loaded file shows -/

section

variable (hf : f.WellFormed) {h : SectionHeader} (hh : h ∈ sectionHeaders f.bytes) {o : Nat}
  (ho : o < sectionPages h * PAGE_SIZE)
include hf hh ho

/-- An address in a page of a section. -/
theorem Image.WellFormed.piece_at :
    sectionPiece f loadBase h (o / PAGE_SIZE) ∈ pieces f loadBase ∧
      (sectionPiece f loadBase h (o / PAGE_SIZE)).va + BitVec.ofNat 64 (o % PAGE_SIZE) =
        sectionVa loadBase h + BitVec.ofNat 64 o := by
  have hpg : o / PAGE_SIZE < sectionPages h := Nat.div_lt_of_lt_mul (by rwa [Nat.mul_comm] at ho)
  have split : o / PAGE_SIZE * PAGE_SIZE + o % PAGE_SIZE = o := Nat.div_add_mod' o PAGE_SIZE
  constructor
  · refine List.mem_cons_of_mem _ (List.mem_flatMap.mpr ⟨h, hh, ?_⟩)
    rw [sectionPieces, if_pos (hf.mapped hh ho)]
    exact List.mem_map_of_mem (List.mem_range.mpr hpg)
  · rw [sectionPiece_va, sectionVa_add, Kernel.pageRva, BitVec.add_assoc, ← BitVec.ofNat_add,
      Nat.add_assoc, split]

end

theorem headerPage_byte {o : Nat} (ho : o < min PAGE_SIZE f.size) :
    byteIn (headerPage f) o = f.bytes o := by
  rw [headerPage, byteIn_pageOfBytes _ (by omega), if_pos (by omega)]

/-- A byte of a section is the byte of its page. -/
theorem loadPe_section_byte {fuel : Nat} {l : Loader} (hf : f.WellFormed)
    (hs : UserSpace l.sys.vmm pml4) (hp : Placed l f pml4 loadBase)
    (h : (loadPe fuel l f pml4 loadBase).1 = some .success) {g : SectionHeader}
    (hg : g ∈ sectionHeaders f.bytes) {o : Nat} (ho : o < g.vSize.toNat)
    (hslot : ¬ f.IatByte loadBase (sectionVa loadBase g + BitVec.ofNat 64 o)) :
    byteAt (loadPe fuel l f pml4 loadBase).2.2.sys.vmm.mem pml4
        (sectionVa loadBase g + BitVec.ofNat 64 o) =
      byteIn (sectionPage f g (o / PAGE_SIZE)) (o % PAGE_SIZE) := by
  have hpages : o < sectionPages g * PAGE_SIZE := by
    rw [hf.pages hg]
    simp only [PAGE_SIZE]
    omega
  obtain ⟨hx, hva⟩ : sectionPiece f loadBase g (o / PAGE_SIZE) ∈ pieces f loadBase ∧ _ :=
    hf.piece_at hg hpages
  obtain ⟨fr, hlies⟩ := (loadPe_lies hf hs hp h).2 _ hx
  have hk : o % PAGE_SIZE < PAGE_SIZE := Nat.mod_lt o (by decide)
  rw [← hva] at hslot ⊢
  rw [hlies.byteAt_eq (hf.pieces_aligned hp.aligned hx) hk]
  exact hlies.bytes _ hk hslot

/-- **A loaded file shows what it describes exactly if its sections are padded**: if
zeros follow the raw data of each section in its last page, and all raw data is
copied. Headers, rights and the entry address are right in any case. -/
theorem loadPe_shows_iff {fuel : Nat} {l : Loader} (hf : f.WellFormed)
    (hs : UserSpace l.sys.vmm pml4) (hp : Placed l f pml4 loadBase)
    (h : (loadPe fuel l f pml4 loadBase).1 = some .success) :
    f.Shown (loadPe fuel l f pml4 loadBase).2.2.sys.vmm.mem pml4 loadBase
      (loadPe fuel l f pml4 loadBase).2.1 ↔ f.Padded loadBase := by
  obtain ⟨space, lies⟩ := loadPe_lies hf hs hp h
  obtain ⟨-, entry, -⟩ := loadPe_success h
  have aligned := fun {x : Piece} hx => hf.pieces_aligned hp.aligned (x := x) hx
  have shown := fun {g : SectionHeader} hg {o : Nat} ho hslot =>
    loadPe_section_byte hf hs hp h (g := g) hg (o := o) ho hslot
  constructor
  · intro image g hg o ho hslot
    refine (sectionPage_iff (hf.raw g hg) o).mp ?_
    rw [← shown hg ho hslot]
    exact image.sections g hg o ho hslot
  · intro padded
    refine ⟨fun g hg o ho hslot => ?_, fun g hg o ho => ?_, fun o ho hslot => ?_, entry⟩
    · rw [shown hg ho hslot]
      exact (sectionPage_iff (hf.raw g hg) o).mpr (padded g hg o ho hslot)
    · obtain ⟨hx, hva⟩ : sectionPiece f loadBase g (o / PAGE_SIZE) ∈ pieces f loadBase ∧ _ :=
        hf.piece_at hg ho
      obtain ⟨fr, hlies⟩ := lies _ hx
      have can := hlies.userCan_eq (aligned hx) (Nat.mod_lt o (show 0 < PAGE_SIZE by decide)) space
      rw [hva] at can
      refine ⟨can false, ?_⟩
      rw [userWrites, can true]
      exact bne_iff_ne
    · have hx : headerPiece f loadBase ∈ pieces f loadBase := List.mem_cons_self
      obtain ⟨fr, hlies⟩ := lies _ hx
      have hk : o < PAGE_SIZE := by omega
      refine ⟨hlies.userCan_eq (aligned hx) hk space false, ?_⟩
      rw [← headerPage_byte ho]
      exact (hlies.byteAt_eq (aligned hx) hk).trans (hlies.bytes o hk hslot)

end

/-! ## A file with two sections -/

/-- Headers for two sections of one page: the first has 512 bytes of raw data at
0x200, the second, which is writable, 512 bytes at 0x400. -/
def twoSections (data : List (Nat × u8)) : Image where
  bytes n := (([(0, 0x4D), (1, 0x5A), (60, 64), (64, 0x50), (65, 0x45), (68, 0x64), (69, 0x86),
    (70, 2), (84, 0xF0), (88, 0x0B), (89, 0x02), (337, 0x10), (341, 0x10), (345, 0x02), (349, 0x02),
    (377, 0x02), (381, 0x20), (385, 0x02), (389, 0x04), (407, 0xC0)] ++ data).lookup n).getD 0
  size := 0x600

theorem userSpace_emptyTree : UserSpace emptyTree 0x200000#64 where
  wellFormed := wellFormed_emptyTree
  opens v := by
    intro up e heq _ x hx
    have blank : link (emptyTree.mem 0x200000#64 (pml4Idx v)) = none := link_zero
    have walk : entries emptyTree.mem 0x200000#64 v = [0] := by
      rw [entries, path, walk_cons_cons, blank]
      rfl
    rw [walk] at heq
    obtain ⟨rfl, -⟩ := List.append_inj' (show [] ++ [0] = up ++ [e] from heq) rfl
    cases hx

/-- The section headers of such a file, if its further bytes are behind the headers. -/
def TwoSections (f : Image) : Prop :=
  sectionHeaders f.bytes = [⟨0x1000#32, 0x1000#32, 0x200#32, 0x200#32, 0#32⟩,
    ⟨0x200#32, 0x2000#32, 0x200#32, 0x400#32, 0xC0000000#32⟩]

section

variable {f : Image} (h : TwoSections f)
include h

theorem TwoSections.cases {g : SectionHeader} (hg : g ∈ sectionHeaders f.bytes) :
    g = ⟨0x1000#32, 0x1000#32, 0x200#32, 0x200#32, 0#32⟩ ∨
      g = ⟨0x200#32, 0x2000#32, 0x200#32, 0x400#32, 0xC0000000#32⟩ := by
  rw [h] at hg
  simpa using hg

theorem TwoSections.wellFormed (size : f.size = 0x600)
    (header : optOff f.bytes + (u16At f.bytes (peOff f.bytes + 4 + 16)).toNat + 80 ≤ 0x600) :
    f.WellFormed where
  headers := by
    rw [h, size]
    exact header
  aligned g hg := by rcases h.cases hg with rfl | rfl <;> decide
  above g hg := by rcases h.cases hg with rfl | rfl <;> decide
  below g hg := by rcases h.cases hg with rfl | rfl <;> decide
  apart := by
    rw [h]
    refine List.pairwise_pair.mpr fun rva both => ?_
    have before : rva < 0x1000 + 0x1000 := both.2.1
    have after : 0x2000 ≤ rva := both.2.2.1
    omega
  raw g hg := by
    rw [size]
    rcases h.cases hg with rfl | rfl <;> decide

end

theorem placed_emptyLoader {f : Image} (h : importRva f.bytes = 0) :
    Placed emptyLoader f 0x200000#64 0x500000000#64 where
  aligned := by decide
  slots hi := absurd h hi
  peb _ hq := absurd hq List.not_mem_nil

/-- A file whose first section is followed by zeros. -/
theorem loadPe_shows_iff_padded :
    (twoSections [(0x200, 0xC3)]).Shown
      (loadPe 1 emptyLoader (twoSections [(0x200, 0xC3)]) 0x200000#64
        0x500000000#64).2.2.sys.vmm.mem 0x200000#64 0x500000000#64
      (loadPe 1 emptyLoader (twoSections [(0x200, 0xC3)]) 0x200000#64 0x500000000#64).2.1 := by
  have sections : TwoSections (twoSections [(0x200, 0xC3)]) := rfl
  refine (loadPe_shows_iff (sections.wellFormed rfl (by decide)) userSpace_emptyTree
    (placed_emptyLoader (by decide)) (by decide +kernel)).mpr fun g hg o _ _ => ?_
  have zero : ∀ n, 0x200 < n → (twoSections [(0x200, 0xC3)]).bytes n = 0 := by
    intro n hn
    simp only [twoSections]
    rw [List.lookup_eq_none_iff.mpr, Option.getD_none]
    intro x hx
    have inside : x.1 ≤ 0x200 := by
      revert x
      decide
    exact bne_iff_ne.mpr (by omega)
  have bounds : 0x200 ≤ g.rawOff.toNat ∧ 0x200 ≤ g.rawSize.toNat := by
    rcases sections.cases hg with rfl | rfl <;> decide
  rw [PaddedAt, if_neg (by rcases sections.cases hg with rfl | rfl <;> decide)]
  intro behind _ _
  exact zero _ (by omega)

/-- The raw data of the second section shows up in the first. -/
theorem loadPe_shows_next_section :
    (twoSections [(0x400, 0x2A)]).WellFormed ∧ UserSpace emptyLoader.sys.vmm 0x200000#64 ∧
      (loadPe 1 emptyLoader (twoSections [(0x400, 0x2A)]) 0x200000#64 0x500000000#64).1 =
        some .success ∧
      ¬ (twoSections [(0x400, 0x2A)]).Shown
        (loadPe 1 emptyLoader (twoSections [(0x400, 0x2A)]) 0x200000#64
          0x500000000#64).2.2.sys.vmm.mem 0x200000#64 0x500000000#64
        (loadPe 1 emptyLoader (twoSections [(0x400, 0x2A)]) 0x200000#64 0x500000000#64).2.1 := by
  have sections : TwoSections (twoSections [(0x400, 0x2A)]) := rfl
  have wellFormed := sections.wellFormed rfl (by decide)
  have success : (loadPe 1 emptyLoader (twoSections [(0x400, 0x2A)]) 0x200000#64
      0x500000000#64).1 = some .success := by decide +kernel
  have noImport : importRva (twoSections [(0x400, 0x2A)]).bytes = 0 := by decide
  refine ⟨wellFormed, userSpace_emptyTree, success, fun image => ?_⟩
  have hg : (⟨0x1000#32, 0x1000#32, 0x200#32, 0x200#32, 0#32⟩ : SectionHeader) ∈
      sectionHeaders (twoSections [(0x400, 0x2A)]).bytes := by
    rw [sections]
    exact List.mem_cons_self
  have hslot : ¬ (twoSections [(0x400, 0x2A)]).IatByte 0x500000000#64
      (sectionVa 0x500000000#64 ⟨0x1000#32, 0x1000#32, 0x200#32, 0x200#32, 0#32⟩ +
        BitVec.ofNat 64 0x200) := fun h => h.1 noImport
  have described := image.sections _ hg 0x200 (by decide) hslot
  rw [loadPe_section_byte wellFormed userSpace_emptyTree (placed_emptyLoader noImport) success hg
    (by decide) hslot] at described
  exact absurd described (by decide)

end MicroNT.Kernel
