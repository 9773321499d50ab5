import MicroNT.ImportPatches

/-! # The loaded image at each base

What a successful `LoadPe` leaves at an offset from its load base depends on the file and
the modules, and not on the base: the pages of the file with the words of its imports. -/

namespace MicroNT.Kernel

open MicroNT.PMM hiding step Op System
open MicroNT.VMM MicroNT.Boot MicroNT.Base.Radix

/-! ## Pages at offsets -/

/-- A page moved by an offset. -/
def Piece.shift (b : u64) (x : Piece) : Piece := { x with va := b + x.va }

section

variable (f : Image) (loadBase : u64)

theorem sectionPiece_shift (h : SectionHeader) (pg : Nat) :
    sectionPiece f loadBase h pg = (sectionPiece f 0 h pg).shift loadBase := by
  have zero : sectionVa 0 h + pageAddr pg = h.vRva.setWidth 64 + pageAddr pg := by
    rw [sectionVa, show (0 : u64) + h.vRva.setWidth 64 = h.vRva.setWidth 64 from BitVec.zero_add _]
  rw [sectionPiece, Piece.shift, sectionPiece, zero, sectionVa, BitVec.add_assoc]

/-- **The pages of an image** lie at the same offsets from every base. -/
theorem pieces_shift : pieces f loadBase = (pieces f 0).map (Piece.shift loadBase) := by
  have sections : ∀ h, sectionPieces f loadBase h =
      (sectionPieces f 0 h).map (Piece.shift loadBase) := by
    intro h
    rw [sectionPieces, sectionPieces]
    split
    case isTrue =>
      rw [List.map_map]
      exact List.map_congr_left fun pg _ => sectionPiece_shift f loadBase h pg
    case isFalse => rfl
  have header : headerPiece f loadBase = (headerPiece f 0).shift loadBase := by
    rw [headerPiece, Piece.shift, headerPiece, show loadBase + 0 = loadBase from BitVec.add_zero _]
  rw [pieces, pieces, List.map_cons, List.map_flatMap, header, funext sections]

/-- The address is in a page of the image. -/
def Image.Covers (va : u64) : Prop :=
  ∃ x ∈ pieces f loadBase, ∃ o, o < PAGE_SIZE ∧ va = x.va + BitVec.ofNat 64 o

/-- The byte of the page that holds an offset. -/
def Image.fileByte (x : u64) : u8 :=
  match (pieces f 0).find? fun y => vpn y.va == vpn x with
  | none => 0
  | some y => byteIn y.page (x.toNat % PAGE_SIZE)

end

/-! ## The pages in place -/

section

variable {f : Image} {pml4 loadBase : u64} {s₀ : Vmm} {S : u64 → Prop}
  {L : List (Piece × u64)} {s : Vmm}

theorem Laid.anywhere (h : Laid pml4 S s₀ L s) : Laid pml4 anywhere s₀ L s where
  space := h.space
  bits := h.bits
  lies x hx :=
    { frame := (h.lies x hx).frame, nonzero := (h.lies x hx).nonzero, used := (h.lies x hx).used
      data := (h.lies x hx).data, pte := (h.lies x hx).pte
      bytes := fun _ _ no => absurd trivial no }
  fresh := h.fresh
  apart := h.apart
  data := h.data
  others := h.others

/-- **`MapSections`** puts the pages in place, with the bytes of the file. -/
theorem mapSections_laid (hf : f.WellFormed) (aligned : loadBase.toNat % PAGE_SIZE = 0)
    (space : UserSpace s₀ pml4) (mapped : (mapSections f pml4 loadBase s₀).1 = true) :
    ∃ L, L.map Prod.fst = pieces f loadBase ∧ Aligned L ∧
      Laid pml4 (fun _ => False) s₀ L (mapSections f pml4 loadBase s₀).2 := by
  rw [mapSections_eq] at mapped ⊢
  obtain ⟨L, same, laid⟩ := (Laid.nil space (S := fun _ => False)).mapAll hf.pieces_apart
    (fun _ _ _ hy => absurd hy List.not_mem_nil) mapped
  rw [List.nil_append] at laid
  refine ⟨L, same, fun y hy => ?_, laid⟩
  exact hf.pieces_aligned aligned (same ▸ List.mem_map_of_mem (f := Prod.fst) hy)

theorem Laid.views (h : Laid pml4 S s₀ L s) (aligned : Aligned L) :
    Views pml4 s₀ L s (byteAt s.mem pml4) := ⟨h.anywhere, aligned, fun _ _ _ => rfl⟩

/-- The addresses of the image are those of its pages. -/
theorem covers_iff (same : L.map Prod.fst = pieces f loadBase) {va : u64} :
    f.Covers loadBase va ↔ ∃ phys, LiesAt L va phys := by
  constructor
  · rintro ⟨x, hx, o, ho, rfl⟩
    rw [← same] at hx
    obtain ⟨y, hy, rfl⟩ := List.mem_map.mp hx
    exact ⟨_, y, hy, o, ho, rfl, rfl⟩
  · rintro ⟨phys, y, hy, o, ho, rfl, -⟩
    exact ⟨y.1, same ▸ List.mem_map_of_mem hy, o, ho, rfl⟩

/-- A slot that lies in one page, or in two whose frames follow one another. -/
theorem Laid.whole (h : Laid pml4 S s₀ L s) (aligned : Aligned L)
    (same : L.map Prod.fst = pieces f loadBase) {va : u64}
    (inside : ∀ j, j < 8 → f.Covers loadBase (va + BitVec.ofNat 64 j))
    (follow : PAGE_SIZE < va.toNat % PAGE_SIZE + 8 → ∀ j, j < 8 →
      translateInPml4 s.mem pml4 (va + BitVec.ofNat 64 j) =
        translateInPml4 s.mem pml4 va + BitVec.ofNat 64 j) : Whole L va := by
  by_cases straddles : PAGE_SIZE < va.toNat % PAGE_SIZE + 8
  case pos =>
    refine ⟨translateInPml4 s.mem pml4 va, fun j hj => ?_⟩
    obtain ⟨phys, place⟩ := (covers_iff same).mp (inside j hj)
    rw [← follow straddles j hj, h.translate_at aligned place]
    exact place
  case neg =>
    have first := inside 0 (by decide)
    rw [show va + BitVec.ofNat 64 0 = va from BitVec.add_zero va] at first
    obtain ⟨phys, y, hy, k, hk, rfl, rfl⟩ := (covers_iff same).mp first
    have offset : (y.1.va + BitVec.ofNat 64 k).toNat % PAGE_SIZE = k := by
      have start := aligned y hy
      rw [BitVec.toNat_add, (offset_lt hk).2]
      simp only [PAGE_SIZE] at *
      omega
    rw [offset] at straddles
    refine ⟨y.2 + BitVec.ofNat 64 k, fun j hj => ⟨y, hy, k + j, by omega, ?_, ?_⟩⟩
    · rw [BitVec.add_assoc, ← BitVec.ofNat_add]
    · rw [BitVec.add_assoc, ← BitVec.ofNat_add]

end

/-! ## Words at offsets -/

section

variable {fuel : Nat} {f : Nat → u8} {mod : Module} {mods : List Module} (loadBase : u64)

def shiftWord (b : u64) (w : u64 × u64) : u64 × u64 := (b + w.1, w.2)

theorem iatSlotVa_shift (d : ImportDescriptor) (k : Nat) :
    iatSlotVa loadBase d k = loadBase + iatSlotVa 0 d k := by
  rw [iatSlotVa, iatSlotVa, show (0 : u64) + d.iatRva.setWidth 64 = d.iatRva.setWidth 64 from
    BitVec.zero_add _, BitVec.add_assoc]

theorem slotPatches_shift (d : ImportDescriptor) (n slot : Nat) :
    slotPatches fuel f mod loadBase d n slot = ((slotPatches fuel f mod 0 d n slot).1,
      (slotPatches fuel f mod 0 d n slot).2.map (shiftWord loadBase)) := by
  induction n generalizing slot with
  | zero => rfl
  | succ n ih =>
    rw [slotPatches, slotPatches]
    simp only
    split
    case isTrue => rfl
    case isFalse =>
      split
      case isTrue => exact ih (slot + 1)
      case isFalse =>
        split
        case isTrue => exact ih (slot + 1)
        case isFalse =>
          split
          case isTrue => rfl
          case isFalse => rw [ih, iatSlotVa_shift, List.map_cons, shiftWord]

theorem descriptorPatches_shift (n idx : Nat) :
    descriptorPatches fuel f mods loadBase n idx = ((descriptorPatches fuel f mods 0 n idx).1,
      (descriptorPatches fuel f mods 0 n idx).2.map (shiftWord loadBase)) := by
  induction n generalizing idx with
  | zero => rfl
  | succ n ih =>
    rw [descriptorPatches, descriptorPatches]
    simp only
    split
    case isTrue => rfl
    case isFalse =>
      split
      case isTrue => exact ih (idx + 1)
      case isFalse =>
        split
        case h_1 => rfl
        case h_2 mod _ =>
          split
          case isTrue => exact ih (idx + 1)
          case isFalse =>
            rw [slotPatches_shift loadBase]
            split
            case isTrue => rw [ih, List.map_append]
            case isFalse => rfl

/-- **The words of the imports** are the same at every base. -/
theorem importPatches_shift :
    importPatches fuel f mods loadBase = ((importPatches fuel f mods 0).1,
      (importPatches fuel f mods 0).2.map (shiftWord loadBase)) := by
  rw [importPatches, importPatches]
  split
  case isTrue => rfl
  case isFalse =>
    split
    case isTrue => rfl
    case isFalse => exact descriptorPatches_shift loadBase fuel 0

theorem inWord_shift (slot x : u64) : InWord (loadBase + slot) (loadBase + x) ↔ InWord slot x := by
  have same : loadBase + x - (loadBase + slot) = x - slot := by
    rw [BitVec.sub_eq_iff_eq_add, BitVec.add_comm (x - slot), BitVec.add_assoc,
      BitVec.add_comm slot, BitVec.sub_add_cancel]
  rw [InWord, InWord, same]

end

theorem putWords_shift (b : u64) (ws : List (u64 × u64)) {v v' : u64 → u8} {x : u64}
    (same : v (b + x) = v' x) : putWords v (ws.map (shiftWord b)) (b + x) = putWords v' ws x := by
  induction ws generalizing v v' with
  | nil => exact same
  | cons w ws ih =>
    rw [List.map_cons, putWords_cons, putWords_cons]
    refine ih ?_
    by_cases inside : InWord w.1 x
    · have there : InWord (b + w.1) (b + x) := (inWord_shift b w.1 x).mpr inside
      have offset : b + x - (b + w.1) = x - w.1 := by
        rw [BitVec.sub_eq_iff_eq_add, BitVec.add_comm (x - w.1), BitVec.add_assoc,
          BitVec.add_comm w.1, BitVec.sub_add_cancel]
      rw [putWord_inside inside, shiftWord, putWord_inside there, offset]
    · have there : ¬ InWord (b + w.1) (b + x) := fun h => inside ((inWord_shift b w.1 x).mp h)
      rw [putWord_outside inside, shiftWord, putWord_outside there, same]

/-! ## The slots of the words -/

section

variable {fuel : Nat} {f : Nat → u8} {mod : Module} {mods : List Module} {loadBase : u64}

theorem slotPatches_patched {idx : Nat} (descriptors : ∀ i, i ≤ idx → ¬ (importAt f i).Last)
    (dll : rvaToOff f (importAt f idx).dllRva ≠ 0) (n slot : Nat)
    (before : ∀ k, k < slot → thunkAt f (importAt f idx) k ≠ 0) :
    ∀ w ∈ (slotPatches fuel f mod loadBase (importAt f idx) n slot).2,
      ∃ k, Patched f idx k ∧ w.1 = iatSlotVa loadBase (importAt f idx) k := by
  induction n generalizing slot with
  | zero => exact fun w hw => absurd hw List.not_mem_nil
  | succ n ih =>
    rw [slotPatches]
    simp only
    split
    case isTrue => exact fun w hw => absurd hw List.not_mem_nil
    case isFalse some =>
      have upTo : ∀ k, k < slot + 1 → thunkAt f (importAt f idx) k ≠ 0 := fun k hk => by
        rcases Nat.lt_or_eq_of_le (Nat.le_of_lt_succ hk) with less | rfl
        · exact before k less
        · exact some
      split
      case isTrue => exact ih (slot + 1) upTo
      case isFalse named =>
        split
        case isTrue => exact ih (slot + 1) upTo
        case isFalse mapped =>
          split
          case isTrue => exact fun w hw => absurd hw List.not_mem_nil
          case isFalse =>
            intro w hw
            rcases List.mem_cons.mp hw with rfl | hw
            · exact ⟨slot, ⟨descriptors, dll, fun k hk => upTo k (Nat.lt_succ_of_le hk),
                not_not.mp named, mapped⟩, rfl⟩
            · exact ih (slot + 1) upTo w hw

theorem descriptorPatches_patched (n idx : Nat) (before : ∀ i, i < idx → ¬ (importAt f i).Last) :
    ∀ w ∈ (descriptorPatches fuel f mods loadBase n idx).2,
      ∃ i k, Patched f i k ∧ w.1 = iatSlotVa loadBase (importAt f i) k := by
  induction n generalizing idx with
  | zero => exact fun w hw => absurd hw List.not_mem_nil
  | succ n ih =>
    rw [descriptorPatches]
    simp only
    split
    case isTrue => exact fun w hw => absurd hw List.not_mem_nil
    case isFalse more =>
      have upTo : ∀ i, i ≤ idx → ¬ (importAt f i).Last := fun i hi => by
        rcases Nat.lt_or_eq_of_le hi with less | rfl
        · exact before i less
        · exact more
      have next := ih (idx + 1) fun i hi => upTo i (Nat.le_of_lt_succ hi)
      split
      case isTrue => exact next
      case isFalse dll =>
        split
        case h_1 => exact fun w hw => absurd hw List.not_mem_nil
        case h_2 mod _ =>
          split
          case isTrue => exact next
          case isFalse =>
            have slots : ∀ w ∈ (slotPatches fuel f mod loadBase (importAt f idx) fuel 0).2,
                ∃ i k, Patched f i k ∧ w.1 = iatSlotVa loadBase (importAt f i) k := fun w hw =>
              ⟨idx, slotPatches_patched upTo dll fuel 0 (fun k hk => absurd hk (Nat.not_lt_zero k)) w hw⟩
            split
            case isTrue =>
              intro w hw
              rcases List.mem_append.mp hw with hw | hw
              · exact slots w hw
              · exact next w hw
            case isFalse => exact slots

/-- Every word goes to a slot that the loader looks up. -/
theorem importPatches_patched {w : u64 × u64} (hw : w ∈ (importPatches fuel f mods loadBase).2) :
    importRva f ≠ 0 ∧ ∃ i k, Patched f i k ∧ w.1 = iatSlotVa loadBase (importAt f i) k := by
  rw [importPatches] at hw
  split at hw
  case isTrue => exact absurd hw List.not_mem_nil
  case isFalse table =>
    split at hw
    case isTrue => exact absurd hw List.not_mem_nil
    case isFalse =>
      exact ⟨table, descriptorPatches_patched fuel 0 (fun i hi => absurd hi (Nat.not_lt_zero i)) w hw⟩

end

/-! ## Stores elsewhere -/

section

variable {pml4 : u64} {s₀ s : Vmm} {L : List (Piece × u64)} {view : u64 → u8}

/-- The pages as they are now. -/
def current (s : Vmm) (y : Piece × u64) : Piece × u64 := ({ y.1 with page := s.mem y.2 }, y.2)

theorem Views.current (h : Views pml4 s₀ L s view) :
    Laid pml4 (fun _ => False) s₀ (L.map (current s)) s where
  space := h.laid.space
  bits := h.laid.bits
  lies x hx := by
    obtain ⟨y, hy, rfl⟩ := List.mem_map.mp hx
    have lies := h.laid.lies y hy
    exact ⟨lies.frame, lies.nonzero, lies.used, lies.data, lies.pte, fun _ _ _ => rfl⟩
  fresh x hx := by
    obtain ⟨y, hy, rfl⟩ := List.mem_map.mp hx
    exact h.laid.fresh y hy
  apart := List.pairwise_map.mpr h.laid.apart
  data := h.laid.data
  others w hw := h.laid.others w fun y hy => hw (Kernel.current s y) (List.mem_map_of_mem hy)

/-- **The image base** is stored outside the pages in place: they show what they showed. -/
theorem Views.notify (h : Views pml4 s₀ L s view) (val : u64) {vas : List u64}
    (hvas : ∀ va ∈ vas, va.toNat % PAGE_SIZE + 8 ≤ PAGE_SIZE ∧
      (∀ x ∈ L, vpn va ≠ vpn x.1.va) ∧ (translateInPml4 s₀.mem pml4 va ≠ 0 →
        Used s₀ (pageOf (translateInPml4 s₀.mem pml4 va)) ∧
          ¬ Tables (· = pml4) s₀.mem (pageOf (translateInPml4 s₀.mem pml4 va))))
    {va phys : u64} (place : LiesAt L va phys) :
    byteAt (vas.foldl (storeAt pml4 val) s.mem) pml4 va = view va := by
  have laid := h.current
  have kept := laid.notify val (fun w hw => by
    obtain ⟨offset, out, frame⟩ := hvas w hw
    refine ⟨offset, fun x hx => ?_, frame⟩
    obtain ⟨y, hy, rfl⟩ := List.mem_map.mp hx
    exact out y hy) ⟨laid.space, laid.lies, fun _ => rfl, fun _ => Iff.rfl⟩
  obtain ⟨y, hy, k, hk, rfl, at_⟩ := place
  rw [← h.bytes _ phys ⟨y, hy, k, hk, rfl, at_⟩]
  have now := kept.lies _ (List.mem_map_of_mem hy)
  have aligned := h.aligned y hy
  have after := now.byteAt_eq aligned hk
  have before := (h.laid.lies y hy).byteAt_eq aligned hk
  exact after.trans ((now.bytes k hk id).trans before.symm)

end

/-! ## The image -/

section

variable {f : Image} {pml4 loadBase : u64}

/-- The byte at an offset is the one in the page there. -/
theorem Image.WellFormed.fileByte (hf : f.WellFormed) {z : Piece} (hz : z ∈ pieces f 0) {k : Nat}
    (hk : k < PAGE_SIZE) : f.fileByte (z.va + BitVec.ofNat 64 k) = byteIn z.page k := by
  have aligned : z.va.toNat % PAGE_SIZE = 0 := hf.pieces_aligned (by decide) hz
  have number : vpn (z.va + BitVec.ofNat 64 k) = vpn z.va := vpn_add_offset aligned (offset_lt hk).1
  have offset : (z.va + BitVec.ofNat 64 k).toNat % PAGE_SIZE = k := by
    rw [BitVec.toNat_add, (offset_lt hk).2]
    simp only [PAGE_SIZE] at *
    omega
  have found : (pieces f 0).find? (fun y => vpn y.va == vpn z.va) = some z := by
    have some : ((pieces f 0).find? fun y => vpn y.va == vpn z.va).isSome :=
      List.find?_isSome.mpr ⟨z, hz, beq_self_eq_true (vpn z.va)⟩
    obtain ⟨y, hy⟩ := Option.isSome_iff_exists.mp some
    have same : vpn y.va = vpn z.va := by simpa using List.find?_some hy
    have one : y = z := by
      by_contra ne
      have symm : Std.Symm fun x y : Piece => vpn x.va ≠ vpn y.va := ⟨fun _ _ => Ne.symm⟩
      exact hf.pieces_apart.forall (List.mem_of_find?_eq_some hy) hz ne same
    rw [hy, one]
  rw [Image.fileByte, number, found, offset]

/-- The image at offsets from its base: the pages with the words of the imports. -/
def imageView (fuel : Nat) (f : Image) (mods : List Module) : u64 → u8 :=
  putWords f.fileByte (importPatches fuel f.bytes mods 0).2

/-- A slot inside a page is whole. -/
theorem Placed.whole {l : Loader} (hp : Placed l f pml4 loadBase) {L : List (Piece × u64)}
    (same : L.map Prod.fst = pieces f loadBase) {fuel : Nat} {w : u64 × u64}
    (hw : w ∈ (importPatches fuel f.bytes l.mods loadBase).2) : Whole L w.1 := by
  obtain ⟨table, i, k, patched, slot⟩ := importPatches_patched hw
  obtain ⟨x, hx, o, ho, at_⟩ := hp.slots table i k patched
  rw [← same] at hx
  obtain ⟨y, hy, rfl⟩ := List.mem_map.mp hx
  refine ⟨y.2 + BitVec.ofNat 64 o, fun j hj => ⟨y, hy, o + j, by omega, ?_, ?_⟩⟩
  · rw [slot, at_, BitVec.add_assoc, ← BitVec.ofNat_add]
  · rw [BitVec.add_assoc, ← BitVec.ofNat_add]

/-- **A loaded image** shows the same bytes at the same offsets from every base. -/
theorem loadPe_view {fuel : Nat} {l : Loader} (hf : f.WellFormed) (hs : UserSpace l.sys.vmm pml4)
    (hp : Placed l f pml4 loadBase) (h : (loadPe fuel l f pml4 loadBase).1 = some .success)
    {x : u64} (hx : f.Covers 0 x) :
    byteAt (loadPe fuel l f pml4 loadBase).2.2.sys.vmm.mem pml4 (loadBase + x) =
      imageView fuel f l.mods x := by
  obtain ⟨hmap, -, hend⟩ := loadPe_success h
  obtain ⟨L, same, aligned, laid⟩ := mapSections_laid hf hp.aligned hs hmap
  obtain ⟨-, views⟩ := (laid.views aligned).resolveImports fun w hw =>
    hp.whole same hw
  obtain ⟨z, hz, k, hk, rfl⟩ := hx
  have hz' : z.shift loadBase ∈ pieces f loadBase := by
    rw [pieces_shift]
    exact List.mem_map_of_mem hz
  rw [← same] at hz'
  obtain ⟨y, hy, at_⟩ := List.mem_map.mp hz'
  have va : loadBase + (z.va + BitVec.ofNat 64 k) = y.1.va + BitVec.ofNat 64 k := by
    rw [at_, Piece.shift, BitVec.add_assoc]
  have place : LiesAt L (loadBase + (z.va + BitVec.ofNat 64 k)) (y.2 + BitVec.ofNat 64 k) :=
    ⟨y, hy, k, hk, va, rfl⟩
  -- the page as it was mapped
  have mapped : byteAt (mapSections f pml4 loadBase l.sys.vmm).2.mem pml4
      (loadBase + (z.va + BitVec.ofNat 64 k)) = f.fileByte (z.va + BitVec.ofNat 64 k) := by
    rw [va, (laid.lies y hy).byteAt_eq (aligned y hy) hk, (laid.lies y hy).bytes k hk id,
      hf.fileByte hz hk, at_]
    rfl
  have words := putWords_shift loadBase (importPatches fuel f.bytes l.mods 0).2 mapped
  have patched : (importPatches fuel f.bytes l.mods loadBase).2 =
      (importPatches fuel f.bytes l.mods 0).2.map (shiftWord loadBase) :=
    congrArg Prod.snd (importPatches_shift loadBase)
  rw [← patched] at words
  rw [hend, notifyImageLoaded]
  split
  case h_1 => exact (views.bytes _ _ place).trans words
  case h_2 i hi =>
    obtain ⟨hlt, hfound, -⟩ := List.findIdx?_eq_some_iff_getElem.mp hi
    have both := Bool.and_eq_true_iff.mp hfound
    have peb := hp.peb _ (List.getElem_mem hlt) (by simpa using both.1) (by simpa using both.2)
    refine (views.notify loadBase (fun va hva => ?_) place).trans words
    obtain ⟨out, frame⟩ := peb va hva
    exact ⟨notifySlots_offset va hva, fun y hy => out y.1 (same ▸ List.mem_map_of_mem (f := Prod.fst) hy), frame⟩

end

end MicroNT.Kernel
