import MicroNT.PageLayout

/-! # Stores to pages in place

Pages that are laid out have frames of their own. A store to one of their addresses
changes the byte at that address, and none at another. -/

namespace MicroNT.Kernel

open MicroNT.PMM hiding step Op System
open MicroNT.VMM MicroNT.Boot MicroNT.Base.Radix

/-! ## Places -/

/-- The address `va` of a page in place is at `phys`. -/
def LiesAt (L : List (Piece × u64)) (va phys : u64) : Prop :=
  ∃ y ∈ L, ∃ k, k < PAGE_SIZE ∧ va = y.1.va + BitVec.ofNat 64 k ∧ phys = y.2 + BitVec.ofNat 64 k

/-- The pages start at page boundaries. -/
def Aligned (L : List (Piece × u64)) : Prop := ∀ y ∈ L, y.1.va.toNat % PAGE_SIZE = 0

/-- No byte of a page is fixed. -/
def anywhere : u64 → Prop := fun _ => True

theorem readByte_writeByte (m : Mem) (phys p : u64) (b : u8) :
    readByte (writeByte m p b) phys = if phys = p then b else readByte m phys := by
  rw [readByte_eq, readByte_eq, byteIn_writeByte _ _ _ _ (Nat.mod_lt _ (by decide))]
  refine if_congr ⟨fun same => ?_, fun same => same ▸ ⟨rfl, rfl⟩⟩ rfl rfl
  have page := congrArg BitVec.toNat same.1
  rw [pageOf, pageOf, alignDown_toNat, alignDown_toNat] at page
  have offset := same.2
  refine BitVec.eq_of_toNat_eq ?_
  simp only [PAGE_SIZE] at *
  omega

section

variable {p va phys : u64} {S : u64 → Prop} {s₀ s : Vmm} {L : List (Piece × u64)}

theorem Laid.translate_at (h : Laid p S s₀ L s) (aligned : Aligned L) (place : LiesAt L va phys) :
    translateInPml4 s.mem p va = phys := by
  obtain ⟨y, hy, k, hk, rfl, rfl⟩ := place
  exact (h.lies y hy).translate (aligned y hy) hk

theorem Laid.place_nonzero (h : Laid p S s₀ L s) (place : LiesAt L va phys) : phys ≠ 0 := by
  obtain ⟨y, hy, k, hk, rfl, rfl⟩ := place
  obtain ⟨aligned, below⟩ := (isFrame_iff y.2).mp (h.lies y hy).frame
  intro zero
  refine (h.lies y hy).nonzero (BitVec.eq_of_toNat_eq ?_)
  have sum := congrArg BitVec.toNat zero
  rw [BitVec.toNat_add, (offset_lt hk).2] at sum
  have none : (0 : u64).toNat = 0 := rfl
  simp only [PAGE_SIZE] at *
  omega

theorem Laid.pageOf_place (h : Laid p S s₀ L s) {y : Piece × u64} (hy : y ∈ L) {k : Nat}
    (hk : k < PAGE_SIZE) : pageOf (y.2 + BitVec.ofNat 64 k) = y.2 := by
  have page := pageOf_add (o := 0#64) (h.lies y hy).frame (k := k) (by simpa using hk)
  rwa [BitVec.add_zero] at page

/-- Two addresses are not at one place. -/
theorem Laid.place_inj (h : Laid p S s₀ L s) {va' : u64} (place : LiesAt L va phys)
    (place' : LiesAt L va' phys) : va = va' := by
  obtain ⟨y, hy, k, hk, rfl, at_⟩ := place
  obtain ⟨z, hz, j, hj, rfl, at'⟩ := place'
  have frames : y.2 = z.2 := by
    rw [← h.pageOf_place hy hk, ← h.pageOf_place hz hj, ← at_, ← at']
  have same : y = z := by
    by_contra ne
    have symm : Std.Symm fun x y : Piece × u64 => x.2 ≠ y.2 := ⟨fun _ _ => Ne.symm⟩
    exact h.apart.forall hy hz ne frames
  rw [at_, same] at at'
  rw [same, (BitVec.add_right_inj z.2).mp at']

theorem Laid.byteAt_place (h : Laid p S s₀ L s) (aligned : Aligned L) (place : LiesAt L va phys) :
    byteAt s.mem p va = readByte s.mem phys := by
  rw [byteAt, readUserByte, h.translate_at aligned place]
  simp only [if_neg (h.place_nonzero place)]

/-- A byte in place is stored. -/
theorem Laid.storeByte (h : Laid p anywhere s₀ L s) (place : LiesAt L va phys) (b : u8) :
    Laid p anywhere s₀ L { s with mem := writeByte s.mem phys b } := by
  obtain ⟨y, hy, k, hk, -, rfl⟩ := place
  have page := h.pageOf_place hy hk
  have same : ∀ t, Tables (· = p) s.mem t → writeByte s.mem (y.2 + BitVec.ofNat 64 k) b t = s.mem t := by
    intro t ht
    have other : t ≠ y.2 := by
      rintro rfl
      exact (h.lies y hy).data ht
    exact write_of_table_ne (page.symm ▸ other)
  obtain ⟨-, tables, -⟩ := h.space.trees.data same
  refine ⟨h.space.data same, h.bits, fun x hx => ?_, h.fresh, h.apart,
    fun g hg hn hd => h.data g hg hn ((tables g).mp hd), fun w hw => ?_⟩
  · exact (h.lies x hx).store h.space same fun _ _ no => absurd trivial no
  · show translateInPml4 (writeByte s.mem _ b) p w = _
    rw [translateInPml4_eq, entries_data same rfl, ← translateInPml4_eq]
    exact h.others w hw

end

/-! ## What the pages show -/

/-- The pages are in place and show these bytes. -/
structure Views (p : u64) (s₀ : Vmm) (L : List (Piece × u64)) (s : Vmm) (view : u64 → u8) :
    Prop where
  laid : Laid p anywhere s₀ L s
  aligned : Aligned L
  bytes : ∀ va phys, LiesAt L va phys → byteAt s.mem p va = view va

/-- `n` bytes of `val`, from byte `i` on, stored behind `va`. -/
def putBytes (va val : u64) (n i : Nat) (view : u64 → u8) : u64 → u8 := fun w =>
  if i ≤ (w - va).toNat ∧ (w - va).toNat < i + n then (val >>> (8 * (w - va).toNat)).setWidth 8
  else view w

def putWord (view : u64 → u8) (va val : u64) : u64 → u8 := putBytes va val 8 0 view

/-- The eight bytes from `va` on are in place and follow one another there. -/
def Whole (L : List (Piece × u64)) (va : u64) : Prop :=
  ∃ phys, ∀ j, j < 8 → LiesAt L (va + BitVec.ofNat 64 j) (phys + BitVec.ofNat 64 j)

theorem sub_eq_ofNat {w va : u64} {i : Nat} (hi : i < 2 ^ 64) :
    (w - va).toNat = i ↔ w = va + BitVec.ofNat 64 i := by
  have index : (BitVec.ofNat 64 i).toNat = i := by rw [BitVec.toNat_ofNat, Nat.mod_eq_of_lt hi]
  constructor
  · intro same
    have diff : w - va = BitVec.ofNat 64 i := BitVec.eq_of_toNat_eq (same.trans index.symm)
    rw [← diff, BitVec.add_comm, BitVec.sub_add_cancel]
  · intro same
    rw [same, BitVec.add_comm, BitVec.add_sub_cancel, index]

theorem putBytes_succ (va val : u64) (n i : Nat) (hi : i < 2 ^ 64) (view : u64 → u8) :
    putBytes va val (n + 1) i view =
      putBytes va val n (i + 1) (Function.update view (va + BitVec.ofNat 64 i)
        ((val >>> (8 * i)).setWidth 8)) := by
  funext w
  rw [putBytes, putBytes, Function.update_apply]
  by_cases here : (w - va).toNat = i
  · rw [if_pos (by omega), if_neg (by omega), if_pos ((sub_eq_ofNat hi).mp here), here]
  · rw [if_neg fun same => here ((sub_eq_ofNat hi).mpr same)]
    exact if_congr (by omega) rfl rfl

section

variable {p va phys : u64} {s₀ s : Vmm} {L : List (Piece × u64)} {view : u64 → u8}

/-- **A byte stored** at its place shows at its address only. -/
theorem Views.storeByte (h : Views p s₀ L s view) (place : LiesAt L va phys) (b : u8) :
    Views p s₀ L { s with mem := writeByte s.mem phys b } (Function.update view va b) where
  laid := h.laid.storeByte place b
  aligned := h.aligned
  bytes w q at_ := by
    rw [(h.laid.storeByte place b).byteAt_place h.aligned at_]
    show readByte (writeByte s.mem phys b) q = _
    rw [readByte_writeByte, Function.update_apply]
    by_cases same : w = va
    · have one : q = phys := by
        rw [← h.laid.translate_at h.aligned at_, ← h.laid.translate_at h.aligned place, same]
      rw [if_pos one, if_pos same]
    · have two : q ≠ phys := by
        rintro rfl
        exact same (h.laid.place_inj at_ place)
      rw [if_neg two, if_neg same, ← h.bytes w q at_, h.laid.byteAt_place h.aligned at_]

theorem Views.writeBytes (h : Views p s₀ L s view) (val : u64) (n i : Nat) (hn : i + n ≤ 8)
    (place : ∀ j, j < 8 → LiesAt L (va + BitVec.ofNat 64 j) (phys + BitVec.ofNat 64 j)) :
    Views p s₀ L { s with mem := Kernel.writeBytes phys val n i s.mem }
      (putBytes va val n i view) := by
  induction n generalizing i s view with
  | zero =>
    have same : putBytes va val 0 i view = view := by
      funext w
      rw [putBytes, if_neg (by omega)]
    rw [same]
    exact h
  | succ n ih =>
    rw [putBytes_succ va val n i (by omega)]
    exact ih (h.storeByte (place i (by omega)) _) (i + 1) (by omega)

theorem putWord_twice (view : u64 → u8) (va val : u64) :
    putWord (putWord view va val) va val = putWord view va val := by
  funext w
  rw [putWord, putWord, putBytes, putBytes]
  split
  case isTrue => rfl
  case isFalse => rfl

/-- **A slot in place is patched**, and nothing else. -/
theorem Views.patchIatSlot (h : Views p s₀ L s view) (whole : Whole L va) (funcVa : u64) :
    (Kernel.patchIatSlot s p va funcVa).1 = true ∧
      Views p s₀ L (Kernel.patchIatSlot s p va funcVa).2 (putWord view va funcVa) := by
  obtain ⟨phys, place⟩ := whole
  have first : LiesAt L va phys := by
    have zero := place 0 (by decide)
    rwa [show va + BitVec.ofNat 64 0 = va from BitVec.add_zero va,
      show phys + BitVec.ofNat 64 0 = phys from BitVec.add_zero phys] at zero
  have at_ := h.laid.translate_at h.aligned first
  rw [Kernel.patchIatSlot, at_]
  simp only [if_neg (h.laid.place_nonzero first), BitVec.sub_add_cancel, true_and]
  rw [← putWord_twice]
  exact (h.writeBytes funcVa 8 0 le_rfl place).writeBytes funcVa 8 0 le_rfl place

end

/-! ## Words on the pages -/

/-- The word at an address. -/
def wordAt (view : u64 → u8) (va : u64) : u64 := u64At (fun i => view (va + BitVec.ofNat 64 i)) 0

/-- The words stored one after another. -/
def putWords (view : u64 → u8) (ws : List (u64 × u64)) : u64 → u8 :=
  ws.foldl (fun v w => putWord v w.1 w.2) view

/-- `va` is a byte of the eight from `slot` on. -/
def InWord (slot va : u64) : Prop := (va - slot).toNat < 8

theorem putWord_outside {view : u64 → u8} {slot val va : u64} (h : ¬ InWord slot va) :
    putWord view slot val va = view va := by
  rw [putWord, putBytes, if_neg fun inside => h (by rw [InWord]; omega)]

theorem putWord_inside {view : u64 → u8} {slot val va : u64} (h : InWord slot va) :
    putWord view slot val va = (val >>> (8 * (va - slot).toNat)).setWidth 8 := by
  rw [InWord] at h
  rw [putWord, putBytes, if_pos (by omega)]

theorem putWords_outside {view : u64 → u8} {ws : List (u64 × u64)} {va : u64}
    (h : ∀ w ∈ ws, ¬ InWord w.1 va) : putWords view ws va = view va := by
  induction ws generalizing view with
  | nil => rfl
  | cons w ws ih =>
    rw [putWords, List.foldl_cons]
    refine (ih fun x hx => h x (List.mem_cons_of_mem w hx)).trans ?_
    exact putWord_outside (h w List.mem_cons_self)

/-- **Words that are apart** are all there. -/
theorem putWords_inside {view : u64 → u8} {ws : List (u64 × u64)}
    (apart : ws.Pairwise fun v w => ∀ va, ¬ (InWord v.1 va ∧ InWord w.1 va)) {w : u64 × u64}
    (hw : w ∈ ws) {va : u64} (inside : InWord w.1 va) :
    putWords view ws va = (w.2 >>> (8 * (va - w.1).toNat)).setWidth 8 := by
  induction ws generalizing view with
  | nil => exact absurd hw List.not_mem_nil
  | cons v ws ih =>
    obtain ⟨first, rest⟩ := List.pairwise_cons.mp apart
    rw [putWords, List.foldl_cons]
    rcases List.mem_cons.mp hw with rfl | hw
    · refine (putWords_outside fun x hx both => first x hx va ⟨inside, both⟩).trans ?_
      exact putWord_inside inside
    · exact ih rest hw

theorem wordAt_eq {view : u64 → u8} {slot val : u64}
    (h : ∀ va, InWord slot va → view va = (val >>> (8 * (va - slot).toNat)).setWidth 8) :
    wordAt view slot = val := by
  apply BitVec.eq_of_getLsbD_eq
  intro i hi
  have offset : (slot + BitVec.ofNat 64 (0 + i / 8) - slot).toNat = i / 8 := by
    rw [Nat.zero_add]
    exact (sub_eq_ofNat (by omega)).mpr rfl
  rw [wordAt, u64At_getLsbD _ _ hi, h _ (by rw [InWord, offset]; omega), offset,
    BitVec.getLsbD_setWidth, BitVec.getLsbD_ushiftRight, decide_eq_true (by omega), Bool.true_and,
    Nat.div_add_mod]

end MicroNT.Kernel
