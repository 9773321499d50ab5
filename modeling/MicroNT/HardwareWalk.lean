import MicroNT.Boot

/-! # The processor's page walk

The processor takes the frame of a leaf from the bits up to 51, whatever the size of the
page, and looks at the present bit of every entry on the way. Bit 7 of a top-level entry is
reserved: the processor faults on it and translates nothing. -/

namespace MicroNT.VMM

open MicroNT.Boot

/-- How a walk ends. -/
inductive WalkResult
  | notPresent
  | reserved
  | mapped (phys : Nat)
  deriving DecidableEq

/-- Bits `51:k` of a leaf with the offset in a page of `2 ^ k` bytes. -/
def leafAddr (k : Nat) (e v : u64) : Nat := e.toNat % 2 ^ 52 / 2 ^ k * 2 ^ k + v.toNat % 2 ^ k

/-- Bits `51:12` of an entry. -/
def nextTable (e : u64) : u64 := BitVec.ofNat 64 (e.toNat % 2 ^ 52 / 2 ^ 12 * 2 ^ 12)

/-- Bits `k + 8:k` of an address. -/
def walkIndex (k : Nat) (v : u64) : Index := BitVec.ofNat 9 (v.toNat / 2 ^ k)

/-- The walk of the processor below the top level. -/
def hardwareWalkBelow (m : Mem) (pdpt v : u64) : WalkResult :=
  let pdpte := m pdpt (walkIndex 30 v)
  if !pdpte.getLsbD 0 then .notPresent
  else if pdpte.getLsbD 7 then .mapped (leafAddr 30 pdpte v)
  else
    let pde := m (nextTable pdpte) (walkIndex 21 v)
    if !pde.getLsbD 0 then .notPresent
    else if pde.getLsbD 7 then .mapped (leafAddr 21 pde v)
    else
      let pte := m (nextTable pde) (walkIndex 12 v)
      if !pte.getLsbD 0 then .notPresent else .mapped (leafAddr 12 pte v)

/-- The four-level walk of the processor. -/
def hardwareWalk (m : Mem) (root v : u64) : WalkResult :=
  let pml4e := m root (walkIndex 39 v)
  if !pml4e.getLsbD 0 then .notPresent
  else if pml4e.getLsbD 7 then .reserved
  else hardwareWalkBelow m (nextTable pml4e) v

/-- A software walker returns the address that the walk defines, and 0 if an entry is not
present. -/
def Agrees (result : u64) : WalkResult → Prop
  | .notPresent => result = 0
  | .reserved => True
  | .mapped phys => result.toNat = phys

/-- The walk ends at a 1 GB page whose entry has one of the bits `55:52` set, which the
processor leaves to software. -/
def HighHugePage (m : Mem) (root v : u64) : Prop :=
  let pml4e := m root (walkIndex 39 v)
  let pdpte := m (nextTable pml4e) (walkIndex 30 v)
  pml4e.getLsbD 0 = true ∧ pml4e.getLsbD 7 = false ∧ pdpte.getLsbD 0 = true ∧
    pdpte.getLsbD 7 = true ∧ pdpte.toNat / 2 ^ 52 % 2 ^ 4 ≠ 0

/-! ## Masks -/

/-- A mask of the bits from `lo` up to `hi`. -/
theorem and_mask_toNat {mask : u64} {lo hi : Nat}
    (bits : ∀ i : Fin 64, mask.getLsbD i = (decide (lo ≤ i.val) && decide (i.val < hi))) (e : u64) :
    (e &&& mask).toNat = e.toNat % 2 ^ hi / 2 ^ lo * 2 ^ lo := by
  apply Nat.eq_of_testBit_eq
  intro i
  rw [BitVec.testBit_toNat, BitVec.getLsbD_and, Nat.testBit_mul_two_pow, Nat.testBit_div_two_pow,
    Nat.testBit_mod_two_pow, BitVec.testBit_toNat]
  by_cases inside : i < 64
  · rw [bits ⟨i, inside⟩]
    by_cases low : lo ≤ i
    · simp [low, Bool.and_comm]
    · simp [low]
  · rw [BitVec.getLsbD_of_ge e i (by omega)]
    by_cases low : lo ≤ i
    · simp [low, BitVec.getLsbD_of_ge e i (by omega)]
    · simp [low]

/-- A frame and the offset behind it. -/
theorem or_offset_toNat {e v mask low : u64} {lo hi : Nat}
    (bits : ∀ i : Fin 64, mask.getLsbD i = (decide (lo ≤ i.val) && decide (i.val < hi)))
    (offset : low.toNat = 2 ^ lo - 1) :
    ((e &&& mask) ||| (v &&& low)).toNat =
      e.toNat % 2 ^ hi / 2 ^ lo * 2 ^ lo + v.toNat % 2 ^ lo := by
  rw [BitVec.toNat_or, and_mask_toNat bits, BitVec.toNat_and, offset,
    Nat.and_two_pow_sub_one_eq_mod, Nat.mul_comm,
    Nat.two_pow_add_eq_or_of_lt (Nat.mod_lt _ (Nat.two_pow_pos lo))]

theorem smallPage_toNat (e v : u64) :
    ((e &&& PTE_ADDR_MASK) ||| (v &&& 0xFFF#64)).toNat = leafAddr 12 e v := by
  have bits : ∀ i : Fin 64, PTE_ADDR_MASK.getLsbD i = (decide (12 ≤ i.val) && decide (i.val < 52)) := by
    decide
  exact or_offset_toNat bits rfl

theorem largePage_toNat (e v : u64) :
    ((e &&& HUGE_2M_MASK) ||| (v &&& 0x1FFFFF#64)).toNat = leafAddr 21 e v := by
  have bits : ∀ i : Fin 64, HUGE_2M_MASK.getLsbD i = (decide (21 ≤ i.val) && decide (i.val < 52)) := by
    decide
  exact or_offset_toNat bits rfl

/-- **The mask of a 1 GB page** keeps four bits too many. -/
theorem hugePage_toNat (e v : u64) :
    ((e &&& HUGE_1G_MASK) ||| (v &&& 0x3FFFFFFF#64)).toNat =
      leafAddr 30 e v + e.toNat / 2 ^ 52 % 2 ^ 4 * 2 ^ 52 := by
  have bits : ∀ i : Fin 64, HUGE_1G_MASK.getLsbD i = (decide (30 ≤ i.val) && decide (i.val < 56)) := by
    decide
  rw [or_offset_toNat bits rfl, leafAddr]
  omega

theorem and_addrMask_eq (e : u64) : e &&& PTE_ADDR_MASK = nextTable e := by
  have bits : ∀ i : Fin 64, PTE_ADDR_MASK.getLsbD i = (decide (12 ≤ i.val) && decide (i.val < 52)) := by
    decide
  have below : e.toNat % 2 ^ 52 / 2 ^ 12 * 2 ^ 12 < 2 ^ 64 := by omega
  apply BitVec.eq_of_toNat_eq
  rw [and_mask_toNat bits, nextTable, BitVec.toNat_ofNat, Nat.mod_eq_of_lt below]

theorem walkIndex_eq (k : Nat) (v : u64) : (v >>> k).setWidth 9 = walkIndex k v := by
  apply BitVec.eq_of_toNat_eq
  rw [BitVec.toNat_setWidth, BitVec.toNat_ushiftRight, Nat.shiftRight_eq_div_pow, walkIndex,
    BitVec.toNat_ofNat]

/-! ## The two walkers -/

/-- What both walkers do below the top level. -/
def walkBelow (m : Mem) (pdpt v : u64) : u64 :=
  let e2 := m pdpt (walkIndex 30 v)
  if !e2.getLsbD 0 then 0
  else if e2.getLsbD 7 then (e2 &&& HUGE_1G_MASK) ||| (v &&& 0x3FFFFFFF#64)
  else
    let e3 := m (nextTable e2) (walkIndex 21 v)
    if !e3.getLsbD 0 then 0
    else if e3.getLsbD 7 then (e3 &&& HUGE_2M_MASK) ||| (v &&& 0x1FFFFF#64)
    else
      let pte := m (nextTable e3) (walkIndex 12 v)
      if !pte.getLsbD 0 then 0 else (pte &&& PTE_ADDR_MASK) ||| (v &&& 0xFFF#64)

theorem translateInPml4_below (m : Mem) (root v : u64) :
    translateInPml4 m root v =
      let e1 := m root (walkIndex 39 v)
      if !e1.getLsbD 0 then 0 else if e1.getLsbD 7 then 0 else walkBelow m (nextTable e1) v := by
  unfold translateInPml4 walkBelow
  simp only [pml4Idx, pdptIdx, pdIdx, ptIdx, walkIndex_eq, and_addrMask_eq, has_present, has_ps]

theorem v2p_below (m : Mem) (root v : u64) :
    v2p m root v =
      let e1 := m root (walkIndex 39 v)
      if !e1.getLsbD 0 then 0 else walkBelow m (nextTable e1) v := by
  unfold v2p walkBelow
  simp only [pml4Idx, pdptIdx, pdIdx, ptIdx, walkIndex_eq, and_addrMask_eq, has_present, has_ps]

/-- **Below the top level** the walkers agree with the processor off the 1 GB pages with
high bits. -/
theorem walkBelow_agrees (m : Mem) (pdpt v : u64) :
    Agrees (walkBelow m pdpt v) (hardwareWalkBelow m pdpt v) ↔
      ¬ ((m pdpt (walkIndex 30 v)).getLsbD 0 = true ∧ (m pdpt (walkIndex 30 v)).getLsbD 7 = true ∧
        (m pdpt (walkIndex 30 v)).toNat / 2 ^ 52 % 2 ^ 4 ≠ 0) := by
  unfold walkBelow hardwareWalkBelow
  dsimp only
  cases present : (m pdpt (walkIndex 30 v)).getLsbD 0 with
  | false => exact iff_of_true rfl fun h => Bool.false_ne_true h.1
  | true =>
    cases huge : (m pdpt (walkIndex 30 v)).getLsbD 7 with
    | true =>
      -- the bits that the mask keeps beyond bit 51 are added to the address
      simp only [Bool.not_true, Bool.false_eq_true, if_false, if_true, Agrees, hugePage_toNat,
        true_and, not_not, ne_eq]
      omega
    | false =>
      refine iff_of_true ?_ fun h => Bool.false_ne_true h.2.1
      simp only [Bool.not_true, Bool.false_eq_true, if_false]
      generalize m (nextTable (m pdpt (walkIndex 30 v))) (walkIndex 21 v) = e3
      cases e3.getLsbD 0 with
      | false => exact rfl
      | true =>
        cases e3.getLsbD 7 with
        | true => exact largePage_toNat e3 v
        | false =>
          simp only [Bool.not_true, Bool.false_eq_true, if_false]
          generalize m (nextTable e3) (walkIndex 12 v) = pte
          cases pte.getLsbD 0 with
          | false => exact rfl
          | true => exact smallPage_toNat pte v

/-- **The software walkers against the processor.** For all contents of the tables and all
addresses, `V2P` and `TranslateInPml4` return what the processor's walk gives exactly if it
does not end at a 1 GB page with a bit above bit 51 among the four that their mask keeps. -/
theorem walkers_agree_iff (m : Mem) (root v : u64) :
    (Agrees (v2p m root v) (hardwareWalk m root v) ↔ ¬ HighHugePage m root v) ∧
      (Agrees (translateInPml4 m root v) (hardwareWalk m root v) ↔ ¬ HighHugePage m root v) := by
  rw [v2p_below, translateInPml4_below]
  unfold hardwareWalk HighHugePage
  have below := walkBelow_agrees m (nextTable (m root (walkIndex 39 v))) v
  dsimp only
  generalize m root (walkIndex 39 v) = e1 at *
  cases e1.getLsbD 0 with
  | false =>
    have none : ∀ p q r s : Prop, ¬ (false = true ∧ p ∧ q ∧ r ∧ s) := fun _ _ _ _ h =>
      Bool.false_ne_true h.1
    exact ⟨iff_of_true rfl (none _ _ _ _), iff_of_true rfl (none _ _ _ _)⟩
  | true =>
    cases e1.getLsbD 7 with
    | true =>
      simp [Agrees]
    | false =>
      simp only [Bool.not_true, Bool.false_eq_true, if_false, true_and]
      exact ⟨below, below⟩

/-- A PML4 at 0 whose first entry leads to a table with a 1 GB page at 0, which carries a
bit for software. -/
def markedHugePage : Mem := fun t i =>
  if i = 0 then if t = 0 then 0x1003#64 else 0x0010000000000083#64 else 0

/-- The processor takes address 0 to 0, `V2P` and `TranslateInPml4` to 2^52. -/
theorem marked_huge_page_differs :
    ¬ Agrees (v2p markedHugePage 0 0) (hardwareWalk markedHugePage 0 0) ∧
      ¬ Agrees (translateInPml4 markedHugePage 0 0) (hardwareWalk markedHugePage 0 0) := by
  have walk : hardwareWalk markedHugePage 0 0 = .mapped 0 := by decide +kernel
  have first : v2p markedHugePage 0 0 = 0x0010000000000000#64 := by decide +kernel
  have second : translateInPml4 markedHugePage 0 0 = 0x0010000000000000#64 := by decide +kernel
  rw [walk, first, second]
  exact ⟨by unfold Agrees; decide, by unfold Agrees; decide⟩

end MicroNT.VMM
