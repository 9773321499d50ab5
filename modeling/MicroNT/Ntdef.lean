import Mathlib.Data.Nat.Bitwise

/-! # Machine words and alignment (`ntdef.h`)

The kernel's integer types are bit vectors, so every sum wraps as the code's
sums do. The memory manager only aligns to pages; the two lemmas give the
values over the naturals, the second where the sum does not wrap. -/

namespace MicroNT

abbrev u8 := BitVec 8
abbrev u16 := BitVec 16
abbrev u32 := BitVec 32
abbrev u64 := BitVec 64

/-- Membership in a list of words is decided by their bits. -/
instance instLawfulBEqWord : LawfulBEq u64 := instLawfulBEq

abbrev PAGE_SIZE : Nat := 0x1000

/-- `PAGE_SIZE` as the 64-bit word the code adds and compares. -/
abbrev pageSize64 : u64 := 0x1000#64

def alignUp (value align : u64) : u64 := (value + align - 1#64) &&& ~~~(align - 1#64)

def alignDown (value align : u64) : u64 := value &&& ~~~(align - 1#64)

theorem pageMask_getLsbD (i : Nat) :
    (~~~(pageSize64 - 1#64)).getLsbD i = (decide (12 ≤ i) && decide (i < 64)) := by
  by_cases h : i < 64
  · have all : ∀ j : Fin 64,
        (~~~(pageSize64 - 1#64)).getLsbD j = (decide (12 ≤ j.val) && decide (j.val < 64)) := by
      decide
    exact all ⟨i, h⟩
  · rw [BitVec.getLsbD_of_ge _ _ (by omega)]
    simp [h]

/-- Clearing the low twelve bits is a shift down and up. -/
theorem and_pageMask (x : u64) : x &&& ~~~(pageSize64 - 1#64) = (x >>> 12) <<< 12 := by
  apply BitVec.eq_of_getLsbD_eq
  intro i hi
  rw [BitVec.getLsbD_and, pageMask_getLsbD]
  simp only [BitVec.getLsbD_shiftLeft, BitVec.getLsbD_ushiftRight]
  by_cases h : i < 12
  · simp [h]
  · have hi' : 12 + (i - 12) = i := by omega
    simp [h, hi, hi', show 12 ≤ i by omega]

theorem alignDown_toNat (x : u64) :
    (alignDown x pageSize64).toNat = x.toNat / PAGE_SIZE * PAGE_SIZE := by
  have hx := x.isLt
  rw [alignDown, and_pageMask, BitVec.toNat_shiftLeft, BitVec.toNat_ushiftRight,
    Nat.shiftRight_eq_div_pow, Nat.shiftLeft_eq]
  simp only [PAGE_SIZE]
  omega

theorem alignUp_eq (x : u64) : alignUp x pageSize64 = alignDown (x + 0xFFF#64) pageSize64 := by
  have h : x + pageSize64 - 1#64 = x + 0xFFF#64 := by
    rw [BitVec.sub_eq_add_neg, BitVec.add_assoc]; rfl
  rw [alignUp, h, alignDown]

/-- Aligning up rounds up as long as the sum stays below `2 ^ 64`. -/
theorem alignUp_toNat {x : u64} (h : x.toNat + 0xFFF < 2 ^ 64) :
    (alignUp x pageSize64).toNat = (x.toNat + 0xFFF) / PAGE_SIZE * PAGE_SIZE := by
  rw [alignUp_eq, alignDown_toNat, BitVec.toNat_add]
  rw [Nat.mod_eq_of_lt (by simpa using h)]
  rfl

end MicroNT
