import MicroNT.PeIsolation

/-! # The bytes of a page

Memory is kept as words, and the kernel copies bytes. A byte is stored in the word
around it, and a page filled from bytes holds these bytes. -/

namespace MicroNT.Kernel

open MicroNT.PMM hiding step Op System
open MicroNT.VMM MicroNT.Boot MicroNT.Base.Radix

/-- Byte `k` of a page. -/
def byteIn (t : Table) (k : Nat) : u8 := (t (BitVec.ofNat 9 (k / 8)) >>> (8 * (k % 8))).setWidth 8

theorem wordIndex_toNat (phys : u64) :
    ((phys >>> 3).setWidth 9 : Index).toNat = phys.toNat % PAGE_SIZE / 8 := by
  rw [BitVec.toNat_setWidth, BitVec.toNat_ushiftRight, Nat.shiftRight_eq_div_pow]
  simp only [PAGE_SIZE]
  omega

theorem readByte_eq (m : Mem) (phys : u64) :
    readByte m phys = byteIn (m (pageOf phys)) (phys.toNat % PAGE_SIZE) := by
  have index : BitVec.ofNat 9 (phys.toNat % PAGE_SIZE / 8) = ((phys >>> 3).setWidth 9 : Index) := by
    rw [← wordIndex_toNat, BitVec.ofNat_toNat, BitVec.setWidth_eq]
  have shift : phys.toNat % PAGE_SIZE % 8 = phys.toNat % 8 := by
    simp only [PAGE_SIZE]
    omega
  rw [readByte, byteIn, index, shift]

/-- The lowest `n` bits of a word. -/
theorem lowBits_getLsbD {n : Nat} (hn : n ≤ 64) (i : Nat) :
    (BitVec.ofNat 64 (2 ^ n - 1)).getLsbD i = decide (i < n) := by
  rw [BitVec.getLsbD_ofNat, Nat.testBit_two_pow_sub_one]
  by_cases h : i < n
  · simp [h, show i < 64 by omega]
  · simp [h]

/-- A byte put in its place in a word. -/
theorem byte_of_word (w : u64) (val : u8) {a b : Nat} (hb : b < 8) :
    (((w &&& ~~~(0xFF#64 <<< (8 * a))) ||| (val.setWidth 64 <<< (8 * a))) >>> (8 * b)).setWidth 8 =
      if a = b then val else (w >>> (8 * b)).setWidth 8 := by
  have mask := fun i => lowBits_getLsbD (n := 8) (by decide) i
  apply BitVec.eq_of_getLsbD_eq
  intro i hi
  have here : 8 * b + i < 64 := by omega
  simp only [BitVec.getLsbD_setWidth, BitVec.getLsbD_ushiftRight, BitVec.getLsbD_or,
    BitVec.getLsbD_and, BitVec.getLsbD_not, BitVec.getLsbD_shiftLeft, hi, here, decide_true,
    Bool.true_and, show (0xFF#64 : u64) = BitVec.ofNat 64 (2 ^ 8 - 1) from rfl, mask]
  by_cases hab : a = b
  · subst hab
    have out : ¬ 8 * a + i < 8 * a := by omega
    simp [hi, out, show i < 64 by omega]
  · rw [if_neg hab]
    have apart : 8 * b + i < 8 * a ∨ ¬ 8 * b + i - 8 * a < 8 := by omega
    rcases apart with h | h
    · simp [h, hi]
    · have high : val.getLsbD (8 * b + i - 8 * a) = false :=
        BitVec.getLsbD_of_ge _ _ (by omega)
      simp [h, high, hi]

/-- **A store of a byte** changes that byte only. -/
theorem byteIn_writeByte (m : Mem) (phys t : u64) (val : u8) {k : Nat} (hk : k < PAGE_SIZE) :
    byteIn (writeByte m phys val t) k =
      if t = pageOf phys ∧ k = phys.toNat % PAGE_SIZE then val else byteIn (m t) k := by
  have index : (BitVec.ofNat 9 (k / 8) : Index).toNat = k / 8 := by
    rw [BitVec.toNat_ofNat]
    simp only [PAGE_SIZE] at hk
    omega
  have word := wordIndex_toNat phys
  have shift : phys.toNat % PAGE_SIZE % 8 = phys.toNat % 8 := by
    simp only [PAGE_SIZE]
    omega
  unfold writeByte byteIn
  by_cases here : t = pageOf phys ∧ BitVec.ofNat 9 (k / 8) = ((phys >>> 3).setWidth 9 : Index)
  case neg =>
    rw [write_of_ne here, if_neg]
    rintro ⟨rfl, rfl⟩
    refine here ⟨rfl, BitVec.eq_of_toNat_eq ?_⟩
    rw [index, word]
  case pos =>
    obtain ⟨rfl, hi⟩ := here
    have hw := congrArg BitVec.toNat hi
    rw [index, word] at hw
    rw [hi, write_same, byte_of_word _ _ (Nat.mod_lt _ (by decide))]
    by_cases hb : phys.toNat % 8 = k % 8
    · rw [if_pos hb, if_pos ⟨rfl, by omega⟩]
    · rw [if_neg hb, if_neg fun h => hb (by omega)]

/-- A store of a word spares the bytes of other pages and those outside its range. -/
theorem byteIn_writeBytes {phys val t : u64} {k : Nat} (hk : k < PAGE_SIZE) (n i : Nat)
    (apart : ∀ j, i ≤ j → j < i + n → t = pageOf (phys + BitVec.ofNat 64 j) →
      k ≠ (phys + BitVec.ofNat 64 j).toNat % PAGE_SIZE) (m : Mem) :
    byteIn (writeBytes phys val n i m t) k = byteIn (m t) k := by
  induction n generalizing i m with
  | zero => rfl
  | succ n ih =>
    rw [writeBytes, ih (i + 1) (fun j h1 h2 => apart j (by omega) (by omega)),
      byteIn_writeByte _ _ _ _ hk, if_neg fun h => apart i le_rfl (by omega) h.1 h.2]

/-! ## Pages of bytes -/

theorem u16At_getLsbD (f : Nat → u8) (off : Nat) {i : Nat} (hi : i < 16) :
    (u16At f off).getLsbD i = (f (off + i / 8)).getLsbD (i % 8) := by
  rw [u16At, BitVec.getLsbD_append]
  by_cases h : i < 8
  · rw [if_pos h, Nat.div_eq_of_lt h, Nat.mod_eq_of_lt h, Nat.add_zero]
  · rw [if_neg h, show i / 8 = 1 by omega, show i - 8 = i % 8 by omega]

theorem u32At_getLsbD (f : Nat → u8) (off : Nat) {i : Nat} (hi : i < 32) :
    (u32At f off).getLsbD i = (f (off + i / 8)).getLsbD (i % 8) := by
  rw [u32At, BitVec.getLsbD_append]
  by_cases h : i < 16
  · rw [if_pos h, u16At_getLsbD f off h]
  · rw [if_neg h, u16At_getLsbD f (off + 2) (by omega),
      show off + 2 + (i - 16) / 8 = off + i / 8 by omega, show (i - 16) % 8 = i % 8 by omega]

theorem u64At_getLsbD (f : Nat → u8) (off : Nat) {i : Nat} (hi : i < 64) :
    (u64At f off).getLsbD i = (f (off + i / 8)).getLsbD (i % 8) := by
  rw [u64At, BitVec.getLsbD_append]
  by_cases h : i < 32
  · rw [if_pos h, u32At_getLsbD f off h]
  · rw [if_neg h, u32At_getLsbD f (off + 4) (by omega),
      show off + 4 + (i - 32) / 8 = off + i / 8 by omega, show (i - 32) % 8 = i % 8 by omega]

/-- **A page of bytes** holds them. -/
theorem byteIn_pageOfBytes (f : Nat → u8) {k : Nat} (hk : k < PAGE_SIZE) :
    byteIn (pageOfBytes f) k = f k := by
  have index : (BitVec.ofNat 9 (k / 8) : Index).toNat = k / 8 := by
    rw [BitVec.toNat_ofNat]
    simp only [PAGE_SIZE] at hk
    omega
  rw [byteIn, pageOfBytes, index]
  apply BitVec.eq_of_getLsbD_eq
  intro i hi
  rw [BitVec.getLsbD_setWidth, BitVec.getLsbD_ushiftRight, u64At_getLsbD f _ (by omega),
    decide_eq_true hi, Bool.true_and, show 8 * (k / 8) + (8 * (k % 8) + i) / 8 = k by omega,
    show (8 * (k % 8) + i) % 8 = i by omega]

end MicroNT.Kernel
