import Mathlib.Algebra.Order.Group.Nat
import Mathlib.Data.Nat.ModEq
import MicroNT.Base.Machine
import MicroNT.MemoryCalls

/-! # Blocks of the kernel heap (`heap.cpp`)

`Alloc` rounds the end of the last block up and compares the new end with the size of the
heap, both modulo `2 ^ 64`. A request that is large enough wraps past the comparison. -/

namespace MicroNT.Kernel

open MicroNT.Base.Machine

/-- `KernelHeap::Alloc`: the pointer, null if there is no room, and the heap. -/
def KernelHeap.allocPtr (h : KernelHeap) (size align : u64) : u64 × KernelHeap :=
  let cur := alignUp (h.base + h.used) align - h.base
  if cur + size > h.size then (0, h) else (h.base + cur, { h with used := cur + size })

/-- The heap that the object calls go on with. -/
theorem KernelHeap.alloc_eq (h : KernelHeap) (size align : u64) :
    h.alloc size align =
      if alignUp (h.base + h.used) align - h.base + size > h.size then none
      else some (h.allocPtr size align).2 := by
  rw [alloc, allocPtr]
  split
  · rfl
  · rfl

/-- The loop that clears `n` bytes from `p` on. -/
def clearBytes : Nat → u64 → (u64 → u8) → u64 → u8
  | 0, _, m => m
  | n + 1, p, m => clearBytes n (p + 1) (Function.update m p 0)

/-- The heap, memory, and the blocks handed out so far with their sizes. -/
structure HeapState where
  heap : KernelHeap
  mem : u64 → u8
  blocks : List (u64 × u64)

/-- `Alloc` or `AllocZeroed` of `size` bytes at a multiple of `2 ^ align`. -/
structure HeapRequest where
  zeroed : Bool
  size : u64
  align : Fin 64

def HeapState.request (s : HeapState) (r : HeapRequest) : u64 × HeapState :=
  let a := s.heap.allocPtr r.size (BitVec.twoPow 64 r.align)
  (a.1,
    { heap := a.2
      mem := if r.zeroed ∧ a.1 ≠ 0 then clearBytes r.size.toNat a.1 s.mem else s.mem
      blocks := if a.1 = 0 then s.blocks else (a.1, r.size) :: s.blocks })

def stepHeap (s : HeapState) (r : HeapRequest) : Option HeapState := some (s.request r).2

/-- `KernelHeap::Init`. -/
def startHeap (base size : u64) (mem : u64 → u8) : HeapState :=
  { heap := ⟨base, size, 0⟩, mem := clearBytes size.toNat base mem, blocks := [] }

/-! ## What is promised -/

/-- A block that is handed out is aligned, inside the heap and apart from all earlier ones,
and cleared if that was asked for; a null result changes nothing. -/
structure Served (s : HeapState) (r : HeapRequest) : Prop where
  null : (s.request r).1 = 0 → (s.request r).2 = s
  aligned : (s.request r).1 ≠ 0 → (s.request r).1.toNat % 2 ^ r.align.val = 0
  inside : (s.request r).1 ≠ 0 → s.heap.base.toNat ≤ (s.request r).1.toNat ∧
    (s.request r).1.toNat + r.size.toNat ≤ s.heap.base.toNat + s.heap.size.toNat
  apart : (s.request r).1 ≠ 0 → ∀ b ∈ s.blocks,
    b.1.toNat + b.2.toNat ≤ (s.request r).1.toNat ∨
      (s.request r).1.toNat + r.size.toNat ≤ b.1.toNat
  cleared : (s.request r).1 ≠ 0 → ∀ x, (s.request r).2.mem x =
    if r.zeroed ∧ (s.request r).1.toNat ≤ x.toNat ∧
      x.toNat < (s.request r).1.toNat + r.size.toNat then 0 else s.mem x

/-- The end of the last block, rounded up without a bound. -/
def HeapState.nextAddr (s : HeapState) (r : HeapRequest) : Nat :=
  (s.heap.base.toNat + s.heap.used.toNat + (2 ^ r.align.val - 1)) / 2 ^ r.align.val *
    2 ^ r.align.val

/-- The new end of the heap's used part, counted without a bound. -/
def HeapState.reach (s : HeapState) (r : HeapRequest) : Nat :=
  s.nextAddr r - s.heap.base.toNat + r.size.toNat

/-- The comparison sees a sum that has not wrapped, at an address that is not null. A sum
that has wrapped is harmless if it is refused all the same, or if the null result comes
with the old end. -/
def SumsExact (s : HeapState) (r : HeapRequest) : Prop :=
  (0 < s.nextAddr r ∧ s.nextAddr r < 2 ^ 64 ∧ s.reach r < 2 ^ 64) ∨
    s.heap.size.toNat < s.reach r % 2 ^ 64 ∨
    (s.nextAddr r % 2 ^ 64 = 0 ∧ s.reach r % 2 ^ 64 = s.heap.used.toNat)

instance (s : HeapState) (r : HeapRequest) : Decidable (SumsExact s r) :=
  inferInstanceAs (Decidable (_ ∨ _))

/-! ## The arithmetic of `Alloc` -/

/-- Clearing the bits below bit `k` rounds down to a multiple of `2 ^ k`. -/
theorem and_not_low (y : u64) {k : Nat} (hk : k < 64) :
    (y &&& ~~~(BitVec.twoPow 64 k - 1#64)).toNat = y.toNat / 2 ^ k * 2 ^ k := by
  have mask : BitVec.twoPow 64 k - 1#64 = BitVec.ofNat 64 (2 ^ k - 1) := by
    apply BitVec.eq_of_toNat_eq
    have small : 2 ^ k < 2 ^ 64 := Nat.pow_lt_pow_right (by decide) hk
    have some : 0 < 2 ^ k := Nat.two_pow_pos k
    rw [BitVec.toNat_sub, BitVec.toNat_twoPow, BitVec.toNat_ofNat, BitVec.toNat_ofNat]
    omega
  have shift : y &&& ~~~(BitVec.twoPow 64 k - 1#64) = (y >>> k) <<< k := by
    rw [mask]
    apply BitVec.eq_of_getLsbD_eq
    intro i hi
    rw [BitVec.getLsbD_and, BitVec.getLsbD_not, BitVec.getLsbD_ofNat, Nat.testBit_two_pow_sub_one,
      BitVec.getLsbD_shiftLeft, BitVec.getLsbD_ushiftRight]
    by_cases low : i < k
    · simp [low]
    · simp [low, hi, Nat.add_sub_cancel' (Nat.not_lt.mp low)]
  have bound := y.isLt
  rw [shift, BitVec.toNat_shiftLeft, BitVec.toNat_ushiftRight, Nat.shiftRight_eq_div_pow,
    Nat.shiftLeft_eq, Nat.mod_eq_of_lt]
  exact lt_of_le_of_lt (Nat.div_mul_le_self _ _) bound

/-- Rounding down commutes with the reduction modulo `2 ^ 64`. -/
theorem round_mod (y : Nat) {k : Nat} (hk : k ≤ 64) :
    y % 2 ^ 64 / 2 ^ k * 2 ^ k = y / 2 ^ k * 2 ^ k % 2 ^ 64 := by
  have split : 2 ^ 64 = 2 ^ k * 2 ^ (64 - k) := by rw [← Nat.pow_add, Nat.add_sub_cancel' hk]
  have some : 0 < 2 ^ k := Nat.two_pow_pos k
  rw [split, Nat.mod_mul, Nat.add_mul_div_left _ _ some, Nat.div_eq_of_lt (Nat.mod_lt _ some),
    Nat.zero_add, Nat.mul_comm (y / 2 ^ k), Nat.mul_mod_mul_left, Nat.mul_comm]

theorem alignUp_twoPow (x : u64) {k : Nat} (hk : k < 64) :
    (alignUp x (BitVec.twoPow 64 k)).toNat = (x.toNat + (2 ^ k - 1)) / 2 ^ k * 2 ^ k % 2 ^ 64 := by
  have small : 2 ^ k < 2 ^ 64 := Nat.pow_lt_pow_right (by decide) hk
  have some : 0 < 2 ^ k := Nat.two_pow_pos k
  have sum : (x + BitVec.twoPow 64 k - 1#64).toNat = (x.toNat + (2 ^ k - 1)) % 2 ^ 64 := by
    rw [BitVec.toNat_sub, BitVec.toNat_add, BitVec.toNat_twoPow, BitVec.toNat_ofNat]
    omega
  rw [alignUp, and_not_low _ hk, sum, round_mod _ hk.le]

section

variable {s : HeapState} {r : HeapRequest}

theorem nextAddr_ge (s : HeapState) (r : HeapRequest) :
    s.heap.base.toNat + s.heap.used.toNat ≤ s.nextAddr r := by
  have some : 0 < 2 ^ r.align.val := Nat.two_pow_pos _
  have rounded := Nat.lt_div_mul_add (a := s.heap.base.toNat + s.heap.used.toNat +
    (2 ^ r.align.val - 1)) some
  unfold HeapState.nextAddr
  omega

theorem nextAddr_toNat (s : HeapState) (r : HeapRequest) :
    (alignUp (s.heap.base + s.heap.used) (BitVec.twoPow 64 r.align)).toNat =
      s.nextAddr r % 2 ^ 64 := by
  have sum : ((s.heap.base.toNat + s.heap.used.toNat) % 2 ^ 64 + (2 ^ r.align.val - 1)) % 2 ^ 64 =
      (s.heap.base.toNat + s.heap.used.toNat + (2 ^ r.align.val - 1)) % 2 ^ 64 :=
    Nat.mod_add_mod _ _ _
  rw [alignUp_twoPow _ r.align.isLt, BitVec.toNat_add, ← round_mod _ r.align.isLt.le, sum,
    round_mod _ r.align.isLt.le]
  rfl

theorem reach_toNat (s : HeapState) (r : HeapRequest) :
    (alignUp (s.heap.base + s.heap.used) (BitVec.twoPow 64 r.align) - s.heap.base + r.size).toNat =
      s.reach r % 2 ^ 64 := by
  have ge := nextAddr_ge s r
  have base := s.heap.base.isLt
  rw [BitVec.toNat_add, BitVec.toNat_sub, nextAddr_toNat, HeapState.reach]
  omega

theorem request_refused (refused : s.heap.size.toNat < s.reach r % 2 ^ 64) :
    s.request r = (0, s) := by
  have large : alignUp (s.heap.base + s.heap.used) (BitVec.twoPow 64 r.align) - s.heap.base + r.size >
      s.heap.size := by
    show s.heap.size.toNat < _
    rw [reach_toNat]
    exact refused
  have failed : s.heap.allocPtr r.size (BitVec.twoPow 64 r.align) = (0, s.heap) := if_pos large
  rw [HeapState.request, failed]
  simp

/-- **A request that passes the comparison.** -/
theorem request_passed (passed : s.reach r % 2 ^ 64 ≤ s.heap.size.toNat) :
    (s.request r).1.toNat = s.nextAddr r % 2 ^ 64 ∧
      (s.request r).2.heap.base = s.heap.base ∧ (s.request r).2.heap.size = s.heap.size ∧
      (s.request r).2.heap.used.toNat = s.reach r % 2 ^ 64 := by
  have small : ¬ alignUp (s.heap.base + s.heap.used) (BitVec.twoPow 64 r.align) - s.heap.base +
      r.size > s.heap.size := by
    intro large
    have large : s.heap.size.toNat < _ := large
    rw [reach_toNat] at large
    omega
  have granted : s.heap.allocPtr r.size (BitVec.twoPow 64 r.align) = (_, _) := if_neg small
  rw [HeapState.request, granted]
  refine ⟨?_, rfl, rfl, reach_toNat s r⟩
  rw [← nextAddr_toNat]
  dsimp only
  rw [BitVec.add_comm, BitVec.sub_add_cancel]

/-- The loop clears `n` bytes and no more. -/
theorem clearBytes_apply (n : Nat) (p : u64) (m : u64 → u8) (x : u64) :
    clearBytes n p m x = if (x - p).toNat < n then 0 else m x := by
  induction n generalizing p m with
  | zero => rfl
  | succ n ih =>
    rw [clearBytes, ih, Function.update_apply]
    by_cases e : x = p
    · subst e
      simp
    · have some : x - p ≠ 0 := fun h => e (by bv_omega)
      have step : (x - (p + 1)).toNat + 1 = (x - p).toNat := by bv_omega
      rw [if_neg e]
      simp only [show (x - (p + 1)).toNat < n ↔ (x - p).toNat < n + 1 by omega]

/-! ## One request -/

/-- What every request keeps: the blocks lie below the end of the used part. -/
structure Packed (base size : u64) (s : HeapState) : Prop where
  sameBase : s.heap.base = base
  sameSize : s.heap.size = size
  used : s.heap.used.toNat ≤ size.toNat
  blocks : ∀ b ∈ s.blocks, base.toNat ≤ b.1.toNat ∧
    b.1.toNat + b.2.toNat ≤ base.toNat + s.heap.used.toNat

variable {base size : u64}

theorem nextAddr_le (inv : Packed base size s) (fits : base.toNat + size.toNat ≤ 2 ^ 64) :
    s.nextAddr r ≤ 2 ^ 64 := by
  have split : 2 ^ 64 = 2 ^ (64 - r.align.val) * 2 ^ r.align.val := by
    rw [← Nat.pow_add, Nat.sub_add_cancel r.align.isLt.le]
  have some : 0 < 2 ^ r.align.val := Nat.two_pow_pos _
  have used := inv.used
  unfold HeapState.nextAddr
  rw [inv.sameBase]
  conv_rhs => rw [split]
  refine Nat.mul_le_mul_right _ (Nat.le_of_lt_succ (Nat.div_lt_of_lt_mul ?_))
  rw [Nat.mul_succ, Nat.mul_comm, ← split]
  omega

/-- A null result that changes nothing. -/
theorem Served.of_eq (same : s.request r = (0, s)) : Served s r := by
  constructor
  · exact fun _ => by rw [same]
  all_goals exact fun some => absurd (by rw [same]) some

/-- What a sum that does not wrap leads to. -/
theorem request_cases (inv : Packed base size s) (exact_ : SumsExact s r) :
    s.request r = (0, s) ∨
      (0 < s.nextAddr r ∧ s.reach r ≤ size.toNat ∧ (s.request r).1.toNat = s.nextAddr r ∧
        (s.request r).2.heap.base = base ∧ (s.request r).2.heap.size = size ∧
        (s.request r).2.heap.used.toNat = s.reach r) := by
  by_cases refused : s.heap.size.toNat < s.reach r % 2 ^ 64
  · exact .inl (request_refused refused)
  · obtain ⟨ptr, sameBase, sameSize, used⟩ := request_passed (Nat.not_lt.mp refused)
    rcases exact_ with ⟨some, below, small⟩ | refused' | ⟨zero, same⟩
    · rw [inv.sameSize, Nat.mod_eq_of_lt small] at refused
      rw [Nat.mod_eq_of_lt below] at ptr
      rw [Nat.mod_eq_of_lt small] at used
      exact .inr ⟨some, Nat.not_lt.mp refused, ptr, sameBase.trans inv.sameBase,
        sameSize.trans inv.sameSize, used⟩
    · exact absurd refused' refused
    · left
      have null : (s.request r).1 = 0 := BitVec.eq_of_toNat_eq (by rw [ptr, zero]; rfl)
      have sameUsed : (s.request r).2.heap.used = s.heap.used :=
        BitVec.eq_of_toNat_eq (used.trans same)
      have heap : (s.request r).2.heap = s.heap := by
        cases h : (s.request r).2.heap
        rw [h] at sameBase sameSize sameUsed
        dsimp only at sameBase sameSize sameUsed
        rw [sameBase, sameSize, sameUsed]
      unfold HeapState.request at null heap ⊢
      dsimp only at null heap ⊢
      rw [heap, if_neg fun h => h.2 null, if_pos null, null]

/-- **A sum that does not wrap** gives a block behind the used part, or null. -/
theorem Packed.served (inv : Packed base size s) (fits : base.toNat + size.toNat ≤ 2 ^ 64)
    (exact_ : SumsExact s r) : Served s r := by
  rcases request_cases inv exact_ with same | ⟨some, room, ptr, -, -, -⟩
  · exact .of_eq same
  · have ge := nextAddr_ge s r
    rw [inv.sameBase] at ge
    have room : s.nextAddr r + r.size.toNat ≤ base.toNat + size.toNat := by
      unfold HeapState.reach at room
      rw [inv.sameBase] at room
      omega
    refine ⟨fun null => ?_, fun _ => ?_, fun _ => ?_, fun _ b hb => ?_, fun given x => ?_⟩
    · rw [null] at ptr
      exact absurd ptr.symm (Nat.ne_of_gt some)
    · rw [ptr]
      exact Nat.mul_mod_left _ _
    · rw [ptr, inv.sameBase, inv.sameSize]
      exact ⟨by omega, room⟩
    · have last := (inv.blocks b hb).2
      rw [ptr]
      exact .inl (by omega)
    · have memory : (s.request r).2.mem = if r.zeroed ∧ (s.request r).1 ≠ 0 then
          clearBytes r.size.toNat (s.request r).1 s.mem else s.mem := rfl
      have range : (x - (s.request r).1).toNat < r.size.toNat ↔
          (s.request r).1.toNat ≤ x.toNat ∧
            x.toNat < (s.request r).1.toNat + r.size.toNat := by
        rw [BitVec.toNat_sub, ptr]
        have := x.isLt
        omega
      rw [memory]
      simp only [given, ne_eq, not_false_eq_true, and_true, ← range]
      by_cases asked : r.zeroed = true
      · rw [if_pos asked, clearBytes_apply]
        simp [asked]
      · rw [if_neg asked, if_neg fun h => asked h.1]

/-- **Exactly these requests** are served as promised. -/
theorem served_iff (inv : Packed base size s) (fits : base.toNat + size.toNat ≤ 2 ^ 64) :
    Served s r ↔ SumsExact s r := by
  refine ⟨fun served => ?_, inv.served fits⟩
  by_cases refused : s.heap.size.toNat < s.reach r % 2 ^ 64
  · exact .inr (.inl refused)
  · obtain ⟨ptr, -, -, used⟩ := request_passed (Nat.not_lt.mp refused)
    by_cases null : (s.request r).1 = 0
    · rw [served.null null] at used
      rw [null] at ptr
      exact .inr (.inr ⟨ptr.symm, used.symm⟩)
    · have inside := (served.inside null).2
      have le := nextAddr_le (r := r) inv fits
      have ge := nextAddr_ge s r
      have below : s.nextAddr r < 2 ^ 64 := by
        refine lt_of_le_of_ne le fun top => null (BitVec.eq_of_toNat_eq ?_)
        rw [ptr, top]
        rfl
      rw [Nat.mod_eq_of_lt below] at ptr
      have some : 0 < s.nextAddr r := by
        refine Nat.pos_of_ne_zero fun zero => null (BitVec.eq_of_toNat_eq ?_)
        rw [ptr, zero]
        rfl
      have bound := s.heap.size.isLt
      refine .inl ⟨some, below, ?_⟩
      unfold HeapState.reach
      omega

theorem Packed.step (inv : Packed base size s) {t : HeapState} (exact_ : SumsExact s r)
    (h : stepHeap s r = some t) : Packed base size t := by
  obtain rfl := Option.some.inj h
  rcases request_cases inv exact_ with same | ⟨some, room, ptr, sameBase, sameSize, used⟩
  · rw [same]
    exact inv
  · have ge := nextAddr_ge s r
    rw [inv.sameBase] at ge
    have reach : base.toNat + s.reach r = s.nextAddr r + r.size.toNat := by
      unfold HeapState.reach
      rw [inv.sameBase]
      omega
    refine ⟨sameBase, sameSize, used.trans_le room, fun b hb => ?_⟩
    have blocks : (s.request r).2.blocks =
        if (s.request r).1 = 0 then s.blocks else ((s.request r).1, r.size) :: s.blocks := rfl
    have given : (s.request r).1 ≠ 0 := fun null => by
      rw [null] at ptr
      exact absurd ptr.symm (Nat.ne_of_gt some)
    rw [blocks, if_neg given] at hb
    rw [used, reach]
    rcases List.mem_cons.mp hb with rfl | old
    · rw [ptr]
      exact ⟨by omega, le_rfl⟩
    · have before := inv.blocks b old
      exact ⟨before.1, by omega⟩

end

/-! ## Every run -/

theorem packed_start (base size : u64) (mem : u64 → u8) :
    Packed base size (startHeap base size mem) :=
  ⟨rfl, rfl, Nat.zero_le _, fun _ h => nomatch h⟩

/-- **Kernel heap blocks are disjoint.** On a heap that does not wrap around the address
space, every request of a run gets what it is promised exactly if none of them wraps past
the comparison. -/
theorem heap_served_iff (base size : u64) (mem : u64 → u8)
    (fits : base.toNat + size.toNat ≤ 2 ^ 64) (rs : List HeapRequest) :
    Along stepHeap Served (startHeap base size mem) rs ↔
      Along stepHeap SumsExact (startHeap base size mem) rs :=
  along_iff (I := Packed base size) (fun _ _ _ inv exact_ h => inv.step exact_ h)
    (fun _ _ inv => served_iff inv fits) (packed_start base size mem)

/-- Two blocks in a heap of 4 MB. -/
theorem heap_served_iff_small :
    Along stepHeap Served (startHeap 0x200000#64 0x400000#64 fun _ => 0)
      [⟨false, 0x100#64, 3⟩, ⟨true, 0x28#64, 4⟩] :=
  (heap_served_iff 0x200000#64 0x400000#64 (fun _ => 0) (by decide) _).mpr (by decide)

/-- After a block of 256 bytes, a request for all but 128 bytes of the address space gets
the bytes behind it, and takes the end of the used part back into the first block. -/
theorem huge_request_not_served :
    ¬ Along stepHeap Served (startHeap 0x200000#64 0x400000#64 fun _ => 0)
      [⟨false, 0x100#64, 3⟩, ⟨false, 0xFFFFFFFFFFFFFF80#64, 3⟩] := by
  intro served
  have second := served.2 _ rfl
  have inside := (second.1.inside (by decide)).2
  exact absurd inside (by decide)

end MicroNT.Kernel
