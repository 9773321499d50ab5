import MicroNT.HardwareWalk
import MicroNT.UserAccess

/-! # Reads of many bytes (`ReadUserBytes`)

`ReadUserBytes` translates an address once for each page of 4 KB, and copies from there to the
end of the page. Byte for byte this is what `ReadUserByte` reads: the walk takes the offset in
a page over as it is, also where the page is part of a larger one. -/

namespace MicroNT.Kernel

open MicroNT.VMM MicroNT.Boot MicroNT.Base.Radix

/-! ## One page -/

section

variable {m : Mem} {pml4 v e : u64} {l : List u64} {i : Nat}

theorem toNat_add_inPage (h : v.toNat % PAGE_SIZE + i < PAGE_SIZE) :
    (v + BitVec.ofNat 64 i).toNat = v.toNat + i := by
  have small := v.isLt
  simp only [PAGE_SIZE] at h
  rw [BitVec.toNat_add, BitVec.toNat_ofNat]
  omega

/-- A larger page's address goes on as the address does. -/
theorem leafAddr_add {k : Nat} (larger : k = 12 ∨ k = 21 ∨ k = 30)
    (h : v.toNat % PAGE_SIZE + i < PAGE_SIZE) :
    leafAddr k e (v + BitVec.ofNat 64 i) = leafAddr k e v + i := by
  rw [leafAddr, leafAddr, toNat_add_inPage h, Nat.add_assoc]
  simp only [PAGE_SIZE] at h
  obtain rfl | rfl | rfl := larger <;> omega

/-- **The offset is taken over**: further on in the page the walk leads as much further. -/
theorem resolve_add (h : v.toNat % PAGE_SIZE + i < PAGE_SIZE) (mapped : resolve v l ≠ 0) :
    (resolve (v + BitVec.ofNat 64 i) l).toNat = (resolve v l).toNat + i := by
  obtain _ | ⟨e1, _ | ⟨e2, _ | ⟨e3, _ | ⟨e4, _ | ⟨e5, l⟩⟩⟩⟩⟩ := l
  · exact absurd rfl mapped
  · exact absurd rfl mapped
  · simp only [resolve] at mapped ⊢
    split at mapped
    case isFalse => exact absurd rfl mapped
    case isTrue present =>
      rw [if_pos present, if_pos present, hugePage_toNat, hugePage_toNat,
        leafAddr_add (by decide) h]
      omega
  · simp only [resolve] at mapped ⊢
    split at mapped
    case isFalse => exact absurd rfl mapped
    case isTrue present =>
      rw [if_pos present, if_pos present, largePage_toNat, largePage_toNat,
        leafAddr_add (by decide) h]
  · simp only [resolve] at mapped ⊢
    split at mapped
    case isFalse => exact absurd rfl mapped
    case isTrue present =>
      rw [if_pos present, if_pos present, smallPage_toNat, smallPage_toNat,
        leafAddr_add (by decide) h]
  · exact absurd rfl mapped

/-- The bytes of a page are mapped one behind the other, if the byte that was translated is
mapped. -/
theorem toNat_translateInPml4_add (h : v.toNat % PAGE_SIZE + i < PAGE_SIZE)
    (mapped : translateInPml4 m pml4 v ≠ 0) :
    (translateInPml4 m pml4 (v + BitVec.ofNat 64 i)).toNat =
      (translateInPml4 m pml4 v).toNat + i := by
  have page : path (v + BitVec.ofNat 64 i) = path v := by
    have same := chunk_vpn v 0 (i := i) h
    rw [Nat.zero_add, BitVec.add_zero] at same
    exact (path_eq_iff _ _).mpr same
  rw [translateInPml4_eq] at mapped
  rw [translateInPml4_eq, translateInPml4_eq, entries, page, ← entries]
  exact resolve_add h mapped

theorem translateInPml4_add (h : v.toNat % PAGE_SIZE + i < PAGE_SIZE)
    (mapped : translateInPml4 m pml4 v ≠ 0) :
    translateInPml4 m pml4 (v + BitVec.ofNat 64 i) =
      translateInPml4 m pml4 v + BitVec.ofNat 64 i := by
  have further := toNat_translateInPml4_add h mapped
  have fits := (translateInPml4 m pml4 (v + BitVec.ofNat 64 i)).isLt
  apply BitVec.eq_of_toNat_eq
  rw [further] at fits ⊢
  rw [BitVec.toNat_add, BitVec.toNat_ofNat, Nat.add_mod_mod, Nat.mod_eq_of_lt fits]

/-! ## The prefix that is mapped -/

/-- Byte `i` from `va` on has a physical address that is not 0. -/
def mappedAt (m : Mem) (pml4 va : u64) (i : Nat) : Bool :=
  translateInPml4 m pml4 (va + BitVec.ofNat 64 i) != 0#64

/-- `ReadUserByte` of byte `i` from `va` on. -/
def userByte (m : Mem) (pml4 va : u64) (i : Nat) : u8 :=
  (readUserByte m pml4 (va + BitVec.ofNat 64 i)).1

/-- A chunk is the bytes that `ReadUserByte` reads there, all of them mapped. -/
theorem chunk_bytes {va : u64} {copied : Nat} (first : mappedAt m pml4 va copied = true)
    (h : (va.toNat + copied) % PAGE_SIZE + i < PAGE_SIZE) :
    mappedAt m pml4 va (copied + i) = true ∧
      readByte m (translateInPml4 m pml4 (va + BitVec.ofNat 64 copied) + BitVec.ofNat 64 i) =
        userByte m pml4 va (copied + i) := by
  have sum : va + BitVec.ofNat 64 (copied + i) =
      va + BitVec.ofNat 64 copied + BitVec.ofNat 64 i := by
    rw [BitVec.ofNat_add, BitVec.add_assoc]
  have start : (va + BitVec.ofNat 64 copied).toNat % PAGE_SIZE =
      (va.toNat + copied) % PAGE_SIZE := by
    rw [← offset_toNat, chunk_offset]
  rw [← start] at h
  have mapped := bne_iff_ne.mp first
  have positive : translateInPml4 m pml4 (va + BitVec.ofNat 64 (copied + i)) ≠ 0 := by
    have further := toNat_translateInPml4_add h mapped
    intro zero
    rw [sum] at zero
    rw [zero] at further
    refine mapped (BitVec.eq_of_toNat_eq ?_)
    change 0 = _ at further
    change _ = 0
    omega
  refine ⟨bne_iff_ne.mpr positive, ?_⟩
  rw [userByte, readUserByte]
  simp only [if_neg positive]
  rw [sum, translateInPml4_add h mapped]

/-- The loop from byte `copied` on. -/
theorem readChunks_eq (m : Mem) (pml4 va : u64) (len : Nat) {fuel : Nat} (copied : Nat)
    (enough : len ≤ copied + fuel) :
    (readChunks m pml4 va len fuel copied).1 =
      ((List.range' copied (len - copied)).takeWhile (mappedAt m pml4 va)).map
        (userByte m pml4 va) := by
  induction fuel generalizing copied with
  | zero =>
    rw [show len - copied = 0 by omega]
    rfl
  | succ fuel ih =>
    rw [readChunks]
    split
    case isTrue done =>
      rw [show len - copied = 0 by omega]
      rfl
    case isFalse more =>
      simp only
      split
      case isTrue unmapped =>
        have stop : mappedAt m pml4 va copied ≠ true := by
          rw [mappedAt, unmapped]
          decide
        rw [show len - copied = (len - copied - 1) + 1 by omega, List.range'_succ,
          List.takeWhile_cons_of_neg stop]
        rfl
      case isFalse mapped =>
        have first : mappedAt m pml4 va copied = true := bne_iff_ne.mpr mapped
        generalize hn : min (len - copied)
          (PAGE_SIZE - ((va + BitVec.ofNat 64 copied) &&& 0xFFF#64).toNat) = n
        rw [chunk_offset] at hn
        have below : (va.toNat + copied) % PAGE_SIZE < PAGE_SIZE := Nat.mod_lt _ (by decide)
        have inPage : ∀ i, i < n → (va.toNat + copied) % PAGE_SIZE + i < PAGE_SIZE := by
          intro i hi
          omega
        have parts : List.range' copied (len - copied) =
            List.range' copied n ++ List.range' (copied + n) (len - (copied + n)) := by
          rw [List.range'_append_1, show n + (len - (copied + n)) = len - copied by omega]
        have all : ∀ j ∈ List.range' copied n, mappedAt m pml4 va j = true := by
          intro j hj
          obtain ⟨i, hi, rfl⟩ := List.mem_range'.mp hj
          rw [Nat.one_mul]
          exact (chunk_bytes first (inPage i hi)).1
        have bytes : (List.range n).map (fun i => readByte m
            (translateInPml4 m pml4 (va + BitVec.ofNat 64 copied) + BitVec.ofNat 64 i)) =
            (List.range' copied n).map (userByte m pml4 va) := by
          rw [List.range'_eq_map_range, List.map_map]
          exact List.map_congr_left fun i hi =>
            (chunk_bytes first (inPage i (List.mem_range.mp hi))).2
        rw [parts, List.takeWhile_append_of_pos all, List.map_append, bytes,
          ih (copied + n) (by omega)]

/-- How many bytes from `va` on are mapped, of `len`. -/
def mappedPrefix (m : Mem) (pml4 va : u64) (len : Nat) : Nat :=
  (List.range len).findIdx fun i => !mappedAt m pml4 va i

theorem mappedPrefix_le (m : Mem) (pml4 va : u64) (len : Nat) :
    mappedPrefix m pml4 va len ≤ len := by
  have le : mappedPrefix m pml4 va len ≤ (List.range len).length := List.findIdx_le_length
  rwa [List.length_range] at le

theorem mappedAt_of_lt {va : u64} {len : Nat} (h : i < mappedPrefix m pml4 va len) :
    mappedAt m pml4 va i = true := by
  have mapped := List.not_of_lt_findIdx h
  rwa [List.getElem_range, Bool.not_eq_false'] at mapped

/-- The prefix ends at a byte that is not mapped. -/
theorem mappedAt_mappedPrefix {va : u64} {len : Nat} (h : mappedPrefix m pml4 va len < len) :
    mappedAt m pml4 va (mappedPrefix m pml4 va len) = false := by
  have inside : (List.range len).findIdx (fun i => !mappedAt m pml4 va i) <
      (List.range len).length := by
    rw [List.length_range]
    exact h
  have stop := List.findIdx_getElem (w := inside)
  rwa [List.getElem_range, Bool.not_eq_true'] at stop

/-- `ReadUserBytes` is `ReadUserByte`, for all bytes up to the first that is not mapped. -/
theorem readUserBytes_eq (m : Mem) (pml4 va : u64) (len : Nat) :
    (readUserBytes m pml4 va len).1 =
      (List.range (mappedPrefix m pml4 va len)).map (userByte m pml4 va) := by
  rw [readUserBytes, readChunks_eq m pml4 va len 0 (by omega), Nat.sub_zero,
    ← List.range_eq_range', List.takeWhile_eq_take_findIdx_not, List.take_range,
    ← mappedPrefix, Nat.min_eq_left (mappedPrefix_le m pml4 va len)]

/-- **`ReadUserBytes` copies the longest prefix that is mapped**, and each byte of it is the one
that `ReadUserByte` reads at its address. -/
theorem readUserBytes_longest (m : Mem) (pml4 va : u64) (len : Nat) :
    ∃ copied ≤ len, (readUserBytes m pml4 va len).1.length = copied ∧
      (∀ i < copied, translateInPml4 m pml4 (va + BitVec.ofNat 64 i) ≠ 0) ∧
      (copied < len → translateInPml4 m pml4 (va + BitVec.ofNat 64 copied) = 0) ∧
      ∀ i < copied, (readUserBytes m pml4 va len).1[i]? =
        some (readUserByte m pml4 (va + BitVec.ofNat 64 i)).1 := by
  have bytes := readUserBytes_eq m pml4 va len
  refine ⟨mappedPrefix m pml4 va len, mappedPrefix_le m pml4 va len, ?_, fun i hi => ?_,
    fun more => ?_, fun i hi => ?_⟩
  · rw [bytes, List.length_map, List.length_range]
  · exact bne_iff_ne.mp (mappedAt_of_lt hi)
  · have stop := mappedAt_mappedPrefix more
    rwa [mappedAt, bne_eq_false_iff_eq] at stop
  · rw [bytes, List.getElem?_map, List.getElem?_range hi, Option.map_some, userByte]

end

end MicroNT.Kernel
