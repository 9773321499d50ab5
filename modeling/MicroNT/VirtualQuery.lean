import MicroNT.PageStores
import MicroNT.UserAccess

/-! # NtQueryVirtualMemory

The call looks at the page table entry of one page and writes a record of 48
bytes to the caller's memory, byte by byte. The caller reads back what the entry
says, whatever the two pages are that the record may lie on. -/

namespace MicroNT.Kernel

open MicroNT.PMM hiding step Op System
open MicroNT.VMM MicroNT.Boot MicroNT.Base.Radix

/-! ## The record -/

abbrev MEM_COMMIT : u32 := 0x1000#32
abbrev MEM_FREE : u32 := 0x10000#32
abbrev MEM_PRIVATE : u32 := 0x20000#32
abbrev PAGE_READONLY : u32 := 0x02#32
abbrev PAGE_READWRITE : u32 := 0x04#32

/-- `MEMORY_BASIC_INFORMATION` without the padding and `AllocationProtect`, which
stay zero. -/
@[ext] structure MemoryBasicInformation where
  baseAddress : u64
  allocationBase : u64
  regionSize : u64
  state : u32
  protect : u32
  type : u32

/-- The loop that clears the record, from byte `i` on. -/
def clearUser (pml4 va : u64) : Nat → Nat → Mem → Mem
  | 0, _, m => m
  | n + 1, i, m =>
    clearUser pml4 va n (i + 1) (writeUserByte m pml4 (va + BitVec.ofNat 64 i) 0).2.1

/-- `NtQueryVirtualMemory` of address `a1` with the record at `a2`. -/
def ntQueryVm (m : Mem) (pml4 a1 a2 : u64) : Mem :=
  let va := a1 &&& ~~~0xFFF#64
  let pte := getPteInto m pml4 va
  let m := clearUser pml4 a2 48 0 m
  let m := (writeUserU64 m pml4 (a2 + BitVec.ofNat 64 0x00) va).1
  let m := (writeUserU64 m pml4 (a2 + BitVec.ofNat 64 0x18) pageSize64).1
  if has pte PTE_PRESENT then
    let m := (writeUserU64 m pml4 (a2 + BitVec.ofNat 64 0x08) va).1
    let m := (writeUserU32 m pml4 (a2 + BitVec.ofNat 64 0x20) MEM_COMMIT).1
    let m := (writeUserU32 m pml4 (a2 + BitVec.ofNat 64 0x24)
      (if has pte PTE_WRITABLE then PAGE_READWRITE else PAGE_READONLY)).1
    (writeUserU32 m pml4 (a2 + BitVec.ofNat 64 0x28) MEM_PRIVATE).1
  else (writeUserU32 m pml4 (a2 + BitVec.ofNat 64 0x20) MEM_FREE).1

/-- What an entry of a page says about it. -/
def basicInformation (va pte : u64) : MemoryBasicInformation :=
  if has pte PTE_PRESENT then
    { baseAddress := va, allocationBase := va, regionSize := pageSize64, state := MEM_COMMIT
      protect := if has pte PTE_WRITABLE then PAGE_READWRITE else PAGE_READONLY
      type := MEM_PRIVATE }
  else
    { baseAddress := va, allocationBase := 0, regionSize := pageSize64, state := MEM_FREE
      protect := 0, type := 0 }

theorem basicInformation_committed (va pte : u64) :
    (basicInformation va pte).state = MEM_COMMIT ↔ has pte PTE_PRESENT = true := by
  have other : ¬ MEM_FREE = MEM_COMMIT := by decide
  rw [basicInformation]
  split
  case isTrue present => simp [present]
  case isFalse absent => simp [absent, other]

theorem basicInformation_readwrite (va pte : u64) :
    (basicInformation va pte).protect = PAGE_READWRITE ↔
      has pte PTE_PRESENT = true ∧ has pte PTE_WRITABLE = true := by
  have readonly : ¬ PAGE_READONLY = PAGE_READWRITE := by decide
  have none : ¬ 0#32 = PAGE_READWRITE := by decide
  rw [basicInformation]
  split
  case isTrue present =>
    cases has pte PTE_WRITABLE with
    | true => simp [present]
    | false => simp [readonly]
  case isFalse absent => simp [absent, none]

/-- The bytes from `a2` on, as the process sees them. -/
def seen (m : Mem) (pml4 a2 : u64) : Nat → u8 := fun k => byteAt m pml4 (a2 + BitVec.ofNat 64 k)

/-- A record in memory. -/
def informationAt (f : Nat → u8) : MemoryBasicInformation where
  baseAddress := u64At f 0x00
  allocationBase := u64At f 0x08
  regionSize := u64At f 0x18
  state := u32At f 0x20
  protect := u32At f 0x24
  type := u32At f 0x28

/-- The record that the process reads. -/
def readInformation (m : Mem) (pml4 a2 : u64) : MemoryBasicInformation :=
  informationAt (seen m pml4 a2)

/-! ## Fields of a record -/

/-- `n` bytes of `v` at offset `off`. -/
def putField (off n : Nat) (v : u64) (f : Nat → u8) : Nat → u8 := fun k =>
  if off ≤ k ∧ k < off + n then (v >>> (8 * (k - off))).setWidth 8 else f k

section

variable {f : Nat → u8} {off off' n : Nat}

/-- A field is written byte by byte. -/
theorem putField_succ (i n : Nat) (v : u64) (k : Nat) :
    (if off + i + 1 ≤ k ∧ k < off + i + 1 + n then (v >>> (8 * (k - off))).setWidth 8
      else if k = off + i then (v >>> (8 * i)).setWidth 8 else f k) =
    if off + i ≤ k ∧ k < off + i + (n + 1) then (v >>> (8 * (k - off))).setWidth 8 else f k := by
  by_cases here : k = off + i
  · subst here
    rw [if_neg (by omega), if_pos rfl, if_pos (by omega), Nat.add_sub_cancel_left]
  · rw [if_neg here]
    exact if_congr (by omega) rfl rfl

theorem u64At_putField (v : u64) : u64At (putField off 8 v f) off = v := by
  refine BitVec.eq_of_getLsbD_eq fun i hi => ?_
  rw [u64At_getLsbD _ _ hi, putField, if_pos (by omega), Nat.add_sub_cancel_left,
    BitVec.getLsbD_setWidth, BitVec.getLsbD_ushiftRight, decide_eq_true (by omega), Bool.true_and,
    Nat.div_add_mod]

theorem u32At_putField (v : u32) : u32At (putField off 4 (v.setWidth 64) f) off = v := by
  refine BitVec.eq_of_getLsbD_eq fun i hi => ?_
  rw [u32At_getLsbD _ _ hi, putField, if_pos (by omega), Nat.add_sub_cancel_left,
    BitVec.getLsbD_setWidth, BitVec.getLsbD_ushiftRight, decide_eq_true (by omega), Bool.true_and,
    Nat.div_add_mod, BitVec.getLsbD_setWidth, decide_eq_true (by omega), Bool.true_and]

theorem u64At_putField_ne {v : u64} (apart : off' + 8 ≤ off ∨ off + n ≤ off') :
    u64At (putField off n v f) off' = u64At f off' := by
  refine BitVec.eq_of_getLsbD_eq fun i hi => ?_
  rw [u64At_getLsbD _ _ hi, u64At_getLsbD _ _ hi, putField, if_neg (by omega)]

theorem u32At_putField_ne {v : u64} (apart : off' + 4 ≤ off ∨ off + n ≤ off') :
    u32At (putField off n v f) off' = u32At f off' := by
  refine BitVec.eq_of_getLsbD_eq fun i hi => ?_
  rw [u32At_getLsbD _ _ hi, u32At_getLsbD _ _ hi, putField, if_neg (by omega)]

theorem u64At_congr {g : Nat → u8} (same : ∀ k, off ≤ k → k < off + 8 → f k = g k) :
    u64At f off = u64At g off := by
  refine BitVec.eq_of_getLsbD_eq fun i hi => ?_
  rw [u64At_getLsbD _ _ hi, u64At_getLsbD _ _ hi, same _ (by omega) (by omega)]

theorem u32At_congr {g : Nat → u8} (same : ∀ k, off ≤ k → k < off + 4 → f k = g k) :
    u32At f off = u32At g off := by
  refine BitVec.eq_of_getLsbD_eq fun i hi => ?_
  rw [u32At_getLsbD _ _ hi, u32At_getLsbD _ _ hi, same _ (by omega) (by omega)]

theorem informationAt_congr {g : Nat → u8} (same : ∀ k, k < 48 → f k = g k) :
    informationAt f = informationAt g := by
  simp only [informationAt, MemoryBasicInformation.mk.injEq]
  refine ⟨u64At_congr fun k _ _ => same k (by omega), u64At_congr fun k _ _ => same k (by omega),
    u64At_congr fun k _ _ => same k (by omega), u32At_congr fun k _ _ => same k (by omega),
    u32At_congr fun k _ _ => same k (by omega), u32At_congr fun k _ _ => same k (by omega)⟩

/-- A cleared record. -/
theorem u64At_cleared (h : off + 8 ≤ n) : u64At (putField 0 n 0#64 f) off = 0 := by
  refine BitVec.eq_of_getLsbD_eq fun i hi => ?_
  rw [u64At_getLsbD _ _ hi, putField, if_pos (by omega), BitVec.zero_ushiftRight]
  simp

theorem u32At_cleared (h : off + 4 ≤ n) : u32At (putField 0 n 0#64 f) off = 0 := by
  refine BitVec.eq_of_getLsbD_eq fun i hi => ?_
  rw [u32At_getLsbD _ _ hi, putField, if_pos (by omega), BitVec.zero_ushiftRight]
  simp

end

/-! ## Writing the record -/

/-- The caller's record: mapped bytes, in frames that are no page tables. -/
def Buffer (s : System) (p a2 : u64) (size : Nat) : Prop := ∀ k, k < size →
  translateInPml4 s.vmm.mem p (a2 + BitVec.ofNat 64 k) ≠ 0 ∧
    ¬ TableFrame s (pageOf (translateInPml4 s.vmm.mem p (a2 + BitVec.ofNat 64 k)))

section

variable {s : System} {p a2 : u64} {size : Nat} {m : Mem}

/-- Two bytes of the record are two bytes of memory, on whatever frames. -/
theorem Buffer.apart (h : Buffer s p a2 size) (small : size ≤ PAGE_SIZE) {j k : Nat}
    (hj : j < size) (hk : k < size)
    (same : translateInPml4 s.vmm.mem p (a2 + BitVec.ofNat 64 j) =
      translateInPml4 s.vmm.mem p (a2 + BitVec.ofNat 64 k)) : j = k := by
  have oj := translate_offset (h j hj).1
  rw [same, translate_offset (h k hk).1, ← offset_toNat, ← offset_toNat, chunk_offset,
    chunk_offset] at oj
  simp only [PAGE_SIZE] at *
  omega

/-- **One byte of the record** changes in the view of the process. -/
theorem Buffer.writeByte (h : Buffer s p a2 size) (small : size ≤ PAGE_SIZE) (hp : s.IsSpace p)
    (hm : SameTables s m) {i : Nat} (hi : i < size) (val : u8) :
    SameTables s (writeUserByte m p (a2 + BitVec.ofNat 64 i) val).2.1 ∧
      ∀ k, k < size → seen (writeUserByte m p (a2 + BitVec.ofNat 64 i) val).2.1 p a2 k =
        if k = i then val else seen m p a2 k := by
  obtain ⟨mapped, noTable⟩ := h i hi
  have steady : ∀ {n : Mem}, SameTables s n → ∀ v, translateInPml4 n p v =
      translateInPml4 s.vmm.mem p v := fun hn v => hn.translateInPml4 hp
  have spared : SameTables s (Kernel.writeByte m
      (translateInPml4 s.vmm.mem p (a2 + BitVec.ofNat 64 i)) val) := by
    intro t ht
    refine (write_of_table_ne ?_).trans (hm t ht)
    rintro rfl
    exact noTable ht
  simp only [writeUserByte, steady hm, if_neg mapped]
  refine ⟨spared, fun k hk => ?_⟩
  simp only [seen, byteAt, readUserByte, steady hm, steady spared, if_neg (h k hk).1,
    readByte_writeByte]
  exact if_congr ⟨h.apart small hk hi, fun same => same ▸ rfl⟩ rfl rfl

/-- The loop of a word, and of clearing. -/
theorem Buffer.writeWord (h : Buffer s p a2 size) (small : size ≤ PAGE_SIZE) (hp : s.IsSpace p)
    (off : Nat) (v : u64) (n i : Nat) (inside : off + i + n ≤ size) (hm : SameTables s m) :
    SameTables s (writeUserWord p (a2 + BitVec.ofNat 64 off) v n i m).1 ∧
      ∀ k, k < size → seen (writeUserWord p (a2 + BitVec.ofNat 64 off) v n i m).1 p a2 k =
        if off + i ≤ k ∧ k < off + i + n then (v >>> (8 * (k - off))).setWidth 8
        else seen m p a2 k := by
  induction n generalizing i m with
  | zero => exact ⟨hm, fun k _ => by rw [if_neg (by omega)]; rfl⟩
  | succ n ih =>
    have place : a2 + BitVec.ofNat 64 off + BitVec.ofNat 64 i = a2 + BitVec.ofNat 64 (off + i) := by
      rw [BitVec.add_assoc, BitVec.ofNat_add]
    obtain ⟨m1, byte⟩ := h.writeByte small hp hm (i := off + i) (by omega)
      ((v >>> (8 * i)).setWidth 8)
    obtain ⟨m2, rest⟩ := ih (i + 1) (by omega) m1
    simp only [writeUserWord, place]
    refine ⟨m2, fun k hk => ?_⟩
    rw [rest k hk, byte k hk, ← putField_succ]
    rfl

/-- **A field of the record.** -/
theorem Buffer.writeField (h : Buffer s p a2 size) (small : size ≤ PAGE_SIZE) (hp : s.IsSpace p)
    {f : Nat → u8} (off : Nat) (v : u64) (n : Nat) (inside : off + n ≤ size)
    (hm : SameTables s m ∧ ∀ k, k < size → seen m p a2 k = f k) :
    SameTables s (writeUserWord p (a2 + BitVec.ofNat 64 off) v n 0 m).1 ∧
      ∀ k, k < size → seen (writeUserWord p (a2 + BitVec.ofNat 64 off) v n 0 m).1 p a2 k =
        putField off n v f k := by
  obtain ⟨same, field⟩ := h.writeWord small hp off v n 0 (by omega) hm.1
  refine ⟨same, fun k hk => ?_⟩
  rw [field k hk, hm.2 k hk, putField, Nat.add_zero]

theorem clearUser_eq (n i : Nat) (m : Mem) :
    clearUser p a2 n i m = (writeUserWord p a2 0#64 n i m).1 := by
  induction n generalizing i m with
  | zero => rfl
  | succ n ih =>
    rw [clearUser, ih]
    simp only [writeUserWord, BitVec.zero_ushiftRight]
    rfl

/-- **What the process reads** is what the page table entry says. -/
theorem Buffer.ntQueryVm (h : Buffer s p a2 48) (hp : s.IsSpace p) (a1 : u64) :
    readInformation (Kernel.ntQueryVm s.vmm.mem p a1 a2) p a2 =
      basicInformation (a1 &&& ~~~0xFFF#64) (getPteInto s.vmm.mem p (a1 &&& ~~~0xFFF#64)) := by
  have small : 48 ≤ PAGE_SIZE := by decide
  have field {f : Nat → u8} {m : Mem} (off : Nat) (v : u64) (n : Nat) (inside : off + n ≤ 48) :=
    h.writeField small hp (f := f) (m := m) off v n inside
  have cleared := field 0 0#64 48 (by decide) ⟨fun _ _ => rfl, fun k _ => rfl⟩
  rw [show a2 + BitVec.ofNat 64 0 = a2 from BitVec.add_zero a2, ← clearUser_eq] at cleared
  generalize hva : a1 &&& ~~~0xFFF#64 = va
  have base := field 0x18 pageSize64 8 (by decide) (field 0 va 8 (by decide) cleared)
  rw [Kernel.ntQueryVm, basicInformation]
  simp only [hva]
  split
  case isTrue =>
    have all := field 0x28 (MEM_PRIVATE.setWidth 64) 4 (by decide)
      (field 0x24 ((if has (getPteInto s.vmm.mem p va) PTE_WRITABLE then PAGE_READWRITE
        else PAGE_READONLY).setWidth 64) 4 (by decide)
      (field 0x20 (MEM_COMMIT.setWidth 64) 4 (by decide) (field 0x08 va 8 (by decide) base)))
    refine (informationAt_congr all.2).trans ?_
    simp (disch := decide) only [informationAt, u64At_putField, u32At_putField, u64At_putField_ne,
      u32At_putField_ne]
  case isFalse =>
    have all := field 0x20 (MEM_FREE.setWidth 64) 4 (by decide) base
    refine (informationAt_congr all.2).trans ?_
    simp (disch := decide) only [informationAt, u64At_putField, u32At_putField, u64At_putField_ne,
      u32At_putField_ne, u64At_cleared, u32At_cleared]

end

end MicroNT.Kernel
