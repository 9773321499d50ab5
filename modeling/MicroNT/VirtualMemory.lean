import MicroNT.Base.Radix
import MicroNT.PhysicalMemory

/-! # Virtual memory manager (`kernel/mm/virtual_memory.cpp`)

Memory is kept as the 512 entries of each page-aligned frame. The kernel
dereferences physical addresses as pointers, so a table address is the key of
its frame here; `IdentityMap` says for which frames that is right. A pointer
result is a table address, with 0 for `nullptr`. The TLB is not modelled. -/

namespace MicroNT.VMM

open MicroNT.PMM MicroNT.Base.Radix

abbrev Index := BitVec 9
abbrev Table := Index → u64
abbrev Mem := u64 → Table

abbrev PTE_PRESENT : u64 := 1#64
abbrev PTE_WRITABLE : u64 := 2#64
abbrev PTE_USER : u64 := 4#64
abbrev PTE_PS : u64 := 0x80#64
abbrev PTE_ADDR_MASK : u64 := 0x000FFFFFFFFFF000#64

/-- `if (e & flag)` -/
def has (e flag : u64) : Bool := e &&& flag != 0#64

/-- Memory, the page allocator and `s_pml4_phys`. -/
structure Vmm where
  mem : Mem
  pmm : Pmm
  pml4Phys : u64

def pml4Idx (v : u64) : Index := (v >>> 39).setWidth 9
def pdptIdx (v : u64) : Index := (v >>> 30).setWidth 9
def pdIdx (v : u64) : Index := (v >>> 21).setWidth 9
def ptIdx (v : u64) : Index := (v >>> 12).setWidth 9

/-- The entry of a table that `get_or_alloc` has just allocated. -/
def tableEntry (phys : u64) : u64 := phys ||| PTE_PRESENT ||| PTE_WRITABLE ||| PTE_USER

/-- The child table of an entry, allocated and zeroed on demand. -/
def getOrAlloc (s : Vmm) (tbl : u64) (i : Index) (alloc : Bool) : u64 × Vmm :=
  let e := s.mem tbl i
  if has e PTE_PRESENT then
    if has e PTE_PS then (0, s) else (e &&& PTE_ADDR_MASK, s)
  else if !alloc then (0, s)
  else
    let r := allocPage s.pmm
    if r.1 = 0 then (0, { s with pmm := r.2 })
    else (r.1, { s with pmm := r.2, mem := graft s.mem tbl i r.1 (fun _ => 0) (tableEntry r.1) })

/-- The leaf entry that the mapping functions store. -/
def leafEntry (phys flags : u64) : u64 := (phys &&& PTE_ADDR_MASK) ||| (flags ||| PTE_PRESENT)

def mapPageInto (s : Vmm) (pml4 virt phys flags : u64) : Bool × Vmm :=
  let r := getOrAlloc s pml4 (pml4Idx virt) true
  if r.1 = 0 then (false, r.2)
  else
    let r := getOrAlloc r.2 r.1 (pdptIdx virt) true
    if r.1 = 0 then (false, r.2)
    else
      let r := getOrAlloc r.2 r.1 (pdIdx virt) true
      if r.1 = 0 then (false, r.2)
      else (true, { r.2 with mem := write r.2.mem r.1 (ptIdx virt) (leafEntry phys flags) })

/-- `MapPage` is `MapPageInto` on the kernel's PML4. -/
def mapPage (s : Vmm) (virt phys flags : u64) : Bool × Vmm :=
  mapPageInto s s.pml4Phys virt phys flags

/-- The walk of `UnmapPageFrom`, `ProtectPageInto` and `GetPteInto`: the page
table of a page that no huge page covers. -/
def pageTable (m : Mem) (pml4 virt : u64) : Option u64 :=
  let e1 := m pml4 (pml4Idx virt)
  if !has e1 PTE_PRESENT || has e1 PTE_PS then none
  else
    let e2 := m (e1 &&& PTE_ADDR_MASK) (pdptIdx virt)
    if !has e2 PTE_PRESENT || has e2 PTE_PS then none
    else
      let e3 := m (e2 &&& PTE_ADDR_MASK) (pdIdx virt)
      if !has e3 PTE_PRESENT || has e3 PTE_PS then none
      else some (e3 &&& PTE_ADDR_MASK)

def unmapPageFrom (s : Vmm) (pml4 virt : u64) : Vmm :=
  match pageTable s.mem pml4 virt with
  | none => s
  | some pt => { s with mem := write s.mem pt (ptIdx virt) 0 }

/-- `UnmapPage` does not look for a huge page at the top level. -/
def unmapPage (s : Vmm) (virt : u64) : Vmm :=
  let e1 := s.mem s.pml4Phys (pml4Idx virt)
  if !has e1 PTE_PRESENT then s
  else
    let e2 := s.mem (e1 &&& PTE_ADDR_MASK) (pdptIdx virt)
    if !has e2 PTE_PRESENT || has e2 PTE_PS then s
    else
      let e3 := s.mem (e2 &&& PTE_ADDR_MASK) (pdIdx virt)
      if !has e3 PTE_PRESENT || has e3 PTE_PS then s
      else { s with mem := write s.mem (e3 &&& PTE_ADDR_MASK) (ptIdx virt) 0 }

def protectPageInto (s : Vmm) (pml4 virt flags : u64) : Bool × Vmm :=
  match pageTable s.mem pml4 virt with
  | none => (false, s)
  | some pt =>
    let pte := s.mem pt (ptIdx virt)
    if !has pte PTE_PRESENT then (false, s)
    else (true, { s with mem := write s.mem pt (ptIdx virt) (leafEntry pte flags) })

def getPteInto (m : Mem) (pml4 virt : u64) : u64 :=
  match pageTable m pml4 virt with
  | none => 0
  | some pt => m pt (ptIdx virt)

/-- The frame bits of a 1 GB and of a 2 MB huge page. -/
abbrev HUGE_1G_MASK : u64 := 0xFFFFFFC0000000#64
abbrev HUGE_2M_MASK : u64 := 0xFFFFFFFE00000#64

def translateInPml4 (m : Mem) (pml4 virt : u64) : u64 :=
  let e1 := m pml4 (pml4Idx virt)
  if !has e1 PTE_PRESENT then 0
  else if has e1 PTE_PS then 0
  else
    let e2 := m (e1 &&& PTE_ADDR_MASK) (pdptIdx virt)
    if !has e2 PTE_PRESENT then 0
    else if has e2 PTE_PS then (e2 &&& HUGE_1G_MASK) ||| (virt &&& 0x3FFFFFFF#64)
    else
      let e3 := m (e2 &&& PTE_ADDR_MASK) (pdIdx virt)
      if !has e3 PTE_PRESENT then 0
      else if has e3 PTE_PS then (e3 &&& HUGE_2M_MASK) ||| (virt &&& 0x1FFFFF#64)
      else
        let pte := m (e3 &&& PTE_ADDR_MASK) (ptIdx virt)
        if !has pte PTE_PRESENT then 0
        else (pte &&& PTE_ADDR_MASK) ||| (virt &&& 0xFFF#64)

/-- The kernel's upper slots as a user PML4 takes them over. -/
def copiedSlot (e : u64) : u64 := if has e PTE_PRESENT then e ||| PTE_USER else 0

def copiedTable (kernel : Table) : Table := fun i => if i = 0#9 then 0 else copiedSlot (kernel i)

/-- A user PDPT for slot 0: PDPT[0] to PDPT[3] are the kernel's. -/
def lowTable (m : Mem) (kernel0 : u64) : Table := fun i =>
  if has kernel0 PTE_PRESENT && decide (i.toNat < 4) then m (kernel0 &&& PTE_ADDR_MASK) i else 0

def createUserPml4 (s : Vmm) : u64 × Vmm :=
  let r := allocPage s.pmm
  if r.1 = 0 then (0, { s with pmm := r.2 })
  else
    let m := fill s.mem r.1 fun _ => 0
    let m := fill m r.1 (copiedTable (m s.pml4Phys))
    let q := allocPage r.2
    if q.1 = 0 then (0, { s with mem := m, pmm := freePage q.2 r.1 })
    else
      let m := fill m q.1 fun _ => 0
      let m := fill m q.1 (lowTable m (m s.pml4Phys 0#9))
      (r.1, { s with pmm := q.2, mem := write m r.1 0#9 (tableEntry q.1) })

abbrev KUSER_VA : u64 := 0x7FFE0000#64

def mapSharedUserData (s : Vmm) (phys : u64) : Bool × Vmm :=
  let e1 := s.mem s.pml4Phys (pml4Idx KUSER_VA)
  if !has e1 PTE_PRESENT then (false, s)
  else
    let m := write s.mem s.pml4Phys (pml4Idx KUSER_VA) (e1 ||| PTE_USER)
    let pdpt := e1 &&& PTE_ADDR_MASK
    let e2 := m pdpt (pdptIdx KUSER_VA)
    if !has e2 PTE_PRESENT then (false, { s with mem := m })
    else
      let m := write m pdpt (pdptIdx KUSER_VA) (e2 ||| PTE_USER)
      let pd := e2 &&& PTE_ADDR_MASK
      let e3 := m pd (pdIdx KUSER_VA)
      if !has e3 PTE_PRESENT || !has e3 PTE_PS then
        mapPage { s with mem := m } KUSER_VA phys (PTE_PRESENT ||| PTE_USER)
      else
        let hugeBase := e3 &&& 0x000FFFFFFFE00000#64
        let r := allocPage s.pmm
        if r.1 = 0 then (false, { s with mem := m, pmm := r.2 })
        else
          let identity : Table := fun i =>
            (hugeBase + i.setWidth 64 * pageSize64) ||| PTE_PRESENT ||| PTE_WRITABLE
          let m := write (fill m r.1 identity) r.1 (ptIdx KUSER_VA)
            ((phys &&& PTE_ADDR_MASK) ||| PTE_PRESENT ||| PTE_USER)
          (true, { s with pmm := r.2, mem := write m pd (pdIdx KUSER_VA) (tableEntry r.1) })

/-! ## The page walk -/

/-- The table an entry leads to: present and no huge page. -/
def link (e : u64) : Option u64 :=
  if has e PTE_PRESENT && !has e PTE_PS then some (e &&& PTE_ADDR_MASK) else none

def path (v : u64) : List Index := [pml4Idx v, pdptIdx v, pdIdx v, ptIdx v]

/-- The page number of an address: the 36 bits that the walk looks at. -/
def vpn (v : u64) : BitVec 36 := (v >>> 12).setWidth 36

/-- The entries the walk of an address reads. -/
def entries (m : Mem) (pml4 v : u64) : List u64 := walk link m pml4 (path v)

/-- The physical address that the entries of a walk give. -/
def resolve (v : u64) : List u64 → u64
  | [_, e2] => if has e2 PTE_PRESENT then (e2 &&& HUGE_1G_MASK) ||| (v &&& 0x3FFFFFFF#64) else 0
  | [_, _, e3] => if has e3 PTE_PRESENT then (e3 &&& HUGE_2M_MASK) ||| (v &&& 0x1FFFFF#64) else 0
  | [_, _, _, pte] =>
    if has pte PTE_PRESENT then (pte &&& PTE_ADDR_MASK) ||| (v &&& 0xFFF#64) else 0
  | _ => 0

theorem link_eq_none {e : u64} : link e = none ↔ has e PTE_PRESENT = false ∨ has e PTE_PS = true := by
  cases h1 : has e PTE_PRESENT <;> cases h2 : has e PTE_PS <;> simp [link, h1, h2]

theorem link_eq_some {e t : u64} :
    link e = some t ↔ has e PTE_PRESENT = true ∧ has e PTE_PS = false ∧ e &&& PTE_ADDR_MASK = t := by
  cases h1 : has e PTE_PRESENT <;> cases h2 : has e PTE_PS <;> simp [link, h1, h2]

/-! ## Entries -/

theorem has_twoPow (e : u64) {k : Nat} (hk : k < 64) :
    has e (BitVec.twoPow 64 k) = e.getLsbD k := by
  rw [has, BitVec.and_twoPow]
  cases h : e.getLsbD k with
  | false => rfl
  | true =>
    have h0 : BitVec.twoPow 64 k ≠ 0#64 := by
      intro h0
      have := congrArg (fun x => x.getLsbD k) h0
      simp [hk] at this
    simp [h0]

theorem has_present (e : u64) : has e PTE_PRESENT = e.getLsbD 0 :=
  has_twoPow e (k := 0) (by decide)
theorem has_writable (e : u64) : has e PTE_WRITABLE = e.getLsbD 1 :=
  has_twoPow e (k := 1) (by decide)
theorem has_user (e : u64) : has e PTE_USER = e.getLsbD 2 := has_twoPow e (k := 2) (by decide)
theorem has_ps (e : u64) : has e PTE_PS = e.getLsbD 7 := has_twoPow e (k := 7) (by decide)

theorem addrMask_getLsbD (i : Nat) :
    PTE_ADDR_MASK.getLsbD i = (decide (12 ≤ i) && decide (i < 52)) := by
  by_cases h : i < 64
  · have all : ∀ j : Fin 64,
        PTE_ADDR_MASK.getLsbD j = (decide (12 ≤ j.val) && decide (j.val < 52)) := by decide
    exact all ⟨i, h⟩
  · rw [BitVec.getLsbD_of_ge _ _ (by omega)]
    simp only [Bool.false_eq, Bool.and_eq_false_iff, decide_eq_false_iff_not]
    omega

/-- A page-aligned physical address below `2 ^ 52`. -/
def IsFrame (a : u64) : Prop := a &&& PTE_ADDR_MASK = a

theorem isFrame_bits {a : u64} (h : IsFrame a) {i : Nat} (hi : i < 12 ∨ 52 ≤ i) :
    a.getLsbD i = false := by
  rw [← h, BitVec.getLsbD_and, addrMask_getLsbD]
  rcases hi with hi | hi
  · simp [show ¬ 12 ≤ i by omega]
  · simp [show ¬ i < 52 by omega]

theorem isFrame_and (e : u64) : IsFrame (e &&& PTE_ADDR_MASK) := by
  rw [IsFrame, BitVec.and_assoc, BitVec.and_self]

theorem isFrame_iff (a : u64) : IsFrame a ↔ a.toNat % PAGE_SIZE = 0 ∧ a.toNat < 2 ^ 52 := by
  have hmask : a &&& PTE_ADDR_MASK = ((a >>> 12) <<< 24) >>> 12 := by
    apply BitVec.eq_of_getLsbD_eq
    intro i hi
    rw [BitVec.getLsbD_and, addrMask_getLsbD]
    simp only [BitVec.getLsbD_shiftLeft, BitVec.getLsbD_ushiftRight]
    by_cases h : i < 12
    · simp [show ¬ 12 ≤ i by omega, show 12 + i < 24 by omega]
    · have h' : 12 + (12 + i - 24) = i := by omega
      by_cases h52 : i < 52
      · simp [h52, h', show 12 ≤ i by omega, show 12 + i < 64 by omega, show ¬ 12 + i < 24 by omega]
      · simp [h52, show ¬ 12 + i < 64 by omega]
  have hval : (a &&& PTE_ADDR_MASK).toNat = a.toNat % 2 ^ 52 / PAGE_SIZE * PAGE_SIZE := by
    have ha := a.isLt
    rw [hmask, BitVec.toNat_ushiftRight, BitVec.toNat_shiftLeft, BitVec.toNat_ushiftRight]
    simp only [Nat.shiftRight_eq_div_pow, Nat.shiftLeft_eq, PAGE_SIZE]
    omega
  have ha := a.isLt
  simp only [PAGE_SIZE] at *
  rw [IsFrame, ← BitVec.toNat_inj, hval]
  omega

theorem tableEntry_eq (f : u64) : tableEntry f = f ||| 7#64 := by
  rw [tableEntry, BitVec.or_assoc, BitVec.or_assoc]
  rfl

theorem seven_getLsbD (i : Nat) : (7#64).getLsbD i = decide (i < 3) := by
  by_cases h : i < 64
  · have all : ∀ j : Fin 64, (7#64).getLsbD j = decide (j.val < 3) := by decide
    exact all ⟨i, h⟩
  · rw [BitVec.getLsbD_of_ge _ _ (by omega), decide_eq_false (by omega)]

theorem link_tableEntry {f : u64} (h : IsFrame f) : link (tableEntry f) = some f := by
  have h7 : 7#64 &&& PTE_ADDR_MASK = 0#64 := by decide
  rw [link_eq_some, has_present, has_ps, tableEntry_eq]
  simp only [BitVec.getLsbD_or, seven_getLsbD]
  refine ⟨by simp, by simp only [isFrame_bits h (i := 7) (by omega)]; rfl, ?_⟩
  rw [BitVec.and_or_distrib_right, h, h7, BitVec.or_zero]

/-- The USER bit that a copied slot gains does not change where it leads. -/
theorem link_or_user (e : u64) : link (e ||| PTE_USER) = link e := by
  have h0 : PTE_USER &&& PTE_ADDR_MASK = 0#64 := by decide
  have hp : has (e ||| PTE_USER) PTE_PRESENT = has e PTE_PRESENT := by
    rw [has_present, has_present, BitVec.getLsbD_or]
    exact Bool.or_false _
  have hs : has (e ||| PTE_USER) PTE_PS = has e PTE_PS := by
    rw [has_ps, has_ps, BitVec.getLsbD_or]
    exact Bool.or_false _
  rw [link, link, hp, hs, BitVec.and_or_distrib_right, h0, BitVec.or_zero]

theorem link_zero : link 0 = none := by decide

theorem leafEntry_present (p f : u64) : has (leafEntry p f) PTE_PRESENT = true := by
  simp [has_present, leafEntry]

theorem leafEntry_frame {p f : u64} (hp : IsFrame p) (hf : f &&& PTE_ADDR_MASK = 0) :
    leafEntry p f &&& PTE_ADDR_MASK = p := by
  have h1 : PTE_PRESENT &&& PTE_ADDR_MASK = 0#64 := by decide
  rw [leafEntry, BitVec.and_or_distrib_right, BitVec.and_or_distrib_right, hf, h1, hp, hp]
  exact BitVec.or_zero

theorem isFrame_pageAddr {i : Nat} (h : i < MAX_PAGES) : IsFrame (pageAddr i) := by
  rw [isFrame_iff, pageAddr_toNat h]
  simp only [MAX_PAGES, PAGE_SIZE] at *
  omega

/-! ## Pages and offsets -/

theorem vpn_toNat (v : u64) : (vpn v).toNat = v.toNat / PAGE_SIZE % 2 ^ 36 := by
  rw [vpn, BitVec.toNat_setWidth, BitVec.toNat_ushiftRight, Nat.shiftRight_eq_div_pow]

/-- The walk looks at the page number only. -/
theorem path_eq_iff (a b : u64) : path a = path b ↔ vpn a = vpn b := by
  have idx (v : u64) (k : Nat) : ((v >>> k).setWidth 9 : Index).toNat = v.toNat / 2 ^ k % 512 := by
    rw [BitVec.toNat_setWidth, BitVec.toNat_ushiftRight, Nat.shiftRight_eq_div_pow]
  simp only [path, List.cons.injEq, and_true, pml4Idx, pdptIdx, pdIdx, ptIdx,
    ← BitVec.toNat_inj, idx, vpn_toNat, PAGE_SIZE]
  omega

theorem offset_toNat (v : u64) : (v &&& 0xFFF#64).toNat = v.toNat % PAGE_SIZE := by
  rw [BitVec.toNat_and]
  exact Nat.and_two_pow_sub_one_eq_mod v.toNat 12

theorem toNat_add_offset {v o : u64} (hv : v.toNat % PAGE_SIZE = 0) (ho : o < 0x1000#64) :
    (v + o).toNat = v.toNat + o.toNat := by
  have hv' := v.isLt
  have ho' : o.toNat < 0x1000 := ho
  simp only [PAGE_SIZE] at hv
  rw [BitVec.toNat_add, Nat.mod_eq_of_lt (by omega)]

theorem vpn_add_offset {v o : u64} (hv : v.toNat % PAGE_SIZE = 0) (ho : o < 0x1000#64) :
    vpn (v + o) = vpn v := by
  have ho' : o.toNat < 0x1000 := ho
  rw [← BitVec.toNat_inj, vpn_toNat, vpn_toNat, toNat_add_offset hv ho]
  simp only [PAGE_SIZE] at *
  omega

theorem offset_add {v o : u64} (hv : v.toNat % PAGE_SIZE = 0) (ho : o < 0x1000#64) :
    (v + o) &&& 0xFFF#64 = o := by
  have ho' : o.toNat < 0x1000 := ho
  rw [← BitVec.toNat_inj, offset_toNat, toNat_add_offset hv ho]
  simp only [PAGE_SIZE] at *
  omega

/-- A frame and an offset share no bit. -/
theorem frame_or_offset {p : u64} (hp : IsFrame p) (v : u64) :
    p ||| (v &&& 0xFFF#64) = p + (v &&& 0xFFF#64) := by
  have h : PTE_ADDR_MASK &&& 0xFFF#64 = 0#64 := by decide
  rw [BitVec.add_eq_or_of_and_eq_zero]
  rw [← hp, BitVec.and_comm v, ← BitVec.and_assoc, BitVec.and_assoc p, h]
  simp

/-! ## The functions as walks -/

theorem pageTable_eq (m : Mem) (pml4 v : u64) :
    pageTable m pml4 v = descend link m pml4 [pml4Idx v, pdptIdx v, pdIdx v] := by
  simp only [pageTable, descend]
  cases h1 : has (m pml4 (pml4Idx v)) PTE_PRESENT <;>
    cases h1' : has (m pml4 (pml4Idx v)) PTE_PS <;> simp [link, h1, h1']
  generalize m pml4 (pml4Idx v) &&& PTE_ADDR_MASK = pdpt
  cases h2 : has (m pdpt (pdptIdx v)) PTE_PRESENT <;>
    cases h2' : has (m pdpt (pdptIdx v)) PTE_PS <;> simp
  generalize m pdpt (pdptIdx v) &&& PTE_ADDR_MASK = pd
  cases h3 : has (m pd (pdIdx v)) PTE_PRESENT <;>
    cases h3' : has (m pd (pdIdx v)) PTE_PS <;> simp

/-- `UnmapPage` is `UnmapPageFrom` on the kernel's PML4, which has no huge page. -/
theorem unmapPage_eq (s : Vmm) (v : u64)
    (h : has (s.mem s.pml4Phys (pml4Idx v)) PTE_PS = false) :
    unmapPage s v = unmapPageFrom s s.pml4Phys v := by
  simp only [unmapPage, unmapPageFrom, pageTable, h, Bool.or_false]
  cases has (s.mem s.pml4Phys (pml4Idx v)) PTE_PRESENT <;> simp
  generalize s.mem s.pml4Phys (pml4Idx v) &&& PTE_ADDR_MASK = pdpt
  cases h2 : has (s.mem pdpt (pdptIdx v)) PTE_PRESENT <;>
    cases h2' : has (s.mem pdpt (pdptIdx v)) PTE_PS <;> simp
  generalize s.mem pdpt (pdptIdx v) &&& PTE_ADDR_MASK = pd
  cases h3 : has (s.mem pd (pdIdx v)) PTE_PRESENT <;>
    cases h3' : has (s.mem pd (pdIdx v)) PTE_PS <;> simp

/-- `TranslateInPml4` is a function of the entries the walk reads. -/
theorem translateInPml4_eq (m : Mem) (pml4 v : u64) :
    translateInPml4 m pml4 v = resolve v (entries m pml4 v) := by
  simp only [translateInPml4, entries, path, walk_cons_cons, walk_single]
  cases h1 : has (m pml4 (pml4Idx v)) PTE_PRESENT <;>
    cases h1' : has (m pml4 (pml4Idx v)) PTE_PS <;> simp [link, h1, h1', resolve]
  generalize m pml4 (pml4Idx v) &&& PTE_ADDR_MASK = pdpt
  cases h2 : has (m pdpt (pdptIdx v)) PTE_PRESENT <;>
    cases h2' : has (m pdpt (pdptIdx v)) PTE_PS <;> simp [h2]
  generalize m pdpt (pdptIdx v) &&& PTE_ADDR_MASK = pd
  cases h3 : has (m pd (pdIdx v)) PTE_PRESENT <;>
    cases h3' : has (m pd (pdIdx v)) PTE_PS <;> simp [h3]
  generalize m pd (pdIdx v) &&& PTE_ADDR_MASK = pt
  cases has (m pt (ptIdx v)) PTE_PRESENT <;> simp

/-! ## Frames in use -/

/-- The frame is not free for the allocator. -/
def Used (s : Vmm) (t : u64) : Prop :=
  ∀ q, q < MAX_PAGES → bitmapTest s.pmm.bitmap q = false → t ≠ pageAddr q

section

variable {s s' : Vmm}

theorem Used.mono {t : u64} (h : Used s t)
    (bits : ∀ q, bitmapTest s.pmm.bitmap q = true → bitmapTest s'.pmm.bitmap q = true) :
    Used s' t := by
  intro q hq hfree
  refine h q hq ?_
  cases hb : bitmapTest s.pmm.bitmap q with
  | false => rfl
  | true => rw [bits q hb] at hfree; cases hfree

/-- Only the page given back becomes free. -/
theorem Used.freePage {t a : u64} (h : Used s t) (ht : t ≠ pageOf a) :
    Used { s with pmm := freePage s.pmm a } t := by
  intro q hq hfree
  have hfree : bitmapTest (PMM.freePage s.pmm a).bitmap q = false := hfree
  rw [freePage_bitmap] at hfree
  by_cases hqa : q = a.toNat / PAGE_SIZE
  · rw [hqa, pageAddr_div]
    exact ht
  · exact h q hq (by simpa [hqa] using hfree)

theorem used_taken {p : Pmm} {i count k : Nat} (ht : Takes s.pmm p i count) (hi : i ≤ k)
    (hk : k < i + count) : Used { s with pmm := p } (pageAddr k) := by
  intro q hq hfree heq
  have := ht.within
  obtain rfl := pageAddr_inj (by omega) hq heq
  have hfree : bitmapTest p.bitmap k = false := hfree
  rw [ht.bits, decide_eq_true ⟨hi, hk⟩] at hfree
  cases hfree

theorem not_used_free {p : Pmm} {i count k : Nat} (ht : Takes s.pmm p i count) (hi : i ≤ k)
    (hk : k < i + count) : ¬ Used s (pageAddr k) := by
  intro hu
  have := ht.within
  exact hu k (by omega) (ht.wasFree k hi hk) rfl

theorem pageAddr_ne {i j : Nat} {p q : Pmm} (h : Takes s.pmm p i 1) (h' : Takes p q j 1) :
    pageAddr j ≠ pageAddr i := by
  intro heq
  have hi := h.within
  have hj := h'.within
  obtain rfl := pageAddr_inj (by omega) (by omega) heq
  have hfree := h'.wasFree j le_rfl (by omega)
  rw [h.bits, decide_eq_true ⟨le_rfl, by omega⟩] at hfree
  cases hfree

/-- Giving back a page just taken frees nothing else. -/
theorem freePage_takes {p q r : Pmm} {i : Nat} (h : Takes p q i 1)
    (bits : ∀ k, bitmapTest p.bitmap k = true → bitmapTest r.bitmap k = true) {k : Nat}
    (hk : bitmapTest p.bitmap k = true) : bitmapTest (freePage r (pageAddr i)).bitmap k = true := by
  have hi := h.within
  have hne : k ≠ i := by
    rintro rfl
    rw [h.wasFree k le_rfl (by omega)] at hk
    cases hk
  rw [freePage_bitmap, pageAddr_toNat (by omega), Nat.mul_div_cancel _ (by decide), bits k hk]
  simp [hne]

theorem lowTable_congr {m m' : Mem} {k : u64}
    (h : has k PTE_PRESENT = true → m' (k &&& PTE_ADDR_MASK) = m (k &&& PTE_ADDR_MASK)) :
    lowTable m' k = lowTable m k := by
  funext i
  rw [lowTable, lowTable]
  cases hk : has k PTE_PRESENT with
  | false => rfl
  | true => rw [h hk]

/-- `CreateUserPml4` either fails and has changed no frame in use, or has filled
two fresh frames: a PML4 with the kernel's upper slots and a PDPT for slot 0. -/
theorem createUserPml4_cases {s : Vmm} (hK : Used s s.pml4Phys)
    (hlow : has (s.mem s.pml4Phys 0#9) PTE_PRESENT = true →
      Used s (s.mem s.pml4Phys 0#9 &&& PTE_ADDR_MASK)) :
    (∃ s', createUserPml4 s = (0, s') ∧ s'.pml4Phys = s.pml4Phys ∧
      (∀ q, bitmapTest s.pmm.bitmap q = true → bitmapTest s'.pmm.bitmap q = true) ∧
      ∀ t, Used s t → s'.mem t = s.mem t) ∨
    ∃ i j p q, Takes s.pmm p i 1 ∧ Takes p q j 1 ∧ pageAddr i ≠ 0 ∧
      createUserPml4 s = (pageAddr i,
        { s with
          pmm := q
          mem := write (fill (fill s.mem (pageAddr i) (copiedTable (s.mem s.pml4Phys)))
            (pageAddr j) (lowTable s.mem (s.mem s.pml4Phys 0#9)))
            (pageAddr i) 0#9 (tableEntry (pageAddr j)) }) := by
  simp only [createUserPml4]
  rcases allocPage_cases s.pmm with ⟨i, hi, ht⟩ | ⟨hr0, -⟩
  case inr => exact .inl ⟨s, by simp only [hr0, if_true], rfl, fun _ h => h, fun _ _ => rfl⟩
  case inl =>
    generalize allocPage s.pmm = r at *
    have bits : ∀ q, bitmapTest s.pmm.bitmap q = true → bitmapTest r.2.bitmap q = true :=
      fun q hq => by simp [ht.bits, hq]
    have apart : ∀ t, Used s t → t ≠ pageAddr i :=
      fun t hu heq => not_used_free ht le_rfl (by omega) (heq ▸ hu)
    have hKi := apart _ hK
    split
    case isTrue => exact .inl ⟨_, rfl, rfl, bits, fun _ _ => rfl⟩
    case isFalse hn =>
      rw [hi] at hn ⊢
      rcases allocPage_cases r.2 with ⟨j, hj, ht'⟩ | ⟨hr0, -⟩
      case inr =>
        refine .inl ⟨{ s with
          pmm := freePage r.2 (pageAddr i)
          mem := fill s.mem (pageAddr i) (copiedTable (s.mem s.pml4Phys)) },
          ?_, rfl, fun q hq => freePage_takes ht bits hq, fun t hu => fill_of_ne (apart t hu)⟩
        simp only [hr0, if_true, fill_fill, fill_of_ne hKi]
      case inl =>
        generalize allocPage r.2 = a at *
        split
        case isTrue =>
          have bits' : ∀ q, bitmapTest s.pmm.bitmap q = true → bitmapTest a.2.bitmap q = true :=
            fun q hq => by simp [ht'.bits, bits q hq]
          refine .inl ⟨_, rfl, rfl, fun q hq => freePage_takes ht bits' hq, fun t hu => ?_⟩
          simp only [fill_of_ne (apart t hu)]
        case isFalse =>
          rw [hj]
          have apart' : ∀ t, Used s t → t ≠ pageAddr j := fun t hu heq =>
            not_used_free (s := { s with pmm := r.2 }) ht' le_rfl (by omega) (heq ▸ hu.mono bits)
          refine .inr ⟨i, j, r.2, a.2, ht, ht', hn, ?_⟩
          simp only [fill_fill, fill_of_ne hKi, fill_of_ne (apart' _ hK)]
          rw [lowTable_congr (m := s.mem)]
          intro hp
          rw [fill_of_ne (apart' _ (hlow hp)), fill_of_ne (apart _ (hlow hp))]

end

/-! ## Walks that end early -/

/-- A walk that ends in an absent entry gives nothing. -/
theorem resolve_absent (v : u64) (l : List u64) {e : u64} (h : has e PTE_PRESENT = false) :
    resolve v (l ++ [e]) = 0 := by
  match l with
  | [] => rfl
  | [_] => simp [resolve, h]
  | [_, _] => simp [resolve, h]
  | [_, _, _] => simp [resolve, h]
  | _ :: _ :: _ :: _ :: l => cases l <;> rfl

end MicroNT.VMM
