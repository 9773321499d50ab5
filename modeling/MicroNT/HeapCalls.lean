import MicroNT.FileCalls
import MicroNT.FailedCalls
import MicroNT.MappingSucceeds

/-! # The calls that hand out heap addresses (`syscall.cpp`)

A process has a heap cursor, at which `NtAllocateVirtualMemory` maps new pages and
`NtMapViewOfSection` the pages of a section. What such a call maps lies behind the cursor,
and the cursor moves past it. -/

namespace MicroNT.Kernel

open MicroNT.PMM hiding step Op System
open MicroNT.VMM MicroNT.Boot MicroNT.Base.Radix MicroNT.Base.Machine
open FileIo (BootFile userString)

/-! ## The calls -/

/-- `VFS::FindFile`. -/
def findFile (boot : List BootFile) (name : List u8) : Option Image :=
  (boot.find? fun f => VFS.strIeq f.name name).map fun f => ⟨f.bytes, f.size.toNat⟩

/-- The file that the caller names in its memory. -/
def namedFile (boot : List BootFile) (k : NtState) (i : Nat) (va len : u64) : Option Image :=
  findFile boot (userString k.vmm.mem (k.processes[i]?.map Process.cr3) va len 63)

/-- The calls on sections and on the heap; a name is an address and a length. -/
inductive HeapCall
  | ntCreateSection (size : u64)
  | ntCreateFileSection (va len : u64)
  | ntMapView (handle : u64)
  | ntAllocVm (size : u64)

/-- Process `i` makes a call. -/
def heapCall (boot : List BootFile) (k : NtState) (i : Nat) : HeapCall → u64 × NtState
  | .ntCreateSection size => ntCreateSection k size
  | .ntCreateFileSection va len => ntCreateFileSection k (namedFile boot k i va len)
  | .ntMapView handle => ntMapView k i handle
  | .ntAllocVm size => ntAllocVm k i size

/-- The process has an address space of its own. -/
def UserProcess (k : NtState) (i : Nat) (p : Process) : Prop :=
  k.processes[i]? = some p ∧ p.cr3 ∈ k.loader.sys.spaces

/-- The length of an allocation does not carry the cursor past the last address, back to
the start. -/
def HeapCall.Fits (p : Process) : HeapCall → Prop
  | .ntAllocVm size =>
    p.userHeapCursor.toNat + (pagesLength (pagesOf size)).toNat < 2 ^ 64
  | _ => True

/-! ## Sections -/

section

variable {R : Rows} {shown : Bool} {P : u64 → u64 → Prop} {s t : System} {f : u64} {page : Table}

/-- The first `n` pages of a section hold these contents. -/
def Filled (s : System) (content : Nat → Table) (phys : Nat → u64) (n : Nat) : Prop :=
  ∀ i, i < n → DataPage s (phys i) (content i)

/-- **The loop that fills a section** takes pages that were free. -/
theorem Sound.fillSection (content : Nat → Table) (n j : Nat) (phys : Nat → u64) (h : Sound R s)
    (filled : Filled s content phys j) :
    Moves R noPages noFrames s { s with vmm := (fillSection content n j phys s.vmm).2.2 } ∧
      ((fillSection content n j phys s.vmm).1 = true →
        Filled { s with vmm := (fillSection content n j phys s.vmm).2.2 } content
          (fillSection content n j phys s.vmm).2.1 (j + n)) := by
  induction n generalizing j phys s with
  | zero => exact ⟨.refl h _ _, fun _ => filled⟩
  | succ n ih =>
    rw [Kernel.fillSection]
    rcases allocPage_cases s.vmm.pmm with ⟨q, hq, ht⟩ | ⟨h0, -⟩
    case inr =>
      simp only [h0, if_true]
      exact ⟨.refl h _ _, fun no => Bool.noConfusion no⟩
    case inl =>
      have taken := h.takes (P := noPages) (F := noFrames) ht
      obtain ⟨moved, used, data, -⟩ := h.newPage ht (content j)
      generalize allocPage s.vmm.pmm = r at *
      split
      case isTrue => exact ⟨taken, fun no => Bool.noConfusion no⟩
      case isFalse nonzero =>
        rw [hq] at nonzero ⊢
        have next : Filled { s with vmm := { s.vmm with pmm := r.2
                                                        mem := fill s.vmm.mem (pageAddr q) (content j) } }
            content (Function.update phys j (pageAddr q)) (j + 1) := by
          intro i hi
          by_cases here : i = j
          · rw [here, Function.update_self]
            exact ⟨isFrame_pageAddr ht.within, nonzero, used, data, fill_same _ _ _⟩
          · rw [Function.update_of_ne here]
            exact (filled i (by omega)).moves moved
        obtain ⟨rest, done⟩ := ih (j + 1) (Function.update phys j (pageAddr q)) moved.sound next
        refine ⟨moved.trans rest, fun success => ?_⟩
        rw [← Nat.add_assoc, Nat.add_right_comm]
        exact done success

/-! ## Views -/

/-- **The loop that maps a view** gives every page its frame. -/
theorem Sound.mapViewPages (hg : R.Good shown) {p va : u64} (phys : Nat → u64) (n i : Nat)
    (hn : i + n ≤ MAX_SECTION_PAGES) (open_ : ∀ k, k < i + n → ¬ Shared (va + pageAddr k))
    (h : Sound R s) (hp : p ∈ s.spaces) :
    Moves R (viewPages p va i n) noFrames s
        { s with vmm := (mapViewPages p va phys n i s.vmm).2 } ∧
      ((mapViewPages p va phys n i s.vmm).1 = true → ∀ k, i ≤ k → k < i + n →
        getPteInto (mapViewPages p va phys n i s.vmm).2.mem p (va + pageAddr k) =
          leafEntry (phys k) (userFlags true)) := by
  induction n generalizing i s with
  | zero => exact ⟨.refl h _ _, fun _ k h1 h2 => absurd h2 (by omega)⟩
  | succ n ih =>
    rw [Kernel.mapViewPages]
    obtain ⟨moved, here, -⟩ := h.mapPageInto hg hp (va + pageAddr i) (phys i) true
    have first : ∀ b w, onlyPage p (va + pageAddr i) b w → viewPages p va i (n + 1) b w :=
      fun b w hw => ⟨hw.1, i, le_rfl, by omega, hw.2⟩
    have moved := moved.mono first fun _ hf => hf
    generalize VMM.mapPageInto s.vmm p (va + pageAddr i) (phys i) (userFlags true) = q at *
    split
    case isFalse => exact ⟨moved, fun no => Bool.noConfusion no⟩
    case isTrue success =>
      obtain ⟨rest, done⟩ := ih (i + 1) (by omega) (fun k hk => open_ k (by omega)) moved.sound hp
      have others : ∀ b w, viewPages p va (i + 1) n b w → viewPages p va i (n + 1) b w := by
        rintro b w ⟨hb, k, h1, h2, hw⟩
        exact ⟨hb, k, by omega, by omega, hw⟩
      refine ⟨moved.trans (rest.mono others fun _ hf => hf), fun all k h1 h2 => ?_⟩
      rcases Nat.lt_or_eq_of_le h1 with h1 | rfl
      · exact done all k h1 (by omega)
      · refine (rest.entries p hp _ (open_ i h2) ?_).trans (here success)
        rintro ⟨-, k, h3, h4, same⟩
        simp only [MAX_SECTION_PAGES] at hn
        exact vpn_pageAddr_ne va (by omega) (by omega) (by omega : i ≠ k) same

/-! ## New pages -/

/-- How many pages the allocator has. -/
def freePages (s : Pmm) : Nat :=
  ((Finset.range MAX_PAGES).filter fun q => bitmapTest s.bitmap q = false).card

theorem freePages_le (s : Pmm) : freePages s ≤ MAX_PAGES :=
  (Finset.card_filter_le _ _).trans (Finset.card_range MAX_PAGES).le

theorem freePages_mono {a b : Pmm}
    (bits : ∀ q, bitmapTest a.bitmap q = true → bitmapTest b.bitmap q = true) :
    freePages b ≤ freePages a := by
  refine Finset.card_le_card fun q hq => ?_
  rw [Finset.mem_filter] at hq ⊢
  refine ⟨hq.1, Bool.eq_false_iff.mpr fun used => ?_⟩
  rw [bits q used] at hq
  exact absurd hq.2 Bool.noConfusion

/-- A page is taken. -/
theorem freePages_takes {a b : Pmm} {q : Nat} (ht : Takes a b q 1) : freePages b < freePages a := by
  refine Finset.card_lt_card (Finset.ssubset_iff_subset_ne.mpr ⟨fun j hj => ?_, fun same => ?_⟩)
  · rw [Finset.mem_filter] at hj ⊢
    refine ⟨hj.1, ?_⟩
    have free := hj.2
    rw [ht.bits, Bool.or_eq_false_iff] at free
    exact free.2
  · have within : q + 1 ≤ MAX_PAGES := ht.within
    have before : q ∈ (Finset.range MAX_PAGES).filter fun j => bitmapTest a.bitmap j = false :=
      Finset.mem_filter.mpr ⟨Finset.mem_range.mpr within, ht.wasFree q le_rfl (by omega)⟩
    rw [← same, Finset.mem_filter, ht.bits] at before
    exact absurd before.2 (by simp)

/-- **The loop that maps new pages** stops when the allocator has no more. -/
theorem Sound.mapZeroed (hg : R.Good shown) {p : u64} (va : u64) (n i : Nat) (h : Sound R s)
    (hp : p ∈ s.spaces) :
    Moves R (viewPages p va i (min n (freePages s.vmm.pmm))) noFrames s
      { s with vmm := (mapZeroed p va n i s.vmm).2 } := by
  induction n generalizing i s with
  | zero => exact .refl h _ _
  | succ n ih =>
    rw [Kernel.mapZeroed]
    rcases allocPage_cases s.vmm.pmm with ⟨q, hq, ht⟩ | ⟨h0, -⟩
    case inr =>
      simp only [h0, if_true]
      exact .refl h _ _
    case inl =>
      have fewer := freePages_takes ht
      have taken := h.takes (P := viewPages p va i (min (n + 1) (freePages s.vmm.pmm)))
        (F := noFrames) ht
      obtain ⟨zeroed, -⟩ := h.newPage ht fun _ => 0
      generalize allocPage s.vmm.pmm = r at *
      split
      case isTrue => exact taken
      case isFalse =>
        rw [hq]
        dsimp only at zeroed ⊢
        obtain ⟨mapped, -⟩ := zeroed.sound.mapPageInto hg hp (va + pageAddr i) (pageAddr q) true
        have moved := (zeroed.mono (fun _ _ no => no.elim) fun _ no => no).trans mapped
        have left := freePages_mono mapped.bits
        simp only at left
        generalize VMM.mapPageInto _ p (va + pageAddr i) (pageAddr q) (userFlags true) = m at *
        have first : ∀ b w, onlyPage p (va + pageAddr i) b w →
            viewPages p va i (min (n + 1) (freePages s.vmm.pmm)) b w :=
          fun b w hw => ⟨hw.1, i, le_rfl, by omega, hw.2⟩
        have moved := moved.mono first fun _ no => no
        split
        case isFalse => exact moved
        case isTrue =>
          refine moved.trans ((ih (i + 1) moved.sound hp).mono ?_ fun _ no => no)
          rintro b w ⟨hb, k, h1, h2, hw⟩
          exact ⟨hb, k, by omega, by simp only at h2; omega, hw⟩

end

/-! ## Processes and their heaps -/

/-- Address spaces of processes are their own, and the heap cursors lie in the heaps. -/
structure Running (R : Rows) (k : NtState) : Prop where
  sound : Sound R k.loader.sys
  known : ∀ (i : Nat) (p : Process), k.processes[i]? = some p → k.loader.sys.IsSpace p.cr3
  own : ∀ i j p q, UserProcess k i p → UserProcess k j q → p.cr3 = q.cr3 → i = j
  cursor : ∀ i p, UserProcess k i p → p.userHeapCursor.toNat % PAGE_SIZE = 0 ∧
    HEAP_START.toNat ≤ p.userHeapCursor.toNat ∧ p.userHeapCursor.toNat ≤ HEAP_MAX.toNat

/-- The pages of the heap from the cursor on. -/
def Process.aboveCursor (p : Process) : u64 → u64 → Prop := fun b w =>
  b = p.cr3 ∧ p.userHeapCursor.toNat / PAGE_SIZE ≤ (vpn w).toNat

/-- What a call on sections of process `i` does to the rest of the system. -/
structure HeapStep (R : Rows) (k k' : NtState) (p : Process) : Prop where
  moves : Moves R p.aboveCursor noFrames k.loader.sys k'.loader.sys
  spaces : k'.loader.sys.spaces = k.loader.sys.spaces
  sections : ∀ h sec, sectionOf k h = some sec → sectionOf k' h = some sec
  processes : ∀ (j : Nat) (q' : Process), k'.processes[j]? = some q' → ∃ q : Process,
    k.processes[j]? = some q ∧ q'.cr3 = q.cr3 ∧ (q'.userHeapCursor = q.userHeapCursor ∨
      ∃ n, q'.userHeapCursor.toNat = q.userHeapCursor.toNat + n * PAGE_SIZE ∧
        q'.userHeapCursor.toNat ≤ HEAP_MAX.toNat)
  alive : ∀ (j : Nat) (q : Process), k.processes[j]? = some q → ∃ q' : Process,
    k'.processes[j]? = some q' ∧ q'.cr3 = q.cr3 ∧
      q.userHeapCursor.toNat ≤ q'.userHeapCursor.toNat

section

variable {R : Rows} {shown : Bool} {k k' : NtState} {i j : Nat} {p q : Process} {h va : u64}
  {sec : KSection} {content : Nat → Table}

theorem HeapStep.user (s : HeapStep R k k' p) {q' : Process} (hq : UserProcess k' j q') :
    ∃ q, UserProcess k j q ∧ q'.cr3 = q.cr3 := by
  obtain ⟨q, hj, same, -⟩ := s.processes j q' hq.1
  exact ⟨q, ⟨hj, by rw [← same, ← s.spaces]; exact hq.2⟩, same⟩

/-- **A call on sections** leaves processes and heaps in order. -/
theorem Running.step (r : Running R k) (s : HeapStep R k k' p) : Running R k' where
  sound := s.moves.sound
  known i a ha := by
    obtain ⟨b, hb, same, -⟩ := s.processes i a ha
    rw [System.IsSpace, s.moves.kernel, s.spaces, same]
    exact r.known i b hb
  own i j a b ha hb same := by
    obtain ⟨a', ua, ea⟩ := s.user ha
    obtain ⟨b', ub, eb⟩ := s.user hb
    exact r.own i j a' b' ua ub (by rw [← ea, ← eb, same])
  cursor i a ha := by
    obtain ⟨b, hb, same, cursor⟩ := s.processes i a ha.1
    obtain ⟨aligned, low, high⟩ := r.cursor i b ⟨hb, by rw [← same, ← s.spaces]; exact ha.2⟩
    rcases cursor with keep | ⟨n, more, below⟩
    · rw [keep]
      exact ⟨aligned, low, high⟩
    · refine ⟨?_, ?_, below⟩
      · rw [more, Nat.add_mul_mod_self_right]
        exact aligned
      · omega

/-- The addresses of a heap are private. -/
theorem heap_private {w : u64} (low : HEAP_START.toNat ≤ w.toNat) (high : w.toNat < HEAP_MAX.toNat) :
    ¬ Shared w := by
  have start : HEAP_START.toNat = 0x500000000 := rfl
  have end_ : HEAP_MAX.toNat = 0x580000000 := rfl
  have index : ∀ k, ((w >>> k).setWidth 9 : Index).toNat = w.toNat / 2 ^ k % 512 := fun k => by
    rw [BitVec.toNat_setWidth, BitVec.toNat_ushiftRight, Nat.shiftRight_eq_div_pow]
  rintro (⟨-, below⟩ | soft)
  · rw [pdptIdx, index] at below
    omega
  · have slot := congrArg BitVec.toNat soft
    rw [pml4Idx, index] at slot
    have last : (SOFT_SLOT : Index).toNat = 511 := rfl
    omega

/-! ## One call -/

theorem HeapStep.refl (r : Running R k) (p : Process) : HeapStep R k k p where
  moves := .refl r.sound _ _
  spaces := rfl
  sections _ _ hs := hs
  processes _ q hq := ⟨q, hq, rfl, .inl rfl⟩
  alive _ q hq := ⟨q, hq, rfl, le_rfl⟩

/-- The handle of a slot. -/
theorem sectionOf_handle (k : NtState) (slot : Fin SECTION_SLOTS) :
    sectionOf k (BitVec.ofNat 64 (slot.val + 1)) =
      if (k.sections slot).inUse then some (k.sections slot) else none := by
  have less := slot.isLt
  simp only [SECTION_SLOTS] at less
  have number : (BitVec.ofNat 64 (slot.val + 1) : u64).toNat = slot.val + 1 := by
    rw [BitVec.toNat_ofNat]
    omega
  have inside : (BitVec.ofNat 64 (slot.val + 1) : u64).toNat ≠ 0 ∧
      (BitVec.ofNat 64 (slot.val + 1) : u64).toNat ≤ SECTION_SLOTS := by
    simp only [SECTION_SLOTS]
    omega
  rw [sectionOf, dif_pos inside]
  simp only [number, Nat.add_sub_cancel]

/-- A handle leads to a slot in use. -/
theorem sectionOf_slot (hs : sectionOf k h = some sec) : ∃ slot : Fin SECTION_SLOTS,
    h = BitVec.ofNat 64 (slot.val + 1) ∧ (k.sections slot).inUse = true ∧ k.sections slot = sec := by
  unfold sectionOf at hs
  split at hs
  case isFalse => cases hs
  case isTrue inside =>
    simp only at hs
    split at hs
    case isFalse => cases hs
    case isTrue used =>
      refine ⟨_, ?_, used, Option.some.inj hs⟩
      rw [Nat.sub_add_cancel (by omega), BitVec.ofNat_toNat, BitVec.setWidth_eq]

/-- **Creating a section** takes a free slot and new pages. -/
theorem createSection_step (r : Running R k) (p : Process) (size : u64) (content : Nat → Table) :
    HeapStep R k (createSection k size content).2 p ∧
      ((createSection k size content).1 ≠ 0 → ∃ sec,
        sectionOf (createSection k size content).2 (createSection k size content).1 = some sec ∧
          sec.pageCount = (pagesOf size).toNat ∧
          Filled (createSection k size content).2.loader.sys content sec.phys sec.pageCount) := by
  unfold createSection
  split
  case isTrue => exact ⟨.refl r p, fun no => absurd rfl no⟩
  case isFalse =>
    cases hslot : freeSection k with
    | none => exact ⟨.refl r p, fun no => absurd rfl no⟩
    | some slot =>
      simp only
      have free := freeSection_some hslot
      obtain ⟨moved, filled⟩ := r.sound.fillSection content (pagesOf size).toNat 0
        (k.sections slot).phys fun i hi => absurd hi (Nat.not_lt_zero i)
      rw [Nat.zero_add] at filled
      rw [show k.vmm = k.loader.sys.vmm from rfl]
      generalize fillSection content (pagesOf size).toNat 0 (k.sections slot).phys
        k.loader.sys.vmm = f at *
      refine ⟨⟨moved.mono (fun _ _ no => no.elim) fun _ no => no, rfl, fun h sec hs => ?_,
        fun j q hq => ⟨q, hq, rfl, .inl rfl⟩, fun j q hq => ⟨q, hq, rfl, le_rfl⟩⟩, fun success => ?_⟩
      · obtain ⟨other, rfl, used, rfl⟩ := sectionOf_slot hs
        have ne : other ≠ slot := by
          rintro rfl
          rw [free] at used
          cases used
        rw [sectionOf_handle]
        simp only [Function.update_of_ne ne, used, if_true]
      · split at success
        case isFalse => exact absurd rfl success
        case isTrue all =>
          refine ⟨⟨f.2.1, (pagesOf size).toNat, f.1, by omega⟩, ?_, rfl, filled all⟩
          rw [if_pos all, sectionOf_handle]
          simp only [Function.update_self, all, if_true]

/-- The pages of a section are in the view of process `i` at `va`. -/
structure Viewed (k : NtState) (i : Nat) (p : Process) (va : u64) (phys : Nat → u64) (n : Nat) :
    Prop where
  user : UserProcess k i p
  aligned : va.toNat % PAGE_SIZE = 0
  low : HEAP_START.toNat ≤ va.toNat
  below : va.toNat + n * PAGE_SIZE ≤ p.userHeapCursor.toNat
  pages : ∀ j, j < n → getPteInto k.vmm.mem p.cr3 (va + pageAddr j) =
    leafEntry (phys j) (userFlags true)

/-- Page `j` of a view below the end of the heap. -/
theorem heap_page {n j : Nat} (aligned : va.toNat % PAGE_SIZE = 0)
    (below : va.toNat + n * PAGE_SIZE ≤ HEAP_MAX.toNat) (hj : j < n) :
    (va + pageAddr j).toNat = va.toNat + j * PAGE_SIZE ∧
      (vpn (va + pageAddr j)).toNat = va.toNat / PAGE_SIZE + j := by
  have end_ : HEAP_MAX.toNat = 0x580000000 := rfl
  have sum : (va + pageAddr j).toNat = va.toNat + j * PAGE_SIZE := by
    rw [BitVec.toNat_add, pageAddr, BitVec.toNat_ofNat]
    simp only [PAGE_SIZE] at *
    omega
  refine ⟨sum, ?_⟩
  rw [vpn_toNat, sum, Nat.add_mul_div_right _ _ (by decide)]
  simp only [PAGE_SIZE] at *
  omega

/-- The length of `n` pages. -/
theorem pagesLength_toNat {n : u64} (hn : n.toNat < 2 ^ 52) :
    (pagesLength n).toNat = n.toNat * PAGE_SIZE := by
  rw [pagesLength, BitVec.toNat_mul, show pageSize64.toNat = PAGE_SIZE from rfl]
  simp only [PAGE_SIZE]
  omega

theorem bumpCursor_processes (k : NtState) (i : Nat) (len : u64) (v : Vmm) (j : Nat) :
    ((k.bumpCursor i len).withVmm v).processes[j]? = k.processes[j]?.map fun a =>
      if i = j then { a with userHeapCursor := a.userHeapCursor + len } else a :=
  List.getElem?_modify _ i k.processes j

/-- A cursor may move to any page of the heap. -/
theorem Running.bumpCursor {P : u64 → u64 → Prop} (r : Running R k) (hp : UserProcess k i p)
    {len : u64} {v : Vmm}
    (moved : Moves R P noFrames k.loader.sys { k.loader.sys with vmm := v })
    (heap : (p.userHeapCursor + len).toNat % PAGE_SIZE = 0 ∧
      HEAP_START.toNat ≤ (p.userHeapCursor + len).toNat ∧
      (p.userHeapCursor + len).toNat ≤ HEAP_MAX.toNat) :
    Running R ((k.bumpCursor i len).withVmm v) := by
  have was : ∀ (j : Nat) (a : Process), ((k.bumpCursor i len).withVmm v).processes[j]? = some a →
      ∃ b : Process, k.processes[j]? = some b ∧ a.cr3 = b.cr3 ∧
        ((i = j ∧ a.userHeapCursor = b.userHeapCursor + len) ∨
          a.userHeapCursor = b.userHeapCursor) := by
    intro j a ha
    rw [bumpCursor_processes] at ha
    obtain ⟨b, hb, rfl⟩ := Option.map_eq_some_iff.mp ha
    refine ⟨b, hb, by split <;> rfl, ?_⟩
    split
    case isTrue here => exact .inl ⟨here, rfl⟩
    case isFalse => exact .inr rfl
  refine ⟨moved.sound, fun j a ha => ?_, fun j l a b ha hb same => ?_, fun j a ha => ?_⟩
  · obtain ⟨b, hb, same, -⟩ := was j a ha
    rcases r.known j b hb with root | space
    · exact .inl ((same.trans root).trans moved.kernel.symm)
    · exact .inr (same ▸ space)
  · obtain ⟨a', ha', sa, -⟩ := was j a ha.1
    obtain ⟨b', hb', sb, -⟩ := was l b hb.1
    exact r.own j l a' b' ⟨ha', sa ▸ ha.2⟩ ⟨hb', sb ▸ hb.2⟩ (by rw [← sa, ← sb, same])
  · obtain ⟨b, hb, same, ⟨rfl, moved_⟩ | keep⟩ := was j a ha.1
    · obtain rfl := Option.some.inj (hp.1.symm.trans hb)
      rw [moved_]
      exact heap
    · rw [keep]
      exact r.cursor j b ⟨hb, same ▸ ha.2⟩

/-- **Pages behind the cursor** are handed out when the cursor moves past them. -/
theorem bumpCursor_step (r : Running R k) (hp : UserProcess k i p) {len : u64} {n : Nat} {v : Vmm}
    (length : len.toNat = n * PAGE_SIZE) (fits : p.userHeapCursor.toNat + len.toNat < 2 ^ 64)
    (room : ¬ p.userHeapCursor + len > HEAP_MAX)
    (moved : Moves R (viewPages p.cr3 p.userHeapCursor 0 n) noFrames k.loader.sys
      { k.loader.sys with vmm := v }) :
    HeapStep R k ((k.bumpCursor i len).withVmm v) p ∧
      ((k.bumpCursor i len).withVmm v).processes[i]? =
        some { p with userHeapCursor := p.userHeapCursor + len } ∧
      (p.userHeapCursor + len).toNat = p.userHeapCursor.toNat + n * PAGE_SIZE := by
  obtain ⟨aligned, low, high⟩ := r.cursor i p hp
  have sum : (p.userHeapCursor + len).toNat = p.userHeapCursor.toNat + n * PAGE_SIZE := by
    rw [BitVec.toNat_add]
    omega
  have below : p.userHeapCursor.toNat + n * PAGE_SIZE ≤ HEAP_MAX.toNat := by
    rw [← sum]
    exact BitVec.le_def.mp (BitVec.not_lt.mp room)
  have above : ∀ b w, viewPages p.cr3 p.userHeapCursor 0 n b w → p.aboveCursor b w := by
    rintro b w ⟨hb, j, -, hj, hw⟩
    obtain ⟨-, number⟩ := heap_page aligned below (show j < n by omega)
    exact ⟨hb, by rw [hw, number]; omega⟩
  have bumped := bumpCursor_processes k i len v
  refine ⟨⟨moved.mono above fun _ no => no, rfl, fun _ _ hs => hs, fun j a ha => ?_,
    fun j a ha => ?_⟩, by rw [bumped, hp.1, Option.map_some, if_pos rfl], sum⟩
  · rw [bumped] at ha
    obtain ⟨b, hb, rfl⟩ := Option.map_eq_some_iff.mp ha
    refine ⟨b, hb, by split <;> rfl, ?_⟩
    split
    case isFalse => exact .inl rfl
    case isTrue same =>
      subst same
      obtain rfl := Option.some.inj (hp.1.symm.trans hb)
      exact .inr ⟨n, sum, by rw [sum]; exact below⟩
  · refine ⟨_, (bumped j).trans (congrArg _ ha), by split <;> rfl, ?_⟩
    split
    case isFalse => exact le_rfl
    case isTrue same =>
      subst same
      obtain rfl := Option.some.inj (hp.1.symm.trans ha)
      show _ ≤ (p.userHeapCursor + len).toNat
      omega

/-- A view that fits lies in the heap. -/
theorem Running.view_room (r : Running R k) (hp : UserProcess k i p)
    (room : ¬ p.userHeapCursor + pagesLength (BitVec.ofNat 64 sec.pageCount) > HEAP_MAX) :
    (pagesLength (BitVec.ofNat 64 sec.pageCount)).toNat = sec.pageCount * PAGE_SIZE ∧
      p.userHeapCursor.toNat + sec.pageCount * PAGE_SIZE ≤ HEAP_MAX.toNat ∧
      ∀ j, j < sec.pageCount → ¬ Shared (p.userHeapCursor + pageAddr j) := by
  have few := sec.bound
  have small : (BitVec.ofNat 64 sec.pageCount : u64).toNat = sec.pageCount := by
    rw [BitVec.toNat_ofNat]
    simp only [MAX_SECTION_PAGES] at few
    omega
  have length := pagesLength_toNat (n := BitVec.ofNat 64 sec.pageCount)
    (by simp only [MAX_SECTION_PAGES] at few; omega)
  rw [small] at length
  obtain ⟨aligned, low, high⟩ := r.cursor i p hp
  have end_ : HEAP_MAX.toNat = 0x580000000 := rfl
  have sum := BitVec.toNat_add p.userHeapCursor (pagesLength (BitVec.ofNat 64 sec.pageCount))
  have less := BitVec.le_def.mp (BitVec.not_lt.mp room)
  have below : p.userHeapCursor.toNat + sec.pageCount * PAGE_SIZE ≤ HEAP_MAX.toNat := by
    simp only [MAX_SECTION_PAGES, PAGE_SIZE] at *
    omega
  refine ⟨length, below, fun j hj => ?_⟩
  obtain ⟨place, -⟩ := heap_page aligned below hj
  have inside : j * PAGE_SIZE < sec.pageCount * PAGE_SIZE :=
    Nat.mul_lt_mul_of_pos_right hj (by decide)
  exact heap_private (by omega) (by omega)

/-- **Mapping a view** puts the section's pages at the heap cursor, which moves past them. -/
theorem ntMapView_step (hg : R.Good shown) (r : Running R k) (hp : UserProcess k i p) (h : u64) :
    HeapStep R k (ntMapView k i h).2 p ∧ ((ntMapView k i h).1 ≠ 0 → ∃ sec p',
      sectionOf k h = some sec ∧ p'.cr3 = p.cr3 ∧ (ntMapView k i h).1 = p.userHeapCursor ∧
        Viewed (ntMapView k i h).2 i p' p.userHeapCursor sec.phys sec.pageCount) := by
  rw [ntMapView, hp.1]
  cases hs : sectionOf k h with
  | none => exact ⟨.refl r p, fun no => absurd rfl no⟩
  | some sec =>
    simp only
    split
    case isTrue => exact ⟨.refl r p, fun no => absurd rfl no⟩
    case isFalse room =>
      obtain ⟨aligned, low, -⟩ := r.cursor i p hp
      obtain ⟨length, below, open_⟩ := r.view_room hp room
      have fits : p.userHeapCursor.toNat +
          (pagesLength (BitVec.ofNat 64 sec.pageCount)).toNat < 2 ^ 64 := by
        have end_ : HEAP_MAX.toNat = 0x580000000 := rfl
        omega
      generalize pagesLength (BitVec.ofNat 64 sec.pageCount) = len at *
      have few := sec.bound
      obtain ⟨moved, mapped⟩ := r.sound.mapViewPages hg sec.phys sec.pageCount 0
        (by omega) (fun j hj => open_ j (by omega)) hp.2
      rw [show (k.bumpCursor i len).vmm = k.loader.sys.vmm from rfl]
      generalize mapViewPages p.cr3 p.userHeapCursor sec.phys sec.pageCount 0 k.loader.sys.vmm = q at *
      obtain ⟨step, here, sum⟩ := bumpCursor_step r hp length fits room moved
      refine ⟨step, fun success => ?_⟩
      split at success
      case isFalse => exact absurd rfl success
      case isTrue all =>
        refine ⟨sec, { p with userHeapCursor := p.userHeapCursor + len }, rfl, rfl, if_pos all,
          ⟨here, hp.2⟩, aligned, low, sum.ge, fun j hj => ?_⟩
        exact mapped all j (Nat.zero_le j) (by omega)

/-- **An allocation** that fits maps new pages at the heap cursor, which moves past them. -/
theorem ntAllocVm_step (hg : R.Good shown) (r : Running R k) (hp : UserProcess k i p) {size : u64}
    (fits : (HeapCall.ntAllocVm size).Fits p) : HeapStep R k (ntAllocVm k i size).2 p := by
  rw [ntAllocVm, hp.1]
  split
  case isTrue => exact .refl r p
  case isFalse =>
    simp only
    split
    case isTrue => exact .refl r p
    case isFalse room =>
      have moved := r.sound.mapZeroed hg p.userHeapCursor (pagesOf size).toNat 0 hp.2
      have fewer : ∀ b w, viewPages p.cr3 p.userHeapCursor 0
          (min (pagesOf size).toNat (freePages k.loader.sys.vmm.pmm)) b w →
          viewPages p.cr3 p.userHeapCursor 0 (pagesOf size).toNat b w := by
        rintro b w ⟨hb, j, h1, h2, hw⟩
        exact ⟨hb, j, h1, by omega, hw⟩
      exact (bumpCursor_step r hp (pagesLength_toNat (pagesOf_lt size)) fits room
        (moved.mono fewer fun _ no => no)).1

/-- **A call that fits** is a step. -/
theorem heapCall_step (hg : R.Good shown) (r : Running R k) (hp : UserProcess k i p)
    (boot : List BootFile) {c : HeapCall} (fits : c.Fits p) :
    HeapStep R k (heapCall boot k i c).2 p := by
  cases c with
  | ntCreateSection size => exact (createSection_step r p size _).1
  | ntMapView handle => exact (ntMapView_step hg r hp handle).1
  | ntAllocVm size => exact ntAllocVm_step hg r hp fits
  | ntCreateFileSection va len =>
    rw [heapCall]
    cases namedFile boot k i va len with
    | none => exact .refl r p
    | some f =>
      simp only [ntCreateFileSection]
      split
      case isTrue => exact .refl r p
      case isFalse => exact (createSection_step r p _ _).1

/-! ## When the calls succeed -/

theorem fillSection_succeeds (content : Nat → Table) (n j : Nat) (phys : Nat → u64) {v : Vmm}
    (plenty : Plenty n v.pmm) :
    (fillSection content n j phys v).1 = true ∧
      Allocs n v.pmm (fillSection content n j phys v).2.2.pmm := by
  induction n generalizing j phys v with
  | zero => exact ⟨rfl, .refl 0 v.pmm⟩
  | succ n ih =>
    have first := plenty _ (.refl _ _)
    have more : Plenty n (allocPage v.pmm).2 := Plenty.after (Nat.add_comm n 1 ▸ plenty) (.one _)
    rw [fillSection]
    simp only [if_neg first]
    obtain ⟨success, taken⟩ := ih (j + 1) (Function.update phys j (allocPage v.pmm).1)
      (v := { v with pmm := (allocPage v.pmm).2
                     mem := fill v.mem (allocPage v.pmm).1 (content j) }) more
    exact ⟨success, Nat.add_comm 1 n ▸ (Allocs.one v.pmm).trans taken⟩

/-- A section is created in the first free slot. -/
theorem createSection_succeeds {size : u64} {slot : Fin SECTION_SLOTS} (content : Nat → Table)
    (fits : ¬ (size = 0 ∨ (pagesOf size).toNat > MAX_SECTION_PAGES))
    (free : freeSection k = some slot) (plenty : Plenty (pagesOf size).toNat k.vmm.pmm) :
    (createSection k size content).1 = BitVec.ofNat 64 (slot.val + 1) ∧
      (createSection k size content).2.processes = k.processes ∧
      Allocs (pagesOf size).toNat k.vmm.pmm (createSection k size content).2.vmm.pmm := by
  obtain ⟨success, taken⟩ := fillSection_succeeds content (pagesOf size).toNat 0
    (k.sections slot).phys plenty
  rw [createSection, dif_neg fits, free]
  simp only [success, if_true, true_and]
  exact ⟨rfl, taken⟩

/-- A view that can be mapped is at the cursor. -/
theorem ntMapView_succeeds (hp : k.processes[i]? = some p) (hs : sectionOf k h = some sec)
    (room : ¬ p.userHeapCursor + pagesLength (BitVec.ofNat 64 sec.pageCount) > HEAP_MAX)
    (mapped : (mapViewPages p.cr3 p.userHeapCursor sec.phys sec.pageCount 0 k.vmm).1 = true) :
    ntMapView k i h = (p.userHeapCursor,
      (k.bumpCursor i (pagesLength (BitVec.ofNat 64 sec.pageCount))).withVmm
        (mapViewPages p.cr3 p.userHeapCursor sec.phys sec.pageCount 0 k.vmm).2) := by
  rw [ntMapView, hs, hp]
  simp only [if_neg room]
  rw [show (k.bumpCursor i (pagesLength (BitVec.ofNat 64 sec.pageCount))).vmm = k.vmm from rfl,
    if_pos mapped]

/-- Two pages of one page table are mapped if the first is. -/
theorem mapViewPages_two (hg : R.Good shown) {s : System} {a : u64} (phys : Nat → u64) (sound : Sound R s)
    (null : NullPage s) (ha : a ∈ s.spaces) (i4 : pml4Idx (va + pageAddr 1) = pml4Idx (va + pageAddr 0))
    (i3 : pdptIdx (va + pageAddr 1) = pdptIdx (va + pageAddr 0))
    (i2 : pdIdx (va + pageAddr 1) = pdIdx (va + pageAddr 0))
    (first : (mapPageInto s.vmm a (va + pageAddr 0) (phys 0) (userFlags true)).1 = true) :
    (mapViewPages a va phys 2 0 s.vmm).1 = true := by
  obtain ⟨moved, pte, -⟩ := sound.mapPageInto hg ha (va + pageAddr 0) (phys 0) true
  have present : has (getPteInto (mapPageInto s.vmm a (va + pageAddr 0) (phys 0)
      (userFlags true)).2.mem a (va + pageAddr 0)) PTE_PRESENT = true := by
    rw [pte first]
    exact leafEntry_present _ _
  have second := Sound.mapPageInto_again (null.moves moved) ha present i4 i3 i2 (phys 1)
    (userFlags true)
  rw [mapViewPages, if_pos first, mapViewPages, if_pos second]
  rfl

end

end MicroNT.Kernel
