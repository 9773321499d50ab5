import MicroNT.FileSections
import MicroNT.PageFrames

/-! # Mapping and unmapping views (`syscall.cpp`)

`NtUnmapViewOfSection` is given an address only. It takes the view for one of the section
whose first page is what the address is translated to, and takes away as many pages as
that section has. -/

namespace MicroNT.Kernel

open MicroNT.PMM hiding step Op System
open MicroNT.VMM MicroNT.Boot MicroNT.Base.Radix MicroNT.Base.Machine
open FileIo (BootFile)

/-! ## The call -/

/-- The loop over the pages of the section, from page `j` on. -/
def unmapPages (pml4 va : u64) : Nat → Nat → Vmm → Vmm
  | 0, _, s => s
  | n + 1, j, s => unmapPages pml4 va n (j + 1) (unmapPageFrom s pml4 (va + pageAddr j))

/-- The section begins with the page that the address is translated to. -/
def KSection.beginsAt (sec : KSection) (phys : u64) : Bool :=
  sec.inUse && decide (phys ≠ 0 ∧ phys = sec.phys 0)

/-- Unmapping changes the translation only once a section is found, so the loop looks for
the section with the translation of before. -/
def ntUnmapView (k : NtState) (i : Nat) (a1 : u64) : Status × NtState :=
  match k.processes[i]? with
  | none => (.invalidParameter, k)
  | some p =>
    match (List.finRange SECTION_SLOTS).find? fun slot =>
        (k.sections slot).beginsAt (translateInPml4 k.vmm.mem p.cr3 a1) with
    | none => (.notFound, k)
    | some slot =>
      (.success, k.withVmm (unmapPages p.cr3 a1 (k.sections slot).pageCount 0 k.vmm))

/-! ## Runs -/

/-- Where a process has a view of a section. The view is whole unless its mapping stopped
half-way. -/
structure ViewAt where
  process : Nat
  handle : u64
  va : u64
  whole : Bool

/-- The kernel, with the views that are there. -/
structure Viewing where
  nt : NtState
  views : List ViewAt

/-- A call on the heap or on sections, an unmapping, a change of protection, a new process,
another page of a process (a TEB, or a page of an image), or a page for the kernel. The stack
of a new thread is an allocation of four pages. -/
inductive ViewEvent
  | call (i : Nat) (c : HeapCall)
  | ntUnmapView (i : Nat) (a1 : u64)
  | ntProtectVm (i : Nat) (a1 a2 a3 : u64)
  | createProcess (pages : Nat → Table)
  | setupPage (i : Nat) (va : u64) (page : Table)
  | mapFresh (i : Nat) (va : u64) (writable : Bool) (page : Table)
  | allocPage

/-- What `NtMapViewOfSection` leaves in the address space: the view that it returns, or, if
its mapping failed, one whose first page is in place. -/
def newView (k : NtState) (i : Nat) (r : u64 × NtState) : HeapCall → Option ViewAt
  | .ntMapView handle =>
    match sectionOf k handle, k.processes[i]? with
    | some sec, some p =>
      if r.1 ≠ 0 then some ⟨i, handle, r.1, true⟩
      else if translateInPml4 r.2.vmm.mem p.cr3 p.userHeapCursor = sec.phys 0 then
        some ⟨i, handle, p.userHeapCursor, false⟩
      else none
    | _, _ => none
  | _ => none

/-- The view of process `i` starts at the address, and all its pages are mapped. -/
def ViewAt.Starts (y : ViewAt) (i : Nat) (a1 : u64) : Prop :=
  y.process = i ∧ y.va = a1 ∧ y.whole = true

instance (y : ViewAt) (i : Nat) (a1 : u64) : Decidable (y.Starts i a1) :=
  inferInstanceAs (Decidable (_ ∧ _))

/-- A step. A process that makes a call has an address space of its own. -/
def stepViews (boot : List BootFile) (w : Viewing) : ViewEvent → Option Viewing
  | .call i c => caller i fun _ =>
    let r := heapCall boot w.nt i c
    ⟨r.2, (newView w.nt i r c).toList ++ w.views⟩
  | .ntUnmapView i a1 => caller i fun _ =>
    ⟨(ntUnmapView w.nt i a1).2, w.views.filter fun y => ¬ y.Starts i a1⟩
  | .ntProtectVm i a1 a2 a3 => caller i fun p =>
    { w with nt := w.nt.withVmm (ntProtectVm w.nt.vmm p.cr3 a1 a2 a3) }
  | .createProcess pages => some { w with nt := newProcess w.nt pages }
  | .setupPage i va page => caller i fun p =>
    { w with nt := w.nt.withVmm (Kernel.setupPage w.nt.vmm p.cr3 va page).2 }
  | .mapFresh i va writable page => caller i fun p =>
    { w with nt := w.nt.withVmm (Kernel.mapFresh w.nt.vmm p.cr3 va (userFlags writable) page).2 }
  | .allocPage => some { w with nt := w.nt.withVmm { w.nt.vmm with
      pmm := (PMM.allocPage w.nt.vmm.pmm).2 } }
where
  caller (i : Nat) (next : Process → Viewing) : Option Viewing :=
    match w.nt.processes[i]? with
    | none => none
    | some p => if p.cr3 ∈ w.nt.loader.sys.spaces then some (next p) else none

/-- After boot no section is in use. What closed sections held, the self test's among them,
may still be in their slots. -/
def startViews (v : Vmm) (heap : KernelHeap) (closed : Fin SECTION_SLOTS → KSection) : Viewing :=
  ⟨{ startNt v heap with sections := closed }, []⟩

/-! ## What is promised -/

/-- The pages of the view at `va` are gone, and nothing else is. -/
structure Unmaps (k : NtState) (i : Nat) (p : Process) (va : u64) (n : Nat) : Prop where
  status : (ntUnmapView k i va).1 = .success
  mapped : ∀ x, x < n * PAGE_SIZE → translateInPml4 k.vmm.mem p.cr3 (va + BitVec.ofNat 64 x) ≠ 0
  gone : ∀ x, x < n * PAGE_SIZE →
    translateInPml4 (ntUnmapView k i va).2.vmm.mem p.cr3 (va + BitVec.ofNat 64 x) = 0
  others : ∀ b, k.loader.sys.IsSpace b → ∀ w, ¬ viewPages p.cr3 va 0 n b w →
    translateInPml4 (ntUnmapView k i va).2.vmm.mem b w = translateInPml4 k.vmm.mem b w
  contents : ∀ h sec, sectionOf k h = some sec → sectionOf (ntUnmapView k i va).2 h = some sec ∧
    ∀ j, j < sec.pageCount → (ntUnmapView k i va).2.vmm.mem (sec.phys j) = k.vmm.mem (sec.phys j)

/-- Unmapping at the start of a view takes the view away, and elsewhere does nothing. -/
def Restores (w : Viewing) : ViewEvent → Prop
  | .ntUnmapView i a1 => ∀ p, UserProcess w.nt i p →
    (∀ y ∈ w.views, y.Starts i a1 → ∃ sec, sectionOf w.nt y.handle = some sec ∧
      0 < sec.pageCount ∧ Unmaps w.nt i p a1 sec.pageCount) ∧
    ((∀ y ∈ w.views, ¬ y.Starts i a1) → (ntUnmapView w.nt i a1).2 = w.nt)
  | _ => True

/-- The size of the section that a call asks for. -/
def sectionSize (boot : List BootFile) (k : NtState) (i : Nat) : HeapCall → Option u64
  | .ntCreateSection size => some size
  | .ntCreateFileSection va len => (namedFile boot k i va len).map fun f => BitVec.ofNat 64 f.size
  | _ => none

/-- The page is in no whole view of process `i`. -/
def Viewing.Apart (w : Viewing) (i : Nat) (va : u64) : Prop :=
  ∀ y ∈ w.views, y.process = i → y.whole = true → ∀ sec, sectionOf w.nt y.handle = some sec →
    ∀ j, j < sec.pageCount → vpn va ≠ vpn (y.va + pageAddr j)

/-- What keeps views apart. -/
def Plain (boot : List BootFile) (w : Viewing) : ViewEvent → Prop
  -- the lengths do not wrap
  | .call i c => (∀ p, w.nt.processes[i]? = some p → c.Fits p) ∧
    ∀ size, sectionSize boot w.nt i c = some size → size ≠ 0 → pagesOf size ≠ 0
  | .ntUnmapView i a1 => ∀ p, UserProcess w.nt i p →
    -- an address that the walk takes for the start of a view is the start of a whole one
    (∀ y ∈ w.views, y.process = i → walked a1 = y.va.toNat → y.whole = true ∧ y.va = a1) ∧
    -- and where the identity map shows a section, its pages have no entries
    ∀ h sec, sectionOf w.nt h = some sec → Low a1 → (sec.phys 0).toNat = walked a1 →
      ∀ j, j < sec.pageCount → getPteInto w.nt.vmm.mem p.cr3 (a1 + pageAddr j) = 0
  | .setupPage i va _ => w.Apart i va
  | .mapFresh i va _ _ => w.Apart i va
  | _ => True

/-! ## The pages of one view -/

section

variable {R : Rows} {shown : Bool} {s : System} {p va : u64} {n : Nat}

/-- **The loop that unmaps a view** is about the pages of the view only. -/
theorem Sound.unmapPages (hg : R.Good shown) (n j : Nat) (hn : j + n ≤ MAX_SECTION_PAGES)
    (own : ∀ k, k < j + n → ¬ Shared (va + pageAddr k)) (h : Sound R s) (hp : p ∈ s.spaces) :
    Moves R (viewPages p va j n) noFrames s { s with vmm := Kernel.unmapPages p va n j s.vmm } ∧
      (∀ k, j ≤ k → k < j + n →
        getPteInto (Kernel.unmapPages p va n j s.vmm).mem p (va + pageAddr k) = 0) ∧
      ∀ b, s.IsSpace b → ∀ w, ¬ viewPages p va j n b w →
        getPteInto (Kernel.unmapPages p va n j s.vmm).mem b w = getPteInto s.vmm.mem b w ∧
          translateInPml4 (Kernel.unmapPages p va n j s.vmm).mem b w =
            translateInPml4 s.vmm.mem b w := by
  induction n generalizing j s with
  | zero => exact ⟨.refl h _ _, fun k h1 h2 => absurd h2 (by omega), fun _ _ _ _ => ⟨rfl, rfl⟩⟩
  | succ n ih =>
    rw [Kernel.unmapPages]
    obtain ⟨moved, same⟩ := h.unmapPageFrom_moves hg hp (own j (by omega))
    obtain ⟨here, -⟩ := h.unmapPageFrom hp (va + pageAddr j)
    have first : ∀ b w, onlyPage p (va + pageAddr j) b w → viewPages p va j (n + 1) b w :=
      fun b w hw => ⟨hw.1, j, le_rfl, by omega, hw.2⟩
    have rest : ∀ b w, viewPages p va (j + 1) n b w → viewPages p va j (n + 1) b w := by
      rintro b w ⟨hb, k, h1, h2, hw⟩
      exact ⟨hb, k, by omega, by omega, hw⟩
    have kernel := moved.kernel
    generalize VMM.unmapPageFrom s.vmm p (va + pageAddr j) = v at *
    obtain ⟨later, cleared, others⟩ := ih (j + 1) (by omega) (fun k hk => own k (by omega))
      moved.sound hp
    refine ⟨(moved.mono first fun _ no => no).trans (later.mono rest fun _ no => no),
      fun k h1 h2 => ?_, fun b hb w apart => ?_⟩
    · rcases Nat.lt_or_eq_of_le h1 with h1 | rfl
      · exact cleared k h1 (by omega)
      · refine (others p (.inr hp) _ ?_).1.trans here
        rintro ⟨-, k, h3, h4, page⟩
        simp only [MAX_SECTION_PAGES] at hn
        exact vpn_pageAddr_ne va (by omega) (by omega) (by omega : j ≠ k) page
    · have space : System.IsSpace { s with vmm := v } b := hb.imp (fun e => e.trans kernel.symm) id
      obtain ⟨e1, t1⟩ := others b space w fun no => apart (rest b w no)
      obtain ⟨e2, t2⟩ := same b hb w fun no => apart (first b w no)
      exact ⟨e1.trans e2, t1.trans t2⟩

/-- Pages without entries are left as they are. -/
theorem unmapPages_blank (n j : Nat) {v : Vmm}
    (blank : ∀ k, j ≤ k → k < j + n → getPteInto v.mem p (va + pageAddr k) = 0) :
    unmapPages p va n j v = v := by
  induction n generalizing j with
  | zero => rfl
  | succ n ih =>
    have first : unmapPageFrom v p (va + pageAddr j) = v := by
      have here := blank j le_rfl (by omega)
      rw [unmapPageFrom]
      cases hpt : pageTable v.mem p (va + pageAddr j) with
      | none => rfl
      | some pt =>
        rw [getPteInto, hpt] at here
        have same : write v.mem pt (ptIdx (va + pageAddr j)) 0 = v.mem := by
          rw [← here, write, Function.update_eq_self, Function.update_eq_self]
        simp only [same]
    rw [unmapPages, first]
    exact ih (j + 1) fun k h1 h2 => blank k (by omega) (by omega)

end

/-! ## What every run keeps -/

/-- The frame is page `j` of the section in a slot. -/
structure Holds (k : NtState) (slot : Fin SECTION_SLOTS) (j : Nat) (f : u64) : Prop where
  inUse : (k.sections slot).inUse = true
  page : j < (k.sections slot).pageCount
  frame : (k.sections slot).phys j = f

/-- The view lies below the heap cursor of its process, and shows the section if it is whole. -/
structure InHeap (k : NtState) (y : ViewAt) (slot : Fin SECTION_SLOTS) (p : Process) : Prop where
  handle : y.handle = BitVec.ofNat 64 (slot.val + 1)
  inUse : (k.sections slot).inUse = true
  user : UserProcess k y.process p
  aligned : y.va.toNat % PAGE_SIZE = 0
  low : HEAP_START.toNat ≤ y.va.toNat
  below : y.va.toNat + (k.sections slot).pageCount * PAGE_SIZE ≤ p.userHeapCursor.toNat
  pages : y.whole = true → ∀ j, j < (k.sections slot).pageCount →
    frameOf k.vmm.mem p.cr3 (y.va + pageAddr j) = some ((k.sections slot).phys j)

/-- Sections have frames of their own, which only their views show. -/
structure Kept (R : Rows) (w : Viewing) : Prop where
  running : Running R w.nt
  nonempty : ∀ slot, (w.nt.sections slot).inUse = true → 0 < (w.nt.sections slot).pageCount
  data : ∀ slot j f, Holds w.nt slot j f → ∃ page, DataPage w.nt.loader.sys f page
  once : ∀ slot j slot' j' f, Holds w.nt slot j f → Holds w.nt slot' j' f → slot = slot' ∧ j = j'
  shared : ∀ x, Shared x → ∀ f, frameOf w.nt.vmm.mem w.nt.vmm.pml4Phys x = some f →
    (Used w.nt.vmm f ∧ ∀ slot j, ¬ Holds w.nt slot j f) ∨ Low x ∧ f.toNat = walkedPage x
  shown : ∀ b ∈ w.nt.loader.sys.spaces, ∀ x, ¬ Shared x → ∀ f,
    frameOf w.nt.vmm.mem b x = some f → Used w.nt.vmm f ∧ ∀ slot j, Holds w.nt slot j f →
      ∃ y ∈ w.views, ∃ p, InHeap w.nt y slot p ∧ p.cr3 = b ∧ vpn x = vpn (y.va + pageAddr j)
  placed : ∀ y ∈ w.views, ∃ slot p, InHeap w.nt y slot p

section

variable {R : Rows} {shown : Bool} {k k' : NtState} {w : Viewing} {y z : ViewAt} {i j : Nat}
  {slot slot' : Fin SECTION_SLOTS} {p q : Process} {a1 f : u64}

/-- The pages of a view are private. -/
theorem InHeap.page (h : InHeap k y slot p) (r : Running R k)
    (hj : j < (k.sections slot).pageCount) :
    ¬ Shared (y.va + pageAddr j) ∧
      (y.va + pageAddr j).toNat = y.va.toNat + j * PAGE_SIZE ∧
      (vpn (y.va + pageAddr j)).toNat = y.va.toNat / PAGE_SIZE + j := by
  obtain ⟨-, -, high⟩ := r.cursor _ p h.user
  have below := h.below.trans high
  obtain ⟨place, number⟩ := heap_page h.aligned below hj
  have inside : j * PAGE_SIZE < (k.sections slot).pageCount * PAGE_SIZE :=
    Nat.mul_lt_mul_of_pos_right hj (by decide)
  have low := h.low
  exact ⟨heap_private (by omega) (by omega), place, number⟩

/-- The section of a view. -/
theorem InHeap.section_ (h : InHeap k y slot p) : sectionOf k y.handle = some (k.sections slot) := by
  rw [h.handle, sectionOf_handle, if_pos h.inUse]

/-- Two whole views that show one frame in one page are views of one section at one place. -/
theorem Kept.same_view (h : Kept R w) (hy : InHeap w.nt y slot p) (hz : InHeap w.nt z slot' q)
    (wy : y.whole = true) (wz : z.whole = true) (space : p.cr3 = q.cr3) {l : Nat}
    (hj : j < (w.nt.sections slot).pageCount) (hl : l < (w.nt.sections slot').pageCount)
    (page : vpn (y.va + pageAddr j) = vpn (z.va + pageAddr l)) :
    slot = slot' ∧ y.va = z.va ∧ y.process = z.process := by
  have one := hy.pages wy j hj
  rw [frameOf_congr page, space, hz.pages wz l hl] at one
  obtain ⟨rfl, rfl⟩ := h.once slot j slot' l _ ⟨hy.inUse, hj, rfl⟩
    ⟨hz.inUse, hl, Option.some.inj one⟩
  obtain ⟨-, -, ny⟩ := hy.page h.running hj
  obtain ⟨-, -, nz⟩ := hz.page h.running hl
  refine ⟨rfl, BitVec.eq_of_toNat_eq ?_, h.running.own _ _ p q hy.user hz.user space⟩
  have number := congrArg BitVec.toNat page
  have a1 := hy.aligned
  have a2 := hz.aligned
  simp only [PAGE_SIZE] at *
  omega

end

/-! ## Unmapping -/

section

variable {R : Rows} {shown : Bool} {k : NtState} {w : Viewing} {y : ViewAt} {i : Nat}
  {slot : Fin SECTION_SLOTS} {p : Process} {a1 : u64}

/-- The section that the loop finds. -/
theorem beginsAt_iff {sec : KSection} {phys : u64} :
    sec.beginsAt phys = true ↔ sec.inUse = true ∧ phys ≠ 0 ∧ phys = sec.phys 0 := by
  rw [KSection.beginsAt, Bool.and_eq_true, decide_eq_true_eq]

theorem ntUnmapView_found (hp : k.processes[i]? = some p)
    (found : (List.finRange SECTION_SLOTS).find? (fun slot =>
      (k.sections slot).beginsAt (translateInPml4 k.vmm.mem p.cr3 a1)) = some slot) :
    ntUnmapView k i a1 = (.success,
      k.withVmm (unmapPages p.cr3 a1 (k.sections slot).pageCount 0 k.vmm)) := by
  simp only [ntUnmapView, hp, found]

/-- Only one section begins with a frame. -/
theorem Kept.found (h : Kept R w) {phys : u64} (begins : (w.nt.sections slot).beginsAt phys = true) :
    (List.finRange SECTION_SLOTS).find? (fun slot => (w.nt.sections slot).beginsAt phys) =
      some slot := by
  cases found : (List.finRange SECTION_SLOTS).find? fun slot =>
      (w.nt.sections slot).beginsAt phys with
  | none => exact absurd begins (List.find?_eq_none.mp found slot (List.mem_finRange slot))
  | some other =>
    obtain ⟨used, -, first⟩ := beginsAt_iff.mp begins
    have begins' := List.find?_some found
    obtain ⟨used', -, first'⟩ := beginsAt_iff.mp begins'
    obtain ⟨rfl, -⟩ := h.once slot 0 other 0 phys ⟨used, h.nonempty slot used, first.symm⟩
      ⟨used', h.nonempty other used', first'.symm⟩
    rfl

/-- Byte `x` of a view lies in one of its pages. -/
theorem InHeap.byte (h : InHeap k y slot p) (r : Running R k) {x : Nat}
    (hx : x < (k.sections slot).pageCount * PAGE_SIZE) :
    x / PAGE_SIZE < (k.sections slot).pageCount ∧
      vpn (y.va + BitVec.ofNat 64 x) = vpn (y.va + pageAddr (x / PAGE_SIZE)) ∧
      ¬ Shared (y.va + BitVec.ofNat 64 x) := by
  obtain ⟨page, offset, place⟩ := view_byte y.va hx
  obtain ⟨own, number, -⟩ := h.page r page
  have aligned : (y.va + pageAddr (x / PAGE_SIZE)).toNat % PAGE_SIZE = 0 := by
    rw [number, Nat.add_mul_mod_self_right]
    exact h.aligned
  have same : vpn (y.va + BitVec.ofNat 64 x) = vpn (y.va + pageAddr (x / PAGE_SIZE)) := by
    rw [place]
    exact vpn_add_offset aligned (offset_lt offset).1
  exact ⟨page, same, fun shared => own ((shared_congr same).mp shared)⟩

/-- **The start of a whole view** is translated to the first frame of its section. -/
theorem Kept.start (h : Kept R w) (hy : InHeap w.nt y slot p) (whole : y.whole = true) :
    (w.nt.sections slot).beginsAt (translateInPml4 w.nt.vmm.mem p.cr3 y.va) = true := by
  have some := h.nonempty slot hy.inUse
  obtain ⟨page, data⟩ := h.data slot 0 _ ⟨hy.inUse, some, rfl⟩
  have first := hy.pages whole 0 some
  rw [show y.va + pageAddr 0 = y.va from BitVec.add_zero _] at first
  have there : translateInPml4 w.nt.vmm.mem p.cr3 y.va = (w.nt.sections slot).phys 0 := by
    rw [translate_some first]
    refine BitVec.eq_of_toNat_eq ?_
    rw [frame_offset (frameOf_isFrame first), hy.aligned, Nat.add_zero]
  exact beginsAt_iff.mpr ⟨hy.inUse, there ▸ data.nonzero, there⟩

/-- **Unmapping at the start of a view** takes its pages away, and nothing else. -/
theorem Kept.unmaps (h : Kept R w) (hg : R.Good shown) (hy : InHeap w.nt y slot p)
    (whole : y.whole = true) :
    Unmaps w.nt y.process p y.va (w.nt.sections slot).pageCount := by
  have own : ∀ j, j < 0 + (w.nt.sections slot).pageCount → ¬ Shared (y.va + pageAddr j) :=
    fun j hj => (hy.page h.running (by omega)).1
  obtain ⟨moved, cleared, others⟩ := h.running.sound.unmapPages hg (w.nt.sections slot).pageCount 0
    (by have := (w.nt.sections slot).bound; omega) own hy.user.2
  have call := ntUnmapView_found hy.user.1 (h.found (h.start hy whole))
  refine ⟨?_, fun x hx => ?_, fun x hx => ?_, fun b hb v apart => ?_, fun a sec found => ?_⟩
  · rw [call]
  · obtain ⟨page, same, -⟩ := hy.byte h.running hx
    obtain ⟨_, data⟩ := h.data slot _ _ ⟨hy.inUse, page, rfl⟩
    have there := (frameOf_congr same).trans (hy.pages whole _ page)
    rw [translate_some there]
    intro zero
    refine data.nonzero (BitVec.eq_of_toNat_eq ?_)
    have sum := congrArg BitVec.toNat zero
    rw [frame_offset (frameOf_isFrame there)] at sum
    have none : (0 : u64).toNat = 0 := rfl
    omega
  · obtain ⟨page, same, private_⟩ := hy.byte h.running hx
    have gone := cleared _ (Nat.zero_le _) (by omega : x / PAGE_SIZE < 0 + _)
    have none := (frameOf_congr same).trans (frameOf_none gone)
    rw [call]
    refine (moved.sound.translate_frame hg hy.user.2 fun low => private_ (.inl low)).trans ?_
    exact congrArg (fun f : Option u64 => f.elim 0 _) none
  · rw [call]
    exact (others b hb v apart).2
  · rw [call]
    obtain ⟨slot', rfl, used, rfl⟩ := sectionOf_slot found
    refine ⟨found, fun j hj => ?_⟩
    obtain ⟨_, data⟩ := h.data slot' j _ ⟨used, hj, rfl⟩
    exact moved.frames _ data.used data.data id

/-- The frame and the offset of an address that is translated to a frame. -/
theorem offset_zero {f g : u64} (hf : IsFrame f) (hg : IsFrame g)
    (same : f ||| (a1 &&& 0xFFF#64) = g) : a1.toNat % PAGE_SIZE = 0 ∧ f = g := by
  have sum := congrArg BitVec.toNat same
  rw [frame_offset hf] at sum
  obtain ⟨df, -⟩ := (isFrame_iff f).mp hf
  obtain ⟨dg, -⟩ := (isFrame_iff g).mp hg
  have zero : a1.toNat % PAGE_SIZE = 0 := by
    simp only [PAGE_SIZE] at *
    omega
  exact ⟨zero, BitVec.eq_of_toNat_eq (by omega)⟩

/-- **Unmapping elsewhere** does nothing. -/
theorem Kept.elsewhere (h : Kept R w) (hg : R.Good shown) {boot : List BootFile}
    (plain : Plain boot w (.ntUnmapView i a1)) (user : UserProcess w.nt i p)
    (none : ∀ y ∈ w.views, ¬ y.Starts i a1) : (ntUnmapView w.nt i a1).2 = w.nt := by
  obtain ⟨starts, identity⟩ := plain p user
  cases found : (List.finRange SECTION_SLOTS).find? fun slot =>
      (w.nt.sections slot).beginsAt (translateInPml4 w.nt.vmm.mem p.cr3 a1) with
  | none => simp only [ntUnmapView, user.1, found]
  | some slot =>
    have begins := List.find?_some found
    obtain ⟨used, nonzero, first⟩ := beginsAt_iff.mp begins
    have some := h.nonempty slot used
    have holds : Holds w.nt slot 0 ((w.nt.sections slot).phys 0) := ⟨used, some, rfl⟩
    obtain ⟨_, data⟩ := h.data slot 0 _ holds
    have blank : Low a1 → ((w.nt.sections slot).phys 0).toNat = walked a1 →
        (ntUnmapView w.nt i a1).2 = w.nt := by
      intro low same
      have section_ := sectionOf_handle w.nt slot
      rw [if_pos used] at section_
      rw [ntUnmapView_found user.1 found, unmapPages_blank _ 0 fun j _ hj =>
        identity _ _ section_ low same j (by omega)]
      rfl
    -- a page with an entry is in no view that starts elsewhere
    have entry : ∀ f, frameOf w.nt.vmm.mem p.cr3 a1 = Option.some f →
        f ||| (a1 &&& 0xFFF#64) = (w.nt.sections slot).phys 0 →
        (ntUnmapView w.nt i a1).2 = w.nt := by
      intro f hf there
      obtain ⟨aligned, rfl⟩ := offset_zero (frameOf_isFrame hf) data.frame there
      by_cases shared : Shared a1
      case pos =>
        have kernel := h.running.sound.shared_pte hg user.2 shared
        rcases h.shared a1 shared _ ((frameOf_entry kernel).symm.trans hf) with
          ⟨-, free⟩ | ⟨low, same⟩
        · exact absurd holds (free slot 0)
        · refine blank low (same.trans ?_)
          rw [walkedPage]
          simp only [walked, PAGE_SIZE] at *
          omega
      case neg =>
        obtain ⟨-, views⟩ := h.shown p.cr3 user.2 a1 shared _ hf
        obtain ⟨y, hy, q, inHeap, space, page⟩ := views slot 0 holds
        have same := h.running.own _ _ q p inHeap.user user space
        rw [show y.va + pageAddr 0 = y.va from BitVec.add_zero _] at page
        have at_ := walked_of_vpn page aligned inHeap.aligned
        have below : y.va.toNat < 2 ^ 48 := by
          obtain ⟨-, -, high⟩ := h.running.cursor _ q inHeap.user
          have below := inHeap.below
          have end_ : HEAP_MAX.toNat = 0x580000000 := rfl
          omega
        obtain ⟨whole, start⟩ := starts y hy same (at_.trans (Nat.mod_eq_of_lt below))
        exact absurd ⟨same, start, whole⟩ (none y hy)
    by_cases low : Low a1
    case neg =>
      have there := h.running.sound.translate_frame hg user.2 low
      cases frame : frameOf w.nt.vmm.mem p.cr3 a1 with
      | none =>
        have zero : translateInPml4 w.nt.vmm.mem p.cr3 a1 = 0 :=
          there.trans (congrArg (fun f : Option u64 => f.elim 0 _) frame)
        exact absurd zero nonzero
      | some f => exact entry f frame ((translate_some frame).symm.trans first)
    case pos =>
      cases table : pageTable w.nt.vmm.mem p.cr3 a1 with
      | none =>
        have huge := h.running.sound.translate_huge hg user.2 low table
        exact blank low ((congrArg BitVec.toNat first).symm.trans huge)
      | some pt =>
        obtain ⟨pdpt, pd, way⟩ := pageTable_eq_some.mp table
        cases frame : frameOf w.nt.vmm.mem p.cr3 a1 with
        | none =>
          refine absurd ?_ nonzero
          rw [way.translate, if_neg]
          intro present
          rw [frameOf, way.getPteInto, if_pos present] at frame
          cases frame
        | some f => exact entry f frame ((translate_some frame).symm.trans first)

/-- **Unmapping does what it promises.** -/
theorem Kept.restores (h : Kept R w) (hg : R.Good shown) {boot : List BootFile} {e : ViewEvent}
    (plain : Plain boot w e) : Restores w e := by
  cases e with
  | call i c => trivial
  | ntProtectVm i a1 a2 a3 => trivial
  | createProcess pages => trivial
  | setupPage i va page => trivial
  | mapFresh i va writable page => trivial
  | allocPage => trivial
  | ntUnmapView i a1 =>
    refine fun p user => ⟨fun y hy => ?_, h.elsewhere hg plain user⟩
    rintro ⟨rfl, rfl, whole⟩
    obtain ⟨slot, q, inHeap⟩ := h.placed y hy
    obtain rfl := Option.some.inj (user.1.symm.trans inHeap.user.1)
    exact ⟨_, inHeap.section_, h.nonempty slot inHeap.inUse, h.unmaps hg inHeap whole⟩

end

/-! ## Steps that show no section -/

section

variable {R : Rows} {shown : Bool} {P : u64 → u64 → Prop} {k k' : NtState} {w : Viewing}
  {y : ViewAt} {i j : Nat} {slot : Fin SECTION_SLOTS} {p : Process} {f : u64}

/-- A view stays while its pages keep their frames. -/
theorem InHeap.next (h : InHeap k y slot p) (spaces : ∀ b ∈ k.loader.sys.spaces,
      b ∈ k'.loader.sys.spaces) (section_ : k'.sections slot = k.sections slot)
    (alive : ∃ q : Process, k'.processes[y.process]? = some q ∧ q.cr3 = p.cr3 ∧
      p.userHeapCursor.toNat ≤ q.userHeapCursor.toNat)
    (pages : y.whole = true → ∀ j, j < (k.sections slot).pageCount →
      frameOf k'.vmm.mem p.cr3 (y.va + pageAddr j) =
        frameOf k.vmm.mem p.cr3 (y.va + pageAddr j)) :
    ∃ q, InHeap k' y slot q ∧ q.cr3 = p.cr3 := by
  obtain ⟨q, found, same, cursor⟩ := alive
  refine ⟨q, ⟨h.handle, section_ ▸ h.inUse, ⟨found, same ▸ spaces _ h.user.2⟩, h.aligned, h.low, ?_,
    fun whole j hj => ?_⟩, same⟩
  · rw [section_]
    exact h.below.trans cursor
  · rw [section_] at hj ⊢
    rw [same, pages whole j hj]
    exact h.pages whole j hj

/-- The frames of sections are in use. -/
theorem Kept.holds_used (h : Kept R w) (holds : Holds w.nt slot j f) : Used w.nt.vmm f :=
  (h.data slot j f holds).elim fun _ data => data.used

theorem Holds.of_sections (same : k'.sections = k.sections) (h : Holds k' slot j f) :
    Holds k slot j f := by
  obtain ⟨used, page, frame⟩ := h
  rw [same] at used page frame
  exact ⟨used, page, frame⟩

/-- **A step that maps new pages** and leaves the sections and the pages of whole views alone. -/
theorem Kept.quiet (h : Kept R w) (running : Running R k')
    (moved : Moves R P noFrames w.nt.loader.sys k'.loader.sys)
    (fills : Fills w.nt.loader.sys k'.loader.sys) (sections : k'.sections = w.nt.sections)
    (alive : ∀ (j : Nat) (q : Process), w.nt.processes[j]? = some q → ∃ q' : Process,
      k'.processes[j]? = some q' ∧ q'.cr3 = q.cr3 ∧
        q.userHeapCursor.toNat ≤ q'.userHeapCursor.toNat)
    (pages : ∀ y ∈ w.views, ∀ slot p, InHeap w.nt y slot p → y.whole = true → ∀ j,
      j < (w.nt.sections slot).pageCount → frameOf k'.vmm.mem p.cr3 (y.va + pageAddr j) =
        frameOf w.nt.vmm.mem p.cr3 (y.va + pageAddr j)) : Kept R { w with nt := k' } := by
  have next : ∀ y ∈ w.views, ∀ slot p, InHeap w.nt y slot p →
      ∃ q, InHeap k' y slot q ∧ q.cr3 = p.cr3 := fun y hy slot p inHeap =>
    inHeap.next moved.spaces (congrFun sections slot) (alive _ p inHeap.user.1)
      (pages y hy slot p inHeap)
  refine ⟨running, fun slot used => ?_, fun slot j f holds => ?_, fun a j b l f h1 h2 => ?_,
    fun x shared f hf => ?_, fun b hb x private_ f hf => ?_, fun y hy => ?_⟩
  · simp only [sections] at used ⊢
    exact h.nonempty slot used
  · obtain ⟨page, data⟩ := h.data slot j f (holds.of_sections sections)
    exact ⟨page, data.moves moved⟩
  · exact h.once a j b l f (h1.of_sections sections) (h2.of_sections sections)
  · rcases fills.shared x shared f hf with old | ⟨free, used⟩
    · refine (h.shared x shared f old).imp_left fun ⟨used, free⟩ => ⟨moved.used used, ?_⟩
      exact fun slot j holds => free slot j (holds.of_sections sections)
    · exact .inl ⟨used, fun slot j holds => free (h.holds_used (holds.of_sections sections))⟩
  · rcases fills.frames b hb x private_ f hf with ⟨hb, old⟩ | ⟨free, used⟩
    · obtain ⟨used, views⟩ := h.shown b hb x private_ f old
      refine ⟨moved.used used, fun slot j holds => ?_⟩
      obtain ⟨y, hy, p, inHeap, space, page⟩ := views slot j (holds.of_sections sections)
      obtain ⟨q, inHeap, same⟩ := next y hy slot p inHeap
      exact ⟨y, hy, q, inHeap, same.trans space, page⟩
    · exact ⟨used, fun slot j holds =>
        absurd (h.holds_used (holds.of_sections sections)) free⟩
  · obtain ⟨slot, p, inHeap⟩ := h.placed y hy
    obtain ⟨q, inHeap, -⟩ := next y hy slot p inHeap
    exact ⟨slot, q, inHeap⟩

/-- A call on the heap leaves the pages of views alone. -/
theorem InHeap.heapStep (h : InHeap k y slot p) (r : Running R k) {q : Process}
    (user : UserProcess k i q) (s : HeapStep R k k' q) (hj : j < (k.sections slot).pageCount) :
    frameOf k'.vmm.mem p.cr3 (y.va + pageAddr j) =
      frameOf k.vmm.mem p.cr3 (y.va + pageAddr j) := by
  obtain ⟨own, -, number⟩ := h.page r hj
  refine frameOf_entry (s.moves.entries p.cr3 h.user.2 _ own ?_)
  rintro ⟨space, behind⟩
  obtain rfl := r.own _ _ p q h.user user space
  obtain rfl := Option.some.inj (h.user.1.symm.trans user.1)
  have below := h.below
  have aligned := h.aligned
  rw [number] at behind
  simp only [PAGE_SIZE] at *
  omega

theorem Running.withVmm (r : Running R k) {v : Vmm} (kernel : v.pml4Phys = k.vmm.pml4Phys)
    (sound : Sound R { k.loader.sys with vmm := v }) : Running R (k.withVmm v) :=
  r.system sound ⟨kernel, fun _ hq => hq, fun _ hq => .inl hq⟩ rfl

/-- An allocation maps new pages only. -/
theorem Running.ntAllocVm_fills (r : Running R k) (hg : R.Good shown) (user : UserProcess k i p)
    (size : u64) : Fills k.loader.sys (ntAllocVm k i size).2.loader.sys ∧
      (ntAllocVm k i size).2.sections = k.sections := by
  have mapped := r.sound.mapZeroed_fills hg p.userHeapCursor (pagesOf size).toNat 0 user.2
  rw [Kernel.ntAllocVm, user.1]
  split
  case isTrue => exact ⟨.refl _, rfl⟩
  case isFalse =>
    simp only
    split
    case isTrue => exact ⟨.refl _, rfl⟩
    case isFalse => exact ⟨mapped, rfl⟩

/-- **An allocation.** -/
theorem Kept.ntAllocVm (h : Kept R w) (hg : R.Good shown) (user : UserProcess w.nt i p) {size : u64}
    (fits : (HeapCall.ntAllocVm size).Fits p) :
    Kept R { w with nt := (ntAllocVm w.nt i size).2 } := by
  have step := ntAllocVm_step hg h.running user fits
  obtain ⟨fills, sections⟩ := h.running.ntAllocVm_fills hg user size
  exact h.quiet (h.running.step step) step.moves fills sections step.alive
    fun y _ slot q inHeap _ j hj => inHeap.heapStep h.running user step hj

/-- **A change of protection.** -/
theorem Kept.ntProtectVm (h : Kept R w) (hg : R.Good shown) (user : UserProcess w.nt i p)
    (a1 a2 a3 : u64) :
    Kept R { w with nt := w.nt.withVmm (ntProtectVm w.nt.vmm p.cr3 a1 a2 a3) } := by
  obtain ⟨moved, same⟩ := h.running.sound.ntProtectVm_moves hg user.2 a1 a2 a3
  exact h.quiet (h.running.withVmm moved.kernel moved.sound) moved
    (.of_frames moved.kernel moved.bits same) rfl (fun _ q hq => ⟨q, hq, rfl, le_rfl⟩)
    fun y _ slot q inHeap _ j _ => same _ (.inr inHeap.user.2) _

/-- **A new page** that is in no view. -/
theorem Kept.onlyPage (h : Kept R w) {v : Vmm} {va : u64} (user : UserProcess w.nt i p)
    (apart : w.Apart i va)
    (moved : Moves R (onlyPage p.cr3 va) noFrames w.nt.loader.sys { w.nt.loader.sys with vmm := v })
    (fills : Fills w.nt.loader.sys { w.nt.loader.sys with vmm := v }) :
    Kept R { w with nt := w.nt.withVmm v } := by
  refine h.quiet (h.running.withVmm moved.kernel moved.sound) moved fills rfl
    (fun _ q hq => ⟨q, hq, rfl, le_rfl⟩) fun y hy slot q inHeap whole j hj => ?_
  refine frameOf_entry (moved.entries _ inHeap.user.2 _ (inHeap.page h.running hj).1 ?_)
  rintro ⟨space, same⟩
  have process := h.running.own _ _ q p inHeap.user user space
  exact apart y hy process whole _ inHeap.section_ j hj same.symm

/-- A page for the kernel is mapped nowhere. -/
theorem Sound.allocates {s : System} (h : Sound R s) :
    Moves R noPages noFrames s { s with
        vmm := { s.vmm with pmm := (PMM.allocPage s.vmm.pmm).2 } } ∧
      Fills s { s with vmm := { s.vmm with pmm := (PMM.allocPage s.vmm.pmm).2 } } := by
  rcases allocPage_cases s.vmm.pmm with ⟨q, -, ht⟩ | ⟨h0, -⟩
  · exact ⟨h.takes ht, h.takes_fills ht⟩
  · rw [h0]
    exact ⟨.refl h _ _, .refl _⟩

/-- **A page for the kernel.** -/
theorem Kept.allocPage (h : Kept R w) :
    Kept R { w with nt := w.nt.withVmm { w.nt.vmm with pmm := (PMM.allocPage w.nt.vmm.pmm).2 } } := by
  obtain ⟨moved, fills⟩ := h.running.sound.allocates
  exact h.quiet (h.running.withVmm moved.kernel moved.sound) moved fills rfl
    (fun _ q hq => ⟨q, hq, rfl, le_rfl⟩) fun _ _ _ _ _ _ _ _ => rfl

/-- A new process gets new pages only. -/
theorem Running.newProcess_fills (r : Running R k) (hg : R.Good shown) (pages : Nat → Table) :
    Fills k.loader.sys (Kernel.newProcess k pages).loader.sys ∧
      (Kernel.newProcess k pages).sections = k.sections := by
  obtain ⟨-, created, space⟩ := r.newSpace hg fun _ _ => False
  have first := r.sound.createUserPml4_fills hg
    (show Kernel.step k.loader.sys .createUserPml4 = some (Kernel.newSpace k.loader).2.sys from rfl)
  rw [Kernel.newProcess]
  generalize Kernel.newSpace k.loader = n at *
  split
  case isTrue => exact ⟨first, rfl⟩
  case isFalse nonzero =>
    rw [psCreateProcess]
    cases heap : KernelHeap.alloc k.heap KPROCESS_SIZE 8#64 with
    | none => exact ⟨first, rfl⟩
    | some heap =>
      have peb := created.sound.setupPeb_fills hg (space nonzero).1 pages
      rw [← createProcess_sys] at peb
      exact ⟨first.trans peb, rfl⟩

/-- **A new process.** -/
theorem Kept.newProcess (h : Kept R w) (hg : R.Good shown) (pages : Nat → Table) :
    Kept R { w with nt := newProcess w.nt pages } := by
  obtain ⟨running, moved, -, alive⟩ := h.running.newProcess hg pages
  obtain ⟨fills, sections⟩ := h.running.newProcess_fills hg pages
  refine h.quiet running moved fills sections (fun j q hq => ⟨q, alive j q hq, rfl, le_rfl⟩)
    fun y _ slot q inHeap _ j hj => ?_
  exact frameOf_entry (moved.entries _ inHeap.user.2 _ (inHeap.page h.running hj).1
    fun foreign => foreign inHeap.user.2)

end

/-! ## New sections -/

/-- Section `sec` comes into a slot that was not in use, with frames that were free. -/
structure NewSection (R : Rows) (k k' : NtState) (slot : Fin SECTION_SLOTS) (sec : KSection) :
    Prop where
  closed : (k.sections slot).inUse = false
  here : k'.sections slot = sec
  other : ∀ a, a ≠ slot → k'.sections a = k.sections a
  moved : Moves R noPages noFrames k.loader.sys k'.loader.sys
  spaces : k'.loader.sys.spaces = k.loader.sys.spaces
  processes : k'.processes = k.processes
  frames : ∀ b, k.loader.sys.IsSpace b → ∀ x,
    frameOf k'.vmm.mem b x = frameOf k.vmm.mem b x
  data : sec.inUse = true → ∀ j, j < sec.pageCount → ∃ page, DataPage k'.loader.sys (sec.phys j) page
  free : sec.inUse = true → ∀ j, j < sec.pageCount → ¬ Used k.vmm (sec.phys j)
  apart : sec.inUse = true → ∀ a b, a < b → b < sec.pageCount → sec.phys a ≠ sec.phys b

section

variable {R : Rows} {shown : Bool} {k k' : NtState} {w : Viewing} {y : ViewAt} {j : Nat}
  {slot a : Fin SECTION_SLOTS} {p : Process} {sec : KSection} {f : u64}

/-- **Creating a section** changes nothing, or makes a new one. -/
theorem createSection_new (r : Running R k) (size : u64) (content : Nat → Table) :
    (createSection k size content).2 = k ∨ (size ≠ 0 ∧ ∃ slot sec,
      sec.pageCount = (pagesOf size).toNat ∧
        NewSection R k (createSection k size content).2 slot sec) := by
  unfold createSection
  split
  case isTrue => exact .inl rfl
  case isFalse fits =>
    cases hslot : freeSection k with
    | none => exact .inl rfl
    | some slot =>
      simp only
      obtain ⟨moved, filled⟩ := r.sound.fillSection content (pagesOf size).toNat 0
        (k.sections slot).phys fun i hi => absurd hi (Nat.not_lt_zero i)
      obtain ⟨same, new⟩ := r.sound.fillSection_frames content (pagesOf size).toNat 0
        (k.sections slot).phys
      rw [Nat.zero_add] at filled
      simp only [Nat.zero_add] at new
      rw [show k.vmm = k.loader.sys.vmm from rfl]
      generalize fillSection content (pagesOf size).toNat 0 (k.sections slot).phys
        k.loader.sys.vmm = r at *
      refine .inr ⟨fun no => fits (.inl no), slot, ⟨r.2.1, (pagesOf size).toNat, r.1, by omega⟩, rfl,
        freeSection_some hslot, Function.update_self _ _ _,
        fun a ne => Function.update_of_ne ne _ _, moved, rfl, rfl, same,
        fun all j hj => ⟨content j, filled all j hj⟩,
        fun all j hj => (new all).2.1 j (Nat.zero_le j) hj,
        fun all a b less hb => (new all).2.2 a b (Nat.zero_le a) less hb⟩

/-- What a section holds it held before, or it was free. -/
theorem NewSection.held (n : NewSection R k k' slot sec) (holds : Holds k' a j f) :
    Holds k a j f ∨ (a = slot ∧ sec.inUse = true ∧ j < sec.pageCount ∧ sec.phys j = f) := by
  obtain ⟨used, page, frame⟩ := holds
  by_cases here : a = slot
  case neg =>
    rw [n.other a here] at used page frame
    exact .inl ⟨used, page, frame⟩
  case pos =>
    rw [here, n.here] at used page frame
    exact .inr ⟨here, used, page, frame⟩

theorem NewSection.old (n : NewSection R k k' slot sec) (used : Used k.vmm f)
    (holds : Holds k' a j f) : Holds k a j f :=
  (n.held holds).resolve_right fun ⟨_, inUse, page, frame⟩ => n.free inUse j page (frame ▸ used)

theorem NewSection.next (n : NewSection R k k' slot sec) (h : InHeap k y a p) :
    ∃ q, InHeap k' y a q ∧ q.cr3 = p.cr3 := by
  have ne : a ≠ slot := by
    rintro rfl
    have closed := n.closed
    rw [h.inUse] at closed
    cases closed
  exact h.next n.moved.spaces (n.other a ne) ⟨p, by rw [n.processes]; exact h.user.1, rfl, le_rfl⟩
    fun _ j _ => n.frames _ (.inr h.user.2) _

/-- **A new section** has frames that no other section has, and no page shows them. -/
theorem Kept.newSection (h : Kept R w) (running : Running R k')
    (n : NewSection R w.nt k' slot sec) (nonempty : 0 < sec.pageCount) :
    Kept R { w with nt := k' } := by
  refine ⟨running, fun a used => ?_, fun a j f holds => ?_, fun a j b l f h1 h2 => ?_,
    fun x shared f hf => ?_, fun b hb x private_ f hf => ?_, fun y hy => ?_⟩
  · by_cases here : a = slot
    case pos =>
      simp only [here, n.here]
      exact nonempty
    case neg =>
      simp only [n.other a here] at used ⊢
      exact h.nonempty a used
  · rcases n.held holds with holds | ⟨-, inUse, page, rfl⟩
    · obtain ⟨page, data⟩ := h.data a j f holds
      exact ⟨page, data.moves n.moved⟩
    · exact n.data inUse j page
  · rcases n.held h1 with o1 | ⟨rfl, inUse, p1, rfl⟩
    · exact h.once a j b l f o1 (n.old (h.holds_used o1) h2)
    · rcases n.held h2 with o2 | ⟨rfl, -, p2, same⟩
      · exact absurd (h.holds_used o2) (n.free inUse j p1)
      · refine ⟨rfl, ?_⟩
        rcases Nat.lt_trichotomy j l with less | eq | less
        · exact absurd same.symm (n.apart inUse j l less p2)
        · exact eq
        · exact absurd same (n.apart inUse l j less p1)
  · have kernel : k'.vmm.pml4Phys = w.nt.vmm.pml4Phys := n.moved.kernel
    simp only [kernel] at hf
    rw [n.frames w.nt.vmm.pml4Phys (.inl rfl)] at hf
    refine (h.shared x shared f hf).imp_left fun ⟨used, free⟩ => ⟨n.moved.used used, ?_⟩
    exact fun a j holds => free a j (n.old used holds)
  · simp only [n.spaces] at hb
    simp only [n.frames b (.inr hb)] at hf
    obtain ⟨used, views⟩ := h.shown b hb x private_ f hf
    refine ⟨n.moved.used used, fun a j holds => ?_⟩
    obtain ⟨y, hy, q, inHeap, space, page⟩ := views a j (n.old used holds)
    obtain ⟨q', inHeap, same⟩ := n.next inHeap
    exact ⟨y, hy, q', inHeap, same.trans space, page⟩
  · obtain ⟨a, q, inHeap⟩ := h.placed y hy
    obtain ⟨q', inHeap, -⟩ := n.next inHeap
    exact ⟨a, q', inHeap⟩

theorem Kept.createSection (h : Kept R w) {size : u64} (content : Nat → Table)
    (pages : size ≠ 0 → pagesOf size ≠ 0) :
    Kept R { w with nt := (createSection w.nt size content).2 } := by
  rcases createSection_new h.running size content with same | ⟨some, slot, sec, count, new⟩
  · rw [same]
    exact h
  · refine h.newSection (h.running.step
      (createSection_step h.running ⟨0, 0, 0, 0, 0, 0⟩ size content).1) new ?_
    rw [count]
    exact Nat.pos_of_ne_zero fun zero => pages some (BitVec.eq_of_toNat_eq zero)

end

/-! ## New views -/

/-- The pages of a section come to the cursor of the process, all of them or the first ones. -/
structure NewView (R : Rows) (k k' : NtState) (i : Nat) (p p' : Process)
    (slot : Fin SECTION_SLOTS) : Prop where
  step : HeapStep R k k' p
  sections : k'.sections = k.sections
  user : UserProcess k' i p'
  space : p'.cr3 = p.cr3
  cursor : p.userHeapCursor.toNat + (k.sections slot).pageCount * PAGE_SIZE ≤
    p'.userHeapCursor.toNat
  frames : ∀ b ∈ k.loader.sys.spaces, ∀ x, ¬ Shared x → ∀ f, frameOf k'.vmm.mem b x = some f →
    frameOf k.vmm.mem b x = some f ∨ (b = p.cr3 ∧
      frameOf k'.vmm.mem p.cr3 p.userHeapCursor = some ((k.sections slot).phys 0) ∧
      ∃ j, j < (k.sections slot).pageCount ∧ vpn x = vpn (p.userHeapCursor + pageAddr j) ∧
        f = (k.sections slot).phys j)
  shared : ∀ x, Shared x → frameOf k'.vmm.mem k'.vmm.pml4Phys x =
    frameOf k.vmm.mem k.vmm.pml4Phys x

section

variable {R : Rows} {shown : Bool} {k k' : NtState} {w : Viewing} {i : Nat}
  {slot : Fin SECTION_SLOTS} {p p' : Process} {handle : u64}

/-- **Mapping a view** changes nothing, or maps it at the cursor. -/
theorem ntMapView_new (hg : R.Good shown) (r : Running R k) (user : UserProcess k i p)
    (frames : ∀ j, j < (k.sections slot).pageCount → IsFrame ((k.sections slot).phys j))
    (found : sectionOf k handle = some (k.sections slot)) :
    ntMapView k i handle = (0, k) ∨ ∃ p', NewView R k (ntMapView k i handle).2 i p p' slot ∧
      ((ntMapView k i handle).1 ≠ 0 → (ntMapView k i handle).1 = p.userHeapCursor ∧
        ∀ j, j < (k.sections slot).pageCount →
          frameOf (ntMapView k i handle).2.vmm.mem p'.cr3 (p.userHeapCursor + pageAddr j) =
            some ((k.sections slot).phys j)) := by
  obtain ⟨step, viewed⟩ := ntMapView_step hg r user handle
  by_cases room : p.userHeapCursor + pagesLength (BitVec.ofNat 64 (k.sections slot).pageCount) >
      HEAP_MAX
  case pos =>
    refine .inl ?_
    rw [ntMapView, found, user.1]
    simp only [if_pos room]
  case neg =>
    obtain ⟨length, below, open_⟩ := r.view_room user room
    have few := (k.sections slot).bound
    have end_ : HEAP_MAX.toNat = 0x580000000 := rfl
    have sum := BitVec.toNat_add p.userHeapCursor
      (pagesLength (BitVec.ofNat 64 (k.sections slot).pageCount))
    obtain ⟨private_, shared⟩ := r.sound.mapViewPages_frames hg (k.sections slot).phys
      (k.sections slot).pageCount 0 (by omega) (fun j hj => open_ j (by omega))
      (fun j hj => frames j (by omega)) user.2
    simp only [Nat.zero_le, true_and, Nat.zero_add,
      show p.userHeapCursor + pageAddr 0 = p.userHeapCursor from BitVec.add_zero _] at private_
    obtain ⟨p', alive, same, -⟩ := step.alive i p user.1
    have call : (ntMapView k i handle).2 =
        (k.bumpCursor i (pagesLength (BitVec.ofNat 64 (k.sections slot).pageCount))).withVmm
          (mapViewPages p.cr3 p.userHeapCursor (k.sections slot).phys (k.sections slot).pageCount 0
            k.loader.sys.vmm).2 := by
      rw [ntMapView, found, user.1]
      simp only [if_neg room]
      rfl
    refine .inr ⟨p', ⟨step, by rw [call]; rfl, ⟨alive, ?_⟩, same, ?_, ?_, ?_⟩, fun success => ?_⟩
    · rw [step.spaces, same]
      exact user.2
    · rw [call, bumpCursor_processes, user.1, Option.map_some, if_pos rfl] at alive
      obtain rfl := Option.some.inj alive
      simp only [PAGE_SIZE] at *
      omega
    · rw [call]
      exact private_
    · have kernel : (ntMapView k i handle).2.vmm.pml4Phys = k.vmm.pml4Phys := step.moves.kernel
      intro x hx
      rw [kernel, call]
      exact shared x hx
    · obtain ⟨sec, q, found', -, at_, view⟩ := viewed success
      obtain rfl := Option.some.inj (found.symm.trans found')
      obtain rfl := Option.some.inj (alive.symm.trans view.user.1)
      exact ⟨at_, fun j hj => frameOf_leaf (frames j hj) (view.pages j hj)⟩

/-- The address is translated to a frame. -/
theorem translate_aligned {m : Mem} {b v f : u64} (aligned : v.toNat % PAGE_SIZE = 0)
    (h : frameOf m b v = some f) : translateInPml4 m b v = f := by
  rw [translate_some h]
  refine BitVec.eq_of_toNat_eq ?_
  rw [frame_offset (frameOf_isFrame h), aligned, Nat.add_zero]

/-- The page at the heap cursor shows no section yet. -/
theorem Kept.cursor_free (h : Kept R w) (hg : R.Good shown) (user : UserProcess w.nt i p)
    (used : (w.nt.sections slot).inUse = true) :
    translateInPml4 w.nt.vmm.mem p.cr3 p.userHeapCursor ≠ (w.nt.sections slot).phys 0 := by
  intro there
  have holds : Holds w.nt slot 0 _ := ⟨used, h.nonempty slot used, rfl⟩
  obtain ⟨_, data⟩ := h.data slot 0 _ holds
  obtain ⟨aligned, low, high⟩ := h.running.cursor i p user
  have private_ : ¬ Shared p.userHeapCursor := by
    rcases Nat.lt_or_eq_of_le high with less | last
    · exact heap_private low less
    · rw [BitVec.eq_of_toNat_eq last]
      decide
  have frame := h.running.sound.translate_frame hg user.2 fun low => private_ (.inl low)
  cases hf : frameOf w.nt.vmm.mem p.cr3 p.userHeapCursor with
  | none =>
    have zero : translateInPml4 w.nt.vmm.mem p.cr3 p.userHeapCursor = 0 :=
      frame.trans (congrArg (fun f : Option u64 => f.elim 0 _) hf)
    exact data.nonzero (there.symm.trans zero)
  | some f =>
    obtain rfl := (translate_aligned aligned hf).symm.trans there
    obtain ⟨-, views⟩ := h.shown p.cr3 user.2 _ private_ _ hf
    obtain ⟨y, hy, q, inHeap, space, page⟩ := views slot 0 holds
    have process := h.running.own _ _ q p inHeap.user user space
    obtain rfl := Option.some.inj (inHeap.user.1.symm.trans (process ▸ user.1))
    have number := congrArg BitVec.toNat page
    rw [(inHeap.page h.running (h.nonempty slot used)).2.2, vpn_toNat] at number
    have below := inHeap.below
    have some := h.nonempty slot used
    have end_ : HEAP_MAX.toNat = 0x580000000 := rfl
    simp only [PAGE_SIZE] at *
    omega

/-- **A new view** is at the cursor of its process, whole or not. -/
theorem Kept.newView (h : Kept R w) (n : NewView R w.nt k' i p p' slot) {new : Option ViewAt}
    (there : ∀ y, new = some y → y.va = p.userHeapCursor ∧ InHeap k' y slot p')
    (user : UserProcess w.nt i p) (used : (w.nt.sections slot).inUse = true)
    (absent : new = none →
      frameOf k'.vmm.mem p.cr3 p.userHeapCursor ≠ some ((w.nt.sections slot).phys 0)) :
    Kept R ⟨k', new.toList ++ w.views⟩ := by
  have next : ∀ y a q, InHeap w.nt y a q → ∃ q', InHeap k' y a q' ∧ q'.cr3 = q.cr3 :=
    fun y a q inHeap => inHeap.next n.step.moves.spaces (congrFun n.sections a)
      (n.step.alive _ q inHeap.user.1) fun _ j hj => inHeap.heapStep h.running user n.step hj
  refine ⟨h.running.step n.step, fun a inUse => ?_, fun a j f holds => ?_,
    fun a j b l f h1 h2 => ?_, fun x shared f hf => ?_, fun b hb x private_ f hf => ?_,
    fun y hy => ?_⟩
  · simp only [n.sections] at inUse ⊢
    exact h.nonempty a inUse
  · obtain ⟨page, data⟩ := h.data a j f (holds.of_sections n.sections)
    exact ⟨page, data.moves n.step.moves⟩
  · exact h.once a j b l f (h1.of_sections n.sections) (h2.of_sections n.sections)
  · refine (h.shared x shared f ((n.shared x shared).symm.trans hf)).imp_left fun ⟨used, free⟩ => ?_
    exact ⟨n.step.moves.used used, fun a j holds => free a j (holds.of_sections n.sections)⟩
  · simp only [n.step.spaces] at hb
    rcases n.frames b hb x private_ f hf with old | ⟨rfl, first, j, hj, page, rfl⟩
    · obtain ⟨used, views⟩ := h.shown b hb x private_ f old
      refine ⟨n.step.moves.used used, fun a j holds => ?_⟩
      obtain ⟨y, hy, q, inHeap, space, page⟩ := views a j (holds.of_sections n.sections)
      obtain ⟨q', inHeap, same⟩ := next y a q inHeap
      exact ⟨y, List.mem_append_right _ hy, q', inHeap, same.trans space, page⟩
    · have shows : Holds w.nt slot j _ := ⟨used, hj, rfl⟩
      refine ⟨n.step.moves.used (h.holds_used shows), fun a l holds => ?_⟩
      obtain ⟨rfl, rfl⟩ := h.once slot j a l _ shows (holds.of_sections n.sections)
      cases new with
      | none => exact absurd first (absent rfl)
      | some y =>
        obtain ⟨va, inHeap⟩ := there y rfl
        exact ⟨y, List.mem_append_left _ (List.mem_singleton_self y), p', inHeap, n.space,
          va.symm ▸ page⟩
  · rcases List.mem_append.mp hy with hy | hy
    · obtain ⟨-, inHeap⟩ := there y (Option.mem_toList.mp hy)
      exact ⟨slot, p', inHeap⟩
    · obtain ⟨a, q, inHeap⟩ := h.placed y hy
      obtain ⟨q', inHeap, -⟩ := next y a q inHeap
      exact ⟨a, q', inHeap⟩

/-- **`NtMapViewOfSection`.** -/
theorem Kept.ntMapView (h : Kept R w) (hg : R.Good shown) (user : UserProcess w.nt i p)
    (handle : u64) : Kept R ⟨(ntMapView w.nt i handle).2,
      (Kernel.newView w.nt i (ntMapView w.nt i handle) (.ntMapView handle)).toList ++ w.views⟩ := by
  cases found : sectionOf w.nt handle with
  | none =>
    have call : Kernel.ntMapView w.nt i handle = (0, w.nt) := by rw [Kernel.ntMapView, found]
    simp only [Kernel.newView, found, call]
    exact h
  | some sec =>
    obtain ⟨slot, rfl, used, rfl⟩ := sectionOf_slot found
    have frames : ∀ j, j < (w.nt.sections slot).pageCount → IsFrame ((w.nt.sections slot).phys j) :=
      fun j hj => (h.data slot j _ ⟨used, hj, rfl⟩).elim fun _ data => data.frame
    obtain ⟨aligned, low, -⟩ := h.running.cursor i p user
    rcases ntMapView_new hg h.running user frames found with call | ⟨p', n, success⟩
    · simp only [Kernel.newView, found, user.1, call, ne_eq, not_true_eq_false, if_false,
        if_neg (h.cursor_free hg user used)]
      exact h
    · generalize Kernel.ntMapView w.nt i (BitVec.ofNat 64 (slot.val + 1)) = r at *
      have place : ∀ whole : Bool, (whole = true → ∀ j, j < (w.nt.sections slot).pageCount →
            frameOf r.2.vmm.mem p'.cr3 (p.userHeapCursor + pageAddr j) =
              some ((w.nt.sections slot).phys j)) →
          InHeap r.2 ⟨i, BitVec.ofNat 64 (slot.val + 1), p.userHeapCursor, whole⟩ slot p' := by
        intro whole pages
        refine ⟨rfl, n.sections.symm ▸ used, n.user, aligned, low, ?_, ?_⟩
        · rw [n.sections]
          exact n.cursor
        · rw [n.sections]
          exact pages
      refine h.newView n (fun y hy => ?_) user used fun no first => ?_
      · simp only [Kernel.newView, found, user.1] at hy
        split at hy
        case isTrue some =>
          obtain rfl := Option.some.inj hy
          obtain ⟨at_, pages⟩ := success some
          exact ⟨at_, at_.symm ▸ place true fun _ => pages⟩
        case isFalse =>
          split at hy
          case isTrue =>
            obtain rfl := Option.some.inj hy
            exact ⟨rfl, place false fun no => Bool.noConfusion no⟩
          case isFalse => cases hy
      · simp only [Kernel.newView, found, user.1] at no
        split at no
        case isTrue => cases no
        case isFalse =>
          split at no
          case isTrue => cases no
          case isFalse other => exact other (translate_aligned aligned first)

end

/-! ## Every run -/

section

variable {R : Rows} {shown : Bool} {w w' : Viewing} {y : ViewAt} {i : Nat}
  {slot : Fin SECTION_SLOTS} {p : Process} {a1 : u64} {boot : List BootFile}

/-- **The other views stay** when a view is taken away. -/
theorem Kept.removed (h : Kept R w) (hg : R.Good shown) (inHeap : InHeap w.nt y slot p)
    (whole : y.whole = true) :
    Kept R ⟨(ntUnmapView w.nt y.process y.va).2,
      w.views.filter fun z => ¬ z.Starts y.process y.va⟩ := by
  have own : ∀ j, j < 0 + (w.nt.sections slot).pageCount → ¬ Shared (y.va + pageAddr j) :=
    fun j hj => (inHeap.page h.running (by omega)).1
  obtain ⟨moved, cleared, others⟩ := h.running.sound.unmapPages hg (w.nt.sections slot).pageCount 0
    (by have := (w.nt.sections slot).bound; omega) own inHeap.user.2
  rw [ntUnmapView_found inHeap.user.1 (h.found (h.start inHeap whole))]
  have running := h.running.withVmm moved.kernel moved.sound
  rw [show w.nt.vmm = w.nt.loader.sys.vmm from rfl]
  generalize unmapPages p.cr3 y.va (w.nt.sections slot).pageCount 0 w.nt.loader.sys.vmm = v at *
  have frames : ∀ b, w.nt.loader.sys.IsSpace b → ∀ x,
      ¬ viewPages p.cr3 y.va 0 (w.nt.sections slot).pageCount b x →
      frameOf v.mem b x = frameOf w.nt.vmm.mem b x := fun b hb x apart =>
    frameOf_entry (others b hb x apart).1
  have held : ∀ {a j f}, Holds (w.nt.withVmm v) a j f → Holds w.nt a j f :=
    fun holds => holds.of_sections (show (w.nt.withVmm v).sections = w.nt.sections from rfl)
  -- a view that is not at this place has no page here
  have next : ∀ z, ¬ z.Starts y.process y.va → ∀ a q, InHeap w.nt z a q →
      ∃ q', InHeap (w.nt.withVmm v) z a q' ∧ q'.cr3 = q.cr3 := by
    intro z apart a q other
    refine other.next (fun _ hb => hb) rfl ⟨q, other.user.1, rfl, le_rfl⟩ fun wz j hj => ?_
    refine frames _ (.inr other.user.2) _ ?_
    rintro ⟨space, l, -, hl, page⟩
    obtain ⟨-, va, process⟩ := h.same_view other inHeap wz whole space hj (by omega) page
    exact apart ⟨process, va, wz⟩
  refine ⟨running, h.nonempty, fun a j f holds => ?_,
    fun a j b l f h1 h2 => h.once a j b l f (held h1) (held h2),
    fun x shared f hf => ?_, fun b hb x private_ f hf => ?_, fun z hz => ?_⟩
  · obtain ⟨page, data⟩ := h.data a j f (held holds)
    exact ⟨page, data.moves moved⟩
  · have kernel : v.pml4Phys = w.nt.vmm.pml4Phys := moved.kernel
    have apart : ¬ viewPages p.cr3 y.va 0 (w.nt.sections slot).pageCount w.nt.vmm.pml4Phys x := by
      rintro ⟨-, l, -, hl, page⟩
      exact own l hl ((shared_congr page).mp shared)
    have same := frames w.nt.vmm.pml4Phys (.inl rfl) x apart
    simp only [NtState.withVmm, NtState.vmm, Loader.withVmm, kernel] at hf same
    rcases h.shared x shared f (same.symm.trans hf) with ⟨used, free⟩ | held_
    · exact .inl ⟨moved.used used, fun a j holds => free a j (held holds)⟩
    · exact .inr held_
  · by_cases here : viewPages p.cr3 y.va 0 (w.nt.sections slot).pageCount b x
    case pos =>
      obtain ⟨rfl, l, -, hl, page⟩ := here
      have none := (frameOf_congr page).trans (frameOf_none (cleared l (Nat.zero_le l) hl))
      exact absurd (hf.symm.trans none) (by simp)
    case neg =>
      have old := (frames b (.inr hb) x here).symm.trans hf
      obtain ⟨used, views⟩ := h.shown b hb x private_ f old
      refine ⟨moved.used used, fun a j holds => ?_⟩
      obtain ⟨z, hz, q, other, space, page⟩ := views a j (held holds)
      have apart : ¬ z.Starts y.process y.va := by
        rintro ⟨process, va, wz⟩
        obtain rfl := Option.some.inj (inHeap.user.1.symm.trans (process ▸ other.user.1))
        obtain ⟨rfl, -⟩ := h.same_view other inHeap wz whole rfl (h.nonempty a other.inUse)
          (h.nonempty slot inHeap.inUse) (by rw [va])
        exact here ⟨space.symm, j, Nat.zero_le j, by rw [Nat.zero_add]; exact holds.page, va ▸ page⟩
      obtain ⟨q', other, same⟩ := next z apart a q other
      exact ⟨z, List.mem_filter.mpr ⟨hz, by simpa using apart⟩, q', other, same.trans space, page⟩
  · obtain ⟨hz, apart⟩ := List.mem_filter.mp hz
    obtain ⟨a, q, other⟩ := h.placed z hz
    obtain ⟨q', other, -⟩ := next z (by simpa using apart) a q other
    exact ⟨a, q', other⟩

/-- **`NtUnmapViewOfSection`.** -/
theorem Kept.ntUnmapView (h : Kept R w) (hg : R.Good shown) (user : UserProcess w.nt i p)
    (plain : Plain boot w (.ntUnmapView i a1)) :
    Kept R ⟨(ntUnmapView w.nt i a1).2, w.views.filter fun y => ¬ y.Starts i a1⟩ := by
  by_cases start : ∃ y ∈ w.views, y.Starts i a1
  case pos =>
    obtain ⟨y, hy, rfl, rfl, whole⟩ := start
    obtain ⟨slot, q, inHeap⟩ := h.placed y hy
    exact h.removed hg inHeap whole
  case neg =>
    have none : ∀ y ∈ w.views, ¬ y.Starts i a1 := fun y hy starts => start ⟨y, hy, starts⟩
    have all : (w.views.filter fun y => ¬ y.Starts i a1) = w.views :=
      List.filter_eq_self.mpr fun y hy => by simpa using none y hy
    rw [all, h.elsewhere hg plain user none]
    exact h

/-- The process that makes a call. -/
theorem stepViews_caller {next : Process → Viewing} (hs : stepViews.caller w i next = some w') :
    ∃ p, UserProcess w.nt i p ∧ next p = w' := by
  unfold stepViews.caller at hs
  split at hs
  case h_1 => cases hs
  case h_2 p hp =>
    split at hs
    case isFalse => cases hs
    case isTrue user => exact ⟨p, ⟨hp, user⟩, Option.some.inj hs⟩

/-- **A step** that keeps views apart. -/
theorem Kept.step (h : Kept R w) (hg : R.Good shown) {e : ViewEvent} (plain : Plain boot w e)
    (hs : stepViews boot w e = some w') : Kept R w' := by
  cases e with
  | createProcess pages =>
    obtain rfl := Option.some.inj hs
    exact h.newProcess hg pages
  | ntUnmapView i a1 =>
    obtain ⟨p, user, rfl⟩ := stepViews_caller hs
    exact h.ntUnmapView hg user plain
  | ntProtectVm i a1 a2 a3 =>
    obtain ⟨p, user, rfl⟩ := stepViews_caller hs
    exact h.ntProtectVm hg user a1 a2 a3
  | setupPage i va page =>
    obtain ⟨p, user, rfl⟩ := stepViews_caller hs
    exact h.onlyPage user plain (h.running.sound.setupPage hg user.2 va page)
      (h.running.sound.setupPage_fills hg user.2 va page)
  | mapFresh i va writable page =>
    obtain ⟨p, user, rfl⟩ := stepViews_caller hs
    obtain ⟨moved, fills⟩ := h.running.sound.mapFresh hg user.2 va writable page
    exact h.onlyPage user plain moved fills
  | allocPage =>
    obtain rfl := Option.some.inj hs
    exact h.allocPage
  | call i c =>
    obtain ⟨p, user, rfl⟩ := stepViews_caller hs
    obtain ⟨fits, pages⟩ := plain
    cases c with
    | ntCreateSection size => exact h.createSection _ (pages size rfl)
    | ntMapView handle => exact h.ntMapView hg user handle
    | ntAllocVm size => exact h.ntAllocVm hg user (fits p user.1)
    | ntCreateFileSection va len =>
      simp only [heapCall, sectionSize, Kernel.newView] at pages ⊢
      cases named : namedFile boot w.nt i va len with
      | none => exact h
      | some f =>
        simp only [named, Option.map_some] at pages
        simp only [ntCreateFileSection]
        split
        case isTrue => exact h
        case isFalse => exact h.createSection _ (pages _ rfl)

end

/-- After boot there is no view, and no section in use. -/
theorem startViews_kept {m : Mem} {pt bmStart : u64} {bi : Option BootInfo} {page : Table}
    {shown : Bool} {v : Vmm} (hb : TablesAt pt bi)
    (hboot : boot m pt bmStart bi page = some (shown, v)) (heap : KernelHeap)
    {closed : Fin SECTION_SLOTS → KSection} (free : ∀ slot, (closed slot).inUse = false) {R : Rows}
    (sound : Sound R (start v)) : Kept R (startViews v heap closed) := by
  have none : ∀ slot j f, ¬ Holds (startViews v heap closed).nt slot j f := by
    rintro slot j f ⟨used, -, -⟩
    exact absurd ((free slot).symm.trans used) Bool.noConfusion
  have start := (startNt_watching sound heap).running
  refine ⟨start.system start.sound ⟨rfl, fun _ hq => hq, fun _ hq => .inl hq⟩ rfl,
    fun slot used => absurd ((free slot).symm.trans used) Bool.noConfusion,
    fun slot j f holds => absurd holds (none slot j f),
    fun slot j a l f holds => absurd holds (none slot j f), fun x _ f hf => ?_,
    fun b hb => absurd hb List.not_mem_nil, fun y hy => absurd hy List.not_mem_nil⟩
  exact (boot_frames hb hboot hf).imp_left fun used => ⟨used, fun slot j => none slot j f⟩

/-- **Unmapping a view restores the address space**, in every run after boot whose steps keep
views apart. -/
theorem views_restored (m : Mem) (pt bmStart : u64) (bi : Option BootInfo) (page : Table)
    (shown : Bool) (v : Vmm) (hb : TablesAt pt bi)
    (hboot : boot m pt bmStart bi page = some (shown, v)) (heap : KernelHeap)
    (closed : Fin SECTION_SLOTS → KSection) (free : ∀ slot, (closed slot).inUse = false)
    (files : List BootFile) (es : List ViewEvent)
    (hes : Along (stepViews files) (Plain files) (startViews v heap closed) es) :
    Along (stepViews files) Restores (startViews v heap closed) es := by
  obtain ⟨R, hg, sound⟩ := boot_sound hb hboot
  exact along_invariant (I := Kept R) (fun w e w' kept plain hs => kept.step hg plain hs)
    (fun w e kept plain => kept.restores hg plain) (startViews_kept hb hboot heap free sound) hes

/-! ## An address that the walk takes for another -/

/-- A process creates a section of one page and maps it. -/
def mapOne (pages : Nat → Table) : List ViewEvent :=
  [.createProcess pages, .call 1 (.ntCreateSection 0x1000), .call 1 (.ntMapView 1)]

/-- No section has been there. -/
def noSections : Fin SECTION_SLOTS → KSection := fun _ => ⟨fun _ => 0, 0, false, Nat.zero_le _⟩

theorem mapOne_plain (files : List BootFile) (pages : Nat → Table) (w : Viewing) :
    Along (stepViews files) (Plain files) w (mapOne pages) := by
  refine ⟨trivial, fun _ _ => ⟨⟨fun _ _ => trivial, ?_⟩, fun _ _ =>
    ⟨⟨fun _ _ => trivial, fun _ no => nomatch no⟩, fun _ _ => trivial⟩⟩⟩
  rintro size ⟨⟩ -
  decide

section

variable {R : Rows} {shown : Bool} {w : Viewing} {i : Nat} {p : Process} {sec : KSection}

theorem stepViews_call (files : List BootFile) (user : UserProcess w.nt i p) (c : HeapCall) :
    stepViews files w (.call i c) = some ⟨(heapCall files w.nt i c).2,
      (newView w.nt i (heapCall files w.nt i c) c).toList ++ w.views⟩ := by
  simp only [stepViews, stepViews.caller, user.1, if_pos user.2]

/-- A page at the cursor, when there is memory. -/
theorem Running.maps_one {k : NtState} {handle : u64} (r : Running R k) (null : NullPage k.loader.sys)
    (plenty : Plenty 2 k.loader.sys.vmm.pmm) (user : UserProcess k i p)
    (cursor : p.userHeapCursor = HEAP_START) (found : sectionOf k handle = some sec)
    (one : sec.pageCount = 1) : (ntMapView k i handle).1 = HEAP_START := by
  have private_ : ¬ Shared (p.userHeapCursor + pageAddr 0) := by
    rw [cursor]
    exact heap_private (by decide) (by decide)
  have first := r.sound.mapPageInto_succeeds null user.2 private_ plenty (sec.phys 0) (userFlags true)
  have mapped : (mapViewPages p.cr3 p.userHeapCursor sec.phys sec.pageCount 0 k.vmm).1 = true := by
    rw [one, mapViewPages]
    simp only [NtState.vmm, first, if_true, mapViewPages]
  rw [ntMapView_succeeds user.1 found (by rw [one, cursor]; decide) mapped, cursor]

/-- **A process maps a page** in a run after boot. -/
theorem mapOne_run {m : Mem} {pt bmStart : u64} {bi : Option BootInfo} {page : Table} {v : Vmm}
    (hb : TablesAt pt bi) (hpt : pt ≠ 0) (hboot : boot m pt bmStart bi page = some (shown, v))
    (plenty : Plenty 30 v.pmm) (files : List BootFile) (pages : Nat → Table) :
    ∃ R w p, R.Good shown ∧ Kept R w ∧ UserProcess w.nt 1 p ∧
      run (stepViews files) (startViews v ⟨0, 0x1000, 0⟩ noSections) (mapOne pages) = some w ∧
      w.views = [⟨1, 1, HEAP_START, true⟩] := by
  obtain ⟨R, hg, sound⟩ := boot_sound hb hboot
  have kept₀ := startViews_kept hb hboot ⟨0, 0x1000, 0⟩ (fun _ => rfl : ∀ slot,
    (noSections slot).inUse = false) sound
  obtain ⟨p, user₁, cursor, null₁, plenty₁, sections, -⟩ := kept₀.running.newProcess_succeeds hg
    (boot_nullPage hb hpt hboot) (n := 12) (plenty.mono (by decide))
    (show (KernelHeap.alloc ⟨0, 0x1000, 0⟩ KPROCESS_SIZE 8#64).isSome = true by decide) pages
  have kept₁ := kept₀.newProcess hg pages
  have step₁ : stepViews files (startViews v ⟨0, 0x1000, 0⟩ noSections) (.createProcess pages) =
      some ⟨newProcess (startViews v ⟨0, 0x1000, 0⟩ noSections).nt pages, []⟩ := rfl
  generalize newProcess (startViews v ⟨0, 0x1000, 0⟩ noSections).nt pages = k₁ at *
  -- the section
  have free : freeSection k₁ = some 0 := by
    rw [freeSection, sections]
    rfl
  have fits : ¬ ((0x1000 : u64) = 0 ∨ (pagesOf 0x1000).toNat > MAX_SECTION_PAGES) := by decide
  have one : (pagesOf 0x1000).toNat = 1 := by decide
  obtain ⟨handle, processes, taken⟩ := createSection_succeeds (k := k₁) (fun _ _ => 0) fits free
    (plenty₁.mono (by rw [one]; decide))
  obtain ⟨step, made⟩ := createSection_step kept₁.running p 0x1000 fun _ _ => 0
  have handle : (createSection k₁ 0x1000 fun _ _ => 0).1 = 1 := handle
  obtain ⟨sec, found, count, -⟩ := made (by rw [handle]; decide)
  rw [handle] at found
  rw [one] at count taken
  have kept₂ := kept₁.createSection (fun _ _ => 0)
    (show (0x1000 : u64) ≠ 0 → pagesOf 0x1000 ≠ 0 from fun _ => by decide)
  have user₂ : UserProcess (createSection k₁ 0x1000 fun _ _ => 0).2 1 p :=
    ⟨processes.symm ▸ user₁.1, step.spaces.symm ▸ user₁.2⟩
  have step₂ : stepViews files ⟨k₁, []⟩ (.call 1 (.ntCreateSection 0x1000)) =
      some ⟨(createSection k₁ 0x1000 fun _ _ => 0).2, []⟩ := stepViews_call files user₁ _
  have null₂ := null₁.moves step.moves
  have plenty₂ := Plenty.after (plenty₁.mono (show 1 + 2 ≤ 12 by decide)) taken
  generalize (createSection k₁ 0x1000 fun _ _ => 0).2 = k₂ at *
  -- its view
  have place := kept₂.running.maps_one null₂ plenty₂ user₂ cursor found count
  have kept₃ := kept₂.ntMapView hg user₂ 1
  have new : newView k₂ 1 (ntMapView k₂ 1 1) (.ntMapView 1) = some ⟨1, 1, HEAP_START, true⟩ := by
    rw [newView, found, user₂.1]
    simp only [place]
    exact if_pos (by decide)
  have step₃ := stepViews_call files (w := ⟨k₂, []⟩) user₂ (.ntMapView 1)
  simp only [heapCall, new] at step₃ kept₃
  obtain ⟨p', alive, -, -⟩ := (ntMapView_step hg kept₂.running user₂ 1).1.alive 1 p user₂.1
  refine ⟨R, _, p', hg, kept₃, ⟨alive, ?_⟩, ?_, rfl⟩
  · obtain ⟨slot, q, inHeap⟩ := kept₃.placed ⟨1, 1, HEAP_START, true⟩ List.mem_cons_self
    obtain rfl := Option.some.inj (alive.symm.trans inHeap.user.1)
    exact inHeap.user.2
  · rw [mapOne, run, step₁, Option.bind_some, run, step₂, Option.bind_some, run, step₃,
      Option.bind_some, run]
    rfl

/-- The walk takes no notice of the upper bits of an address, and so the view at the lower one
is taken away. -/
theorem Kept.alias (h : Kept R w) (hg : R.Good shown) {y : ViewAt} {slot : Fin SECTION_SLOTS}
    {a1 : u64} (hy : InHeap w.nt y slot p) (whole : y.whole = true)
    (same : walked a1 = y.va.toNat) : (Kernel.ntUnmapView w.nt y.process a1).2 ≠ w.nt := by
  have some := h.nonempty slot hy.inUse
  have aligned := hy.aligned
  simp only [walked] at same
  have page : ∀ j, vpn (a1 + pageAddr j) = vpn (y.va + pageAddr j) := fun j => by
    refine vpn_walked ?_
    rw [walked, walked, BitVec.toNat_add, BitVec.toNat_add]
    omega
  have first := (frameOf_congr (page 0)).trans (hy.pages whole 0 some)
  rw [show a1 + pageAddr 0 = a1 from BitVec.add_zero _] at first
  have there : (w.nt.sections slot).beginsAt (translateInPml4 w.nt.vmm.mem p.cr3 a1) = true := by
    obtain ⟨_, data⟩ := h.data slot 0 _ ⟨hy.inUse, some, rfl⟩
    rw [translate_aligned (by simp only [PAGE_SIZE] at *; omega) first]
    exact beginsAt_iff.mpr ⟨hy.inUse, data.nonzero, rfl⟩
  obtain ⟨-, cleared, -⟩ := h.running.sound.unmapPages hg (w.nt.sections slot).pageCount 0
    (by have := (w.nt.sections slot).bound; omega)
    (fun j hj shared => (hy.page h.running (by omega)).1 ((shared_congr (page j)).mp shared))
    hy.user.2
  rw [ntUnmapView_found hy.user.1 (h.found there)]
  intro unchanged
  have gone := cleared 0 le_rfl (by omega)
  have vmm := congrArg NtState.vmm unchanged
  rw [show (w.nt.withVmm (unmapPages p.cr3 a1 (w.nt.sections slot).pageCount 0 w.nt.vmm)).vmm =
    unmapPages p.cr3 a1 (w.nt.sections slot).pageCount 0 w.nt.loader.sys.vmm from rfl] at vmm
  rw [vmm, show a1 + pageAddr 0 = a1 from BitVec.add_zero _] at gone
  rw [frameOf_none gone] at first
  cases first

end

/-- **Unmapping the view** that has just been mapped. -/
theorem views_restored_lowBoot :
    ∃ v, boot (fun _ _ => 0) 0x10000000#64 0x120000#64 (some lowBoot) (fun _ => 0) = some (true, v) ∧
      ∀ files pages, Along (stepViews files) Restores (startViews v ⟨0, 0x1000, 0⟩ noSections)
        (mapOne pages ++ [.ntUnmapView 1 HEAP_START]) := by
  obtain ⟨v, hboot, plenty⟩ := lowBoot_plenty
  refine ⟨v, hboot, fun files pages => ?_⟩
  refine views_restored _ _ _ _ _ _ v tablesAt_lowBoot hboot _ _ (fun _ => rfl) files _ ?_
  obtain ⟨R, w, p, -, kept, -, reached, views⟩ := mapOne_run tablesAt_lowBoot (by decide) hboot
    (plenty.mono (by decide)) files pages
  refine along_append.mpr ⟨mapOne_plain files pages _, fun t ht => ⟨fun q _ => ⟨?_, ?_⟩,
    fun _ _ => trivial⟩⟩
  · obtain rfl := Option.some.inj (reached.symm.trans ht)
    intro y hy _ _
    rw [views] at hy
    obtain rfl := List.mem_singleton.mp hy
    exact ⟨rfl, rfl⟩
  · intro _ _ _ low
    exact absurd low (by decide)

/-- **An address that is no view's is unmapped**, with the view at its lower 48 bits. -/
theorem views_lost :
    ∃ v, boot (fun _ _ => 0) 0x10000000#64 0x120000#64 (some lowBoot) (fun _ => 0) = some (true, v) ∧
      ∀ files pages, ¬ Along (stepViews files) Restores (startViews v ⟨0, 0x1000, 0⟩ noSections)
        (mapOne pages ++ [.ntUnmapView 1 (HEAP_START + 0x1000000000000)]) := by
  obtain ⟨v, hboot, plenty⟩ := lowBoot_plenty
  refine ⟨v, hboot, fun files pages promised => ?_⟩
  obtain ⟨R, w, p, hg, kept, user, reached, views⟩ := mapOne_run tablesAt_lowBoot (by decide) hboot
    (plenty.mono (by decide)) files pages
  obtain ⟨-, elsewhere⟩ := ((along_append.mp promised).2 w reached).1 p user
  obtain ⟨slot, q, inHeap⟩ := kept.placed ⟨1, 1, HEAP_START, true⟩ (by rw [views]; exact List.mem_cons_self)
  refine kept.alias hg inHeap rfl (show walked (HEAP_START + 0x1000000000000) = _ by decide) ?_
  refine elsewhere fun y hy starts => ?_
  rw [views] at hy
  obtain rfl := List.mem_singleton.mp hy
  exact absurd starts.2.1 (by decide)

end MicroNT.Kernel
