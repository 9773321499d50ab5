import MicroNT.BootSucceeds
import MicroNT.MemoryCalls
import MicroNT.PeIsolation
import MicroNT.VirtualMemoryMap

/-! # What a failed call leaves behind

A call that fails its first checks changes nothing. Past them each call has taken
something, a part of the heap, a page, a thread, that no path gives back. -/

namespace MicroNT.Kernel

open MicroNT.PMM hiding step Op System
open MicroNT.VMM MicroNT.Boot MicroNT.Base.Radix

/-! ## Traces -/

/-- The pages of a section that is in use. -/
def KSection.held (s : KSection) : Option (List u64) :=
  if s.inUse then some ((List.range s.pageCount).map s.phys) else none

/-- Free pages, heap cursors and thread counts, the caller's translations, both
tables and the ready queue are as before. -/
structure NoTrace (k k' : NtState) (i : Nat) : Prop where
  freePages : freeCount k'.vmm.pmm = freeCount k.vmm.pmm
  processes : ∀ (j : Nat) (p : Process), k.processes[j]? = some p →
    ∃ p' : Process, k'.processes[j]? = some p' ∧
      p'.userHeapCursor = p.userHeapCursor ∧ p'.threadCount = p.threadCount
  translations : ∀ p : Process, k.processes[i]? = some p → ∀ v,
    translateInPml4 k'.vmm.mem p.cr3 v = translateInPml4 k.vmm.mem p.cr3 v
  sections : ∀ j, (k'.sections j).held = (k.sections j).held
  procTable : k'.procTable = k.procTable
  ready : k'.ready = k.ready

theorem NoTrace.refl (k : NtState) (i : Nat) : NoTrace k k i :=
  ⟨rfl, fun _ p hp => ⟨p, hp, rfl, rfl⟩, fun _ _ _ => rfl, fun _ => rfl, rfl, rfl⟩

/-- No table of the caller's address space is free. -/
def TablesInUse (k : NtState) (i : Nat) : Prop :=
  ∀ p : Process, k.processes[i]? = some p → ∀ q t, q.length ≤ 3 → descend link k.vmm.mem p.cr3 q = some t →
    Used k.vmm t

/-! ## Refusals -/

/-- The size is refused, no slot is free, or there is no page at all. -/
def RefusesSection (k : NtState) (size : u64) : Prop :=
  size = 0 ∨ (pagesOf size).toNat > MAX_SECTION_PAGES ∨ freeSection k = none ∨ NoPage k.vmm.pmm

/-- The caller's heap has no room for so many bytes, or none is asked for. -/
def NoRoom (k : NtState) (i : Nat) (length : u64) : Prop :=
  length = 0 ∨ ∀ p : Process, k.processes[i]? = some p → p.userHeapCursor + length > HEAP_MAX

/-- `CreateUserPml4` does not get its two pages: it finds none, or gives the first back. -/
def NoSpace (s : Pmm) : Prop := NoPage s ∨ ((allocPage s).1 ≠ 0 ∧ NoPage (allocPage s).2)

/-- The call is refused before it takes anything. -/
def Refused (k : NtState) (i : Nat) : MemoryCall → Prop
  | .ntCreateSection size => RefusesSection k size
  | .ntCreateFileSection file =>
    ∀ f, file = some f → f.size = 0 ∨ RefusesSection k (BitVec.ofNat 64 f.size)
  | .ntAllocVm size => size = 0 ∨ NoRoom k i (pagesLength (pagesOf size))
  | .ntCreateThread _ _ => NoRoom k i STACK_SIZE
  | .ntMapView handle => ∀ sec, sectionOf k handle = some sec →
    NoRoom k i (pagesLength (BitVec.ofNat 64 sec.pageCount))
  | .ntCreateProcess file _ => ∀ f, file = some f → f.size = 0 ∨ NoSpace k.vmm.pmm
  | _ => True

/-- The calls that return 0 when they fail. -/
def MemoryCall.ReportsFailure : MemoryCall → Prop
  | .bg _ _ => False
  | .winexec _ _ => False
  | .ntLoadLibrary _ => False
  | _ => True

/-! ## No function gives more pages back than it took -/

theorem Allocs.freeCount_le {n : Nat} {s t : Pmm} (h : Allocs n s t) : freeCount t ≤ freeCount s := by
  obtain ⟨m, -, rfl⟩ := h
  induction m with
  | zero => exact le_rfl
  | succ m ih =>
    rw [Function.iterate_succ_apply']
    exact (freeCount_allocPage_le _).trans ih

theorem mapPageInto_freeCount (s : Vmm) (pml4 v p flags : u64) :
    freeCount (mapPageInto s pml4 v p flags).2.pmm ≤ freeCount s.pmm :=
  (mapPageInto_allocs s pml4 v p flags).freeCount_le

theorem setupPage_freeCount (s : Vmm) (pml4 va : u64) (page : Table) :
    freeCount (setupPage s pml4 va page).2.pmm ≤ freeCount s.pmm := by
  rw [setupPage]
  split
  case isTrue => exact freeCount_allocPage_le s.pmm
  case isFalse => exact (mapPageInto_freeCount _ _ _ _ _).trans (freeCount_allocPage_le s.pmm)

theorem setupPages_freeCount (pml4 : u64) (pages : Nat → Table) (n k : Nat) (s : Vmm) :
    freeCount (setupPages pml4 pages n k s).pmm ≤ freeCount s.pmm := by
  induction n generalizing k s with
  | zero => exact le_rfl
  | succ n ih =>
    have h1 := setupPage_freeCount s pml4 (PEB_VA + pageAddr k) (pages k)
    rw [setupPages]
    split
    case isTrue => exact (ih (k + 1) _).trans h1
    case isFalse => exact h1

theorem createProcess_freeCount (l : Loader) (pml4 : u64) (pages : Nat → Table) :
    freeCount (createProcess l pml4 pages).sys.vmm.pmm ≤ freeCount l.sys.vmm.pmm := by
  have peb : freeCount (setupPeb l.sys.vmm pml4 pages).2.pmm ≤ freeCount l.sys.vmm.pmm := by
    have h1 := setupPage_freeCount l.sys.vmm pml4 PEB_VA (pages 0)
    rw [setupPeb]
    split
    case isTrue => exact (setupPages_freeCount pml4 pages 3 1 _).trans h1
    case isFalse => exact h1
  rw [createProcess]
  split <;> exact peb

/-- A page that could not be mapped goes back, once. -/
theorem mapFresh_freeCount (s : Vmm) (pml4 va flags : u64) (page : Table) :
    freeCount (mapFresh s pml4 va flags page).2.pmm ≤ freeCount s.pmm := by
  rw [mapFresh]
  split
  case isTrue => exact freeCount_allocPage_le s.pmm
  case isFalse hne =>
    have map := mapPageInto_freeCount
      { s with pmm := (allocPage s.pmm).2, mem := fill s.mem (allocPage s.pmm).1 page } pml4 va
      (allocPage s.pmm).1 flags
    have taken : freeCount (allocPage s.pmm).2 + 1 = freeCount s.pmm := by
      rcases freeCount_allocPage s.pmm with ⟨-, h0⟩ | h
      · rw [h0] at hne
        exact absurd rfl hne
      · exact h
    simp only at map ⊢
    split
    case isTrue => exact map.trans (freeCount_allocPage_le s.pmm)
    case isFalse =>
      refine (freeCount_freePage_le _ _).trans ?_
      omega

theorem mapPages_freeCount (f : Image) (pml4 base : u64) (h : SectionHeader) (n pg : Nat) (s : Vmm) :
    freeCount (mapPages f pml4 base h n pg s).2.pmm ≤ freeCount s.pmm := by
  induction n generalizing pg s with
  | zero => exact le_rfl
  | succ n ih =>
    have h1 := mapFresh_freeCount s pml4 (sectionVa base h + pageAddr pg) (sectionPteFlags h.chars)
      (sectionPage f h pg)
    rw [mapPages]
    split
    case isTrue => exact (ih (pg + 1) _).trans h1
    case isFalse => exact h1

theorem mapSectionList_freeCount (f : Image) (pml4 base : u64) (hs : List SectionHeader) (s : Vmm) :
    freeCount (mapSectionList f pml4 base hs s).2.pmm ≤ freeCount s.pmm := by
  induction hs generalizing s with
  | nil => exact le_rfl
  | cons h hs ih =>
    rw [mapSectionList]
    split
    case isTrue =>
      have h1 := mapPages_freeCount f pml4 base h (sectionPages h) 0 s
      simp only
      split
      case isTrue => exact (ih _).trans h1
      case isFalse => exact h1
    case isFalse => exact ih s

theorem mapSections_freeCount (f : Image) (pml4 base : u64) (s : Vmm) :
    freeCount (mapSections f pml4 base s).2.pmm ≤ freeCount s.pmm := by
  have h1 := mapFresh_freeCount s pml4 base (userFlags false) (headerPage f)
  rw [mapSections]
  split
  case isTrue => exact (mapSectionList_freeCount f pml4 base _ _).trans h1
  case isFalse => exact h1

/-! ## Imports only store -/

theorem patchIatSlot_pmm (s : Vmm) (pml4 iatVa funcVa : u64) :
    (patchIatSlot s pml4 iatVa funcVa).2.pmm = s.pmm := by
  rw [patchIatSlot]
  simp only
  split <;> rfl

theorem resolveImports_pmm (fuel : Nat) (f : Nat → u8) (mods : List Module) (pml4 base : u64)
    (s : Vmm) : (resolveImports fuel f mods pml4 base s).2.pmm = s.pmm :=
  resolveImports_keeps (P := fun t => t.pmm = s.pmm)
    (fun _ _ _ _ _ _ h => (patchIatSlot_pmm _ _ _ _).trans h) rfl

theorem notifyImageLoaded_pmm (l : Loader) (cr3 base : u64) :
    (notifyImageLoaded l cr3 base).sys.vmm.pmm = l.sys.vmm.pmm := by
  rw [notifyImageLoaded]
  split <;> rfl

theorem loadPe_freeCount (fuel : Nat) (l : Loader) (f : Image) (pml4 base : u64) :
    freeCount (loadPe fuel l f pml4 base).2.2.sys.vmm.pmm ≤ freeCount l.sys.vmm.pmm := by
  have mapped := mapSections_freeCount f pml4 base l.sys.vmm
  have resolved := resolveImports_pmm fuel f.bytes l.mods pml4 base
    (mapSections f pml4 base l.sys.vmm).2
  rw [loadPe]
  split
  case isTrue => exact le_rfl
  case isFalse =>
    split
    case isTrue => exact le_rfl
    case isFalse =>
      simp only
      split
      case isTrue => exact mapped
      case isFalse =>
        split
        case isTrue =>
          show freeCount (resolveImports fuel f.bytes l.mods pml4 base _).2.pmm ≤ _
          rw [resolved]
          exact mapped
        case isFalse =>
          rw [notifyImageLoaded_pmm]
          show freeCount (resolveImports fuel f.bytes l.mods pml4 base _).2.pmm ≤ _
          rw [resolved]
          exact mapped

theorem loadAndRegister_freeCount (fuel : Nat) (l : Loader) (name : List u8) (f : Image)
    (pml4 base : u64) :
    freeCount (loadAndRegister fuel l name f pml4 base).sys.vmm.pmm ≤ freeCount l.sys.vmm.pmm := by
  have h1 := loadPe_freeCount fuel l f pml4 base
  rw [loadAndRegister]
  simp only
  split <;> exact h1

theorem loadLibraries_freeCount (fuel : Nat) (pml4 : u64) (l : Loader) (ds : List Library) :
    freeCount (loadLibraries fuel pml4 l ds).sys.vmm.pmm ≤ freeCount l.sys.vmm.pmm := by
  induction ds generalizing l with
  | nil => exact le_rfl
  | cons d ds ih =>
    exact (ih _).trans (loadAndRegister_freeCount fuel l d.name d.image pml4 d.base)

/-! ## The calls' own loops -/

theorem mapZeroed_freeCount (pml4 va : u64) (n i : Nat) (s : Vmm) :
    freeCount (mapZeroed pml4 va n i s).2.pmm ≤ freeCount s.pmm := by
  induction n generalizing i s with
  | zero => exact le_rfl
  | succ n ih =>
    have h1 := freeCount_allocPage_le s.pmm
    rw [mapZeroed]
    split
    case isTrue => exact h1
    case isFalse =>
      have map := mapPageInto_freeCount
        { s with pmm := (allocPage s.pmm).2, mem := fill s.mem (allocPage s.pmm).1 fun _ => 0 } pml4
        (va + pageAddr i) (allocPage s.pmm).1 (userFlags true)
      simp only at map ⊢
      split
      case isTrue => exact (ih (i + 1) _).trans (map.trans h1)
      case isFalse => exact map.trans h1

theorem allocStackRest_freeCount (n : Nat) (s : Pmm) :
    freeCount (allocStackRest n s).2 ≤ freeCount s := by
  induction n generalizing s with
  | zero => exact le_rfl
  | succ n ih =>
    have h1 := freeCount_allocPage_le s
    rw [allocStackRest]
    split
    case isTrue => exact h1
    case isFalse => exact (ih _).trans h1

theorem allocStack_freeCount (s : Pmm) : freeCount (allocStack s).2 ≤ freeCount s := by
  have h1 := freeCount_allocPage_le s
  rw [allocStack]
  split
  case isTrue => exact h1
  case isFalse => exact (allocStackRest_freeCount 3 _).trans h1

theorem setupTeb_freeCount (k : NtState) (i : Nat) (p : Process) (tid : u32) (top : u64) :
    freeCount (setupTeb k i p tid top).2.vmm.pmm ≤ freeCount k.vmm.pmm := by
  rw [setupTeb]
  split
  case isTrue => exact le_rfl
  case isFalse => exact setupPage_freeCount k.vmm p.cr3 p.nextTebVa _

theorem kernelStack_freeCount (plat : Platform) (k : NtState) (entry va arg : u64) :
    freeCount (kernelStack plat k entry va arg).2.vmm.pmm ≤ freeCount k.vmm.pmm := by
  have h1 := allocStack_freeCount k.vmm.pmm
  rw [kernelStack]
  simp only
  split <;> exact h1

theorem newThread_freeCount (k : NtState) (i : Nat) (p : Process) (base va : u64) :
    freeCount (newThread k i p base va).2.vmm.pmm ≤ freeCount k.vmm.pmm :=
  setupTeb_freeCount
    (({ k with nextTid := k.nextTid + 1#32 } : NtState).updateProcess i fun p =>
      { p with threadCount := p.threadCount + 1#32 }) i p k.nextTid va

theorem createUserThread_freeCount (plat : Platform) (k : NtState) (i : Nat) (p : Process)
    (entry va arg : u64) :
    freeCount (createUserThread plat k i p entry va arg).2.vmm.pmm ≤ freeCount k.vmm.pmm := by
  have h1 := kernelStack_freeCount plat k entry va arg
  rw [createUserThread]
  simp only
  split
  case isTrue => exact h1
  case isFalse =>
    split
    case h_1 => exact h1
    case h_2 => exact (newThread_freeCount _ i p _ va).trans h1

/-- The loop over the pages of a section takes one page at least, unless it finds none. -/
theorem fillSection_freeCount (content : Nat → Table) (n j : Nat) (phys : Nat → u64) (s : Vmm) :
    freeCount (fillSection content n j phys s).2.2.pmm ≤ freeCount s.pmm ∧
      (0 < n → ¬ NoPage s.pmm →
        freeCount (fillSection content n j phys s).2.2.pmm < freeCount s.pmm) := by
  induction n generalizing j phys s with
  | zero => exact ⟨le_rfl, fun h => absurd h (Nat.lt_irrefl 0)⟩
  | succ n ih =>
    have h1 := freeCount_allocPage_le s.pmm
    have strict : ¬ NoPage s.pmm → freeCount (allocPage s.pmm).2 < freeCount s.pmm := by
      intro hn
      rcases freeCount_allocPage s.pmm with ⟨h0, -⟩ | h
      · exact absurd h0 hn
      · omega
    rw [fillSection]
    split
    case isTrue => exact ⟨h1, fun _ => strict⟩
    case isFalse =>
      have rest := (ih (j + 1) (Function.update phys j (allocPage s.pmm).1)
        { s with pmm := (allocPage s.pmm).2, mem := fill s.mem (allocPage s.pmm).1 (content j) }).1
      exact ⟨rest.trans h1, fun _ hn => rest.trans_lt (strict hn)⟩

/-! ## Sections and the heap cursor -/

section

variable {plat : Platform} {k k' : NtState} {i : Nat}

theorem fillSection_noPage {content : Nat → Table} {n j : Nat} {phys : Nat → u64} {s : Vmm}
    (hn : 0 < n) (h : NoPage s.pmm) : fillSection content n j phys s = (false, phys, s) := by
  cases n with
  | zero => exact absurd hn (Nat.lt_irrefl 0)
  | succ n =>
    rw [fillSection, h.allocPage]
    rfl

theorem freeSection_some {slot : Fin SECTION_SLOTS} (h : freeSection k = some slot) :
    (k.sections slot).inUse = false := by
  simpa using List.find?_some h

theorem createSection_failed {size : u64} {content : Nat → Table}
    (h : createSection k size content = (0, k')) : NoTrace k k' i ↔ RefusesSection k size := by
  unfold createSection at h
  split at h
  case isTrue hsize =>
    cases h
    exact ⟨fun _ => hsize.imp_right .inl, fun _ => .refl k i⟩
  case isFalse hsize =>
    split at h
    case h_1 hslot =>
      cases h
      exact ⟨fun _ => .inr (.inr (.inl hslot)), fun _ => .refl k i⟩
    case h_2 slot hslot =>
      generalize hr : fillSection content (pagesOf size).toNat 0 (k.sections slot).phys k.vmm = r at h
      obtain ⟨hret, rfl⟩ := Prod.mk.inj h
      have failed : r.1 = false := by
        cases hr1 : r.1 with
        | false => rfl
        | true =>
          rw [hr1, if_pos rfl] at hret
          have all : ∀ j : Fin SECTION_SLOTS, BitVec.ofNat 64 (j.val + 1) ≠ 0 := by decide
          exact absurd hret (all slot)
      have some_pages : 0 < (pagesOf size).toNat := by
        refine Nat.pos_of_ne_zero fun h0 => ?_
        rw [h0, fillSection] at hr
        rw [← hr] at failed
        cases failed
      have count := fillSection_freeCount content (pagesOf size).toNat 0 (k.sections slot).phys k.vmm
      rw [hr] at count
      constructor
      · intro trace
        refine .inr (.inr (.inr ?_))
        by_contra hpage
        exact Nat.ne_of_lt (count.2 some_pages hpage) trace.freePages
      · rintro (h0 | h0 | h0 | hpage)
        · exact absurd (.inl h0) hsize
        · exact absurd (.inr h0) hsize
        · rw [h0] at hslot
          cases hslot
        · rw [fillSection_noPage some_pages hpage] at hr
          subst hr
          refine ⟨rfl, fun _ p hp => ⟨p, hp, rfl, rfl⟩, fun _ _ _ => rfl, fun j => ?_, rfl, rfl⟩
          show KSection.held (Function.update k.sections slot _ j) = _
          rw [Function.update_apply]
          split
          case isTrue hj =>
            rw [hj, KSection.held, KSection.held, freeSection_some hslot]
            rfl
          case isFalse => rfl

/-- The heap cursor of the caller moved up by so many bytes. -/
def Bumped (k k' : NtState) (i : Nat) (length : u64) : Prop :=
  ∀ p : Process, k.processes[i]? = some p →
    ∃ p' : Process, k'.processes[i]? = some p' ∧ p'.userHeapCursor = p.userHeapCursor + length

theorem bumped_bumpCursor (k : NtState) (i : Nat) (length : u64) :
    Bumped k (k.bumpCursor i length) i length := by
  intro p hp
  refine ⟨{ p with userHeapCursor := p.userHeapCursor + length }, ?_, rfl⟩
  simp only [NtState.bumpCursor, NtState.updateProcess, List.getElem?_modify, hp]
  simp

/-- A cursor that has moved is a trace. -/
theorem Bumped.trace {length : u64} {p : Process} (h : Bumped k k' i length)
    (hp : k.processes[i]? = some p) (hne : length ≠ 0) : ¬ NoTrace k k' i := by
  intro trace
  obtain ⟨p', hp', moved⟩ := h p hp
  obtain ⟨q, hq, same, -⟩ := trace.processes i p hp
  rw [hp'] at hq
  obtain rfl := Option.some.inj hq
  rw [moved] at same
  refine hne (BitVec.eq_of_toNat_eq ?_)
  have h1 := congrArg BitVec.toNat same
  have h2 := p.userHeapCursor.isLt
  have h3 := length.isLt
  rw [BitVec.toNat_add] at h1
  show length.toNat = 0
  omega

/-- No process's heap cursor moves. -/
def KeepsCursors (k k' : NtState) : Prop :=
  ∀ (j : Nat) (p : Process), k.processes[j]? = some p →
    ∃ p' : Process, k'.processes[j]? = some p' ∧ p'.userHeapCursor = p.userHeapCursor

theorem KeepsCursors.trans {k₁ k₂ k₃ : NtState} (h : KeepsCursors k₁ k₂) (h' : KeepsCursors k₂ k₃) :
    KeepsCursors k₁ k₃ := by
  intro j p hp
  obtain ⟨q, hq, e⟩ := h j p hp
  obtain ⟨r, hr, e'⟩ := h' j q hq
  exact ⟨r, hr, e'.trans e⟩

theorem keepsCursors_updateProcess (k : NtState) (i : Nat) {f : Process → Process}
    (hf : ∀ p, (f p).userHeapCursor = p.userHeapCursor) : KeepsCursors k (k.updateProcess i f) := by
  intro j p hp
  refine ⟨if i = j then f p else p, ?_, ?_⟩
  · simp only [NtState.updateProcess, List.getElem?_modify, hp]
    simp
  · split
    case isTrue => exact hf p
    case isFalse => rfl

theorem setupTeb_keepsCursors (k : NtState) (i : Nat) (p : Process) (tid : u32) (top : u64) :
    KeepsCursors k (setupTeb k i p tid top).2 := by
  rw [setupTeb]
  split
  case isTrue => exact fun j q hq => ⟨q, hq, rfl⟩
  case isFalse => exact keepsCursors_updateProcess k i fun _ => rfl

theorem newThread_keepsCursors (k : NtState) (i : Nat) (p : Process) (base va : u64) :
    KeepsCursors k (newThread k i p base va).2 := by
  have counted : KeepsCursors k (({ k with nextTid := k.nextTid + 1#32 } : NtState).updateProcess i
      fun p => { p with threadCount := p.threadCount + 1#32 }) :=
    keepsCursors_updateProcess k i fun _ => rfl
  exact counted.trans (setupTeb_keepsCursors _ i p k.nextTid va)

theorem createUserThread_keepsCursors (plat : Platform) (k : NtState) (i : Nat) (p : Process)
    (entry va arg : u64) : KeepsCursors k (createUserThread plat k i p entry va arg).2 := by
  have stack : KeepsCursors k (kernelStack plat k entry va arg).2 := by
    rw [kernelStack]
    simp only
    split <;> exact fun j q hq => ⟨q, hq, rfl⟩
  rw [createUserThread]
  simp only
  split
  case isTrue => exact stack
  case isFalse =>
    split
    case h_1 => exact stack
    case h_2 heap _ =>
      have counted : KeepsCursors (kernelStack plat k entry va arg).2
          { (kernelStack plat k entry va arg).2 with heap := heap } := fun j q hq => ⟨q, hq, rfl⟩
      exact stack.trans (counted.trans (newThread_keepsCursors _ i p _ va))

theorem Bumped.after {length : u64} {k₁ k₂ : NtState} (h : Bumped k k₁ i length)
    (h' : KeepsCursors k₁ k₂) : Bumped k k₂ i length := by
  intro p hp
  obtain ⟨q, hq, e⟩ := h p hp
  obtain ⟨r, hr, e'⟩ := h' i q hq
  exact ⟨r, hr, e'.trans e⟩

/-- Moving the cursor by nothing is no trace. -/
theorem noTrace_bump_zero (k : NtState) (i : Nat) : NoTrace k (k.bumpCursor i 0) i := by
  refine ⟨rfl, fun j p hp => ?_, fun _ _ _ => rfl, fun _ => rfl, rfl, rfl⟩
  refine ⟨if i = j then { p with userHeapCursor := p.userHeapCursor + 0 } else p, ?_, ?_⟩
  · simp only [NtState.bumpCursor, NtState.updateProcess, List.getElem?_modify, hp]
    simp
  · split
    case isTrue => exact ⟨BitVec.add_zero _, rfl⟩
    case isFalse => exact ⟨rfl, rfl⟩

theorem pagesOf_lt (size : u64) : (pagesOf size).toNat < 2 ^ 52 := by
  have h := (size + (pageSize64 - 1#64)).isLt
  rw [pagesOf, BitVec.toNat_udiv]
  show _ / 4096 < _
  omega

/-- Up to 2^52 pages only none has length 0. -/
theorem pagesLength_eq_zero {n : u64} (hn : n.toNat < 2 ^ 52) (h : pagesLength n = 0) :
    n.toNat = 0 := by
  have h1 := congrArg BitVec.toNat h
  rw [pagesLength, BitVec.toNat_mul] at h1
  have h1 : n.toNat * 4096 % 2 ^ 64 = 0 := h1
  omega

/-- What the calls on the heap cursor share: past the check they fail with a trace,
unless nothing was asked for. -/
theorem Bumped.refused_iff {length : u64} {p : Process} (hp : k.processes[i]? = some p)
    (hroom : ¬ p.userHeapCursor + length > HEAP_MAX) (h : Bumped k k' i length)
    (h0 : length = 0 → NoTrace k k' i) : NoTrace k k' i ↔ NoRoom k i length := by
  constructor
  · intro trace
    by_contra hno
    exact h.trace hp (fun e => hno (.inl e)) trace
  · rintro (e | hfull)
    · exact h0 e
    · exact absurd (hfull p hp) hroom

theorem ntAllocVm_failed {size : u64} (h : ntAllocVm k i size = (0, k')) :
    NoTrace k k' i ↔ size = 0 ∨ NoRoom k i (pagesLength (pagesOf size)) := by
  unfold ntAllocVm at h
  split at h
  case isTrue h0 =>
    cases h
    exact ⟨fun _ => .inl h0, fun _ => .refl k i⟩
  case isFalse h0 =>
    simp only at h
    split at h
    case h_1 hp =>
      cases h
      exact ⟨fun _ => .inr (.inr fun p hp' => by rw [hp] at hp'; cases hp'), fun _ => .refl k i⟩
    case h_2 p hp =>
      split at h
      case isTrue hfull =>
        cases h
        refine ⟨fun _ => .inr (.inr fun q hq => ?_), fun _ => .refl k i⟩
        rw [hp] at hq
        exact Option.some.inj hq ▸ hfull
      case isFalse hroom =>
        obtain ⟨-, rfl⟩ := Prod.mk.inj h
        rw [or_iff_right h0]
        refine Bumped.refused_iff hp hroom (bumped_bumpCursor k i _) fun hlen => ?_
        rw [pagesLength_eq_zero (pagesOf_lt size) hlen, hlen]
        exact noTrace_bump_zero k i

theorem ntMapView_failed {handle : u64} (h : ntMapView k i handle = (0, k')) :
    NoTrace k k' i ↔ ∀ sec, sectionOf k handle = some sec →
      NoRoom k i (pagesLength (BitVec.ofNat 64 sec.pageCount)) := by
  unfold ntMapView at h
  split at h
  case h_1 sec p hsec hp =>
    have only : (∀ s, sectionOf k handle = some s →
        NoRoom k i (pagesLength (BitVec.ofNat 64 s.pageCount))) ↔
        NoRoom k i (pagesLength (BitVec.ofNat 64 sec.pageCount)) :=
      ⟨fun h => h sec hsec, fun h s hs => by rw [hsec] at hs; exact Option.some.inj hs ▸ h⟩
    rw [only]
    simp only at h
    split at h
    case isTrue hfull =>
      cases h
      refine ⟨fun _ => .inr fun q hq => ?_, fun _ => .refl k i⟩
      rw [hp] at hq
      exact Option.some.inj hq ▸ hfull
    case isFalse hroom =>
      obtain ⟨-, rfl⟩ := Prod.mk.inj h
      refine Bumped.refused_iff hp hroom (bumped_bumpCursor k i _) fun hlen => ?_
      have bound : sec.pageCount ≤ 32 := sec.bound
      have none_left := pagesLength_eq_zero (by rw [BitVec.toNat_ofNat]; omega) hlen
      have count : sec.pageCount = 0 := by
        rw [BitVec.toNat_ofNat] at none_left
        omega
      rw [count, show pagesLength (BitVec.ofNat 64 0) = 0 from rfl]
      exact noTrace_bump_zero k i
  case h_2 hnot =>
    cases h
    refine ⟨fun _ sec hsec => .inr fun p hp => ?_, fun _ => .refl k i⟩
    exact absurd hp (fun hp => hnot sec p hsec hp)

theorem ntCreateThread_failed {entry arg : u64} (h : ntCreateThread plat k i entry arg = (0, k')) :
    NoTrace k k' i ↔ NoRoom k i STACK_SIZE := by
  unfold ntCreateThread at h
  split at h
  case h_1 hp =>
    cases h
    exact ⟨fun _ => .inr fun p hp' => (by rw [hp] at hp'; cases hp'), fun _ => .refl k i⟩
  case h_2 p hp =>
    simp only at h
    split at h
    case isTrue hfull =>
      cases h
      refine ⟨fun _ => .inr fun q hq => ?_, fun _ => .refl k i⟩
      rw [hp] at hq
      exact Option.some.inj hq ▸ hfull
    case isFalse hroom =>
      have moved : Bumped k k' i STACK_SIZE := by
        split at h
        case isTrue =>
          cases h
          exact bumped_bumpCursor k i STACK_SIZE
        case isFalse =>
          have keeps := createUserThread_keepsCursors plat ((k.bumpCursor i STACK_SIZE).withVmm
            (mapZeroed p.cr3 p.userHeapCursor STACK_PAGES 0 (k.bumpCursor i STACK_SIZE).vmm).2) i p
            entry (p.userHeapCursor + STACK_SIZE) arg
          have moved : Bumped k _ i STACK_SIZE := Bumped.after (bumped_bumpCursor k i _) keeps
          split at h
          case h_1 k₁ heq =>
            cases h
            rw [heq] at moved
            exact moved
          case h_2 t k₁ heq =>
            obtain ⟨-, rfl⟩ := Prod.mk.inj h
            rw [heq] at moved
            exact moved
      exact moved.refused_iff hp hroom fun h0 => absurd h0 (by decide)

/-! ## Child processes -/

/-- `CreateUserPml4` fails without a trace if it does not get its pages; else it
takes two. -/
theorem createUserPml4_freeCount (s : Vmm) :
    ((createUserPml4 s).1 = 0 ∧
      (freeCount (createUserPml4 s).2.pmm = freeCount s.pmm ↔ NoSpace s.pmm)) ∨
    ((createUserPml4 s).1 ≠ 0 ∧ freeCount (createUserPml4 s).2.pmm < freeCount s.pmm ∧
      ¬ NoSpace s.pmm) := by
  rw [createUserPml4]
  rcases freeCount_allocPage s.pmm with ⟨hn, h0⟩ | hc
  case inl =>
    simp only [h0, if_true]
    exact .inl ⟨trivial, fun _ => .inl hn, fun _ => trivial⟩
  case inr =>
    have first : ¬ NoPage s.pmm := fun hn => by
      rw [hn.allocPage] at hc
      exact Nat.succ_ne_self _ hc
    simp only
    split
    case isTrue hr =>
      refine .inl ⟨rfl, fun h => ?_, fun h => ?_⟩
      · have h : freeCount (allocPage s.pmm).2 = freeCount s.pmm := h
        omega
      · exact (h.resolve_left first).1.elim hr
    case isFalse hr =>
      rcases freeCount_allocPage (allocPage s.pmm).2 with ⟨hn, h0⟩ | hc'
      case inl =>
        simp only [h0, if_true]
        refine .inl ⟨trivial, fun _ => .inr ⟨hr, hn⟩, fun _ => ?_⟩
        rcases allocPage_cases s.pmm with ⟨i, hi, ht⟩ | ⟨h1, -⟩
        · rw [hi]
          exact freeCount_freePage_takes ht
        · rw [h1] at hr
          exact absurd rfl hr
      case inr =>
        have second : ¬ NoPage (allocPage s.pmm).2 := fun hn => by
          rw [hn.allocPage] at hc'
          exact Nat.succ_ne_self _ hc'
        have no : ¬ NoSpace s.pmm := fun h => h.elim first fun h => second h.2
        split
        case isTrue =>
          refine .inl ⟨rfl, fun h => ?_, fun h => absurd h no⟩
          have back := freeCount_freePage_le (allocPage (allocPage s.pmm).2).2 (allocPage s.pmm).1
          have h : freeCount (freePage (allocPage (allocPage s.pmm).2).2 (allocPage s.pmm).1) =
            freeCount s.pmm := h
          omega
        case isFalse =>
          refine .inr ⟨hr, ?_, no⟩
          show freeCount (allocPage (allocPage s.pmm).2).2 < _
          omega

/-- Without pages, `CreateUserPml4` writes to a free page at most. -/
theorem createUserPml4_noSpace {s : Vmm} (h : NoSpace s.pmm) {t : u64} (ht : Used s t) :
    (createUserPml4 s).2.mem t = s.mem t := by
  rw [createUserPml4]
  rcases h with hn | ⟨hr, hn⟩
  · simp only [hn.allocPage, if_true]
  · simp only [if_neg hr, hn.allocPage, if_true]
    rcases allocPage_cases s.pmm with ⟨i, hi, taken⟩ | ⟨h1, -⟩
    · have apart : t ≠ pageAddr i := by
        rintro rfl
        exact not_used_free taken le_rfl (by omega) ht
      rw [hi, fill_of_ne apart, fill_of_ne apart]
    · rw [h1] at hr
      exact absurd rfl hr

theorem psCreateProcess_freeCount (k : NtState) (cr3 : u64) (pages : Nat → Table) :
    freeCount (psCreateProcess k cr3 pages).2.vmm.pmm ≤ freeCount k.vmm.pmm := by
  rw [psCreateProcess]
  split
  case h_1 => exact le_rfl
  case h_2 => exact createProcess_freeCount k.loader cr3 pages

/-- A launch either gets no address space or has taken the two pages of one. -/
theorem launchImage_cases (plat : Platform) (k : NtState) (kind : Launcher) (f : Image)
    (pages : Nat → Table) :
    ((newSpace k.loader).1 = 0 ∧ launchImage plat k kind f pages =
      (.failed, { k with loader := (newSpace k.loader).2 })) ∨
    ((newSpace k.loader).1 ≠ 0 ∧ freeCount (launchImage plat k kind f pages).2.vmm.pmm ≤
      freeCount (newSpace k.loader).2.sys.vmm.pmm) := by
  rw [launchImage]
  simp only
  split
  case isTrue h0 => exact .inl ⟨h0, rfl⟩
  case isFalse h0 =>
    refine .inr ⟨h0, ?_⟩
    have created := psCreateProcess_freeCount { k with loader := (newSpace k.loader).2 }
      (newSpace k.loader).1 pages
    split
    case h_1 k₁ heq =>
      rw [heq] at created
      exact created
    case h_2 j k₁ heq =>
      rw [heq] at created
      have libs := (loadLibraries_freeCount plat.fuel (newSpace k.loader).1 k₁.loader
        (plat.libs.of kind)).trans created
      split
      case isTrue => exact libs
      case isFalse =>
        have loaded := (loadPe_freeCount plat.fuel (loadLibraries plat.fuel (newSpace k.loader).1
          k₁.loader (plat.libs.of kind)) f (newSpace k.loader).1 (kind.loadBase f)).trans libs
        split <;> exact loaded

theorem startThread_freeCount (plat : Platform) (k : NtState) (i : Nat) (entry top : u64) :
    freeCount (startThread plat k i entry top).2.vmm.pmm ≤ freeCount k.vmm.pmm := by
  rw [startThread]
  split
  case h_1 => exact le_rfl
  case h_2 p _ =>
    have h1 := createUserThread_freeCount plat k i p entry top 0
    split
    case h_1 k₁ heq => rw [heq] at h1; exact h1
    case h_2 t k₁ heq => rw [heq] at h1; exact h1

theorem finishProcess_freeCount (plat : Platform) (k : NtState) (i : Nat) (cr3 entry base : u64) :
    freeCount (finishProcess plat k i cr3 entry base).2.vmm.pmm ≤ freeCount k.vmm.pmm := by
  have h1 := mapZeroed_freeCount cr3 base STACK_PAGES 0 k.vmm
  rw [finishProcess]
  simp only
  split
  case isTrue => exact h1
  case isFalse =>
    have h2 := (startThread_freeCount plat (k.withVmm (mapZeroed cr3 base STACK_PAGES 0 k.vmm).2) i
      entry (base + STACK_SIZE)).trans h1
    split
    case isTrue => exact h2
    case isFalse => split <;> exact h2

theorem ntCreateProcess_failed {file : Option Image} {pages : Nat → Table} (huse : TablesInUse k i)
    (h : ntCreateProcess plat k file pages = (some 0, k')) :
    NoTrace k k' i ↔ ∀ f, file = some f → f.size = 0 ∨ NoSpace k.vmm.pmm := by
  unfold ntCreateProcess at h
  split at h
  case h_1 =>
    obtain ⟨-, rfl⟩ := Prod.mk.inj h
    exact ⟨fun _ f hf => absurd hf (Option.some_ne_none f).symm, fun _ => .refl k i⟩
  case h_2 f =>
    have only : (∀ g, some f = some g → g.size = 0 ∨ NoSpace k.vmm.pmm) ↔
        f.size = 0 ∨ NoSpace k.vmm.pmm :=
      ⟨fun h => h f rfl, fun h g hg => Option.some.inj hg ▸ h⟩
    rw [only]
    split at h
    case isTrue hsize =>
      obtain ⟨-, rfl⟩ := Prod.mk.inj h
      exact ⟨fun _ => .inl hsize, fun _ => .refl k i⟩
    case isFalse hsize =>
      rw [or_iff_right hsize]
      rcases launchImage_cases plat k .ntCreateProcess f pages with ⟨h0, heq⟩ | ⟨h0, hle⟩
      case inl =>
        rw [heq] at h
        obtain ⟨-, rfl⟩ := Prod.mk.inj h
        obtain ⟨-, count⟩ := (createUserPml4_freeCount k.vmm).resolve_right fun h => h.1 h0
        refine ⟨fun trace => count.mp trace.freePages, fun no => ?_⟩
        refine ⟨count.mpr no, fun _ p hp => ⟨p, hp, rfl, rfl⟩, fun p hp v => ?_, fun _ => rfl, rfl,
          rfl⟩
        show translateInPml4 (createUserPml4 k.vmm).2.mem p.cr3 v = _
        rw [translateInPml4_eq, translateInPml4_eq, VMM.entries, VMM.entries, walk_congr]
        intro r j q t hq ht
        have hlen := congrArg List.length hq
        rw [path_length, List.length_append, List.length_cons] at hlen
        rw [createUserPml4_noSpace no (huse p hp r t (by omega) ht)]
      case inr =>
        obtain ⟨-, fewer, no⟩ := (createUserPml4_freeCount k.vmm).resolve_left fun h => h0 h.1
        have less : freeCount k'.vmm.pmm < freeCount k.vmm.pmm := by
          refine lt_of_le_of_lt ?_ fewer
          split at h
          case h_1 k₁ heq =>
            obtain ⟨-, rfl⟩ := Prod.mk.inj h
            rw [heq] at hle
            exact hle
          case h_2 k₁ heq =>
            obtain ⟨no, -⟩ := Prod.mk.inj h
            cases no
          case h_3 j cr3 status entry k₁ heq =>
            rw [heq] at hle
            split at h
            case h_1 e =>
              obtain ⟨-, rfl⟩ := Prod.mk.inj h
              exact (finishProcess_freeCount plat k₁ j cr3 e _).trans hle
            case h_2 =>
              obtain ⟨-, rfl⟩ := Prod.mk.inj h
              exact hle
        exact ⟨fun trace => absurd trace.freePages (Nat.ne_of_lt less), fun h => absurd h no⟩

/-- **A failed call leaves no trace exactly when its first checks refused it.** -/
theorem failed_call_no_trace_iff (plat : Platform) (k k' : NtState) (i : Nat) (c : MemoryCall)
    (hc : c.ReportsFailure) (huse : TablesInUse k i) (h : call plat k i c = (some 0, k')) :
    NoTrace k k' i ↔ Refused k i c := by
  have returned : ∀ r : u64 × NtState, Prod.map some id r = (some 0, k') → r = (0, k') := by
    intro r hr
    obtain ⟨h1, h2⟩ := Prod.mk.inj hr
    exact Prod.ext (Option.some.inj h1) h2
  cases c with
  | ntCreateSection size => exact createSection_failed (returned (ntCreateSection k size) h)
  | ntCreateFileSection file =>
    have h := returned (ntCreateFileSection k file) h
    cases file with
    | none =>
      cases h
      exact ⟨fun _ f hf => absurd hf (Option.some_ne_none f).symm, fun _ => .refl k i⟩
    | some f =>
      have only : Refused k i (.ntCreateFileSection (some f)) ↔
          f.size = 0 ∨ RefusesSection k (BitVec.ofNat 64 f.size) :=
        ⟨fun h => h f rfl, fun h g hg => Option.some.inj hg ▸ h⟩
      rw [only]
      rw [ntCreateFileSection] at h
      split at h
      case isTrue h0 =>
        cases h
        exact ⟨fun _ => .inl h0, fun _ => .refl k i⟩
      case isFalse h0 =>
        rw [or_iff_right h0]
        exact createSection_failed h
  | ntAllocVm size => exact ntAllocVm_failed (returned (ntAllocVm k i size) h)
  | ntCreateThread entry arg =>
    exact ntCreateThread_failed (returned (ntCreateThread plat k i entry arg) h)
  | ntMapView handle => exact ntMapView_failed (returned (ntMapView k i handle) h)
  | ntCreateProcess file pages => exact ntCreateProcess_failed huse h
  | bg file pages => exact hc.elim
  | winexec file pages => exact hc.elim
  | ntLoadLibrary name => exact hc.elim

end

/-! ## Out of memory -/

/-- No library and no catalog. -/
def barePlatform : Platform where
  fuel := 0
  libs := ⟨⟨[], ⟨fun _ => 0, 0⟩, 0⟩, ⟨[], ⟨fun _ => 0, 0⟩, 0⟩⟩
  catalog := []
  userThreadEntry := 0

/-- One process, and every page taken. -/
def outOfMemory : NtState where
  loader :=
    { sys :=
        { vmm := { mem := fun _ _ => 0, pmm := { allReserved with searchHint := MAX_PAGES }
                   pml4Phys := 0x1000#64 }
          spaces := [0x2000#64], live := [] }
      mods := [], procs := [⟨0x2000#64, 0, 0⟩] }
  heap := ⟨0, 0, 0⟩
  processes := [⟨1#32, 0x2000#64, HEAP_START, 0, 0, 1#32⟩]
  threads := [⟨1#32, 0, 0, 0⟩]
  nextPid := 2#32
  nextTid := 2#32
  sections _ := ⟨fun _ => 0, 0, false, by decide⟩
  procTable _ := none
  ready := []

theorem outOfMemory_noPage : NoPage outOfMemory.vmm.pmm := fun q _ _ => allReserved_bitmap q

theorem outOfMemory_inUse : TablesInUse outOfMemory 0 := by
  intro p _ q t _ _ page _ hfree
  rw [show outOfMemory.vmm.pmm.bitmap = allReserved.bitmap from rfl, allReserved_bitmap] at hfree
  cases hfree

theorem outOfMemory_allocVm :
    ∃ k', call barePlatform outOfMemory 0 (.ntAllocVm 1#64) = (some 0, k') := ⟨_, rfl⟩

theorem failed_call_no_trace_iff_outOfMemory :
    ∃ k', call barePlatform outOfMemory 0 (.ntAllocVm 1#64) = (some 0, k') ∧
      (NoTrace outOfMemory k' 0 ↔ Refused outOfMemory 0 (.ntAllocVm 1#64)) := by
  obtain ⟨k', h⟩ := outOfMemory_allocVm
  exact ⟨k', h, failed_call_no_trace_iff barePlatform outOfMemory k' 0 (.ntAllocVm 1#64) trivial
    outOfMemory_inUse h⟩

/-- `NtAllocateVirtualMemory` of one byte fails for want of a page, and the heap
cursor has moved. -/
theorem outOfMemory_leaves_trace :
    ∃ k', call barePlatform outOfMemory 0 (.ntAllocVm 1#64) = (some 0, k') ∧
      ¬ NoTrace outOfMemory k' 0 := by
  obtain ⟨k', h⟩ := outOfMemory_allocVm
  refine ⟨k', h, fun trace => ?_⟩
  obtain ⟨h1, h2⟩ := Prod.mk.inj h
  have failed : ntAllocVm outOfMemory 0 1#64 = (0, k') := Prod.ext (Option.some.inj h1) h2
  rcases (ntAllocVm_failed failed).mp trace with h0 | h0 | h0
  · exact absurd h0 (by decide)
  · exact absurd h0 (by decide)
  · exact absurd (h0 _ rfl) (by decide)

end MicroNT.Kernel
