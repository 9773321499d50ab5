import MicroNT.HeapCalls
import MicroNT.PageStores

/-! # Sections of files (`syscall.cpp`)

`NtCreateFileSection` copies a file of the boot loader to the pages of a section. Each
view of the section shows these pages, at the heap cursor of the process that maps it. -/

namespace MicroNT.Kernel

open MicroNT.PMM hiding step Op System
open MicroNT.VMM MicroNT.Boot MicroNT.Base.Radix MicroNT.Base.Machine
open FileIo (BootFile)

/-! ## Runs -/

/-- What `NtMapViewOfSection` has returned to a process. -/
structure View where
  process : Nat
  handle : u64
  va : u64

/-- The kernel, with the handles that `NtCreateFileSection` has returned for files and the
views of sections. -/
structure Watched where
  nt : NtState
  files : List (u64 × Image)
  views : List View

/-- A new process, as the launchers begin. -/
def newProcess (k : NtState) (pages : Nat → Table) : NtState :=
  let r := newSpace k.loader
  let k := { k with loader := r.2 }
  if r.1 = 0 then k else (psCreateProcess k r.1 pages).2

/-- A call on the heap, the creation of a process, or what other parts of the kernel do to
pages and page tables. -/
inductive SectionEvent
  | call (i : Nat) (c : HeapCall)
  | createProcess (pages : Nat → Table)
  | system (op : Op)

/-- The file of a new section. -/
def sectionFile (boot : List BootFile) (k : NtState) (i : Nat) : HeapCall → Option Image
  | .ntCreateFileSection va len => namedFile boot k i va len
  | _ => none

/-- The handle of a new view. -/
def viewHandle : HeapCall → Option u64
  | .ntMapView handle => some handle
  | _ => none

/-- What a call leaves behind, and what it returns unless that is 0. -/
def Watched.call (boot : List BootFile) (w : Watched) (i : Nat) (c : HeapCall) : Watched :=
  let r := heapCall boot w.nt i c
  if r.1 = 0 then { w with nt := r.2 }
  else
    { nt := r.2
      files := ((sectionFile boot w.nt i c).map fun f => (r.1, f)).toList ++ w.files
      views := ((viewHandle c).map fun h => ⟨i, h, r.1⟩).toList ++ w.views }

/-- A step. Once other parts of the kernel have worked on the pages, what was returned
before is not followed any further. -/
def stepSections (boot : List BootFile) (w : Watched) : SectionEvent → Option Watched
  | .call i c =>
    match w.nt.processes[i]? with
    | none => none
    | some p => if p.cr3 ∈ w.nt.loader.sys.spaces then some (w.call boot i c) else none
  | .createProcess pages => some { w with nt := newProcess w.nt pages }
  | .system op => (step w.nt.loader.sys op).map fun t =>
      ⟨{ w.nt with loader := { w.nt.loader with sys := t } }, [], []⟩

/-- An allocation fits in the address space behind the cursor of its process. -/
def AllocationFits (w : Watched) : SectionEvent → Prop
  | .call i c => ∀ p, w.nt.processes[i]? = some p → c.Fits p
  | _ => True

/-- After boot there is the System process, and no section. -/
def startNt (v : Vmm) (heap : KernelHeap) : NtState where
  loader := startLoader v
  heap := heap
  processes := [⟨0, v.pml4Phys, 0, 0, 0, 1⟩]
  threads := []
  nextPid := 1
  nextTid := 1
  sections := fun _ => ⟨fun _ => 0, 0, false, Nat.zero_le _⟩
  procTable := fun _ => none
  ready := []

/-! ## What is promised -/

/-- The pages of a section of the file. -/
def Image.sectionPages (f : Image) : Nat := (f.size + (PAGE_SIZE - 1)) / PAGE_SIZE

/-- The file has pages, and a section has room for them. -/
def Image.FitsSection (f : Image) : Prop := 0 < f.size ∧ f.size ≤ MAX_SECTION_PAGES * PAGE_SIZE

/-- The process reads the file from `va` on, with zeros up to the end of the last page. -/
def ShowsFile (f : Image) (k : NtState) (p : Process) (va : u64) : Prop :=
  ∀ x, x < f.sectionPages * PAGE_SIZE →
    translateInPml4 k.vmm.mem p.cr3 (va + BitVec.ofNat 64 x) ≠ 0 ∧
      byteAt k.vmm.mem p.cr3 (va + BitVec.ofNat 64 x) = if x < f.size then f.bytes x else 0

/-- Two views show the same memory: what is written through one is read through the other. -/
def SharesView (n : Nat) (k : NtState) (p : Process) (va : u64) (q : Process) (va' : u64) : Prop :=
  ∀ x, x < n * PAGE_SIZE →
    translateInPml4 k.vmm.mem p.cr3 (va + BitVec.ofNat 64 x) =
        translateInPml4 k.vmm.mem q.cr3 (va' + BitVec.ofNat 64 x) ∧
      ∀ b, byteAt (writeUserByte k.vmm.mem p.cr3 (va + BitVec.ofNat 64 x) b).2.1 q.cr3
        (va' + BitVec.ofNat 64 x) = b

/-- Every view of a file's section shows the file, and shares it with the others. -/
structure RoundTrip (w : Watched) : Prop where
  shows : ∀ x ∈ w.files, x.2.FitsSection → ∀ y ∈ w.views, y.handle = x.1 →
    ∀ p, w.nt.processes[y.process]? = some p → ShowsFile x.2 w.nt p y.va
  shares : ∀ x ∈ w.files, x.2.FitsSection → ∀ y ∈ w.views, ∀ z ∈ w.views, y.handle = x.1 →
    z.handle = x.1 → ∀ p q, w.nt.processes[y.process]? = some p →
      w.nt.processes[z.process]? = some q → SharesView x.2.sectionPages w.nt p y.va q z.va

/-! ## What a view shows -/

section

variable {R : Rows} {shown : Bool} {k : NtState} {i j : Nat} {p q : Process} {va va' : u64}
  {content : Nat → Table} {phys : Nat → u64} {n : Nat}

/-- A page of a view is in place. -/
theorem Viewed.lies (h : Viewed k i p va phys n) (filled : Filled k.loader.sys content phys n)
    {a : Nat} (ha : a < n) :
    Lies p.cr3 (fun _ => False) k.vmm ⟨va + pageAddr a, true, content a⟩ (phys a) :=
  (filled a ha).lies h.user.2 (h.pages a ha)

/-- Byte `x` of a view lies in one of its pages. -/
theorem view_byte (va : u64) {x : Nat} (hx : x < n * PAGE_SIZE) :
    x / PAGE_SIZE < n ∧ x % PAGE_SIZE < PAGE_SIZE ∧ va + BitVec.ofNat 64 x =
      va + pageAddr (x / PAGE_SIZE) + BitVec.ofNat 64 (x % PAGE_SIZE) := by
  refine ⟨Nat.div_lt_of_lt_mul (by rwa [Nat.mul_comm]), Nat.mod_lt _ (by decide), ?_⟩
  rw [pageAddr, BitVec.add_assoc, ← BitVec.ofNat_add, Nat.div_add_mod']

theorem Viewed.page_aligned (h : Viewed k i p va phys n) (r : Running R k) {a : Nat} (ha : a < n) :
    (va + pageAddr a).toNat % PAGE_SIZE = 0 := by
  obtain ⟨-, -, high⟩ := r.cursor i p h.user
  rw [(heap_page h.aligned (h.below.trans high) ha).1, Nat.add_mul_mod_self_right]
  exact h.aligned

/-- **The bytes of a view** are those of the section's pages. -/
theorem Viewed.byte (h : Viewed k i p va phys n) (r : Running R k)
    (filled : Filled k.loader.sys content phys n) {x : Nat} (hx : x < n * PAGE_SIZE) :
    translateInPml4 k.vmm.mem p.cr3 (va + BitVec.ofNat 64 x) =
        phys (x / PAGE_SIZE) + BitVec.ofNat 64 (x % PAGE_SIZE) ∧
      translateInPml4 k.vmm.mem p.cr3 (va + BitVec.ofNat 64 x) ≠ 0 ∧
      byteAt k.vmm.mem p.cr3 (va + BitVec.ofNat 64 x) =
        byteIn (content (x / PAGE_SIZE)) (x % PAGE_SIZE) := by
  obtain ⟨page, offset, place⟩ := view_byte va hx
  have lies := h.lies filled page
  have aligned := h.page_aligned r page
  have there := lies.translate aligned offset
  rw [place]
  refine ⟨there, ?_, ?_⟩
  · rw [there]
    obtain ⟨low, high⟩ := (isFrame_iff _).mp lies.frame
    intro zero
    refine lies.nonzero (BitVec.eq_of_toNat_eq ?_)
    have sum := congrArg BitVec.toNat zero
    rw [BitVec.toNat_add, (offset_lt offset).2] at sum
    have none : (0 : u64).toNat = 0 := rfl
    simp only [PAGE_SIZE] at *
    omega
  · rw [lies.byteAt_eq aligned offset]
    exact lies.bytes _ offset id

/-- The pages that a file needs. -/
theorem sectionPages_eq {f : Image} (h : f.FitsSection) :
    (pagesOf (BitVec.ofNat 64 f.size)).toNat = f.sectionPages := by
  have small := h.2
  have size : (BitVec.ofNat 64 f.size : u64).toNat = f.size := by
    rw [BitVec.toNat_ofNat]
    simp only [MAX_SECTION_PAGES, PAGE_SIZE] at small
    omega
  have sum : (BitVec.ofNat 64 f.size + (pageSize64 - 1#64)).toNat = f.size + (PAGE_SIZE - 1) := by
    rw [BitVec.toNat_add, size, show (pageSize64 - 1#64).toNat = PAGE_SIZE - 1 from rfl]
    simp only [MAX_SECTION_PAGES, PAGE_SIZE] at small ⊢
    omega
  rw [pagesOf, BitVec.toNat_udiv, sum]
  rfl

/-- **A view of a section of a file** shows the file. -/
theorem Viewed.showsFile (h : Viewed k i p va phys n) (r : Running R k) {f : Image}
    (filled : Filled k.loader.sys (filePage f) phys n) (count : n = f.sectionPages) :
    ShowsFile f k p va := by
  subst count
  intro x hx
  obtain ⟨-, mapped, byte⟩ := h.byte r filled hx
  refine ⟨mapped, ?_⟩
  rw [byte, filePage, byteIn_pageOfBytes _ (Nat.mod_lt x (by decide)), Nat.div_add_mod']

/-- **Two views of a section** share its pages. -/
theorem Viewed.sharesView (h : Viewed k i p va phys n) (h' : Viewed k j q va' phys n)
    (r : Running R k) (filled : Filled k.loader.sys content phys n) : SharesView n k p va q va' := by
  intro x hx
  obtain ⟨here, mapped, -⟩ := h.byte r filled hx
  obtain ⟨there, mapped', -⟩ := h'.byte r filled hx
  refine ⟨here.trans there.symm, fun b => ?_⟩
  obtain ⟨page, offset, -⟩ := view_byte va hx
  have data := filled _ page
  have frame : pageOf (phys (x / PAGE_SIZE) + BitVec.ofNat 64 (x % PAGE_SIZE)) =
      phys (x / PAGE_SIZE) := by
    have inside := pageOf_add (o := 0#64) data.frame (k := x % PAGE_SIZE) (by simpa using offset)
    rwa [BitVec.add_zero] at inside
  -- the page is no table, and so the store leaves the translation alone
  have same : ∀ t, Tables k.loader.sys.IsSpace k.vmm.mem t →
      writeByte k.vmm.mem (phys (x / PAGE_SIZE) + BitVec.ofNat 64 (x % PAGE_SIZE)) b t =
        k.vmm.mem t := by
    intro t ht
    refine write_of_table_ne ?_
    rw [frame]
    rintro rfl
    exact data.data ht
  simp only [writeUserByte, if_neg mapped]
  rw [here, byteAt, readUserByte, translateInPml4_eq, entries_data same (.inr h'.user.2),
    ← translateInPml4_eq, there]
  rw [there] at mapped'
  simp only [if_neg mapped', readByte_writeByte, if_true]

/-! ## Views through the steps -/

/-- A view stays while other pages get their entries. -/
theorem Viewed.moves {k' : NtState} {P : u64 → u64 → Prop} (h : Viewed k i p va phys n)
    (r : Running R k) (m : Moves R P noFrames k.loader.sys k'.loader.sys)
    (apart : ∀ w, P p.cr3 w → p.userHeapCursor.toNat / PAGE_SIZE ≤ (vpn w).toNat)
    (alive : ∃ q : Process, k'.processes[i]? = some q ∧ q.cr3 = p.cr3 ∧
      p.userHeapCursor.toNat ≤ q.userHeapCursor.toNat) : ∃ q, Viewed k' i q va phys n := by
  obtain ⟨q, hq, same, cursor⟩ := alive
  obtain ⟨-, -, high⟩ := r.cursor i p h.user
  have before : va.toNat + n * PAGE_SIZE ≤ HEAP_MAX.toNat := h.below.trans high
  refine ⟨q, ⟨hq, by rw [same]; exact m.spaces _ h.user.2⟩, h.aligned, h.low,
    h.below.trans cursor, fun a ha => ?_⟩
  obtain ⟨place, number⟩ := heap_page h.aligned before ha
  have inside : a * PAGE_SIZE < n * PAGE_SIZE := Nat.mul_lt_mul_of_pos_right ha (by decide)
  rw [same]
  refine (m.entries p.cr3 h.user.2 _ (heap_private ?_ ?_) fun moved => ?_).trans (h.pages a ha)
  · rw [place]
    exact h.low.trans (Nat.le_add_right _ _)
  · rw [place]
    omega
  · have behind := apart _ moved
    have below := h.below
    have aligned := h.aligned
    rw [number] at behind
    simp only [PAGE_SIZE] at *
    omega

theorem Viewed.step {k' : NtState} (h : Viewed k j q va phys n) (r : Running R k)
    (hp : UserProcess k i p) (s : HeapStep R k k' p) : ∃ q, Viewed k' j q va phys n := by
  refine h.moves r s.moves (fun w moved => ?_) (s.alive j q h.user.1)
  obtain rfl := r.own j i q p h.user hp moved.1
  obtain rfl := Option.some.inj (h.user.1.symm.trans hp.1)
  exact moved.2

end

/-! ## New processes -/

section

variable {R : Rows} {shown : Bool} {k k' : NtState} {i : Nat} {p : Process}

/-- A process whose address space is there now had it before. -/
theorem Running.old_user (r : Running R k) (hp : k.processes[i]? = some p) {spaces : List u64}
    (new : ∀ q ∈ spaces, q ∈ k.loader.sys.spaces ∨ ¬ Used k.loader.sys.vmm q)
    (user : p.cr3 ∈ spaces) : UserProcess k i p := by
  rcases new p.cr3 user with old | free
  · exact ⟨hp, old⟩
  · exact absurd (r.sound.space_used (r.known i p hp)) free

/-- Other address spaces and page tables, and the same processes. -/
theorem Running.system (r : Running R k) (sound : Sound R k'.loader.sys)
    (spaces : k'.loader.sys.vmm.pml4Phys = k.loader.sys.vmm.pml4Phys ∧
      (∀ q ∈ k.loader.sys.spaces, q ∈ k'.loader.sys.spaces) ∧
      ∀ q ∈ k'.loader.sys.spaces, q ∈ k.loader.sys.spaces ∨ ¬ Used k.loader.sys.vmm q)
    (processes : k'.processes = k.processes) : Running R k' := by
  obtain ⟨kernel, old, new⟩ := spaces
  have user : ∀ j a, UserProcess k' j a → UserProcess k j a := fun j a ha =>
    r.old_user (by rw [← processes]; exact ha.1) new ha.2
  refine ⟨sound, fun j a ha => ?_, fun j l a b ha hb => r.own j l a b (user j a ha) (user l b hb),
    fun j a ha => r.cursor j a (user j a ha)⟩
  rw [processes] at ha
  rw [System.IsSpace, kernel]
  exact (r.known j a ha).imp id (old a.cr3)

/-- One more process, with an address space that no other has. -/
theorem Running.append (r : Running R k) (sound : Sound R k'.loader.sys)
    (kernel : k'.loader.sys.vmm.pml4Phys = k.loader.sys.vmm.pml4Phys)
    (spaces : k'.loader.sys.spaces = k.loader.sys.spaces)
    (processes : k'.processes = k.processes ++ [p]) (own : p.cr3 ∈ k.loader.sys.spaces)
    (alone : ∀ (j : Nat) (q : Process), k.processes[j]? = some q → q.cr3 ≠ p.cr3)
    (heap : p.userHeapCursor = HEAP_START) : Running R k' := by
  have place : ∀ (j : Nat) (q : Process), k'.processes[j]? = some q →
      k.processes[j]? = some q ∨ (j = k.processes.length ∧ q = p) := by
    intro j q hq
    rw [processes] at hq
    by_cases before : j < k.processes.length
    · rw [List.getElem?_append_left before] at hq
      exact .inl hq
    · rw [List.getElem?_append_right (by omega)] at hq
      obtain ⟨hj, hq⟩ := List.getElem?_eq_some_iff.mp hq
      have last : j - k.processes.length = 0 := by
        rw [List.length_singleton] at hj
        omega
      simp only [last, List.getElem_cons_zero] at hq
      exact .inr ⟨by omega, hq.symm⟩
  refine ⟨sound, fun j a ha => ?_, fun j l a b ha hb same => ?_, fun j a ha => ?_⟩
  · rw [System.IsSpace, kernel, spaces]
    rcases place j a ha with old | ⟨-, rfl⟩
    · exact r.known j a old
    · exact .inr own
  · have hja := ha.2
    have hlb := hb.2
    rw [spaces] at hja hlb
    rcases place j a ha.1 with old | ⟨rfl, rfl⟩ <;> rcases place l b hb.1 with old' | ⟨rfl, rfl⟩
    · exact r.own j l a b ⟨old, hja⟩ ⟨old', hlb⟩ same
    · exact absurd same (alone j a old)
    · exact absurd same.symm (alone l b old')
    · rfl
  · rcases place j a ha.1 with old | ⟨-, rfl⟩
    · exact r.cursor j a ⟨old, by rw [← spaces]; exact ha.2⟩
    · rw [heap]
      decide

/-- The address space of `CreateUserPml4`. -/
theorem Running.newSpace (r : Running R k) (hg : R.Good shown) (P : u64 → u64 → Prop) :
    Running R { k with loader := (newSpace k.loader).2 } ∧
      Moves R P noFrames k.loader.sys (newSpace k.loader).2.sys ∧
      ((newSpace k.loader).1 ≠ 0 → (newSpace k.loader).1 ∈ (newSpace k.loader).2.sys.spaces ∧
        ¬ Used k.loader.sys.vmm (newSpace k.loader).1) := by
  have created : Kernel.step k.loader.sys .createUserPml4 =
      some (Kernel.newSpace k.loader).2.sys := rfl
  have moved := r.sound.createUserPml4 hg created (P := P) (F := noFrames)
  refine ⟨r.system moved.sound (r.sound.step_spaces hg created) rfl, moved, fun nonzero => ?_⟩
  obtain ⟨is, inv⟩ := r.sound.inv
  have space : (Kernel.newSpace k.loader).1 ∈ (Kernel.newSpace k.loader).2.sys.spaces := by
    have some : (createUserPml4 k.loader.sys.vmm).1 ≠ 0 := nonzero
    simp only [Kernel.newSpace, if_neg some]
    exact List.mem_cons_self
  exact ⟨space, createUserPml4_fresh inv hg nonzero⟩

/-- `PS::CreateProcess` changes memory by the process environment only. -/
theorem createProcess_sys (l : Loader) (cr3 : u64) (pages : Nat → Table) :
    (createProcess l cr3 pages).sys =
      { l.sys with vmm := (setupPeb l.sys.vmm cr3 pages).2 } := by
  rw [createProcess]
  simp only
  split <;> rfl

/-- **A new process** gets an address space of its own; the others keep theirs. -/
theorem Running.newProcess (r : Running R k) (hg : R.Good shown) (pages : Nat → Table) :
    Running R (newProcess k pages) ∧
      Moves R (fun b _ => b ∉ k.loader.sys.spaces) noFrames k.loader.sys
        (newProcess k pages).loader.sys ∧
      (∀ h, sectionOf (newProcess k pages) h = sectionOf k h) ∧
      ∀ (j : Nat) (q : Process), k.processes[j]? = some q →
        (newProcess k pages).processes[j]? = some q := by
  obtain ⟨running, moved, created⟩ := r.newSpace hg fun b _ => b ∉ k.loader.sys.spaces
  rw [Kernel.newProcess]
  generalize Kernel.newSpace k.loader = n at *
  split
  case isTrue => exact ⟨running, moved, fun _ => rfl, fun _ _ hq => hq⟩
  case isFalse nonzero =>
    obtain ⟨space, free⟩ := created nonzero
    rw [psCreateProcess]
    cases heap : KernelHeap.alloc k.heap KPROCESS_SIZE 8#64 with
    | none => exact ⟨running, moved, fun _ => rfl, fun _ _ hq => hq⟩
    | some heap =>
      have foreign : n.1 ∉ k.loader.sys.spaces := fun old => free (r.sound.space_used (.inr old))
      have peb := (moved.sound.setupPeb hg space pages).mono
        (Q := fun b _ => b ∉ k.loader.sys.spaces) (fun b w hb => hb.1 ▸ foreign) fun _ no => no
      have sys := createProcess_sys n.2 n.1 pages
      rw [← sys] at peb
      refine ⟨running.append peb.sound peb.kernel (by simp only [sys]) rfl space
        (fun j q hq same => free ?_) rfl, moved.trans peb, fun _ => rfl, fun j q hq => ?_⟩
      · have used := r.sound.space_used (r.known j q hq)
        rwa [same] at used
      · obtain ⟨hj, -⟩ := List.getElem?_eq_some_iff.mp hq
        exact (List.getElem?_append_left hj).trans hq

/-- **A new process** has its environment in place when there is memory. -/
theorem Running.newProcess_succeeds (r : Running R k) (hg : R.Good shown)
    (null : NullPage k.loader.sys) {n : Nat} (plenty : Plenty (18 + n) k.loader.sys.vmm.pmm)
    (room : (k.heap.alloc KPROCESS_SIZE 8#64).isSome = true) (pages : Nat → Table) :
    ∃ p, UserProcess (Kernel.newProcess k pages) k.processes.length p ∧
      p.userHeapCursor = HEAP_START ∧ NullPage (Kernel.newProcess k pages).loader.sys ∧
      Plenty n (Kernel.newProcess k pages).loader.sys.vmm.pmm ∧
      (Kernel.newProcess k pages).sections = k.sections ∧
      ∀ j, j < 4 → InPlace (Kernel.newProcess k pages).loader.sys p.cr3 (PEB_VA + pageAddr j)
        (pages j) := by
  obtain ⟨heap, room⟩ := Option.isSome_iff_exists.mp room
  obtain ⟨-, moved, created⟩ := r.newSpace hg fun _ _ => False
  obtain ⟨some, taken⟩ := createUserPml4_plenty (plenty.mono (by omega))
  have more : Plenty (16 + n) (Kernel.newSpace k.loader).2.sys.vmm.pmm :=
    Plenty.after (plenty.mono (by omega)) taken
  have nonzero : (Kernel.newSpace k.loader).1 ≠ 0 := some
  obtain ⟨space, -⟩ := created nonzero
  have null := null.moves moved
  rw [Kernel.newProcess]
  simp only [if_neg nonzero, psCreateProcess, room]
  generalize Kernel.newSpace k.loader = s at *
  obtain ⟨peb, inPlace⟩ := moved.sound.setupPeb_inPlace hg null space (more.mono (by omega)) pages
  have done := moved.sound.setupPeb hg space pages
  have left := Plenty.after more (setupPeb_allocs s.2.sys.vmm s.1 pages)
  have sys := createProcess_sys s.2 s.1 pages
  rw [← sys] at inPlace done
  refine ⟨_, ⟨List.getElem?_concat_length, ?_⟩, rfl, null.moves done, ?_, trivial, inPlace⟩
  · simp only [sys]
    exact space
  · simp only [sys]
    exact left

end

/-! ## Every run -/

/-- What has been returned is still as promised. -/
structure Watching (R : Rows) (w : Watched) : Prop where
  running : Running R w.nt
  files : ∀ x ∈ w.files, ∃ sec, sectionOf w.nt x.1 = some sec ∧
    sec.pageCount = (pagesOf (BitVec.ofNat 64 x.2.size)).toNat ∧
      Filled w.nt.loader.sys (filePage x.2) sec.phys sec.pageCount
  views : ∀ y ∈ w.views, ∃ sec p, sectionOf w.nt y.handle = some sec ∧
    Viewed w.nt y.process p y.va sec.phys sec.pageCount

section

variable {R : Rows} {shown : Bool} {w w' : Watched} {boot : List BootFile}

theorem Watching.roundTrip (h : Watching R w) : RoundTrip w where
  shows x hx fits y hy same p hp := by
    obtain ⟨sec, found, count, filled⟩ := h.files x hx
    obtain ⟨sec', q, found', viewed⟩ := h.views y hy
    rw [same] at found'
    obtain rfl := Option.some.inj (found.symm.trans found')
    obtain rfl := Option.some.inj (viewed.user.1.symm.trans hp)
    exact viewed.showsFile h.running filled (count.trans (sectionPages_eq fits))
  shares x hx fits y hy z hz same same' p q hp hq := by
    obtain ⟨sec, found, count, filled⟩ := h.files x hx
    obtain ⟨sec₁, a, found₁, viewed₁⟩ := h.views y hy
    obtain ⟨sec₂, b, found₂, viewed₂⟩ := h.views z hz
    rw [same] at found₁
    rw [same'] at found₂
    obtain rfl := Option.some.inj (found.symm.trans found₁)
    obtain rfl := Option.some.inj (found.symm.trans found₂)
    obtain rfl := Option.some.inj (viewed₁.user.1.symm.trans hp)
    obtain rfl := Option.some.inj (viewed₂.user.1.symm.trans hq)
    rw [← sectionPages_eq fits, ← count]
    exact viewed₁.sharesView viewed₂ h.running filled

/-- A section of a file stays filled while page tables change. -/
theorem Filled.moves {k k' : NtState} {content : Nat → Table} {phys : Nat → u64} {n : Nat}
    {P : u64 → u64 → Prop} (h : Filled k.loader.sys content phys n)
    (m : Moves R P noFrames k.loader.sys k'.loader.sys) : Filled k'.loader.sys content phys n :=
  fun i hi => (h i hi).moves m

/-- **A call** keeps what has been returned, and what it returns is as promised. -/
theorem Watching.call (h : Watching R w) (hg : R.Good shown) {i : Nat} {p : Process}
    (hp : UserProcess w.nt i p) {c : HeapCall} (fits : c.Fits p) : Watching R (w.call boot i c) := by
  have step := heapCall_step hg h.running hp boot fits
  have files : ∀ x ∈ w.files, ∃ sec, sectionOf (heapCall boot w.nt i c).2 x.1 = some sec ∧
      sec.pageCount = (pagesOf (BitVec.ofNat 64 x.2.size)).toNat ∧
        Filled (heapCall boot w.nt i c).2.loader.sys (filePage x.2) sec.phys sec.pageCount := by
    intro x hx
    obtain ⟨sec, found, count, filled⟩ := h.files x hx
    exact ⟨sec, step.sections _ _ found, count, filled.moves step.moves⟩
  have views : ∀ y ∈ w.views, ∃ sec q, sectionOf (heapCall boot w.nt i c).2 y.handle = some sec ∧
      Viewed (heapCall boot w.nt i c).2 y.process q y.va sec.phys sec.pageCount := by
    intro y hy
    obtain ⟨sec, q, found, viewed⟩ := h.views y hy
    obtain ⟨q', viewed'⟩ := viewed.step h.running hp step
    exact ⟨sec, q', step.sections _ _ found, viewed'⟩
  rw [Watched.call]
  split
  case isTrue => exact ⟨h.running.step step, files, views⟩
  case isFalse returned =>
    refine ⟨h.running.step step, fun x hx => ?_, fun y hy => ?_⟩
    · rcases List.mem_append.mp hx with new | old
      case inr => exact files x old
      case inl =>
        cases c with
        | ntCreateSection size => cases new
        | ntMapView handle => cases new
        | ntAllocVm size => cases new
        | ntCreateFileSection va len =>
          simp only [heapCall, sectionFile] at returned new ⊢
          cases found : namedFile boot w.nt i va len with
          | none =>
            rw [found] at new
            cases new
          | some f =>
            rw [found] at returned new
            obtain rfl := List.mem_singleton.mp new
            simp only [ntCreateFileSection] at returned ⊢
            split at returned
            case isTrue => exact absurd rfl returned
            case isFalse some =>
              rw [if_neg some]
              exact (createSection_step h.running p _ _).2 returned
    · rcases List.mem_append.mp hy with new | old
      case inr => exact views y old
      case inl =>
        cases c with
        | ntCreateSection size => cases new
        | ntCreateFileSection va len => cases new
        | ntAllocVm size => cases new
        | ntMapView handle =>
          obtain ⟨sec, p', found, -, at_, viewed⟩ := (ntMapView_step hg h.running hp handle).2 returned
          obtain rfl := List.mem_singleton.mp new
          simp only [heapCall] at returned ⊢
          rw [at_]
          exact ⟨sec, p', (heapCall_step hg h.running hp boot fits).sections _ _ found, viewed⟩

/-- **A new process** keeps what has been returned to others. -/
theorem Watching.newProcess (h : Watching R w) (hg : R.Good shown) (pages : Nat → Table) :
    Watching R { w with nt := newProcess w.nt pages } := by
  obtain ⟨running, moved, sections, alive⟩ := h.running.newProcess hg pages
  refine ⟨running, fun x hx => ?_, fun y hy => ?_⟩
  · obtain ⟨sec, found, count, filled⟩ := h.files x hx
    exact ⟨sec, (sections _).trans found, count, filled.moves moved⟩
  · obtain ⟨sec, q, found, viewed⟩ := h.views y hy
    obtain ⟨q', viewed'⟩ := viewed.moves h.running moved
      (fun w foreign => absurd viewed.user.2 foreign) ⟨q, alive _ _ viewed.user.1, rfl, le_rfl⟩
    exact ⟨sec, q', (sections _).trans found, viewed'⟩

/-- **A step** whose allocation fits keeps what has been returned. -/
theorem Watching.step (h : Watching R w) (hg : R.Good shown) {e : SectionEvent}
    (fits : AllocationFits w e) (hs : stepSections boot w e = some w') : Watching R w' := by
  cases e with
  | call i c =>
    simp only [stepSections] at hs
    cases hp : w.nt.processes[i]? with
    | none =>
      rw [hp] at hs
      cases hs
    | some p =>
      rw [hp] at hs
      simp only at hs
      split at hs
      case isFalse => cases hs
      case isTrue user =>
        obtain rfl := Option.some.inj hs
        exact h.call hg ⟨hp, user⟩ (fits p hp)
  | createProcess pages =>
    obtain rfl := Option.some.inj hs
    exact h.newProcess hg pages
  | system op =>
    obtain ⟨t, ht, rfl⟩ := Option.map_eq_some_iff.mp hs
    exact ⟨h.running.system (h.running.sound.step hg ht) (h.running.sound.step_spaces hg ht) rfl,
      fun x hx => absurd hx List.not_mem_nil, fun y hy => absurd hy List.not_mem_nil⟩

end

/-- After boot nothing has been returned. -/
theorem startNt_watching {R : Rows} {v : Vmm} (sound : Sound R (start v)) (heap : KernelHeap) :
    Watching R ⟨startNt v heap, [], []⟩ where
  running := by
    have alone : ∀ (i : Nat) (p : Process), (startNt v heap).processes[i]? = some p →
        p.cr3 = v.pml4Phys := by
      intro i p hp
      obtain ⟨hi, rfl⟩ := List.getElem?_eq_some_iff.mp hp
      obtain rfl : i = 0 := Nat.lt_one_iff.mp hi
      rfl
    exact ⟨sound, fun i p hp => .inl (alone i p hp), fun i j p q hp => absurd hp.2 List.not_mem_nil,
      fun i p hp => absurd hp.2 List.not_mem_nil⟩
  files x hx := absurd hx List.not_mem_nil
  views y hy := absurd hy List.not_mem_nil

/-- **Views of a file's section show the file and share it**, in every state of every run
after boot in which no allocation reaches past the end of the address space. -/
theorem file_sections_round_trip (m : Mem) (pt bmStart : u64) (bi : Option BootInfo) (page : Table)
    (shown : Bool) (v : Vmm) (hb : TablesAt pt bi)
    (hboot : boot m pt bmStart bi page = some (shown, v)) (heap : KernelHeap)
    (files : List BootFile) (es : List SectionEvent)
    (hes : Along (stepSections files) AllocationFits ⟨startNt v heap, [], []⟩ es) :
    Always (stepSections files) RoundTrip ⟨startNt v heap, [], []⟩ es := by
  obtain ⟨R, hg, sound⟩ := boot_sound hb hboot
  have kept := always_invariant (I := Watching R)
    (fun w e w' hw fits hs => hw.step hg fits hs) (startNt_watching sound heap) hes
  exact kept.mono fun w hw => hw.roundTrip

/-- A process maps a section twice, and its child maps it too. -/
theorem file_sections_round_trip_child :
    ∃ v, boot (fun _ _ => 0) 0x10000000#64 0x120000#64 (some lowBoot) (fun _ => 0) = some (true, v) ∧
      ∀ heap files pages, Always (stepSections files) RoundTrip ⟨startNt v heap, [], []⟩
        [.createProcess pages, .call 1 (.ntCreateFileSection LDR_VA 1), .call 1 (.ntMapView 1),
          .createProcess pages, .call 1 (.ntMapView 1), .call 2 (.ntMapView 1)] := by
  obtain ⟨v, hboot, -⟩ := lowBoot_pool
  refine ⟨v, hboot, fun heap files pages => ?_⟩
  refine file_sections_round_trip _ _ _ _ _ _ v tablesAt_lowBoot hboot heap files _ ?_
  have fits : ∀ e ∈ [SectionEvent.createProcess pages, .call 1 (.ntCreateFileSection LDR_VA 1),
      .call 1 (.ntMapView 1), .createProcess pages, .call 1 (.ntMapView 1), .call 2 (.ntMapView 1)],
      ∀ w, AllocationFits w e := by
    intro e he w
    simp only [List.mem_cons, List.not_mem_nil, or_false] at he
    rcases he with rfl | rfl | rfl | rfl | rfl | rfl
    all_goals first | exact trivial | exact fun _ _ => trivial
  exact (along_of_forall_mem fits _).mono fun w e he => he w

section

variable {R : Rows} {shown : Bool} {k : NtState} {i : Nat} {p : Process} {sec : KSection} {h : u64}

/-- Two pages at the cursor, once the first can be mapped. -/
theorem Running.view_two (r : Running R k) (hg : R.Good shown) (null : NullPage k.loader.sys)
    (user : UserProcess k i p) (found : sectionOf k h = some sec) (two : sec.pageCount = 2)
    (room : ¬ p.userHeapCursor + 0x2000#64 > HEAP_MAX)
    (i4 : pml4Idx (p.userHeapCursor + pageAddr 1) = pml4Idx (p.userHeapCursor + pageAddr 0))
    (i3 : pdptIdx (p.userHeapCursor + pageAddr 1) = pdptIdx (p.userHeapCursor + pageAddr 0))
    (i2 : pdIdx (p.userHeapCursor + pageAddr 1) = pdIdx (p.userHeapCursor + pageAddr 0))
    (first : (mapPageInto k.vmm p.cr3 (p.userHeapCursor + pageAddr 0) (sec.phys 0)
      (userFlags true)).1 = true) :
    (ntMapView k i h).1 = p.userHeapCursor ∧
      UserProcess (ntMapView k i h).2 i { p with userHeapCursor := p.userHeapCursor + 0x2000#64 } ∧
      ∀ a, sectionOf (ntMapView k i h).2 a = sectionOf k a := by
  have mapped := mapViewPages_two hg sec.phys r.sound null user.2 i4 i3 i2 first
  have length : pagesLength (BitVec.ofNat 64 sec.pageCount) = 0x2000#64 := by
    rw [two]
    decide
  have all := ntMapView_succeeds user.1 found (by rw [length]; exact room) (by rw [two]; exact mapped)
  rw [all, length]
  refine ⟨rfl, ⟨?_, user.2⟩, fun _ => rfl⟩
  rw [bumpCursor_processes, user.1, Option.map_some, if_pos rfl]

/-- An allocation moves the cursor, also when its length wraps around. -/
theorem Running.allocated (r : Running R k) (hg : R.Good shown) (user : UserProcess k i p)
    (size len : u64) (some : size ≠ 0) (length : pagesLength (pagesOf size) = len)
    (room : ¬ p.userHeapCursor + len > HEAP_MAX)
    (heap : (p.userHeapCursor + len).toNat % PAGE_SIZE = 0 ∧
      HEAP_START.toNat ≤ (p.userHeapCursor + len).toNat ∧
      (p.userHeapCursor + len).toNat ≤ HEAP_MAX.toNat) :
    Running R (ntAllocVm k i size).2 ∧
      UserProcess (ntAllocVm k i size).2 i { p with userHeapCursor := p.userHeapCursor + len } ∧
      Moves R (viewPages p.cr3 p.userHeapCursor 0 MAX_PAGES) noFrames k.loader.sys
        (ntAllocVm k i size).2.loader.sys ∧
      ∀ a, sectionOf (ntAllocVm k i size).2 a = sectionOf k a := by
  have moved := r.sound.mapZeroed hg p.userHeapCursor (pagesOf size).toNat 0 user.2
  have few := freePages_le k.loader.sys.vmm.pmm
  have moved := moved.mono (Q := viewPages p.cr3 p.userHeapCursor 0 MAX_PAGES)
    (fun b w ⟨hb, j, h1, h2, hw⟩ => ⟨hb, j, h1, by omega, hw⟩) fun _ no => no
  rw [ntAllocVm, if_neg some, user.1]
  simp only [length, if_neg room]
  refine ⟨r.bumpCursor user moved heap, ⟨?_, user.2⟩, moved, fun _ => rfl⟩
  rw [bumpCursor_processes, user.1, Option.map_some, if_pos rfl]

end

/-! ## An allocation that does not fit -/

/-- A file of two pages. -/
def twoPageFile : BootFile := ⟨[0x58], fun n => if n = 0 then 1 else 0, 0x2000⟩

/-- Its contents. -/
def twoPages : Image := ⟨twoPageFile.bytes, 0x2000⟩

/-- The loader data of a process, which begin with their length 0x58. -/
def loaderData : Nat → Table := fun k i => if k = 1 ∧ i = 0 then 0x100000058 else 0

/-- Between two views of the section the process asks for almost all of the address space. -/
def overlapCalls (i : Nat) : List SectionEvent :=
  [.call i (.ntCreateFileSection LDR_VA 1), .call i (.ntMapView 1),
    .call i (.ntAllocVm 0xFFFFFFFFFFFFF000), .call i (.ntMapView 1)]

section

variable {R : Rows} {shown : Bool} {k : NtState} {i : Nat} {p : Process} {sec : KSection}

theorem stepSections_call {w : Watched} (boot : List BootFile) (user : UserProcess w.nt i p)
    (c : HeapCall) : stepSections boot w (.call i c) = some (w.call boot i c) := by
  simp only [stepSections, user.1, if_pos user.2]

/-- A call that returns no section of a file and no view. -/
theorem Watched.call_quiet {boot : List BootFile} (w : Watched) {c : HeapCall} (i : Nat)
    (file : sectionFile boot w.nt i c = none) (view : viewHandle c = none) :
    w.call boot i c = { w with nt := (heapCall boot w.nt i c).2 } := by
  rw [Watched.call]
  split
  case isTrue => rfl
  case isFalse =>
    rw [file, view]
    rfl

/-- A one byte name. -/
theorem userString_byte {m : Mem} {pml4 va : u64} {b : u8} (mapped : translateInPml4 m pml4 va ≠ 0)
    (byte : byteAt m pml4 va = b) (nonzero : (b != 0) = true) :
    FileIo.userString m (some pml4) va 1 63 = [b] := by
  have one : min (1 - 0) (PAGE_SIZE - (va &&& 0xFFF#64).toNat) = 1 := by
    have inside := Nat.mod_lt va.toNat (show 0 < PAGE_SIZE by decide)
    rw [offset_toNat]
    omega
  have length : min (1 : u64).toNat 63 = 1 := rfl
  rw [byteAt, readUserByte] at byte
  simp only [if_neg mapped] at byte
  simp only [FileIo.userString, readUserBytes, length, readChunks, ge_iff_le, Nat.le_zero,
    Nat.one_ne_zero, if_false, BitVec.add_zero, if_neg mapped, one, List.range_one,
    List.map_cons, List.map_nil, byte, List.append_nil, List.takeWhile_cons, nonzero, if_true,
    List.takeWhile_nil]

/-- The loader data name the file. -/
theorem namedFile_twoPages (user : UserProcess k i p)
    (ldr : InPlace k.loader.sys p.cr3 LDR_VA (loaderData 1)) :
    namedFile [twoPageFile] k i LDR_VA 1 = some twoPages := by
  obtain ⟨frame, data, pte⟩ := ldr
  have lies := data.lies user.2 pte
  have there := lies.translate (k := 0) (by decide) (by decide)
  have byte := lies.byteAt_eq (k := 0) (by decide) (by decide)
  rw [data.contents, show LDR_VA + BitVec.ofNat 64 0 = LDR_VA from BitVec.add_zero _] at byte
  rw [show LDR_VA + BitVec.ofNat 64 0 = LDR_VA from BitVec.add_zero _,
    show frame + BitVec.ofNat 64 0 = frame from BitVec.add_zero _] at there
  have name := userString_byte (b := 0x58) (there.symm ▸ data.nonzero) byte (by decide)
  rw [namedFile, user.1, Option.map_some, show k.vmm.mem = k.loader.sys.vmm.mem from rfl, name]
  rfl

/-- Its section. -/
theorem Running.twoPages_created (r : Running R k) (user : UserProcess k i p)
    (plenty : Plenty 4 k.loader.sys.vmm.pmm) (free : freeSection k = some 0)
    (named : namedFile [twoPageFile] k i LDR_VA 1 = some twoPages) : ∃ k' sec,
      Watched.call [twoPageFile] ⟨k, [], []⟩ i (.ntCreateFileSection LDR_VA 1) =
          ⟨k', [(1, twoPages)], []⟩ ∧
        HeapStep R k k' p ∧ UserProcess k' i p ∧ Plenty 2 k'.loader.sys.vmm.pmm ∧
        sectionOf k' 1 = some sec ∧ sec.pageCount = 2 ∧
        Filled k'.loader.sys (filePage twoPages) sec.phys 2 := by
  have size : pagesOf (BitVec.ofNat 64 twoPages.size) = 2 := by decide
  have fits : ¬ (BitVec.ofNat 64 twoPages.size = 0 ∨
      (pagesOf (BitVec.ofNat 64 twoPages.size)).toNat > MAX_SECTION_PAGES) := by
    rw [size]
    decide
  have pages : (pagesOf (BitVec.ofNat 64 twoPages.size)).toNat = 2 := by
    rw [size]
    rfl
  obtain ⟨handle, processes, taken⟩ := createSection_succeeds (filePage twoPages) fits
    free (plenty.mono (by rw [pages]; decide))
  obtain ⟨step, made⟩ := createSection_step r p (BitVec.ofNat 64 twoPages.size) (filePage twoPages)
  have one : (BitVec.ofNat 64 ((0 : Fin SECTION_SLOTS).val + 1) : u64) = 1 := rfl
  have call : heapCall [twoPageFile] k i (.ntCreateFileSection LDR_VA 1) =
      createSection k (BitVec.ofNat 64 twoPages.size) (filePage twoPages) := by
    rw [heapCall, named, ntCreateFileSection, if_neg (by decide)]
    rfl
  rw [one] at handle
  obtain ⟨sec, found, count, filled⟩ := made (by rw [handle]; decide)
  rw [pages] at taken count
  rw [handle] at found
  rw [count] at filled
  refine ⟨_, sec, ?_, step, ⟨processes.symm ▸ user.1, step.spaces.symm ▸ user.2⟩,
    plenty.after (m := 2) taken, found, count, filled⟩
  rw [Watched.call]
  simp only [call, handle, sectionFile, named, viewHandle]
  rfl

/-- **The second view overlaps the first**: its first page takes the place of the other's
second page. -/
theorem Running.overlaps (r : Running R k) (hg : R.Good shown) (null : NullPage k.loader.sys)
    (plenty : Plenty 4 k.loader.sys.vmm.pmm) (user : UserProcess k i p)
    (cursor : p.userHeapCursor = HEAP_START) (free : freeSection k = some 0)
    (ldr : InPlace k.loader.sys p.cr3 LDR_VA (loaderData 1)) :
    ∃ w, run (stepSections [twoPageFile]) ⟨k, [], []⟩ (overlapCalls i) = some w ∧
      ¬ RoundTrip w := by
  obtain ⟨k₂, sec, call₂, step₂, user₂, plenty₂, found, count, filled⟩ :=
    r.twoPages_created user plenty free (namedFile_twoPages user ldr)
  have r₂ := r.step step₂
  have null₂ := null.moves step₂.moves
  -- the first view
  have open_ : ¬ Shared (p.userHeapCursor + pageAddr 0) := by
    rw [cursor]
    exact heap_private (by decide) (by decide)
  have first := r₂.sound.mapPageInto_succeeds null₂ user₂.2 open_ plenty₂ (sec.phys 0)
    (userFlags true)
  obtain ⟨at₃, user₃, same₃⟩ := r₂.view_two hg null₂ user₂ found count (by rw [cursor]; decide)
    (by rw [cursor]; decide) (by rw [cursor]; decide) (by rw [cursor]; decide) first
  obtain ⟨step₃, shows₃⟩ := ntMapView_step hg r₂ user₂ 1
  obtain ⟨_, p', found', -, -, viewed⟩ := shows₃ (by rw [at₃, cursor]; decide)
  obtain rfl := Option.some.inj (found.symm.trans found')
  have call₃ : Watched.call [twoPageFile] ⟨k₂, [(1, twoPages)], []⟩ i (.ntMapView 1) =
      ⟨(ntMapView k₂ i 1).2, [(1, twoPages)], [⟨i, 1, HEAP_START⟩]⟩ := by
    simp only [Watched.call, heapCall, at₃, cursor, sectionFile, viewHandle]
    rfl
  have r₃ := r₂.step step₃
  have null₃ := null₂.moves step₃.moves
  have filled₃ := filled.moves step₃.moves
  rw [cursor] at viewed
  generalize (ntMapView k₂ i 1).2 = k₃ at *
  obtain rfl := Option.some.inj (user₃.1.symm.trans viewed.user.1)
  -- the allocation takes the cursor one page back
  obtain ⟨q, hq⟩ : ∃ q : Process,
      q = { p with userHeapCursor := p.userHeapCursor + 0x2000#64 } := ⟨_, rfl⟩
  rw [← hq] at user₃ viewed
  have at_ : q.userHeapCursor = 0x500002000#64 := by
    rw [hq, cursor]
    rfl
  obtain ⟨r₄, user₄, moved, same₄⟩ := r₃.allocated hg user₃ 0xFFFFFFFFFFFFF000
    0xFFFFFFFFFFFFF000#64 (by decide) (by decide) (by rw [at_]; decide) (by rw [at_]; decide)
  have call₄ : ∀ fs vs, Watched.call [twoPageFile] ⟨k₃, fs, vs⟩ i (.ntAllocVm 0xFFFFFFFFFFFFF000) =
      ⟨(ntAllocVm k₃ i 0xFFFFFFFFFFFFF000).2, fs, vs⟩ := fun _ _ => Watched.call_quiet _ _ rfl rfl
  have there : has (getPteInto (ntAllocVm k₃ i 0xFFFFFFFFFFFFF000).2.loader.sys.vmm.mem q.cr3
      0x500001000#64) PTE_PRESENT = true := by
    have place : HEAP_START + pageAddr 1 = 0x500001000#64 := rfl
    have pte := viewed.pages 1 (by rw [count]; decide)
    rw [place] at pte
    rw [moved.entries q.cr3 user₃.2 _ (heap_private (by decide) (by decide)) ?_, show
      k₃.loader.sys.vmm.mem = k₃.vmm.mem from rfl, pte]
    · exact leafEntry_present _ _
    · rintro ⟨-, j, -, hj, same⟩
      have number := congrArg BitVec.toNat same
      rw [vpn_toNat, vpn_toNat, at_, BitVec.toNat_add, pageAddr] at number
      simp only [MAX_PAGES, PAGE_SIZE, BitVec.toNat_ofNat] at hj number
      omega
  have null₄ := null₃.moves moved
  have filled₄ := filled₃.moves moved
  generalize (ntAllocVm k₃ i 0xFFFFFFFFFFFFF000).2 = k₄ at *
  -- the second view
  obtain ⟨c, hc⟩ : ∃ c : Process,
      c = { q with userHeapCursor := q.userHeapCursor + 0xFFFFFFFFFFFFF000#64 } := ⟨_, rfl⟩
  rw [← hc] at user₄
  have back : c.userHeapCursor = 0x500001000#64 := by
    rw [hc, at_]
    rfl
  have space : c.cr3 = q.cr3 := by rw [hc]
  have found₄ : sectionOf k₄ 1 = some sec := by rw [same₄, same₃, found]
  have again : (mapPageInto k₄.vmm c.cr3 (c.userHeapCursor + pageAddr 0) (sec.phys 0)
      (userFlags true)).1 = true :=
    Sound.mapPageInto_again null₄ user₄.2 (by rw [space]; exact there) (by rw [back]; decide)
      (by rw [back]; decide) (by rw [back]; decide) (sec.phys 0) (userFlags true)
  obtain ⟨at₅, -, -⟩ := r₄.view_two hg null₄ user₄ found₄ count (by rw [back]; decide)
    (by rw [back]; decide) (by rw [back]; decide) (by rw [back]; decide) again
  obtain ⟨step₅, shows₅⟩ := ntMapView_step hg r₄ user₄ 1
  obtain ⟨_, e, found', -, -, viewed₅⟩ := shows₅ (by rw [at₅, back]; decide)
  obtain rfl := Option.some.inj (found₄.symm.trans found')
  have call₅ : Watched.call [twoPageFile] ⟨k₄, [(1, twoPages)], [⟨i, 1, HEAP_START⟩]⟩ i (.ntMapView 1) =
      ⟨(ntMapView k₄ i 1).2, [(1, twoPages)], [⟨i, 1, 0x500001000⟩, ⟨i, 1, HEAP_START⟩]⟩ := by
    simp only [Watched.call, heapCall, at₅, back, sectionFile, viewHandle]
    rfl
  have r₅ := r₄.step step₅
  have filled₅ := filled₄.moves step₅.moves
  rw [back, count] at viewed₅
  generalize (ntMapView k₄ i 1).2 = k₅ at *
  refine ⟨⟨k₅, [(1, twoPages)], [⟨i, 1, 0x500001000⟩, ⟨i, 1, HEAP_START⟩]⟩, ?_, fun promised => ?_⟩
  · rw [overlapCalls, run, stepSections_call _ user, Option.bind_some, call₂, run,
      stepSections_call _ user₂, Option.bind_some, call₃, run, stepSections_call _ user₃,
      Option.bind_some, call₄, run, stepSections_call _ user₄, Option.bind_some, call₅, run]
  · have file := promised.shows (1, twoPages) List.mem_cons_self ⟨by decide, by decide⟩
      ⟨i, 1, HEAP_START⟩ (List.mem_cons_of_mem _ List.mem_cons_self) rfl e viewed₅.user.1 0x1000
      (by decide)
    obtain ⟨-, -, byte⟩ := viewed₅.byte r₅ filled₅ (x := 0) (by decide)
    have place : HEAP_START + BitVec.ofNat 64 0x1000 = 0x500001000#64 + BitVec.ofNat 64 0 := by decide
    rw [place, byte, filePage, byteIn_pageOfBytes _ (by decide)] at file
    exact absurd file.2 (by decide)

end

/-- **One view of a file's section comes to show another page of it**, in a run after boot
in which a process allocates almost all of its address space. -/
theorem file_sections_overlap :
    ∃ v, boot (fun _ _ => 0) 0x10000000#64 0x120000#64 (some lowBoot) (fun _ => 0) = some (true, v) ∧
      ¬ Always (stepSections [twoPageFile]) RoundTrip ⟨startNt v ⟨0, 0x1000, 0⟩, [], []⟩
        (.createProcess loaderData :: overlapCalls 1) := by
  obtain ⟨v, hboot, plenty⟩ := lowBoot_plenty
  obtain ⟨R, hg, sound⟩ := boot_sound tablesAt_lowBoot hboot
  have start := (startNt_watching sound ⟨0, 0x1000, 0⟩).running
  refine ⟨v, hboot, fun all => ?_⟩
  obtain ⟨p, user, cursor, null, left, sections, inPlace⟩ := start.newProcess_succeeds hg
    (boot_nullPage tablesAt_lowBoot (by decide) hboot) (n := 4) (plenty.mono (by decide))
    (show (KernelHeap.alloc ⟨0, 0x1000, 0⟩ KPROCESS_SIZE 8#64).isSome = true by decide) loaderData
  obtain ⟨running, -⟩ := start.newProcess hg loaderData
  have free : freeSection (newProcess (startNt v ⟨0, 0x1000, 0⟩) loaderData) = some 0 := by
    rw [freeSection, sections]
    rfl
  have ldr := inPlace 1 (by decide)
  obtain ⟨w, reached, broken⟩ := running.overlaps hg null left user cursor free ldr
  exact broken ((all.2 _ rfl).last reached)


end MicroNT.Kernel
