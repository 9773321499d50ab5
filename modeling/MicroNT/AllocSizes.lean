import MicroNT.UnmapViews

/-! # The sizes of allocations and sections (`syscall.cpp`)

`NtAllocateVirtualMemory` and `NtCreateSection` round a size up to pages, and the first adds
the length to the heap cursor, all modulo `2 ^ 64`. -/

namespace MicroNT.Kernel

open MicroNT.PMM hiding step Op System
open MicroNT.VMM MicroNT.Boot MicroNT.Base.Radix MicroNT.Base.Machine
open FileIo (BootFile)

/-! ## What is promised -/

/-- So many bytes, in whole pages. -/
def roundUp (n : Nat) : Nat := (n + (PAGE_SIZE - 1)) / PAGE_SIZE * PAGE_SIZE

/-- The page at `va` is writable, and shows a frame of zeros that was free and that no other
private page shows. -/
structure FreshPage (s t : System) (p va f : u64) : Prop where
  writable : userWrites t.vmm.mem p va = true
  frame : frameOf t.vmm.mem p va = some f
  zero : t.vmm.mem f = fun _ => 0
  free : ¬ Used s.vmm f
  alone : ∀ b ∈ t.spaces, ∀ w, ¬ Shared w → frameOf t.vmm.mem b w = some f → b = p ∧ vpn w = vpn va

/-- An allocation that returns an address has pages for all its bytes, in the heap and below
the new cursor. An allocation that fails leaves the cursor where it is or above. -/
structure AllocRight (k : NtState) (i : Nat) (p : Process) (size : u64) : Prop where
  rises : ∀ q : Process, (ntAllocVm k i size).2.processes[i]? = some q →
    p.userHeapCursor.toNat ≤ q.userHeapCursor.toNat
  range : (ntAllocVm k i size).1 ≠ 0 → HEAP_START.toNat ≤ (ntAllocVm k i size).1.toNat ∧
    (ntAllocVm k i size).1.toNat + size.toNat ≤ HEAP_MAX.toNat
  cursor : (ntAllocVm k i size).1 ≠ 0 → ∃ q : Process,
    (ntAllocVm k i size).2.processes[i]? = some q ∧
      q.userHeapCursor.toNat = (ntAllocVm k i size).1.toNat + roundUp size.toNat
  pages : (ntAllocVm k i size).1 ≠ 0 → ∀ x, x < size.toNat → ∃ f,
    FreshPage k.loader.sys (ntAllocVm k i size).2.loader.sys p.cr3
      ((ntAllocVm k i size).1 + BitVec.ofNat 64 x) f

/-- A section has room for the size that it was created with. -/
def SectionRight (k : NtState) (size : u64) : Prop :=
  (ntCreateSection k size).1 ≠ 0 → ∃ sec,
    sectionOf (ntCreateSection k size).2 (ntCreateSection k size).1 = some sec ∧
      size.toNat ≤ sec.pageCount * PAGE_SIZE

/-- What the sizes of a step promise. -/
def SizesRight (w : Viewing) : ViewEvent → Prop
  | .call i (.ntAllocVm size) => ∀ p, UserProcess w.nt i p → AllocRight w.nt i p size
  | .call _ (.ntCreateSection size) => SectionRight w.nt size
  | _ => True

/-- No sum wraps. -/
def SizesFit (w : Viewing) : ViewEvent → Prop
  | .call i (.ntAllocVm size) => ∀ p, UserProcess w.nt i p →
    p.userHeapCursor.toNat + roundUp size.toNat < 2 ^ 64
  | .call _ (.ntCreateSection size) =>
    freeSection w.nt = none ∨ size.toNat + (PAGE_SIZE - 1) < 2 ^ 64
  | _ => True

/-! ## Rounding -/

section

variable {size : u64}

/-- A size that does not wrap is rounded up. -/
theorem pagesOf_fits (fits : size.toNat + (PAGE_SIZE - 1) < 2 ^ 64) :
    (pagesOf size).toNat * PAGE_SIZE = roundUp size.toNat := by
  have sum : (size + (pageSize64 - 1#64)).toNat = size.toNat + (PAGE_SIZE - 1) := by
    rw [BitVec.toNat_add, show (pageSize64 - 1#64).toNat = PAGE_SIZE - 1 from rfl]
    exact Nat.mod_eq_of_lt fits
  rw [pagesOf, BitVec.toNat_udiv, sum]
  rfl

/-- A size that wraps has no page. -/
theorem pagesOf_wraps (wraps : 2 ^ 64 ≤ size.toNat + (PAGE_SIZE - 1)) : pagesOf size = 0 := by
  have small := size.isLt
  have sum : (size + (pageSize64 - 1#64)).toNat = size.toNat + (PAGE_SIZE - 1) - 2 ^ 64 := by
    rw [BitVec.toNat_add, show (pageSize64 - 1#64).toNat = PAGE_SIZE - 1 from rfl]
    simp only [PAGE_SIZE] at *
    omega
  refine BitVec.eq_of_toNat_eq ?_
  rw [pagesOf, BitVec.toNat_udiv, sum, show pageSize64.toNat = PAGE_SIZE from rfl]
  refine Nat.div_eq_of_lt ?_
  simp only [PAGE_SIZE] at *
  omega

theorem le_roundUp (n : Nat) : n ≤ roundUp n := by
  rw [roundUp]
  simp only [PAGE_SIZE]
  omega

/-- The length of an allocation. -/
theorem length_fits (fits : size.toNat + (PAGE_SIZE - 1) < 2 ^ 64) :
    (pagesLength (pagesOf size)).toNat = roundUp size.toNat := by
  rw [pagesLength_toNat (pagesOf_lt size), pagesOf_fits fits]

end

/-! ## Sections -/

/-- The section that a call creates. -/
theorem ntCreateSection_made {k : NtState} {size : u64} (made : (ntCreateSection k size).1 ≠ 0) :
    ∃ sec, sectionOf (ntCreateSection k size).2 (ntCreateSection k size).1 = some sec ∧
      sec.pageCount = (pagesOf size).toNat := by
  rw [ntCreateSection] at *
  unfold createSection at *
  split at made
  case isTrue => exact absurd rfl made
  case isFalse fits =>
    rw [dif_neg fits]
    cases hslot : freeSection k with
    | none =>
      rw [hslot] at made
      exact absurd rfl made
    | some slot =>
      rw [hslot] at made
      simp only at made ⊢
      generalize fillSection (fun _ _ => 0) (pagesOf size).toNat 0 (k.sections slot).phys k.vmm = r
        at *
      split at made
      case isFalse => exact absurd rfl made
      case isTrue all =>
        refine ⟨⟨r.2.1, (pagesOf size).toNat, r.1, by omega⟩, ?_, rfl⟩
        rw [if_pos all, sectionOf_handle]
        simp only [Function.update_self, all, if_true]

/-- **A section has room for its size** exactly if the size does not wrap, or no slot is
free. -/
theorem sectionRight_iff (k : NtState) (size : u64) :
    SectionRight k size ↔ freeSection k = none ∨ size.toNat + (PAGE_SIZE - 1) < 2 ^ 64 := by
  constructor
  · intro right
    by_contra no
    obtain ⟨free, wraps⟩ := not_or.mp no
    obtain ⟨slot, free⟩ := Option.ne_none_iff_exists'.mp free
    have pages := pagesOf_wraps (not_lt.mp wraps)
    have some : size ≠ 0 := by
      rintro rfl
      exact wraps (by decide)
    have made : (ntCreateSection k size).1 ≠ 0 := by
      have all : ∀ j : Fin SECTION_SLOTS, BitVec.ofNat 64 (j.val + 1) ≠ 0 := by decide
      rw [ntCreateSection, createSection, dif_neg (by rw [pages]; simpa using some), free]
      simp only [pages]
      exact all slot
    obtain ⟨sec, found, room⟩ := right made
    obtain ⟨sec', found', count⟩ := ntCreateSection_made made
    obtain rfl := Option.some.inj (found.symm.trans found')
    rw [count, pages] at room
    exact some (BitVec.eq_of_toNat_eq (Nat.le_zero.mp (room.trans_eq (Nat.zero_mul _))))
  · intro fits made
    obtain ⟨sec, found, count⟩ := ntCreateSection_made made
    refine ⟨sec, found, ?_⟩
    rcases fits with none | fits
    · rw [ntCreateSection] at made
      unfold createSection at made
      rw [none] at made
      split at made <;> exact absurd rfl made
    · rw [count, pagesOf_fits fits]
      exact le_roundUp _

/-! ## New pages -/

section

variable {R : Rows} {shown : Bool} {s : System} {p va : u64}

/-- **The loop that maps new pages** gives every page a zeroed frame of its own. -/
theorem Sound.mapZeroed_pages (hg : R.Good shown) (n i : Nat) (hn : i + n ≤ 2 ^ 20)
    (own : ∀ j, j < i + n → ¬ Shared (va + pageAddr j)) (h : Sound R s) (hp : p ∈ s.spaces)
    (success : (Kernel.mapZeroed p va n i s.vmm).1 = true) : ∃ phys : Nat → u64,
      (∀ j, i ≤ j → j < i + n →
        getPteInto (Kernel.mapZeroed p va n i s.vmm).2.mem p (va + pageAddr j) =
            leafEntry (phys j) (userFlags true) ∧
          DataPage { s with vmm := (Kernel.mapZeroed p va n i s.vmm).2 } (phys j) (fun _ => 0) ∧
          ¬ Used s.vmm (phys j)) ∧
      ∀ a b, i ≤ a → a < b → b < i + n → phys a ≠ phys b := by
  induction n generalizing i s with
  | zero => exact ⟨fun _ => 0, fun j h1 h2 => absurd h2 (by omega), fun a b h1 h2 h3 =>
      absurd h3 (by omega)⟩
  | succ n ih =>
    rw [Kernel.mapZeroed] at success ⊢
    rcases allocPage_cases s.vmm.pmm with ⟨q, hq, ht⟩ | ⟨h0, -⟩
    case inr =>
      simp only [h0, if_true] at success
      exact absurd success Bool.noConfusion
    case inl =>
      obtain ⟨zeroed, used, data, free⟩ := h.newPage ht fun _ => 0
      generalize allocPage s.vmm.pmm = r at *
      split at success
      case isTrue => exact absurd success Bool.noConfusion
      case isFalse nonzero =>
        rw [if_neg nonzero]
        rw [hq] at nonzero success ⊢
        obtain ⟨mapped, here, -⟩ := zeroed.sound.mapPageInto hg hp (va + pageAddr i) (pageAddr q) true
        have page : DataPage { s with vmm := { s.vmm with pmm := r.2
                                                          mem := fill s.vmm.mem (pageAddr q) fun _ => 0 } }
            (pageAddr q) (fun _ => 0) :=
          ⟨isFrame_pageAddr ht.within, nonzero, used, data, fill_same _ _ _⟩
        have page := page.moves mapped
        dsimp only at here mapped page success ⊢
        generalize VMM.mapPageInto _ p (va + pageAddr i) (pageAddr q) (userFlags true) = m at *
        split at success
        case isFalse => exact absurd success Bool.noConfusion
        case isTrue all =>
          rw [if_pos all]
          obtain ⟨phys, pages, apart⟩ := ih (i + 1) (by omega) (fun j hj => own j (by omega))
            mapped.sound hp success
          have later := mapped.sound.mapZeroed hg va n (i + 1) hp
          dsimp only at later pages
          generalize Kernel.mapZeroed p va n (i + 1) m.2 = z at *
          refine ⟨Function.update phys i (pageAddr q), fun j h1 h2 => ?_, fun a b h1 h2 h3 => ?_⟩
          · by_cases first : j = i
            case pos =>
              rw [first, Function.update_self]
              refine ⟨(later.entries p hp _ (own i (by omega)) ?_).trans (here all),
                page.moves later, free⟩
              rintro ⟨-, l, h3, h4, same⟩
              exact vpn_pageAddr_ne va (by omega) (by omega) (by omega : i ≠ l) same
            case neg =>
              rw [Function.update_of_ne first]
              obtain ⟨pte, data, unused⟩ := pages j (by omega) (by omega)
              exact ⟨pte, data, fun old => unused ((zeroed.used old).mono mapped.bits)⟩
          · rw [Function.update_of_ne (by omega : b ≠ i)]
            by_cases first : a = i
            case pos =>
              rw [first, Function.update_self]
              obtain ⟨-, -, unused⟩ := pages b (by omega) (by omega)
              exact fun same => unused (same ▸ page.used)
            case neg =>
              rw [Function.update_of_ne first]
              exact apart a b (by omega) h2 (by omega)

/-! ## Allocations -/

variable {k : NtState} {i : Nat} {c : Process} {size : u64}

/-- A sum that does not wrap. -/
theorem roundUp_fits {n m : Nat} (fits : n + roundUp m < 2 ^ 64) : m + (PAGE_SIZE - 1) < 2 ^ 64 := by
  rw [roundUp] at fits
  simp only [PAGE_SIZE] at *
  omega

/-- An allocation that returns an address. -/
theorem ntAllocVm_returns (user : UserProcess k i c) (made : (ntAllocVm k i size).1 ≠ 0) :
    (ntAllocVm k i size).1 = c.userHeapCursor ∧
      ¬ c.userHeapCursor + pagesLength (pagesOf size) > HEAP_MAX ∧
      (mapZeroed c.cr3 c.userHeapCursor (pagesOf size).toNat 0 k.loader.sys.vmm).1 = true ∧
      (ntAllocVm k i size).2 = (k.bumpCursor i (pagesLength (pagesOf size))).withVmm
        (mapZeroed c.cr3 c.userHeapCursor (pagesOf size).toNat 0 k.loader.sys.vmm).2 := by
  rw [ntAllocVm, user.1] at made ⊢
  split at made
  case isTrue => exact absurd rfl made
  case isFalse some =>
    rw [if_neg some]
    simp only at made ⊢
    split at made
    case isTrue => exact absurd rfl made
    case isFalse room =>
      rw [if_neg room]
      simp only at made ⊢
      split at made
      case isFalse => exact absurd rfl made
      case isTrue all => exact ⟨if_pos all, room, all, rfl⟩

/-- **An allocation that does not wrap** is right. -/
theorem Running.allocRight (r : Running R k) (hg : R.Good shown) (user : UserProcess k i c)
    (used : ∀ b ∈ k.loader.sys.spaces, ∀ w, ¬ Shared w → ∀ f,
      frameOf k.vmm.mem b w = some f → Used k.vmm f)
    (fits : c.userHeapCursor.toNat + roundUp size.toNat < 2 ^ 64) : AllocRight k i c size := by
  have whole := roundUp_fits fits
  have length := length_fits whole
  have step := ntAllocVm_step hg r user
    (show c.userHeapCursor.toNat + (pagesLength (pagesOf size)).toNat < 2 ^ 64 by rwa [length])
  obtain ⟨aligned, low, high⟩ := r.cursor i c user
  have facts : (ntAllocVm k i size).1 ≠ 0 → (ntAllocVm k i size).1 = c.userHeapCursor ∧
      c.userHeapCursor.toNat + (pagesOf size).toNat * PAGE_SIZE ≤ HEAP_MAX.toNat := by
    intro made
    obtain ⟨at_, room, -, -⟩ := ntAllocVm_returns user made
    have sum := BitVec.toNat_add c.userHeapCursor (pagesLength (pagesOf size))
    rw [length, Nat.mod_eq_of_lt fits] at sum
    rw [pagesOf_fits whole, ← sum]
    exact ⟨at_, BitVec.le_def.mp (BitVec.not_lt.mp room)⟩
  refine ⟨fun q hq => ?_, fun made => ?_, fun made => ?_, fun made x hx => ?_⟩
  · obtain ⟨q', hq', -, cursor⟩ := step.alive i c user.1
    obtain rfl := Option.some.inj (hq.symm.trans hq')
    exact cursor
  · obtain ⟨at_, below⟩ := facts made
    rw [pagesOf_fits whole] at below
    rw [at_]
    exact ⟨low, (Nat.add_le_add_left (le_roundUp _) _).trans below⟩
  · obtain ⟨at_, -, -, call⟩ := ntAllocVm_returns user made
    refine ⟨{ c with userHeapCursor := c.userHeapCursor + pagesLength (pagesOf size) }, ?_, ?_⟩
    · rw [call, bumpCursor_processes, user.1, Option.map_some, if_pos rfl]
    · rw [at_, BitVec.toNat_add, length]
      exact Nat.mod_eq_of_lt fits
  · obtain ⟨at_, below⟩ := facts made
    obtain ⟨-, -, all, call⟩ := ntAllocVm_returns user made
    have own : ∀ j, j < 0 + (pagesOf size).toNat → ¬ Shared (c.userHeapCursor + pageAddr j) := by
      intro j hj
      rw [Nat.zero_add] at hj
      obtain ⟨place, -⟩ := heap_page aligned below hj
      have inside : j * PAGE_SIZE < (pagesOf size).toNat * PAGE_SIZE :=
        Nat.mul_lt_mul_of_pos_right hj (by decide)
      exact heap_private (by omega) (by omega)
    have few : 0 + (pagesOf size).toNat ≤ 2 ^ 20 := by
      have end_ : HEAP_MAX.toNat = 0x580000000 := rfl
      have start : HEAP_START.toNat = 0x500000000 := rfl
      simp only [PAGE_SIZE] at below
      omega
    obtain ⟨phys, pages, apart⟩ := r.sound.mapZeroed_pages hg _ 0 few own user.2 all
    have moved := r.sound.mapZeroed hg c.userHeapCursor (pagesOf size).toNat 0 user.2
    obtain ⟨page, offset, place⟩ := view_byte (n := (pagesOf size).toNat) c.userHeapCursor
      (hx.trans_le ((le_roundUp _).trans_eq (pagesOf_fits whole).symm))
    have page_aligned : (c.userHeapCursor + pageAddr (x / PAGE_SIZE)).toNat % PAGE_SIZE = 0 := by
      rw [(heap_page aligned below page).1, Nat.add_mul_mod_self_right]
      exact aligned
    have same : vpn (c.userHeapCursor + BitVec.ofNat 64 x) =
        vpn (c.userHeapCursor + pageAddr (x / PAGE_SIZE)) := by
      rw [place]
      exact vpn_add_offset page_aligned (offset_lt offset).1
    have private_ : ¬ Shared (c.userHeapCursor + BitVec.ofNat 64 x) := fun shared =>
      own _ (by omega) ((shared_congr same).mp shared)
    obtain ⟨pte, data, free⟩ := pages _ (Nat.zero_le _) (by omega : x / PAGE_SIZE < 0 + _)
    rw [call, at_]
    refine ⟨phys (x / PAGE_SIZE), ?_, ?_, data.contents, free, fun b hb w hw shows => ?_⟩
    · refine (moved.sound.userCan_private hg user.2 private_ true).trans ?_
      simp only [getPteInto_congr same, pte, leafEntry_present,
        (leafEntry_bits _ _).2.2]
      rfl
    · exact (frameOf_congr same).trans (frameOf_leaf data.frame pte)
    · by_cases here : viewPages c.cr3 c.userHeapCursor 0 (pagesOf size).toNat b w
      case neg =>
        refine absurd (used b hb w hw _ ((frameOf_entry (moved.entries b hb w hw ?_)).symm.trans
          shows)) free
        rintro ⟨hb, l, h1, h2, page⟩
        exact here ⟨hb, l, h1, by omega, page⟩
      case pos =>
        obtain ⟨rfl, l, h1, h2, page⟩ := here
        obtain ⟨pte', data', -⟩ := pages l h1 h2
        have frames := ((frameOf_congr page).trans (frameOf_leaf data'.frame pte')).symm.trans shows
        refine ⟨rfl, page.trans ?_⟩
        rcases Nat.lt_trichotomy l (x / PAGE_SIZE) with less | rfl | less
        · exact absurd (Option.some.inj frames) (apart _ _ h1 less (by omega))
        · exact same.symm
        · exact absurd (Option.some.inj frames).symm (apart _ _ (Nat.zero_le _) less h2)

/-- An allocation that the heap has room for moves the cursor. -/
theorem ntAllocVm_bumps (user : UserProcess k i c) (some : size ≠ 0)
    (room : ¬ c.userHeapCursor + pagesLength (pagesOf size) > HEAP_MAX) :
    (ntAllocVm k i size).1 = (if (mapZeroed c.cr3 c.userHeapCursor (pagesOf size).toNat 0
        k.loader.sys.vmm).1 then c.userHeapCursor else 0) ∧
      (ntAllocVm k i size).2.processes[i]? = Option.some
        { c with userHeapCursor := c.userHeapCursor + pagesLength (pagesOf size) } := by
  rw [ntAllocVm, user.1, if_neg some]
  simp only [if_neg room]
  refine ⟨rfl, ?_⟩
  rw [bumpCursor_processes, user.1, Option.map_some, if_pos rfl]

/-- **An allocation that wraps** is not right. -/
theorem Running.allocFits (r : Running R k) (user : UserProcess k i c)
    (right : AllocRight k i c size) : c.userHeapCursor.toNat + roundUp size.toNat < 2 ^ 64 := by
  obtain ⟨-, low, high⟩ := r.cursor i c user
  have end_ : HEAP_MAX.toNat = 0x580000000 := rfl
  have start : HEAP_START.toNat = 0x500000000 := rfl
  by_contra large
  have some : size ≠ 0 := by
    rintro rfl
    rw [show roundUp (0 : u64).toNat = 0 from rfl] at large
    omega
  by_cases whole : size.toNat + (PAGE_SIZE - 1) < 2 ^ 64
  case neg =>
    -- no page is mapped, and the cursor is returned
    have pages := pagesOf_wraps (not_lt.mp whole)
    have room : ¬ c.userHeapCursor + pagesLength (pagesOf size) > HEAP_MAX := by
      rw [pages, show pagesLength 0 = 0#64 from rfl, BitVec.add_zero]
      exact BitVec.not_lt.mpr (BitVec.le_def.mpr high)
    obtain ⟨returns, -⟩ := ntAllocVm_bumps user some room
    rw [pages, show (0 : u64).toNat = 0 from rfl, mapZeroed, if_pos rfl] at returns
    have made : (ntAllocVm k i size).1 ≠ 0 := by
      rw [returns]
      intro zero
      rw [zero] at low
      exact absurd low (by decide)
    have range := (right.range made).2
    simp only [PAGE_SIZE] at whole
    omega
  case pos =>
    -- the cursor goes down
    have length := length_fits whole
    have sum := BitVec.toNat_add c.userHeapCursor (pagesLength (pagesOf size))
    have small := (pagesLength (pagesOf size)).isLt
    have room : ¬ c.userHeapCursor + pagesLength (pagesOf size) > HEAP_MAX := by
      refine BitVec.not_lt.mpr (BitVec.le_def.mpr ?_)
      omega
    have rises := right.rises _ (ntAllocVm_bumps user some room).2
    simp only at rises
    omega

end

/-! ## Every run -/

/-- Private pages and sections show frames in use. -/
structure Framed (R : Rows) (k : NtState) : Prop where
  running : Running R k
  used : ∀ b ∈ k.loader.sys.spaces, ∀ w, ¬ Shared w → ∀ f, frameOf k.vmm.mem b w = some f →
    Used k.vmm f
  data : ∀ slot j f, Holds k slot j f → ∃ page, DataPage k.loader.sys f page

section

variable {R : Rows} {shown : Bool} {P : u64 → u64 → Prop} {k k' : NtState} {w w' : Viewing}
  {i : Nat} {p : Process} {boot : List BootFile}

/-- **A step that maps new pages**, or none. -/
theorem Framed.quiet (h : Framed R k) (running : Running R k')
    (moved : Moves R P noFrames k.loader.sys k'.loader.sys)
    (fills : Fills k.loader.sys k'.loader.sys) (sections : k'.sections = k.sections) :
    Framed R k' where
  running := running
  used b hb x private_ f hf := by
    rcases fills.frames b hb x private_ f hf with ⟨hb, old⟩ | ⟨-, used⟩
    · exact moved.used (h.used b hb x private_ f old)
    · exact used
  data slot j f holds := by
    obtain ⟨page, data⟩ := h.data slot j f (holds.of_sections sections)
    exact ⟨page, data.moves moved⟩

/-- A change of the page tables of one process. -/
theorem Framed.withVmm (h : Framed R k) {v : Vmm}
    (moved : Moves R P noFrames k.loader.sys { k.loader.sys with vmm := v })
    (fills : Fills k.loader.sys { k.loader.sys with vmm := v }) : Framed R (k.withVmm v) :=
  h.quiet (h.running.withVmm moved.kernel moved.sound) moved fills rfl

/-- **A new section.** -/
theorem Framed.createSection (h : Framed R k) (size : u64) (content : Nat → Table) :
    Framed R (createSection k size content).2 := by
  have running := h.running.step (createSection_step h.running ⟨0, 0, 0, 0, 0, 0⟩ size content).1
  rcases createSection_new h.running size content with same | ⟨-, slot, sec, -, new⟩
  · rw [same]
    exact h
  · refine ⟨running, fun b hb x private_ f hf => ?_, fun a j f holds => ?_⟩
    · rw [new.spaces] at hb
      rw [new.frames b (.inr hb)] at hf
      exact new.moved.used (h.used b hb x private_ f hf)
    · rcases new.held holds with holds | ⟨-, inUse, page, rfl⟩
      · obtain ⟨page, data⟩ := h.data a j f holds
        exact ⟨page, data.moves new.moved⟩
      · exact new.data inUse j page

/-- **`NtMapViewOfSection`.** -/
theorem Framed.ntMapView (h : Framed R k) (hg : R.Good shown) (user : UserProcess k i p)
    (handle : u64) : Framed R (ntMapView k i handle).2 := by
  cases found : sectionOf k handle with
  | none =>
    have call : Kernel.ntMapView k i handle = (0, k) := by rw [Kernel.ntMapView, found]
    rw [call]
    exact h
  | some sec =>
    obtain ⟨slot, rfl, used, rfl⟩ := sectionOf_slot found
    have data := fun j (hj : j < (k.sections slot).pageCount) => h.data slot j _ ⟨used, hj, rfl⟩
    rcases ntMapView_new hg h.running user (fun j hj => (data j hj).elim fun _ d => d.frame) found
      with call | ⟨p', n, -⟩
    · rw [call]
      exact h
    · refine ⟨h.running.step n.step, fun b hb x private_ f hf => ?_, fun a j f holds => ?_⟩
      · rw [n.step.spaces] at hb
        rcases n.frames b hb x private_ f hf with old | ⟨-, -, j, hj, -, rfl⟩
        · exact n.step.moves.used (h.used b hb x private_ f old)
        · exact n.step.moves.used ((data j hj).elim fun _ d => d.used)
      · obtain ⟨page, data⟩ := h.data a j f (holds.of_sections n.sections)
        exact ⟨page, data.moves n.step.moves⟩

/-- **An allocation that fits.** -/
theorem Framed.ntAllocVm (h : Framed R k) (hg : R.Good shown) (user : UserProcess k i p)
    {size : u64} (fits : p.userHeapCursor.toNat + roundUp size.toNat < 2 ^ 64) :
    Framed R (ntAllocVm k i size).2 := by
  have length := length_fits (roundUp_fits fits)
  have step := ntAllocVm_step hg h.running user
    (show p.userHeapCursor.toNat + (pagesLength (pagesOf size)).toNat < 2 ^ 64 by rwa [length])
  obtain ⟨fills, sections⟩ := h.running.ntAllocVm_fills hg user size
  exact h.quiet (h.running.step step) step.moves fills sections

/-- **Unmapping** gives no private page another frame, whatever the address. -/
theorem Sound.unmapPages_frames (hg : R.Good shown) {s : System} {c : u64} (va : u64) (n j : Nat)
    (h : Sound R s) (hc : c ∈ s.spaces) :
    Moves R (fun _ _ => True) noFrames s
        { s with vmm := Kernel.unmapPages c va n j s.vmm } ∧
      ∀ b ∈ s.spaces, ∀ x, ¬ Shared x → ∀ f,
        frameOf (Kernel.unmapPages c va n j s.vmm).mem b x = some f →
          frameOf s.vmm.mem b x = some f := by
  induction n generalizing j s with
  | zero => exact ⟨.refl h _ _, fun _ _ _ _ _ hf => hf⟩
  | succ n ih =>
    rw [Kernel.unmapPages]
    obtain ⟨here, other⟩ := h.unmapPageFrom hc (va + pageAddr j)
    have step : Kernel.step s (.unmapPageFrom c (va + pageAddr j)) =
        some { s with vmm := VMM.unmapPageFrom s.vmm c (va + pageAddr j) } := if_pos hc
    have sound := h.step hg step
    have first : Moves R (fun _ _ => True) noFrames s
        { s with vmm := VMM.unmapPageFrom s.vmm c (va + pageAddr j) } :=
      .of_extends (h.trees.unmapPageFrom (.inr hc) _) sound.inv fun _ _ _ _ no =>
        absurd trivial no
    generalize VMM.unmapPageFrom s.vmm c (va + pageAddr j) = v at *
    obtain ⟨rest, frames⟩ := ih (j + 1) sound hc
    refine ⟨first.trans rest, fun b hb x private_ f hf => ?_⟩
    have later := frames b hb x private_ f hf
    by_cases page : b = c ∧ vpn x = vpn (va + pageAddr j)
    case pos =>
      obtain ⟨rfl, page⟩ := page
      have none := (frameOf_congr page).trans (frameOf_none here)
      cases later.symm.trans none
    case neg =>
      refine (frameOf_entry (other b (.inr hb) x ?_)).symm.trans later
      by_cases same : vpn x = vpn (va + pageAddr j)
      case pos => exact .inr ⟨fun eq => page ⟨eq, same⟩, private_⟩
      case neg => exact .inl same

/-- **`NtUnmapViewOfSection`** of any address. -/
theorem Framed.ntUnmapView (h : Framed R k) (hg : R.Good shown) (user : UserProcess k i p)
    (a1 : u64) : Framed R (ntUnmapView k i a1).2 := by
  rw [Kernel.ntUnmapView, user.1]
  simp only
  split
  case h_1 => exact h
  case h_2 slot _ =>
    obtain ⟨moved, frames⟩ := h.running.sound.unmapPages_frames hg a1
      (k.sections slot).pageCount 0 user.2
    rw [show k.vmm = k.loader.sys.vmm from rfl]
    generalize unmapPages p.cr3 a1 (k.sections slot).pageCount 0 k.loader.sys.vmm = v at *
    refine ⟨h.running.withVmm moved.kernel moved.sound, fun b hb x private_ f hf => ?_,
      fun a j f holds => ?_⟩
    · exact moved.used (h.used b hb x private_ f (frames b hb x private_ f hf))
    · obtain ⟨page, data⟩ := h.data a j f
        (holds.of_sections (show (k.withVmm v).sections = k.sections from rfl))
      exact ⟨page, data.moves moved⟩

/-- **A step** whose sizes fit. -/
theorem Framed.step (h : Framed R w.nt) (hg : R.Good shown) {e : ViewEvent} (fits : SizesFit w e)
    (hs : stepViews boot w e = some w') : Framed R w'.nt := by
  cases e with
  | createProcess pages =>
    obtain rfl := Option.some.inj hs
    obtain ⟨running, moved, -, -⟩ := h.running.newProcess hg pages
    obtain ⟨fills, sections⟩ := h.running.newProcess_fills hg pages
    exact h.quiet running moved fills sections
  | allocPage =>
    obtain rfl := Option.some.inj hs
    obtain ⟨moved, fills⟩ := h.running.sound.allocates
    exact h.withVmm moved fills
  | ntUnmapView i a1 =>
    obtain ⟨p, user, rfl⟩ := stepViews_caller hs
    exact h.ntUnmapView hg user a1
  | ntProtectVm i a1 a2 a3 =>
    obtain ⟨p, user, rfl⟩ := stepViews_caller hs
    obtain ⟨moved, same⟩ := h.running.sound.ntProtectVm_moves hg user.2 a1 a2 a3
    exact h.withVmm moved (.of_frames moved.kernel moved.bits same)
  | setupPage i va page =>
    obtain ⟨p, user, rfl⟩ := stepViews_caller hs
    exact h.withVmm (h.running.sound.setupPage hg user.2 va page)
      (h.running.sound.setupPage_fills hg user.2 va page)
  | mapFresh i va writable page =>
    obtain ⟨p, user, rfl⟩ := stepViews_caller hs
    obtain ⟨moved, fills⟩ := h.running.sound.mapFresh hg user.2 va writable page
    exact h.withVmm moved fills
  | call i c =>
    obtain ⟨p, user, rfl⟩ := stepViews_caller hs
    cases c with
    | ntCreateSection size => exact h.createSection size _
    | ntMapView handle => exact h.ntMapView hg user handle
    | ntAllocVm size => exact h.ntAllocVm hg user (fits p user)
    | ntCreateFileSection va len =>
      simp only [heapCall]
      cases namedFile boot w.nt i va len with
      | none => exact h
      | some f =>
        simp only [ntCreateFileSection]
        split
        case isTrue => exact h
        case isFalse => exact h.createSection _ _

/-- The sizes of a step are right exactly if they fit. -/
theorem Framed.right_iff (h : Framed R w.nt) (hg : R.Good shown) (e : ViewEvent) :
    SizesRight w e ↔ SizesFit w e := by
  cases e with
  | call i c =>
    cases c with
    | ntCreateSection size => exact sectionRight_iff w.nt size
    | ntAllocVm size =>
      exact forall₂_congr fun p user =>
        ⟨h.running.allocFits user, h.running.allocRight hg user h.used⟩
    | ntMapView handle => exact Iff.rfl
    | ntCreateFileSection va len => exact Iff.rfl
  | createProcess pages => exact Iff.rfl
  | allocPage => exact Iff.rfl
  | ntUnmapView i a1 => exact Iff.rfl
  | ntProtectVm i a1 a2 a3 => exact Iff.rfl
  | setupPage i va page => exact Iff.rfl
  | mapFresh i va writable page => exact Iff.rfl

end

/-- After boot no process has a page of its own. -/
theorem startViews_framed {v : Vmm} (heap : KernelHeap) {closed : Fin SECTION_SLOTS → KSection}
    (free : ∀ slot, (closed slot).inUse = false) {R : Rows} (sound : Sound R (start v)) :
    Framed R (startViews v heap closed).nt := by
  have start := (startNt_watching sound heap).running
  refine ⟨start.system start.sound ⟨rfl, fun _ hq => hq, fun _ hq => .inl hq⟩ rfl,
    fun b hb => absurd hb List.not_mem_nil, fun slot j f holds => ?_⟩
  exact absurd ((free slot).symm.trans holds.inUse) Bool.noConfusion

/-- **Allocations and sections are as large as they promise** in exactly those runs after boot
in which no size wraps. -/
theorem sizes_right_iff (m : Mem) (pt bmStart : u64) (bi : Option BootInfo) (page : Table)
    (shown : Bool) (v : Vmm) (hb : TablesAt pt bi)
    (hboot : boot m pt bmStart bi page = some (shown, v)) (heap : KernelHeap)
    (closed : Fin SECTION_SLOTS → KSection) (free : ∀ slot, (closed slot).inUse = false)
    (files : List BootFile) (es : List ViewEvent) :
    Along (stepViews files) SizesRight (startViews v heap closed) es ↔
      Along (stepViews files) SizesFit (startViews v heap closed) es := by
  obtain ⟨R, hg, sound⟩ := boot_sound hb hboot
  exact along_iff (I := fun w => Framed R w.nt) (fun w e w' kept fits hs => kept.step hg fits hs)
    (fun w e kept => kept.right_iff hg e) (startViews_framed heap free sound)

/-- The runs after one boot. -/
theorem sizes_right_iff_lowBoot :
    ∃ v, boot (fun _ _ => 0) 0x10000000#64 0x120000#64 (some lowBoot) (fun _ => 0) = some (true, v) ∧
      ∀ heap files es,
        Along (stepViews files) SizesRight (startViews v heap noSections) es ↔
          Along (stepViews files) SizesFit (startViews v heap noSections) es := by
  obtain ⟨v, hboot, -⟩ := lowBoot_plenty
  exact ⟨v, hboot, fun heap files es => sizes_right_iff _ _ _ _ _ _ v tablesAt_lowBoot hboot heap _
    (fun _ => rfl) files es⟩

/-- **An allocation of almost all addresses** returns the cursor and maps nothing. -/
theorem sizes_wrong :
    ∃ v, boot (fun _ _ => 0) 0x10000000#64 0x120000#64 (some lowBoot) (fun _ => 0) = some (true, v) ∧
      ∀ files pages, ¬ Along (stepViews files) SizesRight (startViews v ⟨0, 0x1000, 0⟩ noSections)
        [.createProcess pages, .call 1 (.ntAllocVm 0xFFFFFFFFFFFFFFFF)] := by
  obtain ⟨v, hboot, plenty⟩ := lowBoot_plenty
  obtain ⟨R, hg, sound⟩ := boot_sound tablesAt_lowBoot hboot
  have start := (startViews_framed ⟨0, 0x1000, 0⟩ (fun _ => rfl : ∀ slot,
    (noSections slot).inUse = false) sound).running
  refine ⟨v, hboot, fun files pages promised => ?_⟩
  obtain ⟨p, user, -⟩ := start.newProcess_succeeds hg
    (boot_nullPage tablesAt_lowBoot (by decide) hboot) (n := 0) (plenty.mono (by decide))
    (show (KernelHeap.alloc ⟨0, 0x1000, 0⟩ KPROCESS_SIZE 8#64).isSome = true by decide) pages
  obtain ⟨running, -⟩ := start.newProcess hg pages
  have fits := running.allocFits user ((promised.2 _ rfl).1 p user)
  have all : roundUp (0xFFFFFFFFFFFFFFFF : u64).toNat = 2 ^ 64 := by decide
  omega

end MicroNT.Kernel
