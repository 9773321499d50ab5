import MicroNT.PageLayout
import MicroNT.PeIsolation

/-! # The private pages of all address spaces

What a change of memory leaves alone in every address space at once: it gives other
entries to the pages it is about, and writes to no other frame in use that is no table. -/

namespace MicroNT.Kernel

open MicroNT.PMM hiding step Op System
open MicroNT.VMM MicroNT.Boot MicroNT.Base.Radix

/-- The roles and the forest of the tables, as every state that can be reached has them. -/
structure Sound (R : Rows) (s : System) : Prop where
  inv : ∃ is, Inv R (fun _ _ => True) (fun _ => True) is s
  forest : Forest link s.vmm.mem s.IsSpace 3

/-- Only the pages `P` get other entries, and of the frames in use that are no tables only
`F` get other contents. -/
structure Moves (R : Rows) (P : u64 → u64 → Prop) (F : u64 → Prop) (s t : System) : Prop where
  sound : Sound R t
  spaces : ∀ p ∈ s.spaces, p ∈ t.spaces
  kernel : t.vmm.pml4Phys = s.vmm.pml4Phys
  bits : ∀ q, bitmapTest s.vmm.pmm.bitmap q = true → bitmapTest t.vmm.pmm.bitmap q = true
  data : ∀ f, Used s.vmm f → ¬ Tables s.IsSpace s.vmm.mem f → ¬ Tables t.IsSpace t.vmm.mem f
  frames : ∀ f, Used s.vmm f → ¬ Tables s.IsSpace s.vmm.mem f → ¬ F f →
    t.vmm.mem f = s.vmm.mem f
  entries : ∀ b ∈ s.spaces, ∀ w, ¬ Shared w → ¬ P b w →
    getPteInto t.vmm.mem b w = getPteInto s.vmm.mem b w

/-- No page, and no frame. -/
def noPages : u64 → u64 → Prop := fun _ _ => False

def noFrames : u64 → Prop := fun _ => False

/-- One page of one address space. -/
def onlyPage (p va : u64) : u64 → u64 → Prop := fun b w => b = p ∧ vpn w = vpn va

/-- `n` pages from page `i` behind `va`. -/
def viewPages (p va : u64) (i n : Nat) : u64 → u64 → Prop := fun b w =>
  b = p ∧ ∃ k, i ≤ k ∧ k < i + n ∧ vpn w = vpn (va + pageAddr k)

theorem vpn_pageAddr_ne (va : u64) {i j : Nat} (hi : i < 2 ^ 20) (hj : j < 2 ^ 20) (ne : i ≠ j) :
    vpn (va + pageAddr i) ≠ vpn (va + pageAddr j) := by
  have pages : ∀ k, k * PAGE_SIZE % PAGE_SIZE = 0 := fun k => Nat.mul_mod_left k PAGE_SIZE
  refine vpn_add_ne va (pages i) (pages j) ?_ ?_ fun same => ne ?_
  · simp only [PAGE_SIZE]
    omega
  · simp only [PAGE_SIZE]
    omega
  · exact Nat.eq_of_mul_eq_mul_right (by decide) same

/-- A page of memory that is no table, with its contents. -/
structure DataPage (s : System) (f : u64) (page : Table) : Prop where
  frame : IsFrame f
  nonzero : f ≠ 0
  used : Used s.vmm f
  data : ¬ Tables s.IsSpace s.vmm.mem f
  contents : s.vmm.mem f = page

section

variable {R : Rows} {shown : Bool} {P Q : u64 → u64 → Prop} {F G : u64 → Prop} {s t u : System}
  {v : Vmm} {p va f : u64}

theorem Moves.refl (h : Sound R s) (P : u64 → u64 → Prop) (F : u64 → Prop) : Moves R P F s s :=
  ⟨h, fun _ hp => hp, rfl, fun _ hq => hq, fun _ _ hf => hf, fun _ _ _ _ => rfl,
    fun _ _ _ _ _ => rfl⟩

theorem Moves.used (h : Moves R P F s t) (hf : Used s.vmm f) : Used t.vmm f := hf.mono h.bits

theorem Moves.trans (h : Moves R P F s t) (h' : Moves R P F t u) : Moves R P F s u where
  sound := h'.sound
  spaces q hq := h'.spaces q (h.spaces q hq)
  kernel := h'.kernel.trans h.kernel
  bits q hq := h'.bits q (h.bits q hq)
  data g hg hn := h'.data g (h.used hg) (h.data g hg hn)
  frames g hg hn hF := (h'.frames g (h.used hg) (h.data g hg hn) hF).trans (h.frames g hg hn hF)
  entries b hb w hw hP := (h'.entries b (h.spaces b hb) w hw hP).trans (h.entries b hb w hw hP)

theorem Moves.mono (h : Moves R P F s t) (hP : ∀ b w, P b w → Q b w) (hF : ∀ g, F g → G g) :
    Moves R Q G s t :=
  ⟨h.sound, h.spaces, h.kernel, h.bits, h.data, fun g hg hn no => h.frames g hg hn fun x => no (hF g x),
    fun b hb w hw no => h.entries b hb w hw fun x => no (hP b w x)⟩

theorem DataPage.moves {page : Table} (h : DataPage s f page) (m : Moves R P noFrames s t) :
    DataPage t f page where
  frame := h.frame
  nonzero := h.nonzero
  used := m.used h.used
  data := m.data f h.used h.data
  contents := (m.frames f h.used h.data id).trans h.contents

/-- A page with its entry is in place. -/
theorem DataPage.lies {page : Table} (h : DataPage s f page) (hp : p ∈ s.spaces)
    (pte : getPteInto s.vmm.mem p va = leafEntry f (userFlags true)) :
    Lies p (fun _ => False) s.vmm ⟨va, true, page⟩ f := by
  refine ⟨h.frame, h.nonzero, h.used, fun table => h.data ?_, pte, fun b _ _ => ?_⟩
  · obtain ⟨c, l, rfl, hl, hd⟩ := table
    exact ⟨_, l, .inr hp, hl, hd⟩
  · exact congrArg (byteIn · b) h.contents

/-! ## Sound states -/

theorem Sound.trees (h : Sound R s) : Trees s.IsSpace s.vmm := by
  obtain ⟨is, inv⟩ := h.inv
  exact inv.trees h.forest

theorem Sound.userSpace (h : Sound R s) (hg : R.Good shown) (hp : p ∈ s.spaces) :
    UserSpace s.vmm p := by
  obtain ⟨is, inv⟩ := h.inv
  exact inv.userSpace hg h.forest hp

theorem Sound.space_used (h : Sound R s) (hp : s.IsSpace p) : Used s.vmm p := by
  obtain ⟨is, inv⟩ := h.inv
  rcases hp with rfl | hp
  · exact inv.typed.used _ _ inv.root
  · exact inv.typed.used _ _ (inv.spaces p hp)

/-- The roles of tables only. -/
theorem Sound.roles (h : Sound R s) : ∃ is, Inv R (fun _ _ => True) (fun _ => True) is s ∧
    ∀ r g, is r g → Tables s.IsSpace s.vmm.mem g := by
  obtain ⟨is, inv⟩ := h.inv
  refine ⟨_, inv.reached, fun r g hr => ?_⟩
  obtain ⟨-, a, ha, q, hq, -, hd⟩ := hr
  exact ⟨a, q, ha, hq, hd⟩

/-- The state once the memory manager has changed. -/
theorem Sound.of_extends (x : Extends s.IsSpace s.vmm v)
    (inv : ∃ is, Inv R (fun _ _ => True) (fun _ => True) is { s with vmm := v }) :
    Sound R { s with vmm := v } where
  inv := inv
  forest := by
    rw [isSpace_withVmm x.pml4Phys]
    exact x.trees.forest

theorem Moves.of_extends (x : Extends s.IsSpace s.vmm v)
    (inv : ∃ is, Inv R (fun _ _ => True) (fun _ => True) is { s with vmm := v })
    (entries : ∀ b ∈ s.spaces, ∀ w, ¬ Shared w → ¬ P b w →
      getPteInto v.mem b w = getPteInto s.vmm.mem b w) :
    Moves R P noFrames s { s with vmm := v } where
  sound := Sound.of_extends x inv
  spaces _ hq := hq
  kernel := x.pml4Phys
  bits := x.bits
  data g hg hn := by
    rw [isSpace_withVmm x.pml4Phys]
    exact (x.frames g hg hn).2
  frames g hg hn _ := (x.frames g hg hn).1
  entries := entries

/-! ## Pages from the allocator -/

/-- A page taken from the allocator and filled. -/
theorem Sound.newPage (h : Sound R s) {q : Pmm} {k : Nat} (ht : Takes s.vmm.pmm q k 1)
    (page : Table) :
    Moves R noPages noFrames s
        { s with vmm := { s.vmm with pmm := q, mem := fill s.vmm.mem (pageAddr k) page } } ∧
      Used { s.vmm with pmm := q, mem := fill s.vmm.mem (pageAddr k) page } (pageAddr k) ∧
      ¬ Tables s.IsSpace (fill s.vmm.mem (pageAddr k) page) (pageAddr k) ∧ ¬ Used s.vmm (pageAddr k) := by
  have free : ¬ Used s.vmm (pageAddr k) := not_used_free ht le_rfl (by omega)
  obtain ⟨x, used, data, same⟩ := h.trees.newPage ht page
  obtain ⟨is, inv⟩ := h.inv
  have taken := inv.grows (inv.typed.takes ht) (show Grows (fun _ => True) is is s.vmm
    { s.vmm with pmm := q } from
      ⟨fun _ _ hr => hr, fun _ _ hr => .inl hr, fun q hq => by simp [ht.bits, hq], rfl⟩)
  have apart : ∀ r t, is r t → fill s.vmm.mem (pageAddr k) page t = s.vmm.mem t := fun r t hr =>
    fill_of_ne fun heq => free (heq ▸ inv.typed.used r t hr)
  refine ⟨.of_extends x ⟨is, taken.mem (taken.typed.of_agree apart taken.typed.used)⟩
    fun b hb w _ _ => ?_, used, data, free⟩
  exact (h.trees.data same).2.2 b w (.inr hb)

/-- A page that is taken and not used. -/
theorem Sound.takes (h : Sound R s) {q : Pmm} {k : Nat} (ht : Takes s.vmm.pmm q k 1) :
    Moves R P F s { s with vmm := { s.vmm with pmm := q } } := by
  obtain ⟨taken, -⟩ := h.newPage ht (s.vmm.mem (pageAddr k))
  have blank : fill s.vmm.mem (pageAddr k) (s.vmm.mem (pageAddr k)) = s.vmm.mem :=
    Function.update_eq_self _ _
  rw [blank] at taken
  exact taken.mono (fun _ _ no => no.elim) fun _ no => no.elim

/-! ## Mapping -/

/-- **`MapPageInto`** changes the entry of the page only, in its address space only. -/
theorem Sound.mapPageInto (h : Sound R s) (hg : R.Good shown) (hp : p ∈ s.spaces) (va g : u64)
    (w : Bool) :
    Moves R (onlyPage p va) noFrames s
        { s with vmm := (mapPageInto s.vmm p va g (userFlags w)).2 } ∧
      ((mapPageInto s.vmm p va g (userFlags w)).1 = true →
        getPteInto (mapPageInto s.vmm p va g (userFlags w)).2.mem p va =
          leafEntry g (userFlags w)) ∧
      ((mapPageInto s.vmm p va g (userFlags w)).1 = false → ∀ b ∈ s.spaces, ∀ x,
        getPteInto (mapPageInto s.vmm p va g (userFlags w)).2.mem b x =
          getPteInto s.vmm.mem b x) := by
  obtain ⟨x, here, other⟩ := h.trees.mapPageInto (.inr hp) va g (userFlags w)
  obtain ⟨is, inv⟩ := h.inv
  obtain ⟨is', typed, grows, frame, -⟩ := inv.typed.mapPageInto g (userFlags w) (inv.spaces p hp)
    rfl (through_user hg p va) fun _ =>
      leaf_ok (fun _ => leafEntry_user _ _ (userFlags_user w)) fun _ => trivial
  refine ⟨.of_extends x ⟨is', inv.grows typed grows⟩ fun b hb y hy hP => ?_, here,
    fun fails b hb y => other b y (.inr hb) (.inl fails)⟩
  by_cases same : vpn y = vpn va
  case neg => exact other b y (.inr hb) (.inr same)
  case pos =>
    -- another address space has its own page table there
    have ne : b ≠ p := fun eq => hP ⟨eq, same⟩
    have private_ : ¬ Shared va := by
      have walk := (path_eq_iff y va).mpr same
      simp only [path, List.cons.injEq, and_true] at walk
      rwa [Shared, Low, walk.1, walk.2.1] at hy
    have closed : ∀ (r : Role) (i : Index), r.Foreign p → 1 < r.rank → (r.child i).Foreign p :=
      fun r i hr _ => hr.child i
    have untouched : ∀ (r : Role) (t : u64), r.Foreign p → is r t →
        (VMM.mapPageInto s.vmm p va g (userFlags w)).2.mem t = s.vmm.mem t := fun r t hf hr =>
      frame r t hr fun onPath => hf (private_path _ private_ onPath)
    rw [getPteInto_eq, getPteInto_eq]
    exact congrArg pteOf (inv.typed.entries_eq closed untouched (inv.spaces b hb)
      (fun heq => ne (Option.some.inj heq)) rfl y)

/-- **A page of the process environment** comes into one address space. -/
theorem Sound.setupPage (h : Sound R s) (hg : R.Good shown) (hp : p ∈ s.spaces) (va : u64)
    (page : Table) :
    Moves R (onlyPage p va) noFrames s { s with vmm := (setupPage s.vmm p va page).2 } := by
  rw [Kernel.setupPage]
  rcases allocPage_cases s.vmm.pmm with ⟨q, hq, ht⟩ | ⟨h0, -⟩
  case inr =>
    simp only [h0, if_true]
    exact .refl h _ _
  case inl =>
    have taken := h.takes (P := onlyPage p va) (F := noFrames) ht
    obtain ⟨filled, -⟩ := h.newPage ht page
    generalize allocPage s.vmm.pmm = r at *
    split
    case isTrue => exact taken
    case isFalse =>
      rw [hq]
      obtain ⟨mapped, -⟩ := filled.sound.mapPageInto hg hp va (pageAddr q) true
      exact (filled.mono (fun _ _ no => no.elim) fun _ no => no).trans mapped

theorem Sound.setupPages (hg : R.Good shown) (pages : Nat → Table) (n k : Nat) (h : Sound R s)
    (hp : p ∈ s.spaces) : Moves R (viewPages p PEB_VA k n) noFrames s
      { s with vmm := setupPages p pages n k s.vmm } := by
  induction n generalizing k s with
  | zero => exact .refl h _ _
  | succ n ih =>
    rw [Kernel.setupPages]
    have moved := (h.setupPage hg hp (PEB_VA + pageAddr k) (pages k)).mono
      (Q := viewPages p PEB_VA k (n + 1)) (fun b w hw => ⟨hw.1, k, le_rfl, by omega, hw.2⟩)
      fun _ no => no
    generalize Kernel.setupPage s.vmm p (PEB_VA + pageAddr k) (pages k) = r at *
    split
    case isFalse => exact moved
    case isTrue =>
      refine moved.trans ((ih (k + 1) moved.sound hp).mono ?_ fun _ no => no)
      rintro b w ⟨hb, j, h1, h2, hw⟩
      exact ⟨hb, j, by omega, by omega, hw⟩

/-- **The process environment** is four pages of one address space. -/
theorem Sound.setupPeb (h : Sound R s) (hg : R.Good shown) (hp : p ∈ s.spaces)
    (pages : Nat → Table) : Moves R (viewPages p PEB_VA 0 4) noFrames s
      { s with vmm := (setupPeb s.vmm p pages).2 } := by
  rw [Kernel.setupPeb]
  have first : PEB_VA + pageAddr 0 = PEB_VA := BitVec.add_zero PEB_VA
  have moved := (h.setupPage hg hp PEB_VA (pages 0)).mono
    (Q := viewPages p PEB_VA 0 4) (fun b w hw => ⟨hw.1, 0, le_rfl, by omega, by rw [first]; exact hw.2⟩)
    fun _ no => no
  generalize Kernel.setupPage s.vmm p PEB_VA (pages 0) = r at *
  split
  case isFalse => exact moved
  case isTrue =>
    refine moved.trans ((moved.sound.setupPages hg pages 3 1 hp).mono ?_ fun _ no => no)
    rintro b w ⟨hb, j, h1, h2, hw⟩
    exact ⟨hb, j, Nat.zero_le j, by omega, hw⟩

/-! ## Runs -/

theorem Sound.step (h : Sound R s) (hg : R.Good shown) {op : Op} (hs : step s op = some t) :
    Sound R t := by
  obtain ⟨is, inv⟩ := h.inv
  exact ⟨inv.step hg op.fits_free hs, inv.forest_step hg h.forest hs⟩

/-- An address space comes from the allocator, or was there. -/
theorem Sound.step_spaces (h : Sound R s) (hg : R.Good shown) {op : Op}
    (hs : Kernel.step s op = some t) :
    t.vmm.pml4Phys = s.vmm.pml4Phys ∧ (∀ q ∈ s.spaces, q ∈ t.spaces) ∧
      ∀ q ∈ t.spaces, q ∈ s.spaces ∨ ¬ Used s.vmm q := by
  have root : ∀ p ∈ s.spaces, s.IsSpace p := fun p hp => .inr hp
  have keeps : ∀ v : Vmm, v.pml4Phys = s.vmm.pml4Phys → some { s with vmm := v } = some t →
      t.vmm.pml4Phys = s.vmm.pml4Phys ∧ (∀ q ∈ s.spaces, q ∈ t.spaces) ∧
        ∀ q ∈ t.spaces, q ∈ s.spaces ∨ ¬ Used s.vmm q := by
    rintro v hv ⟨⟩
    exact ⟨hv, fun _ hq => hq, fun _ hq => .inl hq⟩
  cases op with
  | pmm op =>
    obtain ⟨u, -, rfl⟩ := Option.map_eq_some_iff.mp hs
    exact ⟨rfl, fun _ hq => hq, fun _ hq => .inl hq⟩
  | store a i value =>
    simp only [Kernel.step] at hs
    split at hs
    case isFalse => cases hs
    case isTrue => exact keeps { s.vmm with mem := write s.vmm.mem (pageOf a) i value } rfl hs
  | createUserPml4 =>
    obtain ⟨is, inv⟩ := h.inv
    obtain ⟨hk, -⟩ := inv.createUserPml4_trees hg h.forest
    cases hs
    refine ⟨hk, fun q hq => ?_, fun q hq => ?_⟩
    · show q ∈ if _ then _ else _
      split
      case isTrue => exact hq
      case isFalse => exact List.mem_cons_of_mem _ hq
    · simp only at hq
      split at hq
      case isTrue => exact .inl hq
      case isFalse hne =>
        rcases List.mem_cons.mp hq with rfl | hq
        · exact .inr (createUserPml4_fresh inv hg hne)
        · exact .inl hq
  | mapPageInto p v phys w =>
    simp only [Kernel.step] at hs
    split at hs
    case isFalse => cases hs
    case isTrue hp => exact keeps _ (h.trees.mapPageInto (root p hp) v phys (userFlags w)).1.pml4Phys hs
  | unmapPageFrom p v =>
    simp only [Kernel.step] at hs
    split at hs
    case isFalse => cases hs
    case isTrue hp => exact keeps _ (h.trees.unmapPageFrom (root p hp) v).pml4Phys hs
  | ntProtectVm p a1 a2 a3 =>
    simp only [Kernel.step] at hs
    split at hs
    case isFalse => cases hs
    case isTrue hp => exact keeps _ (Trees.protectPages (root p hp) _ 0 h.trees).pml4Phys hs

/-- **A new address space** shows the private pages of the others as they were. -/
theorem Sound.createUserPml4 (h : Sound R s) (hg : R.Good shown)
    (hs : Kernel.step s .createUserPml4 = some t) : Moves R P F s t := by
  have sound := h.step hg hs
  obtain ⟨is, inv⟩ := h.inv
  obtain ⟨hk, -⟩ := inv.createUserPml4_trees hg h.forest
  obtain ⟨-, bits, same, tables, ptes⟩ := h.trees.createUserPml4 (.inl rfl) fun _ => by
    obtain ⟨pdpt, hl, -⟩ := inv.slot0 hg (show s.IsSpace s.vmm.pml4Phys from .inl rfl)
    rw [hl, (link_eq_some.mp hl).2.2]
  cases hs
  refine ⟨sound, fun q hq => ?_, hk, bits, fun g hu hn hd => hn (tables g hu ?_),
    fun g hu _ _ => same g hu, fun b hb w _ _ => ptes b w (.inr hb)⟩
  · show q ∈ if _ then _ else _
    split
    case isTrue => exact hq
    case isFalse => exact List.mem_cons_of_mem _ hq
  · obtain ⟨a, q, ha, hq, hd⟩ := hd
    refine ⟨a, q, ?_, hq, hd⟩
    simp only [System.IsSpace, hk] at ha
    split at ha
    case isTrue => exact .inl ha
    case isFalse hne =>
      rcases ha with ha | ha
      · exact .inl (.inl ha)
      · rcases List.mem_cons.mp ha with ha | ha
        · exact .inr ⟨hne, ha⟩
        · exact .inl (.inr ha)

end

/-- **The state after boot is sound.** -/
theorem boot_sound {m : Mem} {pt bmStart : u64} {bi : Option BootInfo} {page : Table} {shown : Bool}
    {v : Vmm} (hb : TablesAt pt bi) (hboot : boot m pt bmStart bi page = some (shown, v)) :
    ∃ R, R.Good shown ∧ Sound R (start v) := by
  obtain ⟨R, is, hg, h⟩ := run_inv hb hboot (show Base.Machine.run step (start v) [] = some (start v) from rfl)
  obtain ⟨trees, root, -⟩ := boot_trees hb hboot
  refine ⟨R, hg, ⟨is, h⟩, ?_⟩
  have roots : ∀ a, (start v).IsSpace a → a = pt := by
    rintro a (ha | ha)
    · exact ha.trans root
    · cases ha
  intro a b q r u ha hb hq hr hd hd'
  exact trees.forest a b q r u (roots a ha) (roots b hb) hq hr hd hd'

end MicroNT.Kernel
