import MicroNT.Base.Machine
import MicroNT.PageRoles
import MicroNT.VirtualMemoryMap

/-! # Isolation of address spaces

The kernel's tables, whatever they are, are shared; the tables below a private
entry of a user PML4 belong to that PML4. A private address is mapped through
owned tables only, so an operation on one address space is not seen in another.
The allocator serves other clients as well, who keep off the table frames. -/

namespace MicroNT.VMM.AddressSpaces

open MicroNT.PMM MicroNT.Base.Radix MicroNT.Base.Machine

/-- A PML4 made by `CreateUserPml4`, with the kernel slots present at that time. -/
structure Space where
  root : u64
  copied : Index → Bool

/-- At or above 4 GB in slot 0, or in a slot that was not copied. -/
def Space.isPrivate (p : Space) (v : u64) : Bool :=
  if pml4Idx v = 0#9 then decide (4 ≤ (pdptIdx v).toNat) else !p.copied (pml4Idx v)

/-- The memory manager, the PML4s made so far and the pages other clients hold. -/
structure State where
  vmm : Vmm
  spaces : List Space
  data : List u64

inductive Op
  | createUserPml4
  | mapPageInto (pml4 virt phys flags : u64)
  | unmapPageFrom (pml4 virt : u64)
  | protectPageInto (pml4 virt flags : u64)
  | allocPage
  | freePage (physAddr : u64)

/-- The address is private in some address space with that PML4. -/
def State.allows (s : State) (pml4 v : u64) : Bool :=
  s.spaces.any fun p => p.root == pml4 && p.isPrivate v

def step (s : State) : Op → Option State
  | .createUserPml4 =>
    let r := createUserPml4 s.vmm
    if r.1 = 0 then some { s with vmm := r.2 }
    else
      let slots : Index → Bool := fun i => has (s.vmm.mem s.vmm.pml4Phys i) PTE_PRESENT
      some { s with vmm := r.2, spaces := ⟨r.1, slots⟩ :: s.spaces }
  | .mapPageInto pml4 v p flags =>
    if s.allows pml4 v then some { s with vmm := (mapPageInto s.vmm pml4 v p flags).2 } else none
  | .unmapPageFrom pml4 v =>
    if s.allows pml4 v then some { s with vmm := unmapPageFrom s.vmm pml4 v } else none
  | .protectPageInto pml4 v flags =>
    if s.allows pml4 v then some { s with vmm := (protectPageInto s.vmm pml4 v flags).2 } else none
  | .allocPage =>
    let r := allocPage s.vmm.pmm
    some { s with
      vmm := { s.vmm with pmm := r.2 }
      data := if r.1 = 0 then s.data else r.1 :: s.data }
  | .freePage a =>
    if pageOf a ∈ s.data then
      some { s with
        vmm := { s.vmm with pmm := freePage s.vmm.pmm a }
        data := s.data.filter (· ≠ pageOf a) }
    else none

/-- The PML4 an operation works on. -/
def Op.target : Op → Option u64
  | .mapPageInto pml4 _ _ _ => some pml4
  | .unmapPageFrom pml4 _ => some pml4
  | .protectPageInto pml4 _ _ => some pml4
  | _ => none

/-- The kernel's PML4 or one made by `CreateUserPml4`. -/
def State.IsSpace (s : State) (pml4 : u64) : Prop :=
  pml4 = s.vmm.pml4Phys ∨ ∃ p ∈ s.spaces, p.root = pml4

/-- The step changes no translation in any other address space. -/
def Isolated (s : State) (op : Op) : Prop :=
  ∀ t, step s op = some t → ∀ pml4, s.IsSpace pml4 → op.target ≠ some pml4 →
    ∀ v, translateInPml4 t.vmm.mem pml4 v = translateInPml4 s.vmm.mem pml4 v

/-! ## Roles -/

inductive Role
  | shared (rank : Nat)
  | root (space : u64)
  | low (space : u64)
  | own (space : u64) (rank : Nat)
  deriving DecidableEq

def Role.owner : Role → Option u64
  | .shared _ => none
  | .root p => some p
  | .low p => some p
  | .own p _ => some p

def Role.rank : Role → Nat
  | .shared n => n
  | .root _ => 4
  | .low _ => 3
  | .own _ n => n

/-- Where an entry leads: slot 0 of a user PML4 to its own PDPT, whose first four
entries are the kernel's; a copied slot to a kernel table. -/
def Role.child (copied : Index → Bool) : Role → Index → Role
  | .shared n, _ => .shared (n - 1)
  | .root p, i => if i = 0#9 then .low p else if copied i then .shared 3 else .own p 3
  | .low p, j => if j.toNat < 4 then .shared 2 else .own p 2
  | .own p n, _ => .own p (n - 1)

def roles (copied : Index → Bool) : Roles Role where
  child := Role.child copied
  rank := Role.rank
  sole r := r.owner ≠ none
  ok _ _ _ := True
  rank_child r i h := by
    cases r with
    | shared n => simp only [Role.child, Role.rank] at *; omega
    | root p => simp only [Role.child]; split <;> [rfl; (split <;> rfl)]
    | low p => simp only [Role.child]; split <;> rfl
    | own p n => simp only [Role.child, Role.rank] at *; omega

theorem owner_child (copied : Index → Bool) (r : Role) (i : Index) :
    (r.child copied i).owner = r.owner ∨ (r.child copied i).owner = none := by
  cases r with
  | shared n => exact .inl rfl
  | root p => simp only [Role.child]; split <;> [exact .inl rfl; (split <;> simp [Role.owner])]
  | low p => simp only [Role.child]; split <;> simp [Role.owner]
  | own p n => exact .inl rfl

/-- The roles of the tables of one address space. -/
def ownedBy (p : u64) (r : Role) : Prop := r.owner = some p

theorem growable {copied : Index → Bool} {p : u64} {r : Role} (h : ownedBy p r) (i : Index) :
    Growable (roles copied) r i where
  sole := by
    show r.owner ≠ none
    rw [show r.owner = some p from h]
    exact Option.some_ne_none p
  table _ _ _ _ _ := trivial
  blank _ _ _ _ := trivial

/-- What a private address goes through is owned. -/
theorem private_owned {p : Space} {v : u64} (h : p.isPrivate v = true) :
    ∀ r, (roles p.copied).onPath (.root p.root) v r → ownedBy p.root r := by
  have hpath : ownedBy p.root ((roles p.copied).pdpt (.root p.root) v) ∧
      ownedBy p.root ((roles p.copied).pd (.root p.root) v) ∧
      ownedBy p.root ((roles p.copied).leaf (.root p.root) v) := by
    rw [Space.isPrivate] at h
    by_cases h0 : pml4Idx v = 0#9
    · have h4 : ¬ (pdptIdx v).toNat < 4 := by
        rw [if_pos h0, decide_eq_true_eq] at h
        omega
      simp [Roles.leaf, Roles.pd, Roles.pdpt, roles, Role.child, h0, h4, ownedBy, Role.owner]
    · have hc : p.copied (pml4Idx v) = false := by simpa [h0] using h
      simp [Roles.leaf, Roles.pd, Roles.pdpt, roles, Role.child, h0, hc, ownedBy, Role.owner]
  intro r hr
  rcases hr with rfl | rfl | rfl | rfl
  · rfl
  · exact hpath.1
  · exact hpath.2.1
  · exact hpath.2.2

theorem private_through {p : Space} {v : u64} (h : p.isPrivate v = true) :
    Through (roles p.copied) (.root p.root) v where
  pml4 := growable (private_owned h _ (.inl rfl)) _
  pdpt := growable (private_owned h _ (.inr (.inl rfl))) _
  pd := growable (private_owned h _ (.inr (.inr (.inl rfl)))) _
  pt := (growable (private_owned h _ (.inr (.inr (.inr rfl)))) 0#9).sole

/-! ## The invariant -/

/-- Tables keep their roles, the kernel's PML4 and every user PML4 have theirs,
and a page held by another client is no table. -/
structure Inv (copied : Index → Bool) (is : Role → u64 → Prop) (s : State) : Prop where
  typed : Typed (roles copied) is s.vmm
  kernel : is (.shared 4) s.vmm.pml4Phys
  slots : ∀ i, has (s.vmm.mem s.vmm.pml4Phys i) PTE_PRESENT = copied i
  noHuge : ∀ i, has (s.vmm.mem s.vmm.pml4Phys i) PTE_PS = false
  spaces : ∀ p ∈ s.spaces, is (.root p.root) p.root ∧ p.copied = copied
  held : ∀ a ∈ s.data, Used s.vmm a ∧ ∀ r, ¬ is r a

section

variable {copied : Index → Bool} {new : Role → Prop} {is is' : Role → u64 → Prop} {s : State}

theorem Inv.role (h : Inv copied is s) {pml4 : u64} (hp : s.IsSpace pml4) :
    ∃ r, is r pml4 ∧ (roles copied).rank r = 4 ∧ (r.owner = some pml4 ∨ r.owner = none) := by
  rcases hp with rfl | ⟨p, hp, rfl⟩
  · exact ⟨_, h.kernel, rfl, .inr rfl⟩
  · exact ⟨_, (h.spaces p hp).1, rfl, .inl rfl⟩

theorem Inv.shared (h : Inv copied is s) {n : Nat} {t b : u64} {i : Index} (hn : 1 < n)
    (ht : is (.shared n) t) (hb : link (s.vmm.mem t i) = some b) : is (.shared (n - 1)) b :=
  h.typed.linked (.shared n) t i b hn ht hb

/-- The kernel's PDPT for slot 0. -/
theorem Inv.kernelLow (h : Inv copied is s)
    (hp : has (s.vmm.mem s.vmm.pml4Phys 0#9) PTE_PRESENT = true) :
    is (.shared 3) (s.vmm.mem s.vmm.pml4Phys 0#9 &&& PTE_ADDR_MASK) :=
  h.shared (by decide) h.kernel (link_eq_some.mpr ⟨hp, h.noHuge 0#9, rfl⟩)

/-- If only tables of one address space changed, no other address space sees it. -/
theorem Inv.unseen (h : Inv copied is s) {m : Mem} {p : u64}
    (same : ∀ r u, is r u → ¬ ownedBy p r → m u = s.vmm.mem u) {pml4 : u64}
    (hs : s.IsSpace pml4) (hne : pml4 ≠ p) (v : u64) :
    translateInPml4 m pml4 v = translateInPml4 s.vmm.mem pml4 v := by
  obtain ⟨r, hr, hrank, howner⟩ := h.role hs
  have hclosed : ∀ r i, ¬ ownedBy p r → 1 < (roles copied).rank r →
      ¬ ownedBy p ((roles copied).child r i) := by
    intro r i hn _ hc
    rcases owner_child copied r i with ho | ho
    · exact hn (by rw [ownedBy, ← ho]; exact hc)
    · rw [ownedBy, show ((roles copied).child r i).owner = none from ho] at hc
      cases hc
  have hnot : ¬ ownedBy p r := by
    intro ho
    rcases howner with h' | h'
    · exact hne (Option.some.inj (h'.symm.trans ho))
    · rw [ownedBy, h'] at ho
      cases ho
  rw [translateInPml4_eq, translateInPml4_eq,
    h.typed.entries_eq hclosed (fun r u hn hu => same r u hu hn) hr hnot hrank v]

/-- The invariant after a step that grows the tables of one address space. -/
theorem Inv.grows (h : Inv copied is s) {t : Vmm} (ht : Typed (roles copied) is' t)
    (hg : Grows new is is' s.vmm t) (hk : t.mem s.vmm.pml4Phys = s.vmm.mem s.vmm.pml4Phys) :
    Inv copied is' { s with vmm := t } where
  typed := ht
  kernel := by
    show is' (.shared 4) t.pml4Phys
    rw [hg.pml4Phys]
    exact hg.keep _ _ h.kernel
  slots i := by
    show has (t.mem t.pml4Phys i) PTE_PRESENT = copied i
    rw [hg.pml4Phys, hk]
    exact h.slots i
  noHuge i := by
    show has (t.mem t.pml4Phys i) PTE_PS = false
    rw [hg.pml4Phys, hk]
    exact h.noHuge i
  spaces p hp := ⟨hg.keep _ _ (h.spaces p hp).1, (h.spaces p hp).2⟩
  held a ha := by
    obtain ⟨hu, hn⟩ := h.held a ha
    refine ⟨hu.mono hg.bits, fun r hr => ?_⟩
    rcases hg.fresh r a hr with hr | hfree
    · exact hn r hr
    · exact hfree.2 hu

theorem kernel_not_owned (p : u64) : ¬ ownedBy p (.shared 4) := by
  intro h
  cases h

theorem Inv.takes (h : Inv copied is s) {p : Pmm} {i count : Nat} (ht : Takes s.vmm.pmm p i count) :
    Inv copied is { s with vmm := { s.vmm with pmm := p } } :=
  h.grows (h.typed.takes ht) (show Grows (fun _ => True) is is _ _ from
    ⟨fun _ _ hr => hr, fun _ _ hr => .inl hr, fun q hq => by simp [ht.bits, hq], rfl⟩) rfl

theorem lowTable_link {m : Mem} {k : u64} {i : Index} {b : u64}
    (h : link (lowTable m k i) = some b) :
    has k PTE_PRESENT = true ∧ i.toNat < 4 ∧ link (m (k &&& PTE_ADDR_MASK) i) = some b := by
  rw [lowTable] at h
  split at h
  case isTrue hc =>
    simp only [Bool.and_eq_true, decide_eq_true_eq] at hc
    exact ⟨hc.1, hc.2, h⟩
  case isFalse => rw [link_zero] at h; cases h

/-- A new user PML4 shares the kernel's tables. -/
theorem Inv.clonable (h : Inv copied is s) (p : u64) :
    Clonable (roles copied) is s.vmm (.root p) (.low p) where
  child := rfl
  first _ _ := trivial
  upper _ _ := trivial
  upperLink i b h0 hb := by
    rw [copiedSlot] at hb
    split at hb
    case isTrue hp =>
      have hchild : (roles copied).child (.root p) i = .shared 3 := by
        simp [roles, Role.child, h0, ← h.slots i, hp]
      rw [hchild]
      exact h.shared (by decide) h.kernel (by rwa [link_or_user] at hb)
    case isFalse => rw [link_zero] at hb; cases hb
  lower _ := trivial
  lowerLink i b hb := by
    obtain ⟨hp, hi, hl⟩ := lowTable_link hb
    have hchild : (roles copied).child (.low p) i = .shared 2 := by
      simp [roles, Role.child, hi]
    rw [hchild]
    exact h.shared (by decide) (h.kernelLow hp) hl

/-! ## Steps -/

theorem State.allows_iff {pml4 v : u64} (h : s.allows pml4 v = true) :
    ∃ p ∈ s.spaces, p.root = pml4 ∧ p.isPrivate v = true := by
  rw [State.allows, List.any_eq_true] at h
  obtain ⟨p, hp, hb⟩ := h
  rw [Bool.and_eq_true, beq_iff_eq] at hb
  exact ⟨p, hp, hb.1, hb.2⟩

/-- What one operation must show: the invariant again, and that the other
address spaces do not see it. -/
def StepOk (copied : Index → Bool) (s t : State) (op : Op) : Prop :=
  (∃ is', Inv copied is' t) ∧ ∀ pml4, s.IsSpace pml4 → op.target ≠ some pml4 →
    ∀ v, translateInPml4 t.vmm.mem pml4 v = translateInPml4 s.vmm.mem pml4 v

/-- Writing a leaf of a private address. -/
theorem Inv.leaf (h : Inv copied is s) {pml4 v pt e : u64} (ha : s.allows pml4 v = true)
    (hpt : pageTable s.vmm.mem pml4 v = some pt) {op : Op} (hop : op.target = some pml4) :
    StepOk copied s { s with vmm := { s.vmm with mem := write s.vmm.mem pt (ptIdx v) e } } op := by
  obtain ⟨p, hp, rfl, hpriv⟩ := State.allows_iff ha
  obtain ⟨hroot, rfl⟩ := h.spaces p hp
  have hown := private_owned hpriv _ (.inr (.inr (.inr rfl)))
  have hleaf := h.typed.pageTable (r := .root p.root) hroot rfl hpt
  have hsole := (private_through hpriv).pt
  have hrank := ((roles p.copied).ranks (r := .root p.root) rfl v).2.2
  have same : ∀ r u, is r u → ¬ ownedBy p.root r →
      write s.vmm.mem pt (ptIdx v) e u = s.vmm.mem u := by
    intro r u hu hn
    refine write_of_table_ne ?_
    rintro rfl
    exact hn (h.typed.alone _ r u hleaf hu hsole ▸ hown)
  refine ⟨⟨is, h.grows (h.typed.writeLeaf hleaf hsole hrank trivial)
    (.mem (fun _ => True) _ _ _) ?_⟩,
    fun q hq hne w => h.unseen same hq (fun heq => hne (by rw [hop, heq])) w⟩
  exact same _ _ h.kernel (kernel_not_owned _)

theorem StepOk.rfl' (h : Inv copied is s) (op : Op) : StepOk copied s s op :=
  ⟨⟨is, h⟩, fun _ _ _ _ => rfl⟩

theorem Inv.map (h : Inv copied is s) {pml4 v p flags : u64} (ha : s.allows pml4 v = true) :
    StepOk copied s { s with vmm := (mapPageInto s.vmm pml4 v p flags).2 }
      (.mapPageInto pml4 v p flags) := by
  obtain ⟨sp, hp, rfl, hpriv⟩ := State.allows_iff ha
  obtain ⟨hroot, rfl⟩ := h.spaces sp hp
  obtain ⟨is', htyped, hgrows, same, -⟩ := h.typed.mapPageInto p flags hroot rfl
    (private_through hpriv) fun _ => trivial
  have same' : ∀ r u, is r u → ¬ ownedBy sp.root r → _ :=
    fun r u hu hn => same r u hu fun hr => hn (private_owned hpriv r hr)
  exact ⟨⟨is', h.grows htyped hgrows (same' _ _ h.kernel (kernel_not_owned _))⟩,
    fun q hq hne w => h.unseen same' hq (fun heq => hne (by rw [heq]; rfl)) w⟩

theorem Inv.step (h : Inv copied is s) {op : Op} {t : State} (hs : step s op = some t) :
    StepOk copied s t op := by
  cases op with
  | createUserPml4 =>
    obtain ⟨is', htyped, hgrows, same, hroot⟩ :=
      h.typed.createUserPml4 h.kernel h.kernelLow h.clonable
    have hk := same _ _ h.kernel
    have hi := h.grows htyped hgrows hk
    have seen : ∀ q, s.IsSpace q → ∀ v,
        translateInPml4 (createUserPml4 s.vmm).2.mem q v = translateInPml4 s.vmm.mem q v := by
      intro q hq v
      obtain ⟨r, hr, hrank, -⟩ := h.role hq
      rw [translateInPml4_eq, translateInPml4_eq, h.typed.entries_eq (C := fun _ => True)
        (fun _ _ _ _ => trivial) (fun r u _ hu => same r u hu) hr trivial hrank v]
    simp only [AddressSpaces.step] at hs
    split at hs
    case isTrue =>
      obtain rfl := Option.some.inj hs
      exact ⟨⟨is', hi⟩, fun q hq _ => seen q hq⟩
    case isFalse hn =>
      obtain rfl := Option.some.inj hs
      refine ⟨⟨is', ⟨hi.typed, hi.kernel, hi.slots, hi.noHuge, fun p hp => ?_, hi.held⟩⟩,
        fun q hq _ => seen q hq⟩
      rcases List.mem_cons.mp hp with rfl | hp
      · exact ⟨hroot hn, funext h.slots⟩
      · exact hi.spaces p hp
  | mapPageInto pml4 v p flags =>
    simp only [AddressSpaces.step] at hs
    split at hs
    case isTrue ha => obtain rfl := Option.some.inj hs; exact h.map ha
    case isFalse => cases hs
  | unmapPageFrom pml4 v =>
    simp only [AddressSpaces.step] at hs
    split at hs
    case isTrue ha =>
      obtain rfl := Option.some.inj hs
      rw [unmapPageFrom]
      cases hpt : pageTable s.vmm.mem pml4 v with
      | none => exact .rfl' h _
      | some pt => exact h.leaf ha hpt rfl
    case isFalse => cases hs
  | protectPageInto pml4 v flags =>
    simp only [AddressSpaces.step] at hs
    split at hs
    case isTrue ha =>
      obtain rfl := Option.some.inj hs
      rw [protectPageInto]
      cases hpt : pageTable s.vmm.mem pml4 v with
      | none => exact .rfl' h _
      | some pt =>
        simp only
        split
        case isTrue => exact .rfl' h _
        case isFalse => exact h.leaf ha hpt rfl
    case isFalse => cases hs
  | allocPage =>
    obtain rfl := Option.some.inj hs
    refine ⟨⟨is, ?_⟩, fun _ _ _ _ => rfl⟩
    rcases allocPage_cases s.vmm.pmm with ⟨i, hi, ht⟩ | ⟨hr0, -⟩
    · have h' := h.takes ht
      refine ⟨h'.typed, h'.kernel, h'.slots, h'.noHuge, h'.spaces, fun a ha => ?_⟩
      simp only at ha
      split at ha
      case isTrue => exact h'.held a ha
      case isFalse =>
        rcases List.mem_cons.mp ha with rfl | ha
        · rw [hi]
          exact ⟨used_taken ht le_rfl (by omega), fun r hr =>
            not_used_free ht le_rfl (by omega) (h.typed.used r _ hr)⟩
        · exact h'.held a ha
    · simp only [hr0, if_true]
      exact h
  | freePage a =>
    simp only [AddressSpaces.step] at hs
    split at hs
    case isTrue ha =>
      obtain rfl := Option.some.inj hs
      have apart : ∀ r t, is r t → t ≠ pageOf a :=
        fun r t hr heq => (h.held _ ha).2 r (heq ▸ hr)
      refine ⟨⟨is, h.typed.freePage apart, h.kernel, h.slots, h.noHuge, h.spaces, fun b hb => ?_⟩,
        fun _ _ _ _ => rfl⟩
      rw [List.mem_filter, decide_eq_true_eq] at hb
      exact ⟨(h.held b hb.1).1.freePage hb.2, (h.held b hb.1).2⟩
    case isFalse => cases hs

end

/-! ## Runs -/

/-- A kernel PML4 to start from: the allocator holds none of its tables, and no
entry of the PML4 itself is a huge page. -/
structure KernelTree (k : Vmm) : Prop where
  used : ∀ p t, p.length ≤ 3 → descend link k.mem k.pml4Phys p = some t → Used k t
  noHuge : ∀ i, has (k.mem k.pml4Phys i) PTE_PS = false

/-- At first every table of the kernel is shared, at each rank it is reached. -/
theorem KernelTree.inv {k : Vmm} (h : KernelTree k) :
    Inv (fun i => has (k.mem k.pml4Phys i) PTE_PRESENT)
      (fun r t => ∃ p : List Index, r = .shared (4 - p.length) ∧ p.length ≤ 3 ∧
        descend link k.mem k.pml4Phys p = some t)
      { vmm := k, spaces := [], data := [] } where
  typed := {
    linked := by
      rintro r t i b h1 ⟨p, rfl, hp, ht⟩ hb
      have h1 : 1 < 4 - p.length := h1
      refine ⟨p ++ [i], ?_, ?_, ?_⟩
      · rw [List.length_append]
        rfl
      · rw [List.length_append, List.length_singleton]
        omega
      · rw [descend_snoc ht, hb]
    entry := fun _ _ _ _ => trivial
    alone := by
      rintro r r' t ⟨p, rfl, -, -⟩ - hs
      exact absurd rfl hs
    used := by
      rintro r t ⟨p, rfl, hp, ht⟩
      exact h.used p t hp ht }
  kernel := ⟨[], rfl, Nat.zero_le 3, rfl⟩
  slots _ := rfl
  noHuge := h.noHuge
  spaces p hp := by cases hp
  held a ha := by cases ha

/-- **Isolation of address spaces.** Whatever the kernel's tree, and whatever is
created, mapped, unmapped and protected at private addresses, with other clients
of the allocator in between: no operation changes a translation of the kernel's
PML4 or of a user PML4 other than its own. -/
theorem address_spaces_isolated (k : Vmm) (h : KernelTree k) (ops : List Op) :
    Along step Isolated { vmm := k, spaces := [], data := [] } ops := by
  have keep : Always step
      (fun s => ∃ is, Inv (fun i => has (k.mem k.pml4Phys i) PTE_PRESENT) is s)
      { vmm := k, spaces := [], data := [] } ops := by
    refine always_invariant (G := fun _ _ => True) ?_ ⟨_, h.inv⟩
      (along_of_forall (fun _ _ => trivial) _ _)
    intro s op t hs _ ht
    obtain ⟨is, hs⟩ := hs
    exact (hs.step ht).1
  refine keep.along ?_
  intro s op hs t ht
  obtain ⟨is, hs⟩ := hs
  exact (hs.step ht).2

/-- Two address spaces over an empty kernel PML4; the second maps, protects and
unmaps a page of its heap. -/
theorem address_spaces_isolated_two :
    Along step Isolated { vmm := emptyTree, spaces := [], data := [] }
      [.createUserPml4, .createUserPml4, .allocPage,
        .mapPageInto 0x203000#64 0x500000000#64 0x205000#64 7#64,
        .protectPageInto 0x203000#64 0x500000000#64 5#64,
        .unmapPageFrom 0x203000#64 0x500000000#64] :=
  address_spaces_isolated emptyTree
    ⟨fun p t hp ht => wellFormed_emptyTree.used p t hp ht,
      fun _ => show has 0 PTE_PS = false by decide⟩ _

end MicroNT.VMM.AddressSpaces
