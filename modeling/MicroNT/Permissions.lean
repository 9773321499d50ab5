import MicroNT.PageRoles

/-! # What ring 3 sees of an address space

An address is user-accessible if every level of its walk is present and has the
USER bit, and user-writable if every level has the WRITABLE bit as well. Leaf
writes change the view of an address in its last entry only. -/

namespace MicroNT.VMM

open MicroNT.Base.Radix

/-- Whether the entries of a walk let ring 3 in, or write. A PML4 entry alone
maps nothing. -/
def userCan (write : Bool) (l : List u64) : Bool :=
  decide (2 ≤ l.length) &&
    l.all fun e => has e PTE_PRESENT && has e PTE_USER && (!write || has e PTE_WRITABLE)

def userReads (m : Mem) (pml4 v : u64) : Bool := userCan false (entries m pml4 v)
def userWrites (m : Mem) (pml4 v : u64) : Bool := userCan true (entries m pml4 v)

/-- The tables that the walk of an address goes through. -/
structure Reaches (m : Mem) (pml4 v pdpt pd pt : u64) : Prop where
  pml4 : link (m pml4 (pml4Idx v)) = some pdpt
  pdpt : link (m pdpt (pdptIdx v)) = some pd
  pd : link (m pd (pdIdx v)) = some pt

theorem pageTable_eq_some {m : Mem} {pml4 v pt : u64} :
    pageTable m pml4 v = some pt ↔ ∃ pdpt pd, Reaches m pml4 v pdpt pd pt := by
  rw [pageTable_eq]
  constructor
  · intro h
    obtain ⟨pdpt, h1, h⟩ := Option.bind_eq_some_iff.mp h
    obtain ⟨pd, h2, h⟩ := Option.bind_eq_some_iff.mp h
    obtain ⟨pt', h3, h⟩ := Option.bind_eq_some_iff.mp h
    obtain rfl := Option.some.inj h
    exact ⟨pdpt, pd, h1, h2, h3⟩
  · intro ⟨pdpt, pd, h1, h2, h3⟩
    simp [descend, h1, h2, h3]

theorem getPteInto_some {m : Mem} {p v pt : u64} (h : pageTable m p v = some pt) :
    getPteInto m p v = m pt (ptIdx v) := by
  rw [getPteInto, h]

theorem getPteInto_present {m : Mem} {p v : u64}
    (h : has (getPteInto m p v) PTE_PRESENT = true) : ∃ pt, pageTable m p v = some pt := by
  unfold getPteInto at h
  cases hpt : pageTable m p v with
  | some pt => exact ⟨pt, rfl⟩
  | none =>
    rw [hpt] at h
    exact absurd h (show ¬ has 0 PTE_PRESENT = true by decide)

section

variable {m m' : Mem} {pml4 v pdpt pd pt : u64}

theorem Reaches.entries (h : Reaches m pml4 v pdpt pd pt) :
    entries m pml4 v =
      [m pml4 (pml4Idx v), m pdpt (pdptIdx v), m pd (pdIdx v), m pt (ptIdx v)] := by
  simp [VMM.entries, path, walk_cons_cons, h.pml4, h.pdpt, h.pd]

theorem Reaches.translate (h : Reaches m pml4 v pdpt pd pt) :
    translateInPml4 m pml4 v =
      if has (m pt (ptIdx v)) PTE_PRESENT then (m pt (ptIdx v) &&& PTE_ADDR_MASK) ||| (v &&& 0xFFF#64)
      else 0 := by
  rw [translateInPml4_eq, h.entries]
  rfl

theorem Reaches.getPteInto (h : Reaches m pml4 v pdpt pd pt) :
    getPteInto m pml4 v = m pt (ptIdx v) :=
  getPteInto_some (pageTable_eq_some.mpr ⟨pdpt, pd, h⟩)

/-- All three entries above a page table let ring 3 write. -/
def Open (m : Mem) (pml4 v pdpt pd : u64) : Prop :=
  ∀ e ∈ [m pml4 (pml4Idx v), m pdpt (pdptIdx v), m pd (pdIdx v)],
    has e PTE_PRESENT = true ∧ has e PTE_USER = true ∧ has e PTE_WRITABLE = true

/-- The tables above the leaves are open after a leaf write as before. -/
theorem open_congr {m m' : Mem} {p v pdpt pd : u64} (h : Open m p v pdpt pd)
    (e1 : m' p (pml4Idx v) = m p (pml4Idx v)) (e2 : m' pdpt (pdptIdx v) = m pdpt (pdptIdx v))
    (e3 : m' pd (pdIdx v) = m pd (pdIdx v)) : Open m' p v pdpt pd := by
  rw [Open, e1, e2, e3]
  exact h

/-- Below open entries the last entry decides. -/
theorem Reaches.userCan (h : Reaches m pml4 v pdpt pd pt) (ho : Open m pml4 v pdpt pd) (w : Bool) :
    userCan w (VMM.entries m pml4 v) = (has (m pt (ptIdx v)) PTE_PRESENT &&
      has (m pt (ptIdx v)) PTE_USER && (!w || has (m pt (ptIdx v)) PTE_WRITABLE)) := by
  simp only [Open, List.forall_mem_cons, List.not_mem_nil, false_imp_iff, implies_true,
    and_true] at ho
  obtain ⟨⟨p1, u1, w1⟩, ⟨p2, u2, w2⟩, p3, u3, w3⟩ := ho
  simp [h.entries, VMM.userCan, p1, u1, w1, p2, u2, w2, p3, u3, w3]

/-- Two leaf entries that map the same frame with the same rights. -/
structure SameLeaf (e e' : u64) : Prop where
  frame : e' &&& PTE_ADDR_MASK = e &&& PTE_ADDR_MASK
  present : has e' PTE_PRESENT = has e PTE_PRESENT
  user : has e' PTE_USER = has e PTE_USER
  writable : has e' PTE_WRITABLE = has e PTE_WRITABLE

/-- The translation and the rights of an address. -/
structure SameView (m m' : Mem) (pml4 v : u64) : Prop where
  translate : translateInPml4 m' pml4 v = translateInPml4 m pml4 v
  reads : userReads m' pml4 v = userReads m pml4 v
  writes : userWrites m' pml4 v = userWrites m pml4 v

theorem SameView.of_entries (h : entries m' pml4 v = entries m pml4 v) : SameView m m' pml4 v where
  translate := by rw [translateInPml4_eq, translateInPml4_eq, h]
  reads := by rw [userReads, userReads, h]
  writes := by rw [userWrites, userWrites, h]

end

section

variable {R : Type} {ρ : Roles R} {is : R → u64 → Prop} {s : Vmm} {m' : Mem} {r : R}
  {pml4 v pdpt pd pt : u64}

/-- The roles of the tables on a path. -/
theorem Typed.reaches (h : Typed ρ is s) (hr : is r pml4) (hrank : ρ.rank r = 4)
    (hv : Reaches s.mem pml4 v pdpt pd pt) :
    is (ρ.pdpt r v) pdpt ∧ is (ρ.pd r v) pd ∧ is (ρ.leaf r v) pt := by
  obtain ⟨k1, k2, -⟩ := ρ.ranks hrank v
  have h1 := h.linked r pml4 _ _ (by omega) hr hv.pml4
  have h2 := h.linked (ρ.pdpt r v) pdpt _ _ (by omega) h1 hv.pdpt
  exact ⟨h1, h2, h.linked (ρ.pd r v) pd _ _ (by omega) h2 hv.pd⟩

variable (h : Typed ρ is s) (upper : ∀ r t, is r t → 1 < ρ.rank r → m' t = s.mem t)
  (hr : is r pml4) (hrank : ρ.rank r = 4)
include h upper hr hrank

/-- Leaf writes leave the way to every page table as it is. -/
theorem Typed.reaches_leaf (hv : Reaches s.mem pml4 v pdpt pd pt) :
    Reaches m' pml4 v pdpt pd pt ∧ m' pml4 (pml4Idx v) = s.mem pml4 (pml4Idx v) ∧
      m' pdpt (pdptIdx v) = s.mem pdpt (pdptIdx v) ∧ m' pd (pdIdx v) = s.mem pd (pdIdx v) := by
  obtain ⟨k1, k2, -⟩ := ρ.ranks hrank v
  obtain ⟨h1, h2, -⟩ := h.reaches hr hrank hv
  have e1 := upper _ _ hr (by omega)
  have e2 := upper _ _ h1 (by omega)
  have e3 := upper _ _ h2 (by omega)
  refine ⟨⟨?_, ?_, ?_⟩, congrFun e1 _, congrFun e2 _, congrFun e3 _⟩
  · rw [e1]; exact hv.pml4
  · rw [e2]; exact hv.pdpt
  · rw [e3]; exact hv.pd

theorem Typed.pageTable_leaf : VMM.pageTable m' pml4 v = VMM.pageTable s.mem pml4 v := by
  obtain ⟨k1, k2, -⟩ := ρ.ranks hrank v
  rw [pageTable_eq, pageTable_eq]
  refine descend_congr fun p i q b hq hb => ?_
  have hlen : p.length ≤ 2 := by
    have := congrArg List.length hq
    simp only [List.length_append, List.length_cons, List.length_nil] at this
    omega
  have hdesc := h.descend hr (by omega) hb
  exact congrFun (upper _ _ hdesc (by have := ρ.rank_foldl (p := p) (r := r) (by omega); omega)) i

/-- Where no page table is reached, leaf writes change nothing. -/
theorem Typed.entries_leaf (hn : VMM.pageTable s.mem pml4 v = none) :
    entries m' pml4 v = entries s.mem pml4 v := by
  rw [pageTable_eq] at hn
  refine walk_congr fun p i q b hq hb => ?_
  have hlen : p.length ≤ 3 := by
    have := congrArg List.length hq
    simp only [path, List.length_append, List.length_cons, List.length_nil] at this
    omega
  have hshort : p.length ≠ 3 := by
    intro h3
    have : p = [pml4Idx v, pdptIdx v, pdIdx v] := by
      have := congrArg (List.take 3) hq
      rw [← h3, List.take_left', h3] at this
      · exact this.symm
      · rfl
    rw [this, hn] at hb
    cases hb
  have hdesc := h.descend hr (by omega) hb
  exact congrFun (upper _ _ hdesc (by have := ρ.rank_foldl (p := p) (r := r) (by omega); omega)) i

/-- **An address keeps its view** if its leaf keeps frame and rights. -/
theorem Typed.sameView_leaf
    (leaf : ∀ pt, VMM.pageTable s.mem pml4 v = some pt →
      SameLeaf (s.mem pt (ptIdx v)) (m' pt (ptIdx v))) :
    SameView s.mem m' pml4 v := by
  cases hpt : VMM.pageTable s.mem pml4 v with
  | none => exact .of_entries (h.entries_leaf upper hr hrank hpt)
  | some pt =>
    obtain ⟨pdpt, pd, hv⟩ := pageTable_eq_some.mp hpt
    obtain ⟨hv', e1, e2, e3⟩ := h.reaches_leaf upper hr hrank hv
    obtain ⟨hf, hp, hu, hw⟩ := leaf pt hpt
    refine ⟨?_, ?_, ?_⟩
    · rw [hv.translate, hv'.translate, hf, hp]
    · simp [userReads, userCan, hv.entries, hv'.entries, e1, e2, e3, hp, hu]
    · simp [userWrites, userCan, hv.entries, hv'.entries, e1, e2, e3, hp, hu, hw]

end

end MicroNT.VMM
