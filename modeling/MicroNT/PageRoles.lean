import MicroNT.VirtualMemory

/-! # Page tables with roles

Which tables an address space owns and which it shares is kept as a role for
each table: the role of a table and an index fix the role of the table linked
there and what the entry may hold. The operations of the memory manager are
proved once to keep any such assignment, from what the roles on their path say. -/

namespace MicroNT.VMM

open MicroNT.PMM MicroNT.Base.Radix

/-- Roles for tables. A `sole` role excludes every other role of its table;
tables of rank 1 hold leaves. -/
structure Roles (R : Type) where
  child : R → Index → R
  rank : R → Nat
  sole : R → Prop
  ok : R → Index → u64 → Prop
  rank_child : ∀ r i, 1 < rank r → rank (child r i) + 1 = rank r

/-- The tables of the memory have the roles that `is` says. -/
structure Typed {R : Type} (ρ : Roles R) (is : R → u64 → Prop) (s : Vmm) : Prop where
  linked : ∀ r t i b, 1 < ρ.rank r → is r t → link (s.mem t i) = some b → is (ρ.child r i) b
  entry : ∀ r t i, is r t → ρ.ok r i (s.mem t i)
  alone : ∀ r r' t, is r t → is r' t → ρ.sole r → r = r'
  used : ∀ r t, is r t → Used s t

/-- What allocating tables may do: roles from `new` are added, to frames that
were free, and the allocator only loses pages. -/
structure Grows {R : Type} (new : R → Prop) (is is' : R → u64 → Prop) (s s' : Vmm) : Prop where
  keep : ∀ r t, is r t → is' r t
  fresh : ∀ r t, is' r t → is r t ∨ (new r ∧ ¬ Used s t)
  bits : ∀ q, bitmapTest s.pmm.bitmap q = true → bitmapTest s'.pmm.bitmap q = true
  pml4Phys : s'.pml4Phys = s.pml4Phys

section

variable {R : Type} {ρ : Roles R} {is is' is'' : R → u64 → Prop} {s s' s'' : Vmm}

theorem Grows.refl (new : R → Prop) (is : R → u64 → Prop) (s : Vmm) : Grows new is is s s :=
  ⟨fun _ _ h => h, fun _ _ h => .inl h, fun _ h => h, rfl⟩

/-- Writing to memory alone. -/
theorem Grows.mem (new : R → Prop) (is : R → u64 → Prop) (s : Vmm) (m : Mem) :
    Grows new is is s { s with mem := m } :=
  ⟨fun _ _ h => h, fun _ _ h => .inl h, fun _ h => h, rfl⟩

theorem Grows.mono {new : R → Prop} (h : Grows new is is' s s') (new' : R → Prop)
    (hnew : ∀ r, new r → new' r) : Grows new' is is' s s' :=
  ⟨h.keep, fun r t ht => (h.fresh r t ht).imp_right fun hn => ⟨hnew r hn.1, hn.2⟩, h.bits,
    h.pml4Phys⟩

theorem Grows.trans {new : R → Prop} (h : Grows new is is' s s')
    (h' : Grows new is' is'' s' s'') : Grows new is is'' s s'' where
  keep r t ht := h'.keep r t (h.keep r t ht)
  fresh r t ht := by
    rcases h'.fresh r t ht with ht | ⟨hn, hfree⟩
    · exact h.fresh r t ht
    · exact .inr ⟨hn, fun hu => hfree (hu.mono h.bits)⟩
  bits q hq := h'.bits q (h.bits q hq)
  pml4Phys := h'.pml4Phys.trans h.pml4Phys

/-- The role of the table at the end of a path. -/
theorem Typed.descend (h : Typed ρ is s) {r : R} {t b : u64} {q : List Index} (ht : is r t)
    (hq : q.length < ρ.rank r) (hb : descend link s.mem t q = some b) :
    is (q.foldl ρ.child r) b :=
  descend_role ρ.rank_child h.linked ht hq hb

/-- A walk that starts in a class of unchanged tables reads the same entries. -/
theorem Typed.entries_eq (h : Typed ρ is s) {m : Mem} {C : R → Prop}
    (closed : ∀ r i, C r → 1 < ρ.rank r → C (ρ.child r i))
    (same : ∀ r t, C r → is r t → m t = s.mem t) {r : R} {pml4 : u64} (hr : is r pml4)
    (hC : C r) (hrank : ρ.rank r = 4) (v : u64) : entries m pml4 v = entries s.mem pml4 v :=
  walk_eq_of_roles ρ.rank_child h.linked closed same hr hC (by rw [hrank]; exact le_rfl)

/-- Changes outside the tables with roles do not matter. -/
theorem Typed.of_agree (h : Typed ρ is s) (same : ∀ r t, is r t → s'.mem t = s.mem t)
    (used : ∀ r t, is r t → Used s' t) : Typed ρ is s' where
  linked r t i b h1 ht hb := h.linked r t i b h1 ht (by rwa [same r t ht] at hb)
  entry r t i ht := by
    rw [same r t ht]
    exact h.entry r t i ht
  alone := h.alone
  used := used

/-- Writing one entry of a table with a sole role. -/
theorem Typed.writeEntry (h : Typed ρ is s) {r : R} {t : u64} (hr : is r t) (hsole : ρ.sole r)
    {i : Index} {e : u64} (hok : ρ.ok r i e)
    (hlink : 1 < ρ.rank r → ∀ b, link e = some b → is (ρ.child r i) b) :
    Typed ρ is { s with mem := write s.mem t i e } where
  linked r' u j b h1 hu hb := by
    have hb : link (write s.mem t i e u j) = some b := hb
    by_cases heq : u = t ∧ j = i
    · obtain ⟨rfl, rfl⟩ := heq
      obtain rfl := h.alone r r' u hr hu hsole
      rw [write_same] at hb
      exact hlink h1 b hb
    · rw [write_of_ne heq] at hb
      exact h.linked r' u j b h1 hu hb
  entry r' u j hu := by
    by_cases heq : u = t ∧ j = i
    · obtain ⟨rfl, rfl⟩ := heq
      obtain rfl := h.alone r r' u hr hu hsole
      simpa using hok
    · simp only [write_of_ne heq]
      exact h.entry r' u j hu
  alone := h.alone
  used := h.used

/-- Writing a leaf of a page table. -/
theorem Typed.writeLeaf (h : Typed ρ is s) {r : R} {t : u64} (hr : is r t) (hsole : ρ.sole r)
    (hrank : ρ.rank r = 1) {i : Index} {e : u64} (hok : ρ.ok r i e) :
    Typed ρ is { s with mem := write s.mem t i e } :=
  h.writeEntry hr hsole hok fun h1 => absurd h1 (by omega)

/-- Giving a role to a frame that had none and filling it. -/
theorem Typed.addTable (h : Typed ρ is s) {f : u64} {r : R} (tbl : Table)
    (hnone : ∀ r t, is r t → t ≠ f) (hused : Used s f)
    (hok : ∀ i, ρ.ok r i (tbl i))
    (hlink : 1 < ρ.rank r → ∀ i b, link (tbl i) = some b → is (ρ.child r i) b) :
    Typed ρ (fun r' t => is r' t ∨ (r' = r ∧ t = f)) { s with mem := fill s.mem f tbl } where
  linked r' t i b h1 ht hb := by
    have hb : link (fill s.mem f tbl t i) = some b := hb
    rcases ht with ht | ⟨rfl, rfl⟩
    · rw [fill_of_ne (hnone r' t ht)] at hb
      exact .inl (h.linked r' t i b h1 ht hb)
    · rw [fill_same] at hb
      exact .inl (hlink h1 i b hb)
  entry r' t i ht := by
    rcases ht with ht | ⟨rfl, rfl⟩
    · simp only [fill_of_ne (hnone r' t ht)]
      exact h.entry r' t i ht
    · simpa using hok i
  alone r' r'' t h1 h2 hs := by
    rcases h1 with h1 | ⟨rfl, rfl⟩ <;> rcases h2 with h2 | ⟨rfl, h2⟩
    · exact h.alone r' r'' t h1 h2 hs
    · exact absurd h2 (hnone r' t h1)
    · exact absurd rfl (hnone r'' _ h2)
    · rfl
  used r' t ht := by
    rcases ht with ht | ⟨-, rfl⟩
    · exact h.used r' t ht
    · exact hused

/-- Taking pages from the allocator. -/
theorem Typed.takes (h : Typed ρ is s) {p : Pmm} {i count : Nat} (ht : Takes s.pmm p i count) :
    Typed ρ is { s with pmm := p } where
  linked := h.linked
  entry := h.entry
  alone := h.alone
  used r t hr := (h.used r t hr).mono fun q hq => by simp [ht.bits, hq]

/-- Giving back a page that is no table. -/
theorem Typed.freePage (h : Typed ρ is s) {a : u64} (ha : ∀ r t, is r t → t ≠ pageOf a) :
    Typed ρ is { s with pmm := freePage s.pmm a } :=
  h.of_agree (fun _ _ _ => rfl) fun r t ht => (h.used r t ht).freePage (ha r t ht)

/-- Writing to a frame that is no table. -/
theorem Typed.writeData (h : Typed ρ is s) {m : Mem} {f : u64} (hf : ∀ r t, is r t → t ≠ f)
    (hm : ∀ t, t ≠ f → m t = s.mem t) : Typed ρ is { s with mem := m } :=
  h.of_agree (fun r t ht => hm t (hf r t ht)) h.used

/-- Entry `i` of a table of role `r` may be given a fresh table when absent. -/
structure Growable (ρ : Roles R) (r : R) (i : Index) : Prop where
  sole : ρ.sole r
  table : ∀ e f, ρ.ok r i e → has e PTE_PRESENT = false → IsFrame f → ρ.ok r i (tableEntry f)
  blank : ∀ e j, ρ.ok r i e → has e PTE_PRESENT = false → ρ.ok (ρ.child r i) j 0

theorem Typed.getOrAlloc (h : Typed ρ is s) {r : R} {t : u64} (hr : is r t)
    (hrank : 1 < ρ.rank r) {i : Index} (hi : Growable ρ r i) :
    ∃ is', Typed ρ is' (getOrAlloc s t i true).2 ∧
      Grows (· = ρ.child r i) is is' s (getOrAlloc s t i true).2 ∧
      ((getOrAlloc s t i true).1 ≠ 0 → is' (ρ.child r i) (getOrAlloc s t i true).1) ∧
      (∀ r' u, is r' u → r' ≠ r → (getOrAlloc s t i true).2.mem u = s.mem u) ∧
      ∀ r' u j, is r' u → has (s.mem u j) PTE_PRESENT = true →
        (getOrAlloc s t i true).2.mem u j = s.mem u j := by
  rw [VMM.getOrAlloc]
  simp only [Bool.not_true, Bool.false_eq_true, if_false]
  split
  case isTrue hpres =>
    split
    case isTrue =>
      exact ⟨is, h, .refl _ _ _, fun h0 => absurd rfl h0, fun _ _ _ _ => rfl, fun _ _ _ _ _ => rfl⟩
    case isFalse hps =>
      have hlink : link (s.mem t i) = some (s.mem t i &&& PTE_ADDR_MASK) :=
        link_eq_some.mpr ⟨hpres, by simpa using hps, rfl⟩
      exact ⟨is, h, .refl _ _ _, fun _ => h.linked r t i _ hrank hr hlink, fun _ _ _ _ => rfl,
        fun _ _ _ _ _ => rfl⟩
  case isFalse habs =>
    have habs : has (s.mem t i) PTE_PRESENT = false := by simpa using habs
    have hold := h.entry r t i hr
    rcases allocPage_cases s.pmm with ⟨k, hk, ht⟩ | ⟨hr0, -⟩
    · have h1 : Typed ρ is { s with pmm := (allocPage s.pmm).2 } := h.takes ht
      have bits : ∀ q, bitmapTest s.pmm.bitmap q = true →
          bitmapTest (allocPage s.pmm).2.bitmap q = true := fun q hq => by simp [ht.bits, hq]
      split
      case isTrue =>
        exact ⟨is, h1, ⟨fun _ _ hu => hu, fun _ _ hu => .inl hu, bits, rfl⟩,
          fun h0 => absurd rfl h0, fun _ _ _ _ => rfl, fun _ _ _ _ _ => rfl⟩
      case isFalse =>
        rw [hk]
        have hfree : ¬ Used s (pageAddr k) := not_used_free ht le_rfl (by omega)
        have hnone : ∀ r' u, is r' u → u ≠ pageAddr k :=
          fun r' u hu heq => hfree (heq ▸ h.used r' u hu)
        have hframe := isFrame_pageAddr (i := k) ht.within
        have h2 := h1.addTable (r := ρ.child r i) (fun _ => 0) hnone
          (used_taken ht le_rfl (by omega)) (fun j => hi.blank _ j hold habs)
          (fun _ _ b hb => by rw [link_zero] at hb; cases hb)
        have h3 := h2.writeEntry (.inl hr) hi.sole (hi.table _ _ hold habs hframe) (fun _ b hb => by
          rw [link_tableEntry hframe] at hb
          exact .inr ⟨rfl, (Option.some.inj hb).symm⟩)
        refine ⟨_, h3, ⟨fun _ _ hu => .inl hu, fun r' u hu => ?_, bits, rfl⟩,
          fun _ => .inr ⟨rfl, rfl⟩, fun r' u hu hne => ?_, fun r' u j hu hpres => ?_⟩
        · rcases hu with hu | ⟨hr', rfl⟩
          · exact .inl hu
          · exact .inr ⟨hr', hfree⟩
        · have hut : u ≠ t := by
            rintro rfl
            exact hne (h.alone r r' u hr hu hi.sole).symm
          simp only [graft, write_of_table_ne hut, fill_of_ne (hnone r' u hu)]
        · have hne : ¬ (u = t ∧ j = i) := by
            rintro ⟨rfl, rfl⟩
            rw [habs] at hpres
            cases hpres
          simp only [graft, write_of_ne hne, fill_of_ne (hnone r' u hu)]
    · simp only [hr0, if_true]
      exact ⟨is, h, .refl _ _ _, fun h0 => absurd rfl h0, fun _ _ _ _ => trivial,
        fun _ _ _ _ _ => trivial⟩

/-! ## The roles on the path of an address -/

def Roles.pdpt (ρ : Roles R) (r : R) (v : u64) : R := ρ.child r (pml4Idx v)
def Roles.pd (ρ : Roles R) (r : R) (v : u64) : R := ρ.child (ρ.pdpt r v) (pdptIdx v)

/-- The role of the page table of `v`. -/
def Roles.leaf (ρ : Roles R) (r : R) (v : u64) : R := ρ.child (ρ.pd r v) (pdIdx v)

theorem Roles.ranks (ρ : Roles R) {r : R} (h : ρ.rank r = 4) (v : u64) :
    ρ.rank (ρ.pdpt r v) = 3 ∧ ρ.rank (ρ.pd r v) = 2 ∧ ρ.rank (ρ.leaf r v) = 1 := by
  have h1 : ρ.rank (ρ.pdpt r v) + 1 = ρ.rank r := ρ.rank_child _ _ (by omega)
  have h2 : ρ.rank (ρ.pd r v) + 1 = ρ.rank (ρ.pdpt r v) := ρ.rank_child _ _ (by omega)
  have h3 : ρ.rank (ρ.leaf r v) + 1 = ρ.rank (ρ.pd r v) := ρ.rank_child _ _ (by omega)
  omega

/-- Each link of a path costs one rank. -/
theorem Roles.rank_foldl (ρ : Roles R) {p : List Index} {r : R} (hp : p.length < ρ.rank r) :
    ρ.rank (p.foldl ρ.child r) + p.length = ρ.rank r := by
  induction p generalizing r with
  | nil => rfl
  | cons i p ih =>
    rw [List.length_cons] at hp
    have h1 := ρ.rank_child r i (by omega)
    have h2 := ih (r := ρ.child r i) (by omega)
    rw [List.foldl_cons, List.length_cons]
    omega

/-- `v` may be mapped below a PML4 of role `r`. -/
structure Through (ρ : Roles R) (r : R) (v : u64) : Prop where
  pml4 : Growable ρ r (pml4Idx v)
  pdpt : Growable ρ (ρ.pdpt r v) (pdptIdx v)
  pd : Growable ρ (ρ.pd r v) (pdIdx v)
  pt : ρ.sole (ρ.leaf r v)

/-- The roles on the path. -/
def Roles.onPath (ρ : Roles R) (r : R) (v : u64) (r' : R) : Prop :=
  r' = r ∨ r' = ρ.pdpt r v ∨ r' = ρ.pd r v ∨ r' = ρ.leaf r v

/-- The roles below the first on the path. -/
def Roles.below (ρ : Roles R) (r : R) (v : u64) (r' : R) : Prop :=
  r' = ρ.pdpt r v ∨ r' = ρ.pd r v ∨ r' = ρ.leaf r v

/-- **`MapPageInto`** adds roles below the path's first only, writes no table whose
role is not on the path, and replaces no table. -/
theorem Typed.mapPageInto (h : Typed ρ is s) {r : R} {pml4 v : u64} (p flags : u64) (hr : is r pml4)
    (hrank : ρ.rank r = 4) (hv : Through ρ r v)
    (hleaf : (mapPageInto s pml4 v p flags).1 = true →
      ρ.ok (ρ.leaf r v) (ptIdx v) (leafEntry p flags)) :
    ∃ is', Typed ρ is' (mapPageInto s pml4 v p flags).2 ∧
      Grows (ρ.below r v) is is' s (mapPageInto s pml4 v p flags).2 ∧
      (∀ r' u, is r' u → ¬ ρ.onPath r v r' → (mapPageInto s pml4 v p flags).2.mem u = s.mem u) ∧
      ∀ r' u j, is r' u → 1 < ρ.rank r' → has (s.mem u j) PTE_PRESENT = true →
        (mapPageInto s pml4 v p flags).2.mem u j = s.mem u j := by
  obtain ⟨k1, k2, k3⟩ := ρ.ranks hrank v
  obtain ⟨is1, t1, g1, reach1, same1, held1⟩ := h.getOrAlloc hr (by omega) hv.pml4
  have g1 := g1.mono (ρ.below r v) fun _ => Or.inl
  have frame1 : ∀ r' u, is r' u → ¬ ρ.onPath r v r' →
      (VMM.getOrAlloc s pml4 (pml4Idx v) true).2.mem u = s.mem u :=
    fun r' u hu hn => same1 r' u hu fun heq => hn (.inl heq)
  simp only [VMM.mapPageInto] at hleaf ⊢
  generalize VMM.getOrAlloc s pml4 (pml4Idx v) true = a1 at *
  split
  case isTrue => exact ⟨is1, t1, g1, frame1, fun r' u j hu _ => held1 r' u j hu⟩
  case isFalse hn1 =>
    rw [if_neg hn1] at hleaf
    obtain ⟨is2, t2, g2, reach2, same2, held2⟩ := t1.getOrAlloc (reach1 hn1)
      (show 1 < ρ.rank (ρ.pdpt r v) by omega) hv.pdpt
    have g2 := g2.mono (ρ.below r v) fun _ h => Or.inr (.inl h)
    have frame2 : ∀ r' u, is r' u → ¬ ρ.onPath r v r' →
        (VMM.getOrAlloc a1.2 a1.1 (pdptIdx v) true).2.mem u = s.mem u := fun r' u hu hn =>
      (same2 r' u (g1.keep r' u hu) fun heq => hn (.inr (.inl heq))).trans (frame1 r' u hu hn)
    have held2 : ∀ r' u j, is r' u → has (s.mem u j) PTE_PRESENT = true →
        (VMM.getOrAlloc a1.2 a1.1 (pdptIdx v) true).2.mem u j = s.mem u j := fun r' u j hu hp => by
      have h1 := held1 r' u j hu hp
      rw [held2 r' u j (g1.keep r' u hu) (by rw [h1, hp]), h1]
    generalize VMM.getOrAlloc a1.2 a1.1 (pdptIdx v) true = a2 at *
    split
    case isTrue => exact ⟨is2, t2, g1.trans g2, frame2, fun r' u j hu _ => held2 r' u j hu⟩
    case isFalse hn2 =>
      rw [if_neg hn2] at hleaf
      obtain ⟨is3, t3, g3, reach3, same3, held3⟩ := t2.getOrAlloc (reach2 hn2)
        (show 1 < ρ.rank (ρ.pd r v) by omega) hv.pd
      have g3 := g3.mono (ρ.below r v) fun _ h => Or.inr (.inr h)
      have keep2 := (g1.trans g2).keep
      have frame3 : ∀ r' u, is r' u → ¬ ρ.onPath r v r' →
          (VMM.getOrAlloc a2.2 a2.1 (pdIdx v) true).2.mem u = s.mem u := fun r' u hu hn =>
        (same3 r' u (keep2 r' u hu) fun heq => hn (.inr (.inr (.inl heq)))).trans
          (frame2 r' u hu hn)
      have held3 : ∀ r' u j, is r' u → has (s.mem u j) PTE_PRESENT = true →
          (VMM.getOrAlloc a2.2 a2.1 (pdIdx v) true).2.mem u j = s.mem u j := fun r' u j hu hp => by
        have h2 := held2 r' u j hu hp
        rw [held3 r' u j (keep2 r' u hu) (by rw [h2, hp]), h2]
      generalize VMM.getOrAlloc a2.2 a2.1 (pdIdx v) true = a3 at *
      have grows := (g1.trans g2).trans g3
      split
      case isTrue => exact ⟨is3, t3, grows, frame3, fun r' u j hu _ => held3 r' u j hu⟩
      case isFalse hn3 =>
        have leaf : is3 (ρ.leaf r v) a3.1 := reach3 hn3
        rw [if_neg hn3] at hleaf
        refine ⟨is3, t3.writeLeaf leaf hv.pt k3 (hleaf rfl),
          ⟨grows.keep, grows.fresh, grows.bits, grows.pml4Phys⟩, fun r' u hu hn => ?_,
          fun r' u j hu h1 hp => ?_⟩
        · have hut : u ≠ a3.1 := by
            rintro rfl
            exact hn (.inr (.inr (.inr (t3.alone _ _ _ leaf (grows.keep r' _ hu) hv.pt).symm)))
          simp only [write_of_table_ne hut]
          exact frame3 r' u hu hn
        · have hut : u ≠ a3.1 := by
            rintro rfl
            obtain rfl := t3.alone _ _ _ leaf (grows.keep r' _ hu) hv.pt
            omega
          simp only [write_of_table_ne hut]
          exact held3 r' u j hu hp

/-! ## More about the entries -/

/-- The same roles, with a further condition on the entries of each. -/
def Roles.also (ρ : Roles R) (ext : R → u64 → Prop) : Roles R :=
  { ρ with ok := fun r i e => ρ.ok r i e ∧ ext r e }

theorem Typed.also (h : Typed ρ is s) (ext : R → u64 → Prop)
    (hext : ∀ r t i, is r t → ext r (s.mem t i)) : Typed (ρ.also ext) is s :=
  ⟨h.linked, fun r t i hr => ⟨h.entry r t i hr, hext r t i hr⟩, h.alone, h.used⟩

theorem Typed.of_also {ext : R → u64 → Prop} (h : Typed (ρ.also ext) is s) : Typed ρ is s :=
  ⟨h.linked, fun r t i hr => (h.entry r t i hr).1, h.alone, h.used⟩

/-- A condition on leaves that absent entries meet does not hinder mapping. -/
theorem Through.also {r : R} {v : u64} (h : Through ρ r v) (hr : ρ.rank r = 4)
    (ext : R → u64 → Prop) (hext : ∀ r e, 1 < ρ.rank r → ext r e) (hzero : ∀ r, ext r 0) :
    Through (ρ.also ext) r v := by
  have grow : ∀ {r i}, 1 < ρ.rank r → Growable ρ r i → Growable (ρ.also ext) r i :=
    fun h1 hg => ⟨hg.sole, fun e f he hn hf => ⟨hg.table e f he.1 hn hf, hext _ _ h1⟩,
      fun e j he hn => ⟨hg.blank e j he.1 hn, hzero _⟩⟩
  obtain ⟨k1, k2, -⟩ := ρ.ranks hr v
  exact ⟨grow (by omega) h.pml4, grow (show 1 < ρ.rank (ρ.pdpt r v) by omega) h.pdpt,
    grow (show 1 < ρ.rank (ρ.pd r v) by omega) h.pd, h.pt⟩

/-- The page table that the unmapping and protecting functions find. -/
theorem Typed.pageTable (h : Typed ρ is s) {r : R} {pml4 v pt : u64} (hr : is r pml4)
    (hrank : ρ.rank r = 4) (hpt : pageTable s.mem pml4 v = some pt) : is (ρ.leaf r v) pt := by
  rw [pageTable_eq] at hpt
  exact h.descend hr (by rw [hrank]; exact Nat.lt_succ_self 3) hpt

/-! ## A new user PML4 -/

/-- The PML4 of a new address space, with `low` as the PDPT of slot 0. -/
def userTable (kernel : Table) (low : u64) : Table :=
  Function.update (copiedTable kernel) 0#9 (tableEntry low)

/-- What a new PML4 of role `root` and its PDPT of role `low` lead to is there,
and their entries are ok. -/
structure Clonable (ρ : Roles R) (is : R → u64 → Prop) (s : Vmm) (root low : R) : Prop where
  child : ρ.child root 0#9 = low
  first : ∀ f, IsFrame f → ρ.ok root 0#9 (tableEntry f)
  upper : ∀ i, i ≠ 0#9 → ρ.ok root i (copiedSlot (s.mem s.pml4Phys i))
  upperLink : ∀ i b, i ≠ 0#9 → link (copiedSlot (s.mem s.pml4Phys i)) = some b →
    is (ρ.child root i) b
  lower : ∀ i, ρ.ok low i (lowTable s.mem (s.mem s.pml4Phys 0#9) i)
  lowerLink : ∀ i b, link (lowTable s.mem (s.mem s.pml4Phys 0#9) i) = some b →
    is (ρ.child low i) b

/-- **`CreateUserPml4`** gives roles to two frames that were free and writes no
table. -/
theorem Typed.createUserPml4 (h : Typed ρ is s) {root low : u64 → R} {K K0 : R}
    (hK : is K s.pml4Phys)
    (hlow : has (s.mem s.pml4Phys 0#9) PTE_PRESENT = true →
      is K0 (s.mem s.pml4Phys 0#9 &&& PTE_ADDR_MASK))
    (hc : ∀ f, Clonable ρ is s (root f) (low f)) :
    ∃ is', Typed ρ is' (createUserPml4 s).2 ∧
      Grows (fun r => ∃ f, r = root f ∨ r = low f) is is' s (createUserPml4 s).2 ∧
      (∀ r u, is r u → (createUserPml4 s).2.mem u = s.mem u) ∧
      ((createUserPml4 s).1 ≠ 0 → is' (root (createUserPml4 s).1) (createUserPml4 s).1) := by
  rcases createUserPml4_cases (h.used _ _ hK) fun hp => h.used _ _ (hlow hp) with
    ⟨t, ht, hk, bits, same⟩ | ⟨i, j, p, q, ht, ht', -, heq⟩
  · rw [ht]
    have same' : ∀ r u, is r u → t.mem u = s.mem u := fun r u hu => same u (h.used r u hu)
    exact ⟨is, h.of_agree same' fun r u hu => (h.used r u hu).mono bits,
      ⟨fun _ _ hr => hr, fun _ _ hr => .inl hr, bits, hk⟩, same', fun h0 => absurd rfl h0⟩
  · have hfi : ¬ Used s (pageAddr i) := not_used_free ht le_rfl (by omega)
    have hfj : ¬ Used s (pageAddr j) := fun hu =>
      not_used_free (s := { s with pmm := p }) ht' le_rfl (by omega)
        (hu.mono fun q hq => by simp [ht.bits, hq])
    have hji : pageAddr j ≠ pageAddr i := pageAddr_ne ht ht'
    have hi : ∀ r t, is r t → t ≠ pageAddr i := fun r t hr heq => hfi (heq ▸ h.used r t hr)
    have hj : ∀ r t, is r t → t ≠ pageAddr j := fun r t hr heq => hfj (heq ▸ h.used r t hr)
    have hframe := isFrame_pageAddr ht'.within
    rw [heq]
    simp only [write_fill_fill hji.symm]
    -- both frames are marked in use, then the PDPT is filled, then the PML4
    have h1 := (h.takes ht).takes (s := { s with pmm := p }) ht'
    have hui : Used { s with pmm := q } (pageAddr i) :=
      (used_taken ht le_rfl (by omega)).mono fun k hk => by
        have hk : bitmapTest p.bitmap k = true := hk
        simp [ht'.bits, hk]
    have huj : Used { s with pmm := q } (pageAddr j) :=
      used_taken (s := { s with pmm := p }) ht' le_rfl (by omega)
    have h2 := h1.addTable (r := low (pageAddr i)) _ hj huj (hc (pageAddr i)).lower
      fun _ k b hb => (hc (pageAddr i)).lowerLink k b hb
    have h3 := h2.addTable (f := pageAddr i) (r := root (pageAddr i))
      (userTable (s.mem s.pml4Phys) (pageAddr j))
      (fun r t hr => by
        rcases hr with hr | ⟨-, rfl⟩
        · exact hi r t hr
        · exact hji)
      hui
      (fun k => by
        by_cases h0 : k = 0#9
        · subst h0
          rw [userTable, Function.update_self]
          exact (hc (pageAddr i)).first _ hframe
        · rw [userTable, Function.update_of_ne h0, copiedTable, if_neg h0]
          exact (hc (pageAddr i)).upper k h0)
      (fun _ k b hb => by
        by_cases h0 : k = 0#9
        · subst h0
          rw [userTable, Function.update_self, link_tableEntry hframe] at hb
          rw [(hc (pageAddr i)).child]
          exact .inr ⟨rfl, (Option.some.inj hb).symm⟩
        · rw [userTable, Function.update_of_ne h0, copiedTable, if_neg h0] at hb
          exact .inl ((hc (pageAddr i)).upperLink k b h0 hb))
    refine ⟨_, h3, ⟨fun _ _ hr => .inl (.inl hr), fun r t hr => ?_, fun k hk => ?_, rfl⟩,
      fun r u hu => ?_, fun _ => .inr ⟨rfl, rfl⟩⟩
    · rcases hr with (hr | ⟨rfl, rfl⟩) | ⟨rfl, rfl⟩
      · exact .inl hr
      · exact .inr ⟨⟨_, .inr rfl⟩, hfj⟩
      · exact .inr ⟨⟨_, .inl rfl⟩, hfi⟩
    · simp [ht'.bits, ht.bits, hk]
    · simp only [fill_of_ne (hi r u hu), fill_of_ne (hj r u hu)]

end

end MicroNT.VMM
