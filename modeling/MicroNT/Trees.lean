import MicroNT.Base.Forest
import MicroNT.PageRoles
import MicroNT.VirtualMemoryMap

/-! # The address spaces as a forest of page tables

Address spaces share the kernel's tables, at the same place in each of them. The
memory manager's functions keep that, add only frames that were free, and write
to no frame in use that is not a table. What a page maps to is read off its page
table entry (`getPteInto`), which only the leaf write of `MapPageInto` changes. -/

namespace MicroNT.VMM

open MicroNT.PMM MicroNT.Base.Radix

/-- The frame is a table of some address space. -/
abbrev Tables (roots : u64 → Prop) (m : Mem) (t : u64) : Prop := InForest link m roots 3 t

/-- Tables are shared at the same place only, and none is free. -/
structure Trees (roots : u64 → Prop) (s : Vmm) : Prop where
  forest : Forest link s.mem roots 3
  used : ∀ t, Tables roots s.mem t → Used s t

/-- What the functions on page tables leave alone: frames in use that are no
tables, which become none either. -/
structure Extends (roots : u64 → Prop) (s s' : Vmm) : Prop where
  trees : Trees roots s'
  bits : ∀ q, bitmapTest s.pmm.bitmap q = true → bitmapTest s'.pmm.bitmap q = true
  pml4Phys : s'.pml4Phys = s.pml4Phys
  frames : ∀ f, Used s f → ¬ Tables roots s.mem f → s'.mem f = s.mem f ∧ ¬ Tables roots s'.mem f

section

variable {roots : u64 → Prop} {s s' s'' : Vmm} {a t : u64} {p : List Index}

theorem Trees.wellFormed (h : Trees roots s) (ha : roots a) : WellFormed s a where
  injective := h.forest.injective ha
  used p t hp ht := h.used t ⟨a, p, ha, hp, ht⟩

theorem Extends.refl (h : Trees roots s) : Extends roots s s :=
  ⟨h, fun _ hq => hq, rfl, fun _ _ hf => ⟨rfl, hf⟩⟩

theorem Extends.trans (h : Extends roots s s') (h' : Extends roots s' s'') :
    Extends roots s s'' where
  trees := h'.trees
  bits q hq := h'.bits q (h.bits q hq)
  pml4Phys := h'.pml4Phys.trans h.pml4Phys
  frames f hf ht := by
    obtain ⟨e, ht'⟩ := h.frames f hf ht
    obtain ⟨e', ht''⟩ := h'.frames f (hf.mono h.bits) ht'
    exact ⟨e'.trans e, ht''⟩

/-- Writing memory so that all tables lead where they led. -/
theorem Trees.agree (h : Trees roots s) {m : Mem}
    (same : ∀ t, Tables roots s.mem t → ∀ i, link (m t i) = link (s.mem t i)) :
    Trees roots { s with mem := m } ∧ ∀ t, Tables roots m t ↔ Tables roots s.mem t := by
  have descends : ∀ a q, roots a → q.length ≤ 3 → descend link m a q = descend link s.mem a q :=
    fun a q ha hq => descend_of_agree same ha hq
  have tables : ∀ t, Tables roots m t ↔ Tables roots s.mem t := fun t => inForest_congr descends
  exact ⟨⟨h.forest.congr descends, fun t ht => h.used t ((tables t).mp ht)⟩, tables⟩

/-- Taking pages from the allocator, and filling frames that were free. -/
theorem Trees.takes (h : Trees roots s) {q : Pmm} {i count : Nat} (ht : Takes s.pmm q i count) :
    Extends roots s { s with pmm := q } where
  trees := ⟨h.forest, fun t ht' => (h.used t ht').mono fun k hk => by simp [ht.bits, hk]⟩
  bits k hk := by simp [ht.bits, hk]
  pml4Phys := rfl
  frames _ _ hf := ⟨rfl, hf⟩

/-- Giving back a page that is no table. -/
theorem Trees.freePage (h : Trees roots s) {f : u64} (hf : ¬ Tables roots s.mem (pageOf f)) :
    Trees roots { s with pmm := PMM.freePage s.pmm f } where
  forest := h.forest
  used t ht := (h.used t ht).freePage fun eq => hf (eq ▸ ht)

/-! ## The entry of a page -/

/-- The page table entry among the entries of a walk. -/
def pteOf : List u64 → u64
  | [_, _, _, e] => e
  | _ => 0

theorem getPteInto_eq (m : Mem) (a v : u64) : getPteInto m a v = pteOf (entries m a v) := by
  simp only [getPteInto, pageTable, entries, path, walk_cons_cons, walk_single]
  cases h1 : has (m a (pml4Idx v)) PTE_PRESENT <;>
    cases h1' : has (m a (pml4Idx v)) PTE_PS <;> simp [link, h1, h1', pteOf]
  generalize m a (pml4Idx v) &&& PTE_ADDR_MASK = pdpt
  cases h2 : has (m pdpt (pdptIdx v)) PTE_PRESENT <;>
    cases h2' : has (m pdpt (pdptIdx v)) PTE_PS <;> simp
  generalize m pdpt (pdptIdx v) &&& PTE_ADDR_MASK = pd
  cases h3 : has (m pd (pdIdx v)) PTE_PRESENT <;>
    cases h3' : has (m pd (pdIdx v)) PTE_PS <;> simp

/-- A walk of less than four entries comes to no page table. -/
theorem pteOf_short {l : List u64} (h : l.length < 4) : pteOf l = 0 := by
  match l with
  | [] | [_] | [_, _] | [_, _, _] => rfl
  | _ :: _ :: _ :: _ :: _ => simp at h; omega

theorem pteOf_zero (l : List u64) : pteOf (l ++ [0]) = 0 := by
  match l with
  | [] | [_] | [_, _] | [_, _, _] => rfl
  | _ :: _ :: _ :: _ :: l => cases l <;> rfl

/-- Linking a blank table in place of an absent entry changes no page table entry. -/
theorem Trees.pte_graft (h : Trees roots s) (ha : roots a) (hp : p.length < 3)
    (ht : descend link s.mem a p = some t) {f : u64} (hf : ¬ Tables roots s.mem f)
    (hframe : IsFrame f) {i : Index} (habsent : has (s.mem t i) PTE_PRESENT = false) {b : u64}
    (hb : roots b) (v : u64) :
    getPteInto (graft s.mem t i f (fun _ => 0) (tableEntry f)) b v = getPteInto s.mem b v := by
  rw [getPteInto_eq, getPteInto_eq, entries, entries]
  have fresh : ∀ r, r.length ≤ 3 → descend link s.mem b r ≠ some f :=
    fun r hr hd => hf ⟨b, r, hb, hr, hd⟩
  by_cases hreach : ∃ r, r.length ≤ 3 ∧ descend link s.mem b r = some t
  case neg =>
    rw [walk_congr]
    intro r j q c hq hc
    have hlen := congrArg List.length hq
    rw [path_length, List.length_append, List.length_cons] at hlen
    have apart : c ≠ t := by
      rintro rfl
      exact hreach ⟨r, by omega, hc⟩
    have apart' : c ≠ f := by
      rintro rfl
      exact fresh r (by omega) hc
    rw [graft, write_of_table_ne apart, fill_of_ne apart']
  case pos =>
    obtain ⟨r, hr, hd⟩ := hreach
    obtain rfl := h.forest a b p r t ha hb (by omega) hr ht hd
    have hi := h.forest.injective hb
    by_cases hpre : (p ++ [i]) <+: path v
    case neg => rw [walk_graft_off_path hi hp hd fresh (by rw [path_length]) hpre]
    case pos =>
      obtain ⟨q, hq⟩ := hpre
      rw [List.append_assoc, List.singleton_append] at hq
      rw [← hq]
      cases q with
      | nil =>
        have hlen := congrArg List.length hq
        rw [path_length, List.length_append, List.length_singleton] at hlen
        omega
      | cons j q =>
        have old : link (s.mem t i) = none := link_eq_none.mpr (.inl habsent)
        have hw : walk link s.mem b (p ++ i :: j :: q) = walk link s.mem b p ++ [s.mem t i] := by
          rw [walk_append hd, walk, old, Option.elim_none]
        rw [walk_graft_through hi hp hd fresh (link_tableEntry hframe) (fun _ => link_zero), hw,
          List.append_cons, pteOf_zero, pteOf_short]
        rw [List.length_append, walk_length hd, List.length_singleton]
        omega

/-- **`get_or_alloc`** at a table of the forest. -/
theorem Trees.getOrAlloc (h : Trees roots s) (ha : roots a) (hp : p.length < 3)
    (ht : descend link s.mem a p = some t) (i : Index) :
    Extends roots s (VMM.getOrAlloc s t i true).2 ∧
      ((VMM.getOrAlloc s t i true).1 ≠ 0 →
        descend link (VMM.getOrAlloc s t i true).2.mem a (p ++ [i]) =
          some (VMM.getOrAlloc s t i true).1) ∧
      ∀ b v, roots b → getPteInto (VMM.getOrAlloc s t i true).2.mem b v = getPteInto s.mem b v := by
  rw [VMM.getOrAlloc]
  simp only [Bool.not_true, Bool.false_eq_true, if_false]
  split
  case isTrue hpres =>
    split
    case isTrue => exact ⟨.refl h, fun h0 => absurd rfl h0, fun _ _ _ => rfl⟩
    case isFalse hps =>
      refine ⟨.refl h, fun _ => ?_, fun _ _ _ => rfl⟩
      rw [descend_snoc ht]
      exact link_eq_some.mpr ⟨hpres, by simpa using hps, rfl⟩
  case isFalse habs =>
    have habsent : has (s.mem t i) PTE_PRESENT = false := by simpa using habs
    rcases allocPage_cases s.pmm with ⟨q, hq, htake⟩ | ⟨hr, -⟩
    case inr =>
      simp only [hr, if_true]
      exact ⟨.refl h, fun h0 => absurd rfl h0, fun _ _ _ => trivial⟩
    case inl =>
      have taken := h.takes htake
      split
      case isTrue => exact ⟨taken, fun h0 => absurd rfl h0, fun _ _ _ => rfl⟩
      case isFalse =>
        rw [hq]
        have hfree : ¬ Used s (pageAddr q) := not_used_free htake le_rfl (by omega)
        have hf : ¬ Tables roots s.mem (pageAddr q) := fun hd => hfree (h.used _ hd)
        have hframe := isFrame_pageAddr htake.within
        have hlink := link_tableEntry hframe
        have hblank : ∀ _ : Index, link (0 : u64) = none := fun _ => link_zero
        have cases_ : ∀ u, Tables roots (graft s.mem t i (pageAddr q) (fun _ => 0)
            (tableEntry (pageAddr q))) u → Tables roots s.mem u ∨ u = pageAddr q := by
          rintro u ⟨b, r, hb, hr, hu⟩
          rcases h.forest.graft_cases ha hp ht hf hlink hblank hb hr hu with hu | ⟨-, rfl⟩
          · exact .inl ⟨b, r, hb, hr, hu⟩
          · exact .inr rfl
        refine ⟨⟨⟨h.forest.graft ha hp ht hf hlink hblank, fun u hu => ?_⟩, taken.bits, rfl,
          fun u hu hn => ⟨?_, fun hu' => ?_⟩⟩, fun _ => ?_, fun b v hb => ?_⟩
        · rcases cases_ u hu with hu | rfl
          · exact (h.used u hu).mono taken.bits
          · exact used_taken htake le_rfl (by omega)
        · have apart : u ≠ t := by
            rintro rfl
            exact hn ⟨a, p, ha, by omega, ht⟩
          have apart' : u ≠ pageAddr q := by
            rintro rfl
            exact hfree hu
          simp only [graft, write_of_table_ne apart, fill_of_ne apart']
        · rcases cases_ u hu' with hu' | rfl
          · exact hn hu'
          · exact hfree hu
        · exact descend_graft (h.forest.injective ha) hp ht
            (fun r hr hd => hf ⟨a, r, ha, hr, hd⟩) hlink
        · exact h.pte_graft ha hp ht hf hframe habsent hb v

/-- Writing a page table changes the entry of that page, from wherever it is seen. -/
theorem Trees.leaf (h : Trees roots s) (ha : roots a) {v pt : u64}
    (hpt : descend link s.mem a [pml4Idx v, pdptIdx v, pdIdx v] = some pt) (e : u64) :
    Extends roots s { s with mem := write s.mem pt (ptIdx v) e } ∧
      getPteInto (write s.mem pt (ptIdx v) e) a v = e ∧
      ∀ b w, roots b → vpn w ≠ vpn v →
        getPteInto (write s.mem pt (ptIdx v) e) b w = getPteInto s.mem b w := by
  have outside : ∀ u, u ≠ pt → write s.mem pt (ptIdx v) e u = s.mem u :=
    fun u hu => write_of_table_ne hu
  have descends : ∀ b q, roots b → q.length ≤ 3 →
      descend link (write s.mem pt (ptIdx v) e) b q = descend link s.mem b q :=
    fun b q hb hq => h.forest.descend_last ha rfl hpt outside hb hq
  have tables : ∀ t, Tables roots (write s.mem pt (ptIdx v) e) t ↔ Tables roots s.mem t :=
    fun t => inForest_congr descends
  refine ⟨⟨⟨h.forest.congr descends, fun t ht => h.used t ((tables t).mp ht)⟩, fun _ hq => hq, rfl,
    fun f _ hf => ⟨outside f ?_, fun hf' => hf ((tables f).mp hf')⟩⟩, ?_, fun b w hb hw => ?_⟩
  · rintro rfl
    exact hf ⟨a, _, ha, by simp, hpt⟩
  · have hpt' : pageTable (write s.mem pt (ptIdx v) e) a v = some pt := by
      rw [pageTable_eq, descends a _ ha (by simp)]
      exact hpt
    rw [getPteInto, hpt']
    exact write_same _ _ _ _
  · rw [getPteInto, getPteInto, pageTable_eq, pageTable_eq, descends b _ hb (by simp)]
    cases hd : descend link s.mem b [pml4Idx w, pdptIdx w, pdIdx w] with
    | none => rfl
    | some c =>
      refine write_of_ne fun ⟨hc, hi⟩ => hw ?_
      subst hc
      have same := h.forest a b _ _ c ha hb (by simp) (by simp) hpt hd
      refine (path_eq_iff w v).mp ?_
      simp only [List.cons.injEq, and_true] at same
      rw [path, path, same.1, same.2.1, same.2.2, hi]

/-- **`MapPageInto`**: a success gives the page its entry, a failure none, and no
other page of any address space gets or loses one. -/
theorem Trees.mapPageInto (h : Trees roots s) (ha : roots a) (v f flags : u64) :
    Extends roots s (VMM.mapPageInto s a v f flags).2 ∧
      ((VMM.mapPageInto s a v f flags).1 = true →
        getPteInto (VMM.mapPageInto s a v f flags).2.mem a v = leafEntry f flags) ∧
      ∀ b w, roots b →
        (VMM.mapPageInto s a v f flags).1 = false ∨ vpn w ≠ vpn v →
        getPteInto (VMM.mapPageInto s a v f flags).2.mem b w = getPteInto s.mem b w := by
  obtain ⟨x1, r1, e1⟩ := h.getOrAlloc (p := []) ha (by decide) rfl (pml4Idx v)
  simp only [VMM.mapPageInto]
  generalize VMM.getOrAlloc s a (pml4Idx v) true = r at *
  split
  case isTrue => exact ⟨x1, fun no => Bool.noConfusion no, fun b w hb _ => e1 b w hb⟩
  case isFalse n1 =>
    obtain ⟨x2, r2, e2⟩ := x1.trees.getOrAlloc ha (by simp) (r1 n1) (pdptIdx v)
    generalize VMM.getOrAlloc r.2 r.1 (pdptIdx v) true = q at *
    split
    case isTrue =>
      exact ⟨x1.trans x2, fun no => Bool.noConfusion no,
        fun b w hb _ => (e2 b w hb).trans (e1 b w hb)⟩
    case isFalse n2 =>
      obtain ⟨x3, r3, e3⟩ := x2.trees.getOrAlloc ha (by simp) (r2 n2) (pdIdx v)
      generalize VMM.getOrAlloc q.2 q.1 (pdIdx v) true = z at *
      have same : ∀ b w, roots b → getPteInto z.2.mem b w = getPteInto s.mem b w :=
        fun b w hb => (e3 b w hb).trans ((e2 b w hb).trans (e1 b w hb))
      split
      case isTrue =>
        exact ⟨(x1.trans x2).trans x3, fun no => Bool.noConfusion no, fun b w hb _ => same b w hb⟩
      case isFalse n3 =>
        obtain ⟨x4, here, other⟩ := x3.trees.leaf ha (r3 n3) (leafEntry f flags)
        refine ⟨((x1.trans x2).trans x3).trans x4, fun _ => here, fun b w hb hw => ?_⟩
        rcases hw with hw | hw
        · cases hw
        · exact (other b w hb hw).trans (same b w hb)

theorem Trees.unmapPageFrom (h : Trees roots s) (ha : roots a) (v : u64) :
    Extends roots s (VMM.unmapPageFrom s a v) := by
  rw [VMM.unmapPageFrom]
  cases hpt : pageTable s.mem a v with
  | none => exact .refl h
  | some pt =>
    rw [pageTable_eq] at hpt
    exact (h.leaf ha hpt 0).1

/-- **`UnmapPageFrom`** leaves the page no entry, and no other page another one. -/
theorem Trees.unmapPageFrom_pte (h : Trees roots s) (ha : roots a) (v : u64) :
    getPteInto (VMM.unmapPageFrom s a v).mem a v = 0 ∧
      ∀ b w, roots b → vpn w ≠ vpn v →
        getPteInto (VMM.unmapPageFrom s a v).mem b w = getPteInto s.mem b w := by
  rw [VMM.unmapPageFrom]
  cases hpt : pageTable s.mem a v with
  | none => exact ⟨by rw [getPteInto, hpt], fun _ _ _ _ => rfl⟩
  | some pt =>
    rw [pageTable_eq] at hpt
    exact (h.leaf ha hpt 0).2

theorem Trees.protectPageInto (h : Trees roots s) (ha : roots a) (v flags : u64) :
    Extends roots s (VMM.protectPageInto s a v flags).2 := by
  rw [VMM.protectPageInto]
  cases hpt : pageTable s.mem a v with
  | none => exact .refl h
  | some pt =>
    rw [pageTable_eq] at hpt
    simp only
    split
    case isTrue => exact .refl h
    case isFalse => exact (h.leaf ha hpt _).1

/-- Frames outside the trees may be written. -/
theorem Trees.data (h : Trees roots s) {m : Mem}
    (same : ∀ t, Tables roots s.mem t → m t = s.mem t) :
    Trees roots { s with mem := m } ∧ (∀ t, Tables roots m t ↔ Tables roots s.mem t) ∧
      ∀ b v, roots b → getPteInto m b v = getPteInto s.mem b v := by
  obtain ⟨trees, tables⟩ := h.agree (m := m) fun t ht i => by rw [same t ht]
  refine ⟨trees, tables, fun b v hb => ?_⟩
  rw [getPteInto, getPteInto, pageTable_eq, pageTable_eq,
    descend_of_agree (fun t ht i => by rw [same t ht]) hb (by simp)]
  cases hd : descend link s.mem b [pml4Idx v, pdptIdx v, pdIdx v] with
  | none => rfl
  | some c =>
    have table : Tables roots s.mem c := ⟨b, _, hb, by simp, hd⟩
    exact congrFun (same c table) _

/-- Frames outside the trees are on no walk. -/
theorem entries_data {m : Mem}
    (same : ∀ t, Tables roots s.mem t → m t = s.mem t) (ha : roots a) (v : u64) :
    entries m a v = entries s.mem a v :=
  walk_congr fun r i q b hq hb => by
    have hlen := congrArg List.length hq
    simp only [path, List.length_append, List.length_cons, List.length_nil] at hlen
    rw [same b ⟨a, r, ha, by omega, hb⟩]

/-- **A new page** from the allocator, with its contents: no frame in use before. -/
theorem Trees.newPage (h : Trees roots s) {q : Pmm} {k : Nat} (ht : Takes s.pmm q k 1)
    (page : Table) :
    Extends roots s { s with pmm := q, mem := fill s.mem (pageAddr k) page } ∧
      Used { s with pmm := q, mem := fill s.mem (pageAddr k) page } (pageAddr k) ∧
      ¬ Tables roots (fill s.mem (pageAddr k) page) (pageAddr k) ∧
      ∀ t, Tables roots s.mem t → fill s.mem (pageAddr k) page t = s.mem t := by
  have free : ¬ Used s (pageAddr k) := not_used_free ht le_rfl (by omega)
  have other : ∀ f, Used s f → fill s.mem (pageAddr k) page f = s.mem f := by
    intro f hf
    refine fill_of_ne ?_
    rintro rfl
    exact free hf
  have same : ∀ t, Tables roots s.mem t → fill s.mem (pageAddr k) page t = s.mem t :=
    fun t ht => other t (h.used t ht)
  have taken := h.takes ht
  obtain ⟨trees, tables, -⟩ := taken.trees.data (m := fill s.mem (pageAddr k) page) same
  refine ⟨⟨trees, taken.bits, rfl, fun f hf hn => ⟨other f hf, fun hd => hn ((tables f).mp hd)⟩⟩,
    used_taken ht le_rfl (by omega), fun hd => free (h.used _ ((tables _).mp hd)), same⟩

/-! ## A new address space -/

/-- The tables below a new PML4 are itself, its PDPT for slot 0, and tables of the
kernel at the same place. -/
theorem newPml4_cases {m m' : Mem} {kernel new low : u64}
    (root : m' new = userTable (m kernel) low) (hlow : IsFrame low)
    (first : m' low = lowTable m (m kernel 0#9))
    (link0 : has (m kernel 0#9) PTE_PRESENT = true → link (m kernel 0#9) =
      some (m kernel 0#9 &&& PTE_ADDR_MASK))
    (old : ∀ p t, p.length ≤ 3 → descend link m kernel p = some t → m' t = m t)
    {q : List Index} {u : u64} (hq : q.length ≤ 3) (hu : descend link m' new q = some u) :
    (q = [] ∧ u = new) ∨ (q = [0#9] ∧ u = low) ∨ descend link m kernel q = some u := by
  -- below the kernel's tables nothing has changed
  have below : ∀ r p c, p.length + r.length ≤ 3 → descend link m kernel p = some c →
      descend link m' c r = some u → descend link m kernel (p ++ r) = some u := by
    intro r p c hlen hc hr
    rw [descend_append hc]
    rw [descend_congr (m := m)] at hr
    · exact hr
    · intro r1 j r2 d hr12 hd
      have hlen' := congrArg List.length hr12
      rw [List.length_append, List.length_cons] at hlen'
      rw [old (p ++ r1) d (by rw [List.length_append]; omega) (by rw [descend_append hc, hd])]
  cases q with
  | nil => exact .inl ⟨rfl, (Option.some.inj hu).symm⟩
  | cons i q =>
    rw [List.length_cons] at hq
    obtain ⟨c, hc, hu⟩ := Option.bind_eq_some_iff.mp hu
    rw [root] at hc
    by_cases h0 : i = 0#9
    case neg =>
      refine .inr (.inr ?_)
      rw [userTable, Function.update_of_ne h0, copiedTable, if_neg h0, copiedSlot] at hc
      split at hc
      case isFalse => rw [link_zero] at hc; cases hc
      case isTrue =>
        rw [link_or_user] at hc
        refine below q [i] c (by rw [List.length_singleton]; omega) ?_ hu
        rw [descend, hc]
        rfl
    case pos =>
      subst h0
      rw [userTable, Function.update_self, link_tableEntry hlow] at hc
      obtain rfl := Option.some.inj hc
      cases q with
      | nil => exact .inr (.inl ⟨rfl, (Option.some.inj hu).symm⟩)
      | cons j q =>
        rw [List.length_cons] at hq
        refine .inr (.inr ?_)
        obtain ⟨d, hd, hu⟩ := Option.bind_eq_some_iff.mp hu
        rw [first, lowTable] at hd
        split at hd
        case isFalse => rw [link_zero] at hd; cases hd
        case isTrue hcond =>
          have present := (Bool.and_eq_true_iff.mp hcond).1
          refine below q [0#9, j] d (by simp; omega) ?_ hu
          rw [descend, link0 present, Option.bind_some, descend, hd]
          rfl

/-- **`CreateUserPml4`** adds a tree that shares the kernel's tables in place. -/
theorem Trees.createUserPml4 (h : Trees roots s) (hK : roots s.pml4Phys)
    (link0 : has (s.mem s.pml4Phys 0#9) PTE_PRESENT = true → link (s.mem s.pml4Phys 0#9) =
      some (s.mem s.pml4Phys 0#9 &&& PTE_ADDR_MASK)) :
    Trees (fun a => roots a ∨ ((VMM.createUserPml4 s).1 ≠ 0 ∧ a = (VMM.createUserPml4 s).1))
        (VMM.createUserPml4 s).2 ∧
      (∀ q, bitmapTest s.pmm.bitmap q = true →
        bitmapTest (VMM.createUserPml4 s).2.pmm.bitmap q = true) ∧
      (∀ f, Used s f → (VMM.createUserPml4 s).2.mem f = s.mem f) ∧
      (∀ f, Used s f → Tables (fun a => roots a ∨ ((VMM.createUserPml4 s).1 ≠ 0 ∧
          a = (VMM.createUserPml4 s).1)) (VMM.createUserPml4 s).2.mem f → Tables roots s.mem f) ∧
      ∀ b v, roots b → getPteInto (VMM.createUserPml4 s).2.mem b v = getPteInto s.mem b v := by
  have usedK : Used s s.pml4Phys := h.used _ ⟨_, [], hK, by simp, rfl⟩
  have usedLow : has (s.mem s.pml4Phys 0#9) PTE_PRESENT = true →
      Used s (s.mem s.pml4Phys 0#9 &&& PTE_ADDR_MASK) := fun hp =>
    h.used _ ⟨_, [0#9], hK, by simp, by rw [descend, link0 hp]; rfl⟩
  rcases createUserPml4_cases usedK usedLow with
    ⟨t, ht, -, bits, same⟩ | ⟨i, j, p, q, ht, ht', hne, heq⟩
  case inl =>
    rw [ht]
    obtain ⟨⟨forest, used⟩, tables, pte⟩ := h.data (m := t.mem) fun u hu => same u (h.used u hu)
    have alone : (fun a => roots a ∨ ((0 : u64) ≠ 0 ∧ a = 0)) = roots := by
      funext a
      simp
    simp only
    rw [alone]
    exact ⟨⟨forest, fun u hu => (h.used u ((tables u).mp hu)).mono bits⟩, bits, same,
      fun f _ hf => (tables f).mp hf, pte⟩
  case inr =>
    have freeI : ¬ Used s (pageAddr i) := not_used_free ht le_rfl (by omega)
    have bits : ∀ k, bitmapTest s.pmm.bitmap k = true → bitmapTest q.bitmap k = true :=
      fun k hk => by simp [ht'.bits, ht.bits, hk]
    have freeJ : ¬ Used s (pageAddr j) := fun hu =>
      not_used_free (s := { s with pmm := p }) ht' le_rfl (by omega)
        (hu.mono fun k hk => by simp [ht.bits, hk])
    have hji : pageAddr j ≠ pageAddr i := pageAddr_ne ht ht'
    have frameJ := isFrame_pageAddr (i := j) ht'.within
    rw [heq]
    simp only [write_fill_fill hji.symm]
    generalize hm : fill (fill s.mem (pageAddr j) (lowTable s.mem (s.mem s.pml4Phys 0#9)))
      (pageAddr i) (Function.update (copiedTable (s.mem s.pml4Phys)) 0#9 (tableEntry (pageAddr j)))
      = m
    have same : ∀ f, Used s f → m f = s.mem f := by
      intro f hf
      have notI : f ≠ pageAddr i := fun e => freeI (e ▸ hf)
      have notJ : f ≠ pageAddr j := fun e => freeJ (e ▸ hf)
      rw [← hm, fill_of_ne notI, fill_of_ne notJ]
    have sameTables : ∀ t, Tables roots s.mem t → m t = s.mem t := fun t ht => same t (h.used t ht)
    have rootRow : m (pageAddr i) = userTable (s.mem s.pml4Phys) (pageAddr j) := by
      rw [← hm, fill_same]
      rfl
    have lowRow : m (pageAddr j) = lowTable s.mem (s.mem s.pml4Phys 0#9) := by
      rw [← hm, fill_of_ne hji, fill_same]
    obtain ⟨⟨forest, used⟩, tables, pte⟩ := h.data sameTables
    -- what the new tree reaches
    have new : ∀ (r : List Index) u, r.length ≤ 3 → descend link m (pageAddr i) r = some u →
        (r = [] ∧ u = pageAddr i) ∨ (r = [0#9] ∧ u = pageAddr j) ∨
          descend link s.mem s.pml4Phys r = some u := fun r u hr hu =>
      newPml4_cases rootRow frameJ lowRow link0
        (fun p t hp ht => sameTables t ⟨_, p, hK, hp, ht⟩) hr hu
    have old : ∀ (b : u64) (r : List Index), roots b → r.length ≤ 3 →
        descend link m b r = descend link s.mem b r := fun b r hb hr =>
      descend_of_agree (fun t ht _ => by rw [sameTables t ht]) hb hr
    -- a table of the new tree is new or at the same place in the kernel's
    have place : ∀ (b : u64) (r : List Index) u, (roots b ∨ (pageAddr i ≠ 0 ∧ b = pageAddr i)) →
        r.length ≤ 3 → descend link m b r = some u →
        (r = [] ∧ u = pageAddr i) ∨ (r = [0#9] ∧ u = pageAddr j) ∨
          ∃ c, roots c ∧ descend link s.mem c r = some u := by
      rintro b r u (hb | ⟨-, rfl⟩) hr hu
      · rw [old b r hb hr] at hu
        exact .inr (.inr ⟨b, hb, hu⟩)
      · exact (new r u hr hu).imp_right (Or.imp_right fun hd => ⟨_, hK, hd⟩)
    have apart : ∀ (c : u64) (r : List Index) u, roots c → r.length ≤ 3 →
        descend link s.mem c r = some u → Used s u :=
      fun c r u hc hr hu => h.used u ⟨c, r, hc, hr, hu⟩
    refine ⟨⟨fun b c r z u hb hc hr hz hu hu' => ?_, fun u hu => ?_⟩, bits, same,
      fun f hf hf' => ?_, pte⟩
    · rcases place b r u hb hr hu with ⟨rfl, rfl⟩ | ⟨rfl, rfl⟩ | ⟨b', hb', hd⟩ <;>
        rcases place c z _ hc hz hu' with ⟨rfl, e⟩ | ⟨rfl, e⟩ | ⟨c', hc', hd'⟩
      · rfl
      · exact absurd e.symm hji
      · exact absurd (apart _ _ _ hc' hz hd') freeI
      · exact absurd e hji
      · rfl
      · exact absurd (apart _ _ _ hc' hz hd') freeJ
      · exact absurd (apart _ _ _ hb' hr hd) (by rw [e]; exact freeI)
      · exact absurd (apart _ _ _ hb' hr hd) (by rw [e]; exact freeJ)
      · exact h.forest b' c' r z u hb' hc' hr hz hd hd'
    · obtain ⟨b, r, hb, hr, hd⟩ := hu
      rcases place b r u hb hr hd with ⟨-, rfl⟩ | ⟨-, rfl⟩ | ⟨c, hc, hd⟩
      · exact (used_taken ht le_rfl (by omega)).mono fun k hk => by
          have hk : bitmapTest p.bitmap k = true := hk
          simp [ht'.bits, hk]
      · exact used_taken (s := { s with pmm := p }) ht' le_rfl (by omega)
      · exact (apart c r u hc hr hd).mono bits
    · obtain ⟨b, r, hb, hr, hd⟩ := hf'
      rcases place b r f hb hr hd with ⟨-, rfl⟩ | ⟨-, rfl⟩ | ⟨c, hc, hd⟩
      · exact absurd hf freeI
      · exact absurd hf freeJ
      · exact ⟨c, r, hc, hr, hd⟩

end

end MicroNT.VMM
