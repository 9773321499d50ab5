import Mathlib.Data.List.Pairwise
import MicroNT.NtProtect
import MicroNT.SpaceTrees
import MicroNT.PageBytes

/-! # Laying out pages in an address space

The PE loader, and every other part that builds up an address space, maps new
pages one after the other. If their page numbers differ, each of them ends up at
its address with its contents and its rights, in a frame of its own, and what was
mapped elsewhere stays. -/

namespace MicroNT.Kernel

open MicroNT.PMM hiding step Op System
open MicroNT.VMM MicroNT.Boot MicroNT.Base.Radix

/-! ## Page numbers -/

theorem vpn_add_ne (b : u64) {i j : Nat} (hi : i % PAGE_SIZE = 0) (hj : j % PAGE_SIZE = 0)
    (hi32 : i < 2 ^ 32) (hj32 : j < 2 ^ 32) (hne : i ≠ j) :
    vpn (b + BitVec.ofNat 64 i) ≠ vpn (b + BitVec.ofNat 64 j) := by
  intro heq
  have hb := b.isLt
  rw [← BitVec.toNat_inj, vpn_toNat, vpn_toNat] at heq
  simp only [BitVec.toNat_add, BitVec.toNat_ofNat, PAGE_SIZE] at *
  omega

/-! ## Open ways -/

/-- A walk that ends at a leaf or at an absent entry, and not at a huge page, goes
through entries that let ring 3 write. -/
def OpensWay (l : List u64) : Prop :=
  ∀ up e, l = up ++ [e] → up.length = 3 ∨ has e PTE_PRESENT = false →
    ∀ x ∈ up, has x PTE_USER = true ∧ has x PTE_WRITABLE = true

/-- A tree of page tables where user pages can be mapped. -/
structure UserSpace (s : Vmm) (p : u64) : Prop where
  wellFormed : WellFormed s p
  opens : ∀ v, OpensWay (entries s.mem p v)

section

variable {s : Vmm} {p t v : u64} {q : List Index}

theorem WellFormed.trees (h : WellFormed s p) : Trees (· = p) s where
  forest := by
    rintro a b q r t rfl rfl hq hr hd hd'
    exact h.injective q r t hq hr hd hd'
  used := by
    rintro t ⟨a, q, rfl, hq, hd⟩
    exact h.used q t hq hd

theorem UserSpace.trees (h : UserSpace s p) : Trees (· = p) s := WellFormed.trees h.wellFormed

/-- Memory that agrees on the tables. -/
theorem UserSpace.data (h : UserSpace s p) {m : Mem}
    (same : ∀ t, Tables (· = p) s.mem t → m t = s.mem t) : UserSpace { s with mem := m } p where
  wellFormed := (h.trees.data same).1.wellFormed rfl
  opens v := by
    rw [show entries m p v = entries s.mem p v from entries_data same rfl v]
    exact h.opens v

theorem opensWay_linked {up : List u64} {e f : u64} (h : OpensWay (up ++ [e]))
    (absent : has e PTE_PRESENT = false) (hf : IsFrame f) :
    OpensWay (up ++ [tableEntry f, 0]) := by
  intro up' e' heq _ x hx
  rw [show up ++ [tableEntry f, 0] = (up ++ [tableEntry f]) ++ [0] by simp] at heq
  obtain ⟨rfl, -⟩ := List.append_inj' heq rfl
  rcases List.mem_append.mp hx with hx | hx
  · exact h up e rfl (.inr absent) x hx
  · obtain rfl := List.mem_singleton.mp hx
    have table : IsTable (tableEntry f) := ⟨f, hf, rfl⟩
    exact ⟨isTable_user table, isTable_writable table⟩

/-- A new table opens the way further down. -/
theorem UserSpace.getOrAlloc (h : UserSpace s p) (hq : q.length < 3)
    (ht : descend link s.mem p q = some t) (i : Index) :
    UserSpace (getOrAlloc s t i true).2 p := by
  refine ⟨(getOrAlloc_goesDown i h.wellFormed hq ht).wellFormed, fun v => ?_⟩
  rw [VMM.getOrAlloc]
  simp only [Bool.not_true, Bool.false_eq_true, if_false]
  split
  case isTrue => split <;> exact h.opens v
  case isFalse habs =>
    have absent : has (s.mem t i) PTE_PRESENT = false := by simpa using habs
    rcases allocPage_cases s.pmm with ⟨k, hk, htake⟩ | ⟨h0, -⟩
    case inr =>
      simp only [h0, if_true]
      exact h.opens v
    case inl =>
      split
      case isTrue => exact h.opens v
      case isFalse =>
        rw [hk]
        have hframe := isFrame_pageAddr htake.within
        have fresh : ∀ r, r.length ≤ 3 → descend link s.mem p r ≠ some (pageAddr k) :=
          fun r hr hd => h.wellFormed.used r _ hr hd k htake.within
            (htake.wasFree k le_rfl (by omega)) rfl
        have hi := h.wellFormed.injective
        show OpensWay (walk link (graft s.mem t i (pageAddr k) (fun _ => 0)
          (tableEntry (pageAddr k))) p (VMM.path v))
        by_cases hpre : (q ++ [i]) <+: VMM.path v
        case neg =>
          rw [walk_graft_off_path hi hq ht fresh (by rw [path_length]) hpre]
          exact h.opens v
        case pos =>
          obtain ⟨rest, hrest⟩ := hpre
          rw [List.append_assoc, List.singleton_append] at hrest
          cases rest with
          | nil =>
            have hlen := congrArg List.length hrest
            rw [path_length, List.length_append, List.length_singleton] at hlen
            omega
          | cons j rest =>
            have old : link (s.mem t i) = none := link_eq_none.mpr (.inl absent)
            have before := h.opens v
            rw [entries, ← hrest, walk_append ht, walk, old, Option.elim_none] at before
            rw [← hrest, walk_graft_through hi hq ht fresh (link_tableEntry hframe)
              (fun _ => link_zero)]
            exact opensWay_linked before absent hframe

/-- A leaf is below the way. -/
theorem UserSpace.leaf (h : UserSpace s p) {pt : u64}
    (hpt : descend link s.mem p [pml4Idx v, pdptIdx v, pdIdx v] = some pt) (e : u64) :
    UserSpace { s with mem := write s.mem pt (ptIdx v) e } p := by
  refine ⟨wellFormed_leaf h.wellFormed hpt e, fun w => ?_⟩
  have hi := h.wellFormed.injective
  have before := h.opens w
  rw [entries] at before ⊢
  by_cases hw : [pml4Idx v, pdptIdx v, pdIdx v] ++ [ptIdx v] <+: VMM.path w
  case neg =>
    rw [hi.walk_write (by simp) hpt (by rw [path_length]) hw]
    exact before
  case pos =>
    have heq := hw.eq_of_length (by simp [path_length])
    rw [← heq, walk_append hpt, walk_single] at before
    rw [← heq, walk_append (hi.descend_write_self (by simp) hpt), hi.walk_write_self (by simp) hpt,
      walk_single]
    intro up e' hup _ x hx
    obtain ⟨rfl, -⟩ := List.append_inj' hup rfl
    exact before _ _ rfl (.inl (walk_length hpt)) x hx

theorem UserSpace.mapPageInto (h : UserSpace s p) (v f flags : u64) :
    UserSpace (mapPageInto s p v f flags).2 p := by
  have h1 := h.getOrAlloc (q := []) (by decide) rfl (pml4Idx v)
  have d1 := (getOrAlloc_goesDown (p := []) (pml4Idx v) h.wellFormed (by decide) rfl).reached
  simp only [VMM.mapPageInto]
  generalize VMM.getOrAlloc s p (pml4Idx v) true = r1 at *
  split
  case isTrue => exact h1
  case isFalse n1 =>
    have h2 := h1.getOrAlloc (by simp) (d1 n1) (pdptIdx v)
    have d2 := (getOrAlloc_goesDown (pdptIdx v) h1.wellFormed (by simp) (d1 n1)).reached
    generalize VMM.getOrAlloc r1.2 r1.1 (pdptIdx v) true = r2 at *
    split
    case isTrue => exact h2
    case isFalse n2 =>
      have h3 := h2.getOrAlloc (by simp) (d2 n2) (pdIdx v)
      have d3 := (getOrAlloc_goesDown (pdIdx v) h2.wellFormed (by simp) (d2 n2)).reached
      generalize VMM.getOrAlloc r2.2 r2.1 (pdIdx v) true = r3 at *
      split
      case isTrue => exact h3
      case isFalse n3 => exact h3.leaf (d3 n3) (leafEntry f flags)

theorem UserSpace.translate_mapPageInto (h : UserSpace s p) (f flags : u64) {w : u64}
    (hw : vpn w ≠ vpn v) :
    translateInPml4 (VMM.mapPageInto s p v f flags).2.mem p w = translateInPml4 s.mem p w := by
  obtain ⟨s', hwf, hsame, hfail | ⟨pt, hpt, hok⟩⟩ := mapPageInto_cases h.wellFormed v f flags
  · rw [hfail]
    exact hsame w
  · rw [hok]
    exact (translate_leaf_ne hwf hpt _ hw).trans (hsame w)

end

/-! ## Pages in place -/

/-- A page to be laid out. -/
structure Piece where
  va : u64
  writable : Bool
  page : Table

/-- The loop over the pages: a failure ends it. -/
def mapAll (p : u64) : List Piece → Vmm → Bool × Vmm
  | [], s => (true, s)
  | x :: xs, s =>
    let r := mapFresh s p x.va (userFlags x.writable) x.page
    if r.1 then mapAll p xs r.2 else (false, r.2)

theorem mapAll_append (p : u64) (xs ys : List Piece) (s : Vmm) :
    mapAll p (xs ++ ys) s =
      if (mapAll p xs s).1 then mapAll p ys (mapAll p xs s).2 else (false, (mapAll p xs s).2) := by
  induction xs generalizing s with
  | nil => rfl
  | cons x xs ih =>
    rw [List.cons_append, mapAll, mapAll]
    cases hx : (mapFresh s p x.va (userFlags x.writable) x.page).1 with
    | true => exact ih _
    | false => rfl

/-- The page is in place in frame `f`; bytes at the addresses of `S` may differ. -/
structure Lies (p : u64) (S : u64 → Prop) (s : Vmm) (x : Piece) (f : u64) : Prop where
  frame : IsFrame f
  nonzero : f ≠ 0
  used : Used s f
  data : ¬ Tables (· = p) s.mem f
  pte : getPteInto s.mem p x.va = leafEntry f (userFlags x.writable)
  bytes : ∀ k, k < PAGE_SIZE → ¬ S (x.va + BitVec.ofNat 64 k) →
    byteIn (s.mem f) k = byteIn x.page k

/-- The pages are in place, in frames of their own that were free in `s₀`. -/
structure Laid (p : u64) (S : u64 → Prop) (s₀ : Vmm) (L : List (Piece × u64)) (s : Vmm) :
    Prop where
  space : UserSpace s p
  bits : ∀ q, bitmapTest s₀.pmm.bitmap q = true → bitmapTest s.pmm.bitmap q = true
  lies : ∀ x ∈ L, Lies p S s x.1 x.2
  fresh : ∀ x ∈ L, ¬ Used s₀ x.2
  apart : L.Pairwise fun x y => x.2 ≠ y.2
  data : ∀ g, Used s₀ g → ¬ Tables (· = p) s₀.mem g → ¬ Tables (· = p) s.mem g
  others : ∀ w, (∀ x ∈ L, vpn w ≠ vpn x.1.va) →
    translateInPml4 s.mem p w = translateInPml4 s₀.mem p w

section

variable {p f : u64} {S : u64 → Prop} {s₀ s : Vmm} {L : List (Piece × u64)} {x : Piece}

theorem Laid.nil (h : UserSpace s p) : Laid p S s [] s where
  space := h
  bits _ hq := hq
  lies _ hx := absurd hx List.not_mem_nil
  fresh _ hx := absurd hx List.not_mem_nil
  apart := .nil
  data _ _ hg := hg
  others _ _ := rfl

/-- A page in place stays where it is while page tables grow. -/
theorem Lies.extends {s' : Vmm} (h : Lies p S s x f) (hs : Extends (· = p) s s')
    (hpte : getPteInto s'.mem p x.va = getPteInto s.mem p x.va) : Lies p S s' x f := by
  obtain ⟨same, data⟩ := hs.frames f h.used h.data
  refine ⟨h.frame, h.nonzero, h.used.mono hs.bits, data, hpte.trans h.pte, fun k hk hS => ?_⟩
  rw [same]
  exact h.bytes k hk hS

/-- **One more page**, at a page number that is not taken. -/
theorem Laid.mapFresh (h : Laid p S s₀ L s) (hnew : ∀ y ∈ L, vpn x.va ≠ vpn y.1.va)
    (hsucc : (mapFresh s p x.va (userFlags x.writable) x.page).1 = true) :
    ∃ f, Laid p S s₀ (L ++ [(x, f)]) (mapFresh s p x.va (userFlags x.writable) x.page).2 := by
  rw [Kernel.mapFresh] at hsucc ⊢
  rcases allocPage_cases s.pmm with ⟨k, hk, ht⟩ | ⟨h0, -⟩
  case inr =>
    simp only [h0, if_true] at hsucc
    cases hsucc
  case inl =>
    split at hsucc
    case isTrue => cases hsucc
    case isFalse hne =>
      rw [if_neg hne]
      rw [hk] at hsucc hne ⊢
      generalize (allocPage s.pmm).2 = q at *
      have free : ¬ Used s (pageAddr k) := not_used_free ht le_rfl (by omega)
      obtain ⟨x1, hused, hdata, same⟩ := h.space.trees.newPage ht x.page
      have space1 : UserSpace { s with pmm := q, mem := fill s.mem (pageAddr k) x.page } p :=
        ⟨x1.trees.wellFormed rfl, (h.space.data same).opens⟩
      have translate1 : ∀ w, translateInPml4 (fill s.mem (pageAddr k) x.page) p w =
          translateInPml4 s.mem p w := fun w => by
        rw [translateInPml4_eq, translateInPml4_eq, entries_data same rfl]
      have pte1 : ∀ w, getPteInto (fill s.mem (pageAddr k) x.page) p w = getPteInto s.mem p w :=
        fun w => (h.space.trees.data same).2.2 p w rfl
      have contents : fill s.mem (pageAddr k) x.page (pageAddr k) = x.page := fill_same _ _ _
      obtain ⟨s1, hs1⟩ : ∃ s1 : Vmm,
          s1 = { s with pmm := q, mem := fill s.mem (pageAddr k) x.page } := ⟨_, rfl⟩
      have hm : fill s.mem (pageAddr k) x.page = s1.mem := by rw [hs1]
      rw [hm] at translate1 pte1 contents hdata
      rw [← hs1] at x1 hused space1 hsucc ⊢
      obtain ⟨x2, here, other⟩ := x1.trees.mapPageInto rfl x.va (pageAddr k) (userFlags x.writable)
      have space2 := space1.mapPageInto x.va (pageAddr k) (userFlags x.writable)
      have translate2 := fun w (hw : vpn w ≠ vpn x.va) =>
        space1.translate_mapPageInto (pageAddr k) (userFlags x.writable) hw
      simp only at hsucc ⊢
      generalize mapPageInto s1 p x.va (pageAddr k) (userFlags x.writable) = r at *
      split at hsucc
      case isFalse => cases hsucc
      case isTrue hr =>
        rw [if_pos hr]
        have x12 := x1.trans x2
        obtain ⟨same2, data2⟩ := x2.frames _ hused hdata
        refine ⟨pageAddr k, space2, fun q hq => x12.bits q (h.bits q hq), ?_, ?_, ?_, ?_, ?_⟩
        · intro y hy
          rcases List.mem_append.mp hy with hy | hy
          · refine (h.lies y hy).extends x12 ?_
            exact (other p y.1.va rfl (.inr fun e => hnew y hy e.symm)).trans (pte1 _)
          · obtain rfl := List.mem_singleton.mp hy
            refine ⟨isFrame_pageAddr ht.within, hne, hused.mono x2.bits, data2, here hr,
              fun j _ _ => ?_⟩
            show byteIn (r.2.mem (pageAddr k)) j = _
            rw [same2, contents]
        · intro y hy hu
          rcases List.mem_append.mp hy with hy | hy
          · exact h.fresh y hy hu
          · obtain rfl := List.mem_singleton.mp hy
            exact free (hu.mono h.bits)
        · refine List.pairwise_append.mpr ⟨h.apart, List.pairwise_singleton _ _, fun y hy z hz => ?_⟩
          obtain rfl := List.mem_singleton.mp hz
          intro e
          have hu := (h.lies y hy).used
          rw [show y.2 = pageAddr k from e] at hu
          exact free hu
        · intro g hg hn
          exact (x12.frames g (hg.mono h.bits) (h.data g hg hn)).2
        · intro w hw
          have hx : vpn w ≠ vpn x.va := hw (x, pageAddr k) (by simp)
          rw [translate2 w hx, translate1]
          exact h.others w fun y hy => hw y (List.mem_append_left _ hy)

/-- **All the pages** of a list with different page numbers. -/
theorem Laid.mapAll {xs : List Piece} (hxs : xs.Pairwise fun x y => vpn x.va ≠ vpn y.va)
    (h : Laid p S s₀ L s) (hnew : ∀ x ∈ xs, ∀ y ∈ L, vpn x.va ≠ vpn y.1.va)
    (hsucc : (Kernel.mapAll p xs s).1 = true) :
    ∃ L', L'.map Prod.fst = xs ∧ Laid p S s₀ (L ++ L') (Kernel.mapAll p xs s).2 := by
  induction xs generalizing L s with
  | nil => exact ⟨[], rfl, by rwa [List.append_nil]⟩
  | cons x xs ih =>
    obtain ⟨hx, hxs⟩ := List.pairwise_cons.mp hxs
    rw [Kernel.mapAll] at hsucc ⊢
    split at hsucc
    case isFalse => cases hsucc
    case isTrue hr =>
      rw [if_pos hr]
      obtain ⟨f, h1⟩ := h.mapFresh (hnew x List.mem_cons_self) hr
      obtain ⟨L', hL', h2⟩ := ih hxs h1 (fun y hy z hz => by
        rcases List.mem_append.mp hz with hz | hz
        · exact hnew y (List.mem_cons_of_mem x hy) z hz
        · obtain rfl := List.mem_singleton.mp hz
          exact (hx y hy).symm) hsucc
      refine ⟨(x, f) :: L', by rw [List.map_cons, hL'], ?_⟩
      rwa [List.append_assoc, List.singleton_append] at h2

/-! ## What user code sees -/

/-- The page table on the way of a page in place. -/
theorem Lies.reaches (h : Lies p S s x f) : ∃ pdpt pd pt, Reaches s.mem p x.va pdpt pd pt := by
  obtain ⟨pt, hpt⟩ := getPteInto_present (m := s.mem) (p := p) (v := x.va)
    (by rw [h.pte]; exact leafEntry_present f (userFlags x.writable))
  obtain ⟨pdpt, pd, hr⟩ := pageTable_eq_some.mp hpt
  exact ⟨pdpt, pd, pt, hr⟩

theorem UserSpace.open_above (h : UserSpace s p) {v pdpt pd pt : u64}
    (hr : Reaches s.mem p v pdpt pd pt) : Open s.mem p v pdpt pd := by
  have way := h.opens v
  rw [hr.entries] at way
  have rights := way [s.mem p (pml4Idx v), s.mem pdpt (pdptIdx v), s.mem pd (pdIdx v)] _ rfl
    (.inl rfl)
  intro e he
  refine ⟨?_, rights e he⟩
  simp only [List.mem_cons, List.not_mem_nil, or_false] at he
  rcases he with rfl | rfl | rfl
  · exact (link_eq_some.mp hr.pml4).1
  · exact (link_eq_some.mp hr.pdpt).1
  · exact (link_eq_some.mp hr.pd).1

/-- The byte at an address, as `ReadUserByte` gives it. -/
def byteAt (m : Mem) (pml4 va : u64) : u8 := (readUserByte m pml4 va).1

theorem offset_lt {k : Nat} (hk : k < PAGE_SIZE) :
    BitVec.ofNat 64 k < 0x1000#64 ∧ (BitVec.ofNat 64 k).toNat = k := by
  have hn : (BitVec.ofNat 64 k).toNat = k := by
    rw [BitVec.toNat_ofNat]
    simp only [PAGE_SIZE] at hk
    omega
  refine ⟨?_, hn⟩
  rw [BitVec.lt_def, hn]
  exact hk

section

variable (h : Lies p S s x f) (hx : x.va.toNat % PAGE_SIZE = 0) {k : Nat} (hk : k < PAGE_SIZE)
include h hx hk

theorem Lies.reaches_at :
    ∃ pdpt pd pt, Reaches s.mem p (x.va + BitVec.ofNat 64 k) pdpt pd pt ∧
      s.mem pt (ptIdx (x.va + BitVec.ofNat 64 k)) = leafEntry f (userFlags x.writable) := by
  obtain ⟨pdpt, pd, pt, hr⟩ := h.reaches
  have same := (path_eq_iff (x.va + BitVec.ofNat 64 k) x.va).mpr
    (vpn_add_offset hx (offset_lt hk).1)
  simp only [path, List.cons.injEq, and_true] at same
  obtain ⟨i4, i3, i2, i1⟩ := same
  have pte := h.pte
  rw [hr.getPteInto] at pte
  refine ⟨pdpt, pd, pt, ⟨?_, ?_, ?_⟩, ?_⟩
  · rw [i4]; exact hr.pml4
  · rw [i3]; exact hr.pdpt
  · rw [i2]; exact hr.pd
  · rw [i1]; exact pte

theorem Lies.translate :
    translateInPml4 s.mem p (x.va + BitVec.ofNat 64 k) = f + BitVec.ofNat 64 k := by
  obtain ⟨pdpt, pd, pt, hr, pte⟩ := h.reaches_at hx hk
  rw [hr.translate, pte, leafEntry_present, if_pos rfl, (leafEntry_bits f x.writable).1, h.frame,
    frame_or_offset h.frame, offset_add hx (offset_lt hk).1]

/-- **The byte at an address of the page** is the one in its frame. -/
theorem Lies.byteAt_eq : byteAt s.mem p (x.va + BitVec.ofNat 64 k) = byteIn (s.mem f) k := by
  obtain ⟨small, hn⟩ := offset_lt hk
  obtain ⟨aligned, -⟩ := (isFrame_iff f).mp h.frame
  have sum := toNat_add_offset aligned small
  have mapped : f + BitVec.ofNat 64 k ≠ 0 := by
    intro h0
    rw [h0] at sum
    have f0 : f.toNat = 0 := by
      have : (0 : u64).toNat = 0 := rfl
      omega
    exact h.nonzero (BitVec.eq_of_toNat_eq f0)
  have page : pageOf (f + BitVec.ofNat 64 k) = f := by
    have := pageOf_add (o := 0#64) h.frame (k := k) (by simpa using hk)
    rwa [BitVec.add_zero] at this
  rw [byteAt, readUserByte, h.translate hx hk]
  simp only [if_neg mapped]
  rw [readByte_eq, page, sum, hn]
  congr 1
  simp only [PAGE_SIZE] at *
  omega

/-- **The rights of the page**: ring 3 may read it, and write it if it is writable. -/
theorem Lies.userCan_eq (hs : UserSpace s p) (w : Bool) :
    userCan w (entries s.mem p (x.va + BitVec.ofNat 64 k)) = (!w || x.writable) := by
  obtain ⟨pdpt, pd, pt, hr, pte⟩ := h.reaches_at hx hk
  obtain ⟨-, user, writable⟩ := leafEntry_bits f x.writable
  rw [hr.userCan (hs.open_above hr), pte, leafEntry_present, user, writable]
  rfl

end

/-! ## Stores -/

/-- A store that spares the tables, and the bytes of a page outside `S`. -/
theorem Lies.store (h : Lies p S s x f) (hs : UserSpace s p) {m : Mem}
    (same : ∀ t, Tables (· = p) s.mem t → m t = s.mem t)
    (bytes : ∀ k, k < PAGE_SIZE → ¬ S (x.va + BitVec.ofNat 64 k) →
      byteIn (m f) k = byteIn (s.mem f) k) : Lies p S { s with mem := m } x f := by
  obtain ⟨-, tables, pte⟩ := hs.trees.data same
  refine ⟨h.frame, h.nonzero, h.used, fun hd => h.data ((tables f).mp hd),
    (pte p _ rfl).trans h.pte, fun k hk hS => (bytes k hk hS).trans (h.bytes k hk hS)⟩

/-- The place of eight bytes in a page. -/
theorem slot_offset {g o : u64} (hg : IsFrame g) (ho : o.toNat + 8 ≤ PAGE_SIZE) {j : Nat}
    (hj : j < 8) : pageOf (g + o + BitVec.ofNat 64 j) = g ∧
      (g + o + BitVec.ofNat 64 j).toNat % PAGE_SIZE = o.toNat + j := by
  refine ⟨pageOf_add hg (by omega), ?_⟩
  obtain ⟨aligned, below⟩ := (isFrame_iff g).mp hg
  rw [BitVec.toNat_add, BitVec.toNat_add, BitVec.toNat_ofNat]
  simp only [PAGE_SIZE] at *
  omega

/-- **A store of eight bytes to a page in place**, at addresses of `S`. -/
theorem Laid.store (h : Laid p S s₀ L s) {y : Piece × u64} (hy : y ∈ L) {o : Nat}
    (ho : o + 8 ≤ PAGE_SIZE) (hS : ∀ j, j < 8 → S (y.1.va + BitVec.ofNat 64 (o + j))) (val : u64) :
    Laid p S s₀ L { s with mem := writeU64 s.mem (y.2 + BitVec.ofNat 64 o) val } := by
  have place := h.lies y hy
  have hn : (BitVec.ofNat 64 o : u64).toNat = o := (offset_lt (by omega)).2
  have slot := fun j (hj : j < 8) =>
    slot_offset (o := BitVec.ofNat 64 o) place.frame (by rw [hn]; exact ho) hj
  have other : ∀ t, t ≠ y.2 → writeU64 s.mem (y.2 + BitVec.ofNat 64 o) val t = s.mem t :=
    fun t ht => writeBytes_of_ne 8 0 ht (fun j _ hj => (slot j (by omega)).1) s.mem
  have same : ∀ t, Tables (· = p) s.mem t →
      writeU64 s.mem (y.2 + BitVec.ofNat 64 o) val t = s.mem t := by
    intro t ht
    refine other t ?_
    rintro rfl
    exact place.data ht
  obtain ⟨-, tables, -⟩ := h.space.trees.data same
  refine ⟨h.space.data same, h.bits, fun x hx => ?_, h.fresh, h.apart,
    fun g hg hn hd => h.data g hg hn ((tables g).mp hd), fun w hw => ?_⟩
  · refine (h.lies x hx).store h.space same fun k hk hk' => ?_
    by_cases hxy : x = y
    case neg =>
      have symm : Std.Symm fun x y : Piece × u64 => x.2 ≠ y.2 := ⟨fun _ _ => Ne.symm⟩
      rw [other x.2 (h.apart.forall hx hy hxy)]
    case pos =>
      subst hxy
      refine byteIn_writeBytes hk 8 0 (fun j _ hj _ heq => hk' ?_) s.mem
      rw [(slot j (by omega)).2, hn] at heq
      rw [heq]
      exact hS j (by omega)
  · show translateInPml4 (writeU64 s.mem _ val) p w = _
    rw [translateInPml4_eq, entries_data same rfl, ← translateInPml4_eq]
    exact h.others w hw

theorem resolve_offset (v : u64) {l : List u64} (ht : resolve v l ≠ 0) :
    (resolve v l).toNat % PAGE_SIZE = v.toNat % PAGE_SIZE := by
  have low : ∀ e mask off : u64, mask &&& 0xFFF#64 = 0#64 → off &&& 0xFFF#64 = 0xFFF#64 →
      (if has e PTE_PRESENT then (e &&& mask) ||| (v &&& off) else 0) ≠ 0 →
      (if has e PTE_PRESENT then (e &&& mask) ||| (v &&& off) else 0).toNat % PAGE_SIZE =
        v.toNat % PAGE_SIZE := by
    intro e mask off hm ho h0
    split at h0
    case isFalse => exact absurd rfl h0
    case isTrue hp =>
      rw [if_pos hp, ← offset_toNat, ← offset_toNat, BitVec.and_or_distrib_right, BitVec.and_assoc,
        BitVec.and_assoc, hm, ho, BitVec.and_zero, BitVec.zero_or]
  unfold resolve at ht ⊢
  split at ht
  case h_1 => exact low _ _ _ (by decide) (by decide) ht
  case h_2 => exact low _ _ _ (by decide) (by decide) ht
  case h_3 => exact low _ _ _ (by decide) (by decide) ht
  case h_4 => exact absurd rfl ht

/-- The translation keeps the offset in the page. -/
theorem translate_offset {m : Mem} {v : u64} (ht : translateInPml4 m p v ≠ 0) :
    (translateInPml4 m p v).toNat % PAGE_SIZE = v.toNat % PAGE_SIZE := by
  rw [translateInPml4_eq] at ht ⊢
  exact resolve_offset v ht

/-- What stores outside the laid out pages leave alone. -/
structure Keeps (p : u64) (S : u64 → Prop) (L : List (Piece × u64)) (s : Vmm) (m : Mem) : Prop where
  space : UserSpace { s with mem := m } p
  lies : ∀ x ∈ L, Lies p S { s with mem := m } x.1 x.2
  translate : ∀ w, translateInPml4 m p w = translateInPml4 s.mem p w
  tables : ∀ t, Tables (· = p) m t ↔ Tables (· = p) s.mem t

/-- **A store through another page**, whose frame is no table. -/
theorem Keeps.storeAt {m : Mem} (h : Keeps p S L s m) {va : u64}
    (hva : va.toNat % PAGE_SIZE + 8 ≤ PAGE_SIZE)
    (out : translateInPml4 s.mem p va ≠ 0 →
      ¬ Tables (· = p) s.mem (pageOf (translateInPml4 s.mem p va)) ∧
        ∀ x ∈ L, x.2 ≠ pageOf (translateInPml4 s.mem p va)) (val : u64) :
    Keeps p S L s (storeAt p val m va) := by
  rw [Kernel.storeAt]
  split
  case isTrue => exact h
  case isFalse ht =>
    have off := translate_offset ht
    rw [h.translate] at ht off ⊢
    obtain ⟨noTable, others⟩ := out ht
    generalize translateInPml4 s.mem p va = phys at *
    have page : ∀ j, j < 8 → pageOf (phys + BitVec.ofNat 64 j) = pageOf phys := by
      intro j hj
      have hphys := phys.isLt
      rw [← BitVec.toNat_inj, pageOf, pageOf, alignDown_toNat, alignDown_toNat, BitVec.toNat_add,
        BitVec.toNat_ofNat]
      simp only [PAGE_SIZE] at *
      omega
    have other : ∀ t, t ≠ pageOf phys → writeU64 m phys val t = m t :=
      fun t ht => writeBytes_of_ne 8 0 ht (fun j _ hj => page j (by omega)) m
    have same : ∀ t, Tables (· = p) m t → writeU64 m phys val t = m t := by
      intro t hd
      refine other t ?_
      rintro rfl
      exact noTable ((h.tables _).mp hd)
    refine ⟨h.space.data same, fun x hx => ?_, fun w => ?_, fun t => ?_⟩
    · refine (h.lies x hx).store h.space same fun k _ _ => ?_
      rw [other x.2 (others x hx)]
    · rw [translateInPml4_eq, entries_data (s := { s with mem := m }) same rfl,
        ← translateInPml4_eq, h.translate]
    · exact ((h.space.trees.data same).2.1 t).trans (h.tables t)

end

/-! ## The address spaces of processes -/

section

variable {R : Rows} {shown : Bool} {split : Index → u64 → Prop} {Ok : Nat → Prop}
  {is : Role → u64 → Prop} {s : System} {p : u64}

/-- **Pages can be mapped in the address space of every process**, as long as the
address spaces are a forest. -/
theorem Inv.userSpace (h : Inv R split Ok is s) (hg : R.Good shown)
    (hf : Forest link s.vmm.mem s.IsSpace 3) (hp : p ∈ s.spaces) : UserSpace s.vmm p := by
  refine ⟨(h.trees hf).wellFormed (.inr hp), fun v up e heq hend x hx => ?_⟩
  have opened : ∀ {b : u64}, Tabular x → link x = some b →
      has x PTE_USER = true ∧ has x PTE_WRITABLE = true := fun ht hl =>
    ⟨isTable_user (isTable_of_link ht hl), isTable_writable (isTable_of_link ht hl)⟩
  simp only [entries, path, walk_cons_cons, walk_single] at heq
  by_cases hlow : Low v
  case pos =>
    obtain ⟨pdpt, pd, l1, l2, -, e2, -, -, -⟩ := h.low_walk hg (.inr hp) hlow
    cases l3 : link (s.vmm.mem pd (pdIdx v)) with
    | none =>
      -- the walk ends at a huge page
      simp only [l1, l2, l3, Option.elim_some, Option.elim_none] at heq
      obtain ⟨rfl, last⟩ := List.append_inj' (show [_, _] ++ [_] = up ++ [e] from heq) rfl
      obtain rfl := (List.cons.inj last).1
      have present := hg.pd_present hlow.2 (pdIdx v)
      rw [← e2] at present
      rcases hend with hend | hend
      · cases hend
      · rw [present] at hend
        cases hend
    | some pt =>
      simp only [l1, l2, l3, Option.elim_some] at heq
      obtain ⟨rfl, -⟩ := List.append_inj' (show [_, _, _] ++ [_] = up ++ [e] from heq) rfl
      exact (h.open_above hg hp ⟨l1, l2, l3⟩ x hx).2
  case neg =>
    obtain ⟨t1, below⟩ := h.tabular hg hp hlow
    cases l1 : link (s.vmm.mem p (pml4Idx v)) with
    | none =>
      rw [l1, Option.elim_none] at heq
      obtain ⟨rfl, -⟩ := List.append_inj' (show [] ++ [_] = up ++ [e] from heq) rfl
      cases hx
    | some pdpt =>
      obtain ⟨t2, below⟩ := below pdpt l1
      cases l2 : link (s.vmm.mem pdpt (pdptIdx v)) with
      | none =>
        simp only [l1, l2, Option.elim_some, Option.elim_none] at heq
        obtain ⟨rfl, -⟩ := List.append_inj' (show [_] ++ [_] = up ++ [e] from heq) rfl
        obtain rfl := List.mem_singleton.mp hx
        exact opened t1 l1
      | some pd =>
        have t3 := below pd l2
        cases l3 : link (s.vmm.mem pd (pdIdx v)) with
        | none =>
          simp only [l1, l2, l3, Option.elim_some, Option.elim_none] at heq
          obtain ⟨rfl, -⟩ := List.append_inj' (show [_, _] ++ [_] = up ++ [e] from heq) rfl
          simp only [List.mem_cons, List.not_mem_nil, or_false] at hx
          rcases hx with rfl | rfl
          · exact opened t1 l1
          · exact opened t2 l2
        | some pt =>
          simp only [l1, l2, l3, Option.elim_some] at heq
          obtain ⟨rfl, -⟩ := List.append_inj' (show [_, _, _] ++ [_] = up ++ [e] from heq) rfl
          exact (h.open_above hg hp ⟨l1, l2, l3⟩ x hx).2

end

end MicroNT.Kernel
