import MicroNT.VirtualMemory

/-! # `MapPageInto` and `UnmapPageFrom` as map updates

In a well-formed tree every table is reached along one path, and the allocator
owns no table. Going one level down, with or without a new table, then leaves
every translation alone (`getOrAlloc_goesDown`), so only the leaf write counts. -/

namespace MicroNT.VMM

open MicroNT.PMM MicroNT.Base.Radix

/-- No table frame is shared or repeated, and none is free for the allocator. -/
structure WellFormed (s : Vmm) (root : u64) : Prop where
  injective : Injective link s.mem root 3
  used : ∀ p t, p.length ≤ 3 → descend link s.mem root p = some t →
    ∀ q, q < MAX_PAGES → bitmapTest s.pmm.bitmap q = false → t ≠ pageAddr q

/-- What `get_or_alloc` at entry `i` of the table at the end of `p` does: the
tree stays well formed, nothing is translated differently, and a pointer result
is the table one level down. -/
structure GoesDown (s s' : Vmm) (root : u64) (p : List Index) (i : Index) (t' : u64) : Prop where
  wellFormed : WellFormed s' root
  same : ∀ v, translateInPml4 s'.mem root v = translateInPml4 s.mem root v
  reached : t' ≠ 0 → descend link s'.mem root (p ++ [i]) = some t'

theorem walk_length {m : Mem} {root t : u64} {p : List Index}
    (h : descend link m root p = some t) : (walk link m root p).length = p.length := by
  induction p generalizing root with
  | nil => rfl
  | cons i p ih =>
    obtain ⟨c, hc, ht⟩ := Option.bind_eq_some_iff.mp h
    rw [walk, hc, Option.elim_some, List.length_cons, ih ht, List.length_cons]

theorem path_length (v : u64) : (path v).length = 4 := rfl

/-- Linking a blank table in place of an absent entry gives no translation. -/
theorem translate_graft {s : Vmm} {root t f : u64} {p : List Index} {i : Index}
    (h : Injective link s.mem root 3) (hp : p.length < 3)
    (ht : descend link s.mem root p = some t)
    (hf : ∀ r, r.length ≤ 3 → descend link s.mem root r ≠ some f) (hframe : IsFrame f)
    (habsent : has (s.mem t i) PTE_PRESENT = false) (v : u64) :
    translateInPml4 (graft s.mem t i f (fun _ => 0) (tableEntry f)) root v =
      translateInPml4 s.mem root v := by
  rw [translateInPml4_eq, translateInPml4_eq, entries, entries]
  by_cases hpre : (p ++ [i]) <+: path v
  · obtain ⟨q, hq⟩ := hpre
    rw [List.append_assoc, List.singleton_append] at hq
    rw [← hq]
    cases q with
    | nil =>
      have hlen := congrArg List.length hq
      rw [path_length, List.length_append, List.length_singleton] at hlen
      omega
    | cons j q =>
      have old : link (s.mem t i) = none := link_eq_none.mpr (.inl habsent)
      have hw : walk link s.mem root (p ++ i :: j :: q) = walk link s.mem root p ++ [s.mem t i] := by
        rw [walk_append ht, walk, old, Option.elim_none]
      rw [walk_graft_through h hp ht hf (link_tableEntry hframe) (fun _ => link_zero), hw,
        resolve_absent v _ habsent, List.append_cons, resolve_absent v _ (by decide)]
  · rw [walk_graft_off_path h hp ht hf (by rw [path_length]) hpre]

theorem getOrAlloc_goesDown {s : Vmm} {root t : u64} {p : List Index} (i : Index)
    (h : WellFormed s root) (hp : p.length < 3) (ht : descend link s.mem root p = some t) :
    GoesDown s (getOrAlloc s t i true).2 root p i (getOrAlloc s t i true).1 := by
  rw [getOrAlloc]
  simp only [Bool.not_true, Bool.false_eq_true, if_false]
  split
  case isTrue hpres =>
    split
    case isTrue => exact ⟨h, fun _ => rfl, fun h0 => absurd rfl h0⟩
    case isFalse hps =>
      refine ⟨h, fun _ => rfl, fun _ => ?_⟩
      rw [descend_snoc ht]
      exact link_eq_some.mpr ⟨hpres, by simpa using hps, rfl⟩
  case isFalse habs =>
    have habsent : has (s.mem t i) PTE_PRESENT = false := by simpa using habs
    rcases allocPage_cases s.pmm with ⟨q, hq, htake⟩ | ⟨hr, -⟩
    · have bits : ∀ k, k < MAX_PAGES → bitmapTest (allocPage s.pmm).2.bitmap k = false →
          bitmapTest s.pmm.bitmap k = false ∧ k ≠ q := by
        intro k _ hk
        rw [htake.bits, Bool.or_eq_false_iff, decide_eq_false_iff_not] at hk
        exact ⟨hk.2, by omega⟩
      have hlt : q < MAX_PAGES := htake.within
      have free := htake.wasFree q le_rfl (by omega)
      have hf : ∀ r, r.length ≤ 3 → descend link s.mem root r ≠ some (pageAddr q) :=
        fun r hr hd => h.used r _ hr hd q hlt free rfl
      split
      case isTrue =>
        refine ⟨⟨h.injective, fun r u hr hu k hk hb => ?_⟩, fun _ => rfl, fun h0 => absurd rfl h0⟩
        exact h.used r u hr hu k hk (bits k hk hb).1
      case isFalse =>
        rw [hq]
        have hframe := isFrame_pageAddr hlt
        have hlink := link_tableEntry hframe
        have hblank : ∀ _ : Index, link (0 : u64) = none := fun _ => link_zero
        refine ⟨⟨?_, fun r u hr hu k hk hb => ?_⟩, ?_, fun _ => ?_⟩
        · exact Injective.graft h.injective hp ht hf hlink hblank
        · obtain ⟨hfree, hne⟩ := bits k hk hb
          rcases descend_graft_cases h.injective hp ht hf hlink hblank hr hu with ⟨-, hu⟩ | ⟨-, rfl⟩
          · exact h.used r u hr hu k hk hfree
          · exact fun heq => hne (pageAddr_inj hk hlt heq.symm)
        · exact translate_graft h.injective hp ht hf hframe habsent
        · exact descend_graft h.injective hp ht hf hlink
    · simp only [hr, if_true]
      exact ⟨h, fun _ => rfl, fun h0 => absurd rfl h0⟩

/-! ## The leaf -/

section Leaf

variable {s : Vmm} {root v pt : u64} (h : WellFormed s root)
  (hpt : descend link s.mem root [pml4Idx v, pdptIdx v, pdIdx v] = some pt) (e : u64)
include h hpt

theorem translate_leaf_ne {a : u64} (ha : vpn a ≠ vpn v) :
    translateInPml4 (write s.mem pt (ptIdx v) e) root a = translateInPml4 s.mem root a := by
  rw [translateInPml4_eq, translateInPml4_eq, entries, entries,
    h.injective.walk_write (by simp) hpt (by rw [path_length])]
  intro hpre
  exact ha ((path_eq_iff a v).mp (hpre.eq_of_length (by simp [path_length])).symm)

theorem translate_leaf_eq {a : u64} (ha : vpn a = vpn v) :
    translateInPml4 (write s.mem pt (ptIdx v) e) root a =
      if has e PTE_PRESENT then (e &&& PTE_ADDR_MASK) ||| (a &&& 0xFFF#64) else 0 := by
  have hlen := walk_length hpt
  have hpath : path a = [pml4Idx v, pdptIdx v, pdIdx v] ++ [ptIdx v] := (path_eq_iff a v).mpr ha
  rw [translateInPml4_eq, entries, hpath,
    walk_append (h.injective.descend_write_self (by simp) hpt),
    h.injective.walk_write_self (by simp) hpt, walk_single, write_same]
  obtain ⟨x, y, z, hw⟩ := List.length_eq_three.mp hlen
  rw [hw]
  rfl

theorem wellFormed_leaf : WellFormed { s with mem := write s.mem pt (ptIdx v) e } root := by
  have keep : ∀ q : List Index, q.length ≤ 3 →
      descend link (write s.mem pt (ptIdx v) e) root q = descend link s.mem root q := by
    intro q hq
    refine h.injective.descend_write (by simp) hpt (by omega) fun hpre => ?_
    have := hpre.length_le
    simp at this
    omega
  refine ⟨fun p q a hp hq ha hb => ?_, fun p t hp ht => ?_⟩
  · rw [keep p hp] at ha
    rw [keep q hq] at hb
    exact h.injective p q a hp hq ha hb
  · have ht : descend link (write s.mem pt (ptIdx v) e) root p = some t := ht
    rw [keep p hp] at ht
    exact h.used p t hp ht

end Leaf

/-! ## Mapping and unmapping a page -/

/-- `MapPageInto` goes down three levels, with nothing translated differently,
and then either stops or writes the leaf. -/
theorem mapPageInto_cases {s : Vmm} {root : u64} (h : WellFormed s root) (v p flags : u64) :
    ∃ s' : Vmm, WellFormed s' root ∧
      (∀ a, translateInPml4 s'.mem root a = translateInPml4 s.mem root a) ∧
      (mapPageInto s root v p flags = (false, s') ∨
        ∃ pt, descend link s'.mem root [pml4Idx v, pdptIdx v, pdIdx v] = some pt ∧
          mapPageInto s root v p flags =
            (true, { s' with mem := write s'.mem pt (ptIdx v) (leafEntry p flags) })) := by
  have h1 := getOrAlloc_goesDown (p := []) (pml4Idx v) h (by decide) rfl
  simp only [mapPageInto]
  generalize getOrAlloc s root (pml4Idx v) true = r1 at *
  split
  case isTrue => exact ⟨r1.2, h1.wellFormed, h1.same, .inl rfl⟩
  case isFalse hn1 =>
    have h2 := getOrAlloc_goesDown (pdptIdx v) h1.wellFormed (by simp) (h1.reached hn1)
    generalize getOrAlloc r1.2 r1.1 (pdptIdx v) true = r2 at *
    have same2 : ∀ a, translateInPml4 r2.2.mem root a = translateInPml4 s.mem root a :=
      fun a => (h2.same a).trans (h1.same a)
    split
    case isTrue => exact ⟨r2.2, h2.wellFormed, same2, .inl rfl⟩
    case isFalse hn2 =>
      have h3 := getOrAlloc_goesDown (pdIdx v) h2.wellFormed (by simp) (h2.reached hn2)
      generalize getOrAlloc r2.2 r2.1 (pdIdx v) true = r3 at *
      have same3 : ∀ a, translateInPml4 r3.2.mem root a = translateInPml4 s.mem root a :=
        fun a => (h3.same a).trans (same2 a)
      split
      case isTrue => exact ⟨r3.2, h3.wellFormed, same3, .inl rfl⟩
      case isFalse hn3 => exact ⟨r3.2, h3.wellFormed, same3, .inr ⟨r3.1, h3.reached hn3, rfl⟩⟩

theorem unmapPageFrom_of_reached {s : Vmm} {root v pt : u64}
    (hpt : descend link s.mem root [pml4Idx v, pdptIdx v, pdIdx v] = some pt) :
    unmapPageFrom s root v = { s with mem := write s.mem pt (ptIdx v) 0 } := by
  rw [unmapPageFrom, pageTable_eq, hpt]

/-- **`MapPageInto` is a map update.** A success maps the page and nothing else,
and `UnmapPageFrom` then takes exactly that page away; a failure, at whatever
level, leaves every translation as it was. -/
theorem mapPageInto_updates (s : Vmm) (root v p flags : u64) (h : WellFormed s root)
    (hv : v.toNat % PAGE_SIZE = 0) (hp : p.toNat % PAGE_SIZE = 0) (hp52 : p.toNat < 2 ^ 52)
    (hflags : flags &&& PTE_ADDR_MASK = 0) :
    ((mapPageInto s root v p flags).1 = true →
      (∀ o, o < 0x1000#64 →
        translateInPml4 (mapPageInto s root v p flags).2.mem root (v + o) = p + o) ∧
      (∀ a, vpn a ≠ vpn v →
        translateInPml4 (mapPageInto s root v p flags).2.mem root a =
          translateInPml4 s.mem root a) ∧
      (∀ o, o < 0x1000#64 →
        translateInPml4 (unmapPageFrom (mapPageInto s root v p flags).2 root v).mem root
          (v + o) = 0) ∧
      (∀ a, vpn a ≠ vpn v →
        translateInPml4 (unmapPageFrom (mapPageInto s root v p flags).2 root v).mem root a =
          translateInPml4 (mapPageInto s root v p flags).2.mem root a)) ∧
    ((mapPageInto s root v p flags).1 = false →
      ∀ a, translateInPml4 (mapPageInto s root v p flags).2.mem root a =
        translateInPml4 s.mem root a) := by
  have hframe : IsFrame p := (isFrame_iff p).mpr ⟨hp, hp52⟩
  obtain ⟨s', hwf, hsame, hfail | ⟨pt, hpt, hok⟩⟩ := mapPageInto_cases h v p flags
  · rw [hfail]
    exact ⟨fun h0 => Bool.noConfusion h0, fun _ => hsame⟩
  · rw [hok]
    refine ⟨fun _ => ?_, fun h0 => Bool.noConfusion h0⟩
    have hwf' := wellFormed_leaf hwf hpt (leafEntry p flags)
    have hpt' : descend link (write s'.mem pt (ptIdx v) (leafEntry p flags)) root
        [pml4Idx v, pdptIdx v, pdIdx v] = some pt :=
      hwf.injective.descend_write_self (by simp) hpt
    rw [unmapPageFrom_of_reached
      (s := { s' with mem := write s'.mem pt (ptIdx v) (leafEntry p flags) }) hpt']
    refine ⟨fun o ho => ?_, fun a ha => ?_, fun o ho => ?_, fun a ha => ?_⟩
    · rw [translate_leaf_eq hwf hpt _ (vpn_add_offset hv ho), leafEntry_present, if_pos rfl,
        leafEntry_frame hframe hflags, frame_or_offset hframe, offset_add hv ho]
    · rw [translate_leaf_ne hwf hpt _ ha, hsame]
    · rw [translate_leaf_eq hwf' hpt' _ (vpn_add_offset hv ho), if_neg (by decide)]
    · exact translate_leaf_ne hwf' hpt' _ ha

/-- An empty PML4 at 2 MB, whose frame is the only one in use. -/
def emptyTree : Vmm :=
  { mem := fun _ _ => 0
    pmm := { bitmap := fun b => if b = 64 then 1 else 0, totalPages := 0, freePages := 0,
             searchHint := 512 }
    pml4Phys := 0x200000#64 }

theorem wellFormed_emptyTree : WellFormed emptyTree 0x200000#64 := by
  have only : ∀ (p : List Index) t, descend link emptyTree.mem 0x200000#64 p = some t →
      p = [] ∧ t = 0x200000#64 := by
    intro p t ht
    cases p with
    | nil => exact ⟨rfl, (Option.some.inj ht).symm⟩
    | cons i p =>
      have blank : link (emptyTree.mem 0x200000#64 i) = none := link_zero
      rw [descend, blank] at ht
      cases ht
  refine ⟨fun p q a _ _ ha hb => ?_, fun p t _ ht q hq hfree heq => ?_⟩
  · rw [(only p a ha).1, (only q a hb).1]
  · rw [(only p t ht).2] at heq
    obtain rfl : 512 = q := pageAddr_inj (by decide) hq heq
    exact absurd hfree (by decide)

theorem mapPageInto_updates_emptyTree :
    (mapPageInto emptyTree 0x200000#64 0x400000000#64 0x300000#64 7#64).1 = true ∧
      ∀ o, o < 0x1000#64 →
        translateInPml4 (mapPageInto emptyTree 0x200000#64 0x400000000#64 0x300000#64 7#64).2.mem
          0x200000#64 (0x400000000#64 + o) = 0x300000#64 + o := by
  have h : (mapPageInto emptyTree 0x200000#64 0x400000000#64 0x300000#64 7#64).1 = true := by
    decide +kernel
  exact ⟨h, ((mapPageInto_updates emptyTree 0x200000#64 0x400000000#64 0x300000#64 7#64
    wellFormed_emptyTree (by decide) (by decide) (by decide) (by decide)).1 h).1⟩

end MicroNT.VMM
