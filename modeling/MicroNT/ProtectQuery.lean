import MicroNT.MappingSucceeds
import MicroNT.NtProtect
import MicroNT.VirtualQuery

/-! # Protecting and querying private pages

Along every run of the system a ledger keeps, for each page of each process, the
access that was last granted to it. What `NtQueryVirtualMemory` reports of a
private page is what the ledger says, since `MapPageInto`, `UnmapPageFrom` and
`NtProtectVirtualMemory` change the entry of the pages they are about and no
other private one. -/

namespace MicroNT.Kernel

open MicroNT.PMM hiding step Op System
open MicroNT.VMM MicroNT.Boot MicroNT.Base.Radix MicroNT.Base.Machine

/-! ## The pages of a range -/

/-- The page has an address of `[a1, a1 + a2)`; for an empty range it is the page
of `a1`. -/
def Covers (a1 a2 : u64) (q : BitVec 36) : Prop :=
  (∃ o : u64, o < a2 ∧ vpn (a1 + o) = q) ∨ (a2 = 0#64 ∧ vpn a1 = q)

/-- Rounding the range up to pages does not wrap. -/
def Rounds (a1 a2 : u64) : Prop := a2.toNat + a1.toNat % PAGE_SIZE + (PAGE_SIZE - 1) < 2 ^ 64

instance (a1 a2 : u64) : Decidable (Rounds a1 a2) := inferInstanceAs (Decidable (_ < _))

section

variable {a1 a2 : u64} {k : Nat}

theorem protectSpan_toNat (h : Rounds a1 a2) : (protectSpan a1 a2).toNat =
    max 1 ((a2.toNat + a1.toNat % PAGE_SIZE + (PAGE_SIZE - 1)) / PAGE_SIZE) := by
  have offset := offset_toNat a1
  simp only [Rounds, PAGE_SIZE] at *
  have span : ((a2 + (a1 &&& 0xFFF#64) + pageSize64 - 1#64) / pageSize64).toNat =
      (a2.toNat + a1.toNat % 4096 + 4095) / 4096 := by
    rw [BitVec.toNat_udiv, BitVec.toNat_sub, BitVec.toNat_add, BitVec.toNat_add, offset,
      show pageSize64.toNat = 4096 from rfl, show (1#64).toNat = 1 from rfl]
    omega
  rw [protectSpan]
  split
  case isTrue zero =>
    rw [zero] at span
    have none : 0 = (a2.toNat + a1.toNat % 4096 + 4095) / 4096 := span
    rw [← none]
    rfl
  case isFalse some =>
    rw [span]
    have pos : (a2.toNat + a1.toNat % 4096 + 4095) / 4096 ≠ 0 := fun zero =>
      some (BitVec.eq_of_toNat_eq (span.trans zero))
    omega

theorem protectBase_toNat (a1 : u64) :
    (protectBase a1).toNat = a1.toNat / PAGE_SIZE * PAGE_SIZE := alignDown_toNat a1

/-- The page `k` of the loop is the page of an address that is `o` behind `a1`. -/
theorem vpn_protectBase {o : u64} (h : (a1.toNat % PAGE_SIZE + o.toNat) / PAGE_SIZE = k) :
    vpn (protectBase a1 + pageAddr k) = vpn (a1 + o) := by
  refine BitVec.eq_of_toNat_eq ?_
  rw [vpn_toNat, vpn_toNat, BitVec.toNat_add, BitVec.toNat_add, protectBase_toNat, pageAddr,
    BitVec.toNat_ofNat]
  simp only [PAGE_SIZE] at *
  omega

/-- **The loop of the call** goes over the pages of the range. -/
theorem covers_iff_round (h : Rounds a1 a2) (q : BitVec 36) :
    Covers a1 a2 q ↔
      ∃ k, k < (protectSpan a1 a2).toNat ∧ vpn (protectBase a1 + pageAddr k) = q := by
  have offset : a1.toNat % PAGE_SIZE < PAGE_SIZE := Nat.mod_lt _ (by decide)
  rw [protectSpan_toNat h]
  constructor
  · intro covers
    rcases covers with ⟨o, below, page⟩ | ⟨-, page⟩
    · have below : o.toNat < a2.toNat := below
      refine ⟨_, ?_, (vpn_protectBase rfl).trans page⟩
      simp only [PAGE_SIZE] at *
      omega
    · refine ⟨0, by omega, (vpn_protectBase (o := 0) ?_).trans ?_⟩
      · exact Nat.div_eq_of_lt offset
      · rw [show a1 + 0 = a1 from BitVec.add_zero a1]
        exact page
  · rintro ⟨k, below, page⟩
    simp only [Rounds, PAGE_SIZE] at *
    by_cases zero : a2 = 0#64
    case pos =>
      subst zero
      have first : k = 0 := by
        simp only [BitVec.toNat_ofNat] at below
        omega
      subst first
      refine .inr ⟨rfl, ?_⟩
      rw [← page, vpn_protectBase (o := 0) (Nat.div_eq_of_lt offset)]
      exact congrArg vpn (BitVec.add_zero a1).symm
    case neg =>
      have some : a2.toNat ≠ 0 := fun e => zero (BitVec.eq_of_toNat_eq e)
      -- the first address of the range in page `k`
      have place : (BitVec.ofNat 64 (k * 4096 - a1.toNat % 4096)).toNat =
          k * 4096 - a1.toNat % 4096 := by
        rw [BitVec.toNat_ofNat]
        omega
      refine .inl ⟨BitVec.ofNat 64 (k * 4096 - a1.toNat % 4096), ?_, ?_⟩
      · rw [BitVec.lt_def, place]
        omega
      · refine (vpn_protectBase ?_).symm.trans page
        rw [place]
        simp only [PAGE_SIZE]
        omega

end

/-! ## The entry of a page -/

/-- What `ProtectPageInto` makes of an entry. -/
def protectEntry (flags pte : u64) : u64 :=
  if has pte PTE_PRESENT then leafEntry pte flags else pte

theorem protectEntry_zero (flags : u64) : protectEntry flags 0 = 0 := by
  rw [protectEntry, if_neg (by decide)]

theorem pageTable_congr {m : Mem} {p v w : u64} (h : vpn v = vpn w) :
    pageTable m p v = pageTable m p w ∧ ptIdx v = ptIdx w := by
  have same := (path_eq_iff v w).mpr h
  simp only [path, List.cons.injEq, and_true] at same
  obtain ⟨e1, e2, e3, e4⟩ := same
  rw [pageTable_eq, pageTable_eq, e1, e2, e3]
  exact ⟨rfl, e4⟩

theorem getPteInto_congr {m : Mem} {p v w : u64} (h : vpn v = vpn w) :
    getPteInto m p v = getPteInto m p w := by
  obtain ⟨table, index⟩ := pageTable_congr (m := m) (p := p) h
  rw [getPteInto, getPteInto, table, index]

theorem shared_congr {v w : u64} (h : vpn v = vpn w) : Shared v ↔ Shared w := by
  have same := (path_eq_iff v w).mpr h
  simp only [path, List.cons.injEq, and_true] at same
  rw [Shared, Shared, Low, Low, same.1, same.2.1]

section

variable {R : Rows} {shown : Bool} {s t : System} {p b v w pt : u64}

/-- An entry of a page table is the entry of one page. -/
theorem Sound.same_page (h : Sound R s) (hp : s.IsSpace p) (hb : s.IsSpace b)
    (hv : pageTable s.vmm.mem p v = some pt) (hw : pageTable s.vmm.mem b w = some pt)
    (index : ptIdx v = ptIdx w) : vpn v = vpn w := by
  rw [pageTable_eq] at hv hw
  have same := h.forest p b _ _ pt hp hb (by simp) (by simp) hv hw
  simp only [List.cons.injEq, and_true] at same
  refine (path_eq_iff v w).mp ?_
  rw [path, path, same.1, same.2.1, same.2.2, index]

/-- The entry of a private page is seen from its address space only. -/
theorem Sound.private_entry (h : Sound R s) (hp : p ∈ s.spaces) (hb : s.IsSpace b) (ne : b ≠ p)
    (hw : ¬ Shared w) (hv : pageTable s.vmm.mem p v = some pt)
    (hpt : pageTable s.vmm.mem b w = some pt) : ptIdx v ≠ ptIdx w := by
  intro index
  obtain ⟨is, inv⟩ := h.inv
  exact hw ((shared_congr (h.same_page (.inr hp) hb hv hpt index)).mp
    (inv.shared_of_other hp hv hb ne hpt))

/-- **`UnmapPageFrom`** clears the entry of the page, and of no other private one. -/
theorem Sound.unmapPageFrom (h : Sound R s) (hp : p ∈ s.spaces) (v : u64) :
    getPteInto (VMM.unmapPageFrom s.vmm p v).mem p v = 0 ∧
      ∀ b, s.IsSpace b → ∀ w, vpn w ≠ vpn v ∨ b ≠ p ∧ ¬ Shared w →
        getPteInto (VMM.unmapPageFrom s.vmm p v).mem b w = getPteInto s.vmm.mem b w := by
  rw [VMM.unmapPageFrom]
  cases hpt : pageTable s.vmm.mem p v with
  | none => exact ⟨by rw [getPteInto, hpt], fun _ _ _ _ => rfl⟩
  | some pt =>
    have way := hpt
    rw [pageTable_eq] at way
    obtain ⟨x, here, other⟩ := h.trees.leaf (.inr hp) way 0
    refine ⟨here, fun b hb w apart => ?_⟩
    by_cases page : vpn w = vpn v
    case neg => exact other b w hb page
    case pos =>
      obtain ⟨ne, hw⟩ := apart.resolve_left fun no => no page
      -- the walk of the other address space ends in another page table
      have walk : pageTable (write s.vmm.mem pt (ptIdx v) 0) b w = pageTable s.vmm.mem b w := by
        rw [pageTable_eq, pageTable_eq]
        exact h.forest.descend_last (.inr hp) rfl way (fun u hu => write_of_table_ne hu) hb
          (by simp)
      rw [getPteInto, getPteInto, walk]
      cases hpt' : pageTable s.vmm.mem b w with
      | none => rfl
      | some pt' =>
        refine write_of_ne fun same => ?_
        obtain ⟨table, index⟩ := same
        subst table
        exact h.private_entry hp hb ne hw hpt hpt' index.symm

/-- What `NtProtectVirtualMemory` does to memory. -/
structure Protects (s t : System) (p a1 a2 a3 : u64) : Prop where
  translations : ∀ b, s.IsSpace b → ∀ w,
    translateInPml4 t.vmm.mem b w = translateInPml4 s.vmm.mem b w
  inside : ∀ w, Covers a1 a2 (vpn w) → getPteInto t.vmm.mem p w =
    protectEntry (userFlags (a3 &&& 0xCC#64 != 0#64)) (getPteInto s.vmm.mem p w)
  outside : ∀ w, ¬ Covers a1 a2 (vpn w) → getPteInto t.vmm.mem p w = getPteInto s.vmm.mem p w
  others : ∀ b, s.IsSpace b → b ≠ p → ∀ w, ¬ Shared w →
    getPteInto t.vmm.mem b w = getPteInto s.vmm.mem b w

/-- **`NtProtectVirtualMemory`** changes no translation, and rewrites the entries of
the mapped pages of the range. -/
theorem Sound.ntProtectVm {a1 a2 a3 : u64} (h : Sound R s) (hp : p ∈ s.spaces)
    (rounds : Rounds a1 a2) (ht : Kernel.step s (.ntProtectVm p a1 a2 a3) = some t) :
    Protects s t p a1 a2 a3 := by
  obtain ⟨is, inv⟩ := h.inv
  have upper := inv.call_upper hp ht
  have role : ∀ b, s.IsSpace b →
      ∃ r, is r b ∧ (Kernel.roles (R.shape fun _ _ => True)).rank r = 4 := by
    intro b hb
    rcases inv.role hb with hr | hr
    · exact ⟨_, hr, rfl⟩
    · exact ⟨_, hr, rfl⟩
  have table : ∀ b, s.IsSpace b → ∀ w, pageTable t.vmm.mem b w = pageTable s.vmm.mem b w := by
    intro b hb w
    obtain ⟨r, hr, rank⟩ := role b hb
    exact inv.typed.pageTable_leaf upper hr rank
  -- the entry of a page of the process, if it has a page table
  have own : ∀ {w pt : u64}, pageTable s.vmm.mem p w = some pt →
      (HitsAny s.vmm.mem p (protectBase a1) 0 (protectSpan a1 a2).toNat pt (ptIdx w) ↔
        Covers a1 a2 (vpn w) ∧ has (s.vmm.mem pt (ptIdx w)) PTE_PRESENT = true) := by
    intro w pt hpt
    rw [covers_iff_round rounds]
    constructor
    · rintro ⟨k, -, below, at_, index, present⟩
      exact ⟨⟨k, by omega, h.same_page (.inr hp) (.inr hp) at_ hpt index⟩, present⟩
    · rintro ⟨⟨k, below, page⟩, present⟩
      obtain ⟨at_, index⟩ := pageTable_congr (m := s.vmm.mem) (p := p) page
      exact ⟨k, Nat.zero_le k, by omega, at_.trans hpt, index, present⟩
  refine ⟨fun b hb w => ?_, fun w covers => ?_, fun w no => ?_, fun b hb ne w hw => ?_⟩
  · obtain ⟨r, hr, rank⟩ := role b hb
    cases hpt : pageTable s.vmm.mem b w with
    | none => rw [translateInPml4_eq, translateInPml4_eq, inv.typed.entries_leaf upper hr rank hpt]
    | some pt =>
      obtain ⟨pdpt, pd, way⟩ := pageTable_eq_some.mp hpt
      obtain ⟨way', -⟩ := inv.typed.reaches_leaf upper hr rank way
      rw [way.translate, way'.translate]
      by_cases hit : HitsAny s.vmm.mem p (protectBase a1) 0 (protectSpan a1 a2).toNat pt (ptIdx w)
      · rw [(inv.call_mem hp ht pt (ptIdx w)).1 hit, leafEntry_present, (leafEntry_bits _ _).1]
        obtain ⟨k, -, -, -, -, present⟩ := hit
        rw [present]
      · rw [(inv.call_mem hp ht pt (ptIdx w)).2 hit]
  · rw [getPteInto, getPteInto, table p (.inr hp)]
    cases hpt : pageTable s.vmm.mem p w with
    | none => exact (protectEntry_zero _).symm
    | some pt =>
      simp only [protectEntry]
      split
      case isTrue present => exact (inv.call_mem hp ht pt _).1 ((own hpt).mpr ⟨covers, present⟩)
      case isFalse absent =>
        exact (inv.call_mem hp ht pt _).2 fun hit => absent ((own hpt).mp hit).2
  · rw [getPteInto, getPteInto, table p (.inr hp)]
    cases hpt : pageTable s.vmm.mem p w with
    | none => rfl
    | some pt => exact (inv.call_mem hp ht pt _).2 fun hit => no ((own hpt).mp hit).1
  · rw [getPteInto, getPteInto, table b hb]
    cases hpt : pageTable s.vmm.mem b w with
    | none => rfl
    | some pt =>
      refine (inv.call_mem hp ht pt _).2 fun hit => ?_
      obtain ⟨k, -, -, at_, index, -⟩ := hit
      exact h.private_entry hp hb ne hw at_ hpt index

end

/-! ## The ledger -/

/-- The system, and the access that was last granted to each page of each process:
none while the page is not mapped. -/
structure Recorder where
  sys : System
  granted : u64 → BitVec 36 → Option Bool

open Classical in
/-- How an operation changes the ledger. -/
noncomputable def Recorder.grant (s : Recorder) : Op → u64 → BitVec 36 → Option Bool
  | .createUserPml4 => fun b q =>
    let p := (createUserPml4 s.sys.vmm).1
    if p ≠ 0 ∧ b = p then none else s.granted b q
  | .mapPageInto p v phys w => fun b q =>
    if (mapPageInto s.sys.vmm p v phys (userFlags w)).1 = true ∧ b = p ∧ q = vpn v then some w
    else s.granted b q
  | .unmapPageFrom p v => fun b q => if b = p ∧ q = vpn v then none else s.granted b q
  | .ntProtectVm p a1 a2 a3 => fun b q =>
    if b = p ∧ Covers a1 a2 q then (s.granted b q).map fun _ => a3 &&& 0xCC#64 != 0#64
    else s.granted b q
  | _ => s.granted

/-- The system's step, with the ledger. -/
noncomputable def Recorder.step (s : Recorder) (op : Op) : Option Recorder :=
  (Kernel.step s.sys op).map fun t => ⟨t, s.grant op⟩

/-- After boot nothing is granted. -/
def watch (v : Vmm) : Recorder := ⟨start v, fun _ _ => none⟩

/-- The entry of a page is as the ledger says. -/
def Records (pte : u64) : Option Bool → Prop
  | none => has pte PTE_PRESENT = false
  | some w => has pte PTE_PRESENT = true ∧ has pte PTE_WRITABLE = w

/-- Every private page is as the ledger says. -/
def Recorder.Recorded (s : Recorder) : Prop := ∀ p ∈ s.sys.spaces, ∀ w, ¬ Shared w →
  Records (getPteInto s.sys.vmm.mem p w) (s.granted p (vpn w))

/-- The ranges of protection calls round up without wrapping. -/
def Op.Rounds : Op → Prop
  | .ntProtectVm _ a1 a2 _ => Kernel.Rounds a1 a2
  | _ => True

theorem records_zero : Records 0 none := show has 0 PTE_PRESENT = false by decide

theorem records_leafEntry (f : u64) (w : Bool) : Records (leafEntry f (userFlags w)) (some w) :=
  ⟨leafEntry_present _ _, (leafEntry_bits f w).2.2⟩

theorem Records.present {pte : u64} {g : Option Bool} (h : Records pte g) :
    has pte PTE_PRESENT = true ↔ g.isSome = true := by
  cases g with
  | none => simp [show has pte PTE_PRESENT = false from h]
  | some w => simp [h.1]

theorem Records.writable {pte : u64} {g : Option Bool} (h : Records pte g) :
    has pte PTE_PRESENT = true ∧ has pte PTE_WRITABLE = true ↔ g = some true := by
  cases g with
  | none => simp [show has pte PTE_PRESENT = false from h]
  | some w => simp [h.1, h.2]

theorem Records.protectEntry {pte : u64} {g : Option Bool} (h : Records pte g) (w : Bool) :
    Records (protectEntry (userFlags w) pte) (g.map fun _ => w) := by
  rw [Kernel.protectEntry]
  cases g with
  | none =>
    have absent : has pte PTE_PRESENT = false := h
    rw [if_neg (by rw [absent]; exact Bool.false_ne_true)]
    exact h
  | some _ =>
    rw [if_pos h.1]
    exact records_leafEntry pte w

section

variable {R : Rows} {shown : Bool} {s t : Recorder}

/-- A new address space has no private page. -/
theorem Sound.createUserPml4_private {s : System} (h : Sound R s) (hg : R.Good shown)
    (hne : (VMM.createUserPml4 s.vmm).1 ≠ 0) {w : u64} (hw : ¬ Shared w) :
    has (getPteInto (VMM.createUserPml4 s.vmm).2.mem (VMM.createUserPml4 s.vmm).1 w) PTE_PRESENT =
      false := by
  obtain ⟨is, inv⟩ := h.inv
  obtain ⟨is', new⟩ := Inv.newSpace (l := ⟨s, [], []⟩) inv hg hne
  refine Bool.eq_false_iff.mpr fun present => ?_
  obtain ⟨pt, hpt⟩ := getPteInto_present present
  rw [getPteInto_some hpt] at present
  have leaf := new.inv.typed.pageTable (new.inv.spaces _ new.space) rfl hpt
  rw [leaf_eq, leafRole, if_neg fun low => hw (.inl low), if_neg fun soft => hw (.inr soft)] at leaf
  exact new.pages _ pt (ptIdx w) leaf rfl present

/-- **Every operation keeps the ledger true.** -/
theorem Recorder.Recorded.step (h : s.Recorded) (sound : Sound R s.sys) (hg : R.Good shown) {op : Op}
    (rounds : op.Rounds) (hs : s.step op = some t) : t.Recorded := by
  obtain ⟨u, hu, rfl⟩ := Option.map_eq_some_iff.mp hs
  cases op with
  | pmm op =>
    obtain ⟨r, -, rfl⟩ := Option.map_eq_some_iff.mp hu
    exact h
  | store a i value =>
    simp only [Kernel.step] at hu
    split at hu
    case isFalse => cases hu
    case isTrue ha =>
      cases hu
      intro p hp w hw
      obtain ⟨is, inv⟩ := sound.inv
      obtain ⟨-, -, same⟩ := sound.trees.data (m := write s.sys.vmm.mem (pageOf a) i value)
        fun x hx => write_of_table_ne fun eq => inv.held_no_table ha (eq ▸ hx)
      show Records (getPteInto (write s.sys.vmm.mem (pageOf a) i value) p w) _
      rw [same p w (.inr hp)]
      exact h p hp w hw
  | createUserPml4 =>
    have moved : Moves R noPages noFrames s.sys u := sound.createUserPml4 hg hu
    cases hu
    intro p hp w hw
    simp only [Recorder.grant]
    split
    case isTrue new =>
      rw [new.2]
      exact sound.createUserPml4_private hg new.1 hw
    case isFalse old =>
      have here : p ∈ s.sys.spaces := by
        simp only at hp
        split at hp
        case isTrue => exact hp
        case isFalse hne => exact (List.mem_cons.mp hp).resolve_left fun eq => old ⟨hne, eq⟩
      have same := moved.entries p here w hw fun no => no
      exact same.symm ▸ h p here w hw
  | mapPageInto p v phys w =>
    simp only [Kernel.step] at hu
    split at hu
    case isFalse => cases hu
    case isTrue hp =>
      obtain ⟨moved, mapped, failed⟩ := sound.mapPageInto hg hp v phys w
      cases hu
      intro b hb x hx
      simp only [Recorder.grant]
      split
      case isTrue new =>
        obtain ⟨success, rfl, page⟩ := new
        rw [getPteInto_congr page, mapped success]
        exact records_leafEntry phys w
      case isFalse old =>
        refine Eq.subst (motive := fun e => Records e _) ?_ (h b hb x hx)
        by_cases success : (mapPageInto s.sys.vmm p v phys (userFlags w)).1 = true
        · exact (moved.entries b hb x hx fun only => old ⟨success, only⟩).symm
        · exact (failed (Bool.eq_false_iff.mpr success) b hb x).symm
  | unmapPageFrom p v =>
    simp only [Kernel.step] at hu
    split at hu
    case isFalse => cases hu
    case isTrue hp =>
      obtain ⟨here, other⟩ := sound.unmapPageFrom hp v
      cases hu
      intro b hb x hx
      simp only [Recorder.grant]
      split
      case isTrue page =>
        obtain ⟨rfl, page⟩ := page
        rw [getPteInto_congr page, here]
        exact records_zero
      case isFalse apart =>
        rw [other b (.inr hb) x (or_iff_not_imp_left.mpr fun same =>
          ⟨fun eq => apart ⟨eq, not_not.mp same⟩, hx⟩)]
        exact h b hb x hx
  | ntProtectVm p a1 a2 a3 =>
    have done := hu
    simp only [Kernel.step] at hu
    split at hu
    case isFalse => cases hu
    case isTrue hp =>
      have effect := sound.ntProtectVm hp rounds done
      cases hu
      intro b hb x hx
      simp only [Recorder.grant]
      split
      case isTrue covered =>
        obtain ⟨rfl, covered⟩ := covered
        rw [effect.inside x covered]
        exact (h b hb x hx).protectEntry _
      case isFalse apart =>
        by_cases own : b = p
        · subst own
          rw [effect.outside x fun covered => apart ⟨rfl, covered⟩]
          exact h b hb x hx
        · rw [effect.others b (.inr hb) own x hx]
          exact h b hb x hx

/-! ## What the process may do -/

/-- On the way of an address without a page table an entry is absent. -/
theorem Inv.userCan_none {split : Index → u64 → Prop} {Ok : Nat → Prop} {is : Role → u64 → Prop}
    {s : System} (h : Inv R split Ok is s) (hg : R.Good shown) {p v : u64} (hp : p ∈ s.spaces)
    (low : ¬ Low v) (none : pageTable s.vmm.mem p v = none) (w : Bool) :
    VMM.userCan w (entries s.vmm.mem p v) = false := by
  obtain ⟨t1, below⟩ := h.tabular hg hp low
  have absent : ∀ {e : u64}, ¬ has e PTE_PRESENT = true → link e = .none := fun no =>
    link_eq_none.mpr (.inl (Bool.eq_false_iff.mpr no))
  rw [entries, path]
  by_cases p1 : has (s.vmm.mem p (pml4Idx v)) PTE_PRESENT = true
  case neg => simp [walk_cons_cons, absent p1, VMM.userCan]
  obtain ⟨pdpt, l1⟩ := isTable_link (t1 p1)
  obtain ⟨t2, below⟩ := below pdpt l1
  by_cases p2 : has (s.vmm.mem pdpt (pdptIdx v)) PTE_PRESENT = true
  case neg => simp [walk_cons_cons, l1, absent p2, VMM.userCan, p2]
  obtain ⟨pd, l2⟩ := isTable_link (t2 p2)
  have t3 := below pd l2
  by_cases p3 : has (s.vmm.mem pd (pdIdx v)) PTE_PRESENT = true
  case neg => simp [walk_cons_cons, l1, l2, absent p3, VMM.userCan, p3]
  obtain ⟨pt, l3⟩ := isTable_link (t3 p3)
  rw [pageTable_eq_some.mpr ⟨pdpt, pd, l1, l2, l3⟩] at none
  cases none

/-- **The entry of a private page** says what ring 3 may do with it. -/
theorem Sound.userCan_private {s : System} (h : Sound R s) (hg : R.Good shown) {p v : u64}
    (hp : p ∈ s.spaces) (hv : ¬ Shared v) (w : Bool) :
    VMM.userCan w (entries s.vmm.mem p v) = (has (getPteInto s.vmm.mem p v) PTE_PRESENT &&
      (!w || has (getPteInto s.vmm.mem p v) PTE_WRITABLE)) := by
  obtain ⟨is, inv⟩ := h.inv
  cases hpt : pageTable s.vmm.mem p v with
  | none =>
    rw [inv.userCan_none hg hp (fun low => hv (.inl low)) hpt, getPteInto, hpt]
    simp only [show has 0 PTE_PRESENT = false by decide, Bool.false_and]
  | some pt =>
    obtain ⟨pdpt, pd, way⟩ := pageTable_eq_some.mp hpt
    rw [way.userCan (inv.open_above hg hp way), getPteInto_some hpt]
    cases present : has (s.vmm.mem pt (ptIdx v)) PTE_PRESENT with
    | false => rfl
    | true => rw [inv.private_user hp hv hpt present, Bool.true_and]

/-- What the process reads in its record at `a2` about the page of `a1`. -/
structure Recorder.Reports (s : Recorder) (p a1 a2 : u64) : Prop where
  committed : (readInformation (ntQueryVm s.sys.vmm.mem p a1 a2) p a2).state = MEM_COMMIT ↔
    (s.granted p (vpn a1)).isSome = true
  readwrite : (readInformation (ntQueryVm s.sys.vmm.mem p a1 a2) p a2).protect = PAGE_READWRITE ↔
    s.granted p (vpn a1) = some true
  mapped : (readInformation (ntQueryVm s.sys.vmm.mem p a1 a2) p a2).state = MEM_COMMIT ↔
    userReads s.sys.vmm.mem p a1 = true
  writable : (readInformation (ntQueryVm s.sys.vmm.mem p a1 a2) p a2).protect = PAGE_READWRITE ↔
    userWrites s.sys.vmm.mem p a1 = true

/-- Every query of a private page reports what the ledger says. -/
def Recorder.QueriesAgree (s : Recorder) : Prop := ∀ p ∈ s.sys.spaces, ∀ a1, ¬ Shared a1 →
  ∀ a2, Buffer s.sys p a2 48 → s.Reports p a1 a2

theorem Recorder.Recorded.queries (h : s.Recorded) (sound : Sound R s.sys) (hg : R.Good shown) :
    s.QueriesAgree := by
  intro p hp a1 private_ a2 buffer
  have page : vpn (a1 &&& ~~~0xFFF#64) = vpn a1 := by
    have first : vpn (protectBase a1 + pageAddr 0) = vpn (a1 + 0) :=
      vpn_protectBase (Nat.div_eq_of_lt (Nat.mod_lt _ (by decide)))
    rwa [show pageAddr 0 = 0#64 from rfl, BitVec.add_zero, show a1 + 0 = a1 from BitVec.add_zero a1]
      at first
  have ledger := h p hp a1 private_
  have reads := sound.userCan_private hg hp private_ false
  have writes := sound.userCan_private hg hp private_ true
  have report := buffer.ntQueryVm (.inr hp) a1
  rw [getPteInto_congr page] at report
  constructor
  · rw [report, basicInformation_committed]
    exact ledger.present
  · rw [report, basicInformation_readwrite]
    exact ledger.writable
  · rw [report, basicInformation_committed, userReads, reads]
    simp
  · rw [report, basicInformation_readwrite, userWrites, writes]
    simp

end

/-! ## Runs -/

/-- What a call of `NtProtectVirtualMemory` does, if the operation is one. -/
def Recorder.ProtectsRange (s : Recorder) (op : Op) : Prop := ∀ p a1 a2 a3 t,
  op = .ntProtectVm p a1 a2 a3 → s.step op = some t → Protects s.sys t.sys p a1 a2 a3

/-- **Protect and query agree** in every run of the system whose protection calls
have ranges that round up to pages without wrapping: each query of a private page
reports the access that was last granted to it, and each protection call rewrites
the mapped pages of its range, changing no translation. -/
theorem protect_query_agree (m : Mem) (pt bmStart : u64) (bi : Option BootInfo) (page : Table)
    (shown : Bool) (v : Vmm) (hb : TablesAt pt bi)
    (hboot : boot m pt bmStart bi page = some (shown, v)) (ops : List Op)
    (rounds : ∀ op ∈ ops, op.Rounds) :
    Always Recorder.step Recorder.QueriesAgree (watch v) ops ∧
      Along Recorder.step Recorder.ProtectsRange (watch v) ops := by
  obtain ⟨R, hg, sound⟩ := boot_sound hb hboot
  have guard : Along Recorder.step (fun _ op => op.Rounds) (watch v) ops :=
    along_of_forall_mem rounds (watch v)
  have first : Sound R (watch v).sys ∧ (watch v).Recorded := ⟨sound, fun p hp => by cases hp⟩
  have keep : ∀ (s : Recorder) (op : Op) (t : Recorder), Sound R s.sys ∧ s.Recorded → op.Rounds →
      s.step op = some t → Sound R t.sys ∧ t.Recorded := by
    intro s op t hs hop ht
    obtain ⟨u, hu, rfl⟩ := Option.map_eq_some_iff.mp ht
    exact ⟨hs.1.step hg hu, hs.2.step hs.1 hg hop ht⟩
  refine ⟨(always_invariant keep first guard).mono fun s hs => hs.2.queries hs.1 hg,
    along_invariant keep (fun s op hs hop => ?_) first guard⟩
  rintro p a1 a2 a3 t rfl ht
  obtain ⟨u, hu, rfl⟩ := Option.map_eq_some_iff.mp ht
  have hp : p ∈ s.sys.spaces := by
    simp only [Kernel.step] at hu
    split at hu
    case isTrue hp => exact hp
    case isFalse => cases hu
  exact hs.1.ntProtectVm hp hop hu

/-- A page is mapped for writing and protected in the middle. -/
theorem protect_query_agree_page :
    ∃ v, boot (fun _ _ => 0) 0x10000000#64 0x120000#64 (some lowBoot) (fun _ => 0) = some (true, v) ∧
      Always Recorder.step Recorder.QueriesAgree (watch v)
        [.createUserPml4, .mapPageInto 0x605000#64 0x600000000#64 0 true,
          .ntProtectVm 0x605000#64 0x600000800#64 1#64 2#64] := by
  obtain ⟨v, -, -, hboot, -⟩ := lowBoot_process
  refine ⟨v, hboot, (protect_query_agree _ _ _ _ _ _ v tablesAt_lowBoot hboot _ ?_).1⟩
  simp only [List.forall_mem_cons, List.not_mem_nil, false_imp_iff, implies_true, and_true,
    Op.Rounds, true_and]
  decide

/-- **An empty range** contains no address, but its first page is protected. -/
theorem empty_range_protected :
    ∃ v s t, boot (fun _ _ => 0) 0x10000000#64 0x120000#64 (some lowBoot) (fun _ => 0) =
        some (true, v) ∧
      run step (start v) [.createUserPml4, .mapPageInto 0x605000#64 0x600000000#64 0 true] = some s ∧
      step s (.ntProtectVm 0x605000#64 0x600000000#64 0#64 2#64) = some t ∧
      (¬ ∃ o : u64, o < 0#64 ∧ vpn (0x600000000#64 + o) = vpn 0x600000000#64) ∧
      userWrites s.vmm.mem 0x605000#64 0x600000000#64 = true ∧
      userWrites t.vmm.mem 0x605000#64 0x600000000#64 = false := by
  obtain ⟨v, s, -, hboot, hrun, hp, -⟩ := lowBoot_process
  obtain ⟨v', hboot', plenty⟩ := lowBoot_plenty
  obtain rfl : v' = v := (Prod.mk.inj (Option.some.inj (hboot'.symm.trans hboot))).2
  obtain ⟨R, hg, sound⟩ := boot_sound tablesAt_lowBoot hboot
  have created : step (start v') .createUserPml4 = some s := by
    obtain ⟨t, ht, hs⟩ := Option.bind_eq_some_iff.mp hrun
    exact ht.trans hs
  have moved : Moves R noPages noFrames (start v') s := sound.createUserPml4 hg created
  have null := (boot_nullPage tablesAt_lowBoot (by decide) hboot).moves moved
  have left : Plenty 198 s.vmm.pmm := by
    have := (createUserPml4_plenty (plenty.mono (by decide))).2
    cases created
    exact plenty.after this
  have private_ : ¬ Shared 0x600000000#64 := by decide
  have success := moved.sound.mapPageInto_succeeds null hp private_
    (fun q hq => left q (hq.mono (by decide))) 0 (userFlags true)
  obtain ⟨mapping, entry, -⟩ := moved.sound.mapPageInto hg hp 0x600000000#64 0 true
  have entry := entry success
  generalize hw : mapPageInto s.vmm 0x605000#64 0x600000000#64 0 (userFlags true) = r at *
  have mapped : step s (.mapPageInto 0x605000#64 0x600000000#64 0 true) =
      some { s with vmm := r.2 } := by
    simp only [Kernel.step, if_pos hp, hw]
  have done : step { s with vmm := r.2 } (.ntProtectVm 0x605000#64 0x600000000#64 0#64 2#64) =
      some { s with vmm := ntProtectVm r.2 0x605000#64 0x600000000#64 0#64 2#64 } := by
    simp only [Kernel.step, if_pos hp]
  have effect := mapping.sound.ntProtectVm hp (by decide) done
  refine ⟨v', _, _, hboot, ?_, done, ?_, ?_, ?_⟩
  · simp only [run, created, mapped, Option.bind_some]
  · rintro ⟨o, below, -⟩
    exact absurd below (BitVec.not_lt_zero)
  · rw [userWrites, mapping.sound.userCan_private hg hp private_ true]
    simp only [entry, leafEntry_present, (leafEntry_bits _ _).2.2]
    rfl
  · rw [userWrites, ((mapping.sound.step hg done)).userCan_private hg hp private_ true,
      effect.inside _ (.inr ⟨rfl, rfl⟩)]
    simp only [entry, protectEntry, leafEntry_present, (leafEntry_bits _ _).2.2, if_true]
    decide

end MicroNT.Kernel
