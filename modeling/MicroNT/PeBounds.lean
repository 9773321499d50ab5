import Mathlib.Data.Set.Finite.Basic
import Mathlib.Order.Filter.Finite
import MicroNT.PeExports
import MicroNT.PeIsolation
import MicroNT.VirtualMemoryMap

/-! # When the PE loader stays inside a file

The loader checks the size of a file once, against 64. From then on it follows the
offsets that it finds. It stays inside the file exactly as long as everything that
it comes to lies there, and ends as long as the tables it walks through end. -/

namespace MicroNT.Kernel

open Filter
open MicroNT.PMM hiding step Op System
open MicroNT.VMM MicroNT.Base.Reads MicroNT.Base.Reads.Traced
open FileReads (Text)

namespace FileReads

/-! ## Mapping -/

section

variable {f : Image} {pml4 loadBase : u64}

@[simp] theorem inFile_headerPage {t : Table} :
    InFile (headerPage f) t ↔ t = Kernel.headerPage f := by
  have inside : FileRange.Inside ⟨f, 0, min f.size PAGE_SIZE⟩ := by
    intro k hk
    have hk : k < min f.size PAGE_SIZE := hk
    show 0 + k < f.size
    omega
  rw [InFile, headerPage, stays_read]
  exact and_iff_right inside

/-- The pages of a section are copied with a check of the file's size. -/
@[simp] theorem inFile_sectionPage {h : SectionHeader} {pg : Nat} {t : Table} :
    InFile (sectionPage f h pg) t ↔ t = Kernel.sectionPage f h pg := by
  have inside : FileRange.Inside ⟨f, h.rawOff.toNat + pg * PAGE_SIZE, sectionCopy f h pg⟩ := by
    intro k hk
    have hk : k < sectionCopy f h pg := hk
    show h.rawOff.toNat + pg * PAGE_SIZE + k < f.size
    simp only [sectionCopy] at hk
    split at hk
    case isFalse => omega
    case isTrue =>
      split at hk
      case isTrue => omega
      case isFalse => omega
  rw [InFile, sectionPage, stays_read]
  exact and_iff_right inside

theorem inFile_mapFresh {s : Vmm} {virt flags : u64} {page : FileRead Table} {t : Table}
    (ht : ∀ u, InFile page u ↔ u = t) {r : Bool × Vmm} :
    InFile (mapFresh s pml4 virt flags page) r ↔ r = Kernel.mapFresh s pml4 virt flags t := by
  rw [mapFresh, Kernel.mapFresh]
  simp only
  split
  case isTrue => rw [InFile, stays_pure]
  case isFalse =>
    simp only [stays_bind, ht, exists_eq_left]
    split
    case isTrue => rw [stays_pure]
    case isFalse => rw [stays_pure]

theorem inFile_mapPages {h : SectionHeader} {n pg : Nat} {s : Vmm} {r : Bool × Vmm} :
    InFile (mapPages f pml4 loadBase h n pg s) r ↔
      r = Kernel.mapPages f pml4 loadBase h n pg s := by
  induction n generalizing pg s with
  | zero => exact stays_pure
  | succ n ih =>
    simp only [mapPages, stays_bind, inFile_mapFresh fun u => inFile_sectionPage, exists_eq_left,
      Kernel.mapPages]
    split
    case isTrue => exact ih
    case isFalse => rw [stays_pure]

@[simp] theorem inFile_readHeader {sh : Nat} {h : SectionHeader} :
    InFile (readHeader f sh) h ↔ sh + 40 ≤ f.size ∧ h = sectionAt f.bytes sh := by
  simp only [readHeader, stays_bind, inFile_readU32, stays_pure]
  constructor
  · rintro ⟨_, ⟨-, rfl⟩, _, ⟨-, rfl⟩, _, ⟨-, rfl⟩, _, ⟨-, rfl⟩, _, ⟨last, rfl⟩, rfl⟩
    exact ⟨last, rfl⟩
  · rintro ⟨last, rfl⟩
    exact ⟨_, ⟨by omega, rfl⟩, _, ⟨by omega, rfl⟩, _, ⟨by omega, rfl⟩, _, ⟨by omega, rfl⟩,
      _, ⟨by omega, rfl⟩, rfl⟩

theorem inFile_mapSectionList {shdrs n s : Nat}
    (table : ∀ t, t < n → shdrs + (s + t) * 40 + 40 ≤ f.size) (v : Vmm) :
    InFile (mapSectionList f pml4 loadBase shdrs n s v)
      (Kernel.mapSectionList f pml4 loadBase (headersFrom f shdrs s n) v) := by
  induction n generalizing s v with
  | zero => exact stays_pure.mpr rfl
  | succ n ih =>
    have here : shdrs + s * 40 + 40 ≤ f.size := table 0 (by omega)
    have name : shdrs + s * 40 + 8 ≤ f.size := Nat.le_trans (by omega) here
    have rest : ∀ t, t < n → shdrs + (s + 1 + t) * 40 + 40 ≤ f.size := fun t ht => by
      rw [show s + 1 + t = s + (t + 1) by omega]
      exact table (t + 1) (by omega)
    simp only [mapSectionList, stays_bind, inFile_readHeader, here, true_and, exists_eq_left,
      headersFrom_succ, Kernel.mapSectionList]
    split
    case isTrue =>
      simp only [stays_bind, inFile_readU64, name, inFile_mapPages, true_and, exists_eq_left]
      split
      case isTrue => exact ih rest _
      case isFalse => exact stays_pure.mpr rfl
    case isFalse => exact ih rest v

theorem mapSectionList_eq {shdrs n s : Nat} {v : Vmm} {r : Bool × Vmm}
    (h : InFile (mapSectionList f pml4 loadBase shdrs n s v) r) :
    r = Kernel.mapSectionList f pml4 loadBase (headersFrom f shdrs s n) v := by
  induction n generalizing s v with
  | zero => exact stays_pure.mp h
  | succ n ih =>
    simp only [mapSectionList, stays_bind, inFile_readHeader] at h
    obtain ⟨_, ⟨-, rfl⟩, h⟩ := h
    rw [headersFrom_succ, Kernel.mapSectionList]
    split at h
    case isFalse hm =>
      rw [if_neg hm]
      exact ih h
    case isTrue hm =>
      simp only [stays_bind, inFile_mapPages] at h
      obtain ⟨_, -, _, rfl, h⟩ := h
      rw [if_pos hm]
      split at h
      case isTrue hr =>
        rw [if_pos hr]
        exact ih h
      case isFalse hr =>
        rw [if_neg hr]
        exact stays_pure.mp h

/-- Unless memory runs short, `MapSections` reads the whole table. -/
theorem mapSectionList_needs {shdrs n s : Nat} {v : Vmm} {r : Bool × Vmm}
    (h : InFile (mapSectionList f pml4 loadBase shdrs n s v) r) (hr : r.1 = true) :
    ∀ t, t < n → shdrs + (s + t) * 40 + 40 ≤ f.size := by
  induction n generalizing s v with
  | zero => exact fun t ht => absurd ht (Nat.not_lt_zero t)
  | succ n ih =>
    simp only [mapSectionList, stays_bind, inFile_readHeader] at h
    obtain ⟨_, ⟨here, rfl⟩, h⟩ := h
    have rest : ∃ w, InFile (mapSectionList f pml4 loadBase shdrs n (s + 1) w) r := by
      split at h
      case isFalse => exact ⟨v, h⟩
      case isTrue =>
        simp only [stays_bind, inFile_mapPages] at h
        obtain ⟨_, -, _, rfl, h⟩ := h
        split at h
        case isTrue => exact ⟨_, h⟩
        case isFalse =>
          rw [stays_pure.mp h] at hr
          cases hr
    obtain ⟨w, hw⟩ := rest
    intro t ht
    cases t with
    | zero => exact here
    | succ t =>
      rw [show s + (t + 1) = s + 1 + t by omega]
      exact ih hw t (by omega)

theorem inFile_mapSections (header : optOff f.bytes ≤ f.size) (size : 64 ≤ f.size)
    (table : f.HasTable) (s : Vmm) :
    InFile (mapSections f pml4 loadBase s) (Kernel.mapSections f pml4 loadBase s) := by
  have header : (u32At f.bytes 60).toNat + 4 + 20 ≤ f.size := header
  have h4 : (u32At f.bytes 60).toNat + 4 + 2 + 2 ≤ f.size := by omega
  have h16 : (u32At f.bytes 60).toNat + 4 + 16 + 2 ≤ f.size := by omega
  have h60 : 60 + 4 ≤ f.size := size
  have list : ∀ v, InFile (mapSectionList f pml4 loadBase
      (optOff f.bytes + (u16At f.bytes (peOff f.bytes + 4 + 16)).toNat) (sectionCount f.bytes) 0 v)
      (Kernel.mapSectionList f pml4 loadBase (headersFrom f
        (optOff f.bytes + (u16At f.bytes (peOff f.bytes + 4 + 16)).toNat) 0
          (sectionCount f.bytes)) v) :=
    inFile_mapSectionList fun t ht => by rw [Nat.zero_add]; exact table t ht
  rw [headersFrom_all] at list
  simp only [mapSections, stays_bind, inFile_readU32, inFile_readU16, h60, true_and, exists_eq_left,
    h4, h16, inFile_mapFresh fun u => inFile_headerPage, Kernel.mapSections]
  split
  case isTrue => exact list _
  case isFalse => exact stays_pure.mpr rfl

theorem mapSections_eq {s : Vmm} {r : Bool × Vmm} (h : InFile (mapSections f pml4 loadBase s) r) :
    r = Kernel.mapSections f pml4 loadBase s := by
  simp only [mapSections, stays_bind, inFile_readU32, inFile_readU16,
    inFile_mapFresh fun u => inFile_headerPage] at h
  obtain ⟨_, ⟨-, rfl⟩, _, ⟨-, rfl⟩, _, ⟨-, rfl⟩, _, rfl, h⟩ := h
  rw [Kernel.mapSections]
  split at h
  case isFalse hr =>
    rw [if_neg hr]
    exact stays_pure.mp h
  case isTrue hr =>
    rw [if_pos hr, ← headersFrom_all]
    exact mapSectionList_eq h

theorem mapSections_needs {s : Vmm} {r : Bool × Vmm}
    (h : InFile (mapSections f pml4 loadBase s) r) (hr : r.1 = true) : f.HasTable := by
  simp only [mapSections, stays_bind, inFile_readU32, inFile_readU16,
    inFile_mapFresh fun u => inFile_headerPage] at h
  obtain ⟨_, ⟨-, rfl⟩, _, ⟨-, rfl⟩, _, ⟨-, rfl⟩, _, rfl, h⟩ := h
  split at h
  case isFalse =>
    rw [stays_pure.mp h] at hr
    cases hr
  case isTrue =>
    intro s hs
    have here := mapSectionList_needs h hr s hs
    rw [Nat.zero_add] at here
    exact here

end

end FileReads

/-! ## Imports -/

namespace Image

section

variable (f : Image) (m : Module) (mods : List Module) (d : ImportDescriptor)

def dllName : Text := .file f (rvaToOff f.bytes d.dllRva).toNat

/-- Where slot `k` has the name of its function, after a hint of two bytes. -/
def ibnOff (k : Nat) : u32 := rvaToOff f.bytes ((thunkAt f.bytes d k).setWidth 32)

def importName (k : Nat) : Text := .file f ((f.ibnOff d k).toNat + 2)

/-- Slot `k` imports a function by a name that the loader comes to. -/
structure ByName (k : Nat) : Prop where
  some : thunkAt f.bytes d k ≠ 0
  name : thunkAt f.bytes d k >>> 63 = 0
  off : f.ibnOff d k ≠ 0

/-- Slot `k` is not the last one, nor does it miss its function. -/
def Resolved (k : Nat) : Prop :=
  thunkAt f.bytes d k ≠ 0 ∧ (f.ByName d k → m.exportVa (f.importName d k) ≠ 0)

/-- What the loader reads for slot `k` lies in the files. -/
structure SlotIn (k : Nat) : Prop where
  thunk : (d.thunks f.bytes).toNat + (stride k 8).toNat + 8 ≤ f.size
  name : f.ByName d k → (f.importName d k).Terminated
  searched : f.ByName d k → m.Searched (f.importName d k)

/-- From slot `i` on, the loop over the slots ends with slot `n`, inside the files. -/
structure SlotsEnd (i n : Nat) : Prop where
  start : i ≤ n
  last : ¬ f.Resolved m d n
  before : ∀ k, i ≤ k → k < n → f.Resolved m d k
  within : ∀ k, i ≤ k → k ≤ n → f.SlotIn m d k

/-- The descriptor is not the last one, and the loader gets past it. -/
def Passed : Prop :=
  ¬ d.Last ∧ (rvaToOff f.bytes d.dllRva ≠ 0 → ∃ m, moduleNamed mods (f.dllName d) = some m ∧
    (d.thunks f.bytes ≠ 0 → ∃ n, (∀ k, k < n → f.Resolved m d k) ∧ thunkAt f.bytes d n = 0))

/-- What the loader reads for import descriptor `idx` lies in the files. -/
structure DescriptorIn (idx : Nat) : Prop where
  entry : (rvaToOff f.bytes (importRva f.bytes)).toNat + (stride idx 20).toNat + 20 ≤ f.size
  dll : ¬ (importAt f.bytes idx).Last → rvaToOff f.bytes (importAt f.bytes idx).dllRva ≠ 0 →
    (f.dllName (importAt f.bytes idx)).Terminated
  slots : ¬ (importAt f.bytes idx).Last → rvaToOff f.bytes (importAt f.bytes idx).dllRva ≠ 0 →
    ∀ m, moduleNamed mods (f.dllName (importAt f.bytes idx)) = some m →
      (importAt f.bytes idx).thunks f.bytes ≠ 0 → ∃ n, f.SlotsEnd m (importAt f.bytes idx) 0 n

theorem SlotsEnd.unique {f : Image} {m : Module} {d : ImportDescriptor} {i n n' : Nat}
    (h : f.SlotsEnd m d i n) (h' : f.SlotsEnd m d i n') : n = n' := by
  rcases Nat.lt_trichotomy n n' with hlt | heq | hlt
  · exact absurd (h'.before n h.start hlt) h.last
  · exact heq
  · exact absurd (h.before n' h'.start hlt) h'.last

/-- From number `i` on, the loop over the import descriptors ends with number `n`,
inside the files. -/
structure ImportsEnd (i n : Nat) : Prop where
  start : i ≤ n
  last : ¬ f.Passed mods (importAt f.bytes n)
  before : ∀ k, i ≤ k → k < n → f.Passed mods (importAt f.bytes k)
  within : ∀ k, i ≤ k → k ≤ n → f.DescriptorIn mods k

end

end Image

namespace FileReads

section

variable {f : Image} {m : Module} {mods : List Module} {d : ImportDescriptor} {dll : Text}
  {lookup : u32 → FileRead u32} {pml4 loadBase : u64} {fuel : Nat}
  (hl : ∀ rva r, InFile (lookup rva) r ↔ r = Kernel.rvaToOff f.bytes rva)
include hl

theorem patchSlots_ends {n slot j : Nat} {s : Vmm} (ends : f.SlotsEnd m d slot j)
    (ready : ∀ k, k ≤ j → f.ByName d k →
      InFile (findExport fuel m (f.importName d k)) (m.exportVa (f.importName d k)) ∧
        InFile (printStr (f.importName d k) fuel 0) ())
    (hdll : InFile (printStr dll fuel 0) ()) (hn : j < slot + n) :
    ∃ r, InFile (patchSlots fuel f m dll lookup pml4 loadBase (d.thunks f.bytes) d.iatRva n slot s)
      r ∧ (r.1 = .success → thunkAt f.bytes d j = 0) := by
  induction n generalizing slot s with
  | zero => exact absurd ends.start (by omega)
  | succ n ih =>
    have here := (ends.within slot le_rfl ends.start).thunk
    -- the loop goes on with the next slot, if this one is resolved
    have next : f.Resolved m d slot → ∀ t, ∃ r, InFile (patchSlots fuel f m dll lookup pml4 loadBase
        (d.thunks f.bytes) d.iatRva n (slot + 1) t) r ∧
          (r.1 = .success → thunkAt f.bytes d j = 0) := by
      intro resolved t
      have hne : slot ≠ j := by
        rintro rfl
        exact ends.last resolved
      have start := ends.start
      exact ih ⟨by omega, ends.last, fun k h1 h2 => ends.before k (by omega) h2,
        fun k h1 h2 => ends.within k (by omega) h2⟩ (by omega)
    simp only [patchSlots, stays_bind, inFile_readU64, here, true_and, exists_eq_left, stays_ite, hl,
      stays_pure]
    by_cases zero : thunkAt f.bytes d slot = 0
    · have hj : slot = j := by
        by_contra hne
        exact (ends.before slot le_rfl (Nat.lt_of_le_of_ne ends.start hne)).1 zero
      exact ⟨(.success, s), .inl ⟨zero, rfl⟩, fun _ => hj ▸ zero⟩
    by_cases ordinal : thunkAt f.bytes d slot >>> 63 ≠ 0
    · obtain ⟨r, hr, hs⟩ := next ⟨zero, fun named => absurd named.name ordinal⟩ s
      exact ⟨r, .inr ⟨zero, .inl ⟨ordinal, hr⟩⟩, hs⟩
    by_cases off : f.ibnOff d slot = 0
    · obtain ⟨r, hr, hs⟩ := next ⟨zero, fun named => absurd off named.off⟩ s
      exact ⟨r, .inr ⟨zero, .inr ⟨ordinal, .inl ⟨off, hr⟩⟩⟩, hs⟩
    have byName : f.ByName d slot := ⟨zero, not_not.mp ordinal, off⟩
    obtain ⟨found, print⟩ := ready slot ends.start byName
    by_cases va : m.exportVa (f.importName d slot) = 0
    · refine ⟨(.notFound, s), .inr ⟨zero, .inr ⟨ordinal, .inr ⟨off, _, found,
        .inl ⟨va, (), print, (), hdll, rfl⟩⟩⟩⟩, fun h => ?_⟩
      cases h
    cases hp : (patchIatSlot s pml4 (iatSlotVa loadBase d slot)
      (m.exportVa (f.importName d slot))).1 with
    | true =>
      obtain ⟨r, hr, hs⟩ := next ⟨zero, fun _ => va⟩
        (patchIatSlot s pml4 (iatSlotVa loadBase d slot) (m.exportVa (f.importName d slot))).2
      exact ⟨r, .inr ⟨zero, .inr ⟨ordinal, .inr ⟨off, _, found,
        .inr ⟨va, .inl ⟨hp, (), print, hr⟩⟩⟩⟩⟩, hs⟩
    | false =>
      refine ⟨_, .inr ⟨zero, .inr ⟨ordinal, .inr ⟨off, _, found,
        .inr ⟨va, .inr ⟨fun h => ?_, rfl⟩⟩⟩⟩⟩, fun h => ?_⟩
      · rw [iatSlotVa] at hp
        rw [hp] at h
        cases h
      · cases h

theorem patchSlots_needs {n slot : Nat} {s : Vmm} {r : Status × Vmm}
    (h : InFile (patchSlots fuel f m dll lookup pml4 loadBase (d.thunks f.bytes) d.iatRva n slot s) r)
    (hr : r.1 ≠ .insufficientResources) :
    ∃ j, f.SlotsEnd m d slot j ∧ (r.1 = .success ↔ thunkAt f.bytes d j = 0) := by
  induction n generalizing slot s with
  | zero => exact absurd h stays_running
  | succ n ih =>
    simp only [patchSlots, stays_bind, inFile_readU64, stays_ite, hl, stays_pure] at h
    obtain ⟨_, ⟨here, rfl⟩, h⟩ := h
    -- this slot ends the loop
    have ends : ¬ f.Resolved m d slot → f.SlotIn m d slot →
        (r.1 = .success ↔ thunkAt f.bytes d slot = 0) →
        ∃ j, f.SlotsEnd m d slot j ∧ (r.1 = .success ↔ thunkAt f.bytes d j = 0) := by
      intro last within zero
      refine ⟨slot, ⟨le_rfl, last, fun k h1 h2 => by omega, fun k h1 h2 => ?_⟩, zero⟩
      obtain rfl : k = slot := by omega
      exact within
    -- the loop goes on
    have next : ∀ t, f.Resolved m d slot → f.SlotIn m d slot →
        InFile (patchSlots fuel f m dll lookup pml4 loadBase (d.thunks f.bytes) d.iatRva n (slot + 1)
          t) r →
        ∃ j, f.SlotsEnd m d slot j ∧ (r.1 = .success ↔ thunkAt f.bytes d j = 0) := by
      intro t resolved within rest
      obtain ⟨j, tail, zero⟩ := ih rest
      have start := tail.start
      refine ⟨j, ⟨by omega, tail.last, fun k h1 h2 => ?_, fun k h1 h2 => ?_⟩, zero⟩
      · by_cases hk : k = slot
        · exact hk ▸ resolved
        · exact tail.before k (by omega) h2
      · by_cases hk : k = slot
        · exact hk ▸ within
        · exact tail.within k (by omega) h2
    have unnamed : ¬ f.ByName d slot → f.SlotIn m d slot := fun not =>
      ⟨here, fun named => absurd named not, fun named => absurd named not⟩
    rcases h with ⟨zero, rfl⟩ | ⟨some, h⟩
    · exact ends (fun res => res.1 zero) (unnamed fun named => named.some zero)
        ⟨fun _ => zero, fun _ => rfl⟩
    rcases h with ⟨ordinal, h⟩ | ⟨name, h⟩
    · have not : ¬ f.ByName d slot := fun named => ordinal named.name
      exact next s ⟨some, fun named => absurd named not⟩ (unnamed not) h
    obtain ⟨_, rfl, h⟩ := h
    rcases h with ⟨zero, h⟩ | ⟨off, h⟩
    · have not : ¬ f.ByName d slot := fun named => named.off zero
      exact next s ⟨some, fun named => absurd named not⟩ (unnamed not) h
    obtain ⟨_, found, h⟩ := h
    obtain ⟨searched, rfl⟩ := findExport_needs found
    have byName : f.ByName d slot := ⟨some, not_not.mp name, off⟩
    have within : InFile (printStr (f.importName d slot) fuel 0) () → f.SlotIn m d slot := fun print =>
      ⟨here, fun _ => printStr_terminated print, fun _ => searched⟩
    rcases h with ⟨zero, _, print, _, -, rfl⟩ | ⟨va, h⟩
    · refine ends (fun res => res.2 byName zero) (within print) ⟨fun success => ?_, fun none => absurd none some⟩
      cases success
    rcases h with ⟨-, _, print, h⟩ | ⟨-, rfl⟩
    · exact next _ ⟨some, fun _ => va⟩ (within print) h
    · exact absurd rfl hr

/-! ### Descriptors -/

/-- With enough rounds, the loop over the slots of a descriptor ends. -/
theorem slots_ready {j : Nat} (ends : f.SlotsEnd m d 0 j) (hdll : dll.Terminated) :
    ∀ᶠ fuel in atTop, ∀ s, ∃ r, InFile (patchSlots fuel f m dll lookup pml4 loadBase
      (d.thunks f.bytes) d.iatRva fuel 0 s) r ∧ (r.1 = .success → thunkAt f.bytes d j = 0) := by
  have names : ∀ᶠ fuel in atTop, ∀ k ∈ {k | k ≤ j}, f.ByName d k →
      InFile (findExport fuel m (f.importName d k)) (m.exportVa (f.importName d k)) ∧
        InFile (printStr (f.importName d k) fuel 0) () := by
    refine (eventually_all_finite (Set.finite_le_nat j)).mpr fun k hk => ?_
    have slot := ends.within k (Nat.zero_le k) hk
    by_cases named : f.ByName d k
    case neg => exact Eventually.of_forall fun fuel h => absurd h named
    case pos =>
      filter_upwards [findExport_ends (slot.name named) (slot.searched named),
        (slot.name named).printStr] with fuel found print
      exact fun _ => ⟨found, print⟩
  filter_upwards [names, hdll.printStr, eventually_gt_atTop j] with fuel ready print hfuel
  exact fun s => patchSlots_ends hl ends ready print (by omega)

/-- The loop over the descriptors at one number of rounds, if these suffice for the
strings and the slots that it comes to. -/
theorem resolveDescriptors_ends {n idx j : Nat} {s : Vmm} (ends : f.ImportsEnd mods idx j)
    (names : ∀ k, k ≤ j → (f.dllName (importAt f.bytes k)).Terminated →
      InFile (printStr (f.dllName (importAt f.bytes k)) fuel 0) () ∧
        InFile (findModule fuel (f.dllName (importAt f.bytes k)) mods)
          (moduleNamed mods (f.dllName (importAt f.bytes k))))
    (slots : ∀ k, k ≤ j → ∀ m i, f.SlotsEnd m (importAt f.bytes k) 0 i →
      (f.dllName (importAt f.bytes k)).Terminated →
      moduleNamed mods (f.dllName (importAt f.bytes k)) = some m →
      ∀ t, ∃ r, InFile (patchSlots fuel f m (f.dllName (importAt f.bytes k)) lookup pml4 loadBase
        ((importAt f.bytes k).thunks f.bytes) (importAt f.bytes k).iatRva fuel 0 t) r ∧
          (r.1 = .success → thunkAt f.bytes (importAt f.bytes k) i = 0)) (hn : j < idx + n) :
    Ends FileRange.Inside (resolveDescriptors fuel f mods lookup pml4 loadBase
      (Kernel.rvaToOff f.bytes (importRva f.bytes)) n idx s) := by
  induction n generalizing idx s with
  | zero => exact absurd ends.start (by omega)
  | succ n ih =>
    have here := ends.within idx le_rfl ends.start
    have entry := here.entry
    have next : f.Passed mods (importAt f.bytes idx) → ∀ t, Ends FileRange.Inside
        (resolveDescriptors fuel f mods lookup pml4 loadBase
          (Kernel.rvaToOff f.bytes (importRva f.bytes)) n (idx + 1) t) := by
      intro passed t
      have hne : idx ≠ j := by
        rintro rfl
        exact ends.last passed
      have start := ends.start
      exact ih ⟨by omega, ends.last, fun k h1 h2 => ends.before k (by omega) h2,
        fun k h1 h2 => ends.within k (by omega) h2⟩ (by omega)
    simp only [resolveDescriptors, ends_bind, inFile_readU32, ends_ite, hl, ends_pure, and_assoc,
      exists_and_left, exists_eq_left, and_true]
    refine ⟨by omega, by omega, entry, ?_⟩
    by_cases last : (importAt f.bytes idx).Last
    · exact .inl last
    refine .inr ⟨last, ?_⟩
    by_cases off : Kernel.rvaToOff f.bytes (importAt f.bytes idx).dllRva = 0
    · exact .inl ⟨off, next ⟨last, fun h => absurd off h⟩ s⟩
    have text := here.dll last off
    obtain ⟨print, find⟩ := names idx ends.start text
    refine .inr ⟨off, (), print, _, find, ?_⟩
    cases hm : moduleNamed mods (f.dllName (importAt f.bytes idx)) with
    | none =>
      simp only [ends_bind, ends_pure, and_true]
      exact ⟨(), print⟩
    | some m =>
      simp only [ends_bind, ends_ite, hl, exists_eq_left, ends_pure, and_true]
      by_cases thunks : (importAt f.bytes idx).thunks f.bytes = 0
      · exact .inl ⟨thunks, next ⟨last, fun _ => ⟨m, hm, fun h => absurd thunks h⟩⟩ s⟩
      obtain ⟨i, hi⟩ := here.slots last off m hm thunks
      obtain ⟨r, hr, zero⟩ := slots idx ends.start m i hi text hm s
      refine .inr ⟨thunks, r, hr, ?_⟩
      by_cases success : r.1 = .success
      · exact .inl ⟨success, next ⟨last, fun _ => ⟨m, hm, fun _ =>
          ⟨i, fun k hk => hi.before k (Nat.zero_le k) hk, zero success⟩⟩⟩ r.2⟩
      · exact .inr success

theorem resolveDescriptors_needs {n idx : Nat} {s : Vmm} {r : Status × Vmm}
    (h : InFile (resolveDescriptors fuel f mods lookup pml4 loadBase
      (Kernel.rvaToOff f.bytes (importRva f.bytes)) n idx s) r)
    (hr : r.1 ≠ .insufficientResources) : ∃ j, f.ImportsEnd mods idx j := by
  induction n generalizing idx s with
  | zero => exact absurd h stays_running
  | succ n ih =>
    simp only [resolveDescriptors, stays_bind, inFile_readU32, stays_ite, hl, stays_pure] at h
    obtain ⟨_, ⟨-, rfl⟩, _, ⟨-, rfl⟩, _, ⟨entry, rfl⟩, h⟩ := h
    have ends : ¬ f.Passed mods (importAt f.bytes idx) → f.DescriptorIn mods idx →
        ∃ j, f.ImportsEnd mods idx j := by
      intro last within
      refine ⟨idx, ⟨le_rfl, last, fun k h1 h2 => by omega, fun k h1 h2 => ?_⟩⟩
      obtain rfl : k = idx := by omega
      exact within
    have next : ∀ t, f.Passed mods (importAt f.bytes idx) → f.DescriptorIn mods idx →
        InFile (resolveDescriptors fuel f mods lookup pml4 loadBase
          (Kernel.rvaToOff f.bytes (importRva f.bytes)) n (idx + 1) t) r →
        ∃ j, f.ImportsEnd mods idx j := by
      intro t passed within rest
      obtain ⟨j, tail⟩ := ih rest
      have start := tail.start
      refine ⟨j, ⟨by omega, tail.last, fun k h1 h2 => ?_, fun k h1 h2 => ?_⟩⟩
      · by_cases hk : k = idx
        · exact hk ▸ passed
        · exact tail.before k (by omega) h2
      · by_cases hk : k = idx
        · exact hk ▸ within
        · exact tail.within k (by omega) h2
    rcases h with ⟨last, rfl⟩ | ⟨last, _, rfl, h⟩
    · exact ends (fun passed => passed.1 last)
        ⟨entry, fun h => absurd last h, fun h => absurd last h⟩
    rcases h with ⟨off, h⟩ | ⟨off, _, print, _, find, h⟩
    · exact next s ⟨last, fun h => absurd off h⟩
        ⟨entry, fun _ h => absurd off h, fun _ h => absurd off h⟩ h
    have text := printStr_terminated print
    rw [findModule_named find] at h
    cases hm : moduleNamed mods (f.dllName (importAt f.bytes idx)) with
    | none =>
      refine ends (fun passed => ?_) ⟨entry, fun _ _ => text, fun _ _ m h => ?_⟩
      · obtain ⟨m, h, -⟩ := passed.2 off
        rw [hm] at h
        cases h
      · rw [hm] at h
        cases h
    | some m =>
      have only : ∀ m', moduleNamed mods (f.dllName (importAt f.bytes idx)) = some m' → m' = m :=
        fun m' h => Option.some.inj (h.symm.trans hm)
      have same : moduleNamed mods (Text.file f
          (Kernel.rvaToOff f.bytes (importAt f.bytes idx).dllRva).toNat) = some m := hm
      simp only [importAt] at same
      rw [same] at h
      simp only [stays_bind, stays_ite, hl, exists_eq_left, stays_pure] at h
      rcases h with ⟨thunks, h⟩ | ⟨thunks, q, hq, h⟩
      · exact next s ⟨last, fun _ => ⟨m, hm, fun h => absurd thunks h⟩⟩
          ⟨entry, fun _ _ => text, fun _ _ m' _ h => absurd thunks h⟩ h
      have hq' : q.1 ≠ .insufficientResources := by
        rcases h with ⟨success, -⟩ | ⟨-, rfl⟩
        · rw [success]
          decide
        · exact hr
      obtain ⟨i, hi, zero⟩ := patchSlots_needs (d := importAt f.bytes idx) hl hq hq'
      have within : f.DescriptorIn mods idx := by
        refine ⟨entry, fun _ _ => text, fun _ _ m' h _ => ?_⟩
        obtain rfl := only m' h
        exact ⟨i, hi⟩
      rcases h with ⟨success, h⟩ | ⟨failed, rfl⟩
      · exact next q.2 ⟨last, fun _ => ⟨m, hm, fun _ =>
          ⟨i, fun k hk => hi.before k (Nat.zero_le k) hk, zero.mp success⟩⟩⟩ within h
      · refine ends (fun passed => failed (zero.mpr ?_)) within
        obtain ⟨m', hm', h⟩ := passed.2 off
        obtain rfl := only m' hm'
        obtain ⟨k, before, none⟩ := h thunks
        -- the first slot without a thunk is the one that the loop ends with
        have hk : k = i := by
          rcases Nat.lt_trichotomy k i with hlt | heq | hlt
          · exact absurd none (hi.before k (Nat.zero_le k) hlt).1
          · exact heq
          · exact absurd (before i hlt) hi.last
        exact hk ▸ none

end

end FileReads

/-! ## Loading -/

/-- The checks on the headers stay in the file, up to the first one that fails. -/
def Image.HeaderIn (f : Image) : Prop :=
  f.bytes 0 = 0x4D → f.bytes 1 = 0x5A → peOff f.bytes + 1 ≤ f.size ∧
    (f.bytes (peOff f.bytes) = 0x50 → peNext f.bytes + 1 ≤ f.size ∧
      (f.bytes (peNext f.bytes) = 0x45 → peOff f.bytes + 4 + 2 ≤ f.size ∧
        (u16At f.bytes (peOff f.bytes + 4) = 0x8664#16 → optOff f.bytes + 2 ≤ f.size)))

/-- All that `LoadPe` comes to lies in the file and in the files of the modules, and
the tables of imports end. -/
structure Image.Bounded (f : Image) (mods : List Module) : Prop where
  header : f.HeaderIn
  optional : f.Accepted → optOff f.bytes + 124 ≤ f.size
  table : f.Accepted → f.HasTable
  imports : f.Accepted → importRva f.bytes ≠ 0 → rvaToOff f.bytes (importRva f.bytes) ≠ 0 →
    ∃ n, f.ImportsEnd mods 0 n

namespace FileReads

section

variable {f : Image} {mods : List Module} {pml4 loadBase : u64}

theorem inFile_checkHeaders (size : 64 ≤ f.size) {r : Option Nat} :
    InFile (checkHeaders f) r ↔
      f.HeaderIn ∧ r = if f.Accepted then some (optOff f.bytes) else none := by
  have h0 : 0 + 1 ≤ f.size := by omega
  have h1 : 1 + 1 ≤ f.size := by omega
  have h60 : 60 + 4 ≤ f.size := size
  have e : (u32At f.bytes 60).toNat = peOff f.bytes := rfl
  have next : (u32At f.bytes 60 + 1#32).toNat = peNext f.bytes := rfl
  have opt : peOff f.bytes + 4 + 20 = optOff f.bytes := rfl
  simp only [checkHeaders, stays_bind, inFile_readU8, inFile_readU16, inFile_readU32, h0, h1, h60,
    true_and, exists_eq_left, and_assoc, exists_and_left, stays_ite, stays_pure, e, next, opt,
    Image.HeaderIn, Image.Accepted]
  by_cases m : f.bytes 0 = 0x4D#8
  case neg => simp [m]
  by_cases z : f.bytes 1 = 0x5A#8
  case neg => simp [m, z]
  by_cases p : f.bytes (peOff f.bytes) = 0x50#8
  case neg => simp [m, z, p]
  by_cases e : f.bytes (peNext f.bytes) = 0x45#8
  case neg => simp [m, z, p, e, and_assoc]
  by_cases a : u16At f.bytes (peOff f.bytes + 4) = 0x8664#16
  case neg => simp [m, z, p, e, a, and_assoc]
  by_cases w : u16At f.bytes (optOff f.bytes) = 0x020B#16
  case neg => simp [m, z, p, e, a, w, and_assoc]
  case pos => simp [m, z, p, e, a, w, and_assoc]

theorem resolveImports_needs {fuel : Nat} {s : Vmm} {r : Status × Vmm} (table : f.HasTable)
    (h : InFile (resolveImports fuel f mods pml4 loadBase s) r)
    (hr : r.1 ≠ .insufficientResources) :
    optOff f.bytes + 124 ≤ f.size ∧ (importRva f.bytes ≠ 0 →
      Kernel.rvaToOff f.bytes (importRva f.bytes) ≠ 0 → ∃ n, f.ImportsEnd mods 0 n) := by
  have lookup : ∀ rva r, InFile (rvaToOff f
      (optOff f.bytes + (u16At f.bytes (peOff f.bytes + 4 + 16)).toNat) rva
        (sectionCount f.bytes) 0) r ↔ r = Kernel.rvaToOff f.bytes rva :=
    fun rva r => inFile_lookup.trans (and_iff_right (table.looksUp rva))
  simp only [resolveImports, stays_bind, inFile_readU16, inFile_readU32, stays_ite, stays_pure] at h
  obtain ⟨_, ⟨-, rfl⟩, _, ⟨-, rfl⟩, _, ⟨-, rfl⟩, _, ⟨optional, rfl⟩, h⟩ := h
  refine ⟨optional, fun rva off => ?_⟩
  rcases h with ⟨none, -⟩ | ⟨-, o, ho, h⟩
  · exact absurd none rva
  obtain rfl := (lookup _ _).mp ho
  rcases h with ⟨none, -⟩ | ⟨-, h⟩
  · exact absurd none off
  exact resolveDescriptors_needs lookup h hr

theorem resolveImports_ends (table : f.HasTable) (optional : optOff f.bytes + 124 ≤ f.size)
    (imports : importRva f.bytes ≠ 0 → Kernel.rvaToOff f.bytes (importRva f.bytes) ≠ 0 →
      ∃ n, f.ImportsEnd mods 0 n) :
    ∀ᶠ fuel in atTop, ∀ s, Ends FileRange.Inside (resolveImports fuel f mods pml4 loadBase s) := by
  have lookup : ∀ rva r, InFile (rvaToOff f
      (optOff f.bytes + (u16At f.bytes (peOff f.bytes + 4 + 16)).toNat) rva
        (sectionCount f.bytes) 0) r ↔ r = Kernel.rvaToOff f.bytes rva :=
    fun rva r => inFile_lookup.trans (and_iff_right (table.looksUp rva))
  have loop : ∀ᶠ fuel in atTop, importRva f.bytes ≠ 0 →
      Kernel.rvaToOff f.bytes (importRva f.bytes) ≠ 0 → ∀ s, Ends FileRange.Inside
        (resolveDescriptors fuel f mods (fun rva => rvaToOff f
          (optOff f.bytes + (u16At f.bytes (peOff f.bytes + 4 + 16)).toNat) rva
            (sectionCount f.bytes) 0) pml4 loadBase
          (Kernel.rvaToOff f.bytes (importRva f.bytes)) fuel 0 s) := by
    by_cases has : importRva f.bytes ≠ 0 ∧ Kernel.rvaToOff f.bytes (importRva f.bytes) ≠ 0
    case neg => exact Eventually.of_forall fun fuel rva off => absurd ⟨rva, off⟩ has
    case pos =>
      obtain ⟨n, ends⟩ := imports has.1 has.2
      have names : ∀ᶠ fuel in atTop, ∀ k ∈ {k | k ≤ n},
          (f.dllName (importAt f.bytes k)).Terminated →
            InFile (printStr (f.dllName (importAt f.bytes k)) fuel 0) () ∧
              InFile (findModule fuel (f.dllName (importAt f.bytes k)) mods)
                (moduleNamed mods (f.dllName (importAt f.bytes k))) := by
        refine (eventually_all_finite (Set.finite_le_nat n)).mpr fun k _ => ?_
        by_cases text : (f.dllName (importAt f.bytes k)).Terminated
        case neg => exact Eventually.of_forall fun fuel h => absurd h text
        case pos =>
          filter_upwards [text.printStr, text.findModule mods] with fuel print find
          exact fun _ => ⟨print, find⟩
      have slots : ∀ᶠ fuel in atTop, ∀ k ∈ {k | k ≤ n}, ∀ m i,
          f.SlotsEnd m (importAt f.bytes k) 0 i → (f.dllName (importAt f.bytes k)).Terminated →
          moduleNamed mods (f.dllName (importAt f.bytes k)) = some m →
          ∀ t, ∃ r, InFile (patchSlots fuel f m (f.dllName (importAt f.bytes k)) (fun rva =>
            rvaToOff f (optOff f.bytes + (u16At f.bytes (peOff f.bytes + 4 + 16)).toNat) rva
              (sectionCount f.bytes) 0) pml4 loadBase ((importAt f.bytes k).thunks f.bytes)
              (importAt f.bytes k).iatRva fuel 0 t) r ∧
            (r.1 = .success → thunkAt f.bytes (importAt f.bytes k) i = 0) := by
        refine (eventually_all_finite (Set.finite_le_nat n)).mpr fun k _ => ?_
        by_cases h : ∃ m i, f.SlotsEnd m (importAt f.bytes k) 0 i ∧
          (f.dllName (importAt f.bytes k)).Terminated ∧
            moduleNamed mods (f.dllName (importAt f.bytes k)) = some m
        case neg =>
          exact Eventually.of_forall fun fuel m i h1 h2 h3 => absurd ⟨m, i, h1, h2, h3⟩ h
        case pos =>
          obtain ⟨m, i, h1, h2, h3⟩ := h
          filter_upwards [slots_ready lookup h1 h2] with fuel ready
          intro m' i' h1' _ h3'
          obtain rfl : m' = m := Option.some.inj (h3'.symm.trans h3)
          obtain rfl := h1'.unique h1
          exact ready
      filter_upwards [names, slots, eventually_gt_atTop n] with fuel names slots hfuel
      intro _ _ s
      exact resolveDescriptors_ends lookup ends names slots (by omega)
  filter_upwards [loop] with fuel loop
  intro s
  have optional : (u32At f.bytes 60).toNat + 4 + 20 + 124 ≤ f.size := optional
  simp only [resolveImports, ends_bind, inFile_readU16, inFile_readU32, ends_ite, ends_pure,
    and_assoc, exists_and_left, exists_eq_left, and_true]
  refine ⟨by omega, by omega, by omega, by omega, ?_⟩
  by_cases rva : importRva f.bytes = 0
  · exact .inl rva
  refine .inr ⟨rva, _, (lookup _ _).mpr rfl, ?_⟩
  by_cases off : Kernel.rvaToOff f.bytes (importRva f.bytes) = 0
  · exact .inl off
  · exact .inr ⟨off, loop rva off s⟩

end

section

variable {f : Image} {m : Module} {mods : List Module} {pml4 loadBase : u64} {fuel : Nat}

section

variable {d : ImportDescriptor} {dll : Text} {lookup : u32 → FileRead u32}
  (hl : ∀ rva r, InFile (lookup rva) r ↔ r = Kernel.rvaToOff f.bytes rva)
include hl

theorem patchSlots_eq {n slot : Nat} {s : Vmm} {r : Status × Vmm}
    (h : InFile (patchSlots fuel f m dll lookup pml4 loadBase (d.thunks f.bytes) d.iatRva n slot s)
      r) : Kernel.patchSlots fuel f.bytes m pml4 loadBase d n slot s = (some r.1, r.2) := by
  induction n generalizing slot s with
  | zero => exact absurd h stays_running
  | succ n ih =>
    simp only [patchSlots, stays_bind, inFile_readU64, stays_ite, hl, stays_pure] at h
    obtain ⟨_, ⟨-, rfl⟩, h⟩ := h
    rw [Kernel.patchSlots]
    simp only
    rcases h with ⟨zero, rfl⟩ | ⟨some, h⟩
    · rw [if_pos (by exact zero)]
    rw [if_neg (by exact some)]
    rcases h with ⟨ordinal, h⟩ | ⟨name, h⟩
    · rw [if_pos (by exact ordinal)]
      exact ih h
    rw [if_neg (by exact name)]
    obtain ⟨_, rfl, h⟩ := h
    rcases h with ⟨zero, h⟩ | ⟨off, _, found, h⟩
    · rw [if_pos (by exact zero)]
      exact ih h
    rw [if_neg (by exact off)]
    have va := findExport_eq found
    rcases h with ⟨zero, _, -, _, -, rfl⟩ | ⟨some, h⟩
    · rw [if_pos (by exact va.trans zero)]
    rw [if_neg (by exact fun h => some (va.symm.trans h))]
    have same : patchIatSlot s pml4 (iatSlotVa loadBase d slot) (Kernel.findExport fuel m
        (strAt f.bytes ((Kernel.rvaToOff f.bytes ((thunkAt f.bytes d slot).setWidth 32)).toNat + 2))) =
        _ := congrArg (patchIatSlot s pml4 (iatSlotVa loadBase d slot)) va
    rw [same]
    rcases h with ⟨patched, _, -, h⟩ | ⟨failed, rfl⟩
    · rw [if_pos (by exact patched)]
      exact ih h
    · rw [if_neg (by exact failed)]
      rfl

theorem resolveDescriptors_eq {n idx : Nat} {s : Vmm} {r : Status × Vmm}
    (h : InFile (resolveDescriptors fuel f mods lookup pml4 loadBase
      (Kernel.rvaToOff f.bytes (importRva f.bytes)) n idx s) r) :
    Kernel.resolveDescriptors fuel f.bytes mods pml4 loadBase n idx s = (some r.1, r.2) := by
  induction n generalizing idx s with
  | zero => exact absurd h stays_running
  | succ n ih =>
    simp only [resolveDescriptors, stays_bind, inFile_readU32, stays_ite, hl, stays_pure] at h
    obtain ⟨_, ⟨-, rfl⟩, _, ⟨-, rfl⟩, _, ⟨-, rfl⟩, h⟩ := h
    rw [Kernel.resolveDescriptors]
    simp only
    rcases h with ⟨last, rfl⟩ | ⟨last, _, rfl, h⟩
    · rw [if_pos (by exact last)]
    rw [if_neg (by exact last)]
    rcases h with ⟨off, h⟩ | ⟨off, _, -, mod, find, h⟩
    · rw [if_pos (by exact off)]
      exact ih h
    rw [if_neg (by exact off)]
    have eq : Kernel.findModule fuel mods
        (strAt f.bytes (Kernel.rvaToOff f.bytes (importAt f.bytes idx).dllRva).toNat) = mod :=
      findModule_eq find
    rw [eq]
    cases mod with
    | none =>
      simp only [stays_bind, stays_pure] at h
      obtain ⟨_, -, rfl⟩ := h
      rfl
    | some m =>
      simp only [stays_bind, stays_ite, hl, exists_eq_left, stays_pure] at h
      simp only
      rcases h with ⟨thunks, h⟩ | ⟨thunks, q, hq, h⟩
      · rw [if_pos (by exact thunks)]
        exact ih h
      rw [if_neg (by exact thunks), patchSlots_eq (d := importAt f.bytes idx) hl hq]
      rcases h with ⟨success, h⟩ | ⟨failed, rfl⟩
      · rw [if_pos (congrArg some success)]
        exact ih h
      · rw [if_neg fun h => failed (Option.some.inj h)]

end

theorem resolveImports_eq {s : Vmm} {r : Status × Vmm} (table : f.HasTable)
    (h : InFile (resolveImports fuel f mods pml4 loadBase s) r) :
    Kernel.resolveImports fuel f.bytes mods pml4 loadBase s = (some r.1, r.2) := by
  have lookup : ∀ rva r, InFile (rvaToOff f
      (optOff f.bytes + (u16At f.bytes (peOff f.bytes + 4 + 16)).toNat) rva
        (sectionCount f.bytes) 0) r ↔ r = Kernel.rvaToOff f.bytes rva :=
    fun rva r => inFile_lookup.trans (and_iff_right (table.looksUp rva))
  simp only [resolveImports, stays_bind, inFile_readU16, inFile_readU32, stays_ite, stays_pure] at h
  obtain ⟨_, ⟨-, rfl⟩, _, ⟨-, rfl⟩, _, ⟨-, rfl⟩, _, ⟨-, rfl⟩, h⟩ := h
  rw [Kernel.resolveImports]
  rcases h with ⟨none, rfl⟩ | ⟨rva, o, ho, h⟩
  · rw [if_pos (by exact none)]
  rw [if_neg (by exact rva)]
  obtain rfl := (lookup _ _).mp ho
  rcases h with ⟨none, rfl⟩ | ⟨off, h⟩
  · rw [if_pos (by exact none)]
  rw [if_neg (by exact off)]
  exact resolveDescriptors_eq lookup h

end

end FileReads

/-! ## The loader -/

section

variable {l : Loader} {f : Image} {pml4 loadBase : u64} {fuel : Nat}
  {r : Status × Option u64 × Loader}

/-- Unless memory runs short, a load that ends inside the files shows that they are
bounded. -/
theorem loadPe_needs (size : 64 ≤ f.size) (h : InFile (FileReads.loadPe fuel l f pml4 loadBase) r)
    (hr : r.1 ≠ .insufficientResources) : f.Bounded l.mods := by
  rw [FileReads.loadPe, if_neg (by omega)] at h
  simp only [stays_bind, FileReads.inFile_checkHeaders size] at h
  obtain ⟨_, ⟨header, rfl⟩, h⟩ := h
  by_cases accepted : f.Accepted
  case neg =>
    exact ⟨header, fun h => absurd h accepted, fun h => absurd h accepted,
      fun h => absurd h accepted⟩
  case pos =>
    rw [if_pos accepted] at h
    simp only [stays_bind, FileReads.inFile_readU32, FileReads.inFile_readU64, stays_ite,
      stays_pure] at h
    obtain ⟨_, -, _, -, q, hq, h⟩ := h
    rcases h with ⟨-, rfl⟩ | ⟨mapped, t, ht, h⟩
    · exact absurd rfl hr
    have table := FileReads.mapSections_needs hq (by simpa using mapped)
    have status : t.1 ≠ .insufficientResources := by
      rcases h with ⟨-, rfl⟩ | ⟨success, -⟩
      · exact hr
      · rw [not_not.mp success]
        decide
    obtain ⟨optional, imports⟩ := FileReads.resolveImports_needs table ht status
    exact ⟨header, fun _ => optional, fun _ => table, fun _ => imports⟩

/-- A load that ends inside the file has read its headers there. -/
theorem loadPe_header (size : 64 ≤ f.size)
    (h : InFile (FileReads.loadPe fuel l f pml4 loadBase) r) : f.HeaderIn := by
  rw [FileReads.loadPe, if_neg (by omega)] at h
  simp only [stays_bind, FileReads.inFile_checkHeaders size] at h
  obtain ⟨_, ⟨header, -⟩, -⟩ := h
  exact header

/-- The files need to be bounded only as far as the loader's checks let it go. -/
theorem loadPe_ends (bounded : 64 ≤ f.size → f.Bounded l.mods) :
    ∀ᶠ fuel in atTop, Ends FileRange.Inside (FileReads.loadPe fuel l f pml4 loadBase) := by
  by_cases size : f.size < 64
  case pos =>
    refine Eventually.of_forall fun fuel => ?_
    rw [FileReads.loadPe, if_pos size]
    exact ends_pure
  case neg =>
    have size64 : 64 ≤ f.size := by omega
    obtain ⟨header, optional, table, imports⟩ := bounded size64
    by_cases accepted : f.Accepted
    case neg =>
      refine Eventually.of_forall fun fuel => ?_
      rw [FileReads.loadPe, if_neg size, ends_bind]
      refine ⟨none, (FileReads.inFile_checkHeaders size64).mpr ⟨header, ?_⟩, ends_pure⟩
      rw [if_neg accepted]
    case pos =>
      have opt := optional accepted
      have resolves : ∀ᶠ fuel in atTop, ∀ s, Ends FileRange.Inside
          (FileReads.resolveImports fuel f l.mods pml4 loadBase s) :=
        FileReads.resolveImports_ends (table accepted) opt (imports accepted)
      filter_upwards [resolves] with fuel resolves
      rw [FileReads.loadPe, if_neg size, ends_bind]
      refine ⟨some (optOff f.bytes), (FileReads.inFile_checkHeaders size64).mpr ⟨header, ?_⟩, ?_⟩
      · rw [if_pos accepted]
      have mapping : InFile (FileReads.mapSections f pml4 loadBase l.sys.vmm) _ :=
        FileReads.inFile_mapSections (Nat.le_trans (by omega) opt) size64 (table accepted) l.sys.vmm
      simp only [ends_bind, FileReads.inFile_readU32, FileReads.inFile_readU64, ends_ite, ends_pure,
        and_assoc, exists_and_left, exists_eq_left, and_true]
      refine ⟨by omega, by omega, _, mapping, ?_⟩
      cases mapped : (mapSections f pml4 loadBase l.sys.vmm).1 with
      | false => exact .inl rfl
      | true =>
        obtain ⟨t, ht⟩ := resolves (mapSections f pml4 loadBase l.sys.vmm).2
        refine .inr ⟨Bool.noConfusion, t, ht, ?_⟩
        exact em _

/-- Where it ends inside the files, it is the loader's model. -/
theorem loadPe_eq (h : InFile (FileReads.loadPe fuel l f pml4 loadBase) r) :
    loadPe fuel l f pml4 loadBase = (some r.1, r.2) := by
  rw [FileReads.loadPe] at h
  rw [loadPe]
  split at h
  case isTrue size =>
    rw [if_pos size, stays_pure.mp h]
  case isFalse size =>
    rw [if_neg size]
    simp only [stays_bind, FileReads.inFile_checkHeaders (show 64 ≤ f.size by omega)] at h
    obtain ⟨_, ⟨-, rfl⟩, h⟩ := h
    by_cases accepted : f.Accepted
    case neg =>
      rw [if_neg accepted] at h
      rw [if_pos accepted, stays_pure.mp h]
    case pos =>
      rw [if_pos accepted] at h
      rw [if_neg (not_not.mpr accepted)]
      simp only [stays_bind, FileReads.inFile_readU32, FileReads.inFile_readU64, stays_ite,
        stays_pure] at h
      obtain ⟨_, ⟨-, rfl⟩, _, -, q, hq, h⟩ := h
      obtain rfl := FileReads.mapSections_eq hq
      rcases h with ⟨failed, rfl⟩ | ⟨mapped, t, ht, h⟩
      · simp only [failed, if_true]
      have table := FileReads.mapSections_needs hq (by simpa using mapped)
      simp only [mapped, Bool.false_eq_true, if_false]
      rw [FileReads.resolveImports_eq table ht]
      rcases h with ⟨failed, rfl⟩ | ⟨success, rfl⟩
      · rw [if_pos fun h => failed (Option.some.inj h)]
      · have success := not_not.mp success
        rw [if_neg (not_not.mpr (congrArg some success))]

end

/-- **`LoadPe` ends inside the files if everything that it comes to lies there and the
tables of imports end.** Unless memory runs short, it does so only then. -/
theorem loadPe_in_file (l : Loader) (f : Image) (pml4 loadBase : u64) :
    ((64 ≤ f.size → f.Bounded l.mods) → ∃ fuel r,
      InFile (FileReads.loadPe fuel l f pml4 loadBase) r ∧
        loadPe fuel l f pml4 loadBase = (some r.1, r.2)) ∧
    ∀ fuel r, InFile (FileReads.loadPe fuel l f pml4 loadBase) r →
      r.1 ≠ .insufficientResources → 64 ≤ f.size → f.Bounded l.mods := by
  refine ⟨fun bounded => ?_, fun fuel r h hr size => loadPe_needs size h hr⟩
  have ends : ∀ᶠ fuel in atTop, Ends FileRange.Inside
      (FileReads.loadPe fuel l f pml4 loadBase) := loadPe_ends bounded
  obtain ⟨fuel, r, h⟩ := ends.exists
  exact ⟨fuel, r, h, loadPe_eq h⟩

/-- No module, and one process with empty page tables. -/
def emptyLoader : Loader where
  sys := { vmm := emptyTree, spaces := [0x200000#64], live := [] }
  mods := []
  procs := []

/-- A file that is only headers is loaded without leaving it. -/
theorem loadPe_in_file_headersOnly : ∃ fuel r,
    InFile (FileReads.loadPe fuel emptyLoader (headersOnly []) 0x200000#64 0x500000000#64) r ∧
      loadPe fuel emptyLoader (headersOnly []) 0x200000#64 0x500000000#64 = (some r.1, r.2) := by
  refine (loadPe_in_file emptyLoader (headersOnly []) 0x200000#64 0x500000000#64).1 fun _ => ?_
  refine ⟨fun _ _ => ?_, fun _ => by decide, fun _ s hs => ?_, fun _ h => absurd (by decide) h⟩
  · exact ⟨by decide, fun _ => ⟨by decide, fun _ => ⟨by decide, fun _ => by decide⟩⟩⟩
  · rw [show sectionCount (headersOnly []).bytes = 0 by decide] at hs
    exact absurd hs (Nat.not_lt_zero s)

/-- A file of 64 bytes whose `e_lfanew` points right behind it. -/
def strayFile : Image where
  bytes n := ([(0, 0x4D), (1, 0x5A), (60, 64)].lookup n).getD 0
  size := 64

/-- Its signature is read past the end. -/
theorem strayFile_leaves_file : ¬ ∃ fuel r,
    InFile (FileReads.loadPe fuel emptyLoader strayFile 0x200000#64 0x500000000#64) r := by
  intro ⟨fuel, r, h⟩
  have header := loadPe_header (f := strayFile) (by decide) h
  exact absurd (header (by decide) (by decide)).1 (by decide)

end MicroNT.Kernel
