import Mathlib.Order.Filter.AtTopBot.Basic
import MicroNT.PeReads

/-! # Looking up names in files

What the PE loader finds by name and by address: strings that end with a zero, the
sections of a file, the modules that are registered and their exports. Each lookup
stays inside the files exactly as long as all that it comes to lies there. -/

namespace MicroNT.Kernel

open Filter
open MicroNT.PMM hiding step Op System
open MicroNT.VMM MicroNT.Base.Reads MicroNT.Base.Reads.Traced
open FileReads (Text)

/-! ## Single reads -/

namespace FileReads

variable {f : Image} {off : Nat}

theorem inside_iff {n : Nat} : FileRange.Inside ⟨f, off, n + 1⟩ ↔ off + (n + 1) ≤ f.size := by
  constructor
  · intro h
    exact h n (Nat.lt_succ_self n)
  · intro h k hk
    have hk : k < n + 1 := hk
    show off + k < f.size
    omega

@[simp] theorem inFile_readU8 {v : u8} :
    InFile (readU8 f off) v ↔ off + 1 ≤ f.size ∧ v = f.bytes off := by
  rw [InFile, readU8, stays_read, inside_iff]

@[simp] theorem inFile_readU16 {v : u16} :
    InFile (readU16 f off) v ↔ off + 2 ≤ f.size ∧ v = u16At f.bytes off := by
  rw [InFile, readU16, stays_read, inside_iff]

@[simp] theorem inFile_readU32 {v : u32} :
    InFile (readU32 f off) v ↔ off + 4 ≤ f.size ∧ v = u32At f.bytes off := by
  rw [InFile, readU32, stays_read, inside_iff]

@[simp] theorem inFile_readU64 {v : u64} :
    InFile (readU64 f off) v ↔ off + 8 ≤ f.size ∧ v = u64At f.bytes off := by
  rw [InFile, readU64, stays_read, inside_iff]

/-! ## Strings -/

namespace Text

/-- Byte `k` is in the file that the string lies in. -/
def Has : Text → Nat → Prop
  | name _, _ => True
  | file f off, k => off + k < f.size

theorem Has.mono {t : Text} {j k : Nat} (h : t.Has k) (hj : j ≤ k) : t.Has j := by
  cases t with
  | name l => trivial
  | file f off => exact Nat.lt_of_le_of_lt (Nat.add_le_add_left hj off) h

@[simp] theorem inFile_read {t : Text} {k : Nat} {v : u8} :
    InFile (t.read k) v ↔ t.Has k ∧ v = t.byte k := by
  cases t with
  | name l => simp only [Text.read, Text.byte, Has, stays_pure, true_and]
  | file f off => exact inFile_readU8

/-- The string ends with a zero in its file. -/
def Terminated (t : Text) : Prop := ∃ n, t.byte n = 0 ∧ t.Has n

/-- The comparison goes on after byte `k`. -/
def Agrees (a b : Text) (k : Nat) : Prop := a.byte k ≠ 0 ∧ a.byte k = b.byte k

instance (a b : Text) (k : Nat) : Decidable (a.Agrees b k) := inferInstanceAs (Decidable (_ ∧ _))

/-- The comparison stops at byte `n`. -/
def StopsAt (a b : Text) (n : Nat) : Prop := (∀ j, j < n → a.Agrees b j) ∧ ¬ a.Agrees b n

theorem StopsAt.unique {a b : Text} {n m : Nat} (h : a.StopsAt b n) (h' : a.StopsAt b m) :
    n = m := by
  rcases Nat.lt_trichotomy n m with hlt | heq | hlt
  · exact absurd (h'.1 n hlt) h.2
  · exact heq
  · exact absurd (h.1 m hlt) h'.2

/-- The comparison stops, and the bytes compared are in their files. -/
def Compares (a b : Text) : Prop := ∃ n, a.StopsAt b n ∧ a.Has n ∧ b.Has n

/-- The strings are equal. -/
def Same (a b : Text) : Prop := ∃ n, a.StopsAt b n ∧ a.byte n = b.byte n

theorem StopsAt.same_iff {a b : Text} {n : Nat} (h : a.StopsAt b n) :
    a.Same b ↔ a.byte n = b.byte n := by
  constructor
  · intro ⟨m, hm, heq⟩
    rw [h.unique hm]
    exact heq
  · exact fun heq => ⟨n, h, heq⟩

/-- The name of a module can be compared with every string that ends in its file. -/
theorem Terminated.compares {t : Text} (h : t.Terminated) (l : List u8) :
    (Text.name l).Compares t := by
  obtain ⟨m, zero, has⟩ := h
  have stops : ∃ n, ¬ (Text.name l).Agrees t n :=
    ⟨l.length, fun hn => hn.1 (List.getD_eq_default l 0 le_rfl)⟩
  refine ⟨Nat.find stops, ⟨fun j hj => ?_, Nat.find_spec stops⟩, trivial, has.mono ?_⟩
  · exact not_not.mp (Nat.find_min stops hj)
  · -- before the stop no byte is zero
    refine not_lt.mp fun hlt => ?_
    have agree := not_not.mp (Nat.find_min stops hlt)
    exact agree.1 (agree.2.trans zero)

end Text

theorem inFile_printStr {s : Text} {fuel k : Nat} {u : Unit} :
    InFile (printStr s fuel k) u ↔
      ∃ n, n < fuel ∧ (∀ j, j < n → s.byte (k + j) ≠ 0) ∧ s.byte (k + n) = 0 ∧ s.Has (k + n) := by
  induction fuel generalizing k with
  | zero => simp [printStr]
  | succ fuel ih =>
    simp only [printStr, stays_bind, Text.inFile_read, stays_ite, stays_pure, ih, and_true]
    constructor
    · intro taken
      obtain ⟨x, ⟨has, hx⟩, h⟩ := taken
      rcases h with ⟨hne, n, hn, before, zero, hasn⟩ | h0
      · refine ⟨n + 1, by omega, fun j hj => ?_, ?_, ?_⟩
        · cases j with
          | zero => exact hx ▸ hne
          | succ j =>
            rw [show k + (j + 1) = k + 1 + j by omega]
            exact before j (by omega)
        · rw [show k + (n + 1) = k + 1 + n by omega]
          exact zero
        · rw [show k + (n + 1) = k + 1 + n by omega]
          exact hasn
      · exact ⟨0, by omega, fun j hj => absurd hj (Nat.not_lt_zero j), hx ▸ not_not.mp h0, has⟩
    · intro ends
      obtain ⟨n, hn, before, zero, has⟩ := ends
      refine ⟨_, ⟨has.mono (Nat.le_add_right k n), rfl⟩, ?_⟩
      cases n with
      | zero => exact .inr (not_not.mpr zero)
      | succ n =>
        refine .inl ⟨before 0 (by omega), n, by omega, fun j hj => ?_, ?_, ?_⟩
        · rw [show k + 1 + j = k + (j + 1) by omega]
          exact before (j + 1) (by omega)
        · rw [show k + 1 + n = k + (n + 1) by omega]
          exact zero
        · rw [show k + 1 + n = k + (n + 1) by omega]
          exact has

theorem inFile_streq {a b : Text} {fuel k : Nat} {r : Bool} :
    InFile (streq a b fuel k) r ↔
      ∃ n, n < fuel ∧ (∀ j, j < n → a.Agrees b (k + j)) ∧ ¬ a.Agrees b (k + n) ∧
        a.Has (k + n) ∧ b.Has (k + n) ∧ r = (a.byte (k + n) == b.byte (k + n)) := by
  induction fuel generalizing k with
  | zero => simp [streq]
  | succ fuel ih =>
    simp only [streq, stays_bind, Text.inFile_read, stays_ite, stays_pure, ih]
    constructor
    · intro taken
      obtain ⟨x, ⟨hasa, hx⟩, y, ⟨hasb, hy⟩, h⟩ := taken
      subst hx hy
      rcases h with ⟨hag, n, hn, before, stop, hasan, hasbn, hr⟩ | ⟨stop, hr⟩
      · refine ⟨n + 1, by omega, fun j hj => ?_, ?_⟩
        · cases j with
          | zero => exact hag
          | succ j =>
            rw [show k + (j + 1) = k + 1 + j by omega]
            exact before j (by omega)
        · rw [show k + (n + 1) = k + 1 + n by omega]
          exact ⟨stop, hasan, hasbn, hr⟩
      · exact ⟨0, by omega, fun j hj => absurd hj (Nat.not_lt_zero j), stop, hasa, hasb, hr⟩
    · intro ends
      obtain ⟨n, hn, before, stop, hasa, hasb, hr⟩ := ends
      refine ⟨_, ⟨hasa.mono (Nat.le_add_right k n), rfl⟩, _, ⟨hasb.mono (Nat.le_add_right k n), rfl⟩,
        ?_⟩
      cases n with
      | zero => exact .inr ⟨stop, hr⟩
      | succ n =>
        refine .inl ⟨before 0 (by omega), n, by omega, fun j hj => ?_, ?_⟩
        · rw [show k + 1 + j = k + (j + 1) by omega]
          exact before (j + 1) (by omega)
        · rw [show k + 1 + n = k + (n + 1) by omega]
          exact ⟨stop, hasa, hasb, hr⟩

theorem printStr_terminated {s : Text} {fuel : Nat} {u : Unit} (h : InFile (printStr s fuel 0) u) :
    s.Terminated := by
  obtain ⟨n, -, -, zero, has⟩ := inFile_printStr.mp h
  exact ⟨_, zero, has⟩

theorem Text.Terminated.printStr {s : Text} (h : s.Terminated) :
    ∀ᶠ fuel in atTop, InFile (printStr s fuel 0) () := by
  obtain ⟨m, hm, has⟩ := h
  have zero : ∃ n, s.byte n = 0 := ⟨m, hm⟩
  filter_upwards [eventually_gt_atTop (Nat.find zero)] with fuel hfuel
  refine inFile_printStr.mpr ⟨Nat.find zero, hfuel, fun j hj => ?_, ?_, ?_⟩
  · rw [Nat.zero_add]
    exact Nat.find_min zero hj
  · rw [Nat.zero_add]
    exact Nat.find_spec zero
  · rw [Nat.zero_add]
    exact has.mono (Nat.find_le hm)

theorem streq_compares {a b : Text} {fuel : Nat} {r : Bool} (h : InFile (streq a b fuel 0) r) :
    a.Compares b ∧ (r = true ↔ a.Same b) := by
  obtain ⟨n, -, before, stop, hasa, hasb, rfl⟩ := inFile_streq.mp h
  rw [Nat.zero_add] at stop hasa hasb ⊢
  have stops : a.StopsAt b n := ⟨fun j hj => Nat.zero_add j ▸ before j hj, stop⟩
  exact ⟨⟨n, stops, hasa, hasb⟩, beq_iff_eq.trans stops.same_iff.symm⟩

theorem Text.Compares.streq {a b : Text} (h : a.Compares b) :
    ∀ᶠ fuel in atTop, ∃ r, InFile (streq a b fuel 0) r ∧ (r = true ↔ a.Same b) := by
  obtain ⟨n, stops, hasa, hasb⟩ := h
  filter_upwards [eventually_gt_atTop n] with fuel hfuel
  have ends : InFile (FileReads.streq a b fuel 0) (a.byte n == b.byte n) := by
    refine inFile_streq.mpr ⟨n, hfuel, fun j hj => ?_, ?_⟩
    · rw [Nat.zero_add]
      exact stops.1 j hj
    · rw [Nat.zero_add]
      exact ⟨stops.2, hasa, hasb, rfl⟩
  exact ⟨_, ends, (streq_compares ends).2⟩

end FileReads

/-! ## Offsets of addresses -/

/-- The section holds the address; the end is a sum of 32-bit words. -/
def SectionHeader.Holds (h : SectionHeader) (rva : u32) : Prop :=
  rva ≥ h.vRva ∧ rva < h.vRva + h.vSize

instance (h : SectionHeader) (rva : u32) : Decidable (h.Holds rva) :=
  inferInstanceAs (Decidable (_ ∧ _))

/-- Where section header `s` is. -/
def shdrOff (f : Nat → u8) (s : Nat) : Nat :=
  optOff f + (u16At f (peOff f + 4 + 16)).toNat + s * 40

def sectionCount (f : Nat → u8) : Nat := (u16At f (peOff f + 4 + 2)).toNat

/-- The section headers that `rva_to_off` reads lie in the file: those up to the
first one that holds the address. -/
def Image.LooksUp (f : Image) (rva : u32) : Prop :=
  ∀ s, s < sectionCount f.bytes →
    (∀ t, t < s → ¬ (sectionAt f.bytes (shdrOff f.bytes t)).Holds rva) →
    shdrOff f.bytes s + 24 ≤ f.size

/-- The whole table of section headers lies in the file. -/
def Image.HasTable (f : Image) : Prop :=
  ∀ s, s < sectionCount f.bytes → shdrOff f.bytes s + 40 ≤ f.size

theorem Image.HasTable.looksUp {f : Image} (h : f.HasTable) (rva : u32) : f.LooksUp rva :=
  fun s hs _ => Nat.le_trans (by omega) (h s hs)

/-- The offset of an address in these sections, or 0. -/
def offsetIn (hs : List SectionHeader) (rva : u32) : u32 :=
  (hs.find? fun h => decide (h.Holds rva)).elim 0 fun h => h.rawOff + (rva - h.vRva)

theorem rvaToOff_eq (f : Nat → u8) (rva : u32) : rvaToOff f rva = offsetIn (sectionHeaders f) rva := by
  have same : (fun h : SectionHeader => decide (rva ≥ h.vRva) && decide (rva < h.vRva + h.vSize)) =
      fun h => decide (h.Holds rva) := by
    funext h
    rw [Bool.eq_iff_iff, Bool.and_eq_true_iff, decide_eq_true_iff, decide_eq_true_iff,
      decide_eq_true_iff]
    rfl
  rw [rvaToOff, offsetIn, same]
  cases (sectionHeaders f).find? fun h => decide (h.Holds rva) <;> rfl

namespace FileReads

/-- The section headers from number `s` on. -/
def headersFrom (f : Image) (shdrs s n : Nat) : List SectionHeader :=
  (List.range n).map fun t => sectionAt f.bytes (shdrs + (s + t) * 40)

theorem headersFrom_succ (f : Image) (shdrs s n : Nat) :
    headersFrom f shdrs s (n + 1) =
      sectionAt f.bytes (shdrs + s * 40) :: headersFrom f shdrs (s + 1) n := by
  have shift : ∀ t, s + (t + 1) = s + 1 + t := fun t => by omega
  rw [headersFrom, List.range_succ_eq_map, List.map_cons, List.map_map, headersFrom, Nat.add_zero]
  refine congrArg _ (List.map_congr_left fun t _ => ?_)
  rw [Function.comp_apply, Nat.succ_eq_add_one, shift]

theorem headersFrom_all (f : Image) :
    headersFrom f (optOff f.bytes + (u16At f.bytes (peOff f.bytes + 4 + 16)).toNat) 0
      (sectionCount f.bytes) = sectionHeaders f.bytes := by
  simp only [headersFrom, Nat.zero_add]
  rfl

theorem inFile_rvaToOff {f : Image} {shdrs : Nat} {rva : u32} {n s : Nat} {r : u32} :
    InFile (rvaToOff f shdrs rva n s) r ↔
      (∀ t, t < n → (∀ u, u < t → ¬ (sectionAt f.bytes (shdrs + (s + u) * 40)).Holds rva) →
        shdrs + (s + t) * 40 + 24 ≤ f.size) ∧ r = offsetIn (headersFrom f shdrs s n) rva := by
  induction n generalizing s with
  | zero =>
    simp only [rvaToOff, stays_pure]
    exact ⟨fun h => ⟨fun t ht => absurd ht (Nat.not_lt_zero t), h⟩, And.right⟩
  | succ n ih =>
    have shift : ∀ t, s + (t + 1) = s + 1 + t := fun t => by omega
    have here : (sectionAt f.bytes (shdrs + s * 40)).Holds rva ↔
        (decide (rva ≥ u32At f.bytes (shdrs + s * 40 + 12)) &&
          decide (rva < u32At f.bytes (shdrs + s * 40 + 12) + u32At f.bytes (shdrs + s * 40 + 8))) =
            true := by
      rw [Bool.and_eq_true_iff, decide_eq_true_iff, decide_eq_true_iff]
      rfl
    simp only [rvaToOff, stays_bind, inFile_readU32, stays_ite, stays_pure, ih, headersFrom_succ]
    constructor
    · rintro ⟨_, ⟨h12, rfl⟩, _, ⟨h8, rfl⟩, _, ⟨h20, rfl⟩, h⟩
      rw [← here] at h
      rcases h with ⟨holds, rfl⟩ | ⟨not, rest, rfl⟩
      · refine ⟨fun t ht before => ?_, ?_⟩
        · cases t with
          | zero => exact h20
          | succ t => exact absurd holds (before 0 (by omega))
        · rw [offsetIn, List.find?_cons_of_pos (by exact decide_eq_true holds)]
          rfl
      · refine ⟨fun t ht before => ?_, ?_⟩
        · cases t with
          | zero => exact h20
          | succ t =>
            rw [shift]
            refine rest t (by omega) fun u hu => ?_
            rw [← shift]
            exact before (u + 1) (by omega)
        · rw [offsetIn, offsetIn, List.find?_cons_of_neg (by simpa using not)]
    · rintro ⟨table, rfl⟩
      have first := table 0 (by omega) fun u hu => absurd hu (Nat.not_lt_zero u)
      rw [Nat.add_zero] at first
      refine ⟨_, ⟨by omega, rfl⟩, _, ⟨by omega, rfl⟩, _, ⟨by omega, rfl⟩, ?_⟩
      rw [← here]
      by_cases holds : (sectionAt f.bytes (shdrs + s * 40)).Holds rva
      · refine .inl ⟨holds, ?_⟩
        rw [offsetIn, List.find?_cons_of_pos (by exact decide_eq_true holds)]
        rfl
      · refine .inr ⟨holds, fun t ht before => ?_, ?_⟩
        · have next := table (t + 1) (by omega) fun u hu => ?_
          · rw [shift] at next
            exact next
          · cases u with
            | zero => exact holds
            | succ u =>
              rw [shift]
              exact before u (by omega)
        · rw [offsetIn, List.find?_cons_of_neg (by simpa using holds), offsetIn]

/-- `rva_to_off` with the section headers of the file. -/
theorem inFile_lookup {f : Image} {rva r : u32} :
    InFile (rvaToOff f (optOff f.bytes + (u16At f.bytes (peOff f.bytes + 4 + 16)).toNat) rva
        (sectionCount f.bytes) 0) r ↔
      f.LooksUp rva ∧ r = Kernel.rvaToOff f.bytes rva := by
  rw [inFile_rvaToOff, rvaToOff_eq, headersFrom_all]
  simp only [Nat.zero_add]
  exact Iff.rfl

end FileReads

/-! ## Modules and their exports -/

open Classical in
/-- The first element with a property. -/
noncomputable def firstWith {α : Type} (P : α → Prop) (l : List α) : Option α :=
  l.find? fun a => decide (P a)

theorem firstWith_pos {α : Type} {P : α → Prop} {a : α} (h : P a) (l : List α) :
    firstWith P (a :: l) = some a := by
  simp [firstWith, h]

theorem firstWith_neg {α : Type} {P : α → Prop} {a : α} (h : ¬ P a) (l : List α) :
    firstWith P (a :: l) = firstWith P l := by
  simp [firstWith, h]

def Module.Named (name : Text) (m : Module) : Prop := (Text.name m.name).Same name

/-- The first module with this name. -/
noncomputable def moduleNamed (mods : List Module) (name : Text) : Option Module :=
  firstWith (Module.Named name) mods

namespace Module

section

variable (m : Module)

def exportRva : u32 := u32At m.pe.bytes (optOff m.pe.bytes + 112)

/-- Where the export directory is. -/
def exportDir : u32 := rvaToOff m.pe.bytes m.exportRva

def exportWord (k : Nat) : u32 := u32At m.pe.bytes (m.exportDir.toNat + k)

def fnOff : u32 := rvaToOff m.pe.bytes (m.exportWord 28)
def nmOff : u32 := rvaToOff m.pe.bytes (m.exportWord 32)
def orOff : u32 := rvaToOff m.pe.bytes (m.exportWord 36)

def nameRva (i : Nat) : u32 := u32At m.pe.bytes (m.nmOff.toNat + 4 * i)

def nameOff (i : Nat) : u32 := rvaToOff m.pe.bytes (m.nameRva i)

def exportOrd (i : Nat) : Nat := (u16At m.pe.bytes (m.orOff.toNat + 2 * i)).toNat

def exportAddr (i : Nat) : u64 :=
  m.imageBase + (u32At m.pe.bytes (m.fnOff.toNat + 4 * m.exportOrd i)).setWidth 64

/-- Export `i` has this name. -/
def Exports (func : Text) (i : Nat) : Prop :=
  m.nameOff i ≠ 0 ∧ (Text.file m.pe (m.nameOff i).toNat).Same func

/-- The module has an export directory with its three arrays. -/
structure HasNames : Prop where
  rva : m.exportRva ≠ 0
  dir : m.exportDir ≠ 0
  arrays : ¬ (m.fnOff = 0 ∨ m.nmOff = 0 ∨ m.orOff = 0)

/-- The address of the first of `n` exports, from number `i` on, that has this name. -/
noncomputable def exportFrom (func : Text) (i n : Nat) : u64 :=
  (firstWith (m.Exports func) (List.range' i n)).elim 0 m.exportAddr

open Classical in
/-- The address of the export with this name, or 0. -/
noncomputable def exportVa (func : Text) : u64 :=
  if m.HasNames then m.exportFrom func 0 (m.exportWord 24).toNat else 0

/-- What the search reads for export `i` lies in the module's file. -/
structure EntryIn (func : Text) (i : Nat) : Prop where
  name : m.nmOff.toNat + 4 * i + 4 ≤ m.pe.size
  looksUp : m.pe.LooksUp (m.nameRva i)
  compares : m.nameOff i ≠ 0 → (Text.file m.pe (m.nameOff i).toNat).Compares func
  found : m.Exports func i → m.orOff.toNat + 2 * i + 2 ≤ m.pe.size ∧
    m.fnOff.toNat + 4 * m.exportOrd i + 4 ≤ m.pe.size

/-- What `FindExport` comes to lies in the module's file: the directory, the arrays,
and the names up to the one that it looks for. -/
structure Searched (func : Text) : Prop where
  header : optOff m.pe.bytes + 116 ≤ m.pe.size
  directory : m.exportRva ≠ 0 → m.pe.LooksUp m.exportRva
  arrays : m.exportRva ≠ 0 → m.exportDir ≠ 0 → m.exportDir.toNat + 40 ≤ m.pe.size ∧
    m.pe.LooksUp (m.exportWord 28) ∧ m.pe.LooksUp (m.exportWord 32) ∧
      m.pe.LooksUp (m.exportWord 36)
  entries : m.HasNames → ∀ i, i < (m.exportWord 24).toNat → (∀ j, j < i → ¬ m.Exports func j) →
    m.EntryIn func i

end

end Module

namespace FileReads

theorem findModule_named {fuel : Nat} {name : Text} {mods : List Module} {r : Option Module}
    (h : InFile (findModule fuel name mods) r) : r = moduleNamed mods name := by
  induction mods with
  | nil => exact stays_pure.mp h
  | cons m ms ih =>
    simp only [findModule, stays_bind, stays_ite, stays_pure] at h
    obtain ⟨x, hx, h⟩ := h
    have same := (streq_compares hx).2
    rcases h with ⟨eq, rfl⟩ | ⟨ne, h⟩
    · rw [moduleNamed, firstWith_pos (P := Module.Named name) (same.mp eq)]
    · rw [ih h, moduleNamed, moduleNamed,
        firstWith_neg (P := Module.Named name) fun hs => ne (same.mpr hs)]

theorem Text.Terminated.findModule {name : Text} (h : name.Terminated) (mods : List Module) :
    ∀ᶠ fuel in atTop, InFile (FileReads.findModule fuel name mods) (moduleNamed mods name) := by
  have ends : ∀ᶠ fuel in atTop, ∃ r, InFile (FileReads.findModule fuel name mods) r := by
    induction mods with
    | nil => exact Eventually.of_forall fun fuel => ⟨none, stays_pure.mpr rfl⟩
    | cons m ms ih =>
      filter_upwards [ih, (h.compares m.name).streq] with fuel hr hx
      obtain ⟨r, hr⟩ := hr
      obtain ⟨x, hx, -⟩ := hx
      simp only [FileReads.findModule, stays_bind, stays_ite, stays_pure]
      cases x with
      | true => exact ⟨some m, true, hx, .inl ⟨rfl, rfl⟩⟩
      | false => exact ⟨r, false, hx, .inr ⟨Bool.false_ne_true, hr⟩⟩
  filter_upwards [ends] with fuel hr
  obtain ⟨r, hr⟩ := hr
  exact findModule_named hr ▸ hr

section

variable {m : Module} {func : Text} {lookup : u32 → FileRead u32}
  (hl : ∀ rva r, InFile (lookup rva) r ↔ m.pe.LooksUp rva ∧ r = Kernel.rvaToOff m.pe.bytes rva)
include hl

theorem searchNames_needs {fuel n i : Nat} {r : u64}
    (h : InFile (searchNames fuel m func lookup m.fnOff m.nmOff m.orOff n i) r) :
    (∀ j, j < n → (∀ k, k < j → ¬ m.Exports func (i + k)) → m.EntryIn func (i + j)) ∧
      r = m.exportFrom func i n := by
  induction n generalizing i with
  | zero => exact ⟨fun j hj => absurd hj (Nat.not_lt_zero j), stays_pure.mp h⟩
  | succ n ih =>
    simp only [searchNames, stays_bind, inFile_readU32, hl, stays_ite] at h
    obtain ⟨_, ⟨hname, rfl⟩, _, ⟨hlook, rfl⟩, h⟩ := h
    -- what the entries after this one need
    have skip : m.EntryIn func i → ¬ m.Exports func i →
        InFile (searchNames fuel m func lookup m.fnOff m.nmOff m.orOff n (i + 1)) r →
        (∀ j, j < n + 1 → (∀ k, k < j → ¬ m.Exports func (i + k)) → m.EntryIn func (i + j)) ∧
          r = m.exportFrom func i (n + 1) := by
      intro entry not rest
      obtain ⟨entries, rfl⟩ := ih rest
      refine ⟨fun j hj before => ?_, ?_⟩
      · cases j with
        | zero => exact entry
        | succ j =>
          rw [show i + (j + 1) = i + 1 + j by omega]
          refine entries j (by omega) fun k hk => ?_
          rw [show i + 1 + k = i + (k + 1) by omega]
          exact before (k + 1) (by omega)
      · rw [Module.exportFrom, Module.exportFrom, List.range'_succ, firstWith_neg not]
    rcases h with ⟨none, rest⟩ | ⟨some, x, hx, h⟩
    · have not : ¬ m.Exports func i := fun he => he.1 none
      exact skip ⟨hname, hlook, fun he => absurd none he, fun he => absurd he not⟩ not rest
    · obtain ⟨compares, same⟩ := streq_compares hx
      rcases h with ⟨eq, h⟩ | ⟨ne, rest⟩
      · have yes : m.Exports func i := ⟨some, same.mp eq⟩
        simp only [inFile_readU16, stays_pure] at h
        obtain ⟨_, ⟨hord, rfl⟩, _, ⟨hfn, rfl⟩, _, -, rfl⟩ := h
        refine ⟨fun j hj before => ?_, ?_⟩
        · cases j with
          | zero => exact ⟨hname, hlook, fun _ => compares, fun _ => ⟨hord, hfn⟩⟩
          | succ j => exact absurd yes (before 0 (by omega))
        · rw [Module.exportFrom, List.range'_succ, firstWith_pos yes]
          rfl
      · have not : ¬ m.Exports func i := fun he => ne (same.mpr he.2)
        exact skip ⟨hname, hlook, fun _ => compares, fun he => absurd he not⟩ not rest

theorem searchNames_ends (hfunc : func.Terminated) {n i : Nat}
    (entries : ∀ j, j < n → (∀ k, k < j → ¬ m.Exports func (i + k)) → m.EntryIn func (i + j)) :
    ∀ᶠ fuel in atTop, Ends FileRange.Inside
      (searchNames fuel m func lookup m.fnOff m.nmOff m.orOff n i) := by
  induction n generalizing i with
  | zero => exact Eventually.of_forall fun fuel => ends_pure
  | succ n ih =>
    have entry := entries 0 (by omega) fun k hk => absurd hk (Nat.not_lt_zero k)
    rw [Nat.add_zero] at entry
    have rest : ¬ m.Exports func i → ∀ᶠ fuel in atTop, Ends FileRange.Inside
        (searchNames fuel m func lookup m.fnOff m.nmOff m.orOff n (i + 1)) := by
      intro not
      refine ih fun j hj before => ?_
      rw [show i + 1 + j = i + (j + 1) by omega]
      refine entries (j + 1) (by omega) fun k hk => ?_
      cases k with
      | zero => exact not
      | succ k =>
        rw [show i + (k + 1) = i + 1 + k by omega]
        exact before k (by omega)
    simp only [searchNames, ends_bind, inFile_readU16, inFile_readU32, hl, ends_ite, ends_pure,
      and_assoc, exists_and_left, exists_eq_left, and_true]
    by_cases none : m.nameOff i = 0
    · filter_upwards [rest fun he => he.1 none] with fuel rest
      exact ⟨entry.name, entry.looksUp, .inl ⟨none, rest⟩⟩
    · have compares := (entry.compares none).streq
      by_cases yes : m.Exports func i
      · filter_upwards [compares, hfunc.printStr] with fuel hx print
        obtain ⟨x, hx, same⟩ := hx
        obtain ⟨hord, hfn⟩ := entry.found yes
        exact ⟨entry.name, entry.looksUp,
          .inr ⟨none, x, hx, .inl ⟨same.mpr yes.2, hord, hfn, (), print⟩⟩⟩
      · filter_upwards [compares, rest yes] with fuel hx rest
        obtain ⟨x, hx, same⟩ := hx
        exact ⟨entry.name, entry.looksUp,
          .inr ⟨none, x, hx, .inr ⟨fun eq => yes ⟨none, same.mp eq⟩, rest⟩⟩⟩

end

theorem findExport_needs {fuel : Nat} {m : Module} {func : Text} {r : u64}
    (h : InFile (findExport fuel m func) r) : m.Searched func ∧ r = m.exportVa func := by
  simp only [findExport, stays_bind, inFile_readU16, inFile_readU32, stays_ite, stays_pure] at h
  obtain ⟨_, ⟨-, rfl⟩, _, ⟨header, rfl⟩, h⟩ := h
  rcases h with ⟨none, rfl⟩ | ⟨rva, _, ⟨-, rfl⟩, _, ⟨-, rfl⟩, ed, hed, h⟩
  · refine ⟨⟨header, fun hn => absurd none hn, fun hn => absurd none hn,
      fun hn => absurd none hn.rva⟩, ?_⟩
    rw [Module.exportVa, if_neg fun hn => hn.rva none]
  · obtain ⟨looks, rfl⟩ := inFile_lookup.mp hed
    rcases h with ⟨none, rfl⟩ | ⟨dir, h⟩
    · refine ⟨⟨header, fun _ => looks, fun _ hn => absurd none hn, fun hn => absurd none hn.dir⟩,
        ?_⟩
      rw [Module.exportVa, if_neg fun hn => hn.dir none]
    · obtain ⟨_, ⟨-, rfl⟩, _, ⟨-, rfl⟩, _, ⟨-, rfl⟩, _, ⟨h40, rfl⟩, fn, hfn, nm, hnm, o, ho, h⟩ := h
      obtain ⟨lfn, rfl⟩ := inFile_lookup.mp hfn
      obtain ⟨lnm, rfl⟩ := inFile_lookup.mp hnm
      obtain ⟨lor, rfl⟩ := inFile_lookup.mp ho
      rcases h with ⟨none, rfl⟩ | ⟨arrays, h⟩
      · refine ⟨⟨header, fun _ => looks, fun _ _ => ⟨h40, lfn, lnm, lor⟩,
          fun hn => absurd none hn.arrays⟩, ?_⟩
        rw [Module.exportVa, if_neg fun hn => hn.arrays none]
      · have names : m.HasNames := ⟨rva, dir, arrays⟩
        obtain ⟨entries, rfl⟩ := searchNames_needs (fun rva r => inFile_lookup) h
        refine ⟨⟨header, fun _ => looks, fun _ _ => ⟨h40, lfn, lnm, lor⟩, fun _ i hi before => ?_⟩, ?_⟩
        · have entry := entries i hi fun k hk => (Nat.zero_add k).symm ▸ before k hk
          rw [Nat.zero_add] at entry
          exact entry
        · rw [Module.exportVa, if_pos names]
          rfl

theorem findExport_ends {m : Module} {func : Text} (hfunc : func.Terminated)
    (hs : m.Searched func) : ∀ᶠ fuel in atTop, InFile (findExport fuel m func) (m.exportVa func) := by
  have search : ∀ᶠ fuel in atTop, m.HasNames → Ends FileRange.Inside
      (searchNames fuel m func (fun rva => rvaToOff m.pe
        (optOff m.pe.bytes + (u16At m.pe.bytes (peOff m.pe.bytes + 4 + 16)).toNat) rva
        (sectionCount m.pe.bytes) 0) m.fnOff m.nmOff m.orOff (m.exportWord 24).toNat 0) := by
    by_cases names : m.HasNames
    case neg => exact Eventually.of_forall fun fuel hn => absurd hn names
    case pos =>
      have ends := searchNames_ends (fun rva r => inFile_lookup) hfunc (i := 0)
        (n := (m.exportWord 24).toNat) fun j hj before => by
          rw [Nat.zero_add]
          exact hs.entries names j hj fun k hk => Nat.zero_add k ▸ before k hk
      filter_upwards [ends] with fuel hr
      exact fun _ => hr
  filter_upwards [search] with fuel search
  have ends : Ends FileRange.Inside (findExport fuel m func) := by
    have header : (u32At m.pe.bytes 60).toNat + 4 + 20 + 116 ≤ m.pe.size := hs.header
    simp only [findExport, ends_bind, inFile_readU16, inFile_readU32, ends_ite, ends_pure,
      and_assoc, exists_and_left, exists_eq_left, and_true]
    refine ⟨by omega, by omega, ?_⟩
    by_cases rva : m.exportRva = 0
    · exact .inl rva
    refine .inr ⟨rva, by omega, by omega, _, inFile_lookup.mpr ⟨hs.directory rva, rfl⟩, ?_⟩
    by_cases dir : m.exportDir = 0
    · exact .inl dir
    obtain ⟨h40, lfn, lnm, lor⟩ := hs.arrays rva dir
    have within : ∀ k, k ≤ 40 → m.exportDir.toNat + k ≤ m.pe.size := fun k hk => by omega
    refine .inr ⟨dir, within 28 (by omega), within 32 (by omega), within 36 (by omega), h40,
      _, inFile_lookup.mpr ⟨lfn, rfl⟩, _, inFile_lookup.mpr ⟨lnm, rfl⟩,
      _, inFile_lookup.mpr ⟨lor, rfl⟩, ?_⟩
    by_cases arrays : m.fnOff = 0 ∨ m.nmOff = 0 ∨ m.orOff = 0
    · exact .inl arrays
    · exact .inr ⟨arrays, search ⟨rva, dir, arrays⟩⟩
  obtain ⟨r, hr⟩ := ends
  exact (findExport_needs hr).2 ▸ hr

/-! ## The same results

Where it ends inside the files, the computation above has the result of the loader's
model, whose bytes are those of the files. -/

theorem streq_eq {a b : Text} {fuel k : Nat} {r : Bool} (h : InFile (streq a b fuel k) r) :
    Kernel.streq fuel (fun j => a.byte (k + j)) (fun j => b.byte (k + j)) = r := by
  induction fuel generalizing k with
  | zero => exact absurd h stays_running
  | succ fuel ih =>
    simp only [streq, stays_bind, Text.inFile_read, stays_ite, stays_pure] at h
    obtain ⟨_, ⟨-, rfl⟩, _, ⟨-, rfl⟩, h⟩ := h
    have shift : ∀ t : Text, strAt (fun j => t.byte (k + j)) 1 = fun j => t.byte (k + 1 + j) := by
      intro t
      funext j
      rw [strAt, Nat.add_assoc]
    simp only [Kernel.streq, Nat.add_zero, shift]
    rcases h with ⟨agree, h⟩ | ⟨stop, rfl⟩
    · rw [if_pos agree]
      exact ih h
    · rw [if_neg stop]

/-- A string as the loader's model has it. -/
theorem streq_eq_zero {a b : Text} {fuel : Nat} {r : Bool} (h : InFile (streq a b fuel 0) r) :
    Kernel.streq fuel a.byte b.byte = r := by
  have eq := streq_eq h
  simp only [Nat.zero_add] at eq
  exact eq

theorem findModule_eq {fuel : Nat} {name : Text} {mods : List Module} {r : Option Module}
    (h : InFile (findModule fuel name mods) r) : Kernel.findModule fuel mods name.byte = r := by
  induction mods with
  | nil => exact (stays_pure.mp h).symm
  | cons m ms ih =>
    simp only [findModule, stays_bind, stays_ite, stays_pure] at h
    obtain ⟨x, hx, h⟩ := h
    have eq : Kernel.streq fuel (fun k => m.name.getD k 0) name.byte = x := streq_eq_zero hx
    rw [Kernel.findModule, List.find?_cons, eq]
    rcases h with ⟨rfl, rfl⟩ | ⟨no, h⟩
    · rfl
    · rw [Bool.eq_false_iff.mpr no]
      exact ih h

section

variable {m : Module} {func : Text} {lookup : u32 → FileRead u32}

theorem searchNames_eq
    (hl : ∀ rva r, InFile (lookup rva) r ↔ m.pe.LooksUp rva ∧ r = Kernel.rvaToOff m.pe.bytes rva)
    {fuel n i : Nat} {r : u64}
    (h : InFile (searchNames fuel m func lookup m.fnOff m.nmOff m.orOff n i) r) :
    ((List.range' i n).find? fun k => m.nameOff k ≠ 0 &&
      Kernel.streq fuel (strAt m.pe.bytes (m.nameOff k).toNat) func.byte).elim 0 m.exportAddr = r := by
  induction n generalizing i with
  | zero => exact (stays_pure.mp h).symm
  | succ n ih =>
    simp only [searchNames, stays_bind, inFile_readU16, inFile_readU32, hl, stays_ite,
      stays_pure] at h
    obtain ⟨_, ⟨-, rfl⟩, _, ⟨-, rfl⟩, h⟩ := h
    rw [List.range'_succ, List.find?_cons]
    rcases h with ⟨none, h⟩ | ⟨some, x, hx, h⟩
    · have none : decide (m.nameOff i ≠ 0) = false := decide_eq_false (not_not.mpr none)
      rw [none, Bool.false_and]
      exact ih h
    · have some : decide (m.nameOff i ≠ 0) = true := decide_eq_true some
      have eq : Kernel.streq fuel (strAt m.pe.bytes (m.nameOff i).toNat) func.byte = x :=
        streq_eq_zero hx
      rw [some, Bool.true_and, eq]
      rcases h with ⟨rfl, _, ⟨-, rfl⟩, _, ⟨-, rfl⟩, _, -, rfl⟩ | ⟨no, h⟩
      · rfl
      · rw [Bool.eq_false_iff.mpr no]
        exact ih h

end

theorem findExport_eq {fuel : Nat} {m : Module} {func : Text} {r : u64}
    (h : InFile (findExport fuel m func) r) : Kernel.findExport fuel m func.byte = r := by
  simp only [findExport, stays_bind, inFile_readU16, inFile_readU32, stays_ite, stays_pure] at h
  obtain ⟨_, ⟨-, rfl⟩, _, ⟨-, rfl⟩, h⟩ := h
  rw [Kernel.findExport]
  simp only
  rcases h with ⟨none, rfl⟩ | ⟨rva, _, ⟨-, rfl⟩, _, ⟨-, rfl⟩, ed, hed, h⟩
  · rw [if_pos (by exact none)]
  rw [if_neg (by exact rva)]
  obtain ⟨-, rfl⟩ := inFile_lookup.mp hed
  rcases h with ⟨none, rfl⟩ | ⟨dir, h⟩
  · rw [if_pos (by exact none)]
  rw [if_neg (by exact dir)]
  obtain ⟨_, ⟨-, rfl⟩, _, ⟨-, rfl⟩, _, ⟨-, rfl⟩, _, ⟨-, rfl⟩, _, hfn, _, hnm, _, ho, h⟩ := h
  obtain ⟨-, rfl⟩ := inFile_lookup.mp hfn
  obtain ⟨-, rfl⟩ := inFile_lookup.mp hnm
  obtain ⟨-, rfl⟩ := inFile_lookup.mp ho
  rcases h with ⟨none, rfl⟩ | ⟨arrays, h⟩
  · rw [if_pos (by exact none)]
  rw [if_neg (by exact arrays)]
  have eq := searchNames_eq (fun rva r => inFile_lookup) h
  rw [List.range_eq_range']
  split
  case h_1 none => exact (congrArg (fun o => Option.elim o 0 m.exportAddr) none).symm.trans eq
  case h_2 i some => exact (congrArg (fun o => Option.elim o 0 m.exportAddr) some).symm.trans eq

end FileReads

end MicroNT.Kernel
