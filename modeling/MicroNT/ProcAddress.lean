import MicroNT.LoadedImage

/-! # Looking up exports in a mapped module (`user/kernel32/kernel32.cpp`)

`GetProcAddress` walks through the export table of a module in the memory of its process,
by addresses and not by file offsets. A read that ring 3 may not make ends it. -/

namespace MicroNT.Kernel

open Filter
open MicroNT.PMM hiding step Op System
open MicroNT.VMM MicroNT.Boot MicroNT.Base.Radix
open FileReads (Text)

/-! ## Reads in ring 3 -/

def peek (m : Mem) (pml4 va : u64) : Option u8 :=
  if userReads m pml4 va then some (byteAt m pml4 va) else none

def peek16 (m : Mem) (pml4 va : u64) : Option u16 := do
  let lo ← peek m pml4 va
  let hi ← peek m pml4 (va + 1#64)
  return hi ++ lo

def peek32 (m : Mem) (pml4 va : u64) : Option u32 := do
  let lo ← peek16 m pml4 va
  let hi ← peek16 m pml4 (va + 2#64)
  return hi ++ lo

/-! ## `GetProcAddress` -/

/-- `streq` of the string at `en` and of `proc`, from byte `k` on: `none` on a fault, and
while the loop is still running. -/
def peekStreq (m : Mem) (pml4 en : u64) (proc : Nat → u8) : Nat → Nat → Option Bool
  | 0, _ => none
  | fuel + 1, k => do
    let a ← peek m pml4 (en + BitVec.ofNat 64 k)
    if a ≠ 0 ∧ a = proc k then peekStreq m pml4 en proc fuel (k + 1) else return a == proc k

/-- The loop over the names, from number `i` on. -/
def peekNames (fuel : Nat) (m : Mem) (pml4 base funcs names ords : u64) (proc : Nat → u8) :
    Nat → Nat → Option u64
  | 0, _ => some 0
  | n + 1, i => do
    let en ← peek32 m pml4 (names + BitVec.ofNat 64 (4 * i))
    let same ← peekStreq m pml4 (base + en.setWidth 64) proc fuel 0
    if same then do
      let ord ← peek16 m pml4 (ords + BitVec.ofNat 64 (2 * i))
      let func ← peek32 m pml4 (funcs + BitVec.ofNat 64 (4 * ord.toNat))
      return base + func.setWidth 64
    else peekNames fuel m pml4 base funcs names ords proc n (i + 1)

/-- `n` bytes at an RVA, in a section that is no longer in memory than in the file. -/
def Image.InSection (f : Image) (rva : u32) (n : Nat) : Prop :=
  ∃ h ∈ sectionHeaders f.bytes, h.vSize.toNat ≤ h.rawSize.toNat ∧ h.rawOff ≠ 0 ∧
    h.vRva.toNat + h.vSize.toNat < 2 ^ 32 ∧ h.rawOff.toNat + h.rawSize.toNat < 2 ^ 32 ∧
      h.vRva.toNat ≤ rva.toNat ∧ rva.toNat + n ≤ h.vRva.toNat + h.vSize.toNat

/-- A table of the file that the loader does not patch. -/
structure Image.Table (f : Image) (loadBase : u64) (rva : u32) (n : Nat) : Prop where
  inSection : f.InSection rva n
  unpatched : ∀ j, j < n → ¬ f.IatByte loadBase (loadBase + rva.setWidth 64 + BitVec.ofNat 64 j)

/-- The export tables and names lie in sections, apart from import slots, and no name is
there twice. -/
structure Module.Formed (m : Module) : Prop where
  base : m.imageBase ≠ 0
  wellFormed : m.pe.WellFormed
  header : optOff m.pe.bytes + 116 ≤ m.pe.size
  unpatched : ∀ o, o < optOff m.pe.bytes + 116 →
    ¬ m.pe.IatByte m.imageBase (m.imageBase + BitVec.ofNat 64 o)
  directory : m.exportRva ≠ 0 → m.pe.Table m.imageBase m.exportRva 40
  arrays : m.exportRva ≠ 0 → 0 < (m.exportWord 24).toNat →
    m.pe.Table m.imageBase (m.exportWord 28) (4 * (m.exportWord 20).toNat) ∧
    m.pe.Table m.imageBase (m.exportWord 32) (4 * (m.exportWord 24).toNat) ∧
    m.pe.Table m.imageBase (m.exportWord 36) (2 * (m.exportWord 24).toNat)
  names : m.exportRva ≠ 0 → ∀ i, i < (m.exportWord 24).toNat → ∃ len,
    m.pe.bytes ((m.nameOff i).toNat + len) = 0 ∧ m.pe.Table m.imageBase (m.nameRva i) (len + 1)
  ordinals : m.exportRva ≠ 0 → ∀ i, i < (m.exportWord 24).toNat →
    m.exportOrd i < (m.exportWord 20).toNat
  unique : ∀ func i j, i < (m.exportWord 24).toNat → j < (m.exportWord 24).toNat →
    m.Exports func i → m.Exports func j → i = j

/-- The export table gives the name this address: the base plus the function's RVA. -/
def Module.Assigns (m : Module) (func : Text) (va : u64) : Prop :=
  m.exportRva ≠ 0 ∧ ∃ i, i < (m.exportWord 24).toNat ∧ m.Exports func i ∧ va = m.exportAddr i

section

variable {f : Image} {rva : u32} {n : Nat}

/-- The offset of an RVA in a section, as the section has it. -/
theorem Image.WellFormed.rvaToOff (hf : f.WellFormed) {h : SectionHeader}
    (hh : h ∈ sectionHeaders f.bytes) (small : h.vRva.toNat + h.vSize.toNat < 2 ^ 32)
    (first : h.vRva.toNat ≤ rva.toNat) (last : rva.toNat < h.vRva.toNat + h.vSize.toNat) :
    Kernel.rvaToOff f.bytes rva = h.rawOff + (rva - h.vRva) := by
  have holds : ∀ g : SectionHeader, g.Holds rva → g.vRva.toNat + g.vSize.toNat ≤ 2 ^ 32 →
      g.vRva.toNat ≤ rva.toNat ∧ rva.toNat < g.vRva.toNat + g.vSize.toNat := by
    intro g inside below
    have low := BitVec.le_def.mp inside.1
    have high := BitVec.lt_def.mp inside.2
    rw [BitVec.toNat_add] at high
    omega
  have here : h.Holds rva := by
    refine ⟨BitVec.le_def.mpr first, BitVec.lt_def.mpr ?_⟩
    rw [BitVec.toNat_add]
    omega
  have some : ((sectionHeaders f.bytes).find? fun g => decide (g.Holds rva)).isSome :=
    List.find?_isSome.mpr ⟨h, hh, decide_eq_true here⟩
  obtain ⟨g, hg⟩ := Option.isSome_iff_exists.mp some
  have inside : g.Holds rva := by simpa using List.find?_some hg
  have mem := List.mem_of_find?_eq_some hg
  have same : g = h := by
    by_contra ne
    have symm : Std.Symm fun g h : SectionHeader => ∀ rva, ¬ (g.vRva.toNat ≤ rva ∧
        rva < g.vRva.toNat + g.vSize.toNat ∧ h.vRva.toNat ≤ rva ∧
          rva < h.vRva.toNat + h.vSize.toNat) :=
      ⟨fun _ _ apart r both => apart r ⟨both.2.2.1, both.2.2.2, both.1, both.2.1⟩⟩
    have place := holds g inside (hf.below g mem)
    exact hf.apart.forall mem hh ne rva.toNat ⟨place.1, place.2, first, last⟩
  rw [rvaToOff_eq, offsetIn, hg, same, Option.elim_some]

/-- A table lies in the file, not at its start. -/
theorem Image.InSection.off (hf : f.WellFormed) (inside : f.InSection rva n) (some : 0 < n) :
    Kernel.rvaToOff f.bytes rva ≠ 0 ∧ (Kernel.rvaToOff f.bytes rva).toNat + n ≤ f.size := by
  obtain ⟨h, hh, full, raw, small, rawSmall, first, last⟩ := inside
  have fits := hf.raw h hh
  have off := hf.rvaToOff hh small first (by omega)
  have positive : 0 < h.rawOff.toNat := Nat.pos_of_ne_zero fun zero => raw (BitVec.eq_of_toNat_eq zero)
  have less := rva.isLt
  have diff : (rva - h.vRva).toNat = rva.toNat - h.vRva.toNat :=
    BitVec.toNat_sub_of_le (BitVec.le_def.mpr first)
  have value : (Kernel.rvaToOff f.bytes rva).toNat = h.rawOff.toNat + (rva.toNat - h.vRva.toNat) := by
    rw [off, BitVec.toNat_add, diff]
    omega
  refine ⟨fun zero => ?_, by omega⟩
  rw [zero] at value
  have none : (0 : u32).toNat = 0 := rfl
  omega

end

/-! ## What a loaded module shows -/

/-- Ring 3 reads the bytes of the file in the headers and in the tables. -/
structure Module.Seen (mod : Module) (m : Mem) (pml4 : u64) : Prop where
  header : ∀ o, o < optOff mod.pe.bytes + 116 →
    peek m pml4 (mod.imageBase + BitVec.ofNat 64 o) = some (mod.pe.bytes o)
  table : ∀ rva n, mod.pe.Table mod.imageBase rva n → ∀ j, j < n →
    peek m pml4 (mod.imageBase + rva.setWidth 64 + BitVec.ofNat 64 j) =
      some (mod.pe.bytes ((rvaToOff mod.pe.bytes rva).toNat + j))

section

variable {f : Image} {pml4 loadBase : u64} {fuel : Nat} {l : Loader}

/-- A page in place is read as it is. -/
theorem Lies.peek {S : u64 → Prop} {s : Vmm} {x : Piece} {fr : u64} (h : Lies pml4 S s x fr)
    (space : UserSpace s pml4) (aligned : x.va.toNat % PAGE_SIZE = 0) {k : Nat} (hk : k < PAGE_SIZE)
    (free : ¬ S (x.va + BitVec.ofNat 64 k)) :
    Kernel.peek s.mem pml4 (x.va + BitVec.ofNat 64 k) = some (byteIn x.page k) := by
  have reads : userReads s.mem pml4 (x.va + BitVec.ofNat 64 k) = true :=
    h.userCan_eq aligned hk space false
  rw [Kernel.peek, reads, if_pos rfl, h.byteAt_eq aligned hk, h.bytes k hk free]

end

/-! ## The walk -/

section

variable {m : Mem} {pml4 va : u64} {g : Nat → u8} {off : Nat}

theorem peek16_eq (h : ∀ j, j < 2 → peek m pml4 (va + BitVec.ofNat 64 j) = some (g (off + j))) :
    peek16 m pml4 va = some (u16At g off) := by
  have lo := h 0 (by decide)
  have hi := h 1 (by decide)
  rw [show va + BitVec.ofNat 64 0 = va from BitVec.add_zero va] at lo
  rw [peek16, lo, show peek m pml4 (va + 1#64) = some (g (off + 1)) from hi]
  rfl

theorem peek32_eq (h : ∀ j, j < 4 → peek m pml4 (va + BitVec.ofNat 64 j) = some (g (off + j))) :
    peek32 m pml4 va = some (u32At g off) := by
  have lo : peek16 m pml4 va = some (u16At g off) := peek16_eq fun j hj => h j (by omega)
  have hi : peek16 m pml4 (va + 2#64) = some (u16At g (off + 2)) := by
    refine peek16_eq fun j hj => ?_
    have byte := h (2 + j) (by omega)
    rwa [BitVec.ofNat_add, ← BitVec.add_assoc, ← Nat.add_assoc] at byte
  rw [peek32, lo, hi]
  rfl

/-- Strings are compared up to where the comparison stops. -/
theorem peekStreq_eq {t func : Text} {s : Nat} (stops : t.StopsAt func s)
    (seen : ∀ k, k ≤ s → peek m pml4 (va + BitVec.ofNat 64 k) = some (t.byte k)) (fuel k : Nat)
    (hk : k ≤ s) (enough : s < k + fuel) :
    peekStreq m pml4 va func.byte fuel k = some (t.byte s == func.byte s) := by
  induction fuel generalizing k with
  | zero => omega
  | succ fuel ih =>
    rw [peekStreq, seen k hk]
    show (if _ then _ else _) = _
    rcases Nat.lt_or_eq_of_le hk with less | rfl
    · have agree := stops.1 k less
      rw [if_pos ⟨agree.1, agree.2⟩]
      exact ih (k + 1) less (by omega)
    · have stop : ¬ (t.byte k ≠ 0 ∧ t.byte k = func.byte k) := stops.2
      rw [if_neg stop]
      rfl

end

section

variable {mod : Module} {m : Mem} {pml4 : u64} {func : Text}

/-- The comparison with a name ends, at its zero at the latest. -/
theorem Text.stops {t : Text} {len : Nat} (zero : t.byte len = 0) (func : Text) :
    ∃ s, s ≤ len ∧ t.StopsAt func s := by
  have stops : ∃ n, ¬ t.Agrees func n := ⟨len, fun agree => agree.1 zero⟩
  refine ⟨Nat.find stops, Nat.find_le fun agree => agree.1 zero, ?_, Nat.find_spec stops⟩
  exact fun j hj => not_not.mp (Nat.find_min stops hj)

theorem Module.Formed.nameOff (formed : mod.Formed) (some : mod.exportRva ≠ 0) {i : Nat}
    (hi : i < (mod.exportWord 24).toNat) : mod.nameOff i ≠ 0 := by
  obtain ⟨len, -, table⟩ := formed.names some i hi
  exact (table.inSection.off formed.wellFormed (Nat.succ_pos len)).1

/-- What the search needs for name `i`: the comparison ends before `fuel` bytes, all of
them in sight. -/
def Module.Compared (mod : Module) (m : Mem) (pml4 : u64) (func : Text) (fuel i : Nat) : Prop :=
  ∃ s, s < fuel ∧ (Text.file mod.pe (mod.nameOff i).toNat).StopsAt func s ∧
    ∀ k, k ≤ s → peek m pml4 (mod.imageBase + (mod.nameRva i).setWidth 64 + BitVec.ofNat 64 k) =
      some ((Text.file mod.pe (mod.nameOff i).toNat).byte k)

theorem Module.Seen.compared (seen : mod.Seen m pml4) (formed : mod.Formed)
    (some : mod.exportRva ≠ 0) (func : Text) :
    ∀ᶠ fuel in atTop, ∀ i ∈ {i | i < (mod.exportWord 24).toNat}, mod.Compared m pml4 func fuel i := by
  refine (eventually_all_finite (Set.finite_lt_nat _)).mpr fun i hi => ?_
  obtain ⟨len, zero, table⟩ := formed.names some i hi
  obtain ⟨s, le, stops⟩ := Text.stops (t := Text.file mod.pe (mod.nameOff i).toNat) zero func
  filter_upwards [eventually_gt_atTop s] with fuel enough
  exact ⟨s, enough, stops, fun k hk => seen.table _ _ table k (by omega)⟩

/-- **The loop over the names** finds the first export with the name. -/
theorem Module.Seen.peekNames (seen : mod.Seen m pml4) (formed : mod.Formed)
    (some : mod.exportRva ≠ 0) {fuel : Nat}
    (compared : ∀ i, i < (mod.exportWord 24).toNat → mod.Compared m pml4 func fuel i) (n i : Nat)
    (hn : i + n = (mod.exportWord 24).toNat) :
    Kernel.peekNames fuel m pml4 mod.imageBase
      (mod.imageBase + (mod.exportWord 28).setWidth 64)
      (mod.imageBase + (mod.exportWord 32).setWidth 64)
      (mod.imageBase + (mod.exportWord 36).setWidth 64) func.byte n i =
        .some (mod.exportFrom func i n) := by
  induction n generalizing i with
  | zero => rfl
  | succ n ih =>
    obtain ⟨funcs, names, ords⟩ := formed.arrays some (by omega)
    have name : peek32 m pml4 (mod.imageBase + (mod.exportWord 32).setWidth 64 +
        BitVec.ofNat 64 (4 * i)) = .some (mod.nameRva i) := by
      refine peek32_eq fun j hj => ?_
      rw [BitVec.add_assoc _ (BitVec.ofNat 64 (4 * i)), ← BitVec.ofNat_add]
      refine (seen.table _ _ names (4 * i + j) (by omega)).trans ?_
      rw [← Nat.add_assoc]
      rfl
    obtain ⟨s, enough, stops, bytes⟩ := compared i (by omega)
    have streq := peekStreq_eq stops bytes fuel 0 (Nat.zero_le s) (by omega)
    have off := formed.nameOff some (i := i) (by omega)
    rw [Kernel.peekNames, name]
    simp only [Option.bind_eq_bind, Option.bind_some, streq, Module.exportFrom, List.range'_succ]
    by_cases same : (Text.file mod.pe (mod.nameOff i).toNat).byte s = func.byte s
    · have yes : mod.Exports func i := ⟨off, stops.same_iff.mpr same⟩
      have ord : peek16 m pml4 (mod.imageBase + (mod.exportWord 36).setWidth 64 +
          BitVec.ofNat 64 (2 * i)) = .some (u16At mod.pe.bytes (mod.orOff.toNat + 2 * i)) := by
        refine peek16_eq fun j hj => ?_
        rw [BitVec.add_assoc _ (BitVec.ofNat 64 (2 * i)), ← BitVec.ofNat_add]
        refine (seen.table _ _ ords (2 * i + j) (by omega)).trans ?_
        rw [← Nat.add_assoc]
        rfl
      have number := formed.ordinals some i (by omega)
      have rva : peek32 m pml4 (mod.imageBase + (mod.exportWord 28).setWidth 64 +
          BitVec.ofNat 64 (4 * mod.exportOrd i)) =
            .some (u32At mod.pe.bytes (mod.fnOff.toNat + 4 * mod.exportOrd i)) := by
        refine peek32_eq fun j hj => ?_
        rw [BitVec.add_assoc _ (BitVec.ofNat 64 (4 * mod.exportOrd i)), ← BitVec.ofNat_add]
        refine (seen.table _ _ funcs (4 * mod.exportOrd i + j) (by omega)).trans ?_
        rw [← Nat.add_assoc]
        rfl
      rw [Module.exportOrd] at rva
      rw [firstWith_pos yes, if_pos (beq_iff_eq.mpr same)]
      simp only [ord, Option.bind_some, rva, Option.elim_some, Module.exportAddr, Module.exportOrd]
      rfl
    · have no : ¬ mod.Exports func i := fun h => same (stops.same_iff.mp h.2)
      have differ : ¬ ((Text.file mod.pe (mod.nameOff i).toNat).byte s == func.byte s) = true :=
        fun h => same (beq_iff_eq.mp h)
      rw [firstWith_neg no, if_neg differ]
      exact ih (i + 1) (by omega)

/-- A word of the export directory. -/
theorem Module.Seen.word (seen : mod.Seen m pml4) (formed : mod.Formed) (some : mod.exportRva ≠ 0)
    {k : Nat} (hk : k + 4 ≤ 40) :
    peek32 m pml4 (mod.imageBase + mod.exportRva.setWidth 64 + BitVec.ofNat 64 k) =
      .some (mod.exportWord k) := by
  refine peek32_eq fun j hj => ?_
  rw [BitVec.add_assoc _ (BitVec.ofNat 64 k), ← BitVec.ofNat_add]
  refine (seen.table _ _ (formed.directory some) (k + j) (by omega)).trans ?_
  rw [← Nat.add_assoc]
  rfl

theorem Module.Formed.hasNames (formed : mod.Formed) (some : mod.exportRva ≠ 0)
    (many : 0 < (mod.exportWord 24).toNat) : mod.HasNames := by
  have dir := ((formed.directory some).inSection.off formed.wellFormed (by decide)).1
  obtain ⟨funcs, names, ords⟩ := formed.arrays some many
  have number := formed.ordinals some 0 many
  refine ⟨some, dir, ?_⟩
  rintro (none | none | none)
  · exact (funcs.inSection.off formed.wellFormed (by omega)).1 none
  · exact (names.inSection.off formed.wellFormed (by omega)).1 none
  · exact (ords.inSection.off formed.wellFormed (by omega)).1 none

theorem Image.WellFormed.hasTable {f : Image} (hf : f.WellFormed) : f.HasTable := by
  intro s hs
  have fits := hf.headers
  have count : (sectionHeaders f.bytes).length = sectionCount f.bytes := by
    rw [sectionHeaders, List.length_map, List.length_range]
    rfl
  rw [count] at fits
  rw [shdrOff]
  omega

/-- What `FindExport` reads lies in the file. -/
theorem Module.Formed.searched (formed : mod.Formed) (func : Text) (has : ∀ k, func.Has k) :
    mod.Searched func where
  header := formed.header
  directory _ := formed.wellFormed.hasTable.looksUp _
  arrays some _ := by
    have looks := formed.wellFormed.hasTable.looksUp
    exact ⟨((formed.directory some).inSection.off formed.wellFormed (by decide)).2, looks _, looks _,
      looks _⟩
  entries names i hi _ := by
    obtain ⟨funcs, table, ords⟩ := formed.arrays names.rva (by omega)
    obtain ⟨len, zero, name⟩ := formed.names names.rva i hi
    have number := formed.ordinals names.rva i hi
    have inName := (name.inSection.off formed.wellFormed (Nat.succ_pos len)).2
    have inTable := (table.inSection.off formed.wellFormed (by omega)).2
    have inOrds := (ords.inSection.off formed.wellFormed (by omega)).2
    have inFuncs := (funcs.inSection.off formed.wellFormed (by omega)).2
    refine ⟨?_, formed.wellFormed.hasTable.looksUp _, fun _ => ?_, fun _ => ⟨?_, ?_⟩⟩
    · rw [Module.nmOff]
      omega
    · obtain ⟨s, le, stops⟩ := Text.stops (t := Text.file mod.pe (mod.nameOff i).toNat) zero func
      refine ⟨s, stops, ?_, has s⟩
      show (mod.nameOff i).toNat + s < mod.pe.size
      rw [Module.nameOff]
      omega
    · rw [Module.orOff]
      omega
    · rw [Module.fnOff]
      omega

/-- **`FindExport`** gives the address in the export table. -/
theorem Module.Formed.findExport (formed : mod.Formed) (name : List u8) :
    ∀ᶠ fuel in atTop, Kernel.findExport fuel mod (Text.name name).byte = mod.exportVa (.name name) := by
  have terminated : (Text.name name).Terminated :=
    ⟨name.length, List.getD_eq_default name 0 le_rfl, trivial⟩
  filter_upwards [FileReads.findExport_ends terminated (formed.searched _ fun _ => trivial)] with
    fuel found
  exact FileReads.findExport_eq found

theorem firstWith_none {α : Type} {P : α → Prop} {l : List α} (h : ∀ a ∈ l, ¬ P a) :
    firstWith P l = none := by
  induction l with
  | nil => rfl
  | cons a l ih =>
    rw [firstWith_neg (h a List.mem_cons_self)]
    exact ih fun b hb => h b (List.mem_cons_of_mem a hb)

theorem firstWith_some {α : Type} {P : α → Prop} {l : List α} {a : α} (ha : a ∈ l) (h : P a) :
    ∃ b ∈ l, P b ∧ firstWith P l = some b := by
  induction l with
  | nil => cases ha
  | cons c l ih =>
    by_cases first : P c
    · exact ⟨c, List.mem_cons_self, first, firstWith_pos first l⟩
    · rw [firstWith_neg first]
      rcases List.mem_cons.mp ha with rfl | ha
      · exact absurd h first
      · obtain ⟨b, hb, found⟩ := ih ha
        exact ⟨b, List.mem_cons_of_mem c hb, found⟩

/-- The address of a name that is in the table, and 0 for another. -/
theorem Module.Formed.exportVa (formed : mod.Formed) (func : Text) :
    (∀ va, mod.Assigns func va → mod.exportVa func = va) ∧
      ((¬ ∃ va, mod.Assigns func va) → mod.exportVa func = 0) := by
  constructor
  · rintro va ⟨some, i, hi, exports, rfl⟩
    rw [Module.exportVa, if_pos (formed.hasNames some (by omega)), Module.exportFrom]
    have mem : i ∈ List.range' 0 (mod.exportWord 24).toNat := List.mem_range'_1.mpr (by omega)
    obtain ⟨j, hj, also, found⟩ := firstWith_some mem exports
    have inside := List.mem_range'_1.mp hj
    rw [found, formed.unique func j i (by omega) hi also exports, Option.elim_some]
  · intro none
    rw [Module.exportVa]
    split
    case isFalse => rfl
    case isTrue names =>
      have miss : ∀ i ∈ List.range' 0 (mod.exportWord 24).toNat, ¬ mod.Exports func i := by
        intro i hi exports
        have inside := List.mem_range'_1.mp hi
        exact none ⟨_, names.rva, i, by omega, exports, rfl⟩
      rw [Module.exportFrom, firstWith_none miss, Option.elim_none]

end

def onlySection : SectionHeader := ⟨0x200#32, 0x2000#32, 0x200#32, 0x1200#32, 0#32⟩

/-- What the headers of such a module say. -/
structure SmallModule (m : Module) : Prop where
  base : m.imageBase = 0x180000000#64
  size : m.pe.size = 0x1400
  header : optOff m.pe.bytes + 116 ≤ 0x1400
  headers : optOff m.pe.bytes + (u16At m.pe.bytes (peOff m.pe.bytes + 4 + 16)).toNat + 40 ≤ 0x1400
  imports : importRva m.pe.bytes = 0
  sections : sectionHeaders m.pe.bytes = [onlySection]
  directory : m.exportRva = 0x2000#32
  count : m.exportWord 20 = 1#32 ∧ m.exportWord 24 = 1#32
  arrays : m.exportWord 28 = 0x2040#32 ∧ m.exportWord 32 = 0x2050#32 ∧ m.exportWord 36 = 0x2060#32
  name : m.nameRva 0 = 0x2070#32 ∧ m.pe.bytes ((m.nameOff 0).toNat + 1) = 0
  ord : m.exportOrd 0 = 0

theorem SmallModule.formed {m : Module} (h : SmallModule m) : m.Formed := by
  have only : ∀ g ∈ sectionHeaders m.pe.bytes, g = onlySection := by
    intro g hg
    rw [h.sections] at hg
    exact List.mem_singleton.mp hg
  have unpatched : ∀ va, ¬ m.pe.IatByte m.imageBase va := fun va slot => slot.1 h.imports
  have table : ∀ (rva : u32) n, 0x2000 ≤ rva.toNat → rva.toNat + n ≤ 0x2200 →
      m.pe.Table m.imageBase rva n := by
    intro rva n first last
    refine ⟨⟨onlySection, ?_, by decide, by decide, by decide, by decide, first, last⟩,
      fun _ _ => unpatched _⟩
    rw [h.sections]
    exact List.mem_cons_self
  have first : ∀ i, i < (m.exportWord 24).toNat → i = 0 := by
    rw [h.count.2]
    exact fun i hi => Nat.lt_one_iff.mp hi
  refine ⟨?_, ⟨?_, ?_, ?_, ?_, ?_, ?_⟩, ?_, fun _ _ => unpatched _, fun _ => ?_, fun _ _ => ?_,
    fun _ i hi => ?_, fun _ i hi => ?_, fun _ i j hi hj _ _ => (first i hi).trans (first j hj).symm⟩
  · rw [h.base]
    decide
  · rw [h.sections, h.size]
    exact h.headers
  · exact fun g hg => by rw [only g hg]; decide
  · exact fun g hg => by rw [only g hg]; decide
  · exact fun g hg => by rw [only g hg]; decide
  · rw [h.sections]
    exact List.pairwise_singleton _ _
  · exact fun g hg => by rw [only g hg, h.size]; decide
  · rw [h.size]
    exact h.header
  · rw [h.directory]
    exact table _ _ (by decide) (by decide)
  · rw [h.count.1, h.count.2, h.arrays.1, h.arrays.2.1, h.arrays.2.2]
    exact ⟨table _ _ (by decide) (by decide), table _ _ (by decide) (by decide),
      table _ _ (by decide) (by decide)⟩
  · obtain rfl := first i hi
    refine ⟨1, h.name.2, ?_⟩
    rw [h.name.1]
    exact table _ _ (by decide) (by decide)
  · obtain rfl := first i hi
    rw [h.ord, h.count.1]
    decide

end MicroNT.Kernel
