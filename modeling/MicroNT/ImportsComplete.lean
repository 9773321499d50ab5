import MicroNT.LoadedImage

/-! # When import resolution is complete

`ResolveImports` reports success once it has walked through the import table. It fails at
a module or an export that it misses, but steps over a descriptor whose module name or
thunk table is not mapped, an import by ordinal, and one whose name is not mapped. -/

namespace MicroNT.Kernel

open Filter
open MicroNT.PMM hiding step Op System
open MicroNT.VMM MicroNT.Boot MicroNT.Base.Radix
open FileReads (Text)

/-! ## The import table -/

section

variable (f : Image) (mods : List Module)

def Image.HasImports : Prop := importRva f.bytes ≠ 0 ∧ rvaToOff f.bytes (importRva f.bytes) ≠ 0

/-- Descriptor `idx` is in the table. -/
def Image.Describes (idx : Nat) : Prop := f.HasImports ∧ ∀ i, i ≤ idx → ¬ (importAt f.bytes i).Last

/-- Slot `k` is in the thunk table. -/
def Image.HasSlot (d : ImportDescriptor) (k : Nat) : Prop :=
  ∀ j, j ≤ k → thunkAt f.bytes d j ≠ 0

/-- The address of the export that slot `k` names, in the module the descriptor names:
the module's base plus the export's RVA. -/
noncomputable def Image.importVa (d : ImportDescriptor) (k : Nat) : u64 :=
  (moduleNamed mods (f.dllName d)).elim 0 fun m => m.exportVa (f.importName d k)

/-- Every import of the descriptor can be resolved. -/
structure Image.Resolves (d : ImportDescriptor) : Prop where
  dll : rvaToOff f.bytes d.dllRva ≠ 0
  named : ∃ m, moduleNamed mods (f.dllName d) = some m
  thunks : d.thunks f.bytes ≠ 0
  slots : ∀ k, f.HasSlot d k → f.ByName d k ∧ f.importVa mods d k ≠ 0

/-- A slot that the loader has a name for. -/
structure Image.Slot (x : Nat × Nat) : Prop where
  describes : f.Describes x.1
  dll : rvaToOff f.bytes (importAt f.bytes x.1).dllRva ≠ 0
  thunks : (importAt f.bytes x.1).thunks f.bytes ≠ 0
  has : f.HasSlot (importAt f.bytes x.1) x.2
  byName : f.ByName (importAt f.bytes x.1) x.2

def Image.slotVa (loadBase : u64) (x : Nat × Nat) : u64 :=
  iatSlotVa loadBase (importAt f.bytes x.1) x.2

noncomputable def Image.importWord (loadBase : u64) (x : Nat × Nat) : u64 × u64 :=
  (f.slotVa loadBase x, f.importVa mods (importAt f.bytes x.1) x.2)

/-- What the loader comes to lies in the files, and the slots lie apart in the image. -/
structure Image.ImportsFormed (loadBase : u64) : Prop where
  ends : f.HasImports → ∃ n, f.ImportsEnd mods 0 n
  inside : ∀ x, f.Slot x → ∀ j, j < 8 → f.Covers loadBase (f.slotVa loadBase x + BitVec.ofNat 64 j)
  apart : ∀ x y, f.Slot x → f.Slot y → x ≠ y →
    ∀ va, ¬ (InWord (f.slotVa loadBase x) va ∧ InWord (f.slotVa loadBase y) va)

/-- **Complete or failed.** On success every slot holds the address of its export and no
other byte of the image has changed; if an import cannot be resolved, this is no success. -/
structure ImportsRight (loadBase : u64) (before after : u64 → u8) (st : Status) : Prop where
  slots : st = .success → ∀ idx, f.Describes idx → ∀ k, f.HasSlot (importAt f.bytes idx) k →
    wordAt after (f.slotVa loadBase (idx, k)) = f.importVa mods (importAt f.bytes idx) k
  others : st = .success → ∀ va, f.Covers loadBase va →
    (∀ idx k, f.Describes idx → f.HasSlot (importAt f.bytes idx) k →
      ¬ InWord (f.slotVa loadBase (idx, k)) va) → after va = before va
  fails : (∃ idx, f.Describes idx ∧ ¬ f.Resolves mods (importAt f.bytes idx)) → st ≠ .success

/-- Unless a module or an export is missing, no import is stepped over. -/
def Image.SkipsNone : Prop := f.HasImports → ∀ n, (∀ k, k < n → f.Passed mods (importAt f.bytes k)) →
  (importAt f.bytes n).Last → ∀ k, k < n → f.Resolves mods (importAt f.bytes k)

end

/-! ## The words of the table -/

/-- The loop ends with this status; its words are those of the slots in `Among`. -/
def Image.Keyed (f : Image) (mods : List Module) (loadBase : u64) (r : Patches) (st : Status)
    (Among : Nat × Nat → Prop) : Prop :=
  ∃ keys : List (Nat × Nat), r = (some st, keys.map (f.importWord mods loadBase)) ∧ keys.Nodup ∧
    ∀ x, x ∈ keys ↔ Among x

section

variable {f : Image} {mods : List Module} {m : Module} {fuel : Nat} {loadBase : u64}

theorem Image.Keyed.congr {r : Patches} {st : Status} {P Q : Nat × Nat → Prop}
    (h : f.Keyed mods loadBase r st P) (same : ∀ x, P x ↔ Q x) : f.Keyed mods loadBase r st Q := by
  obtain ⟨keys, words, nodup, mem⟩ := h
  exact ⟨keys, words, nodup, fun x => (mem x).trans (same x)⟩

theorem Image.keyed_nil {st : Status} {P : Nat × Nat → Prop} (none : ∀ x, ¬ P x) :
    f.Keyed mods loadBase (some st, []) st P :=
  ⟨[], rfl, List.nodup_nil, fun x => iff_of_false List.not_mem_nil (none x)⟩

/-- With enough rounds, the slots of a descriptor give the words of its imports. -/
theorem slotPatches_ends {idx e : Nat}
    (named : moduleNamed mods (f.dllName (importAt f.bytes idx)) = some m)
    (found : ∀ k, k ≤ e → f.ByName (importAt f.bytes idx) k →
      findExport fuel m (strAt f.bytes ((f.ibnOff (importAt f.bytes idx) k).toNat + 2)) =
        m.exportVa (f.importName (importAt f.bytes idx) k))
    (n slot : Nat) (ends : f.SlotsEnd m (importAt f.bytes idx) slot e) (hn : e < slot + n) :
    f.Keyed mods loadBase (slotPatches fuel f.bytes m loadBase (importAt f.bytes idx) n slot)
      (if thunkAt f.bytes (importAt f.bytes idx) e = 0 then .success else .notFound)
      (fun x => x.1 = idx ∧ slot ≤ x.2 ∧ x.2 < e ∧ f.ByName (importAt f.bytes idx) x.2) := by
  induction n generalizing slot with
  | zero => exact absurd ends.start (by omega)
  | succ n ih =>
    have start := ends.start
    -- a slot that ends nothing
    have next : f.Resolved m (importAt f.bytes idx) slot → slot ≠ e ∧
        f.SlotsEnd m (importAt f.bytes idx) (slot + 1) e := by
      intro resolved
      have ne : slot ≠ e := fun same => ends.last (same ▸ resolved)
      exact ⟨ne, by omega, ends.last, fun k h1 h2 => ends.before k (by omega) h2,
        fun k h1 h2 => ends.within k (by omega) h2⟩
    have stop : ¬ f.Resolved m (importAt f.bytes idx) slot → slot = e := fun no => by
      by_contra ne
      exact no (ends.before slot le_rfl (by omega))
    -- a slot without a name gives no word
    have skip : f.Resolved m (importAt f.bytes idx) slot → ¬ f.ByName (importAt f.bytes idx) slot →
        f.Keyed mods loadBase (slotPatches fuel f.bytes m loadBase (importAt f.bytes idx) n (slot + 1))
          (if thunkAt f.bytes (importAt f.bytes idx) e = 0 then .success else .notFound)
          (fun x => x.1 = idx ∧ slot ≤ x.2 ∧ x.2 < e ∧ f.ByName (importAt f.bytes idx) x.2) := by
      intro resolved unnamed
      obtain ⟨ne, rest⟩ := next resolved
      refine (ih (slot + 1) rest (by omega)).congr fun x => and_congr_right fun _ => ?_
      refine ⟨fun h => ⟨by omega, h.2⟩, fun h => ⟨?_, h.2⟩⟩
      have other : x.2 ≠ slot := fun at_ => unnamed (at_ ▸ h.2.2)
      omega
    rw [slotPatches]
    simp only
    split
    case isTrue last =>
      obtain rfl := stop fun resolved => resolved.1 last
      rw [if_pos last]
      exact Image.keyed_nil fun x h => by omega
    case isFalse more =>
      split
      case isTrue ordinal =>
        have unnamed : ¬ f.ByName (importAt f.bytes idx) slot := fun h => ordinal h.name
        exact skip ⟨more, fun h => absurd h unnamed⟩ unnamed
      case isFalse name =>
        split
        case isTrue unmapped =>
          have unnamed : ¬ f.ByName (importAt f.bytes idx) slot := fun h => h.off unmapped
          exact skip ⟨more, fun h => absurd h unnamed⟩ unnamed
        case isFalse mapped =>
          have byName : f.ByName (importAt f.bytes idx) slot := ⟨more, not_not.mp name, mapped⟩
          have va : findExport fuel m (strAt f.bytes ((rvaToOff f.bytes
              ((thunkAt f.bytes (importAt f.bytes idx) slot).setWidth 32)).toNat + 2)) =
                m.exportVa (f.importName (importAt f.bytes idx) slot) := found slot start byName
          rw [va]
          split
          case isTrue missing =>
            obtain rfl := stop fun resolved => resolved.2 byName missing
            rw [if_neg more]
            exact Image.keyed_nil fun x h => by omega
          case isFalse =>
            obtain ⟨ne, rest⟩ := next ⟨more, fun _ => by assumption⟩
            obtain ⟨keys, patches, nodup, mem⟩ := ih (slot + 1) rest (by omega)
            refine ⟨(idx, slot) :: keys, ?_, List.nodup_cons.mpr ⟨fun h => ?_, nodup⟩, fun x => ?_⟩
            · rw [patches, List.map_cons, Image.importWord, Image.importVa, named]
              rfl
            · exact absurd ((mem _).mp h).2.1 (Nat.not_succ_le_self slot)
            · rw [List.mem_cons, mem]
              constructor
              · rintro (rfl | ⟨here, after, before, name⟩)
                · exact ⟨rfl, le_rfl, by omega, byName⟩
                · exact ⟨here, by omega, before, name⟩
              · rintro ⟨here, after, before, name⟩
                by_cases at_ : x.2 = slot
                · exact .inl (Prod.ext here at_)
                · exact .inr ⟨here, by omega, before, name⟩

/-- The rounds are enough for what the first `n` descriptors name. -/
structure Image.Looked (f : Image) (mods : List Module) (fuel n : Nat) : Prop where
  modules : ∀ k, k ≤ n → ¬ (importAt f.bytes k).Last →
    rvaToOff f.bytes (importAt f.bytes k).dllRva ≠ 0 →
    findModule fuel mods (strAt f.bytes (rvaToOff f.bytes (importAt f.bytes k).dllRva).toNat) =
      moduleNamed mods (f.dllName (importAt f.bytes k))
  slots : ∀ k, k ≤ n → ∀ m, moduleNamed mods (f.dllName (importAt f.bytes k)) = some m →
    ∀ e, f.SlotsEnd m (importAt f.bytes k) 0 e → e < fuel ∧
      ∀ j, j ≤ e → f.ByName (importAt f.bytes k) j →
        findExport fuel m (strAt f.bytes ((f.ibnOff (importAt f.bytes k) j).toNat + 2)) =
          m.exportVa (f.importName (importAt f.bytes k) j)

theorem Image.ImportsEnd.looked {n : Nat} (ends : f.ImportsEnd mods 0 n) :
    ∀ᶠ fuel in atTop, f.Looked mods fuel n := by
  have modules : ∀ᶠ fuel in atTop, ∀ k ∈ {k | k ≤ n}, ¬ (importAt f.bytes k).Last →
      rvaToOff f.bytes (importAt f.bytes k).dllRva ≠ 0 →
      findModule fuel mods (strAt f.bytes (rvaToOff f.bytes (importAt f.bytes k).dllRva).toNat) =
        moduleNamed mods (f.dllName (importAt f.bytes k)) := by
    refine (eventually_all_finite (Set.finite_le_nat n)).mpr fun k hk => ?_
    by_cases read : ¬ (importAt f.bytes k).Last ∧ rvaToOff f.bytes (importAt f.bytes k).dllRva ≠ 0
    case neg => exact Eventually.of_forall fun fuel more mapped => absurd ⟨more, mapped⟩ read
    case pos =>
      have text := (ends.within k (Nat.zero_le k) hk).dll read.1 read.2
      filter_upwards [text.findModule mods] with fuel find
      exact fun _ _ => FileReads.findModule_eq find
  have slots : ∀ᶠ fuel in atTop, ∀ k ∈ {k | k ≤ n},
      ∀ m, moduleNamed mods (f.dllName (importAt f.bytes k)) = some m →
      ∀ e, f.SlotsEnd m (importAt f.bytes k) 0 e → e < fuel ∧
        ∀ j, j ≤ e → f.ByName (importAt f.bytes k) j →
          findExport fuel m (strAt f.bytes ((f.ibnOff (importAt f.bytes k) j).toNat + 2)) =
            m.exportVa (f.importName (importAt f.bytes k) j) := by
    refine (eventually_all_finite (Set.finite_le_nat n)).mpr fun k hk => ?_
    by_cases slots : ∃ m e, moduleNamed mods (f.dllName (importAt f.bytes k)) = some m ∧
      f.SlotsEnd m (importAt f.bytes k) 0 e
    case neg => exact Eventually.of_forall fun fuel m named e end_ => absurd ⟨m, e, named, end_⟩ slots
    case pos =>
      obtain ⟨m, e, named, end_⟩ := slots
      have exports : ∀ᶠ fuel in atTop, ∀ j ∈ {j | j ≤ e}, f.ByName (importAt f.bytes k) j →
          findExport fuel m (strAt f.bytes ((f.ibnOff (importAt f.bytes k) j).toNat + 2)) =
            m.exportVa (f.importName (importAt f.bytes k) j) := by
        refine (eventually_all_finite (Set.finite_le_nat e)).mpr fun j hj => ?_
        have slot := end_.within j (Nat.zero_le j) hj
        by_cases byName : f.ByName (importAt f.bytes k) j
        case neg => exact Eventually.of_forall fun fuel h => absurd h byName
        case pos =>
          filter_upwards [FileReads.findExport_ends (slot.name byName) (slot.searched byName)] with
            fuel found
          exact fun _ => FileReads.findExport_eq found
      filter_upwards [exports, eventually_gt_atTop e] with fuel exports more
      intro m' named' e' end'
      obtain rfl : m' = m := Option.some.inj (named'.symm.trans named)
      obtain rfl := end'.unique end_
      exact ⟨more, exports⟩
  filter_upwards [modules, slots] with fuel modules slots
  exact ⟨modules, slots⟩

/-- The loader gets past a descriptor exactly if its thunk table ends without a miss. -/
theorem Image.SlotsEnd.passed_iff {idx e : Nat} (more : ¬ (importAt f.bytes idx).Last)
    (mapped : rvaToOff f.bytes (importAt f.bytes idx).dllRva ≠ 0)
    (named : moduleNamed mods (f.dllName (importAt f.bytes idx)) = some m)
    (thunks : (importAt f.bytes idx).thunks f.bytes ≠ 0)
    (ends : f.SlotsEnd m (importAt f.bytes idx) 0 e) :
    f.Passed mods (importAt f.bytes idx) ↔ thunkAt f.bytes (importAt f.bytes idx) e = 0 := by
  constructor
  · intro passed
    obtain ⟨m', named', slots⟩ := passed.2 mapped
    obtain rfl : m' = m := Option.some.inj (named'.symm.trans named)
    obtain ⟨j, before, zero⟩ := slots thunks
    rcases Nat.lt_trichotomy j e with less | rfl | more
    · exact absurd zero (ends.before j (Nat.zero_le j) less).1
    · exact zero
    · exact absurd (before e more) ends.last
  · intro zero
    exact ⟨more, fun _ => ⟨m, named, fun _ => ⟨e, fun k hk => ends.before k (Nat.zero_le k) hk, zero⟩⟩⟩

/-- **The words of the import table**, and the status: a success if the table ends where
the loader does. -/
theorem descriptorPatches_ends (loadBase : u64) {n : Nat} (has : f.HasImports) (looked : f.Looked mods fuel n)
    (rounds idx : Nat) (before : ∀ i, i < idx → ¬ (importAt f.bytes i).Last)
    (ends : f.ImportsEnd mods idx n) (hn : n < idx + rounds) :
    ∃ Among : Nat × Nat → Prop,
      f.Keyed mods loadBase (descriptorPatches fuel f.bytes mods loadBase rounds idx)
        (if (importAt f.bytes n).Last then .success else .notFound) Among ∧
      (∀ x, Among x → idx ≤ x.1 ∧ f.Slot x) ∧
      ((importAt f.bytes n).Last → ∀ x, idx ≤ x.1 → f.Slot x → Among x) := by
  induction rounds generalizing idx with
  | zero => exact absurd ends.start (by omega)
  | succ rounds ih =>
    have start := ends.start
    have here := ends.within idx le_rfl start
    have at_end : ¬ f.Passed mods (importAt f.bytes idx) → idx = n := fun no => by
      by_contra ne
      exact no (ends.before idx le_rfl (by omega))
    rw [descriptorPatches]
    simp only
    split
    case isTrue last =>
      obtain rfl := at_end fun passed => passed.1 last
      rw [if_pos last]
      refine ⟨fun _ => False, Image.keyed_nil fun _ => id, fun _ no => absurd no id, ?_⟩
      exact fun _ x after slot => slot.describes.2 idx after last
    case isFalse more =>
      have upTo : ∀ i, i ≤ idx → ¬ (importAt f.bytes i).Last := fun i hi => by
        rcases Nat.lt_or_eq_of_le hi with hi | rfl
        · exact before i hi
        · exact more
      -- a descriptor that the loader gets past
      have next : f.Passed mods (importAt f.bytes idx) → ∃ Among : Nat × Nat → Prop,
          f.Keyed mods loadBase (descriptorPatches fuel f.bytes mods loadBase rounds (idx + 1))
            (if (importAt f.bytes n).Last then .success else .notFound) Among ∧
          (∀ x, Among x → idx + 1 ≤ x.1 ∧ f.Slot x) ∧
          ((importAt f.bytes n).Last → ∀ x, idx + 1 ≤ x.1 → f.Slot x → Among x) := by
        intro passed
        have ne : idx ≠ n := fun same => ends.last (same ▸ passed)
        exact ih (idx + 1) (fun i hi => upTo i (by omega)) ⟨by omega, ends.last,
          fun k h1 h2 => ends.before k (by omega) h2, fun k h1 h2 => ends.within k (by omega) h2⟩
          (by omega)
      -- one whose slots the loader has no name for
      have skip : f.Passed mods (importAt f.bytes idx) → (∀ k, ¬ f.Slot (idx, k)) →
          ∃ Among : Nat × Nat → Prop,
            f.Keyed mods loadBase (descriptorPatches fuel f.bytes mods loadBase rounds (idx + 1))
              (if (importAt f.bytes n).Last then .success else .notFound) Among ∧
            (∀ x, Among x → idx ≤ x.1 ∧ f.Slot x) ∧
            ((importAt f.bytes n).Last → ∀ x, idx ≤ x.1 → f.Slot x → Among x) := by
        intro passed none
        obtain ⟨Among, keyed, slots, all⟩ := next passed
        refine ⟨Among, keyed, fun x hx => ⟨by have := (slots x hx).1; omega, (slots x hx).2⟩, ?_⟩
        intro last x after slot
        refine all last x (Nat.lt_of_le_of_ne after fun same => none x.2 ?_) slot
        rw [same]
        exact slot
      split
      case isTrue unmapped =>
        exact skip ⟨more, fun mapped => absurd unmapped mapped⟩ fun k slot => slot.dll unmapped
      case isFalse mapped =>
        rw [looked.modules idx start more mapped]
        cases named : moduleNamed mods (f.dllName (importAt f.bytes idx)) with
        | none =>
          have missing : ¬ f.Passed mods (importAt f.bytes idx) := by
            intro passed
            obtain ⟨m, some, -⟩ := passed.2 mapped
            rw [named] at some
            cases some
          obtain rfl := at_end missing
          rw [if_neg more]
          exact ⟨fun _ => False, Image.keyed_nil fun _ => id, fun _ no => absurd no id,
            fun last => absurd last more⟩
        | some m =>
          simp only
          split
          case isTrue unmapped =>
            exact skip ⟨more, fun _ => ⟨m, named, fun thunks => absurd unmapped thunks⟩⟩
              fun k slot => slot.thunks unmapped
          case isFalse thunks =>
            obtain ⟨e, slotsEnd⟩ := here.slots more mapped m named thunks
            obtain ⟨enough, found⟩ := looked.slots idx start m named e slotsEnd
            have passed := slotsEnd.passed_iff more mapped named thunks
            obtain ⟨keys, patches, nodup, mem⟩ :=
              slotPatches_ends named found fuel 0 slotsEnd (by omega)
            have keys_slot : ∀ x, x ∈ keys → x.1 = idx ∧ f.Slot x := by
              intro x hx
              obtain ⟨rfl, -, less, byName⟩ := (mem x).mp hx
              refine ⟨rfl, ⟨has, upTo⟩, mapped, thunks, fun j hj => ?_, byName⟩
              exact (slotsEnd.before j (Nat.zero_le j) (Nat.lt_of_le_of_lt hj less)).1
            rw [patches]
            by_cases zero : thunkAt f.bytes (importAt f.bytes idx) e = 0
            · rw [if_pos zero, if_pos rfl]
              obtain ⟨Among, ⟨more_keys, rest, nodup', mem'⟩, slots, all⟩ := next (passed.mpr zero)
              refine ⟨fun x => x ∈ keys ∨ Among x, ⟨keys ++ more_keys, ?_, ?_, fun x => ?_⟩, ?_, ?_⟩
              · rw [rest, List.map_append]
              · refine List.nodup_append.mpr ⟨nodup, nodup', fun x hx y hy same => ?_⟩
                have first := (keys_slot x hx).1
                have second := (slots y ((mem' y).mp hy)).1
                rw [same] at first
                omega
              · rw [List.mem_append, mem']
              · rintro x (hx | hx)
                · exact ⟨(keys_slot x hx).1.ge, (keys_slot x hx).2⟩
                · exact ⟨by have := (slots x hx).1; omega, (slots x hx).2⟩
              · intro last x after slot
                rcases Nat.lt_or_eq_of_le after with after | same
                · exact .inr (all last x after slot)
                · refine .inl ((mem x).mpr ⟨same.symm, Nat.zero_le _, ?_, same ▸ slot.byName⟩)
                  by_contra behind
                  have thunk := slot.has e (by omega)
                  rw [← same] at thunk
                  exact thunk zero
            · have stays : ¬ f.Passed mods (importAt f.bytes idx) := fun h => zero (passed.mp h)
              obtain rfl := at_end stays
              have miss : ¬ (some Status.notFound, keys.map (f.importWord mods loadBase)).1 =
                  some Status.success := fun no => by cases no
              rw [if_neg zero, if_neg miss, if_neg more]
              exact ⟨fun x => x ∈ keys, ⟨keys, rfl, nodup, fun _ => Iff.rfl⟩,
                fun x hx => ⟨(keys_slot x hx).1.ge, (keys_slot x hx).2⟩, fun last => absurd last more⟩

end

/-! ## The image -/

section

variable {f : Image} {mods : List Module} {pml4 loadBase : u64} {s₀ : Vmm}

/-- Words of different slots do not share a byte. -/
theorem Image.ImportsFormed.words_apart (formed : f.ImportsFormed mods loadBase)
    {keys : List (Nat × Nat)} (nodup : keys.Nodup) (slots : ∀ x ∈ keys, f.Slot x) :
    (keys.map (f.importWord mods loadBase)).Pairwise fun v w =>
      ∀ va, ¬ (InWord v.1 va ∧ InWord w.1 va) :=
  List.pairwise_map.mpr (nodup.imp_of_mem fun hx hy ne =>
    formed.apart _ _ (slots _ hx) (slots _ hy) ne)

/-- The words that a run stores, and what its status says about the table. -/
theorem Image.ImportsEnd.right_iff {fuel n : Nat} (has : f.HasImports)
    (ends : f.ImportsEnd mods 0 n) (looked : f.Looked mods fuel n) (enough : n < fuel)
    (formed : f.ImportsFormed mods loadBase) (before after : u64 → u8)
    (stored : ∀ va, f.Covers loadBase va →
      after va = putWords before (importPatches fuel f.bytes mods loadBase).2 va) :
    ∃ st, (importPatches fuel f.bytes mods loadBase).1 = some st ∧
      ((∀ w ∈ (importPatches fuel f.bytes mods loadBase).2, ∃ x, f.Slot x ∧ w.1 = f.slotVa loadBase x) ∧
        (ImportsRight f mods loadBase before after st ↔
          ((importAt f.bytes n).Last → ∀ k, k < n → f.Resolves mods (importAt f.bytes k)))) := by
  have start : importPatches fuel f.bytes mods loadBase =
      descriptorPatches fuel f.bytes mods loadBase fuel 0 := by
    rw [importPatches, if_neg has.1, if_neg has.2]
  obtain ⟨Among, ⟨keys, words, nodup, mem⟩, slots, all⟩ := descriptorPatches_ends loadBase
    has looked fuel 0 (fun i hi => absurd hi (Nat.not_lt_zero i)) ends (by omega)
  rw [start, words] at stored ⊢
  have keys_slot : ∀ x ∈ keys, f.Slot x := fun x hx => (slots x ((mem x).mp hx)).2
  have apart := formed.words_apart nodup keys_slot
  refine ⟨_, rfl, fun w hw => ?_, fun right last k hk => ?_, fun resolves => ⟨?_, ?_, ?_⟩⟩
  · obtain ⟨x, hx, rfl⟩ := List.mem_map.mp hw
    exact ⟨x, keys_slot x hx, rfl⟩
  · by_contra no
    have describes : f.Describes k := ⟨has, fun i hi => (ends.before i (Nat.zero_le i) (by omega)).1⟩
    exact right.fails ⟨k, describes, no⟩ (if_pos last)
  · intro success idx describes k slot
    have last : (importAt f.bytes n).Last := by
      by_contra more
      rw [if_neg more] at success
      cases success
    have less : idx < n := by
      by_contra behind
      exact describes.2 n (by omega) last
    have whole := resolves last idx less
    have named : f.Slot (idx, k) := ⟨describes, whole.dll, whole.thunks, slot, (whole.slots k slot).1⟩
    have key : (idx, k) ∈ keys := (mem _).mpr (all last _ (Nat.zero_le _) named)
    refine wordAt_eq fun va inside => ?_
    have covered : f.Covers loadBase va := by
      have at_ := formed.inside _ named _ inside
      rwa [← (sub_eq_ofNat (va - f.slotVa loadBase (idx, k)).isLt).mp rfl] at at_
    rw [stored va covered]
    exact putWords_inside apart (List.mem_map_of_mem key) inside
  · intro _ va covered outside
    rw [stored va covered]
    refine putWords_outside fun w hw => ?_
    obtain ⟨x, hx, rfl⟩ := List.mem_map.mp hw
    have slot := keys_slot x hx
    exact outside x.1 x.2 slot.describes slot.has
  · rintro ⟨idx, describes, no⟩ success
    have last : (importAt f.bytes n).Last := by
      by_contra more
      rw [if_neg more] at success
      cases success
    refine no (resolves last idx ?_)
    by_contra behind
    exact describes.2 n (by omega) last

/-- **Import resolution is complete or fails exactly if nothing is stepped over**: unless
the loader misses a module or an export, every descriptor's module name and thunk table
must be mapped, and every import must have a name that is. -/
theorem imports_right_iff (hf : f.WellFormed) (aligned : loadBase.toNat % PAGE_SIZE = 0)
    (space : UserSpace s₀ pml4) (mapped : (mapSections f pml4 loadBase s₀).1 = true)
    (formed : f.ImportsFormed mods loadBase)
    (follow : ∀ x, f.Slot x → PAGE_SIZE < (f.slotVa loadBase x).toNat % PAGE_SIZE + 8 → ∀ j, j < 8 →
      translateInPml4 (mapSections f pml4 loadBase s₀).2.mem pml4
          (f.slotVa loadBase x + BitVec.ofNat 64 j) =
        translateInPml4 (mapSections f pml4 loadBase s₀).2.mem pml4 (f.slotVa loadBase x) +
          BitVec.ofNat 64 j) :
    (∀ᶠ fuel in atTop, ∃ st s,
      resolveImports fuel f.bytes mods pml4 loadBase (mapSections f pml4 loadBase s₀).2 = (some st, s) ∧
        ImportsRight f mods loadBase (byteAt (mapSections f pml4 loadBase s₀).2.mem pml4)
          (byteAt s.mem pml4) st) ↔ f.SkipsNone mods := by
  obtain ⟨L, same, alignedL, laid⟩ := mapSections_laid hf aligned space mapped
  have views := laid.views alignedL
  generalize (mapSections f pml4 loadBase s₀).2 = s at *
  by_cases has : f.HasImports
  case neg =>
    refine iff_of_true (Eventually.of_forall fun fuel => ?_) fun yes => absurd yes has
    obtain ⟨st, run⟩ : ∃ st, resolveImports fuel f.bytes mods pml4 loadBase s = (some st, s) := by
      rw [resolveImports]
      by_cases table : importRva f.bytes = 0
      · exact ⟨_, if_pos table⟩
      · have off : rvaToOff f.bytes (importRva f.bytes) = 0 := not_not.mp fun off => has ⟨table, off⟩
        exact ⟨_, (if_neg table).trans (if_pos off)⟩
    refine ⟨st, s, run, ⟨fun _ idx no => absurd no.1 has, fun _ _ _ _ => rfl, ?_⟩⟩
    rintro ⟨idx, no, -⟩
    exact absurd no.1 has
  case pos =>
    obtain ⟨n, ends⟩ := formed.ends has
    have condition : f.SkipsNone mods ↔
        ((importAt f.bytes n).Last → ∀ k, k < n → f.Resolves mods (importAt f.bytes k)) := by
      constructor
      · exact fun none last => none has n (fun k hk => ends.before k (Nat.zero_le k) hk) last
      · intro all _ n' passed last
        have same : n' = n := by
          rcases Nat.lt_trichotomy n' n with less | same | more
          · exact absurd last (ends.before n' (Nat.zero_le _) less).1
          · exact same
          · exact absurd (passed n more) ends.last
        subst same
        exact all last
    rw [condition]
    refine Iff.trans (eventually_congr ?_) eventually_const
    filter_upwards [ends.looked, eventually_gt_atTop n] with fuel looked enough
    -- the words go to slots of the image
    obtain ⟨_, _, slots, _⟩ := ends.right_iff has looked enough formed (byteAt s.mem pml4)
      (putWords (byteAt s.mem pml4) (importPatches fuel f.bytes mods loadBase).2) fun _ _ => rfl
    have whole : ∀ w ∈ (importPatches fuel f.bytes mods loadBase).2, Whole L w.1 := by
      intro w hw
      obtain ⟨x, slot, at_⟩ := slots w hw
      rw [at_]
      exact laid.whole alignedL same (formed.inside x slot) (follow x slot)
    obtain ⟨status, after⟩ := views.resolveImports whole
    obtain ⟨st, is, -, right⟩ := ends.right_iff has looked enough formed (byteAt s.mem pml4)
      (byteAt (resolveImports fuel f.bytes mods pml4 loadBase s).2.mem pml4) fun va covered => by
        obtain ⟨phys, place⟩ := (covers_iff same).mp covered
        exact after.bytes va phys place
    rw [is] at status
    rw [← right]
    constructor
    · rintro ⟨st', t, run, ok⟩
      rw [run] at status
      obtain rfl : st' = st := Option.some.inj status
      rw [run]
      exact ok
    · exact fun ok => ⟨st, _, Prod.ext status rfl, ok⟩

end

/-! ## A file that imports by ordinal -/

/-- One descriptor, for the module `a`; its only import is the ordinal 1. -/
def ordinalFile : Image := twoSections [(209, 0x10), (0x200, 0x40), (0x201, 0x10), (0x20C, 0x60),
  (0x20D, 0x10), (0x210, 0x50), (0x211, 0x10), (0x240, 1), (0x247, 0x80), (0x250, 1), (0x257, 0x80),
  (0x260, 0x61)]

def moduleA : Module := ⟨[0x61], 0x180000000#64, ordinalFile⟩

theorem ordinalFile_describes {idx : Nat} (h : ordinalFile.Describes idx) : idx = 0 := by
  have last : (importAt ordinalFile.bytes 1).Last := by decide
  by_contra more
  exact h.2 1 (by omega) last

theorem ordinalFile_unnamed (k : Nat) (h : ordinalFile.HasSlot (importAt ordinalFile.bytes 0) k) :
    ¬ ordinalFile.ByName (importAt ordinalFile.bytes 0) k := by
  have last : thunkAt ordinalFile.bytes (importAt ordinalFile.bytes 0) 1 = 0 := by decide
  have first : k = 0 := by
    by_contra more
    exact h 1 (by omega) last
  subst first
  intro named
  have ordinal : thunkAt ordinalFile.bytes (importAt ordinalFile.bytes 0) 0 >>> 63 ≠ 0 := by decide
  exact ordinal named.name

theorem ordinalFile_no_slot (x : Nat × Nat) : ¬ ordinalFile.Slot x := by
  intro slot
  obtain ⟨idx, k⟩ := x
  obtain rfl : idx = 0 := ordinalFile_describes slot.describes
  exact ordinalFile_unnamed k slot.has slot.byName

theorem ordinalFile_hasImports : ordinalFile.HasImports := by
  constructor
  · decide
  · decide

theorem moduleA_named : moduleNamed [moduleA] (ordinalFile.dllName (importAt ordinalFile.bytes 0)) =
    some moduleA := by
  refine firstWith_pos ⟨1, ⟨fun j hj => ?_, fun no => ?_⟩, ?_⟩ []
  · obtain rfl : j = 0 := by omega
    decide
  · exact no.1 rfl
  · decide

theorem ordinalFile_formed : ordinalFile.ImportsFormed [moduleA] 0x500000000#64 where
  ends _ := by
    have zero : thunkAt ordinalFile.bytes (importAt ordinalFile.bytes 0) 1 = 0 := by decide
    have resolved : ∀ k, k < 1 → ordinalFile.Resolved moduleA (importAt ordinalFile.bytes 0) k := by
      intro k hk
      obtain rfl : k = 0 := by omega
      have some : thunkAt ordinalFile.bytes (importAt ordinalFile.bytes 0) 0 ≠ 0 := by decide
      refine ⟨some, fun named => ?_⟩
      refine absurd named (ordinalFile_unnamed 0 fun j hj => ?_)
      obtain rfl : j = 0 := by omega
      exact some
    have slots : ordinalFile.SlotsEnd moduleA (importAt ordinalFile.bytes 0) 0 1 := by
      refine ⟨by decide, fun more => more.1 zero, fun k _ hk => resolved k hk, fun k _ hk => ?_⟩
      have unnamed : ¬ ordinalFile.ByName (importAt ordinalFile.bytes 0) k := by
        rcases Nat.lt_or_eq_of_le hk with less | rfl
        · exact ordinalFile_unnamed k fun j hj => (resolved j (by omega)).1
        · exact fun named => named.some zero
      refine ⟨?_, fun named => absurd named unnamed, fun named => absurd named unnamed⟩
      rcases (by omega : k = 0 ∨ k = 1) with rfl | rfl
      · decide
      · decide
    refine ⟨1, by decide, fun passed => passed.1 (by decide), fun k _ hk => ?_, fun k _ hk => ?_⟩
    · obtain rfl : k = 0 := by omega
      exact ⟨by decide, fun _ => ⟨moduleA, moduleA_named, fun _ => ⟨1, resolved, zero⟩⟩⟩
    · have ends : (rvaToOff ordinalFile.bytes (importAt ordinalFile.bytes 0).dllRva).toNat + 1 <
          ordinalFile.size := by decide
      rcases (by omega : k = 0 ∨ k = 1) with rfl | rfl
      · refine ⟨by decide, fun _ _ => ⟨1, by decide, ends⟩, fun _ _ m named _ => ⟨1, ?_⟩⟩
        rw [moduleA_named] at named
        exact Option.some.inj named ▸ slots
      · exact ⟨by decide, fun more => absurd (by decide) more, fun more => absurd (by decide) more⟩
  inside x slot := absurd slot (ordinalFile_no_slot x)
  apart x _ slot := absurd slot (ordinalFile_no_slot x)

theorem ordinalFile_wellFormed : ordinalFile.WellFormed :=
  have sections : TwoSections ordinalFile := rfl
  sections.wellFormed rfl (by decide)

/-- At this file, in an empty address space. -/
theorem imports_right_iff_ordinal :
    (∀ᶠ fuel in atTop, ∃ st s,
      resolveImports fuel ordinalFile.bytes [moduleA] 0x200000#64 0x500000000#64
          (mapSections ordinalFile 0x200000#64 0x500000000#64 emptyTree).2 = (some st, s) ∧
        ImportsRight ordinalFile [moduleA] 0x500000000#64
          (byteAt (mapSections ordinalFile 0x200000#64 0x500000000#64 emptyTree).2.mem 0x200000#64)
          (byteAt s.mem 0x200000#64) st) ↔ ordinalFile.SkipsNone [moduleA] :=
  imports_right_iff ordinalFile_wellFormed (by decide) userSpace_emptyTree (by decide +kernel)
    ordinalFile_formed fun x slot => absurd slot (ordinalFile_no_slot x)

/-- The import by ordinal is stepped over, and the status is a success. -/
theorem ordinal_import_left_open :
    (resolveImports 4 ordinalFile.bytes [moduleA] 0x200000#64 0x500000000#64
        (mapSections ordinalFile 0x200000#64 0x500000000#64 emptyTree).2).1 = some .success ∧
      ¬ ImportsRight ordinalFile [moduleA] 0x500000000#64
        (byteAt (mapSections ordinalFile 0x200000#64 0x500000000#64 emptyTree).2.mem 0x200000#64)
        (byteAt (resolveImports 4 ordinalFile.bytes [moduleA] 0x200000#64 0x500000000#64
          (mapSections ordinalFile 0x200000#64 0x500000000#64 emptyTree).2).2.mem 0x200000#64)
        .success := by
  refine ⟨by decide +kernel, fun right => ?_⟩
  have describes : ordinalFile.Describes 0 := by
    refine ⟨ordinalFile_hasImports, fun i hi => ?_⟩
    obtain rfl : i = 0 := by omega
    decide
  refine right.fails ⟨0, describes, fun resolves => ?_⟩ rfl
  have slot : ordinalFile.HasSlot (importAt ordinalFile.bytes 0) 0 := by
    intro j hj
    obtain rfl : j = 0 := by omega
    decide
  exact ordinalFile_unnamed 0 slot (resolves.slots 0 slot).1

end MicroNT.Kernel
