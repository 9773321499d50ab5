import MicroNT.PageStores
import MicroNT.PeImage

/-! # What `ResolveImports` writes

The import table and the modules determine which words are stored where, and the status.
Memory only takes the words. -/

namespace MicroNT.Kernel

open MicroNT.PMM hiding step Op System
open MicroNT.VMM MicroNT.Boot MicroNT.Base.Radix

/-! ## The words of the import loops -/

/-- A status, and the words that are stored on the way to it. -/
abbrev Patches := Option Status × List (u64 × u64)

def slotPatches (fuel : Nat) (f : Nat → u8) (mod : Module) (loadBase : u64)
    (d : ImportDescriptor) : Nat → Nat → Patches
  | 0, _ => (none, [])
  | n + 1, slot =>
    let thunk := thunkAt f d slot
    if thunk = 0 then (some .success, [])
    else if thunk >>> 63 ≠ 0 then slotPatches fuel f mod loadBase d n (slot + 1)
    else
      let ibnOff := rvaToOff f (thunk.setWidth 32)
      if ibnOff = 0 then slotPatches fuel f mod loadBase d n (slot + 1)
      else
        let funcVa := findExport fuel mod (strAt f (ibnOff.toNat + 2))
        if funcVa = 0 then (some .notFound, [])
        else
          let r := slotPatches fuel f mod loadBase d n (slot + 1)
          (r.1, (iatSlotVa loadBase d slot, funcVa) :: r.2)

def descriptorPatches (fuel : Nat) (f : Nat → u8) (mods : List Module) (loadBase : u64) :
    Nat → Nat → Patches
  | 0, _ => (none, [])
  | n + 1, idx =>
    let d := importAt f idx
    if d.Last then (some .success, [])
    else
      let dllOff := rvaToOff f d.dllRva
      if dllOff = 0 then descriptorPatches fuel f mods loadBase n (idx + 1)
      else
        match findModule fuel mods (strAt f dllOff.toNat) with
        | none => (some .notFound, [])
        | some mod =>
          if d.thunks f = 0 then descriptorPatches fuel f mods loadBase n (idx + 1)
          else
            let r := slotPatches fuel f mod loadBase d fuel 0
            if r.1 = some .success then
              let q := descriptorPatches fuel f mods loadBase n (idx + 1)
              (q.1, r.2 ++ q.2)
            else r

def importPatches (fuel : Nat) (f : Nat → u8) (mods : List Module) (loadBase : u64) : Patches :=
  if importRva f = 0 then (some .success, [])
  else if rvaToOff f (importRva f) = 0 then (some .invalidImageFormat, [])
  else descriptorPatches fuel f mods loadBase fuel 0

/-! ## Memory takes the words -/

section

variable {fuel : Nat} {f : Nat → u8} {mod : Module} {mods : List Module} {p loadBase : u64}
  {s₀ s : Vmm} {L : List (Piece × u64)} {view : u64 → u8}

theorem putWords_cons (view : u64 → u8) (w : u64 × u64) (ws : List (u64 × u64)) :
    putWords view (w :: ws) = putWords (putWord view w.1 w.2) ws := rfl

theorem putWords_append (view : u64 → u8) (vs ws : List (u64 × u64)) :
    putWords view (vs ++ ws) = putWords (putWords view vs) ws := List.foldl_append

theorem Views.patchSlots (h : Views p s₀ L s view) (d : ImportDescriptor) (n slot : Nat)
    (whole : ∀ w ∈ (slotPatches fuel f mod loadBase d n slot).2, Whole L w.1) :
    (patchSlots fuel f mod p loadBase d n slot s).1 = (slotPatches fuel f mod loadBase d n slot).1 ∧
      Views p s₀ L (patchSlots fuel f mod p loadBase d n slot s).2
        (putWords view (slotPatches fuel f mod loadBase d n slot).2) := by
  induction n generalizing slot s view with
  | zero => exact ⟨rfl, h⟩
  | succ n ih =>
    rw [slotPatches] at whole ⊢
    rw [Kernel.patchSlots]
    simp only at whole ⊢
    split
    case isTrue => exact ⟨rfl, h⟩
    case isFalse some =>
      rw [if_neg some] at whole
      split
      case isTrue ordinal =>
        rw [if_pos ordinal] at whole
        exact ih h (slot + 1) whole
      case isFalse named =>
        rw [if_neg named] at whole
        split
        case isTrue unmapped =>
          rw [if_pos unmapped] at whole
          exact ih h (slot + 1) whole
        case isFalse mapped =>
          rw [if_neg mapped] at whole
          split
          case isTrue => exact ⟨rfl, h⟩
          case isFalse found =>
            rw [if_neg found] at whole
            obtain ⟨patched, views⟩ :=
              h.patchIatSlot (whole _ List.mem_cons_self) (findExport fuel mod _)
            rw [if_pos patched, putWords_cons]
            exact ih views (slot + 1) fun w hw => whole w (List.mem_cons_of_mem _ hw)

theorem Views.resolveDescriptors (h : Views p s₀ L s view) (n idx : Nat)
    (whole : ∀ w ∈ (descriptorPatches fuel f mods loadBase n idx).2, Whole L w.1) :
    (resolveDescriptors fuel f mods p loadBase n idx s).1 =
        (descriptorPatches fuel f mods loadBase n idx).1 ∧
      Views p s₀ L (resolveDescriptors fuel f mods p loadBase n idx s).2
        (putWords view (descriptorPatches fuel f mods loadBase n idx).2) := by
  induction n generalizing idx s view with
  | zero => exact ⟨rfl, h⟩
  | succ n ih =>
    rw [descriptorPatches] at whole ⊢
    rw [Kernel.resolveDescriptors]
    simp only at whole ⊢
    split
    case isTrue => exact ⟨rfl, h⟩
    case isFalse more =>
      rw [if_neg more] at whole
      split
      case isTrue unmapped =>
        rw [if_pos unmapped] at whole
        exact ih h (idx + 1) whole
      case isFalse mapped =>
        rw [if_neg mapped] at whole
        cases named : findModule fuel mods (strAt f (rvaToOff f (importAt f idx).dllRva).toNat) with
        | none => exact ⟨rfl, h⟩
        | some mod =>
          rw [named] at whole
          simp only at whole ⊢
          split
          case isTrue unmapped =>
            rw [if_pos unmapped] at whole
            exact ih h (idx + 1) whole
          case isFalse thunks =>
            rw [if_neg thunks] at whole
            by_cases success : (slotPatches fuel f mod loadBase (importAt f idx) fuel 0).1 = some .success
            · rw [if_pos success] at whole
              obtain ⟨status, views⟩ := h.patchSlots (importAt f idx) fuel 0 fun w hw =>
                whole w (List.mem_append_left _ hw)
              rw [if_pos (status.trans success), if_pos success, putWords_append]
              exact ih views (idx + 1) fun w hw => whole w (List.mem_append_right _ hw)
            · rw [if_neg success] at whole
              obtain ⟨status, views⟩ := h.patchSlots (importAt f idx) fuel 0 whole
              rw [if_neg (status ▸ success), if_neg success]
              exact ⟨status, views⟩

/-- **`ResolveImports`** stores the words of the import table. -/
theorem Views.resolveImports (h : Views p s₀ L s view)
    (whole : ∀ w ∈ (importPatches fuel f mods loadBase).2, Whole L w.1) :
    (resolveImports fuel f mods p loadBase s).1 = (importPatches fuel f mods loadBase).1 ∧
      Views p s₀ L (resolveImports fuel f mods p loadBase s).2
        (putWords view (importPatches fuel f mods loadBase).2) := by
  rw [importPatches] at whole ⊢
  rw [Kernel.resolveImports]
  split
  case isTrue => exact ⟨rfl, h⟩
  case isFalse table =>
    rw [if_neg table] at whole
    split
    case isTrue => exact ⟨rfl, h⟩
    case isFalse mapped =>
      rw [if_neg mapped] at whole
      exact h.resolveDescriptors fuel 0 whole

end

end MicroNT.Kernel
