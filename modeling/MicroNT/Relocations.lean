import MicroNT.LoadedImage

/-! # Base relocations

A file lists the words that depend on its base. The loader does not read this list: an
image at another base than the preferred one is the image at the preferred base. -/

namespace MicroNT.Kernel

open MicroNT.PMM hiding step Op System
open MicroNT.VMM MicroNT.Boot MicroNT.Base.Radix

/-! ## The base relocation table -/

section

variable {fuel : Nat} {l l' : Loader} {f : Image} {pml4 pml4' loadBase base : u64} {rs : List u64}

/-- A successful load. -/
structure Loads (fuel : Nat) (f : Image) (l : Loader) (pml4 loadBase : u64) : Prop where
  space : UserSpace l.sys.vmm pml4
  placed : Placed l f pml4 loadBase
  success : (loadPe fuel l f pml4 loadBase).1 = some .success

/-- What user code sees after a load. -/
def shownBy (fuel : Nat) (f : Image) (l : Loader) (pml4 loadBase : u64) : u64 → u8 :=
  byteAt (loadPe fuel l f pml4 loadBase).2.2.sys.vmm.mem pml4

/-- Both images show the same bytes at the same offsets. -/
theorem Loads.same (hf : f.WellFormed) (h : Loads fuel f l pml4 loadBase)
    (h' : Loads fuel f l' pml4' base) (mods : l'.mods = l.mods) {x : u64} (hx : f.Covers 0 x) :
    shownBy fuel f l pml4 loadBase (loadBase + x) = shownBy fuel f l' pml4' base (base + x) := by
  have here := loadPe_view hf h.space h.placed h.success hx
  have there := loadPe_view hf h'.space h'.placed h'.success hx
  rw [mods] at there
  exact here.trans there.symm

end

/-! ## A file with a fixup -/

end MicroNT.Kernel
