import MicroNT.PageRoles

/-! # Memory set-up at boot (`bootloader.cpp`, `kernel_main.cpp`, `shareduserdata.cpp`)

The bootloader builds an identity map of the first 4 GB in six frames. The
kernel takes it over, allocates its heap, maps and unmaps a test page in slot
511, and splits one 2 MB page to show the shared user data page. -/

namespace MicroNT.Boot

open MicroNT.PMM MicroNT.VMM MicroNT.Base.Radix

/-- Entry `i` of the page directory for gigabyte `j`: a 2 MB identity page. -/
def pdEntry (j : Nat) (i : Index) : u64 :=
  BitVec.ofNat 64 ((j * 512 + i.toNat) * 0x200000) ||| 0x83#64

/-- The `k`-th of the six frames of `BuildPageTables`, which follow one another. -/
def frameAt (pt : u64) (k : Nat) : u64 := pt + BitVec.ofNat 64 (0x1000 * k)

def pdptAddr (pt : u64) : u64 := frameAt pt 1
def pdAddr (pt : u64) (j : Nat) : u64 := frameAt pt (j + 2)

def buildPageTables (m : Mem) (pt : u64) : Mem :=
  let m := fill m pt fun i => if i = 0#9 then pdptAddr pt ||| 3#64 else 0
  let m := fill m (pdptAddr pt) fun j => if j.toNat < 4 then pdAddr pt j.toNat ||| 3#64 else 0
  let m := fill m (pdAddr pt 0) (pdEntry 0)
  let m := fill m (pdAddr pt 1) (pdEntry 1)
  let m := fill m (pdAddr pt 2) (pdEntry 2)
  fill m (pdAddr pt 3) (pdEntry 3)

/-- `V2P`: the walk of `TranslateInPml4` without its huge-page test at the top. -/
def v2p (m : Mem) (pml4 virt : u64) : u64 :=
  let e1 := m pml4 (pml4Idx virt)
  if !has e1 PTE_PRESENT then 0
  else
    let e2 := m (e1 &&& PTE_ADDR_MASK) (pdptIdx virt)
    if !has e2 PTE_PRESENT then 0
    else if has e2 PTE_PS then (e2 &&& HUGE_1G_MASK) ||| (virt &&& 0x3FFFFFFF#64)
    else
      let e3 := m (e2 &&& PTE_ADDR_MASK) (pdIdx virt)
      if !has e3 PTE_PRESENT then 0
      else if has e3 PTE_PS then (e3 &&& HUGE_2M_MASK) ||| (virt &&& 0x1FFFFF#64)
      else
        let pte := m (e3 &&& PTE_ADDR_MASK) (ptIdx virt)
        if !has pte PTE_PRESENT then 0
        else (pte &&& PTE_ADDR_MASK) ||| (virt &&& 0xFFF#64)

/-- What `AllocKernelVA(1)` returns first. -/
abbrev TEST_VA : u64 := 0xFFFFFF8000000000#64

abbrev SENTINEL : u64 := 0xDEADBEEFCAFE0001#64

/-- The M3 smoke test, whose assertions panic. -/
def smokeTest (s : Vmm) : Option Vmm :=
  let r := allocPage s.pmm
  if r.1 = 0 then none
  else
    let q := mapPage { s with pmm := r.2 } TEST_VA r.1 (PTE_PRESENT ||| PTE_WRITABLE)
    if !q.1 then none
    else if v2p q.2.mem q.2.pml4Phys TEST_VA ≠ r.1 then none
    else
      let s := unmapPage { q.2 with mem := write q.2.mem r.1 0#9 SENTINEL } TEST_VA
      some { s with pmm := freePage s.pmm r.1 }

/-- `KUSER::Init`: `true` when the page is mapped. Its contents are `page`. -/
def kuserInit (s : Vmm) (page : Table) : Bool × Vmm :=
  let r := allocPage s.pmm
  if r.1 = 0 then (false, { s with pmm := r.2 })
  else mapSharedUserData { s with pmm := r.2, mem := fill s.mem r.1 page } r.1

abbrev HEAP_PAGES : Nat := 1024

/-- `kernel_main` up to `KUSER::Init`, or `none` where it panics. `VMM::Init`
reads the page tables' address from CR3. -/
def boot (m : Mem) (pt bmStart : u64) (bi : Option BootInfo) (page : Table) :
    Option (Bool × Vmm) :=
  let r := allocPages (init bmStart bi) HEAP_PAGES
  if r.1 = 0 then none
  else
    let s : Vmm :=
      { mem := buildPageTables m pt, pmm := r.2, pml4Phys := pt &&& PTE_ADDR_MASK }
    (smokeTest s).map fun s => kuserInit s page

end MicroNT.Boot
