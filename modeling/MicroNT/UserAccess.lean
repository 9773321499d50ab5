import MicroNT.IdentityMap

/-! # Access to user memory (`syscall.cpp`)

A system call reads and writes the caller's memory byte by byte: it translates
the user's address by `TranslateInPml4` and uses the physical address as a
pointer. The translation asks for no rights, and takes huge pages as well. -/

namespace MicroNT.Kernel

open MicroNT.PMM hiding step Op System
open MicroNT.VMM MicroNT.Boot MicroNT.Base.Radix MicroNT.Base.Machine

/-! ## The helpers -/

/-- A byte of physical memory, which is kept as little-endian words. -/
def readByte (m : Mem) (phys : u64) : u8 :=
  (m (pageOf phys) ((phys >>> 3).setWidth 9) >>> (8 * (phys.toNat % 8))).setWidth 8

def writeByte (m : Mem) (phys : u64) (val : u8) : Mem :=
  let word := m (pageOf phys) ((phys >>> 3).setWidth 9)
  let shift := 8 * (phys.toNat % 8)
  write m (pageOf phys) ((phys >>> 3).setWidth 9)
    ((word &&& ~~~(0xFF#64 <<< shift)) ||| (val.setWidth 64 <<< shift))

/-- One byte accessed for the user, with the memory at that moment. -/
structure Access where
  mem : Mem
  pml4 : u64
  va : u64
  write : Bool

/-- The byte lies in a page that ring 3 may use in the same way. -/
def Access.Confined (a : Access) : Prop :=
  if a.write then userWrites a.mem a.pml4 a.va = true else userReads a.mem a.pml4 a.va = true

/-- `ReadUserByte` and what it accesses. -/
def readUserByte (m : Mem) (pml4 va : u64) : u8 × List Access :=
  let phys := translateInPml4 m pml4 va
  if phys = 0 then (0, []) else (readByte m phys, [⟨m, pml4, va, false⟩])

def writeUserByte (m : Mem) (pml4 va : u64) (val : u8) : Bool × Mem × List Access :=
  let phys := translateInPml4 m pml4 va
  if phys = 0 then (false, m, []) else (true, writeByte m phys val, [⟨m, pml4, va, true⟩])

/-- The loop of `WriteUserU32` and `WriteUserU64`, from byte `i` on. -/
def writeUserWord (pml4 va v : u64) : Nat → Nat → Mem → Mem × List Access
  | 0, _, m => (m, [])
  | n + 1, i, m =>
    let r := writeUserByte m pml4 (va + BitVec.ofNat 64 i) ((v >>> (8 * i)).setWidth 8)
    let q := writeUserWord pml4 va v n (i + 1) r.2.1
    (q.1, r.2.2 ++ q.2)

def writeUserU64 (m : Mem) (pml4 va v : u64) : Mem × List Access := writeUserWord pml4 va v 8 0 m

def writeUserU32 (m : Mem) (pml4 va : u64) (v : u32) : Mem × List Access :=
  writeUserWord pml4 va (v.setWidth 64) 4 0 m

/-- The loop of `ReadUserBytes`, one page a round. Each round copies a byte at
least, so `len` rounds are enough. -/
def readChunks (m : Mem) (pml4 va : u64) (len : Nat) : Nat → Nat → List u8 × List Access
  | 0, _ => ([], [])
  | fuel + 1, copied =>
    if copied ≥ len then ([], [])
    else
      let at_ := va + BitVec.ofNat 64 copied
      let phys := translateInPml4 m pml4 at_
      if phys = 0 then ([], [])
      else
        let n := min (len - copied) (PAGE_SIZE - (at_ &&& 0xFFF#64).toNat)
        let r := readChunks m pml4 va len fuel (copied + n)
        ((List.range n).map (fun i => readByte m (phys + BitVec.ofNat 64 i)) ++ r.1,
          (List.range n).map (fun i => ⟨m, pml4, va + BitVec.ofNat 64 (copied + i), false⟩) ++ r.2)

def readUserBytes (m : Mem) (pml4 va : u64) (len : Nat) : List u8 × List Access :=
  readChunks m pml4 va len len 0

/-! ## System calls that access user memory -/

inductive Call
  | readUserByte (va : u64)
  | readUserBytes (va : u64) (len : Nat)
  | writeUserByte (va : u64) (val : u8)
  | writeUserU32 (va : u64) (v : u32)
  | writeUserU64 (va v : u64)

/-- The memory after the call and the accesses it made. -/
def Call.perform (m : Mem) (pml4 : u64) : Call → Mem × List Access
  | .readUserByte va => (m, (Kernel.readUserByte m pml4 va).2)
  | .readUserBytes va len => (m, (Kernel.readUserBytes m pml4 va len).2)
  | .writeUserByte va val => (Kernel.writeUserByte m pml4 va val).2
  | .writeUserU32 va v => Kernel.writeUserU32 m pml4 va v
  | .writeUserU64 va v => Kernel.writeUserU64 m pml4 va v

/-- A system call is any sequence of events: it changes address spaces, and it
accesses the memory of the process that makes it, whose page tables are `cr3`. -/
inductive Event
  | op (op : Op)
  | call (cr3 : u64) (c : Call)

def stepEvent (s : System) : Event → Option System
  | .op op => step s op
  | .call cr3 c =>
    if cr3 ∈ s.spaces then
      some { s with vmm := { s.vmm with mem := (c.perform s.vmm.mem cr3).1 } }
    else none

/-- Every byte the event accesses is confined. -/
def AccessesConfined (s : System) : Event → Prop
  | .op _ => True
  | .call cr3 c => cr3 ∈ s.spaces → ∀ a ∈ (c.perform s.vmm.mem cr3).2, a.Confined

/-! ## The condition -/

/-- The frame is a table of some address space. -/
def TableFrame (s : System) (f : u64) : Prop :=
  ∃ pml4, s.IsSpace pml4 ∧ ∃ q : List Index, q.length ≤ 3 ∧ descend link s.vmm.mem pml4 q = some f

/-- If the address goes through tables that all address spaces share and is
mapped at all, its own page table entry is a user page's. -/
def ReadsUserPage (s : System) (cr3 va : u64) : Prop :=
  Shared va → translateInPml4 s.vmm.mem cr3 va ≠ 0 →
    has (getPteInto s.vmm.mem cr3 va) PTE_USER = true

/-- The page, if there is one, may be written and is no page table. -/
def WritesUserPage (s : System) (cr3 va : u64) : Prop :=
  ReadsUserPage s cr3 va ∧ (translateInPml4 s.vmm.mem cr3 va ≠ 0 →
    has (getPteInto s.vmm.mem cr3 va) PTE_WRITABLE = true ∧
      ¬ TableFrame s (pageOf (translateInPml4 s.vmm.mem cr3 va)))

/-- Byte `k` from `va` on is the first, or the first in its page. -/
def Starts (va : u64) (k : Nat) : Prop := k = 0 ∨ (va + BitVec.ofNat 64 k) &&& 0xFFF#64 = 0#64

/-- The pages that a call comes to are user pages. `ReadUserBytes` comes to a page
if it and no page before it is unmapped. -/
def OnUserPages (s : System) : Event → Prop
  | .op _ => True
  | .call cr3 (.readUserByte va) => ReadsUserPage s cr3 va
  | .call cr3 (.readUserBytes va len) => ∀ k, k < len → Starts va k →
    (∀ j, j ≤ k → Starts va j → translateInPml4 s.vmm.mem cr3 (va + BitVec.ofNat 64 j) ≠ 0) →
    ReadsUserPage s cr3 (va + BitVec.ofNat 64 k)
  | .call cr3 (.writeUserByte va _) => WritesUserPage s cr3 va
  | .call cr3 (.writeUserU32 va _) => ∀ k, k < 4 → WritesUserPage s cr3 (va + BitVec.ofNat 64 k)
  | .call cr3 (.writeUserU64 va _) => ∀ k, k < 8 → WritesUserPage s cr3 (va + BitVec.ofNat 64 k)

/-! ## Mapped user pages -/

section

variable {R : Rows} {shown : Bool} {split : Index → u64 → Prop} {Ok : Nat → Prop}
  {is : Role → u64 → Prop} {s : System} {p v : u64}

/-- A mapped address whose page table entry is a user page's has a page table. -/
theorem Inv.reaches (h : Inv R split Ok is s) (hg : R.Good shown) (hp : p ∈ s.spaces)
    (hu : ReadsUserPage s p v) (ht : translateInPml4 s.vmm.mem p v ≠ 0) :
    ∃ pdpt pd pt, Reaches s.vmm.mem p v pdpt pd pt := by
  by_cases hlow : Low v
  · cases hpt : pageTable s.vmm.mem p v with
    | some pt =>
      obtain ⟨pdpt, pd, hv⟩ := pageTable_eq_some.mp hpt
      exact ⟨pdpt, pd, pt, hv⟩
    | none =>
      have hu := hu (.inl hlow) ht
      rw [VMM.getPteInto, hpt] at hu
      exact absurd hu (show ¬ has 0 PTE_USER = true by decide)
  · exact h.mapped hg hp hlow ht

/-- **User pages are open to ring 3** at every level: for reading, and for
writing if the entry says so. -/
theorem Inv.userCan (h : Inv R split Ok is s) (hg : R.Good shown) (hp : p ∈ s.spaces)
    (hu : ReadsUserPage s p v) (ht : translateInPml4 s.vmm.mem p v ≠ 0) (w : Bool)
    (hw : w = true → has (getPteInto s.vmm.mem p v) PTE_WRITABLE = true) :
    VMM.userCan w (entries s.vmm.mem p v) = true := by
  obtain ⟨pdpt, pd, pt, hv⟩ := h.reaches hg hp hu ht
  have hpres : has (s.vmm.mem pt (ptIdx v)) PTE_PRESENT = true := by
    by_contra hn
    rw [hv.translate, if_neg hn] at ht
    exact ht rfl
  have huser : has (s.vmm.mem pt (ptIdx v)) PTE_USER = true := by
    by_cases hs : Shared v
    · have hu := hu hs ht
      rwa [hv.getPteInto] at hu
    · exact h.private_user hp hs (pageTable_eq_some.mpr ⟨pdpt, pd, hv⟩) hpres
  rw [hv.getPteInto] at hw
  rw [hv.userCan (h.open_above hg hp hv), hpres, huser]
  cases w with
  | false => rfl
  | true => rw [hw rfl]; rfl

/-! ## Writes that spare the tables -/

/-- The tables of all address spaces are as in the state. -/
def SameTables (s : System) (m : Mem) : Prop := ∀ t, TableFrame s t → m t = s.vmm.mem t

theorem SameTables.entries {m : Mem} (h : SameTables s m) (hp : s.IsSpace p) :
    entries m p v = entries s.vmm.mem p v :=
  walk_congr fun r i q b hq hb => by
    have hlen := congrArg List.length hq
    simp only [path, List.length_append, List.length_cons, List.length_nil] at hlen
    rw [h b ⟨p, hp, r, by omega, hb⟩]

theorem SameTables.translateInPml4 {m : Mem} (h : SameTables s m) (hp : s.IsSpace p) :
    translateInPml4 m p v = translateInPml4 s.vmm.mem p v := by
  rw [translateInPml4_eq, translateInPml4_eq, h.entries hp]

/-- The tables with roles that no address space reaches do not count. -/
theorem Inv.reached (h : Inv R split Ok is s) :
    Inv R split Ok (fun r t => is r t ∧ ∃ pml4, s.IsSpace pml4 ∧ ∃ q : List Index,
      q.length ≤ 3 ∧ q.length + (roles (R.shape split)).rank r = 4 ∧
        descend link s.vmm.mem pml4 q = some t) s where
  typed := {
    linked := by
      intro r t i b h1 ⟨hr, pml4, hp, q, _, hq, hd⟩ hl
      have hrank := (roles (R.shape split)).rank_child r i h1
      refine ⟨h.typed.linked r t i b h1 hr hl, pml4, hp, q ++ [i], ?_, ?_, ?_⟩
      · rw [List.length_append, List.length_singleton]
        omega
      · rw [List.length_append, List.length_singleton]
        omega
      · rw [descend_snoc hd, hl]
    entry := fun r t i hr => h.typed.entry r t i hr.1
    alone := fun r r' t hr hr' => h.typed.alone r r' t hr.1 hr'.1
    used := fun r t hr => h.typed.used r t hr.1 }
  root := ⟨h.root, _, .inl rfl, [], by simp, rfl, rfl⟩
  spaces p hp := ⟨h.spaces p hp, p, .inr hp, [], by simp, rfl, rfl⟩
  owned := h.owned
  apart a ha r hr := h.apart a ha r hr.1

/-- **Writes that spare the tables keep the roles.** -/
theorem Inv.sameTables (h : Inv R split Ok is s) {m : Mem} (hm : SameTables s m) :
    ∃ is', Inv R split Ok is' { s with vmm := { s.vmm with mem := m } } := by
  refine ⟨_, h.reached.mem (h.reached.typed.of_agree (fun r t hr => ?_) h.reached.typed.used)⟩
  obtain ⟨-, pml4, hp, q, hq, -, hd⟩ := hr
  exact hm t ⟨pml4, hp, q, hq, hd⟩

/-! ## The helpers keep to user pages -/

theorem chunk_offset (v : u64) (k : Nat) :
    ((v + BitVec.ofNat 64 k) &&& 0xFFF#64).toNat = (v.toNat + k) % PAGE_SIZE := by
  rw [offset_toNat, BitVec.toNat_add, BitVec.toNat_ofNat]
  simp only [PAGE_SIZE]
  omega

/-- Bytes up to the end of a page are in that page. -/
theorem chunk_vpn (v : u64) (k : Nat) {i : Nat} (h : (v.toNat + k) % PAGE_SIZE + i < PAGE_SIZE) :
    vpn (v + BitVec.ofNat 64 (k + i)) = vpn (v + BitVec.ofNat 64 k) := by
  rw [← BitVec.toNat_inj, vpn_toNat, vpn_toNat]
  simp only [BitVec.toNat_add, BitVec.toNat_ofNat, PAGE_SIZE] at *
  omega

/-- What a helper does: it spares the tables, and what it accesses is confined. -/
structure Behaves (s : System) (r : Mem × List Access) : Prop where
  tables : SameTables s r.1
  confined : ∀ a ∈ r.2, a.Confined

section

variable (h : Inv R split Ok is s) (hg : R.Good shown) (hp : p ∈ s.spaces)
include h hg hp

theorem Inv.readUserByte (hu : ReadsUserPage s p v) :
    Behaves s (s.vmm.mem, (Kernel.readUserByte s.vmm.mem p v).2) := by
  refine ⟨fun _ _ => rfl, fun a ha => ?_⟩
  simp only [Kernel.readUserByte] at ha
  split at ha
  case isTrue => cases ha
  case isFalse ht =>
    obtain rfl := List.mem_singleton.mp ha
    exact h.userCan hg hp hu ht false fun no => Bool.noConfusion no

/-- A byte further on in a user page. -/
theorem Inv.readsPage {u : u64} (hu : ReadsUserPage s p v) (ht : translateInPml4 s.vmm.mem p v ≠ 0)
    (heq : vpn u = vpn v) : userReads s.vmm.mem p u = true := by
  rw [userReads, entries, (path_eq_iff u v).mpr heq]
  exact h.userCan hg hp hu ht false fun no => Bool.noConfusion no

theorem Inv.readChunks {len : Nat} (hu : OnUserPages s (.call p (.readUserBytes v len)))
    (fuel copied : Nat) (hstart : copied < len → Starts v copied)
    (hmapped : ∀ j, j < copied → Starts v j →
      translateInPml4 s.vmm.mem p (v + BitVec.ofNat 64 j) ≠ 0) :
    ∀ a ∈ (Kernel.readChunks s.vmm.mem p v len fuel copied).2, a.Confined := by
  induction fuel generalizing copied with
  | zero => nofun
  | succ fuel ih =>
    rw [Kernel.readChunks]
    split
    case isTrue => nofun
    case isFalse hlen =>
      simp only
      split
      case isTrue => nofun
      case isFalse ht =>
        have hlen : copied < len := by omega
        have mapped : ∀ j, j ≤ copied → Starts v j →
            translateInPml4 s.vmm.mem p (v + BitVec.ofNat 64 j) ≠ 0 := by
          intro j hj hs
          rcases Nat.lt_or_eq_of_le hj with hj | rfl
          · exact hmapped j hj hs
          · exact ht
        have hpage := hu copied hlen (hstart hlen) mapped
        have hoff := chunk_offset v copied
        generalize hn : min (len - copied) (PAGE_SIZE - ((v + BitVec.ofNat 64 copied) &&& 0xFFF#64).toNat) = n
        rw [hoff] at hn
        intro a ha
        rcases List.mem_append.mp ha with ha | ha
        · obtain ⟨i, hi, rfl⟩ := List.mem_map.mp ha
          refine h.readsPage hg hp hpage ht (chunk_vpn v copied ?_)
          have := List.mem_range.mp hi
          omega
        · refine ih (copied + n) (fun hlt => .inr ?_) (fun j hj hs => ?_) a ha
          · rw [← BitVec.toNat_inj, chunk_offset]
            simp only [PAGE_SIZE] at *
            show _ = 0
            omega
          · by_cases hjc : j ≤ copied
            · exact mapped j hjc hs
            · -- no page starts inside the chunk
              rcases hs with rfl | hs
              · omega
              · rw [← BitVec.toNat_inj, chunk_offset] at hs
                simp only [PAGE_SIZE] at *
                have hs : _ = 0 := hs
                omega

theorem Inv.writeUserByte (hu : WritesUserPage s p v) {m : Mem} (hm : SameTables s m) (val : u8) :
    Behaves s (Kernel.writeUserByte m p v val).2 := by
  have htr := hm.translateInPml4 (v := v) (.inr hp)
  simp only [Kernel.writeUserByte]
  split
  case isTrue => exact ⟨hm, nofun⟩
  case isFalse ht =>
    rw [htr] at ht ⊢
    obtain ⟨hw, hn⟩ := hu.2 ht
    constructor
    · intro t hft
      have hne : t ≠ pageOf (translateInPml4 s.vmm.mem p v) := by
        rintro rfl
        exact hn hft
      exact (write_of_table_ne hne).trans (hm t hft)
    · intro a ha
      obtain rfl := List.mem_singleton.mp ha
      show VMM.userCan true (entries m p v) = true
      rw [hm.entries (.inr hp)]
      exact h.userCan hg hp hu.1 ht true fun _ => hw

theorem Inv.writeUserWord (w : u64) (n i : Nat) {m : Mem} (hm : SameTables s m)
    (hu : ∀ k, i ≤ k → k < i + n → WritesUserPage s p (v + BitVec.ofNat 64 k)) :
    Behaves s (Kernel.writeUserWord p v w n i m) := by
  induction n generalizing i m with
  | zero => exact ⟨hm, nofun⟩
  | succ n ih =>
    have h1 := h.writeUserByte hg hp (hu i le_rfl (by omega)) hm ((w >>> (8 * i)).setWidth 8)
    have h2 := ih (i + 1) h1.tables fun k h1 h2 => hu k (by omega) (by omega)
    refine ⟨h2.tables, fun a ha => ?_⟩
    rcases List.mem_append.mp ha with ha | ha
    · exact h1.confined a ha
    · exact h2.confined a ha

/-- **A call on user pages** accesses user pages only, and spares the tables. -/
theorem Inv.perform {c : Call} (hu : OnUserPages s (.call p c)) :
    Behaves s (c.perform s.vmm.mem p) := by
  cases c with
  | readUserByte va => exact h.readUserByte hg hp hu
  | readUserBytes va len =>
    exact ⟨fun _ _ => rfl, h.readChunks hg hp hu len 0 (fun _ => .inl rfl) nofun⟩
  | writeUserByte va val => exact h.writeUserByte hg hp hu (fun _ _ => rfl) val
  | writeUserU32 va w =>
    exact h.writeUserWord hg hp _ 4 0 (fun _ _ => rfl) fun k _ hk => hu k (by omega)
  | writeUserU64 va w =>
    exact h.writeUserWord hg hp _ 8 0 (fun _ _ => rfl) fun k _ hk => hu k (by omega)

end

/-- Every event on user pages keeps the roles. -/
theorem Inv.stepEvent (h : Inv R (fun _ _ => True) Ok is s) (hg : R.Good shown) {e : Event}
    {t : System} (hu : OnUserPages s e) (hs : Kernel.stepEvent s e = some t) :
    ∃ is', Inv R (fun _ _ => True) Ok is' t := by
  cases e with
  | op op => exact h.step hg op.fits_free hs
  | call cr3 c =>
    simp only [Kernel.stepEvent] at hs
    split at hs
    case isTrue hp =>
      obtain rfl := Option.some.inj hs
      exact h.sameTables (h.perform hg hp hu).tables
    case isFalse => cases hs

end

/-! ## Runs -/

/-- **Accesses to user memory are confined** to pages that ring 3 may use in the
same way, in every run whose system calls come to user pages only: no page of the
kernel behind an address of the shared tables, no read-only page for writing. -/
theorem user_accesses_confined (m : Mem) (pt bmStart : u64) (bi : Option BootInfo) (page : Table)
    (shown : Bool) (v : Vmm) (hb : TablesAt pt bi)
    (hboot : boot m pt bmStart bi page = some (shown, v)) (events : List Event)
    (hu : Along stepEvent OnUserPages (start v) events) :
    Along stepEvent AccessesConfined (start v) events := by
  obtain ⟨R, is, hg, h⟩ := run_inv hb hboot (show run step (start v) [] = some (start v) from rfl)
  refine along_invariant (I := fun s => ∃ is, Inv R (fun _ _ => True) (fun _ => True) is s)
    (fun s e t hs hu ht => ?_) (fun s e hs hu => ?_) ⟨is, h⟩ hu
  · obtain ⟨is, hs⟩ := hs
    exact hs.stepEvent hg hu ht
  · obtain ⟨is, hs⟩ := hs
    cases e with
    | op op => trivial
    | call cr3 c => exact fun hp => (hs.perform hg hp hu).confined

/-- Reading the shared page is confined. -/
theorem user_accesses_confined_kuser :
    ∃ v, boot (fun _ _ => 0) 0x10000000#64 0x120000#64 (some lowBoot) (fun _ => 0) = some (true, v) ∧
      Along stepEvent AccessesConfined (start v)
        [.op .createUserPml4, .call 0x605000#64 (.readUserBytes KUSER_VA 16)] := by
  obtain ⟨v, s, pt, hboot, hrun, hp, hpt, -, hu, -⟩ := lowBoot_process
  refine ⟨v, hboot, user_accesses_confined _ _ _ _ _ _ v tablesAt_lowBoot hboot _
    ⟨trivial, fun t ht => ⟨fun k hk hs _ => ?_, fun _ _ => trivial⟩⟩⟩
  obtain rfl : s = t := by
    rw [run, show step (start v) .createUserPml4 = some t from ht] at hrun
    exact (Option.some.inj hrun).symm
  obtain rfl : k = 0 := by
    rcases hs with hs | hs
    · exact hs
    · rw [← BitVec.toNat_inj, chunk_offset, show KUSER_VA.toNat = 0x7FFE0000 from rfl] at hs
      have hs : (0x7FFE0000 + k) % PAGE_SIZE = 0 := hs
      simp only [PAGE_SIZE] at hs
      omega
  intro _ _
  rw [BitVec.add_zero, getPteInto_some hpt]
  exact hu

/-- `ReadUserByte` at 1 MB reads the kernel's memory for the user. -/
theorem kernel_byte_read_for_user :
    ∃ v s, boot (fun _ _ => 0) 0x10000000#64 0x120000#64 (some lowBoot) (fun _ => 0) =
        some (true, v) ∧
      run stepEvent (start v) [.op .createUserPml4] = some s ∧
      ¬ AccessesConfined s (.call 0x605000#64 (.readUserByte 0x100000#64)) := by
  obtain ⟨v, s, -, hboot, hrun, hp, -⟩ := lowBoot_process
  obtain ⟨⟨R, phys, is, hg, -, hbooted⟩, -⟩ := boot_booted tablesAt_lowBoot hboot
  have hstart : Inv R (fun i e => e = splitEntry phys i) (fun _ => True) is (start v) :=
    start_inv hbooted fun _ _ _ => trivial
  have hstep : step (start v) .createUserPml4 = some s := by
    obtain ⟨t, ht, hs⟩ := Option.bind_eq_some_iff.mp hrun
    rw [ht]
    exact hs
  obtain ⟨is', h⟩ := hstart.step hg (show Op.Fits _ .createUserPml4 from trivial) hstep
  refine ⟨v, s, hboot, by rw [run, stepEvent, hstep]; rfl, fun hc => ?_⟩
  obtain ⟨htr, -⟩ := h.identity hg (v := 0x100000#64) (.inr hp) (by decide) (fun _ => by decide)
  have hread := hc hp ⟨s.vmm.mem, 0x605000#64, 0x100000#64, false⟩ (by
    rw [Call.perform, readUserByte, htr]
    exact List.mem_cons_self)
  have hclosed := h.low_closed hg (v := 0x100000#64) (.inr hp) (by decide) fun hb =>
    absurd hb.2.1 (by decide)
  rw [show userReads s.vmm.mem 0x605000#64 0x100000#64 = true from hread] at hclosed
  cases hclosed

end MicroNT.Kernel
