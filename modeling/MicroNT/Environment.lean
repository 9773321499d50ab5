import MicroNT.PageFields
import MicroNT.MappingSucceeds

/-! # The process environment (`process.cpp`, `user/kernel32/kernel32.cpp`)

`SetupPeb` gives a new process four pages with its image, its modules, its command line and its
heap, and `SetupTeb` each thread a page that leads to them. Programs find these fields through
the functions of `kernel32`, and `NotifyImageLoaded` changes two of them. -/

namespace MicroNT.Kernel.Environment

open MicroNT.PMM hiding step Op System
open MicroNT.VMM MicroNT.Boot MicroNT.Base.Radix
open MicroNT.Base.Bytes hiding Laid
open FileIo (BootFile)

/-! ## The pages -/

abbrev OS_MAJOR : Nat := 10
abbrev OS_MINOR : Nat := 0
abbrev OS_BUILD : Nat := 26100

abbrev PARAMS_VA : u64 := PEB_VA + 0x2000#64
abbrev HEAP_VA : u64 := PEB_VA + 0x3000#64

abbrev LDR_ENTRY_OFF : Nat := 0x80
abbrev LDR_BASENAME_OFF : Nat := 0x140
abbrev LDR_FULLNAME_OFF : Nat := 0x200
abbrev IMG_OFF : Nat := 0x100
abbrev CMD_OFF : Nat := 0x200

/-- One store to a page that was zeroed. -/
abbrev Store := Nat × List Byte

def u64Store (off : Nat) (v : u64) : Store := (off, leBytes 8 v.toNat)
def u32Store (off v : Nat) : Store := (off, leBytes 4 v)
def u16Store (off v : Nat) : Store := (off, leBytes 2 v)

/-- The characters as `u16` each. -/
def wide (s : List u8) : List Byte := s.flatMap fun c => [c, 0]

def pebStores (imageBase : u64) : List Store :=
  [u64Store 0x010 imageBase, u64Store 0x018 LDR_VA, u32Store 0x118 OS_MAJOR,
    u32Store 0x11C OS_MINOR, u16Store 0x120 OS_BUILD, u32Store 0x124 2]

/-- `PEB_LDR_DATA`, with one `LDR_DATA_TABLE_ENTRY` behind it. -/
def ldrStores (imageBase : u64) (name : List u8) : List Store :=
  let E := LDR_ENTRY_OFF
  let entry := LDR_VA + 0x80#64
  let nlen := name.length
  [u32Store 0x00 0x58, u32Store 0x04 1,
    u64Store 0x10 entry, u64Store 0x18 entry,
    u64Store 0x20 (entry + 0x10#64), u64Store 0x28 (entry + 0x10#64),
    u64Store 0x30 (entry + 0x20#64), u64Store 0x38 (entry + 0x20#64),
    u64Store (E + 0x00) (LDR_VA + 0x10#64), u64Store (E + 0x08) (LDR_VA + 0x10#64),
    u64Store (E + 0x10) (LDR_VA + 0x20#64), u64Store (E + 0x18) (LDR_VA + 0x20#64),
    u64Store (E + 0x20) (LDR_VA + 0x30#64), u64Store (E + 0x28) (LDR_VA + 0x30#64),
    u64Store (E + 0x30) imageBase, u64Store (E + 0x38) 0, u32Store (E + 0x40) 0,
    u16Store (E + 0x48) (nlen * 2), u16Store (E + 0x4A) (nlen * 2 + 2),
    u64Store (E + 0x50) (LDR_VA + BitVec.ofNat 64 LDR_FULLNAME_OFF),
    u16Store (E + 0x58) (nlen * 2), u16Store (E + 0x5A) (nlen * 2 + 2),
    u64Store (E + 0x60) (LDR_VA + BitVec.ofNat 64 LDR_BASENAME_OFF),
    (LDR_BASENAME_OFF, wide name), (LDR_FULLNAME_OFF, wide name)]

/-- `C:\Windows\`. -/
def pre : List u8 := [0x43, 0x3A, 0x5C, 0x57, 0x69, 0x6E, 0x64, 0x6F, 0x77, 0x73, 0x5C]

/-- `path` has room for 94 characters. -/
def path (name : List u8) : List u8 := pre ++ name.take (94 - pre.length)

/-- `RTL_USER_PROCESS_PARAMETERS`. -/
def paramsStores (name : List u8) : List Store :=
  let pl := (path name).length
  let nlen := name.length
  [u32Store 0x00 PAGE_SIZE, u32Store 0x04 PAGE_SIZE,
    (IMG_OFF, wide (path name)),
    u16Store 0x60 (pl * 2), u16Store 0x62 (pl * 2 + 2),
    u64Store 0x68 (PARAMS_VA + BitVec.ofNat 64 IMG_OFF),
    (CMD_OFF, wide name),
    u16Store 0x70 (nlen * 2), u16Store 0x72 (nlen * 2 + 2),
    u64Store 0x78 (PARAMS_VA + BitVec.ofNat 64 CMD_OFF)]

def pageOfStores (ws : List Store) : Table := pageWith (putAll (zeros PAGE_SIZE) ws)

/-! ## `SetupPeb` -/

/-- A page behind the PEB, and the field of the PEB that is set to its address. -/
structure Part where
  va : u64
  stores : List Store
  link : Option Nat

def parts (imageBase : u64) (name : List u8) : List Part :=
  [⟨LDR_VA, ldrStores imageBase name, none⟩, ⟨PARAMS_VA, paramsStores name, some 0x20⟩,
    ⟨HEAP_VA, [], some 0x30⟩]

/-- Takes a page, fills it, stores a word elsewhere and maps the page; 0 without a page. -/
def placePage (s : Vmm) (cr3 va : u64) (page : Table) (link : Option (u64 × u64)) : u64 × Vmm :=
  let r := allocPage s.pmm
  if r.1 = 0 then (0, { s with pmm := r.2 })
  else
    let m := fill s.mem r.1 page
    let m := match link with
      | none => m
      | some w => writeU64 m w.1 w.2
    (r.1, (mapPageInto { s with pmm := r.2, mem := m } cr3 va r.1 (userFlags true)).2)

/-- The pages behind the PEB, whose frame is `peb`. -/
def setupParts (cr3 peb : u64) : List Part → Vmm → Vmm
  | [], s => s
  | x :: xs, s =>
    let r := placePage s cr3 x.va (pageOfStores x.stores)
      (x.link.map fun off => (peb + BitVec.ofNat 64 off, x.va))
    if r.1 = 0 then r.2 else setupParts cr3 peb xs r.2

/-- `SetupPeb`: `PebVa` afterwards. -/
def setupPeb (s : Vmm) (cr3 imageBase : u64) (name : List u8) : u64 × Vmm :=
  let r := placePage s cr3 PEB_VA (pageOfStores (pebStores imageBase)) none
  if r.1 = 0 then (0, r.2) else (PEB_VA, setupParts cr3 r.1 (parts imageBase name) r.2)

/-! ## `CreateProcess` -/

/-- The kernel, with the `Name` of each process. -/
structure State where
  nt : NtState
  names : List (List u8)

/-- The characters that are copied to `Name`. -/
def copyName (name : List u8) : List u8 := (name.takeWhile (· ≠ 0)).take 31

/-- A `KProcess` in its block of the heap, registered if there is room. -/
def addProcess (k : State) (heap : KernelHeap) (v : Vmm) (cr3 peb : u64) (name : List u8) :
    State where
  nt :=
    { k.nt with
      heap := heap
      nextPid := k.nt.nextPid + 1#32
      loader :=
        { k.nt.loader with
          sys := { k.nt.loader.sys with vmm := v }
          procs := if k.nt.loader.procs.length < MAX_PROCESSES then
            k.nt.loader.procs ++ [⟨cr3, peb, 0⟩] else k.nt.loader.procs }
      processes := k.nt.processes ++
        [{ pid := k.nt.nextPid, cr3 := cr3, userHeapCursor := HEAP_START, pebVa := peb
           nextTebVa := if peb = 0 then 0 else TEB_BASE, threadCount := 0 }] }
  names := k.names ++ [name]

/-- `PS::CreateProcess`; the image base of a new process is 0. -/
def createProcess (k : State) (cr3 : u64) (name : List u8) : State :=
  match k.nt.heap.alloc KPROCESS_SIZE 8#64 with
  | none => k
  | some heap =>
    let name := copyName name
    let peb := setupPeb k.nt.vmm cr3 0 name
    addProcess k heap peb.2 cr3 peb.1 name

/-- A process in a new address space, as the launchers begin. -/
def newProcess (k : State) (name : List u8) : State :=
  let r := newSpace k.nt.loader
  let k := { k with nt := { k.nt with loader := r.2 } }
  if r.1 = 0 then k else createProcess k r.1 name

/-! ## `kernel32` -/

/-- `peb`: the field of the TEB at `GS:[0x60]`. -/
def peb (m : Mem) (pml4 gs : u64) : Option u64 := peek64 m pml4 (gs + 0x60#64)

section

variable {R : Rows} {shown : Bool} {P : u64 → u64 → Prop} {F : u64 → Prop} {s t u : System}
  {p va f : u64} {page : Table} {ws : List Store} {L : List MappedPage} {x : MappedPage}

def Present (s : System) (p va : u64) : Prop := has (getPteInto s.vmm.mem p va) PTE_PRESENT = true

theorem present_of_holds (h : x.Holds s) : Present s x.space x.va := by
  rw [Present, h.pte]
  exact leafEntry_present _ _

theorem Present.moves (m : Moves R P F s t) (hp : p ∈ s.spaces) (own : ¬ Shared va)
    (apart : ¬ P p va) : Present t p va ↔ Present s p va := by
  rw [Present, Present, m.entries p hp va own apart]

/-- The frame, the offset and the value of a store. -/
abbrev Link := Option (u64 × Nat × u64)

def Link.store (l : Link) : Option (u64 × u64) := l.map fun w => (w.1 + BitVec.ofNat 64 w.2.1, w.2.2)

def Link.frames (l : Link) : u64 → Prop := fun f => ∃ w, l = some w ∧ f = w.1

def Link.stored (l : Link) (x : MappedPage) : MappedPage :=
  match l with
  | none => x
  | some w => x.stored w.1 w.2.1 w.2.2

/-- The store hits a page that is no table. -/
def Link.Ok (l : Link) (s : System) : Prop :=
  ∀ w, l = some w → w.2.1 + 8 ≤ PAGE_SIZE ∧ ∃ page, DataPage s w.1 page

theorem Link.stored_place (l : Link) (x : MappedPage) : (l.stored x).space = x.space ∧
    (l.stored x).va = x.va ∧ (l.stored x).frame = x.frame := by
  cases l with
  | none => exact ⟨rfl, rfl, rfl⟩
  | some w => exact x.stored_place _ _ _

/-- What a placed page leaves behind: a mapped page more, or none. -/
structure Placed (R : Rows) (L : List MappedPage) (l : Link) (p va : u64) (page : Table)
    (ws : List Store) (s : System) (r : u64 × Vmm) : Prop where
  moves : Moves R (onlyPage p va) l.frames s { s with vmm := r.2 }
  missing : r.1 = 0 → Ledger L { s with vmm := r.2 } ∧ ¬ Present { s with vmm := r.2 } p va
  fresh : r.1 ≠ 0 → ¬ Used s.vmm r.1 ∧ DataPage { s with vmm := r.2 } r.1 page
  placed : r.1 ≠ 0 → ∃ N : List MappedPage, Ledger (N ++ L.map l.stored) { s with vmm := r.2 } ∧
    (∀ x ∈ N, x = ⟨p, va, r.1, ws⟩) ∧ (Present { s with vmm := r.2 } p va → ∃ x, x ∈ N)
  succeeds : NullPage s → Plenty 3 s.vmm.pmm → r.1 ≠ 0 ∧ Present { s with vmm := r.2 } p va

/-- The store of a link. -/
theorem Link.Ok.moves {l : Link} (ok : l.Ok s) (sound : Sound R s) (ledger : Ledger L s) :
    let t : System := { s with vmm := { s.vmm with mem := match l.store with
      | none => s.vmm.mem
      | some w => writeU64 s.vmm.mem w.1 w.2 } }
    Moves R noPages l.frames s t ∧ Ledger (L.map l.stored) t := by
  cases l with
  | none =>
    refine ⟨.refl sound _ _, ?_⟩
    rw [show Link.stored none = id from rfl, List.map_id]
    exact ledger
  | some w =>
    obtain ⟨ho, page, data⟩ := ok w rfl
    exact ⟨(sound.storeWord data ho w.2.2).mono (fun _ _ no => no) fun g hg => ⟨w, rfl, hg⟩,
      ledger.stored sound data ho w.2.2⟩

/-- **A page is placed** where none was. -/
theorem place (sound : Sound R s) (hg : R.Good shown) (hp : p ∈ s.spaces) (own : ¬ Shared va)
    (aligned : va.toNat % PAGE_SIZE = 0) (absent : ¬ Present s p va) (ledger : Ledger L s)
    (shows : HasFields page ws) {l : Link} (ok : l.Ok s) :
    Placed R L l p va page ws s (placePage s.vmm p va page l.store) := by
  have away : ∀ {u : System} {L' : List MappedPage}, Ledger L' u → ¬ Present u p va →
      ∀ x ∈ L', ¬ onlyPage p va x.space x.va := by
    rintro u L' ledger absent x hx ⟨space, page⟩
    have there := present_of_holds (ledger.holds x hx)
    rw [Present, space, getPteInto_congr page] at there
    exact absent there
  rw [placePage]
  rcases allocPage_cases s.vmm.pmm with ⟨q, hq, ht⟩ | ⟨h0, -⟩
  case inr =>
    simp only [h0, if_true]
    exact ⟨.refl sound _ _, fun _ => ⟨ledger, absent⟩, fun no => absurd rfl no,
      fun no => absurd rfl no, fun _ plenty => absurd (congrArg Prod.fst h0) (plenty _ (.refl 3 _))⟩
  case inl =>
    have first := fun plenty : Plenty 3 s.vmm.pmm => plenty _ (.refl 3 _)
    have more := fun plenty : Plenty 3 s.vmm.pmm => Plenty.after (m := 1) (n := 2) plenty (.one _)
    have taken := sound.takes (P := onlyPage p va) (F := noFrames) ht
    obtain ⟨filled, used, data, free⟩ := sound.newPage ht page
    generalize allocPage s.vmm.pmm = r at *
    split
    case isTrue =>
      refine ⟨taken.mono (fun _ _ h => h) fun _ no => no.elim, fun _ => ⟨ledger.moves taken
        fun x hx => ⟨away ledger absent x hx, id⟩, absent⟩, fun no => absurd rfl no,
        fun no => absurd rfl no, fun _ plenty => absurd ‹_› (first plenty)⟩
    case isFalse nonzero =>
      rw [hq] at nonzero ⊢
      have here : DataPage { s with vmm := { s.vmm with pmm := r.2
                                                        mem := fill s.vmm.mem (pageAddr q) page } }
          (pageAddr q) page := ⟨isFrame_pageAddr ht.within, nonzero, used, data, fill_same _ _ _⟩
      have old : Ledger L { s with vmm := { s.vmm with pmm := r.2
                                                       mem := fill s.vmm.mem (pageAddr q) page } } :=
        ledger.moves filled fun x _ => ⟨id, id⟩
      have ok' : l.Ok { s with vmm := { s.vmm with pmm := r.2
                                                   mem := fill s.vmm.mem (pageAddr q) page } } :=
        fun w hw => ⟨(ok w hw).1, (ok w hw).2.imp fun _ data => data.moves filled⟩
      have apart : ¬ l.frames (pageAddr q) := by
        rintro ⟨w, hw, same⟩
        obtain ⟨-, page, data⟩ := ok w hw
        exact free (same ▸ data.used)
      obtain ⟨linked, stored⟩ := ok'.moves filled.sound old
      have here := here.moved linked apart
      have still : ¬ Present s p va := absent
      simp only at linked stored here ⊢
      generalize (match l.store with
        | none => fill s.vmm.mem (pageAddr q) page
        | some w => writeU64 (fill s.vmm.mem (pageAddr q) page) w.1 w.2) = m at *
      have first := (filled.mono (Q := noPages) (G := l.frames) (fun _ _ no => no)
        fun _ no => no.elim).trans linked
      have absent := mt (Present.moves first hp own id).mp still
      have able := fun (null : NullPage s) (plenty : Plenty 3 s.vmm.pmm) =>
        linked.sound.mapPageInto_succeeds (null.moves first) (linked.spaces p hp) own (more plenty)
          (pageAddr q) (userFlags true)
      obtain ⟨mapped, pte, fails⟩ := linked.sound.mapPageInto hg (linked.spaces p hp) va (pageAddr q)
        true
      have moved := mapped.mono (Q := onlyPage p va) (G := l.frames) (fun _ _ h => h)
        fun _ no => no.elim
      have kept := stored.moves mapped fun x hx => ⟨away stored absent x hx, id⟩
      have placed := here.moves mapped
      refine ⟨(first.mono (fun _ _ no => no.elim) fun _ h => h).trans moved,
        fun no => absurd no nonzero, fun _ => ⟨free, placed⟩, fun _ => ?_, fun null plenty =>
          ⟨nonzero, ?_⟩⟩
      case refine_2 =>
        rw [Present, pte (able null plenty)]
        exact leafEntry_present _ _
      generalize VMM.mapPageInto _ p va (pageAddr q) (userFlags true) = z at *
      cases success : z.1 with
      | false =>
        refine ⟨[], kept, fun x no => absurd no List.not_mem_nil, fun there => absurd ?_ absent⟩
        have same := fails success p (linked.spaces p hp) va
        rw [Present] at there ⊢
        rwa [← same]
      | true =>
        refine ⟨[⟨p, va, pageAddr q, ws⟩], kept.cons (s := s) (fun x hx => ?_) ⟨mapped.spaces p
          (linked.spaces p hp), own, aligned, ?_, pte success, ?_⟩ free,
          fun x hx => List.mem_singleton.mp hx, fun _ => ⟨_, List.mem_cons_self⟩⟩
        · obtain ⟨y, hy, rfl⟩ := List.mem_map.mp hx
          rw [(l.stored_place y).2.2]
          exact (ledger.holds y hy).data.used
        · simp only
          rw [placed.contents]
          exact placed
        · simp only
          rw [placed.contents]
          exact shows

/-! ## All pages of a process -/

/-- What a page behind the PEB needs to be placed after those of `done`. -/
structure Part.Fits (y : Part) (stores : List Store) (done : List Part) (fields : Part → List Store) :
    Prop where
  own : ¬ Shared y.va
  aligned : y.va.toNat % PAGE_SIZE = 0
  shows : HasFields (pageOfStores y.stores) (fields y)
  peb : vpn y.va ≠ vpn PEB_VA
  link : ∀ off, y.link = some off → off + 8 ≤ PAGE_SIZE ∧
    (∀ w ∈ stores, Apart (w.1, w.2.length) (off, 8)) ∧
      ∀ z ∈ done, ∀ o, z.link = some o → Apart (o, 8) (off, 8)

/-- What a page of the process shows. -/
def Entry (f : u64) (stores : List Store) (done : List Part) (fields : Part → List Store)
    (x : MappedPage) : Prop :=
  (x.va = PEB_VA ∧ x.frame = f ∧ stores ⊆ x.fields ∧
      ∀ y ∈ done, ∀ off, y.link = some off → u64Store off y.va ∈ x.fields) ∨
    ∃ y ∈ done, x.va = y.va ∧ x.frame ≠ f ∧ fields y ⊆ x.fields

/-- Some of the pages are there. -/
structure Setting (R : Rows) (L₀ L : List MappedPage) (p f : u64) (stores : List Store)
    (fields : Part → List Store) (done rest : List Part) (s : System) : Prop where
  sound : Sound R s
  space : p ∈ s.spaces
  ledger : Ledger L s
  peb : ∃ page, DataPage s f page
  old : ∀ x ∈ L₀, x ∈ L ∧ x.frame ≠ f
  entries : ∀ x ∈ L, x ∈ L₀ ∨ x.space = p ∧ Entry f stores done fields x
  cover : ∀ va, (va = PEB_VA ∨ ∃ y ∈ done, va = y.va) → Present s p va →
    ∃ x ∈ L, x.space = p ∧ x.va = va
  missing : ∀ y ∈ rest, ¬ Present s p y.va

variable {L₀ : List MappedPage} {stores : List Store} {fields : Part → List Store}
  {done rest : List Part} {y : Part}

/-- The PEB's link to a part. -/
def Part.toLink (y : Part) (f : u64) : Link := y.link.map fun off => (f, off, y.va)

theorem Part.toLink_store (y : Part) (f : u64) :
    (y.toLink f).store = y.link.map fun off => (f + BitVec.ofNat 64 off, y.va) := by
  rw [Part.toLink, Link.store, Option.map_map]
  rfl

theorem Part.toLink_stored (y : Part) {x : MappedPage} (h : x.frame ≠ f) :
    (y.toLink f).stored x = x := by
  rw [Part.toLink]
  cases y.link with
  | none => rfl
  | some off => exact if_neg h

/-- The PEB keeps its fields and gets the link. -/
theorem Part.toLink_fields (fits : y.Fits stores done fields) {x : MappedPage} (h : x.frame = f)
    (keeps : stores ⊆ x.fields)
    (links : ∀ z ∈ done, ∀ off, z.link = some off → u64Store off z.va ∈ x.fields) :
    stores ⊆ ((y.toLink f).stored x).fields ∧ ∀ z ∈ y :: done, ∀ off, z.link = some off →
      u64Store off z.va ∈ ((y.toLink f).stored x).fields := by
  rw [Part.toLink]
  cases hl : y.link with
  | none =>
    refine ⟨keeps, fun z hz off some => ?_⟩
    rcases List.mem_cons.mp hz with rfl | old
    · rw [hl] at some
      cases some
    · exact links z old off some
  | some off =>
    obtain ⟨-, apart, others⟩ := fits.link off hl
    have new : (Link.stored (some (f, off, y.va)) x).fields = replaced off y.va x.fields := by
      rw [Link.stored, MappedPage.stored, if_pos h]
    rw [Option.map_some, new]
    refine ⟨fun w hw => List.mem_cons_of_mem _ (List.mem_filter.mpr ⟨keeps hw, decide_eq_true
      (apart w hw)⟩), fun z hz o some => ?_⟩
    rcases List.mem_cons.mp hz with rfl | old
    · obtain rfl := Option.some.inj (hl.symm.trans some)
      exact List.mem_cons_self
    · refine List.mem_cons_of_mem _ (List.mem_filter.mpr ⟨links z old o some, decide_eq_true ?_⟩)
      have clear := others z old o some
      rwa [u64Store, length_leBytes]

/-- What was missing or covered is so after a change of another page. -/
theorem Setting.elsewhere (h : Setting R L₀ L p f stores fields done (y :: rest) s)
    (m : Moves R (onlyPage p y.va) F s t) (own : ∀ z ∈ done ++ rest, ¬ Shared z.va)
    (peb : vpn y.va ≠ vpn PEB_VA) (other : ∀ z ∈ done ++ rest, vpn y.va ≠ vpn z.va) :
    (∀ va, (va = PEB_VA ∨ ∃ z ∈ done, va = z.va) → Present t p va → ∃ x ∈ L, x.space = p ∧ x.va = va) ∧
      ∀ z ∈ rest, ¬ Present t p z.va := by
  refine ⟨fun va hva there => ?_, fun z hz there => ?_⟩
  · refine h.cover va hva ?_
    rcases hva with rfl | ⟨z, hz, rfl⟩
    · exact (Present.moves m h.space (by decide) fun same => peb same.2.symm).mp there
    · exact (Present.moves m h.space (own z (List.mem_append_left _ hz)) fun same =>
        other z (List.mem_append_left _ hz) same.2.symm).mp there
  · refine h.missing z (List.mem_cons_of_mem _ hz) ?_
    exact (Present.moves m h.space (own z (List.mem_append_right _ hz)) fun same =>
      other z (List.mem_append_right _ hz) same.2.symm).mp there

/-- **One more page.** -/
theorem Setting.part (h : Setting R L₀ L p f stores fields done (y :: rest) s) (hg : R.Good shown)
    (fits : y.Fits stores done fields) (own : ∀ z ∈ done ++ rest, ¬ Shared z.va)
    (other : ∀ z ∈ done ++ rest, vpn y.va ≠ vpn z.va) {r : u64 × Vmm}
    (hr : placePage s.vmm p y.va (pageOfStores y.stores)
      (y.link.map fun off => (f + BitVec.ofNat 64 off, y.va)) = r) :
    Moves R (onlyPage p y.va) (· = f) s { s with vmm := r.2 } ∧
      (r.1 = 0 → Setting R L₀ L p f stores fields done (y :: rest) { s with vmm := r.2 }) ∧
      (r.1 ≠ 0 → ∃ L', Setting R L₀ L' p f stores fields (y :: done) rest { s with vmm := r.2 }) ∧
      (NullPage s → Plenty 3 s.vmm.pmm → r.1 ≠ 0 ∧ Present { s with vmm := r.2 } p y.va) := by
  obtain ⟨page, peb⟩ := h.peb
  have ok : (y.toLink f).Ok s := by
    rintro w hw
    obtain ⟨off, hoff, rfl⟩ := Option.map_eq_some_iff.mp hw
    exact ⟨(fits.link off hoff).1, page, peb⟩
  have frames : ∀ g, (y.toLink f).frames g → g = f := by
    rintro g ⟨w, hw, rfl⟩
    obtain ⟨off, -, rfl⟩ := Option.map_eq_some_iff.mp hw
    rfl
  have all := place h.sound hg h.space fits.own fits.aligned (h.missing y List.mem_cons_self)
    h.ledger fits.shows ok
  rw [Part.toLink_store, hr] at all
  obtain ⟨cover, missing⟩ := h.elsewhere all.moves own fits.peb other
  have space := all.moves.spaces p h.space
  refine ⟨all.moves.mono (fun _ _ h => h) frames, fun zero => ?_, fun nonzero => ?_,
    all.succeeds⟩
  · exact ⟨all.moves.sound, space, (all.missing zero).1, peb.some_page all.moves, h.old, h.entries,
      cover, List.forall_mem_cons.mpr ⟨(all.missing zero).2, missing⟩⟩
  · have apart : r.1 ≠ f := fun same => (all.fresh nonzero).1 (same ▸ peb.used)
    have old : ∀ x ∈ L₀, x ∈ L.map (y.toLink f).stored ∧ x.frame ≠ f := fun x hx =>
      ⟨List.mem_map.mpr ⟨x, (h.old x hx).1, y.toLink_stored (h.old x hx).2⟩, (h.old x hx).2⟩
    have entries : ∀ x ∈ L.map (y.toLink f).stored, x ∈ L₀ ∨ x.space = p ∧
        Entry f stores (y :: done) fields x := by
      intro x' hx'
      obtain ⟨x, hx, rfl⟩ := List.mem_map.mp hx'
      obtain ⟨space, va, frame⟩ := (y.toLink f).stored_place x
      rcases h.entries x hx with before | ⟨here, ⟨first, same, keeps, links⟩ | ⟨z, hz, at_, ne, keeps⟩⟩
      · rw [y.toLink_stored (h.old x before).2]
        exact .inl before
      · exact .inr ⟨space.trans here, .inl ⟨va.trans first, frame.trans same,
          Part.toLink_fields fits same keeps links⟩⟩
      · rw [y.toLink_stored ne]
        exact .inr ⟨here, .inr ⟨z, List.mem_cons_of_mem _ hz, at_, ne, keeps⟩⟩
    have covered : ∀ va, (va = PEB_VA ∨ ∃ z ∈ done, va = z.va) →
        Present { s with vmm := r.2 } p va →
        ∃ x ∈ L.map (y.toLink f).stored, x.space = p ∧ x.va = va := by
      intro va hva there
      obtain ⟨x, hx, space, at_⟩ := cover va hva there
      obtain ⟨same, va, -⟩ := (y.toLink f).stored_place x
      exact ⟨_, List.mem_map_of_mem hx, same.trans space, va.trans at_⟩
    have split : ∀ va, (va = PEB_VA ∨ ∃ z ∈ y :: done, va = z.va) →
        va = y.va ∨ va = PEB_VA ∨ ∃ z ∈ done, va = z.va := by
      rintro va (first | ⟨z, hz, at_⟩)
      · exact .inr (.inl first)
      · rcases List.mem_cons.mp hz with rfl | hz
        · exact .inl at_
        · exact .inr (.inr ⟨z, hz, at_⟩)
    obtain ⟨N, ledger, new, there⟩ := all.placed nonzero
    refine ⟨_, all.moves.sound, space, ledger, peb.some_page all.moves,
      fun x hx => ⟨List.mem_append_right _ (old x hx).1, (old x hx).2⟩, fun x hx => ?_,
      fun va hva present => ?_, missing⟩
    · rcases List.mem_append.mp hx with hx | hx
      · rw [new x hx]
        exact .inr ⟨rfl, .inr ⟨y, List.mem_cons_self, rfl, apart, fun _ h => h⟩⟩
      · exact entries x hx
    · rcases split va hva with rfl | hva
      · obtain ⟨x, hx⟩ := there present
        exact ⟨x, List.mem_append_left _ hx, by rw [new x hx], by rw [new x hx]⟩
      · obtain ⟨x, hx, at_⟩ := covered va hva present
        exact ⟨x, List.mem_append_right _ hx, at_⟩

/-- The parts have pages of their own, and set fields of their own in the PEB. -/
structure Layout (all : List Part) (stores : List Store) (fields : Part → List Store) : Prop where
  each : ∀ y ∈ all, y.Fits stores [] fields
  pairs : all.Pairwise fun y z => vpn y.va ≠ vpn z.va ∧
    ∀ o off, y.link = some o → z.link = some off → Apart (o, 8) (off, 8)

/-- One of these pages of the address space. -/
def partPages (p : u64) (all : List Part) : u64 → u64 → Prop := fun b w =>
  b = p ∧ ∃ y ∈ all, vpn w = vpn y.va

theorem placePage_allocs (v : Vmm) (p va : u64) (page : Table) (link : Option (u64 × u64)) :
    Allocs 4 v.pmm (placePage v p va page link).2.pmm := by
  rw [placePage]
  split
  case isTrue => exact (Allocs.one v.pmm).mono (by decide)
  case isFalse =>
    refine Allocs.trans (m := 1) (n := 3) (Allocs.one v.pmm) ?_
    simp only
    generalize (match link with
      | none => fill v.mem (allocPage v.pmm).1 page
      | some w => writeU64 (fill v.mem (allocPage v.pmm).1 page) w.1 w.2) = m
    exact mapPageInto_allocs { v with pmm := (allocPage v.pmm).2, mem := m } p va _ _

/-- **The parts one after the other**, up to the first without a page. -/
theorem Setting.parts {all : List Part} (layout : Layout all stores fields) (hg : R.Good shown)
    (h : Setting R L₀ L p f stores fields done rest s) (split : done.reverse ++ rest = all) :
    Moves R (partPages p rest) (· = f) s { s with vmm := setupParts p f rest s.vmm } ∧
      (∃ L' done' rest', done'.reverse ++ rest' = all ∧
        Setting R L₀ L' p f stores fields done' rest' { s with vmm := setupParts p f rest s.vmm }) ∧
      (NullPage s → Plenty (4 * rest.length) s.vmm.pmm → ∀ y ∈ rest,
        Present { s with vmm := setupParts p f rest s.vmm } p y.va) := by
  induction rest generalizing L done s with
  | nil =>
    exact ⟨.refl h.sound _ _, ⟨L, done, [], split, h⟩, fun _ _ y no => absurd no List.not_mem_nil⟩
  | cons y rest ih =>
    have inside : y ∈ all := by
      rw [← split]
      exact List.mem_append_right _ List.mem_cons_self
    have each := layout.each y inside
    have pairs := layout.pairs
    rw [← split] at pairs
    obtain ⟨-, tail, across⟩ := List.pairwise_append.mp pairs
    have other : ∀ z ∈ done ++ rest, vpn y.va ≠ vpn z.va := by
      intro z hz
      rcases List.mem_append.mp hz with before | behind
      · exact (across z (List.mem_reverse.mpr before) y List.mem_cons_self).1.symm
      · exact ((List.pairwise_cons.mp tail).1 z behind).1
    have fits : y.Fits stores done fields := ⟨each.own, each.aligned, each.shows, each.peb,
      fun off hoff => ⟨(each.link off hoff).1, (each.link off hoff).2.1, fun z hz o ho =>
        (across z (List.mem_reverse.mpr hz) y List.mem_cons_self).2 o off ho hoff⟩⟩
    have own : ∀ z ∈ done ++ rest, ¬ Shared z.va := by
      intro z hz
      refine (layout.each z ?_).own
      rw [← split]
      rcases List.mem_append.mp hz with before | behind
      · exact List.mem_append_left _ (List.mem_reverse.mpr before)
      · exact List.mem_append_right _ (List.mem_cons_of_mem _ behind)
    rw [setupParts]
    obtain ⟨moved, zero, more, success⟩ := h.part hg fits own other rfl
    have taken := placePage_allocs s.vmm p y.va (pageOfStores y.stores)
      (y.link.map fun off => (f + BitVec.ofNat 64 off, y.va))
    have first := moved.mono (Q := partPages p (y :: rest)) (fun b w hw =>
      ⟨hw.1, y, List.mem_cons_self, hw.2⟩) fun _ same => same
    have few : 3 ≤ 4 * (y :: rest).length := by
      rw [List.length_cons]
      omega
    generalize placePage s.vmm p y.va _ _ = r at *
    split
    case isTrue none =>
      exact ⟨first, ⟨L, done, y :: rest, split, zero none⟩, fun null plenty =>
        absurd none (success null (plenty.mono few)).1⟩
    case isFalse some =>
      obtain ⟨L', next⟩ := more some
      obtain ⟨rest_, last, placed⟩ := ih next (by rw [List.reverse_cons, List.append_assoc]; exact split)
      have second := rest_.mono (Q := partPages p (y :: rest)) (fun b w ⟨hb, z, hz, page⟩ =>
        ⟨hb, z, List.mem_cons_of_mem _ hz, page⟩) fun _ same => same
      refine ⟨first.trans second, last, fun null plenty => List.forall_mem_cons.mpr ⟨?_, ?_⟩⟩
      · refine (Present.moves rest_ next.space each.own ?_).mpr (success null (plenty.mono few)).2
        rintro ⟨-, z, hz, same⟩
        exact other z (List.mem_append_right _ hz) same
      · refine placed (null.moves moved) (Plenty.after (m := 4) ?_ taken)
        exact plenty.mono (by rw [List.length_cons]; omega)

/-! ## What the pages hold -/

/-- The zero characters behind the strings, which lie from offset 0x100 on. -/
def terminators (ws : List Store) : List Store :=
  (ws.filter fun w => decide (0x100 ≤ w.1)).map fun w => (w.1 + w.2.length, [0, 0])

@[simp] theorem length_wide (s : List u8) : (wide s).length = 2 * s.length := by
  induction s with
  | nil => rfl
  | cons c s ih =>
    rw [wide, List.flatMap_cons, List.length_append, ← wide, ih, List.length_cons]
    simp only [List.length_cons, List.length_nil]
    omega

/-- **A page of stores** shows them, with the zeros behind its strings. -/
theorem shows_stores (laid : Base.Bytes.Laid PAGE_SIZE (spans ws))
    (clear : ∀ w ∈ spans ws, 0x100 ≤ w.1 → w.1 + w.2 + 2 ≤ PAGE_SIZE ∧
      ∀ s ∈ spans ws, Apart (w.1 + w.2, 2) s) :
    HasFields (pageOfStores ws) (ws ++ terminators ws) := by
  intro w hw
  rcases List.mem_append.mp hw with store | zero
  · exact shows_putAll laid w store
  · obtain ⟨v, hv, rfl⟩ := List.mem_map.mp zero
    obtain ⟨hv, low⟩ := List.mem_filter.mp hv
    obtain ⟨inside, apart⟩ := clear _ (List.mem_map_of_mem hv) (of_decide_eq_true low)
    have laid : Base.Bytes.Laid (zeros PAGE_SIZE).length (spans ws) := by rwa [length_zeros]
    show slice (bytesOf _) (v.1 + v.2.length) 2 = [0, 0]
    rw [pageOfStores, bytesOf_pageWith (by rw [length_putAll laid, length_zeros]),
      slice_putAll_of_apart laid apart, zeros, slice_replicate inside]
    rfl

theorem spans_peb (imageBase : u64) : spans (pebStores imageBase) =
    [(0x010, 8), (0x018, 8), (0x118, 4), (0x11C, 4), (0x120, 2), (0x124, 4)] := by
  simp only [spans, pebStores, u64Store, u32Store, u16Store, List.map_cons, List.map_nil,
    length_leBytes]

theorem spans_ldr (imageBase : u64) (name : List u8) : spans (ldrStores imageBase name) =
    [(0x00, 4), (0x04, 4), (0x10, 8), (0x18, 8), (0x20, 8), (0x28, 8), (0x30, 8), (0x38, 8),
      (0x80, 8), (0x88, 8), (0x90, 8), (0x98, 8), (0xA0, 8), (0xA8, 8), (0xB0, 8), (0xB8, 8),
      (0xC0, 4), (0xC8, 2), (0xCA, 2), (0xD0, 8), (0xD8, 2), (0xDA, 2), (0xE0, 8),
      (0x140, 2 * name.length), (0x200, 2 * name.length)] := by
  simp only [spans, ldrStores, u64Store, u32Store, u16Store, List.map_cons, List.map_nil,
    length_leBytes, length_wide]

theorem length_path (name : List u8) : (path name).length = 11 + min 83 name.length := by
  rw [path, List.length_append, List.length_take]
  rfl

theorem spans_params (name : List u8) : spans (paramsStores name) =
    [(0x00, 4), (0x04, 4), (0x100, 2 * (path name).length), (0x60, 2), (0x62, 2), (0x68, 8),
      (0x200, 2 * name.length), (0x70, 2), (0x72, 2), (0x78, 8)] := by
  simp only [spans, paramsStores, u64Store, u32Store, u16Store, List.map_cons, List.map_nil,
    length_leBytes, length_wide]

theorem laid_ldr (imageBase : u64) {name : List u8} (short : name.length ≤ 31) :
    Base.Bytes.Laid PAGE_SIZE (spans (ldrStores imageBase name)) := by
  refine Rising.laid (a := 0) ?_
  rw [spans_ldr]
  simp only [Rising, PAGE_SIZE]
  omega

theorem laid_params {name : List u8} (short : name.length ≤ 31) :
    Base.Bytes.Laid PAGE_SIZE (spans (paramsStores name)) := by
  have length := length_path name
  rw [spans_params, Base.Bytes.Laid]
  simp only [List.pairwise_cons, List.forall_mem_cons, Apart, PAGE_SIZE]
  refine ⟨?_, ?_⟩
  · simp only [List.not_mem_nil, false_imp_iff, implies_true, List.Pairwise.nil, and_true]
    omega
  · simp only [List.not_mem_nil, false_imp_iff, implies_true, and_true]
    omega

theorem shows_peb (imageBase : u64) : HasFields (pageOfStores (pebStores imageBase))
    (pebStores imageBase) := by
  refine shows_putAll ?_
  rw [spans_peb]
  decide

theorem shows_ldr (imageBase : u64) {name : List u8} (short : name.length ≤ 31) :
    HasFields (pageOfStores (ldrStores imageBase name))
      (ldrStores imageBase name ++ terminators (ldrStores imageBase name)) := by
  refine shows_stores (laid_ldr imageBase short) ?_
  rw [spans_ldr]
  simp only [List.forall_mem_cons, List.not_mem_nil, false_imp_iff, implies_true, and_true, Apart,
    PAGE_SIZE, Nat.reduceLeDiff, true_imp_iff, true_and]
  omega

theorem shows_params {name : List u8} (short : name.length ≤ 31) :
    HasFields (pageOfStores (paramsStores name)) (paramsStores name ++ terminators (paramsStores name)) := by
  have length := length_path name
  refine shows_stores (laid_params short) ?_
  rw [spans_params]
  simp only [List.forall_mem_cons, List.not_mem_nil, false_imp_iff, implies_true, and_true, Apart,
    PAGE_SIZE, Nat.reduceLeDiff, true_imp_iff, true_and]
  omega

/-- What a part shows. -/
def fieldsOf (y : Part) : List Store := y.stores ++ terminators y.stores

theorem page_own (k : Nat) (hk : k < 4) : ¬ Shared (PEB_VA + BitVec.ofNat 64 (k * PAGE_SIZE)) := by
  have all : ∀ k : Fin 4, ¬ Shared (PEB_VA + BitVec.ofNat 64 (k.val * PAGE_SIZE)) := by decide
  exact all ⟨k, hk⟩

theorem page_aligned (k : Nat) (hk : k < 4) :
    (PEB_VA + BitVec.ofNat 64 (k * PAGE_SIZE)).toNat % PAGE_SIZE = 0 := by
  have all : ∀ k : Fin 4, (PEB_VA + BitVec.ofNat 64 (k.val * PAGE_SIZE)).toNat % PAGE_SIZE = 0 := by
    decide
  exact all ⟨k, hk⟩

theorem page_ne (k j : Nat) (hk : k < 4) (hj : j < 4) (ne : k ≠ j) :
    vpn (PEB_VA + BitVec.ofNat 64 (k * PAGE_SIZE)) ≠ vpn (PEB_VA + BitVec.ofNat 64 (j * PAGE_SIZE)) := by
  have all : ∀ k j : Fin 4, k ≠ j → vpn (PEB_VA + BitVec.ofNat 64 (k.val * PAGE_SIZE)) ≠
      vpn (PEB_VA + BitVec.ofNat 64 (j.val * PAGE_SIZE)) := by decide
  exact all ⟨k, hk⟩ ⟨j, hj⟩ fun same => ne (congrArg Fin.val same)

/-- **The parts of a process** do not meet. -/
theorem layout_parts (imageBase : u64) {name : List u8} (short : name.length ≤ 31) (b : u64) :
    Layout (parts imageBase name) (pebStores b) fieldsOf where
  each := by
    have none : ∀ z ∈ ([] : List Part), ∀ off o, z.link = some o → Apart (o, 8) (off, 8) :=
      fun z hz => absurd hz List.not_mem_nil
    have apart : ∀ off, (∀ s ∈ [(0x010, 8), (0x018, 8), (0x118, 4), (0x11C, 4), (0x120, 2), (0x124, 4)],
        Apart s (off, 8)) → ∀ w ∈ pebStores b, Apart (w.1, w.2.length) (off, 8) := by
      intro off clear w hw
      refine clear (w.1, w.2.length) ?_
      rw [← spans_peb b]
      exact List.mem_map_of_mem (f := fun w : Store => (w.1, w.2.length)) hw
    refine List.forall_mem_cons.mpr ⟨?_, List.forall_mem_cons.mpr ⟨?_, List.forall_mem_cons.mpr
      ⟨?_, fun z hz => absurd hz List.not_mem_nil⟩⟩⟩
    · exact ⟨page_own 1 (by decide), page_aligned 1 (by decide), shows_ldr imageBase short,
        page_ne 1 0 (by decide) (by decide) (by decide), fun off no => by cases no⟩
    · refine ⟨page_own 2 (by decide), page_aligned 2 (by decide), shows_params short,
        page_ne 2 0 (by decide) (by decide) (by decide), ?_⟩
      rintro off ⟨⟩
      exact ⟨by decide, apart _ (by decide), fun z hz => none z hz 0x20⟩
    · refine ⟨page_own 3 (by decide), page_aligned 3 (by decide),
        fun w hw => absurd hw List.not_mem_nil, page_ne 3 0 (by decide) (by decide) (by decide), ?_⟩
      rintro off ⟨⟩
      exact ⟨by decide, apart _ (by decide), fun z hz => none z hz 0x30⟩
  pairs := by
    refine List.pairwise_cons.mpr ⟨?_, List.pairwise_cons.mpr ⟨?_, List.pairwise_singleton _ _⟩⟩
    · exact List.forall_mem_cons.mpr ⟨⟨page_ne 1 2 (by decide) (by decide) (by decide),
        fun o off no => by cases no⟩, List.forall_mem_singleton.mpr
          ⟨page_ne 1 3 (by decide) (by decide) (by decide), fun o off no => by cases no⟩⟩
    · refine List.forall_mem_singleton.mpr ⟨page_ne 2 3 (by decide) (by decide) (by decide), ?_⟩
      rintro o off ⟨⟩ ⟨⟩
      decide

/-! ## Addresses behind the heaps -/

/-- Page `j` of the environment. -/
def envPage (j : Nat) : u64 := PEB_VA + BitVec.ofNat 64 (j * PAGE_SIZE)

/-- An address of the user half behind the heaps. -/
def High (va : u64) : Prop := PEB_VA.toNat ≤ va.toNat ∧ va.toNat < 2 ^ 47

theorem envPage_high {j : Nat} (hj : j < 4) : High (envPage j) := by
  have all : ∀ j : Fin 4, PEB_VA.toNat ≤ (envPage j.val).toNat ∧ (envPage j.val).toNat < 2 ^ 47 := by decide
  exact all ⟨j, hj⟩

theorem envPage_below {j : Nat} (hj : j < 4) : (envPage j).toNat < TEB_BASE.toNat := by
  have all : ∀ j : Fin 4, (envPage j.val).toNat < TEB_BASE.toNat := by decide
  exact all ⟨j, hj⟩

theorem High.own (h : High va) : ¬ Shared va := by
  have start : PEB_VA.toNat = 0x7FFFE000000 := rfl
  obtain ⟨low, high⟩ := h
  have index : (pml4Idx va).toNat = va.toNat / 2 ^ 39 % 512 := by
    rw [pml4Idx, BitVec.toNat_setWidth, BitVec.toNat_ushiftRight, Nat.shiftRight_eq_div_pow]
  rintro (⟨first, -⟩ | soft)
  · have slot := congrArg BitVec.toNat first
    rw [index] at slot
    have none : (0#9 : BitVec 9).toNat = 0 := rfl
    omega
  · have slot := congrArg BitVec.toNat soft
    rw [index] at slot
    have last : (SOFT_SLOT : Index).toNat = 511 := rfl
    omega

theorem High.vpn (h : High va) : (vpn va).toNat = va.toNat / PAGE_SIZE := by
  obtain ⟨-, high⟩ := h
  rw [vpn_toNat]
  simp only [PAGE_SIZE]
  omega

theorem High.eq_of_vpn {v w : u64} (hv : High v) (hw : High w) (av : v.toNat % PAGE_SIZE = 0)
    (aw : w.toNat % PAGE_SIZE = 0) (same : VMM.vpn v = VMM.vpn w) : v = w := by
  have pages := congrArg BitVec.toNat same
  rw [hv.vpn, hw.vpn] at pages
  refine BitVec.eq_of_toNat_eq ?_
  simp only [PAGE_SIZE] at *
  omega

/-- Pages before the environment. -/
def lowPages : u64 → u64 → Prop := fun _ w => ∃ v : u64, VMM.vpn w = VMM.vpn v ∧ v.toNat < PEB_VA.toNat

theorem High.not_low (h : High va) (b : u64) : ¬ lowPages b va := by
  rintro ⟨v, same, low⟩
  have pages := congrArg BitVec.toNat same
  have above := h.1
  have start : PEB_VA.toNat = 0x7FFFE000000 := rfl
  rw [h.vpn, vpn_toNat] at pages
  simp only [PAGE_SIZE] at *
  omega

/-! ## `SetupPeb` as a whole -/

/-- The PEB has its fields, with the links to the pages that are there; the other pages show
their stores. -/
def Content (L : List MappedPage) (c base : u64) (name : List u8) (x : MappedPage) : Prop :=
  (x.va = PEB_VA → pebStores base ⊆ x.fields ∧ ∀ y ∈ parts base name,
    (∃ z ∈ L, z.space = c ∧ z.va = y.va) → ∀ off, y.link = some off → u64Store off y.va ∈ x.fields) ∧
    ∀ y ∈ parts base name, x.va = y.va → fieldsOf y ⊆ x.fields

/-- The pages of one environment. -/
def envPages (p : u64) : u64 → u64 → Prop := fun b w =>
  b = p ∧ ∃ j, j < 4 ∧ vpn w = vpn (envPage j)

theorem parts_page {base : u64} {name : List u8} (hy : y ∈ parts base name) :
    ∃ j, j < 4 ∧ y.va = envPage j ∧ y.va ≠ PEB_VA := by
  simp only [parts, List.mem_cons, List.not_mem_nil, or_false] at hy
  rcases hy with rfl | rfl | rfl
  · exact ⟨1, by decide, rfl, (by decide : LDR_VA ≠ PEB_VA)⟩
  · exact ⟨2, by decide, rfl, (by decide : PARAMS_VA ≠ PEB_VA)⟩
  · exact ⟨3, by decide, rfl, (by decide : HEAP_VA ≠ PEB_VA)⟩

theorem params_part {base : u64} {name : List u8} :
    ⟨PARAMS_VA, paramsStores name, some 0x20⟩ ∈ parts base name :=
  List.mem_cons_of_mem _ List.mem_cons_self

theorem heap_part {base : u64} {name : List u8} : ⟨HEAP_VA, [], some 0x30⟩ ∈ parts base name :=
  List.mem_cons_of_mem _ (List.mem_cons_of_mem _ List.mem_cons_self)

theorem page_part (base : u64) (name : List u8) {j : Nat} (hj : j < 4) (ne : j ≠ 0) :
    ∃ y ∈ parts base name, y.va = envPage j := by
  rcases (by omega : j = 1 ∨ j = 2 ∨ j = 3) with rfl | rfl | rfl
  · exact ⟨_, List.mem_cons_self, rfl⟩
  · exact ⟨_, params_part, rfl⟩
  · exact ⟨_, heap_part, rfl⟩

theorem parts_inj {base : u64} {name : List u8} {z : Part} (hy : y ∈ parts base name)
    (hz : z ∈ parts base name) (same : y.va = z.va) : y = z := by
  by_contra ne
  have apart : (parts base name).Pairwise fun y z => y.va ≠ z.va := by
    refine List.pairwise_cons.mpr ⟨List.forall_mem_cons.mpr ⟨(by decide : LDR_VA ≠ PARAMS_VA),
      List.forall_mem_singleton.mpr (by decide : LDR_VA ≠ HEAP_VA)⟩, List.pairwise_cons.mpr
        ⟨List.forall_mem_singleton.mpr (by decide : PARAMS_VA ≠ HEAP_VA),
          List.pairwise_singleton _ _⟩⟩
  have symm : Std.Symm fun y z : Part => y.va ≠ z.va := ⟨fun _ _ => Ne.symm⟩
  exact apart.forall hy hz ne same

/-- What the pages hold once the parts are done. -/
theorem setting_content {base : u64} {name : List u8} (split : done.reverse ++ rest = parts base name)
    (h : Setting R L₀ L p f (pebStores base) fieldsOf done rest s) (new : ∀ x ∈ L₀, x.space ≠ p) :
    (∀ x ∈ L, x ∈ L₀ ∨ x.space = p ∧ (∃ j, j < 4 ∧ x.va = envPage j) ∧ Content L p base name x) ∧
      ∀ j, j < 4 → Present s p (envPage j) → ∃ x ∈ L, x.space = p ∧ x.va = envPage j := by
  have inside : ∀ y, y ∈ done ∨ y ∈ rest ↔ y ∈ parts base name := by
    intro y
    rw [← split, List.mem_append, List.mem_reverse]
  refine ⟨fun x hx => (h.entries x hx).imp_right ?_, fun j hj there => ?_⟩
  · rintro ⟨space, ⟨first, -, stores, links⟩ | ⟨y, hy, at_, -, fields⟩⟩
    · refine ⟨space, ⟨0, by decide, first⟩, fun _ => ⟨stores, fun y hy ⟨z, hz, own, at_⟩ => ?_⟩,
        fun y hy at_ => ?_⟩
      · rcases h.entries z hz with old | ⟨-, ⟨peb, -⟩ | ⟨y', hy', at', -⟩⟩
        · exact absurd own (new z old)
        · obtain ⟨-, -, -, ne⟩ := parts_page hy
          exact absurd (at_.symm.trans peb) ne
        · obtain rfl := parts_inj hy ((inside y').mp (.inl hy')) (at_.symm.trans at')
          exact links y hy'
      · obtain ⟨-, -, -, ne⟩ := parts_page hy
        exact absurd (at_.symm.trans first) ne
    · have listed := (inside y).mp (.inl hy)
      obtain ⟨j, hj, page, ne⟩ := parts_page listed
      refine ⟨space, ⟨j, hj, at_.trans page⟩, fun first => absurd (at_.symm.trans first) ne,
        fun z hz at' => ?_⟩
      obtain rfl := parts_inj listed hz (at_.symm.trans at')
      exact fields
  · by_cases first : envPage j = PEB_VA
    · exact h.cover _ (.inl first) there
    · obtain ⟨y, hy, page⟩ := page_part base name hj fun zero => first (zero ▸ rfl)
      rcases (inside y).mpr hy with hy | hy
      · exact h.cover _ (.inr ⟨y, hy, page.symm⟩) there
      · exact absurd (page ▸ there) (h.missing y hy)

/-- **`SetupPeb`** in an address space that has none of its pages. -/
theorem setupPeb_spec (sound : Sound R s) (hg : R.Good shown) (hp : p ∈ s.spaces)
    (ledger : Ledger L s) (new : ∀ x ∈ L, x.space ≠ p)
    (absent : ∀ j, j < 4 → ¬ Present s p (envPage j)) (base : u64) {name : List u8}
    (short : name.length ≤ 31) :
    Moves R (envPages p) noFrames s { s with vmm := (setupPeb s.vmm p base name).2 } ∧
      ((setupPeb s.vmm p base name).1 = 0 ∨ (setupPeb s.vmm p base name).1 = PEB_VA) ∧
      ∃ L', Ledger L' { s with vmm := (setupPeb s.vmm p base name).2 } ∧ (∀ x ∈ L, x ∈ L') ∧
        (∀ x ∈ L', x ∈ L ∨ x.space = p ∧ (∃ j, j < 4 ∧ x.va = envPage j) ∧
          Content L' p base name x) ∧
        (∀ j, j < 4 → Present { s with vmm := (setupPeb s.vmm p base name).2 } p (envPage j) →
          ∃ x ∈ L', x.space = p ∧ x.va = envPage j) ∧
        (NullPage s → Plenty 16 s.vmm.pmm → ∀ j, j < 4 →
          Present { s with vmm := (setupPeb s.vmm p base name).2 } p (envPage j)) := by
  have first : envPage 0 = PEB_VA := rfl
  have ok : Link.Ok none s := fun w no => by cases no
  have placed := place sound hg hp (by decide : ¬ Shared PEB_VA) (by decide)
    (absent 0 (by decide)) ledger (shows_peb base) ok
  simp only [show Link.store none = none from rfl] at placed
  rw [setupPeb]
  have allocs := placePage_allocs s.vmm p PEB_VA (pageOfStores (pebStores base)) none
  generalize placePage s.vmm p PEB_VA (pageOfStores (pebStores base)) none = r at *
  obtain ⟨moves, missing, fresh, taken, success⟩ := placed
  rw [show L.map (Link.stored none) = L from List.map_id L] at taken
  have moved : Moves R (envPages p) noFrames s { s with vmm := r.2 } := moves.mono
    (fun b w hw => ⟨hw.1, 0, by decide, hw.2⟩) fun f ⟨w, no, _⟩ => by cases no
  have others : ∀ j, j < 4 → j ≠ 0 → ¬ Present { s with vmm := r.2 } p (envPage j) := by
    intro j hj ne there
    refine absent j hj ((Present.moves moves hp (envPage_high hj).own fun same => ?_).mp there)
    exact page_ne j 0 hj (by decide) ne same.2
  by_cases zero : r.1 = 0
  case pos =>
    rw [if_pos zero]
    obtain ⟨kept, gone⟩ := missing zero
    refine ⟨moved, .inl rfl, L, kept, fun x hx => hx, fun x hx => .inl hx, fun j hj there => ?_,
      fun null plenty => absurd zero (success null (plenty.mono (by decide))).1⟩
    by_cases ne : j = 0
    · subst ne
      exact absurd there gone
    · exact absurd there (others j hj ne)
  case neg =>
    rw [if_neg zero]
    obtain ⟨free, peb⟩ := fresh zero
    have space := moves.spaces p hp
    have missing : ∀ y ∈ parts base name, ¬ Present { s with vmm := r.2 } p y.va := by
      intro y hy
      obtain ⟨j, hj, page, ne⟩ := parts_page hy
      rw [page] at ne ⊢
      exact others j hj fun eq => ne (eq ▸ rfl)
    have old : ∀ x ∈ L, x.frame ≠ r.1 := fun x hx same =>
      free (same ▸ (ledger.holds x hx).data.used)
    obtain ⟨N, kept, added, there⟩ := taken zero
    have setting : Setting R L (N ++ L) p r.1 (pebStores base) fieldsOf [] (parts base name)
        { s with vmm := r.2 } := by
      refine ⟨moves.sound, space, kept, ⟨_, peb⟩, fun x hx => ⟨List.mem_append_right _ hx, old x hx⟩,
        fun x hx => (List.mem_append.mp hx).symm.imp_right fun hx => ?_, ?_, missing⟩
      · rw [added x hx]
        exact ⟨rfl, .inl ⟨rfl, rfl, List.Subset.refl _, fun y no => absurd no List.not_mem_nil⟩⟩
      · rintro va (rfl | ⟨y, no, -⟩) present
        · obtain ⟨x, hx⟩ := there present
          exact ⟨x, List.mem_append_left _ hx, by rw [added x hx], by rw [added x hx]⟩
        · exact absurd no List.not_mem_nil
    obtain ⟨rest, ⟨L', done', rest', split, last⟩, parts_there⟩ :=
      setting.parts (layout_parts base short base) hg rfl
    obtain ⟨entries, cover⟩ := setting_content split last new
    have apart : ¬ partPages p (parts base name) p PEB_VA := by
      rintro ⟨-, z, hz, same⟩
      obtain ⟨j, hj, page, ne⟩ := parts_page hz
      rw [page] at same ne
      exact page_ne 0 j (by decide) hj (fun eq => ne (eq ▸ rfl)) same
    have more := rest.mono (Q := envPages p) (fun b w hw => ⟨hw.1, by
      obtain ⟨y, hy, same⟩ := hw.2
      obtain ⟨j, hj, page, -⟩ := parts_page hy
      exact ⟨j, hj, page ▸ same⟩⟩) fun _ h => h
    refine ⟨moved.trans_new more fun f same => same ▸ free, .inr rfl, L', last.ledger,
      fun x hx => (last.old x hx).1, entries, cover, fun null plenty j hj => ?_⟩
    obtain ⟨-, here⟩ := success null (plenty.mono (by decide))
    rcases (by omega : j = 0 ∨ j ≠ 0) with rfl | later
    · exact (Present.moves rest space (by decide) apart).mpr here
    · obtain ⟨y, hy, page⟩ := page_part base name hj (by omega)
      rw [← page]
      exact parts_there (null.moves moves) (Plenty.after (m := 4) (n := 12) plenty allocs) y hy

end

end MicroNT.Kernel.Environment
