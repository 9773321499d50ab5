import MicroNT.Environment
import MicroNT.Base.Deque

/-! # The process environment over runs (`process.cpp`, `user/kernel32/kernel32.cpp`)

Processes and threads are created, images are loaded and heaps grow. What a process finds in its
environment is what the kernel recorded for it, in every state of every such run. -/

namespace MicroNT.Kernel.Environment

open MicroNT.PMM hiding step Op System
open MicroNT.VMM MicroNT.Boot MicroNT.Base.Radix MicroNT.Base.Machine
open MicroNT.Base.Bytes hiding Laid
open FileIo (BootFile)

/-! ## Runs -/

/-- The `ImageBase` of a process; of one that was not registered it stays 0. -/
def imageBase (k : NtState) (i : Nat) : u64 :=
  match k.loader.procs[i]? with
  | some p => p.imageBase
  | none => 0

/-- What happens to processes: creation, a new thread in process `i` with its TEB, an image that
was loaded, and calls on the heap. -/
inductive Event
  | createProcess (name : List u8)
  | createThread (i : Nat) (stackBase stackVa : u64)
  | imageLoaded (cr3 imageBase : u64)
  | call (i : Nat) (c : HeapCall)

def userProcess (k : NtState) (i : Nat) : Option Process :=
  match k.processes[i]? with
  | none => none
  | some p => if p.cr3 ∈ k.loader.sys.spaces then some p else none

def step (boot : List BootFile) (k : State) : Event → Option State
  | .createProcess name => some (newProcess k name)
  | .createThread i stackBase stackVa => (userProcess k.nt i).map fun p =>
      { k with nt := (newThread k.nt i p stackBase stackVa).2 }
  | .imageLoaded cr3 imageBase =>
    some { k with nt := { k.nt with loader := notifyImageLoaded k.nt.loader cr3 imageBase } }
  | .call i c => (userProcess k.nt i).map fun _ => { k with nt := (heapCall boot k.nt i c).2 }

/-- A new TEB lies in the user half, and an allocation fits behind the heap cursor. -/
def Fits (k : State) : Event → Prop
  | .createThread i _ _ => ∀ p, k.nt.processes[i]? = some p → p.nextTebVa.toNat + 0x2000 ≤ 2 ^ 47
  | .call i c => ∀ p, k.nt.processes[i]? = some p → c.Fits p
  | _ => True

/-- After boot there is the System process. -/
def start (v : Vmm) (heap : KernelHeap) : State where
  nt := startNt v heap
  names := [[0x53, 0x79, 0x73, 0x74, 0x65, 0x6D]]

/-! ## What is promised -/

/-- The characters and a zero behind them. -/
def WideString (m : Mem) (c va : u64) (s : List u8) : Prop :=
  peekBytes m c va (2 * s.length + 2) = some (wide (s ++ [0]))

structure UnicodeString (m : Mem) (c va : u64) (s : List u8) : Prop where
  length : peekBytes m c va 2 = some (leBytes 2 (2 * s.length))
  maximum : peekBytes m c (va + 2#64) 2 = some (leBytes 2 (2 * s.length + 2))
  buffer : ∃ b, peek64 m c (va + 8#64) = some b ∧ WideString m c b s

/-- The head of the list of modules in load order, in memory order or in initialization order. -/
def listHead (j : Nat) : u64 := LDR_VA + BitVec.ofNat 64 (0x10 + 0x10 * j)

/-- The links of the program's module in that list. -/
def listEntry (j : Nat) : u64 := LDR_VA + BitVec.ofNat 64 (LDR_ENTRY_OFF + 0x10 * j)

/-- A walk along each list of modules meets the program and nothing else. -/
structure Modules (m : Mem) (c base : u64) (name : List u8) : Prop where
  walk : ∀ j, j < 3 → Base.Deque.Path (peek64 m c) (fun va => peek64 m c (va + 8#64)) (listHead j)
    [listEntry j] (listHead j)
  dllBase : peek64 m c (listEntry 0 + 0x30#64) = some base
  fullDllName : UnicodeString m c (listEntry 0 + 0x48#64) name
  baseDllName : UnicodeString m c (listEntry 0 + 0x58#64) name

structure Parameters (m : Mem) (c : u64) (name : List u8) : Prop where
  imagePathName : UnicodeString m c (PARAMS_VA + 0x60#64) (path name)
  commandLine : UnicodeString m c (PARAMS_VA + 0x70#64) name

def Mapped (m : Mem) (c va : u64) : Prop := translateInPml4 m c va ≠ 0

/-- What a program reads behind a PEB, as far as its pages are mapped. -/
structure Readable (m : Mem) (c base : u64) (name : List u8) : Prop where
  imageBase : Mapped m c PEB_VA → peek64 m c (PEB_VA + 0x10#64) = some base
  ldr : Mapped m c PEB_VA → peek64 m c (PEB_VA + 0x18#64) = some LDR_VA
  modules : Mapped m c LDR_VA → Modules m c base name
  parameters : Mapped m c PARAMS_VA → Parameters m c name

/-- With memory for it a new process has all pages of its environment. -/
def Complete (k : State) : Prop :=
  Plenty 18 k.nt.vmm.pmm → (k.nt.heap.alloc KPROCESS_SIZE 8#64).isSome = true → ∀ name,
    ∃ p, userProcess (newProcess k name).nt k.nt.processes.length = some p ∧
      ∀ j, j < 4 → Mapped (newProcess k name).nt.vmm.mem p.cr3 (PEB_VA + pageAddr j)

def tebStores (p : Process) (t : Thread) : List Store :=
  [u64Store 0x30 t.tebVa, u64Store 0x40 (p.pid.setWidth 64), u64Store 0x48 (t.tid.setWidth 64),
    u64Store 0x58 (t.tebVa + 0x800#64), u64Store 0x60 p.pebVa]

/-- What no step changes of a process. -/
def identity (p : Process) : u32 × u64 × u64 := (p.pid, p.cr3, p.pebVa)

/-- The TEB of a thread lies behind those of older threads, and its page shows the thread. -/
structure Teb (L : List MappedPage) (p : Process) (t : Thread) : Prop where
  peb : p.pebVa ≠ 0
  high : High t.tebVa
  aligned : t.tebVa.toNat % PAGE_SIZE = 0
  low : TEB_BASE.toNat ≤ t.tebVa.toNat
  below : t.tebVa.toNat + 0x2000 ≤ p.nextTebVa.toNat
  shows : ∀ x ∈ L, x.space = p.cr3 → x.va = t.tebVa → tebStores p t ⊆ x.fields

structure Invariant (R : Rows) (L : List MappedPage) (k : State) : Prop where
  running : Running R k.nt
  ledger : Ledger L k.nt.loader.sys
  names : k.names.length = k.nt.processes.length
  short : ∀ name ∈ k.names, name.length ≤ 31
  registry : k.nt.loader.procs.map (fun q => (q.cr3, q.pebVa)) =
    (k.nt.processes.take MAX_PROCESSES).map fun p => (p.cr3, p.pebVa)
  user : ∀ (i : Nat) (p : Process), k.nt.processes[i]? = some p → p.pebVa ≠ 0 →
    p.cr3 ∈ k.nt.loader.sys.spaces ∧ p.pebVa = PEB_VA ∧ p.nextTebVa.toNat % PAGE_SIZE = 0 ∧
      TEB_BASE.toNat ≤ p.nextTebVa.toNat
  cover : ∀ c ∈ k.nt.loader.sys.spaces, ∀ va, High va → va.toNat % PAGE_SIZE = 0 →
    Present k.nt.loader.sys c va → ∃ x ∈ L, x.space = c ∧ x.va = va
  range : ∀ x ∈ L, High x.va ∧ ∃ i p, UserProcess k.nt i p ∧ x.space = p.cr3 ∧
    ((∃ j, j < 4 ∧ x.va = envPage j) ∨
      TEB_BASE.toNat ≤ x.va.toNat ∧ x.va.toNat + 0x2000 ≤ p.nextTebVa.toNat)
  pages : ∀ i p name, UserProcess k.nt i p → k.names[i]? = some name → ∀ x ∈ L,
    x.space = p.cr3 → Content L p.cr3 (imageBase k.nt i) name x
  threads : ∀ t ∈ k.nt.threads, t.tebVa ≠ 0 → ∀ p, UserProcess k.nt t.process p → Teb L p t
  owners : ∀ t ∈ k.nt.threads, t.process < k.nt.processes.length
  null : NullPage k.nt.loader.sys

/-! ## Steps -/

section

variable {R : Rows} {shown : Bool} {P : u64 → u64 → Prop} {L : List MappedPage} {k k' : State}
  {i : Nat} {p : Process} {c va : u64} {boot : List BootFile}

theorem userProcess_some (h : userProcess k.nt i = some p) : UserProcess k.nt i p := by
  rw [userProcess] at h
  cases hp : k.nt.processes[i]? with
  | none =>
    rw [hp] at h
    cases h
  | some q =>
    rw [hp] at h
    simp only at h
    split at h
    case isFalse => cases h
    case isTrue own =>
      obtain rfl := Option.some.inj h
      exact ⟨hp, own⟩

/-- Two pages of the ledger at one address are the same. -/
theorem ledger_unique {s : System} (ledger : Ledger L s) {x y : MappedPage} (hx : x ∈ L) (hy : y ∈ L)
    (space : x.space = y.space) (at_ : x.va = y.va) : x = y := by
  by_contra ne
  have symm : Std.Symm fun x y : MappedPage => x.frame ≠ y.frame := ⟨fun _ _ => Ne.symm⟩
  refine ledger.apart.forall hx hy ne ?_
  have first := (ledger.holds x hx).translate (o := 0) (by decide)
  have second := (ledger.holds y hy).translate (o := 0) (by decide)
  rw [space, at_, second] at first
  exact ((BitVec.add_left_inj _).mp first).symm

theorem imageBase_congr {k k' : NtState} (h : k'.loader.procs = k.loader.procs) (i : Nat) :
    imageBase k' i = imageBase k i := by rw [imageBase, imageBase, h]

/-- Processes with the same data. -/
theorem map_get {α : Type} {l l' : List Process} {d : Process → α} (same : l'.map d = l.map d)
    {j : Nat} {q : Process} (hq : l'[j]? = some q) : ∃ q₀, l[j]? = some q₀ ∧ d q = d q₀ := by
  have at_ := congrArg (·[j]?) same
  simp only [List.getElem?_map, hq, Option.map_some] at at_
  obtain ⟨q₀, hq₀, eq⟩ := Option.map_eq_some_iff.mp at_.symm
  exact ⟨q₀, hq₀, eq.symm⟩

/-- A modification of one process that keeps these data of it. -/
theorem map_modify {α : Type} (l : List Process) (i : Nat) (g : Process → Process) (d : Process → α)
    (same : ∀ p, d (g p) = d p) : (l.modify i g).map d = l.map d := by
  refine List.ext_getElem? fun j => ?_
  rw [List.getElem?_map, List.getElem?_map, List.getElem?_modify]
  cases l[j]? with
  | none => rfl
  | some q =>
    simp only [Option.map_eq_map, Option.map_some]
    split
    case isTrue => rw [same]
    case isFalse => rfl

/-- **A step on low pages** that keeps the identity of the processes; their TEB cursors may move on. -/
structure Quiet (R : Rows) (k k' : NtState) : Prop where
  moves : Moves R lowPages noFrames k.loader.sys k'.loader.sys
  procs : k'.loader.procs = k.loader.procs
  threads : k'.threads = k.threads
  same : k'.processes.map identity = k.processes.map identity
  next : ∀ (j : Nat) (q q' : Process), k.processes[j]? = some q → k'.processes[j]? = some q' →
    q.nextTebVa.toNat ≤ q'.nextTebVa.toNat ∧
      q'.nextTebVa.toNat % PAGE_SIZE = q.nextTebVa.toNat % PAGE_SIZE

/-- The TEB cursors stay, too. -/
theorem Quiet.of_map {k k' : NtState} (moves : Moves R lowPages noFrames k.loader.sys k'.loader.sys)
    (procs : k'.loader.procs = k.loader.procs) (threads : k'.threads = k.threads)
    (same : k'.processes.map (fun p => (identity p, p.nextTebVa)) =
      k.processes.map fun p => (identity p, p.nextTebVa)) : Quiet R k k' where
  moves := moves
  procs := procs
  threads := threads
  same := by
    have first := congrArg (List.map Prod.fst) same
    rwa [List.map_map, List.map_map] at first
  next j q q' hq hq' := by
    obtain ⟨q₀, hq₀, eq⟩ := map_get same hq'
    obtain rfl := Option.some.inj (hq.symm.trans hq₀)
    rw [show q'.nextTebVa = q.nextTebVa from congrArg Prod.snd eq]
    exact ⟨le_rfl, rfl⟩

theorem Invariant.quiet {nt : NtState} (h : Invariant R L k) (running : Running R nt)
    (spaces : nt.loader.sys.spaces = k.nt.loader.sys.spaces) (quiet : Quiet R k.nt nt) :
    Invariant R L { k with nt := nt } := by
  obtain ⟨moves, procs, threads, same, next⟩ := quiet
  have identity_eq : ∀ {a b : Process}, identity a = identity b → a.pid = b.pid ∧ a.cr3 = b.cr3 ∧
      a.pebVa = b.pebVa := fun eq => by simpa only [identity, Prod.mk.injEq] using eq
  have user : ∀ {j : Nat} {q : Process}, UserProcess nt j q → ∃ q₀, UserProcess k.nt j q₀ ∧
      q.pid = q₀.pid ∧ q.cr3 = q₀.cr3 ∧ q.pebVa = q₀.pebVa ∧
        q₀.nextTebVa.toNat ≤ q.nextTebVa.toNat := by
    rintro j q ⟨hq, own⟩
    obtain ⟨q₀, hq₀, eq⟩ := map_get same hq
    obtain ⟨pid, cr3, peb⟩ := identity_eq eq
    exact ⟨q₀, ⟨hq₀, by rw [← cr3, ← spaces]; exact own⟩, pid, cr3, peb, (next j q₀ q hq₀ hq).1⟩
  have length : nt.processes.length = k.nt.processes.length := by
    have at_ := congrArg List.length same
    rwa [List.length_map, List.length_map] at at_
  refine ⟨running, h.ledger.moves moves fun x hx => ⟨(h.range x hx).1.not_low x.space, id⟩,
    h.names.trans length.symm, h.short, ?_, fun j q hq some => ?_,
    fun c hc va high aligned there => ?_, fun x hx => ?_, fun j q name hq hn x hx space => ?_,
    fun t ht some q hq => ?_, fun t ht => by rw [length]; exact h.owners t (threads ▸ ht),
    h.null.moves moves⟩
  · have pair : ∀ l : List Process, (l.take MAX_PROCESSES).map (fun p => (p.cr3, p.pebVa)) =
        ((l.map identity).take MAX_PROCESSES).map Prod.snd := by
      intro l
      rw [← List.map_take, List.map_map]
      rfl
    rw [procs, h.registry, pair, pair, same]
  · obtain ⟨q₀, hq₀, eq⟩ := map_get same hq
    obtain ⟨-, cr3, peb⟩ := identity_eq eq
    obtain ⟨more, aligned⟩ := next j q₀ q hq₀ hq
    rw [spaces, cr3, peb, aligned]
    obtain ⟨own, va, pages, low⟩ := h.user j q₀ hq₀ (peb ▸ some)
    exact ⟨own, va, pages, low.trans more⟩
  · rw [spaces] at hc
    exact h.cover c hc va high aligned ((Present.moves moves hc high.own (high.not_low c)).mp there)
  · obtain ⟨high, j, q, hq, space, place⟩ := h.range x hx
    obtain ⟨q₁, hq₁, eq⟩ := map_get same.symm hq.1
    have cr3 := (identity_eq eq).2.1
    have more := (next j q q₁ hq.1 hq₁).1
    exact ⟨high, j, q₁, ⟨hq₁, by rw [spaces, ← cr3]; exact hq.2⟩, space.trans cr3,
      place.imp_right fun ⟨low, below⟩ => ⟨low, below.trans more⟩⟩
  · obtain ⟨q₀, hq₀, -, cr3, -⟩ := user hq
    rw [imageBase_congr procs, cr3]
    exact h.pages j q₀ name hq₀ hn x hx (space.trans cr3)
  · rw [threads] at ht
    obtain ⟨q₀, hq₀, pid, cr3, peb, more⟩ := user hq
    obtain ⟨some_, high, aligned, low, below, shows⟩ := h.threads t ht some q₀ hq₀
    refine ⟨by rwa [peb], high, aligned, low, below.trans more, fun x hx space at_ => ?_⟩
    rw [tebStores, pid, peb]
    exact shows x hx (space.trans cr3) at_

/-! ## Heap calls -/

theorem viewPages_low {base : u64} {n : Nat} (aligned : base.toNat % PAGE_SIZE = 0)
    (below : base.toNat + n * PAGE_SIZE ≤ HEAP_MAX.toNat) {b w : u64}
    (h : viewPages c base 0 n b w) : lowPages b w := by
  obtain ⟨-, j, -, hj, same⟩ := h
  refine ⟨base + pageAddr j, same, ?_⟩
  obtain ⟨place, -⟩ := heap_page aligned below (show j < n by omega)
  have inside : j * PAGE_SIZE < n * PAGE_SIZE := Nat.mul_lt_mul_of_pos_right (by omega) (by decide)
  have last : HEAP_MAX.toNat = 0x580000000 := rfl
  have start : PEB_VA.toNat = 0x7FFFE000000 := rfl
  rw [place]
  omega

/-- **A call on the heap** is quiet. -/
theorem heapCall_quiet {k : NtState} (r : Running R k) (hg : R.Good shown) (hp : UserProcess k i p)
    {c : HeapCall} (fits : c.Fits p) : Quiet R k (heapCall boot k i c).2 := by
  obtain ⟨aligned, low, high⟩ := r.cursor i p hp
  have last : HEAP_MAX.toNat = 0x580000000 := rfl
  have none : Quiet R k k := .of_map (.refl r.sound _ _) rfl rfl rfl
  have section_ : ∀ size content, Quiet R k (createSection k size content).2 := by
    intro size content
    unfold createSection
    split
    case isTrue => exact none
    case isFalse =>
      cases freeSection k with
      | none => exact none
      | some slot =>
        exact .of_map ((r.sound.fillSection content (pagesOf size).toNat 0 (k.sections slot).phys
          fun i hi => absurd hi (Nat.not_lt_zero i)).1.mono (fun _ _ no => no.elim) fun _ no => no)
          rfl rfl rfl
  cases c with
  | ntCreateSection size => exact section_ size _
  | ntCreateFileSection va len =>
    rw [heapCall]
    cases namedFile boot k i va len with
    | none => exact none
    | some f =>
      simp only [ntCreateFileSection]
      split
      case isTrue => exact none
      case isFalse => exact section_ _ _
  | ntMapView handle =>
    rw [heapCall, ntMapView, hp.1]
    cases sectionOf k handle with
    | none => exact none
    | some sec =>
      simp only
      split
      case isTrue => exact none
      case isFalse room =>
        obtain ⟨-, below, own⟩ := r.view_room hp room
        exact .of_map ((r.sound.mapViewPages hg sec.phys sec.pageCount 0
          (by have := sec.bound; omega) (fun j hj => own j (by omega)) hp.2).1.mono
          (fun b w => viewPages_low aligned below) fun _ no => no) rfl rfl
          (map_modify _ _ _ _ fun _ => rfl)
  | ntAllocVm size =>
    rw [heapCall, ntAllocVm, hp.1]
    split
    case isTrue => exact none
    case isFalse =>
      simp only
      split
      case isTrue => exact none
      case isFalse room =>
        have length := pagesLength_toNat (pagesOf_lt size)
        have sum := BitVec.toNat_add p.userHeapCursor (pagesLength (pagesOf size))
        have less := BitVec.le_def.mp (BitVec.not_lt.mp room)
        have fits : p.userHeapCursor.toNat + (pagesLength (pagesOf size)).toNat < 2 ^ 64 := fits
        have below : p.userHeapCursor.toNat + (pagesOf size).toNat * PAGE_SIZE ≤ HEAP_MAX.toNat := by
          omega
        refine .of_map ((r.sound.mapZeroed hg p.userHeapCursor (pagesOf size).toNat 0 hp.2).mono
          (fun b w hw => viewPages_low (c := p.cr3) aligned below ?_) fun _ no => no) rfl rfl
          (map_modify _ _ _ _ fun _ => rfl)
        obtain ⟨hb, j, h1, h2, same⟩ := hw
        exact ⟨hb, j, h1, by omega, same⟩

/-- **A heap call** keeps the environments. -/
theorem Invariant.call (h : Invariant R L k) (hg : R.Good shown) (hp : UserProcess k.nt i p)
    {c : HeapCall} (fits : c.Fits p) :
    Invariant R L { k with nt := (heapCall boot k.nt i c).2 } := by
  have step := heapCall_step hg h.running hp boot fits
  exact h.quiet (h.running.step step) step.spaces (heapCall_quiet h.running hg hp fits)

/-! ## Images -/

/-- The fields once a word was replaced. -/
theorem replaced_subset {A B F : List Store} {o : Nat} {v w : u64}
    (apart : (spans (A ++ u64Store o v :: B)).Pairwise Apart) (sub : A ++ u64Store o v :: B ⊆ F) :
    A ++ u64Store o w :: B ⊆ replaced o w F := by
  rw [spans, List.map_append, List.map_cons, List.pairwise_append] at apart
  obtain ⟨-, behind, before⟩ := apart
  have length : (leBytes 8 v.toNat).length = 8 := length_leBytes
  intro x hx
  rcases List.mem_append.mp hx with first | rest
  · have clear := before _ (List.mem_map_of_mem first) _ List.mem_cons_self
    rw [u64Store, length] at clear
    exact List.mem_cons_of_mem _ (List.mem_filter.mpr
      ⟨sub (List.mem_append_left _ first), decide_eq_true clear⟩)
  · rcases List.mem_cons.mp rest with rfl | last
    · exact List.mem_cons_self
    · have clear := (List.pairwise_cons.mp behind).1 _ (List.mem_map_of_mem last)
      rw [u64Store, length] at clear
      exact List.mem_cons_of_mem _ (List.mem_filter.mpr
        ⟨sub (List.mem_append_right _ (List.mem_cons_of_mem _ last)), decide_eq_true clear.symm⟩)

/-- The page at an address, once a word was stored there. -/
def slotStored (c va : u64) (o : Nat) (v : u64) (x : MappedPage) : MappedPage :=
  if x.space = c ∧ x.va = va then { x with fields := replaced o v x.fields } else x

theorem slotStored_place (c va : u64) (o : Nat) (v : u64) (x : MappedPage) :
    (slotStored c va o v x).space = x.space ∧ (slotStored c va o v x).va = x.va ∧
      (slotStored c va o v x).frame = x.frame := by
  rw [slotStored]
  split <;> exact ⟨rfl, rfl, rfl⟩

/-- **A store of `NotifyImageLoaded`** reaches the page at its address, if there is one. -/
theorem storeAt_slot {s : System} {o : Nat} {v : u64} (sound : Sound R s) (hg : R.Good shown)
    (ledger : Ledger L s) (hc : c ∈ s.spaces) (high : High va) (aligned : va.toNat % PAGE_SIZE = 0)
    (cover : Present s c va → ∃ x ∈ L, x.space = c ∧ x.va = va) (ho : o + 8 ≤ PAGE_SIZE) :
    let t : System :=
      { s with vmm := { s.vmm with mem := storeAt c v s.vmm.mem (va + BitVec.ofNat 64 o) } }
    (∃ F, Moves R noPages F s t) ∧ Ledger (L.map (slotStored c va o v)) t := by
  by_cases there : Present s c va
  case pos =>
    obtain ⟨x, hx, rfl, rfl⟩ := cover there
    have holds := ledger.holds x hx
    have at_ := holds.translate (o := o) (by omega)
    have some : x.frame + BitVec.ofNat 64 o ≠ 0 := by
      obtain ⟨low, below⟩ := (isFrame_iff x.frame).mp holds.data.frame
      intro zero
      refine holds.data.nonzero (BitVec.eq_of_toNat_eq ?_)
      have sum := congrArg BitVec.toNat zero
      rw [BitVec.toNat_add, (offset_lt (by omega)).2] at sum
      have none : (0 : u64).toNat = 0 := rfl
      simp only [PAGE_SIZE] at *
      omega
    have same : ∀ y ∈ L, slotStored x.space x.va o v y = y.stored x.frame o v := by
      intro y hy
      rw [slotStored, MappedPage.stored]
      refine if_congr ⟨fun here => by rw [ledger_unique ledger hy hx here.1 here.2], fun frame => ?_⟩ rfl rfl
      have eq : y = x := by
        by_contra ne
        have symm : Std.Symm fun x y : MappedPage => x.frame ≠ y.frame := ⟨fun _ _ => Ne.symm⟩
        exact ledger.apart.forall hy hx ne frame
      rw [eq]
      exact ⟨rfl, rfl⟩
    simp only [storeAt, at_, if_neg some]
    refine ⟨⟨_, sound.storeWord holds.data ho v⟩, ?_⟩
    rw [List.map_congr_left same]
    exact ledger.stored sound holds.data ho v
  case neg =>
    have small := (offset_lt (show o < PAGE_SIZE by omega)).1
    have inside : High (va + BitVec.ofNat 64 o) := by
      obtain ⟨above, below⟩ := high
      have sum := toNat_add_offset aligned small
      rw [(offset_lt (show o < PAGE_SIZE by omega)).2] at sum
      rw [High, sum]
      simp only [PAGE_SIZE] at *
      omega
    have none : translateInPml4 s.vmm.mem c (va + BitVec.ofNat 64 o) = 0 := by
      rw [Present] at there
      rw [sound.translate_frame hg hc fun low => inside.own (.inl low),
        frameOf_congr (vpn_add_offset aligned small), frameOf, if_neg there]
      rfl
    have same : L.map (slotStored c va o v) = L := by
      refine (List.map_congr_left fun y hy => ?_).trans (List.map_id L)
      refine if_neg fun here => there ?_
      rw [← here.1, ← here.2]
      exact present_of_holds (ledger.holds y hy)
    simp only [storeAt, none, if_true]
    exact ⟨⟨noFrames, .refl sound _ _⟩, by rw [same]; exact ledger⟩

/-- A page once `NotifyImageLoaded` has stored its two words. -/
def noted (c base : u64) (x : MappedPage) : MappedPage :=
  slotStored c LDR_VA 0xB0 base (slotStored c PEB_VA 0x10 base x)

theorem noted_place (c base : u64) (x : MappedPage) : (noted c base x).space = x.space ∧
    (noted c base x).va = x.va ∧ (noted c base x).frame = x.frame := by
  obtain ⟨space, va, frame⟩ := slotStored_place c PEB_VA 0x10 base x
  obtain ⟨space', va', frame'⟩ := slotStored_place c LDR_VA 0xB0 base (slotStored c PEB_VA 0x10 base x)
  exact ⟨space'.trans space, va'.trans va, frame'.trans frame⟩

theorem noted_other {base : u64} {x : MappedPage} (h : x.space ≠ c ∨ x.va ≠ PEB_VA ∧ x.va ≠ LDR_VA) :
    noted c base x = x := by
  have first : slotStored c PEB_VA 0x10 base x = x :=
    if_neg fun here => h.elim (· here.1) fun no => no.1 here.2
  rw [noted, first]
  exact if_neg fun here => h.elim (· here.1) fun no => no.2 here.2

theorem noted_peb {base : u64} {x : MappedPage} (space : x.space = c) (va : x.va = PEB_VA) :
    (noted c base x).fields = replaced 0x10 base x.fields := by
  have first : slotStored c PEB_VA 0x10 base x = { x with fields := replaced 0x10 base x.fields } :=
    if_pos ⟨space, va⟩
  rw [noted, first, slotStored, if_neg]
  rintro ⟨-, ldr⟩
  exact absurd (va.symm.trans ldr) (by decide)

theorem noted_ldr {base : u64} {x : MappedPage} (space : x.space = c) (va : x.va = LDR_VA) :
    (noted c base x).fields = replaced 0xB0 base x.fields := by
  have first : slotStored c PEB_VA 0x10 base x = x :=
    if_neg fun here => absurd (va.symm.trans here.2) (by decide)
  rw [noted, first, slotStored, if_pos ⟨space, va⟩]

theorem exists_noted {c d va base : u64} (h : ∃ z ∈ L.map (noted c base), z.space = d ∧ z.va = va) :
    ∃ z ∈ L, z.space = d ∧ z.va = va := by
  obtain ⟨z, hz, space, at_⟩ := h
  obtain ⟨y, hy, rfl⟩ := List.mem_map.mp hz
  obtain ⟨same, va, -⟩ := noted_place c base y
  exact ⟨y, hy, same.symm.trans space, va.symm.trans at_⟩

/-- The parts that come before the image base in the loader's data, and behind it. -/
theorem ldrStores_split (name : List u8) : ∃ A B, ∀ base,
    ldrStores base name = A ++ u64Store 0xB0 base :: B :=
  ⟨(ldrStores 0 name).take 14, (ldrStores 0 name).drop 15, fun _ => rfl⟩

theorem pebStores_split : ∃ B, ∀ base, pebStores base = u64Store 0x10 base :: B :=
  ⟨(pebStores 0).drop 1, fun _ => rfl⟩

/-- The other processes keep their environments. -/
theorem Content.other {base b : u64} {name : List u8} {x : MappedPage} {d : u64}
    (h : Content L d base name x) (space : x.space = d) (ne : d ≠ c) :
    Content (L.map (noted c b)) d base name (noted c b x) := by
  rw [noted_other (.inl fun same => ne (space.symm.trans same))]
  exact ⟨fun va => ⟨(h.1 va).1, fun y hy there => (h.1 va).2 y hy (exists_noted there)⟩, h.2⟩

/-- **The process whose image was loaded** has the new image base in its environment. -/
theorem Content.noted {base b : u64} {name : List u8} {x : MappedPage} (h : Content L c base name x)
    (space : x.space = c) (short : name.length ≤ 31) :
    Content (L.map (noted c b)) c b name (Environment.noted c b x) := by
  obtain ⟨-, va, -⟩ := noted_place c b x
  rw [Content, va]
  refine ⟨fun first => ?_, fun y hy at_ => ?_⟩
  · obtain ⟨stores, links⟩ := h.1 first
    rw [noted_peb space first]
    refine ⟨?_, fun y hy there off link => ?_⟩
    · obtain ⟨B, split⟩ := pebStores_split
      have apart : (spans (pebStores base)).Pairwise Apart := by
        rw [spans_peb]
        decide
      rw [split] at apart stores ⊢
      exact replaced_subset (A := []) apart stores
    · have apart : Apart (off, 8) (0x10, 8) := by
        simp only [parts, List.mem_cons, List.not_mem_nil, or_false] at hy
        rcases hy with rfl | rfl | rfl
        · cases link
        · obtain rfl := Option.some.inj link
          decide
        · obtain rfl := Option.some.inj link
          decide
      have old : u64Store off y.va ∈ x.fields := by
        simp only [parts, List.mem_cons, List.not_mem_nil, or_false] at hy
        have same : ∃ z ∈ parts base name, z.va = y.va ∧ z.link = y.link := by
          rcases hy with rfl | rfl | rfl
          · exact ⟨_, List.mem_cons_self, rfl, rfl⟩
          · exact ⟨_, params_part, rfl, rfl⟩
          · exact ⟨_, heap_part, rfl, rfl⟩
        obtain ⟨z, hz, va, eq⟩ := same
        rw [← va]
        exact links z hz (by rw [va]; exact exists_noted there) off (eq.trans link)
      refine List.mem_cons_of_mem _ (List.mem_filter.mpr ⟨old, decide_eq_true ?_⟩)
      rwa [u64Store, length_leBytes]
  · simp only [parts, List.mem_cons, List.not_mem_nil, or_false] at hy
    rcases hy with rfl | rfl | rfl
    · have old := h.2 _ List.mem_cons_self at_
      rw [noted_ldr space at_]
      have apart := (laid_ldr base short).1
      obtain ⟨A, B, split⟩ := ldrStores_split name
      intro w hw
      rcases List.mem_append.mp hw with store | zero
      · have stores : ldrStores base name ⊆ x.fields := fun w hw => old (List.mem_append_left _ hw)
        simp only [split] at store stores apart
        exact replaced_subset apart stores store
      · refine List.mem_cons_of_mem _ (List.mem_filter.mpr ⟨old (List.mem_append_right _ zero),
          decide_eq_true (.inr ?_)⟩)
        obtain ⟨v, hv, rfl⟩ := List.mem_map.mp zero
        have low := of_decide_eq_true (List.mem_filter.mp hv).2
        show 0xB0 + 8 ≤ v.1 + v.2.length
        omega
    · rw [noted_other (.inr ⟨fun same => absurd (at_.symm.trans same) (by decide : PARAMS_VA ≠ PEB_VA),
        fun same => absurd (at_.symm.trans same) (by decide : PARAMS_VA ≠ LDR_VA)⟩)]
      exact h.2 _ params_part at_
    · rw [noted_other (.inr ⟨fun same => absurd (at_.symm.trans same) (by decide : HEAP_VA ≠ PEB_VA),
        fun same => absurd (at_.symm.trans same) (by decide : HEAP_VA ≠ LDR_VA)⟩)]
      exact h.2 _ heap_part at_

theorem peb_high : High PEB_VA := ⟨by decide, by decide⟩

theorem ldr_high : High LDR_VA := ⟨by decide, by decide⟩

/-- The registered process that the loader finds. -/
theorem Invariant.registered (h : Invariant R L k)
    (found : (k.nt.loader.procs.findIdx? fun p => p.cr3 == c && p.pebVa != 0) = some i) :
    ∃ p, UserProcess k.nt i p ∧ p.cr3 = c := by
  obtain ⟨hi, here, -⟩ := List.findIdx?_eq_some_iff_getElem.mp found
  rw [Bool.and_eq_true, beq_iff_eq, bne_iff_ne] at here
  have at_ := congrArg (·[i]?) h.registry
  simp only [List.getElem?_map, List.getElem?_eq_getElem hi, Option.map_some] at at_
  obtain ⟨p, hp, same⟩ := Option.map_eq_some_iff.mp at_.symm
  rw [List.getElem?_take] at hp
  split at hp
  case isFalse => cases hp
  case isTrue =>
    simp only [Prod.mk.injEq] at same
    obtain ⟨cr3, peb⟩ := same
    exact ⟨p, ⟨hp, (h.user i p hp (peb ▸ here.2)).1⟩, cr3.trans here.1⟩

theorem imageBase_modify_same {k : NtState} {l : Loader} {base : u64}
    (hi : i < k.loader.procs.length) : imageBase { k with loader := { l with
      procs := k.loader.procs.modify i fun p => { p with imageBase := base } } } i = base := by
  simp only [imageBase, List.getElem?_modify, List.getElem?_eq_getElem hi, if_true]
  rfl

theorem imageBase_modify_ne {k : NtState} {l : Loader} {j : Nat} {base : u64} (ne : j ≠ i) :
    imageBase { k with loader := { l with
      procs := k.loader.procs.modify i fun p => { p with imageBase := base } } } j =
        imageBase k j := by
  simp only [imageBase, List.getElem?_modify]
  cases k.loader.procs[j]? with
  | none => rfl
  | some q => simp only [Option.map_eq_map, Option.map_some, if_neg ne.symm]

/-- **A loaded image** is noted in the environment of its process. -/
theorem Invariant.imageLoaded (h : Invariant R L k) (hg : R.Good shown) (c base : u64) : ∃ L',
    Invariant R L' { k with
      nt := { k.nt with loader := notifyImageLoaded k.nt.loader c base } } := by
  rw [notifyImageLoaded]
  cases found : (k.nt.loader.procs.findIdx? fun p => p.cr3 == c && p.pebVa != 0) with
  | none => exact ⟨L, h⟩
  | some i =>
    obtain ⟨p, hp, rfl⟩ := h.registered found
    obtain ⟨hi, -⟩ := List.findIdx?_eq_some_iff_getElem.mp found
    obtain ⟨⟨F, first⟩, one⟩ := storeAt_slot (o := 0x10) (v := base) h.running.sound hg h.ledger hp.2
      peb_high (by decide) (h.cover _ hp.2 _ peb_high (by decide)) (by decide)
    have there : ∀ va, High va → va.toNat % PAGE_SIZE = 0 →
        Present { k.nt.loader.sys with
          vmm := { k.nt.loader.sys.vmm with
            mem := storeAt p.cr3 base k.nt.loader.sys.vmm.mem (PEB_VA + BitVec.ofNat 64 0x10) } }
          p.cr3 va → ∃ x ∈ L.map (slotStored p.cr3 PEB_VA 0x10 base), x.space = p.cr3 ∧ x.va = va := by
      intro va high aligned present
      obtain ⟨x, hx, space, at_⟩ := h.cover _ hp.2 va high aligned
        ((Present.moves first hp.2 high.own id).mp present)
      obtain ⟨same, va, -⟩ := slotStored_place p.cr3 PEB_VA 0x10 base x
      exact ⟨_, List.mem_map_of_mem hx, same.trans space, va.trans at_⟩
    obtain ⟨⟨G, second⟩, two⟩ := storeAt_slot (o := 0xB0) (v := base) first.sound hg one
      (first.spaces _ hp.2) ldr_high (by decide) (there _ ldr_high (by decide)) (by decide)
    rw [List.map_map] at two
    have moves := (first.mono (G := fun _ => True) (fun _ _ no => no) fun _ _ => trivial).trans
      (second.mono (fun _ _ no => no) fun _ _ => trivial)
    have slots : notifySlots = [PEB_VA + BitVec.ofNat 64 0x10, LDR_VA + BitVec.ofNat 64 0xB0] := by
      decide
    simp only [slots, List.foldl_cons, List.foldl_nil]
    simp only at moves two
    have own : ∀ (j : Nat) (q : Process), UserProcess k.nt j q → q.cr3 = p.cr3 → j = i ∧ q = p := by
      intro j q hq same
      obtain rfl := h.running.own j i q p hq hp same
      exact ⟨rfl, Option.some.inj (hq.1.symm.trans hp.1)⟩
    refine ⟨L.map (noted p.cr3 base), ?_, two, h.names, h.short, ?_, h.user,
      fun c hc va high aligned present => ?_, fun x' hx' => ?_, fun j q name hq hn x' hx' space => ?_,
      fun t ht some q hq => ?_, h.owners, h.null.moves moves⟩
    · exact h.running.system moves.sound ⟨rfl, fun _ hq => hq, fun _ hq => .inl hq⟩ rfl
    · rw [← h.registry]
      refine List.ext_getElem? fun j => ?_
      rw [List.getElem?_map, List.getElem?_map, List.getElem?_modify]
      cases k.nt.loader.procs[j]? with
      | none => rfl
      | some q =>
        simp only [Option.map_some]
        split <;> rfl
    · obtain ⟨x, hx, space, at_⟩ := h.cover c hc va high aligned
        ((Present.moves moves hc high.own id).mp present)
      obtain ⟨same, va, -⟩ := noted_place p.cr3 base x
      exact ⟨_, List.mem_map_of_mem hx, same.trans space, va.trans at_⟩
    · obtain ⟨x, hx, rfl⟩ := List.mem_map.mp hx'
      obtain ⟨same, va, -⟩ := noted_place p.cr3 base x
      rw [va, same]
      exact h.range x hx
    · obtain ⟨x, hx, rfl⟩ := List.mem_map.mp hx'
      obtain ⟨same, -, -⟩ := noted_place p.cr3 base x
      have here := h.pages j q name hq hn x hx (same.symm.trans space)
      have short := h.short name (List.mem_of_getElem? hn)
      by_cases mine : q.cr3 = p.cr3
      case pos =>
        obtain ⟨rfl, rfl⟩ := own j q hq mine
        rw [imageBase_modify_same hi]
        exact here.noted (same.symm.trans space) short
      case neg =>
        rw [imageBase_modify_ne fun eq => mine (by
          subst eq
          rw [Option.some.inj (hq.1.symm.trans hp.1)])]
        exact here.other (same.symm.trans space) mine
    · obtain ⟨peb, high, aligned, low, below, shows⟩ := h.threads t ht some q hq
      refine ⟨peb, high, aligned, low, below, fun x' hx' space at_ => ?_⟩
      obtain ⟨x, hx, rfl⟩ := List.mem_map.mp hx'
      obtain ⟨same, va, -⟩ := noted_place p.cr3 base x
      have here := shows x hx (same.symm.trans space) (va.symm.trans at_)
      have away : ∀ w : u64, w.toNat < TEB_BASE.toNat → x.va ≠ w := by
        rintro w before rfl
        rw [va.symm.trans at_] at before
        omega
      rw [noted_other (.inr ⟨away PEB_VA (by decide), away LDR_VA (by decide)⟩)]
      exact here

/-! ## Threads -/

theorem shows_teb (p : Process) (t : Thread) (stackTop : u64) :
    HasFields (tebPage p t.tid t.tebVa stackTop) (tebStores p t) := by
  intro w hw
  simp only [tebStores, List.mem_cons, List.not_mem_nil, or_false] at hw
  have word : ∀ i v, i < 512 → tebPage p t.tid t.tebVa stackTop (BitVec.ofNat 9 i) = v →
      slice (bytesOf (tebPage p t.tid t.tebVa stackTop)) (u64Store (8 * i) v).1
        (u64Store (8 * i) v).2.length = (u64Store (8 * i) v).2 := by
    rintro i v hi rfl
    rw [u64Store, length_leBytes]
    exact slice_word _ hi
  rcases hw with rfl | rfl | rfl | rfl | rfl
  · exact word 6 _ (by decide) rfl
  · exact word 8 _ (by decide) rfl
  · exact word 9 _ (by decide) rfl
  · exact word 11 _ (by decide) rfl
  · exact word 12 _ (by decide) rfl

theorem setupPage_eq (s : Vmm) (c va : u64) (page : Table) :
    setupPage s c va page = (decide ((placePage s c va page none).1 ≠ 0),
      (placePage s c va page none).2) := by
  rw [setupPage, placePage]
  split
  case isTrue => rfl
  case isFalse some => simp only [decide_eq_true some]

theorem running_processes {k : NtState} (r : Running R k) {l : List Process}
    (same : l.map (fun p => (p.cr3, p.userHeapCursor)) =
      k.processes.map fun p => (p.cr3, p.userHeapCursor)) : Running R { k with processes := l } := by
  have before : ∀ {j : Nat} {q : Process}, l[j]? = some q → ∃ q₀, k.processes[j]? = some q₀ ∧
      q.cr3 = q₀.cr3 ∧ q.userHeapCursor = q₀.userHeapCursor := fun hq =>
    (map_get same hq).imp fun q₀ ⟨hq₀, eq⟩ => ⟨hq₀, congrArg Prod.fst eq, congrArg Prod.snd eq⟩
  refine ⟨r.sound, fun j q hq => ?_, fun j l a b ha hb eq => ?_, fun j q hq => ?_⟩
  · obtain ⟨q₀, hq₀, cr3, -⟩ := before hq
    rw [cr3]
    exact r.known j q₀ hq₀
  · obtain ⟨a₀, ha₀, ca, -⟩ := before ha.1
    obtain ⟨b₀, hb₀, cb, -⟩ := before hb.1
    exact r.own j l a₀ b₀ ⟨ha₀, ca ▸ ha.2⟩ ⟨hb₀, cb ▸ hb.2⟩ (ca.symm.trans (eq.trans cb))
  · obtain ⟨q₀, hq₀, cr3, cursor⟩ := before hq.1
    rw [cursor]
    exact r.cursor j q₀ ⟨hq₀, cr3 ▸ hq.2⟩

/-- **A page is placed** behind the TEBs of a process, below its TEB cursor. -/
theorem Invariant.placed (h : Invariant R L k) (hg : R.Good shown) (hp : UserProcess k.nt i p)
    (aligned : va.toNat % PAGE_SIZE = 0) (low : TEB_BASE.toNat ≤ va.toNat)
    (below : va.toNat + 0x2000 ≤ p.nextTebVa.toNat) (high : High va)
    (unused : ∀ x ∈ L, x.space = p.cr3 → x.va ≠ va)
    (free : ∀ t ∈ k.nt.threads, t.process = i → t.tebVa ≠ va) {page : Table} {ws : List Store}
    (shows : HasFields page ws) : ∃ L',
      Invariant R L' { k with nt := k.nt.withVmm (placePage k.nt.vmm p.cr3 va page none).2 } ∧
      ∀ x ∈ L', x.space = p.cr3 → x.va = va → x.fields = ws := by
  have absent : ¬ Present k.nt.loader.sys p.cr3 va := fun there => by
    obtain ⟨x, hx, space, at_⟩ := h.cover _ hp.2 _ high aligned there
    exact unused x hx space at_
  have ok : Link.Ok none k.nt.loader.sys := fun w no => by cases no
  have placed := place h.running.sound hg hp.2 high.own aligned absent h.ledger shows ok
  rw [show k.nt.vmm = k.nt.loader.sys.vmm from rfl]
  simp only [show Link.store none = none from rfl] at placed
  generalize placePage k.nt.loader.sys.vmm p.cr3 va page none = r at *
  obtain ⟨moves, missing, -, taken, -⟩ := placed
  rw [show L.map (Link.stored none) = L from List.map_id L] at taken
  -- the ledger has the new page, or it is not there
  have ledger : ∃ N : List MappedPage, Ledger (N ++ L) { k.nt.loader.sys with vmm := r.2 } ∧
      (∀ x ∈ N, x.space = p.cr3 ∧ x.va = va ∧ x.fields = ws) ∧
      (Present { k.nt.loader.sys with vmm := r.2 } p.cr3 va → ∃ x, x ∈ N) := by
    by_cases zero : r.1 = 0
    · exact ⟨[], (missing zero).1, fun x no => absurd no List.not_mem_nil,
        fun there => absurd there (missing zero).2⟩
    · obtain ⟨N, ledger, new, there⟩ := taken zero
      exact ⟨N, ledger, fun x hx => by rw [new x hx]; exact ⟨rfl, rfl, rfl⟩, there⟩
  obtain ⟨N, ledger, new, there⟩ := ledger
  -- the new page is at no other address
  have old : ∀ {x c w}, x ∈ N ++ L → x.space = c → x.va = w → ¬ (c = p.cr3 ∧ w = va) → x ∈ L := by
    intro x c w hx space at_ apart
    rcases List.mem_append.mp hx with hx | hx
    · exact absurd ⟨space.symm.trans (new x hx).1, at_.symm.trans (new x hx).2.1⟩ apart
    · exact hx
  have env : ∀ {c w : u64}, w.toNat < TEB_BASE.toNat → ¬ (c = p.cr3 ∧ w = va) := by
    rintro c w before ⟨-, rfl⟩
    omega
  refine ⟨N ++ L, ⟨?_, ledger, h.names, h.short, h.registry, h.user,
    fun c hc w high' aligned' present => ?_, fun x hx => ?_, fun j q name hq hn x hx space => ?_,
    fun t ht some q hq => ?_, h.owners, h.null.moves moves⟩, fun x hx space at_ => ?_⟩
  · exact h.running.system moves.sound ⟨moves.kernel, fun _ hq => hq, fun _ hq => .inl hq⟩ rfl
  · by_cases here : c = p.cr3 ∧ vpn w = vpn va
    · obtain ⟨rfl, page⟩ := here
      obtain rfl := high'.eq_of_vpn high aligned' aligned page
      obtain ⟨x, hx⟩ := there present
      exact ⟨x, List.mem_append_left _ hx, (new x hx).1, (new x hx).2.1⟩
    · obtain ⟨x, hx, at_⟩ := h.cover c hc w high' aligned'
        ((Present.moves moves hc high'.own here).mp present)
      exact ⟨x, List.mem_append_right _ hx, at_⟩
  · rcases List.mem_append.mp hx with hx | hx
    · obtain ⟨space, rfl, -⟩ := new x hx
      exact ⟨high, i, p, hp, space, .inr ⟨low, below⟩⟩
    · exact h.range x hx
  · have parts_low : ∀ y ∈ parts (imageBase k.nt j) name, y.va.toNat < TEB_BASE.toNat := by
      intro y hy
      obtain ⟨j, hj, page, -⟩ := parts_page hy
      exact page ▸ envPage_below hj
    have content := fun hx => h.pages j q name hq hn x hx space
    refine ⟨fun at_ => ?_, fun y hy at_ => ?_⟩
    · obtain ⟨stores, links⟩ := (content (old hx space at_ (env (by decide)))).1 at_
      exact ⟨stores, fun y hy ⟨z, hz, own, at_⟩ =>
        links y hy ⟨z, old hz own at_ (env (parts_low y hy)), own, at_⟩⟩
    · exact (content (old hx space at_ (env (parts_low y hy)))).2 y hy at_
  · have teb := h.threads t ht some q hq
    refine { teb with shows := fun x hx space at_ => teb.shows x (old hx space at_ ?_) space at_ }
    rintro ⟨same, at_⟩
    exact free t ht (h.running.own t.process i q p hq hp same) at_
  · rcases List.mem_append.mp hx with hx | hx
    · exact (new x hx).2.2
    · exact absurd at_ (unused x hx space)

theorem Invariant.addThread (h : Invariant R L k) (t : Thread)
    (owner : t.process < k.nt.processes.length) (ok : t.tebVa ≠ 0 → ∀ p,
    UserProcess k.nt t.process p → Teb L p t) :
    Invariant R L { k with nt := { k.nt with threads := k.nt.threads ++ [t] } } where
  running := ⟨h.running.sound, h.running.known, h.running.own, h.running.cursor⟩
  ledger := h.ledger
  names := h.names
  short := h.short
  registry := h.registry
  user := h.user
  cover := h.cover
  range := h.range
  pages := h.pages
  threads a ha some q hq := by
    rcases List.mem_append.mp ha with old | new
    · exact h.threads a old some q hq
    · obtain rfl := List.mem_singleton.mp new
      exact ok some q hq
  owners a ha := by
    rcases List.mem_append.mp ha with old | new
    · exact h.owners a old
    · obtain rfl := List.mem_singleton.mp new
      exact owner
  null := h.null

/-- A process is modified in data that are not part of its identity. -/
theorem Invariant.modify (h : Invariant R L k) (hp : UserProcess k.nt i p) (g : Process → Process)
    (same : ∀ p, identity (g p) = identity p ∧ (g p).userHeapCursor = p.userHeapCursor)
    (more : p.nextTebVa.toNat ≤ (g p).nextTebVa.toNat)
    (aligned : (g p).nextTebVa.toNat % PAGE_SIZE = p.nextTebVa.toNat % PAGE_SIZE) :
    Invariant R L { k with nt := k.nt.updateProcess i g } ∧
      UserProcess (k.nt.updateProcess i g) i (g p) := by
  have at_ : (k.nt.processes.modify i g)[i]? = some (g p) := by
    rw [List.getElem?_modify, hp.1, Option.map_eq_map, Option.map_some, if_pos rfl]
  have cr3 : ∀ p, (g p).cr3 = p.cr3 := fun p => congrArg (·.2.1) (same p).1
  refine ⟨h.quiet (running_processes (l := k.nt.processes.modify i g) h.running
    (map_modify _ _ _ _ fun p => by rw [(same p).2, cr3])) rfl ⟨.refl h.running.sound _ _, rfl, rfl,
    map_modify _ _ _ _ fun p => (same p).1, fun j a b ha hb => ?_⟩, at_, by rw [cr3]; exact hp.2⟩
  replace hb : (k.nt.processes.modify i g)[j]? = some b := hb
  by_cases mine : i = j
  · subst mine
    obtain rfl := Option.some.inj (hp.1.symm.trans ha)
    obtain rfl := Option.some.inj (at_.symm.trans hb)
    exact ⟨more, aligned⟩
  · rw [List.getElem?_modify, ha, Option.map_eq_map, Option.map_some, if_neg mine] at hb
    obtain rfl := Option.some.inj hb
    exact ⟨le_rfl, rfl⟩

/-- **A new thread** has its TEB. -/
theorem Invariant.createThread (h : Invariant R L k) (hg : R.Good shown) (hp : UserProcess k.nt i p)
    (fits : p.nextTebVa.toNat + 0x2000 ≤ 2 ^ 47) (stackBase stackVa : u64) : ∃ L',
    Invariant R L' { k with nt := (newThread k.nt i p stackBase stackVa).2 } := by
  have numbered : Invariant R L { k with nt := { k.nt with nextTid := k.nt.nextTid + 1#32 } } :=
    h.quiet ⟨h.running.sound, h.running.known, h.running.own, h.running.cursor⟩ rfl
      (.of_map (.refl h.running.sound _ _) rfl rfl rfl)
  obtain ⟨counted, hp₁⟩ := numbered.modify hp (fun p => { p with threadCount := p.threadCount + 1#32 })
    (fun p => by simp only [identity, and_self]) le_rfl rfl
  rw [newThread]
  simp only at counted hp₁ ⊢
  generalize { k.nt with nextTid := k.nt.nextTid + 1#32 }.updateProcess i _ = nt at *
  generalize hq : ({ p with threadCount := p.threadCount + 1#32 } : Process) = q at hp₁
  have cr3 : q.cr3 = p.cr3 := hq ▸ rfl
  have next_eq : q.nextTebVa = p.nextTebVa := hq ▸ rfl
  have owner := (List.getElem?_eq_some_iff.mp hp₁.1).1
  rw [setupTeb]
  by_cases none : p.cr3 = 0 ∨ p.pebVa = 0
  case pos =>
    rw [if_pos none]
    exact ⟨L, counted.addThread ⟨k.nt.nextTid, i, stackBase, 0⟩ owner fun no => absurd rfl no⟩
  case neg =>
    rw [if_neg none]
    have peb : p.pebVa ≠ 0 := fun zero => none (.inr zero)
    obtain ⟨-, -, aligned, low⟩ := h.user i p hp.1 peb
    have base : TEB_BASE.toNat = 0x7FFFE100000 := rfl
    have start : PEB_VA.toNat = 0x7FFFE000000 := rfl
    have high : High p.nextTebVa := ⟨by omega, by omega⟩
    have next : (p.nextTebVa + 0x2000#64).toNat = p.nextTebVa.toNat + 0x2000 := by
      rw [BitVec.toNat_add, show (0x2000#64 : u64).toNat = 0x2000 from rfl]
      omega
    -- no page and no thread is at the cursor
    have unused : ∀ x ∈ L, x.space = q.cr3 → x.va ≠ p.nextTebVa := by
      rintro x hx space at_
      obtain ⟨-, j, a, ha, owner, place⟩ := counted.range x hx
      obtain rfl := counted.running.own j i a q ha hp₁ (owner.symm.trans space)
      obtain rfl := Option.some.inj (ha.1.symm.trans hp₁.1)
      rcases place with ⟨j, hj, env⟩ | ⟨-, below⟩
      · have before := envPage_below hj
        rw [← env, at_] at before
        omega
      · rw [at_, next_eq] at below
        omega
    have free : ∀ t ∈ nt.threads, t.process = i → t.tebVa ≠ p.nextTebVa := by
      rintro t ht rfl at_
      have below := (counted.threads t ht (fun zero => ?_) q hp₁).below
      · rw [at_, next_eq] at below
        omega
      · rw [← at_, zero] at low
        exact absurd low (by decide)
    obtain ⟨moved, hp₂⟩ := counted.modify hp₁
      (fun p => { p with nextTebVa := p.nextTebVa + 0x2000#64 })
      (fun p => by simp only [identity, and_self])
      (by simp only [next_eq, next]; omega) (by simp only [next_eq, next, PAGE_SIZE]; omega)
    have threads : (nt.updateProcess i fun p => { p with nextTebVa := p.nextTebVa + 0x2000#64 }).threads =
      nt.threads := rfl
    simp only [setupPage_eq, decide_eq_true_eq] at moved hp₂ ⊢
    generalize (nt.updateProcess i fun p => { p with nextTebVa := p.nextTebVa + 0x2000#64 }) = nt' at *
    rw [← threads] at free
    have pid : q.pid = p.pid := hq ▸ rfl
    have same_peb : q.pebVa = p.pebVa := hq ▸ rfl
    generalize hq₂ : ({ q with nextTebVa := q.nextTebVa + 0x2000#64 } : Process) = q₂ at hp₂
    have cr3₂ : q₂.cr3 = p.cr3 := by rw [← hq₂, ← cr3]
    have next₂ : q₂.nextTebVa = p.nextTebVa + 0x2000#64 := by rw [← hq₂, ← next_eq]
    let t : Thread := ⟨k.nt.nextTid, i, stackBase, p.nextTebVa⟩
    obtain ⟨L', placed, fields⟩ := moved.placed hg hp₂ aligned low (by rw [next₂, next]) high
      (by rw [cr3₂, ← cr3]; exact unused) free (shows_teb p t stackVa)
    rw [cr3₂] at placed fields
    refine ⟨L', placed.addThread ⟨k.nt.nextTid, i, stackBase, _⟩
      (List.getElem?_eq_some_iff.mp hp₂.1).1 fun some a ha => ?_⟩
    obtain rfl := Option.some.inj (ha.1.symm.trans hp₂.1)
    split at some
    case isFalse => exact absurd rfl some
    case isTrue taken =>
      rw [if_pos taken]
      refine ⟨by rw [← hq₂]; simpa only [same_peb] using peb, high, aligned, low,
        by rw [next₂, next], fun x hx space at_ => ?_⟩
      rw [fields x hx (space.trans cr3₂) at_]
      simp only [tebStores, ← hq₂, pid, same_peb]
      exact List.Subset.refl _

/-! ## New processes -/

/-- **A new address space** has no environment yet. -/
theorem Invariant.newSpace (h : Invariant R L k) (hg : R.Good shown) :
    Invariant R L { k with nt := { k.nt with loader := (newSpace k.nt.loader).2 } } ∧
      ((newSpace k.nt.loader).1 ≠ 0 →
        (newSpace k.nt.loader).1 ∈ (newSpace k.nt.loader).2.sys.spaces ∧
        ¬ Used k.nt.loader.sys.vmm (newSpace k.nt.loader).1 ∧
        ∀ va, ¬ Shared va → ¬ Present (newSpace k.nt.loader).2.sys (newSpace k.nt.loader).1 va) := by
  obtain ⟨running, moves, created⟩ := h.running.newSpace hg noPages
  have empty : (Kernel.newSpace k.nt.loader).1 ≠ 0 → ∀ va, ¬ Shared va →
      ¬ Present (Kernel.newSpace k.nt.loader).2.sys (Kernel.newSpace k.nt.loader).1 va :=
    fun some va own there => Bool.false_ne_true
      ((h.running.sound.createUserPml4_private hg some own).symm.trans there)
  have spaces : ∀ c ∈ (Kernel.newSpace k.nt.loader).2.sys.spaces, c ∈ k.nt.loader.sys.spaces ∨
      c = (Kernel.newSpace k.nt.loader).1 ∧ (Kernel.newSpace k.nt.loader).1 ≠ 0 := by
    intro c hc
    have cases_ : (Kernel.newSpace k.nt.loader).2.sys.spaces =
        if (Kernel.newSpace k.nt.loader).1 = 0 then k.nt.loader.sys.spaces
        else (Kernel.newSpace k.nt.loader).1 :: k.nt.loader.sys.spaces := rfl
    rw [cases_] at hc
    split at hc
    case isTrue => exact .inl hc
    case isFalse some => exact (List.mem_cons.mp hc).symm.imp_right fun eq => ⟨eq, some⟩
  have procs : (Kernel.newSpace k.nt.loader).2.procs = k.nt.loader.procs := rfl
  generalize Kernel.newSpace k.nt.loader = r at *
  have old : ∀ (j : Nat) (q : Process), UserProcess { k.nt with loader := r.2 } j q →
      UserProcess k.nt j q := by
    intro j q hq
    refine h.running.old_user hq.1 (fun c hc => ?_) hq.2
    exact (spaces c hc).imp_right fun ⟨eq, nonzero⟩ => eq ▸ (created nonzero).2
  refine ⟨⟨running, h.ledger.moves moves fun x _ => ⟨id, id⟩, h.names, h.short, ?_,
    fun j q hq some => ?_, fun c hc va high aligned there => ?_, fun x hx => ?_,
    fun j q name hq hn x hx space => ?_, fun t ht some q hq => h.threads t ht some q (old _ q hq),
    h.owners, h.null.moves moves⟩, fun some => ⟨(created some).1, (created some).2, empty some⟩⟩
  · simp only [procs]
    exact h.registry
  · exact (h.user j q hq some).imp_left (moves.spaces _)
  · rcases spaces c hc with before | ⟨rfl, some⟩
    · exact h.cover c before va high aligned ((Present.moves moves before high.own id).mp there)
    · exact absurd there (empty some va high.own)
  · obtain ⟨high, j, q, hq, rest⟩ := h.range x hx
    exact ⟨high, j, q, ⟨hq.1, moves.spaces _ hq.2⟩, rest⟩
  · rw [imageBase_congr (k := k.nt) procs]
    exact h.pages j q name (old j q hq) hn x hx space

theorem length_copyName (name : List u8) : (copyName name).length ≤ 31 := by
  rw [copyName, List.length_take]
  exact Nat.min_le_left _ _

/-- **A new process** has its environment. -/
theorem Invariant.addProcess (h : Invariant R L k) (hg : R.Good shown)
    (hc : c ∈ k.nt.loader.sys.spaces)
    (empty : ∀ va, ¬ Shared va → ¬ Present k.nt.loader.sys c va)
    (alone : ∀ (j : Nat) (q : Process), k.nt.processes[j]? = some q → q.cr3 ≠ c)
    (heap : KernelHeap) {name : List u8} (short : name.length ≤ 31) : ∃ L',
    Invariant R L' (Environment.addProcess k heap (setupPeb k.nt.vmm c 0 name).2 c
      (setupPeb k.nt.vmm c 0 name).1 name) := by
  have foreign : ∀ x ∈ L, x.space ≠ c := by
    intro x hx same
    obtain ⟨-, j, q, hq, owner, -⟩ := h.range x hx
    exact alone j q hq.1 (owner.symm.trans same)
  obtain ⟨moves, peb, L', ledger, kept, entries, cover, -⟩ := setupPeb_spec h.running.sound hg hc
    h.ledger foreign (fun j hj => empty _ (envPage_high hj).own) 0 short
  simp only [show k.nt.loader.sys.vmm = k.nt.vmm from rfl] at *
  generalize setupPeb k.nt.vmm c 0 name = r at *
  -- the pages of others, and the image base of the new process
  have mine : ∀ x ∈ L', x.space ≠ c → x ∈ L := fun x hx ne =>
    (entries x hx).resolve_right fun new => ne new.1
  have length := congrArg List.length h.registry
  rw [List.length_map, List.length_map, List.length_take] at length
  have room : MAX_PROCESSES = 32 := rfl
  have base_new : imageBase (Environment.addProcess k heap r.2 c r.1 name).nt
      k.nt.processes.length = 0 := by
    simp only [imageBase, Environment.addProcess]
    split
    case h_2 => rfl
    case h_1 q hq =>
      split at hq
      case isTrue few =>
        rw [show k.nt.processes.length = k.nt.loader.procs.length by omega,
          List.getElem?_concat_length] at hq
        obtain rfl := Option.some.inj hq
        rfl
      case isFalse full =>
        have := (List.getElem?_eq_some_iff.mp hq).1
        omega
  have base_old : ∀ j, j < k.nt.processes.length →
      imageBase (Environment.addProcess k heap r.2 c r.1 name).nt j = imageBase k.nt j := by
    intro j hj
    simp only [imageBase, Environment.addProcess]
    by_cases few : k.nt.loader.procs.length < MAX_PROCESSES
    · rw [if_pos few, List.getElem?_append_left (by omega)]
    · rw [if_neg few]
  have place : ∀ {j : Nat} {q : Process},
      (Environment.addProcess k heap r.2 c r.1 name).nt.processes[j]? = some q →
      k.nt.processes[j]? = some q ∨ j = k.nt.processes.length ∧ q.cr3 = c ∧ q.pebVa = r.1 ∧
        q.nextTebVa = if r.1 = 0 then 0 else TEB_BASE := by
    intro j q hq
    simp only [Environment.addProcess] at hq
    by_cases before : j < k.nt.processes.length
    · rw [List.getElem?_append_left before] at hq
      exact .inl hq
    · rw [List.getElem?_append_right (by omega)] at hq
      obtain ⟨hj, hq⟩ := List.getElem?_eq_some_iff.mp hq
      rw [List.length_singleton] at hj
      simp only [show j - k.nt.processes.length = 0 by omega, List.getElem_cons_zero] at hq
      subst hq
      exact .inr ⟨by omega, rfl, rfl, rfl⟩
  have stays : ∀ {j : Nat} {q : Process}, k.nt.processes[j]? = some q →
      (Environment.addProcess k heap r.2 c r.1 name).nt.processes[j]? = some q := by
    intro j q hq
    exact (List.getElem?_append_left (List.getElem?_eq_some_iff.mp hq).1).trans hq
  have newest : ∃ q, UserProcess (Environment.addProcess k heap r.2 c r.1 name).nt
      k.nt.processes.length q ∧ q.cr3 = c :=
    ⟨_, ⟨List.getElem?_concat_length, hc⟩, rfl⟩
  have others : ∀ {d va}, d ∈ k.nt.loader.sys.spaces → ¬ Shared va → ¬ envPages c d va →
      Present { k.nt.loader.sys with vmm := r.2 } d va → Present k.nt.loader.sys d va :=
    fun hd own apart => (Present.moves moves hd own apart).mp
  refine ⟨L', ?_, ledger, ?_, ?_, ?_, fun j q hq some => ?_, fun d hd va high aligned there => ?_,
    fun x hx => ?_, fun j q n hq hn x hx space => ?_, fun t ht some q hq => ?_, fun t ht => ?_,
    h.null.moves moves⟩
  · exact h.running.append moves.sound moves.kernel rfl rfl hc (fun j q hq => alone j q hq) rfl
  · simp only [Environment.addProcess, List.length_append, List.length_singleton, h.names]
  · intro n hn
    rcases List.mem_append.mp hn with old | new
    · exact h.short n old
    · obtain rfl := List.mem_singleton.mp new
      exact short
  · simp only [Environment.addProcess]
    split
    case isTrue few =>
      rw [List.take_of_length_le (by rw [List.length_append, List.length_singleton]; omega),
        List.map_append, List.map_append, h.registry, List.take_of_length_le (by omega)]
      rfl
    case isFalse full => rw [List.take_append_of_le_length (by omega), h.registry]
  · rcases place hq with old | ⟨-, cr3, at_, next⟩
    · exact h.user j q old some
    · rw [at_] at some
      rw [cr3, at_, next, if_neg some]
      exact ⟨hc, peb.resolve_left some, by decide, le_rfl⟩
  · by_cases env : envPages c d va
    · obtain ⟨rfl, j, hj, page⟩ := env
      have aligned' : (envPage j).toNat % PAGE_SIZE = 0 := page_aligned j hj
      obtain rfl := high.eq_of_vpn (envPage_high hj) aligned aligned' page
      exact cover j hj there
    · have before := others hd high.own env there
      obtain ⟨x, hx, at_⟩ := h.cover d hd va high aligned before
      exact ⟨x, kept x hx, at_⟩
  · rcases entries x hx with old | ⟨space, ⟨j, hj, at_⟩, -⟩
    · obtain ⟨high, j, q, hq, rest⟩ := h.range x old
      exact ⟨high, j, q, ⟨stays hq.1, hq.2⟩, rest⟩
    · obtain ⟨q, hq, cr3⟩ := newest
      rw [at_]
      exact ⟨envPage_high hj, _, q, hq, space.trans cr3.symm, .inl ⟨j, hj, rfl⟩⟩
  · rcases place hq.1 with old | ⟨rfl, cr3, -, -⟩
    · have ne := alone j q old
      have hj := (List.getElem?_eq_some_iff.mp old).1
      simp only [Environment.addProcess] at hn
      rw [List.getElem?_append_left (by rw [h.names]; exact hj)] at hn
      rw [base_old j hj]
      have content := h.pages j q n ⟨old, hq.2⟩ hn x (mine x hx (by rwa [space])) space
      exact ⟨fun at_ => ⟨(content.1 at_).1, fun y hy ⟨z, hz, own, at'⟩ => (content.1 at_).2 y hy
        ⟨z, mine z hz (by rwa [own]), own, at'⟩⟩, content.2⟩
    · simp only [Environment.addProcess] at hn
      rw [← h.names, List.getElem?_concat_length] at hn
      obtain rfl := Option.some.inj hn
      rw [base_new, cr3]
      rw [cr3] at space
      exact ((entries x hx).resolve_left fun old => foreign x old space).2.2
  · have owner := h.owners t ht
    rcases place hq.1 with old | ⟨no, -⟩
    · obtain ⟨peb, high, aligned, low, below, shows⟩ := h.threads t ht some q ⟨old, hq.2⟩
      exact ⟨peb, high, aligned, low, below, fun x hx space => shows x (mine x hx (by
        rw [space]
        exact alone _ q old)) space⟩
    · omega
  · have owner := h.owners t ht
    simp only [Environment.addProcess, List.length_append]
    omega

/-- **A new process** in an address space of its own. -/
theorem Invariant.newProcess (h : Invariant R L k) (hg : R.Good shown) (name : List u8) : ∃ L',
    Invariant R L' (newProcess k name) := by
  obtain ⟨space, created⟩ := h.newSpace hg
  rw [Environment.newProcess]
  have alone : ∀ {c : u64}, ¬ Used k.nt.loader.sys.vmm c → ∀ (j : Nat) (q : Process),
      k.nt.processes[j]? = some q → q.cr3 ≠ c := by
    rintro c free j q hq rfl
    exact free (h.running.sound.space_used (h.running.known j q hq))
  generalize Kernel.newSpace k.nt.loader = r at *
  simp only
  split
  case isTrue => exact ⟨L, space⟩
  case isFalse nonzero =>
    obtain ⟨own, free, empty⟩ := created nonzero
    rw [Environment.createProcess]
    simp only
    cases k.nt.heap.alloc KPROCESS_SIZE 8#64 with
    | none => exact ⟨L, space⟩
    | some heap => exact space.addProcess hg own empty (alone free) heap (length_copyName name)

/-- **A step** keeps the environments. -/
theorem Invariant.step (h : Invariant R L k) (hg : R.Good shown) {e : Event} (fits : Fits k e)
    (hs : step boot k e = some k') : ∃ L', Invariant R L' k' := by
  cases e with
  | createProcess name =>
    obtain rfl := Option.some.inj hs
    exact h.newProcess hg name
  | createThread i stackBase stackVa =>
    obtain ⟨p, hp, rfl⟩ := Option.map_eq_some_iff.mp hs
    have user := userProcess_some hp
    exact h.createThread hg user (fits p user.1) stackBase stackVa
  | imageLoaded cr3 base =>
    obtain rfl := Option.some.inj hs
    exact h.imageLoaded hg cr3 base
  | call i c =>
    obtain ⟨p, hp, rfl⟩ := Option.map_eq_some_iff.mp hs
    have user := userProcess_some hp
    exact ⟨L, h.call hg user (fits p user.1)⟩

/-! ## Reading -/

variable {s : System} {x : MappedPage} {o : Nat} {name : List u8} {base : u64}

theorem userProcess_of_user (h : UserProcess k.nt i p) : userProcess k.nt i = some p := by
  rw [userProcess, h.1]
  exact if_pos h.2

/-- **A new process gets its environment** when there is memory. -/
theorem Invariant.complete (h : Invariant R L k) (hg : R.Good shown) : Complete k := by
  intro plenty room name
  obtain ⟨heap, room⟩ := Option.isSome_iff_exists.mp room
  obtain ⟨space, created⟩ := h.newSpace hg
  obtain ⟨some, taken⟩ := createUserPml4_plenty (plenty.mono (by omega))
  obtain ⟨own, free, empty⟩ := created some
  have more : Plenty 16 (Kernel.newSpace k.nt.loader).2.sys.vmm.pmm :=
    Plenty.after (m := 2) (n := 16) plenty taken
  have nonzero : (Kernel.newSpace k.nt.loader).1 ≠ 0 := some
  obtain ⟨L', after⟩ := h.newProcess hg name
  have foreign : ∀ x ∈ L, x.space ≠ (Kernel.newSpace k.nt.loader).1 := fun x hx same =>
    free (same ▸ h.running.sound.space_used (.inr (h.ledger.holds x hx).space))
  obtain ⟨-, -, -, -, -, -, -, all⟩ := setupPeb_spec space.running.sound hg own space.ledger foreign
    (fun j hj => empty _ (envPage_high hj).own) 0 (length_copyName name)
  have there := all space.null more
  have unfolded : Environment.newProcess k name = Environment.addProcess
      { k with nt := { k.nt with loader := (Kernel.newSpace k.nt.loader).2 } } heap
      (setupPeb (Kernel.newSpace k.nt.loader).2.sys.vmm (Kernel.newSpace k.nt.loader).1 0
        (copyName name)).2 (Kernel.newSpace k.nt.loader).1
      (setupPeb (Kernel.newSpace k.nt.loader).2.sys.vmm (Kernel.newSpace k.nt.loader).1 0
        (copyName name)).1 (copyName name) := by
    rw [Environment.newProcess]
    simp only [if_neg nonzero, createProcess, room]
    rfl
  rw [unfolded] at after ⊢
  generalize Kernel.newSpace k.nt.loader = r at *
  refine ⟨_, userProcess_of_user ⟨List.getElem?_concat_length, own⟩, fun j hj => ?_⟩
  obtain ⟨x, hx, owner, at_⟩ := after.cover r.1 own _ (envPage_high hj) (page_aligned j hj)
    (there j hj)
  have holds := after.ledger.holds x hx
  have frame := holds.translate (o := 0) (by decide)
  rw [BitVec.add_zero, BitVec.add_zero, owner, at_] at frame
  exact fun zero => holds.data.nonzero (frame.symm.trans zero)

end

end MicroNT.Kernel.Environment
