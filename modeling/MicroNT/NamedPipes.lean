import MicroNT.FileCalls

/-! # Named pipes

Reading a pipe runs the handler of writes: it adds as many bytes of the caller's buffer
to the pipe as the offset says, and stores nothing. A read does what it should only
where there is nothing to read and nothing to add. -/

namespace MicroNT.FileIo

open MicroNT.VMM (Mem)
open MicroNT.Kernel (readUserByte)
open MicroNT.VFS (WNode)
open MicroNT.Base.Machine

/-! ## What callers know of the pipes -/

/-- The names that calls have created with the handles they got, and the bytes that
writes under a handle have been told are accepted. -/
structure PipeHistory where
  named : List (List u8 × u64)
  written : u64 → List u8

def PipeHistory.start : PipeHistory := ⟨[], fun _ => []⟩

/-- The name that a call gives to a pipe, up to 31 characters. -/
def Event.pipeName (e : Event) (va len : u64) : List u8 := userString e.mem (some e.cr3) va len 31

def PipeHistory.name (hist : PipeHistory) (n : List u8) (h : u64) : PipeHistory :=
  { hist with named := (n, h) :: hist.named }

def PipeHistory.write (hist : PipeHistory) (h : u64) (bytes : List u8) : PipeHistory :=
  { hist with written := Function.update hist.written h (hist.written h ++ bytes) }

def PipeHistory.record (hist : PipeHistory) (e : Event) (r : Reply) : PipeHistory :=
  match e.call with
  | .ntCreateNamedPipe va len =>
    if r.ret = 0 then hist else hist.name (e.pipeName va len) r.ret
  | .ntWriteFile h va _ => hist.write h (loadBytes e.mem e.cr3 va r.ret.toNat)
  | _ => hist

structure PipeState where
  files : FileSystem
  hist : PipeHistory

def stepPipes (s : PipeState) (e : Event) : Option PipeState :=
  let r := e.perform s.files
  some ⟨r.files, s.hist.record e r⟩

/-- When the kernel has started there may be any files, and no pipe is in use. -/
def FileSystem.start (fs : FileSystem) : FileSystem := { fs with pipes := fun _ => KPipe.zero }

/-- What a read should return: the accepted bytes from the offset on. -/
def PipeHistory.slice (hist : PipeHistory) (h offset len : u64) : List u8 :=
  ((hist.written h).drop offset.toNat).take (min len.toNat 512)

/-- Equal names get equal handles and different names different ones, as long as there is a
pipe for them. A read returns and stores the bytes asked for and changes no pipe. -/
def PipesRight (s : PipeState) (e : Event) : Prop :=
  let r := e.perform s.files
  match e.call with
  | .ntCreateNamedPipe va len =>
    (r.ret ≠ 0 → ∀ n h, (n, h) ∈ s.hist.named → (h = r.ret ↔ n = e.pipeName va len)) ∧
      ((∃ i, (s.files.pipes i).used = false) ∨ (∃ h, (e.pipeName va len, h) ∈ s.hist.named) →
        r.ret ≠ 0)
  | .ntReadFile h va offset len =>
    (∃ n, (n, h) ∈ s.hist.named) →
      r.ret = BitVec.ofNat 64 (s.hist.slice h offset len).length ∧
        r.mem = (storeBytes e.cr3 va (s.hist.slice h offset len) e.mem).1 ∧
        r.files.pipes = s.files.pipes
  | _ => True

/-- A read of a pipe in use leaves it alone, as its offset is 0 or the pipe is full, and
there is nothing to be read. -/
def ReadsNothing (s : PipeState) (e : Event) : Prop :=
  match e.call with
  | .ntReadFile h _ offset len => ∀ i, pipeAt h = some i → (s.files.pipes i).used = true →
    (offset = 0 ∨ (s.files.pipes i).data.length = PIPE_SIZE) ∧
      (len = 0 ∨ (s.files.pipes i).data.length ≤ offset.toNat)
  | _ => True

/-! ## Handles -/

theorem pipeAt_some {h : u64} {i : Fin 4} : pipeAt h = some i ↔ h = pipeHandle i := by
  have hi := i.isLt
  have val : (pipeHandle i).toNat = 0x80 + i.val := by
    rw [pipeHandle, BitVec.toNat_add, BitVec.toNat_ofNat]
    simp only [BitVec.toNat_ofNat]
    omega
  unfold pipeAt
  split
  case isTrue at_ =>
    rw [← BitVec.toNat_inj, val, Option.some.injEq, Fin.ext_iff]
    simp only [BitVec.toNat_ofNat] at at_ ⊢
    omega
  case isFalse out =>
    simp only [BitVec.toNat_ofNat] at out
    constructor
    · intro no
      cases no
    · rintro rfl
      omega

theorem pipeAt_pipeHandle (i : Fin 4) : pipeAt (pipeHandle i) = some i := pipeAt_some.mpr rfl

theorem pipeHandle_inj {i j : Fin 4} (h : pipeHandle i = pipeHandle j) : i = j := by
  have hi := pipeAt_pipeHandle i
  rw [h, pipeAt_pipeHandle] at hi
  exact (Option.some.inj hi).symm

theorem pipeHandle_ne_zero (i : Fin 4) : pipeHandle i ≠ 0 := by
  intro h
  have hi := pipeAt_pipeHandle i
  rw [h, show pipeAt 0 = none from rfl] at hi
  cases hi

/-! ## Names -/

/-- A string without its terminating zero, of at most 31 characters. -/
structure PipeName (name : List u8) : Prop where
  nonzero : 0 ∉ name
  short : name.length ≤ 31

theorem pipeName_ok (e : Event) (va len : u64) : PipeName (e.pipeName va len) :=
  ⟨userString_nonzero _ _ _ _ _, userString_length _ _ _ _ _⟩

/-- Past its end a string reads as zero, and only there. -/
theorem PipeName.getD_eq_zero {a : List u8} (h : PipeName a) (j : Nat) :
    a.getD j 0 = 0 ↔ a.length ≤ j := by
  constructor
  · intro zero
    by_contra hj
    rw [List.getD_eq_getElem _ _ (Nat.lt_of_not_le hj)] at zero
    exact h.nonzero (zero ▸ List.getElem_mem _)
  · exact List.getD_eq_default _ _

theorem sameName_from {a b : List u8} (ha : PipeName a) (hb : PipeName b) (n j : Nat)
    (all : n + j = 31) : sameName a b n j = true ↔ a.drop j = b.drop j := by
  induction n generalizing j with
  | zero =>
    have la := ha.short
    have lb := hb.short
    rw [List.drop_eq_nil_of_le (by omega), List.drop_eq_nil_of_le (by omega)]
    exact iff_of_true rfl rfl
  | succ n ih =>
    have enda := ha.getD_eq_zero j
    have endb := hb.getD_eq_zero j
    rw [sameName]
    split
    case isTrue differ =>
      refine iff_of_false Bool.false_ne_true fun same => differ ?_
      have same := congrArg (fun l : List u8 => l.getD 0 0) same
      simpa [List.getD_eq_getElem?_getD] using same
    case isFalse agree =>
      rw [ne_eq, not_not] at agree
      split
      case isTrue zero =>
        rw [List.drop_eq_nil_of_le (enda.mp (agree.trans zero)),
          List.drop_eq_nil_of_le (endb.mp zero)]
        exact iff_of_true rfl rfl
      case isFalse more =>
        have ja : j < a.length := Nat.lt_of_not_le fun h => more (agree ▸ enda.mpr h)
        have jb : j < b.length := Nat.lt_of_not_le fun h => more (endb.mpr h)
        rw [List.getD_eq_getElem _ _ ja, List.getD_eq_getElem _ _ jb] at agree
        rw [ih (j + 1) (by omega), List.drop_eq_getElem_cons ja, List.drop_eq_getElem_cons jb,
          List.cons.injEq]
        exact ⟨fun h => ⟨agree, h⟩, fun h => h.2⟩

/-- The comparison of two names compares them whole. -/
theorem sameName_iff {a b : List u8} (ha : PipeName a) (hb : PipeName b) :
    sameName a b 31 0 = true ↔ a = b :=
  sameName_from ha hb 31 0 rfl

/-! ## Filling a pipe -/

theorem fillPipe_eq (m : Mem) (pml4 va : u64) (n written : Nat) (data : List u8) :
    fillPipe m pml4 va n written data =
      data ++ (List.range' written (min n (PIPE_SIZE - data.length))).map fun i =>
        (readUserByte m pml4 (va + BitVec.ofNat 64 i)).1 := by
  induction n generalizing written data with
  | zero => simp [fillPipe]
  | succ n ih =>
    rw [fillPipe]
    split
    case isTrue room =>
      rw [ih, List.length_append, List.length_singleton, List.append_assoc,
        show min (n + 1) (PIPE_SIZE - data.length) = min n (PIPE_SIZE - (data.length + 1)) + 1 by
          omega, List.range'_succ]
      rfl
    case isFalse full =>
      rw [show min (n + 1) (PIPE_SIZE - data.length) = 0 by omega]
      exact (List.append_nil data).symm

def KPipe.add (kp : KPipe) (bytes : List u8) : KPipe := { kp with data := kp.data ++ bytes }

/-- How many of `n` bytes a pipe takes. -/
def taken (n : Nat) (data : List u8) : Nat := min n (PIPE_SIZE - data.length)

theorem fillPipe_loads (m : Mem) (pml4 va : u64) (n : Nat) (data : List u8) :
    fillPipe m pml4 va n 0 data = data ++ loadBytes m pml4 va (taken n data) := by
  rw [fillPipe_eq, loadBytes, taken, List.range_eq_range']

theorem loadBytes_length (m : Mem) (pml4 va : u64) (n : Nat) : (loadBytes m pml4 va n).length = n := by
  rw [loadBytes, List.length_map, List.length_range]

section

variable {fs : FileSystem} (m : Mem) (pml4 va len : u64) {i : Fin 4}

theorem writePipe_unused (unused : (fs.pipes i).used = false) :
    writePipe fs m (some pml4) i va len = fs.reply m 0 := if_pos unused

/-- What a write does to a pipe in use. -/
theorem writePipe_used (used : (fs.pipes i).used = true) :
    (writePipe fs m (some pml4) i va len).ret =
        BitVec.ofNat 64 (taken (min len.toNat 512) (fs.pipes i).data) ∧
      (writePipe fs m (some pml4) i va len).mem = m ∧
      (writePipe fs m (some pml4) i va len).files = fs.setPipe i ((fs.pipes i).add
        (loadBytes m pml4 va (taken (min len.toNat 512) (fs.pipes i).data))) := by
  have on : ¬ (fs.pipes i).used = false := by simp [used]
  simp only [writePipe, if_neg on, fillPipe_loads, List.length_append, loadBytes_length,
    Nat.add_sub_cancel_left, KPipe.add, and_self]

/-- A call that adds nothing to a pipe in use leaves the pipes as they are. -/
theorem writePipe_nothing (used : (fs.pipes i).used = true)
    (none : taken (min len.toNat 512) (fs.pipes i).data = 0) :
    (writePipe fs m (some pml4) i va len).files.pipes = fs.pipes := by
  rw [(writePipe_used m pml4 va len used).2.2, none, loadBytes, List.range_zero, List.map_nil, KPipe.add,
    List.append_nil]
  exact Function.update_eq_self i fs.pipes

theorem ntCreateFile_pipes {proc : Option u64} :
    (ntCreateFile fs m proc va len).files.pipes = fs.pipes := by
  simp only [ntCreateFile]
  split
  all_goals rfl

theorem ntWriteFile_pipes {h : u64} (other : pipeAt h = none) :
    (ntWriteFile fs m (some pml4) h va len).files.pipes = fs.pipes := by
  simp only [ntWriteFile, other]
  split
  all_goals rfl

theorem ntReadFile_pipes {h offset : u64} (other : pipeAt h = none) :
    (ntReadFile fs m (some pml4) h va offset len).files.pipes = fs.pipes := by
  simp only [ntReadFile, other]
  split
  case isTrue => rfl
  case isFalse =>
    split
    all_goals rfl

theorem ntReadFile_pipe {h offset : u64} (at_ : pipeAt h = some i) :
    ntReadFile fs m (some pml4) h va offset len = writePipe fs m (some pml4) i va offset := by
  simp only [ntReadFile, at_]

theorem ntWriteFile_pipe {h : u64} (at_ : pipeAt h = some i) :
    ntWriteFile fs m (some pml4) h va len = writePipe fs m (some pml4) i va len := by
  simp only [ntWriteFile, at_]

end

/-! ## The invariant -/

/-- The pipes in use are those that were created, under names of their own, and hold
what was written to them. -/
structure PipeInv (s : PipeState) : Prop where
  fits : ∀ i, (s.files.pipes i).data.length ≤ PIPE_SIZE
  named : ∀ n h, (n, h) ∈ s.hist.named ↔
    ∃ i, h = pipeHandle i ∧ (s.files.pipes i).used = true ∧ (s.files.pipes i).name = n
  names : ∀ i, (s.files.pipes i).used = true → PipeName (s.files.pipes i).name
  apart : ∀ i j, (s.files.pipes i).used = true → (s.files.pipes j).used = true →
    (s.files.pipes i).name = (s.files.pipes j).name → i = j
  data : ∀ i, (s.files.pipes i).data = s.hist.written (pipeHandle i)
  empty : ∀ i, (s.files.pipes i).used = false → (s.files.pipes i).data = []

theorem PipeInv.start (fs : FileSystem) : PipeInv ⟨fs.start, .start⟩ where
  fits _ := Nat.zero_le _
  named n h := by
    refine iff_of_false List.not_mem_nil fun used => ?_
    obtain ⟨i, -, used, -⟩ := used
    cases used
  names i used := Bool.noConfusion used
  apart i j used := Bool.noConfusion used
  data _ := rfl
  empty _ _ := rfl

/-- Where the pipes and the records of their handles stay, the invariant does. -/
theorem PipeInv.same {s t : PipeState} (h : PipeInv s) (pipes : t.files.pipes = s.files.pipes)
    (named : ∀ p, p ∈ t.hist.named ↔ p ∈ s.hist.named)
    (written : ∀ i, t.hist.written (pipeHandle i) = s.hist.written (pipeHandle i)) : PipeInv t where
  fits i := pipes ▸ h.fits i
  named n k := by
    rw [named, pipes]
    exact h.named n k
  names i := pipes ▸ h.names i
  apart i j := pipes ▸ h.apart i j
  data i := by
    rw [pipes, written]
    exact h.data i
  empty i := pipes ▸ h.empty i

/-- What `NtCreateNamedPipe` comes down to. -/
inductive Creates (fs : FileSystem) (name : List u8) (r : Reply) : Prop
  | found (i : Fin 4) (used : (fs.pipes i).used = true) (same : (fs.pipes i).name = name)
      (ret : r.ret = pipeHandle i) (files : r.files = fs)
  | made (i : Fin 4) (new : ∀ j, (fs.pipes j).used = true → (fs.pipes j).name ≠ name)
      (free : (fs.pipes i).used = false) (ret : r.ret = pipeHandle i)
      (files : r.files = fs.setPipe i ⟨name, [], true⟩)
  | full (new : ∀ j, (fs.pipes j).used = true → (fs.pipes j).name ≠ name)
      (all : ∀ j, (fs.pipes j).used = true) (ret : r.ret = 0) (files : r.files = fs)

theorem ntCreateNamedPipe_creates {s : PipeState} (h : PipeInv s) (e : Event) (va len : u64) :
    Creates s.files (e.pipeName va len)
      (ntCreateNamedPipe s.files e.mem (some e.cr3) va len) := by
  have name := pipeName_ok e va len
  have new : (List.finRange 4).find? (fun i => (s.files.pipes i).used &&
      sameName (s.files.pipes i).name (e.pipeName va len) 31 0) = none →
      ∀ j, (s.files.pipes j).used = true → (s.files.pipes j).name ≠ e.pipeName va len := by
    intro none j used same
    have no := List.find?_eq_none.mp none j (List.mem_finRange j)
    rw [used, Bool.true_and] at no
    exact no ((sameName_iff (h.names j used) name).mpr same)
  rw [ntCreateNamedPipe]
  simp only [show userString e.mem (some e.cr3) va len 31 = e.pipeName va len from rfl]
  split
  case h_1 i found =>
    have found := List.find?_some found
    rw [Bool.and_eq_true] at found
    exact .found i found.1 ((sameName_iff (h.names i found.1) name).mp found.2) rfl rfl
  case h_2 none =>
    split
    case h_1 i free =>
      have free := List.find?_some free
      rw [Bool.not_eq_true'] at free
      exact .made i (new none) free rfl rfl
    case h_2 full =>
      refine .full (new none) (fun j => ?_) rfl rfl
      have used := List.find?_eq_none.mp full j (List.mem_finRange j)
      simpa using used

theorem setPipe_pipes (fs : FileSystem) (i j : Fin 4) (kp : KPipe) :
    (fs.setPipe i kp).pipes j = if j = i then kp else fs.pipes j :=
  Function.update_apply fs.pipes i kp j

/-- A new pipe and its record keep the invariant. -/
theorem PipeInv.made {s : PipeState} (h : PipeInv s) {i : Fin 4} {name : List u8}
    (ok : PipeName name) (new : ∀ j, (s.files.pipes j).used = true → (s.files.pipes j).name ≠ name)
    (free : (s.files.pipes i).used = false) :
    PipeInv ⟨s.files.setPipe i ⟨name, [], true⟩, s.hist.name name (pipeHandle i)⟩ where
  fits j := by
    simp only [setPipe_pipes]
    split
    case isTrue => exact Nat.zero_le _
    case isFalse => exact h.fits j
  named n k := by
    rw [PipeHistory.name, List.mem_cons, h.named, Prod.mk.injEq]
    constructor
    · rintro (⟨rfl, rfl⟩ | ⟨j, rfl, used, named⟩)
      · exact ⟨i, rfl, by simp [setPipe_pipes], by simp [setPipe_pipes]⟩
      · have other : j ≠ i := by
          rintro rfl
          rw [free] at used
          cases used
        refine ⟨j, rfl, ?_⟩
        simp only [setPipe_pipes, if_neg other]
        exact ⟨used, named⟩
    · rintro ⟨j, rfl, used, named⟩
      simp only [setPipe_pipes] at used named
      split at named
      case isTrue self => exact .inl ⟨named.symm, congrArg pipeHandle self⟩
      case isFalse other =>
        rw [if_neg other] at used
        exact .inr ⟨j, rfl, used, named⟩
  names j := by
    simp only [setPipe_pipes]
    split
    case isTrue => exact fun _ => ok
    case isFalse => exact h.names j
  apart j k := by
    simp only [setPipe_pipes]
    split
    case isTrue hj =>
      split
      case isTrue hk => exact fun _ _ _ => hj.trans hk.symm
      case isFalse => exact fun _ used same => absurd same.symm (new k used)
    case isFalse =>
      split
      case isTrue => exact fun used _ same => absurd same (new j used)
      case isFalse => exact h.apart j k
  data j := by
    simp only [setPipe_pipes]
    split
    case isTrue hj => rw [hj, PipeHistory.name, ← h.data i, h.empty i free]
    case isFalse => exact h.data j
  empty j := by
    simp only [setPipe_pipes]
    split
    case isTrue => exact fun _ => rfl
    case isFalse => exact h.empty j

/-- A write and its record keep the invariant. -/
theorem PipeInv.wrote {s : PipeState} (h : PipeInv s) {i : Fin 4} {bytes : List u8}
    (on : (s.files.pipes i).used = true)
    (room : (s.files.pipes i).data.length + bytes.length ≤ PIPE_SIZE) :
    PipeInv ⟨s.files.setPipe i ((s.files.pipes i).add bytes), s.hist.write (pipeHandle i) bytes⟩ := by
  have used : ∀ j, ((s.files.setPipe i ((s.files.pipes i).add bytes)).pipes j).used =
      (s.files.pipes j).used := by
    intro j
    rw [setPipe_pipes]
    split
    case isTrue hj => rw [hj, KPipe.add]
    case isFalse => rfl
  have name : ∀ j, ((s.files.setPipe i ((s.files.pipes i).add bytes)).pipes j).name =
      (s.files.pipes j).name := by
    intro j
    rw [setPipe_pipes]
    split
    case isTrue hj => rw [hj, KPipe.add]
    case isFalse => rfl
  exact {
    fits := fun j => by
      simp only [setPipe_pipes]
      split
      case isTrue => rw [KPipe.add, List.length_append]; exact room
      case isFalse => exact h.fits j
    named := fun n k => by
      simp only [used, name]
      exact h.named n k
    names := fun j => by
      simp only [used, name]
      exact h.names j
    apart := fun j k => by
      simp only [used, name]
      exact h.apart j k
    data := fun j => by
      simp only [setPipe_pipes, PipeHistory.write]
      split
      case isTrue hj => rw [hj, Function.update_self, KPipe.add, h.data i]
      case isFalse other =>
        rw [Function.update_of_ne fun eq => other (pipeHandle_inj eq)]
        exact h.data j
    empty := fun j => by
      simp only [setPipe_pipes]
      split
      case isTrue =>
        intro off
        rw [KPipe.add, on] at off
        cases off
      case isFalse => exact h.empty j }

theorem taken_le (n : Nat) (data : List u8) : taken n data ≤ PIPE_SIZE :=
  (Nat.min_le_right _ _).trans (Nat.sub_le _ _)

theorem taken_eq_zero {offset : u64} {data : List u8} (fits : data.length ≤ PIPE_SIZE) :
    taken (min offset.toNat 512) data = 0 ↔ offset = 0 ∨ data.length = PIPE_SIZE := by
  have zero : offset = 0 ↔ offset.toNat = 0 := by
    rw [← BitVec.toNat_inj]
    rfl
  rw [taken, zero]
  simp only [PIPE_SIZE] at *
  omega

theorem taken_toNat (n : Nat) (data : List u8) :
    (BitVec.ofNat 64 (taken n data)).toNat = taken n data := by
  have small := taken_le n data
  rw [BitVec.toNat_ofNat, Nat.mod_eq_of_lt (Nat.lt_of_le_of_lt small (by decide))]

section

variable {s : PipeState} (h : PipeInv s) {e : Event} {va len : u64}
include h

theorem PipeInv.create (call : e.call = .ntCreateNamedPipe va len) :
    PipeInv ⟨(e.perform s.files).files, s.hist.record e (e.perform s.files)⟩ := by
  have creates : Creates s.files (e.pipeName va len) (e.perform s.files) := by
    rw [Event.perform, call]
    exact ntCreateNamedPipe_creates h e va len
  simp only [PipeHistory.record, call]
  cases creates with
  | found i used same ret files =>
    rw [files, ret, if_neg (pipeHandle_ne_zero i)]
    refine h.same rfl (fun p => ?_) fun _ => rfl
    rw [PipeHistory.name, List.mem_cons, or_iff_right_of_imp]
    rintro rfl
    exact (h.named _ _).mpr ⟨i, rfl, used, same⟩
  | made i new free ret files =>
    rw [files, ret, if_neg (pipeHandle_ne_zero i)]
    exact h.made (pipeName_ok e va len) new free
  | full new all ret files =>
    rw [files, ret, if_pos rfl]
    exact h.same rfl (fun _ => Iff.rfl) fun _ => rfl

theorem PipeInv.write {handle : u64} (call : e.call = .ntWriteFile handle va len) :
    PipeInv ⟨(e.perform s.files).files, s.hist.record e (e.perform s.files)⟩ := by
  simp only [PipeHistory.record, call]
  rw [Event.perform, call, Call.perform]
  cases at_ : pipeAt handle with
  | none =>
    refine h.same (ntWriteFile_pipes _ _ _ _ at_) (fun _ => Iff.rfl) fun i => ?_
    refine Function.update_of_ne (fun eq => ?_) _ _
    rw [← eq, pipeAt_pipeHandle] at at_
    cases at_
  | some i =>
    obtain rfl := pipeAt_some.mp at_
    rw [ntWriteFile_pipe _ _ _ _ at_]
    cases used : (s.files.pipes i).used with
    | false =>
      rw [writePipe_unused _ _ _ _ used]
      refine h.same rfl (fun _ => Iff.rfl) fun j => ?_
      show Function.update s.hist.written _ (_ ++ []) _ = _
      rw [List.append_nil, Function.update_eq_self]
    | true =>
      obtain ⟨ret, -, files⟩ := writePipe_used e.mem e.cr3 va len used
      rw [ret, files, taken_toNat]
      refine h.wrote used ?_
      have fits := h.fits i
      rw [loadBytes_length, taken]
      omega

theorem PipeInv.read {handle offset : u64} (call : e.call = .ntReadFile handle va offset len)
    (fit : ReadsNothing s e) :
    PipeInv ⟨(e.perform s.files).files, s.hist.record e (e.perform s.files)⟩ := by
  simp only [ReadsNothing, call] at fit
  simp only [PipeHistory.record, call]
  rw [Event.perform, call, Call.perform]
  refine h.same ?_ (fun _ => Iff.rfl) fun _ => rfl
  cases at_ : pipeAt handle with
  | none => exact ntReadFile_pipes _ _ _ _ at_
  | some i =>
    rw [ntReadFile_pipe _ _ _ _ at_]
    cases used : (s.files.pipes i).used with
    | false => rw [writePipe_unused _ _ _ _ used]; rfl
    | true => exact writePipe_nothing _ _ _ _ used ((taken_eq_zero (h.fits i)).mpr (fit i at_ used).1)

/-- **One event** keeps the invariant if it reads nothing from a pipe in use. -/
theorem PipeInv.step {t : PipeState} (fit : ReadsNothing s e) (step : stepPipes s e = some t) :
    PipeInv t := by
  obtain rfl := Option.some.inj step
  cases call : e.call with
  | ntCreateNamedPipe va len => exact h.create call
  | ntWriteFile handle va len => exact h.write call
  | ntReadFile handle va offset len => exact h.read call fit
  | ntCreateFile va len =>
    simp only [PipeHistory.record, call]
    rw [Event.perform, call]
    exact h.same (ntCreateFile_pipes _ _ _) (fun _ => Iff.rfl) fun _ => rfl
  | ntClose handle =>
    simp only [PipeHistory.record, call]
    rw [Event.perform, call]
    exact h.same rfl (fun _ => Iff.rfl) fun _ => rfl
  | mkdir name =>
    simp only [PipeHistory.record, call]
    rw [Event.perform, call]
    exact h.same rfl (fun _ => Iff.rfl) fun _ => rfl
  | rm name =>
    simp only [PipeHistory.record, call]
    rw [Event.perform, call]
    exact h.same rfl (fun _ => Iff.rfl) fun _ => rfl

/-! ## Reads and names are right -/

theorem PipeInv.create_right (call : e.call = .ntCreateNamedPipe va len) : PipesRight s e := by
  have creates : Creates s.files (e.pipeName va len) (e.perform s.files) := by
    rw [Event.perform, call]
    exact ntCreateNamedPipe_creates h e va len
  simp only [PipesRight, call]
  cases creates with
  | found i used same ret files =>
    refine ⟨fun _ n k named => ?_, fun _ => ret ▸ pipeHandle_ne_zero i⟩
    obtain ⟨j, rfl, used', rfl⟩ := (h.named n k).mp named
    rw [ret, ← same]
    constructor
    · intro eq
      rw [pipeHandle_inj eq]
    · intro eq
      rw [h.apart j i used' used eq]
  | made i new free ret files =>
    refine ⟨fun _ n k named => ?_, fun _ => ret ▸ pipeHandle_ne_zero i⟩
    obtain ⟨j, rfl, used, rfl⟩ := (h.named n k).mp named
    rw [ret]
    refine iff_of_false (fun eq => ?_) (new j used)
    rw [pipeHandle_inj eq, free] at used
    cases used
  | full new all ret files =>
    refine ⟨fun some => absurd ret some, ?_⟩
    rintro (⟨i, free⟩ | ⟨k, named⟩)
    · rw [all i] at free
      cases free
    · obtain ⟨j, -, used, same⟩ := (h.named _ k).mp named
      exact absurd same (new j used)

theorem PipeInv.slice_length (i : Fin 4) (offset len : u64) :
    (s.hist.slice (pipeHandle i) offset len).length =
      min (min len.toNat 512) ((s.files.pipes i).data.length - offset.toNat) := by
  rw [PipeHistory.slice, ← h.data i, List.length_take, List.length_drop]

/-- **A read of a pipe** is right exactly if there is nothing to read and nothing to add. -/
theorem PipeInv.read_right {handle offset : u64} (call : e.call = .ntReadFile handle va offset len) :
    PipesRight s e ↔ ReadsNothing s e := by
  simp only [PipesRight, ReadsNothing, call]
  rw [Event.perform, call, Call.perform]
  cases at_ : pipeAt handle with
  | none =>
    refine iff_of_true (fun known => ?_) fun i no => absurd no.symm (Option.some_ne_none i)
    obtain ⟨n, named⟩ := known
    obtain ⟨j, rfl, -, -⟩ := (h.named n handle).mp named
    rw [pipeAt_pipeHandle] at at_
    cases at_
  | some i =>
    obtain rfl := pipeAt_some.mp at_
    rw [ntReadFile_pipe _ _ _ _ at_]
    cases used : (s.files.pipes i).used with
    | false =>
      refine iff_of_true (fun known => ?_) fun j same on => ?_
      · obtain ⟨n, named⟩ := known
        obtain ⟨j, eq, on, -⟩ := (h.named n _).mp named
        rw [← pipeHandle_inj eq, used] at on
        cases on
      · rw [← Option.some.inj same, used] at on
        cases on
    | true =>
      obtain ⟨ret, mem, files⟩ :=
        writePipe_used e.mem e.cr3 va offset used
      have length := h.slice_length i offset len
      have known : ∃ n, (n, pipeHandle i) ∈ s.hist.named := ⟨_, (h.named _ _).mpr ⟨i, rfl, used, rfl⟩⟩
      have zero : len = 0 ↔ len.toNat = 0 := by
        rw [← BitVec.toNat_inj]
        rfl
      rw [ret, mem, files]
      constructor
      · intro right j same _
        obtain rfl := Option.some.inj same
        obtain ⟨count, -, pipes⟩ := right known
        have none : taken (min offset.toNat 512) (s.files.pipes i).data = 0 := by
          have data := congrArg (fun k : KPipe => k.data.length) (congrFun pipes i)
          rw [setPipe_pipes, if_pos rfl] at data
          simp only [KPipe.add, List.length_append, loadBytes_length] at data
          omega
        refine ⟨(taken_eq_zero (h.fits i)).mp none, ?_⟩
        rw [none] at count
        have count := congrArg BitVec.toNat count
        rw [BitVec.toNat_ofNat, BitVec.toNat_ofNat, length] at count
        rw [zero]
        omega
      · intro fit _
        obtain ⟨add, nothing⟩ := fit i rfl used
        have none := (taken_eq_zero (h.fits i)).mpr add
        have empty : s.hist.slice (pipeHandle i) offset len = [] := by
          rw [zero] at nothing
          rw [← List.length_eq_zero_iff, length]
          omega
        rw [none, empty]
        refine ⟨rfl, rfl, ?_⟩
        have same := writePipe_nothing e.mem e.cr3 va offset used none
        rw [files, none] at same
        exact same

theorem PipeInv.right_iff : PipesRight s e ↔ ReadsNothing s e := by
  cases call : e.call with
  | ntCreateNamedPipe va len =>
    refine iff_of_true (h.create_right call) ?_
    simp only [ReadsNothing, call]
  | ntReadFile handle va offset len => exact h.read_right call
  | _ => simp only [PipesRight, ReadsNothing, call]

end

/-! ## Runs -/

/-- **Named pipes round-trip exactly in the runs that read nothing from them**: every
other read of a pipe adds to it, or keeps back bytes that are there. -/
theorem named_pipes_iff (fs : FileSystem) (es : List Event) :
    Along stepPipes PipesRight ⟨fs.start, .start⟩ es ↔
      Along stepPipes ReadsNothing ⟨fs.start, .start⟩ es :=
  along_iff (I := PipeInv) (fun _ _ _ h fit step => h.step fit step) (fun _ _ h => h.right_iff)
    (PipeInv.start fs)

def noFiles : FileSystem := ⟨[], by decide, fun _ => WNode.zero, fun _ => KPipe.zero⟩

/-- Five bytes are written to a pipe; reading them back returns none. -/
theorem pipe_reads_nothing_back :
    ¬ Along stepPipes PipesRight ⟨noFiles.start, .start⟩
      [⟨.ntCreateNamedPipe 0 0, fun _ _ => 0, 0⟩, ⟨.ntWriteFile 0x80#64 0 5, fun _ _ => 0, 0⟩,
        ⟨.ntReadFile 0x80#64 0 0 5, fun _ _ => 0, 0⟩] := by
  intro right
  have created := (PipeInv.start noFiles).step
    (e := ⟨.ntCreateNamedPipe 0 0, fun _ _ => 0, 0⟩) trivial rfl
  have written := created.step (e := ⟨.ntWriteFile 0x80#64 0 5, fun _ _ => 0, 0⟩) trivial rfl
  have nothing := written.right_iff.mp ((right.2 _ rfl).2 _ rfl).1
  have empty := (nothing 0 rfl rfl).2
  exact absurd empty (by decide +kernel)

end MicroNT.FileIo
