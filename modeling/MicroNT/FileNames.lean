import MicroNT.FileHandles

/-! # The names of files (`vfs.cpp`, `syscall.cpp`)

A file is looked for by its whole path, among the files of the boot loader and then among the
writable nodes; a new node keeps the first 63 characters. `MkDir` looks for the name without
the lock and takes the lock to make the node, so other calls come in between. -/

namespace MicroNT.FileIo

open MicroNT.VMM (Mem)
open MicroNT.VFS (Nodes Firmware WNODE_MAX WNODE_NAME_MAX findName findFree names Distinct)
open MicroNT.VFS.Files (key)
open MicroNT.Base.Machine

/-! ## Runs -/

/-- The files and the variable of the firmware, the names for which a `MkDir` has found no node
yet, and each path that has been opened with the handle it has got, 0 for none. -/
structure Naming where
  files : FileSystem
  nvram : Option VFS.NvramHeader
  pending : List (List u8)
  opened : List (List u8 × u64)

inductive NameEvent
  | ntCreateFile (m : Mem) (proc : Option u64) (va len : u64)
  | mkDirFinds (name : List u8)
  | mkDirCreates (name : List u8)
  | rm (name : List u8)
  | saveNvram (accepts : Bool)
  | reboot

/-- A deletion ends what has been opened under the name, and frees a node for the paths that
have got none. -/
def unlink (name : List u8) (opened : List (List u8 × u64)) : List (List u8 × u64) :=
  opened.filter fun e => decide (key e.1 ≠ key name ∧ e.2 ≠ 0)

def Naming.withNodes (s : Naming) (nodes : Nodes) : Naming :=
  { s with files := { s.files with nodes := nodes } }

def stepNames (fw : Firmware) (s : Naming) : NameEvent → Option Naming
  | .ntCreateFile m proc va len =>
    let r := ntCreateFile s.files m proc va len
    some { s with files := r.files, opened := (userString m proc va len 127, r.ret) :: s.opened }
  | .mkDirFinds name =>
    if name = [] then some s
    else if (VFS.wFind s.files.nodes name).toNat < WNODE_MAX then some s
    else some { s with pending := name :: s.pending }
  | .mkDirCreates name =>
    if name ∈ s.pending then
      some { s.withNodes (VFS.wFindOrCreate s.files.nodes name true).1 with
        pending := s.pending.erase name }
    else none
  | .rm name =>
    let r := VFS.delete s.files.nodes name
    some { s.withNodes r.1 with opened := if r.2 then unlink name s.opened else s.opened }
  | .saveNvram accepts => some { s with nvram := (VFS.saveNvram fw accepts ⟨s.files.nodes, s.nvram⟩).nvram }
  | .reboot => some ⟨{ s.files with nodes := VFS.init fw s.nvram }, s.nvram, [], []⟩

/-- The first start, with the files of the boot loader. -/
def startNames (fw : Firmware) (fs : FileSystem) : Naming :=
  ⟨{ fs with nodes := VFS.init fw none }, none, [], []⟩

/-- **A whole `MkDir`** is its two halves with nothing in between. -/
theorem mkDir_halves (fw : Firmware) (s : Naming) (name : List u8) :
    ∃ t, stepNames fw s (.mkDirFinds name) = some t ∧
      (((VFS.mkDir s.files.nodes name).1 = s.files.nodes ∧ t = s) ∨
        stepNames fw t (.mkDirCreates name) = some (s.withNodes (VFS.mkDir s.files.nodes name).1)) := by
  simp only [stepNames, VFS.mkDir]
  split
  case isTrue => exact ⟨_, rfl, .inl ⟨rfl, rfl⟩⟩
  case isFalse =>
    split
    case isTrue => exact ⟨_, rfl, .inl ⟨rfl, rfl⟩⟩
    case isFalse =>
      refine ⟨_, rfl, .inr ?_⟩
      rw [if_pos List.mem_cons_self]
      simp only [List.erase_cons_head]
      rfl

/-- No two nodes have one name, a path leads to the same handle whenever it is opened, and other
paths to other files. -/
structure NamesRight (s : Naming) : Prop where
  unique : ∀ i j, (s.files.nodes i).used = true → (s.files.nodes j).used = true →
    VFS.strIeq (s.files.nodes i).name (s.files.nodes j).name = true → i = j
  same : ∀ e ∈ s.opened, ∀ d ∈ s.opened, key e.1 = key d.1 → e.2 = d.2
  apart : ∀ e ∈ s.opened, ∀ d ∈ s.opened, key e.1 ≠ key d.1 → e.2 ≠ 0 → e.2 ≠ d.2

/-- The step does not make a node for a name that is cut. -/
def NodeNameFits (s : Naming) : NameEvent → Prop
  | .ntCreateFile m proc va len =>
    (userString m proc va len 127).length < WNODE_NAME_MAX ∨
      openBoot s.files.boot (userString m proc va len 127) ≠ none ∨ findFree s.files.nodes = none
  | .mkDirCreates name => name.length < WNODE_NAME_MAX ∨ findFree s.files.nodes = none
  | _ => True

/-! ## Where a path leads -/

/-- The handle of a path as long as no node has to be made for it. -/
def FileSystem.handleOf (fs : FileSystem) (path : List u8) : Option u64 :=
  match openBoot fs.boot path with
  | some b => some (BitVec.ofNat 64 (b + 1))
  | none =>
    match findName fs.nodes path with
    | some i => some (nodeHandle i)
    | none => if findFree fs.nodes = none then some 0 else none

section

variable {fw : Firmware} {fs : FileSystem} {nodes : Nodes} {p q name : List u8} {h : u64}
  {i : Fin WNODE_MAX} {s s' : Naming}

theorem openBoot_congr (boot : List BootFile) (same : key p = key q) :
    openBoot boot p = openBoot boot q := by
  unfold openBoot
  congr 1
  funext f
  rw [Bool.eq_iff_iff, VFS.strIeq_iff, VFS.strIeq_iff, same]

theorem findName_congr (same : key p = key q) : findName nodes p = findName nodes q := by
  rw [VFS.findName_eq, VFS.findName_eq, same]

theorem handleOf_congr (same : key p = key q) : fs.handleOf p = fs.handleOf q := by
  unfold FileSystem.handleOf
  rw [openBoot_congr fs.boot same, findName_congr same]

theorem findName_key (found : findName nodes p = some i) : names nodes i = some (key p) := by
  rw [VFS.findName_eq] at found
  exact VFS.indexOf_some found

theorem openBoot_key {boot : List BootFile} {b : Nat} (found : openBoot boot p = some b) :
    ∃ f, boot[b]? = some f ∧ key f.name = key p := by
  obtain ⟨inside, at_⟩ := List.findIdx?_eq_some_iff_findIdx_eq.mp found
  subst at_
  exact ⟨_, List.getElem?_eq_getElem inside, (VFS.strIeq_iff _ _).mp (List.findIdx_getElem (w := inside))⟩

/-- The number of a boot file. -/
theorem bootNumber {b : Nat} (fs : FileSystem) (found : openBoot fs.boot p = some b) :
    (BitVec.ofNat 64 (b + 1)).toNat = b + 1 ∧ b < 8 := by
  obtain ⟨inside, -⟩ := List.findIdx?_eq_some_iff_findIdx_eq.mp found
  have room := fs.room
  simp only [BOOT_FILES_MAX] at room
  rw [BitVec.toNat_ofNat]
  omega

/-- What a handle that is not 0 stands for. -/
theorem handleOf_named (found : fs.handleOf p = some h) (some_ : h ≠ 0) :
    (∃ b f, h.toNat = b + 1 ∧ b < 8 ∧ fs.boot[b]? = some f ∧ key f.name = key p) ∨
      ∃ i, h = nodeHandle i ∧ openBoot fs.boot p = none ∧ names fs.nodes i = some (key p) := by
  unfold FileSystem.handleOf at found
  cases boot : openBoot fs.boot p with
  | some b =>
    rw [boot] at found
    obtain rfl := Option.some.inj found
    obtain ⟨number, small⟩ := bootNumber fs boot
    obtain ⟨f, at_, name⟩ := openBoot_key boot
    exact .inl ⟨b, f, number, small, at_, name⟩
  | none =>
    rw [boot] at found
    simp only at found
    split at found
    case h_1 i there => exact .inr ⟨i, (Option.some.inj found).symm, rfl, findName_key there⟩
    case h_2 =>
      split at found
      case isTrue => exact absurd (Option.some.inj found).symm some_
      case isFalse => cases found

/-- **One handle, one name**: a handle that is not 0 belongs to one path, up to case. -/
theorem handleOf_injective (hp : fs.handleOf p = some h) (hq : fs.handleOf q = some h)
    (some_ : h ≠ 0) : key p = key q := by
  rcases handleOf_named hp some_ with ⟨b, f, nb, sb, atb, namep⟩ | ⟨i, hi, -, namep⟩ <;>
    rcases handleOf_named hq some_ with ⟨c, g, nc, sc, atc, nameq⟩ | ⟨j, hj, -, nameq⟩
  · obtain rfl : b = c := by omega
    obtain rfl := Option.some.inj (atb.symm.trans atc)
    exact namep.symm.trans nameq
  · have number := nodeHandle_toNat j
    rw [← hj] at number
    omega
  · have number := nodeHandle_toNat i
    rw [← hi] at number
    omega
  · have ni := nodeHandle_toNat i
    have nj := nodeHandle_toNat j
    rw [← hi] at ni
    rw [← hj] at nj
    obtain rfl : i = j := Fin.ext (by omega)
    exact Option.some.inj (namep.symm.trans nameq)

/-- With a node free, no path gets 0. -/
theorem handleOf_ne_zero (free : findFree fs.nodes = some i) (found : fs.handleOf p = some h) :
    h ≠ 0 := by
  rintro rfl
  unfold FileSystem.handleOf at found
  cases boot : openBoot fs.boot p with
  | some b =>
    rw [boot] at found
    have number := congrArg BitVec.toNat (Option.some.inj found)
    rw [(bootNumber fs boot).1] at number
    cases number
  | none =>
    rw [boot] at found
    simp only at found
    split at found
    case h_1 j _ =>
      have number := congrArg BitVec.toNat (Option.some.inj found)
      rw [nodeHandle_toNat] at number
      simp at number
    case h_2 =>
      rw [free, if_neg (fun e => by cases e)] at found
      cases found

/-- The handle of a path stays while its node does. -/
theorem handleOf_keeps (fs : FileSystem) {fs' : FileSystem} (boot : fs'.boot = fs.boot) (found : fs.handleOf p = some h)
    (some_ : h ≠ 0) (distinct : Distinct fs'.nodes)
    (keeps : ∀ i, names fs.nodes i = some (key p) → names fs'.nodes i = some (key p)) :
    fs'.handleOf p = some h := by
  rcases handleOf_named found some_ with ⟨b, f, number, small, at_, name⟩ | ⟨i, rfl, none, named⟩
  · unfold FileSystem.handleOf at found ⊢
    rw [boot]
    cases first : openBoot fs.boot p with
    | some c =>
      rw [first] at found
      exact found
    | none =>
      have inside := List.mem_of_getElem? at_
      have all := List.findIdx?_eq_none_iff.mp first f inside
      rw [(VFS.strIeq_iff _ _).mpr name] at all
      cases all
  · unfold FileSystem.handleOf
    rw [boot, none, VFS.findName_eq]
    simp only [distinct.indexOf (keeps i named)]

/-! ## What the runs keep -/

/-- No two nodes have one name, and what has been opened is still there. -/
structure Opens (fw : Firmware) (s : Naming) : Prop where
  inv : VFS.Inv fw ⟨s.files.nodes, s.nvram⟩
  each : ∀ e ∈ s.opened, s.files.handleOf e.1 = some e.2

theorem Opens.right (h : Opens fw s) : NamesRight s where
  unique i j ui uj same := by
    have equal := (VFS.strIeq_iff _ _).mp same
    exact h.inv.distinct i j _ (VFS.names_used.mpr ⟨ui, equal⟩) (VFS.names_used.mpr ⟨uj, rfl⟩)
  same e he d hd equal := by
    have there := h.each e he
    rw [handleOf_congr equal, h.each d hd] at there
    exact (Option.some.inj there).symm
  apart e he d hd differ some_ same :=
    differ (handleOf_injective (h.each e he) (same ▸ h.each d hd) some_)

/-- **Making a node** for a name that fits, or not at all. -/
theorem Opens.makes (h : Opens fw s) (isDir : Bool)
    (fits : name.length < WNODE_NAME_MAX ∨ findFree s.files.nodes = none) :
    VFS.Inv fw ⟨(VFS.wFindOrCreate s.files.nodes name isDir).1, s.nvram⟩ ∧
      ∀ e ∈ s.opened,
        (s.withNodes (VFS.wFindOrCreate s.files.nodes name isDir).1).files.handleOf e.1 = some e.2 := by
  unfold VFS.wFindOrCreate
  cases found : findName s.files.nodes name with
  | some i => exact ⟨h.inv, h.each⟩
  | none =>
    cases free : findFree s.files.nodes with
    | none => exact ⟨h.inv, h.each⟩
    | some i =>
      have short := fits.resolve_right (by rw [free]; exact fun e => by cases e)
      have unused : names s.files.nodes i = none := by
        rw [VFS.findFree_eq] at free
        exact VFS.free_some free
      obtain ⟨distinct, -⟩ := VFS.filesOf_create h.inv.distinct isDir short found unused
      refine ⟨⟨distinct, h.inv.header, h.inv.present⟩, fun e he => ?_⟩
      have there := h.each e he
      refine handleOf_keeps s.files rfl there (handleOf_ne_zero free there) distinct
        fun j named => ?_
      have other : j ≠ i := fun e => by
        rw [e, unused] at named
        cases named
      show names (Function.update s.files.nodes i _) j = _
      rw [VFS.names_update, Function.update_of_ne other]
      exact named

/-- **Opening a path** whose name fits. -/
theorem Opens.ntCreateFile (h : Opens fw s) (m : Mem) (proc : Option u64) (va len : u64)
    (fits : NodeNameFits s (.ntCreateFile m proc va len))
    (hs : stepNames fw s (.ntCreateFile m proc va len) = some s') : Opens fw s' := by
  obtain rfl := Option.some.inj hs
  simp only [FileIo.ntCreateFile, NodeNameFits] at fits ⊢
  generalize userString m proc va len 127 = path at fits ⊢
  cases boot : openBoot s.files.boot path with
  | some b =>
    refine ⟨h.inv, fun e he => ?_⟩
    rcases List.mem_cons.mp he with rfl | old
    · simp only [FileSystem.handleOf, boot]
    · exact h.each e old
  | none =>
    have short : path.length < WNODE_NAME_MAX ∨ findFree s.files.nodes = none := by
      rcases fits with short | some_ | full
      · exact .inl short
      · exact absurd boot some_
      · exact .inr full
    obtain ⟨inv, each⟩ := h.makes false short
    refine ⟨inv, fun e he => ?_⟩
    rcases List.mem_cons.mp he with rfl | old
    · -- the node is there now, under the handle that is returned
      simp only [FileSystem.handleOf, boot]
      unfold VFS.wFindOrCreate at inv ⊢
      cases found : findName s.files.nodes path with
      | some i =>
        obtain ⟨small, wide, number⟩ := index_number i
        simp only [found, if_pos small, if_pos wide, number]
      | none =>
        cases free : findFree s.files.nodes with
        | none =>
          simp only [found, free, if_true]
          rfl
        | some i =>
          rw [found, free] at inv
          obtain ⟨small, wide, number⟩ := index_number i
          have fit := short.resolve_right (by rw [free]; exact fun e => by cases e)
          have named : names (Function.update s.files.nodes i (VFS.newNode path false)) i =
              some (key path) := by
            rw [VFS.names_update, Function.update_self]
            show some (key (VFS.strCopy path WNODE_NAME_MAX)) = _
            rw [VFS.strCopy_short fit]
          simp only [if_pos small, if_pos wide, number, VFS.findName_eq, inv.distinct.indexOf named]
    · exact each e old

theorem Opens.rm (h : Opens fw s) (name : List u8)
    (hs : stepNames fw s (.rm name) = some s') : Opens fw s' := by
  obtain rfl := Option.some.inj hs
  unfold VFS.delete
  cases found : findName s.files.nodes name with
  | none => exact ⟨h.inv, h.each⟩
  | some i =>
    have named := findName_key found
    obtain ⟨distinct, -⟩ := VFS.filesOf_delete h.inv.distinct named
    refine ⟨⟨distinct, h.inv.header, h.inv.present⟩, fun e he => ?_⟩
    obtain ⟨old, rest⟩ := List.mem_filter.mp he
    obtain ⟨other, some_⟩ := of_decide_eq_true rest
    refine handleOf_keeps s.files rfl (h.each e old) some_ distinct fun j at_ => ?_
    have apart : j ≠ i := by
      rintro rfl
      exact other (Option.some.inj (at_.symm.trans named))
    show names (Function.update s.files.nodes i _) j = _
    rw [VFS.names_update, Function.update_of_ne apart]
    exact at_

theorem Opens.step (h : Opens fw s) {a : NameEvent} (fits : NodeNameFits s a)
    (hs : stepNames fw s a = some s') : Opens fw s' := by
  cases a with
  | ntCreateFile m proc va len => exact h.ntCreateFile m proc va len fits hs
  | mkDirFinds name =>
    simp only [stepNames] at hs
    split at hs
    case isTrue => exact Option.some.inj hs ▸ h
    case isFalse =>
      split at hs
      case isTrue => exact Option.some.inj hs ▸ h
      case isFalse => exact Option.some.inj hs ▸ ⟨h.inv, h.each⟩
  | mkDirCreates name =>
    simp only [stepNames] at hs
    split at hs
    case isFalse => cases hs
    case isTrue =>
      obtain ⟨inv, each⟩ := h.makes true fits
      exact Option.some.inj hs ▸ ⟨inv, each⟩
  | rm name => exact h.rm name hs
  | saveNvram accepts =>
    obtain rfl := Option.some.inj hs
    have saved := h.inv.saveNvram accepts
    rw [VFS.saveNvram_eq] at saved
    refine ⟨?_, h.each⟩
    simp only [VFS.saveNvram_eq]
    split
    case isTrue can =>
      rw [if_pos can] at saved
      exact saved
    case isFalse => exact h.inv
  | reboot =>
    obtain rfl := Option.some.inj hs
    exact ⟨⟨h.inv.init.1, h.inv.header, h.inv.present⟩, fun _ he => absurd he List.not_mem_nil⟩

end

theorem startNames_opens (fw : Firmware) (fs : FileSystem) : Opens fw (startNames fw fs) where
  inv := VFS.firstBoot_inv fw
  each _ he := absurd he List.not_mem_nil

/-- **Files are told apart by their names** in every state of a run, with directories made half
by half, deletions and restarts in any order, as long as no node is made for a name of 64
characters or more. -/
theorem file_names_right (fw : Firmware) (fs : FileSystem) (as : List NameEvent)
    (fits : Along (stepNames fw) NodeNameFits (startNames fw fs) as) :
    Always (stepNames fw) NamesRight (startNames fw fs) as :=
  (always_invariant (I := Opens fw) (fun _ _ _ h fit hs => h.step fit hs) (startNames_opens fw fs)
    fits).mono fun _ h => h.right

/-- A file and a directory are made, and the directory is deleted. -/
theorem file_names_right_directory :
    Always (stepNames VFS.firmware) NamesRight (startNames VFS.firmware noFiles)
      [.ntCreateFile (fun _ _ => 0) (some 0) 0 0, .mkDirFinds [0x61], .mkDirCreates [0x61],
        .rm [0x61]] := by
  refine file_names_right VFS.firmware noFiles _ ?_
  exact ⟨.inl (by decide), fun _ _ => ⟨trivial, fun _ _ => ⟨.inl (by decide), fun _ _ =>
    ⟨trivial, fun _ _ => trivial⟩⟩⟩⟩

/-- **A directory of 64 letters, made twice**, is two nodes of one name. -/
theorem long_name_two_nodes :
    ¬ Always (stepNames VFS.firmware) NamesRight (startNames VFS.firmware noFiles)
      [.mkDirFinds (List.replicate 64 0x61), .mkDirCreates (List.replicate 64 0x61),
        .mkDirFinds (List.replicate 64 0x61), .mkDirCreates (List.replicate 64 0x61)] := by
  intro right
  have first := right.2 _ rfl
  have second := first.2 _ rfl
  have third := second.2 _ rfl
  have last := (third.2 _ rfl).here
  exact absurd (last.unique 0 1 (by decide) (by decide) (by decide)) (by decide)

end MicroNT.FileIo
