import Mathlib.Data.Set.Card
import MicroNT.Base.Simulation
import MicroNT.Vfs

/-! # The writable files are a finite map

What the functions on writable files answer is what a map from lower-case names to
entries would answer. At most sixteen names have an entry, each with an index of its
own by which it can be written and read. -/

namespace MicroNT.VFS

open MicroNT.Base.Simulation

/-! ## The map -/

structure Entry where
  isDir : Bool
  bytes : List u8

/-- The entries, and the name that every index stands for. -/
@[ext]
structure Files where
  entry : List u8 → Option Entry
  name : Fin WNODE_MAX → Option (List u8)

def Files.empty : Files := ⟨fun _ => none, fun _ => none⟩

/-- The files now and as they were last saved. -/
structure FileMap where
  files : Files
  saved : Option Files

namespace Files

/-- Names that differ in case are the same. -/
abbrev key (name : List u8) : List u8 := name.map lower

def indexOf (f : Files) (k : List u8) : Option (Fin WNODE_MAX) :=
  (List.finRange WNODE_MAX).find? fun i => f.name i = some k

/-- The first index that stands for no name. -/
def free (f : Files) : Option (Fin WNODE_MAX) :=
  (List.finRange WNODE_MAX).find? fun i => f.name i = none

def create (f : Files) (k : List u8) (isDir : Bool) (i : Fin WNODE_MAX) : Files where
  entry := Function.update f.entry k (some ⟨isDir, []⟩)
  name := Function.update f.name i (some k)

/-- The index of a name, which gets an entry if there is room for it. -/
def findOrCreate (f : Files) (name : List u8) (isDir : Bool) : Files × u32 :=
  if (f.entry (key name)).isSome then (f, index (f.indexOf (key name)))
  else
    match f.free with
    | some i => (f.create (key name) isDir i, index (some i))
    | none => (f, index none)

def mkDir (f : Files) (name : List u8) : Files × Bool :=
  if name = [] ∨ (f.entry (key name)).isSome then (f, false)
  else
    match f.free with
    | some i => (f.create (key name) true i, true)
    | none => (f, false)

def delete (f : Files) (name : List u8) : Files × Bool :=
  match f.indexOf (key name) with
  | some i =>
    (⟨Function.update f.entry (key name) none, Function.update f.name i none⟩, true)
  | none => (f, false)

/-- The name that an index stands for. -/
def nameAt (f : Files) (idx : u32) : Option (List u8) :=
  if h : idx.toNat < WNODE_MAX then f.name ⟨idx.toNat, h⟩ else none

/-- The entry that an index stands for. -/
def entryAt (f : Files) (idx : u32) : Option Entry := (f.nameAt idx).bind f.entry

/-- Appends what fits of `src`, and tells how much that was. -/
def write (f : Files) (idx : u32) (src : List u8) : Files × u32 :=
  match f.nameAt idx, f.entryAt idx with
  | some k, some e =>
    let part := src.take (WNODE_DATA_MAX - e.bytes.length)
    ({ f with entry := Function.update f.entry k (some { e with bytes := e.bytes ++ part }) },
      BitVec.ofNat 32 part.length)
  | _, _ => (f, 0)

/-- The slice of an entry's bytes. -/
def read (f : Files) (idx : u32) (offset len : Nat) : List u8 :=
  (f.entryAt idx).elim [] fun e => (e.bytes.drop offset).take len

end Files

/-- What the map answers. The firmware may take variables or not. -/
def FileMap.step (canSave : Bool) (m : FileMap) : Op → FileMap × Answer
  | .wFind name => (m, .word (index (m.files.indexOf (Files.key name))))
  | .wFindOrCreate name isDir =>
    let r := m.files.findOrCreate name isDir
    ({ m with files := r.1 }, .word r.2)
  | .mkDir name =>
    let r := m.files.mkDir name
    ({ m with files := r.1 }, .flag r.2)
  | .delete name =>
    let r := m.files.delete name
    ({ m with files := r.1 }, .flag r.2)
  | .wWrite idx src len =>
    let r := m.files.write idx ((List.range len.toNat).map src)
    ({ m with files := r.1 }, .word r.2)
  | .wRead idx offset len => (m, .bytes (m.files.read idx offset.toNat len.toNat))
  | .wSize idx => (m, .word ((m.files.entryAt idx).elim 0 fun e => BitVec.ofNat 32 e.bytes.length))
  | .wIsDir idx => (m, .flag ((m.files.entryAt idx).elim false Entry.isDir))
  | .saveNvram accepts =>
    (if canSave && accepts then { m with saved := some m.files } else m, .none)
  | .reboot => ({ m with files := m.saved.getD .empty }, .none)

/-- No name is longer than 63 bytes. -/
def Op.Short : Op → Prop
  | .wFind name | .wFindOrCreate name _ | .mkDir name | .delete name =>
    name.length < WNODE_NAME_MAX
  | _ => True

/-! ## Strings -/

theorem strIeq_iff (a b : List u8) : strIeq a b = true ↔ Files.key a = Files.key b := by
  induction a generalizing b with
  | nil => cases b <;> simp [strIeq]
  | cons x xs ih =>
    cases b with
    | nil => simp [strIeq]
    | cons y ys =>
      rw [strIeq]
      split
      case isTrue ne => simp [ne]
      case isFalse eq =>
        rw [ih]
        simp [not_not.mp eq]

theorem strCopy_short {name : List u8} (h : name.length < WNODE_NAME_MAX) :
    strCopy name WNODE_NAME_MAX = name := List.take_of_length_le (by omega)

/-! ## The abstraction -/

/-- The bytes of a node. -/
def WNode.bytes (n : WNode) : List u8 := (List.range n.size.toNat).map n.data

def WNode.entry (n : WNode) : Entry := ⟨n.isDir, n.bytes⟩

def names (nodes : Nodes) (i : Fin WNODE_MAX) : Option (List u8) :=
  if (nodes i).used then some (Files.key (nodes i).name) else none

def filesOf (nodes : Nodes) : Files where
  entry k := ((List.finRange WNODE_MAX).find? fun i => names nodes i = some k).map fun i =>
    (nodes i).entry
  name := names nodes

def fileMapOf (s : System) : FileMap := ⟨filesOf s.nodes, s.nvram.map fun h => filesOf h.nodes⟩

/-- No name has two nodes. -/
def Distinct (nodes : Nodes) : Prop :=
  ∀ i j k, names nodes i = some k → names nodes j = some k → i = j

/-- The nodes and what the firmware keeps of them. -/
structure Inv (fw : Firmware) (s : System) : Prop where
  distinct : Distinct s.nodes
  header : ∀ h, s.nvram = some h →
    h.magic = NVRAM_MAGIC ∧ h.count.toNat = WNODE_MAX ∧ Distinct h.nodes
  present : s.nvram ≠ none → fw.efiRuntimeVa ≠ 0 ∧ fw.getVariable = true

section

variable {nodes : Nodes} {name k : List u8} {i : Fin WNODE_MAX} {idx : u32}

theorem names_used : names nodes i = some k ↔ (nodes i).used = true ∧ Files.key (nodes i).name = k := by
  unfold names
  split <;> simp_all

theorem names_none : names nodes i = none ↔ (nodes i).used = false := by
  unfold names
  split <;> simp_all

theorem bytes_length (n : WNode) : n.bytes.length = n.size.toNat := by
  rw [WNode.bytes, List.length_map, List.length_range]

/-- Both searches for a name are the same. -/
theorem findName_eq : findName nodes name = (filesOf nodes).indexOf (Files.key name) := by
  unfold findName Files.indexOf filesOf
  congr 1
  funext i
  rw [Bool.eq_iff_iff, Bool.and_eq_true, strIeq_iff, decide_eq_true_eq]
  exact names_used.symm

theorem findFree_eq : findFree nodes = (filesOf nodes).free := by
  unfold findFree Files.free filesOf
  congr 1
  funext i
  rw [Bool.eq_iff_iff, Bool.not_eq_true', decide_eq_true_eq]
  exact names_none.symm

theorem find_names {p : Fin WNODE_MAX → Bool} (h : (List.finRange WNODE_MAX).find? p = some i) :
    p i = true := List.find?_some h

theorem indexOf_some {f : Files} (h : f.indexOf k = some i) : f.name i = some k :=
  of_decide_eq_true (find_names h)

theorem indexOf_none {f : Files} (h : f.indexOf k = none) (i : Fin WNODE_MAX) :
    f.name i ≠ some k := by
  have all := List.find?_eq_none.mp h i (List.mem_finRange i)
  simpa using all

theorem free_some {f : Files} (h : f.free = some i) : f.name i = none :=
  of_decide_eq_true (find_names h)

/-- The one index that stands for a name is found. -/
theorem Distinct.indexOf (h : Distinct nodes) (hi : names nodes i = some k) :
    (filesOf nodes).indexOf k = some i := by
  cases found : (filesOf nodes).indexOf k with
  | none => exact absurd hi (indexOf_none found i)
  | some j => rw [h j i k (indexOf_some found) hi]

/-- An entry is the one of the index that stands for it. -/
theorem entry_eq : (filesOf nodes).entry k = ((filesOf nodes).indexOf k).map fun i =>
    (nodes i).entry := rfl

theorem Distinct.entry (h : Distinct nodes) (hi : names nodes i = some k) :
    (filesOf nodes).entry k = some (nodes i).entry := by
  rw [entry_eq, h.indexOf hi]
  rfl

theorem entry_isSome : ((filesOf nodes).entry k).isSome = ((filesOf nodes).indexOf k).isSome := by
  rw [entry_eq, Option.isSome_map]

/-- An index and the node behind it. -/
theorem nodeAt_cases (nodes : Nodes) (idx : u32) :
    (nodeAt nodes idx = none ∧ (filesOf nodes).nameAt idx = none) ∨
    ∃ i k, nodeAt nodes idx = some i ∧ (filesOf nodes).nameAt idx = some k ∧
      names nodes i = some k := by
  unfold nodeAt Files.nameAt
  split
  case isFalse => exact .inl ⟨rfl, rfl⟩
  case isTrue h =>
    split
    case isFalse unused => exact .inl ⟨rfl, names_none.mpr (by simpa using unused)⟩
    case isTrue used =>
      have named : names nodes ⟨idx.toNat, h⟩ = some (Files.key (nodes ⟨idx.toNat, h⟩).name) :=
        names_used.mpr ⟨used, rfl⟩
      exact .inr ⟨_, _, rfl, named, named⟩

theorem Distinct.entryAt (h : Distinct nodes) :
    (filesOf nodes).entryAt idx = (nodeAt nodes idx).map fun i => (nodes i).entry := by
  unfold Files.entryAt
  rcases nodeAt_cases nodes idx with ⟨h1, h2⟩ | ⟨i, k, h1, h2, named⟩
  · rw [h1, h2]
    rfl
  · rw [h1, h2]
    exact h.entry named

theorem entry_none : (filesOf nodes).entry k = none ↔ ∀ i, names nodes i ≠ some k := by
  rw [entry_eq, Option.map_eq_none_iff]
  constructor
  · exact fun h i => indexOf_none h i
  · intro h
    cases found : (filesOf nodes).indexOf k with
    | none => rfl
    | some i => exact absurd (indexOf_some found) (h i)

/-! ## Changing one node -/

variable {n : WNode}

theorem names_update (nodes : Nodes) (i : Fin WNODE_MAX) (n : WNode) :
    names (Function.update nodes i n) =
      Function.update (names nodes) i (if n.used then some (Files.key n.name) else none) := by
  funext j
  by_cases hj : j = i
  · subst hj
    rw [Function.update_self, names, Function.update_self]
  · rw [Function.update_of_ne hj, names, Function.update_of_ne hj]
    rfl

/-- A name stays distinct if the changed node takes none that another node has. -/
theorem Distinct.update (h : Distinct nodes)
    (new : ∀ j, j ≠ i → n.used = true → names nodes j ≠ some (Files.key n.name)) :
    Distinct (Function.update nodes i n) := by
  have other : ∀ j k, j ≠ i → names nodes j = some k →
      (if n.used then some (Files.key n.name) else none) ≠ some k := by
    intro j k hj hk same
    split at same
    case isFalse => cases same
    case isTrue used => exact new j hj used (hk.trans same.symm)
  intro a b k ha hb
  rw [names_update] at ha hb
  by_cases hai : a = i <;> by_cases hbi : b = i
  · rw [hai, hbi]
  · rw [hai, Function.update_self] at ha
    rw [Function.update_of_ne hbi] at hb
    exact absurd ha (other b k hbi hb)
  · rw [hbi, Function.update_self] at hb
    rw [Function.update_of_ne hai] at ha
    exact absurd hb (other a k hai ha)
  · rw [Function.update_of_ne hai] at ha
    rw [Function.update_of_ne hbi] at hb
    exact h a b k ha hb

/-- The entries that do not belong to the changed node stay. -/
theorem entry_update_of_ne (before : names nodes i ≠ some k)
    (now : names (Function.update nodes i n) i ≠ some k) :
    (filesOf (Function.update nodes i n)).entry k = (filesOf nodes).entry k := by
  have same : ∀ j, (names (Function.update nodes i n) j = some k) = (names nodes j = some k) := by
    intro j
    by_cases hj : j = i
    · subst hj
      exact propext ⟨fun h => absurd h now, fun h => absurd h before⟩
    · rw [names_update, Function.update_of_ne hj]
  have search : (filesOf (Function.update nodes i n)).indexOf k = (filesOf nodes).indexOf k := by
    unfold Files.indexOf
    congr 1
    funext j
    exact decide_eq_decide.mpr (iff_of_eq (same j))
  rw [entry_eq, entry_eq, search]
  cases found : (filesOf nodes).indexOf k with
  | none => rfl
  | some j =>
    have hj : j ≠ i := fun e => before (e ▸ indexOf_some found)
    rw [Option.map_some, Option.map_some, Function.update_of_ne hj]

theorem filesOf_create (h : Distinct nodes) (isDir : Bool) (short : name.length < WNODE_NAME_MAX)
    (absent : findName nodes name = none) (unused : names nodes i = none) :
    Distinct (Function.update nodes i (newNode name isDir)) ∧
      filesOf (Function.update nodes i (newNode name isDir)) =
        (filesOf nodes).create (Files.key name) isDir i := by
  have key_new : Files.key (newNode name isDir).name = Files.key name := by
    show Files.key (strCopy name WNODE_NAME_MAX) = _
    rw [strCopy_short short]
  have absent : ∀ j, names nodes j ≠ some (Files.key name) := by
    rw [findName_eq] at absent
    exact fun j => indexOf_none absent j
  have distinct : Distinct (Function.update nodes i (newNode name isDir)) :=
    h.update fun j _ _ => key_new ▸ absent j
  have named : names (Function.update nodes i (newNode name isDir)) =
      Function.update (names nodes) i (some (Files.key name)) := by
    rw [names_update, key_new]
    rfl
  have here : names (Function.update nodes i (newNode name isDir)) i = some (Files.key name) := by
    rw [named, Function.update_self]
  refine ⟨distinct, ?_⟩
  refine Files.ext (funext fun k => ?_) named
  show _ = Function.update (filesOf nodes).entry (Files.key name) (some ⟨isDir, []⟩) k
  by_cases hk : k = Files.key name
  · subst hk
    rw [Function.update_self, distinct.entry here, Function.update_self]
    rfl
  · rw [Function.update_of_ne hk]
    refine entry_update_of_ne (by rw [unused]; exact fun e => by cases e) ?_
    rw [here]
    exact fun e => hk (Option.some.inj e).symm

theorem filesOf_delete (h : Distinct nodes) (named : names nodes i = some k) :
    Distinct (Function.update nodes i WNode.zero) ∧
      filesOf (Function.update nodes i WNode.zero) =
        ⟨Function.update (filesOf nodes).entry k none, Function.update (names nodes) i none⟩ := by
  have distinct : Distinct (Function.update nodes i WNode.zero) :=
    h.update fun _ _ used => by cases used
  have cleared : names (Function.update nodes i WNode.zero) =
      Function.update (names nodes) i none := names_update nodes i WNode.zero
  refine ⟨distinct, ?_⟩
  refine Files.ext (funext fun k' => ?_) cleared
  show _ = Function.update (filesOf nodes).entry k none k'
  by_cases hk : k' = k
  · subst hk
    rw [Function.update_self, entry_none]
    intro j
    rw [cleared]
    by_cases hj : j = i
    · rw [hj, Function.update_self]
      exact fun e => by cases e
    · rw [Function.update_of_ne hj]
      exact fun e => hj (h j i k' e named)
  · rw [Function.update_of_ne hk]
    refine entry_update_of_ne (fun e => hk ?_) ?_
    · rw [named] at e
      exact (Option.some.inj e).symm
    · rw [cleared, Function.update_self]
      exact fun e => by cases e

/-! ## Bytes -/

theorem copyIn_at (src : Nat → u8) (size n i : Nat) (data : Nat → u8) (j : Nat) :
    copyIn src size n i data j =
      if size + i ≤ j ∧ j < size + (i + n) then src (j - size) else data j := by
  induction n generalizing i data with
  | zero =>
    rw [copyIn, if_neg]
    omega
  | succ n ih =>
    rw [copyIn, ih]
    by_cases later : size + (i + 1) ≤ j ∧ j < size + (i + 1 + n)
    · rw [if_pos later, if_pos (by omega)]
    · rw [if_neg later]
      by_cases here : j = size + i
      · subst here
        rw [Function.update_self, if_pos (by omega), Nat.add_sub_cancel_left]
      · rw [Function.update_of_ne here, if_neg (by omega)]

/-- **Appending**: the bytes there are stay, and as many of the new ones as fit follow. -/
theorem append_bytes (n : WNode) (src : Nat → u8) (len : u32) :
    (append n src len).bytes =
      n.bytes ++ ((List.range len.toNat).map src).take (WNODE_DATA_MAX - n.bytes.length) := by
  have bound := n.bound
  have fits : (append n src len).size.toNat = n.size.toNat + (accepted n len).toNat := by
    show (n.size + accepted n len).toNat = _
    rw [BitVec.toNat_add, accepted_toNat]
    simp only [WNODE_DATA_MAX] at *
    omega
  have part : ((List.range len.toNat).map src).take (WNODE_DATA_MAX - n.bytes.length) =
      (List.range (accepted n len).toNat).map src := by
    rw [bytes_length, accepted_toNat, ← List.map_take, List.take_range, Nat.min_comm]
  rw [part, WNode.bytes, fits, WNode.bytes, List.range_add, List.map_append, List.map_map]
  congr 1
  · refine List.map_congr_left fun j hj => ?_
    have below := List.mem_range.mp hj
    show copyIn src _ _ 0 n.data j = n.data j
    rw [copyIn_at, if_neg (by omega)]
  · refine List.map_congr_left fun j hj => ?_
    have below := List.mem_range.mp hj
    show copyIn src _ _ 0 n.data (n.size.toNat + j) = src j
    rw [copyIn_at, if_pos (by omega), Nat.add_sub_cancel_left]

theorem accepted_eq (n : WNode) (src : Nat → u8) (len : u32) : accepted n len =
    BitVec.ofNat 32 (((List.range len.toNat).map src).take (WNODE_DATA_MAX - n.bytes.length)).length := by
  refine BitVec.eq_of_toNat_eq ?_
  rw [accepted_toNat, BitVec.toNat_ofNat, List.length_take, List.length_map, List.length_range,
    bytes_length, Nat.min_comm]
  simp only [WNODE_DATA_MAX]
  omega

theorem filesOf_write (h : Distinct nodes) (named : names nodes i = some k) (src : Nat → u8)
    (len : u32) :
    Distinct (Function.update nodes i (append (nodes i) src len)) ∧
      filesOf (Function.update nodes i (append (nodes i) src len)) =
        { filesOf nodes with
          entry := Function.update (filesOf nodes).entry k (some
            { (nodes i).entry with
              bytes := (nodes i).bytes ++ ((List.range len.toNat).map src).take
                (WNODE_DATA_MAX - (nodes i).bytes.length) }) } := by
  have named' := names_used.mp named
  have same : names (Function.update nodes i (append (nodes i) src len)) = names nodes := by
    rw [names_update]
    exact Function.update_eq_self i (names nodes)
  have distinct : Distinct (Function.update nodes i (append (nodes i) src len)) := by
    unfold Distinct
    rw [same]
    exact h
  refine ⟨distinct, ?_⟩
  refine Files.ext (funext fun k' => ?_) same
  show _ = Function.update (filesOf nodes).entry k _ k'
  by_cases hk : k' = k
  · subst hk
    rw [Function.update_self, distinct.entry (by rw [same]; exact named), Function.update_self,
      WNode.entry, append_bytes]
    rfl
  · have other : names nodes i ≠ some k' := by
      rw [named]
      exact fun e => hk (Option.some.inj e).symm
    rw [Function.update_of_ne hk]
    exact entry_update_of_ne other (by rw [same]; exact other)

/-- **Reading** gives the slice at the offset. -/
theorem wRead_slice (n : WNode) (offset : u64) (len : u32) :
    (if offset ≥ n.size.setWidth 64 then []
      else
        let avail := n.size - offset.setWidth 32
        let len := if len > avail then avail else len
        (List.range len.toNat).map fun k => n.data ((offset.setWidth 32).toNat + k)) =
      (n.bytes.drop offset.toNat).take len.toNat := by
  have bound := n.bound
  have wide : (n.size.setWidth 64).toNat = n.size.toNat := by
    rw [BitVec.toNat_setWidth]
    exact Nat.mod_eq_of_lt (by omega)
  split
  case isTrue past =>
    have past : n.size.toNat ≤ offset.toNat := wide ▸ BitVec.le_def.mp past
    rw [List.drop_eq_nil_of_le (by rw [bytes_length]; exact past), List.take_nil]
  case isFalse inside =>
    have inside : offset.toNat < n.size.toNat := by
      rw [ge_iff_le, BitVec.le_def, wide] at inside
      omega
    have narrow : (offset.setWidth 32).toNat = offset.toNat := by
      rw [BitVec.toNat_setWidth]
      exact Nat.mod_eq_of_lt (by omega)
    have avail : (n.size - offset.setWidth 32).toNat = n.size.toNat - offset.toNat := by
      rw [BitVec.toNat_sub_of_le (by rw [BitVec.le_def, narrow]; omega), narrow]
    have count : (if len > n.size - offset.setWidth 32 then n.size - offset.setWidth 32
        else len).toNat = min len.toNat (n.size.toNat - offset.toNat) := by
      simp only [gt_iff_lt, BitVec.lt_def, avail]
      split
      case isTrue more => rw [avail]; omega
      case isFalse => omega
    simp only [count, narrow]
    refine List.ext_getElem ?_ fun j h1 h2 => ?_
    · rw [List.length_map, List.length_range, List.length_take, List.length_drop, bytes_length]
    · simp only [List.getElem_map, List.getElem_range, List.getElem_take, List.getElem_drop,
        WNode.bytes]

end

/-! ## Every request -/

section

variable {fw : Firmware} {nodes : Nodes} {name : List u8}

theorem Distinct.zero : Distinct fun _ => WNode.zero := by
  intro i j k hi _
  cases hi

theorem filesOf_zero : filesOf (fun _ => WNode.zero) = Files.empty :=
  Files.ext (funext fun _ => entry_none.mpr fun _ e => by cases e) rfl

theorem wFindOrCreate_eq (h : Distinct nodes) (isDir : Bool) (short : name.length < WNODE_NAME_MAX) :
    Distinct (wFindOrCreate nodes name isDir).1 ∧
      (filesOf nodes).findOrCreate name isDir =
        (filesOf (wFindOrCreate nodes name isDir).1, (wFindOrCreate nodes name isDir).2) := by
  unfold wFindOrCreate Files.findOrCreate
  rw [entry_isSome, ← findName_eq, ← findFree_eq]
  cases found : findName nodes name with
  | some i => exact ⟨h, rfl⟩
  | none =>
    cases free : findFree nodes with
    | none => exact ⟨h, rfl⟩
    | some i =>
      rw [findFree_eq] at free
      obtain ⟨distinct, same⟩ := filesOf_create h isDir short found (free_some free)
      exact ⟨distinct, by simp only [Option.isSome_none, Bool.false_eq_true, if_false, same]⟩

theorem index_lt (i : Fin WNODE_MAX) : (index (some i)).toNat < WNODE_MAX := by
  have below := i.isLt
  show (BitVec.ofNat 32 i.val).toNat < WNODE_MAX
  rw [BitVec.toNat_ofNat]
  omega

theorem mkDir_eq (h : Distinct nodes) (short : name.length < WNODE_NAME_MAX) :
    Distinct (mkDir nodes name).1 ∧
      (filesOf nodes).mkDir name = (filesOf (mkDir nodes name).1, (mkDir nodes name).2) := by
  obtain ⟨distinct, -⟩ := wFindOrCreate_eq h true short
  unfold mkDir Files.mkDir
  rw [entry_isSome, ← findName_eq, ← findFree_eq, wFind]
  by_cases empty : name = []
  · rw [if_pos empty, if_pos (.inl empty)]
    exact ⟨h, rfl⟩
  rw [if_neg empty]
  unfold wFindOrCreate at distinct ⊢
  cases found : findName nodes name with
  | some i =>
    rw [if_pos (index_lt i), if_pos (.inr rfl)]
    exact ⟨h, rfl⟩
  | none =>
    rw [found] at distinct
    rw [if_neg (by decide), if_neg (by simp [empty])]
    cases free : findFree nodes with
    | none => exact ⟨h, rfl⟩
    | some i =>
      rw [free] at distinct
      rw [findFree_eq] at free
      refine ⟨distinct, ?_⟩
      simp only [(filesOf_create h true short found (free_some free)).2, index_lt, decide_true]

theorem delete_eq (h : Distinct nodes) (name : List u8) :
    Distinct (delete nodes name).1 ∧
      (filesOf nodes).delete name = (filesOf (delete nodes name).1, (delete nodes name).2) := by
  unfold delete Files.delete
  rw [findName_eq]
  cases found : (filesOf nodes).indexOf (Files.key name) with
  | none => exact ⟨h, rfl⟩
  | some i =>
    obtain ⟨distinct, same⟩ := filesOf_delete h (indexOf_some found)
    exact ⟨distinct, by simp only [same]; rfl⟩

theorem wWrite_eq (h : Distinct nodes) (idx : u32) (src : Nat → u8) (len : u32) :
    Distinct (wWrite nodes idx src len).1 ∧
      (filesOf nodes).write idx ((List.range len.toNat).map src) =
        (filesOf (wWrite nodes idx src len).1, (wWrite nodes idx src len).2) := by
  unfold wWrite Files.write
  rw [h.entryAt]
  rcases nodeAt_cases nodes idx with ⟨h1, h2⟩ | ⟨i, k, h1, h2, named⟩
  · rw [h1, h2]
    exact ⟨h, rfl⟩
  · obtain ⟨distinct, same⟩ := filesOf_write h named src len
    rw [h1, h2]
    refine ⟨distinct, ?_⟩
    simp only [Option.map_some, same, accepted_eq (nodes i) src len]
    rfl

theorem wRead_eq (h : Distinct nodes) (idx : u32) (offset : u64) (len : u32) :
    (filesOf nodes).read idx offset.toNat len.toNat = wRead nodes idx offset len := by
  unfold Files.read wRead
  rw [h.entryAt]
  cases nodeAt nodes idx with
  | none => rfl
  | some i => exact (wRead_slice (nodes i) offset len).symm

/-- What is loaded is what was saved. -/
theorem Inv.init {s : System} (h : Inv fw s) :
    Distinct (init fw s.nvram) ∧
      filesOf (init fw s.nvram) = (s.nvram.map fun hdr => filesOf hdr.nodes).getD .empty := by
  unfold VFS.init loadNvram
  cases saved : s.nvram with
  | none =>
    simp only [ite_self, Option.map_none, Option.getD_none]
    exact ⟨.zero, filesOf_zero⟩
  | some hdr =>
    obtain ⟨runtime, get⟩ := h.present (by rw [saved]; exact fun e => by cases e)
    obtain ⟨magic, count, distinct⟩ := h.header hdr saved
    have all : (fun i : Fin WNODE_MAX => if i.val < (if hdr.count.toNat < WNODE_MAX
        then hdr.count.toNat else WNODE_MAX) then hdr.nodes i else WNode.zero) = hdr.nodes := by
      funext i
      rw [count, if_neg (Nat.lt_irrefl _), if_pos i.isLt]
    rw [if_neg runtime, get]
    simp only [Bool.not_true, Bool.false_eq_true, if_false, magic, ne_eq, not_true_eq_false, all]
    exact ⟨distinct, rfl⟩

/-- Whether the firmware can take the variable. -/
def Firmware.canSave (fw : Firmware) : Bool := decide (fw.efiRuntimeVa ≠ 0) && fw.setVariable

theorem saveNvram_eq (fw : Firmware) (accepts : Bool) (s : System) :
    saveNvram fw accepts s = if fw.canSave && accepts then
      { s with nvram := some ⟨NVRAM_MAGIC, BitVec.ofNat 32 WNODE_MAX, s.nodes⟩ } else s := by
  unfold saveNvram Firmware.canSave
  by_cases runtime : fw.efiRuntimeVa = 0
  · simp [runtime]
  · cases fw.setVariable <;> cases accepts <;> simp

theorem Inv.saveNvram {s : System} (h : Inv fw s) (accepts : Bool) :
    Inv fw (saveNvram fw accepts s) := by
  rw [saveNvram_eq]
  split
  case isFalse => exact h
  case isTrue ok =>
    obtain ⟨can, -⟩ := Bool.and_eq_true_iff.mp ok
    obtain ⟨runtime, set⟩ := Bool.and_eq_true_iff.mp can
    refine ⟨h.distinct, fun hdr e => ?_, fun _ => ⟨of_decide_eq_true runtime, fw.readable set⟩⟩
    obtain rfl := Option.some.inj e
    exact ⟨rfl, rfl, h.distinct⟩

/-- **One request**: the invariant stays, and the map gives the same answer. -/
theorem step_commutes {s : System} (h : Inv fw s) {op : Op} (short : op.Short) :
    Inv fw (step fw s op).1 ∧
      FileMap.step fw.canSave (fileMapOf s) op = (fileMapOf (step fw s op).1, (step fw s op).2) := by
  have moved : ∀ {nodes}, Distinct nodes → Inv fw { s with nodes := nodes } :=
    fun distinct => ⟨distinct, h.header, h.present⟩
  cases op with
  | wFind name => exact ⟨h, by rw [step, wFind, findName_eq]; rfl⟩
  | wFindOrCreate name isDir =>
    obtain ⟨distinct, same⟩ := wFindOrCreate_eq h.distinct isDir short
    exact ⟨moved distinct, by simp only [FileMap.step, fileMapOf, same, step]⟩
  | mkDir name =>
    obtain ⟨distinct, same⟩ := mkDir_eq h.distinct short
    exact ⟨moved distinct, by simp only [FileMap.step, fileMapOf, same, step]⟩
  | delete name =>
    obtain ⟨distinct, same⟩ := delete_eq h.distinct name
    exact ⟨moved distinct, by simp only [FileMap.step, fileMapOf, same, step]⟩
  | wWrite idx src len =>
    obtain ⟨distinct, same⟩ := wWrite_eq h.distinct idx src len
    exact ⟨moved distinct, by simp only [FileMap.step, fileMapOf, same, step]⟩
  | wRead idx offset len =>
    exact ⟨h, by simp only [FileMap.step, fileMapOf, wRead_eq h.distinct, step]⟩
  | wSize idx =>
    refine ⟨h, ?_⟩
    simp only [FileMap.step, fileMapOf, step, wSize, h.distinct.entryAt]
    cases nodeAt s.nodes idx with
    | none => rfl
    | some i =>
      simp only [Option.map_some, Option.elim_some, WNode.entry, bytes_length, BitVec.ofNat_toNat,
        BitVec.setWidth_eq]
  | wIsDir idx =>
    refine ⟨h, ?_⟩
    simp only [FileMap.step, fileMapOf, step, wIsDir, h.distinct.entryAt]
    cases nodeAt s.nodes idx <;> rfl
  | saveNvram accepts =>
    refine ⟨h.saveNvram accepts, ?_⟩
    simp only [FileMap.step, step, saveNvram_eq]
    split <;> rfl
  | reboot =>
    obtain ⟨distinct, same⟩ := h.init
    exact ⟨moved distinct, by simp only [FileMap.step, fileMapOf, same, step]⟩

theorem firstBoot_inv (fw : Firmware) : Inv fw (firstBoot fw) := by
  have none_saved : Inv fw ⟨fun _ => WNode.zero, none⟩ :=
    ⟨.zero, fun _ e => (by cases e), fun no => absurd rfl no⟩
  exact ⟨none_saved.init.1, none_saved.header, none_saved.present⟩

theorem fileMapOf_firstBoot (fw : Firmware) : fileMapOf (firstBoot fw) = ⟨.empty, none⟩ := by
  have none_saved : Inv fw ⟨fun _ => WNode.zero, none⟩ :=
    ⟨.zero, fun _ e => (by cases e), fun no => absurd rfl no⟩
  show (⟨filesOf (init fw none), none⟩ : FileMap) = _
  rw [none_saved.init.2]
  rfl

/-- Sixteen names have an entry at most. -/
theorem card_entries_le (nodes : Nodes) :
    {k | (filesOf nodes).entry k ≠ none}.encard ≤ WNODE_MAX := by
  have covered : {k | (filesOf nodes).entry k ≠ none} ⊆
      (fun i => (names nodes i).getD []) '' Set.univ := by
    intro k hk
    by_contra missing
    refine hk (entry_none.mpr fun i named => missing ⟨i, trivial, ?_⟩)
    show (names nodes i).getD [] = k
    rw [named]
    rfl
  calc {k | (filesOf nodes).entry k ≠ none}.encard
      ≤ ((fun i => (names nodes i).getD []) '' Set.univ).encard := Set.encard_le_encard covered
    _ ≤ (Set.univ : Set (Fin WNODE_MAX)).encard := Set.encard_image_le _ _
    _ = WNODE_MAX := by rw [Set.encard_univ, ENat.card_eq_coe_fintype_card, Fintype.card_fin]

/-- **The writable files are a finite map**: from the first start on, whatever is
asked and however often the system is saved and started again, all answers are those
of the map, which never has more than sixteen entries. -/
theorem vfs_is_map (fw : Firmware) (ops : List Op) (short : ∀ op ∈ ops, op.Short) :
    answers (step fw) (firstBoot fw) ops = answers (FileMap.step fw.canSave) ⟨.empty, none⟩ ops ∧
      fileMapOf (after (step fw) (firstBoot fw) ops) =
        after (FileMap.step fw.canSave) ⟨.empty, none⟩ ops ∧
      {k | (after (FileMap.step fw.canSave) ⟨.empty, none⟩ ops).files.entry k ≠ none}.encard ≤
        WNODE_MAX := by
  obtain ⟨same, last⟩ := simulates (I := Inv fw) (G := Op.Short)
    (fun _ _ h allowed => (step_commutes h allowed).1)
    (fun _ _ h allowed => (step_commutes h allowed).2) (firstBoot_inv fw) short
  rw [fileMapOf_firstBoot] at same last
  refine ⟨same, last, ?_⟩
  rw [← last]
  exact card_entries_le _

/-- A machine with runtime services. -/
def firmware : Firmware := ⟨0x1000, true, true, fun _ => rfl⟩

/-- A file is written, saved, deleted, and there again after a reboot, under its name
in capitals. -/
theorem vfs_is_map_saved :
    answers (step firmware) (firstBoot firmware) [.wFindOrCreate [0x61] false,
        .wWrite 0 (fun _ => 7) 2, .saveNvram true, .delete [0x61], .reboot, .wFind [0x41],
        .wRead 0 1 5] =
      answers (FileMap.step firmware.canSave) ⟨.empty, none⟩ [.wFindOrCreate [0x61] false,
        .wWrite 0 (fun _ => 7) 2, .saveNvram true, .delete [0x61], .reboot, .wFind [0x41],
        .wRead 0 1 5] ∧
    answers (step firmware) (firstBoot firmware) [.wFindOrCreate [0x61] false,
        .wWrite 0 (fun _ => 7) 2, .saveNvram true, .delete [0x61], .reboot, .wFind [0x41],
        .wRead 0 1 5] =
      [.word 0, .word 2, .none, .flag true, .none, .word 0, .bytes [7]] := by
  refine ⟨(vfs_is_map firmware _ fun op hop => ?_).1, by decide⟩
  simp only [List.mem_cons, List.not_mem_nil, or_false] at hop
  rcases hop with rfl | rfl | rfl | rfl | rfl | rfl | rfl
  all_goals first | trivial | exact (by decide : (1 : Nat) < 64)

end

end MicroNT.VFS
