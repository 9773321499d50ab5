import MicroNT.Base.Bytes

/-! # Volumes of ISO 9660

A reader for the volumes on a CD. Directories, path tables and boot catalogs are records one
behind the other, each of which says where the next one starts. -/

namespace MicroNT.Base.Iso9660

open Bytes

/-! ## Records one behind the other -/

section

variable {α : Type} {read : List Byte → Option (α × List Byte)} {stop : List Byte → Bool}

/-- What `read` finds, one behind the other, up to where `stop` says that nothing follows. -/
def readAll (read : List Byte → Option (α × List Byte)) (stop : List Byte → Bool) :
    Nat → List Byte → Option (List α)
  | 0, _ => none
  | fuel + 1, b =>
    if stop b then some []
    else do
      let (x, rest) ← read b
      let xs ← readAll read stop fuel rest
      some (x :: xs)

/-- These bytes are read as `x`, whatever comes behind them. -/
def Reads (read : List Byte → Option (α × List Byte)) (stop : List Byte → Bool) (b : List Byte)
    (x : α) : Prop := ∀ rest, stop (b ++ rest) = false ∧ read (b ++ rest) = some (x, rest)

/-- **All records are read**, in their order. -/
theorem readAll_flatten {bs : List (List Byte)} {xs : List α} {rest : List Byte} {fuel : Nat}
    (h : List.Forall₂ (Reads read stop) bs xs) (last : stop rest = true) (room : bs.length < fuel) :
    readAll read stop fuel (bs.flatten ++ rest) = some xs := by
  induction h generalizing fuel with
  | nil =>
    cases fuel with
    | zero => cases room
    | succ fuel => exact if_pos last
  | cons first _ ih =>
    cases fuel with
    | zero => cases room
    | succ fuel =>
      obtain ⟨more, here⟩ := first (List.flatten _ ++ rest)
      rw [List.flatten_cons, List.append_assoc, readAll, more, if_neg Bool.false_ne_true, here]
      simp only [Option.bind_eq_bind, Option.bind_some, ih (Nat.lt_of_succ_lt_succ room)]

end

/-- A part of several parts put together. -/
theorem slice_flatten {α : Type} {ps : List (List α)} {p : List α} {i off n : Nat}
    (h : ps[i]? = some p) (before : (ps.take i).flatten.length = off) (len : p.length = n) :
    slice ps.flatten off n = p := by
  subst before len
  obtain ⟨small, rfl⟩ := List.getElem?_eq_some_iff.mp h
  have split : ps.flatten = (ps.take i).flatten ++ (ps[i] ++ (ps.drop (i + 1)).flatten) := by
    rw [← List.flatten_cons, ← List.drop_eq_getElem_cons small, ← List.flatten_append,
      List.take_append_drop]
  rw [split, slice, List.drop_left, List.take_left]

theorem length_flatten_of {α : Type} {ps : List (List α)} {n : Nat} (h : ∀ p ∈ ps, p.length = n) :
    ps.flatten.length = ps.length * n := by
  induction ps with
  | nil => exact (Nat.zero_mul n).symm
  | cons p ps ih =>
    have rest := ih fun q hq => h q (List.mem_cons_of_mem p hq)
    rw [List.flatten_cons, List.length_append, h p List.mem_cons_self, rest, List.length_cons,
      Nat.succ_mul, Nat.add_comm]

/-- Parts of one length lie at its multiples. -/
theorem slice_flatten_of {α : Type} {ps : List (List α)} {p : List α} {i n : Nat}
    (h : ∀ p ∈ ps, p.length = n) (hp : ps[i]? = some p) : slice ps.flatten (i * n) n = p := by
  obtain ⟨small, -⟩ := List.getElem?_eq_some_iff.mp hp
  have before := length_flatten_of fun q hq => h q (List.mem_of_mem_take (i := i) hq)
  rw [List.length_take, Nat.min_eq_left (Nat.le_of_lt small)] at before
  exact slice_flatten hp before (h p (List.mem_of_getElem? hp))

theorem slice_behind {α : Type} {a b c : List α} {m n off : Nat} (ha : a.length = m)
    (inside : off + n ≤ b.length) : slice (a ++ (b ++ c)) (m + off) n = slice b off n := by
  rw [← slice_append inside, slice, slice, ← List.drop_drop, List.drop_left' ha]

/-! ## Numbers in both byte orders -/

section

variable {b : List Byte} {off w v : Nat}

def bothBytes (w v : Nat) : List Byte := leBytes w v ++ beBytes w v

@[simp] theorem length_bothBytes : (bothBytes w v).length = w + w := by
  simp [bothBytes]

/-- The number in the `2 * w` bytes from `off` on, if the two orders agree. -/
def both (b : List Byte) (off w : Nat) : Option Nat :=
  if field b off w = beField b (off + w) w then some (field b off w) else none

theorem field_of_slice (there : slice b off w = leBytes w v) (fits : v < 256 ^ w) :
    field b off w = v := by
  rw [field, there, leNat_leBytes, Nat.mod_eq_of_lt fits]

theorem both_of_slice (there : slice b off (w + w) = bothBytes w v) (fits : v < 256 ^ w) :
    both b off w = some v := by
  have little : slice b off w = leBytes w v := by
    rw [← take_slice (Nat.le_add_right w w), there]
    exact List.take_left' length_leBytes
  have big : slice b (off + w) w = beBytes w v := by
    rw [slice_add, bothBytes, little] at there
    exact List.append_cancel_left there
  rw [both, field_of_slice little fits, beField_of_slice big fits, if_pos rfl]

theorem both_putAll {ws : List (Nat × List Byte)} (h : Laid b.length (spans ws))
    (hw : (off, bothBytes w v) ∈ ws) (fits : v < 256 ^ w) : both (putAll b ws) off w = some v := by
  have there := slice_putAll h hw
  rw [length_bothBytes] at there
  exact both_of_slice there fits

end

/-! ## Directories -/

def SECTOR : Nat := 2048

def sector (image : List Byte) (i : Nat) : List Byte := slice image (i * SECTOR) SECTOR

/-- A directory record. -/
structure Record where
  extent : Nat
  size : Nat
  directory : Bool
  name : List Byte

def readRecord (b : List Byte) : Option (Record × List Byte) :=
  let n := field b 0 1
  let k := field b 32 1
  if 33 + k ≤ n ∧ n ≤ b.length then do
    let extent ← both b 2 4
    let size ← both b 10 4
    some (⟨extent, size, (field b 25 1).testBit 1, slice b 33 k⟩, b.drop n)
  else none

/-- The rest of a sector is not used. -/
def unused (b : List Byte) : Bool := field b 0 1 = 0

/-- The records of a directory; none goes across the end of a sector. -/
def records (image : List Byte) (d : Record) : Option (List Record) := do
  let sectors ← (List.range (d.size / SECTOR)).mapM fun i =>
    readAll readRecord unused SECTOR (sector image (d.extent + i))
  some sectors.flatten

/-- What is in a directory, behind the records of itself and of its parent. -/
def inside (image : List Byte) (parent d : Record) : Option (List Record) :=
  match records image d with
  | some (self :: up :: rest) =>
    if self.name = [0] ∧ self.extent = d.extent ∧ self.size = d.size ∧
        up.name = [1] ∧ up.extent = parent.extent ∧ up.size = parent.size then some rest
    else none
  | _ => none

/-- A file or a directory with all that is below it. -/
inductive Node where
  | file (name data : List Byte)
  | dir (name : List Byte) (extent : Nat) (inside : List Node)

/-- All that is below `d`, at most `depth` levels. -/
def tree (image : List Byte) : Nat → Record → Record → Option Node
  | 0, _, _ => none
  | depth + 1, parent, d =>
    if d.directory then do
      let rs ← inside image parent d
      let nodes ← rs.mapM (tree image depth d)
      some (.dir d.name d.extent nodes)
    else if d.extent * SECTOR + d.size ≤ image.length then
      some (.file d.name (slice image (d.extent * SECTOR) d.size))
    else none

section

variable {image : List Byte} {parent d : Record} {depth : Nat} {rs : List Record}
  {nodes : List Node}

theorem tree_dir (directory : d.directory = true) (h : inside image parent d = some rs)
    (each : rs.mapM (tree image depth d) = some nodes) :
    tree image (depth + 1) parent d = some (.dir d.name d.extent nodes) := by
  rw [tree, if_pos directory, h]
  exact congrArg (Option.bind · fun nodes => some (Node.dir d.name d.extent nodes)) each

theorem tree_file (file : d.directory = false) (within : d.extent * SECTOR + d.size ≤ image.length) :
    tree image (depth + 1) parent d =
      some (.file d.name (slice image (d.extent * SECTOR) d.size)) := by
  rw [tree, file, if_neg Bool.false_ne_true, if_pos within]

end

/-! ## The path table -/

structure PathEntry where
  name : List Byte
  extent : Nat
  /-- The number of its parent in the table. -/
  parent : Nat

/-- `value` knows the byte order of the table. -/
def readPath (value : List Byte → Nat) (b : List Byte) : Option (PathEntry × List Byte) :=
  let k := field b 0 1
  let n := 8 + k + k % 2
  if n ≤ b.length then
    some (⟨slice b 8 k, value (slice b 2 4), value (slice b 6 2)⟩, b.drop n)
  else none

/-- The directories of a level with the numbers of their parents, those of the next level behind
them, and so on: what the table of a volume has to be. -/
def pathTable : Nat → Nat → List (Node × Nat) → List PathEntry
  | 0, _, _ => []
  | depth + 1, first, level =>
    let dirs := level.filterMap fun
      | (.dir name extent nodes, parent) => some (PathEntry.mk name extent parent, nodes)
      | (.file _ _, _) => none
    let next := (dirs.zipIdx first).flatMap fun (d, number) => d.2.map fun node => (node, number)
    dirs.map Prod.fst ++ pathTable depth (first + dirs.length) next

/-- The table of a volume with this tree. -/
def Node.pathTable (node : Node) : List PathEntry := Iso9660.pathTable 8 1 [(node, 1)]

/-! ## Volume descriptors -/

/-- The descriptors from sector `i` on, up to the one that ends them. -/
def descriptors (image : List Byte) : Nat → Nat → Option (List (List Byte))
  | 0, _ => none
  | fuel + 1, i =>
    let d := sector image i
    if slice d 1 5 = ascii "CD001" ∧ field d 6 1 = 1 then
      if field d 0 1 = 0xFF then some [] else (descriptors image fuel (i + 1)).map (d :: ·)
    else none

/-- What the primary descriptor says. -/
structure Volume where
  sectors : Nat
  blockSize : Nat
  pathTableSize : Nat
  /-- Where the path tables with the least and with the greatest byte first are. -/
  pathTableL : Nat
  pathTableM : Nat
  root : Record

def readVolume (d : List Byte) : Option Volume := do
  let sectors ← both d 80 4
  let blockSize ← both d 128 2
  let pathTableSize ← both d 132 4
  let (root, _) ← readRecord (slice d 156 34)
  some ⟨sectors, blockSize, pathTableSize, field d 140 4, beField d 148 4, root⟩

/-- The primary descriptor of a volume. -/
def primary (image : List Byte) : Option Volume := do
  let ds ← descriptors image (image.length / SECTOR) 16
  let d ← ds.find? fun d => field d 0 1 = 1
  readVolume d

def readPaths (image : List Byte) (value : List Byte → Nat) (lba size : Nat) :
    Option (List PathEntry) :=
  readAll (readPath value) List.isEmpty (size + 1) (slice image (lba * SECTOR) size)

/-! ## Boot catalogs -/

/-- An entry of the catalog that can be booted. -/
structure BootEntry where
  platform : Nat
  media : Nat
  /-- In units of 512 bytes. -/
  sectors : Nat
  lba : Nat
  deriving DecidableEq

/-- The descriptor of El Torito says where the catalog is. -/
def catalogOf (d : List Byte) : Option Nat :=
  if slice d 7 32 = ascii "EL TORITO SPECIFICATION" ++ zeros 9 then some (field d 71 4) else none

def catalog (image : List Byte) : Option (List Byte) := do
  let ds ← descriptors image (image.length / SECTOR) 16
  let lba ← ds.findSome? fun d => if field d 0 1 = 0 then catalogOf d else none
  some (sector image lba)

/-- The words in the order of the least byte first, added up. -/
def wordSum : List Byte → Nat
  | a :: b :: rest => a.toNat + 256 * b.toNat + wordSum rest
  | _ => 0

def catalogEntry (catalog : List Byte) (i : Nat) : List Byte := slice catalog (32 * i) 32

def readBoot (platform : Nat) (e : List Byte) : List BootEntry :=
  if field e 0 1 = 0x88 then [⟨platform, field e 1 1, field e 6 2, field e 8 4⟩] else []

/-- The sections from entry `i` on, each with a header that counts its entries. -/
def readSections (catalog : List Byte) : Nat → Nat → Option (List BootEntry)
  | 0, _ => none
  | fuel + 1, i =>
    let header := catalogEntry catalog i
    let n := field header 2 2
    let here := (List.range n).flatMap fun k =>
      readBoot (field header 1 1) (catalogEntry catalog (i + 1 + k))
    if field header 0 1 = 0x91 then some here
    else if field header 0 1 = 0x90 then
      (readSections catalog fuel (i + 1 + n)).map (here ++ ·)
    else some []

/-- The entries of a catalog whose first entry is valid, with its two key bytes at `key`. -/
def bootEntries (key : Nat) (catalog : List Byte) : Option (List BootEntry) :=
  let valid := catalogEntry catalog 0
  if field valid 0 1 = 1 ∧ slice valid key 2 = [0x55, 0xAA] ∧ wordSum valid % 65536 = 0 then do
    let sections ← readSections catalog (SECTOR / 32) 2
    some (readBoot (field valid 1 1) (catalogEntry catalog 1) ++ sections)
  else none

/-- Where El Torito has the key bytes, behind the checksum. -/
def KEY : Nat := 30

end MicroNT.Base.Iso9660
