import MicroNT.Base.Bytes
import Mathlib.Data.List.Flatten

/-! # Volumes with a file allocation table

A reader for volumes whose files are chains of clusters: the table says for each
cluster which one comes next, directories list where the chains start. The chains of
12-bit and of 32-bit tables differ only in how an entry of the table is read. -/

namespace MicroNT.Base.Fat

open Bytes

/-! ## Chains -/

/-- What the table says of a cluster. -/
inductive Link where
  /-- Not a cluster of the volume. -/
  | outside
  /-- Free or bad, or its entry is not in the table. -/
  | broken
  | last
  | more (next : Nat)

/-- The clusters that a chain visits, `fuel` at most. -/
def clusters (link : Nat → Link) : Nat → Nat → List Nat
  | 0, _ => []
  | fuel + 1, c =>
    match link c with
    | .outside => []
    | .broken => [c]
    | .last => [c]
    | .more d => c :: clusters link fuel d

/-- The chain comes to its end mark. -/
def ends (link : Nat → Link) : Nat → Nat → Bool
  | 0, _ => false
  | fuel + 1, c =>
    match link c with
    | .outside => false
    | .broken => false
    | .last => true
    | .more d => ends link fuel d

section

variable {link : Nat → Link} {f n m fuel : Nat}

/-- Each of the `n` clusters from `f` on leads to the one after it. -/
def Steps (link : Nat → Link) (f n : Nat) : Prop := ∀ i, i < n → link (f + i) = .more (f + i + 1)

theorem Steps.tail (h : Steps link f (n + 1)) : Steps link (f + 1) n := by
  intro i hi
  rw [show f + 1 + i = f + (i + 1) by omega]
  exact h (i + 1) (by omega)

theorem Steps.clusters (h : Steps link f n) :
    clusters link (n + fuel) f = List.range' f n ++ clusters link fuel (f + n) := by
  induction n generalizing f with
  | zero => rw [Nat.zero_add, List.range'_zero, List.nil_append, Nat.add_zero]
  | succ n ih =>
    have first : link f = .more (f + 1) := h 0 (Nat.succ_pos n)
    rw [show n + 1 + fuel = n + fuel + 1 by omega, Fat.clusters, first]
    simp only [ih h.tail, List.range'_succ, List.cons_append]
    rw [show f + 1 + n = f + (n + 1) by omega]

theorem Steps.ends (h : Steps link f n) : ends link (n + fuel) f = ends link fuel (f + n) := by
  induction n generalizing f with
  | zero => rw [Nat.zero_add, Nat.add_zero]
  | succ n ih =>
    have first : link f = .more (f + 1) := h 0 (Nat.succ_pos n)
    rw [show n + 1 + fuel = n + fuel + 1 by omega, Fat.ends, first]
    simp only [ih h.tail]
    rw [show f + 1 + n = f + (n + 1) by omega]

/-- The `n` clusters from `f` on are a chain of their own. -/
structure Run (link : Nat → Link) (f n : Nat) : Prop where
  pos : 0 < n
  steps : Steps link f (n - 1)
  last : link (f + (n - 1)) = .last

theorem Run.clusters (h : Run link f n) (le : n ≤ fuel) : clusters link fuel f = List.range' f n := by
  obtain ⟨k, rfl⟩ : ∃ k, n = k + 1 := ⟨n - 1, by have := h.pos; omega⟩
  obtain ⟨d, rfl⟩ := Nat.exists_eq_add_of_le le
  have steps : Steps link f k := h.steps
  have last : link (f + k) = .last := h.last
  rw [show k + 1 + d = k + (d + 1) by omega, steps.clusters, Fat.clusters, last,
    List.range'_1_concat]

theorem Run.ends (h : Run link f n) (le : n ≤ fuel) : ends link fuel f = true := by
  obtain ⟨k, rfl⟩ : ∃ k, n = k + 1 := ⟨n - 1, by have := h.pos; omega⟩
  obtain ⟨d, rfl⟩ := Nat.exists_eq_add_of_le le
  have steps : Steps link f k := h.steps
  have last : link (f + k) = .last := h.last
  rw [show k + 1 + d = k + (d + 1) by omega, steps.ends, Fat.ends, last]

/-- A chain that comes to a cluster without an entry visits it and does not end. -/
theorem Steps.broken (h : Steps link f n) (stop : link (f + n) = .broken) (lt : n < fuel) :
    f + n ∈ Fat.clusters link fuel f ∧ Fat.ends link fuel f = false := by
  obtain ⟨d, rfl⟩ := Nat.exists_eq_add_of_lt lt
  rw [Nat.add_assoc, h.clusters, h.ends, Fat.clusters, Fat.ends, stop]
  exact ⟨List.mem_append_right _ List.mem_cons_self, rfl⟩

/-- A chain does not leave clusters that lead to no others. -/
theorem clusters_closed {a b : Nat} (closed : ∀ c d, a ≤ c → c < b → link c = .more d → a ≤ d ∧ d < b)
    (hf : a ≤ f ∧ f < b) : ∀ c ∈ Fat.clusters link fuel f, a ≤ c ∧ c < b := by
  induction fuel generalizing f with
  | zero => exact fun c hc => by cases hc
  | succ fuel ih =>
    intro c hc
    rw [Fat.clusters] at hc
    split at hc
    case h_1 => cases hc
    case h_2 => rwa [List.mem_singleton.mp hc]
    case h_3 => rwa [List.mem_singleton.mp hc]
    case h_4 d next =>
      rcases List.mem_cons.mp hc with rfl | later
      · exact hf
      · exact ih (closed f d hf.1 hf.2 next) c later

theorem mem_clusters_self (h : link f ≠ .outside) (pos : 0 < fuel) : f ∈ Fat.clusters link fuel f := by
  obtain ⟨d, rfl⟩ : ∃ d, fuel = d + 1 := ⟨fuel - 1, by omega⟩
  rw [Fat.clusters]
  split
  case h_1 outside => exact absurd outside h
  case h_2 => exact List.mem_cons_self
  case h_3 => exact List.mem_cons_self
  case h_4 => exact List.mem_cons_self

theorem clusters_outside (h : link f = .outside) : Fat.clusters link fuel f = [] := by
  cases fuel with
  | zero => rfl
  | succ fuel => rw [Fat.clusters, h]

end

/-! ## Directories -/

/-- Entry `i` of a directory. -/
def slot (dir : List Byte) (i : Nat) : List Byte := slice dir (32 * i) 32

def nameOf (e : List Byte) : List Byte := slice e 0 11

def lengthOf (e : List Byte) : Nat := field e 28 4

def isDirectory (e : List Byte) : Bool := (field e 11 1).testBit 4

/-- An entry that is passed over: deleted, a volume label, or of another name. -/
def Skipped (name e : List Byte) : Prop :=
  field e 0 1 = 0xE5 ∨ (field e 11 1).testBit 3 = true ∨ nameOf e ≠ name

instance (name e : List Byte) : Decidable (Skipped name e) := inferInstanceAs (Decidable (_ ∨ _ ∨ _))

/-- The first of `n` entries from `i` on that has the name. A zero byte in place of a
name ends the directory. -/
def lookup (name dir : List Byte) : Nat → Nat → Option (List Byte)
  | 0, _ => none
  | n + 1, i =>
    if field (slot dir i) 0 1 = 0 then none
    else if Skipped name (slot dir i) then lookup name dir n (i + 1)
    else some (slot dir i)

def findEntry (name dir : List Byte) : Option (List Byte) := lookup name dir (dir.length / 32) 0

section

variable {name dir e : List Byte} {n i k : Nat}

theorem lookup_of (before : ∀ j, i ≤ j → j < i + k →
      field (slot dir j) 0 1 ≠ 0 ∧ Skipped name (slot dir j))
    (used : field (slot dir (i + k)) 0 1 ≠ 0) (hit : ¬ Skipped name (slot dir (i + k))) (hk : k < n) :
    lookup name dir n i = some (slot dir (i + k)) := by
  induction k generalizing i n with
  | zero =>
    obtain ⟨n, rfl⟩ : ∃ m, n = m + 1 := ⟨n - 1, by omega⟩
    rw [Nat.add_zero] at used hit ⊢
    rw [lookup, if_neg used, if_neg hit]
    rfl
  | succ k ih =>
    obtain ⟨n, rfl⟩ : ∃ m, n = m + 1 := ⟨n - 1, by omega⟩
    obtain ⟨here, skipped⟩ := before i (Nat.le_refl i) (by omega)
    rw [lookup, if_neg here, if_pos skipped]
    rw [show i + (k + 1) = i + 1 + k by omega] at used hit ⊢
    exact ih (fun j hj hlt => before j (by omega) (by omega)) used hit (by omega)

/-- **An entry is found** behind entries of other names. -/
theorem findEntry_of (before : ∀ j, j < k → field (slot dir j) 0 1 ≠ 0 ∧ Skipped name (slot dir j))
    (used : field (slot dir k) 0 1 ≠ 0) (hit : ¬ Skipped name (slot dir k))
    (inside : 32 * (k + 1) ≤ dir.length) : findEntry name dir = some (slot dir k) := by
  have start : 0 + k = k := Nat.zero_add k
  have found : lookup name dir (dir.length / 32) 0 = some (slot dir (0 + k)) :=
    lookup_of (fun j _ hj => before j (by rwa [start] at hj)) (by rwa [start]) (by rwa [start])
      (by omega)
  rwa [start] at found

theorem lookup_some (h : lookup name dir n i = some e) :
    field e 0 1 ≠ 0 ∧ field e 0 1 ≠ 0xE5 ∧ nameOf e = name := by
  induction n generalizing i with
  | zero => cases h
  | succ n ih =>
    rw [lookup] at h
    split at h
    case isTrue => cases h
    case isFalse used =>
      split at h
      case isTrue => exact ih h
      case isFalse hit =>
        obtain rfl := Option.some.inj h
        simp only [Skipped, not_or, not_not] at hit
        exact ⟨used, hit.1, hit.2.2⟩

/-- What is found is in use and has the name. -/
theorem findEntry_some (h : findEntry name dir = some e) :
    field e 0 1 ≠ 0 ∧ field e 0 1 ≠ 0xE5 ∧ nameOf e = name := lookup_some h

end

/-! ## Directories row by row -/

/-- The writes that put entries into the rows from `k` on. -/
def rows : Nat → List (List Byte) → List (Nat × List Byte)
  | _, [] => []
  | k, e :: es => (32 * k, e) :: rows (k + 1) es

section

variable {name dir e : List Byte} {es pre post : List (List Byte)} {n i k : Nat}

theorem rows_append (pre post : List (List Byte)) :
    rows k (pre ++ post) = rows k pre ++ rows (k + pre.length) post := by
  induction pre generalizing k with
  | nil => rfl
  | cons e pre ih =>
    rw [List.cons_append, rows, rows, ih, List.cons_append, List.length_cons, Nat.add_assoc,
      Nat.add_comm 1]

theorem mem_rows (h : es[i]? = some e) : (32 * (k + i), e) ∈ rows k es := by
  induction es generalizing i k with
  | nil => cases h
  | cons x es ih =>
    cases i with
    | zero =>
      obtain rfl := Option.some.inj h
      exact List.mem_cons_self
    | succ i =>
      have later := ih (k := k + 1) (i := i) h
      rw [Nat.add_assoc, Nat.add_comm 1] at later
      exact List.mem_cons_of_mem _ later

theorem spans_rows (len : ∀ x ∈ es, x.length = 32) {s : Nat × Nat} (hs : s ∈ spans (rows k es)) :
    32 * k ≤ s.1 ∧ s.1 + s.2 ≤ 32 * (k + es.length) := by
  induction es generalizing k with
  | nil => cases hs
  | cons x es ih =>
    rw [List.length_cons]
    rcases List.mem_cons.mp hs with rfl | later
    · have row := len x List.mem_cons_self
      simp only [row]
      omega
    · have := ih (fun y hy => len y (List.mem_cons_of_mem _ hy)) later
      omega

theorem laid_rows (len : ∀ x ∈ es, x.length = 32) (h : 32 * (k + es.length) ≤ n) :
    Laid n (spans (rows k es)) := by
  refine ⟨?_, fun s hs => Nat.le_trans (spans_rows len hs).2 h⟩
  induction es generalizing k with
  | nil => exact List.Pairwise.nil
  | cons x es ih =>
    have rest : ∀ y ∈ es, y.length = 32 := fun y hy => len y (List.mem_cons_of_mem _ hy)
    rw [List.length_cons] at h
    refine List.pairwise_cons.mpr ⟨fun s hs => .inl ?_, ih rest (by omega)⟩
    have above := (spans_rows rest hs).1
    have row := len x List.mem_cons_self
    simp only [row]
    omega

/-- The directory with these entries, in `n` bytes. -/
def directory (n : Nat) (es : List (List Byte)) : List Byte := putAll (zeros n) (rows 0 es)

theorem length_directory (len : ∀ x ∈ es, x.length = 32) (fits : 32 * es.length ≤ n) :
    (directory n es).length = n := by
  have laid : Laid (zeros n).length (spans (rows 0 es)) := by
    rw [length_zeros]
    exact laid_rows len (by omega)
  rw [directory, length_putAll laid, length_zeros]

theorem slot_directory (len : ∀ x ∈ es, x.length = 32) (fits : 32 * es.length ≤ n)
    (h : es[i]? = some e) : slot (directory n es) i = e := by
  have laid : Laid (zeros n).length (spans (rows 0 es)) := by
    rw [length_zeros]
    exact laid_rows len (by omega)
  have row := mem_rows (k := 0) h
  have there := slice_putAll laid row
  rw [Nat.zero_add, len e (List.mem_of_getElem? h)] at there
  exact there

/-- An entry of another name is passed over. -/
theorem skipped_of (h : nameOf e ≠ name) : Skipped name e := .inr (.inr h)

theorem first_eq : field e 0 1 = field (nameOf e) 0 1 := by
  rw [nameOf, field_slice (by omega)]

/-- The name in the first eleven bytes of an entry. -/
theorem nameOf_putAll {ws : List (Nat × List Byte)} {b x : List Byte} (h : Laid b.length (spans ws))
    (hn : (0, name) ∈ ws) (hx : (8, x) ∈ ws) (base : name.length = 8) (ext : x.length = 3) :
    nameOf (putAll b ws) = name ++ x := by
  have first := slice_putAll h hn
  have second := slice_putAll h hx
  rw [base] at first
  rw [ext] at second
  rw [nameOf, show 11 = 8 + 3 from rfl, slice_add, first, second]

/-- **An entry is found in its row** if those before it are in use and have other names. -/
theorem findEntry_directory (len : ∀ x ∈ pre ++ e :: post, x.length = 32)
    (fits : 32 * (pre ++ e :: post).length ≤ n)
    (before : ∀ x ∈ pre, field x 0 1 ≠ 0 ∧ Skipped name x) (used : field e 0 1 ≠ 0)
    (hit : ¬ Skipped name e) : findEntry name (directory n (pre ++ e :: post)) = some e := by
  have here : (pre ++ e :: post)[pre.length]? = some e := by
    rw [List.getElem?_append_right (Nat.le_refl _), Nat.sub_self, List.getElem?_cons_zero]
  have at_ := slot_directory len fits here
  have count : pre.length + 1 ≤ (pre ++ e :: post).length := by
    rw [List.length_append, List.length_cons]
    omega
  have found : findEntry name (directory n (pre ++ e :: post)) =
      some (slot (directory n (pre ++ e :: post)) pre.length) := by
    refine findEntry_of (fun j hj => ?_) (by rwa [at_]) (by rwa [at_]) ?_
    · have row : (pre ++ e :: post)[j]? = some pre[j] := by
        rw [List.getElem?_append_left hj, List.getElem?_eq_getElem hj]
      rw [slot_directory len fits row]
      exact before _ (List.getElem_mem hj)
    · rw [length_directory len fits]
      omega
  rwa [at_] at found

end

/-! ## Volumes -/

structure Volume where
  image : List Byte
  /-- Where the clusters start, the first of them being number 2. -/
  dataStart : Nat
  clusterBytes : Nat
  count : Nat
  link : Nat → Link
  /-- The first cluster that a directory entry names. -/
  first : List Byte → Nat

namespace Volume

def cluster (v : Volume) (c : Nat) : List Byte :=
  slice v.image (v.dataStart + (c - 2) * v.clusterBytes) v.clusterBytes

/-- The clusters of the chain from `c` on: no chain is longer than the volume. -/
def chain (v : Volume) (c : Nat) : List Nat := clusters v.link v.count c

/-- The bytes of a chain, which has to have an end. -/
def chainBytes (v : Volume) (c : Nat) : Option (List Byte) :=
  if ends v.link v.count c then some ((v.chain c).flatMap v.cluster) else none

/-- The entry that a path leads to from a directory. -/
def find (v : Volume) : List Byte → List (List Byte) → Option (List Byte)
  | _, [] => none
  | dir, [name] => findEntry name dir
  | dir, name :: next :: rest =>
    (findEntry name dir).bind fun e =>
      if isDirectory e then (v.chainBytes (v.first e)).bind fun d => v.find d (next :: rest) else none

/-- The bytes of a file: the first ones of its chain, as many as its entry says. -/
def read (v : Volume) (e : List Byte) : Option (List Byte) :=
  if isDirectory e then none
  else if lengthOf e = 0 then some []
  else (v.chainBytes (v.first e)).bind fun b =>
    if lengthOf e ≤ b.length then some (b.take (lengthOf e)) else none

/-- The path leads from `root` to a file with exactly these bytes. -/
def Holds (v : Volume) (root : List Byte) (path : List (List Byte)) (data : List Byte) : Prop :=
  ∃ e, v.find root path = some e ∧ v.read e = some data ∧ lengthOf e = data.length

/-- The clusters of the file or directory that a path leads to. -/
def clustersOf (v : Volume) (root : List Byte) (path : List (List Byte)) : List Nat :=
  ((v.find root path).map fun e => v.chain (v.first e)).getD []

variable {v : Volume} {f n : Nat} {e data : List Byte}

/-- Clusters in a row are bytes in a row. -/
theorem flatMap_cluster (hf : 2 ≤ f) :
    (List.range' f n).flatMap v.cluster =
      slice v.image (v.dataStart + (f - 2) * v.clusterBytes) (n * v.clusterBytes) := by
  induction n generalizing f with
  | zero => rw [List.range'_zero, List.flatMap_nil, Nat.zero_mul, slice_zero]
  | succ n ih =>
    have shift : v.dataStart + (f + 1 - 2) * v.clusterBytes =
        v.dataStart + (f - 2) * v.clusterBytes + v.clusterBytes := by
      rw [show f + 1 - 2 = f - 2 + 1 by omega, Nat.add_mul, Nat.one_mul, Nat.add_assoc]
    rw [List.range'_succ, List.flatMap_cons, ih (by omega), shift, cluster, ← slice_add,
      Nat.add_mul, Nat.one_mul, Nat.add_comm (n * v.clusterBytes)]

theorem chainBytes_run (h : Run v.link f n) (le : n ≤ v.count) (hf : 2 ≤ f) :
    v.chainBytes f =
      some (slice v.image (v.dataStart + (f - 2) * v.clusterBytes) (n * v.clusterBytes)) := by
  rw [chainBytes, chain, h.ends le, if_pos rfl, h.clusters le, flatMap_cluster hf]

/-- **A file whose clusters are in a row** and hold its bytes is read back. -/
theorem read_run (h : Run v.link (v.first e) n) (le : n ≤ v.count) (hf : 2 ≤ v.first e)
    (file : isDirectory e = false) (size : lengthOf e = data.length)
    (fits : data.length ≤ n * v.clusterBytes)
    (inside : v.dataStart + (v.first e - 2) * v.clusterBytes + n * v.clusterBytes ≤ v.image.length)
    (bytes : slice v.image (v.dataStart + (v.first e - 2) * v.clusterBytes) data.length = data) :
    v.read e = some data := by
  rw [read, if_neg (by rw [file]; exact Bool.false_ne_true), size]
  split
  case isTrue empty => rw [List.eq_nil_of_length_eq_zero empty]
  case isFalse =>
    rw [chainBytes_run h le hf, Option.bind_some, length_slice inside, if_pos fits, take_slice fits,
      bytes]

theorem read_empty (file : isDirectory e = false) (size : lengthOf e = 0) : v.read e = some [] := by
  rw [read, if_neg (by rw [file]; exact Bool.false_ne_true), if_pos size]

/-- A chain without an end gives no bytes to a file that has some. -/
theorem read_broken (h : ends v.link v.count (v.first e) = false) (size : lengthOf e ≠ 0) :
    v.read e = none := by
  rw [read, if_neg size, chainBytes, h]
  split
  case isTrue => rfl
  case isFalse => rfl

theorem find_cons {dir d name next : List Byte} {rest : List (List Byte)}
    (entry : findEntry name dir = some e) (directory : isDirectory e = true)
    (bytes : v.chainBytes (v.first e) = some d) :
    v.find dir (name :: next :: rest) = v.find d (next :: rest) := by
  rw [find, entry, Option.bind_some, if_pos directory, bytes, Option.bind_some]

theorem clustersOf_some {root : List Byte} {path : List (List Byte)} (h : v.find root path = some e) :
    v.clustersOf root path = v.chain (v.first e) := by
  rw [clustersOf, h]
  rfl

end Volume

/-! ## The parameter block -/

/-- The parameters of a volume, from its first sector. -/
structure Bpb where
  bytesPerSector : Nat
  sectorsPerCluster : Nat
  reserved : Nat
  fats : Nat
  rootEntries : Nat
  totalSectors : Nat
  fatSectors : Nat

/-- The 16-bit fields are 0 where the 32-bit ones are to be used. -/
def bpb (image : List Byte) : Bpb where
  bytesPerSector := field image 11 2
  sectorsPerCluster := field image 13 1
  reserved := field image 14 2
  fats := field image 16 1
  rootEntries := field image 17 2
  totalSectors := if field image 19 2 = 0 then field image 32 4 else field image 19 2
  fatSectors := if field image 22 2 = 0 then field image 36 4 else field image 22 2

/-- All of them are in the first 40 bytes. -/
theorem bpb_slice {image : List Byte} {n : Nat} (h : 40 ≤ n) : bpb (slice image 0 n) = bpb image := by
  have inside (off w : Nat) (hw : off + w ≤ 40) : field (slice image 0 n) off w = field image off w := by
    rw [field_slice (Nat.le_trans hw h), Nat.zero_add]
  simp only [bpb, inside 11 2 (by decide), inside 13 1 (by decide), inside 14 2 (by decide),
    inside 16 1 (by decide), inside 17 2 (by decide), inside 19 2 (by decide),
    inside 22 2 (by decide), inside 32 4 (by decide), inside 36 4 (by decide)]

namespace Bpb

def fatBytes (p : Bpb) : Nat := p.fatSectors * p.bytesPerSector

/-- Copy `k` of the table. -/
def fat (p : Bpb) (image : List Byte) (k : Nat) : List Byte :=
  slice image (p.reserved * p.bytesPerSector + k * p.fatBytes) p.fatBytes

/-- The sector behind the copies of the table. -/
def rootSector (p : Bpb) : Nat := p.reserved + p.fats * p.fatSectors

def dataSector (p : Bpb) : Nat :=
  p.rootSector + (p.rootEntries * 32 + p.bytesPerSector - 1) / p.bytesPerSector

def count (p : Bpb) : Nat := (p.totalSectors - p.dataSector) / p.sectorsPerCluster

/-- What an entry of the table means; from `mark` on it is the end of a chain. -/
def link (p : Bpb) (mark : Nat) (entry : Nat → Option Nat) (c : Nat) : Link :=
  if c < 2 ∨ p.count + 2 ≤ c then .outside
  else
    match entry c with
    | none => .broken
    | some 0 => .broken
    | some (v + 1) => if mark ≤ v + 1 then .last else if v + 2 = mark then .broken else .more (v + 1)

def volume (p : Bpb) (image : List Byte) (mark : Nat) (entry : Nat → Option Nat)
    (first : List Byte → Nat) : Volume where
  image := image
  dataStart := p.dataSector * p.bytesPerSector
  clusterBytes := p.sectorsPerCluster * p.bytesPerSector
  count := p.count
  link := p.link mark entry
  first := first

variable {p : Bpb} {mark c d : Nat} {entry : Nat → Option Nat}

theorem link_more (inside : 2 ≤ c ∧ c < p.count + 2) (h : entry c = some d) (pos : 0 < d)
    (low : d + 1 < mark) : p.link mark entry c = .more d := by
  obtain ⟨v, rfl⟩ : ∃ v, d = v + 1 := ⟨d - 1, by omega⟩
  rw [link, if_neg (by omega), h]
  simp only [if_neg (show ¬ mark ≤ v + 1 by omega), if_neg (show ¬ v + 2 = mark by omega)]

theorem link_last (inside : 2 ≤ c ∧ c < p.count + 2) (h : entry c = some d) (pos : 0 < d)
    (high : mark ≤ d) : p.link mark entry c = .last := by
  obtain ⟨v, rfl⟩ : ∃ v, d = v + 1 := ⟨d - 1, by omega⟩
  rw [link, if_neg (by omega), h]
  simp only [if_pos high]

theorem link_none (inside : 2 ≤ c ∧ c < p.count + 2) (h : entry c = none) :
    p.link mark entry c = .broken := by
  rw [link, if_neg (by omega), h]

theorem link_inside (inside : 2 ≤ c ∧ c < p.count + 2) : p.link mark entry c ≠ .outside := by
  rw [link, if_neg (by omega)]
  split
  case h_1 => simp
  case h_2 => simp
  case h_3 =>
    split
    case isTrue => simp
    case isFalse => split <;> simp

theorem link_outside (h : p.count + 2 ≤ c) : p.link mark entry c = .outside := by
  rw [link, if_pos (.inr h)]

end Bpb

/-! ## Tables of 12 and of 32 bits -/

/-- Entry `c` of a table that packs two entries into three bytes: the low 12 bits of
the two bytes it lies in, or their high 12 bits. -/
def packed (table : List Byte) (c : Nat) : BitVec 12 :=
  let word := table.getD (c * 3 / 2 + 1) 0 ++ table.getD (c * 3 / 2) 0
  if c % 2 = 0 then word.extractLsb' 0 12 else word.extractLsb' 4 12

/-- Both bytes of entry `c` are in the table. -/
def Packs (bytes c : Nat) : Prop := c * 3 / 2 + 1 < bytes

instance (bytes c : Nat) : Decidable (Packs bytes c) := inferInstanceAs (Decidable (_ < _))

def entry12 (table : List Byte) (c : Nat) : Option Nat :=
  if Packs table.length c then some (packed table c).toNat else none

def entry32 (table : List Byte) (c : Nat) : Option Nat :=
  if c * 4 + 4 ≤ table.length then some (field table (c * 4) 4 % 0x10000000) else none

/-- The volume of an image with a 12-bit table. -/
def fat12 (image : List Byte) : Volume :=
  (bpb image).volume image 0xFF8 (entry12 ((bpb image).fat image 0)) fun e => field e 26 2

theorem link_fat12 (image : List Byte) (c : Nat) :
    (fat12 image).link c = (bpb image).link 0xFF8 (entry12 ((bpb image).fat image 0)) c := rfl

theorem first_fat12 (image e : List Byte) : (fat12 image).first e = field e 26 2 := rfl

/-- Its root directory, which lies in front of the clusters. -/
def root12 (image : List Byte) : List Byte :=
  slice image ((bpb image).rootSector * (bpb image).bytesPerSector) ((bpb image).rootEntries * 32)

/-- The volume of an image with a 32-bit table, 28 bits of each entry in use. -/
def fat32 (image : List Byte) : Volume :=
  (bpb image).volume image 0xFFFFFF8 (entry32 ((bpb image).fat image 0))
    fun e => field e 20 2 * 0x10000 + field e 26 2

theorem image_fat32 (image : List Byte) : (fat32 image).image = image := rfl

theorem first_fat32 (image e : List Byte) :
    (fat32 image).first e = field e 20 2 * 0x10000 + field e 26 2 := rfl

/-- Its root directory, which is a chain. -/
def rootCluster (image : List Byte) : Nat := field image 44 4

end MicroNT.Base.Fat
