import MicroNT.Base.Iso9660
import MicroNT.IsoRoundTrip
import MicroNT.VhdImage
import Mathlib.Data.List.Forall2

/-! # The CD image (tools/mkiso.py)

`main` puts the ESP on a CD: an ISO 9660 volume with the kernel, and a boot catalog that
leads to the ESP. Here is the builder and what the readers of both find. -/

namespace MicroNT.Mkiso

open Base.Bytes Base.Fat Base.Iso9660
open MicroNT.Mkdisk (EfiFault assert)

/-! ## The builder -/

def LBA_PVD : Nat := 16
def LBA_BOOT_CAT : Nat := 19
def LBA_PATH_TABLE : Nat := 20
def LBA_ROOT_DIR : Nat := 21
def LBA_EFI_DIR : Nat := 22
def LBA_EFI_BOOT : Nat := 23
def LBA_BOOT_DIR : Nat := 24
def LBA_ESP : Nat := 25

def DIR_SIZE : Nat := ISO_SECTOR

def DATE7 : List Byte := [125, 1, 1, 0, 0, 0, 0]
def DATE17 : List Byte := ascii "20250101000000" ++ ascii "00" ++ [0x00]

/-- A number in both byte orders. -/
def packBoth (w n : Nat) : Option (List Byte) := do
  let little ← pack w n
  let big ← packBe w n
  some (little ++ big)

def b16 (n : Nat) : Option (List Byte) := packBoth 2 n

def b32 (n : Nat) : Option (List Byte) := packBoth 4 n

def isoSectors (size : Nat) : Nat := (size + ISO_SECTOR - 1) / ISO_SECTOR

def dirrec (name : List Byte) (lba size : Nat) (is_dir : Bool) : Option (List Byte) := do
  let flags : Byte := if is_dir then 0x02 else 0x00
  let pad_fi : List Byte := if name.length % 2 = 0 then [0x00] else []
  let dr_len ← pack 1 (33 + name.length + pad_fi.length)
  let lba ← b32 lba
  let size ← b32 size
  let volume ← b16 1
  let name_len ← pack 1 name.length
  some (dr_len ++ [0] ++ lba ++ size ++ DATE7 ++ [flags, 0, 0] ++ volume ++ name_len ++ name ++ pad_fi)

/-- A name, where it is, its size, and whether it is a directory. -/
abbrev Child := List Byte × Nat × Nat × Bool

def dirExtent (self_lba parent_lba : Nat) (children : List Child) : Option (List Byte) := do
  let self ← dirrec [0x00] self_lba DIR_SIZE true
  let parent ← dirrec [0x01] parent_lba DIR_SIZE true
  let data ← children.mapM fun (name, lba, size, is_dir) => dirrec name lba size is_dir
  some (padTo (self ++ parent ++ data.flatten) ISO_SECTOR)

def pathRecord (name : List Byte) (lba parent : Nat) : Option (List Byte) := do
  let pad_name : List Byte := if name.length % 2 = 0 then [] else [0x00]
  let name_len ← pack 1 name.length
  let lba ← pack 4 lba
  let parent ← pack 2 parent
  some (name_len ++ [0] ++ lba ++ parent ++ name ++ pad_name)

def buildPathTable (entries : List (List Byte × Nat × Nat)) : Option (List Byte × Nat) := do
  let raw ← entries.mapM fun (name, lba, parent) => pathRecord name lba parent
  some (padTo raw.flatten ISO_SECTOR, raw.flatten.length)

/-- The validation entry before its checksum. -/
def validation : List Byte := putAll (zeros 32) [(0, [0x01]), (1, [0xEF]), (28, [0x55]), (29, [0xAA])]

/-- `sum(val[i] | (val[i+1] << 8) ...)` -/
def orSum : List Byte → Nat
  | a :: b :: rest => (a.toNat ||| b.toNat <<< 8) + orSum rest
  | _ => 0

def bootCatalog (esp_lba esp_iso_sectors : Nat) : Option (List Byte) := do
  let sub := orSum validation &&& 0xFFFF
  let ck := (0x10000 - sub) &&& 0xFFFF
  let val := putAll validation [(30, leBytes 1 (ck &&& 0xFF)), (31, leBytes 1 (ck >>> 8))]
  let virt_sectors ← pack 2 (esp_iso_sectors * (ISO_SECTOR / FAT_SECTOR))
  let esp_lba ← pack 4 esp_lba
  let init := putAll (zeros 32) [(0, [0x88]), (1, [0x00]), (6, virt_sectors), (8, esp_lba)]
  let shdr := putAll (zeros 32) [(0, [0x91]), (1, [0xEF]), (2, leBytes 2 1)]
  let sent := putAll (zeros 32) [(0, [0x88]), (1, [0x00]), (6, virt_sectors), (8, esp_lba)]
  some (padTo (val ++ init ++ shdr ++ sent) ISO_SECTOR)

def spaces (n : Nat) : List Byte := List.replicate n 0x20

/-- The primary volume descriptor, around what depends on the volume. -/
def pvdWrites (total path_size path_l path_m block rr one : List Byte) : List (Nat × List Byte) :=
  [(0, [0x01]), (1, ascii "CD001"), (6, [0x01]), (8, ascii "MICRONT" ++ spaces 25),
    (40, ascii "MICRONT" ++ spaces 25), (80, total), (120, one), (124, one), (128, block),
    (132, path_size), (140, path_l), (148, path_m), (156, rr), (190, spaces 128),
    (318, spaces 128), (446, spaces 128), (574, ascii "MICRONT MKISO" ++ spaces 115),
    (702, spaces 37), (739, spaces 36), (775, spaces 37), (812, DATE17), (829, DATE17),
    (846, zeros 17), (863, DATE17), (880, [0x01])]

def buildPvd (total_sectors root_lba path_lba path_size : Nat) : Option (List Byte) := do
  let total ← b32 total_sectors
  let one ← b16 1
  let block ← b16 ISO_SECTOR
  let size ← b32 path_size
  let path_l ← pack 4 path_lba
  let path_m ← packBe 4 path_lba
  let rr ← dirrec [0x00] root_lba DIR_SIZE true
  assert (rr.length = 34)
  some (putAll (zeros ISO_SECTOR) (pvdWrites total size path_l path_m block rr one))

def buildEltoritoVd (catalog_lba : Nat) : Option (List Byte) := do
  let catalog ← pack 4 catalog_lba
  some (putAll (zeros ISO_SECTOR)
    [(0, [0x00]), (1, ascii "CD001"), (6, [0x01]), (7, ascii "EL TORITO SPECIFICATION"),
      (71, catalog)])

def buildTerminator : List Byte :=
  putAll (zeros ISO_SECTOR) [(0, [0xFF]), (1, ascii "CD001"), (6, [0x01])]

/-- The checks are those of `verify_efi` in mkdisk.py. -/
abbrev verifyEfiPe (data : List Byte) : Except EfiFault Unit := Mkdisk.verifyEfi data

def ptEntries : List (List Byte × Nat × Nat) :=
  [([0x00], LBA_ROOT_DIR, 1), (ascii "BOOT", LBA_BOOT_DIR, 1), (ascii "EFI", LBA_EFI_DIR, 1),
    (ascii "BOOT", LBA_EFI_BOOT, 3)]

/-- What `main` asserts before it writes the image. -/
def checked (image : List Byte) (total_sectors : Nat) : Option (List Byte) := do
  assert (image.length % ISO_SECTOR = 0)
  assert (image.length / ISO_SECTOR = total_sectors)
  some image

/-- `main`: the bytes of the file, or nothing where the boot loader is refused or the builder
raises. -/
def mkiso (efi_data elf_data : List Byte) : Option (List Byte) :=
  match verifyEfiPe efi_data with
  | .error _ => none
  | .ok _ => do
    let esp_data ← buildFat12Esp efi_data elf_data
    let esp_iso_secs := esp_data.length / ISO_SECTOR
    let elf_lba := LBA_ESP + esp_iso_secs
    let total_sectors := elf_lba + isoSectors elf_data.length
    let (pt_data, pt_size) ← buildPathTable ptEntries
    let root_extent ← dirExtent LBA_ROOT_DIR LBA_ROOT_DIR
      [(ascii "BOOT", LBA_BOOT_DIR, DIR_SIZE, true), (ascii "EFI", LBA_EFI_DIR, DIR_SIZE, true)]
    let efi_extent ← dirExtent LBA_EFI_DIR LBA_ROOT_DIR
      [(ascii "BOOT", LBA_EFI_BOOT, DIR_SIZE, true)]
    let efi_boot_extent ← dirExtent LBA_EFI_BOOT LBA_EFI_DIR []
    let boot_extent ← dirExtent LBA_BOOT_DIR LBA_ROOT_DIR
      [(ascii "MICRONT.ELF;1", elf_lba, elf_data.length, false)]
    let pvd ← buildPvd total_sectors LBA_ROOT_DIR LBA_PATH_TABLE pt_size
    let vd ← buildEltoritoVd LBA_BOOT_CAT
    let catalog ← bootCatalog LBA_ESP esp_iso_secs
    let image := zeros (LBA_PVD * ISO_SECTOR) ++ pvd ++ vd ++ buildTerminator ++ catalog ++
      pt_data ++ root_extent ++ efi_extent ++ efi_boot_extent ++ boot_extent ++ esp_data ++
      padTo elf_data ISO_SECTOR
    checked image total_sectors

/-! ## Its parts -/

def padName (name : List Byte) : List Byte := if name.length % 2 = 0 then [0x00] else []

def recordParts (name : List Byte) (lba size : Nat) (is_dir : Bool) : List (List Byte) :=
  [leBytes 1 (33 + name.length + (padName name).length), [0], bothBytes 4 lba, bothBytes 4 size,
    DATE7, [if is_dir then 0x02 else 0x00], [0, 0], bothBytes 2 1,
    leBytes 1 name.length, name, padName name]

/-- A directory record, of numbers that fit. -/
def recordBytes (name : List Byte) (lba size : Nat) (is_dir : Bool) : List Byte :=
  (recordParts name lba size is_dir).flatten

section

variable {name : List Byte} {w n lba size : Nat} {is_dir : Bool}

theorem packBoth_of_lt (h : n < 256 ^ w) : packBoth w n = some (bothBytes w n) := by
  rw [packBoth, pack_of_lt h, packBe_of_lt h]
  rfl

theorem length_padName : (padName name).length = (name.length + 1) % 2 := by
  unfold padName
  split
  · simp only [List.length_singleton]
    omega
  · simp only [List.length_nil]
    omega

@[simp] theorem length_recordBytes : (recordBytes name lba size is_dir).length =
    33 + name.length + (name.length + 1) % 2 := by
  simp [recordBytes, recordParts, length_padName, DATE7]
  omega

theorem dirrec_of_lt (short : name.length < 222) (hl : lba < 256 ^ 4) (hs : size < 256 ^ 4) :
    dirrec name lba size is_dir = some (recordBytes name lba size is_dir) := by
  have len : 33 + name.length + (padName name).length < 256 ^ 1 := by
    rw [length_padName]
    omega
  have one : 1 < 256 ^ 2 := by decide
  have word : name.length < 256 ^ 1 := by omega
  unfold dirrec
  simp only [← padName.eq_1, pack_of_lt len, pack_of_lt word, b32, b16, packBoth_of_lt hl,
    packBoth_of_lt hs, packBoth_of_lt one, Option.bind_eq_bind, Option.bind_some]
  simp [recordBytes, recordParts]

/-- **A directory record is read back**. -/
theorem reads_record (short : name.length < 222) (hl : lba < 256 ^ 4) (hs : size < 256 ^ 4) :
    Reads readRecord unused (recordBytes name lba size is_dir) ⟨lba, size, is_dir, name⟩ := by
  intro rest
  have all : recordBytes name lba size is_dir ++ rest =
      (recordParts name lba size is_dir ++ [rest]).flatten := by
    simp [recordBytes]
  have len : (recordBytes name lba size is_dir).length =
      33 + name.length + (padName name).length := by
    rw [length_recordBytes, length_padName]
  have behind : (recordBytes name lba size is_dir ++ rest).drop
      (33 + name.length + (padName name).length) = rest := List.drop_left' len
  have part {i off n : Nat} {p : List Byte}
      (h : (recordParts name lba size is_dir ++ [rest])[i]? = some p)
      (before : ((recordParts name lba size is_dir ++ [rest]).take i).flatten.length = off)
      (len : p.length = n) : slice (recordBytes name lba size is_dir ++ rest) off n = p := by
    rw [all]
    exact slice_flatten h before len
  have pad : (padName name).length ≤ 1 := by
    rw [length_padName]
    omega
  generalize hb : recordBytes name lba size is_dir ++ rest = b at part behind
  have dr_len : field b 0 1 = 33 + name.length + (padName name).length :=
    field_of_slice (part (i := 0) rfl rfl length_leBytes) (by omega)
  have name_len : field b 32 1 = name.length :=
    field_of_slice (part (i := 8) rfl rfl length_leBytes) (by omega)
  have extent : both b 2 4 = some lba :=
    both_of_slice (part (i := 2) rfl rfl length_bothBytes) hl
  have bytes : both b 10 4 = some size :=
    both_of_slice (part (i := 3) rfl rfl length_bothBytes) hs
  have flags : slice b 25 1 = [if is_dir then 0x02 else 0x00] := part (i := 5) rfl rfl rfl
  have directory : (field b 25 1).testBit 1 = is_dir := by
    rw [field, flags]
    cases is_dir <;> rfl
  have text : slice b 33 name.length = name := part (i := 9) rfl rfl rfl
  have whole : 33 + name.length ≤ 33 + name.length + (padName name).length ∧
      33 + name.length + (padName name).length ≤ b.length := by
    simp [← hb, length_padName]
  constructor
  · simp [unused, dr_len]
  · simp only [readRecord, dr_len, name_len, if_pos whole, extent, bytes, directory, text, behind,
      Option.bind_eq_bind, Option.bind_some]

end

/-! ## Directories -/

section

variable {α β : Type} {f : α → Option β} {g : α → β} {l : List α}

theorem bind_some_of {x : Option α} {a : α} (h : x = some a) : (x >>= f) = f a := by
  rw [h]
  rfl

theorem mapM_of (h : ∀ x ∈ l, f x = some (g x)) : l.mapM f = some (l.map g) := by
  induction l with
  | nil => rfl
  | cons x l ih =>
    rw [List.mapM_cons, h x List.mem_cons_self, ih fun y hy => h y (List.mem_cons_of_mem x hy)]
    rfl

theorem padTo_eq (data : List Byte) (n : Nat) : ∃ k, padTo data n = data ++ zeros k := by
  simp only [padTo]
  split
  · exact ⟨_, rfl⟩
  · exact ⟨0, rfl⟩

theorem length_padTo (data : List Byte) :
    (padTo data ISO_SECTOR).length = isoSectors data.length * ISO_SECTOR := by
  have size : ISO_SECTOR = 2048 := rfl
  simp only [padTo, isoSectors, List.length_append]
  by_cases whole : data.length % ISO_SECTOR = 0
  · rw [if_neg (not_not_intro whole), List.length_nil]
    rw [size] at whole ⊢
    omega
  · rw [if_pos whole, length_zeros]
    rw [size] at whole ⊢
    omega

end

section

variable {image : List Byte} {s p : Nat} {cs : List Child} {c : Child} {name up : List Byte}

/-- The name is short and the numbers fit. -/
def Child.Fits (c : Child) : Prop := c.1.length < 222 ∧ c.2.1 < 256 ^ 4 ∧ c.2.2.1 < 256 ^ 4

def Child.bytes (c : Child) : List Byte := recordBytes c.1 c.2.1 c.2.2.1 c.2.2.2

def Child.record (c : Child) : Record := ⟨c.2.1, c.2.2.1, c.2.2.2, c.1⟩

/-- The records of an extent: its own, that of its parent and the children. -/
def extentChildren (s p : Nat) (cs : List Child) : List Child :=
  ([0x00], s, DIR_SIZE, true) :: ([0x01], p, DIR_SIZE, true) :: cs

def extentBytes (s p : Nat) (cs : List Child) : List Byte :=
  padTo ((extentChildren s p cs).map Child.bytes).flatten ISO_SECTOR

theorem extentChildren_fit (hs : s < 256 ^ 4) (hp : p < 256 ^ 4) (h : ∀ c ∈ cs, Child.Fits c) :
    ∀ c ∈ extentChildren s p cs, Child.Fits c := by
  intro c hc
  have size : DIR_SIZE < 256 ^ 4 := by decide
  simp only [extentChildren, List.mem_cons] at hc
  rcases hc with rfl | rfl | hc
  · exact ⟨Nat.succ_lt_succ (Nat.succ_pos _), hs, size⟩
  · exact ⟨Nat.succ_lt_succ (Nat.succ_pos _), hp, size⟩
  · exact h c hc

theorem dirExtent_of_fits (hs : s < 256 ^ 4) (hp : p < 256 ^ 4) (h : ∀ c ∈ cs, Child.Fits c) :
    dirExtent s p cs = some (extentBytes s p cs) := by
  have size : DIR_SIZE < 256 ^ 4 := by decide
  have children : cs.mapM (fun (name, lba, size, is_dir) => dirrec name lba size is_dir) =
      some (cs.map Child.bytes) :=
    mapM_of fun c hc => dirrec_of_lt (h c hc).1 (h c hc).2.1 (h c hc).2.2
  unfold dirExtent
  rw [dirrec_of_lt (by decide) hs size, dirrec_of_lt (by decide) hp size, children]
  simp [extentBytes, extentChildren, Child.bytes]

theorem unused_zeros (k : Nat) : unused (zeros k) = true := by
  cases k <;> rfl

/-- **A directory is read back**, with all its children. -/
theorem inside_extent (cs : List Child) (there : sector image s = extentBytes s p cs) (hs : s < 256 ^ 4)
    (hp : p < 256 ^ 4) (h : ∀ c ∈ cs, Child.Fits c) (few : cs.length < 2046) :
    inside image ⟨p, DIR_SIZE, true, up⟩ ⟨s, DIR_SIZE, true, name⟩ = some (cs.map Child.record) := by
  obtain ⟨k, padded⟩ := padTo_eq ((extentChildren s p cs).map Child.bytes).flatten ISO_SECTOR
  have fits := extentChildren_fit hs hp h
  have each : List.Forall₂ (Reads readRecord unused) ((extentChildren s p cs).map Child.bytes)
      ((extentChildren s p cs).map Child.record) := by
    rw [List.forall₂_map_left_iff, List.forall₂_map_right_iff, List.forall₂_same]
    exact fun c hc => reads_record (fits c hc).1 (fits c hc).2.1 (fits c hc).2.2
  have read : readAll readRecord unused SECTOR (sector image (s + 0)) =
      some ((extentChildren s p cs).map Child.record) := by
    rw [Nat.add_zero, there, extentBytes, padded]
    refine readAll_flatten each (unused_zeros k) ?_
    rw [List.length_map]
    exact Nat.succ_lt_succ (Nat.succ_lt_succ few)
  have all : records image ⟨s, DIR_SIZE, true, name⟩ =
      some ((extentChildren s p cs).map Child.record) := by
    have one : List.range (DIR_SIZE / SECTOR) = [0] := rfl
    unfold records
    rw [one, List.mapM_cons, read]
    simp
  rw [inside, all]
  simp [extentChildren, Child.record]

end

/-! ## The path table -/

def pathParts (name : List Byte) (lba parent : Nat) : List (List Byte) :=
  [leBytes 1 name.length, [0], leBytes 4 lba, leBytes 2 parent, name,
    if name.length % 2 = 0 then [] else [0x00]]

def pathBytes (name : List Byte) (lba parent : Nat) : List Byte := (pathParts name lba parent).flatten

section

variable {name : List Byte} {lba parent : Nat}

theorem pathRecord_of_lt (short : name.length < 256) (hl : lba < 256 ^ 4) (hp : parent < 256 ^ 2) :
    pathRecord name lba parent = some (pathBytes name lba parent) := by
  have word : name.length < 256 ^ 1 := short
  simp only [pathRecord, pack_of_lt word, pack_of_lt hl, pack_of_lt hp, Option.bind_eq_bind,
    Option.bind_some]
  simp [pathBytes, pathParts]

/-- **An entry of the path table is read back** by a reader for its byte order. -/
theorem reads_path (value : List Byte → Nat) (short : name.length < 256) :
    Reads (readPath value) List.isEmpty (pathBytes name lba parent)
      ⟨name, value (leBytes 4 lba), value (leBytes 2 parent)⟩ := by
  intro rest
  have all : pathBytes name lba parent ++ rest = (pathParts name lba parent ++ [rest]).flatten := by
    simp [pathBytes]
  have len : (pathBytes name lba parent).length = 8 + name.length + name.length % 2 := by
    by_cases even : name.length % 2 = 0
    · simp [pathBytes, pathParts, even]
      omega
    · simp [pathBytes, pathParts, even]
      omega
  have behind : (pathBytes name lba parent ++ rest).drop (8 + name.length + name.length % 2) =
      rest := List.drop_left' len
  have part {i off n : Nat} {p : List Byte} (h : (pathParts name lba parent ++ [rest])[i]? = some p)
      (before : ((pathParts name lba parent ++ [rest]).take i).flatten.length = off)
      (size : p.length = n) : slice (pathBytes name lba parent ++ rest) off n = p := by
    rw [all]
    exact slice_flatten h before size
  have some_ : (pathBytes name lba parent ++ rest).isEmpty = false := rfl
  have whole : 8 + name.length + name.length % 2 ≤ (pathBytes name lba parent ++ rest).length := by
    rw [List.length_append, len]
    exact Nat.le_add_right _ _
  generalize pathBytes name lba parent ++ rest = b at *
  have name_len : field b 0 1 = name.length :=
    field_of_slice (part (i := 0) rfl rfl length_leBytes) short
  have extent : slice b 2 4 = leBytes 4 lba := part (i := 2) rfl rfl length_leBytes
  have up : slice b 6 2 = leBytes 2 parent := part (i := 3) rfl rfl length_leBytes
  have text : slice b 8 name.length = name := part (i := 4) rfl rfl rfl
  constructor
  · exact some_
  · simp only [readPath, name_len, if_pos whole, extent, up, text, behind]

end

/-! ## The descriptors -/

section

variable {total root path size catalog : Nat}

def pvdBytes (total root path size : Nat) : List Byte :=
  putAll (zeros ISO_SECTOR) (pvdWrites (bothBytes 4 total) (bothBytes 4 size) (leBytes 4 path)
    (beBytes 4 path) (bothBytes 2 ISO_SECTOR) (recordBytes [0x00] root DIR_SIZE true)
    (bothBytes 2 1))

theorem buildPvd_of_lt (ht : total < 256 ^ 4) (hr : root < 256 ^ 4) (hp : path < 256 ^ 4)
    (hs : size < 256 ^ 4) : buildPvd total root path size = some (pvdBytes total root path size) := by
  have one : 1 < 256 ^ 2 := by decide
  have block : ISO_SECTOR < 256 ^ 2 := by decide
  have rr : dirrec [0x00] root DIR_SIZE true = some (recordBytes [0x00] root DIR_SIZE true) :=
    dirrec_of_lt (by decide) hr (by decide)
  have len : (recordBytes [0x00] root DIR_SIZE true).length = 34 := length_recordBytes
  simp only [buildPvd, b32, b16, packBoth_of_lt ht, packBoth_of_lt one, packBoth_of_lt block,
    packBoth_of_lt hs, pack_of_lt hp, packBe_of_lt hp, rr, Mkdisk.assert_of_true len,
    Option.bind_eq_bind, Option.bind_some]
  rfl

theorem laid_pvd : Laid (zeros ISO_SECTOR).length (spans (pvdWrites (bothBytes 4 total)
    (bothBytes 4 size) (leBytes 4 path) (beBytes 4 path) (bothBytes 2 ISO_SECTOR)
    (recordBytes [0x00] root DIR_SIZE true) (bothBytes 2 1))) := by
  have shape : spans (pvdWrites (bothBytes 4 total) (bothBytes 4 size) (leBytes 4 path)
      (beBytes 4 path) (bothBytes 2 ISO_SECTOR) (recordBytes [0x00] root DIR_SIZE true)
      (bothBytes 2 1)) = [(0, 1), (1, 5), (6, 1), (8, 32), (40, 32), (80, 8), (120, 4), (124, 4),
        (128, 4), (132, 8), (140, 4), (148, 4), (156, 34), (190, 128), (318, 128), (446, 128),
        (574, 128), (702, 37), (739, 36), (775, 37), (812, 17), (829, 17), (846, 17), (863, 17),
        (880, 1)] := by
    have len : (recordBytes [0x00] root DIR_SIZE true).length = 34 := length_recordBytes
    simp only [spans, pvdWrites, List.map_cons, List.map_nil, length_bothBytes, length_leBytes,
      length_beBytes, len]
    rfl
  rw [shape, length_zeros]
  exact Rising.laid (a := 0) (by decide)

@[simp] theorem length_pvd : (pvdBytes total root path size).length = ISO_SECTOR := by
  rw [pvdBytes, length_putAll laid_pvd, length_zeros]

theorem pvd_head : slice (pvdBytes total root path size) 1 5 = ascii "CD001" ∧
    field (pvdBytes total root path size) 6 1 = 1 ∧ field (pvdBytes total root path size) 0 1 = 1 :=
  ⟨slice_putAll laid_pvd (w := (1, ascii "CD001")) (by simp [pvdWrites]),
    field_putAll laid_pvd (v := 1) (by simp [pvdWrites, leBytes]) (by decide),
    field_putAll laid_pvd (v := 1) (by simp [pvdWrites, leBytes]) (by decide)⟩

/-- **The primary descriptor is read back.** -/
theorem readVolume_pvd (ht : total < 256 ^ 4) (hr : root < 256 ^ 4) (hp : path < 256 ^ 4)
    (hs : size < 256 ^ 4) : readVolume (pvdBytes total root path size) =
      some ⟨total, ISO_SECTOR, size, path, path, ⟨root, DIR_SIZE, true, [0x00]⟩⟩ := by
  have record : slice (pvdBytes total root path size) 156 34 =
      recordBytes [0x00] root DIR_SIZE true ++ [] := by
    have len : (recordBytes [0x00] root DIR_SIZE true).length = 34 := length_recordBytes
    rw [List.append_nil, ← len]
    exact slice_putAll laid_pvd (w := (156, recordBytes [0x00] root DIR_SIZE true))
      (by simp [pvdWrites])
  have sectors : both (pvdBytes total root path size) 80 4 = some total :=
    both_putAll laid_pvd (by simp [pvdWrites]) ht
  have block : both (pvdBytes total root path size) 128 2 = some ISO_SECTOR :=
    both_putAll laid_pvd (by simp [pvdWrites]) (by decide)
  have table : both (pvdBytes total root path size) 132 4 = some size :=
    both_putAll laid_pvd (by simp [pvdWrites]) hs
  have little : field (pvdBytes total root path size) 140 4 = path :=
    field_putAll laid_pvd (by simp [pvdWrites]) hp
  have big : beField (pvdBytes total root path size) 148 4 = path :=
    beField_putAll laid_pvd (by simp [pvdWrites]) hp
  have read : readRecord (recordBytes [0x00] root DIR_SIZE true ++ []) = some (_, []) :=
    (reads_record (by decide) hr (by decide) []).2
  rw [readVolume, sectors, block, table, little, big, record, read]
  rfl

def eltoritoWrites (catalog : Nat) : List (Nat × List Byte) :=
  [(0, [0x00]), (1, ascii "CD001"), (6, [0x01]), (7, ascii "EL TORITO SPECIFICATION"),
    (71, leBytes 4 catalog)]

def eltoritoBytes (catalog : Nat) : List Byte := putAll (zeros ISO_SECTOR) (eltoritoWrites catalog)

theorem buildEltoritoVd_of_lt (h : catalog < 256 ^ 4) :
    buildEltoritoVd catalog = some (eltoritoBytes catalog) := by
  rw [buildEltoritoVd, pack_of_lt h]
  rfl

theorem laid_eltorito : Laid (zeros ISO_SECTOR).length (spans (eltoritoWrites catalog)) := by
  rw [length_zeros]
  exact Rising.laid (a := 0)
    (show Rising ISO_SECTOR 0 [(0, 1), (1, 5), (6, 1), (7, 23), (71, 4)] by decide)

@[simp] theorem length_eltorito : (eltoritoBytes catalog).length = ISO_SECTOR := by
  rw [eltoritoBytes, length_putAll laid_eltorito, length_zeros]

theorem eltorito_head : slice (eltoritoBytes catalog) 1 5 = ascii "CD001" ∧
    field (eltoritoBytes catalog) 6 1 = 1 ∧ field (eltoritoBytes catalog) 0 1 = 0 :=
  ⟨slice_putAll laid_eltorito (.tail _ (.head _)),
    field_putAll laid_eltorito (v := 1) (.tail _ (.tail _ (.head _))) (by decide),
    field_putAll laid_eltorito (v := 0) (.head _) (by decide)⟩

/-- **The boot record leads to the catalog.** -/
theorem catalogOf_eltorito (h : catalog < 256 ^ 4) :
    catalogOf (eltoritoBytes catalog) = some catalog := by
  have text : slice (eltoritoBytes catalog) 7 23 = ascii "EL TORITO SPECIFICATION" :=
    slice_putAll laid_eltorito (.tail _ (.tail _ (.tail _ (.head _))))
  have rest : slice (eltoritoBytes catalog) 30 9 = zeros 9 := by
    rw [eltoritoBytes, slice_putAll_of_apart laid_eltorito]
    · exact slice_replicate (show 30 + 9 ≤ ISO_SECTOR by decide)
    · exact (by decide : ∀ s ∈ [(0, 1), (1, 5), (6, 1), (7, 23), (71, 4)], Apart (30, 9) s)
  have id : slice (eltoritoBytes catalog) 7 32 = ascii "EL TORITO SPECIFICATION" ++ zeros 9 := by
    rw [slice_add 23 9, text, rest]
  have lba : field (eltoritoBytes catalog) 71 4 = catalog :=
    field_putAll laid_eltorito (by simp [eltoritoWrites]) h
  rw [catalogOf, if_pos id, lba]

theorem laid_terminator : Laid (zeros ISO_SECTOR).length
    (spans ([(0, [0xFF]), (1, ascii "CD001"), (6, [0x01])] : List (Nat × List Byte))) := by
  rw [length_zeros]
  exact Rising.laid (a := 0) (show Rising ISO_SECTOR 0 [(0, 1), (1, 5), (6, 1)] by decide)

@[simp] theorem length_terminator : buildTerminator.length = ISO_SECTOR := by
  rw [buildTerminator, length_putAll laid_terminator, length_zeros]

theorem terminator_head : slice buildTerminator 1 5 = ascii "CD001" ∧
    field buildTerminator 6 1 = 1 ∧ field buildTerminator 0 1 = 0xFF :=
  ⟨slice_putAll laid_terminator (.tail _ (.head _)),
    field_putAll laid_terminator (v := 1) (.tail _ (.tail _ (.head _))) (by decide),
    field_putAll laid_terminator (v := 0xFF) (.head _) (by decide)⟩

end

/-! ## The boot catalog -/

section

variable {lba n : Nat}

/-- The validation entry with its checksum. -/
def validBytes : List Byte := putAll validation [(30, [0xAA]), (31, [0x66])]

def entryWrites (n lba : Nat) : List (Nat × List Byte) :=
  [(0, [0x88]), (1, [0x00]), (6, leBytes 2 n), (8, leBytes 4 lba)]

def entryBytes (n lba : Nat) : List Byte := putAll (zeros 32) (entryWrites n lba)

def headerBytes : List Byte := putAll (zeros 32) [(0, [0x91]), (1, [0xEF]), (2, leBytes 2 1)]

def catalogParts (lba n : Nat) : List (List Byte) :=
  [validBytes, entryBytes n lba, headerBytes, entryBytes n lba]

def catalogBytes (lba secs : Nat) : List Byte :=
  padTo (catalogParts lba (secs * (ISO_SECTOR / FAT_SECTOR))).flatten ISO_SECTOR

theorem bootCatalog_of_lt (hl : lba < 256 ^ 4) (hn : n * (ISO_SECTOR / FAT_SECTOR) < 256 ^ 2) :
    bootCatalog lba n = some (catalogBytes lba n) := by
  have sum : (0x10000 - (orSum validation &&& 0xFFFF)) &&& 0xFFFF = 0x66AA := by decide
  simp only [bootCatalog, pack_of_lt hn, pack_of_lt hl, sum, Option.bind_eq_bind, Option.bind_some]
  simp [catalogBytes, catalogParts, validBytes, entryBytes, entryWrites, headerBytes, leBytes]

theorem laid_entry : Laid (zeros 32).length (spans (entryWrites n lba)) := by
  have shape : spans (entryWrites n lba) = [(0, 1), (1, 1), (6, 2), (8, 4)] := by
    simp [spans, entryWrites]
  rw [shape, length_zeros]
  decide

@[simp] theorem length_entry : (entryBytes n lba).length = 32 := by
  rw [entryBytes, length_putAll laid_entry, length_zeros]

theorem readBoot_entry (platform : Nat) (hn : n < 256 ^ 2) (hl : lba < 256 ^ 4) :
    readBoot platform (entryBytes n lba) = [⟨platform, 0, n, lba⟩] := by
  have id : field (entryBytes n lba) 0 1 = 0x88 :=
    field_putAll laid_entry (by simp [entryWrites, leBytes]) (by decide)
  have media : field (entryBytes n lba) 1 1 = 0 :=
    field_putAll laid_entry (by simp [entryWrites, leBytes]) (by decide)
  have sectors : field (entryBytes n lba) 6 2 = n :=
    field_putAll laid_entry (by simp [entryWrites]) hn
  have start : field (entryBytes n lba) 8 4 = lba :=
    field_putAll laid_entry (by simp [entryWrites]) hl
  rw [readBoot, id, media, sectors, start, if_pos rfl]

theorem length_catalogParts : ∀ e ∈ catalogParts lba n, e.length = 32 := by
  have valid : validBytes.length = 32 := rfl
  have header : headerBytes.length = 32 := rfl
  simp [catalogParts, valid, header]

theorem catalogEntry_parts {i : Nat} {e : List Byte} (h : (catalogParts lba n)[i]? = some e) :
    catalogEntry (padTo (catalogParts lba n).flatten ISO_SECTOR) i = e := by
  obtain ⟨small, -⟩ := List.getElem?_eq_some_iff.mp h
  obtain ⟨k, padded⟩ := padTo_eq (catalogParts lba n).flatten ISO_SECTOR
  have len := length_flatten_of (@length_catalogParts lba n)
  rw [catalogEntry, padded, slice_append (by rw [len]; omega), Nat.mul_comm]
  exact slice_flatten_of length_catalogParts h

theorem field_header : field headerBytes 0 1 = 0x91 ∧ field headerBytes 1 1 = 0xEF ∧
    field headerBytes 2 2 = 1 := by decide

theorem valid_sum : field validBytes 0 1 = 1 ∧ slice validBytes 28 2 = [0x55, 0xAA] ∧
    slice validBytes KEY 2 = [0xAA, 0x66] ∧ field validBytes 1 1 = 0xEF ∧
    wordSum validBytes % 65536 = 0 := by decide

/-- **The catalog has two entries for the image**, the initial one and one in a section. -/
theorem bootEntries_catalog (hl : lba < 256 ^ 4) (hn : n * (ISO_SECTOR / FAT_SECTOR) < 256 ^ 2) :
    bootEntries 28 (catalogBytes lba n) =
      some (List.replicate 2 ⟨0xEF, 0, n * (ISO_SECTOR / FAT_SECTOR), lba⟩) := by
  obtain ⟨id, key, -, platform, sum⟩ := valid_sum
  obtain ⟨last, efi, one⟩ := field_header
  have valid : catalogEntry (catalogBytes lba n) 0 = validBytes := catalogEntry_parts rfl
  have initial : catalogEntry (catalogBytes lba n) 1 = entryBytes _ lba := catalogEntry_parts rfl
  have header : catalogEntry (catalogBytes lba n) 2 = headerBytes := catalogEntry_parts rfl
  have section_ : catalogEntry (catalogBytes lba n) (2 + 1 + 0) = entryBytes _ lba :=
    catalogEntry_parts rfl
  have sections : readSections (catalogBytes lba n) (SECTOR / 32) 2 =
      some [⟨0xEF, 0, n * (ISO_SECTOR / FAT_SECTOR), lba⟩] := by
    rw [show SECTOR / 32 = 63 + 1 from rfl, readSections]
    simp only [header, last, efi, one, if_pos, List.range_one, List.flatMap_singleton, section_,
      readBoot_entry _ hn hl]
  simp only [bootEntries, valid, id, key, sum, platform, initial, readBoot_entry _ hn hl, sections]
  rfl

/-- **El Torito has the key bytes at another place**, and there is no catalog for it. -/
theorem bootEntries_key : bootEntries KEY (catalogBytes lba n) = none := by
  have valid : catalogEntry (catalogBytes lba n) 0 = validBytes := catalogEntry_parts rfl
  obtain ⟨-, -, key, -, -⟩ := valid_sum
  have other : ¬ (field validBytes 0 1 = 1 ∧ slice validBytes KEY 2 = [0x55, 0xAA] ∧
      wordSum validBytes % 65536 = 0) := by
    rw [key]
    rintro ⟨-, same, -⟩
    exact absurd same (by decide)
  simp only [bootEntries, valid, if_neg other]

end

/-! ## The image -/

def tableBytes : List Byte := (ptEntries.map fun (name, lba, parent) => pathBytes name lba parent).flatten

theorem buildPathTable_eq : buildPathTable ptEntries = some (padTo tableBytes ISO_SECTOR, 46) := by
  have all : ptEntries.mapM (fun (name, lba, parent) => pathRecord name lba parent) =
      some (ptEntries.map fun (name, lba, parent) => pathBytes name lba parent) := by
    refine mapM_of fun e he => ?_
    have fits : ∀ e ∈ ptEntries, e.1.length < 256 ∧ e.2.1 < 256 ^ 4 ∧ e.2.2 < 256 ^ 2 := by decide
    exact pathRecord_of_lt (fits e he).1 (fits e he).2.1 (fits e he).2.2
  have len : tableBytes.length = 46 := rfl
  rw [buildPathTable, all, ← len]
  rfl

def rootChildren : List Child :=
  [(ascii "BOOT", LBA_BOOT_DIR, DIR_SIZE, true), (ascii "EFI", LBA_EFI_DIR, DIR_SIZE, true)]

def efiChildren : List Child := [(ascii "BOOT", LBA_EFI_BOOT, DIR_SIZE, true)]

def bootChildren (lba size : Nat) : List Child := [(ascii "MICRONT.ELF;1", lba, size, false)]

section

variable (efi_data elf_data : List Byte)

/-- The sectors of the ESP. -/
def espSectors : Nat := 5 + nClusters efi_data.length + nClusters elf_data.length

def elfLba : Nat := LBA_ESP + espSectors efi_data elf_data

def totalSectors : Nat := elfLba efi_data elf_data + isoSectors elf_data.length

/-- The sectors 16 to 24. -/
def sectorParts : List (List Byte) :=
  [pvdBytes (totalSectors efi_data elf_data) LBA_ROOT_DIR LBA_PATH_TABLE 46,
    eltoritoBytes LBA_BOOT_CAT, buildTerminator, catalogBytes LBA_ESP (espSectors efi_data elf_data),
    padTo tableBytes ISO_SECTOR, extentBytes LBA_ROOT_DIR LBA_ROOT_DIR rootChildren,
    extentBytes LBA_EFI_DIR LBA_ROOT_DIR efiChildren, extentBytes LBA_EFI_BOOT LBA_EFI_DIR [],
    extentBytes LBA_BOOT_DIR LBA_ROOT_DIR
      (bootChildren (elfLba efi_data elf_data) elf_data.length)]

def isoBytes : List Byte :=
  zeros (LBA_PVD * ISO_SECTOR) ++ ((sectorParts efi_data elf_data).flatten ++
    (esp efi_data elf_data ++ padTo elf_data ISO_SECTOR))

variable {efi_data elf_data}

theorem length_extents : (extentBytes LBA_ROOT_DIR LBA_ROOT_DIR rootChildren).length = ISO_SECTOR ∧
    (extentBytes LBA_EFI_DIR LBA_ROOT_DIR efiChildren).length = ISO_SECTOR ∧
    (extentBytes LBA_EFI_BOOT LBA_EFI_DIR []).length = ISO_SECTOR ∧
    (extentBytes LBA_BOOT_DIR LBA_ROOT_DIR
      (bootChildren (elfLba efi_data elf_data) elf_data.length)).length = ISO_SECTOR := by
  have boot : (ascii "BOOT").length = 4 := rfl
  have efi : (ascii "EFI").length = 3 := rfl
  have file : (ascii "MICRONT.ELF;1").length = 13 := rfl
  simp only [extentBytes, length_padTo]
  simp [extentChildren, Child.bytes, rootChildren, efiChildren, bootChildren, boot, efi, file,
    isoSectors, ISO_SECTOR]

theorem length_sectorParts : ∀ b ∈ sectorParts efi_data elf_data, b.length = SECTOR := by
  obtain ⟨root, efi, efiBoot, boot⟩ := @length_extents efi_data elf_data
  have table : (padTo tableBytes ISO_SECTOR).length = ISO_SECTOR := length_padTo tableBytes
  have catalog : (catalogBytes LBA_ESP (espSectors efi_data elf_data)).length = ISO_SECTOR := by
    have four {n : Nat} : (catalogParts LBA_ESP n).length = 4 := rfl
    rw [catalogBytes, length_padTo, length_flatten_of length_catalogParts, four]
    simp [isoSectors, ISO_SECTOR]
  simp only [sectorParts, List.mem_cons, List.not_mem_nil, or_false, forall_eq_or_imp, forall_eq]
  exact ⟨length_pvd, length_eltorito, length_terminator, catalog, table, root, efi, efiBoot, boot⟩

theorem length_sectors : (sectorParts efi_data elf_data).flatten.length = 9 * SECTOR :=
  length_flatten_of length_sectorParts

/-- **Where the sectors are** that `main` writes. -/
theorem sector_iso {i : Nat} {b : List Byte} (h : (sectorParts efi_data elf_data)[i]? = some b) :
    sector (isoBytes efi_data elf_data) (LBA_PVD + i) = b := by
  obtain ⟨small, -⟩ := List.getElem?_eq_some_iff.mp h
  have inside : i * SECTOR + SECTOR ≤ (sectorParts efi_data elf_data).flatten.length := by
    rw [length_sectors, ← Nat.succ_mul]
    exact Nat.mul_le_mul_right SECTOR small
  have head : (zeros (LBA_PVD * ISO_SECTOR)).length = LBA_PVD * SECTOR := length_zeros
  rw [sector, Nat.add_mul, isoBytes, slice_behind head inside]
  exact slice_flatten_of length_sectorParts h

/-- What lies behind the sectors. -/
theorem slice_iso {off n : Nat} (inside : off + n ≤ (esp efi_data elf_data ++
    padTo elf_data ISO_SECTOR).length) : slice (isoBytes efi_data elf_data) (LBA_ESP * SECTOR + off) n =
      slice (esp efi_data elf_data ++ padTo elf_data ISO_SECTOR) off n := by
  have head : (zeros (LBA_PVD * ISO_SECTOR) ++ (sectorParts efi_data elf_data).flatten).length =
      LBA_ESP * SECTOR := by
    rw [List.length_append, length_zeros, length_sectors]
    rfl
  have there := slice_behind (c := []) head inside
  rw [List.append_nil] at there
  rwa [isoBytes, ← List.append_assoc]

theorem esp_iso : slice (isoBytes efi_data elf_data) (LBA_ESP * SECTOR)
    (espSectors efi_data elf_data * 4 * 512) = esp efi_data elf_data := by
  have len : espSectors efi_data elf_data * 4 * 512 = (esp efi_data elf_data).length := by
    rw [length_esp, espSectors]
    omega
  have inside : 0 + (esp efi_data elf_data).length ≤
      (esp efi_data elf_data ++ padTo elf_data ISO_SECTOR).length := by
    rw [List.length_append]
    omega
  rw [len]
  exact (slice_iso inside).trans List.take_left

theorem elf_iso : slice (isoBytes efi_data elf_data) (elfLba efi_data elf_data * SECTOR)
    elf_data.length = elf_data := by
  obtain ⟨k, padded⟩ := padTo_eq elf_data ISO_SECTOR
  have start : elfLba efi_data elf_data * SECTOR =
      LBA_ESP * SECTOR + (esp efi_data elf_data).length := by
    rw [elfLba, Nat.add_mul, length_esp, espSectors, Nat.mul_comm 2048, SECTOR]
  have inside : (esp efi_data elf_data).length + elf_data.length ≤
      (esp efi_data elf_data ++ padTo elf_data ISO_SECTOR).length := by
    rw [padded, List.length_append, List.length_append]
    omega
  rw [start, slice_iso inside, slice, List.drop_left, padded, List.take_left]

theorem length_iso : (isoBytes efi_data elf_data).length =
    totalSectors efi_data elf_data * ISO_SECTOR := by
  rw [isoBytes, List.length_append, List.length_append, List.length_append, length_zeros,
    length_sectors, length_esp, length_padTo]
  simp only [totalSectors, elfLba, espSectors, LBA_ESP, LBA_PVD, SECTOR, ISO_SECTOR]
  omega

theorem rootChildren_fit : ∀ c ∈ rootChildren, Child.Fits c := by
  simp only [rootChildren, List.mem_cons, List.not_mem_nil, or_false, forall_eq_or_imp, forall_eq,
    Child.Fits]
  decide

theorem efiChildren_fit : ∀ c ∈ efiChildren, Child.Fits c := by
  simp only [efiChildren, List.mem_singleton, forall_eq, Child.Fits]
  decide

theorem bootChildren_fit {lba size : Nat} (hl : lba < 256 ^ 4) (hs : size < 256 ^ 4) :
    ∀ c ∈ bootChildren lba size, Child.Fits c := by
  have short : (ascii "MICRONT.ELF;1").length < 222 := by decide
  simp only [bootChildren, List.mem_singleton, forall_eq]
  exact ⟨short, hl, hs⟩

theorem numbers_of_lt
    (h : totalFatSectors (nClusters efi_data.length) (nClusters elf_data.length) < 256 ^ 2) :
    elfLba efi_data elf_data < 256 ^ 4 ∧ elf_data.length < 256 ^ 4 ∧
      totalSectors efi_data elf_data < 256 ^ 4 ∧
      espSectors efi_data elf_data * (ISO_SECTOR / FAT_SECTOR) < 256 ^ 2 := by
  have few := totalFatSectors_eq (nClusters efi_data.length) (nClusters elf_data.length)
  have le := le_nClusters elf_data.length
  have quarter : ISO_SECTOR / FAT_SECTOR = 4 := rfl
  have sectors : isoSectors elf_data.length = nClusters elf_data.length := rfl
  simp only [totalSectors, elfLba, espSectors, LBA_ESP, quarter, sectors]
  omega

theorem checked_iso : checked (isoBytes efi_data elf_data) (totalSectors efi_data elf_data) =
    some (isoBytes efi_data elf_data) := by
  have whole : (isoBytes efi_data elf_data).length % ISO_SECTOR = 0 := by
    rw [length_iso]
    exact Nat.mul_mod_left _ _
  have count : (isoBytes efi_data elf_data).length / ISO_SECTOR = totalSectors efi_data elf_data := by
    rw [length_iso]
    exact Nat.mul_div_cancel _ (by decide)
  rw [checked, Mkdisk.assert_of_true whole, Mkdisk.assert_of_true count]
  rfl

/-- **The builder writes an image** of every loader that it takes, where the ESP is not too large. -/
theorem mkiso_of_lt (efi : verifyEfiPe efi_data = .ok ())
    (h : totalFatSectors (nClusters efi_data.length) (nClusters elf_data.length) < 256 ^ 2) :
    mkiso efi_data elf_data = some (isoBytes efi_data elf_data) := by
  obtain ⟨lba, size, total, virt⟩ := numbers_of_lt h
  have built : buildFat12Esp efi_data elf_data = some (esp efi_data elf_data) := by
    rw [buildFat12Esp_of_lt h, padTo_esp]
  have secs : (esp efi_data elf_data).length / ISO_SECTOR = espSectors efi_data elf_data := by
    rw [length_esp]
    exact Nat.mul_div_cancel_left _ (by decide)
  have image : zeros (LBA_PVD * ISO_SECTOR) ++
      pvdBytes (totalSectors efi_data elf_data) LBA_ROOT_DIR LBA_PATH_TABLE 46 ++
      eltoritoBytes LBA_BOOT_CAT ++ buildTerminator ++
      catalogBytes LBA_ESP (espSectors efi_data elf_data) ++ padTo tableBytes ISO_SECTOR ++
      extentBytes LBA_ROOT_DIR LBA_ROOT_DIR rootChildren ++
      extentBytes LBA_EFI_DIR LBA_ROOT_DIR efiChildren ++ extentBytes LBA_EFI_BOOT LBA_EFI_DIR [] ++
      extentBytes LBA_BOOT_DIR LBA_ROOT_DIR
        (bootChildren (elfLba efi_data elf_data) elf_data.length) ++ esp efi_data elf_data ++
      padTo elf_data ISO_SECTOR = isoBytes efi_data elf_data := by
    simp [isoBytes, sectorParts]
  have root : dirExtent LBA_ROOT_DIR LBA_ROOT_DIR rootChildren = some _ :=
    dirExtent_of_fits (by decide) (by decide) rootChildren_fit
  have efiDir : dirExtent LBA_EFI_DIR LBA_ROOT_DIR efiChildren = some _ :=
    dirExtent_of_fits (by decide) (by decide) efiChildren_fit
  have efiBoot : dirExtent LBA_EFI_BOOT LBA_EFI_DIR [] = some _ :=
    dirExtent_of_fits (by decide) (by decide) (by simp)
  have boot : dirExtent LBA_BOOT_DIR LBA_ROOT_DIR
      (bootChildren (elfLba efi_data elf_data) elf_data.length) = some _ :=
    dirExtent_of_fits (by decide) (by decide) (bootChildren_fit lba size)
  have pvd : buildPvd (totalSectors efi_data elf_data) LBA_ROOT_DIR LBA_PATH_TABLE 46 = some _ :=
    buildPvd_of_lt total (by decide) (by decide) (by decide)
  have record : buildEltoritoVd LBA_BOOT_CAT = some _ := buildEltoritoVd_of_lt (by decide)
  have catalog : bootCatalog LBA_ESP (espSectors efi_data elf_data) = some _ :=
    bootCatalog_of_lt (by decide) virt
  rw [mkiso, efi]
  refine (bind_some_of built).trans ?_
  refine (bind_some_of buildPathTable_eq).trans ?_
  refine (bind_some_of root).trans ((bind_some_of efiDir).trans ((bind_some_of efiBoot).trans ?_))
  rw [secs]
  refine (bind_some_of boot).trans ((bind_some_of pvd).trans ?_)
  refine (bind_some_of record).trans ((bind_some_of catalog).trans ?_)
  refine Eq.trans ?_ checked_iso
  rw [← image]
  rfl

/-! ## What the readers find -/

theorem descriptors_iso : descriptors (isoBytes efi_data elf_data)
    ((isoBytes efi_data elf_data).length / SECTOR) 16 =
      some [pvdBytes (totalSectors efi_data elf_data) LBA_ROOT_DIR LBA_PATH_TABLE 46,
        eltoritoBytes LBA_BOOT_CAT] := by
  obtain ⟨n, hn⟩ : ∃ n, (isoBytes efi_data elf_data).length / SECTOR = n + 3 := by
    have size : SECTOR = ISO_SECTOR := rfl
    have fuel : (isoBytes efi_data elf_data).length / SECTOR = totalSectors efi_data elf_data := by
      rw [length_iso, size]
      exact Nat.mul_div_cancel _ (by decide)
    refine ⟨totalSectors efi_data elf_data - 3, ?_⟩
    rw [fuel, totalSectors, elfLba, LBA_ESP]
    omega
  have first : sector (isoBytes efi_data elf_data) 16 = _ := sector_iso (i := 0) rfl
  have second : sector (isoBytes efi_data elf_data) (16 + 1) = _ := sector_iso (i := 1) rfl
  have third : sector (isoBytes efi_data elf_data) (16 + 1 + 1) = _ := sector_iso (i := 2) rfl
  obtain ⟨id1, version1, type1⟩ := @pvd_head (totalSectors efi_data elf_data) LBA_ROOT_DIR
    LBA_PATH_TABLE 46
  obtain ⟨id2, version2, type2⟩ := @eltorito_head LBA_BOOT_CAT
  obtain ⟨id3, version3, type3⟩ := terminator_head
  rw [hn, descriptors, first, id1, version1, type1, descriptors, second, id2, version2, type2,
    descriptors, third, id3, version3, type3]
  rfl

/-- The tree of the volume: the kernel, and an empty directory where a loader would be. -/
def isoTree (elf_data : List Byte) : Node :=
  .dir [0x00] LBA_ROOT_DIR
    [.dir (ascii "BOOT") LBA_BOOT_DIR [.file (ascii "MICRONT.ELF;1") elf_data],
      .dir (ascii "EFI") LBA_EFI_DIR [.dir (ascii "BOOT") LBA_EFI_BOOT []]]

theorem primary_iso
    (h : totalFatSectors (nClusters efi_data.length) (nClusters elf_data.length) < 256 ^ 2) :
    primary (isoBytes efi_data elf_data) =
      some ⟨totalSectors efi_data elf_data, ISO_SECTOR, 46, LBA_PATH_TABLE, LBA_PATH_TABLE,
        ⟨LBA_ROOT_DIR, DIR_SIZE, true, [0x00]⟩⟩ := by
  obtain ⟨-, -, total, -⟩ := @numbers_of_lt efi_data elf_data h
  have type := (@pvd_head (totalSectors efi_data elf_data) LBA_ROOT_DIR LBA_PATH_TABLE 46).2.2
  rw [primary, descriptors_iso]
  refine Eq.trans ?_ (readVolume_pvd total (by decide) (by decide) (by decide))
  simp [type]

theorem catalog_iso : catalog (isoBytes efi_data elf_data) =
    some (catalogBytes LBA_ESP (espSectors efi_data elf_data)) := by
  have type1 := (@pvd_head (totalSectors efi_data elf_data) LBA_ROOT_DIR LBA_PATH_TABLE 46).2.2
  have type2 := (@eltorito_head LBA_BOOT_CAT).2.2
  have there : sector (isoBytes efi_data elf_data) LBA_BOOT_CAT = _ := sector_iso (i := 3) rfl
  rw [catalog, descriptors_iso, ← there]
  simp [type1, type2, catalogOf_eltorito (show LBA_BOOT_CAT < 256 ^ 4 by decide)]

def dirRecord (lba : Nat) (name : List Byte) : Record := ⟨lba, DIR_SIZE, true, name⟩

def kernelRecord (lba size : Nat) : Record := ⟨lba, size, false, ascii "MICRONT.ELF;1"⟩

theorem kernel_iso (parent : Record) : tree (isoBytes efi_data elf_data) 6 parent
    (kernelRecord (elfLba efi_data elf_data) elf_data.length) =
      some (.file (ascii "MICRONT.ELF;1") elf_data) := by
  have within : elfLba efi_data elf_data * SECTOR + elf_data.length ≤
      (isoBytes efi_data elf_data).length := by
    rw [length_iso]
    simp only [totalSectors, isoSectors, ISO_SECTOR, SECTOR]
    omega
  have read := @tree_file (isoBytes efi_data elf_data) parent
    (kernelRecord (elfLba efi_data elf_data) elf_data.length) 5 rfl within
  rw [read]
  exact congrArg (fun data => some (Node.file (ascii "MICRONT.ELF;1") data)) elf_iso

/-- **The whole tree is read back.** -/
theorem tree_iso
    (h : totalFatSectors (nClusters efi_data.length) (nClusters elf_data.length) < 256 ^ 2) :
    tree (isoBytes efi_data elf_data) 8 (dirRecord LBA_ROOT_DIR [0x00])
      (dirRecord LBA_ROOT_DIR [0x00]) = some (isoTree elf_data) := by
  obtain ⟨lba, size, -, -⟩ := @numbers_of_lt efi_data elf_data h
  have root : inside (isoBytes efi_data elf_data) (dirRecord LBA_ROOT_DIR [0x00])
      (dirRecord LBA_ROOT_DIR [0x00]) =
        some [dirRecord LBA_BOOT_DIR (ascii "BOOT"), dirRecord LBA_EFI_DIR (ascii "EFI")] :=
    inside_extent rootChildren (sector_iso (i := 5) rfl) (by decide) (by decide)
      rootChildren_fit (by decide)
  have efi : inside (isoBytes efi_data elf_data) (dirRecord LBA_ROOT_DIR [0x00])
      (dirRecord LBA_EFI_DIR (ascii "EFI")) = some [dirRecord LBA_EFI_BOOT (ascii "BOOT")] :=
    inside_extent efiChildren (sector_iso (i := 6) rfl) (by decide) (by decide)
      efiChildren_fit (by decide)
  have efiBoot : inside (isoBytes efi_data elf_data) (dirRecord LBA_EFI_DIR (ascii "EFI"))
      (dirRecord LBA_EFI_BOOT (ascii "BOOT")) = some [] :=
    inside_extent [] (sector_iso (i := 7) rfl) (by decide) (by decide) (by simp) (by decide)
  have boot : inside (isoBytes efi_data elf_data) (dirRecord LBA_ROOT_DIR [0x00])
      (dirRecord LBA_BOOT_DIR (ascii "BOOT")) =
        some [kernelRecord (elfLba efi_data elf_data) elf_data.length] :=
    inside_extent (bootChildren (elfLba efi_data elf_data) elf_data.length)
      (sector_iso (i := 8) rfl) (by decide) (by decide) (bootChildren_fit lba size)
      (by simp [bootChildren])
  have bootNode : tree (isoBytes efi_data elf_data) 7 (dirRecord LBA_ROOT_DIR [0x00])
      (dirRecord LBA_BOOT_DIR (ascii "BOOT")) =
        some (.dir (ascii "BOOT") LBA_BOOT_DIR [.file (ascii "MICRONT.ELF;1") elf_data]) := by
    refine tree_dir rfl boot ?_
    rw [List.mapM_cons, kernel_iso]
    rfl
  have emptyNode : tree (isoBytes efi_data elf_data) 6 (dirRecord LBA_EFI_DIR (ascii "EFI"))
      (dirRecord LBA_EFI_BOOT (ascii "BOOT")) = some (.dir (ascii "BOOT") LBA_EFI_BOOT []) :=
    tree_dir rfl efiBoot rfl
  have efiNode : tree (isoBytes efi_data elf_data) 7 (dirRecord LBA_ROOT_DIR [0x00])
      (dirRecord LBA_EFI_DIR (ascii "EFI")) =
        some (.dir (ascii "EFI") LBA_EFI_DIR [.dir (ascii "BOOT") LBA_EFI_BOOT []]) := by
    refine tree_dir rfl efi ?_
    rw [List.mapM_cons, emptyNode]
    rfl
  refine tree_dir rfl root ?_
  rw [List.mapM_cons, bootNode, List.mapM_cons, efiNode]
  rfl

/-- The path table, whose numbers a reader takes as `value` says. -/
theorem readPaths_iso (value : List Byte → Nat) :
    readPaths (isoBytes efi_data elf_data) value LBA_PATH_TABLE 46 =
      some (ptEntries.map fun (name, lba, parent) =>
        ⟨name, value (leBytes 4 lba), value (leBytes 2 parent)⟩) := by
  have there : sector (isoBytes efi_data elf_data) LBA_PATH_TABLE = padTo tableBytes ISO_SECTOR :=
    sector_iso (i := 4) rfl
  obtain ⟨k, padded⟩ := padTo_eq tableBytes ISO_SECTOR
  have len : tableBytes.length = 46 := rfl
  have bytes : slice (isoBytes efi_data elf_data) (LBA_PATH_TABLE * SECTOR) 46 = tableBytes ++ [] := by
    rw [← take_slice (show 46 ≤ SECTOR by decide), ← sector, there, padded, ← len, List.take_left,
      List.append_nil]
  have short : ∀ e ∈ ptEntries, e.1.length < 256 := by decide
  have each : List.Forall₂ (Reads (readPath value) List.isEmpty)
      (ptEntries.map fun (name, lba, parent) => pathBytes name lba parent)
      (ptEntries.map fun (name, lba, parent) =>
        ⟨name, value (leBytes 4 lba), value (leBytes 2 parent)⟩) := by
    rw [List.forall₂_map_left_iff, List.forall₂_map_right_iff, List.forall₂_same]
    exact fun e he => reads_path value (short e he)
  rw [readPaths, bytes]
  exact readAll_flatten each rfl (by decide)

theorem pathTable_isoTree (elf_data : List Byte) : (isoTree elf_data).pathTable =
    ptEntries.map fun (name, lba, parent) => ⟨name, lba, parent⟩ := by
  simp [Node.pathTable, pathTable, isoTree, ptEntries]

/-- What the readers of an image find. -/
structure OnCd (image efi_data elf_data : List Byte) : Prop where
  /-- The whole volume has the kernel in its tree, and this is all there is. -/
  volume : ∃ v, primary image = some v ∧ v.blockSize = SECTOR ∧ image.length = v.sectors * SECTOR ∧
    tree image 8 v.root v.root = some (isoTree elf_data) ∧
    readPaths image leNat v.pathTableL v.pathTableSize = some (isoTree elf_data).pathTable ∧
    readPaths image (leNat ∘ List.reverse) v.pathTableM v.pathTableSize ≠
      some (isoTree elf_data).pathTable
  /-- The catalog names the ESP twice, to a reader that looks for its key bytes where they are.
  El Torito has them two bytes further on. -/
  boot : ∃ c e, catalog image = some c ∧ bootEntries KEY c = none ∧
    bootEntries 28 c = some (List.replicate 2 e) ∧ e.platform = 0xEF ∧ e.media = 0 ∧
    buildFat12Esp efi_data elf_data = some (slice image (e.lba * SECTOR) (e.sectors * 512)) ∧
    (RoundTrip (slice image (e.lba * SECTOR) (e.sectors * 512)) efi_data elf_data ↔
      nClusters efi_data.length + nClusters elf_data.length ≤ 336)

theorem mkiso_of_not (no : ¬ (verifyEfiPe efi_data = .ok () ∧
    totalFatSectors (nClusters efi_data.length) (nClusters elf_data.length) < 256 ^ 2)) :
    mkiso efi_data elf_data = none := by
  unfold mkiso
  split
  case h_1 => rfl
  case h_2 u efi =>
    have large := Nat.le_of_not_lt fun h => no ⟨efi, h⟩
    rw [buildFat12Esp_of_le large]
    rfl

theorem loader_some (efi : verifyEfiPe efi_data = .ok ()) : efi_data ≠ [] := by
  rintro rfl
  cases efi

theorem onCd_iso (efi : verifyEfiPe efi_data = .ok ())
    (h : totalFatSectors (nClusters efi_data.length) (nClusters elf_data.length) < 256 ^ 2) :
    OnCd (isoBytes efi_data elf_data) efi_data elf_data := by
  obtain ⟨-, -, -, virt⟩ := @numbers_of_lt efi_data elf_data h
  constructor
  case volume =>
    refine ⟨_, primary_iso h, rfl, length_iso, tree_iso h, ?_, ?_⟩
    · rw [pathTable_isoTree]
      refine (readPaths_iso leNat).trans (congrArg some (List.map_congr_left fun e he => ?_))
      have fits : ∀ e ∈ ptEntries, leNat (leBytes 4 e.2.1) = e.2.1 ∧ leNat (leBytes 2 e.2.2) = e.2.2 := by
        decide
      obtain ⟨lba, parent⟩ := fits e he
      dsimp only
      rw [lba, parent]
    · intro big
      have same := (readPaths_iso (leNat ∘ List.reverse)).symm.trans big
      rw [pathTable_isoTree] at same
      have first := congrArg (fun table => table.head?.map PathEntry.extent) (Option.some.inj same)
      exact absurd first (by decide)
  case boot =>
    have slots : espSectors efi_data elf_data * (ISO_SECTOR / FAT_SECTOR) =
      espSectors efi_data elf_data * 4 := rfl
    refine ⟨catalogBytes LBA_ESP (espSectors efi_data elf_data),
      ⟨0xEF, 0, espSectors efi_data elf_data * (ISO_SECTOR / FAT_SECTOR), LBA_ESP⟩, catalog_iso,
      bootEntries_key, bootEntries_catalog (by decide) virt, rfl, rfl, ?_, ?_⟩
    · dsimp only
      rw [slots, esp_iso, buildFat12Esp_of_lt h, padTo_esp]
    · dsimp only
      rw [slots, esp_iso]
      constructor
      · intro trip
        by_contra large
        exact not_roundTrip_of_large h (Nat.lt_of_not_le large) trip
      · intro few
        exact roundTrip_esp h few (.inl (loader_some efi))

end

/-- **The CD image is read back**: the builder fails only for a loader that it refuses or for an
ESP of too many sectors. Of every other image the readers of ISO 9660 find exactly the kernel in
its directory, and El Torito, but for the place of the key bytes, finds the ESP; firmware finds
the loader and the kernel there as long as one sector of its table has room for both. -/
theorem cd_round_trip (efi_data elf_data : List Byte) :
    ((∃ image, mkiso efi_data elf_data = some image) ↔ verifyEfiPe efi_data = .ok () ∧
      totalFatSectors (nClusters efi_data.length) (nClusters elf_data.length) < 256 ^ 2) ∧
    ∀ image, mkiso efi_data elf_data = some image → OnCd image efi_data elf_data := by
  by_cases fits : verifyEfiPe efi_data = .ok () ∧
    totalFatSectors (nClusters efi_data.length) (nClusters elf_data.length) < 256 ^ 2
  case pos =>
    refine ⟨iff_of_true ⟨_, mkiso_of_lt fits.1 fits.2⟩ fits, fun image built => ?_⟩
    rw [mkiso_of_lt fits.1 fits.2] at built
    obtain rfl := Option.some.inj built
    exact onCd_iso fits.1 fits.2
  case neg =>
    rw [mkiso_of_not fits]
    exact ⟨iff_of_false (by simp) fits, by simp⟩

end MicroNT.Mkiso
