import MicroNT.Base.Report
import MicroNT.VhdImage

/-! # The inspector of the disk image (tools/inspect_vhd.py)

`main` reads an image and prints for each of its checks whether it holds: the footer, a
protective MBR, a GPT, and the FAT volume in the first partition of the GPT. Here is the
inspector, what the images are like that it passes, and what it says of the images that
`mkdisk.py` writes: these have an MBR of their own and no GPT. -/

namespace MicroNT.InspectVhd

open Base Base.Bytes
open Mkdisk (S checksum)

/-! ## Reads of bytes -/

/-- `struct.unpack_from` raises behind the end. -/
def unpackFrom (b : List Byte) (off w : Nat) : Option Nat :=
  if off + w ≤ b.length then some (field b off w) else none

/-- The same with the greatest byte first. -/
def unpackFromBe (b : List Byte) (off w : Nat) : Option Nat :=
  if off + w ≤ b.length then some (beField b off w) else none

/-- `bytes.find`: where `sub` is first, or -1. -/
def find (b sub : List Byte) : Int :=
  match b.tails.findIdx? fun t => sub.isPrefixOf t with
  | some i => i
  | none => -1

/-- One bit of the polynomial division. -/
def crcStep (c : BitVec 32) : BitVec 32 :=
  if c.getLsbD 0 then (c >>> 1) ^^^ 0xEDB88320#32 else c >>> 1

def crcByte (c : BitVec 32) (x : Byte) : BitVec 32 := crcStep^[8] (c ^^^ x.setWidth 32)

/-- `binascii.crc32` -/
def crc32 (b : List Byte) : Nat := (~~~ b.foldl crcByte 0xFFFFFFFF#32).toNat

example : crc32 (ascii "123456789") = 0xCBF43926 := by decide +kernel

/-- `//`, which raises for the divisor 0. -/
def floorDiv (a b : Int) : Option Int := if b = 0 then none else some (a.fdiv b)

/-! ## The lines -/

/-- What is checked, with the values that are shown. -/
inductive Check where
  | cookie (cookie : List Byte)
  | diskType (disk_type : Nat)
  | footerChecksum (stored calculated : Nat)
  | mbrSignature (sig : List Byte)
  | partitionType (ptype : Byte)
  | gptSignature (sig : List Byte)
  | myLba (my_lba : Nat)
  | headerCrc (stored calculated : Nat)
  | typeGuid (type_guid : List Byte)
  | espOffset (esp_off : Nat)
  | bootSignature (sig : List Byte)
  | bytesPerSector (bps : Nat)
  | fatType (fat_type_str : List Byte)
  | clusterCount (nc : Int)
  | bootx64 (pos : Int)
  | micront (pos : Int)
  | mz (pos : Int)
  deriving DecidableEq

/-- What is shown for information. -/
inductive Info where
  | currentSize (bytes mb : Nat)
  | originalSize (bytes : Nat)
  | fileSize (bytes : Nat)
  | rawDiskSize (bytes : Int)
  | header (my_lba alt_lba first_u last_u : Nat)
  | entries (pe_lba n_parts pe_size : Nat)
  | partition (start last : Nat) (kb : Int)
  /-- The name as it lies in the entry, in UTF-16. -/
  | name (utf16 : List Byte)
  | sectors (bps : Nat) (spc : Byte) (res : Nat) (nf : Byte)
  | counts (nre tot16 fat16 tot32 fat32 : Nat)
  | fat32 (root_cl : Nat) (fat_type_str : List Byte)
  | clusters (nc : Int)
  | fat16 (data_start : Nat) (nc : Int)
  | fatString (fat_type_str : List Byte)
  deriving DecidableEq

inductive Line where
  | ok (c : Check)
  | err (c : Check)
  | info (i : Info)
  /-- The last line: all checks passed, or issues were found. -/
  | summary (passed : Bool)
  deriving DecidableEq

def Line.isErr : Line → Bool
  | .err _ => true
  | _ => false

def check (holds : Prop) [Decidable holds] (c : Check) : Report Line Unit :=
  .print (if holds then .ok c else .err c)

def info (i : Info) : Report Line Unit := .print (.info i)

/-! ## The sections -/

/-- The numbers of the partition and its file system, as the inspector has them at its end. -/
structure Geometry where
  part_start : Nat
  part_end : Nat
  bps : Nat
  spc : Nat
  res : Nat
  nf : Nat
  nre : Nat
  tot16 : Nat
  fat16 : Nat
  tot32 : Nat
  fat32 : Nat
  nc : Int
  deriving DecidableEq

def inspectFooter (data : List Byte) : Report Line Unit := do
  let footer := data.drop (data.length - S)
  let cookie := slice footer 0 8
  let disk_type ← .ofOption (unpackFromBe footer 60 4)
  let cur_size ← .ofOption (unpackFromBe footer 40 8)
  let orig_size ← .ofOption (unpackFromBe footer 48 8)
  check (cookie = ascii "conectix") (.cookie cookie)
  check (disk_type = 2) (.diskType disk_type)
  info (.currentSize cur_size (cur_size / 1048576))
  info (.originalSize orig_size)
  info (.fileSize data.length)
  info (.rawDiskSize ((data.length : Int) - 512))
  let stored_csum ← .ofOption (unpackFromBe footer 64 4)
  let calculated := checksum (put footer 64 (zeros 4))
  check (calculated = stored_csum) (.footerChecksum stored_csum calculated)

def inspectMbr (data : List Byte) : Report Line Unit := do
  let mbr := slice data 0 S
  check (slice mbr 510 2 = [0x55, 0xAA]) (.mbrSignature (slice mbr 510 2))
  let ptype ← .ofOption mbr[450]?
  check (ptype = 0xEE) (.partitionType ptype)

/-- The header, for the size of the part of it that has the entries. -/
def inspectGpt (data : List Byte) : Report Line Nat := do
  let gpt := slice data S S
  let sig := slice gpt 0 8
  check (sig = ascii "EFI PART") (.gptSignature sig)
  let my_lba ← .ofOption (unpackFrom gpt 24 8)
  let alt_lba ← .ofOption (unpackFrom gpt 32 8)
  let first_u ← .ofOption (unpackFrom gpt 40 8)
  let last_u ← .ofOption (unpackFrom gpt 48 8)
  let pe_lba ← .ofOption (unpackFrom gpt 72 8)
  let n_parts ← .ofOption (unpackFrom gpt 80 4)
  let pe_size ← .ofOption (unpackFrom gpt 84 4)
  info (.header my_lba alt_lba first_u last_u)
  info (.entries pe_lba n_parts pe_size)
  check (my_lba = 1) (.myLba my_lba)
  let h := gpt.take 92
  let stored_hcrc ← .ofOption (unpackFrom h 16 4)
  let calc_hcrc := crc32 (put h 16 (zeros 4))
  check (calc_hcrc = stored_hcrc) (.headerCrc stored_hcrc calc_hcrc)
  pure pe_size

def ESP_GUID : List Byte :=
  [0x28, 0x73, 0x2A, 0xC1, 0x1F, 0xF8, 0xD2, 0x11, 0xBA, 0x4B, 0x00, 0xA0, 0xC9, 0x3E, 0xC9, 0x3B]

/-- The first entry, for where the partition starts and ends. -/
def inspectEntry (data : List Byte) (pe_size : Nat) : Report Line (Nat × Nat) := do
  let pe := slice data (2 * S) pe_size
  let type_guid := slice pe 0 16
  let part_start ← .ofOption (unpackFrom pe 32 8)
  let part_end ← .ofOption (unpackFrom pe 40 8)
  check (type_guid = ESP_GUID) (.typeGuid type_guid)
  info (.partition part_start part_end
    ((((part_end : Int) - part_start + 1) * (S : Int)).fdiv 1024))
  info (.name (slice pe 56 72))
  pure (part_start, part_end)

/-- The checks on the cluster count of a volume without the fields of FAT32. -/
def checkCount (nc : Int) : Report Line Unit :=
  if nc ≥ 4085 ∧ nc < 65525 then .print (.ok (.clusterCount nc))
  else if nc < 4085 then .print (.err (.clusterCount nc))
  else pure ()

/-- The boot sector. -/
def inspectFat (bs : List Byte) (part_start part_end : Nat) : Report Line Geometry := do
  check (slice bs 510 2 = [0x55, 0xAA]) (.bootSignature (slice bs 510 2))
  let bps ← .ofOption (unpackFrom bs 11 2)
  let spc ← .ofOption bs[13]?
  let res ← .ofOption (unpackFrom bs 14 2)
  let nf ← .ofOption bs[16]?
  let nre ← .ofOption (unpackFrom bs 17 2)
  let tot16 ← .ofOption (unpackFrom bs 19 2)
  let fat16 ← .ofOption (unpackFrom bs 22 2)
  let tot32 ← .ofOption (unpackFrom bs 32 4)
  let fat32 ← .ofOption (unpackFrom bs 36 4)
  info (.sectors bps spc res nf)
  info (.counts nre tot16 fat16 tot32 fat32)
  check (bps = 512) (.bytesPerSector bps)
  let tot := if tot32 ≠ 0 then tot32 else tot16
  if fat32 > 0 then
    let root_cl ← .ofOption (unpackFrom bs 44 4)
    let fat_type_str := slice bs 82 8
    info (.fat32 root_cl fat_type_str)
    check (ascii "FAT32" <:+: fat_type_str) (.fatType fat_type_str)
    let data_start := res + nf.toNat * fat32
    let nc ← .ofOption (floorDiv ((tot : Int) - data_start) spc.toNat)
    info (.clusters nc)
    pure ⟨part_start, part_end, bps, spc.toNat, res, nf.toNat, nre, tot16, fat16, tot32, fat32, nc⟩
  else
    let data_start := res + nf.toNat * fat16 + (nre * 32 + 511) / 512
    let nc ← .ofOption (floorDiv ((tot : Int) - data_start) spc.toNat)
    let fat_type_str := slice bs 54 8
    info (.fat16 data_start nc)
    info (.fatString fat_type_str)
    checkCount nc
    check (ascii "FAT16" <:+: fat_type_str) (.fatType fat_type_str)
    pure ⟨part_start, part_end, bps, spc.toNat, res, nf.toNat, nre, tot16, fat16, tot32, fat32, nc⟩

def inspectFiles (fat_raw : List Byte) : Report Line Unit := do
  let bootx64_pos := find fat_raw (ascii "BOOTX64")
  let micront_pos := find fat_raw (ascii "MICRONT")
  check (bootx64_pos > 0) (.bootx64 bootx64_pos)
  check (micront_pos > 0) (.micront micront_pos)
  let mz_pos2 := find fat_raw (ascii "MZ")
  check (mz_pos2 > 0) (.mz mz_pos2)

/-- All sections. Where the partition starts behind the end of the file `main` returns before
its summary, here without a value. -/
def sections (data : List Byte) : Report Line (Option Geometry) := do
  inspectFooter data
  inspectMbr data
  let pe_size ← inspectGpt data
  let part ← inspectEntry data pe_size
  let esp_off := part.1 * S
  if esp_off ≥ data.length then
    .print (.err (.espOffset esp_off))
    pure none
  else
    let geometry ← inspectFat (slice data esp_off S) part.1 part.2
    inspectFiles (data.drop esp_off)
    pure (some geometry)

/-- `main`: `OK` stays as it is as long as no check fails. -/
def inspect (data : List Byte) : Report Line Geometry :=
  let report := sections data
  match report.value with
  | some (some geometry) =>
    ⟨report.lines ++ [.summary (report.lines.all fun l => !l.isErr)], some geometry⟩
  | some none => ⟨report.lines, none⟩
  | none => ⟨report.lines, none⟩

/-- It comes to the value `a`, and no check failed on the way. -/
abbrev Clean {α : Type} (x : Report Line α) (a : α) : Prop := x.Gives (fun l => l.isErr = false) a

/-- The image is passed, as one with the numbers `g`. -/
def Passes (data : List Byte) (g : Geometry) : Prop := Clean (inspect data) g

/-! ## What is passed -/

section

open Report

variable {data bs : List Byte} {g : Geometry}

@[simp] theorem clean_check {holds : Prop} [Decidable holds] {c : Check} {u : Unit} :
    Clean (check holds c) u ↔ holds := by
  rw [Clean, check, gives_print]
  split
  case isTrue yes => exact iff_of_true rfl yes
  case isFalse no => exact iff_of_false (fun e => by cases e) no

@[simp] theorem clean_info {i : Info} {u : Unit} : Clean (info i) u ↔ True := by
  rw [Clean, info, gives_print]
  exact iff_of_true rfl trivial

theorem unpackFrom_eq_some {b : List Byte} {off w v : Nat} :
    unpackFrom b off w = some v ↔ off + w ≤ b.length ∧ field b off w = v := by
  unfold unpackFrom
  split
  case isTrue room => simp [room]
  case isFalse short => simp [short]

theorem unpackFromBe_eq_some {b : List Byte} {off w v : Nat} :
    unpackFromBe b off w = some v ↔ off + w ≤ b.length ∧ beField b off w = v := by
  unfold unpackFromBe
  split
  case isTrue room => simp [room]
  case isFalse short => simp [short]

theorem floorDiv_eq_some {a b c : Int} : floorDiv a b = some c ↔ b ≠ 0 ∧ a.fdiv b = c := by
  unfold floorDiv
  split
  case isTrue zero => simp [zero]
  case isFalse pos => simp [pos]

/-- The footer is that of a fixed VHD. -/
structure FixedVhd (footer : List Byte) : Prop where
  cookie : slice footer 0 8 = ascii "conectix"
  fixed : beField footer 60 4 = 2
  checksum : checksum (put footer 64 (zeros 4)) = beField footer 64 4

theorem clean_inspectFooter {u : Unit} (h : Clean (inspectFooter data) u) :
    FixedVhd (data.drop (data.length - S)) := by
  unfold inspectFooter at h
  simp only [Clean, gives_bind] at h
  simp only [gives_ofOption, unpackFromBe_eq_some] at h
  simp only [clean_check, clean_info] at h
  obtain ⟨disk_type, ⟨-, type⟩, -, -, -, -, -, cookie, -, fixed, -, -, -, -, -, -, -, -, stored,
    ⟨-, sum⟩, same⟩ := h
  exact ⟨cookie, type.trans fixed, same.trans sum.symm⟩

theorem clean_inspectMbr {u : Unit} (h : Clean (inspectMbr data) u) :
    slice data 510 2 = [0x55, 0xAA] ∧ data[450]? = some 0xEE := by
  simp only [Clean, inspectMbr, gives_bind, clean_check, gives_ofOption] at h
  obtain ⟨-, sig, ptype, there, rfl⟩ := h
  rw [slice_slice (by decide)] at sig
  rw [slice, List.getElem?_take_of_lt (by decide), List.getElem?_drop] at there
  exact ⟨sig, there⟩

/-- Sector 1 has the header of a GPT. -/
structure GptHeader (data : List Byte) : Prop where
  signature : slice data S 8 = ascii "EFI PART"
  my_lba : field data (S + 24) 8 = 1
  crc : crc32 (put (slice data S 92) 16 (zeros 4)) = field data (S + 16) 4

theorem clean_inspectGpt {pe_size : Nat} (h : Clean (inspectGpt data) pe_size) :
    GptHeader data ∧ pe_size = field data (S + 84) 4 := by
  simp only [Clean, inspectGpt, gives_bind, clean_check, clean_info, gives_ofOption,
    unpackFrom_eq_some, gives_pure] at h
  obtain ⟨-, sig, my_lba, ⟨-, first⟩, -, -, -, -, -, -, -, -, -, -, size, ⟨-, entries⟩, -, -, -, -,
    -, one, stored, ⟨-, crc⟩, -, same, rfl⟩ := h
  rw [field_slice (by decide)] at first entries
  rw [take_slice (by decide)] at crc same
  rw [field_slice (by decide)] at crc
  rw [slice_slice (by decide)] at sig
  exact ⟨⟨sig, first.trans one, same.trans crc.symm⟩, entries.symm⟩

theorem clean_inspectEntry {pe_size : Nat} {part : Nat × Nat}
    (h : Clean (inspectEntry data pe_size) part) :
    slice data (2 * S) 16 = ESP_GUID ∧
      part = (field data (2 * S + 32) 8, field data (2 * S + 40) 8) := by
  simp only [Clean, inspectEntry, gives_bind, clean_check, clean_info, gives_ofOption,
    unpackFrom_eq_some, gives_pure] at h
  obtain ⟨start, ⟨-, start_eq⟩, last, ⟨room, last_eq⟩, -, guid, -, -, -, -, rfl⟩ := h
  have large : 48 ≤ pe_size := by
    rw [slice, List.length_take] at room
    omega
  rw [field_slice (by omega)] at start_eq last_eq
  rw [slice_slice (by omega)] at guid
  rw [start_eq, last_eq]
  exact ⟨guid, rfl⟩

theorem field_of_getElem? {b : List Byte} {i : Nat} {x : Byte} (h : b[i]? = some x) :
    field b i 1 = x.toNat := by
  obtain ⟨room, rfl⟩ := List.getElem?_eq_some_iff.mp h
  rw [field, slice, List.drop_eq_getElem_cons room, List.take_succ_cons, List.take_zero]
  exact Nat.add_zero _

def Geometry.tot (g : Geometry) : Nat := if g.tot32 ≠ 0 then g.tot32 else g.tot16

def Geometry.dataStart (g : Geometry) : Nat :=
  if g.fat32 > 0 then g.res + g.nf * g.fat32 else g.res + g.nf * g.fat16 + (g.nre * 32 + 511) / 512

/-- The numbers are those of the boot sector `bs`. -/
structure Geometry.Of (g : Geometry) (bs : List Byte) : Prop where
  bps : g.bps = field bs 11 2
  spc : g.spc = field bs 13 1
  res : g.res = field bs 14 2
  nf : g.nf = field bs 16 1
  nre : g.nre = field bs 17 2
  tot16 : g.tot16 = field bs 19 2
  fat16 : g.fat16 = field bs 22 2
  tot32 : g.tot32 = field bs 32 4
  fat32 : g.fat32 = field bs 36 4
  nc : g.nc = ((g.tot : Int) - g.dataStart).fdiv g.spc

/-- A boot sector that is passed. -/
structure Volume (bs : List Byte) (g : Geometry) : Prop where
  signature : slice bs 510 2 = [0x55, 0xAA]
  read : g.Of bs
  sector : g.bps = 512
  spc_pos : g.spc ≠ 0
  type : if g.fat32 > 0 then ascii "FAT32" <:+: slice bs 82 8
    else 4085 ≤ g.nc ∧ ascii "FAT16" <:+: slice bs 54 8

theorem clean_checkCount {nc : Int} {u : Unit} (h : Clean (checkCount nc) u) : 4085 ≤ nc := by
  unfold checkCount at h
  split at h
  case isTrue range => exact range.1
  case isFalse =>
    split at h
    case isTrue =>
      rw [Clean, gives_print] at h
      cases h
    case isFalse large => omega

theorem clean_inspectFat {first last : Nat} (h : Clean (inspectFat bs first last) g) :
    Volume bs g ∧ g.part_start = first ∧ g.part_end = last := by
  unfold inspectFat at h
  simp only [Clean, gives_bind] at h
  simp only [gives_ofOption, unpackFrom_eq_some] at h
  simp only [clean_check, clean_info] at h
  obtain ⟨-, signature, bps, ⟨-, hbps⟩, spc, hspc, res, ⟨-, hres⟩, nf, hnf, nre, ⟨-, hnre⟩, tot16,
    ⟨-, htot16⟩, fat16, ⟨-, hfat16⟩, tot32, ⟨-, htot32⟩, fat32, ⟨-, hfat32⟩, -, -, -, -, -, sector,
    h⟩ := h
  have hspc := field_of_getElem? hspc
  have hnf := field_of_getElem? hnf
  let numbers (nc : Int) : Geometry :=
    ⟨first, last, bps, spc.toNat, res, nf.toNat, nre, tot16, fat16, tot32, fat32, nc⟩
  have read : ∀ nc, nc = (((numbers nc).tot : Int) - (numbers nc).dataStart).fdiv spc.toNat →
      (numbers nc).Of bs := fun nc count => ⟨hbps.symm, hspc.symm, hres.symm, hnf.symm, hnre.symm,
    htot16.symm, hfat16.symm, htot32.symm, hfat32.symm, count⟩
  have divides : (spc.toNat : Int) ≠ 0 → spc.toNat ≠ 0 := fun pos zero =>
    pos (Int.natCast_eq_zero.mpr zero)
  split at h
  case isTrue large =>
    simp only [gives_bind, gives_ofOption, floorDiv_eq_some, gives_pure, clean_check,
      clean_info] at h
    obtain ⟨-, -, -, -, -, type, nc, ⟨pos, hnc⟩, -, -, rfl⟩ := h
    refine ⟨⟨signature, read nc ?_, sector, divides pos, ?_⟩, rfl, rfl⟩
    · rw [Geometry.tot, Geometry.dataStart, if_pos large, hnc]
    · rwa [if_pos large]
  case isFalse small =>
    simp only [gives_bind, gives_ofOption, floorDiv_eq_some, gives_pure, clean_check,
      clean_info] at h
    obtain ⟨nc, ⟨pos, hnc⟩, -, -, -, -, _, count, -, type, rfl⟩ := h
    refine ⟨⟨signature, read nc ?_, sector, divides pos, ?_⟩, rfl, rfl⟩
    · rw [Geometry.tot, Geometry.dataStart, if_neg small, hnc]
    · rw [if_neg small]
      exact ⟨clean_checkCount count, type⟩

theorem clean_inspectFiles {u : Unit} (h : Clean (inspectFiles bs) u) :
    0 < find bs (ascii "BOOTX64") ∧ 0 < find bs (ascii "MICRONT") ∧ 0 < find bs (ascii "MZ") := by
  unfold inspectFiles at h
  simp only [Clean, gives_bind, clean_check] at h
  obtain ⟨-, bootx64, -, micront, mz⟩ := h
  exact ⟨bootx64, micront, mz⟩

/-- What an image is like that is passed. -/
structure Accepted (data : List Byte) (g : Geometry) : Prop where
  footer : FixedVhd (data.drop (data.length - S))
  mbr : slice data 510 2 = [0x55, 0xAA]
  protective : data[450]? = some 0xEE
  gpt : GptHeader data
  type_guid : slice data (2 * S) 16 = ESP_GUID
  part_start : g.part_start = field data (2 * S + 32) 8
  part_end : g.part_end = field data (2 * S + 40) 8
  inside : g.part_start * S < data.length
  volume : Volume (slice data (g.part_start * S) S) g
  bootx64 : 0 < find (data.drop (g.part_start * S)) (ascii "BOOTX64")
  micront : 0 < find (data.drop (g.part_start * S)) (ascii "MICRONT")
  mz : 0 < find (data.drop (g.part_start * S)) (ascii "MZ")

theorem clean_sections {geometry : Option Geometry} (h : Clean (sections data) geometry) :
    ∃ g, geometry = some g ∧ Accepted data g := by
  unfold sections at h
  simp only [Clean, gives_bind] at h
  obtain ⟨_, footer, _, mbr, pe_size, gpt, part, entry, h⟩ := h
  obtain ⟨mbr, protective⟩ := clean_inspectMbr mbr
  obtain ⟨gpt, -⟩ := clean_inspectGpt gpt
  obtain ⟨guid, rfl⟩ := clean_inspectEntry entry
  split at h
  case isTrue beyond =>
    simp only [gives_bind, gives_print] at h
    obtain ⟨-, ok, -⟩ := h
    cases ok
  case isFalse inside =>
    simp only [gives_bind, gives_pure] at h
    obtain ⟨g, fat, _, files, rfl⟩ := h
    obtain ⟨volume, start, last⟩ := clean_inspectFat fat
    obtain ⟨bootx64, micront, mz⟩ := clean_inspectFiles files
    rw [← start] at volume bootx64 micront mz inside
    exact ⟨g, rfl, clean_inspectFooter footer, mbr, protective, gpt, guid, start, last,
      Nat.not_le.mp inside, volume, bootx64, micront, mz⟩

theorem passes_iff : Passes data g ↔ Clean (sections data) (some g) := by
  unfold Passes Clean Gives inspect
  generalize sections data = report
  obtain ⟨lines, _ | _ | geometry⟩ := report
  · simp
  · simp
  · have last : ∀ l ∈ [Line.summary (lines.all fun l => !l.isErr)], l.isErr = false :=
      List.forall_mem_singleton.mpr rfl
    exact and_congr (by simp) (List.forall_mem_append.trans (and_iff_left last))

/-- The last line says so. -/
theorem summary_of_passes (h : Passes data g) :
    (inspect data).lines.getLast? = some (.summary true) := by
  obtain ⟨value, all⟩ := passes_iff.mp h
  have ok : ((sections data).lines.all fun l => !l.isErr) = true :=
    List.all_eq_true.mpr fun l m => by rw [all l m]; rfl
  unfold inspect
  simp only [value, ok, List.getLast?_concat]

/-- **What is passed is well formed**: a fixed VHD with a protective MBR and a GPT, whose first
partition is an EFI system partition with a FAT volume; and the numbers shown are those of
its boot sector. -/
theorem accepted_of_passes (h : Passes data g) : Accepted data g := by
  obtain ⟨g', same, accepted⟩ := clean_sections (passes_iff.mp h)
  obtain rfl := Option.some.inj same
  exact accepted

end

/-! ## The images of the builder -/

section

open Report
open Mkdisk (Front Footer Host mkdisk)

variable {disk footer : List Byte} {n : Nat}

theorem inspectFooter_spec (len : disk.length = n) (h : Footer n footer) :
    ∃ sum, inspectFooter (disk ++ footer) = ⟨[.ok (.cookie (ascii "conectix")), .ok (.diskType 2),
      .info (.currentSize n (n / 1048576)), .info (.originalSize n), .info (.fileSize (n + S)),
      .info (.rawDiskSize n), .ok (.footerChecksum sum sum)], some ()⟩ := by
  refine ⟨beField footer 64 4, ?_⟩
  have last : (disk ++ footer).drop ((disk ++ footer).length - S) = footer := by
    rw [List.length_append, h.length, Nat.add_sub_cancel, List.drop_left]
  have read : ∀ {off w : Nat}, off + w ≤ S →
      unpackFromBe footer off w = some (beField footer off w) :=
    fun le => if_pos (by rwa [h.length])
  have size : (disk ++ footer).length = n + S := by
    rw [List.length_append, len, h.length]
  have raw : ((n + S : Nat) : Int) - 512 = n := Int.add_sub_cancel (n : Int) 512
  unfold inspectFooter
  rw [last]
  simp only [read (show 60 + 4 ≤ S by decide), read (show 40 + 8 ≤ S by decide),
    read (show 48 + 8 ≤ S by decide), read (show 64 + 4 ≤ S by decide)]
  simp only [ofOption_some_bind]
  simp only [h.cookie, h.fixed, h.current, h.original, h.checksum, check, info, if_true, print_bind,
    size, raw]
  rfl

theorem inspectMbr_spec (len : S ≤ disk.length) (h : Front disk) :
    inspectMbr (disk ++ footer) =
      ⟨[.ok (.mbrSignature [0x55, 0xAA]), .err (.partitionType 0xEF)], some ()⟩ := by
  have first : slice (disk ++ footer) 0 S = slice disk 0 S := slice_append (by omega)
  have sig : slice (slice disk 0 S) 510 2 = [0x55, 0xAA] := by
    rw [slice_slice (by decide)]
    exact h.signature
  have ptype : (slice disk 0 S)[450]? = some 0xEF := by
    rw [slice, List.getElem?_take_of_lt (by decide), List.getElem?_drop]
    exact h.type
  unfold inspectMbr
  rw [first]
  simp only [sig, ptype, ofOption_some_bind, check, print_bind, if_true]
  rfl

/-- A sector of zeros. -/
structure Blank (b : List Byte) : Prop where
  read : ∀ {off w : Nat}, off + w ≤ S → unpackFrom b off w = some 0
  signature : slice b 0 8 = zeros 8
  header : b.take 92 = zeros 92

theorem blank_zeros : Blank (zeros S) where
  read := fun {off w} le => by
    rw [unpackFrom, length_zeros, if_pos le, field, zeros, slice_replicate le, ← zeros, leNat_zeros]
  signature := slice_replicate (by decide)
  header := by
    rw [zeros, List.take_replicate, Nat.min_eq_left (by decide), ← zeros]

theorem put_zeros {n off w : Nat} (h : off + w ≤ n) : put (zeros n) off (zeros w) = zeros n := by
  have same : slice (zeros n) off w = zeros w := slice_replicate h
  rw [← same, put_slice (by rwa [length_zeros])]

theorem crc32_blank : crc32 (zeros 92) = 0xC2B526E7 := by
  -- half of the bytes at a time, or the evaluation goes too deep
  have half : (zeros 46).foldl crcByte 0xFFFFFFFF#32 = 0xFC80F714#32 := by decide +kernel
  have rest : (zeros 46).foldl crcByte 0xFC80F714#32 = 0x3D4AD918#32 := by decide +kernel
  have parts : zeros 92 = zeros 46 ++ zeros 46 := List.replicate_add 46 46 0#8
  rw [crc32, parts, List.foldl_append, half, rest]
  rfl

/-- A blank sector has no header: its signature, its number and its checksum are wrong. -/
theorem inspectGpt_blank (h : Blank (slice data S S)) :
    inspectGpt data = ⟨[.err (.gptSignature (zeros 8)), .info (.header 0 0 0 0),
      .info (.entries 0 0 0), .err (.myLba 0), .err (.headerCrc 0 0xC2B526E7)], some 0⟩ := by
  have stored : unpackFrom (zeros 92) 16 4 = some 0 := rfl
  have sig : zeros 8 ≠ ascii "EFI PART" := by decide
  have read := @h.read
  unfold inspectGpt
  simp only [h.signature, h.header]
  generalize slice data S S = gpt at read
  simp only [read (show 24 + 8 ≤ S by decide), read (show 32 + 8 ≤ S by decide),
    read (show 40 + 8 ≤ S by decide), read (show 48 + 8 ≤ S by decide),
    read (show 72 + 8 ≤ S by decide), read (show 80 + 4 ≤ S by decide),
    read (show 84 + 4 ≤ S by decide), stored, put_zeros (show 16 + 4 ≤ 92 by decide), crc32_blank]
  generalize zeros 8 = first at sig
  simp only [ofOption_some_bind, check, info, print_bind, if_neg sig, if_neg Nat.zero_ne_one]
  rfl

/-- No entry can be read from no bytes. -/
theorem inspectEntry_zero (data : List Byte) : inspectEntry data 0 = ⟨[], none⟩ := by
  unfold inspectEntry
  rw [slice_zero]
  rfl

/-- The sections on any image of the builder: the footer is right, the type of the partition and
all of the header are not, and there is no entry. -/
theorem sections_of_front {disk footer : List Byte} (len : disk.length = n) (large : 2 * S ≤ n)
    (h : Front disk) (close : Footer n footer) :
    ∃ sum, sections (disk ++ footer) = ⟨[.ok (.cookie (ascii "conectix")), .ok (.diskType 2),
      .info (.currentSize n (n / 1048576)), .info (.originalSize n), .info (.fileSize (n + S)),
      .info (.rawDiskSize n), .ok (.footerChecksum sum sum), .ok (.mbrSignature [0x55, 0xAA]),
      .err (.partitionType 0xEF), .err (.gptSignature (zeros 8)), .info (.header 0 0 0 0),
      .info (.entries 0 0 0), .err (.myLba 0), .err (.headerCrc 0 0xC2B526E7)], none⟩ := by
  obtain ⟨sum, first⟩ := inspectFooter_spec len close
  have blank : Blank (slice (disk ++ footer) S S) := by
    have gap : slice (disk ++ footer) S S = zeros S := by
      rw [slice_append (by omega), ← take_slice (show S ≤ 2047 * S by decide), h.gap, zeros,
        List.take_replicate, Nat.min_eq_left (by decide), ← zeros]
    rw [gap]
    exact blank_zeros
  refine ⟨sum, ?_⟩
  unfold sections
  rw [first, inspectMbr_spec (by omega) h, inspectGpt_blank blank, bind_of_some rfl,
    bind_of_some rfl, bind_of_some rfl, inspectEntry_zero, bind_of_none rfl]
  rfl

end

/-! ## Builder and inspector -/

section

open Report
open Mkdisk

variable {upper : List Char → List Char} {host : Host} {efi_data elf_data image : List Byte}

/-- The partition and its file system as the builder writes them. -/
def written (efi_data elf_data : List Byte) : Geometry :=
  let part_sectors := partSectors efi_data elf_data
  let fat_sec := fatSec part_sectors
  { part_start := PART_START
    part_end := diskSectors efi_data elf_data - 1
    bps := S
    spc := SPC
    res := RES
    nf := NF
    nre := 0
    tot16 := 0
    fat16 := 0
    tot32 := part_sectors
    fat32 := fat_sec
    nc := clusterCount part_sectors fat_sec }

/-- The inspector reports no error, and if it passes the image its numbers are `w`. -/
structure Agrees (image : List Byte) (w : Geometry) : Prop where
  noError : (inspect image).All fun l => l.isErr = false
  same : ∀ g, Passes image g → g = w

/-- **The report on every image of the builder**: four errors, and then an entry is read from
nothing, which raises. -/
theorem inspect_mkdisk (h : mkdisk upper host efi_data elf_data = some image) :
    ∃ n sum, inspect image = ⟨[.ok (.cookie (ascii "conectix")), .ok (.diskType 2),
      .info (.currentSize n (n / 1048576)), .info (.originalSize n), .info (.fileSize (n + S)),
      .info (.rawDiskSize n), .ok (.footerChecksum sum sum), .ok (.mbrSignature [0x55, 0xAA]),
      .err (.partitionType 0xEF), .err (.gptSignature (zeros 8)), .info (.header 0 0 0 0),
      .info (.entries 0 0 0), .err (.myLba 0), .err (.headerCrc 0 0xC2B526E7)], none⟩ := by
  obtain ⟨disk, footer, rfl, front, len, close⟩ := mkdisk_spec h
  have large := (diskSectors_ge efi_data elf_data).1
  obtain ⟨sum, sections_eq⟩ := sections_of_front len (by rw [S]; omega) front close
  refine ⟨diskSectors efi_data elf_data * S, sum, ?_⟩
  unfold inspect
  rw [sections_eq]

theorem not_agrees (h : mkdisk upper host efi_data elf_data = some image) (w : Geometry) :
    ¬ Agrees image w := by
  intro agrees
  obtain ⟨n, sum, report⟩ := inspect_mkdisk h
  have clean := agrees.noError
  rw [report] at clean
  have type := clean (.err (.partitionType 0xEF)) (by simp)
  cases type

/-- **Builder and inspector never agree**: whatever the boot loader, the kernel and the host,
the inspector reports an error for the image, and does not pass it. -/
theorem inspector_rejects (h : mkdisk upper host efi_data elf_data = some image) :
    ¬ Agrees image (written efi_data elf_data) ∧ ∀ g, ¬ Passes image g := by
  refine ⟨not_agrees h _, fun g passes => ?_⟩
  obtain ⟨n, sum, report⟩ := inspect_mkdisk h
  have value := passes.1
  rw [report] at value
  cases value

/-- The smallest boot loader that the builder takes: no more than the fields it looks at. -/
def smallEfi : List Byte :=
  putAll (zeros 160) [(0, ascii "MZ"), (0x3C, leBytes 4 64), (64, ascii "PE"),
    (68, leBytes 2 0x8664), (88, leBytes 2 0x020B), (156, leBytes 2 10)]

def quietHost : Host := ⟨epoch, zeros 16, rfl, []⟩

theorem small_written : ∃ image, mkdisk id quietHost smallEfi [] = some image := by
  have sectors : partSectors smallEfi [] = 129024 := by decide +kernel
  refine mkdisk_writes (by decide +kernel) ?_ (by decide) (by decide +kernel)
  rw [sectors]
  exact ⟨by decide, by decide, by decide +kernel,
    ⟨by decide, by decide, by decide +kernel, by decide, fun x m => absurd m List.not_mem_nil⟩⟩

theorem inspector_rejects_small :
    ∃ image, mkdisk id quietHost smallEfi [] = some image ∧
      ¬ Agrees image (written smallEfi []) ∧ ∀ g, ¬ Passes image g := by
  obtain ⟨image, h⟩ := small_written
  exact ⟨image, h, inspector_rejects h⟩

/-- The image of the smallest boot loader with an empty kernel is reported. -/
theorem builder_inspector_disagree :
    ¬ ∀ upper host efi_data elf_data image, mkdisk upper host efi_data elf_data = some image →
      Agrees image (written efi_data elf_data) := by
  intro agree
  obtain ⟨image, h⟩ := small_written
  exact not_agrees h _ (agree id quietHost smallEfi [] image h)

end

end MicroNT.InspectVhd
