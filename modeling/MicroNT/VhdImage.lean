import MicroNT.DiskRoundTrip
import Mathlib.Data.List.Infix

/-! # The disk image (tools/mkdisk.py)

`main` writes an MBR with one partition of type 0xEF, the FAT32 volume from sector 2048 on,
and behind the disk the footer of a fixed VHD. Here is the builder, when it writes an image,
and what a reader sees in the sectors in front of the partition and in the footer. -/

namespace MicroNT.Mkdisk

open Base.Bytes Base.Fat

/-! ## The builder -/

def MBR_SIG : Nat := 0x4E544D52
def PART_START : Nat := 2048
def PART_TYPE : Nat := 0xEF

/-- What the builder takes from the machine it runs on. -/
structure Host where
  /-- `int(time.time())` -/
  now : Int
  /-- `uuid4().bytes` -/
  uuid : List Byte
  uuid_length : uuid.length = 16
  /-- The programs next to the script, in the order of their names. -/
  extra_files : List (List Char × List Byte)

/-- `_chs`: cylinders, heads and sectors of a track. -/
def chs (tot : Nat) : Nat × Nat × Nat :=
  let spt := 17
  let cth := tot / spt
  let heads := max 4 ((cth + 1023) / 1024)
  let (spt, heads, cth) :=
    if heads > 16 ∨ cth ≥ heads * 1024 then (31, 16, tot / 31) else (spt, heads, cth)
  let (spt, heads, cth) := if cth ≥ heads * 1024 then (63, 16, tot / 63) else (spt, heads, cth)
  (cth / heads, heads, spt)

/-- `(~sum(buf)) & 0xFFFFFFFF` -/
def checksum (buf : List Byte) : Nat :=
  (~~~ BitVec.ofNat 32 (buf.foldl (fun sum x => sum + x.toNat) 0)).toNat

/-- The start of the year 2000. -/
def epoch : Int := 946684800

/-- The footer but for its checksum, around the bytes that depend on the disk and the host. -/
def footerWrites (stamp size cyl heads spt uuid : List Byte) : List (Nat × List Byte) :=
  [(0, ascii "conectix"), (8, beBytes 4 2), (12, beBytes 4 0x10000),
    (16, beBytes 8 0xFFFFFFFFFFFFFFFF), (24, stamp), (28, ascii "py  "), (32, beBytes 4 0x10000),
    (36, ascii "Wi2k"), (40, size), (48, size), (56, cyl), (58, heads), (59, spt),
    (60, beBytes 4 2), (68, uuid)]

/-- `struct.pack_into` raises where the disk is too large or the time too late. -/
def vhdFooter (now : Int) (uuid : List Byte) (disk_bytes : Nat) : Option (List Byte) := do
  let stamp ← packBe 4 (max 0 (now - epoch)).toNat
  let size ← packBe 8 disk_bytes
  let geometry := chs (disk_bytes / S)
  let cyl ← packBe 2 geometry.1
  let heads ← pack 1 geometry.2.1
  let spt ← pack 1 geometry.2.2
  let buf := putAll (zeros S) (footerWrites stamp size cyl heads spt uuid)
  some (put buf 64 (beBytes 4 (checksum buf)))

/-- The MBR, around the bytes of the two numbers that depend on the partition. -/
def mbrWrites (start sectors : List Byte) : List (Nat × List Byte) :=
  [(440, leBytes 4 MBR_SIG), (446, [0x00]), (447, [0x00]), (448, [0x02]), (449, [0x00]),
    (450, leBytes 1 PART_TYPE), (451, [0xFE]), (452, [0xFF]), (453, [0xFF]), (454, start),
    (458, sectors), (510, [0x55]), (511, [0xAA])]

def buildMbr (part_start part_sectors : Nat) : Option (List Byte) := do
  let start ← pack 4 part_start
  let sectors ← pack 4 part_sectors
  some (putAll (zeros S) (mbrWrites start sectors))

/-- Why `verify_efi` stops the builder. -/
inductive EfiFault where
  | tooSmall
  | missingMZ
  | lfanewOutOfBounds
  | badSignature
  | machine (mach : Nat)
  | magic (mag : Nat)
  | subsystem (sub : Nat)
  deriving DecidableEq

def verifyEfi (data : List Byte) : Except EfiFault Unit := do
  if data.length < 64 then throw .tooSmall
  if slice data 0 2 ≠ ascii "MZ" then throw .missingMZ
  let lfa := field data 0x3C 4
  if data.length < lfa + 96 then throw .lfanewOutOfBounds
  if slice data lfa 4 ≠ ascii "PE" ++ zeros 2 then throw .badSignature
  let mach := field data (lfa + 4) 2
  let mag := field data (lfa + 24) 2
  let sub := field data (lfa + 92) 2
  if mach ≠ 0x8664 then throw (.machine mach)
  if mag ≠ 0x020B then throw (.magic mag)
  if sub ≠ 10 then throw (.subsystem sub)

section

variable (upper : List Char → List Char) (host : Host) (efi_data elf_data : List Byte)

def diskMB : Nat :=
  let content_mb := (efi_data.length + elf_data.length + 1048575) / 1048576
  max 64 (content_mb + 4)

def diskSectors : Nat := diskMB efi_data elf_data * 2048
def partSectors : Nat := diskSectors efi_data elf_data - PART_START

/-- `assert` -/
def assert (p : Prop) [Decidable p] : Option Unit := if p then some () else none

/-- The disk, if the sanity checks hold. -/
def buildDisk : Option (List Byte) := do
  let part_sectors := partSectors efi_data elf_data
  let mbr ← buildMbr PART_START part_sectors
  let disk := put (zeros (diskSectors efi_data elf_data * S)) 0 mbr
  let fat ← buildFat32Part upper efi_data elf_data part_sectors PART_START host.extra_files
  assert (fat.length = part_sectors * S)
  let disk := put disk (PART_START * S) fat
  assert (slice disk 510 2 = [0x55, 0xAA])
  assert (slice disk 450 1 = [0xEF])
  assert (ascii "BOOTX64" <:+: disk)
  assert (ascii "FAT32   " <:+: disk)
  some disk

/-- `main`: the bytes of the file, or nothing where the boot loader is refused or the builder
raises. -/
def mkdisk : Option (List Byte) :=
  match verifyEfi efi_data with
  | .error _ => none
  | .ok _ => do
    let disk ← buildDisk upper host efi_data elf_data
    let footer ← vhdFooter host.now host.uuid (diskSectors efi_data elf_data * S)
    some (disk ++ footer)

end

/-! ## The footer -/

section

variable {now : Int} {uuid footer : List Byte} {n tot : Nat}

/-- What a reader sees in the footer of a disk of `n` bytes. -/
structure Footer (n : Nat) (footer : List Byte) : Prop where
  length : footer.length = S
  cookie : slice footer 0 8 = ascii "conectix"
  current : beField footer 40 8 = n
  original : beField footer 48 8 = n
  fixed : beField footer 60 4 = 2
  checksum : checksum (put footer 64 (zeros 4)) = beField footer 64 4

theorem checksum_lt (buf : List Byte) : checksum buf < 256 ^ 4 := BitVec.isLt _

/-- The checksum does not count itself. -/
theorem checksum_stored {buf : List Byte} (room : 64 + 4 ≤ buf.length)
    (free : slice buf 64 4 = zeros 4) :
    checksum (put (put buf 64 (beBytes 4 (checksum buf))) 64 (zeros 4)) = checksum buf := by
  rw [put_put (by rw [length_beBytes, length_zeros]) (by omega), ← free, put_slice room]

/-- **The footer is read back.** -/
theorem vhdFooter_spec (h : vhdFooter now uuid n = some footer) (id : uuid.length = 16) :
    Footer n footer := by
  simp only [vhdFooter, Option.bind_eq_bind, Option.bind_eq_some_iff] at h
  obtain ⟨stamp, hstamp, size, hsize, cyl, hcyl, heads, hheads, spt, hspt, same⟩ := h
  obtain ⟨-, rfl⟩ := packBe_eq_some hstamp
  obtain ⟨fits, rfl⟩ := packBe_eq_some hsize
  obtain ⟨-, rfl⟩ := packBe_eq_some hcyl
  obtain ⟨-, rfl⟩ := pack_eq_some hheads
  obtain ⟨-, rfl⟩ := pack_eq_some hspt
  generalize hws : footerWrites _ _ _ _ _ _ = ws at same
  have shape : spans ws = [(0, 8), (8, 4), (12, 4), (16, 8), (24, 4), (28, 4), (32, 4), (36, 4),
      (40, 8), (48, 8), (56, 2), (58, 1), (59, 1), (60, 4), (68, 16)] := by
    simp only [← hws, spans, footerWrites, List.map_cons, List.map_nil, length_beBytes,
      length_leBytes, id]
    rfl
  have laid : Laid (zeros S).length (spans ws) := by
    rw [shape, length_zeros]
    decide
  have len : (putAll (zeros S) ws).length = S := by
    rw [length_putAll laid, length_zeros]
  have room : 64 + 4 ≤ (putAll (zeros S) ws).length := by
    rw [len]
    decide
  have free : slice (putAll (zeros S) ws) 64 4 = zeros 4 := by
    rw [slice_putAll_of_apart laid (by rw [shape]; decide)]
    exact slice_replicate (by decide)
  have stored := checksum_stored room free
  generalize hc : checksum (putAll (zeros S) ws) = c at same stored
  have low : c < 256 ^ 4 := hc ▸ checksum_lt _
  have inside : 64 + (beBytes 4 c).length ≤ (putAll (zeros S) ws).length := by
    rwa [length_beBytes]
  have kept : ∀ {off w : Nat}, off + w ≤ 64 ∨ 68 ≤ off →
      slice footer off w = slice (putAll (zeros S) ws) off w := fun apart => by
    rw [← Option.some.inj same]
    exact slice_put_of_apart inside (by rwa [length_beBytes])
  have number : ∀ {off w v : Nat}, off + w ≤ 64 ∨ 68 ≤ off → (off, beBytes w v) ∈ ws →
      v < 256 ^ w → beField footer off w = v := fun apart m fits => by
    rw [beField, kept apart]
    exact beField_putAll laid m fits
  obtain rfl := Option.some.inj same
  refine ⟨?_, ?_, ?_, ?_, ?_, ?_⟩
  · rw [length_put inside, len]
  · rw [kept (by decide)]
    exact slice_putAll laid (w := (0, ascii "conectix")) (by simp [← hws, footerWrites])
  · exact number (by decide) (by simp [← hws, footerWrites]) fits
  · exact number (by decide) (by simp [← hws, footerWrites]) fits
  · exact number (by decide) (by simp [← hws, footerWrites]) (by decide)
  · have there : slice (put (putAll (zeros S) ws) 64 (beBytes 4 c)) 64 4 = beBytes 4 c := by
      have written := slice_put (x := beBytes 4 c) (Nat.le_of_add_right_le inside)
      rwa [length_beBytes] at written
    rw [stored, beField_of_slice there low]

end

/-! ## The disk -/

section

variable {upper : List Char → List Char} {host : Host} {efi_data elf_data disk image : List Byte}

/-- What a reader sees in front of the partition. -/
structure Front (disk : List Byte) : Prop where
  signature : slice disk 510 2 = [0x55, 0xAA]
  type : disk[450]? = some 0xEF
  gap : slice disk S (2047 * S) = zeros (2047 * S)

theorem assert_eq_some {p : Prop} [Decidable p] {u : Unit} (h : assert p = some u) : p := by
  unfold assert at h
  split at h
  case isTrue yes => exact yes
  case isFalse => cases h

theorem assert_of_true {p : Prop} [Decidable p] (h : p) : assert p = some () := if_pos h

theorem getElem?_of_slice {b : List Byte} {i : Nat} {x : Byte} (h : slice b i 1 = [x]) :
    b[i]? = some x := by
  rw [slice] at h
  have first : ((b.drop i).take 1)[0]? = some x := by rw [h]; rfl
  rwa [List.getElem?_take_of_lt (by decide), List.getElem?_drop, Nat.add_zero] at first

theorem diskSectors_ge (efi_data elf_data : List Byte) :
    131072 ≤ diskSectors efi_data elf_data ∧
      partSectors efi_data elf_data + PART_START = diskSectors efi_data elf_data := by
  rw [partSectors, diskSectors, diskMB, PART_START]
  omega

theorem laid_mbr (start sectors : Nat) :
    Laid (zeros S).length (spans (mbrWrites (leBytes 4 start) (leBytes 4 sectors))) := by
  rw [length_zeros]
  exact Rising.laid (a := 440) (show Rising S 440 [(440, 4), (446, 1), (447, 1), (448, 1), (449, 1),
    (450, 1), (451, 1), (452, 1), (453, 1), (454, 4), (458, 4), (510, 1), (511, 1)] by decide)

theorem buildMbr_eq_some {start sectors : Nat} {mbr : List Byte}
    (h : buildMbr start sectors = some mbr) :
    mbr = putAll (zeros S) (mbrWrites (leBytes 4 start) (leBytes 4 sectors)) := by
  simp only [buildMbr, Option.bind_eq_bind, Option.bind_eq_some_iff] at h
  obtain ⟨first, hfirst, size, hsize, same⟩ := h
  obtain ⟨-, rfl⟩ := pack_eq_some hfirst
  obtain ⟨-, rfl⟩ := pack_eq_some hsize
  exact (Option.some.inj same).symm

theorem length_buildMbr {start sectors : Nat} {mbr : List Byte}
    (h : buildMbr start sectors = some mbr) : mbr.length = S := by
  rw [buildMbr_eq_some h, length_putAll (laid_mbr start sectors), length_zeros]

/-- **The layout of the disk**: the sector of the MBR, zeros, and the partition. -/
theorem disk_layout {mbr fat : List Byte} (sector : mbr.length = S)
    (len : fat.length = partSectors efi_data elf_data * S)
    (whole : disk =
      put (put (zeros (diskSectors efi_data elf_data * S)) 0 mbr) (PART_START * S) fat) :
    disk.length = diskSectors efi_data elf_data * S ∧
      (∀ {off w : Nat}, off + w ≤ S → slice disk off w = slice mbr off w) ∧
      slice disk S (2047 * S) = zeros (2047 * S) := by
  obtain ⟨large, sum⟩ := diskSectors_ge efi_data elf_data
  have room : 0 + mbr.length ≤ (zeros (diskSectors efi_data elf_data * S)).length := by
    rw [length_zeros, sector, S]
    omega
  have inside : PART_START * S + fat.length ≤
      (put (zeros (diskSectors efi_data elf_data * S)) 0 mbr).length := by
    refine Nat.le_of_eq ?_
    rw [length_put room, length_zeros, len, ← sum, Nat.add_mul, Nat.add_comm]
  refine ⟨?_, @fun off w le => ?_, ?_⟩
  · rw [whole, length_put inside, length_put room, length_zeros]
  · have start : off + w ≤ PART_START * S := Nat.le_trans le (by decide)
    have there := slice_put (x := mbr) (Nat.le_of_add_right_le room)
    rw [whole, slice_put_of_apart inside (.inl start), ← Nat.zero_add off,
      ← slice_slice (by rwa [sector] : off + w ≤ mbr.length), there, Nat.zero_add]
  · rw [whole, slice_put_of_apart inside (.inl (by decide)),
      slice_put_of_apart room (.inr (by rw [sector]; decide))]
    exact slice_replicate (by rw [S]; omega)

/-- **The front of the disk is read back.** -/
theorem buildDisk_spec (h : buildDisk upper host efi_data elf_data = some disk) :
    disk.length = diskSectors efi_data elf_data * S ∧ Front disk := by
  simp only [buildDisk, Option.bind_eq_bind, Option.bind_eq_some_iff] at h
  obtain ⟨mbr, sector, fat, -, _, len, _, signature, _, type, _, -, _, -, same⟩ := h
  obtain rfl := Option.some.inj same
  obtain ⟨length, -, gap⟩ := disk_layout (length_buildMbr sector) (assert_eq_some len) rfl
  exact ⟨length, assert_eq_some signature, getElem?_of_slice (assert_eq_some type), gap⟩

/-- **An image is the disk and its footer.** -/
theorem mkdisk_spec (h : mkdisk upper host efi_data elf_data = some image) :
    ∃ disk footer, image = disk ++ footer ∧ Front disk ∧
      disk.length = diskSectors efi_data elf_data * S ∧
      Footer (diskSectors efi_data elf_data * S) footer := by
  unfold mkdisk at h
  split at h
  case h_1 => cases h
  case h_2 =>
    simp only [Option.bind_eq_bind, Option.bind_eq_some_iff] at h
    obtain ⟨disk, built, footer, closed, same⟩ := h
    obtain ⟨len, front⟩ := buildDisk_spec built
    exact ⟨disk, footer, (Option.some.inj same).symm, front, len,
      vhdFooter_spec closed host.uuid_length⟩

/-! ## When an image is written -/

/-- A disk of less than 31.5 GiB has a geometry. -/
theorem chs_fits {tot : Nat} (small : tot < 65536 * 1008) :
    (chs tot).1 < 256 ^ 2 ∧ (chs tot).2.1 < 256 ^ 1 ∧ (chs tot).2.2 < 256 ^ 1 := by
  unfold chs
  dsimp only
  split
  case isTrue =>
    dsimp only
    split
    case isTrue =>
      exact ⟨show tot / 63 / 16 < 256 ^ 2 by omega, show 16 < 256 ^ 1 by decide,
        show 63 < 256 ^ 1 by decide⟩
    case isFalse below =>
      exact ⟨show tot / 31 / 16 < 256 ^ 2 by omega, show 16 < 256 ^ 1 by decide,
        show 31 < 256 ^ 1 by decide⟩
  case isFalse few =>
    rw [not_or, Nat.not_lt, Nat.not_le] at few
    dsimp only
    rw [if_neg (Nat.not_le.mpr few.2)]
    refine ⟨?_, Nat.lt_of_le_of_lt few.1 (by decide), show 17 < 256 ^ 1 by decide⟩
    exact Nat.lt_of_lt_of_le (Nat.div_lt_of_lt_mul few.2) (by decide)

theorem buildMbr_of_lt {sectors : Nat} (h : sectors < 256 ^ 4) :
    ∃ mbr, buildMbr PART_START sectors = some mbr ∧ slice mbr 510 2 = [0x55, 0xAA] ∧
      slice mbr 450 1 = [0xEF] := by
  have start : PART_START < 256 ^ 4 := by decide
  have laid := laid_mbr PART_START sectors
  generalize hws : mbrWrites (leBytes 4 PART_START) (leBytes 4 sectors) = ws at laid
  have there : ∀ (off : Nat) (x : List Byte), (off, x) ∈ ws →
      slice (putAll (zeros S) ws) off x.length = x := fun _ _ m => slice_putAll laid m
  have first := there 510 [0x55] (by simp [← hws, mbrWrites])
  have second := there 511 [0xAA] (by simp [← hws, mbrWrites])
  have type := there 450 (leBytes 1 PART_TYPE) (by simp [← hws, mbrWrites])
  rw [List.length_singleton] at first second
  refine ⟨putAll (zeros S) ws, ?_, ?_, type⟩
  · simp only [buildMbr, pack_of_lt start, pack_of_lt h, Option.bind_eq_bind, Option.bind_some, hws]
  · rw [slice_add 1 1, first, second]
    rfl

theorem vhdFooter_of_lt {now : Int} {uuid : List Byte} {n : Nat} (early : now < epoch + 0x100000000)
    (small : n < 65536 * 1008 * S) : ∃ footer, vhdFooter now uuid n = some footer := by
  have sectors : n / S < 65536 * 1008 := Nat.div_lt_of_lt_mul (by rwa [Nat.mul_comm])
  obtain ⟨cyl, heads, spt⟩ := chs_fits sectors
  have stamp : (max 0 (now - epoch)).toNat < 256 ^ 4 := by omega
  have size : n < 256 ^ 8 := Nat.lt_trans small (by decide)
  simp only [vhdFooter, packBe_of_lt stamp, packBe_of_lt size, packBe_of_lt cyl, pack_of_lt heads,
    pack_of_lt spt, Option.bind_eq_bind, Option.bind_some]
  exact ⟨_, rfl⟩

variable (upper) in
/-- The partition has the texts that the sanity checks look for. -/
theorem texts_partition {xs : List (List Char × List Byte)} {P hidden : Nat}
    (h : Setting efi_data elf_data P hidden xs) :
    ascii "BOOTX64" <:+: partition upper efi_data elf_data P hidden xs ∧
      ascii "FAT32   " <:+: partition upper efi_data elf_data P hidden xs := by
  constructor
  · generalize he : dirent (ascii "BOOTX64") (ascii "EFI") CL_BX efi_data.length AFILE = e
    generalize hd : directory CSZ (dots CL_EB CL_EFI ++ [e]) = d
    have entry : slot d 2 = e := by
      rw [← hd]
      exact slot_directory (by simp [dots, ← he]) (show 32 * 3 ≤ 512 by decide) rfl
    have name : nameOf e = shortBytes (ascii "BOOTX64") (ascii "EFI") := he ▸ nameOf_dirent
    have there : slice (partition upper efi_data elf_data P hidden xs) (clo (fatSec P) CL_EB)
        d.length = d := slice_partition h (by simp [parts, ← hd, ← he])
    have text : ascii "BOOTX64" <:+: shortBytes (ascii "BOOTX64") (ascii "EFI") := by decide
    rw [← name, nameOf, ← entry, slot] at text
    have dir := text.trans (slice_occurs.trans slice_occurs)
    rw [← there] at dir
    exact dir.trans slice_occurs
  · have boot := sector_partition upper h
    have text : slice _ 82 8 = ascii "FAT32   " :=
      slice_putAll (laid_boot hidden P (fatSec P)) (w := (82, ascii "FAT32   "))
        (by simp [bootWrites])
    rw [← boot] at text
    rw [← text]
    exact slice_occurs.trans slice_occurs

/-- **The builder writes an image** of every boot loader that it takes, where the files fit into
the partition, the disk has a geometry and the clock a time stamp. -/
theorem mkdisk_writes (efi : verifyEfi efi_data = .ok ())
    (h : Setting efi_data elf_data (partSectors efi_data elf_data) PART_START host.extra_files)
    (early : host.now < epoch + 0x100000000)
    (small : diskSectors efi_data elf_data < 65536 * 1008) :
    ∃ image, mkdisk upper host efi_data elf_data = some image := by
  obtain ⟨footer, closed⟩ : ∃ footer, vhdFooter host.now host.uuid
      (diskSectors efi_data elf_data * S) = some footer :=
    vhdFooter_of_lt early (Nat.mul_lt_mul_of_pos_right small (show 0 < S by decide))
  obtain ⟨mbr, sector, signature, type⟩ := buildMbr_of_lt h.fields.part
  have fat : buildFat32Part upper efi_data elf_data (partSectors efi_data elf_data) PART_START
      host.extra_files = some _ := buildFat32Part_of_fields h.asserted h.few h.fields
  have len : (partition upper efi_data elf_data (partSectors efi_data elf_data) PART_START
      host.extra_files).length = partSectors efi_data elf_data * S := length_partition upper h
  obtain ⟨bootx64, fat32⟩ := texts_partition upper h
  generalize partition upper efi_data elf_data (partSectors efi_data elf_data) PART_START
    host.extra_files = p at fat len bootx64 fat32
  generalize hd :
    put (put (zeros (diskSectors efi_data elf_data * S)) 0 mbr) (PART_START * S) p = disk
  obtain ⟨-, same, -⟩ := disk_layout (length_buildMbr sector) len hd.symm
  have written : p <:+: disk := ⟨_, _, hd⟩
  have built : buildDisk upper host efi_data elf_data = some disk := by
    simp only [buildDisk, sector, fat, Option.bind_eq_bind, Option.bind_some, hd]
    rw [assert_of_true len, assert_of_true ((same (by decide)).trans signature),
      assert_of_true ((same (by decide)).trans type), assert_of_true (bootx64.trans written),
      assert_of_true (fat32.trans written)]
    rfl
  refine ⟨disk ++ footer, ?_⟩
  rw [mkdisk, efi]
  simp only [built, closed, Option.bind_eq_bind, Option.bind_some]

end

end MicroNT.Mkdisk
