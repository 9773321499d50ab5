import MicroNT.Base.Fat
import Mathlib.Data.List.Basic
import Mathlib.Logic.Function.Basic
import Mathlib.Tactic.IntervalCases

/-! # The boot image on the CD (tools/mkiso.py)

`build_fat12_esp` lays out a FAT12 volume with the boot loader and the kernel. Here is
the builder, what its table of packed entries says after the encoding loop, and what
its directories are. -/

namespace MicroNT.Mkiso

open Base.Bytes Base.Fat

/-! ## The builder -/

def FAT_SECTOR : Nat := 512
def ISO_SECTOR : Nat := 2048

def padTo (data : List Byte) (boundary : Nat) : List Byte :=
  let r := data.length % boundary
  data ++ if r ≠ 0 then zeros (boundary - r) else []

def CLUSTER_SECTORS : Nat := 4
def CLUSTER_SIZE : Nat := CLUSTER_SECTORS * FAT_SECTOR
def RESERVED : Nat := 1
def N_FATS : Nat := 2
def FAT_SEC : Nat := 1
def ROOT_ENTRIES : Nat := 64
def ROOT_SECTORS : Nat := (ROOT_ENTRIES * 32 + FAT_SECTOR - 1) / FAT_SECTOR

def dataStartSector : Nat := RESERVED + N_FATS * FAT_SEC + ROOT_SECTORS

def nClusters (size : Nat) : Nat := (size + CLUSTER_SIZE - 1) / CLUSTER_SIZE

def CL_EFI : Nat := 2
def CL_EFIBOOT : Nat := 3
def CL_BOOT : Nat := 4
def CL_BOOTX64 : Nat := 5

/-- `CL_KERNEL`, for `n` clusters of the boot loader. -/
def clKernel (n_bootx64 : Nat) : Nat := CL_BOOTX64 + n_bootx64

def lastCluster (n_bootx64 n_kernel : Nat) : Nat := clKernel n_bootx64 + n_kernel - 1

def totalFatSectors (n_bootx64 n_kernel : Nat) : Nat :=
  let total := dataStartSector + (lastCluster n_bootx64 n_kernel - 2 + 1) * CLUSTER_SECTORS
  (total + 3) / 4 * 4

/-- The boot sector, around the two bytes with the number of sectors. -/
def bootWrites (total : List Byte) : List (Nat × List Byte) :=
  [(0, [0xEB, 0x3C, 0x90]), (3, ascii "MSWIN4.1"), (11, leBytes 2 FAT_SECTOR),
    (13, leBytes 1 CLUSTER_SECTORS), (14, leBytes 2 RESERVED), (16, leBytes 1 N_FATS),
    (17, leBytes 2 ROOT_ENTRIES), (19, total), (21, [0xF8]), (22, leBytes 2 FAT_SEC),
    (24, leBytes 2 1), (26, leBytes 2 1), (28, leBytes 4 0), (32, leBytes 4 0), (36, [0x80]),
    (38, [0x29]), (39, leBytes 4 0xDEADBEEF), (43, ascii "MICRONT-ESP"), (54, ascii "FAT12   "),
    (510, [0x55]), (511, [0xAA])]

/-- `struct.pack_into` raises where the number of sectors has more than 16 bits. -/
def bootSector (total : Nat) : Option (List Byte) :=
  (pack 2 total).map fun total => putAll (zeros FAT_SECTOR) (bootWrites total)

/-- A chain of `count` clusters in the dictionary `fat`, whose missing keys are 0. For
no clusters at all it ends at the cluster before `start`. -/
def allocChain (fat : Nat → Nat) (start count : Nat) : Nat → Nat :=
  Function.update
    ((List.range (count - 1)).foldl
      (fun fat i => Function.update fat (start + i) (start + i + 1)) fat)
    (start + count - 1) 0xFFF

def fatTable (n_bootx64 n_kernel : Nat) : Nat → Nat :=
  let fat := Function.update (fun _ => 0) 0 0xFF8
  let fat := Function.update fat 1 0xFFF
  let fat := Function.update fat CL_EFI 0xFFF
  let fat := Function.update fat CL_EFIBOOT 0xFFF
  let fat := Function.update fat CL_BOOT 0xFFF
  allocChain (allocChain fat CL_BOOTX64 n_bootx64) (clKernel n_bootx64) n_kernel

/-- One entry of 12 bits over the two bytes it lies in. -/
def setEntry (fat_buf : List Byte) (i : Nat) (val : BitVec 12) : List Byte :=
  let off := i * 3 / 2
  if i % 2 = 0 then
    let fat_buf := fat_buf.set off ((val &&& 0xFF#12).setWidth 8)
    fat_buf.set (off + 1)
      ((fat_buf.getD (off + 1) 0 &&& 0xF0#8) ||| ((val >>> 8) &&& 0x0F#12).setWidth 8)
  else
    let fat_buf := fat_buf.set off
      ((fat_buf.getD off 0 &&& 0x0F#8) ||| ((val &&& 0x0F#12) <<< 4).setWidth 8)
    fat_buf.set (off + 1) (((val >>> 4) &&& 0xFF#12).setWidth 8)

/-- The entries from `i` on, `n` of them; the loop breaks off where the table ends. -/
def encodeFat12 (fat : Nat → Nat) : Nat → Nat → List Byte → List Byte
  | 0, _, fat_buf => fat_buf
  | n + 1, i, fat_buf =>
    if i * 3 / 2 + 1 ≥ fat_buf.length then fat_buf
    else encodeFat12 fat n (i + 1) (setEntry fat_buf i (BitVec.ofNat 12 (fat i)))

def fatBuf (n_bootx64 n_kernel : Nat) : List Byte :=
  let max_cl := lastCluster n_bootx64 n_kernel + 1
  encodeFat12 (fatTable n_bootx64 n_kernel) (max_cl + 1) 0 (zeros (FAT_SEC * FAT_SECTOR))

/-- The bytes of a directory entry, around those of its size. -/
def direntWrites (name8 ext3 : List Byte) (cluster : Nat) (size : List Byte) (attr : Nat) :
    List (Nat × List Byte) :=
  [(0, (ljust 8 name8).take 8), (8, (ljust 3 ext3).take 3), (11, leBytes 1 attr),
    (26, leBytes 2 (cluster &&& 0xFFFF)), (28, size)]

def fatDirent (name8 ext3 : List Byte) (cluster size attr : Nat) : Option (List Byte) :=
  (pack 4 size).map fun size => putAll (zeros 32) (direntWrites name8 ext3 cluster size attr)

def ATTR_DIR : Nat := 0x10
def ATTR_FILE : Nat := 0x20

def dot (cl : Nat) : Option (List Byte) := fatDirent (ascii ".") (ascii "  ") cl 0 ATTR_DIR

def dotdot (parent_cl : Nat) : Option (List Byte) :=
  fatDirent (ascii "..") (ascii "  ") parent_cl 0 ATTR_DIR

def subdir (name : String) (cl : Nat) : Option (List Byte) :=
  fatDirent (ascii name) (ascii "   ") cl 0 ATTR_DIR

def filent (name ext : String) (cl sz : Nat) : Option (List Byte) :=
  fatDirent (ascii name) (ascii ext) cl sz ATTR_FILE

def rootDir : Option (List Byte) := do
  let efi ← subdir "EFI" CL_EFI
  let boot ← subdir "BOOT" CL_BOOT
  some (putAll (zeros (ROOT_ENTRIES * 32)) [(0, efi), (32, boot)])

/-- A directory of one cluster: itself, its parent and one entry. -/
def clusterDir (cl parent : Nat) (entry : Option (List Byte)) : Option (List Byte) := do
  let self ← dot cl
  let up ← dotdot parent
  let entry ← entry
  some (putAll (zeros CLUSTER_SIZE) [(0, self), (32, up), (64, entry)])

def efiDir : Option (List Byte) := clusterDir CL_EFI 0 (subdir "BOOT" CL_EFIBOOT)

def efiBootDir (size : Nat) : Option (List Byte) :=
  clusterDir CL_EFIBOOT CL_EFI (filent "BOOTX64" "EFI" CL_BOOTX64 size)

def bootDir (cl size : Nat) : Option (List Byte) :=
  clusterDir CL_BOOT 0 (filent "MICRONT" "ELF" cl size)

def clusterOff (cl : Nat) : Nat := (dataStartSector + (cl - 2) * CLUSTER_SECTORS) * FAT_SECTOR

def fat1Off : Nat := RESERVED * FAT_SECTOR
def fat2Off : Nat := fat1Off + FAT_SEC * FAT_SECTOR
def rootOff : Nat := (RESERVED + N_FATS * FAT_SEC) * FAT_SECTOR

/-- The image, or nothing where a number does not fit its field. -/
def buildFat12Esp (bootx64_data kernel_data : List Byte) : Option (List Byte) := do
  let n_bootx64 := nClusters bootx64_data.length
  let n_kernel := nClusters kernel_data.length
  let total := totalFatSectors n_bootx64 n_kernel
  let bs ← bootSector total
  let fat_buf := fatBuf n_bootx64 n_kernel
  let root ← rootDir
  let efi_dir ← efiDir
  let efi_boot_dir ← efiBootDir bootx64_data.length
  let boot_dir ← bootDir (clKernel n_bootx64) kernel_data.length
  let image := putAll (zeros (total * FAT_SECTOR))
    [(0, bs), (fat1Off, fat_buf), (fat2Off, fat_buf), (rootOff, root), (clusterOff CL_EFI, efi_dir),
      (clusterOff CL_EFIBOOT, efi_boot_dir), (clusterOff CL_BOOT, boot_dir),
      (clusterOff CL_BOOTX64, bootx64_data), (clusterOff (clKernel n_bootx64), kernel_data)]
  some (padTo image ISO_SECTOR)

/-! ## The table -/

section

variable {buf : List Byte} {i j k n : Nat} {v : BitVec 12} {a b : Byte} {fat : Nat → Nat}

theorem getD_set (h : k < buf.length) (x : Byte) (j : Nat) :
    (buf.set k x).getD j 0 = if k = j then x else buf.getD j 0 := by
  rw [List.getD_eq_getElem?_getD, List.getElem?_set, List.getD_eq_getElem?_getD]
  split
  case isTrue => rfl
  case isFalse => rfl

theorem length_setEntry : (setEntry buf i v).length = buf.length := by
  simp only [setEntry]
  split
  case isTrue => rw [List.length_set, List.length_set]
  case isFalse => rw [List.length_set, List.length_set]

/-- The two bytes that an entry is written to. -/
theorem getD_setEntry_even (h : Packs buf.length i) (even : i % 2 = 0) (j : Nat) :
    (setEntry buf i v).getD j 0 =
      if i * 3 / 2 + 1 = j then
        (buf.getD (i * 3 / 2 + 1) 0 &&& 0xF0#8) ||| ((v >>> 8) &&& 0x0F#12).setWidth 8
      else if i * 3 / 2 = j then (v &&& 0xFF#12).setWidth 8
      else buf.getD j 0 := by
  have low : i * 3 / 2 < buf.length := Nat.lt_of_succ_lt h
  simp only [setEntry, if_pos even]
  rw [getD_set (by rw [List.length_set]; exact h), getD_set low, getD_set low,
    if_neg (Nat.ne_of_lt (Nat.lt_succ_self _))]

theorem getD_setEntry_odd (h : Packs buf.length i) (odd : ¬ i % 2 = 0) (j : Nat) :
    (setEntry buf i v).getD j 0 =
      if i * 3 / 2 + 1 = j then ((v >>> 4) &&& 0xFF#12).setWidth 8
      else if i * 3 / 2 = j then
        (buf.getD (i * 3 / 2) 0 &&& 0x0F#8) ||| ((v &&& 0x0F#12) <<< 4).setWidth 8
      else buf.getD j 0 := by
  have low : i * 3 / 2 < buf.length := Nat.lt_of_succ_lt h
  simp only [setEntry, if_neg odd]
  rw [getD_set (by rw [List.length_set]; exact h), getD_set low]

theorem packed_even (a : Byte) (v : BitVec 12) :
    (((a &&& 0xF0#8) ||| ((v >>> 8) &&& 0x0F#12).setWidth 8) ++
      (v &&& 0xFF#12).setWidth 8).extractLsb' 0 12 = v := by
  refine BitVec.eq_of_getLsbD_eq fun i hi => ?_
  interval_cases i <;>
    simp only [BitVec.getLsbD_extractLsb', BitVec.getLsbD_append, BitVec.getLsbD_or,
      BitVec.getLsbD_and, BitVec.getLsbD_setWidth, BitVec.getLsbD_ushiftRight] <;> simp

theorem packed_odd (a : Byte) (v : BitVec 12) :
    (((v >>> 4) &&& 0xFF#12).setWidth 8 ++
      ((a &&& 0x0F#8) ||| ((v &&& 0x0F#12) <<< 4).setWidth 8)).extractLsb' 4 12 = v := by
  refine BitVec.eq_of_getLsbD_eq fun i hi => ?_
  interval_cases i <;>
    simp only [BitVec.getLsbD_extractLsb', BitVec.getLsbD_append, BitVec.getLsbD_or,
      BitVec.getLsbD_and, BitVec.getLsbD_setWidth, BitVec.getLsbD_ushiftRight,
      BitVec.getLsbD_shiftLeft] <;> simp

/-- An odd entry leaves the high bits of the entry before it. -/
theorem keeps_even (a b : Byte) (v : BitVec 12) :
    (((a &&& 0x0F#8) ||| ((v &&& 0x0F#12) <<< 4).setWidth 8) ++ b).extractLsb' 0 12 =
      (a ++ b).extractLsb' 0 12 := by
  refine BitVec.eq_of_getLsbD_eq fun i hi => ?_
  interval_cases i <;>
    simp only [BitVec.getLsbD_extractLsb', BitVec.getLsbD_append, BitVec.getLsbD_or,
      BitVec.getLsbD_and, BitVec.getLsbD_setWidth, BitVec.getLsbD_shiftLeft] <;> simp

/-- An even entry leaves the low bits of the entry behind it. -/
theorem keeps_odd (a b : Byte) (v : BitVec 12) :
    (b ++ ((a &&& 0xF0#8) ||| ((v >>> 8) &&& 0x0F#12).setWidth 8)).extractLsb' 4 12 =
      (b ++ a).extractLsb' 4 12 := by
  refine BitVec.eq_of_getLsbD_eq fun i hi => ?_
  interval_cases i <;>
    simp only [BitVec.getLsbD_extractLsb', BitVec.getLsbD_append, BitVec.getLsbD_or,
      BitVec.getLsbD_and, BitVec.getLsbD_setWidth, BitVec.getLsbD_ushiftRight] <;> simp

/-- **An entry is read back.** -/
theorem packed_setEntry (h : Packs buf.length i) : packed (setEntry buf i v) i = v := by
  have ne : ¬ i * 3 / 2 + 1 = i * 3 / 2 := Nat.succ_ne_self _
  simp only [packed]
  split
  case isTrue even =>
    rw [getD_setEntry_even h even, getD_setEntry_even h even, if_pos rfl, if_neg ne, if_pos rfl]
    exact packed_even _ v
  case isFalse odd =>
    rw [getD_setEntry_odd h odd, getD_setEntry_odd h odd, if_pos rfl, if_neg ne, if_pos rfl]
    exact packed_odd _ v

/-- **The other entries are left**, the neighbour in the shared byte too. -/
theorem packed_setEntry_ne (h : Packs buf.length i) (ne : i ≠ j) :
    packed (setEntry buf i v) j = packed buf j := by
  by_cases even : i % 2 = 0
  case pos =>
    have bytes (k : Nat) := getD_setEntry_even (v := v) h even k
    have low : ¬ i * 3 / 2 = j * 3 / 2 := by omega
    have high : ¬ i * 3 / 2 + 1 = j * 3 / 2 + 1 := by omega
    have last : ¬ i * 3 / 2 = j * 3 / 2 + 1 := by omega
    by_cases next : j = i + 1
    case pos =>
      have shared : i * 3 / 2 + 1 = j * 3 / 2 := by omega
      have odd : ¬ j % 2 = 0 := by omega
      simp only [packed, if_neg odd]
      rw [bytes (j * 3 / 2 + 1), bytes (j * 3 / 2), if_neg high, if_neg last, if_pos shared, shared]
      exact keeps_odd _ _ v
    case neg =>
      have other : ¬ i * 3 / 2 + 1 = j * 3 / 2 := by omega
      simp only [packed]
      rw [bytes (j * 3 / 2 + 1), bytes (j * 3 / 2), if_neg high, if_neg last, if_neg other, if_neg low]
  case neg =>
    have bytes (k : Nat) := getD_setEntry_odd (v := v) h even k
    have low : ¬ i * 3 / 2 = j * 3 / 2 := by omega
    have high : ¬ i * 3 / 2 + 1 = j * 3 / 2 + 1 := by omega
    have first : ¬ i * 3 / 2 + 1 = j * 3 / 2 := by omega
    by_cases before : i = j + 1
    case pos =>
      have shared : i * 3 / 2 = j * 3 / 2 + 1 := by omega
      have even' : j % 2 = 0 := by omega
      simp only [packed, if_pos even']
      rw [bytes (j * 3 / 2 + 1), bytes (j * 3 / 2), if_neg high, if_pos shared, if_neg first, if_neg low,
        shared]
      exact keeps_even _ _ v
    case neg =>
      have other : ¬ i * 3 / 2 = j * 3 / 2 + 1 := by omega
      simp only [packed]
      rw [bytes (j * 3 / 2 + 1), bytes (j * 3 / 2), if_neg high, if_neg other, if_neg first, if_neg low]

theorem length_encodeFat12 : (encodeFat12 fat n i buf).length = buf.length := by
  induction n generalizing i buf with
  | zero => rfl
  | succ n ih =>
    rw [encodeFat12]
    split
    case isTrue => rfl
    case isFalse => rw [ih, length_setEntry]

/-- **What the table says** after the loop: it holds every entry that it has room for. -/
theorem packed_encodeFat12 (h : Packs buf.length j) :
    packed (encodeFat12 fat n i buf) j =
      if i ≤ j ∧ j < i + n then BitVec.ofNat 12 (fat j) else packed buf j := by
  induction n generalizing i buf with
  | zero => rw [encodeFat12, if_neg (by omega)]
  | succ n ih =>
    have entry : j * 3 / 2 + 1 < buf.length := h
    rw [encodeFat12]
    split
    case isTrue full => rw [if_neg (by omega)]
    case isFalse room =>
      have here : Packs buf.length i := Nat.lt_of_not_ge room
      rw [ih (by rwa [length_setEntry])]
      rcases Nat.lt_trichotomy i j with above | rfl | below
      · rw [packed_setEntry_ne here (Nat.ne_of_lt above)]
        refine if_congr ?_ rfl rfl
        omega
      · rw [if_neg (by omega), if_pos (by omega), packed_setEntry here]
      · rw [if_neg (by omega), if_neg (by omega), packed_setEntry_ne here (Nat.ne_of_gt below)]

end

/-! ## What the table says -/

section

variable {fat : Nat → Nat} {start count c n nb nk : Nat}

theorem chain_fold (n : Nat) :
    (List.range n).foldl (fun fat i => Function.update fat (start + i) (start + i + 1)) fat c =
      if start ≤ c ∧ c < start + n then c + 1 else fat c := by
  induction n with
  | zero => rw [List.range_zero, List.foldl_nil, if_neg (by omega)]
  | succ n ih =>
    rw [List.range_succ, List.foldl_append, List.foldl_cons, List.foldl_nil, Function.update_apply, ih]
    split
    case isTrue here => rw [if_pos (by omega), here]
    case isFalse other =>
      refine if_congr ?_ rfl rfl
      omega

theorem allocChain_apply : allocChain fat start count c =
    if c = start + count - 1 then 0xFFF
    else if start ≤ c ∧ c < start + (count - 1) then c + 1 else fat c := by
  rw [allocChain, Function.update_apply, chain_fold]

theorem fatTable_apply : fatTable nb nk c =
    if c = 5 + nb + nk - 1 then 0xFFF
    else if 5 + nb ≤ c ∧ c < 5 + nb + (nk - 1) then c + 1
    else if c = 5 + nb - 1 then 0xFFF
    else if 5 ≤ c ∧ c < 5 + (nb - 1) then c + 1
    else if c = 4 then 0xFFF else if c = 3 then 0xFFF else if c = 2 then 0xFFF
    else if c = 1 then 0xFFF else if c = 0 then 0xFF8 else 0 := by
  simp only [fatTable, allocChain_apply, clKernel, CL_BOOTX64, CL_EFI, CL_EFIBOOT, CL_BOOT,
    Function.update_apply]

/-- The three directories take one cluster each. -/
theorem fatTable_directory (hc : 2 ≤ c ∧ c ≤ 4) : fatTable nb nk c = 0xFFF := by
  rw [fatTable_apply]
  split
  case isTrue => rfl
  case isFalse =>
    rw [if_neg (by omega)]
    split
    case isTrue => rfl
    case isFalse =>
      rw [if_neg (by omega)]
      obtain rfl | rfl | rfl : c = 2 ∨ c = 3 ∨ c = 4 := by omega
      · rfl
      · rfl
      · rfl

theorem fatTable_bootx64 (hc : 5 ≤ c) (lt : c < 5 + nb) :
    fatTable nb nk c = if c = 5 + nb - 1 then 0xFFF else c + 1 := by
  rw [fatTable_apply]
  split
  case isTrue => rw [if_pos (by omega)]
  case isFalse =>
    rw [if_neg (by omega)]
    split
    case isTrue => rfl
    case isFalse => rw [if_pos (by omega)]

theorem fatTable_kernel (hc : 5 + nb ≤ c) (lt : c < 5 + nb + nk) :
    fatTable nb nk c = if c = 5 + nb + nk - 1 then 0xFFF else c + 1 := by
  rw [fatTable_apply]
  split
  case isTrue => rfl
  case isFalse => rw [if_pos (by omega)]

end

/-! ## The directories -/

/-- A directory entry, of a size that fits. -/
def dirent (name8 ext3 : String) (cluster size attr : Nat) : List Byte :=
  putAll (zeros 32) (direntWrites (ascii name8) (ascii ext3) cluster (leBytes 4 size) attr)

section

variable {name8 ext3 : String} {cluster size attr : Nat} {name : List Byte}

theorem fatDirent_of_lt (h : size < 256 ^ 4) :
    fatDirent (ascii name8) (ascii ext3) cluster size attr = some (dirent name8 ext3 cluster size attr) := by
  rw [fatDirent, pack_of_lt h, Option.map_some, dirent]

theorem laid_dirent : Laid (zeros 32).length
    (spans (direntWrites (ascii name8) (ascii ext3) cluster (leBytes 4 size) attr)) := by
  have shape : spans (direntWrites (ascii name8) (ascii ext3) cluster (leBytes 4 size) attr) =
      [(0, 8), (8, 3), (11, 1), (26, 2), (28, 4)] := by
    simp only [spans, direntWrites, List.map_cons, List.map_nil, length_leBytes, length_ljust_take]
  rw [shape, length_zeros]
  decide

@[simp] theorem length_dirent : (dirent name8 ext3 cluster size attr).length = 32 := by
  rw [dirent, length_putAll laid_dirent, length_zeros]

theorem nameOf_dirent : nameOf (dirent name8 ext3 cluster size attr) =
    (ljust 8 (ascii name8)).take 8 ++ (ljust 3 (ascii ext3)).take 3 :=
  nameOf_putAll laid_dirent (by simp [direntWrites]) (by simp [direntWrites]) length_ljust_take
    length_ljust_take

theorem attr_dirent (h : attr < 256 ^ 1) : field (dirent name8 ext3 cluster size attr) 11 1 = attr :=
  field_putAll laid_dirent (by simp [direntWrites]) h

theorem cluster_dirent (h : cluster < 256 ^ 2) :
    field (dirent name8 ext3 cluster size attr) 26 2 = cluster := by
  have mask : cluster &&& 0xFFFF = cluster := by
    rw [show 0xFFFF = 2 ^ 16 - 1 from rfl, Nat.and_two_pow_sub_one_eq_mod]
    exact Nat.mod_eq_of_lt h
  refine field_putAll laid_dirent ?_ h
  rw [direntWrites, mask]
  simp

theorem size_dirent (h : size < 256 ^ 4) :
    lengthOf (dirent name8 ext3 cluster size attr) = size :=
  field_putAll laid_dirent (by simp [direntWrites]) h

end

/-- An entry that is in use and is not the one with the name. -/
theorem dirent_skipped {name8 ext3 : String} {cluster size attr : Nat} {name : List Byte}
    (used : field ((ljust 8 (ascii name8)).take 8 ++ (ljust 3 (ascii ext3)).take 3) 0 1 ≠ 0)
    (ne : (ljust 8 (ascii name8)).take 8 ++ (ljust 3 (ascii ext3)).take 3 ≠ name) :
    field (dirent name8 ext3 cluster size attr) 0 1 ≠ 0 ∧
      Skipped name (dirent name8 ext3 cluster size attr) := by
  rw [first_eq, nameOf_dirent]
  refine ⟨used, skipped_of ?_⟩
  rwa [nameOf_dirent]

theorem dirent_hit {name8 ext3 : String} {cluster size attr : Nat} {name : List Byte}
    (live : field name 0 1 ≠ 0 ∧ field name 0 1 ≠ 0xE5)
    (eq : (ljust 8 (ascii name8)).take 8 ++ (ljust 3 (ascii ext3)).take 3 = name)
    (low : attr < 256 ^ 1) (plain : attr.testBit 3 = false) :
    field (dirent name8 ext3 cluster size attr) 0 1 ≠ 0 ∧
      ¬ Skipped name (dirent name8 ext3 cluster size attr) := by
  rw [first_eq, nameOf_dirent, eq]
  refine ⟨live.1, ?_⟩
  rw [Skipped, first_eq, nameOf_dirent, eq, attr_dirent low, plain]
  simp [live.2]

theorem rootDir_eq : rootDir =
    some (directory (ROOT_ENTRIES * 32) [dirent "EFI" "   " CL_EFI 0 ATTR_DIR,
      dirent "BOOT" "   " CL_BOOT 0 ATTR_DIR]) := by
  rw [rootDir, subdir, fatDirent_of_lt (by decide), subdir, fatDirent_of_lt (by decide)]
  rfl

/-- The directory of one cluster. -/
def clusterBytes (cl parent : Nat) (entry : List Byte) : List Byte :=
  directory CLUSTER_SIZE [dirent "." "  " cl 0 ATTR_DIR, dirent ".." "  " parent 0 ATTR_DIR, entry]

theorem clusterDir_eq (cl parent : Nat) (entry : List Byte) :
    clusterDir cl parent (some entry) = some (clusterBytes cl parent entry) := by
  rw [clusterDir, dot, fatDirent_of_lt (by decide), dotdot, fatDirent_of_lt (by decide)]
  rfl

theorem findEntry_clusterBytes {cl parent : Nat} {entry name : List Byte} (len : entry.length = 32)
    (dots : (ljust 8 (ascii ".")).take 8 ++ (ljust 3 (ascii "  ")).take 3 ≠ name ∧
      (ljust 8 (ascii "..")).take 8 ++ (ljust 3 (ascii "  ")).take 3 ≠ name)
    (hit : field entry 0 1 ≠ 0 ∧ ¬ Skipped name entry) :
    findEntry name (clusterBytes cl parent entry) = some entry := by
  have all : ∀ x ∈ [dirent "." "  " cl 0 ATTR_DIR, dirent ".." "  " parent 0 ATTR_DIR] ++ [entry],
      x.length = 32 := by
    simp [len]
  refine findEntry_directory all (show 32 * 3 ≤ 2048 by decide) (fun x hx => ?_) hit.1 hit.2
  simp only [List.mem_cons, List.not_mem_nil, or_false] at hx
  rcases hx with rfl | rfl
  · exact dirent_skipped (by decide) dots.1
  · exact dirent_skipped (by decide) dots.2

theorem length_clusterBytes {cl parent : Nat} {entry : List Byte} (len : entry.length = 32) :
    (clusterBytes cl parent entry).length = CLUSTER_SIZE :=
  length_directory (by simp [len]) (show 32 * 3 ≤ 2048 by decide)

end MicroNT.Mkiso
