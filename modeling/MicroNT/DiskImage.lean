import MicroNT.Base.Fat
import Mathlib.Data.List.Basic
import Mathlib.Logic.Function.Iterate

/-! # The partition on the boot disk (tools/mkdisk.py)

`build_fat32_part` lays out a FAT32 volume with the boot loader, the kernel and more
programs for `/BOOT`. Here is the builder, the size that its loop gives the table, and
what the table says. -/

namespace MicroNT.Mkdisk

open Base.Bytes Base.Fat

/-! ## The builder -/

def S : Nat := 512
def SPC : Nat := 1
def CSZ : Nat := SPC * S
def RES : Nat := 32
def NF : Nat := 2

def dataSector (fat_sec : Nat) : Nat := RES + NF * fat_sec

/-- `nc`, for a table of `fat_sec` sectors. Below zero, where the source goes on with a
negative number, both come to the same: the `max` in the loop and the assertion. -/
def clusterCount (part_sectors fat_sec : Nat) : Nat := (part_sectors - dataSector fat_sec) / SPC

def fatRound (part_sectors fat_sec : Nat) : Nat :=
  max 1 ((clusterCount part_sectors fat_sec * 4 + S - 1) / S)

/-- The sectors of one table after the eight rounds of the loop. -/
def fatSec (part_sectors : Nat) : Nat := (fatRound part_sectors)^[8] 1

/-- The boot sector, around the bytes of the three numbers that depend on the partition. -/
def bootWrites (hidden total fats : List Byte) : List (Nat × List Byte) :=
  [(0, [0xEB, 0x58, 0x90]), (3, ascii "MSWIN4.1"), (11, leBytes 2 S), (13, leBytes 1 SPC),
    (14, leBytes 2 RES), (16, leBytes 1 NF), (21, [0xF8]), (24, leBytes 2 63), (26, leBytes 2 255),
    (28, hidden), (32, total), (36, fats), (44, leBytes 4 2), (48, leBytes 2 1), (50, leBytes 2 6),
    (64, [0x80]), (66, [0x29]), (67, leBytes 4 0x4E544D52), (71, ascii "MICRONT-EFI"),
    (82, ascii "FAT32   "), (510, [0x55]), (511, [0xAA])]

/-- `struct.pack_into` raises where one of them has more than 32 bits. -/
def bootSector (hidden_sectors part_sectors fat_sec : Nat) : Option (List Byte) := do
  let hidden ← pack 4 hidden_sectors
  let total ← pack 4 part_sectors
  let fats ← pack 4 fat_sec
  some (putAll (zeros S) (bootWrites hidden total fats))

def fsInfo : List Byte :=
  putAll (zeros S) [(0, leBytes 4 0x41615252), (484, leBytes 4 0x61417272), (488, leBytes 4 0xFFFFFFFF),
    (492, leBytes 4 0xFFFFFFFF), (508, leBytes 4 0xAA550000)]

def ncl (sz : Nat) : Nat := max 1 ((sz + CSZ - 1) / CSZ)

def CL_ROOT : Nat := 2
def CL_EFI : Nat := 3
def CL_EB : Nat := 4
def CL_BOOT : Nat := 5
def CL_BX : Nat := 6

/-- A file of the partition with its first cluster. -/
structure Extra where
  xname : List Char
  xcl : Nat
  xdata : List Byte

/-- The loop over `extra_files`, which get their clusters one after the other. -/
def extraCl : Nat → List (List Char × List Byte) → List Extra
  | _, [] => []
  | cl_cur, x :: xs => ⟨x.1, cl_cur, x.2⟩ :: extraCl (cl_cur + ncl x.2.length) xs

/-- An entry that the table has no room for is dropped. -/
def fatSet (fat_buf : List Byte) (cl val : Nat) : List Byte :=
  if cl * 4 + 4 ≤ fat_buf.length then put fat_buf (cl * 4) (leBytes 4 (val &&& 0x0FFFFFFF)) else fat_buf

/-- The entries of the `n` clusters from `cl` on. -/
def fatChain (fat_buf : List Byte) (cl n : Nat) : List Byte :=
  fatSet ((List.range' cl (n - 1)).foldl (fun fat_buf i => fatSet fat_buf i (i + 1)) fat_buf)
    (cl + n - 1) 0x0FFFFFFF

def fatBuf (fat_sec n_bx n_krn : Nat) (extra_cl : List Extra) : List Byte :=
  let fat_buf := put (zeros (fat_sec * S)) 0 (leBytes 4 0x0FFFFFF8)
  let fat_buf := put fat_buf 4 (leBytes 4 0x0FFFFFFF)
  let fat_buf := [CL_ROOT, CL_EFI, CL_EB, CL_BOOT].foldl
    (fun fat_buf cl => fatSet fat_buf cl 0x0FFFFFFF) fat_buf
  let fat_buf := fatChain fat_buf CL_BX n_bx
  let fat_buf := fatChain fat_buf (CL_BX + n_bx) n_krn
  extra_cl.foldl (fun fat_buf x => fatChain fat_buf x.xcl (ncl x.xdata.length)) fat_buf

def ADIR : Nat := 0x10
def AFILE : Nat := 0x20

/-- The bytes of a directory entry, around those of its size. -/
def deWrites (n8 e3 : List Byte) (cl : Nat) (sz : List Byte) (attr : Nat) : List (Nat × List Byte) :=
  [(0, ljust 8 (n8.take 8)), (8, ljust 3 (e3.take 3)), (11, leBytes 1 attr),
    (20, leBytes 2 ((cl >>> 16) &&& 0xFFFF)), (26, leBytes 2 (cl &&& 0xFFFF)), (28, sz)]

def de (n8 e3 : List Byte) (cl sz attr : Nat) : Option (List Byte) :=
  (pack 4 sz).map fun sz => putAll (zeros 32) (deWrites n8 e3 cl sz attr)

def rootDir : Option (List Byte) := do
  let self ← de (ascii ".") (ascii "  ") CL_ROOT 0 ADIR
  let up ← de (ascii "..") (ascii " ") 0 0 ADIR
  let efi ← de (ascii "EFI") (ascii "   ") CL_EFI 0 ADIR
  let boot ← de (ascii "BOOT") (ascii "   ") CL_BOOT 0 ADIR
  some (putAll (zeros CSZ) [(0, self), (32, up), (64, efi), (96, boot)])

/-- A directory of one cluster: itself, its parent and its first entry. -/
def clusterDir (cl parent : Nat) (entry : Option (List Byte)) : Option (List Byte) := do
  let self ← de (ascii ".") (ascii "  ") cl 0 ADIR
  let up ← de (ascii "..") (ascii " ") parent 0 ADIR
  let entry ← entry
  some (putAll (zeros CSZ) [(0, self), (32, up), (64, entry)])

def efiDir : Option (List Byte) :=
  clusterDir CL_EFI CL_ROOT (de (ascii "BOOT") (ascii "   ") CL_EB 0 ADIR)

def efiBootDir (size : Nat) : Option (List Byte) :=
  clusterDir CL_EB CL_EFI (de (ascii "BOOTX64") (ascii "EFI") CL_BX size AFILE)

/-- `str.encode` -/
def encode (text : List Char) : List Byte := (text.flatMap String.utf8EncodeChar).map UInt8.toBitVec

section

-- `str.upper`: what it makes of a letter is all the same to the image
variable (upper : List Char → List Char)

def nm8 (xname : List Char) : List Byte :=
  ljust 8 (encode ((((upper xname).splitOn '.').headD []).take 8))

def ex3 (xname : List Char) : List Byte :=
  let parts := (upper xname).splitOn '.'
  ljust 3 (encode (if parts.length > 1 then (parts.getD 1 []).take 3 else [' ', ' ', ' ']))

/-- The loop that fills `/BOOT` from `slot` on, until the directory is full. -/
def bootSlots : Nat → List Extra → List Byte → Option (List Byte)
  | _, [], d => some d
  | slot, x :: xs, d => do
    let entry ← de (nm8 upper x.xname) (ex3 upper x.xname) x.xcl x.xdata.length AFILE
    let d := put d slot entry
    let slot := slot + 32
    if slot + 32 > CSZ then some d else bootSlots slot xs d

def bootDir (cl size : Nat) (extra_cl : List Extra) : Option (List Byte) := do
  let d ← clusterDir CL_BOOT CL_ROOT (de (ascii "MICRONT") (ascii "ELF") cl size AFILE)
  bootSlots upper 96 extra_cl d

def clo (fat_sec cl : Nat) : Nat := (dataSector fat_sec + (cl - 2) * SPC) * S

/-- The image of the partition, or nothing where the assertion fails or a number does
not fit its field. -/
def buildFat32Part (bootx64 kernel : List Byte) (part_sectors hidden_sectors : Nat)
    (extra_files : List (List Char × List Byte)) : Option (List Byte) := do
  let fat_sec := fatSec part_sectors
  if clusterCount part_sectors fat_sec < 65525 then none
  else
    let bs ← bootSector hidden_sectors part_sectors fat_sec
    let n_bx := ncl bootx64.length
    let cl_krn := CL_BX + n_bx
    let n_krn := ncl kernel.length
    let extra_cl := extraCl (cl_krn + n_krn) extra_files
    let fat_buf := fatBuf fat_sec n_bx n_krn extra_cl
    let f1 := RES * S
    let f2 := f1 + fat_sec * S
    let root ← rootDir
    let efi ← efiDir
    let efi_boot ← efiBootDir bootx64.length
    let boot ← bootDir upper cl_krn kernel.length extra_cl
    some (putAll (zeros (part_sectors * S))
      ([(0, bs), (6 * S, bs), (1 * S, fsInfo), (f1, fat_buf), (f2, fat_buf), (clo fat_sec CL_ROOT, root),
        (clo fat_sec CL_EFI, efi), (clo fat_sec CL_EB, efi_boot), (clo fat_sec CL_BOOT, boot),
        (clo fat_sec CL_BX, bootx64), (clo fat_sec cl_krn, kernel)] ++
        extra_cl.map fun x => (clo fat_sec x.xcl, x.xdata)))

end

/-! ## The size of the table -/

section

variable {P f e : Nat}

theorem fatRound_eq (f : Nat) : fatRound P f = max 1 ((P - (32 + 2 * f) + 127) / 128) := by
  rw [fatRound, clusterCount, dataSector, RES, NF, SPC, S, Nat.div_one]
  congr 1
  omega

/-- A round from below comes out above, and 64 times as close. -/
theorem fatRound_below (low : f ≤ (P + 95) / 130) (near : (P + 95) / 130 ≤ f + e)
    (room : 32 + 2 * f ≤ P) :
    (P + 97) / 130 ≤ fatRound P f ∧ fatRound P f ≤ (P + 95) / 130 + (e + 64) / 64 := by
  rw [fatRound_eq]
  omega

/-- A round from above comes out below. -/
theorem fatRound_above (high : (P + 97) / 130 ≤ f) (near : f ≤ (P + 95) / 130 + e)
    (room : 32 + 2 * f ≤ P) (large : 65557 ≤ P) :
    fatRound P f ≤ (P + 95) / 130 ∧ (P + 95) / 130 ≤ fatRound P f + (2 * e + 127) / 128 := by
  rw [fatRound_eq]
  omega

/-- One sector below, two rounds come out right. -/
theorem fatRound_twice (low : f ≤ (P + 95) / 130) (near : (P + 95) / 130 ≤ f + 1)
    (large : 65557 ≤ P) : fatRound P (fatRound P f) = (P + 95) / 130 := by
  have first : fatRound P f = max 1 ((P - (32 + 2 * f) + 127) / 128) := fatRound_eq f
  rw [fatRound_eq]
  omega

/-- **The loop ends** at one sector for 130 sectors of the partition behind the first 34:
128 clusters and their two tables. -/
theorem fatSec_eq (large : 65557 ≤ P) (lt : P < 256 ^ 4) : fatSec P = (P + 95) / 130 := by
  have first : fatRound P 1 = max 1 ((P - (32 + 2 * 1) + 127) / 128) := fatRound_eq 1
  obtain ⟨a, b⟩ := fatRound_below (P := P) (f := 1) (e := 2 ^ 25) (by omega) (by omega) (by omega)
  obtain ⟨a, b⟩ := fatRound_above a b (by omega) large
  obtain ⟨a, b⟩ := fatRound_below a b (by omega)
  obtain ⟨a, b⟩ := fatRound_above a b (by omega) large
  obtain ⟨a, b⟩ := fatRound_below a b (by omega)
  obtain ⟨a, b⟩ := fatRound_above a b (by omega) large
  exact fatRound_twice a b large

end

/-! ## What the table says -/

section

variable {b : List Byte} {i j cl n v : Nat} {ts : List (Nat × Nat)} {t : Nat × Nat}

/-- A table of 28-bit entries never gets a larger one. -/
theorem masked_lt (v : Nat) : v &&& 0x0FFFFFFF < 256 ^ 4 :=
  Nat.lt_of_le_of_lt Nat.and_le_right (by decide)

@[simp] theorem length_fatSet : (fatSet b i v).length = b.length := by
  rw [fatSet]
  split
  case isTrue room => exact length_put (by rwa [length_leBytes])
  case isFalse => rfl

/-- **An entry is read back**, and the others are left. -/
theorem entry_fatSet (hj : j * 4 + 4 ≤ b.length) :
    field (fatSet b i v) (j * 4) 4 = if i = j then v &&& 0x0FFFFFFF else field b (j * 4) 4 := by
  rw [fatSet]
  split
  case isTrue room =>
    split
    case isTrue same =>
      subst same
      exact field_put room (masked_lt v)
    case isFalse ne => exact field_put_of_apart room (by omega)
  case isFalse full => rw [if_neg (by omega)]

theorem length_fatSteps (l : List Nat) :
    (l.foldl (fun b i => fatSet b i (i + 1)) b).length = b.length := by
  induction l generalizing b with
  | nil => rfl
  | cons i l ih => rw [List.foldl_cons, ih, length_fatSet]

theorem entry_fatSteps (hj : j * 4 + 4 ≤ b.length) :
    field ((List.range' cl n).foldl (fun b i => fatSet b i (i + 1)) b) (j * 4) 4 =
      if cl ≤ j ∧ j < cl + n then (j + 1) &&& 0x0FFFFFFF else field b (j * 4) 4 := by
  induction n generalizing cl b with
  | zero => rw [List.range'_zero, List.foldl_nil, if_neg (by omega)]
  | succ n ih =>
    rw [List.range'_succ, List.foldl_cons, ih (by rwa [length_fatSet]), entry_fatSet hj]
    split
    case isTrue => rw [if_pos (by omega)]
    case isFalse =>
      split
      case isTrue same => rw [if_pos (by omega), same]
      case isFalse => rw [if_neg (by omega)]

/-- A directory has one cluster. -/
theorem fatChain_one : fatChain b cl 1 = fatSet b cl 0x0FFFFFFF := by
  rw [fatChain, Nat.sub_self, List.range'_zero, List.foldl_nil, Nat.add_sub_cancel]

theorem length_fatChain : (fatChain b cl n).length = b.length := by
  rw [fatChain, length_fatSet, length_fatSteps]

theorem entry_fatChain (hj : j * 4 + 4 ≤ b.length) :
    field (fatChain b cl n) (j * 4) 4 =
      if cl + n - 1 = j then 0x0FFFFFFF
      else if cl ≤ j ∧ j < cl + (n - 1) then (j + 1) &&& 0x0FFFFFFF
      else field b (j * 4) 4 := by
  rw [fatChain, entry_fatSet (by rwa [length_fatSteps]), entry_fatSteps hj, Nat.and_self]

/-- The chains of the clusters in `ts`, one after the other. -/
def fatChains (b : List Byte) (ts : List (Nat × Nat)) : List Byte :=
  ts.foldl (fun b t => fatChain b t.1 t.2) b

theorem length_fatChains : (fatChains b ts).length = b.length := by
  induction ts generalizing b with
  | nil => rfl
  | cons t ts ih =>
    rw [fatChains, List.foldl_cons]
    exact (ih (b := fatChain b t.1 t.2)).trans length_fatChain

/-- Chains that do not have the cluster leave its entry. -/
theorem entry_fatChains_of_apart (hj : j * 4 + 4 ≤ b.length) (pos : ∀ t ∈ ts, 0 < t.2)
    (apart : ∀ t ∈ ts, Apart (j, 1) t) : field (fatChains b ts) (j * 4) 4 = field b (j * 4) 4 := by
  induction ts generalizing b with
  | nil => rfl
  | cons t ts ih =>
    have own := pos t List.mem_cons_self
    have away : j + 1 ≤ t.1 ∨ t.1 + t.2 ≤ j := apart t List.mem_cons_self
    have rest := ih (b := fatChain b t.1 t.2) (by rwa [length_fatChain])
      (fun s hs => pos s (List.mem_cons_of_mem _ hs)) fun s hs => apart s (List.mem_cons_of_mem _ hs)
    rw [entry_fatChain hj, if_neg (by omega), if_neg (by omega)] at rest
    exact rest

/-- **Chains apart from one another** are all in the table. -/
theorem entry_fatChains (hj : j * 4 + 4 ≤ b.length) (pos : ∀ t ∈ ts, 0 < t.2)
    (apart : ts.Pairwise Apart) (ht : t ∈ ts) (here : t.1 ≤ j ∧ j < t.1 + t.2) :
    field (fatChains b ts) (j * 4) 4 =
      if t.1 + t.2 - 1 = j then 0x0FFFFFFF else (j + 1) &&& 0x0FFFFFFF := by
  induction ts generalizing b with
  | nil => cases ht
  | cons s ts ih =>
    obtain ⟨first, rest⟩ := List.pairwise_cons.mp apart
    have later : ∀ u ∈ ts, 0 < u.2 := fun u hu => pos u (List.mem_cons_of_mem _ hu)
    have inside : j * 4 + 4 ≤ (fatChain b s.1 s.2).length := by rwa [length_fatChain]
    rcases List.mem_cons.mp ht with rfl | mem
    · have away : ∀ u ∈ ts, Apart (j, 1) u := by
        intro u hu
        have own := later u hu
        rcases first u hu with below | above
        · exact .inl (show j + 1 ≤ u.1 by omega)
        · exact .inr (show u.1 + u.2 ≤ j by omega)
      have kept := entry_fatChains_of_apart inside later away
      rw [entry_fatChain hj] at kept
      refine kept.trans ?_
      split
      case isTrue => rfl
      case isFalse => rw [if_pos (by omega)]
    · exact ih inside later rest mem

end

/-! ## The clusters of the files -/

section

variable {F nb nk c n : Nat} {xs : List (List Char × List Byte)}

theorem ncl_pos (sz : Nat) : 0 < ncl sz := by
  rw [ncl]
  omega

theorem le_ncl (sz : Nat) : sz ≤ ncl sz * 512 := by
  rw [ncl, CSZ, SPC, S]
  omega

/-- A file whose size fits its field has 2^23 clusters at most. -/
theorem ncl_le {sz : Nat} (h : sz < 256 ^ 4) : ncl sz ≤ 2 ^ 23 := by
  rw [ncl, CSZ, SPC, S]
  omega

/-- `cl_cur` behind the extra files. -/
def extraEnd : Nat → List (List Char × List Byte) → Nat
  | c, [] => c
  | c, x :: xs => extraEnd (c + ncl x.2.length) xs

theorem extraEnd_cons (x : List Char × List Byte) :
    extraEnd c (x :: xs) = extraEnd (c + ncl x.2.length) xs := rfl

theorem extraEnd_concat (x : List Char × List Byte) :
    extraEnd c (xs ++ [x]) = extraEnd c xs + ncl x.2.length := by
  induction xs generalizing c with
  | nil => rfl
  | cons y xs ih => exact ih

theorem extraEnd_le (h : ∀ x ∈ xs, x.2.length < 256 ^ 4) : extraEnd c xs ≤ c + 2 ^ 23 * xs.length := by
  induction xs generalizing c with
  | nil => exact Nat.le_refl _
  | cons x xs ih =>
    have rest := ih (c := c + ncl x.2.length) fun y hy => h y (List.mem_cons_of_mem _ hy)
    have own := ncl_le (h x List.mem_cons_self)
    rw [extraEnd_cons, List.length_cons]
    omega

/-- The extra files have clusters one behind the other. -/
theorem rising_extraCl (h : extraEnd c xs ≤ n) :
    Rising n c ((extraCl c xs).map fun x => (x.xcl, ncl x.xdata.length)) := by
  induction xs generalizing c with
  | nil => exact h
  | cons x xs ih =>
    rw [extraEnd_cons] at h
    exact ⟨Nat.le_refl _, ih h⟩

theorem extraCl_append (pre : List (List Char × List Byte)) (x : List Char × List Byte)
    (post : List (List Char × List Byte)) :
    extraCl c (pre ++ x :: post) = extraCl c pre ++
      ⟨x.1, extraEnd c pre, x.2⟩ :: extraCl (extraEnd c pre + ncl x.2.length) post := by
  induction pre generalizing c with
  | nil => rfl
  | cons y pre ih =>
    rw [extraEnd_cons]
    exact congrArg (List.cons (⟨y.1, c, y.2⟩ : Extra)) (ih (c := c + ncl y.2.length))

/-- All clusters in use: the four directories, the two files and the extra ones. -/
def tiles (nb nk : Nat) (xs : List (List Char × List Byte)) : List (Nat × Nat) :=
  [(CL_ROOT, 1), (CL_EFI, 1), (CL_EB, 1), (CL_BOOT, 1), (CL_BX, nb), (CL_BX + nb, nk)] ++
    (extraCl (CL_BX + nb + nk) xs).map fun x => (x.xcl, ncl x.xdata.length)

theorem rising_tiles (h : extraEnd (CL_BX + nb + nk) xs ≤ n) : Rising n CL_ROOT (tiles nb nk xs) :=
  ⟨Nat.le_refl _, Nat.le_refl _, Nat.le_refl _, Nat.le_refl _, Nat.le_refl _, Nat.le_refl _,
    rising_extraCl h⟩

theorem fatBuf_eq : fatBuf F nb nk (extraCl (CL_BX + nb + nk) xs) =
    fatChains (put (put (zeros (F * S)) 0 (leBytes 4 0x0FFFFFF8)) 4 (leBytes 4 0x0FFFFFFF))
      (tiles nb nk xs) := by
  simp only [fatBuf, fatChains, tiles, List.foldl_append, List.foldl_map, List.foldl_cons,
    List.foldl_nil, fatChain_one]

end

/-! ## The directories -/

/-- A directory entry, of a size that fits. -/
def dirent (n8 e3 : List Byte) (cl size attr : Nat) : List Byte :=
  putAll (zeros 32) (deWrites n8 e3 cl (leBytes 4 size) attr)

/-- The eleven bytes of its name. -/
def shortBytes (n8 e3 : List Byte) : List Byte := ljust 8 (n8.take 8) ++ ljust 3 (e3.take 3)

section

variable {n8 e3 name : List Byte} {cl size attr : Nat}

theorem de_of_lt (h : size < 256 ^ 4) : de n8 e3 cl size attr = some (dirent n8 e3 cl size attr) := by
  rw [de, pack_of_lt h, Option.map_some, dirent]

theorem de_of_le (h : 256 ^ 4 ≤ size) : de n8 e3 cl size attr = none := by
  rw [de, pack_of_le h, Option.map_none]

theorem length_ljust_taken (n : Nat) (b : List Byte) : (ljust n (b.take n)).length = n :=
  length_ljust (by rw [List.length_take]; exact Nat.min_le_left _ _)

theorem laid_dirent : Laid (zeros 32).length (spans (deWrites n8 e3 cl (leBytes 4 size) attr)) := by
  have shape : spans (deWrites n8 e3 cl (leBytes 4 size) attr) =
      [(0, 8), (8, 3), (11, 1), (20, 2), (26, 2), (28, 4)] := by
    simp only [spans, deWrites, List.map_cons, List.map_nil, length_leBytes, length_ljust_taken]
  rw [shape, length_zeros]
  decide

@[simp] theorem length_dirent : (dirent n8 e3 cl size attr).length = 32 := by
  rw [dirent, length_putAll laid_dirent, length_zeros]

theorem nameOf_dirent : nameOf (dirent n8 e3 cl size attr) = shortBytes n8 e3 :=
  nameOf_putAll laid_dirent (by simp [deWrites]) (by simp [deWrites]) (length_ljust_taken 8 n8)
    (length_ljust_taken 3 e3)

theorem attr_dirent (h : attr < 256 ^ 1) : field (dirent n8 e3 cl size attr) 11 1 = attr :=
  field_putAll laid_dirent (by simp [deWrites]) h

theorem size_dirent (h : size < 256 ^ 4) : lengthOf (dirent n8 e3 cl size attr) = size :=
  field_putAll laid_dirent (by simp [deWrites]) h

/-- Both halves of the cluster number together. -/
theorem cluster_dirent (h : cl < 256 ^ 4) :
    field (dirent n8 e3 cl size attr) 20 2 * 0x10000 + field (dirent n8 e3 cl size attr) 26 2 = cl := by
  have mask (v : Nat) : v &&& 0xFFFF = v % 65536 := Nat.and_two_pow_sub_one_eq_mod v 16
  have high : field (dirent n8 e3 cl size attr) 20 2 = (cl >>> 16) &&& 0xFFFF :=
    field_putAll laid_dirent (by simp [deWrites]) (by rw [mask]; omega)
  have low : field (dirent n8 e3 cl size attr) 26 2 = cl &&& 0xFFFF :=
    field_putAll laid_dirent (by simp [deWrites]) (by rw [mask]; omega)
  rw [high, low, mask, mask, Nat.shiftRight_eq_div_pow]
  omega

/-- An entry that is in use and is not the one with the name. -/
theorem dirent_skipped (used : field (shortBytes n8 e3) 0 1 ≠ 0) (ne : shortBytes n8 e3 ≠ name) :
    field (dirent n8 e3 cl size attr) 0 1 ≠ 0 ∧ Skipped name (dirent n8 e3 cl size attr) := by
  rw [first_eq, nameOf_dirent]
  refine ⟨used, skipped_of ?_⟩
  rwa [nameOf_dirent]

/-- A name that a directory can list: neither the end of the directory nor deleted. -/
def Lists (name : List Byte) : Prop := field name 0 1 ≠ 0 ∧ field name 0 1 ≠ 0xE5

instance (name : List Byte) : Decidable (Lists name) := inferInstanceAs (Decidable (_ ∧ _))

theorem dirent_hit (live : Lists name) (eq : shortBytes n8 e3 = name) (low : attr < 256 ^ 1)
    (plain : attr.testBit 3 = false) :
    field (dirent n8 e3 cl size attr) 0 1 ≠ 0 ∧ ¬ Skipped name (dirent n8 e3 cl size attr) := by
  rw [first_eq, nameOf_dirent, eq]
  refine ⟨live.1, ?_⟩
  rw [Skipped, first_eq, nameOf_dirent, eq, attr_dirent low, plain]
  simp [live.2]

/-- `.` and `..` -/
def dots (cl parent : Nat) : List (List Byte) :=
  [dirent (ascii ".") (ascii "  ") cl 0 ADIR, dirent (ascii "..") (ascii " ") parent 0 ADIR]

theorem rootDir_eq : rootDir = some (directory CSZ (dots CL_ROOT 0 ++
    [dirent (ascii "EFI") (ascii "   ") CL_EFI 0 ADIR,
      dirent (ascii "BOOT") (ascii "   ") CL_BOOT 0 ADIR])) := by
  have none : 0 < 256 ^ 4 := by decide
  rw [rootDir, de_of_lt none, de_of_lt none, de_of_lt none, de_of_lt none]
  rfl

theorem clusterDir_eq (cl parent : Nat) (entry : List Byte) :
    clusterDir cl parent (some entry) = some (directory CSZ (dots cl parent ++ [entry])) := by
  rw [clusterDir, de_of_lt (by decide), de_of_lt (by decide)]
  rfl

theorem clusterDir_none (cl parent : Nat) : clusterDir cl parent none = none := by
  rw [clusterDir, de_of_lt (by decide), de_of_lt (by decide)]
  rfl

end

/-! ## The names of the extra files -/

/-- The first byte of a letter is not a dot unless the letter is. -/
theorem utf8EncodeChar_first {c : Char} (h : c ≠ '.') :
    ∃ a rest, String.utf8EncodeChar c = a :: rest ∧ a.toNat ≠ 0x2E := by
  have code : c.val.toNat ≠ 0x2E := by
    intro same
    exact h (Char.ext (UInt32.toNat_inj.mp same))
  rw [String.utf8EncodeChar]
  split
  case isTrue => exact ⟨_, _, rfl, by rw [UInt8.toNat_ofNat']; omega⟩
  case isFalse =>
    split
    case isTrue => exact ⟨_, _, rfl, by rw [UInt8.toNat_ofNat']; omega⟩
    case isFalse =>
      split
      case isTrue => exact ⟨_, _, rfl, by rw [UInt8.toNat_ofNat']; omega⟩
      case isFalse => exact ⟨_, _, rfl, by rw [UInt8.toNat_ofNat']; omega⟩

/-- What stands in front of the first dot does not begin with one. -/
theorem splitOn_first (l : List Char) : (l.splitOn '.').headD [] = [] ∨
    ∃ c rest, c ≠ '.' ∧ (l.splitOn '.').headD [] = c :: rest := by
  cases l with
  | nil => exact .inl (by simp)
  | cons c l =>
    rw [List.splitOn_cons_eq_if_modifyHead]
    by_cases dot : c = '.'
    case pos => exact .inl (by simp [dot])
    case neg =>
      refine .inr ⟨c, (l.splitOn '.').headD [], dot, ?_⟩
      cases parts : l.splitOn '.' with
      | nil => exact absurd parts (List.splitOn_ne_nil '.' l)
      | cons a as => simp [dot]

section

variable (upper : List Char → List Char)

/-- The 8.3 name of an extra file, as it stands in the directory. -/
def shortName (xname : List Char) : List Byte := shortBytes (nm8 upper xname) (ex3 upper xname)

theorem field_cons (a : Byte) (rest : List Byte) : field (a :: rest) 0 1 = a.toNat := by
  rw [field, slice, List.drop_zero, List.take_succ_cons, List.take_zero, leNat, leNat]
  rfl

/-- It is neither that of the directory nor that of its parent. -/
theorem shortName_first (xname : List Char) : field (shortName upper xname) 0 1 ≠ 0x2E := by
  rw [shortName, shortBytes, nm8]
  rcases splitOn_first (upper xname) with empty | ⟨c, rest, plain, eq⟩
  · have blank : ljust 8 ((ljust 8 (encode (([] : List Char).take 8))).take 8) =
        0x20#8 :: List.replicate 7 0x20#8 := by decide
    rw [empty, blank, List.cons_append, field_cons]
    decide
  · obtain ⟨a, bytes, code, first⟩ := utf8EncodeChar_first plain
    rw [eq]
    simp only [List.take_succ_cons, encode, List.flatMap_cons, code, List.cons_append, List.map_cons,
      ljust, field_cons]
    exact first

/-- The entry of an extra file. -/
def extraEntry (x : Extra) : List Byte :=
  dirent (nm8 upper x.xname) (ex3 upper x.xname) x.xcl x.xdata.length AFILE

variable {upper} {xs : List Extra} {es : List (List Byte)} {d : List Byte} {slot : Nat}

/-- **The loop fills the rows** behind those that are there, as long as the directory
has room for all. -/
theorem bootSlots_of_lt (rows : d = directory CSZ es) (at_ : slot = 32 * es.length)
    (room : es.length + xs.length ≤ 16) (sizes : ∀ x ∈ xs, x.xdata.length < 256 ^ 4) :
    bootSlots upper slot xs d = some (directory CSZ (es ++ xs.map (extraEntry upper))) := by
  induction xs generalizing slot d es with
  | nil => rw [bootSlots, rows, List.map_nil, List.append_nil]
  | cons x xs ih =>
    rw [List.length_cons] at room
    have next : put d slot (extraEntry upper x) = directory CSZ (es ++ [extraEntry upper x]) := by
      rw [directory, rows_append, putAll_append, ← directory, ← rows, at_, Nat.zero_add]
      rfl
    rw [bootSlots, de_of_lt (sizes x List.mem_cons_self)]
    simp only [Option.bind_eq_bind, Option.bind_some]
    change (if slot + 32 + 32 > CSZ then some (put d slot (extraEntry upper x))
      else bootSlots upper (slot + 32) xs (put d slot (extraEntry upper x))) = _
    have front : es ++ extraEntry upper x :: xs.map (extraEntry upper) =
        es ++ [extraEntry upper x] ++ xs.map (extraEntry upper) := by
      rw [List.append_assoc, List.singleton_append]
    rw [next, List.map_cons, front]
    have grown : (es ++ [extraEntry upper x]).length = es.length + 1 := by
      rw [List.length_append, List.length_singleton]
    split
    case isTrue full =>
      have last : xs = [] := by
        refine List.eq_nil_of_length_eq_zero ?_
        simp only [CSZ, SPC, S] at full
        omega
      rw [last, List.map_nil, List.append_nil]
    case isFalse =>
      exact ih rfl (by omega) (by omega) fun y hy => sizes y (List.mem_cons_of_mem _ hy)

/-- It raises on a file whose size does not fit its field. -/
theorem bootSlots_some (h : bootSlots upper slot xs d ≠ none) (room : slot + 32 * xs.length ≤ CSZ) :
    ∀ x ∈ xs, x.xdata.length < 256 ^ 4 := by
  induction xs generalizing slot d with
  | nil => exact fun x hx => by cases hx
  | cons x xs ih =>
    rw [List.length_cons] at room
    have own : x.xdata.length < 256 ^ 4 := by
      by_contra large
      rw [bootSlots, de_of_le (Nat.le_of_not_lt large)] at h
      exact h rfl
    intro y hy
    rcases List.mem_cons.mp hy with rfl | later
    · exact own
    · rw [bootSlots, de_of_lt own] at h
      simp only [Option.bind_eq_bind, Option.bind_some] at h
      split at h
      case isTrue full =>
        have last : xs.length = 0 := by omega
        rw [List.eq_nil_of_length_eq_zero last] at later
        cases later
      case isFalse => exact ih h (by omega) y later

end

end MicroNT.Mkdisk
