import MicroNT.DiskImage

/-! # The partition read back

Directories and files lie behind the two tables in the order of their clusters, so a
reader finds each where its entry says. The loop sizes the table for as many entries
as there are clusters, but the first two entries belong to none: the builder drops
those of the last clusters, and the chain of a file that has them does not end. -/

namespace MicroNT.Mkdisk

open Base.Bytes Base.Fat

/-! ## What a reader is to find -/

/-- `/EFI/BOOT/BOOTX64.EFI` -/
def bootx64Path : List (List Byte) :=
  [ascii "EFI        ", ascii "BOOT       ", ascii "BOOTX64 EFI"]

/-- `/BOOT/MICRONT.ELF` -/
def kernelPath : List (List Byte) := [ascii "BOOT       ", ascii "MICRONT ELF"]

section

variable (upper : List Char → List Char)

def extraPath (xname : List Char) : List (List Byte) := [ascii "BOOT       ", shortName upper xname]

/-- The directories and files. -/
def paths (extra_files : List (List Char × List Byte)) : List (List (List Byte)) :=
  [[ascii "EFI        "], [ascii "EFI        ", ascii "BOOT       "], [ascii "BOOT       "],
    bootx64Path, kernelPath] ++ extra_files.map fun x => extraPath upper x.1

def root32 (image : List Byte) : List Byte := ((fat32 image).chainBytes (rootCluster image)).getD []

/-- The chains of the root directory and of everything else. -/
def chains (image : List Byte) (extra_files : List (List Char × List Byte)) : List (List Nat) :=
  (fat32 image).chain (rootCluster image) ::
    (paths upper extra_files).map ((fat32 image).clustersOf (root32 image))

/-- A reader of the image finds every file with its bytes; the two copies of the table
are the same, and no cluster is in two chains. -/
structure RoundTrip (image bootx64 kernel : List Byte)
    (extra_files : List (List Char × List Byte)) : Prop where
  bootx64 : (fat32 image).Holds (root32 image) bootx64Path bootx64
  kernel : (fat32 image).Holds (root32 image) kernelPath kernel
  extra : ∀ x ∈ extra_files, (fat32 image).Holds (root32 image) (extraPath upper x.1) x.2
  copies : (bpb image).fats = 2 ∧ (bpb image).fat image 1 = (bpb image).fat image 0
  disjoint : (chains upper image extra_files).Pairwise List.Disjoint

end

/-- The numbers that the builder packs into 32 bits. -/
structure Fields (bootx64 kernel : List Byte) (part_sectors hidden_sectors : Nat)
    (extra_files : List (List Char × List Byte)) : Prop where
  part : part_sectors < 256 ^ 4
  hidden : hidden_sectors < 256 ^ 4
  bootx64 : bootx64.length < 256 ^ 4
  kernel : kernel.length < 256 ^ 4
  extra : ∀ x ∈ extra_files, x.2.length < 256 ^ 4

/-- The first cluster that no file has. -/
def clEnd (bootx64 kernel : List Byte) (extra_files : List (List Char × List Byte)) : Nat :=
  extraEnd (CL_BX + ncl bootx64.length + ncl kernel.length) extra_files

/-- Of the files that have bytes, in clusters one behind the other, each lies below
cluster `n`. -/
def Covered (n : Nat) : Nat → List (List Byte) → Prop
  | _, [] => True
  | cl, data :: rest => (data ≠ [] → cl + ncl data.length ≤ n) ∧ Covered n (cl + ncl data.length) rest

/-! ## The image -/

section

variable (upper : List Char → List Char) (bx kr : List Byte) (P hidden : Nat)
  (xs : List (List Char × List Byte))

/-- The entries of `/BOOT`. -/
def bootEntries : List (List Byte) :=
  dots CL_BOOT CL_ROOT ++ dirent (ascii "MICRONT") (ascii "ELF") (CL_BX + ncl bx.length) kr.length AFILE ::
    (extraCl (CL_BX + ncl bx.length + ncl kr.length) xs).map (extraEntry upper)

/-- Sectors in front of the tables, then all parts in the order they lie in the image. -/
def parts : List (Nat × List Byte) :=
  let F := fatSec P
  let bs := putAll (zeros S) (bootWrites (leBytes 4 hidden) (leBytes 4 P) (leBytes 4 F))
  let fat_buf := fatBuf F (ncl bx.length) (ncl kr.length)
    (extraCl (CL_BX + ncl bx.length + ncl kr.length) xs)
  [(0, bs), (6 * S, bs), (1 * S, fsInfo), (RES * S, fat_buf), (RES * S + F * S, fat_buf),
    (clo F CL_ROOT, directory CSZ (dots CL_ROOT 0 ++
      [dirent (ascii "EFI") (ascii "   ") CL_EFI 0 ADIR,
        dirent (ascii "BOOT") (ascii "   ") CL_BOOT 0 ADIR])),
    (clo F CL_EFI, directory CSZ (dots CL_EFI CL_ROOT ++
      [dirent (ascii "BOOT") (ascii "   ") CL_EB 0 ADIR])),
    (clo F CL_EB, directory CSZ (dots CL_EB CL_EFI ++
      [dirent (ascii "BOOTX64") (ascii "EFI") CL_BX bx.length AFILE])),
    (clo F CL_BOOT, directory CSZ (bootEntries upper bx kr xs)),
    (clo F CL_BX, bx), (clo F (CL_BX + ncl bx.length), kr)] ++
    (extraCl (CL_BX + ncl bx.length + ncl kr.length) xs).map fun x => (clo F x.xcl, x.xdata)

def partition : List Byte := putAll (zeros (P * S)) (parts upper bx kr P hidden xs)

variable {upper bx kr P hidden xs}

theorem extraCl_sizes {c : Nat} (h : ∀ x ∈ xs, x.2.length < 256 ^ 4) :
    ∀ x ∈ extraCl c xs, x.xdata.length < 256 ^ 4 := by
  induction xs generalizing c with
  | nil => exact fun x hx => by cases hx
  | cons y ys ih =>
    intro x hx
    rcases List.mem_cons.mp hx with rfl | later
    · exact h y List.mem_cons_self
    · exact ih (fun z hz => h z (List.mem_cons_of_mem _ hz)) x later

/-- The names are those of the files. -/
theorem name_extraCl {c : Nat} {e : Extra} (he : e ∈ extraCl c xs) : ∃ x ∈ xs, x.1 = e.xname := by
  induction xs generalizing c with
  | nil => cases he
  | cons z zs ih =>
    rcases List.mem_cons.mp he with rfl | later
    · exact ⟨z, List.mem_cons_self, rfl⟩
    · obtain ⟨x, hx, same⟩ := ih later
      exact ⟨x, List.mem_cons_of_mem _ hx, same⟩

/-- Each extra file has a place. -/
theorem mem_extraCl {c : Nat} {x : List Char × List Byte} (hx : x ∈ xs) :
    ∃ y ∈ extraCl c xs, y.xdata = x.2 := by
  induction xs generalizing c with
  | nil => cases hx
  | cons z zs ih =>
    rcases List.mem_cons.mp hx with rfl | later
    · exact ⟨_, List.mem_cons_self, rfl⟩
    · obtain ⟨y, hy, same⟩ := ih (c := c + ncl z.2.length) later
      exact ⟨y, List.mem_cons_of_mem _ hy, same⟩

theorem length_extraCl {c : Nat} : (extraCl c xs).length = xs.length := by
  induction xs generalizing c with
  | nil => rfl
  | cons x xs ih => rw [extraCl, List.length_cons, List.length_cons, ih]

theorem fatSec_lt (asserted : 65525 ≤ clusterCount P (fatSec P)) (part : P < 256 ^ 4) :
    fatSec P = (P + 95) / 130 ∧ fatSec P < 256 ^ 4 := by
  have large : 65557 ≤ P := by
    rw [clusterCount, dataSector, RES, NF, SPC] at asserted
    omega
  rw [fatSec_eq large part]
  omega

variable (upper bx) in
theorem bootDir_eq (few : xs.length ≤ 13) (kernel : kr.length < 256 ^ 4)
    (extra : ∀ x ∈ xs, x.2.length < 256 ^ 4) :
    bootDir upper (CL_BX + ncl bx.length) kr.length
      (extraCl (CL_BX + ncl bx.length + ncl kr.length) xs) =
        some (directory CSZ (bootEntries upper bx kr xs)) := by
  have filled : bootSlots upper 96 (extraCl (CL_BX + ncl bx.length + ncl kr.length) xs)
      (directory CSZ (dots CL_BOOT CL_ROOT ++
        [dirent (ascii "MICRONT") (ascii "ELF") (CL_BX + ncl bx.length) kr.length AFILE])) = _ :=
    bootSlots_of_lt rfl rfl (by rw [length_extraCl]; change 3 + xs.length ≤ 16; omega)
      (extraCl_sizes extra)
  rw [bootDir, de_of_lt kernel, clusterDir_eq]
  simp only [Option.bind_eq_bind, Option.bind_some]
  rw [filled, bootEntries, List.append_assoc, List.singleton_append]

/-- **The builder succeeds** where its assertion holds and the numbers fit. -/
theorem buildFat32Part_of_fields (asserted : 65525 ≤ clusterCount P (fatSec P)) (few : xs.length ≤ 13)
    (fields : Fields bx kr P hidden xs) :
    buildFat32Part upper bx kr P hidden xs = some (partition upper bx kr P hidden xs) := by
  have part := fields.part
  have small := (fatSec_lt asserted part).2
  have boot := bootDir_eq upper bx few fields.kernel fields.extra
  rw [buildFat32Part]
  simp only [if_neg (Nat.not_lt.mpr asserted), bootSector, pack_of_lt fields.hidden, pack_of_lt part,
    pack_of_lt small, rootDir_eq, efiDir, efiBootDir, de_of_lt fields.bootx64,
    de_of_lt (show 0 < 256 ^ 4 by decide), clusterDir_eq, boot, Option.bind_eq_bind, Option.bind_some]
  rfl

/-- It raises where they do not fit. -/
theorem fields_of_some (asserted : 65525 ≤ clusterCount P (fatSec P)) (few : xs.length ≤ 13)
    (h : buildFat32Part upper bx kr P hidden xs ≠ none) : Fields bx kr P hidden xs := by
  rw [buildFat32Part] at h
  simp only [if_neg (Nat.not_lt.mpr asserted), bootSector, Option.bind_eq_bind] at h
  have hidden_lt : hidden < 256 ^ 4 := by
    by_contra large
    rw [pack_of_le (Nat.le_of_not_lt large)] at h
    exact h rfl
  have part_lt : P < 256 ^ 4 := by
    by_contra large
    rw [pack_of_lt hidden_lt, pack_of_le (Nat.le_of_not_lt large)] at h
    exact h rfl
  have small := (fatSec_lt asserted part_lt).2
  simp only [pack_of_lt hidden_lt, pack_of_lt part_lt, pack_of_lt small, rootDir_eq, efiDir,
    de_of_lt (show 0 < 256 ^ 4 by decide), clusterDir_eq, Option.bind_some] at h
  have bootx64_lt : bx.length < 256 ^ 4 := by
    by_contra large
    rw [efiBootDir, de_of_le (Nat.le_of_not_lt large), clusterDir_none] at h
    exact h rfl
  simp only [efiBootDir, de_of_lt bootx64_lt, clusterDir_eq, Option.bind_some] at h
  have kernel_lt : kr.length < 256 ^ 4 := by
    by_contra large
    rw [bootDir, de_of_le (Nat.le_of_not_lt large), clusterDir_none] at h
    exact h rfl
  have slots : bootSlots upper 96 (extraCl (CL_BX + ncl bx.length + ncl kr.length) xs)
      (directory CSZ (dots CL_BOOT CL_ROOT ++
        [dirent (ascii "MICRONT") (ascii "ELF") (CL_BX + ncl bx.length) kr.length AFILE])) ≠ none := by
    intro raised
    rw [bootDir, de_of_lt kernel_lt, clusterDir_eq] at h
    simp only [Option.bind_eq_bind, Option.bind_some, raised] at h
    exact h rfl
  have extra := bootSlots_some slots (by
    rw [length_extraCl]
    change 96 + 32 * xs.length ≤ 512
    omega)
  refine ⟨part_lt, hidden_lt, bootx64_lt, kernel_lt, fun x hx => ?_⟩
  obtain ⟨y, hy, same⟩ := mem_extraCl (c := CL_BX + ncl bx.length + ncl kr.length) hx
  rw [← same]
  exact extra y hy

/-! ## What a reader sees -/

/-- The files fit into the partition, and the numbers into their fields. -/
structure Setting (bx kr : List Byte) (P hidden : Nat) (xs : List (List Char × List Byte)) : Prop where
  asserted : 65525 ≤ clusterCount P (fatSec P)
  few : xs.length ≤ 13
  fits : clEnd bx kr xs ≤ clusterCount P (fatSec P) + 2
  fields : Fields bx kr P hidden xs

theorem Setting.sectors (h : Setting bx kr P hidden xs) :
    P < 256 ^ 4 ∧ fatSec P < 256 ^ 4 ∧ 505 ≤ fatSec P ∧ 32 + 2 * fatSec P + 65525 ≤ P ∧
      clEnd bx kr xs + 32 + 2 * fatSec P ≤ P + 2 := by
  have part := h.fields.part
  have asserted := h.asserted
  have fits := h.fits
  obtain ⟨eq, small⟩ := fatSec_lt asserted part
  rw [clusterCount, dataSector, RES, NF, SPC, Nat.div_one] at asserted fits
  omega

theorem laid_boot (hidden total fats : Nat) : Laid (zeros S).length
    (spans (bootWrites (leBytes 4 hidden) (leBytes 4 total) (leBytes 4 fats))) := by
  rw [length_zeros]
  exact Rising.laid (a := 0) (show Rising S 0 [(0, 3), (3, 8), (11, 2), (13, 1), (14, 2), (16, 1), (21, 1),
    (24, 2), (26, 2), (28, 4), (32, 4), (36, 4), (44, 4), (48, 2), (50, 2), (64, 1), (66, 1), (67, 4),
    (71, 11), (82, 8), (510, 1), (511, 1)] by decide)

theorem bpb_boot {hidden total fats : Nat} (ht : total < 256 ^ 4) (hf : fats < 256 ^ 4) :
    bpb (putAll (zeros S) (bootWrites (leBytes 4 hidden) (leBytes 4 total) (leBytes 4 fats))) =
      ⟨512, 1, 32, 2, 0, total, fats⟩ := by
  have at_ {off w v : Nat}
      (hw : (off, leBytes w v) ∈ bootWrites (leBytes 4 hidden) (leBytes 4 total) (leBytes 4 fats))
      (fits : v < 256 ^ w) := field_putAll (laid_boot hidden total fats) hw fits
  have unset (off w : Nat) (inside : off + w ≤ 512)
      (apart : ∀ s ∈ spans (bootWrites (leBytes 4 hidden) (leBytes 4 total) (leBytes 4 fats)),
        Apart (off, w) s) : field (putAll (zeros S)
          (bootWrites (leBytes 4 hidden) (leBytes 4 total) (leBytes 4 fats))) off w = 0 := by
    have laid := laid_boot hidden total fats
    rw [length_zeros] at laid
    exact field_putAll_zeros laid inside apart
  have shape : spans (bootWrites (leBytes 4 hidden) (leBytes 4 total) (leBytes 4 fats)) =
      [(0, 3), (3, 8), (11, 2), (13, 1), (14, 2), (16, 1), (21, 1),
    (24, 2), (26, 2), (28, 4), (32, 4), (36, 4), (44, 4), (48, 2), (50, 2), (64, 1), (66, 1), (67, 4),
    (71, 11), (82, 8), (510, 1), (511, 1)] := rfl
  rw [bpb, at_ (v := S) (by simp [bootWrites]) (by decide),
    at_ (v := SPC) (by simp [bootWrites]) (by decide),
    at_ (v := RES) (by simp [bootWrites]) (by decide),
    at_ (v := NF) (by simp [bootWrites]) (by decide),
    unset 17 2 (by decide) (by rw [shape]; decide), unset 19 2 (by decide) (by rw [shape]; decide),
    unset 22 2 (by decide) (by rw [shape]; decide), if_pos rfl, if_pos rfl,
    (at_ (by simp [bootWrites]) ht : field _ 32 4 = total),
    (at_ (by simp [bootWrites]) hf : field _ 36 4 = fats)]
  rfl

/-- The table before the chains. -/
def fatHead (F : Nat) : List Byte :=
  put (put (zeros (F * S)) 0 (leBytes 4 0x0FFFFFF8)) 4 (leBytes 4 0x0FFFFFFF)

theorem length_fatHead {F : Nat} (pos : 1 ≤ F) : (fatHead F).length = F * S := by
  have first : (put (zeros (F * S)) 0 (leBytes 4 0x0FFFFFF8)).length = F * S := by
    rw [length_put (by rw [length_leBytes, length_zeros, S]; omega), length_zeros]
  rw [fatHead, length_put (by rw [first, length_leBytes, S]; omega), first]

theorem length_fatBuf {F nb nk : Nat} (pos : 1 ≤ F) :
    (fatBuf F nb nk (extraCl (CL_BX + nb + nk) xs)).length = F * S := by
  rw [fatBuf_eq, length_fatChains]
  exact length_fatHead pos

theorem length_fsInfo : fsInfo.length = 512 := by
  rw [fsInfo, length_putAll (by
    rw [length_zeros]
    exact show Laid S [(0, 4), (484, 4), (488, 4), (492, 4), (508, 4)] by decide), length_zeros, S]

theorem length_dots (cl parent : Nat) (entry : List Byte) (len : entry.length = 32) :
    (directory CSZ (dots cl parent ++ [entry])).length = 512 :=
  length_directory (by simp [dots, len]) (show 32 * 3 ≤ 512 by decide)

variable (upper bx kr) in
theorem bootEntries_length (few : xs.length ≤ 13) :
    (∀ x ∈ bootEntries upper bx kr xs, x.length = 32) ∧
      32 * (bootEntries upper bx kr xs).length ≤ CSZ := by
  constructor
  · intro x hx
    simp only [bootEntries, dots, List.cons_append, List.nil_append, List.mem_cons, List.mem_map] at hx
    rcases hx with rfl | rfl | rfl | ⟨y, -, rfl⟩
    · exact length_dirent
    · exact length_dirent
    · exact length_dirent
    · exact length_dirent
  · rw [bootEntries, List.length_append, List.length_cons, List.length_map, length_extraCl]
    change 32 * (2 + (xs.length + 1)) ≤ 512
    omega

/-- The data of the extra files, one behind the other. -/
theorem rising_data {F c n : Nat} (hc : 2 ≤ c) (h : clo F (extraEnd c xs) ≤ n) :
    Rising n (clo F c) ((extraCl c xs).map fun x => (clo F x.xcl, x.xdata.length)) := by
  induction xs generalizing c with
  | nil => exact h
  | cons x xs ih =>
    have rest := ih (c := c + ncl x.2.length) (by omega) (by rwa [← extraEnd_cons])
    refine ⟨Nat.le_refl _, rest.weaken ?_⟩
    have size := le_ncl x.2.length
    simp only [clo, SPC, S]
    omega

theorem spans_parts (h : Setting bx kr P hidden xs) : spans (parts upper bx kr P hidden xs) =
    (0, 512) :: (3072, 512) :: (512, 512) :: (16384, fatSec P * 512) ::
      (16384 + fatSec P * 512, fatSec P * 512) :: (clo (fatSec P) 2, 512) :: (clo (fatSec P) 3, 512) ::
        (clo (fatSec P) 4, 512) :: (clo (fatSec P) 5, 512) :: (clo (fatSec P) 6, bx.length) ::
          (clo (fatSec P) (CL_BX + ncl bx.length), kr.length) ::
            (extraCl (CL_BX + ncl bx.length + ncl kr.length) xs).map
              fun x => (clo (fatSec P) x.xcl, x.xdata.length) := by
  obtain ⟨all, room⟩ := bootEntries_length upper bx kr h.few
  have root : (directory CSZ (dots CL_ROOT 0 ++ [dirent (ascii "EFI") (ascii "   ") CL_EFI 0 ADIR,
      dirent (ascii "BOOT") (ascii "   ") CL_BOOT 0 ADIR])).length = 512 :=
    length_directory (by simp [dots]) (show 32 * 4 ≤ 512 by decide)
  have table : (fatBuf (fatSec P) (ncl bx.length) (ncl kr.length)
      (extraCl (CL_BX + ncl bx.length + ncl kr.length) xs)).length = fatSec P * S :=
    length_fatBuf (Nat.le_trans (by decide) h.sectors.2.2.1)
  have boot := length_putAll (laid_boot hidden P (fatSec P))
  simp only [spans, parts, List.cons_append, List.nil_append, List.map_cons, List.map_map, boot, table,
    length_zeros, length_fsInfo, root, length_dots _ _ _ length_dirent, length_directory all room]
  simp only [S, RES, CL_ROOT, CL_EFI, CL_EB, CL_BOOT, CSZ, SPC, Nat.reduceMul, Function.comp_def]
  rfl

theorem laid_parts (h : Setting bx kr P hidden xs) :
    Laid (zeros (P * S)).length (spans (parts upper bx kr P hidden xs)) := by
  obtain ⟨-, -, large, room, fits⟩ := h.sectors
  have lb := le_ncl bx.length
  have lk := le_ncl kr.length
  have data : Rising (P * 512) (clo (fatSec P) (CL_BX + ncl bx.length + ncl kr.length))
      ((extraCl (CL_BX + ncl bx.length + ncl kr.length) xs).map
        fun x => (clo (fatSec P) x.xcl, x.xdata.length)) := by
    refine rising_data (by rw [CL_BX]; omega) ?_
    change (dataSector (fatSec P) + (clEnd bx kr xs - 2) * SPC) * S ≤ P * 512
    rw [dataSector, RES, NF, SPC, S]
    omega
  rw [spans_parts h, length_zeros]
  have rest : Rising (P * S) 16384 ((16384, fatSec P * 512) ::
      (16384 + fatSec P * 512, fatSec P * 512) :: (clo (fatSec P) 2, 512) :: (clo (fatSec P) 3, 512) ::
        (clo (fatSec P) 4, 512) :: (clo (fatSec P) 5, 512) :: (clo (fatSec P) 6, bx.length) ::
          (clo (fatSec P) (CL_BX + ncl bx.length), kr.length) ::
            (extraCl (CL_BX + ncl bx.length + ncl kr.length) xs).map
              fun x => (clo (fatSec P) x.xcl, x.xdata.length)) := by
    refine ⟨?_, ?_, ?_, ?_, ?_, ?_, ?_, ?_, data.weaken ?_⟩
    all_goals
      simp only [clo, dataSector, RES, NF, SPC, S, CL_BX]
      omega
  have above := rest.above.2
  have small : 16384 ≤ P * S := rest.above.1
  refine ((rest.laid.cons ?_ ?_).cons ?_ ?_).cons ?_ ?_
  · change 512 + 512 ≤ P * S
    omega
  · intro t ht
    exact .inl (Nat.le_trans (show 512 + 512 ≤ 16384 by decide) (above t ht))
  · change 3072 + 512 ≤ P * S
    omega
  · intro t ht
    rcases List.mem_cons.mp ht with rfl | later
    · decide
    · exact .inl (Nat.le_trans (show 3072 + 512 ≤ 16384 by decide) (above t later))
  · change 0 + 512 ≤ P * S
    omega
  · intro t ht
    rcases List.mem_cons.mp ht with rfl | later
    · decide
    · rcases List.mem_cons.mp later with rfl | last
      · decide
      · exact .inl (Nat.le_trans (show 0 + 512 ≤ 16384 by decide) (above t last))

variable (upper) in
theorem length_partition (h : Setting bx kr P hidden xs) :
    (partition upper bx kr P hidden xs).length = P * 512 := by
  rw [partition, length_putAll (laid_parts h), length_zeros, S]

theorem slice_partition (h : Setting bx kr P hidden xs) {off : Nat} {x : List Byte}
    (hw : (off, x) ∈ parts upper bx kr P hidden xs) :
    slice (partition upper bx kr P hidden xs) off x.length = x := slice_putAll (laid_parts h) hw

variable (upper) in
theorem sector_partition (h : Setting bx kr P hidden xs) :
    slice (partition upper bx kr P hidden xs) 0 512 =
      putAll (zeros S) (bootWrites (leBytes 4 hidden) (leBytes 4 P) (leBytes 4 (fatSec P))) := by
  have boot := slice_partition h (List.mem_cons_self : (0, _) ∈ parts upper bx kr P hidden xs)
  rwa [length_putAll (laid_boot _ _ _), length_zeros] at boot

theorem bpb_partition (h : Setting bx kr P hidden xs) :
    bpb (partition upper bx kr P hidden xs) = ⟨512, 1, 32, 2, 0, P, fatSec P⟩ := by
  rw [← bpb_slice (show 40 ≤ 512 by decide), sector_partition upper h]
  exact bpb_boot h.sectors.1 h.sectors.2.1

theorem rootCluster_partition (h : Setting bx kr P hidden xs) :
    rootCluster (partition upper bx kr P hidden xs) = CL_ROOT := by
  have inside : field (slice (partition upper bx kr P hidden xs) 0 512) 44 4 =
      field (partition upper bx kr P hidden xs) 44 4 := by
    rw [field_slice (by decide), Nat.zero_add]
  rw [rootCluster, ← inside, sector_partition upper h]
  exact field_putAll (laid_boot _ _ _) (by simp [bootWrites, CL_ROOT]) (by decide)

/-- Both copies of the table. -/
theorem fat_partition (h : Setting bx kr P hidden xs) {k : Nat} (hk : k < 2) :
    (bpb (partition upper bx kr P hidden xs)).fat (partition upper bx kr P hidden xs) k =
      fatBuf (fatSec P) (ncl bx.length) (ncl kr.length)
        (extraCl (CL_BX + ncl bx.length + ncl kr.length) xs) := by
  have pos : 1 ≤ fatSec P := Nat.le_trans (by decide) h.sectors.2.2.1
  generalize table : fatBuf (fatSec P) (ncl bx.length) (ncl kr.length)
    (extraCl (CL_BX + ncl bx.length + ncl kr.length) xs) = t
  have len : t.length = fatSec P * 512 := by
    rw [← table, length_fatBuf pos, S]
  have both : (RES * S, t) ∈ parts upper bx kr P hidden xs ∧
      (RES * S + fatSec P * S, t) ∈ parts upper bx kr P hidden xs := by
    simp [parts, table]
  have first := slice_partition h both.1
  have second := slice_partition h both.2
  rw [len] at first second
  rw [bpb_partition h, Bpb.fat, Bpb.fatBytes]
  obtain rfl | rfl : k = 0 ∨ k = 1 := by omega
  · simp only [Nat.zero_mul, Nat.add_zero]
    exact first
  · simp only [Nat.one_mul]
    exact second

variable (upper) in
theorem volume_partition (h : Setting bx kr P hidden xs) :
    (fat32 (partition upper bx kr P hidden xs)).dataStart = dataSector (fatSec P) * 512 ∧
      (fat32 (partition upper bx kr P hidden xs)).clusterBytes = 512 ∧
        (fat32 (partition upper bx kr P hidden xs)).count = P - dataSector (fatSec P) := by
  have sector : (bpb (partition upper bx kr P hidden xs)).dataSector = dataSector (fatSec P) := by
    simp [bpb_partition h, Bpb.dataSector, Bpb.rootSector, dataSector, RES, NF]
  refine ⟨?_, ?_, ?_⟩
  · change (bpb _).dataSector * (bpb _).bytesPerSector = _
    rw [sector, bpb_partition h]
  · change (bpb _).sectorsPerCluster * (bpb _).bytesPerSector = _
    simp [bpb_partition h]
  · change (bpb _).count = _
    rw [Bpb.count, sector, bpb_partition h, Nat.div_one]

/-! ## The chains -/

theorem tiles_pos {t : Nat × Nat} (ht : t ∈ tiles (ncl bx.length) (ncl kr.length) xs) : 0 < t.2 := by
  simp only [tiles, List.cons_append, List.nil_append, List.mem_cons, List.mem_map] at ht
  rcases ht with rfl | rfl | rfl | rfl | rfl | rfl | ⟨x, -, rfl⟩
  · exact Nat.one_pos
  · exact Nat.one_pos
  · exact Nat.one_pos
  · exact Nat.one_pos
  · exact ncl_pos _
  · exact ncl_pos _
  · exact ncl_pos _

/-- No cluster has a number that 28 bits do not hold: the files are below 4 GB each. -/
theorem Setting.clEnd_lt (h : Setting bx kr P hidden xs) : clEnd bx kr xs < 0xFFFFFF0 := by
  have extra := extraEnd_le (c := CL_BX + ncl bx.length + ncl kr.length) h.fields.extra
  have few := h.few
  have nb := ncl_le h.fields.bootx64
  have nk := ncl_le h.fields.kernel
  rw [CL_BX] at extra
  rw [clEnd, CL_BX]
  omega

theorem tile_bounds {t : Nat × Nat} (ht : t ∈ tiles (ncl bx.length) (ncl kr.length) xs) :
    2 ≤ t.1 ∧ t.1 + t.2 ≤ clEnd bx kr xs ∧ 0 < t.2 := by
  have rising : Rising (clEnd bx kr xs) CL_ROOT (tiles (ncl bx.length) (ncl kr.length) xs) :=
    rising_tiles (Nat.le_refl _)
  exact ⟨rising.above.2 t ht, rising.laid.2 t ht, tiles_pos ht⟩

variable {t : Nat × Nat} {j : Nat}

/-- **What a reader makes of an entry**: the clusters of a file lead on to the last one,
as far as the table has entries for them. -/
theorem link_tile (h : Setting bx kr P hidden xs)
    (ht : t ∈ tiles (ncl bx.length) (ncl kr.length) xs) (here : t.1 ≤ j ∧ j < t.1 + t.2) :
    (fat32 (partition upper bx kr P hidden xs)).link j =
      if j < 128 * fatSec P then if t.1 + t.2 - 1 = j then .last else .more (j + 1) else .broken := by
  obtain ⟨low, high, pos⟩ := tile_bounds ht
  obtain ⟨-, -, many, room, fits⟩ := h.sectors
  have small := h.clEnd_lt
  have table : (bpb (partition upper bx kr P hidden xs)).fat (partition upper bx kr P hidden xs) 0 =
      fatBuf (fatSec P) (ncl bx.length) (ncl kr.length)
        (extraCl (CL_BX + ncl bx.length + ncl kr.length) xs) := fat_partition h (by decide)
  have len : (fatBuf (fatSec P) (ncl bx.length) (ncl kr.length)
      (extraCl (CL_BX + ncl bx.length + ncl kr.length) xs)).length = fatSec P * S :=
    length_fatBuf (by omega)
  have inside : 2 ≤ j ∧ j < (bpb (partition upper bx kr P hidden xs)).count + 2 := by
    have count := (volume_partition upper h).2.2
    change (bpb (partition upper bx kr P hidden xs)).count = P - dataSector (fatSec P) at count
    rw [count, dataSector, RES, NF]
    omega
  split
  case isTrue below =>
    have covered : j * 4 + 4 ≤ (fatHead (fatSec P)).length := by
      rw [length_fatHead (by omega), S]
      omega
    have entry := entry_fatChains covered (fun t ht => (tile_bounds ht).2.2)
      (rising_tiles (Nat.le_refl (clEnd bx kr xs))).laid.1 ht here
    have read : entry32 ((bpb (partition upper bx kr P hidden xs)).fat
        (partition upper bx kr P hidden xs) 0) j =
          some ((if t.1 + t.2 - 1 = j then 0x0FFFFFFF else (j + 1) &&& 0x0FFFFFFF) % 0x10000000) := by
      rw [table, entry32, len, if_pos (by rw [S]; omega), fatBuf_eq]
      exact congrArg (fun v => some (v % 0x10000000)) entry
    split
    case isTrue last =>
      rw [if_pos last] at read
      exact Bpb.link_last inside read (by decide) (by decide)
    case isFalse more =>
      have mask : ((j + 1) &&& 0x0FFFFFFF) % 0x10000000 = j + 1 := by
        rw [show 0x0FFFFFFF = 2 ^ 28 - 1 from rfl, Nat.and_two_pow_sub_one_eq_mod]
        omega
      rw [if_neg more, mask] at read
      exact Bpb.link_more inside read (Nat.succ_pos j) (by omega)
  case isFalse behind =>
    refine Bpb.link_none inside ?_
    rw [table, entry32, len, if_neg (by rw [S]; omega)]

theorem steps_tile (h : Setting bx kr P hidden xs)
    (ht : t ∈ tiles (ncl bx.length) (ncl kr.length) xs) {n : Nat} (lt : n < t.2)
    (room : t.1 + n ≤ 128 * fatSec P) :
    Steps (fat32 (partition upper bx kr P hidden xs)).link t.1 n := by
  intro i hi
  rw [link_tile h ht (by omega), if_pos (by omega), if_neg (by omega)]

/-- Clusters that the table covers are a chain. -/
theorem run_tile (h : Setting bx kr P hidden xs) (ht : t ∈ tiles (ncl bx.length) (ncl kr.length) xs)
    (covered : t.1 + t.2 ≤ 128 * fatSec P) :
    Run (fat32 (partition upper bx kr P hidden xs)).link t.1 t.2 := by
  have pos := (tile_bounds ht).2.2
  refine ⟨pos, steps_tile h ht (by omega) (by omega), ?_⟩
  rw [link_tile h ht (by omega), if_pos (by omega), if_pos (by omega)]

/-- Others have no end. -/
theorem ends_tile (h : Setting bx kr P hidden xs) (ht : t ∈ tiles (ncl bx.length) (ncl kr.length) xs)
    (past : 128 * fatSec P < t.1 + t.2) :
    ends (fat32 (partition upper bx kr P hidden xs)).link
      (fat32 (partition upper bx kr P hidden xs)).count t.1 = false := by
  obtain ⟨low, high, pos⟩ := tile_bounds ht
  obtain ⟨-, -, many, room, fits⟩ := h.sectors
  have count := (volume_partition upper h).2.2
  rw [dataSector, RES, NF] at count
  by_cases before : t.1 ≤ 128 * fatSec P
  case pos =>
    have stop : (fat32 (partition upper bx kr P hidden xs)).link (t.1 + (128 * fatSec P - t.1)) =
        .broken := by
      rw [link_tile h ht (by omega), if_neg (by omega)]
    exact ((steps_tile h ht (by omega) (by omega)).broken stop (by omega)).2
  case neg =>
    have stop : (fat32 (partition upper bx kr P hidden xs)).link (t.1 + 0) = .broken := by
      rw [link_tile h ht (by omega), if_neg (by omega)]
    have none : Steps (fat32 (partition upper bx kr P hidden xs)).link t.1 0 :=
      fun i hi => absurd hi (Nat.not_lt_zero i)
    exact (none.broken stop (by omega)).2

/-- A chain has clusters of its file only, the first of them in any case. -/
theorem chain_tile (h : Setting bx kr P hidden xs) (ht : t ∈ tiles (ncl bx.length) (ncl kr.length) xs) :
    t.1 ∈ (fat32 (partition upper bx kr P hidden xs)).chain t.1 ∧
      ∀ c ∈ (fat32 (partition upper bx kr P hidden xs)).chain t.1, t.1 ≤ c ∧ c < t.1 + t.2 := by
  obtain ⟨low, high, pos⟩ := tile_bounds ht
  obtain ⟨-, -, many, room, fits⟩ := h.sectors
  have count := (volume_partition upper h).2.2
  rw [dataSector, RES, NF] at count
  constructor
  · refine mem_clusters_self ?_ (by omega)
    rw [link_tile h ht (by omega)]
    split
    case isTrue => split <;> simp
    case isFalse => simp
  · refine clusters_closed (fun c d hc lt next => ?_) (by omega)
    rw [link_tile h ht ⟨hc, lt⟩] at next
    split at next
    case isTrue =>
      split at next
      case isTrue => cases next
      case isFalse =>
        injection next with eq
        omega
    case isFalse => cases next

/-- A directory of one cluster. -/
theorem chainBytes_directory (h : Setting bx kr P hidden xs) {cl : Nat} {d : List Byte}
    (ht : (cl, 1) ∈ tiles (ncl bx.length) (ncl kr.length) xs) (low : cl ≤ 5) (len : d.length = 512)
    (mem : (clo (fatSec P) cl, d) ∈ parts upper bx kr P hidden xs) :
    (fat32 (partition upper bx kr P hidden xs)).chainBytes cl = some d := by
  obtain ⟨start, bytes, count⟩ := volume_partition upper h
  obtain ⟨-, -, many, room, fits⟩ := h.sectors
  have run : Run (fat32 (partition upper bx kr P hidden xs)).link cl 1 := run_tile h ht (by omega)
  have here := slice_partition h mem
  rw [dataSector, RES, NF] at count
  have place : dataSector (fatSec P) * 512 + (cl - 2) * 512 = clo (fatSec P) cl := by
    rw [clo, SPC, S]
    omega
  rw [Volume.chainBytes_run run (by omega) (tile_bounds ht).1, start, bytes, Nat.one_mul, place,
    image_fat32]
  rw [len] at here
  rw [here]

theorem first_partition (h : Setting bx kr P hidden xs) {n8 e3 : List Byte} {cl size attr : Nat}
    (low : cl < clEnd bx kr xs) :
    (fat32 (partition upper bx kr P hidden xs)).first (dirent n8 e3 cl size attr) = cl := by
  have small := h.clEnd_lt
  rw [first_fat32]
  exact cluster_dirent (by omega)

/-- **A file that the table covers** is read back, and so is one without bytes. -/
theorem read_file (h : Setting bx kr P hidden xs) {n8 e3 data : List Byte} {cl : Nat}
    (ht : (cl, ncl data.length) ∈ tiles (ncl bx.length) (ncl kr.length) xs)
    (size : data.length < 256 ^ 4) (covered : data ≠ [] → cl + ncl data.length ≤ 128 * fatSec P)
    (mem : (clo (fatSec P) cl, data) ∈ parts upper bx kr P hidden xs) :
    (fat32 (partition upper bx kr P hidden xs)).read (dirent n8 e3 cl data.length AFILE) = some data := by
  obtain ⟨low, high, pos⟩ := tile_bounds ht
  obtain ⟨-, -, many, room, fits⟩ := h.sectors
  obtain ⟨start, bytes, count⟩ := volume_partition upper h
  have file : isDirectory (dirent n8 e3 cl data.length AFILE) = false := by
    rw [isDirectory, attr_dirent (by decide)]
    rfl
  have length : lengthOf (dirent n8 e3 cl data.length AFILE) = data.length := size_dirent size
  by_cases empty : data = []
  case pos => rw [Volume.read_empty file (by rw [length, empty]; rfl), empty]
  case neg =>
    have first : (fat32 (partition upper bx kr P hidden xs)).first
        (dirent n8 e3 cl data.length AFILE) = cl := first_partition h (by omega)
    have image : (fat32 (partition upper bx kr P hidden xs)).image.length = P * 512 := by
      rw [image_fat32, length_partition upper h]
    have place : dataSector (fatSec P) * 512 + (cl - 2) * 512 = clo (fatSec P) cl := by
      rw [clo, SPC, S]
      omega
    have whole := le_ncl data.length
    rw [dataSector, RES, NF] at count
    refine Volume.read_run (n := ncl data.length) ?_ (by omega) (by rwa [first]) file length
      (by rwa [bytes]) ?_ ?_
    · rw [first]
      exact run_tile h ht (covered empty)
    · rw [first, start, bytes, image, dataSector, RES, NF]
      omega
    · rw [first, start, bytes, place, image_fat32]
      exact slice_partition h mem

/-- One that has bytes beyond the table is not. -/
theorem read_beyond (h : Setting bx kr P hidden xs) {n8 e3 data : List Byte} {cl : Nat}
    (ht : (cl, ncl data.length) ∈ tiles (ncl bx.length) (ncl kr.length) xs)
    (size : data.length < 256 ^ 4) (some : data ≠ []) (past : 128 * fatSec P < cl + ncl data.length) :
    (fat32 (partition upper bx kr P hidden xs)).read (dirent n8 e3 cl data.length AFILE) = none := by
  obtain ⟨low, high, pos⟩ := tile_bounds ht
  have first : (fat32 (partition upper bx kr P hidden xs)).first
      (dirent n8 e3 cl data.length AFILE) = cl := first_partition h (by omega)
  refine Volume.read_broken ?_ ?_
  · rw [first]
    exact ends_tile h ht past
  · rw [size_dirent size]
    exact fun zero => some (List.eq_nil_of_length_eq_zero zero)

/-! ## The paths -/

theorem dots_skipped {cl parent : Nat} {name : List Byte} (h : field name 0 1 ≠ 0x2E) :
    ∀ x ∈ dots cl parent, field x 0 1 ≠ 0 ∧ Skipped name x := by
  intro x hx
  simp only [dots, List.mem_cons, List.not_mem_nil, or_false] at hx
  rcases hx with rfl | rfl
  · refine dirent_skipped (by decide) fun same => h ?_
    rw [← same]
    decide
  · refine dirent_skipped (by decide) fun same => h ?_
    rw [← same]
    decide

/-- The only entry besides the dots. -/
theorem findEntry_single {cl parent : Nat} {entry name : List Byte} (len : entry.length = 32)
    (plain : field name 0 1 ≠ 0x2E) (hit : field entry 0 1 ≠ 0 ∧ ¬ Skipped name entry) :
    findEntry name (directory CSZ (dots cl parent ++ [entry])) = some entry :=
  findEntry_directory (by simp [dots, len]) (show 32 * 3 ≤ 512 by decide) (dots_skipped plain) hit.1 hit.2

theorem isDirectory_dirent {n8 e3 : List Byte} {cl size : Nat} :
    isDirectory (dirent n8 e3 cl size ADIR) = true := by
  rw [isDirectory, attr_dirent (by decide)]
  rfl

variable (upper) in
/-- The root directory and what it lists. -/
theorem root_partition (h : Setting bx kr P hidden xs) :
    (fat32 (partition upper bx kr P hidden xs)).chainBytes CL_ROOT =
        some (root32 (partition upper bx kr P hidden xs)) ∧
      findEntry (ascii "EFI        ") (root32 (partition upper bx kr P hidden xs)) =
        some (dirent (ascii "EFI") (ascii "   ") CL_EFI 0 ADIR) ∧
      findEntry (ascii "BOOT       ") (root32 (partition upper bx kr P hidden xs)) =
        some (dirent (ascii "BOOT") (ascii "   ") CL_BOOT 0 ADIR) := by
  have all : ∀ x ∈ dots CL_ROOT 0 ++ [dirent (ascii "EFI") (ascii "   ") CL_EFI 0 ADIR,
      dirent (ascii "BOOT") (ascii "   ") CL_BOOT 0 ADIR], x.length = 32 := by simp [dots]
  have bytes : (fat32 (partition upper bx kr P hidden xs)).chainBytes CL_ROOT =
      some (directory CSZ (dots CL_ROOT 0 ++ [dirent (ascii "EFI") (ascii "   ") CL_EFI 0 ADIR,
        dirent (ascii "BOOT") (ascii "   ") CL_BOOT 0 ADIR])) :=
    chainBytes_directory h (by simp [tiles]) (by decide)
      (length_directory all (show 32 * 4 ≤ 512 by decide)) (by simp [parts])
  have root : root32 (partition upper bx kr P hidden xs) =
      directory CSZ (dots CL_ROOT 0 ++ [dirent (ascii "EFI") (ascii "   ") CL_EFI 0 ADIR,
        dirent (ascii "BOOT") (ascii "   ") CL_BOOT 0 ADIR]) := by
    rw [root32, rootCluster_partition h, bytes, Option.getD_some]
  obtain ⟨used, hit⟩ : field (dirent (ascii "EFI") (ascii "   ") CL_EFI 0 ADIR) 0 1 ≠ 0 ∧
      ¬ Skipped (ascii "EFI        ") (dirent (ascii "EFI") (ascii "   ") CL_EFI 0 ADIR) :=
    dirent_hit (by decide) (by decide) (by decide) (by decide)
  obtain ⟨used', hit'⟩ : field (dirent (ascii "BOOT") (ascii "   ") CL_BOOT 0 ADIR) 0 1 ≠ 0 ∧
      ¬ Skipped (ascii "BOOT       ") (dirent (ascii "BOOT") (ascii "   ") CL_BOOT 0 ADIR) :=
    dirent_hit (by decide) (by decide) (by decide) (by decide)
  rw [root]
  refine ⟨bytes, ?_, ?_⟩
  · exact findEntry_directory all (show 32 * 4 ≤ 512 by decide) (dots_skipped (by decide)) used hit
  · rw [← List.singleton_append, ← List.append_assoc] at all ⊢
    refine findEntry_directory all (show 32 * 4 ≤ 512 by decide) (fun x hx => ?_) used' hit'
    rcases List.mem_append.mp hx with dot | efi
    · exact dots_skipped (by decide) x dot
    · rw [List.mem_singleton.mp efi]
      exact dirent_skipped (by decide) (by decide)

variable (upper) in
theorem efi_partition (h : Setting bx kr P hidden xs) :
    (fat32 (partition upper bx kr P hidden xs)).chainBytes CL_EFI =
        some (directory CSZ (dots CL_EFI CL_ROOT ++ [dirent (ascii "BOOT") (ascii "   ") CL_EB 0 ADIR])) ∧
      (fat32 (partition upper bx kr P hidden xs)).chainBytes CL_EB =
        some (directory CSZ (dots CL_EB CL_EFI ++
          [dirent (ascii "BOOTX64") (ascii "EFI") CL_BX bx.length AFILE])) ∧
      (fat32 (partition upper bx kr P hidden xs)).chainBytes CL_BOOT =
        some (directory CSZ (bootEntries upper bx kr xs)) := by
  obtain ⟨all, room⟩ := bootEntries_length upper bx kr h.few
  refine ⟨?_, ?_, ?_⟩
  · exact chainBytes_directory h (by simp [tiles]) (by decide) (length_dots _ _ _ length_dirent)
      (by simp [parts])
  · exact chainBytes_directory h (by simp [tiles]) (by decide) (length_dots _ _ _ length_dirent)
      (by simp [parts])
  · exact chainBytes_directory h (by simp [tiles]) (by decide) (length_directory all room)
      (by simp [parts])

variable (upper) in
theorem first_directory (h : Setting bx kr P hidden xs) {n8 e3 : List Byte} {cl : Nat} (low : cl ≤ 6) :
    (fat32 (partition upper bx kr P hidden xs)).first (dirent n8 e3 cl 0 ADIR) = cl := by
  have file : (CL_BX, ncl bx.length) ∈ tiles (ncl bx.length) (ncl kr.length) xs := by simp [tiles]
  obtain ⟨-, high, pos⟩ := tile_bounds file
  rw [CL_BX] at high
  exact first_partition h (by omega)

variable (upper) in
/-- The paths of the directories and of the boot loader. -/
theorem find_efi (h : Setting bx kr P hidden xs) :
    (fat32 (partition upper bx kr P hidden xs)).find (root32 (partition upper bx kr P hidden xs))
        [ascii "EFI        ", ascii "BOOT       "] =
          some (dirent (ascii "BOOT") (ascii "   ") CL_EB 0 ADIR) ∧
      (fat32 (partition upper bx kr P hidden xs)).find (root32 (partition upper bx kr P hidden xs))
        bootx64Path = some (dirent (ascii "BOOTX64") (ascii "EFI") CL_BX bx.length AFILE) := by
  obtain ⟨-, efi, -⟩ := root_partition upper h
  obtain ⟨efiDir, efiBootDir, -⟩ := efi_partition upper h
  have boot : findEntry (ascii "BOOT       ") (directory CSZ (dots CL_EFI CL_ROOT ++
      [dirent (ascii "BOOT") (ascii "   ") CL_EB 0 ADIR])) =
        some (dirent (ascii "BOOT") (ascii "   ") CL_EB 0 ADIR) :=
    findEntry_single length_dirent (by decide)
      (dirent_hit (by decide) (by decide) (by decide) (by decide))
  have loader : findEntry (ascii "BOOTX64 EFI") (directory CSZ (dots CL_EB CL_EFI ++
      [dirent (ascii "BOOTX64") (ascii "EFI") CL_BX bx.length AFILE])) =
        some (dirent (ascii "BOOTX64") (ascii "EFI") CL_BX bx.length AFILE) :=
    findEntry_single length_dirent (by decide)
      (dirent_hit (by decide) (by decide) (by decide) (by decide))
  rw [bootx64Path, Volume.find_cons efi isDirectory_dirent
      (by rw [first_directory upper h (by decide)]; exact efiDir), Volume.find_cons efi isDirectory_dirent
      (by rw [first_directory upper h (by decide)]; exact efiDir), Volume.find_cons boot isDirectory_dirent
      (by rw [first_directory upper h (by decide)]; exact efiBootDir)]
  exact ⟨boot, loader⟩

/-- A path through `/BOOT` is looked up among its entries. -/
theorem find_boot (h : Setting bx kr P hidden xs) (name : List Byte) :
    (fat32 (partition upper bx kr P hidden xs)).find (root32 (partition upper bx kr P hidden xs))
      [ascii "BOOT       ", name] = findEntry name (directory CSZ (bootEntries upper bx kr xs)) := by
  obtain ⟨-, -, boot⟩ := root_partition upper h
  obtain ⟨-, -, bootDir⟩ := efi_partition upper h
  rw [Volume.find_cons boot isDirectory_dirent
    (by rw [first_directory upper h (by decide)]; exact bootDir), Volume.find]

variable (upper) in
theorem find_kernel (h : Setting bx kr P hidden xs) :
    (fat32 (partition upper bx kr P hidden xs)).find (root32 (partition upper bx kr P hidden xs))
      kernelPath =
        some (dirent (ascii "MICRONT") (ascii "ELF") (CL_BX + ncl bx.length) kr.length AFILE) := by
  obtain ⟨all, room⟩ := bootEntries_length upper bx kr h.few
  obtain ⟨used, hit⟩ : field (dirent (ascii "MICRONT") (ascii "ELF") (CL_BX + ncl bx.length) kr.length
      AFILE) 0 1 ≠ 0 ∧ ¬ Skipped (ascii "MICRONT ELF")
        (dirent (ascii "MICRONT") (ascii "ELF") (CL_BX + ncl bx.length) kr.length AFILE) :=
    dirent_hit (by decide) (by decide) (by decide) (by decide)
  rw [kernelPath, find_boot h]
  exact findEntry_directory all room (dots_skipped (by decide)) used hit

/-- The names that a reader can look up beside the kernel. -/
def Named (upper : List Char → List Char) (xs : List (List Char × List Byte)) : Prop :=
  ∀ x ∈ xs, Lists (shortName upper x.1) ∧ shortName upper x.1 ≠ ascii "MICRONT ELF"

/-- **An extra file is found** behind the kernel and the files before it. -/
theorem find_extra (h : Setting bx kr P hidden xs) (named : Named upper xs)
    (distinct : (xs.map fun x => shortName upper x.1).Nodup) {pre post : List (List Char × List Byte)}
    {x : List Char × List Byte} (split : xs = pre ++ x :: post) :
    (fat32 (partition upper bx kr P hidden xs)).find (root32 (partition upper bx kr P hidden xs))
      (extraPath upper x.1) = some (extraEntry upper
        ⟨x.1, extraEnd (CL_BX + ncl bx.length + ncl kr.length) pre, x.2⟩) := by
  obtain ⟨all, room⟩ := bootEntries_length upper bx kr h.few
  have own : x ∈ xs := by
    rw [split]
    exact List.mem_append_right _ List.mem_cons_self
  obtain ⟨live, other⟩ := named x own
  obtain ⟨used, hit⟩ : field (extraEntry upper
      ⟨x.1, extraEnd (CL_BX + ncl bx.length + ncl kr.length) pre, x.2⟩) 0 1 ≠ 0 ∧
        ¬ Skipped (shortName upper x.1) (extraEntry upper
          ⟨x.1, extraEnd (CL_BX + ncl bx.length + ncl kr.length) pre, x.2⟩) :=
    dirent_hit live rfl (by decide) (by decide)
  have shape : bootEntries upper bx kr xs =
      (dots CL_BOOT CL_ROOT ++ dirent (ascii "MICRONT") (ascii "ELF") (CL_BX + ncl bx.length) kr.length
        AFILE :: (extraCl (CL_BX + ncl bx.length + ncl kr.length) pre).map (extraEntry upper)) ++
      extraEntry upper ⟨x.1, extraEnd (CL_BX + ncl bx.length + ncl kr.length) pre, x.2⟩ ::
        (extraCl (extraEnd (CL_BX + ncl bx.length + ncl kr.length) pre + ncl x.2.length) post).map
          (extraEntry upper) := by
    rw [bootEntries, split, extraCl_append, List.map_append, List.map_cons, List.append_assoc,
      List.cons_append]
  have before : ∀ y ∈ pre, shortName upper y.1 ≠ shortName upper x.1 := by
    intro y hy same
    rw [split, List.map_append, List.map_cons] at distinct
    exact (List.nodup_append.mp distinct).2.2 _ (List.mem_map_of_mem hy) _ List.mem_cons_self same
  rw [extraPath, find_boot h]
  rw [shape] at all room ⊢
  refine findEntry_directory all room (fun y hy => ?_) used hit
  rcases List.mem_append.mp hy with dot | rest
  · exact dots_skipped (shortName_first upper x.1) y dot
  · rcases List.mem_cons.mp rest with rfl | extra
    · refine dirent_skipped (by decide) fun same => other ?_
      rw [← same]
      decide
    · obtain ⟨e, he, rfl⟩ := List.mem_map.mp extra
      obtain ⟨z, hz, name⟩ := name_extraCl he
      have listed : z ∈ xs := by
        rw [split]
        exact List.mem_append_left _ hz
      have ne := before z hz
      have lists := (named z listed).1
      rw [name] at ne lists
      exact dirent_skipped lists.1 ne

/-! ## All chains -/

theorem covered_iff_split {c n : Nat} : Covered n c (xs.map Prod.snd) ↔
    ∀ pre x post, xs = pre ++ x :: post → x.2 ≠ [] → extraEnd c pre + ncl x.2.length ≤ n := by
  induction xs generalizing c with
  | nil =>
    refine ⟨fun _ pre x post split => ?_, fun _ => trivial⟩
    exact absurd split (by simp)
  | cons y ys ih =>
    rw [List.map_cons, Covered, ih]
    constructor
    · intro all pre x post split
      cases pre with
      | nil =>
        obtain ⟨rfl, -⟩ := List.cons.inj split
        exact all.1
      | cons z zs =>
        obtain ⟨rfl, rest⟩ := List.cons.inj split
        rw [extraEnd_cons]
        exact all.2 zs x post rest
    · intro all
      refine ⟨all [] y ys rfl, fun pre x post split => ?_⟩
      have whole := all (y :: pre) x post (by rw [split, List.cons_append])
      rwa [extraEnd_cons] at whole

theorem mem_extraCl_split {pre post : List (List Char × List Byte)} {x : List Char × List Byte} {c : Nat}
    (split : xs = pre ++ x :: post) : (⟨x.1, extraEnd c pre, x.2⟩ : Extra) ∈ extraCl c xs := by
  rw [split, extraCl_append]
  exact List.mem_append_right _ List.mem_cons_self

/-- The place of an extra file among the clusters. -/
theorem tile_extra {pre post : List (List Char × List Byte)} {x : List Char × List Byte}
    (split : xs = pre ++ x :: post) :
    (extraEnd (CL_BX + ncl bx.length + ncl kr.length) pre, ncl x.2.length) ∈
      tiles (ncl bx.length) (ncl kr.length) xs :=
  List.mem_append_right _ (List.mem_map.mpr ⟨_, mem_extraCl_split split, rfl⟩)

/-- The place of an extra file in the image. -/
theorem part_extra {pre post : List (List Char × List Byte)} {x : List Char × List Byte}
    (split : xs = pre ++ x :: post) :
    (clo (fatSec P) (extraEnd (CL_BX + ncl bx.length + ncl kr.length) pre), x.2) ∈
      parts upper bx kr P hidden xs :=
  List.mem_append_right _ (List.mem_map.mpr ⟨_, mem_extraCl_split split, rfl⟩)

theorem clustersOf_extra (h : Setting bx kr P hidden xs) (named : Named upper xs)
    (distinct : (xs.map fun x => shortName upper x.1).Nodup) {pre post : List (List Char × List Byte)}
    (split : xs = pre ++ post) :
    post.map (fun x => (fat32 (partition upper bx kr P hidden xs)).clustersOf
        (root32 (partition upper bx kr P hidden xs)) (extraPath upper x.1)) =
      (extraCl (extraEnd (CL_BX + ncl bx.length + ncl kr.length) pre) post).map
        fun x => (fat32 (partition upper bx kr P hidden xs)).chain x.xcl := by
  induction post generalizing pre with
  | nil => rfl
  | cons x post ih =>
    have rest := ih (show xs = (pre ++ [x]) ++ post by rw [split, List.append_assoc, List.singleton_append])
    have place : (extraEnd (CL_BX + ncl bx.length + ncl kr.length) pre, ncl x.2.length) ∈
        tiles (ncl bx.length) (ncl kr.length) xs := tile_extra split
    obtain ⟨-, high, pos⟩ := tile_bounds place
    have first : (fat32 (partition upper bx kr P hidden xs)).first
        (dirent (nm8 upper x.1) (ex3 upper x.1) (extraEnd (CL_BX + ncl bx.length + ncl kr.length) pre)
          x.2.length AFILE) = extraEnd (CL_BX + ncl bx.length + ncl kr.length) pre :=
      first_partition h (by omega)
    rw [extraEnd_concat] at rest
    rw [List.map_cons, rest, extraCl, List.map_cons,
      Volume.clustersOf_some (find_extra h named distinct split), extraEntry, first]

/-- What the paths lead to are the clusters in use. -/
theorem chains_partition (h : Setting bx kr P hidden xs) (named : Named upper xs)
    (distinct : (xs.map fun x => shortName upper x.1).Nodup) :
    chains upper (partition upper bx kr P hidden xs) xs =
      (tiles (ncl bx.length) (ncl kr.length) xs).map
        fun t => (fat32 (partition upper bx kr P hidden xs)).chain t.1 := by
  obtain ⟨-, efi, boot⟩ := root_partition upper h
  obtain ⟨efiBoot, loader⟩ := find_efi upper h
  have kernel := find_kernel upper h
  have extra : xs.map (fun x => (fat32 (partition upper bx kr P hidden xs)).clustersOf
      (root32 (partition upper bx kr P hidden xs)) (extraPath upper x.1)) =
        (extraCl (CL_BX + ncl bx.length + ncl kr.length) xs).map
          fun x => (fat32 (partition upper bx kr P hidden xs)).chain x.xcl :=
    clustersOf_extra h named distinct (List.nil_append xs).symm
  have file : (CL_BX + ncl bx.length, ncl kr.length) ∈ tiles (ncl bx.length) (ncl kr.length) xs := by
    simp [tiles]
  obtain ⟨-, high, pos⟩ := tile_bounds file
  have efiPath : (fat32 (partition upper bx kr P hidden xs)).find
      (root32 (partition upper bx kr P hidden xs)) [ascii "EFI        "] = _ := efi
  have bootPath : (fat32 (partition upper bx kr P hidden xs)).find
      (root32 (partition upper bx kr P hidden xs)) [ascii "BOOT       "] = _ := boot
  have loaderFirst : (fat32 (partition upper bx kr P hidden xs)).first
      (dirent (ascii "BOOTX64") (ascii "EFI") CL_BX bx.length AFILE) = CL_BX :=
    first_partition h (by omega)
  have kernelFirst : (fat32 (partition upper bx kr P hidden xs)).first
      (dirent (ascii "MICRONT") (ascii "ELF") (CL_BX + ncl bx.length) kr.length AFILE) =
        CL_BX + ncl bx.length := first_partition h (by omega)
  simp only [chains, paths, List.map_cons, List.map_map, tiles, List.cons_append, List.nil_append,
    Function.comp_def, rootCluster_partition h, Volume.clustersOf_some efiPath,
    Volume.clustersOf_some bootPath, Volume.clustersOf_some efiBoot, Volume.clustersOf_some loader,
    Volume.clustersOf_some kernel, first_directory upper h (show CL_EFI ≤ 6 by decide),
    first_directory upper h (show CL_EB ≤ 6 by decide),
    first_directory upper h (show CL_BOOT ≤ 6 by decide), loaderFirst, kernelFirst, extra]

/-- **No cluster is in two chains**, whether the table covers them or not. -/
theorem disjoint_partition (h : Setting bx kr P hidden xs) :
    ((tiles (ncl bx.length) (ncl kr.length) xs).map
      fun t => (fat32 (partition upper bx kr P hidden xs)).chain t.1).Pairwise List.Disjoint := by
  rw [List.pairwise_map]
  refine (rising_tiles (Nat.le_refl (clEnd bx kr xs))).laid.1.imp_of_mem fun ha hb apart => ?_
  intro c hc hc'
  have one := (chain_tile h ha).2 c hc
  have two := (chain_tile h hb).2 c hc'
  rcases apart with below | above
  · omega
  · omega

theorem roundTrip_partition (h : Setting bx kr P hidden xs) (named : Named upper xs)
    (distinct : (xs.map fun x => shortName upper x.1).Nodup)
    (covered : Covered (128 * fatSec P) CL_BX (bx :: kr :: xs.map Prod.snd)) :
    RoundTrip upper (partition upper bx kr P hidden xs) bx kr xs := by
  obtain ⟨loaderCovered, kernelCovered, rest⟩ := covered
  refine ⟨⟨_, (find_efi upper h).2, ?_, size_dirent h.fields.bootx64⟩,
    ⟨_, find_kernel upper h, ?_, size_dirent h.fields.kernel⟩, fun x hx => ?_, ⟨?_, ?_⟩, ?_⟩
  · exact read_file h (by simp [tiles]) h.fields.bootx64 loaderCovered (by simp [parts])
  · exact read_file h (by simp [tiles]) h.fields.kernel kernelCovered (by simp [parts])
  · obtain ⟨pre, post, split⟩ := List.append_of_mem hx
    exact ⟨_, find_extra h named distinct split,
      read_file h (tile_extra split) (h.fields.extra x hx) (covered_iff_split.mp rest pre x post split)
        (part_extra split), size_dirent (h.fields.extra x hx)⟩
  · rw [bpb_partition h]
  · rw [fat_partition h (by decide), fat_partition h (by decide)]
  · rw [chains_partition h named distinct]
    exact disjoint_partition h

/-- A file that is read back has bytes in the table only. -/
theorem covered_of_holds (h : Setting bx kr P hidden xs) {n8 e3 data : List Byte} {cl : Nat}
    {path : List (List Byte)} (ht : (cl, ncl data.length) ∈ tiles (ncl bx.length) (ncl kr.length) xs)
    (size : data.length < 256 ^ 4)
    (found : (fat32 (partition upper bx kr P hidden xs)).find
      (root32 (partition upper bx kr P hidden xs)) path = some (dirent n8 e3 cl data.length AFILE))
    (holds : (fat32 (partition upper bx kr P hidden xs)).Holds
      (root32 (partition upper bx kr P hidden xs)) path data) :
    data ≠ [] → cl + ncl data.length ≤ 128 * fatSec P := by
  intro bytes
  by_contra past
  obtain ⟨e, found', read, -⟩ := holds
  obtain rfl := Option.some.inj (found.symm.trans found')
  rw [read_beyond h ht size bytes (Nat.lt_of_not_le past)] at read
  cases read

/-- Files that are found are in use, and not in place of the kernel. -/
theorem named_of_roundTrip (h : Setting bx kr P hidden xs)
    (trip : RoundTrip upper (partition upper bx kr P hidden xs) bx kr xs) : Named upper xs := by
  intro x hx
  constructor
  · obtain ⟨e, found, -⟩ := trip.extra x hx
    rw [extraPath, find_boot h] at found
    obtain ⟨used, live, name⟩ := findEntry_some found
    rw [first_eq, name] at used live
    exact ⟨used, live⟩
  · intro same
    have path : extraPath upper x.1 = kernelPath := by rw [extraPath, same, kernelPath]
    have apart := trip.disjoint
    simp only [chains, paths, List.map_cons, List.map_map, List.cons_append, List.nil_append,
      List.pairwise_cons] at apart
    have both := apart.2.2.2.2.2.1 _ (List.mem_map.mpr ⟨x, hx, rfl⟩)
    have file : (CL_BX + ncl bx.length, ncl kr.length) ∈
        tiles (ncl bx.length) (ncl kr.length) xs := by simp [tiles]
    obtain ⟨-, high, pos⟩ := tile_bounds file
    have first : (fat32 (partition upper bx kr P hidden xs)).first
        (dirent (ascii "MICRONT") (ascii "ELF") (CL_BX + ncl bx.length) kr.length AFILE) =
          CL_BX + ncl bx.length := first_partition h (by omega)
    rw [Function.comp, path, Volume.clustersOf_some (find_kernel upper h), first] at both
    exact both (chain_tile h file).1 (chain_tile h file).1

end

/-! ## The round trip -/

/-- **The round trip of the partition**, for files that fit into it and a partition that
passes the assertion: it succeeds exactly if the numbers fit their fields, the names of
the extra files can be looked up beside the kernel, and the clusters of the files that
have bytes lie below 128 for each sector of the table. -/
theorem fat32_round_trip_iff (upper : List Char → List Char) (bootx64 kernel : List Byte)
    (part_sectors hidden_sectors : Nat) (extra_files : List (List Char × List Byte))
    (asserted : 65525 ≤ clusterCount part_sectors (fatSec part_sectors))
    (few : extra_files.length ≤ 13)
    (distinct : (extra_files.map fun x => shortName upper x.1).Nodup)
    (fits : clEnd bootx64 kernel extra_files ≤ clusterCount part_sectors (fatSec part_sectors) + 2) :
    (∃ image, buildFat32Part upper bootx64 kernel part_sectors hidden_sectors extra_files = some image ∧
      RoundTrip upper image bootx64 kernel extra_files) ↔
    Fields bootx64 kernel part_sectors hidden_sectors extra_files ∧ Named upper extra_files ∧
      Covered (128 * ((part_sectors + 95) / 130)) CL_BX
        (bootx64 :: kernel :: extra_files.map Prod.snd) := by
  constructor
  · rintro ⟨image, built, trip⟩
    have fields : Fields bootx64 kernel part_sectors hidden_sectors extra_files :=
      fields_of_some asserted few (by rw [built]; exact Option.some_ne_none image)
    have h : Setting bootx64 kernel part_sectors hidden_sectors extra_files :=
      ⟨asserted, few, fits, fields⟩
    rw [buildFat32Part_of_fields asserted few fields] at built
    obtain rfl := Option.some.inj built
    have named := named_of_roundTrip h trip
    refine ⟨fields, named, ?_⟩
    rw [← (fatSec_lt asserted fields.part).1]
    refine ⟨?_, ?_, covered_iff_split.mpr fun pre x post split => ?_⟩
    · exact covered_of_holds h (by simp [tiles]) fields.bootx64 (find_efi upper h).2 trip.bootx64
    · exact covered_of_holds h (by simp [tiles]) fields.kernel (find_kernel upper h) trip.kernel
    · have hx : x ∈ extra_files := by
        rw [split]
        exact List.mem_append_right _ List.mem_cons_self
      have place : (extraEnd (CL_BX + ncl bootx64.length + ncl kernel.length) pre, ncl x.2.length) ∈
          tiles (ncl bootx64.length) (ncl kernel.length) extra_files :=
        tile_extra split
      exact covered_of_holds h place (fields.extra x hx) (find_extra h named distinct split)
        (trip.extra x hx)
  · rintro ⟨fields, named, covered⟩
    rw [← (fatSec_lt asserted fields.part).1] at covered
    exact ⟨_, buildFat32Part_of_fields asserted few fields,
      roundTrip_partition ⟨asserted, few, fits, fields⟩ named distinct covered⟩

/-- A loader, a kernel and two programs of a byte or none in a partition of 64 MB. -/
theorem fat32_round_trip_iff_small :
    ∃ image, buildFat32Part (List.map Char.toUpper) [0x4D] [0x7F] 131040 32
        [("hello.exe".toList, [0x4D]), ("calc.exe".toList, [])] = some image ∧
      RoundTrip (List.map Char.toUpper) image [0x4D] [0x7F]
        [("hello.exe".toList, [0x4D]), ("calc.exe".toList, [])] := by
  refine (fat32_round_trip_iff _ _ _ 131040 32 _ (by decide) (by decide) (by decide) (by decide)).mpr
    ⟨⟨by decide, by decide, by decide, by decide, by decide⟩, fun x hx => ?_, ?_⟩
  · simp only [List.mem_cons, List.not_mem_nil, or_false] at hx
    rcases hx with rfl | rfl
    · decide
    · decide
  · exact ⟨fun _ => by decide, fun _ => by decide, fun _ => by decide, fun _ => by decide, trivial⟩

/-- A kernel that fills a partition of 66594 sectors: the table of 512 sectors ends four
clusters before it. -/
theorem full_partition_cut :
    ∃ image, buildFat32Part (List.map Char.toUpper) [0x4D] (zeros 33552896) 66594 32 [] = some image ∧
      ¬ RoundTrip (List.map Char.toUpper) image [0x4D] (zeros 33552896) [] := by
  generalize zeroed : zeros 33552896 = kernel
  have len : kernel.length = 33552896 := by rw [← zeroed, length_zeros]
  have some : kernel ≠ [] := by
    intro none
    rw [none] at len
    cases len
  have fields : Fields [0x4D] kernel 66594 32 [] :=
    ⟨by decide, by decide, by decide, by rw [len]; decide, fun x hx => by cases hx⟩
  have asserted : 65525 ≤ clusterCount 66594 (fatSec 66594) := by decide
  have h : Setting [0x4D] kernel 66594 32 [] := ⟨asserted, by decide, by rw [clEnd, len]; decide, fields⟩
  refine ⟨_, buildFat32Part_of_fields asserted (by decide) fields, fun trip => ?_⟩
  have covered := covered_of_holds h (by simp [tiles]) fields.kernel (find_kernel _ h) trip.kernel some
  rw [len] at covered
  exact absurd covered (by decide)

end MicroNT.Mkdisk
