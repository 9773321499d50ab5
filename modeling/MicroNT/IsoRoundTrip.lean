import MicroNT.IsoImage

/-! # The boot image read back

The parts of the image lie behind one another, so a reader finds each of them where
the parameter block says. One sector of the table has 341 entries of 12 bits, for
clusters 0 to 340: the builder drops the others, and the chain of a file that needs
them has no end. -/

namespace MicroNT.Mkiso

open Base.Bytes Base.Fat

/-! ## The image -/

/-- `/EFI/BOOT/BOOTX64.EFI` -/
def bootx64Path : List (List Byte) :=
  [ascii "EFI        ", ascii "BOOT       ", ascii "BOOTX64 EFI"]

/-- `/BOOT/MICRONT.ELF` -/
def kernelPath : List (List Byte) := [ascii "BOOT       ", ascii "MICRONT ELF"]

/-- A reader of the image recovers both files; each of their clusters has its entry in
the table that the boot sector declares, and no cluster is in both chains. -/
structure RoundTrip (image bootx64_data kernel_data : List Byte) : Prop where
  bootx64 : (fat12 image).Holds (root12 image) bootx64Path bootx64_data
  kernel : (fat12 image).Holds (root12 image) kernelPath kernel_data
  inside : ∀ c ∈ (fat12 image).clustersOf (root12 image) bootx64Path ++
    (fat12 image).clustersOf (root12 image) kernelPath, Packs (bpb image).fatBytes c
  disjoint : ((fat12 image).clustersOf (root12 image) bootx64Path).Disjoint
    ((fat12 image).clustersOf (root12 image) kernelPath)

theorem le_nClusters (size : Nat) : size ≤ nClusters size * 2048 := by
  rw [nClusters, CLUSTER_SIZE, CLUSTER_SECTORS, FAT_SECTOR]
  omega

theorem nClusters_pos {data : List Byte} : 0 < nClusters data.length ↔ data ≠ [] := by
  rw [nClusters, CLUSTER_SIZE, CLUSTER_SECTORS, FAT_SECTOR, ← List.length_pos_iff]
  omega

theorem totalFatSectors_eq (nb nk : Nat) : totalFatSectors nb nk = 4 * (5 + nb + nk) := by
  simp only [totalFatSectors, dataStartSector, RESERVED, N_FATS, FAT_SEC, ROOT_SECTORS, ROOT_ENTRIES,
    FAT_SECTOR, lastCluster, clKernel, CL_BOOTX64, CLUSTER_SECTORS]
  omega

section

variable (bx kr : List Byte)

/-- The parts of the image, in the order they lie in it. -/
def parts : List (Nat × List Byte) :=
  [(0, putAll (zeros FAT_SECTOR)
      (bootWrites (leBytes 2 (totalFatSectors (nClusters bx.length) (nClusters kr.length))))),
    (fat1Off, fatBuf (nClusters bx.length) (nClusters kr.length)),
    (fat2Off, fatBuf (nClusters bx.length) (nClusters kr.length)),
    (rootOff, directory (ROOT_ENTRIES * 32) [dirent "EFI" "   " CL_EFI 0 ATTR_DIR,
      dirent "BOOT" "   " CL_BOOT 0 ATTR_DIR]),
    (clusterOff CL_EFI, clusterBytes CL_EFI 0 (dirent "BOOT" "   " CL_EFIBOOT 0 ATTR_DIR)),
    (clusterOff CL_EFIBOOT, clusterBytes CL_EFIBOOT CL_EFI
      (dirent "BOOTX64" "EFI" CL_BOOTX64 bx.length ATTR_FILE)),
    (clusterOff CL_BOOT, clusterBytes CL_BOOT 0
      (dirent "MICRONT" "ELF" (clKernel (nClusters bx.length)) kr.length ATTR_FILE)),
    (clusterOff CL_BOOTX64, bx), (clusterOff (clKernel (nClusters bx.length)), kr)]

/-- The image before it is padded. -/
def esp : List Byte :=
  putAll (zeros (totalFatSectors (nClusters bx.length) (nClusters kr.length) * FAT_SECTOR)) (parts bx kr)

variable {bx kr}

/-- **The builder succeeds** as long as the number of sectors fits its field. -/
theorem buildFat12Esp_of_lt
    (h : totalFatSectors (nClusters bx.length) (nClusters kr.length) < 256 ^ 2) :
    buildFat12Esp bx kr = some (padTo (esp bx kr) ISO_SECTOR) := by
  have few := totalFatSectors_eq (nClusters bx.length) (nClusters kr.length)
  have lb := le_nClusters bx.length
  have lk := le_nClusters kr.length
  have hb : bx.length < 256 ^ 4 := by omega
  have hk : kr.length < 256 ^ 4 := by omega
  simp only [buildFat12Esp, bootSector, pack_of_lt h, Option.map_some, rootDir_eq, efiDir, subdir,
    efiBootDir, bootDir, filent, fatDirent_of_lt hb, fatDirent_of_lt hk,
    fatDirent_of_lt (show 0 < 256 ^ 4 by decide), clusterDir_eq]
  rfl

theorem buildFat12Esp_of_le
    (h : 256 ^ 2 ≤ totalFatSectors (nClusters bx.length) (nClusters kr.length)) :
    buildFat12Esp bx kr = none := by
  simp only [buildFat12Esp, bootSector, pack_of_le h, Option.map_none]
  rfl

/-! ## What a reader sees -/

theorem laid_boot (total : Nat) :
    Laid (zeros FAT_SECTOR).length (spans (bootWrites (leBytes 2 total))) := by
  rw [length_zeros]
  exact Rising.laid (a := 0) (show Rising FAT_SECTOR 0 [(0, 3), (3, 8), (11, 2), (13, 1), (14, 2), (16, 1),
    (17, 2), (19, 2), (21, 1), (22, 2), (24, 2), (26, 2), (28, 4), (32, 4), (36, 1), (38, 1), (39, 4),
    (43, 11), (54, 8), (510, 1), (511, 1)] by decide)

theorem bpb_boot {total : Nat} (pos : total ≠ 0) (h : total < 256 ^ 2) :
    bpb (putAll (zeros FAT_SECTOR) (bootWrites (leBytes 2 total))) = ⟨512, 4, 1, 2, 64, total, 1⟩ := by
  have at_ {off w v : Nat} (hw : (off, leBytes w v) ∈ bootWrites (leBytes 2 total))
      (fits : v < 256 ^ w) := field_putAll (laid_boot total) hw fits
  rw [bpb, at_ (v := FAT_SECTOR) (by simp [bootWrites]) (by decide),
    at_ (v := CLUSTER_SECTORS) (by simp [bootWrites]) (by decide),
    at_ (v := RESERVED) (by simp [bootWrites]) (by decide),
    at_ (v := N_FATS) (by simp [bootWrites]) (by decide),
    at_ (v := ROOT_ENTRIES) (by simp [bootWrites]) (by decide),
    at_ (v := total) (by simp [bootWrites]) h,
    (at_ (by simp [bootWrites]) (by decide) : field _ 22 2 = FAT_SEC), if_neg pos]
  rfl

theorem length_fatBuf {nb nk : Nat} : (fatBuf nb nk).length = 512 := by
  rw [fatBuf, length_encodeFat12, length_zeros]
  rfl

theorem laid_parts : Laid (zeros (totalFatSectors (nClusters bx.length) (nClusters kr.length) *
    FAT_SECTOR)).length (spans (parts bx kr)) := by
  have lb := le_nClusters bx.length
  have lk := le_nClusters kr.length
  have boot (total : Nat) := length_putAll (laid_boot total)
  have shape : spans (parts bx kr) = [(0, 512), (512, 512), (1024, 512), (1536, 2048), (3584, 2048),
      (5632, 2048), (7680, 2048), (9728, bx.length), (9728 + nClusters bx.length * 2048, kr.length)] := by
    have kernel : clusterOff (clKernel (nClusters bx.length)) = 9728 + nClusters bx.length * 2048 := by
      simp only [clusterOff, clKernel, CL_BOOTX64, dataStartSector, RESERVED, N_FATS, FAT_SEC,
        ROOT_SECTORS, ROOT_ENTRIES, FAT_SECTOR, CLUSTER_SECTORS]
      omega
    simp only [spans, parts, List.map_cons, List.map_nil, boot, length_fatBuf, kernel,
      length_clusterBytes length_dirent, length_directory (show ∀ x ∈ [dirent "EFI" "   " CL_EFI 0 ATTR_DIR,
      dirent "BOOT" "   " CL_BOOT 0 ATTR_DIR], x.length = 32 by simp)
      (show 32 * 2 ≤ ROOT_ENTRIES * 32 by decide), length_zeros]
    rfl
  rw [shape, length_zeros, totalFatSectors_eq, FAT_SECTOR]
  refine Rising.laid (a := 0) ?_
  simp only [Rising]
  omega

theorem length_esp : (esp bx kr).length = 2048 * (5 + nClusters bx.length + nClusters kr.length) := by
  rw [esp, length_putAll laid_parts, length_zeros, totalFatSectors_eq, FAT_SECTOR]
  omega

/-- The image is a multiple of a sector of the CD as it is. -/
theorem padTo_esp : padTo (esp bx kr) ISO_SECTOR = esp bx kr := by
  rw [padTo, length_esp, ISO_SECTOR, Nat.mul_mod_right]
  exact List.append_nil _

theorem slice_esp {off : Nat} {x : List Byte} (hw : (off, x) ∈ parts bx kr) :
    slice (esp bx kr) off x.length = x := slice_putAll laid_parts hw

theorem bpb_esp (h : totalFatSectors (nClusters bx.length) (nClusters kr.length) < 256 ^ 2) :
    bpb (esp bx kr) =
      ⟨512, 4, 1, 2, 64, totalFatSectors (nClusters bx.length) (nClusters kr.length), 1⟩ := by
  have pos : totalFatSectors (nClusters bx.length) (nClusters kr.length) ≠ 0 := by
    rw [totalFatSectors_eq]
    omega
  have boot := slice_esp (List.mem_cons_self : (0, _) ∈ parts bx kr)
  rw [length_putAll (laid_boot _), length_zeros] at boot
  rw [← bpb_slice (show 40 ≤ FAT_SECTOR by decide), boot]
  exact bpb_boot pos h

variable {c : Nat}
  (h : totalFatSectors (nClusters bx.length) (nClusters kr.length) < 256 ^ 2)
include h

theorem count_esp : (bpb (esp bx kr)).count = 3 + nClusters bx.length + nClusters kr.length := by
  rw [bpb_esp h]
  simp only [Bpb.count, Bpb.dataSector, Bpb.rootSector, totalFatSectors_eq]
  omega

theorem fat_esp : (bpb (esp bx kr)).fat (esp bx kr) 0 =
    fatBuf (nClusters bx.length) (nClusters kr.length) := by
  have mem : (fat1Off, fatBuf (nClusters bx.length) (nClusters kr.length)) ∈ parts bx kr :=
    .tail _ (.head _)
  have table := slice_esp mem
  rw [length_fatBuf] at table
  rw [bpb_esp h, Bpb.fat, Bpb.fatBytes, Nat.zero_mul, Nat.add_zero]
  simp only [Nat.one_mul]
  rwa [show fat1Off = 512 from rfl] at table

theorem root_esp : root12 (esp bx kr) = directory (ROOT_ENTRIES * 32)
    [dirent "EFI" "   " CL_EFI 0 ATTR_DIR, dirent "BOOT" "   " CL_BOOT 0 ATTR_DIR] := by
  have mem : (rootOff, directory (ROOT_ENTRIES * 32) [dirent "EFI" "   " CL_EFI 0 ATTR_DIR,
      dirent "BOOT" "   " CL_BOOT 0 ATTR_DIR]) ∈ parts bx kr := .tail _ (.tail _ (.tail _ (.head _)))
  have root := slice_esp mem
  rw [length_directory (by simp) (show 32 * 2 ≤ ROOT_ENTRIES * 32 by decide)] at root
  rw [root12, bpb_esp h]
  exact root

/-- The entries that the table has room for say what the dictionary says. -/
theorem entry12_esp (le : c ≤ 5 + nClusters bx.length + nClusters kr.length) :
    entry12 ((bpb (esp bx kr)).fat (esp bx kr) 0) c =
      if Packs 512 c then some (fatTable (nClusters bx.length) (nClusters kr.length) c % 4096)
      else none := by
  rw [fat_esp h, entry12, length_fatBuf]
  split
  case isFalse => rfl
  case isTrue packs =>
    have room : Packs (zeros (FAT_SEC * FAT_SECTOR)).length c := by rwa [length_zeros]
    have visited : 0 ≤ c ∧
        c < 0 + (lastCluster (nClusters bx.length) (nClusters kr.length) + 1 + 1) := by
      simp only [lastCluster, clKernel, CL_BOOTX64]
      omega
    rw [fatBuf, packed_encodeFat12 room, if_pos visited, BitVec.toNat_ofNat]

theorem link_last (hc : 2 ≤ c) (le : c ≤ 4 + nClusters bx.length + nClusters kr.length)
    (room : c ≤ 340) (eq : fatTable (nClusters bx.length) (nClusters kr.length) c = 0xFFF) :
    (fat12 (esp bx kr)).link c = .last := by
  have inside : 2 ≤ c ∧ c < (bpb (esp bx kr)).count + 2 := by
    rw [count_esp h]
    omega
  have packs : Packs 512 c := by
    rw [Packs]
    omega
  rw [link_fat12]
  refine Bpb.link_last inside (d := 0xFFF) ?_ (by decide) (by decide)
  rw [entry12_esp h (by omega), if_pos packs, eq]

theorem link_more (hc : 2 ≤ c) (lt : c < 4 + nClusters bx.length + nClusters kr.length)
    (room : c ≤ 340) (eq : fatTable (nClusters bx.length) (nClusters kr.length) c = c + 1) :
    (fat12 (esp bx kr)).link c = .more (c + 1) := by
  have inside : 2 ≤ c ∧ c < (bpb (esp bx kr)).count + 2 := by
    rw [count_esp h]
    omega
  have packs : Packs 512 c := by
    rw [Packs]
    omega
  rw [link_fat12]
  refine Bpb.link_more inside ?_ (Nat.succ_pos c) (by omega)
  rw [entry12_esp h (by omega), if_pos packs, eq, Nat.mod_eq_of_lt (by omega)]

/-- Behind cluster 340 the table ends. -/
theorem link_broken (hc : 340 < c) (le : c ≤ 4 + nClusters bx.length + nClusters kr.length) :
    (fat12 (esp bx kr)).link c = .broken := by
  have inside : 2 ≤ c ∧ c < (bpb (esp bx kr)).count + 2 := by
    rw [count_esp h]
    omega
  have packs : ¬ Packs 512 c := by
    rw [Packs]
    omega
  rw [link_fat12]
  refine Bpb.link_none inside ?_
  rw [entry12_esp h (by omega), if_neg packs]

theorem link_outside (hc : 4 + nClusters bx.length + nClusters kr.length < c) :
    (fat12 (esp bx kr)).link c = .outside := by
  rw [link_fat12]
  refine Bpb.link_outside ?_
  rw [count_esp h]
  omega

/-! ## The two paths -/

omit h in
theorem clusterOff_eq (cl : Nat) : clusterOff cl = 3584 + (cl - 2) * 2048 := by
  simp only [clusterOff, dataStartSector, RESERVED, N_FATS, FAT_SEC, ROOT_SECTORS, ROOT_ENTRIES,
    FAT_SECTOR, CLUSTER_SECTORS]
  omega

theorem clusters_esp : (fat12 (esp bx kr)).dataStart = 3584 ∧
    (fat12 (esp bx kr)).clusterBytes = 2048 ∧
      (fat12 (esp bx kr)).count = 3 + nClusters bx.length + nClusters kr.length := by
  refine ⟨?_, ?_, count_esp h⟩
  · change (bpb (esp bx kr)).dataSector * (bpb (esp bx kr)).bytesPerSector = 3584
    simp [bpb_esp h, Bpb.dataSector, Bpb.rootSector]
  · change (bpb (esp bx kr)).sectorsPerCluster * (bpb (esp bx kr)).bytesPerSector = 2048
    simp [bpb_esp h]

theorem chainBytes_directory {cl : Nat} {d : List Byte} (hc : 2 ≤ cl ∧ cl ≤ 4)
    (len : d.length = CLUSTER_SIZE) (mem : (clusterOff cl, d) ∈ parts bx kr) :
    (fat12 (esp bx kr)).chainBytes cl = some d := by
  obtain ⟨start, size, count⟩ := clusters_esp h
  have run : Run (fat12 (esp bx kr)).link cl 1 := ⟨Nat.one_pos, fun i hi => absurd hi (Nat.not_lt_zero i),
    link_last h (by omega) (by omega) (by omega) (fatTable_directory hc)⟩
  have bytes := slice_esp mem
  rw [Volume.chainBytes_run run (by omega) hc.1, start, size, Nat.one_mul, ← clusterOff_eq,
    ← show CLUSTER_SIZE = 2048 from rfl, ← len]
  exact congrArg some bytes

omit h in
theorem first_esp {name8 ext3 : String} {cluster size attr : Nat} (fits : cluster < 256 ^ 2) :
    (fat12 (esp bx kr)).first (dirent name8 ext3 cluster size attr) = cluster := by
  rw [first_fat12, cluster_dirent fits]

theorem find_bootx64 : (fat12 (esp bx kr)).find (root12 (esp bx kr)) bootx64Path =
    some (dirent "BOOTX64" "EFI" CL_BOOTX64 bx.length ATTR_FILE) := by
  have efi : findEntry (ascii "EFI        ") (root12 (esp bx kr)) =
      some (dirent "EFI" "   " CL_EFI 0 ATTR_DIR) := by
    obtain ⟨used, hit⟩ : field (dirent "EFI" "   " CL_EFI 0 ATTR_DIR) 0 1 ≠ 0 ∧
        ¬ Skipped (ascii "EFI        ") (dirent "EFI" "   " CL_EFI 0 ATTR_DIR) :=
      dirent_hit (by decide) (by decide) (by decide) (by decide)
    rw [root_esp h, ← List.nil_append [dirent "EFI" "   " CL_EFI 0 ATTR_DIR, _]]
    exact findEntry_directory (by simp) (show 32 * 2 ≤ ROOT_ENTRIES * 32 by decide)
      (fun x hx => by cases hx) used hit
  have efiDir : (fat12 (esp bx kr)).chainBytes CL_EFI = some (clusterBytes CL_EFI 0
      (dirent "BOOT" "   " CL_EFIBOOT 0 ATTR_DIR)) :=
    chainBytes_directory h (by decide) (length_clusterBytes length_dirent)
      (.tail _ (.tail _ (.tail _ (.tail _ (.head _)))))
  have boot : findEntry (ascii "BOOT       ") (clusterBytes CL_EFI 0
      (dirent "BOOT" "   " CL_EFIBOOT 0 ATTR_DIR)) = some (dirent "BOOT" "   " CL_EFIBOOT 0 ATTR_DIR) :=
    findEntry_clusterBytes length_dirent (by decide)
      (dirent_hit (by decide) (by decide) (by decide) (by decide))
  have bootDir : (fat12 (esp bx kr)).chainBytes CL_EFIBOOT = some (clusterBytes CL_EFIBOOT CL_EFI
      (dirent "BOOTX64" "EFI" CL_BOOTX64 bx.length ATTR_FILE)) :=
    chainBytes_directory h (by decide) (length_clusterBytes length_dirent)
      (.tail _ (.tail _ (.tail _ (.tail _ (.tail _ (.head _))))))
  have directory (name : String) (cl : Nat) :
      isDirectory (dirent name "   " cl 0 ATTR_DIR) = true := by
    rw [isDirectory, attr_dirent (by decide)]
    rfl
  rw [bootx64Path, Volume.find_cons efi (directory _ _) (by rw [first_esp (by decide)]; exact efiDir),
    Volume.find_cons boot (directory _ _) (by rw [first_esp (by decide)]; exact bootDir)]
  exact findEntry_clusterBytes length_dirent (by decide)
    (dirent_hit (by decide) (by decide) (by decide) (by decide))

theorem find_kernel : (fat12 (esp bx kr)).find (root12 (esp bx kr)) kernelPath =
    some (dirent "MICRONT" "ELF" (clKernel (nClusters bx.length)) kr.length ATTR_FILE) := by
  have boot : findEntry (ascii "BOOT       ") (root12 (esp bx kr)) =
      some (dirent "BOOT" "   " CL_BOOT 0 ATTR_DIR) := by
    obtain ⟨used, hit⟩ : field (dirent "BOOT" "   " CL_BOOT 0 ATTR_DIR) 0 1 ≠ 0 ∧
        ¬ Skipped (ascii "BOOT       ") (dirent "BOOT" "   " CL_BOOT 0 ATTR_DIR) :=
      dirent_hit (by decide) (by decide) (by decide) (by decide)
    have skipped : ∀ x ∈ [dirent "EFI" "   " CL_EFI 0 ATTR_DIR],
        field x 0 1 ≠ 0 ∧ Skipped (ascii "BOOT       ") x := by
      intro x hx
      rw [List.mem_singleton.mp hx]
      exact dirent_skipped (by decide) (by decide)
    rw [root_esp h, ← List.singleton_append]
    exact findEntry_directory (by simp) (show 32 * 2 ≤ ROOT_ENTRIES * 32 by decide) skipped used hit
  have bootDir : (fat12 (esp bx kr)).chainBytes CL_BOOT = some (clusterBytes CL_BOOT 0
      (dirent "MICRONT" "ELF" (clKernel (nClusters bx.length)) kr.length ATTR_FILE)) :=
    chainBytes_directory h (by decide) (length_clusterBytes length_dirent)
      (.tail _ (.tail _ (.tail _ (.tail _ (.tail _ (.tail _ (.head _)))))))
  have directory : isDirectory (dirent "BOOT" "   " CL_BOOT 0 ATTR_DIR) = true := by
    rw [isDirectory, attr_dirent (by decide)]
    rfl
  rw [kernelPath, Volume.find_cons boot directory (by rw [first_esp (by decide)]; exact bootDir)]
  exact findEntry_clusterBytes length_dirent (by decide)
    (dirent_hit (by decide) (by decide) (by decide) (by decide))

/-! ## The two chains -/

/-- The clusters of the boot loader, as long as the table has room for them. -/
theorem steps_bootx64 {n : Nat} (lt : n < nClusters bx.length) (room : 4 + n ≤ 340) :
    Steps (fat12 (esp bx kr)).link CL_BOOTX64 n := by
  intro i hi
  rw [CL_BOOTX64]
  refine link_more h (by omega) (by omega) (by omega) ?_
  rw [fatTable_bootx64 (by omega) (by omega), if_neg (by omega)]

theorem steps_kernel {n : Nat} (lt : n < nClusters kr.length)
    (room : 4 + nClusters bx.length + n ≤ 340) :
    Steps (fat12 (esp bx kr)).link (clKernel (nClusters bx.length)) n := by
  intro i hi
  rw [clKernel, CL_BOOTX64]
  refine link_more h (by omega) (by omega) (by omega) ?_
  rw [fatTable_kernel (by omega) (by omega), if_neg (by omega)]

theorem run_bootx64 (some : bx ≠ []) (room : nClusters bx.length + nClusters kr.length ≤ 336) :
    Run (fat12 (esp bx kr)).link CL_BOOTX64 (nClusters bx.length) := by
  have pos := nClusters_pos.mpr some
  refine ⟨pos, steps_bootx64 h (by omega) (by omega), ?_⟩
  rw [CL_BOOTX64]
  refine link_last h (by omega) (by omega) (by omega) ?_
  rw [fatTable_bootx64 (by omega) (by omega), if_pos (by omega)]

theorem run_kernel (some : kr ≠ []) (room : nClusters bx.length + nClusters kr.length ≤ 336) :
    Run (fat12 (esp bx kr)).link (clKernel (nClusters bx.length)) (nClusters kr.length) := by
  have pos := nClusters_pos.mpr some
  refine ⟨pos, steps_kernel h (by omega) (by omega), ?_⟩
  rw [clKernel, CL_BOOTX64]
  refine link_last h (by omega) (by omega) (by omega) ?_
  rw [fatTable_kernel (by omega) (by omega), if_pos (by omega)]

/-- **A file whose chain is whole** is read back, and so is one without bytes. -/
theorem read_file {name8 ext3 : String} {f n : Nat} {data : List Byte} (hf : 2 ≤ f)
    (low : f < 256 ^ 2) (size : data.length < 256 ^ 4) (run : data ≠ [] → Run (fat12 (esp bx kr)).link f n)
    (fits : data.length ≤ n * 2048) (le : f + n ≤ 5 + nClusters bx.length + nClusters kr.length)
    (mem : (clusterOff f, data) ∈ parts bx kr) :
    (fat12 (esp bx kr)).read (dirent name8 ext3 f data.length ATTR_FILE) = some data := by
  obtain ⟨start, bytes, count⟩ := clusters_esp h
  have file : isDirectory (dirent name8 ext3 f data.length ATTR_FILE) = false := by
    rw [isDirectory, attr_dirent (by decide)]
    rfl
  have length : lengthOf (dirent name8 ext3 f data.length ATTR_FILE) = data.length := size_dirent size
  by_cases empty : data = []
  case pos =>
    rw [Volume.read_empty file (by rw [length, empty]; rfl), empty]
  case neg =>
    have first : (fat12 (esp bx kr)).first (dirent name8 ext3 f data.length ATTR_FILE) = f :=
      first_esp low
    have image : (fat12 (esp bx kr)).image.length =
        2048 * (5 + nClusters bx.length + nClusters kr.length) := length_esp
    refine Volume.read_run (n := n) ?_ (by omega) (by rwa [first]) file length (by rwa [bytes]) ?_ ?_
    · rw [first]
      exact run empty
    · rw [first, start, bytes, image]
      omega
    · rw [first, start, bytes, ← clusterOff_eq]
      exact slice_esp mem

theorem clustersOf_esp : (fat12 (esp bx kr)).clustersOf (root12 (esp bx kr)) bootx64Path =
      (fat12 (esp bx kr)).chain CL_BOOTX64 ∧
    (fat12 (esp bx kr)).clustersOf (root12 (esp bx kr)) kernelPath =
      (fat12 (esp bx kr)).chain (clKernel (nClusters bx.length)) := by
  have small : clKernel (nClusters bx.length) < 256 ^ 2 := by
    rw [totalFatSectors_eq] at h
    rw [clKernel, CL_BOOTX64]
    omega
  rw [Volume.clustersOf_some (find_bootx64 h), Volume.clustersOf_some (find_kernel h),
    first_esp (by decide), first_esp small]
  exact ⟨rfl, rfl⟩

/-- The table has no room for cluster 341, which one of the files has if they are large. -/
theorem not_roundTrip_of_large (large : 336 < nClusters bx.length + nClusters kr.length) :
    ¬ RoundTrip (esp bx kr) bx kr := by
  intro trip
  obtain ⟨start, bytes, count⟩ := clusters_esp h
  obtain ⟨boot, kernel⟩ := clustersOf_esp h
  have stop := link_broken h (show 340 < 341 by decide) (by omega)
  have visited : 341 ∈ (fat12 (esp bx kr)).clustersOf (root12 (esp bx kr)) bootx64Path ++
      (fat12 (esp bx kr)).clustersOf (root12 (esp bx kr)) kernelPath := by
    rw [boot, kernel]
    by_cases first : 336 < nClusters bx.length
    case pos =>
      have steps := steps_bootx64 h first (by decide)
      exact List.mem_append_left _ (steps.broken stop (by omega)).1
    case neg =>
      obtain ⟨n, at_⟩ : ∃ n, clKernel (nClusters bx.length) + n = 341 :=
        ⟨336 - nClusters bx.length, by rw [clKernel, CL_BOOTX64]; omega⟩
      have place := at_
      rw [clKernel, CL_BOOTX64] at place
      have steps : Steps (fat12 (esp bx kr)).link (clKernel (nClusters bx.length)) n :=
        steps_kernel h (by omega) (by omega)
      rw [← at_] at stop
      have fuel : n < (fat12 (esp bx kr)).count := by omega
      have reached := (steps.broken stop fuel).1
      rw [at_] at reached
      exact List.mem_append_right _ reached
  have entry := trip.inside 341 visited
  rw [bpb_esp h] at entry
  exact absurd entry (show ¬ 341 * 3 / 2 + 1 < 1 * 512 by decide)

/-- An empty boot loader has the first cluster of the kernel in its entry. -/
theorem not_roundTrip_of_empty (empty : bx = []) (some : kr ≠ []) : ¬ RoundTrip (esp bx kr) bx kr := by
  intro trip
  obtain ⟨-, -, count⟩ := clusters_esp h
  obtain ⟨boot, kernel⟩ := clustersOf_esp h
  have pos := nClusters_pos.mpr some
  have same : clKernel (nClusters bx.length) = CL_BOOTX64 := by
    rw [empty]
    rfl
  have linked : (fat12 (esp bx kr)).link CL_BOOTX64 ≠ .outside := by
    rw [link_fat12]
    refine Bpb.link_inside ?_
    rw [count_esp h, CL_BOOTX64]
    omega
  have shared := mem_clusters_self linked (show 0 < (fat12 (esp bx kr)).count by omega)
  have apart := trip.disjoint
  rw [boot, kernel, same] at apart
  exact apart shared shared

theorem roundTrip_esp (room : nClusters bx.length + nClusters kr.length ≤ 336)
    (order : bx ≠ [] ∨ kr = []) : RoundTrip (esp bx kr) bx kr := by
  obtain ⟨start, bytes, count⟩ := clusters_esp h
  obtain ⟨boot, kernel⟩ := clustersOf_esp h
  have lb := le_nClusters bx.length
  have lk := le_nClusters kr.length
  have first : clKernel (nClusters bx.length) = 5 + nClusters bx.length := rfl
  have bootClusters : (fat12 (esp bx kr)).chain CL_BOOTX64 = List.range' 5 (nClusters bx.length) := by
    by_cases empty : bx = []
    case pos =>
      have outside := link_outside h (c := CL_BOOTX64) (by
        rw [order.resolve_left (fun some => some empty), empty]
        decide)
      rw [Volume.chain, clusters_outside outside, empty]
      rfl
    case neg => exact (run_bootx64 h empty room).clusters (by omega)
  have kernelClusters : (fat12 (esp bx kr)).chain (clKernel (nClusters bx.length)) =
      List.range' (5 + nClusters bx.length) (nClusters kr.length) := by
    by_cases empty : kr = []
    case pos =>
      have none : nClusters kr.length = 0 := by
        rw [empty]
        rfl
      have outside := link_outside h (c := clKernel (nClusters bx.length)) (by omega)
      rw [Volume.chain, clusters_outside outside, none]
      rfl
    case neg => exact (run_kernel h empty room).clusters (by omega)
  refine ⟨⟨_, find_bootx64 h, ?_, size_dirent (by omega)⟩, ⟨_, find_kernel h, ?_, size_dirent (by omega)⟩,
    fun c hc => ?_, ?_⟩
  · exact read_file h (by decide) (by decide) (by omega) (fun some => run_bootx64 h some room) lb
      (by rw [CL_BOOTX64]; omega)
      (.tail _ (.tail _ (.tail _ (.tail _ (.tail _ (.tail _ (.tail _ (.head _))))))))
  · exact read_file h (by omega) (by omega) (by omega) (fun some => run_kernel h some room) lk (by omega)
      (.tail _ (.tail _ (.tail _ (.tail _ (.tail _ (.tail _ (.tail _ (.tail _ (.head _)))))))))
  · rw [boot, kernel, bootClusters, kernelClusters, List.mem_append, List.mem_range'_1,
      List.mem_range'_1] at hc
    rw [bpb_esp h]
    change c * 3 / 2 + 1 < 1 * 512
    omega
  · rw [boot, kernel, bootClusters, kernelClusters]
    intro c hb hk
    rw [List.mem_range'_1] at hb hk
    omega

end

/-- **The round trip of the ESP** succeeds exactly if the two files have together no
more clusters than the one sector of the table has entries for, and the boot loader is
not empty in front of a kernel. -/
theorem fat12_round_trip_iff (bootx64_data kernel_data image : List Byte)
    (built : buildFat12Esp bootx64_data kernel_data = some image) :
    RoundTrip image bootx64_data kernel_data ↔
      nClusters bootx64_data.length + nClusters kernel_data.length ≤ 336 ∧
        (bootx64_data ≠ [] ∨ kernel_data = []) := by
  have h : totalFatSectors (nClusters bootx64_data.length) (nClusters kernel_data.length) < 256 ^ 2 := by
    by_contra large
    rw [buildFat12Esp_of_le (Nat.le_of_not_lt large)] at built
    cases built
  rw [buildFat12Esp_of_lt h, padTo_esp] at built
  obtain rfl := Option.some.inj built
  constructor
  · intro trip
    refine ⟨?_, ?_⟩
    · by_contra large
      exact not_roundTrip_of_large h (Nat.lt_of_not_le large) trip
    · by_contra order
      rw [not_or, not_not] at order
      exact not_roundTrip_of_empty h order.1 order.2 trip
  · intro fits
    exact roundTrip_esp h fits.1 fits.2

/-- A loader and a kernel of one byte each. -/
theorem fat12_round_trip_iff_small :
    ∃ image, buildFat12Esp [0x4D] [0x7F] = some image ∧ RoundTrip image [0x4D] [0x7F] := by
  have built : buildFat12Esp [0x4D] [0x7F] = some (padTo (esp [0x4D] [0x7F]) ISO_SECTOR) :=
    buildFat12Esp_of_lt (by decide)
  exact ⟨_, built, (fat12_round_trip_iff _ _ _ built).mpr ⟨by decide, .inl (List.cons_ne_nil _ _)⟩⟩

/-- A kernel of 672 KB beside a loader of one cluster: the image is built, and the last
cluster of the kernel has no entry. -/
theorem large_kernel_cut : ∃ image, buildFat12Esp [0x4D] (zeros 688128) = some image ∧
    ¬ RoundTrip image [0x4D] (zeros 688128) := by
  generalize zeroed : zeros 688128 = kernel
  have len : kernel.length = 688128 := by rw [← zeroed, length_zeros]
  have few : totalFatSectors (nClusters [0x4D#8].length) (nClusters kernel.length) < 256 ^ 2 := by
    rw [len]
    decide
  have large : 336 < nClusters [0x4D#8].length + nClusters kernel.length := by
    rw [len]
    decide
  refine ⟨_, buildFat12Esp_of_lt few, ?_⟩
  rw [padTo_esp]
  exact not_roundTrip_of_large few large

end MicroNT.Mkiso
