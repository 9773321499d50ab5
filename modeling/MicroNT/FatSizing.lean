import MicroNT.DiskImage

/-! # The size of the table (tools/mkdisk.py)

The table needs two entries more than there are clusters, which the loop of
`build_fat32_part` leaves out; and it has no fixed point for some sizes. Here is for which
sizes of the partition the table is large enough. -/

namespace MicroNT.Mkdisk

/-! ## What the sizes have to satisfy -/

/-- `nc` after the loop. -/
def finalClusters (part_sectors : Nat) : Nat := clusterCount part_sectors (fatSec part_sectors)

/-- `fat_set` has room for the entries 0 to `nc + 1` in each copy of the table. -/
def HasEntries (part_sectors : Nat) : Prop :=
  ∀ cl, cl ≤ finalClusters part_sectors + 1 → cl * 4 + 4 ≤ fatSec part_sectors * S

/-- The reserved sectors, the tables and the clusters fit in the partition. -/
def FitsPartition (part_sectors : Nat) : Prop :=
  RES + NF * fatSec part_sectors + finalClusters part_sectors * SPC ≤ part_sectors

/-- The table has the size that `nc` asks for: one more round changes nothing. -/
def Consistent (part_sectors : Nat) : Prop :=
  fatRound part_sectors (fatSec part_sectors) = fatSec part_sectors

/-- **The sizing** is sufficient and consistent. -/
structure Sized (part_sectors : Nat) : Prop where
  entries : HasEntries part_sectors
  fits : FitsPartition part_sectors
  consistent : Consistent part_sectors

/-! ## Two rounds -/

/-- How far the start may be below the end for two rounds to come within `b` of it, where
the last of the `130` sectors are `u` short. -/
def roundBack (u b : Nat) : Nat := (128 * ((128 * b + 127 - u) / 2) + u) / 2

/-- How far the start may be below the end for eight rounds to reach it. -/
def roundBound (u : Nat) : Nat := (roundBack u)^[4] 0

/-- The sectors behind the reserved ones leave a remainder by 130 that makes room for two
more entries, and the partition is not too large for eight rounds. -/
def RightSize (part_sectors : Nat) : Prop :=
  3 ≤ (part_sectors - RES) % 130 ∧ (part_sectors - RES) % 130 ≤ 128 ∧
    (part_sectors - RES) / 130 ≤ roundBound (130 - (part_sectors - RES) % 130)

instance (part_sectors : Nat) : Decidable (RightSize part_sectors) :=
  inferInstanceAs (Decidable (_ ∧ _))

section

variable {P f t u m b : Nat}

/-- The distance from the end after two rounds. -/
def closer (u m : Nat) : Nat := (2 * ((2 * m - u + 127) / 128) + u) / 128

/-- **Two rounds** from below the end `t` lead to below the end. -/
theorem fatRound_pair (end_ : P - RES + u = 130 * t) (short : u ≤ 127) (below : m < t)
    (large : 65557 ≤ P) :
    fatRound P (fatRound P (t - m)) = t - closer u m ∧ closer u m ≤ m := by
  have res : RES = 32 := rfl
  rw [res] at end_
  have first : fatRound P (t - m) = t + (2 * m - u + 127) / 128 := by
    rw [fatRound_eq]
    omega
  rw [first, fatRound_eq, closer]
  omega

/-- The distances from which two rounds come within `b`. -/
theorem closer_le_iff (short : u ≤ 127) : closer u m ≤ b ↔ m ≤ roundBack u b := by
  rw [closer, roundBack]
  omega

theorem iterate_pair (end_ : P - RES + u = 130 * t) (short : u ≤ 127) (below : m < t)
    (large : 65557 ≤ P) (n : Nat) :
    (fatRound P)^[2 * n] (t - m) = t - (closer u)^[n] m ∧ (closer u)^[n] m ≤ m := by
  induction n with
  | zero => exact ⟨rfl, Nat.le_refl _⟩
  | succ n ih =>
    obtain ⟨same, less⟩ := ih
    obtain ⟨pair, less'⟩ := fatRound_pair end_ short (Nat.lt_of_le_of_lt less below) large
    rw [show 2 * (n + 1) = 2 * n + 1 + 1 from rfl, Function.iterate_succ_apply',
      Function.iterate_succ_apply', same, pair, Function.iterate_succ_apply']
    exact ⟨rfl, Nat.le_trans less' less⟩

theorem iterate_closer_le_iff (short : u ≤ 127) (n : Nat) :
    (closer u)^[n] m ≤ b ↔ m ≤ (roundBack u)^[n] b := by
  induction n generalizing b with
  | zero => exact Iff.rfl
  | succ n ih =>
    rw [Function.iterate_succ_apply', closer_le_iff short, ih, ← Function.iterate_succ_apply]

/-- Where no size is a fixed point, two rounds from below stay below. -/
theorem fatRound_cycle (between : (P - RES) % 130 = 1 ∨ (P - RES) % 130 = 2)
    (low : f ≤ (P - RES) / 130) (large : 65557 ≤ P) :
    fatRound P (fatRound P f) ≤ (P - RES) / 130 := by
  have res : RES = 32 := rfl
  rw [res] at between low ⊢
  have first : fatRound P f = max 1 ((P - (32 + 2 * f) + 127) / 128) := fatRound_eq f
  rw [fatRound_eq]
  omega

theorem iterate_cycle (between : (P - RES) % 130 = 1 ∨ (P - RES) % 130 = 2)
    (low : f ≤ (P - RES) / 130) (large : 65557 ≤ P) (n : Nat) :
    (fatRound P)^[2 * n] f ≤ (P - RES) / 130 := by
  induction n with
  | zero => exact low
  | succ n ih =>
    rw [show 2 * (n + 1) = 2 * n + 1 + 1 from rfl, Function.iterate_succ_apply',
      Function.iterate_succ_apply']
    exact fatRound_cycle between ih large

/-! ## The table -/

/-- **The loop ends** as far below its end as four times two rounds leave it. -/
theorem fatSec_pairs (end_ : P - RES + u = 130 * t) (short : u ≤ 127) (large : 65557 ≤ P) :
    fatSec P = t - (closer u)^[4] (t - 1) ∧ ((closer u)^[4] (t - 1) = 0 ↔ t - 1 ≤ roundBound u) := by
  have res : RES = 32 := rfl
  have start : t - (t - 1) = 1 := by omega
  have pairs := (iterate_pair end_ short (m := t - 1) (by omega) large 4).1
  rw [start] at pairs
  refine ⟨pairs, ?_⟩
  rw [roundBound, ← iterate_closer_le_iff short 4, Nat.le_zero]

/-- The table never has more sectors than 130 sectors behind the reserved ones ask for. -/
theorem fatSec_le (large : 65557 ≤ P) :
    130 * fatSec P ≤ P - RES + 127 ∧
      ((P - RES) % 130 < 3 → 130 * fatSec P ≤ P - RES) := by
  have res : RES = 32 := rfl
  by_cases between : (P - RES) % 130 = 1 ∨ (P - RES) % 130 = 2
  case pos =>
    have low := iterate_cycle between (f := 1) (by omega) large 4
    have same : fatSec P = (fatRound P)^[2 * 4] 1 := rfl
    rw [same]
    omega
  case neg =>
    obtain ⟨pairs, -⟩ := fatSec_pairs (t := (P - RES + 127) / 130)
      (u := 130 * ((P - RES + 127) / 130) - (P - RES)) (by omega) (by omega) large
    rw [pairs]
    omega

/-- The partition is large enough for its clusters to be counted without a sign. -/
theorem large_of_asserted (asserted : 65525 ≤ finalClusters P) :
    65557 ≤ P ∧ finalClusters P + 2 * fatSec P + 32 = P := by
  rw [finalClusters, clusterCount, dataSector, RES, NF, SPC, Nat.div_one] at *
  omega

theorem hasEntries_iff (asserted : 65525 ≤ finalClusters P) :
    HasEntries P ↔ P - RES + 2 ≤ 130 * fatSec P := by
  obtain ⟨large, sum⟩ := large_of_asserted asserted
  have res : RES = 32 := rfl
  have sector : S = 512 := rfl
  rw [HasEntries, sector]
  constructor
  · intro entries
    have last := entries _ (Nat.le_refl _)
    omega
  · intro room cl within
    omega

theorem fitsPartition (asserted : 65525 ≤ finalClusters P) : FitsPartition P := by
  obtain ⟨large, sum⟩ := large_of_asserted asserted
  rw [FitsPartition, RES, NF, SPC]
  omega

/-- **The sizing is right** exactly for the right sizes. -/
theorem sized_iff (asserted : 65525 ≤ finalClusters P) : Sized P ↔ RightSize P := by
  obtain ⟨large, -⟩ := large_of_asserted asserted
  obtain ⟨most, exact_⟩ := fatSec_le large
  have res : RES = 32 := rfl
  constructor
  · rintro ⟨entries, -, -⟩
    rw [hasEntries_iff asserted] at entries
    have low : 3 ≤ (P - RES) % 130 := by
      by_contra less
      have few := exact_ (by omega)
      omega
    obtain ⟨pairs, bound⟩ := fatSec_pairs (t := (P - RES) / 130 + 1)
      (u := 130 - (P - RES) % 130) (by omega) (by omega) large
    refine ⟨low, by omega, bound.mp ?_⟩
    omega
  · rintro ⟨low, high, rounds⟩
    obtain ⟨pairs, bound⟩ := fatSec_pairs (t := (P - RES) / 130 + 1)
      (u := 130 - (P - RES) % 130) (by omega) (by omega) large
    have reached := bound.mpr rounds
    have sectors : fatSec P = (P - RES) / 130 + 1 := by omega
    refine ⟨(hasEntries_iff asserted).mpr (by omega), fitsPartition asserted, ?_⟩
    rw [Consistent, sectors, fatRound_eq]
    omega

/-- A partition whose size fits in the boot sector is not too large for eight rounds. -/
theorem rightSize_iff (fits : P < 2 ^ 32) :
    RightSize P ↔ 3 ≤ (P - RES) % 130 ∧ (P - RES) % 130 ≤ 128 := by
  have rounds : ∀ u, 2 ^ 32 ≤ roundBound u := by
    intro u
    simp only [roundBound, Function.iterate_succ, Function.iterate_zero, Function.comp_apply, id,
      roundBack]
    omega
  have enough := rounds (130 - (P - RES) % 130)
  rw [RightSize]
  omega

end

/-- **The sizing for every partition that passes the assertion**: the table has room for the
entries 0 to `nc + 1` and the size that `nc` asks for exactly for the right sizes. The
reserved sectors, both tables and the clusters fit in the partition for every size. -/
theorem fat_sizing_exact (part_sectors : Nat) (asserted : 65525 ≤ finalClusters part_sectors) :
    (Sized part_sectors ↔ RightSize part_sectors) ∧ FitsPartition part_sectors ∧
      (part_sectors < 2 ^ 32 → (Sized part_sectors ↔
        3 ≤ (part_sectors - RES) % 130 ∧ (part_sectors - RES) % 130 ≤ 128)) :=
  ⟨sized_iff asserted, fitsPartition asserted,
    fun fits => (sized_iff asserted).trans (rightSize_iff fits)⟩

/-- The partition of a disk of 64 MB. -/
theorem fat_sizing_exact_64 : Sized 129024 :=
  ((fat_sizing_exact 129024 (by decide)).2.2 (by decide)).mpr (by decide)

/-- **A disk of 65 MB** has a table of 1008 sectors for 129024 clusters, and no room for the
last two of them. -/
theorem fat_sizing_65 :
    ¬ ∀ part_sectors, 65525 ≤ finalClusters part_sectors → Sized part_sectors := by
  intro h
  have last := (h 131072 (by decide)).entries 129025 (by decide)
  exact absurd last (by decide)

end MicroNT.Mkdisk
