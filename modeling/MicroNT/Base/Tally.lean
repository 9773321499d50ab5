import Mathlib.Algebra.BigOperators.Group.Finset.Piecewise
import Mathlib.Logic.Function.Basic

/-! # Counting the entries of a table

A table gives each name an entry. How many entries of some names have a property
changes by one at most when one entry is written. -/

namespace MicroNT.Base.Tally

variable {ι β : Type}

/-- How many of the names have an entry with the property `P`. -/
def tally (ids : Finset ι) (P : β → Prop) [DecidablePred P] (t : ι → β) : Nat :=
  (ids.filter fun i => P (t i)).card

variable {ids : Finset ι} {P : β → Prop} [DecidablePred P] {t : ι → β} {i : ι} {b : β}

theorem tally_eq_zero : tally ids P t = 0 ↔ ∀ i ∈ ids, ¬ P (t i) := by
  rw [tally, Finset.card_eq_zero, Finset.filter_eq_empty_iff]

theorem tally_pos (hi : i ∈ ids) (h : P (t i)) : 0 < tally ids P t :=
  Nat.pos_of_ne_zero fun none => tally_eq_zero.mp none i hi h

theorem tally_congr {u : ι → β} (same : ∀ i ∈ ids, P (u i) ↔ P (t i)) :
    tally ids P u = tally ids P t := congrArg Finset.card (Finset.filter_congr same)

theorem tally_le_card : tally ids P t ≤ ids.card := Finset.card_filter_le _ _

variable [DecidableEq ι]

/-- Entries of other names do not count. -/
theorem tally_update_of_notMem (hi : i ∉ ids) :
    tally ids P (Function.update t i b) = tally ids P t := by
  refine tally_congr fun j hj => ?_
  have other : j ≠ i := fun e => hi (e ▸ hj)
  rw [Function.update_of_ne other]

/-- One more name. -/
theorem tally_insert (hi : i ∉ ids) :
    tally (insert i ids) P t = tally ids P t + if P (t i) then 1 else 0 := by
  unfold tally
  rw [Finset.filter_insert]
  split
  · exact Finset.card_insert_of_notMem fun h => hi (Finset.mem_of_mem_filter i h)
  · rfl

/-- **One entry is written**: the old one no longer counts, the new one does. -/
theorem tally_update (hi : i ∈ ids) :
    tally ids P (Function.update t i b) + (if P (t i) then 1 else 0) =
      tally ids P t + if P b then 1 else 0 := by
  have rest : ∑ j ∈ ids.erase i, (if P (Function.update t i b j) then 1 else 0) =
      ∑ j ∈ ids.erase i, if P (t j) then 1 else 0 := by
    refine Finset.sum_congr rfl fun j hj => ?_
    rw [Function.update_of_ne (Finset.ne_of_mem_erase hj)]
  unfold tally
  rw [Finset.card_filter, Finset.card_filter, ← Finset.add_sum_erase ids _ hi,
    ← Finset.add_sum_erase ids (fun j => if P (t j) then 1 else 0) hi, rest, Function.update_self]
  omega

theorem tally_enter (hi : i ∈ ids) (old : ¬ P (t i)) (new : P b) :
    tally ids P (Function.update t i b) = tally ids P t + 1 := by
  have h := tally_update (t := t) (P := P) (b := b) hi
  rwa [if_neg old, if_pos new] at h

theorem tally_leave (hi : i ∈ ids) (old : P (t i)) (new : ¬ P b) :
    tally ids P (Function.update t i b) = tally ids P t - 1 := by
  have h := tally_update (t := t) (P := P) (b := b) hi
  rw [if_pos old, if_neg new] at h
  omega

theorem tally_same (same : P b ↔ P (t i)) : tally ids P (Function.update t i b) = tally ids P t := by
  by_cases hi : i ∈ ids
  · have h := tally_update (t := t) (P := P) (b := b) hi
    rw [if_congr same rfl rfl] at h
    omega
  · exact tally_update_of_notMem hi

end MicroNT.Base.Tally
