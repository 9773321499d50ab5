import Mathlib.Data.List.Induction

/-! # Layers that lie on one another

A list of layers from the bottom to the top. What is seen at a place is the topmost
layer that has it; two ways to say which layers have it lead to the same one exactly
if the topmost layer that has it in either way has it in both. -/

namespace MicroNT.Base.Layers

variable {α : Type} {p q : α → Prop} {l : List α} {i j : Nat} {a b : α}

/-- Layer `i` is the topmost one with `p`. -/
structure IsTop (p : α → Prop) (l : List α) (i : Nat) (a : α) : Prop where
  layer : l[i]? = some a
  holds : p a
  above : ∀ j b, i < j → l[j]? = some b → ¬ p b

theorem IsTop.unique (h : IsTop p l i a) (h' : IsTop p l j b) : i = j ∧ a = b := by
  rcases Nat.lt_trichotomy i j with lt | rfl | gt
  · exact absurd h'.holds (h.above j b lt h'.layer)
  · exact ⟨rfl, Option.some.inj (h.layer.symm.trans h'.layer)⟩
  · exact absurd h.holds (h'.above i a gt h.layer)

/-- Where neither holds above, the topmost layer of either is the topmost of one that
has it. -/
theorem IsTop.left (h : IsTop (fun x => p x ∨ q x) l i a) (hp : p a) : IsTop p l i a :=
  ⟨h.layer, hp, fun j b hj hb no => h.above j b hj hb (.inl no)⟩

theorem IsTop.right (h : IsTop (fun x => p x ∨ q x) l i a) (hq : q a) : IsTop q l i a :=
  ⟨h.layer, hq, fun j b hj hb no => h.above j b hj hb (.inr no)⟩

/-- A layer on top of the others. -/
theorem isTop_concat {c : α} : IsTop p (l ++ [c]) i a ↔
    (p c ∧ i = l.length ∧ a = c) ∨ (¬ p c ∧ IsTop p l i a) := by
  constructor
  · intro h
    have inside := (List.getElem?_eq_some_iff.mp h.layer).1
    rw [List.length_append, List.length_singleton] at inside
    rcases Nat.lt_or_eq_of_le (Nat.le_of_lt_succ inside) with lt | rfl
    · refine .inr ⟨h.above l.length c lt List.getElem?_concat_length, ?_, h.holds, fun j b hj hb => ?_⟩
      · rw [← h.layer, List.getElem?_append_left lt]
      · refine h.above j b hj ?_
        rw [List.getElem?_append_left (List.getElem?_eq_some_iff.mp hb).1]
        exact hb
    · have same : c = a := by
        have layer := h.layer
        rw [List.getElem?_concat_length] at layer
        exact Option.some.inj layer
      exact .inl ⟨same ▸ h.holds, rfl, same.symm⟩
  · intro h
    rcases h with ⟨hc, rfl, rfl⟩ | ⟨hc, h⟩
    · refine ⟨List.getElem?_concat_length, hc, fun j b hj hb => ?_⟩
      have inside := (List.getElem?_eq_some_iff.mp hb).1
      rw [List.length_append, List.length_singleton] at inside
      omega
    · have inside := (List.getElem?_eq_some_iff.mp h.layer).1
      refine ⟨?_, h.holds, fun j b hj hb => ?_⟩
      · rw [List.getElem?_append_left inside]
        exact h.layer
      · rcases Nat.lt_or_ge j l.length with lt | ge
        · rw [List.getElem?_append_left lt] at hb
          exact h.above j b hj hb
        · have inside' := (List.getElem?_eq_some_iff.mp hb).1
          rw [List.length_append, List.length_singleton] at inside'
          obtain rfl : j = l.length := by omega
          rw [List.getElem?_concat_length] at hb
          exact Option.some.inj hb ▸ hc

/-- The topmost layer with `p`, looked for from the top down: how many lie below it. -/
def topmost (p : α → Prop) [DecidablePred p] : List α → Option Nat
  | [] => none
  | a :: below => if p a then some below.length else topmost p below

section

variable [DecidablePred p] [DecidablePred q]

/-- **The search from the top** finds the topmost layer. -/
theorem topmost_eq_some : topmost p l.reverse = some i ↔ ∃ a, IsTop p l i a := by
  induction l using List.reverseRecOn with
  | nil =>
    constructor
    · intro no
      cases no
    · intro ⟨a, h⟩
      have layer := h.layer
      rw [List.getElem?_nil] at layer
      cases layer
  | append_singleton l c ih =>
    simp only [List.reverse_append, List.reverse_singleton, List.singleton_append, topmost,
      List.length_reverse, isTop_concat]
    split
    case isTrue hc =>
      simp only [hc, true_and, not_true, false_and, or_false, exists_and_left, exists_eq, and_true,
        Option.some.injEq]
      exact eq_comm
    case isFalse hc =>
      simp only [hc, false_and, not_false_eq_true, true_and, false_or]
      exact ih

theorem topmost_eq_none : topmost p l.reverse = none ↔ ∀ i a, ¬ IsTop p l i a := by
  rw [Option.eq_none_iff_forall_ne_some]
  simp only [ne_eq, topmost_eq_some, not_exists]

/-- What is topmost for one lies below or at what is topmost for either. -/
theorem IsTop.either (h : IsTop p l i a) : ∃ j b, IsTop (fun x => p x ∨ q x) l j b := by
  by_contra none
  have blank := topmost_eq_none (p := fun x => p x ∨ q x).mpr fun j b hb => none ⟨j, b, hb⟩
  clear none
  induction l using List.reverseRecOn generalizing i with
  | nil => exact absurd h.layer (by rw [List.getElem?_nil]; exact fun no => by cases no)
  | append_singleton l c ih =>
    simp only [List.reverse_append, List.reverse_singleton, List.singleton_append, topmost] at blank
    split at blank
    case isTrue => cases blank
    case isFalse hc =>
      rcases isTop_concat.mp h with ⟨hp, -⟩ | ⟨-, h⟩
      · exact hc (.inl hp)
      · exact ih h blank

/-- **Two searches agree** exactly if the topmost layer of either is one of both. -/
theorem topmost_eq_iff : topmost p l.reverse = topmost q l.reverse ↔
    ∀ i a, IsTop (fun x => p x ∨ q x) l i a → p a ∧ q a := by
  have swap : ∀ {i a}, IsTop (fun x => q x ∨ p x) l i a → IsTop (fun x => p x ∨ q x) l i a :=
    fun h => ⟨h.layer, h.holds.symm, fun j b hj hb no => h.above j b hj hb no.symm⟩
  constructor
  · intro same i a h
    rcases h.holds with hp | hq
    · obtain ⟨b, hb⟩ := topmost_eq_some.mp (same ▸ topmost_eq_some.mpr ⟨a, h.left hp⟩)
      obtain rfl := Option.some.inj (hb.layer.symm.trans h.layer)
      exact ⟨hp, hb.holds⟩
    · obtain ⟨b, hb⟩ := topmost_eq_some.mp (same.symm ▸ topmost_eq_some.mpr ⟨a, h.right hq⟩)
      obtain rfl := Option.some.inj (hb.layer.symm.trans h.layer)
      exact ⟨hb.holds, hq⟩
  · intro both
    refine Option.ext fun i => ?_
    rw [topmost_eq_some, topmost_eq_some]
    constructor
    · intro ⟨a, ha⟩
      obtain ⟨j, b, hb⟩ := ha.either (q := q)
      obtain ⟨hp, hq⟩ := both j b hb
      obtain ⟨rfl, rfl⟩ := ha.unique (hb.left hp)
      exact ⟨a, hb.right hq⟩
    · intro ⟨a, ha⟩
      obtain ⟨j, b, hb⟩ := ha.either (q := p)
      obtain ⟨hp, hq⟩ := both j b (swap hb)
      obtain ⟨rfl, rfl⟩ := ha.unique ((swap hb).right hq)
      exact ⟨a, (swap hb).left hp⟩

end

end MicroNT.Base.Layers
