import Mathlib.Data.List.Nodup
import Mathlib.Logic.Function.Basic

/-! # Doubly linked rings

The nodes share two link fields. A path has the same nodes forward and backward; a ring is
a path from a sentinel back to it. -/

namespace MicroNT.Base.Deque

variable {α : Type} {next prev : α → Option α} {a b n p x sen : α} {l r : List α}

/-- Forward from `a` and backward from `b` the links lead through exactly these nodes. -/
def Path (next prev : α → Option α) : α → List α → α → Prop
  | a, [], b => next a = some b ∧ prev b = some a
  | a, x :: l, b => next a = some x ∧ prev x = some a ∧ Path next prev x l b

theorem path_append :
    Path next prev a (l ++ x :: r) b ↔ Path next prev a l x ∧ Path next prev x r b := by
  induction l generalizing a with
  | nil => exact ⟨fun h => ⟨⟨h.1, h.2.1⟩, h.2.2⟩, fun h => ⟨h.1.1, h.1.2, h.2⟩⟩
  | cons y l ih =>
    show _ ∧ _ ∧ Path next prev y (l ++ x :: r) b ↔ (_ ∧ _ ∧ Path next prev y l x) ∧ _
    rw [ih, and_assoc, and_assoc]

/-- Every node but the last has a successor, and every node but the first a predecessor. -/
theorem Path.next_mem (h : Path next prev a l b) (hx : x ∈ a :: l) :
    ∃ n ∈ l ++ [b], next x = some n := by
  induction l generalizing a with
  | nil =>
    obtain rfl : x = a := List.mem_singleton.mp hx
    exact ⟨b, List.mem_singleton_self b, h.1⟩
  | cons y l ih =>
    obtain rfl | hx := List.mem_cons.mp hx
    · exact ⟨y, List.mem_cons_self, h.1⟩
    · obtain ⟨n, hn, e⟩ := ih h.2.2 hx
      exact ⟨n, List.mem_cons_of_mem y hn, e⟩

theorem Path.prev_mem (h : Path next prev a l b) (hx : x ∈ l ++ [b]) :
    ∃ p ∈ a :: l, prev x = some p := by
  induction l generalizing a with
  | nil =>
    obtain rfl : x = b := List.mem_singleton.mp hx
    exact ⟨a, List.mem_cons_self, h.2⟩
  | cons y l ih =>
    obtain rfl | hx := List.mem_cons.mp hx
    · exact ⟨a, List.mem_cons_self, h.2.1⟩
    · obtain ⟨p, hp, e⟩ := ih h.2.2 hx
      exact ⟨p, List.mem_cons_of_mem a hp, e⟩

/-- Only the links between the nodes matter. -/
theorem Path.congr {next' prev' : α → Option α} (h : Path next prev a l b)
    (hn : ∀ x ∈ a :: l, next' x = next x) (hp : ∀ x ∈ l ++ [b], prev' x = prev x) :
    Path next' prev' a l b := by
  induction l generalizing a with
  | nil => exact ⟨(hn a (by simp)).trans h.1, (hp b (by simp)).trans h.2⟩
  | cons y l ih =>
    exact ⟨(hn a (by simp)).trans h.1, (hp y (by simp)).trans h.2.1,
      ih h.2.2 (fun x hx => hn x (List.mem_cons_of_mem a hx))
        fun x hx => hp x (List.mem_cons_of_mem y hx)⟩

variable [DecidableEq α]

/-- **Another end** for a path: its last node and the new end are linked. -/
theorem Path.redirect (h : Path next prev a l b) (last : prev b = some p)
    (nodup : (a :: l).Nodup) (hn : n ∉ l) :
    Path (Function.update next p (some n)) (Function.update prev n (some p)) a l n := by
  induction l generalizing a with
  | nil =>
    obtain rfl : p = a := Option.some.inj (last.symm.trans h.2)
    exact ⟨Function.update_self .., Function.update_self ..⟩
  | cons y l ih =>
    have inside : p ∈ y :: l := by
      obtain ⟨q, hq, e⟩ := h.2.2.prev_mem (x := b) (by simp)
      rwa [Option.some.inj (last.symm.trans e)]
    have first : a ≠ p := fun e => (List.nodup_cons.mp nodup).1 (e ▸ inside)
    have other : y ≠ n := fun e => hn (e ▸ List.mem_cons_self)
    refine ⟨?_, ?_, ih h.2.2 (List.nodup_cons.mp nodup).2 fun m => hn (List.mem_cons_of_mem y m)⟩
    · rw [Function.update_of_ne first]
      exact h.1
    · rw [Function.update_of_ne other]
      exact h.2.1

/-! ## Rings -/

/-- The links from the sentinel back to it spell out this list. -/
structure Ring (next prev : α → Option α) (sen : α) (l : List α) : Prop where
  path : Path next prev sen l sen
  nodup : (sen :: l).Nodup

omit [DecidableEq α] in
theorem Ring.congr {next' prev' : α → Option α} (h : Ring next prev sen l)
    (hn : ∀ x ∈ sen :: l, next' x = next x) (hp : ∀ x ∈ sen :: l, prev' x = prev x) :
    Ring next' prev' sen l :=
  ⟨h.path.congr hn fun x hx => hp x (by simpa [or_comm] using hx), h.nodup⟩

omit [DecidableEq α] in
/-- The sentinel points at itself in an empty ring, and at the first node in another. -/
theorem Ring.first (h : Ring next prev sen l) : next sen = some (l.headD sen) := by
  cases l with
  | nil => exact h.path.1
  | cons y l => exact h.path.1

omit [DecidableEq α] in
theorem Ring.linked (h : Ring next prev sen l) (hx : x ∈ l) : next x ≠ none ∧ prev x ≠ none := by
  obtain ⟨n, -, hn⟩ := h.path.next_mem (List.mem_cons_of_mem sen hx)
  obtain ⟨p, -, hp⟩ := h.path.prev_mem (List.mem_append_left [sen] hx)
  exact ⟨by rw [hn]; exact Option.some_ne_none n, by rw [hp]; exact Option.some_ne_none p⟩

omit [DecidableEq α] in
theorem Path.unique (h : Path next prev a l b) (h' : Path next prev a r b) (hl : b ∉ l) (hr : b ∉ r) :
    l = r := by
  induction l generalizing a r with
  | nil =>
    cases r with
    | nil => rfl
    | cons y r => exact absurd (Option.some.inj (h.1.symm.trans h'.1) ▸ List.mem_cons_self) hr
  | cons x l ih =>
    cases r with
    | nil => exact absurd (Option.some.inj (h'.1.symm.trans h.1) ▸ List.mem_cons_self) hl
    | cons y r =>
      obtain rfl : x = y := Option.some.inj (h.1.symm.trans h'.1)
      rw [ih h.2.2 h'.2.2 (fun m => hl (List.mem_cons_of_mem x m)) fun m =>
        hr (List.mem_cons_of_mem x m)]

omit [DecidableEq α] in
/-- The links of a ring determine its nodes. -/
theorem Ring.unique (h : Ring next prev sen l) (h' : Ring next prev sen r) : l = r :=
  h.path.unique h'.path (List.nodup_cons.mp h.nodup).1 (List.nodup_cons.mp h'.nodup).1

/-- **A node is put in** before the sentinel. -/
theorem Ring.pushBack (h : Ring next prev sen l) (new : x ∉ sen :: l) :
    ∃ z ∈ sen :: l, prev sen = some z ∧
      Ring (Function.update (Function.update next x (some sen)) z (some x))
        (Function.update (Function.update prev x (some z)) sen (some x)) sen (l ++ [x]) := by
  obtain ⟨z, hz, last⟩ := h.path.prev_mem (x := sen) (by simp)
  have other : x ≠ sen := fun e => new (e ▸ List.mem_cons_self)
  have fresh : x ∉ l := fun m => new (List.mem_cons_of_mem sen m)
  have zx : x ≠ z := fun e => new (e ▸ hz)
  have outside : sen ∉ l := (List.nodup_cons.mp h.nodup).1
  refine ⟨z, hz, last, path_append.mpr ⟨?_, ?_, Function.update_self ..⟩, ?_⟩
  · refine (h.path.redirect last h.nodup fresh).congr (fun y hy => ?_) fun y hy => ?_
    · by_cases e : y = z
      · rw [e, Function.update_self, Function.update_self]
      · have hyx : y ≠ x := fun e => new (e ▸ hy)
        rw [Function.update_of_ne e, Function.update_of_ne e, Function.update_of_ne hyx]
    · have ys : y ≠ sen := by
        obtain m | m := List.mem_append.mp hy
        · exact fun e => outside (e ▸ m)
        · exact (List.mem_singleton.mp m) ▸ other
      rw [Function.update_of_ne ys]
  · rw [Function.update_of_ne zx, Function.update_self]
  · rw [← List.cons_append]
    exact List.nodup_append.mpr ⟨h.nodup, List.nodup_singleton x, fun y hy w hw e =>
      new (List.mem_singleton.mp hw ▸ e ▸ hy)⟩

/-- **A node is taken out**, wherever it is. -/
theorem Ring.remove (h : Ring next prev sen (l ++ x :: r)) :
    ∃ p ∈ sen :: l, ∃ n ∈ r ++ [sen], prev x = some p ∧ next x = some n ∧
      Ring (Function.update (Function.update next p (some n)) x none)
        (Function.update (Function.update prev n (some p)) x none) sen (l ++ r) := by
  obtain ⟨before, after⟩ := path_append.mp h.path
  obtain ⟨p, hp, last⟩ := before.prev_mem (x := x) (by simp)
  obtain ⟨n, hn, first⟩ := after.next_mem (x := x) (by simp)
  have split : (sen :: l ++ x :: r).Nodup := h.nodup
  obtain ⟨left, right, apart⟩ := List.nodup_append.mp split
  have xl : ∀ y ∈ sen :: l, y ≠ x := fun y hy => apart y hy x List.mem_cons_self
  have xr : ∀ y ∈ r, y ≠ x := fun y hy e => (List.nodup_cons.mp right).1 (e ▸ hy)
  have yl : ∀ y ∈ r, ∀ z ∈ sen :: l, y ≠ z := fun y hy z hz e =>
    apart z hz y (List.mem_cons_of_mem x hy) e.symm
  refine ⟨p, hp, n, hn, last, first, ?_, ?_⟩
  · cases r with
    | nil =>
      obtain rfl : n = sen := List.mem_singleton.mp hn
      rw [List.append_nil]
      refine (before.redirect last left (List.nodup_cons.mp left).1).congr (fun y hy => ?_)
        fun y hy => ?_
      · rw [Function.update_of_ne (xl y hy)]
      · rw [Function.update_of_ne (xl y (by simpa [or_comm] using hy))]
    | cons y r =>
      obtain rfl : n = y := Option.some.inj (first.symm.trans after.1)
      have nl : n ∉ l := fun m => yl n List.mem_cons_self n (List.mem_cons_of_mem sen m) rfl
      refine path_append.mpr ⟨?_, ?_⟩
      · refine (before.redirect last left nl).congr (fun y hy => ?_) fun y hy => ?_
        · rw [Function.update_of_ne (xl y hy)]
        · have yx : y ≠ x := by
            obtain m | m := List.mem_append.mp hy
            · exact xl y (List.mem_cons_of_mem sen m)
            · exact (List.mem_singleton.mp m) ▸ xr n List.mem_cons_self
          rw [Function.update_of_ne yx]
      · refine after.2.2.congr (fun y hy => ?_) fun y hy => ?_
        · rw [Function.update_of_ne (xr y hy), Function.update_of_ne (yl y hy p hp)]
        · have yn : y ≠ n ∧ y ≠ x := by
            obtain m | m := List.mem_append.mp hy
            · exact ⟨fun e => (List.nodup_cons.mp (List.nodup_cons.mp right).2).1 (e ▸ m),
                xr y (List.mem_cons_of_mem n m)⟩
            · obtain rfl := List.mem_singleton.mp m
              exact ⟨(yl n List.mem_cons_self y List.mem_cons_self).symm, xl y List.mem_cons_self⟩
          rw [Function.update_of_ne yn.2, Function.update_of_ne yn.1]
  · have less : (sen :: l ++ r).Nodup :=
      List.nodup_append.mpr ⟨left, (List.nodup_cons.mp right).2, fun y hy z hz =>
        apart y hy z (List.mem_cons_of_mem x hz)⟩
    exact less

/-- No node of a ring points at itself. -/
theorem Ring.next_ne (h : Ring next prev sen l) (hx : x ∈ l) : next x ≠ some x := by
  obtain ⟨l, r, rfl⟩ := List.append_of_mem hx
  obtain ⟨-, -, n, hn, -, first, -⟩ := h.remove
  have split : (sen :: l ++ x :: r).Nodup := h.nodup
  obtain ⟨-, right, apart⟩ := List.nodup_append.mp split
  intro loop
  obtain rfl : n = x := Option.some.inj (first.symm.trans loop)
  obtain m | m := List.mem_append.mp hn
  · exact (List.nodup_cons.mp right).1 m
  · exact apart sen List.mem_cons_self n List.mem_cons_self (List.mem_singleton.mp m).symm

end MicroNT.Base.Deque
