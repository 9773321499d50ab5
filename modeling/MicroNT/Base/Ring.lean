import Mathlib.Logic.Function.Basic
import Mathlib.Data.List.Basic

/-! # Rings with a free slot

A ring of `n` slots is read at `head` and written at `tail`. It is empty when both are
the same, and so one slot has to stay free: a writer that takes the last one makes a full
ring look empty. -/

namespace MicroNT.Base.Ring

variable {α : Type} {n head tail : Nat} {slots : Nat → α} {x : α}

/-- The slot after slot `i`. -/
def next (n i : Nat) : Nat := if i + 1 < n then i + 1 else 0

/-- How many slots are to be read. -/
def used (n head tail : Nat) : Nat := if head ≤ tail then tail - head else n - head + tail

/-- What is in `k` slots from `head` on. -/
def readFrom (slots : Nat → α) (n : Nat) : Nat → Nat → List α
  | 0, _ => []
  | k + 1, i => slots i :: readFrom slots n k (next n i)

/-- What is in the ring, the oldest first. -/
def contents (slots : Nat → α) (n head tail : Nat) : List α := readFrom slots n (used n head tail) head

theorem next_lt (h : 0 < n) (i : Nat) : next n i < n := by
  rw [next]
  split <;> omega

@[simp] theorem used_self (n i : Nat) : used n i i = 0 := by simp [used]

@[simp] theorem contents_self (slots : Nat → α) (n i : Nat) : contents slots n i i = [] := by
  rw [contents, used_self, readFrom]

/-- One slot fewer behind the first. -/
theorem used_next (hh : head < n) (ht : tail < n) (some : head ≠ tail) :
    used n head tail = used n (next n head) tail + 1 := by
  simp only [used, next]
  split <;> split <;> split <;> omega

/-- **Taking the oldest**: it comes before the rest. -/
theorem contents_cons (hh : head < n) (ht : tail < n) (some : head ≠ tail) :
    contents slots n head tail = slots head :: contents slots n (next n head) tail := by
  rw [contents, used_next hh ht some, readFrom, contents]

theorem used_lt (hh : head < n) (ht : tail < n) : used n head tail < n := by
  rw [used]
  split <;> omega

theorem length_readFrom (slots : Nat → α) (n k i : Nat) : (readFrom slots n k i).length = k := by
  induction k generalizing i with
  | zero => rfl
  | succ k ih => rw [readFrom, List.length_cons, ih]

theorem length_contents (slots : Nat → α) (n head tail : Nat) :
    (contents slots n head tail).length = used n head tail := length_readFrom slots n _ head

/-- Slot `tail` is not read. -/
theorem readFrom_update (hh : head < n) (ht : tail < n) (slots : Nat → α) (x : α) :
    readFrom (Function.update slots tail x) n (used n head tail) head =
      readFrom slots n (used n head tail) head := by
  generalize hk : used n head tail = k
  induction k generalizing head with
  | zero => rfl
  | succ k ih =>
    have some : head ≠ tail := by
      rintro rfl
      rw [used_self] at hk
      exact absurd hk (Nat.zero_ne_add_one k)
    have rest := used_next hh ht some
    rw [readFrom, readFrom, Function.update_of_ne some, ih (next_lt (by omega) head) (by omega)]

/-- **Writing to the free slot** changes nothing that is in the ring. -/
theorem contents_update (hh : head < n) (ht : tail < n) (slots : Nat → α) (x : α) :
    contents (Function.update slots tail x) n head tail = contents slots n head tail :=
  readFrom_update hh ht slots x

/-- **Adding the newest**, while there is room for it. -/
theorem contents_next (hh : head < n) (ht : tail < n) (room : next n tail ≠ head) :
    contents slots n head (next n tail) = contents slots n head tail ++ [slots tail] := by
  generalize hk : used n head tail = k
  induction k generalizing head with
  | zero =>
    have same : head = tail := by
      simp only [used] at hk
      split at hk <;> omega
    subst same
    rw [contents_cons hh (next_lt (by omega) head) (Ne.symm room), contents_self, contents_self,
      List.nil_append]
  | succ k ih =>
    have some : head ≠ tail := by
      rintro rfl
      rw [used_self] at hk
      exact absurd hk (Nat.zero_ne_add_one k)
    have rest := used_next hh ht some
    rw [contents_cons hh (next_lt (by omega) tail) (Ne.symm room), contents_cons hh ht some,
      List.cons_append]
    by_cases end_ : next n tail = next n head
    case neg => rw [ih (next_lt (by omega) head) end_ (by omega)]
    case pos =>
      -- the writer follows the reader, and so they are at the same slot
      refine absurd end_ fun same => some ?_
      simp only [next] at same
      split at same <;> split at same <;> omega

end MicroNT.Base.Ring
