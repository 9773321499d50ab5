import Mathlib.Data.List.Basic

/-! # Writes to an array of fixed size

A write outside the array has no result. The cells are filled from the front or from the
back, and what has been written is the list of the cells up to there or from there on. -/

namespace MicroNT.Base.Buffer

variable {α : Type} {n i k : Nat} {v w : Vector α n} {x : α}

def put (v : Vector α n) (i : Nat) (x : α) : Option (Vector α n) :=
  if h : i < n then some (v.set i x h) else none

/-- One cell after the other, from cell `i` on. -/
def putAll (v : Vector α n) : Nat → List α → Option (Vector α n)
  | _, [] => some v
  | i, x :: l => (put v i x).bind fun v => putAll v (i + 1) l

def front (v : Vector α n) (k : Nat) : List α := v.toList.take k

def back (v : Vector α n) (k : Nat) : List α := v.toList.drop k

/-- The cells but cell `i` are as they were. -/
structure Put (v w : Vector α n) (i : Nat) (x : α) : Prop where
  front : front w i = front v i
  next : Buffer.front w (i + 1) = Buffer.front v i ++ [x]
  back : back w i = x :: back v (i + 1)
  rest : Buffer.back w (i + 1) = Buffer.back v (i + 1)

theorem put_of_lt (v : Vector α n) (h : i < n) (x : α) : ∃ w, put v i x = some w ∧ Put v w i x := by
  have len : i < v.toList.length := by simpa using h
  have cells : (v.set i x h).toList = v.toList.set i x := Vector.toList_set h
  have taken : (v.toList.set i x).take i = v.toList.take i := List.take_set_of_le (Nat.le_refl i)
  have dropped : (v.toList.set i x).drop (i + 1) = v.toList.drop (i + 1) :=
    List.drop_set_of_lt (Nat.lt_succ_self i)
  have at' : i < (v.toList.set i x).length := by rwa [List.length_set]
  refine ⟨v.set i x h, dif_pos h, ?_, ?_, ?_, ?_⟩
  · rw [front, cells, taken, front]
  · rw [front, cells, List.take_succ_eq_append_getElem at', taken, List.getElem_set_self, front]
  · rw [back, cells, List.drop_eq_getElem_cons at', List.getElem_set_self, dropped, back]
  · rw [back, cells, dropped, back]

/-- The cells in front are as they were. -/
theorem Put.front_of_le (h : Put v w i x) (le : k ≤ i) : Buffer.front w k = Buffer.front v k := by
  have kept := congrArg (List.take k) h.front
  simp only [Buffer.front, List.take_take, Nat.min_eq_left le] at kept
  exact kept

/-- A cell that has been written. -/
theorem getElem_of_front {l : List α} (h : Buffer.front v k = l) (hi : i < l.length) (hn : i < n) :
    v[i] = l[i] := by
  subst h
  simp only [Buffer.front, List.getElem_take, Vector.getElem_toList]

theorem put_of_le (v : Vector α n) (h : n ≤ i) (x : α) : put v i x = none :=
  dif_neg (Nat.not_lt.mpr h)

/-- **Writing a list that fits** puts it behind what is there. -/
theorem putAll_of_le (v : Vector α n) {l : List α} (h : i + l.length ≤ n) :
    ∃ w, putAll v i l = some w ∧ front w (i + l.length) = front v i ++ l ∧
      back w (i + l.length) = back v (i + l.length) := by
  induction l generalizing v i with
  | nil => exact ⟨v, rfl, by simp, rfl⟩
  | cons x l ih =>
    rw [List.length_cons] at h ⊢
    obtain ⟨w, one, wrote⟩ := put_of_lt v (show i < n by omega) x
    obtain ⟨w', all, cells, rest⟩ := ih w (show i + 1 + l.length ≤ n by omega)
    rw [Nat.add_assoc, Nat.add_comm 1] at cells rest
    refine ⟨w', by rw [putAll, one, Option.bind_some, all], ?_, ?_⟩
    · rw [cells, wrote.next, List.append_assoc, List.singleton_append]
    · have same := congrArg (List.drop l.length) wrote.rest
      simp only [back, List.drop_drop] at same rest ⊢
      rw [rest]
      convert same using 2 <;> omega

/-- A list that does not fit has no place. -/
theorem putAll_of_lt (v : Vector α n) {l : List α} (h : n < i + l.length) (hi : i ≤ n) :
    putAll v i l = none := by
  induction l generalizing v i with
  | nil => exact absurd h (by simpa using hi)
  | cons x l ih =>
    rw [List.length_cons] at h
    rw [putAll]
    by_cases room : i < n
    case neg => rw [put_of_le v (by omega), Option.bind_none]
    case pos =>
      obtain ⟨w, one, -⟩ := put_of_lt v room x
      rw [one, Option.bind_some]
      exact ih w (by omega) room

end MicroNT.Base.Buffer
