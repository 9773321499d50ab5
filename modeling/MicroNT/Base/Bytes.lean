import Mathlib.Algebra.Group.Nat.Defs
import Mathlib.Data.List.Basic

/-! # Byte strings

Parts of a byte string, writing one string over a part of another, and numbers in the
order of the least byte first. A string that several others were written over, apart
from one another, holds each of them. -/

namespace MicroNT.Base.Bytes

/-! ## Parts -/

section

variable {α : Type} {b c x : List α} {off o n m i : Nat}

/-- The `n` elements from `off` on. -/
def slice (b : List α) (off n : Nat) : List α := (b.drop off).take n

/-- `x` written over `b` from `off` on, or added to its end if `off` lies behind it. -/
def put (b : List α) (off : Nat) (x : List α) : List α :=
  b.take off ++ x ++ b.drop (off + x.length)

theorem length_slice (h : off + n ≤ b.length) : (slice b off n).length = n := by
  rw [slice, List.length_take, List.length_drop]
  omega

@[simp] theorem slice_zero : slice b off 0 = [] := List.take_zero

theorem slice_add (m n : Nat) : slice b off (m + n) = slice b off m ++ slice b (off + m) n := by
  rw [slice, List.take_add, List.drop_drop, slice, slice]

theorem slice_slice (h : i + m ≤ n) : slice (slice b off n) i m = slice b (off + i) m := by
  rw [slice, slice, List.drop_take, List.take_take, List.drop_drop, slice]
  congr 1
  omega

theorem take_slice (h : m ≤ n) : (slice b off n).take m = slice b off m := by
  rw [slice, List.take_take, Nat.min_eq_left h, slice]

theorem slice_append (h : off + n ≤ b.length) : slice (b ++ c) off n = slice b off n := by
  rw [slice, List.drop_append_of_le_length (by omega), slice]
  refine List.take_append_of_le_length ?_
  rw [List.length_drop]
  omega

theorem slice_replicate {a : α} (h : off + m ≤ n) :
    slice (List.replicate n a) off m = List.replicate m a := by
  rw [slice, List.drop_replicate, List.take_replicate, Nat.min_eq_left (by omega)]

theorem length_put (h : off + x.length ≤ b.length) : (put b off x).length = b.length := by
  rw [put, List.length_append, List.length_append, List.length_take, List.length_drop]
  omega

/-- What was written is there. -/
theorem slice_put (h : off ≤ b.length) : slice (put b off x) off x.length = x := by
  have before : (b.take off).length = off := by rw [List.length_take, Nat.min_eq_left h]
  have rest : (put b off x).drop off = x ++ b.drop (off + x.length) := by
    rw [put, List.append_assoc]
    exact List.drop_left' before
  rw [slice, rest, List.take_left]

/-- A part that lies apart from it is as it was. -/
theorem slice_put_of_apart (h : off + x.length ≤ b.length)
    (apart : o + n ≤ off ∨ off + x.length ≤ o) : slice (put b off x) o n = slice b o n := by
  have before : (b.take off).length = off := by rw [List.length_take]; omega
  rcases apart with below | above
  · rw [put, List.append_assoc, slice_append (by omega), slice, slice, List.drop_take, List.take_take]
    congr 1
    omega
  · obtain ⟨d, rfl⟩ := Nat.exists_eq_add_of_le above
    have whole : (b.take off ++ x).length = off + x.length := by rw [List.length_append, before]
    have rest : (put b off x).drop (off + x.length) = b.drop (off + x.length) :=
      List.drop_left' whole
    rw [slice, slice, ← List.drop_drop, rest, List.drop_drop]

/-- The later write counts. -/
theorem put_put {y : List α} (same : x.length = y.length) (h : off ≤ b.length) :
    put (put b off x) off y = put b off y := by
  have before : (b.take off).length = off := by rw [List.length_take, Nat.min_eq_left h]
  have first : (put b off x).take off = b.take off := by
    rw [put, List.append_assoc]
    exact List.take_left' before
  have rest : (put b off x).drop (off + y.length) = b.drop (off + y.length) := by
    rw [put, same]
    refine List.drop_left' ?_
    rw [List.length_append, before, same]
  rw [put, first, rest, ← put]

/-- A part written where it is changes nothing. -/
theorem put_slice (h : off + n ≤ b.length) : put b off (slice b off n) = b := by
  rw [put, length_slice h, List.append_assoc, slice, ← List.drop_drop, List.take_append_drop,
    List.take_append_drop]

theorem slice_occurs : slice b off n <:+: b := by
  refine ⟨b.take off, (b.drop off).drop n, ?_⟩
  rw [slice, List.append_assoc, List.take_append_drop, List.take_append_drop]

end

/-! ## Several writes -/

section

variable {α : Type} {b : List α} {ws : List (Nat × List α)} {w : Nat × List α} {o n : Nat}

/-- The writes `ws` one after the other. -/
def putAll (b : List α) (ws : List (Nat × List α)) : List α :=
  ws.foldl (fun b w => put b w.1 w.2) b

/-- Where the writes go: the first place and the length of each. -/
def spans (ws : List (Nat × List α)) : List (Nat × Nat) := ws.map fun w => (w.1, w.2.length)

/-- Two spans have no place in common, as the one ends before the other starts. -/
def Apart (s t : Nat × Nat) : Prop := s.1 + s.2 ≤ t.1 ∨ t.1 + t.2 ≤ s.1

instance (s t : Nat × Nat) : Decidable (Apart s t) := inferInstanceAs (Decidable (_ ∨ _))

/-- Spans apart from one another, in the first `n` places. -/
def Laid (n : Nat) (l : List (Nat × Nat)) : Prop :=
  l.Pairwise Apart ∧ ∀ s ∈ l, s.1 + s.2 ≤ n

instance (n : Nat) (l : List (Nat × Nat)) : Decidable (Laid n l) :=
  inferInstanceAs (Decidable (_ ∧ _))

/-- Spans one behind the other, from `a` on and below `n`. -/
def Rising (n : Nat) : Nat → List (Nat × Nat) → Prop
  | a, [] => a ≤ n
  | a, s :: l => a ≤ s.1 ∧ Rising n (s.1 + s.2) l

instance Rising.decidable (n : Nat) : ∀ a l, Decidable (Rising n a l)
  | a, [] => inferInstanceAs (Decidable (a ≤ n))
  | a, s :: l => @instDecidableAnd _ _ (inferInstanceAs (Decidable (a ≤ s.1)))
    (Rising.decidable n (s.1 + s.2) l)

theorem Rising.above {a : Nat} {l : List (Nat × Nat)} (h : Rising n a l) : a ≤ n ∧ ∀ s ∈ l, a ≤ s.1 := by
  induction l generalizing a with
  | nil => exact ⟨h, fun s hs => by cases hs⟩
  | cons s l ih =>
    obtain ⟨le, rest⟩ := ih h.2
    have first := h.1
    refine ⟨by omega, fun t ht => ?_⟩
    rcases List.mem_cons.mp ht with rfl | later
    · exact first
    · have := rest t later
      omega

theorem Laid.cons {s : Nat × Nat} {l : List (Nat × Nat)} (h : Laid n l) (inside : s.1 + s.2 ≤ n)
    (apart : ∀ t ∈ l, Apart s t) : Laid n (s :: l) := by
  refine ⟨List.pairwise_cons.mpr ⟨apart, h.1⟩, fun t ht => ?_⟩
  rcases List.mem_cons.mp ht with rfl | later
  · exact inside
  · exact h.2 t later

theorem Rising.weaken {a c : Nat} {l : List (Nat × Nat)} (h : Rising n a l) (le : c ≤ a) :
    Rising n c l := by
  cases l with
  | nil => exact Nat.le_trans le h
  | cons s l => exact ⟨Nat.le_trans le h.1, h.2⟩

/-- Such spans are apart. -/
theorem Rising.laid {a : Nat} {l : List (Nat × Nat)} (h : Rising n a l) : Laid n l := by
  induction l generalizing a with
  | nil => exact ⟨List.Pairwise.nil, fun s hs => by cases hs⟩
  | cons s l ih =>
    obtain ⟨apart, inside⟩ := ih h.2
    refine ⟨List.pairwise_cons.mpr ⟨fun t ht => .inl (h.2.above.2 t ht), apart⟩, fun t ht => ?_⟩
    rcases List.mem_cons.mp ht with rfl | later
    · exact h.2.above.1
    · exact inside t later

@[simp] theorem putAll_nil : putAll b [] = b := rfl

@[simp] theorem putAll_cons : putAll b (w :: ws) = putAll (put b w.1 w.2) ws := rfl

theorem putAll_append (vs : List (Nat × List α)) :
    putAll b (ws ++ vs) = putAll (putAll b ws) vs := List.foldl_append

theorem Laid.tail (h : Laid b.length (spans (w :: ws))) :
    w.1 + w.2.length ≤ b.length ∧ Laid (put b w.1 w.2).length (spans ws) := by
  have fits : w.1 + w.2.length ≤ b.length := h.2 _ List.mem_cons_self
  refine ⟨fits, (List.pairwise_cons.mp h.1).2, fun s hs => ?_⟩
  rw [length_put fits]
  exact h.2 s (List.mem_cons_of_mem _ hs)

theorem length_putAll (h : Laid b.length (spans ws)) : (putAll b ws).length = b.length := by
  induction ws generalizing b with
  | nil => rfl
  | cons w ws ih =>
    obtain ⟨fits, rest⟩ := h.tail
    rw [putAll_cons, ih rest, length_put fits]

/-- A part apart from all writes is as it was. -/
theorem slice_putAll_of_apart (h : Laid b.length (spans ws))
    (apart : ∀ s ∈ spans ws, Apart (o, n) s) : slice (putAll b ws) o n = slice b o n := by
  induction ws generalizing b with
  | nil => rfl
  | cons w ws ih =>
    obtain ⟨fits, rest⟩ := h.tail
    rw [putAll_cons, ih rest fun s hs => apart s (List.mem_cons_of_mem _ hs)]
    exact slice_put_of_apart fits (apart _ List.mem_cons_self)

/-- **Each write is there** after all of them. -/
theorem slice_putAll (h : Laid b.length (spans ws)) (hw : w ∈ ws) :
    slice (putAll b ws) w.1 w.2.length = w.2 := by
  induction ws generalizing b with
  | nil => cases hw
  | cons v ws ih =>
    obtain ⟨fits, rest⟩ := h.tail
    rw [putAll_cons]
    rcases List.mem_cons.mp hw with rfl | later
    · rw [slice_putAll_of_apart rest (List.pairwise_cons.mp h.1).1]
      exact slice_put (by omega)
    · exact ih rest later

end

/-! ## Numbers -/

abbrev Byte := BitVec 8

variable {b : List Byte} {off w v n m : Nat}

/-- `n` zero bytes. -/
def zeros (n : Nat) : List Byte := List.replicate n 0#8

@[simp] theorem length_zeros : (zeros n).length = n := List.length_replicate

/-- The `w` low bytes of `v`, the least first. -/
def leBytes : Nat → Nat → List Byte
  | 0, _ => []
  | w + 1, v => BitVec.ofNat 8 v :: leBytes w (v / 256)

/-- The number with these bytes, the least first. -/
def leNat : List Byte → Nat
  | [] => 0
  | a :: rest => a.toNat + 256 * leNat rest

@[simp] theorem length_leBytes : (leBytes w v).length = w := by
  induction w generalizing v with
  | zero => rfl
  | succ w ih => rw [leBytes, List.length_cons, ih]

theorem leNat_leBytes : leNat (leBytes w v) = v % 256 ^ w := by
  induction w generalizing v with
  | zero => rw [leBytes, leNat, Nat.pow_zero, Nat.mod_one]
  | succ w ih =>
    have power : 256 ^ (w + 1) = 256 * 256 ^ w := Nat.pow_succ'
    rw [leBytes, leNat, ih, BitVec.toNat_ofNat, power, Nat.mod_mul]

theorem leNat_zeros : leNat (zeros n) = 0 := by
  induction n with
  | zero => rfl
  | succ n ih =>
    rw [zeros, List.replicate_succ, leNat]
    change 0 + 256 * leNat (zeros n) = 0
    rw [ih]

/-- `v` in `w` bytes, if that many hold it. -/
def pack (w v : Nat) : Option (List Byte) := if v < 256 ^ w then some (leBytes w v) else none

theorem pack_of_lt (h : v < 256 ^ w) : pack w v = some (leBytes w v) := if_pos h

theorem pack_of_le (h : 256 ^ w ≤ v) : pack w v = none := if_neg (Nat.not_lt.mpr h)

theorem pack_eq_some {x : List Byte} (h : pack w v = some x) :
    v < 256 ^ w ∧ x = leBytes w v := by
  unfold pack at h
  split at h
  case isTrue fits => exact ⟨fits, (Option.some.inj h).symm⟩
  case isFalse => cases h

/-- The number in the `w` bytes from `off` on. -/
def field (b : List Byte) (off w : Nat) : Nat := leNat (slice b off w)

theorem field_slice (h : off + w ≤ n) : field (slice b m n) off w = field b (m + off) w := by
  rw [field, slice_slice h, field]

theorem field_put (h : off + w ≤ b.length) (fits : v < 256 ^ w) :
    field (put b off (leBytes w v)) off w = v := by
  have there : slice (put b off (leBytes w v)) off (leBytes w v).length = leBytes w v :=
    slice_put (by omega)
  rw [length_leBytes] at there
  rw [field, there, leNat_leBytes, Nat.mod_eq_of_lt fits]

theorem field_put_of_apart {o k : Nat} (h : off + w ≤ b.length) (apart : o + k ≤ off ∨ off + w ≤ o) :
    field (put b off (leBytes w v)) o k = field b o k := by
  rw [field, slice_put_of_apart (by rwa [length_leBytes]) (by rwa [length_leBytes]), field]

/-- A number among the writes is read back. -/
theorem field_putAll {ws : List (Nat × List Byte)} (h : Laid b.length (spans ws))
    (hw : (off, leBytes w v) ∈ ws) (fits : v < 256 ^ w) : field (putAll b ws) off w = v := by
  have there := slice_putAll h hw
  rw [length_leBytes] at there
  rw [field, there, leNat_leBytes, Nat.mod_eq_of_lt fits]

/-- Where nothing was written over zeros the number is 0. -/
theorem field_putAll_zeros {ws : List (Nat × List Byte)} (h : Laid n (spans ws))
    (inside : off + w ≤ n) (apart : ∀ s ∈ spans ws, Apart (off, w) s) :
    field (putAll (zeros n) ws) off w = 0 := by
  have laid : Laid (zeros n).length (spans ws) := by rwa [length_zeros]
  rw [field, slice_putAll_of_apart laid apart, zeros, slice_replicate inside]
  exact leNat_zeros

/-! ## Numbers with the greatest byte first -/

/-- The `w` low bytes of `v`, the greatest first. -/
def beBytes (w v : Nat) : List Byte := (leBytes w v).reverse

def packBe (w v : Nat) : Option (List Byte) := if v < 256 ^ w then some (beBytes w v) else none

/-- The number in the `w` bytes from `off` on, the greatest first. -/
def beField (b : List Byte) (off w : Nat) : Nat := leNat (slice b off w).reverse

@[simp] theorem length_beBytes : (beBytes w v).length = w := by
  rw [beBytes, List.length_reverse, length_leBytes]

theorem packBe_of_lt (h : v < 256 ^ w) : packBe w v = some (beBytes w v) := if_pos h

theorem packBe_eq_some {x : List Byte} (h : packBe w v = some x) :
    v < 256 ^ w ∧ x = beBytes w v := by
  unfold packBe at h
  split at h
  case isTrue fits => exact ⟨fits, (Option.some.inj h).symm⟩
  case isFalse => cases h

theorem beField_of_slice (there : slice b off w = beBytes w v) (fits : v < 256 ^ w) :
    beField b off w = v := by
  rw [beField, there, beBytes, List.reverse_reverse, leNat_leBytes, Nat.mod_eq_of_lt fits]

theorem beField_putAll {ws : List (Nat × List Byte)} (h : Laid b.length (spans ws))
    (hw : (off, beBytes w v) ∈ ws) (fits : v < 256 ^ w) : beField (putAll b ws) off w = v := by
  have there := slice_putAll h hw
  rw [length_beBytes] at there
  exact beField_of_slice there fits

/-! ## Texts -/

def ascii (text : String) : List Byte := text.toList.map fun c => BitVec.ofNat 8 c.toNat

/-- `b` filled up with spaces to `n` bytes. -/
def ljust (n : Nat) (b : List Byte) : List Byte := b ++ List.replicate (n - b.length) 0x20#8

theorem length_ljust (h : b.length ≤ n) : (ljust n b).length = n := by
  rw [ljust, List.length_append, List.length_replicate]
  omega

theorem length_ljust_take : ((ljust n b).take n).length = n := by
  rw [ljust, List.length_take, List.length_append, List.length_replicate]
  omega

end MicroNT.Base.Bytes
