import Mathlib.Data.List.TakeWhile
import MicroNT.Base.Bytes

/-! # Decimal numerals

The numeral of a number as ASCII digits, and the value of a string of digits. A text is
read up to its first byte that is not a digit. -/

namespace MicroNT.Base.Decimal

open Base.Bytes

def IsDigit (b : Byte) : Prop := 0x30 ≤ b.toNat ∧ b.toNat ≤ 0x39

instance : DecidablePred IsDigit := fun _ => inferInstanceAs (Decidable (_ ∧ _))

/-- The value of a string of digits that stand behind a number. -/
def valueFrom (v : Nat) (l : List Byte) : Nat := l.foldl (fun v b => 10 * v + (b.toNat - 0x30)) v

def value (l : List Byte) : Nat := valueFrom 0 l

/-- The digits that a text begins with. -/
def digits (l : List Byte) : List Byte := l.takeWhile fun b => IsDigit b

def decimal (n : Nat) : List Byte := ascii n.repr

variable {b : Byte} {l : List Byte} {n v : Nat}

@[simp] theorem valueFrom_nil : valueFrom v [] = v := rfl

@[simp] theorem valueFrom_cons :
    valueFrom v (b :: l) = valueFrom (10 * v + (b.toNat - 0x30)) l := by
  rw [valueFrom, List.foldl_cons, valueFrom]

theorem digits_cons_of_isDigit (h : IsDigit b) : digits (b :: l) = b :: digits l :=
  List.takeWhile_cons_of_pos (decide_eq_true h)

theorem digits_cons_of_not (h : ¬ IsDigit b) : digits (b :: l) = [] :=
  List.takeWhile_cons_of_neg fun yes => h (of_decide_eq_true yes)

theorem decimal_eq (n : Nat) :
    decimal n = (Nat.toDigits 10 n).map fun c => BitVec.ofNat 8 c.toNat := by
  rw [decimal, ascii, Nat.repr_eq_ofList_toDigits, String.toList_ofList]

theorem toNat_digit {c : Char} (h : c.isDigit = true) :
    0x30 ≤ c.toNat ∧ c.toNat ≤ 0x39 ∧ (BitVec.ofNat 8 c.toNat).toNat = c.toNat := by
  simp only [Char.isDigit, Bool.and_eq_true, decide_eq_true_eq] at h
  have low : 0x30 ≤ c.toNat := h.1
  have high : c.toNat ≤ 0x39 := h.2
  refine ⟨low, high, ?_⟩
  rw [BitVec.toNat_ofNat, Nat.mod_eq_of_lt (by omega)]

/-- A numeral is digits throughout. -/
theorem digits_decimal (n : Nat) : digits (decimal n) = decimal n := by
  refine List.takeWhile_eq_self_iff.mpr fun b hb => decide_eq_true ?_
  rw [decimal_eq] at hb
  obtain ⟨c, hc, rfl⟩ := List.mem_map.mp hb
  obtain ⟨low, high, same⟩ := toNat_digit (Nat.isDigit_of_mem_toDigits (by decide) (by decide) hc)
  rw [IsDigit, same]
  exact ⟨low, high⟩

theorem valueFrom_map {cs : List Char} (h : ∀ c ∈ cs, c.isDigit = true) (v : Nat) :
    valueFrom v (cs.map fun c => BitVec.ofNat 8 c.toNat) = Nat.ofDigitChars 10 cs v := by
  induction cs generalizing v with
  | nil => rw [List.map_nil, valueFrom_nil, Nat.ofDigitChars_nil]
  | cons c cs ih =>
    have same := (toNat_digit (h c List.mem_cons_self)).2.2
    rw [List.map_cons, valueFrom_cons, same, Nat.ofDigitChars_cons,
      ih fun d hd => h d (List.mem_cons_of_mem c hd)]
    rfl

/-- **The value of a numeral** is its number. -/
theorem value_decimal (n : Nat) : value (decimal n) = n := by
  rw [value, decimal_eq, valueFrom_map fun c hc =>
    Nat.isDigit_of_mem_toDigits (by decide) (by decide) hc]
  exact Nat.ofDigitChars_ten_toDigits

end MicroNT.Base.Decimal
