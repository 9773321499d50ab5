import Mathlib.Data.Nat.Digits.Lemmas

/-! # Numerals in a base

The numeral of a number is its digits with the most significant one first, and no zero in
front of them. What a reader of digits makes of it is the number, also behind zeros. -/

namespace MicroNT.Base.Numerals

variable {α : Type} {b n k : Nat} {l : List Nat}

/-- The digits of a number; 0 has one. -/
def numeral (b n : Nat) : List Nat := if n = 0 then [0] else (Nat.digits b n).reverse

/-- The number of a list of digits. -/
def value (b : Nat) (l : List Nat) : Nat := Nat.ofDigits b l.reverse

/-- Digits of the base, of which the first is zero only if there is no other. -/
structure Canonical (b : Nat) (l : List Nat) : Prop where
  digits : ∀ d ∈ l, d < b
  nonempty : l ≠ []
  first : l.head? = some 0 → l = [0]

theorem numeral_zero (b : Nat) : numeral b 0 = [0] := if_pos rfl

theorem numeral_of_ne_zero (h : n ≠ 0) : numeral b n = (Nat.digits b n).reverse := if_neg h

/-- The first round of a loop on the digits is a digit for 0, too. -/
theorem numeral_eq (hb : 1 < b) (n : Nat) :
    numeral b n = (n % b :: Nat.digits b (n / b)).reverse := by
  by_cases zero : n = 0
  case pos => rw [zero, numeral_zero, Nat.zero_mod, Nat.zero_div, Nat.digits_zero,
      List.reverse_singleton]
  case neg => rw [numeral_of_ne_zero zero, Nat.digits_eq_cons_digits_div hb zero]

theorem numeral_canonical (hb : 1 < b) (n : Nat) : Canonical b (numeral b n) := by
  by_cases zero : n = 0
  case pos =>
    rw [zero, numeral_zero]
    exact ⟨fun d hd => by rw [List.mem_singleton.mp hd]; omega, List.cons_ne_nil _ _, fun _ => rfl⟩
  case neg =>
    rw [numeral_of_ne_zero zero]
    refine ⟨fun d hd => Nat.digits_lt_base hb (List.mem_reverse.mp hd), ?_, fun h => ?_⟩
    · rwa [ne_eq, List.reverse_eq_nil_iff, Nat.digits_eq_nil_iff_eq_zero]
    · -- the last of the digits is the leading one
      have some := Nat.digits_ne_nil_iff_ne_zero (b := b).mpr zero
      rw [List.head?_reverse, List.getLast?_eq_getLast_of_ne_nil some] at h
      exact absurd (Option.some.inj h) (Nat.getLast_digit_ne_zero b zero)

theorem value_numeral (b n : Nat) : value b (numeral b n) = n := by
  by_cases zero : n = 0
  case pos => rw [zero, numeral_zero, value, List.reverse_singleton, Nat.ofDigits_singleton]
  case neg => rw [numeral_of_ne_zero zero, value, List.reverse_reverse, Nat.ofDigits_digits]

/-- **The numeral is the only one**: canonical digits are the numeral of their number. -/
theorem Canonical.eq_numeral (hb : 1 < b) (h : Canonical b l) : l = numeral b (value b l) := by
  by_cases zero : l.head? = some 0
  case pos =>
    rw [h.first zero, value, List.reverse_singleton, Nat.ofDigits_singleton, numeral_zero]
  case neg =>
    have back : Nat.digits b (value b l) = l.reverse := by
      refine Nat.digits_ofDigits b hb _ (fun d hd => h.digits d (List.mem_reverse.mp hd)) ?_
      intro some same
      refine zero ?_
      rw [← List.getLast?_reverse, List.getLast?_eq_getLast_of_ne_nil some, same]
    have positive : value b l ≠ 0 := by
      intro none
      rw [none, Nat.digits_zero] at back
      exact h.nonempty (List.reverse_eq_nil_iff.mp back.symm)
    rw [numeral_of_ne_zero positive, back, List.reverse_reverse]

theorem length_numeral_le (hb : 1 < b) (hk : 0 < k) (h : n < b ^ k) :
    (numeral b n).length ≤ k := by
  by_cases zero : n = 0
  case pos => rw [zero, numeral_zero]; exact hk
  case neg =>
    rw [numeral_of_ne_zero zero, List.length_reverse]
    exact (Nat.digits_length_le_iff hb n).mpr h

theorem lt_length_numeral (hb : 1 < b) (h : b ^ k ≤ n) : k < (numeral b n).length := by
  have positive : n ≠ 0 := by
    have := Nat.pow_pos (n := k) (Nat.lt_of_succ_lt hb)
    omega
  rw [numeral_of_ne_zero positive, List.length_reverse]
  exact (Nat.lt_digits_length_iff hb n).mpr h

/-- Zeros in front change nothing. -/
theorem value_zeros (b k : Nat) (l : List Nat) : value b (List.replicate k 0 ++ l) = value b l := by
  rw [value, List.reverse_append, List.reverse_replicate, Nat.ofDigits_append_replicate_zero, value]

/-- The numeral has the quotient's digits in front. -/
theorem numeral_div (hb : 1 < b) (h : b ≤ n) : numeral b n = numeral b (n / b) ++ [n % b] := by
  have positive : n / b ≠ 0 := Nat.div_ne_zero_iff.mpr ⟨by omega, h⟩
  rw [numeral_eq hb n, List.reverse_cons, numeral_of_ne_zero positive]

theorem numeral_of_lt (h : n < b) : numeral b n = [n] := by
  by_cases zero : n = 0
  case pos => rw [zero, numeral_zero]
  case neg => rw [numeral_of_ne_zero zero, Nat.digits_of_lt b n zero h, List.reverse_singleton]

/-- The last `k` digits. -/
def lastDigits (b : Nat) : Nat → Nat → List Nat
  | 0, _ => []
  | k + 1, n => lastDigits b k (n / b) ++ [n % b]

theorem lastDigits_zero (b k : Nat) : lastDigits b k 0 = List.replicate k 0 := by
  induction k with
  | zero => rfl
  | succ k ih => rw [lastDigits, Nat.zero_div, ih, Nat.zero_mod, List.replicate_succ']

/-- **A numeral of fixed length** is the numeral behind zeros. -/
theorem lastDigits_eq (hb : 1 < b) (hk : 0 < k) (h : n < b ^ k) :
    lastDigits b k n = List.replicate (k - (numeral b n).length) 0 ++ numeral b n := by
  induction k generalizing n with
  | zero => exact absurd hk (Nat.lt_irrefl 0)
  | succ k ih =>
    rw [lastDigits]
    by_cases small : n < b
    case pos =>
      rw [Nat.div_eq_of_lt small, lastDigits_zero, Nat.mod_eq_of_lt small, numeral_of_lt small,
        List.length_singleton, Nat.add_sub_cancel]
    case neg =>
      have more : 0 < k := by
        refine Nat.pos_of_ne_zero fun none => small ?_
        rwa [none, Nat.zero_add, Nat.pow_one] at h
      have quotient : n / b < b ^ k := by
        rw [Nat.div_lt_iff_lt_mul (by omega), ← Nat.pow_succ]
        exact h
      rw [ih more quotient, numeral_div hb (Nat.not_lt.mp small), List.length_append,
        List.length_singleton, Nat.add_sub_add_right, List.append_assoc]

/-! ## Texts -/

/-- The number that a text of digits stands for. -/
def parse (read : α → Option Nat) (b : Nat) (t : List α) : Option Nat := (t.mapM read).map (value b)

theorem parse_glyphs {read : α → Option Nat} {glyph : Nat → α}
    (inverse : ∀ d < b, read (glyph d) = some d) (h : ∀ d ∈ l, d < b) :
    parse read b (l.map glyph) = some (value b l) := by
  have all : (l.map glyph).mapM read = some l := by
    induction l with
    | nil => rfl
    | cons d l ih =>
      have rest := ih fun x hx => h x (List.mem_cons_of_mem d hx)
      rw [List.map_cons, List.mapM_cons, inverse d (h d List.mem_cons_self), rest]
      rfl
  rw [parse, all, Option.map_some]

theorem value_lt (hb : 1 < b) (h : ∀ d ∈ l, d < b) : value b l < b ^ l.length := by
  have lt := Nat.ofDigits_lt_base_pow_length hb fun d hd => h d (List.mem_reverse.mp hd)
  rwa [List.length_reverse] at lt

end MicroNT.Base.Numerals
