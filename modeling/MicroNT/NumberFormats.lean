import MicroNT.Base.Buffer
import MicroNT.Base.Bytes
import MicroNT.Base.Numerals
import MicroNT.Ntdef

/-! # Numbers as text (`debug.cpp`, `bootloader.cpp`, `vga.cpp`)

The kernel's log, the bootloader and the text console each print numbers in their own way.
All of them take the digits from the least significant one on and keep them in a local array,
whose contents before are arbitrary. A write outside the array gives no text. -/

namespace MicroNT

open Base.Buffer Base.Numerals

abbrev i64 := BitVec 64

/-- A digit's character is `'0'` and on, as the code adds it. -/
def decimalDigit (d : u64) : u8 := 0x30#8 + d.setWidth 8

/-- `while (val) { buf[idx++] = digit(val % base); val /= base; }`. A 64-bit value is zero after
`rounds` of them unless the base is too small. -/
def digitLoop {n : Nat} (digit : u64 → u8) (base : u64) :
    Nat → u64 → Vector u8 n → Nat → Option (Vector u8 n × Nat)
  | 0, _, _, _ => none
  | rounds + 1, val, buf, idx =>
    if val = 0 then some (buf, idx)
    else do
      let buf ← put buf idx (digit (val % base))
      digitLoop digit base rounds (val / base) buf (idx + 1)

/-- The text of a zero-terminated array. -/
def cString {n : Nat} (buf : Vector u8 n) : List u8 := buf.toList.takeWhile (· != 0#8)

namespace Debug

open Base.Bytes (ascii)

def digitsLo : List u8 := ascii "0123456789abcdef"

def digitsHi : List u8 := ascii "0123456789ABCDEF"

def digitOf (upper : Bool) (d : Nat) : u8 := (if upper then digitsHi else digitsLo).getD d 0

/-- The digits of `print_u64`, and how many there are. -/
def digitCells (buf : Vector u8 64) (val base : u64) (upper : Bool) :
    Option (Vector u8 64 × Nat) :=
  if val = 0 then (put buf 0 0x30#8).map fun buf => (buf, 1)
  else digitLoop (fun d => digitOf upper d.toNat) base 65 val buf 0

/-- `print_u64`: what it emits. -/
def printU64 (buf : Vector u8 64) (val base : u64) (upper : Bool) (width : Int) (pad : u8) :
    Option (List u8) := do
  let (buf, idx) ← digitCells buf val base upper
  let padding := (width - idx).toNat
  let buf ← putAll buf idx (List.replicate padding pad)
  some (front buf (idx + padding)).reverse

/-- `print_i64`: the smallest value is its own negation, and the cast makes it positive. -/
def printI64 (buf : Vector u8 64) (val : i64) (width : Int) (pad : u8) : Option (List u8) :=
  if val.slt 0 then (printU64 buf (-val) 10 false width pad).map fun text => 0x2D#8 :: text
  else printU64 buf val 10 false width pad

end Debug

namespace Boot

/-- The digits of `PrintHex64`, of which the last is written first. -/
def hexLoop : Nat → u64 → Vector u8 19 → Option (Vector u8 19)
  | 0, _, buf => some buf
  | k + 1, val, buf => do
    let n := val &&& 0xF#64
    let buf ← put buf (k + 2) (if n < 10#64 then 0x30#8 + n.setWidth 8
      else 0x41#8 + n.setWidth 8 - 10#8)
    hexLoop k (val >>> 4) buf

/-- `PrintHex64`: what it hands to `Print`. -/
def printHex64 (buf : Vector u8 19) (val : u64) : Option (List u8) := do
  let buf ← put buf 0 0x30#8
  let buf ← put buf 1 0x78#8
  let buf ← put buf 18 0#8
  let buf ← hexLoop 16 val buf
  some (cString buf)

/-- `while (val) { buf[--idx] = '0' + (val % 10); val /= 10; }`. -/
def decLoop : Nat → u64 → Vector u8 21 → Nat → Option (Vector u8 21 × Nat)
  | 0, _, _, _ => none
  | rounds + 1, val, buf, idx =>
    if val = 0 then some (buf, idx)
    else if idx = 0 then none
    else do
      let buf ← put buf (idx - 1) (decimalDigit (val % 10#64))
      decLoop rounds (val / 10#64) buf (idx - 1)

/-- The digits of `PrintDec`, and where they begin. -/
def decCells (buf : Vector u8 21) (val : u64) : Option (Vector u8 21 × Nat) :=
  if val = 0 then (put buf 19 0x30#8).map fun buf => (buf, 19) else decLoop 65 val buf 20

/-- `PrintDec`: what it hands to `Print`. -/
def printDec (buf : Vector u8 21) (val : u64) : Option (List u8) := do
  let buf ← put buf 20 0#8
  let (buf, idx) ← decCells buf val
  some ((back buf idx).takeWhile (· != 0#8))

end Boot

namespace VGA

/-- The digits of `FmtU64`, and how many there are: the first round is made for 0, too. -/
def fmtCells (tmp : Vector u8 20) (v : u64) : Option (Vector u8 20 × Nat) := do
  let tmp ← put tmp 0 (decimalDigit (v % 10#64))
  digitLoop decimalDigit 10#64 65 (v / 10#64) tmp 1

/-- `FmtU64`: the text is written to `buf`, and a zero behind it. -/
def fmtU64 {n : Nat} (tmp : Vector u8 20) (buf : Vector u8 n) (v : u64) (width : Nat) (pad : u8) :
    Option (Vector u8 n) := do
  let (tmp, k) ← fmtCells tmp v
  let total := if k > width then k else width
  putAll buf 0 (List.replicate (total - k) pad ++ (front tmp k).reverse ++ [0#8])

end VGA

/-! ## What a reader makes of them -/

/-- The number of a digit in either case. -/
def digitValue (c : u8) : Option Nat :=
  if 0x30 ≤ c ∧ c ≤ 0x39 then some (c.toNat - 0x30)
  else if 0x41 ≤ c ∧ c ≤ 0x46 then some (c.toNat - 0x37)
  else if 0x61 ≤ c ∧ c ≤ 0x66 then some (c.toNat - 0x57)
  else none

theorem digitValue_digitOf (upper : Bool) :
    ∀ d < 16, digitValue (Debug.digitOf upper d) = some d := by
  cases upper <;> decide

theorem digitOf_ne_zero (upper : Bool) : ∀ d < 16, Debug.digitOf upper d ≠ 0#8 := by
  cases upper <;> decide

/-- The numeral of a number as text. -/
def numeralText (upper : Bool) (b n : Nat) : List u8 := (numeral b n).map (Debug.digitOf upper)

section

variable {b n : Nat}

/-- **A numeral is read back**, also behind zeros. -/
theorem parse_numeralText (upper : Bool) (hb : 1 < b) (small : b ≤ 16) (n : Nat) :
    parse digitValue b (numeralText upper b n) = some n := by
  rw [numeralText, parse_glyphs (fun d hd => digitValue_digitOf upper d (by omega))
    (numeral_canonical hb n).digits, value_numeral]

/-- **A text is a numeral** if its characters stand for canonical digits, and a reader gets the
number from them. -/
structure IsNumeral (upper : Bool) (b n : Nat) (t : List u8) : Prop where
  canonical : ∃ l, Canonical b l ∧ t = l.map (Debug.digitOf upper)
  reads : parse digitValue b t = some n

/-- There is one numeral of a number. -/
theorem isNumeral_iff {upper : Bool} (hb : 1 < b) (small : b ≤ 16) {t : List u8} :
    IsNumeral upper b n t ↔ t = numeralText upper b n := by
  constructor
  case mp =>
    rintro ⟨⟨l, canonical, rfl⟩, reads⟩
    rw [parse_glyphs (fun d hd => digitValue_digitOf upper d (by omega)) canonical.digits] at reads
    rw [numeralText, ← Option.some.inj reads, ← canonical.eq_numeral hb]
  case mpr =>
    rintro rfl
    exact ⟨⟨_, numeral_canonical hb n, rfl⟩, parse_numeralText upper hb small n⟩

/-- The text does not end before its zero. -/
theorem numeralText_nonzero (upper : Bool) (hb : 1 < b) (small : b ≤ 16) (n : Nat) :
    ∀ c ∈ numeralText upper b n, (c != 0#8) = true := by
  intro c hc
  obtain ⟨d, hd, rfl⟩ := List.mem_map.mp hc
  have lt := (numeral_canonical hb n).digits d hd
  exact bne_iff_ne.mpr (digitOf_ne_zero upper d (by omega))

theorem parse_zeros (upper : Bool) (hb : 1 < b) (small : b ≤ 16) (n k : Nat) :
    parse digitValue b (List.replicate k 0x30#8 ++ numeralText upper b n) = some n := by
  have zeros : List.replicate k 0x30#8 ++ numeralText upper b n =
      (List.replicate k 0 ++ numeral b n).map (Debug.digitOf upper) := by
    rw [List.map_append, List.map_replicate, numeralText]
    cases upper <;> rfl
  rw [zeros, parse_glyphs (fun d hd => digitValue_digitOf upper d (by omega)), value_zeros,
    value_numeral]
  intro d hd
  obtain hd | hd := List.mem_append.mp hd
  · rw [List.eq_of_mem_replicate hd]
    omega
  · exact (numeral_canonical hb n).digits d hd

end

/-! ## The loops -/

section

variable {n : Nat} {base : u64}

/-- What the loop adds to the array. -/
theorem digitLoop_spec (digit : u64 → u8) (hb : 1 < base.toNat) (rounds : Nat) (val : u64)
    (buf : Vector u8 n) (idx : Nat)
    (enough : (Nat.digits base.toNat val.toNat).length < rounds)
    (room : idx + (Nat.digits base.toNat val.toNat).length ≤ n) :
    ∃ w, digitLoop digit base rounds val buf idx =
        some (w, idx + (Nat.digits base.toNat val.toNat).length) ∧
      front w (idx + (Nat.digits base.toNat val.toNat).length) = front buf idx ++
        (Nat.digits base.toNat val.toNat).map fun d => digit (BitVec.ofNat 64 d) := by
  induction rounds generalizing val buf idx with
  | zero => exact absurd enough (Nat.not_lt_zero _)
  | succ rounds ih =>
    rw [digitLoop]
    by_cases zero : val = 0
    case pos =>
      rw [if_pos zero, zero, BitVec.ofNat_eq_ofNat, BitVec.toNat_ofNat, Nat.zero_mod,
        Nat.digits_zero]
      exact ⟨buf, rfl, by simp⟩
    case neg =>
      have positive : val.toNat ≠ 0 := fun h => zero (BitVec.eq_of_toNat_eq h)
      have split := Nat.digits_eq_cons_digits_div hb positive
      rw [split, List.length_cons, ← BitVec.toNat_udiv] at enough room ⊢
      obtain ⟨u, one, wrote⟩ := put_of_lt buf (show idx < n by omega) (digit (val % base))
      obtain ⟨w, all, cells⟩ := ih (val / base) u (idx + 1) (by omega) (by omega)
      rw [Nat.add_assoc, Nat.add_comm 1] at all cells
      refine ⟨w, by rw [if_neg zero, one, Option.bind_eq_bind, Option.bind_some, all], ?_⟩
      rw [cells, wrote.next, List.map_cons, List.append_assoc, List.singleton_append,
        ← BitVec.toNat_umod, BitVec.ofNat_toNat, BitVec.setWidth_eq]

/-- A 64-bit value has at most 20 digits. -/
theorem length_digits {b : Nat} (hb : 10 ≤ b) (val : u64) :
    (Nat.digits b val.toNat).length ≤ 20 := by
  refine (Nat.digits_length_le_iff (by omega) _).mpr ?_
  exact lt_of_lt_of_le (val.isLt.trans (by decide)) (Nat.pow_le_pow_left hb 20)

theorem length_numeralText (upper : Bool) {b : Nat} (hb : 10 ≤ b) (val : u64) :
    (numeralText upper b val.toNat).length ≤ 20 := by
  rw [numeralText, List.length_map]
  refine length_numeral_le (by omega) (by decide) ?_
  exact lt_of_lt_of_le (val.isLt.trans (by decide)) (Nat.pow_le_pow_left hb 20)

/-- The digits of the loop, the other way round, are the numeral. -/
theorem numeralText_reverse {upper : Bool} {b : Nat} (hb : 1 < b) {glyph : Nat → u8}
    (same : ∀ d < b, glyph d = Debug.digitOf upper d) {val : u64} (positive : val ≠ 0) :
    ((Nat.digits b val.toNat).map glyph).reverse = numeralText upper b val.toNat := by
  have nonzero : val.toNat ≠ 0 := fun h => positive (BitVec.eq_of_toNat_eq h)
  rw [numeralText, numeral_of_ne_zero nonzero, ← List.map_reverse]
  exact List.map_congr_left fun d hd => same d (Nat.digits_lt_base hb (List.mem_reverse.mp hd))

theorem decimalDigit_eq : ∀ d < 10, decimalDigit (BitVec.ofNat 64 d) = Debug.digitOf false d := by
  decide

end

theorem cString_of_front {n : Nat} {v : Vector u8 n} {t : List u8}
    (h : front v (t.length + 1) = t ++ [0#8]) (nonzero : ∀ c ∈ t, (c != 0#8) = true) :
    cString v = t := by
  have whole : v.toList = front v (t.length + 1) ++ back v (t.length + 1) :=
    (List.take_append_drop _ _).symm
  rw [cString, whole, h, List.append_assoc, List.takeWhile_append_of_pos nonzero,
    List.singleton_append, List.takeWhile_cons_of_neg (by decide), List.append_nil]

/-! ## The log -/

namespace Debug

/-- The digits are in the array, the last one first. -/
theorem digitCells_spec (buf : Vector u8 64) (val : u64) {base : u64} (large : 10 ≤ base.toNat)
    (upper : Bool) :
    ∃ w, digitCells buf val base upper =
        some (w, (numeralText upper base.toNat val.toNat).length) ∧
      front w (numeralText upper base.toNat val.toNat).length =
        (numeralText upper base.toNat val.toNat).reverse := by
  rw [digitCells]
  by_cases zero : val = 0
  case pos =>
    obtain ⟨w, one, wrote⟩ := put_of_lt buf (show 0 < 64 by decide) 0x30#8
    have text : numeralText upper base.toNat val.toNat = [0x30#8] := by
      rw [zero, numeralText, BitVec.ofNat_eq_ofNat, BitVec.toNat_ofNat, Nat.zero_mod,
        numeral_zero]
      cases upper <;> rfl
    rw [if_pos zero, one, Option.map_some, text]
    exact ⟨w, rfl, wrote.next⟩
  case neg =>
    have length := length_digits large val
    have text := numeralText_reverse (show 1 < base.toNat by omega)
      (fun d hd => by rw [BitVec.toNat_ofNat, Nat.mod_eq_of_lt (hd.trans base.isLt)] :
        ∀ d < base.toNat, digitOf upper (BitVec.ofNat 64 d).toNat = digitOf upper d) zero
    obtain ⟨w, loop, cells⟩ := digitLoop_spec (fun d => digitOf upper d.toNat)
      (show 1 < base.toNat by omega) 65 val buf 0 (by omega) (by omega)
    rw [Nat.zero_add] at loop cells
    rw [if_neg zero, loop, ← text, List.length_reverse, List.length_map, List.reverse_reverse]
    exact ⟨w, rfl, cells⟩

/-- **`print_u64`**: the numeral behind its padding. -/
theorem printU64_eq (buf : Vector u8 64) (val : u64) {base : u64} (known : base = 10 ∨ base = 16)
    (upper : Bool) {width : Int} (narrow : width ≤ 64) (pad : u8) :
    printU64 buf val base upper width pad =
      some (List.replicate (width.toNat - (numeralText upper base.toNat val.toNat).length) pad ++
        numeralText upper base.toNat val.toNat) := by
  have large : 10 ≤ base.toNat := by obtain rfl | rfl := known <;> decide
  have short := length_numeralText upper large val
  obtain ⟨w, loop, cells⟩ := digitCells_spec buf val large upper
  generalize numeralText upper base.toNat val.toNat = t at short loop cells ⊢
  have padding : (width - (t.length : Int)).toNat = width.toNat - t.length := by omega
  obtain ⟨u, padded, all, -⟩ := putAll_of_le w
    (show t.length + (List.replicate (width.toNat - t.length) pad).length ≤ 64 by
      rw [List.length_replicate]; omega)
  rw [List.length_replicate] at all
  simp only [printU64, loop, padding, padded, Option.bind_eq_bind, Option.bind_some, all, cells,
    List.reverse_append, List.reverse_reverse, List.reverse_replicate]

/-- **`print_i64`**: a minus sign, and the numeral of the magnitude behind its padding. -/
theorem printI64_eq (buf : Vector u8 64) (val : i64) {width : Int} (narrow : width ≤ 64)
    (pad : u8) :
    printI64 buf val width pad =
      some ((if val.toInt < 0 then [0x2D#8] else []) ++
        List.replicate (width.toNat - (numeralText false 10 val.toInt.natAbs).length) pad ++
        numeralText false 10 val.toInt.natAbs) := by
  have sign : val.slt 0 = true ↔ val.toInt < 0 := by
    rw [BitVec.slt_iff_toInt_lt]
    rfl
  rw [printI64]
  by_cases negative : val.toInt < 0
  case pos =>
    have magnitude : (-val).toNat = val.toInt.natAbs := by
      have small := val.isLt
      have signed := BitVec.toInt_eq_toNat_cond val
      rw [BitVec.toNat_neg]
      split at signed <;> omega
    rw [if_pos (sign.mpr negative), if_pos negative, printU64_eq buf _ (.inl rfl) false narrow,
      Option.map_some, magnitude]
    rfl
  case neg =>
    have magnitude : val.toNat = val.toInt.natAbs := by
      have small := val.isLt
      have signed := BitVec.toInt_eq_toNat_cond val
      split at signed <;> omega
    rw [if_neg (fun h => negative (sign.mp h)), if_neg negative,
      printU64_eq buf _ (.inl rfl) false narrow, magnitude]
    rfl

end Debug

/-! ## The bootloader -/

namespace Boot

/-- A digit of either half of the loop's choice. -/
theorem hexDigit (val : u64) :
    (if val &&& 0xF#64 < 10#64 then 0x30#8 + (val &&& 0xF#64).setWidth 8
      else 0x41#8 + (val &&& 0xF#64).setWidth 8 - 10#8) = Debug.digitOf true (val.toNat % 16) := by
  have all : ∀ d : Fin 16,
      (if BitVec.ofNat 64 d < 10#64 then 0x30#8 + (BitVec.ofNat 64 d).setWidth 8
        else 0x41#8 + (BitVec.ofNat 64 d).setWidth 8 - 10#8) = Debug.digitOf true d := by decide
  have same : val &&& 0xF#64 = BitVec.ofNat 64 (val.toNat % 16) := by
    apply BitVec.eq_of_toNat_eq
    rw [BitVec.toNat_and, BitVec.toNat_ofNat, BitVec.toNat_ofNat, Nat.mod_eq_of_lt (by omega),
      Nat.mod_eq_of_lt (show val.toNat % 16 < 2 ^ 64 by omega)]
    exact Nat.and_two_pow_sub_one_eq_mod val.toNat 4
  rw [same]
  exact all ⟨val.toNat % 16, Nat.mod_lt _ (by decide)⟩

/-- The loop fills the cells from `buf[2]` on with the last digits. -/
theorem hexLoop_spec {k : Nat} (val : u64) (buf : Vector u8 19) (room : k + 2 ≤ 19) :
    ∃ w, hexLoop k val buf = some w ∧ front w 2 = front buf 2 ∧
      back w 2 = (lastDigits 16 k val.toNat).map (Debug.digitOf true) ++ back buf (k + 2) := by
  induction k generalizing val buf with
  | zero => exact ⟨buf, rfl, rfl, rfl⟩
  | succ k ih =>
    obtain ⟨u, one, wrote⟩ := put_of_lt buf (show k + 2 < 19 by omega)
      (Debug.digitOf true (val.toNat % 16))
    obtain ⟨w, all, kept, cells⟩ := ih (val >>> 4) u (by omega)
    have shifted : (val >>> 4).toNat = val.toNat / 16 := by
      rw [BitVec.toNat_ushiftRight, Nat.shiftRight_eq_div_pow]
    refine ⟨w, ?_, kept.trans (wrote.front_of_le (by omega)), ?_⟩
    · rw [hexLoop, hexDigit, one, Option.bind_eq_bind, Option.bind_some, all]
    · rw [cells, shifted, wrote.back, lastDigits, List.map_append, List.append_assoc]
      rfl

/-- **`PrintHex64`**: `0x`, and 16 digits. -/
theorem printHex64_eq (buf : Vector u8 19) (val : u64) :
    printHex64 buf val = some ([0x30#8, 0x78#8] ++
      (List.replicate (16 - (numeralText true 16 val.toNat).length) 0x30#8 ++
        numeralText true 16 val.toNat)) := by
  obtain ⟨a, put0, wrote0⟩ := put_of_lt buf (show 0 < 19 by decide) 0x30#8
  obtain ⟨b, put1, wrote1⟩ := put_of_lt a (show 1 < 19 by decide) 0x78#8
  obtain ⟨c, put18, wrote18⟩ := put_of_lt b (show 18 < 19 by decide) 0#8
  obtain ⟨w, loop, kept, cells⟩ := hexLoop_spec (k := 16) val c (by decide)
  have start : front w 2 = [0x30#8, 0x78#8] := by
    rw [kept, wrote18.front_of_le (by decide), wrote1.next, wrote0.next]
    rfl
  have digits : (lastDigits 16 16 val.toNat).map (Debug.digitOf true) =
      List.replicate (16 - (numeralText true 16 val.toNat).length) 0x30#8 ++
        numeralText true 16 val.toNat := by
    have small : val.toNat < 16 ^ 16 := lt_of_lt_of_eq val.isLt (by decide)
    rw [lastDigits_eq (by decide) (by decide) small, List.map_append, List.map_replicate,
      numeralText, List.length_map]
    rfl
  rw [digits, wrote18.back] at cells
  have whole : w.toList = front w 2 ++ back w 2 := (List.take_append_drop 2 w.toList).symm
  rw [start, cells, ← List.append_assoc] at whole
  have nonzero : ∀ x ∈ [0x30#8, 0x78#8] ++
      (List.replicate (16 - (numeralText true 16 val.toNat).length) 0x30#8 ++
        numeralText true 16 val.toNat), (x != 0#8) = true := by
    simp only [List.forall_mem_append]
    exact ⟨by decide, fun x hx => List.eq_of_mem_replicate hx ▸ by decide,
      numeralText_nonzero true (by decide) (by decide) _⟩
  simp only [printHex64, put0, put1, put18, loop, Option.bind_eq_bind, Option.bind_some, cString,
    whole]
  rw [List.takeWhile_append_of_pos nonzero, List.takeWhile_cons_of_neg (by decide),
    List.append_nil]

/-- The loop fills the cells in front of `idx`. -/
theorem decLoop_spec (rounds : Nat) (val : u64) (buf : Vector u8 21) (idx : Nat)
    (enough : (Nat.digits 10 val.toNat).length < rounds) (inside : idx ≤ 21)
    (room : (Nat.digits 10 val.toNat).length ≤ idx) :
    ∃ w, decLoop rounds val buf idx = some (w, idx - (Nat.digits 10 val.toNat).length) ∧
      back w (idx - (Nat.digits 10 val.toNat).length) =
        ((Nat.digits 10 val.toNat).map fun d => decimalDigit (BitVec.ofNat 64 d)).reverse ++
          back buf idx := by
  induction rounds generalizing val buf idx with
  | zero => exact absurd enough (Nat.not_lt_zero _)
  | succ rounds ih =>
    rw [decLoop]
    by_cases zero : val = 0
    case pos =>
      rw [if_pos zero, zero, BitVec.ofNat_eq_ofNat, BitVec.toNat_ofNat, Nat.zero_mod,
        Nat.digits_zero]
      exact ⟨buf, rfl, rfl⟩
    case neg =>
      have positive : val.toNat ≠ 0 := fun h => zero (BitVec.eq_of_toNat_eq h)
      have split := Nat.digits_eq_cons_digits_div (b := 10) (by decide) positive
      have quotient : (val / 10#64).toNat = val.toNat / 10 := BitVec.toNat_udiv
      have digit : BitVec.ofNat 64 (val.toNat % 10) = val % 10#64 := by
        apply BitVec.eq_of_toNat_eq
        rw [BitVec.toNat_umod, BitVec.toNat_ofNat]
        exact Nat.mod_eq_of_lt (lt_of_le_of_lt (Nat.mod_le _ _) val.isLt)
      rw [split, List.length_cons, ← quotient] at enough room ⊢
      obtain ⟨u, one, wrote⟩ := put_of_lt buf (show idx - 1 < 21 by omega)
        (decimalDigit (val % 10#64))
      obtain ⟨w, all, cells⟩ := ih (val / 10#64) u (idx - 1) (by omega) (by omega) (by omega)
      rw [Nat.sub_sub, Nat.add_comm 1] at all cells
      refine ⟨w, by rw [if_neg zero, if_neg (by omega), one, Option.bind_eq_bind, Option.bind_some,
        all], ?_⟩
      rw [cells, wrote.back, List.map_cons, List.reverse_cons, List.append_assoc, digit,
        Nat.sub_add_cancel (by omega)]
      rfl

/-- **`PrintDec`**: the numeral. -/
theorem printDec_eq (buf : Vector u8 21) (val : u64) :
    printDec buf val = some (numeralText false 10 val.toNat) := by
  obtain ⟨a, put20, wrote20⟩ := put_of_lt buf (show 20 < 21 by decide) 0#8
  have nonzero := numeralText_nonzero false (b := 10) (by decide) (by decide) val.toNat
  have digits : ∃ w idx, decCells a val = some (w, idx) ∧
      back w idx = numeralText false 10 val.toNat ++ 0#8 :: back buf 21 := by
    rw [decCells]
    by_cases zero : val = 0
    case pos =>
      obtain ⟨w, one, wrote⟩ := put_of_lt a (show 19 < 21 by decide) 0x30#8
      refine ⟨w, 19, by rw [if_pos zero, one, Option.map_some], ?_⟩
      rw [wrote.back, wrote20.back, zero]
      rfl
    case neg =>
      have length := length_digits (b := 10) (Nat.le_refl 10) val
      obtain ⟨w, loop, cells⟩ := decLoop_spec 65 val a 20 (by omega) (by decide) length
      refine ⟨w, _, by rw [if_neg zero, loop], ?_⟩
      rw [cells, wrote20.back, numeralText_reverse (by decide) decimalDigit_eq zero]
  obtain ⟨w, idx, cells, text⟩ := digits
  simp only [printDec, put20, cells, Option.bind_eq_bind, Option.bind_some, text]
  rw [List.takeWhile_append_of_pos nonzero, List.takeWhile_cons_of_neg (by decide),
    List.append_nil]

end Boot

/-! ## The text console -/

namespace VGA

theorem fmtCells_spec (tmp : Vector u8 20) (v : u64) :
    ∃ w, fmtCells tmp v = some (w, (numeralText false 10 v.toNat).length) ∧
      front w (numeralText false 10 v.toNat).length = (numeralText false 10 v.toNat).reverse := by
  have rest : (Nat.digits 10 (v.toNat / 10)).length ≤ 19 := by
    refine (Nat.digits_length_le_iff (by decide) _).mpr ?_
    rw [Nat.div_lt_iff_lt_mul (by decide)]
    exact v.isLt.trans (by decide)
  have quotient : (v / 10#64).toNat = v.toNat / 10 := BitVec.toNat_udiv
  have first : decimalDigit (v % 10#64) = Debug.digitOf false (v.toNat % 10) := by
    rw [← decimalDigit_eq _ (Nat.mod_lt _ (by decide))]
    refine congrArg decimalDigit (BitVec.eq_of_toNat_eq ?_)
    rw [BitVec.toNat_umod, BitVec.toNat_ofNat]
    exact (Nat.mod_eq_of_lt (lt_of_le_of_lt (Nat.mod_le _ _) v.isLt)).symm
  have others : ((Nat.digits 10 (v.toNat / 10)).map fun d => decimalDigit (BitVec.ofNat 64 d)) =
      (Nat.digits 10 (v.toNat / 10)).map (Debug.digitOf false) :=
    List.map_congr_left fun d hd => decimalDigit_eq d (Nat.digits_lt_base (by decide) hd)
  obtain ⟨u, one, wrote⟩ := put_of_lt tmp (show 0 < 20 by decide) (decimalDigit (v % 10#64))
  obtain ⟨w, loop, cells⟩ := digitLoop_spec decimalDigit (show 1 < (10#64).toNat by decide) 65
    (v / 10#64) u 1 (by rw [quotient]; exact rest.trans_lt (by decide))
    (by rw [quotient]; exact Nat.add_le_add_left rest 1)
  have ten : (10#64).toNat = 10 := rfl
  rw [quotient, ten] at loop cells
  have length : (numeralText false 10 v.toNat).length =
      1 + (Nat.digits 10 (v.toNat / 10)).length := by
    rw [numeralText, numeral_eq (by decide), List.length_map, List.length_reverse,
      List.length_cons, Nat.add_comm]
  refine ⟨w, ?_, ?_⟩
  · rw [fmtCells, one, Option.bind_eq_bind, Option.bind_some, loop, length]
  · rw [length, cells, wrote.next, first, others, numeralText, numeral_eq (by decide),
      List.map_reverse, List.reverse_reverse]
    rfl

/-- **`FmtU64`**: the numeral behind its padding, and a zero. It is written if it fits. -/
theorem fmtU64_eq {n : Nat} (tmp : Vector u8 20) (buf : Vector u8 n) (v : u64) (width : Nat)
    (pad : u8) :
    fmtU64 tmp buf v width pad = putAll buf 0
      (List.replicate (width - (numeralText false 10 v.toNat).length) pad ++
        numeralText false 10 v.toNat ++ [0#8]) := by
  obtain ⟨w, cells, digits⟩ := fmtCells_spec tmp v
  generalize numeralText false 10 v.toNat = t at cells digits ⊢
  have padding : (if t.length > width then t.length else width) - t.length =
      width - t.length := by
    split <;> omega
  simp only [fmtU64, cells, Option.bind_eq_bind, Option.bind_some, padding, digits,
    List.reverse_reverse]

end VGA

/-! ## All of them -/

open Base.Bytes (ascii)

/-- **Numbers are printed faithfully**: the log writes the canonical numeral behind its padding,
and never outside its 64 bytes; the bootloader and the text console write numerals that are read
back as the number; and a signed number has its sign in front. -/
theorem numbers_as_text :
    (∀ (buf : Vector u8 64) (val base : u64) (upper : Bool) (width : Int) (pad : u8),
      base = 10 ∨ base = 16 → width ≤ 64 → ∃ t, IsNumeral upper base.toNat val.toNat t ∧
        Debug.printU64 buf val base upper width pad =
          some (List.replicate (width.toNat - t.length) pad ++ t)) ∧
    (∀ (buf : Vector u8 64) (val : i64) (width : Int) (pad : u8), width ≤ 64 →
      ∃ t, IsNumeral false 10 val.toInt.natAbs t ∧
        Debug.printI64 buf val width pad =
          some ((if val.toInt < 0 then ascii "-" else []) ++
            List.replicate (width.toNat - t.length) pad ++ t)) ∧
    (∀ (buf : Vector u8 21) (val : u64), ∃ t, IsNumeral false 10 val.toNat t ∧
      Boot.printDec buf val = some t) ∧
    (∀ (buf : Vector u8 19) (val : u64), ∃ t, t.length = 16 ∧
      parse digitValue 16 t = some val.toNat ∧ Boot.printHex64 buf val = some (ascii "0x" ++ t)) ∧
    ∀ (n : Nat) (tmp : Vector u8 20) (buf : Vector u8 n) (v : u64) (width : Nat) (pad : u8),
      ∃ t, IsNumeral false 10 v.toNat t ∧
        parse digitValue 10 (List.replicate (width - t.length) 0x30#8 ++ t) = some v.toNat ∧
        (max width t.length < n → ∃ w, VGA.fmtU64 tmp buf v width pad = some w ∧
          front w (max width t.length + 1) =
            List.replicate (width - t.length) pad ++ t ++ [0#8]) := by
  refine ⟨fun buf val base upper width pad known narrow => ?_, fun buf val width pad narrow => ?_,
    fun buf val => ?_, fun buf val => ?_, fun n tmp buf v width pad => ?_⟩
  · have range : 1 < base.toNat ∧ base.toNat ≤ 16 := by obtain rfl | rfl := known <;> decide
    exact ⟨_, (isNumeral_iff range.1 range.2).mpr rfl,
      Debug.printU64_eq buf val known upper narrow pad⟩
  · exact ⟨_, (isNumeral_iff (by decide) (by decide)).mpr rfl,
      Debug.printI64_eq buf val narrow pad⟩
  · exact ⟨_, (isNumeral_iff (by decide) (by decide)).mpr rfl, Boot.printDec_eq buf val⟩
  · have short : (numeralText true 16 val.toNat).length ≤ 16 := by
      rw [numeralText, List.length_map]
      exact length_numeral_le (by decide) (by decide) (lt_of_lt_of_eq val.isLt (by decide))
    refine ⟨_, ?_, parse_zeros true (by decide) (by decide) val.toNat _, Boot.printHex64_eq buf val⟩
    rw [List.length_append, List.length_replicate, Nat.sub_add_cancel short]
  · refine ⟨_, (isNumeral_iff (by decide) (by decide)).mpr rfl,
      parse_zeros false (by decide) (by decide) v.toNat _, fun room => ?_⟩
    rw [VGA.fmtU64_eq]
    generalize numeralText false 10 v.toNat = t at room ⊢
    have length : (List.replicate (width - t.length) pad ++ t ++ [0#8]).length =
        max width t.length + 1 := by
      simp only [List.length_append, List.length_replicate, List.length_singleton]
      omega
    obtain ⟨w, wrote, cells, -⟩ := putAll_of_le buf
      (show 0 + (List.replicate (width - t.length) pad ++ t ++ [0#8]).length ≤ n by omega)
    rw [Nat.zero_add, length] at cells
    exact ⟨w, wrote, cells⟩

/-- The smallest value has no positive counterpart of its own type. -/
example : Debug.printI64 (Vector.replicate 64 0) (BitVec.intMin 64) 0 0x20 =
    some (ascii "-9223372036854775808") := by decide +kernel

end MicroNT
