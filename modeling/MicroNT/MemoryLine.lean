import MicroNT.ResultBounds
import Mathlib.Data.Bool.AllAny

/-! # The memory line (`syscall.cpp`, `vga.cpp`)

Class 1 of `NtQuerySystemInformation` writes the use of memory as a line of text, and
`TryDrawMemBar` reads the numbers back when the line is printed. -/

namespace MicroNT.VGA

open MicroNT.FileIo (ascii decimal digits decimal_length memoryText PageCounts)

/-! ## The writer -/

/-- The text for these counts of free and of all pages, up to the line's end; the used ones
are their difference, which may wrap. -/
def memoryFields (freePages totalPages : u64) : List u8 :=
  let usedPages := totalPages - freePages
  ascii "Memory: Free=" ++ decimal (freePages * 4#64).toNat ++
    ascii " KB Used=" ++ decimal (usedPages * 4#64).toNat ++
    ascii " KB Total=" ++ decimal (totalPages * 4#64).toNat ++
    ascii " KB Pages=" ++ decimal usedPages.toNat ++ ascii "/" ++ decimal totalPages.toNat

def memoryLine (freePages totalPages : u64) : List u8 :=
  memoryFields freePages totalPages ++ ascii "\r\n"

/-! ## The reader -/

def isDigit (b : u8) : Prop := 0x30#8 ≤ b ∧ b ≤ 0x39#8

instance : DecidablePred isDigit := fun _ => inferInstanceAs (Decidable (_ ∧ _))

/-- The number that stands first, behind the digits read so far, and what follows it. -/
def parseU64 (v : u64) : List u8 → u64 × List u8
  | [] => (v, [])
  | b :: s => if isDigit b then parseU64 (v * 10#64 + (b - 0x30#8).setWidth 64) s else (v, b :: s)

/-- The numbers of the line. -/
structure MemInfo where
  freeKb : u64
  usedKb : u64
  totalKb : u64
  usedPages : u64
  totalPages : u64
  deriving DecidableEq

def isBlank (b : u8) : Bool := b == 0x20#8 || b == 0x09#8

/-- What follows a keyword. -/
def behind (kw : String) (s : List u8) : Option (List u8) := (ascii kw).isPrefixOf? s

/-- One round of the loop, behind the blanks: a keyword with its number, or one character
that is passed over. -/
def scanField (r : MemInfo) (s : List u8) : MemInfo × List u8 :=
  if let some t := behind "Free=" s then
    ({ r with freeKb := (parseU64 0 t).1 }, (parseU64 0 t).2)
  else if let some t := behind "Used=" s then
    ({ r with usedKb := (parseU64 0 t).1 }, (parseU64 0 t).2)
  else if let some t := behind "Total=" s then
    ({ r with totalKb := (parseU64 0 t).1 }, (parseU64 0 t).2)
  else if let some t := behind "Pages=" s then
    let r := { r with usedPages := (parseU64 0 t).1 }
    if let some t := behind "/" (parseU64 0 t).2 then
      ({ r with totalPages := (parseU64 0 t).1 }, (parseU64 0 t).2)
    else (r, (parseU64 0 t).2)
  else (r, s.tail)

variable {b : u8} {s t rest : List u8} {r : MemInfo} {kw : String} {n : Nat}

theorem behind_eq (h : behind kw s = some t) : s = ascii kw ++ t :=
  (List.isPrefixOf?_eq_some_iff_append_eq.mp h).symm

theorem behind_append : behind kw (ascii kw ++ t) = some t :=
  List.isPrefixOf?_eq_some_iff_append_eq.mpr rfl

theorem parseU64_length (v : u64) (s : List u8) : (parseU64 v s).2.length ≤ s.length := by
  induction s generalizing v with
  | nil => exact Nat.le_refl _
  | cons b s ih =>
    rw [parseU64]
    split
    case isTrue => exact (ih _).trans (Nat.le_succ _)
    case isFalse => exact Nat.le_refl _

/-- Every round moves on. -/
theorem scanField_length (r : MemInfo) (s : List u8) (some_ : s ≠ []) :
    (scanField r s).2.length < s.length := by
  have parsed (kw : String) (t : List u8) (positive : 0 < (ascii kw).length)
      (h : behind kw s = some t) : (parseU64 0 t).2.length < s.length := by
    have short := parseU64_length 0 t
    rw [behind_eq h, List.length_append]
    omega
  unfold scanField
  split
  case h_1 t h => exact parsed _ t (by decide) h
  case h_2 =>
    split
    case h_1 t h => exact parsed _ t (by decide) h
    case h_2 =>
      split
      case h_1 t h => exact parsed _ t (by decide) h
      case h_2 =>
        split
        case h_1 t h =>
          dsimp only
          split
          case h_1 u more =>
            have short := parseU64_length 0 u
            have used := parsed _ t (by decide) h
            rw [behind_eq more, List.length_append] at used
            dsimp only
            omega
          case h_2 => exact parsed _ t (by decide) h
        case h_2 =>
          have positive := List.length_pos_iff.mpr some_
          rw [List.length_tail]
          omega

/-- The loop on what is left of the line. -/
def scan (r : MemInfo) (s : List u8) : MemInfo :=
  if h : s.dropWhile isBlank = [] then r
  else
    have : (scanField r (s.dropWhile isBlank)).2.length < s.length :=
      (scanField_length r _ h).trans_le (List.dropWhile_suffix isBlank).length_le
    scan (scanField r (s.dropWhile isBlank)).1 (scanField r (s.dropWhile isBlank)).2
termination_by s.length

/-- `TryDrawMemBar` reads a line that begins with `Memory:`. -/
def parseMemLine (s : List u8) : Option MemInfo :=
  (behind "Memory:" s).map (scan ⟨0, 0, 0, 0, 0⟩)

/-! ## Reading what was written -/

theorem parseU64_cons_of_digit (h : isDigit b) (v : u64) :
    parseU64 v (b :: s) = parseU64 (v * 10#64 + (b - 0x30#8).setWidth 64) s := by
  rw [parseU64, if_pos h]

/-- The digit of a number below ten. -/
theorem digit_eq (d : Nat) (h : d < 10) :
    isDigit (0x30#8 + BitVec.ofNat 8 d) ∧
      (0x30#8 + BitVec.ofNat 8 d - 0x30#8).setWidth 64 = BitVec.ofNat 64 d := by
  have all : ∀ d : Fin 10, isDigit (0x30#8 + BitVec.ofNat 8 d) ∧
      (0x30#8 + BitVec.ofNat 8 d - 0x30#8).setWidth 64 = BitVec.ofNat 64 d := by decide
  exact all ⟨d, h⟩

/-- The digits of a number are read as the number, whatever stands behind them. -/
theorem parseU64_digits (fuel n : Nat) (small : n < 10 ^ fuel) (rest : List u8) :
    parseU64 0 (digits fuel n ++ rest) = parseU64 (BitVec.ofNat 64 n) rest := by
  induction fuel generalizing n rest with
  | zero =>
    obtain rfl : n = 0 := by omega
    rfl
  | succ fuel ih =>
    rw [digits]
    split
    case isTrue zero =>
      rw [zero]
      rfl
    case isFalse =>
      obtain ⟨digit, value⟩ := digit_eq (n % 10) (Nat.mod_lt _ (by decide))
      have front : n / 10 < 10 ^ fuel := by
        rw [Nat.pow_succ] at small
        omega
      rw [List.append_assoc, ih _ front, List.singleton_append, parseU64_cons_of_digit digit, value,
        ← BitVec.ofNat_mul, ← BitVec.ofNat_add, Nat.div_add_mod']

/-- **A number is read back**, up to the first character that is not a digit. -/
theorem parseU64_decimal (v : u64) (ends : ∀ b ∈ rest.head?, ¬ isDigit b) :
    parseU64 0 (decimal v.toNat ++ rest) = (v, rest) := by
  have stops (v : u64) : parseU64 v rest = (v, rest) := by
    cases rest with
    | nil => rfl
    | cons b rest => exact if_neg (ends b rfl)
  rw [decimal]
  split
  case isTrue zero =>
    rw [List.singleton_append, parseU64_cons_of_digit (by decide), stops]
    refine Prod.ext ?_ rfl
    bv_omega
  case isFalse =>
    rw [parseU64_digits _ _ (v.isLt.trans (by decide)), stops, BitVec.ofNat_toNat, BitVec.setWidth_eq]

theorem scan_eq (r : MemInfo) (s : List u8) : scan r s =
    if s.dropWhile isBlank = [] then r
    else scan (scanField r (s.dropWhile isBlank)).1 (scanField r (s.dropWhile isBlank)).2 := by
  conv_lhs => rw [scan]
  split
  case isTrue => rfl
  case isFalse => rfl

theorem scan_nil : scan r [] = r := by rw [scan_eq, List.dropWhile_nil, if_pos rfl]

/-- Blanks are passed over. -/
theorem scan_blank (blank : isBlank b = true) : scan r (b :: s) = scan r s := by
  rw [scan_eq, scan_eq r s, List.dropWhile_cons_of_pos blank]

theorem scan_cons (letter : isBlank b = false) :
    scan r (b :: s) = scan (scanField r (b :: s)).1 (scanField r (b :: s)).2 := by
  rw [scan_eq, List.dropWhile_cons_of_neg (by simp [letter]), if_neg (List.cons_ne_nil b s)]

theorem scan_passed (letter : isBlank b = false) (passed : scanField r (b :: s) = (r, s)) :
    scan r (b :: s) = scan r s := by
  rw [scan_cons letter, passed]

/-- `KB` begins no keyword. -/
theorem scan_kb (r : MemInfo) (s : List u8) : scan r (ascii " KB " ++ s) = scan r s := by
  show scan r (0x20#8 :: 0x4B#8 :: 0x42#8 :: 0x20#8 :: s) = _
  rw [scan_blank rfl, scan_passed rfl rfl, scan_passed rfl rfl, scan_blank rfl]

/-- A keyword with its number and the unit behind it. -/
theorem scan_number {b : u8} {u : List u8} (text : ascii kw = b :: u) (letter : isBlank b = false)
    (set : u64 → MemInfo)
    (field : ∀ t, scanField r (ascii kw ++ t) = (set (parseU64 0 t).1, (parseU64 0 t).2)) (v : u64)
    (s : List u8) :
    scan r (ascii kw ++ (decimal v.toNat ++ (ascii " KB " ++ s))) = scan (set v) s := by
  have front (t : List u8) : scan r (ascii kw ++ t) =
      scan (scanField r (ascii kw ++ t)).1 (scanField r (ascii kw ++ t)).2 := by
    rw [text]
    exact scan_cons letter
  have ends : ∀ b ∈ (ascii " KB " ++ s).head?, ¬ isDigit b := by
    rintro b ⟨⟩
    decide
  rw [front, field, parseU64_decimal v ends, scan_kb]

/-- The pages, with what ends the line. -/
theorem scan_pages (used total : u64) (ends : ∀ b ∈ rest.head?, ¬ isDigit b) :
    scan r (ascii "Pages=" ++ (decimal used.toNat ++ (ascii "/" ++ (decimal total.toNat ++ rest)))) =
      scan { r with usedPages := used, totalPages := total } rest := by
  have slash : ∀ b ∈ (ascii "/" ++ (decimal total.toNat ++ rest)).head?, ¬ isDigit b := by
    rintro b ⟨⟩
    decide
  have field (t w : List u8) (more : behind "/" (parseU64 0 t).2 = some w) :
      scanField r (ascii "Pages=" ++ t) =
        ({ r with usedPages := (parseU64 0 t).1, totalPages := (parseU64 0 w).1 },
          (parseU64 0 w).2) := by
    have others : behind "Free=" (ascii "Pages=" ++ t) = none ∧
        behind "Used=" (ascii "Pages=" ++ t) = none ∧
        behind "Total=" (ascii "Pages=" ++ t) = none := ⟨rfl, rfl, rfl⟩
    simp only [scanField, others, behind_append, more]
  have front (t : List u8) : scan r (ascii "Pages=" ++ t) =
      scan (scanField r (ascii "Pages=" ++ t)).1 (scanField r (ascii "Pages=" ++ t)).2 :=
    scan_cons rfl
  have number := parseU64_decimal used slash
  rw [front, field _ (decimal total.toNat ++ rest) (by rw [number, behind_append]), number]
  dsimp only
  rw [parseU64_decimal total ends]

/-- What the line says. -/
def MemInfo.of (freePages totalPages : u64) : MemInfo where
  freeKb := freePages * 4#64
  usedKb := (totalPages - freePages) * 4#64
  totalKb := totalPages * 4#64
  usedPages := totalPages - freePages
  totalPages := totalPages

/-- **The numbers are read back**, whatever ends the line after them. -/
theorem parseMemLine_fields (free total : u64) (ends : ∀ b ∈ rest.head?, ¬ isDigit b) :
    parseMemLine (memoryFields free total ++ rest) =
      some (scan (MemInfo.of free total) rest) := by
  have line : memoryFields free total ++ rest = ascii "Memory:" ++ (ascii " " ++ (ascii "Free=" ++
      (decimal (free * 4#64).toNat ++ (ascii " KB " ++ (ascii "Used=" ++
      (decimal ((total - free) * 4#64).toNat ++ (ascii " KB " ++ (ascii "Total=" ++
      (decimal (total * 4#64).toNat ++ (ascii " KB " ++ (ascii "Pages=" ++
      (decimal (total - free).toNat ++ (ascii "/" ++ (decimal total.toNat ++ rest)))))))))))))) := by
    have texts : ascii "Memory: Free=" = ascii "Memory:" ++ (ascii " " ++ ascii "Free=") ∧
        ascii " KB Used=" = ascii " KB " ++ ascii "Used=" ∧
        ascii " KB Total=" = ascii " KB " ++ ascii "Total=" ∧
        ascii " KB Pages=" = ascii " KB " ++ ascii "Pages=" := ⟨rfl, rfl, rfl, rfl⟩
    obtain ⟨memory, used, total, pages⟩ := texts
    simp only [memoryFields, memory, used, total, pages, List.append_assoc]
  rw [line, parseMemLine, behind_append, Option.map_some]
  have blank (r : MemInfo) (s : List u8) : scan r (ascii " " ++ s) = scan r s := scan_blank rfl
  rw [blank, scan_number rfl rfl (fun v => ⟨v, 0, 0, 0, 0⟩) (fun _ => rfl),
    scan_number rfl rfl (fun v => ⟨free * 4#64, v, 0, 0, 0⟩) (fun _ => rfl),
    scan_number rfl rfl (fun v => ⟨free * 4#64, (total - free) * 4#64, v, 0, 0⟩) (fun _ => rfl),
    scan_pages _ _ ends]
  rfl

/-! ## The line -/

/-- The part of a text that `PrintUser` shows. -/
def content (s : List u8) : List u8 :=
  s.takeWhile fun b => b != 0#8 && b != 0x0A#8 && b != 0x0D#8

theorem digits_print (fuel n : Nat) : ∀ b ∈ digits fuel n, 0x20#8 ≤ b := by
  induction fuel generalizing n with
  | zero => exact fun b hb => absurd hb List.not_mem_nil
  | succ fuel ih =>
    intro b hb
    rw [digits] at hb
    split at hb
    case isTrue => exact absurd hb List.not_mem_nil
    case isFalse =>
      rcases List.mem_append.mp hb with front | last
      · exact ih _ b front
      · rw [List.mem_singleton.mp last]
        have digit := (digit_eq (n % 10) (Nat.mod_lt _ (by decide))).1.1
        exact BitVec.le_trans (by decide) digit

theorem decimal_print (n : Nat) : ∀ b ∈ decimal n, 0x20#8 ≤ b := by
  rw [decimal]
  split
  case isTrue => decide
  case isFalse => exact digits_print 20 n

theorem memoryFields_print (free total : u64) : ∀ b ∈ memoryFields free total, 0x20#8 ≤ b := by
  have texts : (∀ b ∈ ascii "Memory: Free=", 0x20#8 ≤ b) ∧ (∀ b ∈ ascii " KB Used=", 0x20#8 ≤ b) ∧
      (∀ b ∈ ascii " KB Total=", 0x20#8 ≤ b) ∧ (∀ b ∈ ascii " KB Pages=", 0x20#8 ≤ b) ∧
      ∀ b ∈ ascii "/", 0x20#8 ≤ b := by
    simp only [← List.all_iff_forall_prop]
    decide +kernel
  obtain ⟨memory, used, total, pages, slash⟩ := texts
  simp only [memoryFields, List.forall_mem_append]
  exact ⟨⟨⟨⟨⟨⟨⟨⟨⟨memory, decimal_print _⟩, used⟩, decimal_print _⟩, total⟩, decimal_print _⟩, pages⟩,
    decimal_print _⟩, slash⟩, decimal_print _⟩

/-- A line is cut where it ends. -/
theorem content_memoryLine (free total : u64) :
    content (memoryLine free total) = memoryFields free total := by
  have printing : ∀ b ∈ memoryFields free total, (b != 0#8 && b != 0x0A#8 && b != 0x0D#8) = true := by
    intro b hb
    have print := memoryFields_print free total b hb
    simp only [Bool.and_eq_true, bne_iff_ne]
    refine ⟨⟨?_, ?_⟩, ?_⟩ <;> rintro rfl <;> exact absurd print (by decide)
  rw [content, memoryLine, List.takeWhile_append_of_pos printing]
  exact List.append_nil _

theorem takeWhile_memoryLine (free total : u64) :
    (memoryLine free total).takeWhile (· != 0x0A#8) = memoryFields free total ++ [0x0D#8] := by
  have printing : ∀ b ∈ memoryFields free total, (b != 0x0A#8) = true := by
    intro b hb
    have print := memoryFields_print free total b hb
    rw [bne_iff_ne]
    rintro rfl
    exact absurd print (by decide)
  rw [memoryLine, List.takeWhile_append_of_pos printing]
  rfl

theorem memoryLine_length {free total : u64} (few : free.toNat ≤ 2 ^ 21)
    (small : total.toNat ≤ 2 ^ 21) : (memoryLine free total).length < 128 := by
  have kb (v : u64) (h : v.toNat ≤ 2 ^ 21) : (decimal (v * 4#64).toNat).length ≤ 7 := by
    refine decimal_length (k := 6) ?_
    rw [BitVec.toNat_mul]
    exact (Nat.mod_le _ _).trans_lt (by change v.toNat * 4 < _; omega)
  have any (v : u64) : (decimal v.toNat).length ≤ 20 :=
    decimal_length (k := 19) (v.isLt.trans (by decide))
  have freeKb := kb free few
  have usedKb := any ((total - free) * 4#64)
  have totalKb := kb total small
  have used := any (total - free)
  have pages : (decimal total.toNat).length ≤ 7 := decimal_length (k := 6) (by omega)
  have texts : (ascii "Memory: Free=").length = 13 ∧ (ascii " KB Used=").length = 9 ∧
      (ascii " KB Total=").length = 10 ∧ (ascii " KB Pages=").length = 10 ∧
      (ascii "/").length = 1 ∧ (ascii "\r\n").length = 2 := ⟨rfl, rfl, rfl, rfl, rfl, rfl⟩
  simp only [memoryLine, memoryFields, List.length_append]
  omega

/-- The system call writes this line. -/
theorem memoryText_eq (c : PageCounts) :
    memoryText c = memoryLine (BitVec.ofNat 64 c.free) (BitVec.ofNat 64 c.total) := by
  have le := c.le
  have small := c.small
  have total : (BitVec.ofNat 64 c.total).toNat = c.total := by
    rw [BitVec.toNat_ofNat, Nat.mod_eq_of_lt (by omega)]
  have used : (BitVec.ofNat 64 c.total - BitVec.ofNat 64 c.free).toNat = c.total - c.free := by
    bv_omega
  have kb (v : u64) (n : Nat) (same : v.toNat = n) (h : n < 2 ^ 32) : (v * 4#64).toNat = n * 4 := by
    rw [BitVec.toNat_mul, same]
    exact Nat.mod_eq_of_lt (by change n * 4 < _; omega)
  have free : (BitVec.ofNat 64 c.free).toNat = c.free := by
    rw [BitVec.toNat_ofNat, Nat.mod_eq_of_lt (by omega)]
  rw [memoryText, memoryLine, memoryFields, kb _ _ free (by omega), kb _ _ used (by omega),
    kb _ _ total small, used, total]

theorem parseMemLine_content (free total : u64) :
    parseMemLine (content (memoryLine free total)) = some (MemInfo.of free total) := by
  have line := @parseMemLine_fields [] free total (fun _ h => by cases h)
  rw [List.append_nil, scan_nil] at line
  rw [content_memoryLine, line]

/-- **Memory statistics survive the text.** For all counts up to 2^21 the line fits its buffer
of 128 bytes with the zero behind it, and the numbers are read back from the part that is
printed, and from the line up to the line feed. -/
theorem memoryLine_survives (free total : u64) (few : free.toNat ≤ 2 ^ 21)
    (small : total.toNat ≤ 2 ^ 21) :
    (memoryLine free total ++ [0#8]).length ≤ 128 ∧
      parseMemLine (content (memoryLine free total)) = some (MemInfo.of free total) ∧
      parseMemLine ((memoryLine free total).takeWhile (· != 0x0A#8)) =
        some (MemInfo.of free total) := by
  refine ⟨?_, ?_, ?_⟩
  · rw [List.length_append]
    exact memoryLine_length few small
  · exact parseMemLine_content free total
  · have ends : ∀ b ∈ [0x0D#8].head?, ¬ isDigit b := by
      rintro b ⟨⟩
      decide
    rw [takeWhile_memoryLine, parseMemLine_fields free total ends, scan_passed rfl rfl, scan_nil]

/-- All of 2^21 pages, with one of them free. -/
theorem memoryLine_survives_full :
    (memoryLine 1 0x200000 ++ [0#8]).length ≤ 128 ∧
      parseMemLine (content (memoryLine 1 0x200000)) = some (MemInfo.of 1 0x200000) ∧
      parseMemLine ((memoryLine 1 0x200000).takeWhile (· != 0x0A#8)) =
        some (MemInfo.of 1 0x200000) :=
  memoryLine_survives 1 0x200000 (by decide) (by decide)

end MicroNT.VGA
