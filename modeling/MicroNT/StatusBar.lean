import MicroNT.Base.Decimal
import MicroNT.Console
import MicroNT.NumberFormats

/-! # The clock of the header (`VGA::UpdateStatusBar`)

The time since the start is written to the right end of the header, with two digits for each
of its parts. The two arrays it is put together in have room for more digits of the hours,
but not for all. -/

namespace MicroNT.VGA

open Base.Buffer Base.Numerals
open Base.Bytes (ascii)
open Base.Decimal (IsDigit)

/-! ## The text -/

/-- `char up[20] = "Up: "`. -/
def upStart : Vector u8 20 := ⟨(ascii "Up: " ++ List.replicate 16 0).toArray, by decide⟩

/-- `for (i = 0; tmp[i]; ++i) up[4 + i] = tmp[i]`, which ends at a zero. -/
def copyHours (tmp : Vector u8 8) (up : Vector u8 20) : Option (Vector u8 20) :=
  if 0#8 ∈ tmp.toList then putAll up 4 (cString tmp) else none

/-- `FmtU64(tmp, v, 2, '0')`, and its first two characters to `up[i]` and `up[i + 1]`. -/
def twoDigits (cells : Vector u8 20) (v : u64) (i : Nat) (tmp : Vector u8 8) (up : Vector u8 20) :
    Option (Vector u8 8 × Vector u8 20) := do
  let tmp ← fmtU64 cells tmp v 2 0x30#8
  let up ← put up i tmp[0]
  let up ← put up (i + 1) tmp[1]
  some (tmp, up)

/-- The text of the header. `cells` and `tmp` are what the local arrays hold before. -/
def upText (cells : Vector u8 20) (tmp : Vector u8 8) (ticks : u64) : Option (Vector u8 20) := do
  let secs := ticks / 100#64
  let mins := secs / 60#64
  let secs := secs % 60#64
  let hrs := mins / 60#64
  let mins := mins % 60#64
  let tmp ← fmtU64 cells tmp hrs 2 0x30#8
  let up ← copyHours tmp upStart
  let up ← put up 6 0x3A#8
  let (tmp, up) ← twoDigits cells mins 7 tmp up
  let up ← put up 9 0x3A#8
  let (_, up) ← twoDigits cells secs 10 tmp up
  put up 12 0#8

/-! ## The two rows -/

section

variable (T : TextSurface)

/-- `s_cells[r][c] = x`. -/
def storeCell (r c : Nat) (x : Cell) (s : Console) : Console :=
  { s with cells := Function.update s.cells r (Function.update (s.cells r) c x) }

/-- A text in a row of `s_cells`, up to the last column. -/
def storeText (r : Nat) (attr : u8) : List u8 → Nat → Console → Console
  | [], _, s => s
  | ch :: t, c, s =>
    if c < T.cols then storeText r attr t (c + 1) (storeCell r c ⟨ch, attr⟩ s) else s

/-- `uplen`. -/
abbrev UP_LENGTH : Nat := 12

/-- `upcol`. -/
def upColumn : Nat := if T.cols > UP_LENGTH + 1 then T.cols - UP_LENGTH - 1 else 0

def hints : List u8 :=
  ascii "  Tab: complete   Up/Down: history   clear: reset screen   help: commands  "

/-- The header's clock. -/
def drawUptime (cells : Vector u8 20) (tmp : Vector u8 8) (ticks : u64) (s : Console) :
    Option Console :=
  (upText cells tmp ticks).map fun up => storeText T 0 0x1F (front up UP_LENGTH) (upColumn T) s

/-- The last row, blank but for the hints. -/
def drawHints (s : Console) : Console :=
  let bot := T.rows - 1
  storeText T bot 0x78 hints 0 (storeText T bot 0x78 (List.replicate T.cols 0x20) 0 s)

/-- `UpdateStatusBar`, on a screen that is there. -/
def updateStatusBar (cells : Vector u8 20) (tmp : Vector u8 8) (ticks : u64) (s : Console) :
    Option Console :=
  if T.cols < 20 then some s else (drawUptime T cells tmp ticks s).map (drawHints T)

end

/-! ## What is written -/

/-- A number with two digits or more. -/
def padded (v : Nat) : List u8 :=
  List.replicate (2 - (numeralText false 10 v).length) 0x30#8 ++ numeralText false 10 v

theorem length_padded (v : Nat) : (padded v).length = max 2 (numeral 10 v).length := by
  rw [padded, List.length_append, List.length_replicate, numeralText, List.length_map]
  omega

theorem length_padded_two {v : Nat} (h : v < 100) : (padded v).length = 2 := by
  have short := length_numeral_le (b := 10) (k := 2) (by decide) (by decide) h
  rw [length_padded]
  omega

theorem length_padded_le {v : Nat} (h : v < 10 ^ 7) : (padded v).length ≤ 7 := by
  have short := length_numeral_le (b := 10) (by decide) (by decide) h
  rw [length_padded]
  omega

theorem lt_length_padded {v : Nat} (h : 10 ^ 7 ≤ v) : 7 < (padded v).length := by
  have long := lt_length_numeral (b := 10) (by decide) h
  rw [length_padded]
  omega

theorem padded_digits (v : Nat) : ∀ c ∈ padded v, IsDigit c := by
  have digit : ∀ d < 10, IsDigit (Debug.digitOf false d) := by decide
  intro c hc
  obtain hc | hc := List.mem_append.mp hc
  · rw [List.eq_of_mem_replicate hc]
    decide
  · obtain ⟨d, hd, rfl⟩ := List.mem_map.mp hc
    exact digit d ((numeral_canonical (by decide) v).digits d hd)

theorem padded_nonzero (v : Nat) : ∀ c ∈ padded v, (c != 0#8) = true := by
  intro c hc
  have digit := padded_digits v c hc
  refine bne_iff_ne.mpr ?_
  rintro rfl
  exact absurd digit (by decide)

section

variable (cells : Vector u8 20) (tmp : Vector u8 8)

/-- `tmp` has room for seven digits and the zero. -/
theorem fmtU64_fits (v : u64) (h : (padded v.toNat).length ≤ 7) :
    ∃ w, fmtU64 cells tmp v 2 0x30#8 = some w ∧
      front w ((padded v.toNat).length + 1) = padded v.toNat ++ [0#8] := by
  obtain ⟨w, wrote, text, -⟩ := putAll_of_le tmp
    (show 0 + (padded v.toNat ++ [0#8]).length ≤ 8 by
      rw [List.length_append, List.length_singleton]; omega)
  rw [Nat.zero_add, List.length_append, List.length_singleton] at text
  exact ⟨w, (fmtU64_eq cells tmp v 2 0x30#8).trans wrote, text⟩

/-- The eighth digit leaves no room for the zero. -/
theorem fmtU64_overflows (v : u64) (h : 7 < (padded v.toNat).length) :
    fmtU64 cells tmp v 2 0x30#8 = none :=
  (fmtU64_eq cells tmp v 2 0x30#8).trans (putAll_of_lt tmp
    (show 8 < 0 + (padded v.toNat ++ [0#8]).length by
      rw [List.length_append, List.length_singleton]; omega) (by decide))

/-- Two digits are added to what is in the array. -/
theorem twoDigits_spec {v : u64} (small : v.toNat < 100) {i : Nat} (up : Vector u8 20)
    (room : i + 2 ≤ 20) :
    ∃ tmp' up', twoDigits cells v i tmp up = some (tmp', up') ∧
      front up' (i + 2) = front up i ++ padded v.toNat := by
  have two := length_padded_two small
  obtain ⟨w, wrote, text⟩ := fmtU64_fits cells tmp v (by omega)
  obtain ⟨a, first, cell⟩ := put_of_lt up (show i < 20 by omega) w[0]
  obtain ⟨b, second, cell'⟩ := put_of_lt a (show i + 1 < 20 by omega) w[1]
  refine ⟨w, b, ?_, ?_⟩
  · simp only [twoDigits, wrote, first, second, Option.bind_eq_bind, Option.bind_some]
  · have digits : padded v.toNat = [w[0], w[1]] := by
      obtain ⟨x, y, same⟩ := List.length_eq_two.mp two
      rw [same] at text
      rw [same, getElem_of_front text (by simp) (by decide),
        getElem_of_front text (i := 1) (by simp) (by decide)]
      rfl
    rw [cell'.next, cell.next, digits, List.append_assoc]
    rfl

/-- The hours of a tick count. -/
def hours (ticks : u64) : Nat := ticks.toNat / 100 / 60 / 60

/-- The array begins with `Up: ` and the hours. -/
theorem copyHours_spec {v : Nat} {w : Vector u8 8} (short : (padded v).length ≤ 7)
    (text : front w ((padded v).length + 1) = padded v ++ [0#8]) :
    ∃ up, copyHours w upStart = some up ∧
      front up 6 = ascii "Up: " ++ (padded v).take 2 := by
  have zero : 0#8 ∈ w.toList := by
    have mem : 0#8 ∈ front w ((padded v).length + 1) := by
      rw [text]
      exact List.mem_append_right _ (List.mem_singleton_self _)
    exact List.mem_of_mem_take mem
  obtain ⟨up, copied, start, -⟩ := putAll_of_le upStart
    (show 4 + (padded v).length ≤ 20 by omega)
  refine ⟨up, ?_, ?_⟩
  · rw [copyHours, if_pos zero, cString_of_front text (padded_nonzero v), copied]
  · have two : 2 ≤ (padded v).length := by
      rw [length_padded]
      exact Nat.le_max_left _ _
    have part := congrArg (List.take 6) start
    rw [front, List.take_take, Nat.min_eq_left (by omega)] at part
    rw [front, part, List.take_append]
    rfl

/-- **The text**, if `tmp` has room for the hours: two of their digits are shown. -/
theorem upText_eq {ticks : u64} (short : (padded (hours ticks)).length ≤ 7) :
    ∃ up, upText cells tmp ticks = some up ∧
      front up UP_LENGTH = ascii "Up: " ++ (padded (hours ticks)).take 2 ++ ascii ":" ++
        padded (ticks.toNat / 100 / 60 % 60) ++ ascii ":" ++ padded (ticks.toNat / 100 % 60) := by
  have hrs : (ticks / 100#64 / 60#64 / 60#64).toNat = hours ticks := rfl
  have mins : (ticks / 100#64 / 60#64 % 60#64).toNat = ticks.toNat / 100 / 60 % 60 := rfl
  have secs : (ticks / 100#64 % 60#64).toNat = ticks.toNat / 100 % 60 := rfl
  rw [← hrs] at short
  obtain ⟨tmp1, first, text⟩ := fmtU64_fits cells tmp _ short
  obtain ⟨up1, copied, start⟩ := copyHours_spec short text
  obtain ⟨up2, colon, cell⟩ := put_of_lt up1 (show 6 < 20 by decide) 0x3A#8
  obtain ⟨tmp3, up3, minutes, text3⟩ := twoDigits_spec cells tmp1
    (show (ticks / 100#64 / 60#64 % 60#64).toNat < 100 by omega) (i := 7) up2 (by decide)
  obtain ⟨up4, colon', cell'⟩ := put_of_lt up3 (show 9 < 20 by decide) 0x3A#8
  obtain ⟨tmp5, up5, seconds, text5⟩ := twoDigits_spec cells tmp3
    (show (ticks / 100#64 % 60#64).toNat < 100 by omega) (i := 10) up4 (by decide)
  obtain ⟨up6, zero, cell6⟩ := put_of_lt up5 (show 12 < 20 by decide) 0#8
  refine ⟨up6, ?_, ?_⟩
  · simp only [upText, first, copied, colon, minutes, colon', seconds, zero, Option.bind_eq_bind,
      Option.bind_some]
  · rw [cell6.front, text5, cell'.next, text3, cell.next, start, hrs, mins, secs]
    simp only [List.append_assoc]
    rfl

/-- From ten million hours on the digits do not fit. -/
theorem upText_none {ticks : u64} (long : 7 < (padded (hours ticks)).length) :
    upText cells tmp ticks = none := by
  have hrs : (ticks / 100#64 / 60#64 / 60#64).toNat = hours ticks := rfl
  rw [← hrs] at long
  simp only [upText, fmtU64_overflows cells tmp _ long, Option.bind_eq_bind, Option.bind_none]

/-- **When the arrays are left**: `FmtU64` writes behind `tmp` from ten million hours on. -/
theorem upText_none_iff (ticks : u64) : upText cells tmp ticks = none ↔ 10 ^ 7 ≤ hours ticks := by
  constructor
  case mp =>
    intro none
    refine Nat.not_lt.mp fun small => ?_
    obtain ⟨up, some, -⟩ := upText_eq cells tmp (length_padded_le small)
    rw [none] at some
    cases some
  case mpr => exact fun large => upText_none cells tmp (lt_length_padded large)

end

/-! ## The header -/

section

variable {T : TextSurface}

theorem storeCell_self (r c : Nat) (x : Cell) (s : Console) :
    (storeCell r c x s).cells r c = x :=
  (congrFun (Function.update_self ..) c).trans (Function.update_self ..)

theorem storeCell_other {r c r' c' : Nat} (x : Cell) (s : Console) (other : r' ≠ r ∨ c' ≠ c) :
    (storeCell r c x s).cells r' c' = s.cells r' c' := by
  by_cases row : r' = r
  case neg => exact congrFun (Function.update_of_ne row _ _) c'
  case pos =>
    subst row
    have column := other.resolve_left fun h => h rfl
    exact (congrFun (Function.update_self ..) c').trans (Function.update_of_ne column _ _)

/-- Nothing changes in other rows, or to the left of the text. -/
theorem storeText_other {r : Nat} {attr : u8} (t : List u8) (c : Nat) (s : Console) {r' c' : Nat}
    (out : r' ≠ r ∨ c' < c) : (storeText T r attr t c s).cells r' c' = s.cells r' c' := by
  induction t generalizing c s with
  | nil => rfl
  | cons ch t ih =>
    rw [storeText]
    split
    case isFalse => rfl
    case isTrue =>
      rw [ih (c + 1) _ (out.imp id fun lt => by omega),
        storeCell_other _ _ (out.imp id fun lt => Nat.ne_of_lt lt)]

/-- The characters of a text are in the cells, if the row is long enough. -/
theorem storeText_cells {r : Nat} {attr : u8} (t : List u8) (c : Nat) (s : Console)
    (room : c + t.length ≤ T.cols) (i : Nat) (hi : i < t.length) :
    (storeText T r attr t c s).cells r (c + i) = ⟨t[i], attr⟩ := by
  induction t generalizing c s i with
  | nil => exact absurd hi (Nat.not_lt_zero i)
  | cons ch t ih =>
    rw [List.length_cons] at room hi
    rw [storeText, if_pos (by omega)]
    cases i with
    | zero =>
      have kept : (storeText T r attr t (c + 1) (storeCell r c ⟨ch, attr⟩ s)).cells r c =
          (storeCell r c ⟨ch, attr⟩ s).cells r c :=
        storeText_other t (c + 1) _ (.inr (Nat.lt_succ_self c))
      exact kept.trans (storeCell_self ..)
    | succ i =>
      have rest := ih (c + 1) (storeCell r c ⟨ch, attr⟩ s) (by omega) i (by omega)
      rwa [Nat.add_right_comm, Nat.add_assoc] at rest

/-- The twelve characters at the clock's place. -/
def headerText (T : TextSurface) (s : Console) : List u8 :=
  (List.range UP_LENGTH).map fun i => (s.cells 0 (upColumn T + i)).ch

/-- On a screen that is wide enough the header shows the text. -/
theorem headerText_storeText (wide : 20 ≤ T.cols) {attr : u8} {t : List u8}
    (length : t.length = UP_LENGTH) (s : Console) :
    headerText T (storeText T 0 attr t (upColumn T) s) = t := by
  have column : upColumn T = T.cols - 13 := if_pos (by simp only [UP_LENGTH]; omega)
  refine List.ext_getElem (by rw [headerText, List.length_map, List.length_range, length]) ?_
  intro i hi hi'
  simp only [headerText, List.getElem_map, List.getElem_range]
  rw [storeText_cells t _ s (by rw [length, column]; simp only [UP_LENGTH]; omega) i hi']

/-- The status bar is in another row. -/
theorem headerText_drawHints (rows : 2 ≤ T.rows) (s : Console) :
    headerText T (drawHints T s) = headerText T s := by
  have other : 0 ≠ T.rows - 1 := by omega
  simp only [headerText, drawHints, storeText_other _ _ _ (.inl other)]

/-! ## The time that is shown -/

/-- The text has the number in decimal digits. -/
structure Decimal (t : List u8) (n : Nat) : Prop where
  digits : ∀ c ∈ t, IsDigit c
  reads : parse digitValue 10 t = some n

/-- The text is that of a clock: hours of any length, and two digits for the minutes and for
the seconds. -/
def ShowsTime (t : List u8) (time : Nat) : Prop :=
  ∃ h m s : List u8, ∃ hour minute second : Nat,
    t = ascii "Up: " ++ h ++ ascii ":" ++ m ++ ascii ":" ++ s ∧ Decimal h hour ∧
    Decimal m minute ∧ m.length = 2 ∧ minute < 60 ∧ Decimal s second ∧ s.length = 2 ∧
    second < 60 ∧ time = hour * 3600 + minute * 60 + second

theorem decimal_padded (v : Nat) : Decimal (padded v) v :=
  ⟨padded_digits v, parse_zeros false (by decide) (by decide) v _⟩

/-- A text of `k` digits stands for less than `10 ^ k`. -/
theorem Decimal.lt {t : List u8} {n : Nat} (h : Decimal t n) : n < 10 ^ t.length := by
  have digit : ∀ c : u8, IsDigit c → digitValue c = some (c.toNat - 0x30) := by decide
  have small : ∀ c : u8, IsDigit c → c.toNat - 0x30 < 10 := by decide
  have all : t.mapM digitValue = some (t.map fun c => c.toNat - 0x30) := by
    have digits := h.digits
    clear h
    induction t with
    | nil => rfl
    | cons c t ih =>
      rw [List.mapM_cons, digit c (digits c List.mem_cons_self),
        ih fun x hx => digits x (List.mem_cons_of_mem c hx)]
      rfl
  have reads := h.reads
  rw [parse, all, Option.map_some] at reads
  rw [← Option.some.inj reads]
  refine (value_lt (by decide) ?_).trans_eq (by rw [List.length_map])
  intro d hd
  obtain ⟨c, hc, rfl⟩ := List.mem_map.mp hd
  exact small c (h.digits c hc)

/-- The twelve characters have place for two digits of the hours. -/
theorem ShowsTime.lt {t : List u8} {time : Nat} (h : ShowsTime t time)
    (length : t.length = UP_LENGTH) : time < 360000 := by
  obtain ⟨hs, m, s, hour, minute, second, rfl, decimal, -, two, few, -, two', few', rfl⟩ := h
  have start : (ascii "Up: ").length = 4 := by decide
  have colon : (ascii ":").length = 1 := by decide
  simp only [List.length_append, start, colon, two, two', UP_LENGTH] at length
  have lt := decimal.lt
  rw [show hs.length = 2 by omega] at lt
  omega

/-- Below a hundred hours the text is the time. -/
theorem showsTime_of_lt {ticks : u64} (h : ticks.toNat < 36000000) (cells : Vector u8 20)
    (tmp : Vector u8 8) :
    ∃ up, upText cells tmp ticks = some up ∧
      ShowsTime (front up UP_LENGTH) (ticks.toNat / 100) := by
  have few : hours ticks < 100 := by
    rw [hours]
    omega
  have short : (padded (hours ticks)).length ≤ 7 := by
    rw [length_padded_two few]
    decide
  obtain ⟨up, some, text⟩ := upText_eq cells tmp short
  have all : (padded (hours ticks)).take 2 = padded (hours ticks) :=
    List.take_of_length_le (Nat.le_of_eq (length_padded_two few))
  rw [all] at text
  refine ⟨up, some, _, _, _, _, _, _, text, decimal_padded _, decimal_padded _,
    length_padded_two (by omega), by omega, decimal_padded _, length_padded_two (by omega),
    by omega, ?_⟩
  rw [hours]
  omega

theorem length_text (up : Vector u8 20) : (front up UP_LENGTH).length = UP_LENGTH := by
  simp [front, UP_LENGTH]

/-- **The clock is right below a hundred hours**, and there only: the text is put together inside
its arrays and shows the time since the start if and only if the ticks are fewer. -/
theorem uptime_shown_iff (wide : 20 ≤ T.cols) (cells : Vector u8 20) (tmp : Vector u8 8)
    (ticks : u64) (s : Console) :
    (∃ t, drawUptime T cells tmp ticks s = some t ∧
      ShowsTime (headerText T t) (ticks.toNat / 100)) ↔ ticks.toNat < 36000000 := by
  constructor
  case mp =>
    rintro ⟨t, drawn, shows⟩
    obtain ⟨up, -, rfl⟩ := Option.map_eq_some_iff.mp drawn
    rw [headerText_storeText wide (length_text up)] at shows
    have lt := shows.lt (length_text up)
    omega
  case mpr =>
    intro h
    obtain ⟨up, some, shows⟩ := showsTime_of_lt h cells tmp
    refine ⟨_, by rw [drawUptime, some, Option.map_some], ?_⟩
    rwa [headerText_storeText wide (length_text up)]

/-- A screen of 80 columns and 25 rows. -/
def textMode : TextSurface := ⟨80, 25, by decide, by decide⟩

theorem uptime_shown_below :
    ∃ t, drawUptime textMode (Vector.replicate 20 0) (Vector.replicate 8 0) 35999999
        ⟨1, 0, fun _ _ => blank⟩ = some t ∧
      ShowsTime (headerText textMode t) ((35999999 : u64).toNat / 100) :=
  (uptime_shown_iff (by decide) _ _ _ _).mpr (by decide)

/-- After a hundred hours the header shows ten. -/
theorem uptime_hundred_hours :
    (upText (Vector.replicate 20 0) (Vector.replicate 8 0) 36000000).map (fun up =>
        front up UP_LENGTH) = some (ascii "Up: 10:00:00") ∧
      ¬ ∃ t, drawUptime textMode (Vector.replicate 20 0) (Vector.replicate 8 0) 36000000
          ⟨1, 0, fun _ _ => blank⟩ = some t ∧
        ShowsTime (headerText textMode t) ((36000000 : u64).toNat / 100) := by
  refine ⟨by decide +kernel, ?_⟩
  rintro ⟨t, drawn, shows⟩
  obtain ⟨up, -, rfl⟩ := Option.map_eq_some_iff.mp drawn
  rw [headerText_storeText (by decide) (length_text up)] at shows
  exact absurd (shows.lt (length_text up)) (by decide)

/-- **The header of the whole status bar**: the hints below it do not touch it. -/
theorem updateStatusBar_shows (wide : 20 ≤ T.cols) (rows : 2 ≤ T.rows) {ticks : u64}
    (h : ticks.toNat < 36000000) (cells : Vector u8 20) (tmp : Vector u8 8) (s : Console) :
    ∃ t, updateStatusBar T cells tmp ticks s = some t ∧
      ShowsTime (headerText T t) (ticks.toNat / 100) := by
  obtain ⟨up, some, shows⟩ := showsTime_of_lt h cells tmp
  refine ⟨_, by rw [updateStatusBar, if_neg (by omega), drawUptime, some, Option.map_some,
    Option.map_some], ?_⟩
  rwa [headerText_drawHints rows, headerText_storeText wide (length_text up)]

end

end MicroNT.VGA
