import MicroNT.Base.Bytes
import MicroNT.Base.Ring
import MicroNT.Ntdef

/-! # The keyboard (`keyboard.cpp`)

`HandleIrq` turns scan codes into characters and codes for the arrow keys, and puts them into a
ring of 128 slots. `TryRead` takes them out. -/

namespace MicroNT.KB

open Base Base.Bytes

abbrev KEY_UP : u8 := 0x10#8
abbrev KEY_DOWN : u8 := 0x11#8
abbrev KEY_LEFT : u8 := 0x12#8
abbrev KEY_RIGHT : u8 := 0x13#8

abbrev RING_SLOTS : Nat := 128

/-- What the keys `0x3A` to `0x7F` give in both tables: the numeric pad, and otherwise nothing. -/
def padKeys : List u8 :=
  List.replicate 13 0 ++ ascii "789-456+1230." ++ List.replicate 44 0

def sLo : List u8 :=
  [0, 0] ++ ascii "1234567890-=" ++ [0x08, 0x09] ++ ascii "qwertyuiop[]" ++ [0x0A, 0] ++
    ascii "asdfghjkl;'`" ++ [0] ++ ascii "\\zxcvbnm,./" ++ [0] ++ ascii "*" ++ [0] ++ ascii " " ++
    padKeys

def sHi : List u8 :=
  [0, 0] ++ ascii "!@#$%^&*()_+" ++ [0x08, 0x09] ++ ascii "QWERTYUIOP\x7b\x7d" ++ [0x0A, 0] ++
    ascii "ASDFGHJKL:\"~" ++ [0] ++ ascii "|ZXCVBNM<>?" ++ [0] ++ ascii "*" ++ [0] ++ ascii " " ++
    padKeys

set_option maxRecDepth 2000 in
example : sLo.length = 128 ∧ sHi.length = 128 := by decide

/-- `s_shift`, `s_capslock` and `s_ext`. -/
structure Modes where
  shift : Bool
  capslock : Bool
  ext : Bool

/-- The static variables of `keyboard.cpp`. -/
structure Keyboard extends Modes where
  ring : Nat → u8
  head : Nat
  tail : Nat

/-- `Push`: a code for a full ring is dropped. -/
def Keyboard.push (k : Keyboard) (c : u8) : Keyboard :=
  let next := Ring.next RING_SLOTS k.tail
  if next = k.head then k
  else { k with ring := Function.update k.ring k.tail c, tail := next }

def Keyboard.handleIrq (k : Keyboard) (sc : u8) : Keyboard :=
  if sc = 0xE0 then { k with ext := true }
  else
    let released : Bool := sc &&& 0x80 ≠ 0
    let make := sc &&& 0x7F
    if k.ext then
      let k : Keyboard := { k with ext := false }
      if released = false then
        if make = 0x48 then k.push KEY_UP
        else if make = 0x50 then k.push KEY_DOWN
        else if make = 0x4B then k.push KEY_LEFT
        else if make = 0x4D then k.push KEY_RIGHT
        else k
      else k
    else if make = 0x2A ∨ make = 0x36 then { k with shift := !released }
    else if make = 0x3A ∧ released = false then { k with capslock := !k.capslock }
    else if released = true ∨ make ≥ 128 then k
    else
      let lo := sLo.getD make.toNat 0
      let letter : Bool := lo ≥ 0x61 ∧ lo ≤ 0x7A
      let useHi := if letter then k.shift != k.capslock else k.shift
      let c := if useHi then sHi.getD make.toNat 0 else sLo.getD make.toNat 0
      if c ≠ 0 then k.push c else k

/-- `TryRead`: the oldest code, and the keyboard without it. -/
def Keyboard.tryRead (k : Keyboard) : Option (u8 × Keyboard) :=
  if k.head = k.tail then none
  else some (k.ring k.head, { k with head := Ring.next RING_SLOTS k.head })

/-- After `Init`. -/
def Keyboard.init : Keyboard := ⟨⟨false, false, false⟩, fun _ => 0, 0, 0⟩

/-! ## What is typed -/

/-- The code of an arrow key. -/
def arrow (make : u8) : Option u8 :=
  if make = 0x48 then some KEY_UP
  else if make = 0x50 then some KEY_DOWN
  else if make = 0x4B then some KEY_LEFT
  else if make = 0x4D then some KEY_RIGHT
  else none

/-- The code of any other key. -/
def Modes.character (m : Modes) (make : u8) : u8 :=
  let lo := sLo.getD make.toNat 0
  let letter : Bool := lo ≥ 0x61 ∧ lo ≤ 0x7A
  let useHi := if letter then m.shift != m.capslock else m.shift
  if useHi then sHi.getD make.toNat 0 else sLo.getD make.toNat 0

/-- What a scan code does to the modes, and the code that it types. -/
def Modes.decode (m : Modes) (sc : u8) : Modes × Option u8 :=
  let pressed := sc &&& 0x80 = 0
  let make := sc &&& 0x7F
  if sc = 0xE0 then ({ m with ext := true }, none)
  else if m.ext then ({ m with ext := false }, if pressed then arrow make else none)
  else if make = 0x2A ∨ make = 0x36 then ({ m with shift := pressed }, none)
  else if make = 0x3A ∧ pressed then ({ m with capslock := !m.capslock }, none)
  else if pressed ∧ m.character make ≠ 0 then (m, some (m.character make))
  else (m, none)

/-- The keyboard holds the codes that have been typed and not been read. -/
structure Keyboard.Holds (k : Keyboard) (queue : List u8) : Prop where
  head : k.head < RING_SLOTS
  tail : k.tail < RING_SLOTS
  queue : Ring.contents k.ring RING_SLOTS k.head k.tail = queue

section

variable {k : Keyboard} {q : List u8} {c : u8}

theorem init_holds : Keyboard.init.Holds [] := ⟨by decide, by decide, Ring.contents_self _ _ _⟩

/-- **A code is put behind the others** as long as the ring has room for it. -/
theorem Keyboard.Holds.push (h : k.Holds q) (room : q.length + 1 < RING_SLOTS) (c : u8) :
    (k.push c).Holds (q ++ [c]) ∧ (k.push c).toModes = k.toModes := by
  have free : Ring.next RING_SLOTS k.tail ≠ k.head := by
    intro full
    have used := Ring.length_contents k.ring RING_SLOTS k.head k.tail
    rw [h.queue] at used
    have head := h.head
    have tail := h.tail
    simp only [Ring.used, Ring.next, RING_SLOTS] at *
    split at full <;> split at used <;> omega
  rw [Keyboard.push, if_neg free]
  refine ⟨⟨h.head, Ring.next_lt (by decide) _, ?_⟩, rfl⟩
  show Ring.contents (Function.update k.ring k.tail c) _ _ (Ring.next RING_SLOTS k.tail) = _
  rw [Ring.contents_next h.head h.tail free, Ring.contents_update h.head h.tail, h.queue,
    Function.update_self]

theorem Keyboard.Holds.tryRead_nil (h : k.Holds []) : k.tryRead = none := by
  refine if_pos (Classical.byContradiction fun some_ => ?_)
  have queue := h.queue
  rw [Ring.contents_cons h.head h.tail some_] at queue
  cases queue

/-- **The oldest code** is read. -/
theorem Keyboard.Holds.tryRead_cons (h : k.Holds (c :: q)) :
    ∃ k', k.tryRead = some (c, k') ∧ k'.Holds q ∧ k'.toModes = k.toModes := by
  have queue := h.queue
  by_cases empty : k.head = k.tail
  case pos =>
    rw [empty, Ring.contents_self] at queue
    cases queue
  case neg =>
    rw [Ring.contents_cons h.head h.tail empty] at queue
    obtain ⟨rfl, rest⟩ := List.cons.inj queue
    exact ⟨_, if_neg empty, ⟨Ring.next_lt (by decide) _, h.tail, rest⟩, rfl⟩

theorem Keyboard.Holds.modes (h : k.Holds q) (m : Modes) : ({ k with toModes := m } : Keyboard).Holds q :=
  ⟨h.head, h.tail, h.queue⟩

theorem pushes_arrow (k : Keyboard) (make : u8) :
    (if make = 0x48 then k.push KEY_UP
      else if make = 0x50 then k.push KEY_DOWN
      else if make = 0x4B then k.push KEY_LEFT
      else if make = 0x4D then k.push KEY_RIGHT
      else k) =
      match arrow make with
      | none => k
      | some c => k.push c := by
  rw [arrow]
  by_cases up : make = 0x48
  · simp only [if_pos up]
  by_cases down : make = 0x50
  · simp only [if_neg up, if_pos down]
  by_cases left : make = 0x4B
  · simp only [if_neg up, if_neg down, if_pos left]
  by_cases right : make = 0x4D
  · simp only [if_neg up, if_neg down, if_neg left, if_pos right]
  · simp only [if_neg up, if_neg down, if_neg left, if_neg right]

/-- A scan code is its make code when the release bit is clear. -/
theorem make_eq {sc : u8} (pressed : sc &&& 0x80 = 0) : sc &&& 0x7F = sc := by
  have all : (0x80 ||| 0x7F : u8) = BitVec.allOnes 8 := by decide
  calc sc &&& 0x7F = (sc &&& 0x80) ||| (sc &&& 0x7F) := by rw [pressed]; exact BitVec.zero_or.symm
    _ = sc &&& (0x80 ||| 0x7F) := BitVec.and_or_distrib_left.symm
    _ = sc := by rw [all, BitVec.and_allOnes]

/-- **`HandleIrq`** sets the modes and puts the code into the ring. -/
theorem handleIrq_eq (k : Keyboard) (sc : u8) :
    k.handleIrq sc = match k.toModes.decode sc with
      | (m, none) => { k with toModes := m }
      | (m, some c) => ({ k with toModes := m } : Keyboard).push c := by
  have small : ¬ sc &&& 0x7F ≥ 128 := by
    rw [ge_iff_le, BitVec.le_def, BitVec.toNat_and]
    have most := Nat.and_le_right (n := sc.toNat) (m := (0x7F : u8).toNat)
    exact Nat.not_le.mpr (most.trans_lt (by decide))
  rw [Keyboard.handleIrq, Modes.decode]
  by_cases prefix_ : sc = 0xE0
  case pos => rw [if_pos prefix_, if_pos prefix_]
  case neg =>
    rw [if_neg prefix_, if_neg prefix_]
    dsimp only
    generalize sc &&& 0x7F = make at small ⊢
    generalize release : sc &&& 0x80 = bit
    by_cases ext : k.ext = true
    case pos =>
      simp only [if_pos ext]
      by_cases pressed : bit = 0
      · simp only [pressed, ne_eq, not_true_eq_false, decide_false, if_true]
        rw [pushes_arrow]
        cases arrow make <;> rfl
      · simp only [pressed, ne_eq, not_false_eq_true, decide_true, Bool.true_eq_false, if_false]
    case neg =>
      simp only [if_neg ext]
      by_cases shift : make = 0x2A ∨ make = 0x36
      case pos =>
        simp only [if_pos shift]
        by_cases pressed : bit = 0
        · simp only [pressed, ne_eq, not_true_eq_false, decide_false, decide_true, Bool.not_false]
        · simp only [pressed, ne_eq, not_false_eq_true, decide_true, decide_false, Bool.not_true]
      case neg =>
        simp only [if_neg shift]
        by_cases pressed : bit = 0
        case neg =>
          simp only [pressed, ne_eq, not_false_eq_true, decide_true, Bool.true_eq_false, and_false,
            false_and, if_false, true_or, if_true]
        case pos =>
          simp only [pressed, ne_eq, not_true_eq_false, decide_false, and_true, true_and,
            Bool.false_eq_true, false_or, if_neg small]
          by_cases caps : make = 0x3A
          · simp only [if_pos caps]
          · simp only [if_neg caps]
            show (if k.toModes.character make ≠ 0 then k.push (k.toModes.character make) else k) = _
            by_cases some_ : k.toModes.character make = 0
            · simp only [some_, ne_eq, not_true_eq_false, if_false]
            · simp only [some_, ne_eq, not_false_eq_true, if_true]

end

end MicroNT.KB
