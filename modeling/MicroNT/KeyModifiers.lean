import MicroNT.Base.Machine
import MicroNT.KeyboardInput

/-! # Shift and Caps Lock (`keyboard.cpp`)

The driver has one flag for both Shift keys and toggles another at each make code of Caps
Lock. Beside it here: which of these keys are down. -/

namespace MicroNT.KB

open Base Base.Machine

/-! ## Scan code sequences -/

/-- A byte that begins no longer sequence. -/
def Single (sc : u8) : Prop := sc ≠ 0xE0 ∧ sc ≠ 0xE1

/-- A complete sequence of set 1: one code, one code after the prefix `0xE0`, or what the
Pause key sends. -/
inductive Sequence
  | plain (sc : u8) (single : Single sc)
  | extended (sc : u8) (single : Single sc)
  | pause (released : Bool)

def Sequence.bytes : Sequence → List u8
  | .plain sc _ => [sc]
  | .extended sc _ => [0xE0, sc]
  | .pause false => [0xE1, 0x1D, 0x45]
  | .pause true => [0xE1, 0x9D, 0xC5]

def Keyboard.handleAll (k : Keyboard) (codes : List u8) : Keyboard := codes.foldl Keyboard.handleIrq k

/-! ## The keys -/

/-- Which keys are down, and whether Caps Lock is on. -/
structure Keys where
  left : Bool
  right : Bool
  capsHeld : Bool
  capsOn : Bool

/-- Some Shift key is down. -/
def Keys.shift (keys : Keys) : Bool := keys.left || keys.right

/-- The keys after a sequence. A make code of a key that is down is a repeat. -/
def Keys.after (keys : Keys) : Sequence → Keys
  | .plain sc _ =>
    if sc = 0x2A then { keys with left := true }
    else if sc = 0xAA then { keys with left := false }
    else if sc = 0x36 then { keys with right := true }
    else if sc = 0xB6 then { keys with right := false }
    else if sc = 0x3A then
      { keys with capsHeld := true, capsOn := if keys.capsHeld then keys.capsOn else !keys.capsOn }
    else if sc = 0xBA then { keys with capsHeld := false }
    else keys
  | _ => keys

/-- The key types a letter. -/
def IsLetter (make : u8) : Prop := 0x61 ≤ sLo.getD make.toNat 0 ∧ sLo.getD make.toNat 0 ≤ 0x7A

instance (sc : u8) : Decidable (Single sc) := inferInstanceAs (Decidable (_ ∧ _))

instance (make : u8) : Decidable (IsLetter make) := inferInstanceAs (Decidable (_ ∧ _))

/-- Whether the key types its shifted variant. -/
def Keys.Shifted (keys : Keys) (make : u8) : Prop :=
  if IsLetter make then (keys.shift != keys.capsOn) = true else keys.shift = true

instance (keys : Keys) (make : u8) : Decidable (keys.Shifted make) :=
  inferInstanceAs (Decidable (ite _ _ _))

/-- The character a key types. -/
def Keys.variant (keys : Keys) (make : u8) : u8 :=
  if keys.Shifted make then sHi.getD make.toNat 0 else sLo.getD make.toNat 0

/-- The code that a sequence types, if it types one. -/
def Keys.code (keys : Keys) : Sequence → Option u8
  | .plain sc _ =>
    if sc &&& 0x80 = 0 ∧ keys.variant sc ≠ 0 then some (keys.variant sc) else none
  | .extended sc _ => if sc &&& 0x80 = 0 then arrow (sc &&& 0x7F) else none
  | .pause _ => none

/-! ## The driver beside the keys -/

structure Typing where
  kb : Keyboard
  keys : Keys

def Typing.step (t : Typing) (q : Sequence) : Option Typing :=
  some ⟨t.kb.handleAll q.bytes, t.keys.after q⟩

/-- What is on the ring. -/
def Keyboard.queued (k : Keyboard) : List u8 := Ring.contents k.ring RING_SLOTS k.head k.tail

/-- The keyboard with one more code, if there is one. -/
def Keyboard.typed (k : Keyboard) : Option u8 → Keyboard
  | none => k
  | some c => k.push c

/-- **The right code** is pushed for the sequence, whatever the ring holds. -/
def Typing.Right (t : Typing) (q : Sequence) : Prop :=
  ∀ k : Keyboard, k.toModes = t.kb.toModes →
    (k.handleAll q.bytes).queued = (k.typed (t.keys.code q)).queued

/-- No Shift key is released while the other one is down, and Caps Lock does not repeat. -/
def Typing.Tidy (t : Typing) : Sequence → Prop
  | .plain sc _ =>
    (sc = 0xAA → t.keys.right = false) ∧ (sc = 0xB6 → t.keys.left = false) ∧
      (sc = 0x3A → t.keys.capsHeld = false)
  | _ => True

instance instDecidableTidy (t : Typing) : (q : Sequence) → Decidable (t.Tidy q)
  | .plain _ _ => inferInstanceAs (Decidable (_ ∧ _))
  | .extended _ _ => inferInstanceAs (Decidable True)
  | .pause _ => inferInstanceAs (Decidable True)

/-- The driver's flags are those of the keys. -/
structure Typing.Agrees (t : Typing) : Prop where
  shift : t.kb.shift = t.keys.shift
  capslock : t.kb.capslock = t.keys.capsOn
  ext : t.kb.ext = false

/-! ## One sequence -/

section

variable {k : Keyboard} {m : Modes} {keys : Keys} {t t' : Typing} {q : Sequence} {sc : u8}

/-- The flags of the driver, taken for keys. -/
def Modes.asKeys (m : Modes) : Keys := ⟨m.shift, false, false, m.capslock⟩

theorem Modes.asKeys_variant (m : Modes) (make : u8) : m.asKeys.variant make = m.character make := by
  rw [Keys.variant, Modes.character]
  by_cases letter : IsLetter make <;>
    simp [Keys.Shifted, Keys.shift, Modes.asKeys, IsLetter] at letter ⊢

/-- The keys count by their flags alone. -/
theorem Keys.code_congr {keys keys' : Keys} (shift : keys.shift = keys'.shift)
    (caps : keys.capsOn = keys'.capsOn) (q : Sequence) : keys.code q = keys'.code q := by
  have variant : keys.variant = keys'.variant := by
    funext make
    have same : keys.Shifted make ↔ keys'.Shifted make := by
      rw [Keys.Shifted, Keys.Shifted, shift, caps]
    simp only [Keys.variant, same]
  cases q <;> simp only [Keys.code, variant]

/-- A modifier key types nothing. -/
theorem character_modifier (m : Modes) (make : u8) (h : make = 0x2A ∨ make = 0x36 ∨ make = 0x3A) :
    m.character make = 0 := by
  rw [← m.asKeys_variant, Keys.variant]
  rcases h with rfl | rfl | rfl <;> split <;> rfl

/-- **A single code** types what its key types under the driver's flags. -/
theorem decode_plain (single : Single sc) (ext : m.ext = false) :
    (m.decode sc).2 = m.asKeys.code (.plain sc single) := by
  rw [Modes.decode, if_neg single.1, ext, if_neg Bool.false_ne_true, Keys.code, m.asKeys_variant]
  by_cases pressed : sc &&& 0x80 = 0
  case neg => simp only [pressed, and_false, false_and, if_false]; split <;> rfl
  case pos =>
    rw [make_eq pressed]
    by_cases modifier : sc = 0x2A ∨ sc = 0x36 ∨ sc = 0x3A
    case pos =>
      rw [character_modifier m sc modifier]
      simp only [ne_eq, not_true_eq_false, and_false, if_false]
      split
      · rfl
      · split <;> rfl
    case neg =>
      obtain ⟨left, right, caps⟩ : sc ≠ 0x2A ∧ sc ≠ 0x36 ∧ sc ≠ 0x3A := by
        simpa only [not_or] using modifier
      rw [if_neg (not_or.mpr ⟨left, right⟩), if_neg fun h => caps h.1]
      split <;> rfl

/-- What a single code does to the flags. -/
theorem decode_modes (single : Single sc) (ext : m.ext = false) :
    (m.decode sc).1 = { m with
      shift := if sc = 0x2A ∨ sc = 0x36 then true
        else if sc = 0xAA ∨ sc = 0xB6 then false else m.shift
      capslock := if sc = 0x3A then !m.capslock else m.capslock } := by
  have shiftCode : ∀ sc : u8, (sc &&& 0x7F = 0x2A ∨ sc &&& 0x7F = 0x36 ↔
      (sc = 0x2A ∨ sc = 0x36) ∨ sc = 0xAA ∨ sc = 0xB6) := by decide
  have capsCode : ∀ sc : u8, (sc &&& 0x7F = 0x3A ∧ sc &&& 0x80 = 0 ↔ sc = 0x3A) := by decide
  have plain : ¬ m.ext = true := by rw [ext]; exact Bool.false_ne_true
  rw [Modes.decode, if_neg single.1, if_neg plain]
  simp only [shiftCode, capsCode]
  by_cases press : sc = 0x2A ∨ sc = 0x36
  case pos =>
    have other : sc ≠ 0x3A := by rintro rfl; exact absurd press (by decide)
    have made : sc &&& 0x80 = 0 := by rcases press with rfl | rfl <;> rfl
    simp only [press, true_or, if_true, other, if_false, made, decide_true]
  case neg =>
    by_cases release : sc = 0xAA ∨ sc = 0xB6
    case pos =>
      have other : sc ≠ 0x3A := by rintro rfl; exact absurd release (by decide)
      have broken : ¬ sc &&& 0x80 = 0 := by rcases release with rfl | rfl <;> decide
      simp only [press, release, or_true, if_true, if_false, other, broken, decide_false]
    case neg =>
      simp only [press, release, or_false, if_false]
      split
      case isTrue => rfl
      case isFalse => split <;> rfl

/-- The flags after a sequence. -/
def Modes.after (m : Modes) : Sequence → Modes
  | .plain sc _ => (m.decode sc).1
  | _ => m

@[simp] theorem Keyboard.typed_toModes (k : Keyboard) (c : Option u8) :
    (k.typed c).toModes = k.toModes := by
  cases c with
  | none => rfl
  | some c =>
    rw [Keyboard.typed, Keyboard.push]
    split <;> rfl

/-- The flags do not matter for the ring. -/
theorem Keyboard.typed_queued (k : Keyboard) (m : Modes) (c : Option u8) :
    (({ k with toModes := m } : Keyboard).typed c).queued = (k.typed c).queued := by
  cases c with
  | none => rfl
  | some c =>
    simp only [Keyboard.typed, Keyboard.push]
    split <;> rfl

theorem handleIrq_typed (k : Keyboard) (sc : u8) :
    k.handleIrq sc = ({ k with toModes := (k.toModes.decode sc).1 } : Keyboard).typed
      (k.toModes.decode sc).2 := by
  rw [handleIrq_eq]
  cases typed : k.toModes.decode sc with
  | mk m c => cases c <;> rfl

/-- A code that leaves the flags as they are and types nothing. -/
theorem handleIrq_ignored (h : k.toModes.decode sc = (k.toModes, none)) : k.handleIrq sc = k := by
  rw [handleIrq_typed, h]
  rfl

/-- **A sequence** pushes what the driver's flags, taken for keys, type. -/
theorem handleAll_sequence (ext : k.ext = false) (q : Sequence) :
    (k.handleAll q.bytes).toModes = k.toModes.after q ∧
      (k.handleAll q.bytes).queued = (k.typed (k.toModes.asKeys.code q)).queued := by
  cases q with
  | plain sc single =>
    have one : k.handleAll (Sequence.plain sc single).bytes = k.handleIrq sc := rfl
    rw [one, handleIrq_typed, Keyboard.typed_toModes, Keyboard.typed_queued, decode_plain single ext]
    exact ⟨rfl, rfl⟩
  | extended sc single =>
    have two : k.handleAll (Sequence.extended sc single).bytes =
        ({ k with ext := true } : Keyboard).handleIrq sc := rfl
    have code : ({ k with ext := true } : Keyboard).toModes.decode sc =
        (k.toModes, k.toModes.asKeys.code (.extended sc single)) := by
      rw [Modes.decode, if_neg single.1, if_pos rfl, Keys.code]
      obtain ⟨⟨shift, caps, prefixed⟩, ring, head, tail⟩ := k
      subst ext
      rfl
    rw [two, handleIrq_typed, code, Keyboard.typed_toModes]
    exact ⟨rfl, (Keyboard.typed_queued { k with ext := true } k.toModes _).trans
      (Keyboard.typed_queued k { k.toModes with ext := true } _)⟩
  | pause released =>
    have none : ∀ sc, sc = 0xE1 ∨ sc = 0x1D ∨ sc = 0x45 ∨ sc = 0x9D ∨ sc = 0xC5 →
        k.toModes.decode sc = (k.toModes, none) := by
      obtain ⟨⟨shift, caps, prefixed⟩, ring, head, tail⟩ := k
      subst ext
      rintro sc (rfl | rfl | rfl | rfl | rfl) <;> cases shift <;> cases caps <;> rfl
    have ignored : ∀ sc, sc = 0xE1 ∨ sc = 0x1D ∨ sc = 0x45 ∨ sc = 0x9D ∨ sc = 0xC5 →
        k.handleIrq sc = k := fun sc h => handleIrq_ignored (none sc h)
    cases released with
    | false =>
      have same : k.handleAll (Sequence.pause false).bytes = k := by
        simp only [Sequence.bytes, Keyboard.handleAll, List.foldl_cons, List.foldl_nil]
        rw [ignored _ (by decide), ignored _ (by decide), ignored _ (by decide)]
      rw [same]
      exact ⟨rfl, rfl⟩
    | true =>
      have same : k.handleAll (Sequence.pause true).bytes = k := by
        simp only [Sequence.bytes, Keyboard.handleAll, List.foldl_cons, List.foldl_nil]
        rw [ignored _ (by decide), ignored _ (by decide), ignored _ (by decide)]
      rw [same]
      exact ⟨rfl, rfl⟩

/-- An empty ring shows what is pushed. -/
theorem typed_empty (m : Modes) (c : Option u8) :
    (({ Keyboard.init with toModes := m } : Keyboard).typed c).queued = c.toList := by
  rw [Keyboard.typed_queued]
  cases c with
  | none => rfl
  | some c => exact (init_holds.push (by decide) c).1.queue

/-- **The next sequence** is typed right if the flags type what the keys type. -/
theorem right_iff (ext : t.kb.ext = false) (q : Sequence) :
    t.Right q ↔ t.kb.toModes.asKeys.code q = t.keys.code q := by
  constructor
  · intro right
    have empty := right { Keyboard.init with toModes := t.kb.toModes } rfl
    have pushed := (handleAll_sequence (k := { Keyboard.init with toModes := t.kb.toModes }) ext q).2
    rw [pushed, typed_empty, typed_empty] at empty
    simpa using congrArg List.head? empty
  · intro same k modes
    have ext' : k.ext = false := (congrArg Modes.ext modes).trans ext
    rw [(handleAll_sequence ext' q).2, modes, same]

/-- The key of the digit 1 shows the Shift keys alone. -/
theorem code_digit (keys : Keys) (single : Single 0x02) :
    keys.code (.plain 0x02 single) = some (if keys.shift then 0x21 else 0x31) := by
  obtain ⟨left, right, held, on⟩ := keys
  cases left <;> cases right <;> cases on <;> rfl

/-- The key of the letter a shows whether exactly one of Shift and Caps Lock counts. -/
theorem code_letter (keys : Keys) (single : Single 0x1E) :
    keys.code (.plain 0x1E single) = some (if keys.shift != keys.capsOn then 0x41 else 0x61) := by
  obtain ⟨left, right, held, on⟩ := keys
  cases left <;> cases right <;> cases on <;> rfl

/-- **Every next sequence** is typed right exactly if the flags are those of the keys: a
digit shows the one, and a letter then the other. -/
theorem right_all_iff (ext : t.kb.ext = false) : (∀ q, t.Right q) ↔ t.Agrees := by
  constructor
  · intro right
    have digit := (right_iff ext _).mp (right (.plain 0x02 (by decide)))
    have letter := (right_iff ext _).mp (right (.plain 0x1E (by decide)))
    rw [code_digit, code_digit] at digit
    rw [code_letter, code_letter] at letter
    have shift : t.kb.toModes.asKeys.shift = t.keys.shift := by
      revert digit
      cases t.kb.toModes.asKeys.shift <;> cases t.keys.shift <;> decide
    rw [shift] at letter
    have caps : t.kb.capslock = t.keys.capsOn := by
      revert letter
      show some (if t.keys.shift != t.kb.capslock then (0x41 : u8) else 0x61) = _ → _
      cases t.keys.shift <;> cases t.kb.capslock <;> cases t.keys.capsOn <;> decide
    exact ⟨(Bool.or_false _).symm.trans shift, caps, ext⟩
  · intro agrees q
    rw [right_iff ext]
    have shift : t.kb.toModes.asKeys.shift = t.keys.shift := (Bool.or_false _).trans agrees.shift
    exact Keys.code_congr shift agrees.capslock q

/-- The driver's flags after a single code. -/
theorem step_flags (ext : t.kb.ext = false) (single : Single sc) :
    let kb := t.kb.handleAll (Sequence.plain sc single).bytes
    kb.shift = (if sc = 0x2A ∨ sc = 0x36 then true
        else if sc = 0xAA ∨ sc = 0xB6 then false else t.kb.shift) ∧
      kb.capslock = (if sc = 0x3A then !t.kb.capslock else t.kb.capslock) ∧ kb.ext = false := by
  have modes := (handleAll_sequence ext (.plain sc single)).1.trans (decode_modes single ext)
  exact ⟨congrArg Modes.shift modes, congrArg Modes.capslock modes,
    (congrArg Modes.ext modes).trans ext⟩

theorem step_ext (ext : t.kb.ext = false) (next : t.step q = some t') : t'.kb.ext = false := by
  obtain rfl := Option.some.inj next
  have modes := (handleAll_sequence ext q).1
  cases q with
  | plain sc single => exact (step_flags ext single).2.2
  | extended sc single => exact (congrArg Modes.ext modes).trans ext
  | pause released => exact (congrArg Modes.ext modes).trans ext

theorem agrees_iff {kb : Keyboard} (ext : kb.ext = false) :
    Typing.Agrees ⟨kb, keys⟩ ↔ kb.shift = keys.shift ∧ kb.capslock = keys.capsOn :=
  ⟨fun a => ⟨a.shift, a.capslock⟩, fun a => ⟨a.1, a.2, ext⟩⟩

/-- **One sequence** keeps the flags those of the keys exactly if it is tidy. -/
theorem Typing.Agrees.step_iff (h : t.Agrees) (next : t.step q = some t') :
    t'.Agrees ↔ t.Tidy q := by
  have ext' := step_ext h.ext next
  obtain rfl := Option.some.inj next
  have shift := h.shift
  have caps := h.capslock
  rw [agrees_iff ext']
  cases q with
  | extended sc single =>
    have modes := (handleAll_sequence h.ext (.extended sc single)).1
    exact iff_of_true ⟨(congrArg Modes.shift modes).trans shift,
      (congrArg Modes.capslock modes).trans caps⟩ trivial
  | pause released =>
    have modes := (handleAll_sequence h.ext (.pause released)).1
    exact iff_of_true ⟨(congrArg Modes.shift modes).trans shift,
      (congrArg Modes.capslock modes).trans caps⟩ trivial
  | plain sc single =>
    obtain ⟨shift', caps', -⟩ := step_flags h.ext single
    rw [shift', caps', shift, caps]
    obtain ⟨kb, left, right, held, on⟩ := t
    simp only [Keys.after, Typing.Tidy, Keys.shift]
    by_cases leftMake : sc = 0x2A
    · subst leftMake; simp
    by_cases leftBreak : sc = 0xAA
    · subst leftBreak; simp
    by_cases rightMake : sc = 0x36
    · subst rightMake; simp
    by_cases rightBreak : sc = 0xB6
    · subst rightBreak; simp
    by_cases capsMake : sc = 0x3A
    · subst capsMake; cases held <;> simp
    by_cases capsBreak : sc = 0xBA
    · subst capsBreak; simp
    simp only [leftMake, leftBreak, rightMake, rightBreak, capsMake, capsBreak, or_self, if_false,
      false_imp_iff, and_self]

end

/-! ## Streams -/

/-- **Every stream of sequences**: whatever is typed next has the right variant, at every
point of the stream, exactly as long as no Shift key is released while the other one is down
and Caps Lock does not repeat. Then each sequence of the stream is typed right. -/
theorem modifiers_tracked {t : Typing} (start : t.Agrees) (stream : List Sequence) :
    (Always Typing.step (fun t => ∀ q, t.Right q) t stream ↔ Along Typing.step Typing.Tidy t stream) ∧
      (Along Typing.step Typing.Tidy t stream → Along Typing.step Typing.Right t stream) := by
  have whole : Always Typing.step (fun t => ∀ q, t.Right q) t stream ↔
      Along Typing.step Typing.Tidy t stream :=
    always_iff_along (I := Typing.Agrees)
      (fun t q t' agrees tidy next => (agrees.step_iff next).mpr tidy)
      (fun t agrees => (right_all_iff agrees.ext).mpr agrees)
      (fun t q t' agrees untidy next right => untidy <|
        (agrees.step_iff next).mp ((right_all_iff (step_ext agrees.ext next)).mp right))
      (fun t q refused => by cases refused) start
  exact ⟨whole, fun tidy => (whole.mpr tidy).along fun t q right => right q⟩

/-- After `Init`, with no key down. -/
def Typing.first : Typing := ⟨Keyboard.init, ⟨false, false, false, false⟩⟩

theorem first_agrees : Typing.first.Agrees := ⟨rfl, rfl, rfl⟩

/-- A sequence of one code. -/
def code (sc : u8) (single : Single sc) : Sequence := .plain sc single

/-- Shift and a digit, then Caps Lock and a letter. -/
def tidyTyping : List Sequence :=
  [code 0x2A (by decide), code 0x02 (by decide), code 0xAA (by decide), code 0x3A (by decide),
    code 0xBA (by decide), code 0x1E (by decide)]

theorem modifiers_tracked_tidy :
    Along Typing.step Typing.Right Typing.first tidyTyping :=
  (modifiers_tracked first_agrees tidyTyping).2 (by decide)

/-- Both Shift keys go down, the left one comes up, and the digit 1 is struck. -/
def twoShifts : List Sequence :=
  [code 0x2A (by decide), code 0x36 (by decide), code 0xAA (by decide), code 0x02 (by decide)]

/-- **A Shift key that is still down** no longer counts once the other one is released. -/
theorem second_shift_lost :
    ¬ ∀ t : Typing, t.Agrees → ∀ stream, Along Typing.step Typing.Right t stream := by
  intro h
  have all := h Typing.first first_agrees twoShifts
  have last := (((all.2 _ rfl).2 _ rfl).2 _ rfl).1
  have typed := (right_iff rfl _).mp last
  exact absurd typed (by decide)

end MicroNT.KB
