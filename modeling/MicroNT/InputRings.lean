import MicroNT.Base.Machine
import MicroNT.KeyboardInput
import MicroNT.MouseInput

/-! # The input rings under interrupts (`keyboard.cpp`, `mouse.cpp`)

The interrupt handlers put codes and packets into a ring while a reader takes them out. A
handler runs to its end, but it may do so between any two steps of the reader: between the
reads of `s_head` and `s_tail`, between two words of the slot that is copied, and before
`s_head` moves on. -/

namespace MicroNT.InputRings

open Base

variable {α β : Type}

/-! ## The two sides -/

/-- `s_ring`, `s_head` and `s_tail`. -/
structure InputRing (α : Type) where
  slots : Nat → α
  head : Nat
  tail : Nat

/-- `Push`, unless the ring is full. -/
def InputRing.push (mask : Nat) (x : α) (r : InputRing α) : Option (InputRing α) :=
  let next := (r.tail + 1) &&& mask
  if next = r.head then none
  else some { r with slots := Function.update r.slots r.tail x, tail := next }

/-- Where the reader is in `TryRead`: before it, behind the read of `s_head`, or with some words
of the slot left to be copied to `out`. -/
inductive Reader (α β : Type)
  | idle
  | gotHead (head : Nat)
  | copying (left : List (α → β)) (out : List β)

/-- The ring and the reader, with what `Push` has accepted and what `TryRead` has returned. -/
structure System (α β : Type) where
  ring : InputRing α
  reader : Reader α β
  accepted : List α
  returned : List (List β)

inductive Label (α : Type)
  | push (x : α)
  | read

/-- An interrupt. -/
def System.push (mask : Nat) (s : System α β) (x : α) : System α β :=
  match s.ring.push mask x with
  | none => s
  | some ring => { s with ring := ring, accepted := s.accepted ++ [x] }

/-- The reader's next step; `words` are the words of a slot. -/
def System.read (mask : Nat) (words : List (α → β)) (s : System α β) : System α β :=
  match s.reader with
  | .idle => { s with reader := .gotHead s.ring.head }
  | .gotHead head => { s with reader := if head = s.ring.tail then .idle else .copying words [] }
  | .copying (w :: left) out =>
    { s with reader := .copying left (out ++ [w (s.ring.slots s.ring.head)]) }
  | .copying [] out =>
    { s with
      ring := { s.ring with head := (s.ring.head + 1) &&& mask }
      reader := .idle
      returned := s.returned ++ [out] }

def step (mask : Nat) (words : List (α → β)) (s : System α β) : Label α → Option (System α β)
  | .push x => some (s.push mask x)
  | .read => some (s.read mask words)

/-- After `Init`, whatever the slots hold. -/
def start (slots : Nat → α) : System α β := ⟨⟨slots, 0, 0⟩, .idle, [], []⟩

/-- How many have been accepted and not been returned. -/
def System.unread (s : System α β) : Nat := s.accepted.length - s.returned.length

/-- A whole copy of an entry. -/
def copyOf (words : List (α → β)) (x : α) : List β := words.map fun w => w x

/-! ## The invariant -/

/-- What the reader has in hand is part of the slot at `s_head`. -/
def Reading (words : List (α → β)) (r : InputRing α) : Reader α β → Prop
  | .idle => True
  | .gotHead head => head = r.head
  | .copying left out =>
    r.head ≠ r.tail ∧ out ++ copyOf left (r.slots r.head) = copyOf words (r.slots r.head)

/-- **The invariant**: the ring holds what has been accepted and not been returned, and what has
been returned are the entries accepted before, in their order. -/
structure Sound (n : Nat) (words : List (α → β)) (s : System α β) : Prop where
  head : s.ring.head < n
  tail : s.ring.tail < n
  queue : Ring.contents s.ring.slots n s.ring.head s.ring.tail =
    s.accepted.drop s.returned.length
  order : s.returned = (s.accepted.take s.returned.length).map (copyOf words)
  reading : Reading words s.ring s.reader

section

variable {n mask k : Nat} {words : List (α → β)} {s : System α β}

/-- The mask takes the last slot back to the first. -/
theorem and_mask (pow : n = 2 ^ k) (size : n = mask + 1) {i : Nat} (hi : i < n) :
    (i + 1) &&& mask = Ring.next n i := by
  have low : mask = 2 ^ k - 1 := by omega
  rw [low, Nat.and_two_pow_sub_one_eq_mod, ← pow, Ring.next]
  split
  case isTrue h => exact Nat.mod_eq_of_lt h
  case isFalse h => rw [show i + 1 = n by omega, Nat.mod_self]

theorem Sound.returned_le (h : Sound n words s) : s.returned.length ≤ s.accepted.length := by
  have length := congrArg List.length h.order
  rw [List.length_map, List.length_take] at length
  omega

/-- What is unread is in the ring. -/
theorem Sound.unread_eq (h : Sound n words s) :
    s.unread = Ring.used n s.ring.head s.ring.tail := by
  rw [System.unread, ← List.length_drop, ← h.queue, Ring.length_contents]

theorem sound_start (pow : n = 2 ^ k) (slots : Nat → α) :
    Sound n words (start slots : System α β) :=
  have positive : 0 < n := pow ▸ Nat.two_pow_pos k
  ⟨positive, positive, Ring.contents_self _ _ _, rfl, trivial⟩

/-- **A push is refused** exactly if all slots but one are unread. -/
theorem Sound.push_refused (h : Sound n words s) (pow : n = 2 ^ k) (size : n = mask + 1) (x : α) :
    s.ring.push mask x = none ↔ s.unread = mask := by
  have head := h.head
  have tail := h.tail
  rw [h.unread_eq, InputRing.push, and_mask pow size tail, Ring.used, Ring.next]
  simp only [ite_eq_left_iff, reduceCtorEq, imp_false, not_not]
  split <;> split <;> omega

theorem Sound.push (h : Sound n words s) (pow : n = 2 ^ k) (size : n = mask + 1) (x : α) :
    Sound n words (s.push mask x) := by
  have positive : 0 < n := by omega
  have le := h.returned_le
  rw [System.push]
  split
  case h_1 => exact h
  case h_2 ring pushed =>
    simp only [InputRing.push, and_mask pow size h.tail] at pushed
    split at pushed
    case isTrue => cases pushed
    case isFalse room =>
      obtain rfl := Option.some.inj pushed
      refine ⟨h.head, Ring.next_lt positive _, ?_, ?_, ?_⟩
      · simp only
        rw [Ring.contents_next h.head h.tail room, Ring.contents_update h.head h.tail,
          h.queue, Function.update_self, List.drop_append_of_le_length le]
      · simp only
        rw [List.take_append_of_le_length le]
        exact h.order
      · -- the slot at `s_head` is not the one that is written
        have reading := h.reading
        cases phase : s.reader with
        | idle => trivial
        | gotHead head =>
          rw [phase] at reading
          exact reading
        | copying left out =>
          rw [phase] at reading
          obtain ⟨some, copied⟩ := reading
          refine ⟨Ne.symm room, ?_⟩
          simp only [Function.update_of_ne some]
          exact copied

theorem Sound.read (h : Sound n words s) (pow : n = 2 ^ k) (size : n = mask + 1) :
    Sound n words (s.read mask words) := by
  have reading := h.reading
  rw [System.read]
  split
  case h_1 => exact ⟨h.head, h.tail, h.queue, h.order, rfl⟩
  case h_2 head phase =>
    rw [phase] at reading
    refine ⟨h.head, h.tail, h.queue, h.order, ?_⟩
    simp only
    split
    case isTrue => trivial
    case isFalse some => exact ⟨reading ▸ some, rfl⟩
  case h_3 w left out phase =>
    rw [phase] at reading
    obtain ⟨some, copied⟩ := reading
    refine ⟨h.head, h.tail, h.queue, h.order, some, ?_⟩
    rw [List.append_assoc]
    exact copied
  case h_4 out phase =>
    rw [phase] at reading
    obtain ⟨some, copied⟩ := reading
    -- the whole slot has been copied, and it holds the oldest entry
    have whole : out = copyOf words (s.ring.slots s.ring.head) := by
      rw [← copied, copyOf, List.map_nil, List.append_nil]
    have queue := h.queue
    rw [Ring.contents_cons h.head h.tail some] at queue
    have oldest : s.accepted[s.returned.length]? = Option.some (s.ring.slots s.ring.head) := by
      rw [← List.head?_drop, ← queue, List.head?_cons]
    have others : s.accepted.drop (s.returned.length + 1) =
        Ring.contents s.ring.slots n (Ring.next n s.ring.head) s.ring.tail := by
      rw [← List.tail_drop, ← queue, List.tail_cons]
    refine ⟨?_, h.tail, ?_, ?_, trivial⟩
    · rw [and_mask pow size h.head]
      exact Ring.next_lt (by omega) _
    · simp only [List.length_append, List.length_singleton]
      rw [and_mask pow size h.head, others]
    · simp only [List.length_append, List.length_singleton]
      rw [List.take_add_one, oldest, Option.toList_some, List.map_append, ← h.order, whole]
      rfl

/-- One step of either side. -/
theorem Sound.step (h : Sound n words s) (pow : n = 2 ^ k) (size : n = mask + 1) {l : Label α}
    {t : System α β} (ran : step mask words s l = some t) : Sound n words t := by
  cases l with
  | push x =>
    obtain rfl := Option.some.inj ran
    exact h.push pow size x
  | read =>
    obtain rfl := Option.some.inj ran
    exact h.read pow size

/-- The invariant along a run of the two. -/
theorem sound_run (pow : n = 2 ^ k) (size : n = mask + 1) {slots : Nat → α}
    {labels : List (Label α)} (ran : Machine.run (InputRings.step mask words) (start slots) labels =
      some s) : Sound n words s :=
  Machine.run_invariant (G := fun _ _ => True) (fun _ _ _ h _ one => Sound.step h pow size one)
    (sound_start pow slots) (Machine.along_of_forall (fun _ _ => trivial) _ labels) ran

/-- What has been returned are copies of the first entries that were accepted. -/
theorem Sound.inOrder (h : Sound n words s) : s.returned <+: s.accepted.map (copyOf words) := by
  rw [h.order]
  exact (List.take_prefix _ _).map _

/-! ## A reader that is not interrupted -/

/-- `TryRead` as one step. -/
def InputRing.tryRead (mask : Nat) (r : InputRing α) : Option (α × InputRing α) :=
  if r.head = r.tail then none
  else some (r.slots r.head, { r with head := (r.head + 1) &&& mask })

/-- The reader's steps, one after the other. -/
def System.reads (mask : Nat) (words : List (α → β)) : Nat → System α β → System α β
  | 0, s => s
  | m + 1, s => System.reads mask words m (s.read mask words)

theorem reads_copying (left : List (α → β)) (out : List β) (s : System α β) :
    System.reads mask words (left.length + 1) { s with reader := .copying left out } =
      { s with
        ring := { s.ring with head := (s.ring.head + 1) &&& mask }
        reader := .idle
        returned := s.returned ++ [out ++ copyOf left (s.ring.slots s.ring.head)] } := by
  induction left generalizing out with
  | nil => simp [System.reads, System.read, copyOf]
  | cons w left ih =>
    rw [List.length_cons, System.reads]
    simp only [System.read]
    rw [ih, List.append_assoc]
    rfl

/-- **An empty ring** takes the reader back to where it was. -/
theorem reads_none (idle : s.reader = .idle) (none : s.ring.tryRead mask = Option.none) :
    System.reads mask words 2 s = s := by
  have same : s.ring.head = s.ring.tail := by
    rw [InputRing.tryRead] at none
    split at none
    case isTrue h => exact h
    case isFalse => cases none
  obtain ⟨ring, reader, accepted, returned⟩ := s
  simp only at idle same
  simp only [System.reads, System.read, idle, same, if_true]

/-- **The steps are `TryRead`**: left alone, they return a copy of the oldest entry. -/
theorem reads_some (idle : s.reader = .idle) {x : α} {r : InputRing α}
    (some : s.ring.tryRead mask = Option.some (x, r)) :
    System.reads mask words (words.length + 3) s =
      { s with ring := r, returned := s.returned ++ [copyOf words x] } := by
  rw [InputRing.tryRead] at some
  split at some
  case isTrue => cases some
  case isFalse more =>
    obtain ⟨rfl, rfl⟩ := Prod.mk.inj (Option.some.inj some)
    have first : s.read mask words = { s with reader := .gotHead s.ring.head } := by
      rw [System.read, idle]
    have second : System.read mask words { s with reader := .gotHead s.ring.head } =
        { s with reader := .copying words [] } := by
      simp only [System.read, if_neg more]
    rw [System.reads, first, System.reads, second, reads_copying, List.nil_append, idle]

end

/-! ## The keyboard and the mouse -/

/-- The ring of `keyboard.cpp`. -/
def keyboardRing (k : KB.Keyboard) : InputRing u8 := ⟨k.ring, k.head, k.tail⟩

/-- The ring of `mouse.cpp`. -/
def mouseRing (m : Shell.Mouse) : InputRing Shell.Packet := ⟨m.ring, m.head, m.tail⟩

theorem keyboard_push {k : KB.Keyboard} (tail : k.tail < KB.RING_SLOTS) (c : u8) :
    keyboardRing (k.push c) = ((keyboardRing k).push 127 c).getD (keyboardRing k) := by
  have next : (k.tail + 1) &&& 127 = Ring.next KB.RING_SLOTS k.tail :=
    and_mask (k := 7) rfl rfl tail
  simp only [InputRing.push, keyboardRing, next, KB.Keyboard.push]
  by_cases full : Ring.next KB.RING_SLOTS k.tail = k.head <;> simp [full]

theorem keyboard_tryRead {k : KB.Keyboard} (head : k.head < KB.RING_SLOTS) :
    k.tryRead.map (fun (c, k') => (c, keyboardRing k')) = (keyboardRing k).tryRead 127 := by
  have next : (k.head + 1) &&& 127 = Ring.next KB.RING_SLOTS k.head :=
    and_mask (k := 7) rfl rfl head
  simp only [InputRing.tryRead, keyboardRing, next, KB.Keyboard.tryRead]
  by_cases empty : k.head = k.tail <;> simp [empty]

theorem mouse_push {m : Shell.Mouse} (tail : m.tail < Shell.RING_SLOTS) (p : Shell.Packet) :
    mouseRing (m.push p) = ((mouseRing m).push 31 p).getD (mouseRing m) := by
  have next : (m.tail + 1) &&& 31 = Ring.next Shell.RING_SLOTS m.tail :=
    and_mask (k := 5) rfl rfl tail
  simp only [InputRing.push, mouseRing, next, Shell.Mouse.push]
  by_cases full : Ring.next Shell.RING_SLOTS m.tail = m.head <;> simp [full]

theorem mouse_tryRead {m : Shell.Mouse} (head : m.head < Shell.RING_SLOTS) :
    m.tryRead.map (fun (p, m') => (p, mouseRing m')) = (mouseRing m).tryRead 31 := by
  have next : (m.head + 1) &&& 31 = Ring.next Shell.RING_SLOTS m.head :=
    and_mask (k := 5) rfl rfl head
  simp only [InputRing.tryRead, mouseRing, next, Shell.Mouse.tryRead]
  by_cases empty : m.head = m.tail <;> simp [empty]

/-- A code is a single word. -/
def keyboardStep : System u8 u8 → Label u8 → Option (System u8 u8) := step 127 [fun c => c]

/-- A packet is copied in any number of words. -/
def mouseStep (words : List (Shell.Packet → β)) :
    System Shell.Packet β → Label Shell.Packet → Option (System Shell.Packet β) := step 31 words

/-- **No input is lost or made up**: wherever interrupts fall, what `TryRead` returns is what
`Push` has accepted, from the first entry on and in order, and a push is refused only while
127 codes, or 31 packets, are unread. -/
theorem rings_fifo :
    (∀ (slots : Nat → u8) (labels : List (Label u8)) (s : System u8 u8),
      Machine.run keyboardStep (start slots) labels = some s →
        s.returned <+: s.accepted.map (fun c => [c]) ∧
        ∀ c, s.ring.push 127 c = none → s.unread = 127) ∧
    ∀ (β : Type) (words : List (Shell.Packet → β)) (slots : Nat → Shell.Packet)
      (labels : List (Label Shell.Packet)) (s : System Shell.Packet β),
      Machine.run (mouseStep words) (start slots) labels = some s →
        s.returned <+: s.accepted.map (copyOf words) ∧
        ∀ p, s.ring.push 31 p = none → s.unread = 31 := by
  constructor
  · intro slots labels s ran
    have sound := sound_run (n := 128) (k := 7) rfl rfl ran
    exact ⟨sound.inOrder, fun c full => (sound.push_refused (k := 7) rfl rfl c).mp full⟩
  · intro β words slots labels s ran
    have sound := sound_run (n := 32) (k := 5) rfl rfl ran
    exact ⟨sound.inOrder, fun p full => (sound.push_refused (k := 5) rfl rfl p).mp full⟩

/-- An interrupt between the copy of the slot and the move of `s_head`. -/
example : (Machine.run keyboardStep (start fun _ => 0) [.push 0x61, .read, .read, .read, .push 0x62,
    .read, .read, .read, .read, .read]).map System.returned = some [[0x61], [0x62]] := by decide

end MicroNT.InputRings
