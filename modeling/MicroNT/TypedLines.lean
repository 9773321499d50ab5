import MicroNT.KeyboardInput
import MicroNT.LineBounds
import Mathlib.Data.Bool.AllAny

/-! # What is typed and what is read (`keyboard.cpp`, `NT_READ_LINE` in `syscall.cpp`)

The codes of the arrow keys go through the same ring as the characters. The editor knows Up and
Down and takes any other code for a character, Left and Right included. Beside the code stands a
typist whose keys are never dropped and whose line has printable characters only. -/

namespace MicroNT.ReadLine

open Base Base.Machine Base.Reads Base.Reads.Traced
open KB (Keyboard Modes RING_SLOTS KEY_LEFT KEY_RIGHT)

def Printable (c : u8) : Prop := 0x20 ≤ c.toNat ∧ c.toNat ≤ 0x7E

instance : DecidablePred Printable := fun _ => inferInstanceAs (Decidable (_ ∧ _))

def Visible (l : List u8) : Prop := ∀ c ∈ l, Printable c

/-! ## The code -/

/-- The keyboard, the console, and the lines that callers have got. -/
structure Desk where
  kb : Keyboard
  console : Console
  returned : List (List u8)

/-- A scan code arrives, `NT_READ_LINE` is called, or its loop tries to read a key. -/
inductive Input
  | irq (sc : u8)
  | call (a2 : u64)
  | poll

def Desk.boot : Desk := ⟨.init, .boot, []⟩

/-- A line that the kernel has not carried out itself is returned. -/
def note (returned : List (List u8)) : Option Entered → List (List u8)
  | some (.line _ text) => returned ++ [text]
  | _ => returned

def Desk.after (d : Desk) (kb : Keyboard) (x : Traced Place (Console × Option Entered)) :
    Option Desk :=
  x.result.map fun r => ⟨kb, r.1, note d.returned r.2⟩

def Desk.step (d : Desk) : Input → Option Desk
  | .irq sc => some { d with kb := d.kb.handleIrq sc }
  | .call a2 => (d.console.call a2).bind (d.after d.kb)
  | .poll =>
    match d.console.editor with
    | none => none
    | some _ =>
      match d.kb.tryRead with
      | none => some d
      | some (ch, kb) => (d.console.key ch).bind (d.after kb)

/-! ## The typist -/

/-- The codes that have been typed and not been read, and the lines with what is visible. -/
structure Typist where
  modes : Modes
  queue : List u8
  book : Book
  returned : List (List u8)

def Typist.boot : Typist := ⟨⟨false, false, false⟩, [], ⟨[], none⟩, []⟩

/-- A key edits the line, or adds a character to it that can be printed. -/
def Draft.type (d : Draft) (es : List (List u8)) (ch : u8) : Draft :=
  if ch = 0x08 then { d with text := d.text.dropLast }
  else if ch = 0x09 then d.complete
  else if ch = KEY_UP then d.recall es (d.pos + 1)
  else if ch = KEY_DOWN then d.recall es (d.pos - 1)
  else if Printable ch then { d with text := d.text ++ [ch] }
  else d

def Typist.after (t : Typist) (queue : List u8) (r : Book × Option Entered) : Typist :=
  ⟨t.modes, queue, r.1, note t.returned r.2⟩

def Typist.step (t : Typist) : Input → Option Typist
  | .irq sc =>
    let (modes, code) := t.modes.decode sc
    some { t with modes := modes, queue := t.queue ++ code.toList }
  | .call a2 => (t.book.call a2).map (t.after t.queue)
  | .poll =>
    match t.book.draft with
    | none => none
    | some d =>
      match t.queue with
      | [] => some t
      | ch :: rest =>
        some (t.after rest ((d.type t.book.lines ch).loop t.book.lines (decide (ch = 0x0A))))

/-- **The lines that are returned** are those of the typist, and can be printed. -/
def LinesRight (inputs : List Input) : Prop :=
  ∀ d, run Desk.step .boot inputs = some d →
    ∃ t, run Typist.step .boot inputs = some t ∧ d.returned = t.returned ∧
      ∀ l ∈ d.returned, Visible l

/-- Left and Right are not pressed, no key is pressed while 127 codes wait, and no caller allows
more than 512 bytes. -/
def Readable (t : Typist) : Input → Prop
  | .irq sc => ¬ (t.modes.ext = true ∧ (sc = 0x4B ∨ sc = 0x4D)) ∧
      ((t.modes.decode sc).2 ≠ none → t.queue.length + 1 < RING_SLOTS)
  | .call a2 => a2.toNat ≤ LINE_SIZE
  | .poll => True

instance (t : Typist) : DecidablePred (Readable t)
  | .irq _ => inferInstanceAs (Decidable (_ ∧ _))
  | .call _ => inferInstanceAs (Decidable (_ ≤ _))
  | .poll => inferInstanceAs (Decidable True)

/-! ## Codes -/

/-- The codes that the editor does not put into the line. -/
def Edits (c : u8) : Prop := c = 0x08 ∨ c = 0x09 ∨ c = 0x0A ∨ c = KEY_UP ∨ c = KEY_DOWN

instance : DecidablePred Edits := fun _ => inferInstanceAs (Decidable (_ ∨ _))

def Known (c : u8) : Prop := Printable c ∨ Edits c

instance : DecidablePred Known := fun _ => inferInstanceAs (Decidable (_ ∨ _))

section

variable {m : Modes} {sc c make : u8} {es : List (List u8)} {d : Draft} {l : List u8}
  {returned : List (List u8)} {breaks : Bool}

/-- Every key of the tables can be printed or edits the line. -/
theorem table_known : ∀ c ∈ KB.sLo ++ KB.sHi, c = 0 ∨ Known c := by
  have all : (KB.sLo ++ KB.sHi).all fun c => decide (c = 0 ∨ Known c) := by decide +kernel
  exact List.all_iff_forall_prop.mp all

theorem getD_mem (l : List u8) (i : Nat) : l.getD i 0 = 0 ∨ l.getD i 0 ∈ l := by
  by_cases inside : i < l.length
  · rw [List.getD_eq_getElem _ _ inside]
    exact .inr (List.getElem_mem inside)
  · exact .inl (List.getD_eq_default _ _ (Nat.le_of_not_lt inside))

theorem character_known (m : Modes) (make : u8) :
    m.character make = 0 ∨ Known (m.character make) := by
  have lo := (getD_mem KB.sLo make.toNat).imp_right fun h =>
    table_known _ (List.mem_append_left _ h)
  have hi := (getD_mem KB.sHi make.toNat).imp_right fun h =>
    table_known _ (List.mem_append_right _ h)
  rw [Modes.character]
  generalize KB.sLo.getD make.toNat 0 = a at lo ⊢
  generalize KB.sHi.getD make.toNat 0 = b at hi ⊢
  rw [or_self_left] at lo hi
  generalize (if decide (a ≥ 0x61 ∧ a ≤ 0x7A) = true then m.shift != m.capslock else m.shift) = useHi
  cases useHi with
  | true => exact hi
  | false => exact lo

theorem arrow_known (h : KB.arrow make = some c) : Known c ∨ make = 0x4B ∨ make = 0x4D := by
  rw [KB.arrow] at h
  split at h
  · obtain rfl := Option.some.inj h
    exact .inl (by decide)
  · split at h
    · obtain rfl := Option.some.inj h
      exact .inl (by decide)
    · split at h
      case isTrue left => exact .inr (.inl left)
      case isFalse =>
        split at h
        case isTrue right => exact .inr (.inr right)
        case isFalse => cases h

/-- **Every code that is typed** can be printed or edits the line, but for Left and Right. -/
theorem decode_known (h : (m.decode sc).2 = some c)
    (not : ¬ (m.ext = true ∧ (sc = 0x4B ∨ sc = 0x4D))) : Known c := by
  rw [Modes.decode] at h
  split at h
  case isTrue => cases h
  case isFalse =>
    split at h
    case isTrue ext =>
      obtain ⟨pressed, h⟩ := Option.ite_none_right_eq_some.mp h
      rw [KB.make_eq pressed] at h
      exact (arrow_known h).resolve_right fun side => not ⟨ext, side⟩
    case isFalse =>
      split at h
      case isTrue => cases h
      case isFalse =>
        split at h
        case isTrue => cases h
        case isFalse =>
          split at h
          case isTrue some_ =>
            obtain rfl := Option.some.inj h
            exact (character_known m _).resolve_left some_.2
          case isFalse => cases h

theorem known_ne_zero (h : Known c) : c ≠ 0 := by
  rintro rfl
  exact absurd h (by decide)

/-! ## Lines -/

/-- The editor does with a known code what the typist means. -/
theorem type_eq (known : Known c) : d.type es c = d.press es c := by
  rw [Draft.type, Draft.press]
  rcases known with visible | rfl | rfl | rfl | rfl | rfl
  case inl =>
    have apart : ∀ k : u8, ¬ Printable k → c ≠ k := fun k no e => no (e ▸ visible)
    rw [if_neg (apart _ (by decide)), if_neg (apart _ (by decide)), if_neg (apart _ (by decide)),
      if_neg (apart _ (by decide)), if_pos visible,
      if_neg (not_or.mpr ⟨apart _ (by decide), apart _ (by decide)⟩), if_neg (apart _ (by decide)),
      if_neg (apart _ (by decide)), if_neg (not_or.mpr ⟨apart _ (by decide), apart _ (by decide)⟩)]
  all_goals rfl

theorem breaks_eq (known : Known c) : (c = 0x0A ∨ c = 0x0D) ↔ c = 0x0A := by
  refine or_iff_left fun e => ?_
  rw [e] at known
  exact absurd known (by decide)

theorem commands_visible : ∀ cmd ∈ commands, Visible cmd := by
  have all : commands.all fun cmd => cmd.all fun c => decide (Printable c) := by decide +kernel
  exact fun cmd m => List.all_iff_forall_prop.mp (List.all_eq_true.mp all cmd m)

theorem Visible.take (h : Visible l) (n : Nat) : Visible (l.take n) := fun c hc =>
  h c (List.mem_of_mem_take hc)

theorem recall_visible (lines : ∀ l ∈ es, Visible l) (line : Visible d.text) (pos : Nat) :
    Visible (d.recall es pos).text := by
  rw [Draft.recall]
  split
  case isTrue => exact fun c hc => absurd hc List.not_mem_nil
  case isFalse =>
    cases at_ : es[pos - 1]? with
    | none => exact line
    | some l => exact (lines l (List.mem_of_getElem? at_)).take _

/-- **The typist's line** stays visible, whatever is typed. -/
theorem type_visible (lines : ∀ l ∈ es, Visible l) (line : Visible d.text) :
    Visible (d.type es c).text := by
  rw [Draft.type]
  split
  case isTrue => exact fun c hc => line c (List.mem_of_mem_dropLast hc)
  case isFalse =>
    split
    case isTrue =>
      rw [Draft.complete]
      cases only : completion d.text with
      | none => exact line
      | some cmd => exact (commands_visible cmd (completion_some only).1).take _
    case isFalse =>
      split
      case isTrue => exact recall_visible lines line _
      case isFalse =>
        split
        case isTrue => exact recall_visible lines line _
        case isFalse =>
          split
          case isTrue visible =>
            intro k hk
            rcases List.mem_append.mp hk with old | new
            · exact line k old
            · rw [List.mem_singleton.mp new]
              exact visible
          case isFalse => exact line

/-- Only the line itself is returned. -/
theorem entered_line {saves : Bool} {t : List u8} (h : entered l = .line saves t) : t = l := by
  rw [entered] at h
  repeat' split at h
  all_goals cases h
  all_goals rfl

theorem note_visible (before : ∀ l ∈ returned, Visible l) (line : Visible l) :
    ∀ t ∈ note returned (some (entered l)), Visible t := by
  cases done : entered l with
  | line saves u =>
    obtain rfl := entered_line done
    intro t ht
    rcases List.mem_append.mp ht with old | new
    · exact before t old
    · rw [List.mem_singleton.mp new]
      exact line
  | _ => exact before

theorem remember_visible (lines : ∀ l ∈ es, Visible l) (line : Visible l) :
    ∀ t ∈ remember es l, Visible t := by
  rw [remember]
  split
  case isTrue => exact lines
  case isFalse =>
    intro t ht
    rcases List.mem_cons.mp (List.mem_of_mem_take ht) with rfl | old
    · exact line.take _
    · exact lines t old

/-! ## The code follows the typist -/

/-- The lines of a book can be printed. -/
structure Book.Visible (b : Book) : Prop where
  lines : ∀ l ∈ b.lines, ReadLine.Visible l
  draft : ∀ d, b.draft = some d → ReadLine.Visible d.text

theorem loop_visible (lines : ∀ l ∈ es, Visible l) (line : Visible d.text)
    (before : ∀ l ∈ returned, Visible l) :
    (d.loop es breaks).1.Visible ∧ ∀ l ∈ note returned (d.loop es breaks).2, Visible l := by
  rw [Draft.loop]
  split
  case isTrue =>
    refine ⟨⟨lines, fun d' hd => ?_⟩, before⟩
    obtain rfl := Option.some.inj hd
    exact line
  case isFalse =>
    refine ⟨⟨remember_visible lines line, fun d' hd => ?_⟩, note_visible before line⟩
    exact absurd hd.symm (Option.some_ne_none d')

end

/-- The desk is where the typist thinks it is. -/
structure Follows (d : Desk) (t : Typist) : Prop where
  kb : d.kb.Holds t.queue
  modes : d.kb.toModes = t.modes
  console : d.console.Shows t.book
  returned : d.returned = t.returned
  known : ∀ c ∈ t.queue, Known c
  book : t.book.Visible
  visible : ∀ l ∈ t.returned, Visible l

section

variable {d d' : Desk} {t : Typist}

theorem follows_boot : Follows .boot .boot where
  kb := KB.init_holds
  modes := rfl
  console := shows_boot
  returned := rfl
  known _ hc := absurd hc List.not_mem_nil
  book := ⟨fun _ hl => absurd hl List.not_mem_nil, fun _ hd => nomatch hd⟩
  visible _ hl := absurd hl List.not_mem_nil

/-- **A scan code** is queued. -/
theorem Follows.irq (h : Follows d t) {sc : u8} (readable : Readable t (.irq sc)) :
    ∃ t', t.step (.irq sc) = some t' ∧ Follows { d with kb := d.kb.handleIrq sc } t' := by
  obtain ⟨forward, room⟩ := readable
  have moved := KB.handleIrq_eq d.kb sc
  rw [h.modes] at moved
  cases typed : t.modes.decode sc with
  | mk modes code =>
    have next : t.step (.irq sc) =
        some { t with modes := modes, queue := t.queue ++ code.toList } := by
      rw [Typist.step, typed]
    refine ⟨_, next, ?_⟩
    rw [typed] at moved room
    cases code with
    | none =>
      rw [moved, Option.toList_none, List.append_nil]
      exact ⟨h.kb.modes modes, rfl, h.console, h.returned, h.known, h.book, h.visible⟩
    | some c =>
      obtain ⟨held, same⟩ := (h.kb.modes modes).push (room (Option.some_ne_none c)) c
      rw [moved, Option.toList_some]
      refine ⟨held, same, h.console, h.returned, fun k hk => ?_, h.book, h.visible⟩
      rcases List.mem_append.mp hk with old | new
      · exact h.known k old
      · rw [List.mem_singleton.mp new]
        exact decode_known (congrArg Prod.snd typed) forward

/-- A round of the editor loop that the typist's line goes through as well. -/
theorem Follows.turn (h : Follows d t) {kb : Keyboard} {queue : List u8} {dr : Draft}
    {breaks : Bool} {x : Traced Place (Console × Option Entered)} {s : Console}
    (held : kb.Holds queue) (modes : kb.toModes = t.modes) (known : ∀ c ∈ queue, Known c)
    (line : Visible dr.text)
    (stays : x.Stays (Place.Inside LINE_SIZE) (s, (dr.loop t.book.lines breaks).2))
    (shows : s.Shows (dr.loop t.book.lines breaks).1) (after : d.after kb x = some d') :
    Follows d' (t.after queue (dr.loop t.book.lines breaks)) := by
  rw [Desk.after, stays.1] at after
  obtain rfl := Option.some.inj after
  obtain ⟨book, visible⟩ : (dr.loop t.book.lines breaks).1.Visible ∧
    ∀ l ∈ note t.returned (dr.loop t.book.lines breaks).2, ReadLine.Visible l :=
      loop_visible h.book.lines line h.visible
  exact ⟨held, modes, shows, congrArg (note · _) h.returned, known, book, visible⟩

/-- **A call** begins. -/
theorem Follows.call (h : Follows d t) {a2 : u64} (readable : Readable t (.call a2))
    (hs : d.step (.call a2) = some d') : ∃ t', t.step (.call a2) = some t' ∧ Follows d' t' := by
  obtain ⟨x, called, after⟩ := Option.bind_eq_some_iff.mp hs
  have fits : (Event.call a2).Fits := readable
  rcases perform_stays h.console fits with
    ⟨none, -⟩ | ⟨y, s', b', r, performed, booked, stays, shows⟩
  · cases called.symm.trans none
  · obtain rfl := Option.some.inj (performed.symm.trans called)
    have booked : t.book.call a2 = some (b', r) := booked
    refine ⟨t.after t.queue (b', r), by rw [Typist.step, booked, Option.map_some], ?_⟩
    rw [Book.call] at booked
    cases draft : t.book.draft with
    | some dr =>
      rw [draft] at booked
      cases booked
    | none =>
      rw [draft] at booked
      have loop := Option.some.inj booked
      rw [← loop]
      have line : Visible (Draft.start a2).text := fun c hc => absurd hc List.not_mem_nil
      refine h.turn (s := s') h.kb h.modes h.known line ?_ ?_ after
      · rw [loop]
        exact stays
      · rw [loop]
        exact shows

/-- **A key** is read, or none is there. -/
theorem Follows.poll (h : Follows d t) (hs : d.step .poll = some d') :
    ∃ t', t.step .poll = some t' ∧ Follows d' t' := by
  rw [Desk.step] at hs
  cases editor : d.console.editor with
  | none =>
    rw [editor] at hs
    cases hs
  | some e =>
    rw [editor] at hs
    obtain ⟨dr, draft⟩ := Option.ne_none_iff_exists'.mp
      (mt h.console.editor.mpr (by rw [editor]; exact Option.some_ne_none e))
    have held := h.kb
    cases queue : t.queue with
    | nil =>
      rw [queue] at held
      rw [held.tryRead_nil] at hs
      obtain rfl := Option.some.inj hs
      exact ⟨t, by rw [Typist.step, draft, queue], h⟩
    | cons ch rest =>
      rw [queue] at held
      obtain ⟨kb, read_, held, modes⟩ := held.tryRead_cons
      rw [read_] at hs
      obtain ⟨x, keyed, after⟩ := Option.bind_eq_some_iff.mp hs
      have known : ∀ c ∈ ch :: rest, Known c := queue ▸ h.known
      have here := known ch List.mem_cons_self
      refine ⟨_, by rw [Typist.step, draft, queue], ?_⟩
      have fits : (Event.key ch (known_ne_zero here)).Fits := trivial
      rcases perform_stays h.console fits with
        ⟨none, -⟩ | ⟨y, s', b', r, performed, booked, stays, shows⟩
      · cases keyed.symm.trans none
      · obtain rfl := Option.some.inj (performed.symm.trans keyed)
        have booked : t.book.key ch = some (b', r) := booked
        rw [Book.key, draft] at booked
        have loop := Option.some.inj booked
        rw [← type_eq here, decide_eq_decide.mpr (breaks_eq here)] at loop
        have line := type_visible (c := ch) h.book.lines (h.book.draft dr draft)
        refine h.turn (s := s') held (modes.trans h.modes) (fun c hc => known c (List.mem_cons_of_mem ch hc))
          line ?_ ?_ after
        · rw [loop]
          exact stays
        · rw [loop]
          exact shows

theorem Follows.step (h : Follows d t) {i : Input} (readable : Readable t i)
    (hs : d.step i = some d') : ∃ t', t.step i = some t' ∧ Follows d' t' := by
  cases i with
  | irq sc =>
    obtain rfl := Option.some.inj hs
    exact h.irq readable
  | call a2 => exact h.call readable hs
  | poll => exact h.poll hs

end

/-- **The lines that callers get are what was typed visibly**, as long as Left and Right are not
pressed, the ring is not full and no caller allows more than 512 bytes. -/
theorem typed_lines {inputs : List Input} (readable : Along Typist.step Readable .boot inputs) :
    LinesRight inputs := fun d ran => by
  obtain ⟨t, typed, follows⟩ := run_simulates
    (fun _ _ _ _ follows readable hs => follows.step readable hs) follows_boot readable ran
  refine ⟨t, typed, follows.returned, ?_⟩
  rw [follows.returned]
  exact follows.visible

/-- The letter a is typed and entered. -/
theorem typed_lines_letter :
    LinesRight [.call 100, .irq 0x1E, .poll, .irq 0x1C, .poll] :=
  typed_lines (by decide)

/-- **The left arrow key** puts a control character into the line. -/
theorem left_key_in_line :
    ¬ LinesRight [.call 100, .irq 0xE0, .irq 0x4B, .poll, .irq 0x1C, .poll] := by
  intro right
  obtain ⟨t, -, -, visible⟩ := right _ rfl
  exact absurd (visible [0x12] (List.mem_singleton.mpr rfl) 0x12 (List.mem_singleton.mpr rfl)) (by decide)

end MicroNT.ReadLine
