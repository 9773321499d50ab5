import MicroNT.LineEditor

/-! # Lines that can be recalled (`HistAdd`, `HistGet` in `syscall.cpp`)

The history is a ring of 16 entries. It stands for the list of the lines that were entered,
without those that are empty or repeat the one before. A line is cut to the 255 characters of an
entry, but `HistAdd` compares all of it, so that a line that was cut is never recognized. -/

namespace MicroNT.ReadLine

open Base.Machine Base.Reads Base.Reads.Traced

/-- The first `len` bytes of a line buffer, none of which is 0. -/
structure EnteredLine where
  buf : Nat → u8
  len : Nat
  nonzero : 0 ∉ text buf len

def EnteredLine.text (l : EnteredLine) : List u8 := ReadLine.text l.buf l.len

/-- The history, and beside it every line that it was to remember, the newest first. -/
structure Recent where
  hist : History
  lines : List (List u8)

def Recent.empty : Recent := ⟨.empty, []⟩

/-- A line as an entry has it. -/
def cut (l : List u8) : List u8 := l.take (HIST_MAX - 1)

/-- Empty lines and repeated ones are dropped. -/
def addLine (lines : List (List u8)) (l : List u8) : List (List u8) :=
  if cut l = [] ∨ lines.head? = some (cut l) then lines else cut l :: lines

def enter (s : Recent) (l : EnteredLine) : Option Recent :=
  (histAdd s.hist l.buf l.len).result.map fun h => ⟨h, addLine s.lines l.text⟩

/-- The string that `HistGet` returns. -/
def History.shown (h : History) (back : Nat) : Option (List u8) :=
  (histGet h back).map fun slot => (text (h.entry slot) HIST_MAX).takeWhile (· ≠ 0)

/-- A key that recalls an entry shows the line with this number. -/
def Moves (s : Recent) (key : u8) (number : Nat → Nat) : Prop :=
  ∀ (e : Editor) (d : Draft), e.Shows d → 0 ∉ d.text → d.text.length < d.room →
    ∃ e', (e.press s.hist key).result = some (e', false) ∧
      e'.Shows (d.recall (s.lines.take HIST_N) (number d.pos))

/-- `HistGet` and the arrow keys go through exactly the last 16 lines. -/
structure HistoryRight (s : Recent) : Prop where
  shown : ∀ k, s.hist.shown k =
    if 1 ≤ k ∧ k ≤ min HIST_N s.lines.length then s.lines[k - 1]? else none
  up : Moves s KEY_UP (· + 1)
  down : Moves s KEY_DOWN (· - 1)

/-- The line does not repeat an entry that it was cut to. -/
def Uncut (s : Recent) (l : EnteredLine) : Prop :=
  ¬ (HIST_MAX ≤ l.len ∧ s.lines.head? = some (cut l.text))

/-! ## The ring and the list -/

section

variable {s t : Recent} {l : EnteredLine} {h : History} {es lines : List (List u8)} {f : Nat → u8}
  {u : List u8} {k : Nat}

theorem Holds.string (h : Holds f u) : (text f HIST_MAX).takeWhile (· ≠ 0) = u := by
  have parts := List.take_append_drop u.length (text f HIST_MAX)
  rw [take_text h.short.le, h.bytes, text_drop h.short, h.ends] at parts
  rw [← parts, List.takeWhile_append_of_pos, List.takeWhile_cons_of_neg, List.append_nil]
  · simp
  · intro c hc
    exact decide_eq_true fun zero => h.nonzero (zero ▸ hc)

theorem shown_eq (keeps : h.Keeps es) (k : Nat) :
    h.shown k = if 1 ≤ k then es[k - 1]? else none := by
  cases k with
  | zero => rfl
  | succ i =>
    rw [if_pos (Nat.le_add_left 1 i), History.shown, histGet_eq keeps, Nat.add_sub_cancel]
    by_cases inside : i < es.length
    · rw [List.getElem?_eq_getElem inside, Option.map_some, Option.map_some,
        (keeps.each i inside).string]
    · rw [List.getElem?_eq_none (Nat.le_of_not_lt inside)]
      rfl

/-- The ring has the last 16 lines, and no line is the same as the one before. -/
structure Recent.Kept (s : Recent) : Prop where
  keeps : s.hist.Keeps (s.lines.take HIST_N)
  distinct : s.lines.IsChain (· ≠ ·)

theorem Recent.Kept.moves (kept : s.Kept) {key : u8} {number : Nat → Nat}
    (arrow : ∀ d : Draft, d.press (s.lines.take HIST_N) key =
      d.recall (s.lines.take HIST_N) (number d.pos))
    (stays : ¬ (key = 0x0A ∨ key = 0x0D)) : Moves s key number := fun e d shows nonzero waits => by
  obtain ⟨e', pressed, done⟩ := press_stays kept.keeps shows nonzero waits le_rfl key
  rw [decide_eq_false stays] at pressed
  exact ⟨e', pressed.1, arrow d ▸ done⟩

theorem Recent.Kept.right (kept : s.Kept) : HistoryRight s where
  shown k := by
    rw [shown_eq kept.keeps]
    by_cases low : 1 ≤ k
    case neg => rw [if_neg low, if_neg fun h => low h.1]
    case pos =>
      rw [if_pos low]
      by_cases high : k ≤ min HIST_N s.lines.length
      case pos =>
        rw [if_pos ⟨low, high⟩, List.getElem?_take, if_pos (by omega)]
      case neg =>
        rw [if_neg fun h => high h.2, List.getElem?_eq_none]
        rw [List.length_take]
        omega
  up := kept.moves (fun _ => rfl) (by decide)
  down := kept.moves (fun _ => rfl) (by decide)

theorem empty_kept : Recent.empty.Kept := ⟨keeps_empty, List.isChain_nil⟩

/-! ## One more line -/

/-- `HistAdd` comes to an end, whatever the history is like. -/
theorem sameFrom_ends (prev : Nat) (buf : Nat → u8) (len left i : Nat) :
    (sameFrom h prev buf len left i).Ends fun _ => True := by
  induction left generalizing i with
  | zero => exact ends_pure
  | succ left ih =>
    have compares : ∀ b, Ends (fun _ => True)
        (if h.entry prev i = b then sameFrom h prev buf len left (i + 1) else pure false) :=
      fun b => ends_ite.mpr (by
        by_cases same : h.entry prev i = b
        · exact .inl ⟨same, ih (i + 1)⟩
        · exact .inr ⟨same, ends_pure⟩)
    rw [sameFrom]
    refine ends_bind.mpr ⟨_, stays_read.mpr ⟨trivial, rfl⟩, ?_⟩
    split
    · exact ends_bind.mpr ⟨_, stays_read.mpr ⟨trivial, rfl⟩, compares _⟩
    · exact ends_bind.mpr ⟨_, stays_pure.mpr rfl, compares _⟩

theorem copyFrom_ends (buf : Nat → u8) (left i : Nat) :
    (copyFrom h buf left i).Ends fun _ => True := by
  induction left generalizing h i with
  | zero => exact ends_pure
  | succ left ih =>
    exact ends_bind.mpr ⟨_, stays_read.mpr ⟨trivial, rfl⟩,
      ends_bind.mpr ⟨_, stays_read.mpr ⟨trivial, rfl⟩, ih (i + 1)⟩⟩

theorem enter_ne_none (s : Recent) (l : EnteredLine) : enter s l ≠ none := by
  have append : ∀ n, (s.hist.append l.buf n).Ends fun _ => True := fun n => by
    obtain ⟨h', stays⟩ := copyFrom_ends (h := s.hist) l.buf n 0
    exact ends_bind.mpr ⟨h', stays, ends_bind.mpr ⟨_, stays_read.mpr ⟨trivial, rfl⟩, ends_pure⟩⟩
  have compared : (sameAsLast s.hist l.buf l.len).Ends fun _ => True := by
    rw [sameAsLast]
    split
    · exact sameFrom_ends _ _ _ _ _
    · exact ends_pure
  have ends : (histAdd s.hist l.buf l.len).Ends fun _ => True := by
    rw [histAdd]
    split
    · exact ends_pure
    · obtain ⟨same, stays⟩ := compared
      refine ends_bind.mpr ⟨same, stays, ?_⟩
      split
      · exact ends_pure
      · exact append _
  obtain ⟨h', stays⟩ := ends
  rw [enter, stays.1]
  exact Option.some_ne_none _

/-- What the code makes of the history. -/
theorem Recent.Kept.enter (kept : s.Kept) (ht : enter s l = some t) :
    t.hist.Keeps (remember (s.lines.take HIST_N) l.text) ∧ t.lines = addLine s.lines l.text := by
  obtain ⟨h', stays, keeps⟩ := histAdd_stays kept.keeps l.nonzero le_rfl
  rw [ReadLine.enter, stays.1] at ht
  obtain rfl := Option.some.inj ht
  exact ⟨keeps, rfl⟩

theorem cut_eq (short : u.length < HIST_MAX) : cut u = u := List.take_of_length_le (Nat.le_pred_of_lt short)

theorem cut_eq_nil : cut u = [] ↔ u = [] := by
  rw [cut, List.take_eq_nil_iff]
  exact or_iff_right (by decide)

theorem head?_take (lines : List (List u8)) : (lines.take HIST_N).head? = lines.head? := by
  cases lines <;> rfl

/-- An entry that the line repeats has not been cut. -/
theorem Recent.Kept.short (kept : s.Kept) (repeated : s.lines.head? = some u) :
    u.length < HIST_MAX := by
  obtain ⟨rest, lines⟩ := List.head?_eq_some_iff.mp repeated
  have few : 0 < (s.lines.take HIST_N).length := by
    rw [lines]
    exact Nat.zero_lt_succ _
  have entry := (kept.keeps.each 0 few).short
  simpa only [lines, List.take_succ_cons, List.getElem_cons_zero] using entry

theorem addLine_chain (distinct : lines.IsChain (· ≠ ·)) : (addLine lines u).IsChain (· ≠ ·) := by
  rw [addLine]
  split
  case isTrue => exact distinct
  case isFalse fresh =>
    refine List.isChain_cons.mpr ⟨fun b hb => ?_, distinct⟩
    rintro rfl
    exact fresh (.inr hb)

/-- **A line that is not cut, or is new,** is added to both. -/
theorem Recent.Kept.step (kept : s.Kept) (uncut : Uncut s l) (ht : ReadLine.enter s l = some t) :
    t.Kept := by
  obtain ⟨keeps, lines⟩ := kept.enter ht
  refine ⟨?_, lines ▸ addLine_chain kept.distinct⟩
  suffices same : remember (s.lines.take HIST_N) l.text = t.lines.take HIST_N from same ▸ keeps
  rw [lines, remember, addLine, head?_take]
  by_cases empty : l.text = []
  case pos => rw [if_pos (.inl empty), if_pos (.inl (cut_eq_nil.mpr empty))]
  case neg =>
    by_cases repeated : s.lines.head? = some l.text
    case pos =>
      rw [if_pos (.inr repeated), cut_eq (kept.short repeated), if_pos (.inr repeated)]
    case neg =>
      have fresh : ¬ s.lines.head? = some (cut l.text) := fun same => by
        by_cases long : HIST_MAX ≤ l.len
        · exact uncut ⟨long, same⟩
        · have short : l.text.length < HIST_MAX := by
            rw [EnteredLine.text, length_text]
            exact Nat.lt_of_not_le long
          rw [cut_eq short] at same
          exact repeated same
      rw [if_neg (not_or.mpr ⟨empty, repeated⟩), if_neg (not_or.mpr ⟨mt cut_eq_nil.mp empty, fresh⟩)]
      show (cut l.text :: s.lines.take HIST_N).take HIST_N = (cut l.text :: s.lines).take HIST_N
      rw [List.take_succ_cons, List.take_succ_cons, List.take_take]
      rfl

/-- **A line that is cut and repeats the last entry** is there twice. -/
theorem Recent.Kept.twice (kept : s.Kept) (repeats : ¬ Uncut s l)
    (ht : ReadLine.enter s l = some t) : ¬ HistoryRight t := by
  obtain ⟨long, repeated⟩ := not_not.mp repeats
  obtain ⟨keeps, lines⟩ := kept.enter ht
  have length : l.text.length = l.len := length_text
  have fresh : ¬ (l.text = [] ∨ (s.lines.take HIST_N).head? = some l.text) := by
    rw [head?_take, repeated]
    rintro (empty | same)
    · rw [← length, empty] at long
      exact absurd long (by decide)
    · have short := congrArg List.length (Option.some.inj same)
      rw [cut, List.length_take, length] at short
      simp only [HIST_MAX] at *
      omega
  rw [remember, if_neg fresh] at keeps
  rw [addLine, if_pos (.inr repeated)] at lines
  intro right
  obtain ⟨rest, split⟩ := List.head?_eq_some_iff.mp repeated
  have second := right.shown 2
  rw [shown_eq keeps, lines, split] at second
  have again : (if 1 ≤ 2 then ((l.text.take (HIST_MAX - 1) ::
      (cut l.text :: rest).take HIST_N).take HIST_N)[2 - 1]? else none) = some (cut l.text) := rfl
  rw [again] at second
  by_cases more : 1 ≤ 2 ∧ 2 ≤ min HIST_N (cut l.text :: rest).length
  case neg =>
    rw [if_neg more] at second
    cases second
  case pos =>
    rw [if_pos more] at second
    obtain ⟨b, others, rfl⟩ : ∃ b others, rest = b :: others := List.exists_cons_of_ne_nil (by
      rintro rfl
      have few := more.2
      simp at few)
    have distinct := split ▸ kept.distinct
    exact List.rel_of_isChain_cons_cons distinct (Option.some.inj second)

end

/-- **The history is the list of the last lines** in every state of a run exactly if no line is
entered that was cut to the last entry. -/
theorem history_right_iff (lines : List EnteredLine) :
    Always enter HistoryRight .empty lines ↔ Along enter Uncut .empty lines :=
  always_iff_along (I := Recent.Kept) (fun _ _ _ kept uncut ht => kept.step uncut ht)
    (fun _ kept => kept.right) (fun _ _ _ kept repeats ht => kept.twice repeats ht)
    (fun s l none => absurd none (enter_ne_none s l)) empty_kept

/-- 256 letters. -/
def longLine : EnteredLine where
  buf _ := 0x61
  len := 256
  nonzero := fun zero => by
    obtain ⟨i, -, e⟩ := List.mem_map.mp zero
    exact absurd e (by decide)

/-- **A line of 256 characters that is entered twice** is remembered twice. -/
theorem long_line_twice : ¬ Always enter HistoryRight .empty [longLine, longLine] := by
  intro right
  obtain ⟨t, ht⟩ := Option.ne_none_iff_exists'.mp (enter_ne_none .empty longLine)
  obtain ⟨u, hu⟩ := Option.ne_none_iff_exists'.mp (enter_ne_none t longLine)
  have first : Uncut .empty longLine := fun h => nomatch h.2
  have kept := empty_kept.step first ht
  have some_ : ¬ (cut longLine.text = [] ∨ ([] : List (List u8)).head? = some (cut longLine.text)) := by
    rw [cut_eq_nil]
    rintro (empty | none)
    · cases length_text.symm.trans (congrArg List.length empty)
    · cases none
  have lines : t.lines = [cut longLine.text] := by
    rw [(empty_kept.enter ht).2, addLine]
    exact if_neg some_
  refine kept.twice ?_ hu (((right.2 t ht).2 u hu).here)
  exact not_not.mpr ⟨le_rfl, by rw [lines]; rfl⟩

end MicroNT.ReadLine
