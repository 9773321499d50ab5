import MicroNT.LineEditor

/-! # Where the line editor writes (`NT_READ_LINE` in `syscall.cpp`)

Calls and keys on lists, which the code carries out as long as no caller allows more than
511 characters. A longer line leaves the 512 bytes of the line buffer. -/

namespace MicroNT.ReadLine

open Base.Machine Base.Reads Base.Reads.Traced

/-! ## Calls on lists -/

/-- The lines that are remembered, and the line of the call that waits for a key. -/
structure Book where
  lines : List (List u8)
  draft : Option Draft

def Draft.loop (es : List (List u8)) (d : Draft) (breaks : Bool) : Book × Option Entered :=
  if breaks = false ∧ d.text.length < d.room then (⟨es, some d⟩, none)
  else (⟨remember es d.text, none⟩, some (entered d.text))

def Book.call (b : Book) (a2 : u64) : Option (Book × Option Entered) :=
  match b.draft with
  | none => some ((Draft.start a2).loop b.lines false)
  | some _ => none

def Book.key (b : Book) (ch : u8) : Option (Book × Option Entered) :=
  match b.draft with
  | none => none
  | some d => some ((d.press b.lines ch).loop b.lines (decide (ch = 0x0A ∨ ch = 0x0D)))

def Book.perform (b : Book) : Event → Option (Book × Option Entered)
  | .call a2 => b.call a2
  | .key ch _ => b.key ch

/-- The line has room for another character, and the buffer for all of it. -/
structure Draft.Waits (d : Draft) : Prop where
  nonzero : 0 ∉ d.text
  shorter : d.text.length < d.room
  fits : d.room < LINE_SIZE

/-- The console has these lines. -/
structure Console.Shows (s : Console) (b : Book) : Prop where
  keeps : s.hist.Keeps b.lines
  editor : s.editor = none ↔ b.draft = none
  shows : ∀ e d, s.editor = some e → b.draft = some d → e.Shows d ∧ d.Waits

/-- The size that the event's call allows leaves room for the terminator. -/
def Event.Fits : Event → Prop
  | .call a2 => a2.toNat ≤ LINE_SIZE
  | .key _ _ => True

section

variable {s s' : Console} {b : Book} {h : History} {es : List (List u8)} {e : Editor} {d : Draft}
  {ev : Event} {a2 : u64}

theorem start_room (a2 : u64) : (Draft.start a2).room = a2.toNat - 1 := by
  rw [Draft.start]
  dsimp only
  split
  case isTrue more =>
    have le : (1 : u64) ≤ a2 := BitVec.le_of_lt more
    exact BitVec.toNat_sub_of_le le
  case isFalse less =>
    have le := BitVec.le_def.mp (BitVec.not_lt.mp less)
    have one : (1 : u64).toNat = 1 := rfl
    omega

/-- **The head of the loop** does what it does on lists. -/
theorem loop_stays (keeps : h.Keeps es) (shows : e.Shows d) (nonzero : 0 ∉ d.text)
    (within : d.text.length ≤ d.room) (fits : d.room < LINE_SIZE) (breaks : Bool) :
    ∃ s', (e.loop h breaks).Stays (Place.Inside LINE_SIZE) (s', (d.loop es breaks).2) ∧
      s'.Shows (d.loop es breaks).1 := by
  have goes : (breaks = false ∧ e.n < e.maxlen) ↔ breaks = false ∧ d.text.length < d.room := by
    rw [shows.length, shows.room]
  rw [Editor.loop, Draft.loop]
  by_cases more : breaks = false ∧ d.text.length < d.room
  case pos =>
    rw [if_pos more, if_pos (goes.mpr more)]
    refine ⟨_, stays_pure.mpr rfl, keeps, by simp, fun e₁ d₁ he hd => ?_⟩
    obtain rfl := Option.some.inj he
    obtain rfl := Option.some.inj hd
    exact ⟨shows, nonzero, more.2, fits⟩
  case neg =>
    rw [if_neg more, if_neg (mt goes.mp more)]
    obtain ⟨h', stays, keeps'⟩ := finish_stays keeps shows nonzero (within.trans_lt fits)
      (within.trans_lt fits)
    exact ⟨_, stays_bind.mpr ⟨_, stays, stays_pure.mpr rfl⟩, keeps', by simp, fun _ _ he => nomatch he⟩

/-- **An event** is carried out as on lists, without leaving the line buffer and the entries. -/
theorem perform_stays (shows : s.Shows b) (fits : ev.Fits) :
    (s.perform ev = none ∧ b.perform ev = none) ∨
      ∃ x s' b' r, s.perform ev = some x ∧ b.perform ev = some (b', r) ∧
        x.Stays (Place.Inside LINE_SIZE) (s', r) ∧ s'.Shows b' := by
  cases ev with
  | call a2 =>
    cases draft : b.draft with
    | some d =>
      obtain ⟨e, editor⟩ := Option.ne_none_iff_exists'.mp
        (mt shows.editor.mp (by rw [draft]; exact Option.some_ne_none d))
      exact .inl ⟨by rw [Console.perform, Console.call, editor],
        by rw [Book.perform, Book.call, draft]⟩
    | none =>
      have editor := shows.editor.mpr draft
      have small : (Draft.start a2).room < LINE_SIZE := by
        have most : a2.toNat ≤ 512 := fits
        rw [start_room]
        show a2.toNat - 1 < 512
        omega
      obtain ⟨s', stays, done⟩ := loop_stays shows.keeps (shows_start a2) List.not_mem_nil
        (Nat.zero_le _) small false
      exact .inr ⟨_, s', _, _, by rw [Console.perform, Console.call, editor],
        by rw [Book.perform, Book.call, draft], stays, done⟩
  | key ch some_ =>
    cases draft : b.draft with
    | none =>
      have editor := shows.editor.mpr draft
      exact .inl ⟨by rw [Console.perform, Console.key, editor],
        by rw [Book.perform, Book.key, draft]⟩
    | some d =>
      obtain ⟨e, editor⟩ := Option.ne_none_iff_exists'.mp
        (mt shows.editor.mp (by rw [draft]; exact Option.some_ne_none d))
      obtain ⟨line, waits⟩ := shows.shows e d editor draft
      have plain : ∀ l ∈ b.lines, 0 ∉ l := fun l hl => by
        obtain ⟨k, hk, rfl⟩ := List.getElem_of_mem hl
        exact (shows.keeps.each k hk).nonzero
      obtain ⟨e', pressed, line'⟩ := press_stays shows.keeps line waits.nonzero waits.shorter
        waits.fits.le ch
      obtain ⟨within, room⟩ : (d.press b.lines ch).text.length ≤ d.room ∧
        (d.press b.lines ch).room = d.room := d.press_room waits.shorter
      obtain ⟨s', stays, done⟩ := loop_stays shows.keeps line'
        (Draft.press_nonzero plain waits.nonzero some_) (room ▸ within) (room ▸ waits.fits)
        (decide (ch = 0x0A ∨ ch = 0x0D))
      exact .inr ⟨_, s', _, _, by rw [Console.perform, Console.key, editor],
        by rw [Book.perform, Book.key, draft], stays_bind.mpr ⟨_, pressed, stays⟩, done⟩

/-! ## Runs -/

/-- Before the first call. -/
def Console.boot : Console := ⟨.empty, none⟩

theorem shows_boot : Console.boot.Shows ⟨[], none⟩ where
  keeps := keeps_empty
  editor := iff_of_true rfl rfl
  shows _ _ he := nomatch he

/-- All loops of the event end, and every index into the line buffer is below 512 and every
index into an entry below 256. -/
def Safe (s : Console) (ev : Event) : Prop :=
  ∀ x, s.perform ev = some x → x.Ends (Place.Inside LINE_SIZE)

theorem Console.Shows.safe (shows : s.Shows b) (fits : ev.Fits) : Safe s ev := fun x hx => by
  rcases perform_stays shows fits with ⟨none, -⟩ | ⟨y, s', b', r, performed, -, stays, -⟩
  · rw [none] at hx
    cases hx
  · obtain rfl := Option.some.inj (performed.symm.trans hx)
    exact ⟨_, stays⟩

/-- **One step** keeps the lines. -/
theorem Console.Shows.step (shows : s.Shows b) (fits : ev.Fits) (hs : step s ev = some s') :
    ∃ b', s'.Shows b' := by
  rw [ReadLine.step] at hs
  rcases perform_stays shows fits with ⟨none, -⟩ | ⟨x, s₁, b', r, performed, -, stays, done⟩
  · rw [none] at hs
    cases hs
  · rw [performed, Option.bind_some, stays.1] at hs
    obtain rfl := Option.some.inj hs
    exact ⟨b', done⟩

/-- **Calls that leave room for the terminator** stay inside. -/
theorem along_safe {events : List Event} (fits : ∀ ev ∈ events, ev.Fits) :
    Along step Safe Console.boot events := by
  have start : ∃ b, Console.boot.Shows b := ⟨_, shows_boot⟩
  refine along_invariant (I := fun s => ∃ b, s.Shows b) ?_ ?_ start (along_of_forall_mem fits _)
  · rintro s ev s' ⟨b, shows⟩ fits hs
    exact shows.step fits hs
  · rintro s ev ⟨b, shows⟩ fits
    exact shows.safe fits

end

/-! ## A line that is too long -/

/-- The letter a. -/
def letter : Event := .key 0x61 (by decide)

/-- The editor after `k` letters. -/
def lettersTyped (a2 : u64) : Nat → Editor
  | 0 => .start a2
  | k + 1 => (lettersTyped a2 k).put 0x61

theorem lettersTyped_n (a2 : u64) (k : Nat) :
    (lettersTyped a2 k).n = k ∧ (lettersTyped a2 k).maxlen = a2.toNat - 1 := by
  induction k with
  | zero => exact ⟨rfl, start_room a2⟩
  | succ k ih => exact ⟨congrArg (· + 1) ih.1, ih.2⟩

theorem perform_letter (h : History) (e : Editor) :
    Console.perform ⟨h, some e⟩ letter =
      some (write (.line e.n) >>= fun _ => (e.put 0x61).loop h false) := rfl

/-- A letter that fits. -/
theorem step_letter (h : History) {e : Editor} (fits : e.n + 1 < e.maxlen) :
    step ⟨h, some e⟩ letter = some ⟨h, some (e.put 0x61)⟩ := by
  have more : false = false ∧ (e.put 0x61).n < (e.put 0x61).maxlen := ⟨rfl, fits⟩
  rw [step, perform_letter, Option.bind_some, Editor.loop, if_pos more]
  rfl

theorem run_letters (a2 : u64) {k : Nat} (fits : k < a2.toNat - 1) :
    run step Console.boot (.call a2 :: List.replicate k letter) =
      some ⟨.empty, some (lettersTyped a2 k)⟩ := by
  induction k with
  | zero =>
    have more : false = false ∧ (Editor.start a2).n < (Editor.start a2).maxlen :=
      ⟨rfl, (lettersTyped_n a2 0).2 ▸ fits⟩
    have first : step Console.boot (.call a2) = some ⟨.empty, some (Editor.start a2)⟩ := by
      show Option.bind (some ((Editor.start a2).loop .empty false)) _ = _
      rw [Option.bind_some, Editor.loop, if_pos more]
      rfl
    rw [List.replicate_zero, run, first, Option.bind_some, run, lettersTyped]
  | succ k ih =>
    obtain ⟨n, maxlen⟩ := lettersTyped_n a2 k
    rw [List.replicate_succ', ← List.cons_append, run_append (ih (by omega)), run,
      step_letter _ (by omega), Option.bind_some, run, lettersTyped]

/-- Nothing can be written behind the buffer. -/
theorem not_ends_write {α : Type} {i : Nat} (h : LINE_SIZE ≤ i) (f : Unit → Traced Place α) :
    ¬ (write (.line i) >>= f).Ends (Place.Inside LINE_SIZE) := by
  intro ends
  obtain ⟨u, stays, -⟩ := ends_bind.mp ends
  have inside : i < LINE_SIZE := (stays_read.mp stays).1
  omega

/-- **A caller that allows 512 characters or more**: the 512th letter has no terminator in the
buffer, and the next one has no place there. -/
theorem letters_leave {a2 : u64} (k : Nat) (hk : k + 1 = LINE_SIZE) (big : LINE_SIZE < a2.toNat) :
    ¬ Along step Safe Console.boot (.call a2 :: (List.replicate k letter ++ [letter, letter])) := by
  intro safe
  rw [← List.cons_append] at safe
  obtain ⟨n, maxlen⟩ := lettersTyped_n a2 k
  obtain ⟨here, next⟩ := (along_append.mp safe).2 _ (run_letters a2 (by omega))
  by_cases last : (lettersTyped a2 k).n + 1 < (lettersTyped a2 k).maxlen
  case pos =>
    refine absurd ((next _ (step_letter _ last)).1 _ (perform_letter _ _)) (not_ends_write ?_ _)
    show LINE_SIZE ≤ (lettersTyped a2 k).n + 1
    omega
  case neg =>
    have stops : ¬ (false = false ∧ ((lettersTyped a2 k).put 0x61).n <
        ((lettersTyped a2 k).put 0x61).maxlen) := fun h => last h.2
    obtain ⟨u, -, ends⟩ := ends_bind.mp (here _ (perform_letter _ _))
    rw [Editor.loop, if_neg stops] at ends
    obtain ⟨r, stays, -⟩ := ends_bind.mp ends
    refine absurd ⟨r, stays⟩ (not_ends_write ?_ _)
    show LINE_SIZE ≤ (lettersTyped a2 k).n + 1
    omega

/-! ## The line buffer -/

/-- **The editor stays inside its buffer**, whatever is typed, exactly for callers that allow
512 bytes or fewer. -/
theorem line_bounds_iff (S : u64 → Prop) :
    (∀ events : List Event, (∀ a2, .call a2 ∈ events → S a2) →
        Along step Safe Console.boot events) ↔
      ∀ a2, S a2 → a2.toNat ≤ LINE_SIZE := by
  constructor
  · intro safe a2 allowed
    by_contra big
    refine letters_leave 511 rfl (Nat.lt_of_not_le big) (safe _ fun b hb => ?_)
    rcases List.mem_cons.mp hb with same | typed
    · rw [Event.call.inj same]
      exact allowed
    · rcases List.mem_append.mp typed with typed | typed
      · cases List.eq_of_mem_replicate typed
      · rcases List.mem_cons.mp typed with typed | typed
        · cases typed
        · cases List.mem_singleton.mp typed
  · intro small events allowed
    refine along_safe fun ev hev => ?_
    cases ev with
    | call a2 => exact small a2 (allowed a2 hev)
    | key ch some_ => trivial

/-- **A call that allows 513 bytes**, and letters until it is full. -/
theorem letters_leave_buffer :
    ¬ Along step Safe Console.boot (.call 513 :: (List.replicate 511 letter ++ [letter, letter])) :=
  letters_leave 511 rfl (by decide)

end MicroNT.ReadLine
