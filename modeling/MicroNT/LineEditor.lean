import MicroNT.Base.Machine
import MicroNT.Base.Reads
import MicroNT.KillCommand

/-! # The line editor (`NT_READ_LINE` in `syscall.cpp`)

`NT_READ_LINE` takes keys until Enter or until the line is as long as its caller allows. It
completes commands on Tab and recalls the last lines on Up and Down. Every function records
the places of the line buffer and of the history that it gets at. -/

namespace MicroNT.ReadLine

open Base.Bytes Base.Reads Base.Reads.Traced
open PS (killPid parsePid)

abbrev HIST_N : Nat := 16
abbrev HIST_MAX : Nat := 256
/-- `sizeof(linebuf)`. -/
abbrev LINE_SIZE : Nat := 512

abbrev KEY_UP : u8 := 0x10#8
abbrev KEY_DOWN : u8 := 0x11#8

/-- A byte of the line buffer, or of an entry of the history. -/
inductive Place
  | line (i : Nat)
  | hist (slot i : Nat)

/-- The place is within the first `m` bytes of the line buffer, or within an entry. -/
def Place.Inside (m : Nat) : Place → Prop
  | .line i => i < m
  | .hist slot i => slot < HIST_N ∧ i < HIST_MAX

/-- A byte is written. -/
def write (p : Place) : Traced Place Unit := read p ()

/-! ## The history -/

/-- `s_hist`, `s_hist_count` and `s_hist_head`. -/
structure History where
  entry : Nat → Nat → u8
  count : Nat
  head : Nat

/-- The static variables before the first line. -/
def History.empty : History := ⟨fun _ _ => 0, 0, 0⟩

def History.set (h : History) (slot i : Nat) (b : u8) : History :=
  { h with entry := Function.update h.entry slot (Function.update (h.entry slot) i b) }

/-- The loop of `HistAdd` that compares the line with the last entry, its end included. -/
def sameFrom (h : History) (prev : Nat) (buf : Nat → u8) (len : Nat) : Nat → Nat → Traced Place Bool
  | 0, _ => pure true
  | left + 1, i => do
    let a ← read (.hist prev i) (h.entry prev i)
    let b ← if i < len then read (.line i) (buf i) else pure 0
    if a = b then sameFrom h prev buf len left (i + 1) else pure false

/-- The loop of `HistAdd` that copies the line. -/
def copyFrom (h : History) (buf : Nat → u8) : Nat → Nat → Traced Place History
  | 0, _ => pure h
  | left + 1, i => do
    let b ← read (.line i) (buf i)
    write (.hist h.head i)
    copyFrom (h.set h.head i b) buf left (i + 1)

/-- `HistAdd` finds the line equal to the last entry. -/
def sameAsLast (h : History) (buf : Nat → u8) (len : Nat) : Traced Place Bool :=
  if h.count > 0 then sameFrom h ((h.head + HIST_N - 1) % HIST_N) buf len (len + 1) 0
  else pure false

/-- The rest of `HistAdd`. -/
def History.append (h : History) (buf : Nat → u8) (n : Nat) : Traced Place History := do
  let h ← copyFrom h buf n 0
  write (.hist h.head n)
  let h := h.set h.head n 0
  pure { h with
    head := (h.head + 1) % HIST_N
    count := if h.count < HIST_N then h.count + 1 else h.count }

def histAdd (h : History) (buf : Nat → u8) (len : Nat) : Traced Place History :=
  if len = 0 then pure h
  else do
    let same ← sameAsLast h buf len
    if same then pure h
    else h.append buf (if len < HIST_MAX - 1 then len else HIST_MAX - 1)

/-- The slot of the entry that `HistGet` points to. -/
def histGet (h : History) (back : Nat) : Option Nat :=
  if back = 0 ∨ back > h.count then none else some ((h.head + HIST_N - back) % HIST_N)

/-! ## Completion -/

/-- `s_cmds`. -/
def commands : List (List u8) :=
  ["ver", "dir", "mem", "ps", "exec", "cat", "echo", "write", "help", "exit", "clear",
    "pipe"].map ascii

/-- The loop of `TabComplete` over the first bytes of a command. -/
def matchesFrom (buf : Nat → u8) (cmd : List u8) : Nat → Nat → Traced Place Bool
  | 0, _ => pure true
  | left + 1, j => do
    let b ← read (.line j) (buf j)
    if cmd.getD j 0 = b then matchesFrom buf cmd left (j + 1) else pure false

def tabComplete (buf : Nat → u8) (n : Nat) :
    List (List u8) → Option (List u8) → Traced Place (Option (List u8))
  | [], found => pure found
  | cmd :: rest, found => do
    let ok ← matchesFrom buf cmd n 0
    if ok = false ∨ cmd.getD n 0 = 0 then tabComplete buf n rest found
    else match found with
      | some _ => pure none
      | none => tabComplete buf n rest (some cmd)

/-! ## Keys -/

/-- `linebuf`, with what comes after it, `n`, `hist_pos` and `maxlen`. -/
structure Editor where
  buf : Nat → u8
  n : Nat
  histPos : Nat
  maxlen : Nat

def Editor.start (a2 : u64) : Editor := ⟨fun _ => 0, 0, 0, if a2 > 1 then (a2 - 1).toNat else 0⟩

/-- `linebuf[n] = c; ++n`. -/
def Editor.put (e : Editor) (c : u8) : Editor :=
  { e with buf := Function.update e.buf e.n c, n := e.n + 1 }

/-- The loop that adds the rest of a command. A command is not longer than `left`. -/
def Editor.complete (comp : List u8) : Nat → Editor → Traced Place Editor
  | 0, e => pure e
  | left + 1, e =>
    if comp.getD e.n 0 ≠ 0 ∧ e.n < e.maxlen then do
      write (.line e.n)
      (e.put (comp.getD e.n 0)).complete comp left
    else pure e

/-- The loop that writes an entry of the history. -/
def Editor.recall (h : History) (slot : Nat) : Nat → Nat → Editor → Traced Place Editor
  | 0, _, _ => running
  | left + 1, i, e => do
    let c ← read (.hist slot i) (h.entry slot i)
    if c ≠ 0 ∧ e.n < e.maxlen then do
      write (.line e.n)
      (e.put c).recall h slot left (i + 1)
    else pure e

/-- One round of the editor loop, and whether it breaks off. -/
def Editor.press (h : History) (e : Editor) (ch : u8) : Traced Place (Editor × Bool) :=
  if ch = 0x0A ∨ ch = 0x0D then pure (e, true)
  else if ch = 0x08 then pure ({ e with n := if e.n > 0 then e.n - 1 else e.n }, false)
  else if ch = 0x09 then do
    let comp ← tabComplete e.buf e.n commands none
    match comp with
    | none => pure (e, false)
    | some comp => do
      let e ← e.complete comp comp.length
      pure (e, false)
  else if ch = KEY_UP ∨ ch = KEY_DOWN then
    let pos := if ch = KEY_UP then e.histPos + 1 else e.histPos - 1
    if pos = 0 then pure ({ e with n := 0, histPos := 0 }, false)
    else match histGet h pos with
      | none => pure (e, false)
      | some slot => do
        let e ← ({ e with n := 0 } : Editor).recall h slot HIST_MAX 0
        pure ({ e with histPos := pos }, false)
  else do
    write (.line e.n)
    pure (e.put ch, false)

/-! ## Lines -/

/-- What becomes of a line: the kernel carries it out, or the caller gets it, with the files
saved before `exit`. -/
inductive Entered
  | ps
  | kill (pid : u32)
  | bg (name : List u8)
  | winexec (name : List u8)
  | mkdir (name : List u8)
  | rm (name : List u8)
  | save
  | line (saves : Bool) (text : List u8)
  deriving DecidableEq

def kstrcmp (buf : Nat → u8) : List u8 → Nat → Traced Place Bool
  | [], _ => pure true
  | c :: rest, i => do
    let b ← read (.line i) (buf i)
    if b = c then kstrcmp buf rest (i + 1) else pure false

/-- A loop over a number of bytes of the line. -/
def bytesFrom (buf : Nat → u8) : Nat → Nat → Traced Place (List u8)
  | 0, _ => pure []
  | left + 1, i => do
    let b ← read (.line i) (buf i)
    let rest ← bytesFrom buf left (i + 1)
    pure (b :: rest)

/-- The line as a string, from byte `i` on. -/
def stringFrom (buf : Nat → u8) : Nat → Nat → Traced Place (List u8)
  | 0, _ => running
  | left + 1, i => do
    let b ← read (.line i) (buf i)
    if b = 0 then pure []
    else do
      let rest ← stringFrom buf left (i + 1)
      pure (b :: rest)

/-- The digit loop of `kill`, as `parsePid` has it. -/
def pidFrom (buf : Nat → u8) : Nat → Nat → u32 → Traced Place u32
  | 0, _, pid => pure pid
  | left + 1, i, pid => do
    let ch ← read (.line i) (buf i)
    if ch.toNat ≥ 0x30 ∧ ch.toNat ≤ 0x39 then
      pidFrom buf left (i + 1) (pid * 10 + (ch - 0x30).setWidth 32)
    else pure pid

/-- `if (fits && kstrcmp(linebuf, text, len))`. -/
def test (buf : Nat → u8) (fits : Bool) (text : String) (yes no : Traced Place Entered) :
    Traced Place Entered :=
  if fits then do
    let same ← kstrcmp buf (ascii text) 0
    if same then yes else no
  else no

/-- The commands that the kernel carries out, and the copy for the caller. -/
def command (buf : Nat → u8) (n : Nat) : Traced Place Entered :=
  test buf (n = 2) "ps" (pure .ps) <|
  test buf (n > 5) "kill " (do
    let pid ← pidFrom buf (n - 5) 5 0
    pure (.kill pid)) <|
  test buf (n > 3) "bg " (do
    let name ← bytesFrom buf (if n - 3 < 63 then n - 3 else 63) 3
    pure (.bg name)) <|
  test buf (n > 8) "winexec " (do
    let name ← bytesFrom buf (if n - 8 < 63 then n - 8 else 63) 8
    pure (.winexec name)) <|
  test buf (n > 6) "mkdir " (do
    let name ← stringFrom buf LINE_SIZE 6
    pure (.mkdir name)) <|
  test buf (n > 3) "rm " (do
    let name ← stringFrom buf LINE_SIZE 3
    pure (.rm name)) <|
  test buf (n = 4) "save" (pure .save) <|
  test buf (n ≥ 4) "exit" (copied true) (copied false)
where
  copied (saves : Bool) : Traced Place Entered := do
    let bytes ← bytesFrom buf (n + 1) 0
    pure (.line saves (bytes.take n))

/-- The code behind the editor loop. -/
def Editor.finish (h : History) (e : Editor) : Traced Place (History × Entered) := do
  write (.line e.n)
  let buf := Function.update e.buf e.n 0
  let h ← histAdd h buf e.n
  let entered ← command buf e.n
  pure (h, entered)

/-! ## Calls -/

/-- The history, and the call that waits for a key, if there is one. -/
structure Console where
  hist : History
  editor : Option Editor

/-- The head of the editor loop, after a round that has broken off or not. -/
def Editor.loop (h : History) (e : Editor) (breaks : Bool) :
    Traced Place (Console × Option Entered) :=
  if breaks = false ∧ e.n < e.maxlen then pure (⟨h, some e⟩, none)
  else do
    let (h, entered) ← e.finish h
    pure (⟨h, none⟩, some entered)

/-- `NT_READ_LINE` with an empty command queue is called, or a key comes for it. `Push` is
called with codes other than 0. -/
inductive Event
  | call (a2 : u64)
  | key (ch : u8) (some_ : ch ≠ 0)

def Console.call (s : Console) (a2 : u64) : Option (Traced Place (Console × Option Entered)) :=
  match s.editor with
  | none => some ((Editor.start a2).loop s.hist false)
  | some _ => none

def Console.key (s : Console) (ch : u8) : Option (Traced Place (Console × Option Entered)) :=
  match s.editor with
  | none => none
  | some e => some do
    let (e, breaks) ← e.press s.hist ch
    e.loop s.hist breaks

def Console.perform (s : Console) : Event → Option (Traced Place (Console × Option Entered))
  | .call a2 => s.call a2
  | .key ch _ => s.key ch

/-- The console after the event; there is none while a loop is running. -/
def step (s : Console) (ev : Event) : Option Console :=
  (s.perform ev).bind fun x => x.result.map Prod.fst

/-! ## Texts -/

/-- The first `n` bytes of the line. -/
def text (buf : Nat → u8) (n : Nat) : List u8 := (List.range n).map buf

section

variable {buf : Nat → u8} {n m i j k : Nat} {b c : u8} {l : List u8}

@[simp] theorem length_text : (text buf n).length = n := by
  rw [text, List.length_map, List.length_range]

@[simp] theorem text_zero : text buf 0 = [] := rfl

theorem text_succ : text buf (n + 1) = text buf n ++ [buf n] := by
  rw [text, List.range_succ, List.map_append]
  rfl

theorem getElem_text (h : i < (text buf n).length) : (text buf n)[i] = buf i := by
  simp only [text, List.getElem_map, List.getElem_range]

theorem take_text (h : k ≤ n) : (text buf n).take k = text buf k := by
  refine List.ext_getElem ?_ fun i hi hk => ?_
  · rw [List.length_take, length_text, length_text, Nat.min_eq_left h]
  · rw [List.getElem_take, getElem_text, getElem_text]

/-- Bytes behind the line do not matter. -/
theorem text_update (h : n ≤ i) : text (Function.update buf i b) n = text buf n := by
  refine List.map_congr_left fun j hj => Function.update_of_ne ?_ _ _
  have below := List.mem_range.mp hj
  omega

theorem text_put : text (Function.update buf n c) (n + 1) = text buf n ++ [c] := by
  rw [text_succ, text_update (Nat.le_refl n), Function.update_self]

theorem mem_text (h : i < n) : buf i ∈ text buf n := List.mem_map.mpr ⟨i, List.mem_range.mpr h, rfl⟩

end

/-! ## The history as a list -/

/-- The bytes hold the text as a string, with room to spare in an entry. -/
structure Holds (f : Nat → u8) (l : List u8) : Prop where
  short : l.length < HIST_MAX
  bytes : text f l.length = l
  ends : f l.length = 0
  nonzero : 0 ∉ l

/-- The slot of the `k`-th last entry. -/
def History.slot (h : History) (k : Nat) : Nat := (h.head + HIST_N - k) % HIST_N

/-- The history is the list, the newest entry first. -/
structure History.Keeps (h : History) (es : List (List u8)) : Prop where
  head : h.head < HIST_N
  count : h.count = es.length
  few : es.length ≤ HIST_N
  each : ∀ k, (hk : k < es.length) → Holds (h.entry (h.slot (k + 1))) es[k]

/-- What `HistAdd` makes of the list. A line that was cut is not recognized. -/
def remember (es : List (List u8)) (l : List u8) : List (List u8) :=
  if l = [] ∨ es.head? = some l then es else (l.take (HIST_MAX - 1) :: es).take HIST_N

section

variable {h h' : History} {es : List (List u8)} {buf f : Nat → u8} {t l : List u8}
  {m n i j k len left slot : Nat} {b c : u8}

theorem History.slot_lt (h : History) (k : Nat) : h.slot k < HIST_N := Nat.mod_lt _ (by decide)

theorem keeps_empty : History.empty.Keeps [] where
  head := by decide
  count := rfl
  few := Nat.zero_le _
  each k hk := absurd hk (Nat.not_lt_zero k)

theorem Holds.get (h : Holds f t) (hi : i < t.length) : f i = t[i] := by
  have inside : i < (text f t.length).length := by rw [length_text]; exact hi
  rw [← getElem_text inside]
  simp only [h.bytes]

theorem Holds.ne_zero (h : Holds f t) (hi : i < t.length) : f i ≠ 0 := fun zero =>
  h.nonzero (zero ▸ (h.get hi) ▸ List.getElem_mem hi)

/-- **The comparison** tells whether the line is the entry, and looks at nothing behind the
end of the entry. -/
theorem sameFrom_stays {prev : Nat} (slot : prev < HIST_N) (h_t : Holds (h.entry prev) t)
    (nonzero : 0 ∉ text buf len) (room : len ≤ m) (hi : i ≤ len) (ht : i ≤ t.length)
    (same : t.take i = text buf i) :
    (sameFrom h prev buf len (len + 1 - i) i).Stays (Place.Inside m)
      (decide (t = text buf len)) := by
  generalize rounds : len + 1 - i = left
  induction left generalizing i with
  | zero => omega
  | succ left ih =>
    have inside : (Place.hist prev i).Inside m := ⟨slot, by have := h_t.short; omega⟩
    rw [sameFrom]
    refine stays_read_bind inside ?_
    by_cases more : i < len
    case pos =>
      have line : (Place.line i).Inside m := by
        show i < m
        omega
      have some_ : buf i ≠ 0 := fun zero => nonzero (zero ▸ mem_text more)
      rw [if_pos more]
      refine stays_read_bind line ?_
      by_cases e : h.entry prev i = buf i
      case pos =>
        have longer : i < t.length := by
          refine lt_of_le_of_ne ht fun last => some_ ?_
          rw [← e, last, h_t.ends]
        simp only [if_pos e]
        refine ih more longer ?_ (by omega)
        rw [List.take_add_one, List.getElem?_eq_getElem longer, same, text_succ, ← e,
          h_t.get longer]
        rfl
      case neg =>
        simp only [if_neg e]
        refine stays_pure.mpr (decide_eq_false fun equal => e ?_)
        have longer : i < t.length := by rw [equal, length_text]; exact more
        rw [h_t.get longer]
        simp only [equal, getElem_text]
    case neg =>
      obtain rfl : i = len := by omega
      rw [if_neg more]
      refine stays_bind.mpr ⟨_, stays_pure.mpr rfl, ?_⟩
      by_cases e : h.entry prev i = 0
      case pos =>
        have last : i = t.length := by
          refine le_antisymm ht (Nat.le_of_not_lt fun longer => ?_)
          exact h_t.ne_zero longer e
        obtain rfl : left = 0 := by omega
        simp only [if_pos e, sameFrom]
        refine stays_pure.mpr (decide_eq_true ?_)
        rw [← same, last, List.take_length]
      case neg =>
        simp only [if_neg e]
        refine stays_pure.mpr (decide_eq_false fun equal => e ?_)
        have last : i = t.length := by rw [equal, length_text]
        rw [last, h_t.ends]

/-- The history is the same except in the slot of the next entry. -/
structure History.Aside (h h' : History) : Prop where
  head : h'.head = h.head
  count : h'.count = h.count
  others : ∀ slot, slot ≠ h.head → h'.entry slot = h.entry slot

theorem History.Aside.refl (h : History) : h.Aside h := ⟨rfl, rfl, fun _ _ => rfl⟩

theorem History.Aside.set (h : History) (i : Nat) (b : u8) : h.Aside (h.set h.head i b) :=
  ⟨rfl, rfl, fun _ other => Function.update_of_ne other _ _⟩

theorem History.Aside.trans {h₂ : History} (a : h.Aside h') (b : h'.Aside h₂) : h.Aside h₂ :=
  ⟨b.head.trans a.head, b.count.trans a.count, fun slot other =>
    (b.others slot (a.head ▸ other)).trans (a.others slot other)⟩

theorem set_entry (h : History) (slot i : Nat) (b : u8) :
    (h.set slot i b).entry slot = Function.update (h.entry slot) i b := Function.update_self _ _ _

/-- **The copy** of the line, into the slot of the next entry only. -/
theorem copyFrom_stays (buf : Nat → u8) (left : Nat) (head : h.head < HIST_N)
    (short : i + left < HIST_MAX) (room : i + left ≤ m)
    (done : text (h.entry h.head) i = text buf i) :
    ∃ h', (copyFrom h buf left i).Stays (Place.Inside m) h' ∧ h.Aside h' ∧
      text (h'.entry h.head) (i + left) = text buf (i + left) := by
  induction left generalizing h i with
  | zero => exact ⟨h, stays_pure.mpr rfl, .refl h, done⟩
  | succ left ih =>
    have line : (Place.line i).Inside m := by
      show i < m
      omega
    have slot : (Place.hist h.head i).Inside m := ⟨head, by omega⟩
    have next : text ((h.set h.head i (buf i)).entry h.head) (i + 1) = text buf (i + 1) := by
      rw [set_entry, text_put, done, text_succ]
    obtain ⟨h', stays, aside, copied⟩ := ih (h := h.set h.head i (buf i)) head (by omega)
      (by omega) next
    refine ⟨h', stays_read_bind line (stays_read_bind slot stays), (History.Aside.set h i _).trans aside, ?_⟩
    rw [← Nat.succ_add_eq_add_succ]
    exact copied

theorem Holds.congr (h_t : Holds f t) {f' : Nat → u8} (same : f' = f) : Holds f' t := same ▸ h_t

/-- The slots of the older entries after one more. -/
theorem slot_next (h : History) (hk : k < HIST_N) (head : h'.head = (h.head + 1) % HIST_N)
    (lt : h.head < HIST_N) : h'.slot (k + 1) = if k = 0 then h.head else h.slot k := by
  rw [History.slot, head]
  simp only [History.slot, HIST_N] at *
  split <;> omega

theorem slot_ne (h : History) (lt : h.head < HIST_N) (some_ : k ≠ 0) (hk : k < HIST_N) :
    h.slot k ≠ h.head := by
  simp only [History.slot, HIST_N] at *
  omega

/-- One more entry. -/
theorem keeps_cons (keeps : h.Keeps es) (head : h'.head = (h.head + 1) % HIST_N)
    (count : h'.count = if h.count < HIST_N then h.count + 1 else h.count)
    (others : ∀ slot, slot ≠ h.head → h'.entry slot = h.entry slot)
    (new : Holds (h'.entry h.head) t) : h'.Keeps ((t :: es).take HIST_N) := by
  have few := keeps.few
  refine ⟨?_, ?_, List.length_take_le _ _, fun k hk => ?_⟩
  · rw [head]
    exact Nat.mod_lt _ (by decide)
  · rw [count, keeps.count, List.length_take, List.length_cons]
    split <;> omega
  · rw [List.length_take, List.length_cons] at hk
    rw [slot_next h (by omega) head keeps.head, List.getElem_take]
    cases k with
    | zero => exact new
    | succ k =>
      rw [if_neg (Nat.succ_ne_zero k), List.getElem_cons_succ,
        others _ (slot_ne h keeps.head (Nat.succ_ne_zero k) (by omega))]
      exact keeps.each k (by omega)

/-- `HistAdd` finds out whether the line is the last entry. -/
theorem sameAsLast_stays (keeps : h.Keeps es) (nonzero : 0 ∉ text buf len) (room : len ≤ m) :
    (sameAsLast h buf len).Stays (Place.Inside m) (decide (es.head? = some (text buf len))) := by
  rw [sameAsLast, keeps.count]
  cases es with
  | nil => exact stays_pure.mpr rfl
  | cons t rest =>
    have last := keeps.each 0 (Nat.zero_lt_succ _)
    have same := sameFrom_stays (h.slot_lt 1) last nonzero room (Nat.zero_le _) (Nat.zero_le _) rfl
    rw [if_pos (by rw [List.length_cons]; omega), List.head?_cons,
      decide_eq_decide.mpr Option.some_inj]
    exact same

theorem append_stays (keeps : h.Keeps es) (nonzero : 0 ∉ text buf n) (room : n ≤ m)
    (short : n < HIST_MAX) :
    ∃ h', (h.append buf n).Stays (Place.Inside m) h' ∧
      h'.Keeps ((text buf n :: es).take HIST_N) := by
  obtain ⟨h₁, copied, aside, bytes⟩ := copyFrom_stays (m := m) (i := 0) buf n keeps.head
    (by omega) (by omega) rfl
  rw [Nat.zero_add] at bytes
  have ends : (Place.hist h₁.head n).Inside m := ⟨aside.head ▸ keeps.head, short⟩
  refine ⟨_, stays_bind.mpr ⟨h₁, copied, stays_read_bind ends (stays_pure.mpr rfl)⟩, ?_⟩
  have final := aside.trans (History.Aside.set h₁ n 0)
  refine keeps_cons keeps ?_ ?_ final.others ?_
  · rw [← aside.head]
    rfl
  · rw [← aside.count]
    rfl
  · have entry : ((h₁.set h₁.head n 0).entry h.head) = Function.update (h₁.entry h.head) n 0 := by
      rw [← aside.head]
      exact set_entry h₁ _ n 0
    refine Holds.congr ?_ entry
    refine ⟨by rw [length_text]; exact short, ?_, ?_, nonzero⟩
    · rw [length_text, text_update (Nat.le_refl n), bytes]
    · rw [length_text, Function.update_self]

/-- **`HistAdd`** remembers the line. -/
theorem histAdd_stays (keeps : h.Keeps es) (nonzero : 0 ∉ text buf len) (room : len ≤ m) :
    ∃ h', (histAdd h buf len).Stays (Place.Inside m) h' ∧
      h'.Keeps (remember es (text buf len)) := by
  rw [histAdd, remember]
  by_cases empty : len = 0
  case pos =>
    rw [if_pos empty, empty, if_pos (.inl text_zero)]
    exact ⟨h, stays_pure.mpr rfl, keeps⟩
  case neg =>
    have some_ : text buf len ≠ [] := fun none => empty (length_text.symm.trans (congrArg List.length none))
    rw [if_neg empty]
    have compared := sameAsLast_stays (m := m) keeps nonzero room
    by_cases same : es.head? = some (text buf len)
    case pos =>
      rw [decide_eq_true same] at compared
      rw [if_pos (Or.inr same)]
      exact ⟨h, stays_bind.mpr ⟨true, compared, stays_pure.mpr rfl⟩, keeps⟩
    case neg =>
      rw [decide_eq_false same] at compared
      rw [if_neg (not_or.mpr ⟨some_, same⟩)]
      have cut : (if len < HIST_MAX - 1 then len else HIST_MAX - 1) = min (HIST_MAX - 1) len := by
        split <;> omega
      have taken : (text buf len).take (HIST_MAX - 1) = text buf (min (HIST_MAX - 1) len) := by
        rw [List.take_eq_take_min, length_text, take_text (Nat.min_le_right _ _)]
      have fewer : 0 ∉ text buf (min (HIST_MAX - 1) len) := fun zero =>
        nonzero (List.mem_of_mem_take (taken ▸ zero))
      obtain ⟨h', stays, kept⟩ := append_stays keeps fewer ((Nat.min_le_right _ _).trans room)
        (lt_of_le_of_lt (Nat.min_le_left _ _) (by decide))
      rw [taken]
      refine ⟨h', stays_bind.mpr ⟨false, compared, ?_⟩, kept⟩
      rw [cut]
      exact stays

end

/-! ## Completion as a search -/

/-- The only element. -/
def unique {α : Type} : List α → Option α
  | [a] => some a
  | _ => none

/-- The only command that the text is a proper beginning of. -/
def completion (l : List u8) : Option (List u8) :=
  unique (commands.filter fun cmd => l <+: cmd ∧ cmd ≠ l)

section

variable {buf : Nat → u8} {n m i j left : Nat} {cmd : List u8} {cmds : List (List u8)}

theorem completion_some {l : List u8} (h : completion l = some cmd) :
    cmd ∈ commands ∧ l <+: cmd := by
  rw [completion] at h
  generalize found : commands.filter (fun cmd => l <+: cmd ∧ cmd ≠ l) = cs at h
  match cs with
  | [] => cases h
  | [c] =>
    obtain rfl := Option.some.inj h
    have one : c ∈ commands.filter fun cmd => l <+: cmd ∧ cmd ≠ l := found ▸ List.mem_singleton.mpr rfl
    obtain ⟨listed, proper⟩ := List.mem_filter.mp one
    exact ⟨listed, (of_decide_eq_true proper).1⟩
  | _ :: _ :: _ => cases h

theorem commands_nonzero : ∀ cmd ∈ commands, 0 ∉ cmd := by decide

theorem getD_eq_zero (nonzero : 0 ∉ cmd) : cmd.getD i 0 = 0 ↔ cmd.length ≤ i := by
  constructor
  · intro zero
    by_contra inside
    rw [List.getD_eq_getElem _ _ (Nat.lt_of_not_le inside)] at zero
    exact nonzero (zero ▸ List.getElem_mem _)
  · exact List.getD_eq_default _ _

theorem matchesFrom_stays (cmd : List u8) (nonzero : 0 ∉ text buf n) (room : n ≤ m)
    (rounds : j + left = n) (inside : j ≤ cmd.length) (same : text buf j = cmd.take j) :
    (matchesFrom buf cmd left j).Stays (Place.Inside m) (decide (text buf n <+: cmd)) := by
  induction left generalizing j with
  | zero =>
    obtain rfl : j = n := rounds
    refine stays_pure.mpr (decide_eq_true ?_)
    rw [same]
    exact List.take_prefix _ _
  | succ left ih =>
    have line : (Place.line j).Inside m := by
      show j < m
      omega
    have some_ : buf j ≠ 0 := fun zero => nonzero (zero ▸ mem_text (by omega))
    refine stays_read_bind line ?_
    by_cases e : cmd.getD j 0 = buf j
    case pos =>
      have longer : j < cmd.length := by
        by_contra short
        exact some_ (e ▸ List.getD_eq_default _ _ (Nat.le_of_not_lt short))
      rw [List.getD_eq_getElem _ _ longer] at e
      simp only [List.getD_eq_getElem _ _ longer, if_pos e]
      refine ih (by omega) longer ?_
      rw [text_succ, same, List.take_add_one, List.getElem?_eq_getElem longer, e]
      rfl
    case neg =>
      simp only [if_neg e]
      refine stays_pure.mpr (decide_eq_false fun first => e ?_)
      have at_ : j < (text buf n).length := by
        rw [length_text]
        omega
      rw [List.getD_eq_getElem _ _ (at_.trans_le first.length_le), ← first.getElem at_, getElem_text]

/-- **`TabComplete`** finds the only command, or none. -/
theorem tabComplete_stays (nonzero : 0 ∉ text buf n) (room : n ≤ m)
    (plain : ∀ cmd ∈ cmds, 0 ∉ cmd) (found : Option (List u8)) :
    (tabComplete buf n cmds found).Stays (Place.Inside m)
      (unique (found.toList ++ cmds.filter fun cmd => text buf n <+: cmd ∧ cmd ≠ text buf n)) := by
  induction cmds generalizing found with
  | nil =>
    refine stays_pure.mpr ?_
    cases found <;> rfl
  | cons cmd rest ih =>
    have rest_plain : ∀ cmd ∈ rest, 0 ∉ cmd := fun c hc => plain c (List.mem_cons_of_mem _ hc)
    have compared := matchesFrom_stays (j := 0) cmd nonzero room (Nat.zero_add n) (Nat.zero_le _) rfl
    refine stays_bind.mpr ⟨_, compared, ?_⟩
    have skips : (decide (text buf n <+: cmd) = false ∨ cmd.getD n 0 = 0) ↔
        ¬ (text buf n <+: cmd ∧ cmd ≠ text buf n) := by
      rw [decide_eq_false_iff_not, getD_eq_zero (plain cmd List.mem_cons_self), not_and, not_not]
      constructor
      · rintro (no | short) first
        · exact absurd first no
        · exact (first.eq_of_length_le (by rw [length_text]; exact short)).symm
      · intro all
        by_cases first : text buf n <+: cmd
        · exact .inr (by rw [all first, length_text])
        · exact .inl first
    by_cases proper : text buf n <+: cmd ∧ cmd ≠ text buf n
    case pos =>
      simp only [if_neg (mt skips.mp (not_not.mpr proper))]
      rw [List.filter_cons_of_pos (by simpa using proper)]
      cases found with
      | some c => exact stays_pure.mpr rfl
      | none => exact ih rest_plain (some cmd)
    case neg =>
      simp only [if_pos (skips.mpr proper)]
      rw [List.filter_cons_of_neg (by simpa using proper)]
      exact ih rest_plain found

end

/-! ## The editor on lists -/

/-- The line as a list, the entry that is shown, and how long the line may get. -/
structure Draft where
  text : List u8
  pos : Nat
  room : Nat

structure Editor.Shows (e : Editor) (d : Draft) : Prop where
  text : text e.buf e.n = d.text
  pos : e.histPos = d.pos
  room : e.maxlen = d.room

def Draft.start (a2 : u64) : Draft := ⟨[], 0, if a2 > 1 then (a2 - 1).toNat else 0⟩

/-- Another entry of the history is shown: the newest has number 1, and 0 is an empty line. -/
def Draft.recall (d : Draft) (es : List (List u8)) (pos : Nat) : Draft :=
  if pos = 0 then { d with text := [], pos := 0 }
  else match es[pos - 1]? with
    | none => d
    | some l => { d with text := l.take d.room, pos := pos }

def Draft.complete (d : Draft) : Draft :=
  match completion d.text with
  | none => d
  | some cmd => { d with text := cmd.take d.room }

def Draft.press (d : Draft) (es : List (List u8)) (ch : u8) : Draft :=
  if ch = 0x0A ∨ ch = 0x0D then d
  else if ch = 0x08 then { d with text := d.text.dropLast }
  else if ch = 0x09 then d.complete
  else if ch = KEY_UP ∨ ch = KEY_DOWN then
    d.recall es (if ch = KEY_UP then d.pos + 1 else d.pos - 1)
  else { d with text := d.text ++ [ch] }

section

variable {h : History} {es : List (List u8)} {e : Editor} {d : Draft} {t comp : List u8}
  {m i left slot : Nat} {ch : u8}

theorem Editor.Shows.length (shows : e.Shows d) : d.text.length = e.n := by
  rw [← shows.text, length_text]

theorem shows_start (a2 : u64) : (Editor.start a2).Shows (Draft.start a2) := ⟨rfl, rfl, rfl⟩

theorem Editor.Shows.put (shows : e.Shows d) (c : u8) :
    (e.put c).Shows { d with text := d.text ++ [c] } :=
  ⟨text_put.trans (congrArg (· ++ [c]) shows.text), shows.pos, shows.room⟩

/-- A shorter line. -/
theorem Editor.Shows.cut (shows : e.Shows d) (h : i ≤ e.n) :
    ({ e with n := i } : Editor).Shows { d with text := d.text.take i } :=
  ⟨(take_text h).symm.trans (congrArg (·.take i) shows.text), shows.pos, shows.room⟩

/-- The text is the beginning of another that has been written so far. -/
theorem complete_stays (nonzero : 0 ∉ comp) (shows : e.Shows { d with text := comp.take e.n })
    (inside : e.n ≤ comp.length) (rounds : comp.length ≤ e.n + left) (fits : e.n ≤ d.room)
    (room : d.room ≤ m) :
    ∃ e', (e.complete comp left).Stays (Place.Inside m) e' ∧
      e'.Shows { d with text := comp.take d.room } := by
  induction left generalizing e with
  | zero =>
    refine ⟨e, stays_pure.mpr rfl, ?_⟩
    rw [List.take_of_length_le (by omega : comp.length ≤ d.room)]
    rw [List.take_of_length_le (by omega : comp.length ≤ e.n)] at shows
    exact shows
  | succ left ih =>
    have full : e.maxlen = d.room := shows.room
    rw [Editor.complete]
    by_cases more : comp.getD e.n 0 ≠ 0 ∧ e.n < e.maxlen
    case pos =>
      have longer : e.n < comp.length := by
        by_contra short
        exact more.1 (List.getD_eq_default _ _ (Nat.le_of_not_lt short))
      have line : (Place.line e.n).Inside m := by
        show e.n < m
        omega
      rw [if_pos more, List.getD_eq_getElem _ _ longer]
      have next : (e.put comp[e.n]).Shows { d with text := comp.take (e.n + 1) } := by
        rw [List.take_succ_eq_append_getElem longer]
        exact shows.put _
      obtain ⟨e', stays, done⟩ := ih next longer (by show comp.length ≤ e.n + 1 + left; omega)
        (by show e.n + 1 ≤ d.room; omega)
      exact ⟨e', stays_read_bind line stays, done⟩
    case neg =>
      rw [if_neg more]
      refine ⟨e, stays_pure.mpr rfl, ?_⟩
      have same : comp.take d.room = comp.take e.n := by
        rcases not_and_or.mp more with last | last
        · have short := (getD_eq_zero nonzero).mp (not_not.mp last)
          rw [List.take_of_length_le short, List.take_of_length_le (by omega)]
        · rw [show d.room = e.n by omega]
      rw [same]
      exact shows

theorem recall_stays (left : Nat) (slot_lt : slot < HIST_N) (entry : Holds (h.entry slot) t)
    (shows : e.Shows { d with text := t.take e.n }) (at_ : e.n = i) (inside : i ≤ t.length)
    (rounds : t.length < i + left) (fits : i ≤ d.room) (room : d.room ≤ m) :
    ∃ e', (e.recall h slot left i).Stays (Place.Inside m) e' ∧
      e'.Shows { d with text := t.take d.room } := by
  induction left generalizing e i with
  | zero => omega
  | succ left ih =>
    have full : e.maxlen = d.room := shows.room
    have short := entry.short
    have byte : (Place.hist slot i).Inside m := ⟨slot_lt, by omega⟩
    rw [Editor.recall]
    by_cases more : h.entry slot i ≠ 0 ∧ e.n < e.maxlen
    case pos =>
      have longer : i < t.length := by
        refine lt_of_le_of_ne inside fun last => more.1 ?_
        rw [last, entry.ends]
      have line : (Place.line e.n).Inside m := by
        show e.n < m
        omega
      have next : (e.put (h.entry slot i)).Shows { d with text := t.take (e.n + 1) } := by
        subst at_
        rw [List.take_succ_eq_append_getElem longer, ← entry.get longer]
        exact shows.put _
      obtain ⟨e', stays, done⟩ := ih next (congrArg (· + 1) at_) longer (by omega) (by omega)
      refine ⟨e', stays_read_bind byte ?_, done⟩
      simp only [if_pos more]
      exact stays_read_bind line stays
    case neg =>
      refine ⟨e, stays_read_bind byte ?_, ?_⟩
      · simp only [if_neg more]
        exact stays_pure.mpr rfl
      · have same : t.take d.room = t.take e.n := by
          rcases not_and_or.mp more with last | last
          · have ends : i = t.length := by
              by_contra other
              exact entry.ne_zero (lt_of_le_of_ne inside other) (not_not.mp last)
            rw [List.take_of_length_le (by omega), List.take_of_length_le (by omega)]
          · rw [show d.room = e.n by omega]
        rw [same]
        exact shows

theorem histGet_eq (keeps : h.Keeps es) (i : Nat) :
    histGet h (i + 1) = (es[i]?).map fun _ => h.slot (i + 1) := by
  rw [histGet, keeps.count]
  by_cases inside : i < es.length
  · rw [if_neg (by omega), List.getElem?_eq_getElem inside]
    rfl
  · rw [if_pos (by omega), List.getElem?_eq_none (by omega)]
    rfl

/-- **One key** does to the line what it does to the list. -/
theorem press_stays (keeps : h.Keeps es) (shows : e.Shows d) (nonzero : 0 ∉ d.text)
    (waits : d.text.length < d.room) (room : d.room ≤ m) (ch : u8) :
    ∃ e', (e.press h ch).Stays (Place.Inside m) (e', decide (ch = 0x0A ∨ ch = 0x0D)) ∧
      e'.Shows (d.press es ch) := by
  have length := shows.length
  have full := shows.room
  rw [Editor.press, Draft.press]
  by_cases enter : ch = 0x0A ∨ ch = 0x0D
  case pos =>
    rw [if_pos enter, if_pos enter, decide_eq_true enter]
    exact ⟨e, stays_pure.mpr rfl, shows⟩
  case neg =>
    rw [if_neg enter, if_neg enter, decide_eq_false enter]
    by_cases back : ch = 0x08
    case pos =>
      rw [if_pos back, if_pos back]
      refine ⟨_, stays_pure.mpr rfl, ?_⟩
      have one : (if e.n > 0 then e.n - 1 else e.n) = e.n - 1 := by
        split <;> omega
      rw [one, List.dropLast_eq_take, length]
      exact shows.cut (Nat.sub_le _ _)
    case neg =>
      rw [if_neg back, if_neg back]
      by_cases tab : ch = 0x09
      case pos =>
        rw [if_pos tab, if_pos tab, Draft.complete]
        have line := shows.text
        have found := tabComplete_stays (m := m) (line ▸ nonzero) (by omega)
          commands_nonzero none
        rw [line] at found
        change Stays _ _ (completion d.text) at found
        cases only : completion d.text with
        | none =>
          rw [only] at found
          exact ⟨e, stays_bind.mpr ⟨none, found, stays_pure.mpr rfl⟩, shows⟩
        | some comp =>
          rw [only] at found
          obtain ⟨listed, first⟩ := completion_some only
          have start : e.Shows { d with text := comp.take e.n } := by
            rw [← length, ← List.prefix_iff_eq_take.mp first]
            exact shows
          obtain ⟨e', stays, done⟩ := complete_stays (commands_nonzero comp listed) start
            (length ▸ first.length_le) (Nat.le_add_left _ _) (by omega) room
          exact ⟨e', stays_bind.mpr ⟨some comp, found, stays_bind.mpr ⟨e', stays, stays_pure.mpr rfl⟩⟩,
            done⟩
      case neg =>
        rw [if_neg tab, if_neg tab]
        by_cases arrow : ch = KEY_UP ∨ ch = KEY_DOWN
        case pos =>
          rw [if_pos arrow, if_pos arrow, ← shows.pos]
          generalize (if ch = KEY_UP then e.histPos + 1 else e.histPos - 1) = pos
          dsimp only
          rw [Draft.recall]
          cases pos with
          | zero =>
            exact ⟨_, stays_pure.mpr rfl, rfl, rfl, full⟩
          | succ i =>
            rw [if_neg (Nat.succ_ne_zero i), if_neg (Nat.succ_ne_zero i), histGet_eq keeps,
              Nat.add_sub_cancel]
            cases at_ : es[i]? with
            | none => exact ⟨e, stays_pure.mpr rfl, shows⟩
            | some l =>
              obtain ⟨inside, rfl⟩ := List.getElem?_eq_some_iff.mp at_
              have entry := keeps.each i inside
              have rounds : es[i].length < 0 + HIST_MAX := (Nat.zero_add HIST_MAX).symm ▸ entry.short
              have start : ({ e with n := 0 } : Editor).Shows { d with text := es[i].take 0 } :=
                ⟨rfl, shows.pos, full⟩
              obtain ⟨e', stays, done⟩ := recall_stays HIST_MAX (h.slot_lt (i + 1)) entry start
                rfl (Nat.zero_le _) rounds (Nat.zero_le _) room
              exact ⟨_, stays_bind.mpr ⟨e', stays, stays_pure.mpr rfl⟩, done.text, rfl, done.room⟩
        case neg =>
          rw [if_neg arrow, if_neg arrow]
          have line : (Place.line e.n).Inside m := by
            show e.n < m
            omega
          exact ⟨_, stays_read_bind line (stays_pure.mpr rfl), shows.put ch⟩

/-! ### What keys keep -/

/-- A key that is not 0 brings no 0 into the line. -/
theorem Draft.press_nonzero (h_es : ∀ l ∈ es, 0 ∉ l) (nonzero : 0 ∉ d.text) (some_ : ch ≠ 0) :
    0 ∉ (d.press es ch).text := by
  have cut : ∀ {l : List u8} {k : Nat}, 0 ∉ l → 0 ∉ l.take k := fun no zero =>
    no (List.mem_of_mem_take zero)
  rw [Draft.press]
  split
  case isTrue => exact nonzero
  case isFalse =>
    split
    case isTrue => exact fun zero => nonzero (List.mem_of_mem_dropLast zero)
    case isFalse =>
      split
      case isTrue =>
        rw [Draft.complete]
        cases only : completion d.text with
        | none => exact nonzero
        | some cmd => exact cut (commands_nonzero cmd (completion_some only).1)
      case isFalse =>
        split
        case isTrue =>
          rw [Draft.recall]
          generalize (if ch = KEY_UP then d.pos + 1 else d.pos - 1) = pos
          split
          case isTrue => exact List.not_mem_nil
          case isFalse =>
            cases at_ : es[pos - 1]? with
            | none => exact nonzero
            | some l => exact cut (h_es l (List.mem_of_getElem? at_))
        case isFalse =>
          rw [List.mem_append, List.mem_singleton, not_or]
          exact ⟨nonzero, some_.symm⟩

/-- A line that is shorter than it may be does not get too long. -/
theorem Draft.press_room (waits : d.text.length < d.room) :
    (d.press es ch).text.length ≤ d.room ∧ (d.press es ch).room = d.room := by
  rw [Draft.press]
  split
  case isTrue => exact ⟨waits.le, rfl⟩
  case isFalse =>
    split
    case isTrue => exact ⟨(List.dropLast_sublist _).length_le.trans waits.le, rfl⟩
    case isFalse =>
      split
      case isTrue =>
        rw [Draft.complete]
        cases completion d.text with
        | none => exact ⟨waits.le, rfl⟩
        | some cmd => exact ⟨List.length_take_le _ _, rfl⟩
      case isFalse =>
        split
        case isTrue =>
          rw [Draft.recall]
          generalize (if ch = KEY_UP then d.pos + 1 else d.pos - 1) = pos
          split
          case isTrue => exact ⟨Nat.zero_le _, rfl⟩
          case isFalse =>
            cases es[pos - 1]? with
            | none => exact ⟨waits.le, rfl⟩
            | some l => exact ⟨List.length_take_le _ _, rfl⟩
        case isFalse =>
          rw [List.length_append, List.length_singleton]
          exact ⟨waits, rfl⟩

end

/-! ## Lines as lists -/

/-- What becomes of a line. -/
def entered (l : List u8) : Entered :=
  if l.length = 2 ∧ ascii "ps" <+: l then .ps
  else if l.length > 5 ∧ ascii "kill " <+: l then .kill (parsePid 0 (l.drop 5))
  else if l.length > 3 ∧ ascii "bg " <+: l then .bg ((l.drop 3).take 63)
  else if l.length > 8 ∧ ascii "winexec " <+: l then .winexec ((l.drop 8).take 63)
  else if l.length > 6 ∧ ascii "mkdir " <+: l then .mkdir (l.drop 6)
  else if l.length > 3 ∧ ascii "rm " <+: l then .rm (l.drop 3)
  else if l.length = 4 ∧ ascii "save" <+: l then .save
  else if l.length ≥ 4 ∧ ascii "exit" <+: l then .line true l
  else .line false l

section

variable {buf : Nat → u8} {n m i j left : Nat} {l : List u8}

theorem inside_line (h : i < m) : (Place.line i).Inside m := h

theorem text_drop (h : i < n) : (text buf n).drop i = buf i :: (text buf n).drop (i + 1) := by
  have at_ : i < (text buf n).length := by rw [length_text]; exact h
  rw [List.drop_eq_getElem_cons at_, getElem_text]

theorem kstrcmp_stays (t : List u8) (room : n ≤ m) (fits : i + t.length ≤ n) :
    (kstrcmp buf t i).Stays (Place.Inside m) (decide (t <+: (text buf n).drop i)) := by
  induction t generalizing i with
  | nil => exact stays_pure.mpr (decide_eq_true (List.nil_prefix))
  | cons c rest ih =>
    rw [List.length_cons] at fits
    refine stays_read_bind (inside_line (by omega)) ?_
    rw [text_drop (by omega)]
    by_cases e : buf i = c
    case pos =>
      simp only [e, if_true, List.cons_prefix_cons, true_and]
      exact ih (by omega)
    case neg =>
      simp only [if_neg e, List.cons_prefix_cons]
      exact stays_pure.mpr (decide_eq_false fun same => e same.1.symm)

theorem bytesFrom_stays (room : n ≤ m) (fits : i + left ≤ n) :
    (bytesFrom buf left i).Stays (Place.Inside m) (((text buf n).drop i).take left) := by
  induction left generalizing i with
  | zero => exact stays_pure.mpr List.take_zero
  | succ left ih =>
    refine stays_read_bind (inside_line (by omega))
      (stays_bind.mpr ⟨_, ih (i := i + 1) (by omega), stays_pure.mpr ?_⟩)
    rw [text_drop (by omega), List.take_succ_cons]

theorem stringFrom_stays (nonzero : 0 ∉ text buf n) (ends : buf n = 0) (room : n < m)
    (inside : i ≤ n) (rounds : n < i + left) :
    (stringFrom buf left i).Stays (Place.Inside m) ((text buf n).drop i) := by
  induction left generalizing i with
  | zero => omega
  | succ left ih =>
    refine stays_read_bind (inside_line (by omega)) ?_
    by_cases more : i < n
    case pos =>
      have some_ : buf i ≠ 0 := fun zero => nonzero (zero ▸ mem_text more)
      simp only [if_neg some_]
      refine stays_bind.mpr ⟨_, ih (i := i + 1) (by omega) (by omega), stays_pure.mpr ?_⟩
      rw [text_drop more]
    case neg =>
      obtain rfl : i = n := by omega
      simp only [if_pos ends]
      refine stays_pure.mpr (List.drop_eq_nil_of_le ?_)
      rw [length_text]

theorem pidFrom_stays (room : n ≤ m) (rounds : i + left = n) (pid : u32) :
    (pidFrom buf left i pid).Stays (Place.Inside m) (parsePid pid ((text buf n).drop i)) := by
  induction left generalizing i pid with
  | zero =>
    refine stays_pure.mpr ?_
    rw [List.drop_eq_nil_of_le (by rw [length_text]; omega), parsePid]
  | succ left ih =>
    refine stays_read_bind (inside_line (by omega)) ?_
    rw [text_drop (by omega), parsePid]
    by_cases digit : (buf i).toNat ≥ 0x30 ∧ (buf i).toNat ≤ 0x39
    case pos =>
      simp only [if_pos digit]
      exact ih (by omega) _
    case neg =>
      simp only [if_neg digit]
      exact stays_pure.mpr rfl

/-- A branch of the commands. -/
theorem test_stays {fits : Prop} [Decidable fits] {t : String} {yes no : Traced Place Entered}
    {y x : Entered} (room : n ≤ m) (enough : fits → (ascii t).length ≤ n)
    (h_yes : fits → yes.Stays (Place.Inside m) y) (h_no : no.Stays (Place.Inside m) x) :
    (test buf fits t yes no).Stays (Place.Inside m)
      (if fits ∧ ascii t <+: text buf n then y else x) := by
  rw [test]
  by_cases yes_ : fits
  case pos =>
    have compared : (kstrcmp buf (ascii t) 0).Stays (Place.Inside m)
        (decide (ascii t <+: (text buf n).drop 0)) :=
      kstrcmp_stays (ascii t) room ((Nat.zero_add _).trans_le (enough yes_))
    rw [List.drop_zero] at compared
    rw [decide_eq_true yes_, if_pos rfl]
    refine stays_bind.mpr ⟨_, compared, ?_⟩
    by_cases same : ascii t <+: text buf n
    · simp only [decide_eq_true same, if_true, if_pos (And.intro yes_ same)]
      exact h_yes yes_
    · have not : ¬ (fits ∧ ascii t <+: text buf n) := fun h => same h.2
      simp only [decide_eq_false same, Bool.false_eq_true, if_false, if_neg not]
      exact h_no
  case neg =>
    rw [decide_eq_false yes_, if_neg Bool.false_ne_true, if_neg fun h => yes_ h.1]
    exact h_no

theorem bytesFrom_bind {make : List u8 → Entered} (room : n ≤ m) (fits : i + left ≤ n) :
    Stays (Place.Inside m) (bytesFrom buf left i >>= fun name => pure (make name))
      (make (((text buf n).drop i).take left)) :=
  stays_bind.mpr ⟨_, bytesFrom_stays room fits, stays_pure.mpr rfl⟩

theorem stringFrom_bind {make : List u8 → Entered} (nonzero : 0 ∉ text buf n) (ends : buf n = 0)
    (room : n < m) (inside : i ≤ n) (rounds : n < i + LINE_SIZE) :
    Stays (Place.Inside m) (stringFrom buf LINE_SIZE i >>= fun name => pure (make name))
      (make ((text buf n).drop i)) :=
  stays_bind.mpr ⟨_, stringFrom_stays nonzero ends room inside rounds, stays_pure.mpr rfl⟩

theorem copied_stays (room : n < m) (saves : Bool) :
    (command.copied buf n saves).Stays (Place.Inside m) (.line saves (text buf n)) := by
  refine stays_bind.mpr ⟨_, bytesFrom_stays (n := n + 1) room (Nat.zero_add _).le, stays_pure.mpr ?_⟩
  rw [List.drop_zero, List.take_take, Nat.min_eq_left (Nat.le_succ n), take_text (Nat.le_succ n)]

/-- A name that has to fit into 63 characters. -/
theorem take_name {k : Nat} :
    ((text buf n).drop k).take (if n - k < 63 then n - k else 63) =
      ((text buf n).drop k).take 63 := by
  have length : ((text buf n).drop k).length = n - k := by rw [List.length_drop, length_text]
  split
  · rw [List.take_of_length_le (by omega), List.take_of_length_le (by omega)]
  · rfl

/-- **The commands** are told by the line as a list. -/
theorem command_stays (nonzero : 0 ∉ text buf n) (ends : buf n = 0) (room : n < m)
    (short : n < LINE_SIZE) :
    (command buf n).Stays (Place.Inside m) (entered (text buf n)) := by
  have le := room.le
  have line : ∀ {k l : Nat}, l ≤ k → n > k → l ≤ n := fun h h' => (h.trans_lt h').le
  rw [command, entered, length_text]
  refine test_stays le (fun e => e.ge) (fun _ => stays_pure.mpr rfl) ?_
  refine test_stays le (line (by decide)) (fun long => ?_) ?_
  · exact stays_bind.mpr ⟨_, pidFrom_stays le (by omega) 0, stays_pure.mpr rfl⟩
  refine test_stays le (line (by decide)) (fun long => ?_) ?_
  · rw [← take_name]
    exact bytesFrom_bind le (by split <;> omega)
  refine test_stays le (line (by decide)) (fun long => ?_) ?_
  · rw [← take_name]
    exact bytesFrom_bind le (by split <;> omega)
  refine test_stays le (line (by decide)) (fun long => ?_) ?_
  · exact stringFrom_bind nonzero ends room long.le (by omega)
  refine test_stays le (line (by decide)) (fun long => ?_) ?_
  · exact stringFrom_bind nonzero ends room long.le (by omega)
  refine test_stays le (fun e => e.ge) (fun _ => stays_pure.mpr rfl) ?_
  exact test_stays le id (fun _ => copied_stays room true) (copied_stays room false)

variable {h : History} {es : List (List u8)} {e : Editor} {d : Draft}

/-- **The end of a call**: the line is remembered, and carried out or returned. -/
theorem finish_stays (keeps : h.Keeps es) (shows : e.Shows d) (nonzero : 0 ∉ d.text)
    (room : d.text.length < m) (short : d.text.length < LINE_SIZE) :
    ∃ h', (e.finish h).Stays (Place.Inside m) (h', entered d.text) ∧
      h'.Keeps (remember es d.text) := by
  have line : text (Function.update e.buf e.n 0) e.n = d.text := by
    rw [text_update (Nat.le_refl _), shows.text]
  rw [shows.length] at room short
  obtain ⟨h', added, keeps'⟩ := histAdd_stays (m := m) keeps (line ▸ nonzero) room.le
  rw [line] at keeps'
  have done := command_stays (line ▸ nonzero) (Function.update_self e.n 0 e.buf) room short
  rw [line] at done
  exact ⟨h', stays_read_bind (inside_line room)
    (stays_bind.mpr ⟨h', added, stays_bind.mpr ⟨_, done, stays_pure.mpr rfl⟩⟩), keeps'⟩

end

end MicroNT.ReadLine
