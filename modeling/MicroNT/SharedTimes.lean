import MicroNT.Base.Machine
import MicroNT.Ntdef
import Mathlib.Data.List.Induction
import Mathlib.Logic.Function.Basic

/-! # The times of the shared page (`shareduserdata.cpp`)

`Tick` refreshes three 64-bit times on a page that user code reads at any moment. Each is in
three 32-bit words: the upper half is there twice, and a reader that finds two different
upper halves starts over. Before and after each store of `WriteSystemTime` the reader can
take any number of steps. -/

namespace MicroNT.KUSER

open Base

/-! ## The page and the update -/

/-- The `KSYSTEM_TIME` fields of the page. -/
inductive Field
  | interruptTime
  | systemTime
  | tickCount
  deriving DecidableEq

/-- `OFF_InterruptTime`, `OFF_SystemTime` and `OFF_TickCount`. -/
def Field.off : Field → Nat
  | .interruptTime => 0x008
  | .systemTime => 0x014
  | .tickCount => 0x320

/-- The 32-bit words of the page, by their offsets. -/
abbrev Page := Nat → u32

structure Store where
  addr : Nat
  value : u32

def Page.store (p : Page) (w : Store) : Page := Function.update p w.addr w.value

/-- `(i32)(v >> 32)`, as bits. -/
def high (v : u64) : u32 := (v >>> 32).setWidth 32

/-- `(u32)(v & 0xFFFFFFFF)`. -/
def low (v : u64) : u32 := (v &&& 0xFFFFFFFF#64).setWidth 32

/-- `WriteSystemTime`: `high2`, then `low`, then `high1`. -/
def writeSystemTime (off : Nat) (v : u64) : List Store :=
  [⟨off + 8, high v⟩, ⟨off + 0, low v⟩, ⟨off + 4, high v⟩]

/-- A call of `WriteSystemTime`. -/
structure Call where
  field : Field
  time : u64

def Call.stores (c : Call) : List Store := writeSystemTime c.field.off c.time

/-- `Tick` while `PitTicks` is `ticks`. -/
def tick (ticks : u64) : List Call :=
  let time100ns := ticks * 100000#64
  [⟨.interruptTime, time100ns⟩, ⟨.systemTime, time100ns⟩, ⟨.tickCount, ticks⟩]

/-- What is written to a field, the oldest first. -/
def times (f : Field) (calls : List Call) : List u64 :=
  (calls.filter fun c => c.field = f).map Call.time

/-! ## The reader -/

/-- A reader of a `KSYSTEM_TIME`, between two of its reads. -/
inductive Reader
  | start
  | gotHigh1 (high1 : u32)
  | gotLow (high1 low : u32)
  | accepted (time : u64)

/-- The 64-bit time of two halves. -/
def joined (high low : u32) : u64 := (high.setWidth 64 <<< 32) ||| low.setWidth 64

/-- One read of `High1Time`, `LowPart` or `High2Time`. With the last one the reader accepts
or starts over; one that has accepted may read again. -/
def Reader.read (p : Page) (f : Field) : Reader → Reader
  | start => .gotHigh1 (p (f.off + 4))
  | gotHigh1 high1 => .gotLow high1 (p (f.off + 0))
  | gotLow high1 low => if p (f.off + 8) = high1 then .accepted (joined high1 low) else .start
  | accepted _ => .start

/-! ## The two together -/

structure System where
  page : Page
  /-- the stores that are left of the update under way -/
  stores : List Store
  /-- the updates after it -/
  calls : List Call
  reader : Reader

inductive Label
  | call
  | store
  | read

/-- One store of the kernel, the beginning of its next update, or one read of field `f`. -/
def step (f : Field) (s : System) : Label → Option System
  | .call =>
    match s.stores, s.calls with
    | [], c :: rest => some { s with stores := c.stores, calls := rest }
    | _, _ => none
  | .store =>
    match s.stores with
    | [] => none
    | w :: rest => some { s with page := s.page.store w, stores := rest }
  | .read => some { s with reader := s.reader.read s.page f }

/-- The page as `Init` zeroes it, after the updates `calls`. -/
def written (calls : List Call) : Page := (calls.flatMap Call.stores).foldl Page.store fun _ => 0

/-- `Init` makes the first updates before it maps the page; the rest come with the timer. -/
def mapped (first rest : List Call) : System := ⟨written first, [], rest, .start⟩

/-! ## The halves of a time -/

theorem joined_halves (v : u64) : joined (high v) (low v) = v := by
  apply BitVec.eq_of_getLsbD_eq
  intro i hi
  simp only [joined, high, low, BitVec.getLsbD_or, BitVec.getLsbD_shiftLeft,
    BitVec.getLsbD_setWidth, BitVec.getLsbD_ushiftRight, BitVec.getLsbD_and]
  by_cases upper : i < 32
  case neg =>
    have same : 32 + (i - 32) = i := by omega
    simp [hi, upper, same, show i - 32 < 32 by omega, show i - 32 < 64 by omega]
  case pos =>
    have mask : (0xFFFFFFFF#64).getLsbD i = true := by
      have all : ∀ j : Fin 32, (0xFFFFFFFF#64).getLsbD j = true := by decide
      exact all ⟨i, upper⟩
    simp [hi, upper, mask]

theorem high_mono {v w : u64} (h : v ≤ w) : high v ≤ high w := by
  have le : v.toNat ≤ w.toNat := h
  have small := v.isLt
  have small' := w.isLt
  simp only [high, BitVec.le_def, BitVec.toNat_setWidth, BitVec.toNat_ushiftRight,
    Nat.shiftRight_eq_div_pow]
  rw [Nat.mod_eq_of_lt (by omega), Nat.mod_eq_of_lt (by omega)]
  exact Nat.div_le_div_right le

/-- Between two times with one upper half there is no other. -/
theorem high_between {a b c : u64} (h1 : a ≤ b) (h2 : b ≤ c) (same : high c = high a) :
    high b = high a :=
  BitVec.le_antisymm (same ▸ high_mono h2) (high_mono h1)

/-! ## The words of a field -/

def Field.words (f : Field) : List Nat := [f.off + 8, f.off + 0, f.off + 4]

theorem Field.words_disjoint {f g : Field} (other : g ≠ f) : ∀ a ∈ g.words, a ∉ f.words := by
  revert other
  cases f <;> cases g <;> decide

theorem Call.stores_addr {c : Call} {w : Store} (h : w ∈ c.stores) : w.addr ∈ c.field.words := by
  simp only [Call.stores, writeSystemTime, List.mem_cons, List.not_mem_nil, or_false] at h
  obtain rfl | rfl | rfl := h <;> simp [Field.words]

/-- The words of a field are the halves of `a` (`High1Time`), `b` (`LowPart`) and `c`
(`High2Time`). -/
structure Shows (f : Field) (p : Page) (a b c : u64) : Prop where
  high1 : p (f.off + 4) = high a
  lowPart : p (f.off + 0) = low b
  high2 : p (f.off + 8) = high c

section

variable {f : Field} {p : Page} {a b c v : u64}

theorem Shows.other (h : Shows f p a b c) {w : Store} (out : w.addr ∉ f.words) :
    Shows f (p.store w) a b c := by
  simp only [Field.words, List.mem_cons, List.not_mem_nil, or_false, not_or] at out
  refine ⟨?_, ?_, ?_⟩ <;> rw [Page.store, Function.update_of_ne]
  · exact h.high1
  · exact Ne.symm out.2.2
  · exact h.lowPart
  · exact Ne.symm out.2.1
  · exact h.high2
  · exact Ne.symm out.1

theorem Shows.storeHigh2 (h : Shows f p a b c) : Shows f (p.store ⟨f.off + 8, high v⟩) a b v :=
  ⟨(Function.update_of_ne (by simp) _ _).trans h.high1,
    (Function.update_of_ne (by simp) _ _).trans h.lowPart, Function.update_self ..⟩

theorem Shows.storeLow (h : Shows f p a b c) : Shows f (p.store ⟨f.off + 0, low v⟩) a v c :=
  ⟨(Function.update_of_ne (by simp) _ _).trans h.high1, Function.update_self ..,
    (Function.update_of_ne (by simp) _ _).trans h.high2⟩

theorem Shows.storeHigh1 (h : Shows f p a b c) : Shows f (p.store ⟨f.off + 4, high v⟩) v b c :=
  ⟨Function.update_self .., (Function.update_of_ne (by simp) _ _).trans h.lowPart,
    (Function.update_of_ne (by simp) _ _).trans h.high2⟩

end

/-! ## The invariant -/

/-- What is left of an update when the words hold halves of `a`, `b` and `c`, and `w` is the
newest time whose update has begun. -/
inductive Left (f : Field) : List Store → u64 → u64 → u64 → u64 → Prop
  | elsewhere {l : List Store} {w : u64} (out : ∀ x ∈ l, x.addr ∉ f.words) : Left f l w w w w
  | all {a w : u64} (le : a ≤ w) : Left f (writeSystemTime f.off w) a a a w
  | two {a w : u64} (le : a ≤ w) : Left f [⟨f.off + 0, low w⟩, ⟨f.off + 4, high w⟩] a a w w
  | one {a w : u64} (le : a ≤ w) : Left f [⟨f.off + 4, high w⟩] a w w w

/-- What the reader has in hand was there: the upper half of a time that is not after the one
in `High1Time`, and the lower half of a time in between. -/
def Seen (written : List u64) (a b : u64) : Reader → Prop
  | .start => True
  | .gotHigh1 high1 => ∃ v, v ≤ a ∧ high1 = high v
  | .gotLow high1 lowPart =>
    ∃ v u, v ≤ u ∧ u ≤ b ∧ u ∈ written ∧ high1 = high v ∧ lowPart = low u
  | .accepted time => time ∈ written

/-- **The invariant**: the words lag behind the update by a store or two, and the reader
behind the words. -/
structure Sound (f : Field) (written : List u64) (s : System) (a b c w : u64) : Prop where
  shows : Shows f s.page a b c
  left : Left f s.stores a b c w
  began : w ∈ written ∧ b ∈ written
  ordered : (w :: times f s.calls).Pairwise (· ≤ ·)
  toCome : ∀ v ∈ times f s.calls, v ∈ written
  seen : Seen written a b s.reader

section

variable {f : Field} {written : List u64} {s t : System} {a b c w : u64}

theorem Left.le {l : List Store} (h : Left f l a b c w) : a ≤ b ∧ b ≤ c ∧ c ≤ w := by
  cases h with
  | elsewhere => exact ⟨BitVec.le_refl _, BitVec.le_refl _, BitVec.le_refl _⟩
  | all le => exact ⟨BitVec.le_refl _, BitVec.le_refl _, le⟩
  | two le => exact ⟨BitVec.le_refl _, le, BitVec.le_refl _⟩
  | one le => exact ⟨le, BitVec.le_refl _, BitVec.le_refl _⟩

theorem Seen.mono {r : Reader} {a' b' : u64} (h : Seen written a b r) (ha : a ≤ a')
    (hb : b ≤ b') : Seen written a' b' r := by
  cases r with
  | start => trivial
  | gotHigh1 high1 =>
    obtain ⟨v, le, half⟩ := h
    exact ⟨v, BitVec.le_trans le ha, half⟩
  | gotLow high1 lowPart =>
    obtain ⟨v, u, between, le, rest⟩ := h
    exact ⟨v, u, between, BitVec.le_trans le hb, rest⟩
  | accepted time => exact h

theorem times_cons (f : Field) (c : Call) (l : List Call) :
    times f (c :: l) = if c.field = f then c.time :: times f l else times f l := by
  rw [times, List.filter_cons]
  by_cases same : c.field = f <;> simp [same, times]

theorem times_append (f : Field) (l l' : List Call) :
    times f (l ++ l') = times f l ++ times f l' := by
  rw [times, List.filter_append, List.map_append, times, times]

theorem Sound.call (h : Sound f written s a b c w) (ran : step f s .call = some t) :
    ∃ w', Sound f written t a b c w' := by
  simp only [step] at ran
  split at ran
  case h_2 => cases ran
  case h_1 first rest noStores more =>
    obtain rfl := Option.some.inj ran
    have ordered := h.ordered
    have toCome := h.toCome
    rw [more, times_cons] at ordered toCome
    -- with no store left the words show the time of the last update
    have idle : a = w ∧ b = w ∧ c = w := by
      have left := h.left
      rw [noStores] at left
      cases left
      exact ⟨rfl, rfl, rfl⟩
    obtain ⟨rfl, rfl, rfl⟩ := idle
    by_cases same : first.field = f
    case pos =>
      rw [if_pos same] at ordered toCome
      have next := List.pairwise_cons.mp ordered
      refine ⟨first.time, h.shows, ?_, ⟨toCome _ List.mem_cons_self, h.began.2⟩, next.2,
        fun v hv => toCome v (List.mem_cons_of_mem _ hv), h.seen⟩
      rw [Call.stores, same]
      exact .all (next.1 _ List.mem_cons_self)
    case neg =>
      rw [if_neg same] at ordered toCome
      refine ⟨_, h.shows, .elsewhere fun x hx => ?_, h.began, ordered, toCome, h.seen⟩
      exact Field.words_disjoint same _ (Call.stores_addr hx)

theorem Sound.store (h : Sound f written s a b c w) (ran : step f s .store = some t) :
    ∃ a' b' c', Sound f written t a' b' c' w := by
  obtain ⟨page, stores, calls, reader⟩ := s
  have shows := h.shows
  have left := h.left
  have le := left.le
  simp only at shows left
  simp only [step] at ran
  cases left with
  | elsewhere out =>
    split at ran
    case h_1 => cases ran
    case h_2 x rest =>
      obtain rfl := Option.some.inj ran
      exact ⟨_, _, _, shows.other (out x List.mem_cons_self),
        .elsewhere fun y hy => out y (List.mem_cons_of_mem _ hy), h.began, h.ordered, h.toCome,
        h.seen⟩
  | all before =>
    obtain rfl := Option.some.inj ran
    exact ⟨_, _, _, shows.storeHigh2, .two before, h.began, h.ordered, h.toCome, h.seen⟩
  | two before =>
    obtain rfl := Option.some.inj ran
    exact ⟨_, _, _, shows.storeLow, .one before, ⟨h.began.1, h.began.1⟩, h.ordered, h.toCome,
      h.seen.mono (BitVec.le_refl _) before⟩
  | one before =>
    obtain rfl := Option.some.inj ran
    exact ⟨_, _, _, shows.storeHigh1, .elsewhere fun x hx => absurd hx List.not_mem_nil, h.began,
      h.ordered, h.toCome, h.seen.mono before (BitVec.le_refl _)⟩

theorem Sound.read (h : Sound f written s a b c w) (ran : step f s .read = some t) :
    Sound f written t a b c w := by
  obtain rfl := Option.some.inj ran
  obtain ⟨page, stores, calls, reader⟩ := s
  have le := h.left.le
  have seen := h.seen
  refine ⟨h.shows, h.left, h.began, h.ordered, h.toCome, ?_⟩
  cases reader with
  | start => exact ⟨a, BitVec.le_refl _, h.shows.high1⟩
  | gotHigh1 high1 =>
    obtain ⟨v, before, half⟩ := seen
    exact ⟨v, b, BitVec.le_trans before le.1, BitVec.le_refl _, h.began.2, half, h.shows.lowPart⟩
  | gotLow high1 lowPart =>
    obtain ⟨v, u, between, before, mem, half, half'⟩ := seen
    simp only [Reader.read]
    by_cases same : page (f.off + 8) = high1
    case neg =>
      rw [if_neg same]
      trivial
    case pos =>
      -- `u` is between two times with the same upper half
      rw [if_pos same]
      have equal : high c = high v := by rw [← h.shows.high2, ← half]; exact same
      have upper := high_between between (BitVec.le_trans before le.2.1) equal
      rw [half, half', ← upper, joined_halves]
      exact mem
  | accepted time => trivial

/-- One step of either side. -/
theorem Sound.step (h : ∃ a b c w, Sound f written s a b c w) {l : Label}
    (ran : step f s l = some t) : ∃ a b c w, Sound f written t a b c w := by
  obtain ⟨a, b, c, w, h⟩ := h
  cases l with
  | call =>
    obtain ⟨w', h'⟩ := h.call ran
    exact ⟨a, b, c, w', h'⟩
  | store =>
    obtain ⟨a', b', c', h'⟩ := h.store ran
    exact ⟨a', b', c', w, h'⟩
  | read => exact ⟨a, b, c, w, h.read ran⟩

end

/-! ## The page when it is mapped -/

theorem Shows.stores {f : Field} {p : Page} {v : u64} (h : Shows f p v v v) (c : Call) :
    Shows f (c.stores.foldl Page.store p) (if c.field = f then c.time else v)
      (if c.field = f then c.time else v) (if c.field = f then c.time else v) := by
  by_cases same : c.field = f
  case pos =>
    simp only [Call.stores, same, writeSystemTime, List.foldl_cons, List.foldl_nil]
    exact h.storeHigh2.storeLow.storeHigh1
  case neg =>
    simp only [if_neg same, Call.stores, writeSystemTime, List.foldl_cons, List.foldl_nil]
    have out : ∀ w ∈ c.stores, w.addr ∉ f.words := fun w hw =>
      Field.words_disjoint same _ (Call.stores_addr hw)
    refine ((h.other ?_).other ?_).other ?_ <;> exact out _ (by simp [Call.stores, writeSystemTime])

/-- Zeros are the halves of 0. -/
theorem shows_zero (f : Field) : Shows f (fun _ => 0) 0 0 0 := ⟨by decide, by decide, by decide⟩

/-- After some updates a field shows the last time written to it. -/
theorem shows_written (f : Field) (calls : List Call) :
    Shows f (written calls) ((times f calls).getLastD 0) ((times f calls).getLastD 0)
      ((times f calls).getLastD 0) := by
  induction calls using List.reverseRecOn with
  | nil => exact shows_zero f
  | append_singleton l c ih =>
    have one : written (l ++ [c]) = c.stores.foldl Page.store (written l) := by
      simp [written]
    have last : (times f (l ++ [c])).getLastD 0 =
        if c.field = f then c.time else (times f l).getLastD 0 := by
      rw [times_append, times_cons]
      by_cases same : c.field = f <;> simp [same, times]
    rw [one, last]
    exact ih.stores c

theorem sound_mapped {f : Field} {first rest : List Call} (some : times f first ≠ [])
    (ordered : (times f (first ++ rest)).Pairwise (· ≤ ·)) :
    ∃ a b c w, Sound f (times f (first ++ rest)) (mapped first rest) a b c w := by
  have shows := shows_written f first
  rw [times_append] at ordered ⊢
  obtain ⟨l, w, split⟩ := (List.eq_nil_or_concat (times f first)).resolve_left some
  rw [List.concat_eq_append] at split
  rw [split, List.getLastD_concat] at shows
  rw [split] at ordered ⊢
  have mem : w ∈ l ++ [w] ++ times f rest := by simp
  refine ⟨w, w, w, w, shows, .elsewhere fun x hx => absurd hx List.not_mem_nil, ⟨mem, mem⟩, ?_,
    fun v hv => List.mem_append_right _ hv, trivial⟩
  rw [List.append_assoc] at ordered
  exact (List.pairwise_append.mp ordered).2.1

/-! ## Times are not torn -/

/-- The invariant along a run of the two. -/
theorem sound_run {f : Field} {first rest : List Call} (some : times f first ≠ [])
    (ordered : (times f (first ++ rest)).Pairwise (· ≤ ·)) {labels : List Label} {s : System}
    (ran : Machine.run (step f) (mapped first rest) labels = .some s) :
    ∃ a b c w, Sound f (times f (first ++ rest)) s a b c w :=
  Machine.run_invariant (G := fun _ _ => True)
    (I := fun s => ∃ a b c w, Sound f (times f (first ++ rest)) s a b c w)
    (fun _ _ _ h _ one => Sound.step h one) (sound_mapped some ordered)
    (Machine.along_of_forall (fun _ _ => trivial) _ labels) ran

/-- **The reader accepts a time that was written**: if the times written to a field do not
decrease, then whatever the reader accepts after any number of steps of the two sides, in any
order, is one of them. -/
theorem accepted_written {f : Field} {first rest : List Call} (some : times f first ≠ [])
    (ordered : (times f (first ++ rest)).Pairwise (· ≤ ·)) {labels : List Label} {s : System}
    (ran : Machine.run (step f) (mapped first rest) labels = .some s) {time : u64}
    (accepted : s.reader = .accepted time) : time ∈ times f (first ++ rest) := by
  obtain ⟨a, b, c, w, sound⟩ := sound_run some ordered ran
  have seen := sound.seen
  rw [accepted] at seen
  exact seen

/-- The reader finds the upper half of the next tick, and starts over. -/
def acrossWrap : List Label :=
  [.read, .call, .store, .store, .store, .call, .store, .store, .store, .call, .store, .read,
    .read, .store, .read, .store, .read, .read, .read, .read, .read]

theorem accepted_written_wrap :
    ∃ s, Machine.run (step .tickCount) (mapped (tick 0xFFFFFFFF) (tick 0x100000000)) acrossWrap =
        some s ∧ s.reader = .accepted 0x100000000 ∧
      0x100000000 ∈ times .tickCount (tick 0xFFFFFFFF ++ tick 0x100000000) :=
  ⟨_, rfl, rfl, accepted_written (by decide) (by decide)
    (rfl : Machine.run (step .tickCount) (mapped (tick 0xFFFFFFFF) (tick 0x100000000)) acrossWrap =
      _) rfl⟩

/-! ## The times of the timer -/

/-- What `Tick` writes to a field. -/
def Field.timeAt (ticks : u64) : Field → u64
  | .interruptTime => ticks * 100000#64
  | .systemTime => ticks * 100000#64
  | .tickCount => ticks

theorem times_tick (f : Field) (ticks : u64) : times f (tick ticks) = [f.timeAt ticks] := by
  cases f <;> rfl

theorem times_ticks (f : Field) (l : List u64) : times f (l.flatMap tick) = l.map f.timeAt := by
  induction l with
  | nil => rfl
  | cons ticks l ih =>
    rw [List.flatMap_cons, times_append, times_tick, ih, List.map_cons, List.singleton_append]

/-- Later ticks give later times, as long as the tenths of a microsecond fit into 64 bits. -/
theorem Field.timeAt_mono (f : Field) {v w : u64} (h : v ≤ w) (fits : w.toNat * 100000 < 2 ^ 64) :
    f.timeAt v ≤ f.timeAt w := by
  have le : v.toNat ≤ w.toNat := h
  have scaled : v * 100000#64 ≤ w * 100000#64 := by
    have value : ∀ x : u64, x.toNat ≤ w.toNat → (x * 100000#64).toNat = x.toNat * 100000 :=
      fun x hx => by
        rw [BitVec.toNat_mul]
        exact Nat.mod_eq_of_lt (lt_of_le_of_lt (Nat.mul_le_mul_right _ hx) fits)
    rw [BitVec.le_def, value v le, value w (Nat.le_refl _)]
    exact Nat.mul_le_mul_right _ le
  cases f
  · exact scaled
  · exact scaled
  · exact h

/-- **The timer's fields are not torn**: a reader of any of them accepts the time of one of the
ticks. -/
theorem ticks_not_torn {f : Field} {booted : u64} {l : List u64}
    (ordered : (booted :: l).Pairwise (· ≤ ·))
    (fits : ∀ ticks ∈ booted :: l, ticks.toNat * 100000 < 2 ^ 64) {labels : List Label}
    {s : System}
    (ran : Machine.run (step f) (mapped (tick booted) (l.flatMap tick)) labels = some s)
    {time : u64} (accepted : s.reader = .accepted time) :
    ∃ ticks ∈ booted :: l, time = f.timeAt ticks := by
  have all : times f (tick booted ++ l.flatMap tick) = (booted :: l).map f.timeAt := by
    rw [times_append, times_tick, times_ticks, List.map_cons, List.singleton_append]
  have later : (times f (tick booted ++ l.flatMap tick)).Pairwise (· ≤ ·) := by
    rw [all, List.pairwise_map]
    exact ordered.imp_of_mem fun _ mem le => f.timeAt_mono le (fits _ mem)
  have first : times f (tick booted) ≠ [] := by
    rw [times_tick]
    exact List.cons_ne_nil _ _
  obtain ⟨a, b, c, w, sound⟩ := sound_run first later ran
  have seen := sound.seen
  rw [accepted, Seen, all] at seen
  obtain ⟨ticks, mem, same⟩ := List.mem_map.mp seen
  exact ⟨ticks, mem, same.symm⟩

end MicroNT.KUSER
