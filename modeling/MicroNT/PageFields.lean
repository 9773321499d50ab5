import MicroNT.ProcAddress
import MicroNT.ProtectQuery
import MicroNT.UnmapViews
import MicroNT.Base.Bytes

/-! # Fields of mapped pages

Pages that the kernel has filled and mapped for a process keep what is in them, whatever
happens to other pages. A program reads the fields in ring 3, and the kernel stores to a field
through the frame of its page. -/

namespace MicroNT.Kernel

open MicroNT.PMM hiding step Op System
open MicroNT.VMM MicroNT.Boot MicroNT.Base.Radix
open MicroNT.Base.Bytes hiding Laid

/-! ## Bytes of a page -/

def bytesOf (page : Table) : List Byte := (List.range PAGE_SIZE).map (byteIn page)

/-- A page with these bytes. -/
def pageWith (b : List Byte) : Table := pageOfBytes fun k => b.getD k 0

@[simp] theorem length_bytesOf (page : Table) : (bytesOf page).length = PAGE_SIZE := by
  rw [bytesOf, List.length_map, List.length_range]

theorem bytesOf_get (page : Table) {k : Nat} (hk : k < (bytesOf page).length) :
    (bytesOf page)[k] = byteIn page k := by
  simp only [bytesOf, List.getElem_map, List.getElem_range]

theorem bytesOf_pageWith {b : List Byte} (h : b.length = PAGE_SIZE) : bytesOf (pageWith b) = b := by
  refine List.ext_getElem (by rw [length_bytesOf, h]) fun k hk hb => ?_
  rw [bytesOf_get, pageWith, byteIn_pageOfBytes _ (by rwa [length_bytesOf] at hk),
    List.getD_eq_getElem _ _ hb]

theorem leBytes_get (w v : Nat) {j : Nat} (hj : j < (leBytes w v).length) :
    (leBytes w v)[j] = BitVec.ofNat 8 (v >>> (8 * j)) := by
  induction w generalizing v j with
  | zero => exact absurd hj (Nat.not_lt_zero j)
  | succ w ih =>
    cases j with
    | zero => rfl
    | succ j =>
      simp only [leBytes, List.getElem_cons_succ]
      rw [ih, Nat.mul_succ, Nat.add_comm, Nat.shiftRight_add, Nat.shiftRight_eq_div_pow v 8]

theorem put_get {b x : List Byte} {off k : Nat} (fits : off + x.length ≤ b.length)
    (hk : k < (put b off x).length) (hb : k < b.length) :
    (put b off x)[k] = if h : off ≤ k ∧ k < off + x.length then x[k - off] else b[k] := by
  have before : (b.take off).length = off := by
    rw [List.length_take]
    omega
  simp only [put]
  split
  case isTrue inside =>
    rw [List.getElem_append_left (by rw [List.length_append, before]; omega),
      List.getElem_append_right (by omega)]
    simp only [before]
  case isFalse outside =>
    by_cases low : k < off
    · rw [List.getElem_append_left (by rw [List.length_append, before]; omega),
        List.getElem_append_left (by omega), List.getElem_take]
    · rw [List.getElem_append_right (by rw [List.length_append, before]; omega), List.getElem_drop]
      congr 1
      rw [List.length_append, before]
      omega

/-- **A word stored** to a frame is written over the bytes of its page. -/
theorem bytesOf_writeU64 (m : Mem) {f : u64} (frame : IsFrame f) {o : Nat} (ho : o + 8 ≤ PAGE_SIZE)
    (v : u64) : bytesOf (writeU64 m (f + BitVec.ofNat 64 o) v f) =
      put (bytesOf (m f)) o (leBytes 8 v.toNat) := by
  have fits : o + (leBytes 8 v.toNat).length ≤ (bytesOf (m f)).length := by
    rw [length_leBytes, length_bytesOf]
    exact ho
  refine List.ext_getElem (by rw [length_put fits, length_bytesOf, length_bytesOf])
    fun k hk hk' => ?_
  rw [length_bytesOf] at hk
  rw [bytesOf_get, put_get fits hk' (by rwa [length_bytesOf]), bytesOf_get, writeU64]
  have offset : (BitVec.ofNat 64 o : u64).toNat = o := (offset_lt (by omega)).2
  have slot := fun j (hj : j < 8) =>
    slot_offset (o := BitVec.ofNat 64 o) frame (by rw [offset]; exact ho) hj
  simp only [offset] at slot
  -- the bytes are stored one after the other
  have stored : ∀ n i, i + n ≤ 8 → ∀ m : Mem,
      byteIn (writeBytes (f + BitVec.ofNat 64 o) v n i m f) k =
        if o + i ≤ k ∧ k < o + i + n then (v >>> (8 * (k - o))).setWidth 8 else byteIn (m f) k := by
    intro n
    induction n with
    | zero => exact fun i _ m => (if_neg (by omega)).symm
    | succ n ih =>
      intro i hi m
      obtain ⟨page, place⟩ := slot i (by omega)
      rw [writeBytes, ih (i + 1) (by omega), byteIn_writeByte _ _ _ _ hk, page, place]
      by_cases here : k = o + i
      · rw [if_neg (by omega), if_pos ⟨rfl, here⟩, if_pos (by omega), show k - o = i by omega]
      · simp only [here, and_false, if_false]
        exact if_congr (by omega) rfl rfl
  have length : (leBytes 8 v.toNat).length = 8 := length_leBytes
  rw [stored 8 0 (by omega)]
  by_cases inside : o ≤ k ∧ k < o + 8
  · rw [if_pos (by omega), dif_pos (by rwa [length]), leBytes_get]
    refine BitVec.eq_of_toNat_eq ?_
    rw [BitVec.toNat_setWidth, BitVec.toNat_ushiftRight, BitVec.toNat_ofNat]
  · rw [if_neg (by omega), dif_neg (by rwa [length])]

/-- **A word of a page**, byte by byte. -/
theorem slice_word (page : Table) {i : Nat} (hi : i < 512) :
    slice (bytesOf page) (8 * i) 8 = leBytes 8 (page (BitVec.ofNat 9 i)).toNat := by
  have inside : 8 * i + 8 ≤ (bytesOf page).length := by
    rw [length_bytesOf]
    simp only [PAGE_SIZE]
    omega
  refine List.ext_getElem (by rw [length_slice inside, length_leBytes]) fun j hj hj' => ?_
  rw [length_slice inside] at hj
  simp only [slice, List.getElem_take, List.getElem_drop]
  rw [bytesOf_get, leBytes_get, byteIn, show (8 * i + j) / 8 = i by omega,
    show (8 * i + j) % 8 = j by omega]
  refine BitVec.eq_of_toNat_eq ?_
  rw [BitVec.toNat_setWidth, BitVec.toNat_ushiftRight, BitVec.toNat_ofNat]

/-! ## Fields -/

/-- The page has these fields: a place and its bytes each. -/
def HasFields (page : Table) (ws : List (Nat × List Byte)) : Prop :=
  ∀ w ∈ ws, slice (bytesOf page) w.1 w.2.length = w.2

theorem HasFields.mono {page : Table} {ws vs : List (Nat × List Byte)} (h : HasFields page ws)
    (sub : vs ⊆ ws) : HasFields page vs := fun w hw => h w (sub hw)

/-- A page of zeros with these fields written. -/
theorem shows_putAll {ws : List (Nat × List Byte)} (laid : Base.Bytes.Laid PAGE_SIZE (spans ws)) :
    HasFields (pageWith (putAll (zeros PAGE_SIZE) ws)) ws := by
  have laid : Base.Bytes.Laid (zeros PAGE_SIZE).length (spans ws) := by rwa [length_zeros]
  intro w hw
  rw [bytesOf_pageWith (by rw [length_putAll laid, length_zeros])]
  exact slice_putAll laid hw

/-- The fields apart from a word, with that word. -/
def replaced (o : Nat) (v : u64) (ws : List (Nat × List Byte)) : List (Nat × List Byte) :=
  (o, leBytes 8 v.toNat) :: ws.filter fun w => decide (Apart (w.1, w.2.length) (o, 8))

theorem HasFields.store {m : Mem} {f : u64} {ws : List (Nat × List Byte)} (h : HasFields (m f) ws)
    (frame : IsFrame f) {o : Nat} (ho : o + 8 ≤ PAGE_SIZE) (v : u64) :
    HasFields (writeU64 m (f + BitVec.ofNat 64 o) v f) (replaced o v ws) := by
  have fits : o + (leBytes 8 v.toNat).length ≤ (bytesOf (m f)).length := by
    rw [length_leBytes, length_bytesOf]
    exact ho
  intro w hw
  rw [bytesOf_writeU64 m frame ho v]
  rcases List.mem_cons.mp hw with rfl | old
  · exact slice_put (by omega)
  · obtain ⟨hw, apart⟩ := List.mem_filter.mp old
    rw [slice_put_of_apart fits (by rw [length_leBytes]; exact of_decide_eq_true apart)]
    exact h w hw

/-! ## Reads in ring 3 -/

def peekBytes (m : Mem) (pml4 : u64) : u64 → Nat → Option (List Byte)
  | _, 0 => some []
  | va, n + 1 => do
    let b ← peek m pml4 va
    let rest ← peekBytes m pml4 (va + 1#64) n
    return b :: rest

def peek64 (m : Mem) (pml4 va : u64) : Option u64 :=
  (peekBytes m pml4 va 8).map fun b => BitVec.ofNat 64 (leNat b)

/-! ## Pages in place -/

/-- A page of an address space, with its frame and some of its fields. -/
structure MappedPage where
  space : u64
  va : u64
  frame : u64
  fields : List (Nat × List Byte)

structure MappedPage.Holds (x : MappedPage) (s : System) : Prop where
  space : x.space ∈ s.spaces
  own : ¬ Shared x.va
  aligned : x.va.toNat % PAGE_SIZE = 0
  data : DataPage s x.frame (s.vmm.mem x.frame)
  pte : getPteInto s.vmm.mem x.space x.va = leafEntry x.frame (userFlags true)
  shows : HasFields (s.vmm.mem x.frame) x.fields

section

variable {R : Rows} {shown : Bool} {P : u64 → u64 → Prop} {F : u64 → Prop} {s t u : System}
  {x : MappedPage} {o n : Nat} {v f : u64} {page : Table}

theorem MappedPage.Holds.lies (h : x.Holds s) :
    Lies x.space (fun _ => False) s.vmm ⟨x.va, true, s.vmm.mem x.frame⟩ x.frame :=
  h.data.lies h.space h.pte

theorem MappedPage.Holds.translate (h : x.Holds s) (ho : o < PAGE_SIZE) :
    translateInPml4 s.vmm.mem x.space (x.va + BitVec.ofNat 64 o) = x.frame + BitVec.ofNat 64 o :=
  h.lies.translate h.aligned ho

/-- **A byte of a page in place**, read in ring 3. -/
theorem MappedPage.Holds.peek (h : x.Holds s) (sound : Sound R s) (hg : R.Good shown)
    (ho : o < PAGE_SIZE) : Kernel.peek s.vmm.mem x.space (x.va + BitVec.ofNat 64 o) =
      some (byteIn (s.vmm.mem x.frame) o) := by
  have user : userReads s.vmm.mem x.space (x.va + BitVec.ofNat 64 o) = true :=
    h.lies.userCan_eq h.aligned ho (sound.userSpace hg h.space) false
  rw [Kernel.peek, if_pos user, h.lies.byteAt_eq h.aligned ho]

theorem MappedPage.Holds.peekBytes (h : x.Holds s) (sound : Sound R s) (hg : R.Good shown)
    (ho : o + n ≤ PAGE_SIZE) :
    Kernel.peekBytes s.vmm.mem x.space (x.va + BitVec.ofNat 64 o) n =
      some (slice (bytesOf (s.vmm.mem x.frame)) o n) := by
  induction n generalizing o with
  | zero => rw [slice_zero, Kernel.peekBytes]
  | succ n ih =>
    have next : x.va + BitVec.ofNat 64 o + 1#64 = x.va + BitVec.ofNat 64 (o + 1) := by
      rw [BitVec.add_assoc, BitVec.ofNat_add]
    have inside : o < (bytesOf (s.vmm.mem x.frame)).length := by
      rw [length_bytesOf]
      omega
    have first : slice (bytesOf (s.vmm.mem x.frame)) o 1 = [byteIn (s.vmm.mem x.frame) o] := by
      rw [slice, List.drop_eq_getElem_cons inside, bytesOf_get]
      rfl
    rw [Kernel.peekBytes, h.peek sound hg (by omega), next, Option.bind_eq_bind, Option.bind_some,
      ih (by omega), Nat.add_comm n 1, slice_add, first]
    rfl

/-- **A field of a page in place**, read in ring 3. -/
theorem MappedPage.Holds.field (h : x.Holds s) (sound : Sound R s) (hg : R.Good shown)
    {b : List Byte} (hb : (o, b) ∈ x.fields) :
    Kernel.peekBytes s.vmm.mem x.space (x.va + BitVec.ofNat 64 o) b.length = some b := by
  have there := h.shows _ hb
  by_cases empty : b.length = 0
  · rw [List.length_eq_zero_iff.mp empty]
    rfl
  · have inside := congrArg List.length there
    rw [slice, List.length_take, List.length_drop, length_bytesOf] at inside
    simp only at there inside
    rw [h.peekBytes sound hg (by omega), there]

theorem MappedPage.Holds.word (h : x.Holds s) (sound : Sound R s) (hg : R.Good shown)
    (hw : (o, leBytes 8 v.toNat) ∈ x.fields) :
    peek64 s.vmm.mem x.space (x.va + BitVec.ofNat 64 o) = some v := by
  have there := h.field sound hg hw
  have fits : v.toNat < 256 ^ 8 := v.isLt
  rw [length_leBytes] at there
  rw [peek64, there, Option.map_some, leNat_leBytes, Nat.mod_eq_of_lt fits, BitVec.ofNat_toNat,
    BitVec.setWidth_eq]

theorem DataPage.moved (h : DataPage s f page) (m : Moves R P F s t) (other : ¬ F f) :
    DataPage t f page :=
  ⟨h.frame, h.nonzero, m.used h.used, m.data f h.used h.data,
    (m.frames f h.used h.data other).trans h.contents⟩

theorem DataPage.some_page (h : DataPage s f page) (m : Moves R P F s t) :
    ∃ page, DataPage t f page :=
  ⟨_, h.frame, h.nonzero, m.used h.used, m.data f h.used h.data, rfl⟩

/-- **Changes elsewhere** leave a page in place. -/
theorem MappedPage.Holds.moves (h : x.Holds s) (m : Moves R P F s t) (apart : ¬ P x.space x.va)
    (frame : ¬ F x.frame) : x.Holds t := by
  have same : t.vmm.mem x.frame = s.vmm.mem x.frame := m.frames _ h.data.used h.data.data frame
  refine ⟨m.spaces _ h.space, h.own, h.aligned,
    ⟨h.data.frame, h.data.nonzero, m.used h.data.used, m.data _ h.data.used h.data.data, rfl⟩,
    (m.entries _ h.space _ h.own apart).trans h.pte, ?_⟩
  rw [same]
  exact h.shows

/-- What was free before is not counted. -/
theorem Moves.trans_new (h : Moves R P noFrames s t) (h' : Moves R P F t u)
    (new : ∀ f, F f → ¬ Used s.vmm f) : Moves R P noFrames s u where
  sound := h'.sound
  spaces q hq := h'.spaces q (h.spaces q hq)
  kernel := h'.kernel.trans h.kernel
  bits q hq := h'.bits q (h.bits q hq)
  data g hg hn := h'.data g (h.used hg) (h.data g hg hn)
  frames g hg hn _ := (h'.frames g (h.used hg) (h.data g hg hn) fun hF => new g hF hg).trans
    (h.frames g hg hn id)
  entries b hb w hw hP := (h'.entries b (h.spaces b hb) w hw hP).trans (h.entries b hb w hw hP)

/-! ## Stores -/

/-- **A word stored** to a frame that is no table moves nothing else. -/
theorem Sound.storeWord (h : Sound R s) (data : DataPage s f page) (ho : o + 8 ≤ PAGE_SIZE)
    (v : u64) : Moves R noPages (· = f) s
      { s with vmm := { s.vmm with mem := writeU64 s.vmm.mem (f + BitVec.ofNat 64 o) v } } := by
  have offset : (BitVec.ofNat 64 o : u64).toNat = o := (offset_lt (by omega)).2
  have other : ∀ t, t ≠ f → writeU64 s.vmm.mem (f + BitVec.ofNat 64 o) v t = s.vmm.mem t :=
    fun t ht => writeBytes_of_ne 8 0 ht (fun j _ hj => (slot_offset (o := BitVec.ofNat 64 o)
      data.frame (by rw [offset]; exact ho) (by omega)).1) s.vmm.mem
  have same : ∀ t, Tables s.IsSpace s.vmm.mem t →
      writeU64 s.vmm.mem (f + BitVec.ofNat 64 o) v t = s.vmm.mem t :=
    fun t ht => other t fun eq => data.data (eq ▸ ht)
  obtain ⟨trees, tables, ptes⟩ := h.trees.data same
  obtain ⟨is, inv, roles⟩ := h.roles
  refine ⟨⟨⟨is, inv.mem (inv.typed.of_agree (fun r t hr => same t (roles r t hr)) inv.typed.used)⟩,
    trees.forest⟩, fun _ hq => hq, rfl, fun _ hq => hq, fun g _ hn hd => hn ((tables g).mp hd),
    fun g _ _ ne => other g ne, fun b hb w _ _ => ptes b w (.inr hb)⟩

/-- The page once a word was stored to a frame. -/
def MappedPage.stored (f : u64) (o : Nat) (v : u64) (x : MappedPage) : MappedPage :=
  if x.frame = f then { x with fields := replaced o v x.fields } else x

theorem MappedPage.stored_place (f : u64) (o : Nat) (v : u64) (x : MappedPage) :
    (x.stored f o v).space = x.space ∧ (x.stored f o v).va = x.va ∧
      (x.stored f o v).frame = x.frame := by
  rw [MappedPage.stored]
  split <;> exact ⟨rfl, rfl, rfl⟩

theorem MappedPage.Holds.stored (h : x.Holds s) (sound : Sound R s) (data : DataPage s f page)
    (ho : o + 8 ≤ PAGE_SIZE) (v : u64) : (x.stored f o v).Holds
      { s with vmm := { s.vmm with mem := writeU64 s.vmm.mem (f + BitVec.ofNat 64 o) v } } := by
  have moved := sound.storeWord data ho v
  rw [MappedPage.stored]
  split
  case isFalse ne => exact h.moves moved id ne
  case isTrue here =>
    subst here
    exact ⟨h.space, h.own, h.aligned, ⟨h.data.frame, h.data.nonzero, h.data.used,
      moved.data _ h.data.used h.data.data, rfl⟩, (moved.entries _ h.space _ h.own id).trans h.pte,
      h.shows.store h.data.frame ho v⟩

/-! ## Many pages -/

/-- Pages in place, with a frame each. -/
structure Ledger (L : List MappedPage) (s : System) : Prop where
  holds : ∀ x ∈ L, x.Holds s
  apart : L.Pairwise fun x y => x.frame ≠ y.frame

variable {L : List MappedPage}

theorem Ledger.moves (h : Ledger L s) (m : Moves R P F s t)
    (apart : ∀ x ∈ L, ¬ P x.space x.va ∧ ¬ F x.frame) : Ledger L t :=
  ⟨fun x hx => (h.holds x hx).moves m (apart x hx).1 (apart x hx).2, h.apart⟩

/-- A new page, in a frame that was free when the others were in place. -/
theorem Ledger.cons (h : Ledger L t) (before : ∀ x ∈ L, Used s.vmm x.frame) (hx : x.Holds t)
    (new : ¬ Used s.vmm x.frame) : Ledger (x :: L) t :=
  ⟨List.forall_mem_cons.mpr ⟨hx, h.holds⟩,
    List.pairwise_cons.mpr ⟨fun y hy same => new (same ▸ before y hy), h.apart⟩⟩

theorem Ledger.stored (h : Ledger L s) (sound : Sound R s) (data : DataPage s f page)
    (ho : o + 8 ≤ PAGE_SIZE) (v : u64) : Ledger (L.map (MappedPage.stored f o v))
      { s with vmm := { s.vmm with mem := writeU64 s.vmm.mem (f + BitVec.ofNat 64 o) v } } where
  holds := List.forall_mem_map.mpr fun x hx => (h.holds x hx).stored sound data ho v
  apart := by
    refine List.pairwise_map.mpr (h.apart.imp fun {x y} ne => ?_)
    rw [(x.stored_place f o v).2.2, (y.stored_place f o v).2.2]
    exact ne

end

end MicroNT.Kernel
