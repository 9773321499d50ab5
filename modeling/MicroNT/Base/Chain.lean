import Mathlib.Logic.Function.Basic
import Mathlib.Data.List.Nodup

/-! # Linked lists kept in a link field

The nodes of all lists share one field `next`. A list is a pointer to its first
node; a queue has a pointer to its last node as well. A pointer that spells out
a finite list spells out only one, so a linked list has no cycle. -/

namespace MicroNT.Base.Chain

variable {α : Type}

/-- The pointer leads along `next` through exactly these nodes. -/
def Linked (next : α → Option α) : Option α → List α → Prop
  | p, [] => p = none
  | p, a :: l => p = some a ∧ Linked next (next a) l

section

variable {next : α → Option α} {p : Option α} {a : α} {l l' : List α}

theorem Linked.eq_nil (h : Linked next none l) : l = [] := by
  cases l with
  | nil => rfl
  | cons b l => exact absurd h.1 (by simp)

theorem Linked.eq_cons (h : Linked next (some a) l) : ∃ r, l = a :: r ∧ Linked next (next a) r := by
  cases l with
  | nil => exact absurd h (by simp [Linked])
  | cons b l =>
    obtain ⟨hb, hl⟩ := h
    cases hb
    exact ⟨l, rfl, hl⟩

theorem Linked.unique (h : Linked next p l) (h' : Linked next p l') : l = l' := by
  induction l generalizing p l' with
  | nil =>
    cases h
    exact h'.eq_nil.symm
  | cons a l ih =>
    obtain ⟨rfl, hl⟩ := h
    obtain ⟨r, rfl, hr⟩ := h'.eq_cons
    rw [ih hl hr]

/-- Only the links of the nodes on the list matter. -/
theorem Linked.congr {next' : α → Option α} (h : Linked next p l)
    (same : ∀ a ∈ l, next' a = next a) : Linked next' p l := by
  induction l generalizing p with
  | nil => exact h
  | cons b l ih =>
    refine ⟨h.1, ?_⟩
    rw [same b List.mem_cons_self]
    exact ih h.2 fun a ha => same a (List.mem_cons_of_mem b ha)

/-- Every node starts the rest of the list. -/
theorem Linked.suffix (h : Linked next p l) (ha : a ∈ l) :
    ∃ r, Linked next (some a) (a :: r) ∧ r.length < l.length := by
  induction l generalizing p with
  | nil => cases ha
  | cons b l ih =>
    obtain ⟨rfl, hl⟩ := h
    rcases List.mem_cons.mp ha with rfl | ha
    · exact ⟨l, ⟨rfl, hl⟩, Nat.lt_succ_self _⟩
    · obtain ⟨r, hr, hlen⟩ := ih hl ha
      exact ⟨r, hr, Nat.lt_succ_of_lt hlen⟩

theorem Linked.nodup (h : Linked next p l) : l.Nodup := by
  induction l generalizing p with
  | nil => exact List.nodup_nil
  | cons b l ih =>
    obtain ⟨rfl, hl⟩ := h
    refine List.nodup_cons.mpr ⟨fun hb => ?_, ih hl⟩
    -- the list that starts at `b` would be shorter than itself
    obtain ⟨r, hr, hlen⟩ := hl.suffix hb
    have same : b :: r = b :: l := hr.unique ⟨rfl, hl⟩
    rw [List.cons.inj same |>.2] at hlen
    exact absurd hlen (Nat.lt_irrefl _)

end

/-- What a node's link leads to. -/
theorem Linked.rest {next : α → Option α} {p : Option α} {z : α} {l r : List α}
    (h : Linked next p (l ++ z :: r)) : Linked next (next z) r := by
  induction l generalizing p with
  | nil => exact h.2
  | cons b l ih => exact ih h.2

/-! ## What is met on the way -/

/-- The nodes that the links lead to from some first nodes, the first nodes included. -/
inductive Met (next : α → Option α) (first : α → Prop) : α → Prop
  | first {a : α} (h : first a) : Met next first a
  | next {a b : α} (h : Met next first a) (link : next a = some b) : Met next first b

/-- Nothing else is met than what a closed set holds. -/
theorem Met.closed {next : α → Option α} {first Q : α → Prop} {a : α} (h : Met next first a)
    (firsts : ∀ a, first a → Q a) (links : ∀ a b, Q a → next a = some b → Q b) : Q a := by
  induction h with
  | first h => exact firsts _ h
  | next _ link ih => exact links _ _ ih link

section

variable [DecidableEq α] {next : α → Option α} {p x : Option α} {a z : α} {l : List α}

/-- The link of a node that is not on the list does not matter. -/
theorem Linked.update (h : Linked next p l) (ha : a ∉ l) :
    Linked (Function.update next a x) p l := by
  refine h.congr fun b hb => ?_
  have other : b ≠ a := fun e => ha (e ▸ hb)
  exact Function.update_of_ne other _ _

/-- A new first node. -/
theorem Linked.push (h : Linked next p l) (ha : a ∉ l) :
    Linked (Function.update next a p) (some a) (a :: l) := by
  refine ⟨rfl, ?_⟩
  rw [Function.update_self]
  exact h.update ha

/-- A new node behind the last one. -/
theorem Linked.snoc (h : Linked next p (l ++ [z])) (ha : a ∉ l ++ [z]) (hnone : next a = none) :
    Linked (Function.update next z (some a)) p (l ++ [z] ++ [a]) := by
  induction l generalizing p with
  | nil =>
    obtain ⟨rfl, hz⟩ := h
    have hne : a ≠ z := fun e => ha (by simp [e])
    refine ⟨rfl, ?_, ?_⟩
    · rw [Function.update_self]
    · rw [Function.update_of_ne hne]
      exact hnone
  | cons b l ih =>
    obtain ⟨hb, hl⟩ := h
    -- the last node occurs once, so `b` is another one
    have hne : b ≠ z := by
      intro e
      have hnd : (b :: (l ++ [z])).Nodup := Linked.nodup ⟨hb, hl⟩
      exact (List.nodup_cons.mp hnd).1 (by simp [e])
    refine ⟨hb, ?_⟩
    rw [Function.update_of_ne hne]
    exact ih hl fun hm => ha (List.mem_cons_of_mem b hm)

/-- The node behind `z` is taken out. -/
theorem Linked.bypass {r : List α} (h : Linked next p (l ++ z :: a :: r)) :
    Linked (Function.update next z (next a)) p (l ++ z :: r) := by
  induction l generalizing p with
  | nil =>
    have nodup : (z :: a :: r).Nodup := h.nodup
    refine ⟨h.1, ?_⟩
    rw [Function.update_self]
    exact h.2.2.update fun m => (List.nodup_cons.mp nodup).1 (List.mem_cons_of_mem a m)
  | cons b l ih =>
    have other : b ≠ z := by
      rintro rfl
      exact (List.nodup_cons.mp h.nodup).1 (List.mem_append_right l List.mem_cons_self)
    refine ⟨h.1, ?_⟩
    rw [Function.update_of_ne other]
    exact ih h.2

end

/-! ## Queues -/

/-- Pointers to the first and the last node. -/
structure Ends (α : Type) where
  head : Option α
  tail : Option α

/-- The queue's pointers and links spell out this list. -/
structure Queue (next : α → Option α) (q : Ends α) (l : List α) : Prop where
  linked : Linked next q.head l
  tail : q.tail = l.getLast?

theorem Queue.empty (next : α → Option α) : Queue next ⟨none, none⟩ [] := ⟨rfl, rfl⟩

section

variable [DecidableEq α] {next : α → Option α} {q : Ends α} {a : α} {l : List α}

/-- `a` is appended: links and ends. -/
def enqueue (next : α → Option α) (q : Ends α) (a : α) : (α → Option α) × Ends α :=
  match q.tail with
  | some z => (Function.update (Function.update next a none) z (some a), ⟨q.head, some a⟩)
  | none => (Function.update next a none, ⟨some a, some a⟩)

/-- The first node `a` is taken off: links and ends. -/
def dequeue (next : α → Option α) (q : Ends α) (a : α) : (α → Option α) × Ends α :=
  (Function.update next a none, ⟨next a, if next a = none then none else q.tail⟩)

theorem Queue.enqueue (h : Queue next q l) (ha : a ∉ l) :
    Queue (Chain.enqueue next q a).1 (Chain.enqueue next q a).2 (l ++ [a]) := by
  unfold Chain.enqueue
  rcases List.eq_nil_or_concat' l with rfl | ⟨r, z, rfl⟩
  · rw [h.tail]
    exact ⟨⟨rfl, Function.update_self ..⟩, rfl⟩
  · rw [h.tail, List.getLast?_concat]
    refine ⟨?_, (List.getLast?_concat ..).symm⟩
    exact (h.linked.update ha).snoc ha (Function.update_self ..)

theorem Queue.dequeue (h : Queue next q (a :: l)) :
    Queue (Chain.dequeue next q a).1 (Chain.dequeue next q a).2 l := by
  have hnd := List.nodup_cons.mp h.linked.nodup
  refine ⟨h.linked.2.update hnd.1, ?_⟩
  show (if next a = none then none else q.tail) = l.getLast?
  rw [h.tail]
  cases l with
  | nil =>
    have hlast : next a = none := h.linked.2
    rw [if_pos hlast]
    rfl
  | cons b l => rw [if_neg (by rw [h.linked.2.1]; simp), List.getLast?_cons_cons]

theorem Queue.update (h : Queue next q l) (ha : a ∉ l) (x : Option α) :
    Queue (Function.update next a x) q l := ⟨h.linked.update ha, h.tail⟩

end

end MicroNT.Base.Chain
