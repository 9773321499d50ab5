import Mathlib.Data.Option.Basic

/-! # Programs that print and may raise

The lines that a program printed, and its value unless it raised on the way. What was printed
before stays printed. -/

namespace MicroNT.Base

variable {L α β : Type}

structure Report (L α : Type) where
  lines : List L
  value : Option α

namespace Report

instance : Monad (Report L) where
  pure a := ⟨[], some a⟩
  bind x f :=
    match x.value with
    | none => ⟨x.lines, none⟩
    | some a => ⟨x.lines ++ (f a).lines, (f a).value⟩

def print (l : L) : Report L Unit := ⟨[l], some ()⟩

/-- A step that prints nothing, and raises where it has no value. -/
def ofOption (o : Option α) : Report L α := ⟨[], o⟩

/-- Every line satisfies `p`. -/
def All (p : L → Prop) (x : Report L α) : Prop := ∀ l ∈ x.lines, p l

instance (p : L → Prop) [DecidablePred p] (x : Report L α) : Decidable (x.All p) :=
  inferInstanceAs (Decidable (∀ l ∈ x.lines, p l))

/-! ## One step -/

variable {f : α → Report L β} {x : Report L α} {a : α} {b : β} {l : L} {p : L → Prop}

@[simp] theorem pure_bind : (pure a >>= f : Report L β) = f a := rfl

@[simp] theorem print_bind {f : Unit → Report L β} :
    (print l >>= f) = ⟨l :: (f ()).lines, (f ()).value⟩ := rfl

@[simp] theorem ofOption_some_bind : (ofOption (some a) >>= f) = f a := rfl

@[simp] theorem ofOption_none_bind : (ofOption none >>= f) = ⟨[], none⟩ := rfl

/-- The lines of the rest follow those of a step that has a value. -/
theorem bind_of_some (h : x.value = some a) :
    (x >>= f) = ⟨x.lines ++ (f a).lines, (f a).value⟩ := by
  change (match x.value with
    | none => ⟨x.lines, none⟩
    | some a => ⟨x.lines ++ (f a).lines, (f a).value⟩ : Report L β) = _
  rw [h]

theorem bind_of_none (h : x.value = none) : (x >>= f) = ⟨x.lines, none⟩ := by
  change (match x.value with
    | none => ⟨x.lines, none⟩
    | some a => ⟨x.lines ++ (f a).lines, (f a).value⟩ : Report L β) = _
  rw [h]

/-! ## A whole run -/

/-- It comes to the value `b`, and all lines on the way satisfy `p`. -/
def Gives (p : L → Prop) (x : Report L β) (b : β) : Prop := x.value = some b ∧ x.All p

@[simp] theorem gives_pure {c : β} : (pure c : Report L β).Gives p b ↔ c = b := by
  change (some c = some b ∧ ∀ l ∈ ([] : List L), p l) ↔ c = b
  simp

@[simp] theorem gives_print {u : Unit} : (print l).Gives p u ↔ p l := by
  change (some () = some u ∧ ∀ m ∈ [l], p m) ↔ p l
  simp

@[simp] theorem gives_ofOption {o : Option β} :
    (ofOption o : Report L β).Gives p b ↔ o = some b := by
  change (o = some b ∧ ∀ l ∈ ([] : List L), p l) ↔ o = some b
  simp

/-- **A run step by step**: its lines are those of the steps, and it comes to its value through
theirs. -/
theorem gives_bind : (x >>= f).Gives p b ↔ ∃ a, x.Gives p a ∧ (f a).Gives p b := by
  unfold Gives
  cases h : x.value with
  | none =>
    rw [bind_of_none h]
    simp
  | some a =>
    rw [bind_of_some h]
    constructor
    · rintro ⟨value, all⟩
      obtain ⟨first, rest⟩ := List.forall_mem_append.mp all
      exact ⟨a, ⟨rfl, first⟩, value, rest⟩
    · rintro ⟨a', ⟨same, first⟩, value, rest⟩
      obtain rfl := Option.some.inj same
      exact ⟨value, List.forall_mem_append.mpr ⟨first, rest⟩⟩

end Report

end MicroNT.Base
