/-! # Computations that record what they read

A computation gives a result, or none while a loop of it is still running, and the
list of what it has read. It stays inside a set if it ends and reads only there.
Staying inside is a weakest precondition: it composes exactly. -/

namespace MicroNT.Base.Reads

/-- What a computation has read, and its result. -/
structure Traced (ρ α : Type) where
  reads : List ρ
  result : Option α

variable {ρ α β : Type}

namespace Traced

/-- A loop that has used up its rounds. -/
def running : Traced ρ α := ⟨[], none⟩

/-- One read, and the value found there. -/
def read (r : ρ) (a : α) : Traced ρ α := ⟨[r], some a⟩

def bind (x : Traced ρ α) (f : α → Traced ρ β) : Traced ρ β :=
  match x.result with
  | none => ⟨x.reads, none⟩
  | some a => ⟨x.reads ++ (f a).reads, (f a).result⟩

instance : Monad (Traced ρ) where
  pure a := ⟨[], some a⟩
  bind := bind

/-- The computation ends with `a`, and has read only inside `P`. -/
def Stays (P : ρ → Prop) (x : Traced ρ α) (a : α) : Prop :=
  x.result = some a ∧ ∀ r ∈ x.reads, P r

variable {P : ρ → Prop} {a b : α} {x : Traced ρ α}

theorem Stays.unique (h : x.Stays P a) (h' : x.Stays P b) : a = b :=
  Option.some.inj (h.1.symm.trans h'.1)

@[simp] theorem stays_pure : Stays P (pure a : Traced ρ α) b ↔ b = a := by
  constructor
  · intro h
    exact (Option.some.inj h.1).symm
  · intro h
    exact ⟨congrArg some h.symm, fun r hr => absurd hr List.not_mem_nil⟩

@[simp] theorem stays_running : ¬ Stays P (running : Traced ρ α) a :=
  fun h => absurd h.1.symm (Option.some_ne_none a)

@[simp] theorem stays_read {r : ρ} : Stays P (read r a) b ↔ P r ∧ b = a := by
  constructor
  · intro h
    exact ⟨h.2 r (List.mem_singleton.mpr rfl), (Option.some.inj h.1).symm⟩
  · intro h
    refine ⟨congrArg some h.2.symm, fun r' hr => ?_⟩
    rw [List.mem_singleton.mp hr]
    exact h.1

@[simp] theorem stays_bind {f : α → Traced ρ β} {c : β} :
    Stays P (x >>= f) c ↔ ∃ a, x.Stays P a ∧ (f a).Stays P c := by
  show Stays P (bind x f) c ↔ _
  constructor
  · intro ⟨hc, hp⟩
    rw [bind] at hc hp
    cases hx : x.result with
    | none =>
      rw [hx] at hc
      cases hc
    | some a =>
      rw [hx] at hc hp
      refine ⟨a, ⟨hx, fun r hr => ?_⟩, hc, fun r hr => ?_⟩
      · exact hp r (List.mem_append_left _ hr)
      · exact hp r (List.mem_append_right _ hr)
  · intro ⟨a, hx, hf⟩
    rw [bind, hx.1]
    refine ⟨hf.1, fun r hr => ?_⟩
    rcases List.mem_append.mp hr with hr | hr
    · exact hx.2 r hr
    · exact hf.2 r hr

/-- One read, and what comes after it. -/
theorem stays_read_bind {r : ρ} {f : α → Traced ρ β} {c : β} (h : P r) (rest : (f a).Stays P c) :
    Stays P (read r a >>= f) c :=
  stays_bind.mpr ⟨a, stays_read.mpr ⟨h, rfl⟩, rest⟩

/-- The computation ends, having read only inside `P`. -/
def Ends (P : ρ → Prop) (x : Traced ρ α) : Prop := ∃ a, x.Stays P a

@[simp] theorem ends_pure : Ends P (pure a : Traced ρ α) := ⟨a, stays_pure.mpr rfl⟩

@[simp] theorem ends_bind {f : α → Traced ρ β} :
    Ends P (x >>= f) ↔ ∃ a, x.Stays P a ∧ Ends P (f a) := by
  constructor
  · intro ⟨c, h⟩
    obtain ⟨a, hx, hf⟩ := stays_bind.mp h
    exact ⟨a, hx, c, hf⟩
  · intro ⟨a, hx, c, hf⟩
    exact ⟨c, stays_bind.mpr ⟨a, hx, hf⟩⟩

theorem ends_ite {c : Prop} [Decidable c] {y : Traced ρ α} :
    Ends P (if c then x else y) ↔ (c ∧ Ends P x) ∨ (¬ c ∧ Ends P y) := by
  split
  case isTrue hc => simp [hc]
  case isFalse hc => simp [hc]

theorem stays_ite {c : Prop} [Decidable c] {y : Traced ρ α} :
    Stays P (if c then x else y) a ↔ (c ∧ x.Stays P a) ∨ (¬ c ∧ y.Stays P a) := by
  split
  case isTrue hc => simp [hc]
  case isFalse hc => simp [hc]

end Traced

end MicroNT.Base.Reads
