/-! # Machines that answer requests

Every request takes the machine to a new state and gets an answer. One machine
stands for another if an abstraction of its states commutes with every request
and the answers are the same. -/

namespace MicroNT.Base.Simulation

variable {σ τ α β : Type}

/-- The state after a list of requests. -/
def after (step : σ → α → σ × β) : σ → List α → σ
  | s, [] => s
  | s, a :: as => after step (step s a).1 as

/-- The answers to a list of requests. -/
def answers (step : σ → α → σ × β) : σ → List α → List β
  | _, [] => []
  | s, a :: as => (step s a).2 :: answers step (step s a).1 as

/-- **The simulation rule**: if the abstraction commutes with every request, runs
agree in their answers and in where they lead. -/
theorem simulates {step : σ → α → σ × β} {spec : τ → α → τ × β} {abs : σ → τ} {I : σ → Prop}
    {G : α → Prop} (keep : ∀ s a, I s → G a → I (step s a).1)
    (commutes : ∀ s a, I s → G a → spec (abs s) a = (abs (step s a).1, (step s a).2))
    {s : σ} {as : List α} (hs : I s) (allowed : ∀ a ∈ as, G a) :
    answers step s as = answers spec (abs s) as ∧
      abs (after step s as) = after spec (abs s) as := by
  induction as generalizing s with
  | nil => exact ⟨rfl, rfl⟩
  | cons a as ih =>
    have first := allowed a List.mem_cons_self
    have square := commutes s a hs first
    obtain ⟨same, last⟩ := ih (keep s a hs first) fun b hb => allowed b (List.mem_cons_of_mem a hb)
    simp only [answers, after, square, same, last, and_self]

/-! ## Specifications that leave a choice

A specification may allow several answers: it is a relation between a state, a request,
its answer and the next state. -/

/-- Requests with the answers to them. -/
def trace (step : σ → α → σ × β) : σ → List α → List (α × β)
  | _, [] => []
  | s, a :: as => (a, (step s a).2) :: trace step (step s a).1 as

/-- A run of the specification. -/
inductive Allowed (spec : τ → α → β → τ → Prop) : τ → List (α × β) → τ → Prop
  | nil (t : τ) : Allowed spec t [] t
  | cons {t u v : τ} {a : α} {b : β} {l : List (α × β)} (first : spec t a b u)
      (rest : Allowed spec u l v) : Allowed spec t ((a, b) :: l) v

/-- **The refinement rule**: if the specification allows what the machine does at every
step, it allows every run. -/
theorem refines {step : σ → α → σ × β} {spec : τ → α → β → τ → Prop} {abs : σ → τ}
    (square : ∀ s a, spec (abs s) a (step s a).2 (abs (step s a).1)) (s : σ) (as : List α) :
    Allowed spec (abs s) (trace step s as) (abs (after step s as)) := by
  induction as generalizing s with
  | nil => exact .nil _
  | cons a as ih => exact .cons (square s a) (ih _)

/-- What every step of the specification keeps, together with the trace behind it. -/
theorem Allowed.invariant {spec : τ → α → β → τ → Prop} {I : τ → List (α × β) → Prop}
    (keep : ∀ {t u a b l}, I t l → spec t a b u → I u ((a, b) :: l)) {t u : τ}
    {past l : List (α × β)} (h : Allowed spec t l u) (start : I t past) :
    I u (l.reverse ++ past) := by
  induction h generalizing past with
  | nil => exact start
  | cons first _ ih =>
    rw [List.reverse_cons, List.append_assoc]
    exact ih (keep start first)

end MicroNT.Base.Simulation
