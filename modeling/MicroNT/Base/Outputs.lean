import MicroNT.Base.Machine

/-! # What a run gives out

Every step of a machine may give out some values. If each value of a kind costs a state one
unit of what it has, a run gives out no more of them than the first state can pay for. -/

namespace MicroNT.Base.Machine

variable {σ α β : Type} {step : σ → α → Option σ} {out : σ → α → List β} {G : σ → α → Prop}
  {s t : σ} {as : List α}

/-- What the steps of a run give out, as far as it goes. -/
def outputs (step : σ → α → Option σ) (out : σ → α → List β) : σ → List α → List β
  | _, [] => []
  | s, a :: as =>
    match step s a with
    | none => []
    | some t => out s a ++ outputs step out t as

theorem outputs_cons {a : α} (h : step s a = some t) :
    outputs step out s (a :: as) = out s a ++ outputs step out t as := by
  rw [outputs, h]

/-- **The rule of the budget**: a state that has `n` has what is left of it after a run, and each
value of the kind that the run gave out took one. -/
theorem outputs_paid (Has : σ → Nat → Prop) (kind : β → Bool)
    (pays : ∀ s n a t, Has s n → G s a → step s a = some t →
      ∃ m, Has t m ∧ m + (out s a).countP kind ≤ n)
    {n : Nat} (has : Has s n) (guarded : Along step G s as) (ran : run step s as = some t) :
    ∃ m, Has t m ∧ m + (outputs step out s as).countP kind ≤ n := by
  induction as generalizing s n with
  | nil =>
    obtain rfl := Option.some.inj ran
    exact ⟨n, has, Nat.le_refl n⟩
  | cons a as ih =>
    obtain ⟨u, first, rest⟩ := Option.bind_eq_some_iff.mp ran
    obtain ⟨k, has', one⟩ := pays s n a u has guarded.1 first
    obtain ⟨m, last, more⟩ := ih has' (guarded.2 u first) rest
    refine ⟨m, last, ?_⟩
    rw [outputs_cons first, List.countP_append]
    omega

/-- What every guarded step gives out, every guarded run gives out. -/
theorem outputs_forall {I : σ → Prop} {Q : β → Prop}
    (keep : ∀ s a t, I s → G s a → step s a = some t → I t ∧ ∀ b ∈ out s a, Q b) (hs : I s)
    (guarded : Along step G s as) : ∀ b ∈ outputs step out s as, Q b := by
  induction as generalizing s with
  | nil => exact fun b m => (List.not_mem_nil m).elim
  | cons a as ih =>
    intro b m
    rw [outputs] at m
    split at m
    case h_1 => cases m
    case h_2 t ht =>
      obtain ⟨ht', good⟩ := keep s a t hs guarded.1 ht
      obtain m | m := List.mem_append.mp m
      · exact good b m
      · exact ih ht' (guarded.2 t ht) b m

/-- What holds of the values of a run holds of those of each step that it takes. -/
theorem along_outputs {Q : β → Prop} (h : ∀ b ∈ outputs step out s as, Q b) :
    Along step (fun s a => ∀ t, step s a = some t → ∀ b ∈ out s a, Q b) s as := by
  induction as generalizing s with
  | nil => trivial
  | cons a as ih =>
    refine ⟨fun t ht b m => h b ?_, fun t ht => ih fun b m => h b ?_⟩
    · rw [outputs_cons ht]
      exact List.mem_append_left _ m
    · rw [outputs_cons ht]
      exact List.mem_append_right _ m

end MicroNT.Base.Machine
