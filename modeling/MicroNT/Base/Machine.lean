/-! # Runs of a deterministic labelled machine

A step takes a state and a label and may refuse. A run folds the steps of a
list of labels. An invariant is proved once per step, under a guard on the
labels, and `run_invariant` carries it along every guarded run. -/

namespace MicroNT.Base.Machine

variable {σ α : Type} (step : σ → α → Option σ)

/-- The state a list of labels leads to, if every step is possible. -/
def run : σ → List α → Option σ
  | s, [] => some s
  | s, a :: as => (step s a).bind fun t => run t as

/-- The guard `G` holds at every step of the run. -/
def Along (G : σ → α → Prop) : σ → List α → Prop
  | _, [] => True
  | s, a :: as => G s a ∧ ∀ t, step s a = some t → Along G t as

/-- Every state of the run, the first and the last included, satisfies `P`. -/
def Always (P : σ → Prop) : σ → List α → Prop
  | s, [] => P s
  | s, a :: as => P s ∧ ∀ t, step s a = some t → Always P t as

variable {step}

theorem run_append {s t : σ} {as bs : List α} (h : run step s as = some t) :
    run step s (as ++ bs) = run step t bs := by
  induction as generalizing s with
  | nil => simp only [run, Option.some.injEq] at h; simp [h]
  | cons a as ih =>
    simp only [run] at h
    obtain ⟨u, hu, hr⟩ := Option.bind_eq_some_iff.mp h
    simp only [List.cons_append, run, hu, Option.bind_some]
    exact ih hr

/-- The invariant rule: what every guarded step keeps, every guarded run keeps. -/
theorem run_invariant {G : σ → α → Prop} {I : σ → Prop}
    (keep : ∀ s a t, I s → G s a → step s a = some t → I t) {s t : σ} {as : List α}
    (hs : I s) (hg : Along step G s as) (h : run step s as = some t) : I t := by
  induction as generalizing s with
  | nil => simp only [run, Option.some.injEq] at h; exact h ▸ hs
  | cons a as ih =>
    simp only [run] at h
    obtain ⟨u, hu, hr⟩ := Option.bind_eq_some_iff.mp h
    exact ih (keep s a u hs hg.1 hu) (hg.2 u hu) hr

/-- The invariant holds in every state of a guarded run, not only in the last. -/
theorem always_invariant {G : σ → α → Prop} {I : σ → Prop}
    (keep : ∀ s a t, I s → G s a → step s a = some t → I t) {s : σ} {as : List α}
    (hs : I s) (hg : Along step G s as) : Always step I s as := by
  induction as generalizing s with
  | nil => exact hs
  | cons a as ih =>
    exact ⟨hs, fun t ht => ih (keep s a t hs hg.1 ht) (hg.2 t ht)⟩

/-- The property holds where the run begins. -/
theorem Always.here {P : σ → Prop} {s : σ} {as : List α} (hp : Always step P s as) : P s := by
  cases as with
  | nil => exact hp
  | cons a as => exact hp.1

theorem Always.mono {P Q : σ → Prop} (h : ∀ s, P s → Q s) {s : σ} {as : List α}
    (hp : Always step P s as) : Always step Q s as := by
  induction as generalizing s with
  | nil => exact h s hp
  | cons a as ih => exact ⟨h s hp.1, fun t ht => ih (hp.2 t ht)⟩

/-- What holds of a state whatever is done next guards the run. -/
theorem Always.along {P : σ → Prop} {G : σ → α → Prop} (h : ∀ s a, P s → G s a) {s : σ}
    {as : List α} (hp : Always step P s as) : Along step G s as := by
  induction as generalizing s with
  | nil => trivial
  | cons a as ih => exact ⟨h s a hp.1, fun t ht => ih (hp.2 t ht)⟩

/-- What a good state after a step says about the step, every step of a good run obeys. -/
theorem Always.along_next {P : σ → Prop} {G : σ → α → Prop}
    (h : ∀ s a, (∀ t, step s a = some t → P t) → G s a) {s : σ} {as : List α}
    (hp : Always step P s as) : Along step G s as := by
  induction as generalizing s with
  | nil => trivial
  | cons a as ih =>
    refine ⟨h s a fun t ht => ?_, fun t ht => ih (hp.2 t ht)⟩
    exact (hp.2 t ht).here

theorem Always.last {P : σ → Prop} {s t : σ} {as : List α} (hp : Always step P s as)
    (h : run step s as = some t) : P t := by
  induction as generalizing s with
  | nil => simp only [run, Option.some.injEq] at h; exact h ▸ hp
  | cons a as ih =>
    simp only [run] at h
    obtain ⟨u, hu, hr⟩ := Option.bind_eq_some_iff.mp h
    exact ih (hp.2 u hu) hr

theorem along_append {G : σ → α → Prop} {s : σ} {as bs : List α} :
    Along step G s (as ++ bs) ↔
      Along step G s as ∧ ∀ t, run step s as = some t → Along step G t bs := by
  induction as generalizing s with
  | nil => simp [Along, run]
  | cons a as ih =>
    simp only [List.cons_append, Along, run, ih]
    constructor
    · rintro ⟨hg, h⟩
      refine ⟨⟨hg, fun t ht => (h t ht).1⟩, fun t ht => ?_⟩
      obtain ⟨u, hu, hr⟩ := Option.bind_eq_some_iff.mp ht
      exact (h u hu).2 t hr
    · rintro ⟨⟨hg, h⟩, hb⟩
      exact ⟨hg, fun t ht => ⟨h t ht, fun u hu => hb u (by simp [ht, hu])⟩⟩

/-- What the invariant and the guard give at a step holds at every step. -/
theorem along_invariant {G H : σ → α → Prop} {I : σ → Prop}
    (keep : ∀ s a t, I s → G s a → step s a = some t → I t) (imp : ∀ s a, I s → G s a → H s a)
    {s : σ} {as : List α} (hs : I s) (hg : Along step G s as) : Along step H s as := by
  induction as generalizing s with
  | nil => trivial
  | cons a as ih =>
    exact ⟨imp s a hs hg.1, fun t ht => ih (keep s a t hs hg.1 ht) (hg.2 t ht)⟩

/-- Two guards that say the same where the invariant holds guard the same runs. -/
theorem along_iff {G H : σ → α → Prop} {I : σ → Prop}
    (keep : ∀ s a t, I s → G s a → step s a = some t → I t) (same : ∀ s a, I s → (H s a ↔ G s a))
    {s : σ} {as : List α} (hs : I s) : Along step H s as ↔ Along step G s as := by
  constructor
  · exact along_invariant (fun s a t hs hh => keep s a t hs ((same s a hs).mp hh))
      (fun s a hs => (same s a hs).mp) hs
  · exact along_invariant keep (fun s a hs => (same s a hs).mpr) hs

/-- Two guards that say the same where the invariant and a third guard hold, in the runs
that this one guards. -/
theorem along_iff_within {G H K : σ → α → Prop} {I : σ → Prop}
    (keep : ∀ s a t, I s → K s a → step s a = some t → I t)
    (same : ∀ s a, I s → K s a → (H s a ↔ G s a)) {s : σ} {as : List α} (hs : I s)
    (hk : Along step K s as) : Along step H s as ↔ Along step G s as := by
  induction as generalizing s with
  | nil => exact Iff.rfl
  | cons a as ih =>
    exact and_congr (same s a hs hk.1) (forall_congr' fun t => forall_congr' fun ht =>
      ih (keep s a t hs hk.1 ht) (hk.2 t ht))

/-- Two guards that say the same where the invariant holds, in the runs that keep it. -/
theorem along_iff_of {G H K : σ → α → Prop} {I : σ → Prop}
    (keep : ∀ s a t, I s → K s a → step s a = some t → I t) (same : ∀ s a, I s → (H s a ↔ G s a))
    {s : σ} {as : List α} (hs : I s) (hk : Along step K s as) :
    Along step H s as ↔ Along step G s as :=
  along_iff_within keep (fun s a hs _ => same s a hs) hs hk

/-- **A guard that is exact**, in the runs that `H` guards: guarded steps keep the
invariant, which gives `P`, and any other step that is possible breaks `P`. -/
theorem always_iff_along_of {G H : σ → α → Prop} {I P : σ → Prop}
    (keep : ∀ s a t, I s → H s a → G s a → step s a = some t → I t) (good : ∀ s, I s → P s)
    (bad : ∀ s a t, I s → H s a → ¬ G s a → step s a = some t → ¬ P t)
    (refused : ∀ s a, step s a = none → G s a) {s : σ} {as : List α} (hs : I s)
    (hh : Along step H s as) : Always step P s as ↔ Along step G s as := by
  constructor
  · intro hp
    induction as generalizing s with
    | nil => trivial
    | cons a as ih =>
      have here : G s a := by
        refine Classical.byContradiction fun hn => ?_
        cases ht : step s a with
        | none => exact hn (refused s a ht)
        | some t => exact bad s a t hs hh.1 hn ht (hp.2 t ht).here
      exact ⟨here, fun t ht => ih (keep s a t hs hh.1 here ht) (hh.2 t ht) (hp.2 t ht)⟩
  · intro hg
    induction as generalizing s with
    | nil => exact good s hs
    | cons a as ih =>
      exact ⟨good s hs, fun t ht => ih (keep s a t hs hh.1 hg.1 ht) (hh.2 t ht) (hg.2 t ht)⟩

/-- **A guard that is exact** in all runs. -/
theorem always_iff_along {G : σ → α → Prop} {I P : σ → Prop}
    (keep : ∀ s a t, I s → G s a → step s a = some t → I t) (good : ∀ s, I s → P s)
    (bad : ∀ s a t, I s → ¬ G s a → step s a = some t → ¬ P t)
    (refused : ∀ s a, step s a = none → G s a) {s : σ} {as : List α} (hs : I s) :
    Always step P s as ↔ Along step G s as := by
  have free : Along step (fun _ _ => True) s as := by
    clear hs
    induction as generalizing s with
    | nil => trivial
    | cons a as ih => exact ⟨trivial, fun t _ => ih⟩
  exact always_iff_along_of (fun s a t hs _ => keep s a t hs) good (fun s a t hs _ => bad s a t hs)
    refused hs free

theorem Along.mono {G H : σ → α → Prop} (h : ∀ s a, G s a → H s a) {s : σ} {as : List α}
    (hg : Along step G s as) : Along step H s as := by
  induction as generalizing s with
  | nil => trivial
  | cons a as ih => exact ⟨h s a hg.1, fun t ht => ih (hg.2 t ht)⟩

theorem Along.and {G H : σ → α → Prop} {s : σ} {as : List α} (hg : Along step G s as)
    (hh : Along step H s as) : Along step (fun s a => G s a ∧ H s a) s as := by
  induction as generalizing s with
  | nil => trivial
  | cons a as ih => exact ⟨⟨hg.1, hh.1⟩, fun t ht => ih (hg.2 t ht) (hh.2 t ht)⟩

theorem Always.and {P Q : σ → Prop} {s : σ} {as : List α} (hp : Always step P s as)
    (hq : Always step Q s as) : Always step (fun s => P s ∧ Q s) s as := by
  induction as generalizing s with
  | nil => exact ⟨hp, hq⟩
  | cons a as ih => exact ⟨⟨hp.1, hq.1⟩, fun t ht => ih (hp.2 t ht) (hq.2 t ht)⟩

/-- **The simulation rule**: where the second machine can follow every step of the first that
its own guard allows, it can follow every run. -/
theorem run_simulates {τ : Type} {spec : τ → α → Option τ} {R : σ → τ → Prop} {G : τ → α → Prop}
    (square : ∀ s t a u, R s t → G t a → step s a = some u → ∃ v, spec t a = some v ∧ R u v)
    {s u : σ} {t : τ} {as : List α} (hr : R s t) (hg : Along spec G t as)
    (h : run step s as = some u) : ∃ v, run spec t as = some v ∧ R u v := by
  induction as generalizing s t with
  | nil =>
    obtain rfl := Option.some.inj h
    exact ⟨t, rfl, hr⟩
  | cons a as ih =>
    obtain ⟨s₁, hs, hrun⟩ := Option.bind_eq_some_iff.mp h
    obtain ⟨t₁, ht, hr₁⟩ := square s t a s₁ hr hg.1 hs
    obtain ⟨v, hv, hr'⟩ := ih hr₁ (hg.2 t₁ ht) hrun
    exact ⟨v, by rw [run, ht, Option.bind_some, hv], hr'⟩

/-- A guard that always holds guards every run. -/
theorem along_of_forall {G : σ → α → Prop} (h : ∀ s a, G s a) (s : σ) (as : List α) :
    Along step G s as := by
  induction as generalizing s with
  | nil => trivial
  | cons a as ih => exact ⟨h s a, fun t _ => ih t⟩

/-- A guard on the labels alone. -/
theorem along_of_forall_mem {G : α → Prop} {as : List α} (h : ∀ a ∈ as, G a) (s : σ) :
    Along step (fun _ a => G a) s as := by
  induction as generalizing s with
  | nil => trivial
  | cons a as ih =>
    exact ⟨h a List.mem_cons_self, fun t _ => ih (fun b hb => h b (List.mem_cons_of_mem a hb)) t⟩

/-- The guard along a run is decided label by label. -/
def decAlong {G : σ → α → Prop} [∀ s a, Decidable (G s a)] :
    (s : σ) → (as : List α) → Decidable (Along step G s as)
  | _, [] => inferInstanceAs (Decidable True)
  | s, a :: as =>
    match h : step s a with
    | none => decidable_of_iff (G s a) (by simp [Along, h])
    | some t =>
      have : Decidable (Along step G t as) := decAlong t as
      decidable_of_iff (G s a ∧ Along step G t as) (by simp [Along, h])

instance {G : σ → α → Prop} [∀ s a, Decidable (G s a)] (s : σ) (as : List α) :
    Decidable (Along step G s as) := decAlong s as

end MicroNT.Base.Machine
