import MicroNT.Base.Radix

/-! # Radix trees that share tables

Several trees may share a table as long as all of them reach it along the same
path. Then every single tree is injective, and a write or a new table is seen
from every root at the same place, or not at all. -/

namespace MicroNT.Base.Radix

variable {A I E : Type} {link : E → Option A}

/-- Within `n` links of the roots, a table is reached along one path only. -/
def Forest (link : E → Option A) (m : A → I → E) (roots : A → Prop) (n : Nat) : Prop :=
  ∀ a b p q t, roots a → roots b → p.length ≤ n → q.length ≤ n →
    descend link m a p = some t → descend link m b q = some t → p = q

/-- A table of one of the trees. -/
def InForest (link : E → Option A) (m : A → I → E) (roots : A → Prop) (n : Nat) (t : A) : Prop :=
  ∃ a p, roots a ∧ p.length ≤ n ∧ descend link m a p = some t

section

variable {m m' : A → I → E} {roots : A → Prop} {n : Nat} {a b t f : A} {p q : List I} {i : I}
  {e : E}

theorem Forest.injective (h : Forest link m roots n) (ha : roots a) : Injective link m a n :=
  fun p q t hp hq ht ht' => h a a p q t ha ha hp hq ht ht'

theorem Forest.congr (h : Forest link m roots n)
    (same : ∀ a q, roots a → q.length ≤ n → descend link m' a q = descend link m a q) :
    Forest link m' roots n := by
  intro a b p q t ha hb hp hq ht ht'
  rw [same a p ha hp] at ht
  rw [same b q hb hq] at ht'
  exact h a b p q t ha hb hp hq ht ht'

theorem inForest_congr
    (same : ∀ a q, roots a → q.length ≤ n → descend link m' a q = descend link m a q) :
    InForest link m' roots n t ↔ InForest link m roots n t := by
  constructor
  · rintro ⟨a, q, ha, hq, ht⟩
    exact ⟨a, q, ha, hq, same a q ha hq ▸ ht⟩
  · rintro ⟨a, q, ha, hq, ht⟩
    exact ⟨a, q, ha, hq, (same a q ha hq).trans ht⟩

/-- Tables that lead nowhere else than before give the same trees. -/
theorem descend_of_agree (same : ∀ t, InForest link m roots n t → ∀ i, link (m' t i) = link (m t i))
    (ha : roots a) (hq : q.length ≤ n) : descend link m' a q = descend link m a q := by
  have main : ∀ (r s : List I) (b : A), r.length + s.length ≤ n → descend link m a r = some b →
      descend link m' b s = descend link m b s := by
    intro r s
    induction s generalizing r with
    | nil => exact fun _ _ _ => rfl
    | cons i s ih =>
      intro b hlen hb
      rw [List.length_cons] at hlen
      rw [descend, descend, same b ⟨a, r, ha, by omega, hb⟩ i]
      cases hl : link (m b i) with
      | none => rfl
      | some c =>
        simp only [Option.bind_some]
        refine ih (r ++ [i]) c (by rw [List.length_append, List.length_singleton]; omega) ?_
        rw [descend_snoc hb, hl]
  exact main [] q a (by simpa using hq) rfl

/-- The contents of a table at the end of the paths do not matter. -/
theorem Forest.descend_last (h : Forest link m roots n) (ha : roots a) (hp : p.length = n)
    (ht : descend link m a p = some t) (same : ∀ u, u ≠ t → m' u = m u) (hb : roots b)
    (hq : q.length ≤ n) : descend link m' b q = descend link m b q := by
  refine descend_congr fun r j s c hqr hc => ?_
  rw [same c]
  rintro rfl
  have hlen := congrArg List.length hqr
  simp only [List.length_append, List.length_cons] at hlen
  have eq := h a b p r c ha hb (by omega) (by omega) ht hc
  rw [eq] at hp
  omega

variable [DecidableEq A] [DecidableEq I]

section

variable {tbl : I → E} (h : Forest link m roots n) (ha : roots a) (hp : p.length < n)
  (ht : descend link m a p = some t) (hf : ¬ InForest link m roots n f) (he : link e = some f)
  (hblank : ∀ j, link (tbl j) = none)
include h ha hp ht hf he hblank

/-- A fresh table is seen from every root that reaches its parent, along one path. -/
theorem Forest.graft_cases (hb : roots b) (hq : q.length ≤ n) {u : A}
    (hu : descend link (Radix.graft m t i f tbl e) b q = some u) :
    descend link m b q = some u ∨ (q = p ++ [i] ∧ u = f) := by
  have fresh : ∀ r, r.length ≤ n → descend link m b r ≠ some f :=
    fun r hr hd => hf ⟨b, r, hb, hr, hd⟩
  by_cases hreach : ∃ r, r.length ≤ n ∧ descend link m b r = some t
  · obtain ⟨r, hr, hd⟩ := hreach
    obtain rfl := h a b p r t ha hb (by omega) hr ht hd
    exact (descend_graft_cases (h.injective hb) hp hd fresh he hblank hq hu).imp_left And.right
  · -- this tree does not reach the parent
    rw [descend_congr] at hu
    · exact .inl hu
    · intro r j s c hqr hc
      have hlen := congrArg List.length hqr
      simp only [List.length_append, List.length_cons] at hlen
      have apart : c ≠ t := by
        rintro rfl
        exact hreach ⟨r, by omega, hc⟩
      have apart' : c ≠ f := by
        rintro rfl
        exact fresh r (by omega) hc
      rw [Radix.graft, write_of_table_ne apart, fill_of_ne apart']

theorem Forest.graft : Forest link (Radix.graft m t i f tbl e) roots n := by
  intro b c q r u hb hc hq hr hu hu'
  rcases h.graft_cases ha hp ht hf he hblank hb hq hu with h1 | ⟨rfl, rfl⟩ <;>
    rcases h.graft_cases ha hp ht hf he hblank hc hr hu' with h2 | ⟨rfl, h2⟩
  · exact h b c q r u hb hc hq hr h1 h2
  · exact absurd ⟨b, q, hb, hq, h2 ▸ h1⟩ hf
  · exact absurd ⟨c, r, hc, hr, h2⟩ hf
  · rfl

end

end

end MicroNT.Base.Radix
