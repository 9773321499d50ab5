import Mathlib.Data.List.Basic
import Mathlib.Logic.Function.Basic

/-! # Radix tables in memory

A table is an address with one entry for each index; an entry may link to a
further table. `descend` follows the links along a path, `walk` collects the
entries that a lookup reads. Two disciplines tell which writes a lookup can see:
in an injective tree a table is reached along one path only, and in a typed
memory the role of a table fixes the roles of the tables it links to. -/

namespace MicroNT.Base.Radix

variable {A I E : Type} (link : E → Option A)

/-- The table at the end of a path of links. -/
def descend (m : A → I → E) : A → List I → Option A
  | a, [] => some a
  | a, i :: is => (link (m a i)).bind fun b => descend m b is

/-- The entries a lookup reads, up to the first that does not link. -/
def walk (m : A → I → E) : A → List I → List E
  | _, [] => []
  | a, i :: is => m a i :: (link (m a i)).elim [] fun b => walk m b is

variable {link}

/-- The last entry of a path is read whether it links or not. -/
@[simp] theorem walk_single (m : A → I → E) (a : A) (i : I) : walk link m a [i] = [m a i] := by
  rw [walk]
  cases link (m a i) <;> rfl

theorem walk_cons_cons (m : A → I → E) (a : A) (i j : I) (q : List I) :
    walk link m a (i :: j :: q) =
      m a i :: (link (m a i)).elim [] fun b => walk link m b (j :: q) := rfl

theorem descend_append {m : A → I → E} {a b : A} {p : List I}
    (h : descend link m a p = some b) (q : List I) :
    descend link m a (p ++ q) = descend link m b q := by
  induction p generalizing a with
  | nil => obtain rfl := Option.some.inj h; rfl
  | cons i p ih =>
    obtain ⟨c, hc, hb⟩ := Option.bind_eq_some_iff.mp h
    rw [List.cons_append, descend, hc, Option.bind_some]
    exact ih hb

theorem descend_snoc {m : A → I → E} {a b : A} {p : List I}
    (h : descend link m a p = some b) (i : I) :
    descend link m a (p ++ [i]) = link (m b i) := by
  rw [descend_append h]
  simp [descend]

theorem walk_append {m : A → I → E} {a b : A} {p : List I}
    (h : descend link m a p = some b) (q : List I) :
    walk link m a (p ++ q) = walk link m a p ++ walk link m b q := by
  induction p generalizing a with
  | nil => obtain rfl := Option.some.inj h; rfl
  | cons i p ih =>
    obtain ⟨c, hc, hb⟩ := Option.bind_eq_some_iff.mp h
    simp only [List.cons_append, walk, hc, Option.elim_some]
    rw [ih hb]

/-! ## What a lookup reads -/

/-- A lookup that reads the same entries follows the same links. -/
theorem walk_congr {m m' : A → I → E} {a : A} {q : List I}
    (h : ∀ r i s b, q = r ++ i :: s → descend link m a r = some b → m' b i = m b i) :
    walk link m' a q = walk link m a q := by
  induction q generalizing a with
  | nil => rfl
  | cons i q ih =>
    have h0 : m' a i = m a i := h [] i q a rfl rfl
    rw [walk, walk, h0]
    cases hl : link (m a i) with
    | none => rfl
    | some b =>
      simp only [Option.elim_some]
      rw [ih]
      intro r j s c hq hc
      exact h (i :: r) j s c (by rw [hq]; rfl) (by rw [descend, hl, Option.bind_some, hc])

theorem descend_congr {m m' : A → I → E} {a : A} {q : List I}
    (h : ∀ r i s b, q = r ++ i :: s → descend link m a r = some b → m' b i = m b i) :
    descend link m' a q = descend link m a q := by
  induction q generalizing a with
  | nil => rfl
  | cons i q ih =>
    have h0 : m' a i = m a i := h [] i q a rfl rfl
    rw [descend, descend, h0]
    cases hl : link (m a i) with
    | none => rfl
    | some b =>
      simp only [Option.bind_some]
      rw [ih]
      intro r j s c hq hc
      exact h (i :: r) j s c (by rw [hq]; rfl) (by rw [descend, hl, Option.bind_some, hc])

/-! ## Writes -/

section Write

variable [DecidableEq A]

/-- Store a whole table. -/
def fill (m : A → I → E) (a : A) (t : I → E) : A → I → E := Function.update m a t

@[simp] theorem fill_same (m : A → I → E) (a : A) (t : I → E) : fill m a t a = t :=
  Function.update_self _ _ _

theorem fill_of_ne {m : A → I → E} {a b : A} {t : I → E} (h : b ≠ a) : fill m a t b = m b :=
  Function.update_of_ne h _ _

theorem fill_fill (m : A → I → E) (a : A) (t u : I → E) : fill (fill m a t) a u = fill m a u :=
  Function.update_idem _ _ _

variable [DecidableEq I]

/-- Store one entry. -/
def write (m : A → I → E) (a : A) (i : I) (e : E) : A → I → E :=
  Function.update m a (Function.update (m a) i e)

@[simp] theorem write_same (m : A → I → E) (a : A) (i : I) (e : E) : write m a i e a i = e := by
  simp [write]

theorem write_of_ne {m : A → I → E} {a b : A} {i j : I} {e : E} (h : ¬ (b = a ∧ j = i)) :
    write m a i e b j = m b j := by
  rw [write, Function.update_apply]
  split
  case isTrue hb => subst hb; rw [Function.update_of_ne fun hj => h ⟨rfl, hj⟩]
  case isFalse => rfl

theorem write_fill (m : A → I → E) (a : A) (t : I → E) (i : I) (e : E) :
    write (fill m a t) a i e = fill m a (Function.update t i e) := by
  rw [write, fill_same, fill, fill, Function.update_idem]

/-- Filling another table in between does not matter. -/
theorem write_fill_fill {m : A → I → E} {a b : A} (h : a ≠ b) (t u : I → E) (i : I) (e : E) :
    write (fill (fill m a t) b u) a i e = fill (fill m b u) a (Function.update t i e) := by
  rw [fill, fill, Function.update_comm h, ← fill, ← fill, write_fill]

theorem write_of_table_ne {m : A → I → E} {a b : A} {i : I} {e : E} (h : b ≠ a) :
    write m a i e b = m b := Function.update_of_ne h _ _

end Write

/-! ## Injective trees -/

/-- Within `n` links of the root, a table is reached along one path only. -/
def Injective (link : E → Option A) (m : A → I → E) (root : A) (n : Nat) : Prop :=
  ∀ p q a, p.length ≤ n → q.length ≤ n →
    descend link m root p = some a → descend link m root q = some a → p = q

section Tree

variable {m : A → I → E} {root a : A} {n : Nat} {p : List I} {i : I} {e : E}

theorem snoc_not_le (p : List I) (i : I) : ¬ (p ++ [i]) <+: p := by
  intro h
  have := h.length_le
  simp only [List.length_append, List.length_singleton] at this
  omega

variable [DecidableEq A]

/-- Filling a table that no lookup reaches is not seen. -/
theorem walk_fill {f : A} {t : I → E} {q : List I}
    (hf : ∀ r, r.length < q.length → descend link m root r ≠ some f) :
    walk link (fill m f t) root q = walk link m root q := by
  refine walk_congr fun r j s b hqr hb => ?_
  rw [fill_of_ne]
  rintro rfl
  exact hf r (by rw [hqr]; simp) hb

theorem descend_fill {f : A} {t : I → E} {q : List I}
    (hf : ∀ r, r.length < q.length → descend link m root r ≠ some f) :
    descend link (fill m f t) root q = descend link m root q := by
  refine descend_congr fun r j s b hqr hb => ?_
  rw [fill_of_ne]
  rintro rfl
  exact hf r (by rw [hqr]; simp) hb

theorem Injective.fill {f : A} {t : I → E} (h : Injective link m root n)
    (hf : ∀ r, r.length ≤ n → descend link m root r ≠ some f) :
    Injective link (fill m f t) root n := by
  intro q r b hq hr hb hb'
  rw [descend_fill fun s hs => hf s (by omega)] at hb hb'
  exact h q r b hq hr hb hb'

variable [DecidableEq I]

/-- A write to one entry is seen only by the lookups that pass through it. -/
theorem Injective.read_write (h : Injective link m root n) (hp : p.length ≤ n)
    (ha : descend link m root p = some a) {q r s : List I} {j : I} {b : A}
    (hq : q.length ≤ n + 1) (hpre : ¬ (p ++ [i]) <+: q) (hqr : q = r ++ j :: s)
    (hb : descend link m root r = some b) : write m a i e b j = m b j := by
  refine write_of_ne fun ⟨hba, hji⟩ => hpre ?_
  subst hba hji
  have hr : r.length ≤ n := by
    have := congrArg List.length hqr
    simp only [List.length_append, List.length_cons] at this
    omega
  obtain rfl := h p r b hp hr ha hb
  exact ⟨s, by rw [hqr, List.append_assoc]; rfl⟩

theorem Injective.walk_write (h : Injective link m root n) (hp : p.length ≤ n)
    (ha : descend link m root p = some a) {q : List I} (hq : q.length ≤ n + 1)
    (hpre : ¬ (p ++ [i]) <+: q) :
    walk link (write m a i e) root q = walk link m root q :=
  walk_congr fun _ _ _ _ hqr hb => h.read_write hp ha hq hpre hqr hb

theorem Injective.descend_write (h : Injective link m root n) (hp : p.length ≤ n)
    (ha : descend link m root p = some a) {q : List I} (hq : q.length ≤ n + 1)
    (hpre : ¬ (p ++ [i]) <+: q) :
    descend link (write m a i e) root q = descend link m root q :=
  descend_congr fun _ _ _ _ hqr hb => h.read_write hp ha hq hpre hqr hb

/-- Lookups through the written entry read the old entries before it. -/
theorem Injective.descend_write_self (h : Injective link m root n) (hp : p.length ≤ n)
    (ha : descend link m root p = some a) : descend link (write m a i e) root p = some a := by
  rw [h.descend_write hp ha (by omega) (snoc_not_le p i)]
  exact ha

theorem Injective.walk_write_self (h : Injective link m root n) (hp : p.length ≤ n)
    (ha : descend link m root p = some a) :
    walk link (write m a i e) root p = walk link m root p := by
  rw [h.walk_write hp ha (by omega) (snoc_not_le p i)]

/-- The memory after a fresh table `f` without links is linked in at `(a, i)`. -/
def graft (m : A → I → E) (a : A) (i : I) (f : A) (t : I → E) (e : E) : A → I → E :=
  write (fill m f t) a i e

section Graft

variable {f : A} {t : I → E} (h : Injective link m root n) (hp : p.length < n)
  (ha : descend link m root p = some a) (hf : ∀ r, r.length ≤ n → descend link m root r ≠ some f)
  (he : link e = some f) (ht : ∀ j, link (t j) = none)
include h hp ha hf

theorem descend_graft_off_path {q : List I} (hq : q.length ≤ n)
    (hpre : ¬ (p ++ [i]) <+: q) :
    descend link (graft m a i f t e) root q = descend link m root q := by
  have hfill := h.fill (t := t) hf
  have ha' : descend link (fill m f t) root p = some a := by
    rw [descend_fill fun s hs => hf s (by omega)]; exact ha
  rw [graft, hfill.descend_write (by omega) ha' (by omega) hpre,
    descend_fill fun s hs => hf s (by omega)]

theorem walk_graft_off_path {q : List I} (hq : q.length ≤ n + 1)
    (hpre : ¬ (p ++ [i]) <+: q) :
    walk link (graft m a i f t e) root q = walk link m root q := by
  have hfill := h.fill (t := t) hf
  have ha' : descend link (fill m f t) root p = some a := by
    rw [descend_fill fun s hs => hf s (by omega)]; exact ha
  rw [graft, hfill.walk_write (by omega) ha' (by omega) hpre,
    walk_fill fun s hs => hf s (by omega)]

omit h in
theorem graft_fresh_entry (j : I) : graft m a i f t e f j = t j := by
  rw [graft, write_of_ne, fill_same]
  rintro ⟨rfl, -⟩
  exact hf p (by omega) ha

include he

theorem descend_graft : descend link (graft m a i f t e) root (p ++ [i]) = some f := by
  have hp' : descend link (graft m a i f t e) root p = some a := by
    rw [descend_graft_off_path h hp ha hf (by omega) (snoc_not_le p i)]
    exact ha
  rw [descend_snoc hp', graft, write_same, he]

include ht

/-- A lookup through the graft reads one blank entry of the fresh table. -/
theorem walk_graft_through (j : I) (s : List I) :
    walk link (graft m a i f t e) root (p ++ i :: j :: s) = walk link m root p ++ [e, t j] := by
  have hp' : walk link (graft m a i f t e) root p = walk link m root p := by
    rw [walk_graft_off_path h hp ha hf (by omega) (snoc_not_le p i)]
  have hd : descend link (graft m a i f t e) root p = some a := by
    rw [descend_graft_off_path h hp ha hf (by omega) (snoc_not_le p i)]
    exact ha
  have hj := graft_fresh_entry (i := i) (t := t) (e := e) hp ha hf j
  have hw : graft m a i f t e a i = e := write_same _ _ _ _
  rw [walk_append hd, hp', walk, hw, he]
  simp only [Option.elim_some]
  rw [walk, hj, ht j]
  rfl

/-- Within `n` links, the tables are the old ones and the fresh one. -/
theorem descend_graft_cases {q : List I} {b : A} (hq : q.length ≤ n)
    (hb : descend link (graft m a i f t e) root q = some b) :
    (¬ (p ++ [i]) <+: q ∧ descend link m root q = some b) ∨ (q = p ++ [i] ∧ b = f) := by
  by_cases hpre : (p ++ [i]) <+: q
  · obtain ⟨s, rfl⟩ := hpre
    rw [descend_append (descend_graft h hp ha hf he)] at hb
    cases s with
    | nil => exact .inr ⟨by simp, (Option.some.inj hb).symm⟩
    | cons j s =>
      rw [descend, graft_fresh_entry hp ha hf, ht j] at hb
      cases hb
  · rw [descend_graft_off_path h hp ha hf hq hpre] at hb
    exact .inl ⟨hpre, hb⟩

theorem Injective.graft : Injective link (graft m a i f t e) root n := by
  intro q r b hq hr hb hb'
  rcases descend_graft_cases h hp ha hf he ht hq hb with ⟨-, hb1⟩ | ⟨rfl, rfl⟩ <;>
    rcases descend_graft_cases h hp ha hf he ht hr hb' with ⟨-, hb2⟩ | ⟨rfl, hb2⟩
  · exact h q r b hq hr hb1 hb2
  · exact absurd (hb2 ▸ hb1) (hf q hq)
  · exact absurd hb2 (hf r hr)
  · rfl

end Graft

end Tree

/-! ## Typed tables -/

section Typed

variable {R : Type} {has : R → A → Prop} {child : R → I → R} {rank : R → Nat} {m m' : A → I → E}

/-- The roles along a path: where the tables of a typed memory are reached. -/
theorem descend_role (hrank : ∀ r i, 1 < rank r → rank (child r i) + 1 = rank r)
    (linked : ∀ r a i b, 1 < rank r → has r a → link (m a i) = some b → has (child r i) b)
    {q : List I} {r : R} {a b : A} (ha : has r a) (hq : q.length < rank r)
    (hb : descend link m a q = some b) : has (q.foldl child r) b := by
  induction q generalizing r a with
  | nil => obtain rfl := Option.some.inj hb; exact ha
  | cons i q ih =>
    obtain ⟨c, hc, hb⟩ := Option.bind_eq_some_iff.mp hb
    rw [List.length_cons] at hq
    have h1 : 1 < rank r := by omega
    have := hrank r i h1
    exact ih (linked r a i c h1 ha hc) (by omega) hb

/-- **The frame rule.** If the tables of all roles in a class closed under
`child` are unchanged, so is every lookup that starts in the class. -/
theorem walk_eq_of_roles (hrank : ∀ r i, 1 < rank r → rank (child r i) + 1 = rank r)
    (linked : ∀ r a i b, 1 < rank r → has r a → link (m a i) = some b → has (child r i) b)
    {C : R → Prop} (closed : ∀ r i, C r → 1 < rank r → C (child r i))
    (same : ∀ r a, C r → has r a → m' a = m a)
    {q : List I} {r : R} {a : A} (ha : has r a) (hC : C r) (hq : q.length ≤ rank r) :
    walk link m' a q = walk link m a q := by
  induction q generalizing r a with
  | nil => rfl
  | cons i q ih =>
    rw [walk, walk, same r a hC ha]
    rw [List.length_cons] at hq
    cases hl : link (m a i) with
    | none => rfl
    | some b =>
      simp only [Option.elim_some]
      cases q with
      | nil => rfl
      | cons j q =>
        rw [List.length_cons] at hq
        have h1 : 1 < rank r := by omega
        have := hrank r i h1
        rw [ih (linked r a i b h1 ha hl) (closed r i hC h1) (by rw [List.length_cons]; omega)]

end Typed

end MicroNT.Base.Radix
