import Mathlib.Data.List.Basic

/-!
# OpenSips.Lib.First — the first position that a predicate holds at

In a text, of the rest behind the position; and from a position on.  A scan that looks at the first such position, hops
a fixed distance behind it and goes on from there looks at some of them only.
-/

namespace OpenSips.Lib

open Option

variable {α : Type*} {p : List α → Bool} {s : List α} {i : ℕ}

def first (p : List α → Bool) : List α → Option ℕ
  | [] => none
  | c :: s => if p (c :: s) = true then some 0 else (first p s).map (· + 1)

theorem first_eq_some : first p s = some i ↔
    i < s.length ∧ p (s.drop i) = true ∧ ∀ j < i, p (s.drop j) = false := by
  induction s generalizing i with
  | nil => exact ⟨fun h => absurd h (by simp [first]), fun h => absurd h.1 (Nat.not_lt_zero i)⟩
  | cons c s ih =>
    rw [first]
    by_cases hc : p (c :: s) = true
    · rw [if_pos hc]
      constructor
      · intro h
        cases h
        exact ⟨Nat.succ_pos _, hc, fun j hj => absurd hj (Nat.not_lt_zero j)⟩
      · rintro ⟨-, -, hbefore⟩
        cases i with
        | zero => rfl
        | succ i => exact absurd hc (Bool.eq_false_iff.1 (hbefore 0 (Nat.succ_pos i)))
    · rw [if_neg hc, map_eq_some_iff]
      constructor
      · rintro ⟨k, hk, rfl⟩
        obtain ⟨hlt, hp, hbefore⟩ := ih.1 hk
        refine ⟨Nat.succ_lt_succ hlt, hp, fun j hj => ?_⟩
        cases j with
        | zero => exact Bool.eq_false_iff.2 hc
        | succ j => exact hbefore j (Nat.lt_of_succ_lt_succ hj)
      · rintro ⟨hlt, hp, hbefore⟩
        cases i with
        | zero => exact absurd hp hc
        | succ i =>
          exact ⟨i, ih.2 ⟨Nat.lt_of_succ_lt_succ hlt, hp, fun j hj => hbefore (j + 1) (Nat.succ_lt_succ hj)⟩, rfl⟩

theorem first_eq_none : first p s = none ↔ ∀ j < s.length, p (s.drop j) = false := by
  induction s with
  | nil => exact ⟨fun _ j hj => absurd hj (Nat.not_lt_zero j), fun _ => rfl⟩
  | cons c s ih =>
    rw [first]
    by_cases hc : p (c :: s) = true
    · rw [if_pos hc]
      exact ⟨fun h => absurd h (by simp), fun h => absurd hc (Bool.eq_false_iff.1 (h 0 (Nat.succ_pos _)))⟩
    · rw [if_neg hc, map_eq_none_iff, ih]
      constructor
      · intro h j hj
        cases j with
        | zero => exact Bool.eq_false_iff.2 hc
        | succ j => exact h j (Nat.lt_of_succ_lt_succ hj)
      · exact fun h j hj => h (j + 1) (Nat.succ_lt_succ hj)

section From

variable {P Q : ℕ → Prop} {c q q' hop : ℕ}

/-- The first position from `c` on. -/
structure FirstFrom (P : ℕ → Prop) (c q : ℕ) : Prop where
  le : c ≤ q
  holds : P q
  before : ∀ j, c ≤ j → j < q → ¬ P j

theorem FirstFrom.unique (h : FirstFrom P c q) (h' : FirstFrom P c q') : q = q' := by
  obtain hlt | heq | hgt := Nat.lt_trichotomy q q'
  · exact absurd h.holds (h'.before q h.le hlt)
  · exact heq
  · exact absurd h'.holds (h.before q' h'.le hgt)

theorem exists_firstFrom (hle : c ≤ q) (hq : P q) : ∃ p, FirstFrom P c p ∧ p ≤ q := by
  induction q using Nat.strongRecOn with
  | ind q ih =>
    by_cases h : ∃ j, c ≤ j ∧ j < q ∧ P j
    · obtain ⟨j, hcj, hj, hP⟩ := h
      obtain ⟨p, hp, hpj⟩ := ih j hj hcj hP
      exact ⟨p, hp, Nat.le_trans hpj (Nat.le_of_lt hj)⟩
    · exact ⟨q, ⟨hle, hq, fun j hcj hj hP => h ⟨j, hcj, hj, hP⟩⟩, Nat.le_refl q⟩

/-- What a scan looks at from `c` on. -/
inductive Looked (P : ℕ → Prop) (hop : ℕ) : ℕ → ℕ → Prop
  | here {c q : ℕ} (h : FirstFrom P c q) : Looked P hop c q
  | next {c q q' : ℕ} (h : FirstFrom P c q) (h' : Looked P hop (q + hop) q') : Looked P hop c q'

theorem Looked.le (h : Looked P hop c q) : c ≤ q := by
  induction h with
  | here h => exact h.le
  | next h _ ih => exact Nat.le_trans (Nat.le_trans h.le (Nat.le_add_right _ _)) ih

theorem Looked.holds (h : Looked P hop c q) : P q := by
  induction h with
  | here h => exact h.holds
  | next _ _ ih => exact ih

theorem looked_iff (h : FirstFrom P c q) : Looked P hop c q' ↔ q' = q ∨ Looked P hop (q + hop) q' := by
  constructor
  · intro h'
    cases h' with
    | here h' => exact .inl (h'.unique h)
    | next h' h'' => exact .inr (h'.unique h ▸ h'')
  · rintro (rfl | h')
    · exact .here h
    · exact .next h h'

theorem not_looked (h : ∀ j, c ≤ j → ¬ P j) : ¬ Looked P hop c q := fun h' => h q h'.le h'.holds

end From

end OpenSips.Lib
