import Mathlib.Data.List.Basic

/-!
# OpenSips.Lib.Decision — trees of tests that move forward

A tree asks a test at its position, or moves on by some places, until it is done.  What it may come to is
listed from what is known of the tests; a run ends at one of these, and the tests noted there were passed.
-/

namespace OpenSips.Lib.Decision

open List

variable {κ ω : Type*}

inductive Tree (κ ω : Type*) where
  | done (o : ω)
  | test (k : κ) (yes no : Tree κ ω)
  | skip (n : ℕ) (t : Tree κ ω)

/-- Where it is done, and at which position. -/
def run (holds : κ → ℕ → Bool) : Tree κ ω → ℕ → ω × ℕ
  | .done o, p => (o, p)
  | .test k yes no, p => if holds k p then run holds yes p else run holds no p
  | .skip n t, p => run holds t (p + n)

/-- The end of a branch: the tests that were passed on the way, the last one first. -/
structure Leaf (κ ω : Type*) where
  passed : List (κ × ℕ)
  out : ω
  stop : ℕ

def leaves (known : κ → ℕ → Option Bool) : Tree κ ω → ℕ → List (κ × ℕ) → List (Leaf κ ω)
  | .done o, p, passed => [⟨passed, o, p⟩]
  | .test k yes no, p, passed =>
    match known k p with
    | some true => leaves known yes p ((k, p) :: passed)
    | some false => leaves known no p passed
    | none => leaves known yes p ((k, p) :: passed) ++ leaves known no p passed
  | .skip n t, p, passed => leaves known t (p + n) passed

/-- **A run ends at a leaf**, having passed its tests. -/
theorem run_leaf (holds : κ → ℕ → Bool) (known : κ → ℕ → Option Bool)
    (hknown : ∀ k p b, known k p = some b → holds k p = b) (t : Tree κ ω) (p : ℕ) (passed : List (κ × ℕ))
    (hpassed : ∀ x ∈ passed, holds x.1 x.2 = true) :
    ∃ l ∈ leaves known t p passed, run holds t p = (l.out, l.stop) ∧ ∀ x ∈ l.passed, holds x.1 x.2 = true := by
  induction t generalizing p passed with
  | done o => exact ⟨⟨passed, o, p⟩, mem_singleton_self _, rfl, hpassed⟩
  | skip n t ih => exact ih (p + n) _ hpassed
  | test k yes no ihy ihn =>
    have hcons : holds k p = true → ∀ x ∈ (k, p) :: passed, holds x.1 x.2 = true := fun hk =>
      forall_mem_cons.2 ⟨hk, hpassed⟩
    rw [run, leaves]
    cases hk : holds k p with
    | true =>
      obtain ⟨l, hl, hrun⟩ := ihy p _ (hcons hk)
      refine ⟨l, ?_, hrun⟩
      cases hb : known k p with
      | none => exact mem_append_left _ hl
      | some b =>
        obtain rfl : b = true := (hknown k p b hb).symm.trans hk
        exact hl
    | false =>
      obtain ⟨l, hl, hrun⟩ := ihn p _ hpassed
      refine ⟨l, ?_, hrun⟩
      cases hb : known k p with
      | none => exact mem_append_right _ hl
      | some b =>
        obtain rfl : b = false := (hknown k p b hb).symm.trans hk
        exact hl

end OpenSips.Lib.Decision
