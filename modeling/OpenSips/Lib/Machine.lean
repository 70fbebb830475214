import Mathlib.Data.Nat.Notation

/-!
# OpenSips.Lib.Machine — runs of a component, watched by an abstract state

A component is a function `exec` from a state and an operation to the next state and a result, or
to a fault (`none`).  An observer's state is updated beside it and says what the run should have
achieved; what a client may do next can depend on both.
-/

namespace OpenSips.Lib

variable {σ ω ρ γ : Type*}

/-- The pairs of component and observer state that runs from `init` reach. -/
inductive Run (exec : σ → ω → Option (σ × ρ)) (allowed : σ → γ → ω → Prop) (next : σ → γ → ω → ρ → γ)
    (init : σ × γ) : σ → γ → Prop where
  | init : Run exec allowed next init init.1 init.2
  | step {s s' : σ} {g : γ} {op : ω} {r : ρ} (run : Run exec allowed next init s g)
      (ok : allowed s g op) (eq : exec s op = some (s', r)) :
      Run exec allowed next init s' (next s g op r)

variable {exec : σ → ω → Option (σ × ρ)} {allowed : σ → γ → ω → Prop} {next : σ → γ → ω → ρ → γ}
  {init : σ × γ}

theorem Run.invariant {I : σ → γ → Prop} (h0 : I init.1 init.2)
    (hs : ∀ s g op s' r, I s g → allowed s g op → exec s op = some (s', r) → I s' (next s g op r))
    {s : σ} {g : γ} (hr : Run exec allowed next init s g) : I s g := by
  induction hr with
  | init => exact h0
  | step _ ok eq ih => exact hs _ _ _ _ _ ih ok eq

theorem Run.mono {allowed' : σ → γ → ω → Prop} (ha : ∀ s g op, allowed s g op → allowed' s g op) {s : σ}
    {g : γ} (hr : Run exec allowed next init s g) : Run exec allowed' next init s g := by
  induction hr with
  | init => exact .init
  | step _ ok eq ih => exact .step ih (ha _ _ _ ok) eq

theorem Run.append {s s' : σ} {g g' : γ} (hr : Run exec allowed next init s g)
    (hr' : Run exec allowed next (s, g) s' g') : Run exec allowed next init s' g' := by
  induction hr' with
  | init => exact hr
  | step _ ok eq ih => exact .step ih ok eq

/-- The form used when every step is described by a total specification: each allowed operation
succeeds, and its only outcome keeps the invariant and satisfies `Q`. -/
theorem Run.total {I : σ → γ → Prop} {Q : σ → γ → ω → σ → ρ → Prop} (h0 : I init.1 init.2)
    (hs : ∀ s g op, I s g → allowed s g op →
      ∃ s' r, exec s op = some (s', r) ∧ I s' (next s g op r) ∧ Q s g op s' r)
    {s : σ} {g : γ} (hr : Run exec allowed next init s g) :
    I s g ∧ ∀ op, allowed s g op → ∃ s' r, exec s op = some (s', r) ∧ Q s g op s' r := by
  have hi : I s g := by
    refine hr.invariant h0 fun s g op s' r hI ok eq => ?_
    obtain ⟨s1, r1, e1, i1, -⟩ := hs s g op hI ok
    rw [eq] at e1
    cases e1
    exact i1
  refine ⟨hi, fun op ok => ?_⟩
  obtain ⟨s', r, e, -, q⟩ := hs s g op hi ok
  exact ⟨s', r, e, q⟩

/-- The operations `ops` one after the other, as long as each is allowed and does not fault. -/
def steps (exec : σ → ω → Option (σ × ρ)) (allowed : σ → γ → ω → Prop)
    [∀ s g op, Decidable (allowed s g op)] (next : σ → γ → ω → ρ → γ) :
    σ × γ → List ω → Option (σ × γ)
  | sg, [] => some sg
  | (s, g), op :: ops =>
    if allowed s g op then
      match exec s op with
      | none => none
      | some (s', r) => steps exec allowed next (s', next s g op r) ops
    else none

theorem Run.of_steps [∀ s g op, Decidable (allowed s g op)] {ops : List ω} {sg : σ × γ}
    (h : steps exec allowed next init ops = some sg) : Run exec allowed next init sg.1 sg.2 := by
  induction ops generalizing init with
  | nil =>
    cases h
    exact .init
  | cons op ops ih =>
    rw [steps] at h
    by_cases ha : allowed init.1 init.2 op
    · rw [if_pos ha] at h
      cases he : exec init.1 op with
      | none =>
        rw [he] at h
        exact absurd h (by simp)
      | some q =>
        obtain ⟨s', r⟩ := q
        rw [he] at h
        exact (Run.step .init ha he).append (ih h)
    · rw [if_neg ha] at h
      exact absurd h (by simp)

structure Forever (exec : σ → ω → Option (σ × ρ)) (allowed : σ → ω → Prop) (run : ℕ → σ) (ops : ℕ → ω)
    (results : ℕ → ρ) : Prop where
  ok : ∀ n, allowed (run n) (ops n)
  eq : ∀ n, exec (run n) (ops n) = some (run (n + 1), results n)

theorem Forever.invariant {allowed : σ → ω → Prop} {run : ℕ → σ} {ops : ℕ → ω} {results : ℕ → ρ}
    {I : σ → Prop} (h : Forever exec allowed run ops results) (h0 : I (run 0))
    (hs : ∀ s op s' r, I s → allowed s op → exec s op = some (s', r) → I s') (n : ℕ) : I (run n) := by
  induction n with
  | zero => exact h0
  | succ n ih => exact hs _ _ _ _ ih (h.ok n) (h.eq n)

end OpenSips.Lib
