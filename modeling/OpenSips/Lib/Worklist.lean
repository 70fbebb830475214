import Mathlib.Order.WellFounded

/-!
# OpenSips.Lib.Worklist — a list whose head is replaced by lesser work

A step takes the head of the list away and puts finitely many smaller tasks in its place.
-/

namespace OpenSips.Lib

variable {α : Type*} {lt : α → α → Prop}

/-- The head is replaced by smaller tasks; the smaller list comes first. -/
inductive Replaced (lt : α → α → Prop) : List α → List α → Prop where
  | intro (w : α) (new rest : List α) (h : ∀ x ∈ new, lt x w) : Replaced lt (new ++ rest) (w :: rest)

theorem acc_append {new rest : List α} (hrest : Acc (Replaced lt) rest)
    (hnew : ∀ x ∈ new, ∀ rest, Acc (Replaced lt) rest → Acc (Replaced lt) (x :: rest)) :
    Acc (Replaced lt) (new ++ rest) := by
  induction new with
  | nil => exact hrest
  | cons x new ih =>
    exact hnew x List.mem_cons_self _ (ih fun y hy => hnew y (List.mem_cons_of_mem _ hy))

/-- **The work ends**, whatever it is replaced by. -/
theorem replaced_wellFounded (h : WellFounded lt) : WellFounded (Replaced lt) := by
  have hcons : ∀ w rest, Acc (Replaced lt) rest → Acc (Replaced lt) (w :: rest) := by
    intro w
    induction w using h.induction with
    | _ w ih =>
      intro rest hrest
      refine ⟨_, fun l hl => ?_⟩
      cases hl with
      | intro w new rest hlt => exact acc_append hrest fun x hx => ih x (hlt x hx)
  refine ⟨fun l => ?_⟩
  induction l with
  | nil => exact ⟨_, fun l hl => by cases hl⟩
  | cons w rest ih => exact hcons w rest ih

section Progress

variable {σ : Type*} {r : α → α → Prop}

/-- What never grows in a run and shrinks whenever something happens, which happens again and again,
gets the run where `done` holds. -/
theorem eventually_of_rank (hwf : WellFounded r) (run : ℕ → σ) (rank : σ → α → Prop)
    (acts : ℕ → Prop) (done : σ → Prop) (hacts : ∀ n a, rank (run n) a → ∃ m, n ≤ m ∧ acts m)
    (hstep : ∀ n a, ¬ done (run n) → rank (run n) a →
      done (run (n + 1)) ∨ ∃ a', rank (run (n + 1)) a' ∧ (a' = a ∨ r a' a) ∧ (acts n → r a' a))
    {n : ℕ} {a : α} (ha : rank (run n) a) : ∃ m, n ≤ m ∧ done (run m) := by
  induction a using hwf.induction generalizing n with
  | _ a ih =>
    obtain ⟨m, hm, hact⟩ := hacts n a ha
    -- up to the next act the rank stays, or the induction hypothesis applies
    obtain ⟨k, rfl⟩ := Nat.exists_eq_add_of_le hm
    induction k generalizing n with
    | zero =>
      by_cases hd : done (run n)
      · exact ⟨n, Nat.le_refl _, hd⟩
      · rcases hstep n a hd ha with hd | ⟨a', ha', -, hr⟩
        · exact ⟨n + 1, Nat.le_succ _, hd⟩
        · obtain ⟨m, hm, hd⟩ := ih a' (hr hact) ha'
          exact ⟨m, Nat.le_trans (Nat.le_succ _) hm, hd⟩
    | succ k ihk =>
      by_cases hd : done (run n)
      · exact ⟨n, Nat.le_refl _, hd⟩
      · rcases hstep n a hd ha with hd | ⟨a', ha', rfl | hr, -⟩
        · exact ⟨n + 1, Nat.le_succ _, hd⟩
        · obtain ⟨m, hm, hd⟩ := ihk ha' (Nat.le_add_right _ _)
            (by rw [Nat.add_right_comm, Nat.add_assoc]; exact hact)
          exact ⟨m, Nat.le_trans (Nat.le_succ _) hm, hd⟩
        · obtain ⟨m, hm, hd⟩ := ih a' hr ha'
          exact ⟨m, Nat.le_trans (Nat.le_succ _) hm, hd⟩

end Progress

end OpenSips.Lib
