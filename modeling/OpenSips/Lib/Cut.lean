import Mathlib.Data.List.TakeWhile

/-!
# OpenSips.Lib.Cut — texts cut where a predicate ends

`Cut p s x y` says that `s` is `x` followed by `y` and that `x` is as much of `s` as `p` holds of.
-/

namespace OpenSips.Lib

open List Option

variable {α : Type*} {p : α → Bool} {s x y x' y' : List α} {c : α}

structure Cut (p : α → Bool) (s x y : List α) : Prop where
  eq : s = x ++ y
  all : ∀ c ∈ x, p c = true
  stop : ∀ c ∈ y.head?, p c = false

theorem cut_takeWhile (p : α → Bool) (s : List α) : Cut p s (s.takeWhile p) (s.dropWhile p) := by
  refine ⟨takeWhile_append_dropWhile.symm, fun c hc => mem_takeWhile_imp hc, ?_⟩
  induction s with
  | nil => exact fun c hc => absurd hc (by simp)
  | cons a s ih =>
    by_cases ha : p a = true
    · rw [dropWhile_cons_of_pos ha]
      exact ih
    · rw [dropWhile_cons_of_neg ha]
      intro c hc
      cases hc
      exact Bool.eq_false_iff.2 ha

theorem Cut.takeWhile_eq (h : Cut p s x y) : s.takeWhile p = x ∧ s.dropWhile p = y := by
  obtain ⟨rfl, hall, hstop⟩ := h
  rw [takeWhile_append_of_pos hall, dropWhile_append_of_pos hall]
  cases y with
  | nil => exact ⟨append_nil x, rfl⟩
  | cons c y =>
    have hc : ¬ p c = true := Bool.eq_false_iff.1 (hstop c rfl)
    rw [takeWhile_cons_of_neg hc, dropWhile_cons_of_neg hc]
    exact ⟨append_nil x, rfl⟩

theorem drop_takeWhile (p : α → Bool) (s : List α) : s.drop (s.takeWhile p).length = s.dropWhile p := by
  have h : (s.takeWhile p ++ s.dropWhile p).drop (s.takeWhile p).length = s.dropWhile p := drop_left
  rwa [takeWhile_append_dropWhile] at h

theorem cut_cons (hx : ∀ a ∈ x, p a = true) (hc : p c = false) : Cut p (x ++ c :: y) x (c :: y) := by
  refine ⟨rfl, hx, fun a ha => ?_⟩
  cases ha
  exact hc

/-- `p` holds of all of a text, or there is the first element that it does not hold of. -/
theorem cut_cases (p : α → Bool) (s : List α) :
    (∀ c ∈ s, p c = true) ∨ ∃ x c y, s = x ++ c :: y ∧ (∀ a ∈ x, p a = true) ∧ p c = false := by
  obtain ⟨heq, hall, hstop⟩ := cut_takeWhile p s
  cases hd : s.dropWhile p with
  | nil =>
    rw [hd, append_nil] at heq
    rw [← heq] at hall
    exact .inl hall
  | cons c y =>
    rw [hd] at heq hstop
    exact .inr ⟨_, c, y, heq, hall, hstop c rfl⟩

end OpenSips.Lib
