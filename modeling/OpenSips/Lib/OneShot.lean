import Mathlib.Data.List.Induction
import Mathlib.Data.List.Nodup

/-!
# OpenSips.Lib.OneShot — registrations that are used once

What is registered under a key stays registered until it is used, and a use takes the registration away.
A history is proper when nothing is registered under a key that is taken, and only what is registered is
used.
-/

namespace OpenSips.Lib.OneShot

open List

variable {α κ : Type*} [DecidableEq κ] (key : α → κ)

/-- A registration, or the use of one. -/
inductive Event (α : Type*) where
  | register (a : α)
  | use (a : α)

/-- What is registered after one more event. -/
def after (standing : List α) : Event α → List α
  | .register a => standing ++ [a]
  | .use a => standing.filter (key · ≠ key a)

def standing (events : List (Event α)) : List α := events.foldl (after key) []

inductive Proper : List (Event α) → Prop where
  | nil : Proper []
  | register {events : List (Event α)} {a : α} (proper : Proper events)
      (free : key a ∉ (standing key events).map key) : Proper (events ++ [.register a])
  | use {events : List (Event α)} {a : α} (proper : Proper events)
      (mem : a ∈ standing key events) : Proper (events ++ [.use a])

def registered : List (Event α) → List α :=
  List.filterMap fun | .register a => some a | .use _ => none

def used : List (Event α) → List α :=
  List.filterMap fun | .register _ => none | .use a => some a

variable {key} {events : List (Event α)} {a : α}

@[simp] theorem standing_nil : standing key [] = [] := rfl

@[simp] theorem standing_register :
    standing key (events ++ [.register a]) = standing key events ++ [a] := by
  rw [standing, foldl_append]
  rfl

@[simp] theorem standing_use :
    standing key (events ++ [.use a]) = (standing key events).filter (key · ≠ key a) := by
  rw [standing, foldl_append]
  rfl

theorem Proper.nodup (h : Proper key events) : ((standing key events).map key).Nodup := by
  induction h with
  | nil => exact nodup_nil
  | register _ free ih =>
    rw [standing_register, map_append]
    refine nodup_append.2 ⟨ih, nodup_singleton _, ?_⟩
    rintro x hx y hy rfl
    rw [map_singleton, mem_singleton] at hy
    exact free (hy ▸ hx)
  | use _ _ ih =>
    rw [standing_use]
    exact ih.sublist (filter_sublist.map key)

theorem filter_eq_singleton {l : List α} (hl : (l.map key).Nodup) (ha : a ∈ l) :
    l.filter (key · = key a) = [a] := by
  induction l with
  | nil => cases ha
  | cons b l ih =>
    obtain ⟨hb, hl⟩ := nodup_cons.1 hl
    have hother : ∀ c ∈ l, key c ≠ key b := fun c hc he => hb (he ▸ List.mem_map_of_mem hc)
    rcases mem_cons.1 ha with rfl | ha
    · rw [filter_cons_of_pos (by simp), filter_eq_nil_iff.2 fun c hc => by
        simpa using hother c hc]
    · rw [filter_cons_of_neg (by simpa using (hother a ha).symm), ih hl ha]

/-- **The registrations under a key are used in order, each once**, and the one that is left stands. -/
theorem Proper.accounted (h : Proper key events) (k : κ) : (registered events).filter (key · = k) =
      (used events).filter (key · = k) ++ (standing key events).filter (key · = k) := by
  induction h with
  | nil => rfl
  | @register events a _ _ ih =>
    have hr : registered (events ++ [.register a]) = registered events ++ [a] := by
      rw [registered, filterMap_append]
      rfl
    have hu : used (events ++ [.register a]) = used events := by
      rw [used, filterMap_append]
      exact append_nil _
    rw [hr, hu, standing_register, filter_append, filter_append, ih, append_assoc]
  | @use events a proper mem ih =>
    have hr : registered (events ++ [.use a]) = registered events := by
      rw [registered, filterMap_append]
      exact append_nil _
    have hu : used (events ++ [.use a]) = used events ++ [a] := by
      rw [used, filterMap_append]
      rfl
    rw [hr, hu, standing_use, filter_append, ih, append_assoc, List.filter_filter]
    congr 1
    by_cases hk : key a = k
    · subst hk
      have hnone : (standing key events).filter (fun b => key b = key a && key b ≠ key a) = [] := by
        simp
      rw [filter_eq_singleton proper.nodup mem, hnone, filter_cons_of_pos (by simp)]
      rfl
    · rw [filter_cons_of_neg (by simpa using hk), filter_nil, nil_append]
      refine filter_congr fun b _ => ?_
      by_cases hb : key b = k
      · simp [hb, Ne.symm hk]
      · simp [hb]

theorem standing_uses (events : List (Event α)) (l : List α) : standing key (events ++ l.map .use) =
      (standing key events).filter (key · ∉ l.map key) := by
  induction l using List.reverseRecOn with
  | nil =>
    rw [map_nil, append_nil, eq_comm, filter_eq_self]
    intro b _
    simp
  | append_singleton l a ih =>
    rw [map_append, map_singleton, ← append_assoc, standing_use, ih, List.filter_filter]
    refine filter_congr fun b _ => ?_
    simp only [map_append, map_singleton, mem_append, mem_singleton, not_or,
      Bool.decide_and, ne_eq, Bool.and_comm]

theorem Proper.of_use (h : Proper key (events ++ [.use a])) :
    Proper key events ∧ a ∈ standing key events := by
  generalize hE : events ++ [Event.use a] = E at h
  cases h with
  | nil => exact absurd hE (append_ne_nil_of_right_ne_nil _ (cons_ne_nil _ _))
  | register _ _ => cases (cons.inj (append_inj' hE rfl).2).1
  | use proper mem =>
    obtain ⟨rfl, ha⟩ := append_inj' hE rfl
    cases (cons.inj ha).1
    exact ⟨proper, mem⟩

theorem Proper.uses {l : List α} (h : Proper key (events ++ l.map .use)) :
    l.Perm ((standing key events).filter (key · ∈ l.map key)) := by
  induction l using List.reverseRecOn with
  | nil =>
    rw [filter_eq_nil_iff.2 fun b _ => by simp]
  | append_singleton l a ih =>
    rw [map_append, map_singleton, ← append_assoc] at h
    obtain ⟨hl, hmem⟩ := h.of_use
    have hnd := hl.nodup
    rw [standing_uses] at hmem hnd
    have hsplit : ((standing key events).filter (key · ∈ (l ++ [a]).map key)).Perm
        ((standing key events).filter (key · ∈ l.map key) ++
          ((standing key events).filter (key · ∉ l.map key)).filter (key · = key a)) := by
      refine (filter_append_perm (key · ∈ l.map key) _).symm.trans (Perm.of_eq ?_)
      have hkey : ∀ b, key b ∈ (l ++ [a]).map key ↔ key b ∈ l.map key ∨ key b = key a := fun b => by
        rw [map_append, mem_append, map_singleton, mem_singleton]
      simp only [List.filter_filter, hkey]
      congr 1 <;> refine filter_congr fun b _ => ?_ <;>
        by_cases hb : key b ∈ l.map key <;> simp only [hb, true_or, false_or, decide_true, decide_false,
          Bool.and_true, Bool.and_false, Bool.not_true, Bool.not_false, Bool.true_and, Bool.false_and,
          not_true_eq_false, not_false_eq_true]
    refine Perm.trans ?_ hsplit.symm
    rw [filter_eq_singleton hnd hmem]
    exact (ih hl).append_right _

theorem Proper.standing_le (h : Proper key events) (k : κ) :
    ((standing key events).filter (key · = k)).length ≤ 1 := by
  by_cases hk : ∃ a ∈ standing key events, key a = k
  · obtain ⟨a, ha, rfl⟩ := hk
    rw [filter_eq_singleton h.nodup ha]
    exact Nat.le_refl _
  · rw [filter_eq_nil_iff.2 fun b hb hbk => hk ⟨b, hb, by simpa using hbk⟩]
    exact Nat.zero_le _

end OpenSips.Lib.OneShot
