import OpenSips.Lib.Machine
import Mathlib.Algebra.BigOperators.Group.Multiset.Basic
import Mathlib.Algebra.Order.BigOperators.Group.Multiset
import Mathlib.Algebra.Order.Ring.Nat

/-!
# OpenSips.Lib.Threads — threads at program points over shared memory

A pool is the shared memory with the program points its threads are at; a task that waits for a
thread is a thread at its first point.  One atomic turn of a thread may change the memory and
leaves the points of the thread, if it goes on, and of those it starts.  Invariants count points:
`weigh f` adds up a weight over the threads.
-/

namespace OpenSips.Lib

open Option

variable {σ π α ω : Type*}

structure Pool (σ π : Type*) where
  shared : σ
  threads : Multiset π

/-- A thread takes a turn, or something happens outside of all threads. -/
inductive Turn (π α ω : Type*) where
  | thread (pc : π) (answer : α)
  | event (e : ω)

/-- The next turn of a pool: `turn` says what a thread does, given what the environment answers it,
`event` what happens outside. -/
def Pool.exec [DecidableEq π] (turn : σ → π → α → Option (σ × List π))
    (event : σ → ω → Option (σ × List π)) (s : Pool σ π) : Turn π α ω → Option (Pool σ π × Unit)
  | .thread pc a =>
    if pc ∈ s.threads then
      (turn s.shared pc a).map fun r => (⟨r.1, s.threads.erase pc + r.2⟩, ())
    else none
  | .event e => (event s.shared e).map fun r => (⟨r.1, s.threads + r.2⟩, ())

def weigh (f : π → ℕ) (threads : Multiset π) : ℕ := (threads.map f).sum

@[simp] theorem weigh_zero (f : π → ℕ) : weigh f 0 = 0 := rfl

@[simp] theorem weigh_cons (f : π → ℕ) (pc : π) (T : Multiset π) :
    weigh f (pc ::ₘ T) = f pc + weigh f T := by
  rw [weigh, Multiset.map_cons, Multiset.sum_cons, weigh]

@[simp] theorem weigh_singleton (f : π → ℕ) (pc : π) : weigh f {pc} = f pc := by
  rw [weigh, Multiset.map_singleton, Multiset.sum_singleton]

@[simp] theorem weigh_add (f : π → ℕ) (S T : Multiset π) : weigh f (S + T) = weigh f S + weigh f T := by
  rw [weigh, Multiset.map_add, Multiset.sum_add, weigh, weigh]

@[simp] theorem weigh_coe (f : π → ℕ) (l : List π) : weigh f (l : Multiset π) = (l.map f).sum := by
  rw [weigh, Multiset.map_coe, Multiset.sum_coe]

theorem weigh_le {f g : π → ℕ} (h : ∀ pc, f pc ≤ g pc) (T : Multiset π) : weigh f T ≤ weigh g T :=
  Multiset.sum_map_le_sum_map f g fun pc _ => h pc

theorem le_weigh {f : π → ℕ} {pc : π} {T : Multiset π} (h : pc ∈ T) : f pc ≤ weigh f T := by
  obtain ⟨S, rfl⟩ := Multiset.exists_cons_of_mem h
  rw [weigh_cons]
  exact Nat.le_add_right _ _

theorem weigh_eq_zero {f : π → ℕ} {T : Multiset π} (h : ∀ pc ∈ T, f pc = 0) : weigh f T = 0 := by
  induction T using Multiset.induction with
  | empty => rfl
  | cons pc T ih =>
    rw [weigh_cons, h pc (Multiset.mem_cons_self _ _), ih fun p hp => h p (Multiset.mem_cons_of_mem hp)]

variable {turn : σ → π → α → Option (σ × List π)} {event : σ → ω → Option (σ × List π)}

/-- **What a turn can be.** -/
theorem Pool.exec_cases [DecidableEq π] {s s' : Pool σ π} {op : Turn π α ω} {u : Unit}
    (h : s.exec turn event op = some (s', u)) :
    ∃ c' new T, s' = ⟨c', T + (new : List π)⟩ ∧ ((∃ pc a, op = .thread pc a ∧ s.threads = pc ::ₘ T ∧
          turn s.shared pc a = some (c', new)) ∨
        ∃ e, op = .event e ∧ s.threads = T ∧ event s.shared e = some (c', new)) := by
  cases op with
  | thread pc a =>
    rw [Pool.exec] at h
    by_cases hm : pc ∈ s.threads
    · rw [if_pos hm] at h
      obtain ⟨⟨c', new⟩, hr, e⟩ := map_eq_some_iff.1 h
      cases e
      exact ⟨c', new, s.threads.erase pc, rfl, .inl ⟨pc, a, rfl, (Multiset.cons_erase hm).symm, hr⟩⟩
    · rw [if_neg hm] at h
      exact absurd h (by simp)
  | event e =>
    rw [Pool.exec] at h
    obtain ⟨⟨c', new⟩, hr, e'⟩ := map_eq_some_iff.1 h
    cases e'
    exact ⟨c', new, s.threads, rfl, .inr ⟨e, rfl, rfl, hr⟩⟩

def Pool.replay [DecidableEq π] (turn : σ → π → α → Option (σ × List π))
    (event : σ → ω → Option (σ × List π)) (allowed : Pool σ π → Turn π α ω → Prop)
    [∀ s op, Decidable (allowed s op)] : Pool σ π → List (Turn π α ω) → Option (Pool σ π)
  | s, [] => some s
  | s, op :: ops =>
    if allowed s op then (s.exec turn event op).bind fun r => r.1.replay turn event allowed ops
    else none

theorem Pool.run_replay [DecidableEq π] {allowed : Pool σ π → Turn π α ω → Prop}
    [∀ s op, Decidable (allowed s op)] {init s s' : Pool σ π} {ops : List (Turn π α ω)}
    (hr : Run (Pool.exec turn event) (fun s _ op => allowed s op) (fun _ _ _ _ => ()) (init, ()) s ())
    (h : s.replay turn event allowed ops = some s') :
    Run (Pool.exec turn event) (fun s _ op => allowed s op) (fun _ _ _ _ => ()) (init, ()) s' () := by
  induction ops generalizing s with
  | nil =>
    cases h
    exact hr
  | cons op ops ih =>
    rw [Pool.replay] at h
    by_cases ha : allowed s op
    · rw [if_pos ha] at h
      obtain ⟨⟨s1, u⟩, e, h⟩ := bind_eq_some_iff.1 h
      exact ih (.step hr ha e) h
    · rw [if_neg ha] at h
      exact absurd h (by simp)

theorem Pool.invariant [DecidableEq π] {allowed : Pool σ π → Unit → Turn π α ω → Prop}
    {init s : Pool σ π} {I : σ → Multiset π → Prop} (h0 : I init.shared init.threads)
    (ht : ∀ c c' T pc a new, I c (pc ::ₘ T) → allowed ⟨c, pc ::ₘ T⟩ () (.thread pc a) →
      turn c pc a = some (c', new) → I c' (T + (new : List π)))
    (he : ∀ c c' T e new, I c T → allowed ⟨c, T⟩ () (.event e) → event c e = some (c', new) →
      I c' (T + (new : List π)))
    (hr : Run (Pool.exec turn event) allowed (fun _ _ _ _ => ()) (init, ()) s ()) :
    I s.shared s.threads := by
  refine hr.invariant (I := fun s _ => I s.shared s.threads) h0 fun s _ op s' r hI ok eq => ?_
  obtain ⟨c, T⟩ := s
  obtain ⟨c', new, T', rfl, ⟨pc, a, rfl, hT, e⟩ | ⟨ev, rfl, hT, e⟩⟩ := Pool.exec_cases eq
  · obtain rfl : T = pc ::ₘ T' := hT
    exact ht c c' T' pc a new hI ok e
  · obtain rfl : T = T' := hT
    exact he c c' T ev new hI ok e

end OpenSips.Lib
