import Mathlib.Data.List.GetD
import Mathlib.Data.Set.Function
import Mathlib.Order.Interval.Set.Basic

/-!
# OpenSips.Lib.Bytes — a memory of bytes

`write` puts a list at an address and `read` takes one from there.  Two memories agree on a set of
addresses by `Set.EqOn`, which is how it is said what a write leaves alone.
-/

namespace OpenSips.Lib

open List

variable {β : Type*} {m m' : ℕ → β} {a b n k : ℕ} {xs ys : List β}

/-- The memory with `xs` at `a`. -/
def write (m : ℕ → β) (a : ℕ) (xs : List β) : ℕ → β :=
  fun i => if a ≤ i then xs.getD (i - a) (m i) else m i

/-- The `n` bytes from `a` on. -/
def read (m : ℕ → β) (a n : ℕ) : List β := (List.range' a n).map m

theorem write_outside {i : ℕ} (h : i < a ∨ a + xs.length ≤ i) : write m a xs i = m i := by
  unfold write
  split_ifs with ha
  · rw [getD_eq_default]
    omega
  · rfl

theorem write_inside {i : ℕ} (h : i < xs.length) : write m a xs (a + i) = xs[i] := by
  unfold write
  rw [if_pos (Nat.le_add_right a i), Nat.add_sub_cancel_left, getD_eq_getElem _ _ h]

@[simp] theorem write_nil : write m a [] = m := by
  ext i
  exact write_outside (by rw [length_nil]; omega)

@[simp] theorem length_read : (read m a n).length = n := by
  rw [read, length_map, length_range']

@[simp] theorem read_zero : read m a 0 = [] := rfl

theorem read_get {i : ℕ} (h : i < n) : (read m a n)[i]? = some (m (a + i)) := by
  rw [read, getElem?_map, getElem?_range' h]
  simp

theorem read_append : read m a (n + k) = read m a n ++ read m (a + n) k := by
  have h := @range'_append a n k 1
  rw [Nat.one_mul] at h
  rw [read, read, read, ← map_append, h]

theorem read_congr (h : Set.EqOn m m' (Set.Ico a (a + n))) : read m a n = read m' a n := by
  apply map_congr_left
  intro i hi
  obtain ⟨h1, h2⟩ := mem_range'_1.1 hi
  exact h ⟨h1, h2⟩

theorem read_write : read (write m a xs) a xs.length = xs := by
  apply ext_getElem
  · exact length_read
  · intro i h1 h2
    rw [length_read] at h1
    rw [← Option.some_inj, ← getElem?_eq_getElem, read_get h1, write_inside h1]

theorem read_write_of_disjoint (h : b + n ≤ a ∨ a + xs.length ≤ b) :
    read (write m a xs) b n = read m b n := by
  apply read_congr
  intro i hi
  obtain ⟨h1, h2⟩ := hi
  exact write_outside (by omega)

end OpenSips.Lib
