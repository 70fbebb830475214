import OpenSips.Lib.Bytes
import Mathlib.Algebra.GroupWithZero.Nat
import Mathlib.Algebra.Group.Int.Defs

/-!
# OpenSips.Lib.Words — numbers in a memory of bytes

A number of `k` bytes is stored with its lowest byte first.
-/

namespace OpenSips.Lib

open List

variable {m : ℕ → UInt8} {a b j k n : ℕ} {bs : List UInt8}

/-- The lowest `k` bytes of a number. -/
def word : ℕ → ℕ → List UInt8
  | 0, _ => []
  | k + 1, n => UInt8.ofNat n :: word k (n / 256)

/-- The number that bytes stand for. -/
def value : List UInt8 → ℕ
  | [] => 0
  | b :: bs => b.toNat + 256 * value bs

def store (m : ℕ → UInt8) (a k n : ℕ) : ℕ → UInt8 := write m a (word k n)

def load (m : ℕ → UInt8) (a k : ℕ) : ℕ := value (read m a k)

@[simp] theorem length_word (k n : ℕ) : (word k n).length = k := by
  induction k generalizing n with
  | zero => rfl
  | succ k ih => rw [word, length_cons, ih]

theorem value_word (k n : ℕ) : value (word k n) = n % 256 ^ k := by
  induction k generalizing n with
  | zero => rw [word, value, Nat.pow_zero, Nat.mod_one]
  | succ k ih =>
    have hlow : (UInt8.ofNat n).toNat = n % 256 := UInt8.toNat_ofNat'
    rw [word, value, ih, hlow, Nat.pow_succ', Nat.mod_mul]

theorem take_word (h : j ≤ k) : (word k n).take j = word j n := by
  induction j generalizing k n with
  | zero => rfl
  | succ j ih =>
    obtain ⟨k, rfl⟩ := Nat.exists_eq_add_of_le' (lt_of_lt_of_le (Nat.succ_pos j) h)
    rw [word, take_succ_cons, ih (Nat.le_of_succ_le_succ h), word]

theorem store_outside (h : b < a ∨ a + k ≤ b) : store m a k n b = m b :=
  write_outside (by rwa [length_word])

theorem load_store_low (h : j ≤ k) : load (store m a k n) a j = n % 256 ^ j := by
  have hall : read (store m a k n) a k = word k n := by
    have hr := @read_write _ m a (word k n)
    rwa [length_word] at hr
  obtain ⟨d, rfl⟩ := Nat.exists_eq_add_of_le h
  rw [read_append] at hall
  have hlow := congrArg (List.take j) hall
  rw [take_word h, take_left' length_read] at hlow
  rw [load, hlow, value_word]

theorem load_store (m : ℕ → UInt8) (a k n : ℕ) : load (store m a k n) a k = n % 256 ^ k :=
  load_store_low (Nat.le_refl k)

theorem load_store_of_disjoint (h : b + j ≤ a ∨ a + k ≤ b) : load (store m a k n) b j = load m b j := by
  rw [load, store, read_write_of_disjoint (by rwa [length_word])]
  rfl

theorem store_store (m : ℕ → UInt8) (a k n n' : ℕ) : store (store m a k n) a k n' = store m a k n' := by
  funext i
  by_cases h : i < a ∨ a + k ≤ i
  · rw [store_outside h, store_outside h, store_outside h]
  · obtain ⟨d, rfl⟩ := Nat.exists_eq_add_of_le (le_of_not_gt fun hlt => h (.inl hlt))
    have hd : d < (word k n').length := by
      rw [length_word]
      omega
    exact (write_inside hd).trans (write_inside hd).symm

end OpenSips.Lib
