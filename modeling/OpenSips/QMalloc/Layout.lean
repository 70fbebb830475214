import OpenSips.QMalloc.Model
import Mathlib.Data.Nat.Log
import Mathlib.Algebra.Order.Group.Nat

/-!
# OpenSips.QMalloc.Layout — sizes, offsets and buckets

The numbers of the two builds, rounding, and the bucket function: `GET_HASH` is monotone and stays
below `QM_HASH_SIZE`, which is what makes the upward search of `qm_find_free` complete.
-/

namespace OpenSips.QMalloc

variable (b : Build)

theorem consts : (b.dbg = true ∧ ROUNDTO b = 8 ∧ sizeof_frag b = 48 ∧ sizeof_frag_end b = 48 ∧
      end_size b = 32 ∧ end_prev b = 40 ∧ FRAG_OVERHEAD b = 96) ∨
    (b.dbg = false ∧ ROUNDTO b = 16 ∧ sizeof_frag b = 16 ∧ sizeof_frag_end b = 16 ∧
      end_size b = 0 ∧ end_prev b = 8 ∧ FRAG_OVERHEAD b = 32) := by
  cases h : b.dbg
  · right; simp [ROUNDTO, sizeof_frag, sizeof_frag_end, end_size, end_prev, FRAG_OVERHEAD, h]
  · left; simp [ROUNDTO, sizeof_frag, sizeof_frag_end, end_size, end_prev, FRAG_OVERHEAD, h]

theorem offsets : 16 ≤ sizeof_frag b ∧ sizeof_frag_end b = sizeof_frag b ∧ end_prev b = end_size b + 8 ∧
      end_prev b + 8 ≤ sizeof_frag_end b ∧ FRAG_OVERHEAD b = sizeof_frag b + sizeof_frag_end b ∧
      (b.dbg = true → sizeof_frag b = 48 ∧ 16 ≤ end_size b) := by
  rcases consts b with ⟨h, -, h1, h2, h3, h4, h5⟩ | ⟨h, -, h1, h2, h3, h4, h5⟩ <;>
    simp [h, h1, h2, h3, h4, h5]

theorem ROUNDTO_pos : 0 < ROUNDTO b := by
  rcases consts b with ⟨-, h, -⟩ | ⟨-, h, -⟩ <;> omega

theorem ROUNDTO_dvd_overhead : ROUNDTO b ∣ FRAG_OVERHEAD b := by
  rcases consts b with ⟨-, h, -, -, -, -, h5⟩ | ⟨-, h, -, -, -, -, h5⟩ <;> rw [h, h5] <;> decide

theorem ROUNDTO_dvd_ROUNDDOWN (s : ℕ) : ROUNDTO b ∣ ROUNDDOWN b s := Nat.dvd_mul_left _ _

theorem ROUNDTO_dvd_ROUNDUP (s : ℕ) : ROUNDTO b ∣ ROUNDUP b s := ROUNDTO_dvd_ROUNDDOWN b _

theorem ROUNDDOWN_le (s : ℕ) : ROUNDDOWN b s ≤ s := Nat.div_mul_le_self _ _

theorem lt_ROUNDDOWN (s : ℕ) : s < ROUNDDOWN b s + ROUNDTO b := Nat.lt_div_mul_add (ROUNDTO_pos b)

theorem ROUNDUP_lt (s : ℕ) : ROUNDUP b s < 2 ^ 64 := (ROUNDDOWN_le b _).trans_lt (Nat.mod_lt _ (by decide))

/-- Rounding is exact unless the addition wraps. -/
theorem ROUNDUP_bounds {s : ℕ} (h : s + ROUNDTO b ≤ 2 ^ 64) :
    s ≤ ROUNDUP b s ∧ ROUNDUP b s < s + ROUNDTO b := by
  have hw : wrap (s + (ROUNDTO b - 1)) = s + (ROUNDTO b - 1) := by
    have := ROUNDTO_pos b
    exact Nat.mod_eq_of_lt (by omega)
  rw [ROUNDUP, hw, ROUNDDOWN]
  rcases consts b with ⟨-, h, -⟩ | ⟨-, h, -⟩ <;> rw [h] <;> omega

theorem ROUNDUP_ROUNDUP (s : ℕ) : ROUNDUP b (ROUNDUP b s) = ROUNDUP b s := by
  obtain ⟨k, hk⟩ := ROUNDTO_dvd_ROUNDUP b s
  have hlt := ROUNDUP_lt b s
  rw [hk] at hlt ⊢
  unfold ROUNDUP ROUNDDOWN wrap
  rcases consts b with ⟨-, h, -⟩ | ⟨-, h, -⟩ <;> rw [h] at hlt ⊢ <;> omega

/-! ### Buckets -/

theorem bigHashLoop_eq {fuel s idx : ℕ} (hs : s ≠ 0) (hlt : s < 2 ^ 64)
    (hf : 63 - s.log2 < fuel) : bigHashLoop fuel s idx = idx - (63 - s.log2) := by
  induction fuel generalizing s idx with
  | zero => omega
  | succ fuel ih =>
    rw [bigHashLoop]
    split_ifs with h
    · have h1 : s.log2 = 63 := (Nat.log2_eq_iff hs).2 ⟨h, by omega⟩
      omega
    · have hw : wrap (2 * s) = 2 * s := Nat.mod_eq_of_lt (by omega)
      have hlog : s.log2 < 63 := (Nat.log2_lt hs).2 (by omega)
      rw [hw, ih (by omega) (by omega) (by rw [Nat.log2_two_mul hs]; omega), Nat.log2_two_mul hs]
      omega

/-- `big_hash_idx` is the position of the highest set bit. -/
theorem big_hash_idx_eq {s : ℕ} (hs : s ≠ 0) (hlt : s < 2 ^ 64) : big_hash_idx s = s.log2 := by
  have hlog : s.log2 < 64 := (Nat.log2_lt hs).2 hlt
  rw [big_hash_idx, bigHashLoop_eq hs hlt (by omega)]
  omega

theorem log2_mono {s t : ℕ} (hs : s ≠ 0) (h : s ≤ t) : s.log2 ≤ t.log2 :=
  (Nat.le_log2 (by omega)).2 ((Nat.log2_self_le hs).trans h)

theorem GET_HASH_mono {s t : ℕ} (h : s ≤ t) (ht : t < 2 ^ 64) : GET_HASH b s ≤ GET_HASH b t := by
  have hop : QM_MALLOC_OPTIMIZE = 2 ^ 14 := rfl
  have hfa : QM_MALLOC_OPTIMIZE_FACTOR = 14 := rfl
  unfold GET_HASH
  split_ifs with h1 h2 h2
  · exact Nat.div_le_div_right h
  · rw [big_hash_idx_eq (by omega) ht, hfa]
    have h3 : s / ROUNDTO b ≤ QM_MALLOC_OPTIMIZE / ROUNDTO b := Nat.div_le_div_right h1
    have h4 : 14 ≤ t.log2 := (Nat.le_log2 (by omega)).2 (by omega)
    omega
  · omega
  · rw [big_hash_idx_eq (by omega) ht, big_hash_idx_eq (by omega) (by omega)]
    have := log2_mono (by omega) h
    omega

theorem GET_HASH_lt {s : ℕ} (hs : s < 2 ^ 64) : GET_HASH b s < QM_HASH_SIZE b := by
  have hop : QM_MALLOC_OPTIMIZE = 2 ^ 14 := rfl
  have hfa : QM_MALLOC_OPTIMIZE_FACTOR = 14 := rfl
  unfold GET_HASH QM_HASH_SIZE
  split_ifs with h1
  · have : s / ROUNDTO b ≤ QM_MALLOC_OPTIMIZE / ROUNDTO b := Nat.div_le_div_right h1
    omega
  · rw [big_hash_idx_eq (by omega) hs, hfa]
    have : s.log2 < 64 := (Nat.log2_lt (by omega)).2 hs
    generalize QM_MALLOC_OPTIMIZE / ROUNDTO b = d
    omega

end OpenSips.QMalloc
