import OpenSips.Str

/-!
# OpenSips.Utils — numbers and their decimal text (`core/utils.h`)
-/

namespace OpenSips

open List

/-- The loop of `str2s`; `ret` is an `unsigned short`. -/
def str2s_loop : ℕ → ℕ → Str → Option ℕ
  | ret, _, [] => some ret
  | ret, i, c :: s =>
    if c ≤ chr '9' ∧ chr '0' ≤ c then
      if 5 < i + 1 then none
      else str2s_loop ((ret * 10 + c.toNat - (chr '0').toNat) % 2 ^ 16) (i + 1) s
    else none

/-- `str2s`: at most five digits; `none` is its error. -/
def str2s (s : Str) : Option ℕ := str2s_loop 0 0 s

/-- `l%10+'0'` -/
def digit (n : ℕ) : UInt8 := UInt8.ofNat (n % 10 + (chr '0').toNat)

/-- The loop of `int2bstr`, with the positions left in front of the digits. -/
def int2bstr_loop : ℕ → ℕ → Str → Str
  | 0, _, s => s
  | i + 1, l, s => if l / 10 = 0 then digit l :: s else int2bstr_loop i (l / 10) (digit l :: s)

/-- `int2str`; `INT2STR_MAX_LEN` is 22. -/
def int2str (l : ℕ) : Str := int2bstr_loop 21 l []

section Digits

variable {n l i ret : ℕ} {s : Str}

theorem digit_toNat (n : ℕ) : (digit n).toNat = n % 10 + 48 := by
  rw [digit, UInt8.toNat_ofNat']
  have h0 : (chr '0').toNat = 48 := rfl
  omega

theorem digit_bounds (n : ℕ) : digit n ≤ chr '9' ∧ chr '0' ≤ digit n := by
  have h0 : (chr '0').toNat = 48 := rfl
  have h9 : (chr '9').toNat = 57 := rfl
  rw [UInt8.le_iff_toNat_le, UInt8.le_iff_toNat_le, digit_toNat, h0, h9]
  omega

theorem str2s_loop_digit (hi : i < 5) (h : ret * 10 + n % 10 < 2 ^ 16) :
    str2s_loop ret i (digit n :: s) = str2s_loop (ret * 10 + n % 10) (i + 1) s := by
  have h0 : (chr '0').toNat = 48 := rfl
  rw [str2s_loop, if_pos (digit_bounds n), if_neg (by omega), digit_toNat, h0]
  congr 1
  omega

theorem str2s_loop_int2bstr {k : ℕ} (h : l < 10 ^ (k + 1)) (hl : l < 2 ^ 16) (hk : k < 5) (hi : k ≤ i) :
    ∃ m ≤ k, ∀ s, str2s_loop 0 0 (int2bstr_loop (i + 1) l s) = str2s_loop l (m + 1) s := by
  induction k generalizing l i with
  | zero =>
    refine ⟨0, Nat.le_refl _, fun s => ?_⟩
    have h10 : l / 10 = 0 := by omega
    rw [int2bstr_loop, if_pos h10, str2s_loop_digit (by omega) (by omega)]
    congr 1
    omega
  | succ k ih =>
    by_cases h10 : l / 10 = 0
    · refine ⟨0, Nat.zero_le _, fun s => ?_⟩
      rw [int2bstr_loop, if_pos h10, str2s_loop_digit (by omega) (by omega)]
      congr 1
      omega
    · obtain ⟨i, rfl⟩ : ∃ i', i = i' + 1 := ⟨i - 1, by omega⟩
      obtain ⟨m, hm, hs⟩ := ih (l := l / 10) (i := i) (by rw [Nat.pow_succ] at h; omega)
        (by omega) (by omega) (by omega)
      refine ⟨m + 1, by omega, fun s => ?_⟩
      rw [int2bstr_loop, if_neg h10, hs, str2s_loop_digit (by omega) (by omega)]
      congr 1
      omega

/-- **A port is read back from its text.** -/
theorem str2s_int2str (h : l < 2 ^ 16) : str2s (int2str l) = some l := by
  obtain ⟨m, -, hs⟩ := str2s_loop_int2bstr (k := 4) (i := 20) (Nat.lt_of_lt_of_le h (by decide)) h
    (by omega) (by omega)
  rw [str2s, int2str, hs, str2s_loop]

theorem int2bstr_loop_eq (i l : ℕ) (s : Str) :
    ∃ ds : List ℕ, int2bstr_loop (i + 1) l s = ds.map digit ++ s ∧ ds ≠ [] := by
  induction i generalizing l s with
  | zero =>
    refine ⟨[l], ?_, cons_ne_nil _ _⟩
    rw [int2bstr_loop, int2bstr_loop]
    split_ifs <;> rfl
  | succ i ih =>
    rw [int2bstr_loop]
    split_ifs
    · exact ⟨[l], rfl, cons_ne_nil _ _⟩
    · obtain ⟨ds, hds, -⟩ := ih (l / 10) (digit l :: s)
      exact ⟨ds ++ [l], by rw [hds]; simp, by simp⟩

theorem int2str_digits (l : ℕ) : ∃ ds : List ℕ, int2str l = ds.map digit ∧ ds ≠ [] := by
  obtain ⟨ds, hds, hne⟩ := int2bstr_loop_eq 20 l []
  exact ⟨ds, by rw [int2str, hds, append_nil], hne⟩

end Digits

end OpenSips
