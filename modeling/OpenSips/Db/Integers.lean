import OpenSips.Db.Drivers
import OpenSips.Parser.Numbers
import Mathlib.Data.List.TakeWhile

/-!
# OpenSips.Db.Integers — integers through their texts (`core/utils.h`, `db/db_ut.c`)

`strtoul` is that of the C library with a `long` of 64 bits: it sets `errno` when a number is too large, and
never clears it.
-/

namespace OpenSips.DbPrint

open Lib Numbers List

def sint2str (l : ℤ) : Str := if l < 0 then chr '-' :: int2str l.natAbs else int2str l.natAbs

def ULONG_MAX : ℕ := 2 ^ 64 - 1

def INT_MIN : ℤ := -2 ^ 31

def UINT_MAX : ℤ := 2 ^ 32 - 1

def ERANGE : ℕ := 34

def isspace (c : UInt8) : Bool := c == chr ' ' || 9 ≤ c && c ≤ 13

/-- `strtoul(s, 0, 10)`: the number and `errno`. -/
def strtoul (errno : ℕ) (s : Str) : ℕ × ℕ :=
  let s := s.dropWhile isspace
  let digits := if s.head? = some (chr '-') ∨ s.head? = some (chr '+') then s.tail else s
  let n := Numbers.decimal (digits.takeWhile is_num)
  if ULONG_MAX < n then (ULONG_MAX, ERANGE)
  else if s.head? = some (chr '-') then ((2 ^ 64 - n) % 2 ^ 64, errno)
  else (n, errno)

def db_str2int (errno : ℕ) (s : Str) : Option ℤ :=
  let (ul, errno) := strtoul errno s
  let tmp := Int.bmod ul (2 ^ 64)
  if tmp % 2 ^ 64 = ULONG_MAX ∧ errno = ERANGE ∨ tmp < INT_MIN ∨ UINT_MAX < tmp then none
  else some (Numbers.int tmp)

inductive DecimalText : Str → ℤ → Prop
  | plain (ds) : Digits ds → ds ≠ [] → DecimalText ds (Numbers.decimal ds)
  | plus (ds) : Digits ds → ds ≠ [] → DecimalText (chr '+' :: ds) (Numbers.decimal ds)
  | minus (ds) : Digits ds → ds ≠ [] → DecimalText (chr '-' :: ds) (-Numbers.decimal ds)

/-- The value of an `int`. -/
def IsInt (v : ℤ) : Prop := -2 ^ 31 ≤ v ∧ v < 2 ^ 31

variable {s ds : Str} {z v : ℤ} {errno : ℕ}

theorem strtoul_digits (hd : Digits ds) (hne : ds ≠ []) : strtoul errno ds =
    if ULONG_MAX < Numbers.decimal ds then (ULONG_MAX, ERANGE) else (Numbers.decimal ds, errno) := by
  obtain ⟨c, ds, rfl⟩ := exists_cons_of_ne_nil hne
  have hc : is_num c := hd c mem_cons_self
  have hother : isspace c = false ∧ c ≠ chr '-' ∧ c ≠ chr '+' := by
    have hall : ∀ n < 256, is_num (UInt8.ofNat n) →
        isspace (UInt8.ofNat n) = false ∧ UInt8.ofNat n ≠ chr '-' ∧ UInt8.ofNat n ≠ chr '+' := by decide +kernel
    have h := hall c.toNat c.toNat_lt
    rw [UInt8.ofNat_toNat] at h
    exact h hc
  have htake : (c :: ds).takeWhile is_num = c :: ds := takeWhile_eq_self_iff.2 hd
  unfold strtoul
  simp only [dropWhile_cons, hother.1, Bool.false_eq_true, if_false, head?_cons, Option.some.injEq, hother.2.1,
    hother.2.2, or_self, htake]

theorem strtoul_signed {c : UInt8} (hc : c = chr '-' ∨ c = chr '+') (hd : Digits ds) : strtoul errno (c :: ds) =
    if ULONG_MAX < Numbers.decimal ds then (ULONG_MAX, ERANGE)
    else if c = chr '-' then ((2 ^ 64 - Numbers.decimal ds) % 2 ^ 64, errno) else (Numbers.decimal ds, errno) := by
  have hspace : isspace c = false := by
    rcases hc with rfl | rfl <;> decide
  have htake : ds.takeWhile is_num = ds := takeWhile_eq_self_iff.2 hd
  unfold strtoul
  simp only [dropWhile_cons, hspace, Bool.false_eq_true, if_false, head?_cons, Option.some.injEq, hc, if_true,
    tail_cons, htake]

/-- **The number that `db_str2int` goes by**: without its multiples of 2 ^ 64, unless it is too large. -/
theorem db_str2int_text (h : DecimalText s z) : db_str2int errno s =
    if 2 ^ 64 ≤ z.natAbs ∨ Int.bmod z (2 ^ 64) = -1 ∧ errno = ERANGE ∨ Int.bmod z (2 ^ 64) < INT_MIN ∨
      UINT_MAX < Int.bmod z (2 ^ 64) then none else some (Numbers.int (Int.bmod z (2 ^ 64))) := by
  have hul : strtoul errno s = if 2 ^ 64 ≤ z.natAbs then (ULONG_MAX, ERANGE) else ((z % 2 ^ 64).toNat, errno) := by
    cases h with
    | plain ds hd hne =>
      rw [strtoul_digits hd hne]
      split_ifs <;> simp [ULONG_MAX] at * <;> omega
    | plus ds hd hne =>
      rw [strtoul_signed (.inr rfl) hd, if_neg (show ¬ chr '+' = chr '-' by decide)]
      split_ifs <;> simp [ULONG_MAX] at * <;> omega
    | minus ds hd hne =>
      rw [strtoul_signed (.inl rfl) hd, if_pos rfl]
      split_ifs <;> simp [ULONG_MAX] at * <;> omega
  unfold db_str2int
  rw [hul]
  by_cases hbig : 2 ^ 64 ≤ z.natAbs
  · rw [if_pos hbig, if_pos (.inl hbig)]
    rfl
  · rw [if_neg hbig]
    have hval : Int.bmod ((z % 2 ^ 64).toNat : ℤ) (2 ^ 64) = Int.bmod z (2 ^ 64) := by
      rw [Int.toNat_of_nonneg (Int.emod_nonneg _ (by decide))]
      exact Int.emod_bmod ..
    have hmax : Int.bmod z (2 ^ 64) % 2 ^ 64 = ULONG_MAX ↔ Int.bmod z (2 ^ 64) = -1 := by
      have h1 := @Int.bmod_lt z (2 ^ 64) (by decide)
      have h2 := @Int.le_bmod z (2 ^ 64) (by decide)
      simp only [ULONG_MAX]
      omega
    simp only [hval, hmax, hbig, false_or]

theorem decimal_text (v : ℤ) (hv : v.natAbs < 10 ^ 21) : DecimalText (DbPrint.decimal v) v := by
  obtain ⟨hd, hdec, hne⟩ := decimal_int2str hv
  unfold DbPrint.decimal
  split_ifs with h
  · have ht := DecimalText.minus _ hd hne
    rwa [hdec, show -(v.natAbs : ℤ) = v by omega] at ht
  · have ht := DecimalText.plain _ hd hne
    rwa [hdec, show (v.natAbs : ℤ) = v by omega] at ht

/-- An `int` comes back, but for -1 behind an earlier error. -/
theorem db_str2int_decimal (hv : IsInt v) :
    db_str2int errno (DbPrint.decimal v) = some v ↔ ¬ (v = -1 ∧ errno = ERANGE) := by
  obtain ⟨h1, h2⟩ := hv
  have hmod : Int.bmod v (2 ^ 64) = v := Int.bmod_eq_of_le (by omega) (by omega)
  have hint : Numbers.int v = v := Int.bmod_eq_of_le (by omega) (by omega)
  rw [db_str2int_text (decimal_text v (by omega)), hmod, hint]
  unfold INT_MIN UINT_MAX
  split_ifs with h
  · exact ⟨nofun, fun hne => by omega⟩
  · exact ⟨fun _ hne => h (.inr (.inl hne)), fun _ => rfl⟩

def Wraps (errno : ℕ) (z : ℤ) : Prop :=
  2 ^ 64 - 2 ^ 31 ≤ z ∧ z < 2 ^ 64 ∧ ¬ (z = 2 ^ 64 - 1 ∧ errno = ERANGE) ∨ -2 ^ 64 < z ∧ z ≤ UINT_MAX - 2 ^ 64

theorem db_str2int_rejects (h : DecimalText s z) (hz : z < INT_MIN ∨ UINT_MAX < z) :
    db_str2int errno s = none ↔ ¬ Wraps errno z := by
  rw [db_str2int_text h]
  unfold INT_MIN UINT_MAX at hz
  unfold Wraps INT_MIN UINT_MAX
  have hb : Int.bmod z (2 ^ 64) = z % 2 ^ 64 ∧ z % 2 ^ 64 < 2 ^ 63 ∨
      Int.bmod z (2 ^ 64) = z % 2 ^ 64 - 2 ^ 64 ∧ 2 ^ 63 ≤ z % 2 ^ 64 := by
    rw [Int.bmod_def]
    split_ifs <;> omega
  split_ifs with hno
  · exact ⟨fun _ => by omega, fun _ => rfl⟩
  · refine ⟨nofun, fun hw => absurd ?_ hw⟩
    omega

/-- **Integers through their texts.** -/
theorem integers_round_trip (n errno k : ℕ) (v l z : ℤ) (m : ℕ → UInt8) (s : Str) :
    (n < 2 ^ 32 → str2int (int2str n) = some n) ∧
    (IsInt v → str2sint (sint2str v) = some v) ∧
    (IsInt v → (db_number2str (DbPrint.decimal v) l).pos = some k →
      (db_str2int errno (read (writes (db_number2str (DbPrint.decimal v) l).blocks m) 0 k) = some v ↔
        ¬ (v = -1 ∧ errno = ERANGE))) ∧
    (DecimalText s z → z < INT_MIN ∨ UINT_MAX < z → (db_str2int errno s = none ↔ ¬ Wraps errno z)) := by
  refine ⟨fun hn => ?_, fun hv => ?_, fun hv hk => ?_, fun h hz => db_str2int_rejects h hz⟩
  · obtain ⟨hd, hdec, -⟩ := decimal_int2str (Nat.lt_trans hn (by decide))
    rw [str2int_digits hd, hdec, Nat.mod_eq_of_lt hn]
  · obtain ⟨hd, hdec, -⟩ := decimal_int2str (show v.natAbs < 10 ^ 21 by obtain ⟨h1, h2⟩ := hv; omega)
    obtain ⟨h1, h2⟩ := hv
    unfold sint2str
    split_ifs with hneg
    · rw [str2sint_minus hd, hdec, (int_neg_eq_iff _).2 (by omega)]
      congr 1
      omega
    · rw [str2sint_digits hd, hdec, (int_eq_iff _).2 (by omega)]
      congr 1
      omega
  · have hl : 0 ≤ l := by
      rw [db_number2str] at hk
      split_ifs at hk
      have hroom := checked_room hk
      omega
    have hprints := @prints_number l (DbPrint.decimal v) hl
    rw [(hprints.behind k hk).1, Nat.zero_add, hprints.text (by rw [hk]; exact Option.some_ne_none _)]
    exact db_str2int_decimal hv

/-- -1 is not read back behind a range error, and 2 ^ 64 - 1 is taken for -1. -/
theorem db_str2int_errno : db_str2int ERANGE (DbPrint.decimal (-1)) = none ∧
    db_str2int 0 (int2str (2 ^ 64 - 1)) = some (-1) := by decide +kernel

end OpenSips.DbPrint
