import OpenSips.Utils
import Mathlib.Data.List.Induction

/-!
# OpenSips.Parser.Numbers — decimal fields (`core/utils.h`, `parse_content.c`, `parse_sst.c`)

Every routine adds up digits in the width of its own type, and an overflow wraps, as it does in the
compiled code.  A text that is a field of a message has the rest of the memory behind it.
-/

namespace OpenSips.Numbers

open List Option

def CR : UInt8 := 13
def LF : UInt8 := 10

def is_num (c : UInt8) : Bool := chr '0' ≤ c && c ≤ chr '9'

/-- A blank. -/
def is_space (c : UInt8) : Bool := c == chr ' ' || c == chr '\t'

/-- `c - '0'` -/
def num (c : UInt8) : ℕ := c.toNat - 48

def decimal (ds : Str) : ℕ := ds.foldl (fun n c => n * 10 + num c) 0

section Source

/-- The loop of `str2int`; `*n` is an `unsigned int`. -/
def str2int_loop : ℕ → Str → Option ℕ
  | n, [] => some n
  | n, c :: s => if is_num c then str2int_loop ((n * 10 + num c) % 2 ^ 32) s else none

def str2int (s : Str) : Option ℕ := str2int_loop 0 s

/-- A value as an `int`. -/
def int (z : ℤ) : ℤ := z.bmod (2 ^ 32)

/-- The loop of `str2sint`; `*_r` is an `int`. -/
def str2sint_loop : ℤ → Str → Option ℤ
  | r, [] => some r
  | r, c :: s => if is_num c then str2sint_loop (int (int (r * 10) + num c)) s else none

/-- `str2sint`; without a text the first character is the one behind it, which makes no difference. -/
def str2sint : Str → Option ℤ
  | [] => some 0
  | c :: s =>
    if c = chr '-' then (str2sint_loop 0 s).map fun r => int (r * -1)
    else (str2sint_loop 0 (c :: s)).map fun r => int (r * 1)

/-- The blanks in front of a number and behind it, with folded lines; `past` is the byte behind the
buffer. -/
def skip_lws (past : UInt8) : Str → Str
  | [] => []
  | c :: s => if is_space c ∨ c = LF ∧ is_space (s.headD past) then skip_lws past s else c :: s

/-- `parse_content_length`: how far it reads, and the number. -/
def parse_content_length (past : UInt8) (s : Str) : Option (ℕ × ℤ) :=
  let p := skip_lws past s
  let number := (p.takeWhile is_num).foldl (fun n c => int (n * 10 + num c)) 0
  if p.dropWhile is_num = [] ∨ p.takeWhile is_num = [] then none
  else
    match skip_lws past (p.dropWhile is_num) with
    | [] => none
    | c :: q =>
      if c = LF then some (s.length - q.length, number)
      else if c = CR ∧ q.headD past = LF then some (s.length - q.length + 1, number)
      else none

/-- `enum sst_refresher` -/
inductive Refresher where
  | unspecified | uac | uas
  deriving DecidableEq

/-- `struct session_expires` -/
structure SessionExpires where
  interval : ℕ
  refresher : Refresher
  deriving DecidableEq

/-- `enum parse_sst_result`, with what is stored. -/
inductive Sst (α : Type) where
  | success (parsed : α)
  | header_not_found | no_value | out_of_mem | parse_error
  deriving DecidableEq

/-- `lower_4bytes(read_4bytes(p))` and its siblings against a text. -/
def reads (mem : Str) (p : ℕ) (text : String) : Bool :=
  ((mem.drop p).take text.length).map (· ||| 0x20) == text.toList.map chr

/-- The loop to the next `;`. -/
def skip_param (mem : Str) (len pos : ℕ) : ℕ :=
  pos + (((mem.take len).drop pos).takeWhile (· != chr ';')).length

/-- The loop over the parameters; the fuel is for the rounds left. -/
def se_params (mem : Str) (len : ℕ) : ℕ → ℕ → Refresher → Option (Sst Refresher)
  | 0, _, _ => none
  | fuel + 1, pos, refresher =>
    if len ≤ pos then some (.success refresher)
    else if (mem.drop pos).headD 0 ≠ chr ';' then some .parse_error
    else
      let p := pos + 1
      if p + 4 < len ∧ reads mem p "refr" ∧ p + 9 ≤ len ∧ reads mem (p + 4) "eshe" ∧ reads mem (p + 8) "r" ∧
          (mem.drop (p + 9)).headD 0 = chr '=' then
        if reads mem (p + 10) "uac" then se_params mem len fuel (p + 13) .uac
        else if reads mem (p + 10) "uas" then se_params mem len fuel (p + 13) .uas
        else some .parse_error
      else se_params mem len fuel (skip_param mem len p) refresher

/-- The interval; `se.interval` and `interval` are `unsigned int`s. -/
def interval (ds : Str) : ℕ := ds.foldl (fun n c => (n * 10 + num c) % 2 ^ 32) 0

/-- `parse_session_expires_body` on the `len` bytes of a body; one round of the loop per byte is enough. -/
def parse_session_expires_body (avail : Bool) (mem : Str) (len : ℕ) : Option (Sst SessionExpires) :=
  let p := (mem.take len).dropWhile is_space
  let q := p.dropWhile is_num
  if len = 0 then some .header_not_found
  else if p.takeWhile is_num = [] then some .no_value
  else
    (se_params mem len (len + 1) (len - q.length) .unspecified).map fun
      | .success refresher =>
        if avail then .success ⟨interval (p.takeWhile is_num), refresher⟩ else .out_of_mem
      | .header_not_found => .header_not_found
      | .no_value => .no_value
      | .out_of_mem => .out_of_mem
      | .parse_error => .parse_error

def parse_min_se_body (s : Str) : Sst ℕ :=
  let p := s.dropWhile is_space
  if p = [] then .no_value
  else if (p.dropWhile is_num).dropWhile is_space ≠ [] then .parse_error
  else .success (interval (p.takeWhile is_num))

end Source

section Rounds

variable {mem : Str} {len fuel pos : ℕ}

theorem le_skip_param (mem : Str) (len pos : ℕ) : pos ≤ skip_param mem len pos := Nat.le_add_right _ _

theorem se_params_returns (refresher : Refresher) (h : len ≤ pos + fuel) :
    ∃ r, se_params mem len (fuel + 1) pos refresher = some r := by
  induction fuel generalizing pos refresher with
  | zero => exact ⟨_, if_pos h⟩
  | succ fuel ih =>
    by_cases hlen : len ≤ pos
    · exact ⟨_, if_pos hlen⟩
    have hskip := le_skip_param mem len (pos + 1)
    rw [se_params, if_neg hlen]
    dsimp only
    split_ifs
    · exact ⟨_, rfl⟩
    · exact ih _ (by omega)
    · exact ih _ (by omega)
    · exact ⟨_, rfl⟩
    · exact ih _ (by omega)

/-- `parse_session_expires_body` returns. -/
theorem parse_session_expires_body_returns (avail : Bool) (mem : Str) (len : ℕ) :
    ∃ r, parse_session_expires_body avail mem len = some r := by
  unfold parse_session_expires_body
  by_cases h0 : len = 0
  · exact ⟨_, if_pos h0⟩
  rw [if_neg h0]
  by_cases hn : ((mem.take len).dropWhile is_space).takeWhile is_num = []
  · exact ⟨_, if_pos hn⟩
  rw [if_neg hn]
  obtain ⟨r, hr⟩ : ∃ r, se_params mem len (len + 1) (len -
      (((mem.take len).dropWhile is_space).dropWhile is_num).length) .unspecified = some r :=
    se_params_returns .unspecified (by omega)
  rw [hr]
  exact ⟨_, rfl⟩

end Rounds

section Sums

variable {ds s : Str} {c : UInt8} {n : ℕ}

def Digits (ds : Str) : Prop := ∀ c ∈ ds, is_num c = true

theorem decimal_append (ds : Str) (c : UInt8) : decimal (ds ++ [c]) = decimal ds * 10 + num c := by
  rw [decimal, foldl_append]
  rfl

theorem digits_loop {i l : ℕ} (h : l < 10 ^ i) (hi : i ≠ 0) (s : Str) :
    ∃ ds, int2bstr_loop i l s = ds ++ s ∧ Digits ds ∧ decimal ds = l ∧ ds ≠ [] := by
  have hone : ∀ l, Digits [digit l] := fun l c hc => by
    rw [mem_singleton.1 hc, is_num]
    simp [digit_bounds l]
  have hnum : ∀ l, num (digit l) = l % 10 := fun l => by
    rw [num, digit_toNat, Nat.add_sub_cancel]
  induction i generalizing l s with
  | zero => exact absurd rfl hi
  | succ i ih =>
    rw [int2bstr_loop]
    split_ifs with hl
    · refine ⟨[digit l], rfl, hone l, ?_, cons_ne_nil _ _⟩
      show 0 * 10 + num (digit l) = l
      rw [hnum]
      omega
    · have hi' : i ≠ 0 := by
        rintro rfl
        rw [zero_add, Nat.pow_one] at h
        omega
      obtain ⟨ds, hds, hdig, hdec, -⟩ := ih (Nat.div_lt_of_lt_mul (by rwa [Nat.pow_succ'] at h)) hi' (digit l :: s)
      refine ⟨ds ++ [digit l], ?_, fun c hc => ?_, ?_, append_ne_nil_of_right_ne_nil _ (cons_ne_nil _ _)⟩
      · rw [hds, append_assoc]
        rfl
      · exact (mem_append.1 hc).elim (hdig c) (hone l c)
      · rw [decimal_append, hdec, hnum]
        omega

/-- **The text of a number is its digits.** -/
theorem decimal_int2str {l : ℕ} (h : l < 10 ^ 21) :
    Digits (int2str l) ∧ decimal (int2str l) = l ∧ int2str l ≠ [] := by
  obtain ⟨ds, hds, hdig, hdec, hne⟩ := digits_loop h (by decide) []
  rw [int2str, hds, append_nil]
  exact ⟨hdig, hdec, hne⟩

theorem foldl_mod (m : ℕ) (ds : Str) :
    ds.foldl (fun n c => (n * 10 + num c) % m) 0 = decimal ds % m := by
  induction ds using List.reverseRecOn with
  | nil => exact (Nat.zero_mod m).symm
  | append_singleton ds c ih =>
    rw [foldl_append, ih, decimal_append, foldl_cons, foldl_nil, Nat.add_mod, Nat.mod_mul_mod, ← Nat.add_mod]

theorem int_int (z : ℤ) (n : ℕ) : int (int z * 10 + n) = int (z * 10 + n) := by
  unfold int
  rw [← Int.bmod_add_bmod, Int.bmod_mul_bmod, Int.bmod_add_bmod]

/-- So is an `int`. -/
theorem foldl_int (ds : Str) :
    ds.foldl (fun (n : ℤ) c => int (n * 10 + num c)) 0 = int (decimal ds) := by
  induction ds using List.reverseRecOn with
  | nil => rfl
  | append_singleton ds c ih =>
    rw [foldl_append, ih, foldl_cons, foldl_nil, decimal_append, int_int]
    rfl

/-- An `int` holds a number as it is below `2 ^ 31`. -/
theorem int_eq_iff (n : ℕ) : int n = n ↔ n < 2 ^ 31 := by
  rw [int, Int.bmod_def]
  split <;> omega

theorem int_neg_eq_iff (n : ℕ) : int (int n * -1) = -n ↔ n ≤ 2 ^ 31 := by
  unfold int
  rw [Int.bmod_mul_bmod, Int.bmod_def]
  split <;> omega

theorem str2int_digits (h : Digits ds) : str2int ds = some (decimal ds % 2 ^ 32) := by
  have hloop : ∀ n, str2int_loop n ds = some (ds.foldl (fun n c => (n * 10 + num c) % 2 ^ 32) n) := by
    induction ds with
    | nil => exact fun n => rfl
    | cons c ds ih =>
      intro n
      rw [str2int_loop, if_pos (h c mem_cons_self)]
      exact ih (fun d hd => h d (mem_cons_of_mem c hd)) _
  rw [str2int, hloop 0, foldl_mod]

theorem str2sint_loop_digits (h : Digits ds) : str2sint_loop 0 ds = some (int (decimal ds)) := by
  have hstep : ∀ (r : ℤ) (c : UInt8), int (int (r * 10) + num c) = int (r * 10 + num c) := fun r c =>
    Int.bmod_add_bmod
  have hloop : ∀ r : ℤ, str2sint_loop r ds = some (ds.foldl (fun (n : ℤ) c => int (n * 10 + num c)) r) := by
    induction ds with
    | nil => exact fun r => rfl
    | cons c ds ih =>
      intro r
      rw [str2sint_loop, if_pos (h c mem_cons_self), hstep]
      exact ih (fun d hd => h d (mem_cons_of_mem c hd)) _
  rw [hloop 0, foldl_int]

theorem int_one (z : ℤ) : int (int z * 1) = int z := by
  unfold int
  rw [Int.bmod_mul_bmod, Int.mul_one]

theorem str2sint_digits (h : Digits ds) : str2sint ds = some (int (decimal ds)) := by
  cases ds with
  | nil => rfl
  | cons c ds =>
    have hc : c ≠ chr '-' := by
      rintro rfl
      exact absurd (h _ mem_cons_self) (by decide)
    rw [str2sint, if_neg hc, str2sint_loop_digits h, map_some, int_one]

theorem str2sint_minus (h : Digits ds) :
    str2sint (chr '-' :: ds) = some (int (int (decimal ds) * -1)) := by
  rw [str2sint, if_pos rfl, str2sint_loop_digits h, map_some]

theorem str2s_digits (h : Digits ds) : str2s ds =
    if 5 < ds.length then none else some (decimal ds % 2 ^ 16) := by
  have hloop : ∀ r i, i ≤ 5 → str2s_loop r i ds = if 5 < i + ds.length then none
      else some (ds.foldl (fun n c => (n * 10 + num c) % 2 ^ 16) r) := by
    induction ds with
    | nil => exact fun r i hi => (if_neg (Nat.not_lt.mpr hi)).symm
    | cons c ds ih =>
      intro r i hi
      have hc := h c mem_cons_self
      obtain ⟨h0, h9⟩ := (Bool.and_eq_true ..).mp hc
      have hnum : r * 10 + c.toNat - (chr '0').toNat = r * 10 + num c := by
        have h48 : (chr '0').toNat = 48 := rfl
        have hle := UInt8.le_iff_toNat_le.mp (of_decide_eq_true h0)
        rw [num]
        omega
      rw [str2s_loop, if_pos ⟨of_decide_eq_true h9, of_decide_eq_true h0⟩, hnum, length_cons]
      by_cases h5 : 5 < i + 1
      · rw [if_pos h5, if_pos (by omega)]
      · rw [if_neg h5, ih (fun d hd => h d (mem_cons_of_mem c hd)) _ _ (Nat.not_lt.mp h5),
          show i + 1 + ds.length = i + (ds.length + 1) by omega]
        rfl
  rw [str2s, hloop 0 0 (Nat.zero_le 5), Nat.zero_add, foldl_mod]

/-- The fields whose number is `ds`: `parse_content_length` reads a number that it accepts as an `int`. -/
theorem parse_content_length_number {past : UInt8} {p : ℕ} {z : ℤ}
    (h : parse_content_length past s = some (p, z)) :
    z = int (decimal ((skip_lws past s).takeWhile is_num)) := by
  unfold parse_content_length at h
  dsimp only at h
  split_ifs at h with hnone
  rw [foldl_int] at h
  cases hq : skip_lws past ((skip_lws past s).dropWhile is_num) with
  | nil =>
    rw [hq] at h
    cases h
  | cons c q =>
    rw [hq] at h
    dsimp only at h
    split_ifs at h
    · exact (Prod.mk.inj (some.inj h)).2.symm
    · exact (Prod.mk.inj (some.inj h)).2.symm

theorem parse_session_expires_number {avail : Bool} {len : ℕ} {se : SessionExpires}
    (h : parse_session_expires_body avail s len = some (.success se)) :
    se.interval = decimal (((s.take len).dropWhile is_space).takeWhile is_num) % 2 ^ 32 := by
  unfold parse_session_expires_body at h
  dsimp only at h
  by_cases h0 : len = 0
  · rw [if_pos h0] at h
    cases h
  by_cases hn : ((s.take len).dropWhile is_space).takeWhile is_num = []
  · rw [if_neg h0, if_pos hn] at h
    cases h
  rw [if_neg h0, if_neg hn] at h
  obtain ⟨r, -, hr⟩ := map_eq_some_iff.1 h
  cases r with
  | success refresher =>
    dsimp only at hr
    split_ifs at hr
    obtain rfl := Sst.success.inj hr
    exact foldl_mod _ _
  | _ => cases hr

theorem parse_min_se_number {n : ℕ} (h : parse_min_se_body s = .success n) :
    n = decimal ((s.dropWhile is_space).takeWhile is_num) % 2 ^ 32 := by
  unfold parse_min_se_body at h
  dsimp only at h
  split_ifs at h
  rw [← Sst.success.inj h]
  exact foldl_mod _ _

end Sums

section Wraps

variable {ds : Str}

theorem mod_eq_iff (m n : ℕ) (hm : 0 < m) : n % m = n ↔ n < m :=
  ⟨fun h => h ▸ Nat.mod_lt n hm, Nat.mod_eq_of_lt⟩

/-- **A field holds the number of its digits when the number fits its type.** -/
theorem decimal_fields (h : Digits ds) :
    ((∀ n, str2int ds = some n → n = decimal ds) ↔ decimal ds < 2 ^ 32) ∧
    ((∀ n, str2s ds = some n → n = decimal ds) ↔ 5 < ds.length ∨ decimal ds < 2 ^ 16) ∧
    ((∀ n, str2sint ds = some n → n = decimal ds) ↔ decimal ds < 2 ^ 31) ∧
    ((∀ n, str2sint (chr '-' :: ds) = some n → n = -decimal ds) ↔ decimal ds ≤ 2 ^ 31) ∧
    (∀ past s, (skip_lws past s).takeWhile is_num = ds → ∀ p n, parse_content_length past s = some (p, n) →
      (n = decimal ds ↔ decimal ds < 2 ^ 31)) ∧
    (∀ avail mem len, ((mem.take len).dropWhile is_space).takeWhile is_num = ds →
      ∀ se, parse_session_expires_body avail mem len = some (.success se) →
        (se.interval = decimal ds ↔ decimal ds < 2 ^ 32)) ∧
    ∀ s, (s.dropWhile is_space).takeWhile is_num = ds → ∀ n, parse_min_se_body s = .success n →
      (n = decimal ds ↔ decimal ds < 2 ^ 32) := by
  refine ⟨?_, ?_, ?_, ?_, ?_, ?_, ?_⟩
  · rw [str2int_digits h]
    simp only [some.injEq, forall_eq']
    exact mod_eq_iff _ _ (by decide)
  · rw [str2s_digits h]
    by_cases h5 : 5 < ds.length
    · rw [if_pos h5]
      exact iff_of_true (fun n e => by cases e) (.inl h5)
    · rw [if_neg h5]
      simp only [some.injEq, forall_eq', h5, false_or]
      exact mod_eq_iff _ _ (by decide)
  · rw [str2sint_digits h]
    simp only [some.injEq, forall_eq']
    exact int_eq_iff _
  · rw [str2sint_minus h]
    simp only [some.injEq, forall_eq']
    exact int_neg_eq_iff _
  · rintro past s rfl p n e
    rw [parse_content_length_number e]
    exact int_eq_iff _
  · rintro avail mem len rfl se e
    rw [parse_session_expires_number e]
    exact mod_eq_iff _ _ (by decide)
  · rintro s rfl n e
    rw [parse_min_se_number e]
    exact mod_eq_iff _ _ (by decide)

/-- The digits `10`. -/
theorem decimal_fields_ten : ((∀ n, str2int [49, 48] = some n → n = decimal [49, 48]) ↔
    decimal [49, 48] < 2 ^ 32) :=
  (decimal_fields fun c hc => List.all_eq_true.1 (show List.all [49, 48] is_num = true by decide) c hc).1

/-- The port `65536`, and the Content-Length `4294967291` of a line with its CRLF. -/
theorem decimal_wraps : str2s [54, 53, 53, 51, 54] = some 0 ∧
    parse_content_length 0 [52, 50, 57, 52, 57, 54, 55, 50, 57, 49, 13, 10] = some (12, -5) := by
  decide

end Wraps

end OpenSips.Numbers
