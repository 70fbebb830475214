import OpenSips.Net

/-!
# OpenSips.Address — addresses and their texts (`net/ip_addr.h`)

`OpenSips.Net` has what the resolver and the builders ask: the text of an address, and whether a text is
an address.  Here `str2ip` and `str2ip6` with the address they store in `dest`.
-/

namespace OpenSips.Address

open Function

/-- The loop of `str2ip` over `ip.u.addr`, with the number `i` it is in. -/
def str2ip_loop : Fin 4 → (Fin 4 → UInt8) → Str → Option (Fin 4 × (Fin 4 → UInt8))
  | i, addr, [] => some (i, addr)
  | i, addr, c :: s =>
    if c = chr '.' then
      if h : i.val + 1 < 4 then str2ip_loop ⟨i.val + 1, h⟩ addr s else none
    else if c ≤ chr '9' ∧ chr '0' ≤ c then
      str2ip_loop i (Function.update addr i (addr i * 10 + c - chr '0')) s
    else none

def str2ip (st : Str) : Option IpAddr :=
  match str2ip_loop 0 (fun _ => 0) st with
  | some (i, addr) => if i.val < 3 then none else some (.AF_INET addr)
  | none => none

/-- The variables of `str2ip6`; `at_end` is `addr == addr_end`, and the words are in host order. -/
structure Vars6 where
  i : ℕ
  idx1 : ℕ
  no_colons : ℕ
  double_colon : Bool
  at_end : Bool
  addr_start : ℕ → UInt16
  addr_end : ℕ → UInt16

/-- `addr[i]=addr[i]*16+hex` -/
def Vars6.push (u : Vars6) (hex : ℕ) : Vars6 :=
  let word (w : ℕ → UInt16) := Function.update w u.i (w u.i * 16 + UInt16.ofNat hex)
  if u.at_end then { u with addr_end := word u.addr_end, double_colon := false }
  else { u with addr_start := word u.addr_start, double_colon := false }

def str2ip6_loop : Vars6 → Str → Option Vars6
  | u, [] => some u
  | u, c :: s =>
    if c = chr ':' then
      if 7 < u.no_colons + 1 then none
      else if u.double_colon then
        if u.at_end then none
        else str2ip6_loop { u with
          no_colons := u.no_colons + 1, idx1 := u.i, i := 0, at_end := true } s
      else str2ip6_loop { u with no_colons := u.no_colons + 1, double_colon := true, i := u.i + 1 } s
    else
      match HEX2I c with
      | some hex => str2ip6_loop (u.push hex) s
      | none => none

/-- What is behind the loop of `str2ip6`: the words behind a double colon are moved to the end. -/
def str2ip6_end (u : Vars6) : Option IpAddr :=
  let i := if u.double_colon then u.i else u.i + 1
  if u.at_end then
    let rest := 8 - i - u.idx1
    some (.AF_INET6 fun r =>
      if u.idx1 + rest ≤ r.val ∧ r.val < u.idx1 + rest + i then u.addr_end (r.val - (u.idx1 + rest))
      else u.addr_start r.val)
  else if u.no_colons < 7 then none
  else some (.AF_INET6 fun r => u.addr_start r.val)

def str2ip6_init : Vars6 where
  i := 0
  idx1 := 0
  no_colons := 0
  double_colon := false
  at_end := false
  addr_start := fun _ => 0
  addr_end := fun _ => 0

def str2ip6 (st : Str) : Option IpAddr :=
  match st with
  | [] => (str2ip6_loop str2ip6_init []).bind str2ip6_end
  | c :: s =>
    if c = chr '[' then
      if st.getLastD 0 = chr ']' then (str2ip6_loop str2ip6_init s.dropLast).bind str2ip6_end else none
    else (str2ip6_loop str2ip6_init st).bind str2ip6_end

section Accepted

/-- The predicates of `OpenSips.Net` are about the same loops. -/
theorem str2ip_loop_isSome (i : Fin 4) (addr : Fin 4 → UInt8) (s : Str) :
    ((str2ip_loop i addr s).any fun x => decide (3 ≤ x.1.val)) = OpenSips.str2ip_loop i.val s := by
  induction s generalizing i addr with
  | nil => rfl
  | cons c s ih =>
    rw [str2ip_loop, OpenSips.str2ip_loop]
    by_cases hdot : c = chr '.'
    · rw [if_pos hdot, if_pos hdot]
      by_cases hi : i.val + 1 < 4
      · rw [dif_pos hi, if_neg (by omega)]
        exact ih ..
      · rw [dif_neg hi, if_pos (by omega)]
        rfl
    · rw [if_neg hdot, if_neg hdot]
      by_cases hdig : c ≤ chr '9' ∧ chr '0' ≤ c
      · rw [if_pos hdig, if_pos hdig.symm]
        exact ih ..
      · rw [if_neg hdig, if_neg fun h => hdig h.symm]
        rfl

theorem str2ip_isSome (st : Str) : (str2ip st).isSome = OpenSips.str2ip st := by
  refine Eq.trans ?_ (str2ip_loop_isSome 0 (fun _ => 0) st)
  rw [str2ip]
  cases str2ip_loop 0 (fun _ => 0) st with
  | none => rfl
  | some x =>
    obtain ⟨i, addr⟩ := x
    by_cases hi : i.val < 3
    · simp [hi]
    · simp [hi, le_of_not_gt hi]

theorem push_fields (u : Vars6) (hex : ℕ) : (u.push hex).no_colons = u.no_colons ∧
    (u.push hex).double_colon = false ∧ (u.push hex).at_end = u.at_end ∧ (u.push hex).i = u.i := by
  unfold Vars6.push
  split_ifs with h <;> exact ⟨rfl, rfl, rfl, rfl⟩

theorem str2ip6_loop_isSome (u : Vars6) (s : Str) : ((str2ip6_loop u s).bind str2ip6_end).isSome =
    OpenSips.str2ip6_loop u.no_colons u.double_colon u.at_end s := by
  induction s generalizing u with
  | nil =>
    show (str2ip6_end u).isSome = _
    rw [str2ip6_end, OpenSips.str2ip6_loop]
    cases u.at_end with
    | true => rfl
    | false =>
      by_cases hc : u.no_colons < 7
      · simp [hc, Nat.not_le_of_lt hc]
      · simp [hc, le_of_not_gt hc]
  | cons c s ih =>
    rw [str2ip6_loop, OpenSips.str2ip6_loop]
    by_cases hcolon : c = chr ':'
    · rw [if_pos hcolon, if_pos hcolon]
      split_ifs with h1 h2 h3
      · rfl
      · rfl
      · exact (ih _).trans (by rw [h2])
      · exact ih _
    · rw [if_neg hcolon, if_neg hcolon]
      cases hhex : HEX2I c with
      | none => rfl
      | some hex =>
        obtain ⟨h1, h2, h3, -⟩ := push_fields u hex
        exact (ih _).trans (by rw [h1, h2, h3, Option.isSome_some, if_pos rfl])

theorem str2ip6_isSome (st : Str) : (str2ip6 st).isSome = OpenSips.str2ip6 st := by
  cases st with
  | nil => exact str2ip6_loop_isSome str2ip6_init []
  | cons c s =>
    show (if _ then (if _ then _ else _) else _ : Option IpAddr).isSome = if _ then (if _ then _ else _) else _
    split_ifs
    · exact str2ip6_loop_isSome ..
    · rfl
    · exact str2ip6_loop_isSome ..

end Accepted

section RoundTrip

variable {i : Fin 4} {addr : Fin 4 → UInt8} {n : ℕ} {s : Str}

theorem str2ip_loop_digit : str2ip_loop i addr (digit n :: s) =
    str2ip_loop i (Function.update addr i (UInt8.ofNat ((addr i).toNat * 10 + n % 10))) s := by
  have h0 : (chr '0').toNat = 48 := rfl
  have hdot : digit n ≠ chr '.' := fun e => by
    have := congrArg UInt8.toNat e
    rw [digit_toNat, show (chr '.').toNat = 46 from rfl] at this
    omega
  rw [str2ip_loop, if_neg hdot, if_pos (digit_bounds n)]
  congr 2
  rw [← UInt8.toNat_inj, UInt8.toNat_sub, UInt8.toNat_add, UInt8.toNat_mul, UInt8.toNat_ofNat', h0,
    digit_toNat, show (10 : UInt8).toNat = 10 from rfl]
  omega

theorem str2ip_loop_octet (x : UInt8) (h : addr i = 0) :
    str2ip_loop i addr (octet x ++ s) = str2ip_loop i (Function.update addr i x) s := by
  have hx := x.toNat_lt
  have h0 : (addr i).toNat = 0 := by
    rw [h]
    rfl
  have hread : ∀ {a : Fin 4 → UInt8} {m : ℕ}, (a i).toNat = m → ∀ t k, str2ip_loop i a (digit k :: t) =
      str2ip_loop i (Function.update a i (UInt8.ofNat (m * 10 + k % 10))) t := fun hm t k => by
    rw [str2ip_loop_digit, hm]
  have hup : ∀ (a : Fin 4 → UInt8) (m : ℕ), m < 256 →
      (Function.update a i (UInt8.ofNat m) i).toNat = m := fun a m hm => by
    rw [update_self, UInt8.toNat_ofNat', Nat.mod_eq_of_lt hm]
  have hend : ∀ m, m = x.toNat → UInt8.ofNat m = x := fun m hm => by
    rw [hm, UInt8.ofNat_toNat]
  unfold octet
  dsimp only
  split_ifs with h1 h2
  · -- three digits
    show str2ip_loop i addr (digit _ :: digit _ :: digit _ :: s) = _
    rw [hread h0, hread (hup _ _ (by omega)), update_idem, hread (hup _ _ (by omega)),
      update_idem, hend _ (by omega)]
  · show str2ip_loop i addr (digit _ :: digit _ :: s) = _
    rw [hread h0, hread (hup _ _ (by omega)), update_idem, hend _ (by omega)]
  · show str2ip_loop i addr (digit _ :: s) = _
    rw [hread h0, hend _ (by omega)]

theorem str2ip_loop_dot (h : i.val + 1 < 4) :
    str2ip_loop i addr (chr '.' :: s) = str2ip_loop ⟨i.val + 1, h⟩ addr s := by
  rw [str2ip_loop, if_pos rfl, dif_pos h]

/-- **An IPv4 address is read back from its text.** -/
theorem str2ip_ip_addr2a (a : Fin 4 → UInt8) : str2ip (ip_addr2a (.AF_INET a)) = some (.AF_INET a) := by
  have htext : ip_addr2a (.AF_INET a) = octet (a 0) ++ chr '.' :: (octet (a 1) ++ chr '.' ::
      (octet (a 2) ++ chr '.' :: (octet (a 3) ++ []))) := by
    simp [ip_addr2a, List.finRange_succ]
  rw [htext, str2ip, str2ip_loop_octet _ rfl, str2ip_loop_dot (by decide), str2ip_loop_octet _ (by simp),
    str2ip_loop_dot (by decide), str2ip_loop_octet _ (by simp), str2ip_loop_dot (by decide),
    str2ip_loop_octet _ (by simp)]
  show some (IpAddr.AF_INET _) = _
  congr 2
  exact funext (Fin.forall_fin_succ.2 ⟨rfl, Fin.forall_fin_succ.2 ⟨rfl, Fin.forall_fin_two.2 ⟨rfl, rfl⟩⟩⟩)

variable {u : Vars6} {a : ℕ → UInt16} {k : ℕ}

theorem HEX2I_HEXDIG : ∀ n < 16, HEX2I (HEXDIG n) = some n ∧ HEXDIG n ≠ chr ':' := by decide

theorem str2ip6_loop_digit (hn : n < 16) : str2ip6_loop u (HEXDIG n :: s) = str2ip6_loop (u.push n) s := by
  obtain ⟨h1, h2⟩ := HEX2I_HEXDIG n hn
  rw [str2ip6_loop, if_neg h2, h1]

/-- The word the loop is in becomes `x`. -/
def Vars6.word (u : Vars6) (x : UInt16) : Vars6 :=
  { u with addr_start := Function.update u.addr_start u.i x, double_colon := false }

theorem push_word (x : UInt16) (h : u.at_end = false) :
    (u.word x).push n = u.word (x * 16 + UInt16.ofNat n) := by
  unfold Vars6.push Vars6.word
  dsimp only
  rw [h, if_neg Bool.false_ne_true, update_self, update_idem]

theorem push_zero (h : u.at_end = false) (h0 : u.addr_start u.i = 0) :
    u.push n = u.word (UInt16.ofNat n) := by
  unfold Vars6.push Vars6.word
  dsimp only
  rw [h, if_neg Bool.false_ne_true, h0, UInt16.zero_mul, UInt16.zero_add]

theorem str2ip6_loop_hex4 (x : UInt16) (h : u.at_end = false) (h0 : u.addr_start u.i = 0) :
    str2ip6_loop u (hex4 x ++ s) = str2ip6_loop (u.word x) s := by
  have hx := x.toNat_lt
  have hmul : ∀ m d : ℕ, UInt16.ofNat m * 16 + UInt16.ofNat d = UInt16.ofNat (m * 16 + d) := fun m d => by
    rw [UInt16.ofNat_add, UInt16.ofNat_mul]
    rfl
  have hend : ∀ m, m = x.toNat → UInt16.ofNat m = x := fun m hm => by
    rw [hm, UInt16.ofNat_toNat]
  unfold hex4
  dsimp only
  split_ifs with h1 h2 h3
  · -- four digits
    show str2ip6_loop u (HEXDIG _ :: HEXDIG _ :: HEXDIG _ :: HEXDIG _ :: s) = _
    rw [str2ip6_loop_digit (by omega), str2ip6_loop_digit (by omega), str2ip6_loop_digit (by omega),
      str2ip6_loop_digit (by omega), push_zero h h0, push_word _ h, push_word _ h, push_word _ h, hmul,
      hmul, hmul, hend _ (by omega)]
  · show str2ip6_loop u (HEXDIG _ :: HEXDIG _ :: HEXDIG _ :: s) = _
    rw [str2ip6_loop_digit (by omega), str2ip6_loop_digit (by omega), str2ip6_loop_digit (by omega),
      push_zero h h0, push_word _ h, push_word _ h, hmul, hmul, hend _ (by omega)]
  · show str2ip6_loop u (HEXDIG _ :: HEXDIG _ :: s) = _
    rw [str2ip6_loop_digit (by omega), str2ip6_loop_digit (by omega), push_zero h h0, push_word _ h,
      hmul, hend _ (by omega)]
  · show str2ip6_loop u (HEXDIG _ :: s) = _
    rw [str2ip6_loop_digit (by omega), push_zero h h0, hend _ (by omega)]

/-- The first `k` words of `a` were read, each with its colon. -/
def words6 (a : ℕ → UInt16) (k : ℕ) : Vars6 where
  i := k
  idx1 := 0
  no_colons := k
  double_colon := decide (k ≠ 0)
  at_end := false
  addr_start := fun r => if r < k then a r else 0
  addr_end := fun _ => 0

theorem words6_zero (a : ℕ → UInt16) (k : ℕ) : (words6 a k).addr_start k = 0 :=
  if_neg (lt_irrefl k)

theorem words6_next : Function.update (words6 a k).addr_start k (a k) = (words6 a (k + 1)).addr_start := by
  funext r
  show Function.update (fun r => if r < k then a r else 0) k (a k) r = if r < k + 1 then a r else 0
  by_cases hr : r = k
  · rw [hr, update_self, if_pos (Nat.lt_succ_self k)]
  · rw [update_of_ne hr]
    exact if_congr (by omega) rfl rfl

theorem str2ip6_loop_words6 (hk : k < 7) :
    str2ip6_loop (words6 a k) (hex4 (a k) ++ chr ':' :: s) = str2ip6_loop (words6 a (k + 1)) s := by
  have hword : (words6 a k).word (a k) =
      { words6 a k with addr_start := (words6 a (k + 1)).addr_start, double_colon := false } := by
    rw [← words6_next]
    rfl
  rw [str2ip6_loop_hex4 _ rfl (words6_zero a k), hword, str2ip6_loop, if_pos rfl]
  exact (if_neg (show ¬ 7 < k + 1 by omega)).trans (if_neg Bool.false_ne_true)

/-- **An IPv6 address is read back from its text.** -/
theorem str2ip6_ip_addr2a (a : Fin 8 → UInt16) :
    str2ip6 (ip_addr2a (.AF_INET6 a)) = some (.AF_INET6 a) := by
  obtain ⟨c, cs, htext, ⟨n, hn, hc⟩, -⟩ := ip_addr2a_inet6 a
  have hbr : c ≠ chr '[' := by
    rw [hc]
    exact (show ∀ n < 16, HEXDIG n ≠ chr '[' by decide) n hn
  have hloop : str2ip6 (c :: cs) = (str2ip6_loop str2ip6_init (c :: cs)).bind str2ip6_end := if_neg hbr
  rw [htext, hloop, ← htext]
  -- the words as a function of any index
  let b : ℕ → UInt16 := fun r => if h : r < 8 then a ⟨r, h⟩ else 0
  have hb : ip_addr2a (.AF_INET6 a) = hex4 (b 0) ++ chr ':' :: (hex4 (b 1) ++ chr ':' ::
      (hex4 (b 2) ++ chr ':' :: (hex4 (b 3) ++ chr ':' :: (hex4 (b 4) ++ chr ':' ::
      (hex4 (b 5) ++ chr ':' :: (hex4 (b 6) ++ chr ':' :: (hex4 (b 7) ++ []))))))) := by
    simp [ip_addr2a, List.finRange_succ, b]
  have h0 : str2ip6_init = words6 b 0 := rfl
  rw [hb, h0, str2ip6_loop_words6 (by omega), str2ip6_loop_words6 (by omega),
    str2ip6_loop_words6 (by omega), str2ip6_loop_words6 (by omega), str2ip6_loop_words6 (by omega),
    str2ip6_loop_words6 (by omega), str2ip6_loop_words6 (by omega),
    str2ip6_loop_hex4 _ rfl (words6_zero b 7), Vars6.word]
  show str2ip6_end { words6 b 7 with
    addr_start := Function.update (words6 b 7).addr_start 7 (b 7), double_colon := false } = _
  rw [words6_next]
  show some (IpAddr.AF_INET6 fun r => (words6 b 8).addr_start r.val) = _
  congr 2
  funext r
  show (if r.val < 8 then b r.val else 0) = a r
  rw [if_pos r.isLt]
  exact dif_pos r.isLt

/-- **The text of an address is the address.** -/
theorem address_round_trip : (∀ a, str2ip (ip_addr2a (.AF_INET a)) = some (.AF_INET a)) ∧
    ∀ a, str2ip6 (ip_addr2a (.AF_INET6 a)) = some (.AF_INET6 a) :=
  ⟨str2ip_ip_addr2a, str2ip6_ip_addr2a⟩

end RoundTrip

end OpenSips.Address
