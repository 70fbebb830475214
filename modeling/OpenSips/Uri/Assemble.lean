import OpenSips.Uri.Decompose

/-!
# OpenSips.Uri.Assemble — an accepted sip uri is put together again from its parts

The first four characters are compared with one bit of each of them set, so that the colon behind
`sip` may also be the character 26.
-/

namespace OpenSips.Uri

open Lib List Option Function

/-- A part lies in front of position `n`. -/
def Part.Inside (n : ℕ) : Part → Prop
  | .part s len => s + len ≤ n
  | _ => True

/-- A part behind a character, if there is one. -/
def behind (buf : Str) (c : Char) : Part → Str
  | .null => []
  | part => chr c :: part.text buf

/-- `[user [':' passwd] '@']` -/
def userinfo (buf : Str) (uri : SipUri) : Str :=
  match uri.user with
  | .null => []
  | user => user.text buf ++ behind buf ':' uri.passwd ++ [chr '@']

/-- `[user [':' passwd] '@'] host [':' port] [';' params] ['?' headers]` -/
def assemble (buf : Str) (uri : SipUri) : Str :=
  userinfo buf uri ++ uri.host.text buf ++ behind buf ':' uri.port ++ behind buf ';' uri.params ++
    behind buf '?' uri.headers

def scheme_name : UriType → Str
  | .SIPS_URI_T => ['s', 'i', 'p', 's'].map chr
  | _ => ['s', 'i', 'p'].map chr

/-- **The decomposition loses nothing.** -/
structure Lossless (buf : Str) (uri : SipUri) : Prop where
  whole : ∃ sch, sch.map lower = scheme_name uri.type ∧ Decomposes buf (sch.length + 1) uri ∧
    buf = sch ++ chr ':' :: assemble buf uri
  inside : ∀ part ∈ [uri.user, uri.passwd, uri.host, uri.port, uri.params, uri.headers],
    part.Inside buf.length
  records : ∀ k, (uri.given k).Inside buf.length ∧ (uri.value k).Inside buf.length
  passwd : uri.passwd ≠ .null → uri.user ≠ .null
  host : uri.host.text buf ≠ []

section Scheme

theorem or_split {x c k : ℕ} (h : x ||| c = k) :
    x % 256 ||| c % 256 = k % 256 ∧ x / 256 ||| c / 256 = k / 256 := by
  constructor
  · rw [← h]
    exact (Nat.or_mod_two_pow (n := 8)).symm
  · rw [← h]
    exact (Nat.or_div_two_pow (n := 8)).symm

theorem or_32 (x : ℕ) : x = x ||| 32 ∨ x + 32 = x ||| 32 := by
  have h1 : (x ||| 32) % 32 = x % 32 := by
    rw [show 32 = 2 ^ 5 from rfl, Nat.or_mod_two_pow, Nat.mod_self, Nat.or_zero]
  have h2 : (x ||| 32) / 32 / 2 = x / 32 / 2 := by
    rw [Nat.div_div_eq_div_mul, Nat.div_div_eq_div_mul, show 32 * 2 = 2 ^ 6 from rfl,
      Nat.or_div_two_pow, show 32 / 2 ^ 6 = 0 from rfl, Nat.or_zero]
  have h3 : (x ||| 32) / 32 % 2 = 1 := by
    rw [show 32 = 2 ^ 5 from rfl, Nat.or_div_two_pow, Nat.div_self (by decide), ← Nat.pow_one 2,
      Nat.or_mod_two_pow]
    rcases Nat.mod_two_eq_zero_or_one (x / 2 ^ 5) with h | h <;> rw [Nat.pow_one, h] <;> rfl
  omega

theorem schar_cases (ch : UInt8) : ch.toNat < 128 ∧ schar ch = ch.toNat ∨
    128 ≤ ch.toNat ∧ ch.toNat < 256 ∧ schar ch = (ch.toNat : ℤ) - 256 := by
  have hlt := ch.toNat_lt
  unfold schar
  rw [Int.bmod_def]
  split <;> omega

theorem schar_digit {ch : UInt8} {rest : ℤ} {m : ℤ} (hm : m = 2 ^ 24 ∨ m = 2 ^ 16 ∨ m = 2 ^ 8 ∨ m = 1)
    {x : ℕ} (hx : (x : ℤ) = (schar ch + 256 * rest) % (256 * m)) (hlt : x % 256 < 128) :
    x % 256 = ch.toNat ∧ ((x / 256 : ℕ) : ℤ) = rest % m := by
  have hs := schar_cases ch
  rcases hm with rfl | rfl | rfl | rfl <;> omega

theorem scheme_bytes {b0 b1 b2 b3 : UInt8} (k0 k1 k2 k3 : ℕ) (h0 : k0 < 128) (h1 : k1 < 128)
    (h2 : k2 < 128) (h3 : k3 < 128)
    (h : scheme b0 b1 b2 b3 = k0 + 256 * (k1 + 256 * (k2 + 256 * k3))) :
    (b0.toNat = k0 ∨ b0.toNat + 32 = k0) ∧ (b1.toNat = k1 ∨ b1.toNat + 32 = k1) ∧
      (b2.toNat = k2 ∨ b2.toNat + 32 = k2) ∧ (b3.toNat = k3 ∨ b3.toNat + 32 = k3) := by
  unfold scheme at h
  obtain ⟨x, hx⟩ : ∃ x, x = ((schar b0 + schar b1 * 2 ^ 8 + schar b2 * 2 ^ 16 +
    schar b3 * 2 ^ 24) % 2 ^ 32).toNat := ⟨_, rfl⟩
  rw [← hx] at h
  have hx' : (x : ℤ) = (schar b0 + 256 * (schar b1 + 256 * (schar b2 + 256 * (schar b3 + 256 * 0)))) %
      (256 * 2 ^ 24) := by
    have hsum : schar b0 + schar b1 * 2 ^ 8 + schar b2 * 2 ^ 16 + schar b3 * 2 ^ 24 =
        schar b0 + 256 * (schar b1 + 256 * (schar b2 + 256 * (schar b3 + 256 * 0))) := by omega
    have hpow : (2 : ℤ) ^ 32 = 256 * 2 ^ 24 := by omega
    rw [hx, Int.toNat_of_nonneg (Int.emod_nonneg _ (by omega)), hsum, hpow]
  obtain ⟨e0, h⟩ := or_split h
  obtain ⟨e1, h⟩ := or_split h
  obtain ⟨e2, h⟩ := or_split h
  obtain ⟨e3, -⟩ := or_split h
  have d0 : x % 256 = k0 ∨ x % 256 + 32 = k0 := by
    have := or_32 (x % 256)
    rw [show x % 256 ||| 32 = _ from e0] at this
    omega
  obtain ⟨y0, hx1⟩ := schar_digit (.inl rfl) hx' (by omega)
  have d1 : x / 256 % 256 = k1 ∨ x / 256 % 256 + 32 = k1 := by
    have := or_32 (x / 256 % 256)
    rw [show x / 256 % 256 ||| 32 = _ from e1] at this
    omega
  obtain ⟨y1, hx2⟩ := schar_digit (.inr (.inl rfl)) hx1 (by omega)
  have d2 : x / 256 / 256 % 256 = k2 ∨ x / 256 / 256 % 256 + 32 = k2 := by
    have := or_32 (x / 256 / 256 % 256)
    rw [show x / 256 / 256 % 256 ||| 32 = _ from e2] at this
    omega
  obtain ⟨y2, hx3⟩ := schar_digit (.inr (.inr (.inl rfl))) hx2 (by omega)
  have d3 : x / 256 / 256 / 256 % 256 = k3 ∨ x / 256 / 256 / 256 % 256 + 32 = k3 := by
    have := or_32 (x / 256 / 256 / 256 % 256)
    rw [show x / 256 / 256 / 256 % 256 ||| 32 = _ from e3] at this
    omega
  obtain ⟨y3, -⟩ := schar_digit (.inr (.inr (.inr rfl))) hx3 (by omega)
  rw [← y0, ← y1, ← y2, ← y3]
  exact ⟨d0, d1, d2, d3⟩

end Scheme

section Runs

variable {buf : Str} {p0 p : ℕ} {u u' : Vars} {ch : UInt8} {uri : SipUri}

/-- What a run keeps of the type and of the places of what is recorded. -/
structure Kept (type : UriType) (p : ℕ) (u : Vars) : Prop where
  type : u.uri.type = type
  b : u.b ≤ p
  v : u.v ≤ p
  given : ∀ k, (u.uri.given k).Inside p
  value : ∀ k, (u.uri.value k).Inside p

theorem Part.Inside.succ {part : Part} (h : part.Inside p) : part.Inside (p + 1) := by
  cases part with
  | part s len => exact Nat.le_succ_of_le h
  | null => trivial
  | empty => trivial

theorem inside_update {f : Param → Part} (h : ∀ k, (f k).Inside p) {s : ℕ} (hs : s ≤ p) (k k' : Param) :
    (Function.update f k (.part s (p - s)) k').Inside p := by
  by_cases hk : k' = k
  · subst hk
    rw [update_self]
    exact le_of_eq (Nat.add_sub_cancel' hs)
  · rw [update_of_ne hk]
    exact h k'

variable {type : UriType}

section

variable (h : Kept type p u)
include h

theorem Kept.param_set : Kept type p (param_set u p) := by
  unfold Uri.param_set
  cases hk : u.param with
  | none => exact h
  | some k =>
    exact ⟨h.type, h.b, h.v, inside_update h.given h.b k, inside_update h.value h.v k⟩

theorem Kept.flag_set (k : Param) : Kept type p (flag_set u k p) :=
  ⟨h.type, h.b, h.v, inside_update h.given h.b k, h.value⟩

theorem Kept.recorded : Kept type p (recorded u p) := by
  unfold Uri.recorded
  by_cases hv : in_value u.state = true
  · rw [if_pos hv]
    cases behind_proto u.state with
    | none => exact h.param_set
    | some proto =>
      exact ⟨h.param_set.type, h.param_set.b, h.param_set.v, h.param_set.given, h.param_set.value⟩
  · rw [if_neg hv]
    cases behind_flag u.state with
    | none => exact h
    | some k => exact h.flag_set k

theorem Kept.entered : Kept type p (entered u) := by
  unfold Uri.entered
  cases behind_eq u.state
  · exact h
  · exact ⟨h.type, h.b, h.v, h.given, h.value⟩

theorem Kept.went_on (ch : UInt8) : Kept type p (went_on u p ch) := by
  have he := h.entered
  refine ⟨he.type, ?_, ?_, he.given, he.value⟩
  · show (if _ then p else u.b) ≤ p
    split
    · exact Nat.le_refl p
    · exact h.b
  · show (if _ then p else u.v) ≤ p
    split
    · exact Nat.le_refl p
    · exact h.v

theorem Kept.succ : Kept type (p + 1) u :=
  ⟨h.type, Nat.le_succ_of_le h.b, Nat.le_succ_of_le h.v, fun k => (h.given k).succ, fun k => (h.value k).succ⟩

theorem Kept.congr (hb : u'.b = u.b) (hv : u'.v = u.v)
    (ht : u'.uri.type = u.uri.type) (hr : SameRecords u.uri u'.uri) : Kept type p u' := by
  refine ⟨ht.trans h.type, hb ▸ h.b, hv ▸ h.v, ?_, ?_⟩
  · rw [hr.given]
    exact h.given
  · rw [hr.value]
    exact h.value

end

theorem still_at_user_type (e : still_at_user u p = .ok u') : u'.uri.type = u.uri.type := by
  unfold still_at_user at e
  split_ifs at e
  cases hp : u.pass <;> rw [hp] at e <;> cases e <;> rfl

theorem turn_outside_type (h : in_params u.state = false) (e : turn u p ch = .ok u') :
    u'.uri.type = u.uri.type := by
  cases hs : u.state <;> rw [hs] at h <;> first
    | exact absurd h.symm Bool.false_ne_true
    | (rw [turn, hs] at e
       dsimp only [check_host_end, case_port] at e
       split_ifs at e <;> first
         | exact still_at_user_type e
         | (cases e; rfl)
         | (cases e; simp))

theorem Kept.still_at_user (h : Kept type p u) (e : still_at_user u p = .ok u') : Kept type p u' := by
  obtain ⟨hb, hv, -, hg, hva, -⟩ := still_at_user_records e
  refine ⟨(still_at_user_type e).trans h.type, hb ▸ h.b, hv ▸ h.v, fun k => ?_, fun k => ?_⟩
  · rw [hg]
    trivial
  · rw [hva]
    trivial

theorem Kept.turn (h : Kept type p u) (e : turn u p ch = .ok u') : Kept type (p + 1) u' := by
  refine Kept.succ ?_
  by_cases hin : in_params u.state = true
  · by_cases hat : ch = chr '@'
    · subst hat
      rw [turn_at hin] at e
      exact h.entered.still_at_user e
    · by_cases hsc : ch = chr ';'
      · subst hsc
        rw [turn_semicolon hin] at e
        cases e
        exact h.entered.recorded.congr (by simp [semicolon_case]) (by simp [semicolon_case])
          (by simp [semicolon_case]) ⟨by simp [semicolon_case], by simp [semicolon_case],
            by simp [semicolon_case]⟩
      · by_cases hq : ch = chr '?'
        · subst hq
          rw [turn_question hin] at e
          cases e
          exact h.entered.recorded.congr (by simp [question_case]) (by simp [question_case])
            rfl ⟨rfl, rfl, rfl⟩
        · have hends : ¬ ends ch := by simp [ends, hat, hsc, hq]
          by_cases hc : ch = chr ':'
          · subst hc
            rw [turn_colon hin] at e
            cases e
            exact Kept.went_on (h.congr (by simp) (by simp) (by simp) ⟨by simp, by simp, by simp⟩) _
          · rw [turn_other hin hends hc] at e
            cases e
            exact h.went_on ch
  · have hin' : in_params u.state = false := Bool.eq_false_iff.2 hin
    rcases turn_outside hin' e with e' | ⟨hb, hv, hr⟩
    · exact h.still_at_user e'
    · exact h.congr hb hv (turn_outside_type hin' e) hr

theorem Kept.end_of_uri (h : Kept type p u) (e : end_of_uri u p = .ok uri) :
    uri.type = type ∧ ∀ k, (uri.given k).Inside p ∧ (uri.value k).Inside p := by
  by_cases hin : in_params u.state = true
  · obtain rfl := end_of_params hin e
    have hp : Kept type p (params_set u p) := ⟨h.type, h.b, h.v, h.given, h.value⟩
    have : Kept type p (recorded_last (params_set u p) p) := by
      unfold recorded_last
      split
      · exact hp.flag_set .lr
      · exact hp.flag_set .r2
      · exact hp.recorded
    exact ⟨this.type, fun k => ⟨this.given k, this.value k⟩⟩
  · suffices uri.type = u.uri.type ∧ uri.given = u.uri.given ∧ uri.value = u.uri.value by
      obtain ⟨ht, hg, hv⟩ := this
      exact ⟨ht.trans h.type, fun k => ⟨hg ▸ h.given k, hv ▸ h.value k⟩⟩
    cases hs : u.state <;> rw [hs] at hin <;> first
      | exact absurd rfl hin
      | (rw [Uri.end_of_uri, hs] at e
         dsimp only at e
         try split_ifs at e
         all_goals cases e
         all_goals exact ⟨rfl, rfl, rfl⟩)

end Runs

section Text

variable {buf : Str} {p0 : ℕ} {uri : SipUri}

theorem take_char {e : ℕ} {c : UInt8} (h : buf[e]? = some c) : buf.take (e + 1) = buf.take e ++ [c] := by
  rw [take_add_one, h, toList_some]

theorem take_part (s n : ℕ) : buf.take (s + n) = buf.take s ++ (Part.part s n).text buf := by
  rw [take_add, Part.text]

variable {part : Part} {c : Char}

theorem Follows.take {e e' : ℕ} (h : Follows buf c part e e') :
    buf.take e' = buf.take e ++ behind buf c part := by
  rcases h with ⟨rfl, rfl⟩ | ⟨n, rfl, hc, rfl⟩
  · rw [behind, append_nil]
  · rw [take_part, take_char hc, append_assoc, singleton_append]
    rfl

theorem Follows.le {e e' : ℕ} (h : Follows buf c part e e') : e ≤ e' := by
  rcases h with ⟨-, rfl⟩ | ⟨n, -, -, rfl⟩ <;> omega

theorem Follows.inside {e e' n : ℕ} (h : Follows buf c part e e') (hn : e' ≤ n) : part.Inside n := by
  rcases h with ⟨rfl, rfl⟩ | ⟨m, rfl, -, rfl⟩
  · trivial
  · exact hn

theorem UserAt.take {h : ℕ} (hu : UserAt buf p0 uri h) :
    buf.take h = buf.take p0 ++ userinfo buf uri := by
  rcases hu with ⟨hu, -, rfl⟩ | ⟨n, hu, hp, ha, rfl⟩ | ⟨n, m, hu, hp, hc, ha, rfl⟩
  · rw [userinfo, hu, append_nil]
  · rw [userinfo, hu, hp, take_char ha, take_part, behind]
    simp only [append_nil, append_assoc]
  · rw [userinfo, hu, hp, take_char ha, take_part, take_char hc, take_part]
    simp only [behind, append_assoc, nil_append, cons_append]

section

variable (h : Decomposes buf p0 uri)
include h

/-- **The text of a uri that is laid out in its parts.** -/
theorem Decomposes.text : buf = buf.take p0 ++ assemble buf uri := by
  obtain ⟨h, n, e1, e2, hu, hh, -, h1, h2, h3⟩ := h
  have e := h3.take
  rw [take_length, h2.take, h1.take, take_part, hu.take] at e
  rw [assemble, hh]
  simpa only [append_assoc] using e

theorem Decomposes.inside : ∀ part ∈ [uri.user, uri.passwd, uri.host, uri.port, uri.params, uri.headers],
      part.Inside buf.length := by
  obtain ⟨h, n, e1, e2, hu, hh, -, h1, h2, h3⟩ := h
  have l1 := h1.le
  have l2 := h2.le
  have l3 := h3.le
  have hhost : uri.host.Inside buf.length := by
    rw [hh]
    exact le_trans l1 (le_trans l2 l3)
  have huser : uri.user.Inside buf.length ∧ uri.passwd.Inside buf.length := by
    rcases hu with ⟨hu, hp, -⟩ | ⟨m, hu, hp, -, rfl⟩ | ⟨m, k, hu, hp, -, -, rfl⟩
    · rw [hu, hp]
      exact ⟨trivial, trivial⟩
    · rw [hu, hp]
      refine ⟨?_, trivial⟩
      show _ ≤ _
      omega
    · rw [hu, hp]
      constructor <;> show _ ≤ _ <;> omega
  intro part hmem
  simp only [mem_cons, not_mem_nil, or_false] at hmem
  rcases hmem with rfl | rfl | rfl | rfl | rfl | rfl
  · exact huser.1
  · exact huser.2
  · exact hhost
  · exact h1.inside (le_trans l2 l3)
  · exact h2.inside l3
  · exact h3.inside (le_rfl)

theorem Decomposes.passwd (hp : uri.passwd ≠ .null) : uri.user ≠ .null := by
  obtain ⟨h, n, e1, e2, hu, -⟩ := h
  rcases hu with ⟨-, hn, -⟩ | ⟨m, -, hn, -⟩ | ⟨m, k, hu, -⟩
  · exact absurd hn hp
  · exact absurd hn hp
  · rw [hu]
    simp

theorem Decomposes.host : uri.host.text buf ≠ [] := by
  obtain ⟨h, n, e1, e2, -, hh, hn, h1, h2, h3⟩ := h
  have l := le_trans h1.le (le_trans h2.le h3.le)
  rw [hh, Part.text, Ne, ← length_eq_zero_iff, length_take, length_drop]
  omega

end

end Text

section Parsed

variable {buf : Str} {uri : SipUri}

theorem parse_parts_ok (e : parse_parts buf = .ok uri) : ∃ type p0 u,
    read_scheme buf = .ok (type, p0) ∧ scan turn (start type p0) p0 (buf.drop p0) = .ok u ∧
      end_of_uri u buf.length = .ok uri := by
  unfold parse_parts at e
  cases h1 : read_scheme buf with
  | error x =>
    rw [h1] at e
    cases e
  | ok r =>
    obtain ⟨type, p0⟩ := r
    rw [h1] at e
    dsimp only [bind, Except.bind] at e
    cases h2 : scan turn (start type p0) p0 (buf.drop p0) with
    | error x =>
      rw [h2] at e
      cases e
    | ok u =>
      rw [h2] at e
      exact ⟨type, p0, u, rfl, h2, e⟩

theorem parse_uri_parts (e : parse_uri buf = .ok uri)
    (ht : uri.type = .SIP_URI_T ∨ uri.type = .SIPS_URI_T) : parse_parts buf = .ok uri := by
  unfold parse_uri at e
  cases h1 : parse_parts buf with
  | error x =>
    rw [h1] at e
    cases e
  | ok uri' =>
    rw [h1] at e
    have hmove : ∀ v : SipUri, (move_params buf v).type = v.type := by
      intro v
      unfold move_params
      split
      · dsimp only
        split <;> rfl
      · rfl
    change fix_type buf uri' = .ok uri at e
    unfold fix_type at e
    split at e
    · split at e
      · cases e
        rw [hmove] at ht
        exact absurd ht (by simp)
      · exact e
    · split at e
      · cases e
        rw [hmove] at ht
        exact absurd ht (by simp)
      · exact e
    · next h =>
      cases e
      exact absurd ht (by simp [h])
    · next h =>
      cases e
      exact absurd ht (by simp [h])
    · cases e

end Parsed

section Accepted

theorem toNat_chr {c : Char} (hc : c.toNat < 256) : (chr c).toNat = c.toNat := by
  simp [chr]
  omega

theorem lower_of_bytes {c : Char} (hc : 97 ≤ c.toNat ∧ c.toNat ≤ 122) {b : UInt8}
    (h : b.toNat = c.toNat ∨ b.toNat + 32 = c.toNat) : lower b = chr c := by
  have hcc := toNat_chr (c := c) (by omega)
  rw [lower_eq hc]
  rcases h with h | h
  · exact .inl (UInt8.toNat_inj.1 (h.trans hcc.symm))
  · refine .inr (UInt8.toNat_inj.1 ?_)
    rw [UInt8.toNat_sub_of_le _ _ (by rw [UInt8.le_iff_toNat_le, hcc]; simp; omega), hcc]
    simp
    omega

theorem read_scheme_le {buf : Str} {type : UriType} {p0 : ℕ}
    (e : read_scheme buf = .ok (type, p0)) : p0 ≤ buf.length := by
  unfold read_scheme at e
  split at e
  case h_2 => cases e
  case h_1 b0 b1 b2 b3 b4 rest =>
    split_ifs at e <;> cases e <;> simp

/-- What the scheme comparison accepts: the character behind `sip` is a colon or 26. -/
theorem read_scheme_sip {buf : Str} {type : UriType} {p0 : ℕ}
    (e : read_scheme buf = .ok (type, p0)) (ht : type = .SIP_URI_T ∨ type = .SIPS_URI_T) :
    ∃ sch c, buf.take p0 = sch ++ [c] ∧ sch.length + 1 = p0 ∧
      sch.map lower = scheme_name type ∧ (c = chr ':' ∨ c = 26 ∧ type = .SIP_URI_T) := by
  unfold read_scheme at e
  split at e
  case h_2 => cases e
  case h_1 b0 b1 b2 b3 b4 rest =>
    split_ifs at e with h1 h2 h3 h4
    · cases e
      obtain ⟨e0, e1, e2, e3⟩ := scheme_bytes 0x73 0x69 0x70 0x3a
        (by decide) (by decide) (by decide) (by decide) (h1.trans rfl)
      refine ⟨[b0, b1, b2], b3, rfl, rfl, ?_, ?_⟩
      · show [lower b0, lower b1, lower b2] = [chr 's', chr 'i', chr 'p']
        rw [lower_of_bytes (c := 's') (by decide) e0, lower_of_bytes (c := 'i') (by decide) e1,
          lower_of_bytes (c := 'p') (by decide) e2]
      · rcases e3 with e3 | e3
        · exact .inl (UInt8.toNat_inj.1 e3)
        · exact .inr ⟨UInt8.toNat_inj.1 (Nat.add_right_cancel e3), rfl⟩
    · cases e
      obtain ⟨e0, e1, e2, e3⟩ := scheme_bytes 0x73 0x69 0x70 0x73
        (by decide) (by decide) (by decide) (by decide) (h2.trans rfl)
      refine ⟨[b0, b1, b2, b3], b4, rfl, rfl, ?_, .inl h3⟩
      show [lower b0, lower b1, lower b2, lower b3] = [chr 's', chr 'i', chr 'p', chr 's']
      rw [lower_of_bytes (c := 's') (by decide) e0, lower_of_bytes (c := 'i') (by decide) e1,
        lower_of_bytes (c := 'p') (by decide) e2, lower_of_bytes (c := 's') (by decide) e3]
    · cases e
      exact absurd ht (by decide)

theorem Lossless.colon {buf : Str} {uri : SipUri} (h : Lossless buf uri) : buf[3]? ≠ some 26 := by
  obtain ⟨sch, h1, -, h3⟩ := h.whole
  rw [h3]
  unfold scheme_name at h1
  split at h1
  · -- the fourth character is a letter
    have hlen : sch.length = 4 := by simpa using congrArg List.length h1
    obtain ⟨b0, b1, b2, b3, rfl⟩ := length_eq_four.1 hlen
    intro h26
    obtain rfl : b3 = 26 := some.inj h26
    simp at h1
    exact absurd h1.2.2.2 (by decide)
  · have hlen : sch.length = 3 := by simpa using congrArg List.length h1
    obtain ⟨b0, b1, b2, rfl⟩ := length_eq_three.1 hlen
    intro h26
    exact absurd (some.inj h26) (by decide)

/-- **`parse_uri` decomposes without loss**, exactly when the character behind the scheme is the
colon. -/
theorem parse_uri_lossless {buf : Str} {uri : SipUri} (e : parse_uri buf = .ok uri)
    (ht : uri.type = .SIP_URI_T ∨ uri.type = .SIPS_URI_T) :
    Lossless buf uri ↔ buf[3]? ≠ some 26 := by
  refine ⟨fun h => h.colon, fun h26 => ?_⟩
  obtain ⟨type, p0, u, hsch, hscan, hend⟩ := parse_parts_ok (parse_uri_parts e ht)
  have hp0 := read_scheme_le hsch
  have hlaid : Laid buf p0 buf.length u := by
    refine (scan_invariant (I := fun p u => p0 ≤ p ∧ Laid buf p0 p u)
      (fun p u ch u' hch h e => ⟨Nat.le_succ_of_le h.1, laid_turn h.1 h.2 hch e⟩) hp0 ?_ hscan).2
    exact ⟨Nat.le_refl _, rfl, rfl, rfl, rfl, ⟨rfl, rfl⟩, rfl, rfl, rfl, rfl⟩
  have hkept : Kept type buf.length u := by
    refine scan_invariant (fun p u ch u' _ h e => h.turn e) hp0 ?_ hscan
    exact ⟨rfl, Nat.zero_le _, Nat.zero_le _, fun _ => trivial, fun _ => trivial⟩
  obtain ⟨rfl, hrec⟩ := hkept.end_of_uri hend
  have hdec := laid_end hlaid hend
  obtain ⟨sch, c, hc1, hc2, hc3, hc4⟩ := read_scheme_sip hsch ht
  have htext := hdec.text
  rw [hc1, append_assoc, singleton_append] at htext
  have hc : c = chr ':' := by
    rcases hc4 with rfl | ⟨rfl, hsip⟩
    · rfl
    · -- the scheme is `sip`, and its colon the fourth character
      rw [hsip] at hc3
      have hlen := congrArg List.length hc3
      rw [length_map] at hlen
      obtain ⟨b0, b1, b2, rfl⟩ := length_eq_three.1 hlen
      exact absurd (by rw [htext]; rfl) h26
  exact ⟨⟨sch, hc3, by rwa [hc2], by rwa [hc] at htext⟩, hdec.inside, hrec, hdec.passwd, hdec.host⟩

set_option maxRecDepth 10000 in
theorem parse_uri_lossless_user : ∃ uri,
    parse_uri (['s', 'i', 'p', ':', 'a', ':', 'b', '@', 'c', ';', 'd'].map chr) = .ok uri ∧
      Lossless (['s', 'i', 'p', ':', 'a', ':', 'b', '@', 'c', ';', 'd'].map chr) uri := by
  obtain ⟨uri, e, ht⟩ : ∃ uri, parse_uri (['s', 'i', 'p', ':', 'a', ':', 'b', '@', 'c', ';', 'd'].map
    chr) = .ok uri ∧ uri.type = .SIP_URI_T := ⟨_, rfl, rfl⟩
  exact ⟨uri, e, (parse_uri_lossless e (.inl ht)).2 (by decide)⟩

set_option maxRecDepth 10000 in
/-- A uri with the character 26 for the colon. -/
theorem parse_uri_no_colon : ¬ ∀ buf uri, parse_uri buf = .ok uri →
    uri.type = .SIP_URI_T ∨ uri.type = .SIPS_URI_T → Lossless buf uri := by
  intro h
  obtain ⟨uri, e, ht⟩ : ∃ uri, parse_uri [115, 105, 112, 26, 97] = .ok uri ∧
    uri.type = .SIP_URI_T := ⟨_, rfl, rfl⟩
  obtain ⟨sch, h1, -, h3⟩ := (h _ uri e (.inl ht)).whole
  rw [ht] at h1
  have hlen : sch.length = 3 := by simpa [scheme_name] using congrArg List.length h1
  obtain ⟨b0, b1, b2, rfl⟩ := length_eq_three.1 hlen
  injection h3 with _ h3
  injection h3 with _ h3
  injection h3 with _ h3
  injection h3 with h3 _
  exact absurd h3 (by decide)

end Accepted

end OpenSips.Uri
