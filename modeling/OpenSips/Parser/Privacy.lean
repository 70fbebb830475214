import OpenSips.Parser.Iterate
import OpenSips.Parser.Param
import Mathlib.Data.Nat.Bitwise

/-!
# OpenSips.Parser.Privacy — the Privacy header field (`parse_privacy.c`)

The counter that the value matcher is given is lowered by what it matches, not by what is skipped between two
values: it is never less than what is left of the body, and behind the body stands a byte that is in no value.
-/

namespace OpenSips.Privacy

open OpenSips.Parser List Option
open FirstLine (forall_char isLetter tolower same_case)
open ParseParam (Named SEMICOLON blank either either_iff)

section Source

def PRIVACY_USER := 1
def PRIVACY_HEADER := 2
def PRIVACY_SESSION := 4
def PRIVACY_NONE := 8
def PRIVACY_CRITICAL := 16
def PRIVACY_ID := 32
def PRIVACY_HISTORY := 64

-- what stands in memory behind the body
variable (more : ℕ → UInt8)

/-- `p[i]`, when `s` is left of the body. -/
def byte (s : Str) (i : ℕ) : UInt8 := (s[i]?).getD (more (i - s.length))

/-- `strncasecmp(start, text, strlen(text)) == 0`, for a text in lower case. -/
def same (s : Str) (text : String) : Bool :=
  (List.range text.length).map (fun i => tolower (byte more s i)) == text.toList.map chr

/-- The switch of `parse_priv_value`: the length and the value. -/
def known_value (s : Str) (max_len : ℕ) : Option (ℕ × ℕ) :=
  if either (byte more s 0) 'c' 'C' then
    if max_len < 8 then none
    else if same more s "critical" then some (8, PRIVACY_CRITICAL)
    else none
  else if either (byte more s 0) 'h' 'H' then
    if max_len < 6 then none
    else if same more s "header" then some (6, PRIVACY_HEADER)
    else if max_len < 7 then none
    else if same more s "history" then some (7, PRIVACY_HISTORY)
    else none
  else if either (byte more s 0) 'i' 'I' then
    if max_len < 2 then none
    else if either (byte more s 1) 'd' 'D' then some (2, PRIVACY_ID)
    else none
  else if either (byte more s 0) 'n' 'N' then
    if max_len < 4 then none
    else if same more s "none" then some (4, PRIVACY_NONE)
    else none
  else if either (byte more s 0) 's' 'S' then
    if max_len < 7 then none
    else if same more s "session" then some (7, PRIVACY_SESSION)
    else none
  else if either (byte more s 0) 'u' 'U' then
    if max_len < 4 then none
    else if same more s "user" then some (4, PRIVACY_USER)
    else none
  else none

def ends_value (c : UInt8) : Bool := c == 0 || c == SEMICOLON || blank c

def parse_priv_value (s : Str) (max_len : ℕ) : Option (ℕ × ℕ) :=
  (known_value more s max_len).bind fun r =>
    if r.1 < max_len ∧ ends_value (byte more s r.1) = false then none else some r

/-- The loop of `parse_privacy`; `len` is its counter, and a turn takes a byte at least. -/
def values_loop : ℕ → Str → ℕ → ℕ → Option ℕ
  | 0, _, _, _ => none
  | fuel + 1, s, len, values =>
    if s = [] then some values
    else
      match parse_priv_value more s len with
      | none => none
      | some (val_len, value) =>
        match (s.drop val_len).dropWhile blank with
        | [] => some (values ||| value)
        | c :: p =>
          if c = SEMICOLON then
            if p.dropWhile blank = [] then none
            else values_loop fuel (p.dropWhile blank) (len - val_len) (values ||| value)
          else none

def parse_values (body : Str) : Option ℕ :=
  let next := body.dropWhile blank
  if next = [] then none
  else
    match values_loop more (next.length + 1) next next.length 0 with
    | none => none
    | some values =>
      if values &&& PRIVACY_NONE ≠ 0 ∧ values ^^^ PRIVACY_NONE ≠ 0 then none else some values

end Source

section Message

/-- A message with what `parsed` of its Privacy header fields holds; 0 is `NULL`. -/
structure Message where
  msg : SipMsg
  parsed : ℕ → ℕ

/-- The header field that `msg->privacy` points at, which may have to be looked for first. -/
def find_privacy (P : Parsers) (past : UInt8) (m : SipMsg) : Option (SipMsg × Option ℕ) :=
  if m.hook .PRIVACY ≠ 0 then some (m, some (m.hook .PRIVACY))
  else (parse_headers P past m (HDR_T2F .PRIVACY) false).map fun (m, ret) =>
    (m, if ret = -1 ∨ m.hook .PRIVACY = 0 then none else some (m.hook .PRIVACY))

/-- `parse_privacy`, `behind` being what stands in memory behind the message. -/
def parse_privacy (P : Parsers) (past : UInt8) (behind : ℕ → UInt8) (m : Message) : Option (Message × ℤ) :=
  if m.msg.hook .PRIVACY ≠ 0 ∧ m.parsed (m.msg.hook .PRIVACY) ≠ 0 then some (m, 0)
  else do
    let (msg, h) ← find_privacy P past m.msg
    match h with
    | none => some ({ m with msg := msg }, -1)
    | some h => do
      let x ← msg.hdr h
      let text ← msg.target x.body.s
      let body ← SipMsg.cut text 0 x.body.len
      let rest := text.drop body.length
      match parse_values (fun i => (rest[i]?).getD (behind (i - rest.length))) body with
      | none => some ({ m with msg := msg }, -1)
      | some values => some (⟨msg, Function.update m.parsed h values⟩, 0)

end Message

section Grammar

def priv_names : List (String × ℕ) :=
  [("critical", PRIVACY_CRITICAL), ("header", PRIVACY_HEADER), ("history", PRIVACY_HISTORY), ("id", PRIVACY_ID),
    ("none", PRIVACY_NONE), ("session", PRIVACY_SESSION), ("user", PRIVACY_USER)]

def Blanks (w : Str) : Prop := ∀ c ∈ w, blank c = true

/-- `v` is the value `m`, without regard to case. -/
def IsValue (v : Str) (m : ℕ) : Prop := ∃ n ∈ priv_names, Named v n.1 ∧ n.2 = m

/-- Values separated by `;`, with white space around them. -/
inductive ValueList : Str → List ℕ → Prop where
  | last {a v b : Str} {m : ℕ} (before : Blanks a) (value : IsValue v m) (after : Blanks b) :
      ValueList (a ++ (v ++ b)) [m]
  | more {a v b s : Str} {m : ℕ} {ms : List ℕ} (before : Blanks a) (value : IsValue v m) (after : Blanks b)
      (rest : ValueList s ms) : ValueList (a ++ (v ++ (b ++ SEMICOLON :: s))) (m :: ms)

/-- A list in which `none` stands with no other value. -/
def PrivacyList (s : Str) (ms : List ℕ) : Prop :=
  ValueList s ms ∧ (PRIVACY_NONE ∈ ms → ∀ m ∈ ms, m = PRIVACY_NONE)

def mask (ms : List ℕ) : ℕ := ms.foldr (· ||| ·) 0

end Grammar

section Values

variable {more : ℕ → UInt8} {s v t b : Str} {max_len m : ℕ} {text : String}

theorem end_not_letter (c : UInt8) : ends_value c = true → tolower c = c ∧ isLetter c = false :=
  forall_char (p := fun c => ends_value c = true → tolower c = c ∧ isLetter c = false) (by decide) c

theorem name_letters : ∀ n ∈ priv_names, n.1.toList ≠ [] ∧ (n.1.toList.map chr).all isLetter = true := by decide

theorem byte_of_lt {i : ℕ} (hi : i < s.length) : byte more s i = s[i] := by
  rw [byte, getElem?_eq_getElem hi, getD_some]

theorem same_iff (hend : ends_value (more 0) = true) (hall : (text.toList.map chr).all isLetter = true) :
    same more s text = true ↔ ∃ v t, s = v ++ t ∧ v.length = text.length ∧ v.map tolower = text.toList.map chr := by
  rw [same, beq_iff_eq]
  constructor
  · intro h
    have hat : ∀ i (hi : i < text.length), tolower (byte more s i) ∈ text.toList.map chr := fun i hi =>
      h ▸ List.mem_map.2 ⟨i, mem_range.2 hi, rfl⟩
    have hle : text.length ≤ s.length := by
      by_contra hlt
      have hmem := List.all_eq_true.1 hall _ (hat s.length (lt_of_not_ge hlt))
      rw [byte, getElem?_eq_none le_rfl, getD_none, Nat.sub_self] at hmem
      obtain ⟨hlow, hno⟩ := end_not_letter _ hend
      rw [hlow, hno] at hmem
      cases hmem
    refine ⟨s.take text.length, s.drop text.length, (take_append_drop _ _).symm, length_take_of_le hle, ?_⟩
    rw [← h]
    apply ext_getElem
    · rw [length_map, length_map, length_range, length_take_of_le hle]
    · intro i hi _
      rw [length_map, length_take_of_le hle] at hi
      rw [getElem_map, getElem_map, getElem_range, getElem_take, byte_of_lt (by omega)]
  · rintro ⟨v, t, rfl, hlen, hv⟩
    rw [← hv]
    apply ext_getElem
    · rw [length_map, length_map, length_range, hlen]
    · intro i hi _
      rw [length_map, length_range, ← hlen] at hi
      rw [getElem_map, getElem_map, getElem_range,
        byte_of_lt (by rw [length_append]; omega), getElem_append_left hi]

theorem same_start (htext : text.toList ≠ []) (h : same more s text = true) :
    (text.toList.map chr).head? = some (tolower (byte more s 0)) := by
  obtain ⟨k, hk⟩ := Nat.exists_eq_add_one_of_ne_zero (n := text.length) (by
    rw [← String.length_toList]
    exact fun h0 => htext (length_eq_zero_iff.1 h0))
  rw [same, beq_iff_eq, hk, range_succ_eq_map, map_cons] at h
  rw [← h]
  rfl

def Found (more : ℕ → UInt8) (s : Str) (l : List (String × ℕ)) (r : ℕ × ℕ) : Prop :=
  ∃ n ∈ l, same more s n.1 = true ∧ (n.1.length, n.2) = r

variable {l l' : List (String × ℕ)} {r : ℕ × ℕ} {A B : Option (ℕ × ℕ)}

theorem found_cons {n : String × ℕ} :
    Found more s (n :: l) r ↔ same more s n.1 = true ∧ (n.1.length, n.2) = r ∨ Found more s l r :=
  exists_mem_cons_iff _ _ _

theorem found_nil : ¬ Found more s [] r := fun ⟨_, hn, _⟩ => absurd hn not_mem_nil

theorem case_iff (c : Char) (hA : tolower (byte more s 0) = chr c → (A = some r ↔ Found more s l r))
    (hB : B = some r ↔ Found more s l' r) (hl : ∀ n ∈ l, n.1.toList ≠ [] ∧ (n.1.toList.map chr).head? = some (chr c))
    (hl' : ∀ n ∈ l', n.1.toList ≠ [] ∧ (n.1.toList.map chr).head? ≠ some (chr c)) :
    (if tolower (byte more s 0) = chr c then A else B) = some r ↔ Found more s (l ++ l') r := by
  by_cases hc : tolower (byte more s 0) = chr c
  · rw [if_pos hc, hA hc]
    constructor
    · exact fun ⟨n, hn, h⟩ => ⟨n, mem_append_left _ hn, h⟩
    · rintro ⟨n, hn, hs, hr⟩
      rcases mem_append.1 hn with hn | hn
      · exact ⟨n, hn, hs, hr⟩
      · exact absurd (hc ▸ same_start (hl' n hn).1 hs) (hl' n hn).2
  · rw [if_neg hc, hB]
    constructor
    · exact fun ⟨n, hn, h⟩ => ⟨n, mem_append_right _ hn, h⟩
    · rintro ⟨n, hn, hs, hr⟩
      rcases mem_append.1 hn with hn | hn
      · exact absurd (some.inj ((same_start (hl n hn).1 hs).symm.trans (hl n hn).2)) hc
      · exact ⟨n, hn, hs, hr⟩

theorem test_iff {n : String} {k m : ℕ} (hk : n.length = k) (hlong : same more s n = true → n.length ≤ max_len)
    (hB : B = some r ↔ Found more s l r) (hmax : max_len < k → ¬ Found more s l r)
    (hone : same more s n = true → ¬ Found more s l r) :
    (if max_len < k then none else if same more s n then some (k, m) else B) = some r ↔
      Found more s ((n, m) :: l) r := by
  subst hk
  rw [found_cons]
  by_cases hm : max_len < n.length
  · rw [if_pos hm, or_iff_left (hmax hm)]
    exact ⟨fun h => (by cases h), fun h => absurd (hlong h.1) (not_le.2 hm)⟩
  · rw [if_neg hm]
    by_cases hs : same more s n = true
    · rw [if_pos hs, some_inj, or_iff_left (hone hs), and_iff_right hs]
    · rw [if_neg hs, hB, or_iff_right fun h => hs h.1]

theorem header_history (h : same more s "header" = true) : same more s "history" ≠ true := by
  intro h'
  rw [same, beq_iff_eq] at h h'
  have he : tolower (byte more s 1) = chr 'e' := some.inj (congrArg (fun w : Str => w[1]?) h)
  have hi : tolower (byte more s 1) = chr 'i' := some.inj (congrArg (fun w : Str => w[1]?) h')
  exact absurd (he.symm.trans hi) (by decide)

theorem same_id (hi : tolower (byte more s 0) = chr 'i') :
    same more s "id" = true ↔ tolower (byte more s 1) = chr 'd' := by
  rw [same, beq_iff_eq]
  constructor
  · intro h
    exact some.inj (congrArg (fun w : Str => w[1]?) h)
  · intro h
    rw [show "id".length = 2 from rfl, show List.range 2 = [0, 1] from rfl, map_cons, map_cons, hi, h]
    rfl

theorem known_value_iff (hend : ends_value (more 0) = true) (hlen : s.length ≤ max_len) :
    known_value more s max_len = some r ↔ Found more s priv_names r := by
  have hlong : ∀ n ∈ priv_names, same more s n.1 = true → n.1.length ≤ max_len := by
    intro n hn hs
    obtain ⟨v, t, rfl, hv, -⟩ := (same_iff hend (name_letters n hn).2).1 hs
    rw [length_append] at hlen
    omega
  have hone : ∀ {n : String} {k m : ℕ}, (n, m) ∈ priv_names → n.length = k →
      ((if max_len < k then none else if same more s n then some (k, m) else none) = some r ↔
        Found more s [(n, m)] r) := fun hn hk =>
    test_iff hk (hlong _ hn) (iff_of_false nofun found_nil) (fun _ => found_nil) fun _ => found_nil
  rw [known_value]
  simp only [either_iff 'c' 'C' (by decide), either_iff 'h' 'H' (by decide), either_iff 'i' 'I' (by decide),
    either_iff 'd' 'D' (by decide), either_iff 'n' 'N' (by decide), either_iff 's' 'S' (by decide),
    either_iff 'u' 'U' (by decide)]
  refine case_iff 'c' (l := [("critical", PRIVACY_CRITICAL)]) (fun _ => hone (by decide) rfl) ?_ (by decide)
    (by decide)
  refine case_iff 'h' (l := [("header", PRIVACY_HEADER), ("history", PRIVACY_HISTORY)]) (fun _ => ?_) ?_ (by decide)
    (by decide)
  · refine test_iff rfl (hlong ("header", PRIVACY_HEADER) (by decide)) (hone (by decide) rfl) ?_ ?_
    · rintro hmax ⟨n, hn, hs, -⟩
      obtain rfl := mem_singleton.1 hn
      have := hlong ("history", PRIVACY_HISTORY) (by decide) hs
      exact absurd this (by rw [show "history".length = 7 from rfl]; omega)
    · rintro hh ⟨n, hn, hs, -⟩
      obtain rfl := mem_singleton.1 hn
      exact header_history hh hs
  refine case_iff 'i' (l := [("id", PRIVACY_ID)]) (fun hi => ?_) ?_ (by decide) (by decide)
  · simp only [← same_id hi]
    exact hone (by decide) rfl
  refine case_iff 'n' (l := [("none", PRIVACY_NONE)]) (fun _ => hone (by decide) rfl) ?_ (by decide) (by decide)
  refine case_iff 's' (l := [("session", PRIVACY_SESSION)]) (fun _ => hone (by decide) rfl) ?_ (by decide) (by decide)
  refine case_iff 'u' (l := [("user", PRIVACY_USER)]) (fun _ => hone (by decide) rfl) ?_ (by decide) (by decide)
  exact iff_of_false nofun found_nil

theorem lower_name : ∀ n ∈ priv_names, (n.1.toList.map chr).map tolower = n.1.toList.map chr := by decide

theorem found_iff (hend : ends_value (more 0) = true) {k : ℕ} :
    Found more s priv_names (k, m) ↔ ∃ v t, s = v ++ t ∧ v.length = k ∧ IsValue v m := by
  constructor
  · rintro ⟨n, hn, hs, hr⟩
    obtain ⟨rfl, rfl⟩ := Prod.mk.injEq .. ▸ hr
    obtain ⟨v, t, rfl, hlen, hv⟩ := (same_iff hend (name_letters n hn).2).1 hs
    exact ⟨v, t, rfl, hlen, n, hn, hv.trans (lower_name n hn).symm, rfl⟩
  · rintro ⟨v, t, rfl, rfl, n, hn, hv, rfl⟩
    have hlow : v.map tolower = n.1.toList.map chr := Eq.trans hv (lower_name n hn)
    have hlen := congrArg List.length hlow
    rw [length_map, length_map, String.length_toList] at hlen
    exact ⟨n, hn, (same_iff hend (name_letters n hn).2).2 ⟨v, t, rfl, hlen, hlow⟩, by rw [hlen]⟩

def Ended (t : Str) : Prop := ∀ c ∈ t.head?, ends_value c = true

/-- **One value**, which lies in the body. -/
theorem parse_priv_value_iff (hend : ends_value (more 0) = true) (hlen : s.length ≤ max_len) {k : ℕ} :
    parse_priv_value more s max_len = some (k, m) ↔
      ∃ v t, s = v ++ t ∧ v.length = k ∧ IsValue v m ∧ Ended t := by
  rw [parse_priv_value, bind_eq_some_iff]
  have hbyte : ∀ v t : Str, s = v ++ t → (¬ (v.length < max_len ∧ ends_value (byte more s v.length) = false) ↔
      Ended t) := by
    rintro v t rfl
    rw [length_append] at hlen
    cases t with
    | nil =>
      refine iff_of_true (fun h => ?_) (fun c hc => by cases hc)
      rw [byte, append_nil, getElem?_eq_none (le_rfl), getD_none, Nat.sub_self, hend] at h
      cases h.2
    | cons c t =>
      rw [length_cons] at hlen
      rw [and_iff_right (by omega), Bool.not_eq_false, byte, getElem?_append_right (le_rfl), Nat.sub_self]
      exact ⟨fun h d hd => some.inj hd ▸ h, fun h => h c rfl⟩
  constructor
  · rintro ⟨⟨k', m'⟩, hk, h⟩
    obtain ⟨v, t, hs, rfl, hv⟩ := (found_iff hend).1 ((known_value_iff hend hlen).1 hk)
    split_ifs at h with hb
    obtain ⟨rfl, rfl⟩ := Prod.mk.injEq .. ▸ some.inj h
    exact ⟨v, t, hs, rfl, hv, (hbyte v t hs).1 hb⟩
  · rintro ⟨v, t, hs, rfl, hv, ht⟩
    refine ⟨(v.length, m), (known_value_iff hend hlen).2 ((found_iff hend).2 ⟨v, t, hs, rfl, hv⟩), ?_⟩
    rw [if_neg ((hbyte v t hs).2 ht)]

end Values

section Lists

variable {more : ℕ → UInt8} {a b s t v : Str} {m r : ℕ} {ms : List ℕ}

theorem letter_not_blank (c : UInt8) : isLetter (tolower c) = true → blank c = false :=
  forall_char (p := fun c => isLetter (tolower c) = true → blank c = false) (by decide) c

theorem IsValue.start (h : IsValue v m) : ∃ c w, v = c :: w ∧ blank c = false := by
  obtain ⟨n, hn, hv, -⟩ := h
  have hlow : v.map tolower = n.1.toList.map chr := Eq.trans hv (lower_name n hn)
  cases v with
  | nil => exact absurd (map_eq_nil_iff.1 hlow.symm) (name_letters n hn).1
  | cons c w =>
    have hc : tolower c ∈ n.1.toList.map chr := hlow ▸ mem_cons_self
    exact ⟨c, w, rfl, letter_not_blank c (List.all_eq_true.1 (name_letters n hn).2 _ hc)⟩

theorem IsValue.dropWhile (h : IsValue v m) (ha : Blanks a) (t : Str) :
    (a ++ (v ++ t)).dropWhile blank = v ++ t := by
  obtain ⟨c, w, rfl, hc⟩ := h.start
  rw [dropWhile_append_of_pos ha, cons_append, dropWhile_cons_of_neg (by rw [hc]; exact nofun)]

theorem ValueList.blanks (ha : Blanks a) (h : ValueList s ms) : ValueList (a ++ s) ms := by
  have happ : ∀ {a' : Str}, Blanks a' → Blanks (a ++ a') := fun ha' c hc =>
    (mem_append.1 hc).elim (ha c) (ha' c)
  cases h with
  | last hb hv haft =>
    rw [← append_assoc]
    exact .last (happ hb) hv haft
  | more hb hv haft hrest =>
    rw [← append_assoc]
    exact .more (happ hb) hv haft hrest

theorem ValueList.skip (h : ValueList s ms) : ValueList (s.dropWhile blank) ms ∧ s.dropWhile blank ≠ [] := by
  have hnil : Blanks [] := fun c hc => absurd hc not_mem_nil
  cases h with
  | last hb hv haft =>
    rw [hv.dropWhile hb]
    obtain ⟨c, w, rfl, -⟩ := hv.start
    exact ⟨.last hnil hv haft, nofun⟩
  | more hb hv haft hrest =>
    rw [hv.dropWhile hb]
    obtain ⟨c, w, rfl, -⟩ := hv.start
    exact ⟨.more hnil hv haft hrest, nofun⟩

theorem blanks_of_dropWhile (h : s.dropWhile blank = []) : Blanks s := dropWhile_eq_nil_iff.1 h

theorem Blanks.takeWhile (s : Str) : Blanks (s.takeWhile blank) := fun _ hc => mem_takeWhile_imp hc

theorem head_dropWhile (s : Str) : ∀ c ∈ (s.dropWhile blank).head?, blank c = false := by
  intro c hc
  have h := head?_dropWhile_not blank s
  rwa [hc] at h

@[simp] theorem mask_nil : mask [] = 0 := rfl

@[simp] theorem mask_cons (m : ℕ) (ms : List ℕ) : mask (m :: ms) = m ||| mask ms := rfl

theorem ended_blanks (hb : Blanks b) (ht : Ended t) : Ended (b ++ t) := by
  cases b with
  | nil => exact ht
  | cons c b =>
    intro d hd
    cases hd
    rw [ends_value, hb c mem_cons_self, Bool.or_true]

theorem loop_value (hend : ends_value (more 0) = true) {fuel len values : ℕ} (hlen : (v ++ t).length ≤ len)
    (hv : IsValue v m) (ht : Ended t) : values_loop more (fuel + 1) (v ++ t) len values =
      match t.dropWhile blank with
      | [] => some (values ||| m)
      | c :: p =>
        if c = SEMICOLON then
          if p.dropWhile blank = [] then none
          else values_loop more fuel (p.dropWhile blank) (len - v.length) (values ||| m)
        else none := by
  obtain ⟨c, w, hc, -⟩ := hv.start
  rw [values_loop, if_neg (by rw [hc]; exact nofun),
    (parse_priv_value_iff hend hlen).2 ⟨v, t, rfl, rfl, hv, ht⟩]
  dsimp only
  rw [drop_left]

/-- **The loop reads a list of values** and stops at its end. -/
theorem values_loop_iff (hend : ends_value (more 0) = true) : ∀ {fuel : ℕ} {s : Str} {len values : ℕ},
    s ≠ [] → (∀ c ∈ s.head?, blank c = false) → s.length ≤ len → s.length < fuel →
      (values_loop more fuel s len values = some r ↔ ∃ ms, ValueList s ms ∧ r = values ||| mask ms) := by
  intro fuel
  have hnil : Blanks [] := fun c hc => absurd hc not_mem_nil
  induction fuel with
  | zero => exact fun _ _ _ hf => absurd hf (Nat.not_lt_zero _)
  | succ fuel ih =>
    intro s len values hne hhead hlen hfuel
    -- what is left behind the `;` is again a list that starts with a value
    have hrest : ∀ {v t : Str} {m : ℕ} {p : Str}, s = v ++ t → IsValue v m → t.dropWhile blank = SEMICOLON :: p →
        p.dropWhile blank ≠ [] → (values_loop more fuel (p.dropWhile blank) (len - v.length) (values ||| m) = some r ↔
          ∃ ms, ValueList (p.dropWhile blank) ms ∧ r = values ||| m ||| mask ms) := by
      intro v t m p hs hv ht hp
      have hle := (dropWhile_sublist (l := p) blank).length_le
      have hle' := (dropWhile_sublist (l := t) blank).length_le
      rw [ht, length_cons] at hle'
      rw [hs, length_append] at hlen hfuel
      exact ih hp (head_dropWhile p) (by omega) (by omega)
    constructor
    · intro h
      cases hval : parse_priv_value more s len with
      | none =>
        rw [values_loop, if_neg hne, hval] at h
        cases h
      | some x =>
        obtain ⟨k, m⟩ := x
        obtain ⟨v, t, hs, rfl, hv, ht⟩ := (parse_priv_value_iff hend hlen).1 hval
        have hturn := @loop_value _ _ _ _ hend fuel _ values (hs ▸ hlen) hv ht
        rw [← hs, h] at hturn
        cases hd : t.dropWhile blank with
        | nil =>
          rw [hd] at hturn
          refine ⟨[m], ?_, (some.inj hturn).trans (by rw [mask_cons, mask_nil, Nat.or_zero])⟩
          exact hs ▸ ValueList.last (a := []) hnil hv (blanks_of_dropWhile hd)
        | cons c p =>
          rw [hd] at hturn
          dsimp only at hturn
          split_ifs at hturn with hc hp
          subst hc
          obtain ⟨ms, hlist, hr⟩ := (hrest hs hv hd hp).1 hturn.symm
          refine ⟨m :: ms, ?_, by rw [hr, Nat.or_assoc, mask_cons]⟩
          have hsplit := takeWhile_append_dropWhile (p := blank) (l := p)
          have hsplit' := takeWhile_append_dropWhile (p := blank) (l := t)
          rw [hd] at hsplit'
          rw [hs, ← hsplit']
          exact .more (a := []) hnil hv (Blanks.takeWhile t) (hsplit ▸ hlist.blanks (Blanks.takeWhile p))
    · rintro ⟨ms, hlist, rfl⟩
      have hstart : ∀ {a v b : Str} {m : ℕ}, Blanks a → IsValue v m → s = a ++ (v ++ b) → a = [] := by
        intro a v b m ha _ hs
        cases a with
        | nil => rfl
        | cons c a =>
          have := hhead c (by rw [hs]; rfl)
          rw [ha c mem_cons_self] at this
          cases this
      cases hlist with
      | @last a v b m ha hv hb =>
        obtain rfl := hstart ha hv rfl
        rw [nil_append] at hlen ⊢
        rw [loop_value hend hlen hv (append_nil b ▸ ended_blanks hb fun c hc => by cases hc),
          dropWhile_eq_nil_iff.2 hb, mask_cons, mask_nil, Nat.or_zero]
      | @more a v b s' m ms ha hv hb hlist =>
        obtain rfl := hstart ha hv rfl
        have hd : (b ++ SEMICOLON :: s').dropWhile blank = SEMICOLON :: s' := by
          rw [dropWhile_append_of_pos hb, dropWhile_cons_of_neg (by decide)]
        have ht : Ended (b ++ SEMICOLON :: s') := ended_blanks hb fun c hc => by
          cases hc
          decide
        obtain ⟨hlist', hp⟩ := hlist.skip
        rw [nil_append] at hlen ⊢
        rw [loop_value hend hlen hv ht, hd]
        dsimp only
        rw [if_pos rfl, if_neg hp, (hrest (nil_append _) hv hd hp).2
          ⟨ms, hlist', by rw [mask_cons, Nat.or_assoc]⟩]

end Lists

section Masks

variable {ms : List ℕ} {s : Str} {m : ℕ}

theorem ValueList.values (h : ValueList s ms) : ∀ m ∈ ms, ∃ n ∈ priv_names, n.2 = m := by
  induction h with
  | last _ hv _ =>
    obtain ⟨n, hn, -, hm⟩ := hv
    exact forall_mem_singleton.2 ⟨n, hn, hm⟩
  | more _ hv _ _ ih =>
    obtain ⟨n, hn, -, hm⟩ := hv
    exact forall_mem_cons.2 ⟨⟨n, hn, hm⟩, ih⟩

theorem mask_testBit {i : ℕ} : (mask ms).testBit i = true ↔ ∃ m ∈ ms, m.testBit i = true := by
  induction ms with
  | nil => rw [mask_nil, Nat.zero_testBit]; exact iff_of_false nofun fun ⟨_, h, _⟩ => absurd h not_mem_nil
  | cons m ms ih => rw [mask_cons, Nat.testBit_or, Bool.or_eq_true, ih, exists_mem_cons_iff]

theorem bit_none : ∀ n ∈ priv_names, n.2.testBit 3 = true ↔ n.2 = PRIVACY_NONE := by decide

theorem bit_other : ∀ n ∈ priv_names, n.2 ≠ PRIVACY_NONE → ∃ i < 7, n.2.testBit i = true ∧ PRIVACY_NONE.testBit i = false := by
  decide

theorem mask_none_only (h : ∀ m ∈ ms, m = PRIVACY_NONE) (hne : ms ≠ []) : mask ms = PRIVACY_NONE := by
  induction ms with
  | nil => exact absurd rfl hne
  | cons m ms ih =>
    obtain ⟨rfl, hms⟩ := forall_mem_cons.1 h
    cases ms with
    | nil => rfl
    | cons m' ms => rw [mask_cons, ih hms nofun]; rfl

/-- The two tests at the end refuse `none` with another value. -/
theorem none_alone (h : ∀ m ∈ ms, ∃ n ∈ priv_names, n.2 = m) :
    ¬ (mask ms &&& PRIVACY_NONE ≠ 0 ∧ mask ms ^^^ PRIVACY_NONE ≠ 0) ↔
      (PRIVACY_NONE ∈ ms → ∀ m ∈ ms, m = PRIVACY_NONE) := by
  have hand : mask ms &&& PRIVACY_NONE ≠ 0 ↔ PRIVACY_NONE ∈ ms := by
    have hbit : mask ms &&& PRIVACY_NONE ≠ 0 ↔ (mask ms).testBit 3 = true := by
      rw [show PRIVACY_NONE = 2 ^ 3 from rfl, Nat.and_two_pow]
      cases (mask ms).testBit 3 <;> decide
    rw [hbit, mask_testBit]
    constructor
    · rintro ⟨m, hm, hb⟩
      obtain ⟨n, hn, rfl⟩ := h m hm
      exact (bit_none n hn).1 hb ▸ hm
    · exact fun hm => ⟨_, hm, rfl⟩
  have hxor : mask ms ^^^ PRIVACY_NONE = 0 ↔ mask ms = PRIVACY_NONE := Nat.xor_eq_zero_iff
  rw [not_and, hand, not_not, hxor]
  refine imp_congr_right fun hmem => ⟨fun heq m hm => ?_, fun hall => mask_none_only hall (ne_nil_of_mem hmem)⟩
  by_contra hne
  obtain ⟨n, hn, rfl⟩ := h m hm
  obtain ⟨i, -, hi, hi'⟩ := bit_other n hn hne
  have := mask_testBit.2 ⟨n.2, hm, hi⟩
  rw [heq, hi'] at this
  cases this

end Masks

section Spec

/-- **The mask of a body**, which is refused unless it is a list of values. -/
theorem parse_values_iff {more : ℕ → UInt8} {body : Str} {r : ℕ} (hend : ends_value (more 0) = true) :
    parse_values more body = some r ↔ ∃ ms, PrivacyList body ms ∧ mask ms = r := by
  rw [parse_values]
  by_cases hnext : body.dropWhile blank = []
  · rw [if_pos hnext]
    refine iff_of_false nofun ?_
    rintro ⟨ms, ⟨hlist, -⟩, -⟩
    exact hlist.skip.2 hnext
  rw [if_neg hnext]
  have hloop : ∀ {r : ℕ}, values_loop more ((body.dropWhile blank).length + 1) (body.dropWhile blank)
      (body.dropWhile blank).length 0 = some r ↔ ∃ ms, ValueList body ms ∧ r = mask ms := by
    intro r
    rw [values_loop_iff hend hnext (head_dropWhile body) (le_rfl) (Nat.lt_succ_self _)]
    constructor
    · rintro ⟨ms, hlist, hr⟩
      have happ := hlist.blanks (Blanks.takeWhile body)
      rw [takeWhile_append_dropWhile] at happ
      exact ⟨ms, happ, by rw [hr, Nat.zero_or]⟩
    · rintro ⟨ms, hlist, hr⟩
      exact ⟨ms, hlist.skip.1, by rw [hr, Nat.zero_or]⟩
  constructor
  · intro h
    cases hv : values_loop more ((body.dropWhile blank).length + 1) (body.dropWhile blank)
        (body.dropWhile blank).length 0 with
    | none =>
      rw [hv] at h
      cases h
    | some values =>
      rw [hv] at h
      dsimp only at h
      split_ifs at h with hnone
      obtain ⟨ms, hlist, rfl⟩ := hloop.1 hv
      exact ⟨ms, ⟨hlist, (none_alone hlist.values).1 hnone⟩, some.inj h⟩
  · rintro ⟨ms, ⟨hlist, hnone⟩, rfl⟩
    rw [hloop.2 ⟨ms, hlist, rfl⟩]
    dsimp only
    rw [if_neg ((none_alone hlist.values).2 hnone)]

variable {P : Parsers} {past : UInt8} {behind : ℕ → UInt8} {m : Message} {msg : SipMsg} {h obj pos : ℕ}
  {x : HdrField}

def body_text (buf : Str) (x : HdrField) : Str :=
  match x.body.s with
  | .msg off => (buf.drop off).take x.body.len.toNat
  | _ => []

/-- The Privacy header field `h` of the message `msg`, its body being the one that `get_hdr_field` delivers for the
line at `pos`. -/
structure Delivered (P : Parsers) (msg : SipMsg) (h : ℕ) (x : HdrField) (obj pos : ℕ) : Prop where
  field : msg.hdr h = some x
  type : (get_hdr_field P msg.buf obj pos).1.type = .PRIVACY
  body : x.body = (get_hdr_field P msg.buf obj pos).1.body

/-- **The Privacy header field**, which is not parsed yet: the call succeeds exactly when its body is a list of
values, and then stores the mask of these; it stores nothing when it fails. -/
theorem parse_privacy_spec (hfind : find_privacy P past m.msg = some (msg, some h)) (hfresh : m.parsed h = 0)
    (hd : Delivered P msg h x obj pos) :
    ∃ m' ret, parse_privacy P past behind m = some (m', ret) ∧ m'.msg = msg ∧
      (ret = 0 ↔ ∃ ms, PrivacyList (body_text msg.buf x) ms) ∧
      (∀ ms, PrivacyList (body_text msg.buf x) ms → m'.parsed = Function.update m.parsed h (mask ms)) ∧
      (ret ≠ 0 → ret = -1 ∧ m'.parsed = m.parsed) := by
  have hnot : ¬ (m.msg.hook .PRIVACY ≠ 0 ∧ m.parsed (m.msg.hook .PRIVACY) ≠ 0) := by
    rintro ⟨hh, hp⟩
    rw [find_privacy, if_pos hh] at hfind
    obtain ⟨-, heq⟩ := Prod.mk.inj (some.inj hfind)
    rw [some.inj heq] at hp
    exact hp hfresh
  obtain ⟨tmp, k, hbody, hin, c, hc, hend⟩ := Contacts.body_delivered
    (by rw [hd.type]; decide) (fun tmp => by rw [hd.type]; rfl)
  have hx : x.body = ⟨.msg tmp, k⟩ := hd.body.trans hbody
  have htext : body_text msg.buf x = (msg.buf.drop tmp).take k := by
    rw [body_text, hx]
    rfl
  have hcut : SipMsg.cut (msg.buf.drop tmp) 0 k = some ((msg.buf.drop tmp).take k) := by
    rw [SipMsg.cut, if_pos ⟨Int.le_refl 0, Int.natCast_nonneg k, by rw [length_drop]; omega⟩]
    rfl
  have hlen : ((msg.buf.drop tmp).take k).length = k := by
    rw [length_take, length_drop]
    omega
  obtain ⟨more, hmore⟩ : ∃ more : ℕ → UInt8, more = fun i =>
      ((((msg.buf.drop tmp).drop k)[i]?).getD (behind (i - ((msg.buf.drop tmp).drop k).length))) := ⟨_, rfl⟩
  have hends : ends_value (more 0) = true := by
    rw [hmore]
    dsimp only
    rw [getElem?_drop, getElem?_drop, add_zero, hc, getD_some, ends_value]
    rcases hend with rfl | rfl | rfl <;> rfl
  have hrun : parse_privacy P past behind m = match parse_values more ((msg.buf.drop tmp).take k) with
      | none => some ({ m with msg := msg }, -1)
      | some values => some (⟨msg, Function.update m.parsed h values⟩, 0) := by
    rw [parse_privacy, if_neg hnot, hfind]
    change (do
      let x ← msg.hdr h
      let text ← msg.target x.body.s
      let body ← SipMsg.cut text 0 x.body.len
      let rest := text.drop body.length
      match parse_values (fun i => (rest[i]?).getD (behind (i - rest.length))) body with
      | none => some ({ m with msg := msg }, -1)
      | some values => some (⟨msg, Function.update m.parsed h values⟩, 0) : Option (Message × ℤ)) = _
    rw [hd.field, bind_eq_bind, bind_some, hx]
    change ((SipMsg.cut (msg.buf.drop tmp) 0 k).bind _) = _
    rw [hcut, bind_some, hlen, hmore]
  rw [htext, hrun]
  cases hv : parse_values more ((msg.buf.drop tmp).take k) with
  | none =>
    have hno : ∀ ms, ¬ PrivacyList ((msg.buf.drop tmp).take k) ms := fun ms hms => by
      rw [(parse_values_iff hends).2 ⟨ms, hms, rfl⟩] at hv
      cases hv
    exact ⟨_, _, rfl, rfl, iff_of_false (by decide) fun ⟨ms, hms⟩ => hno ms hms, fun ms hms => absurd hms (hno ms),
      fun _ => ⟨rfl, rfl⟩⟩
  | some values =>
    obtain ⟨ms, hms, -⟩ := (parse_values_iff hends).1 hv
    refine ⟨_, _, rfl, rfl, iff_of_true rfl ⟨ms, hms⟩, fun ms' hms' => ?_, fun h0 => absurd rfl h0⟩
    rw [(parse_values_iff hends).2 ⟨ms', hms', rfl⟩] at hv
    rw [some.inj hv]

def one_field : Parsers := { plain with parse_hname := fun _ _ => some (.PRIVACY, 7, 0) }

def id_user : Message where
  msg := { SipMsg.init ("Privacy: ID;user\r\n\r\n".toList.map chr) with
    hook := Function.update (fun _ => 0) .PRIVACY 1
    hdr := Function.update (fun _ => none) 1
      (some { HdrField.zero with type := .PRIVACY, body := ⟨.msg 9, 7⟩ })
    fresh := 2 }
  parsed := fun _ => 0

/-- `ID;user` -/
theorem parse_privacy_id_user : ∃ m' ret, parse_privacy one_field 0 (fun _ => 0) id_user = some (m', ret) ∧
    m'.msg = id_user.msg ∧ (ret = 0 ↔ ∃ ms, PrivacyList ("ID;user".toList.map chr) ms) ∧
    (∀ ms, PrivacyList ("ID;user".toList.map chr) ms → m'.parsed = Function.update (fun _ => 0) 1 (mask ms)) ∧
    (ret ≠ 0 → ret = -1 ∧ m'.parsed = fun _ => 0) := by
  have hg : ((get_hdr_field one_field id_user.msg.buf 0 0).1.type = .PRIVACY) ∧
      (⟨.msg 9, 7⟩ : Slice) = (get_hdr_field one_field id_user.msg.buf 0 0).1.body := by
    decide +kernel
  have hd : Delivered one_field id_user.msg 1
      { HdrField.zero with type := .PRIVACY, body := ⟨.msg 9, 7⟩ } 0 0 := ⟨rfl, hg.1, hg.2⟩
  exact parse_privacy_spec (m := id_user) rfl rfl hd

end Spec

end OpenSips.Privacy
