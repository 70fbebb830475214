import OpenSips.Lib.Cut
import OpenSips.Str

/-!
# OpenSips.Parser.FirstLine — `parse_first_line` (`parse_fline.c`, `parse_methods.c`, `parser_f.h`)

The grammar in the source is

    request  =  method SP uri SP version CRLF
    response =  version SP status  SP reason  CRLF
    (version = "SIP/2.0")

A pointer into the buffer is a position and the text behind it; it is `end` when that text is empty.
-/

namespace OpenSips.FirstLine

open Lib List Option

def CR : UInt8 := 13
def LF : UInt8 := 10
def SPACE : UInt8 := 32
def TAB : UInt8 := 9

def SIP_VERSION : Str := "SIP/2.0".toList.map chr

section Characters

/-- A character as `strncasecmp` compares it. -/
def tolower (c : UInt8) : UInt8 := if chr 'A' ≤ c ∧ c ≤ chr 'Z' then c + 32 else c

def same_case (xs ys : Str) : Prop := xs.map tolower = ys.map tolower

instance (xs ys : Str) : Decidable (same_case xs ys) := inferInstanceAs (Decidable (_ = _))

def isSP (c : UInt8) : Bool := c == SPACE || c == TAB

def isToken (c : UInt8) : Bool := c != SPACE && c != TAB && c != LF && c != CR

/-- How far `eat_space_end` goes. -/
def eat_space_end (s : Str) : ℕ := (s.takeWhile isSP).length

def eat_token_end (s : Str) : ℕ := (s.takeWhile isToken).length

def eat_token2_end (delim : UInt8) (s : Str) : ℕ :=
  (s.takeWhile fun c => c != delim && c != LF && c != CR).length

end Characters

section Methods

def METHOD_INVITE := 1
def METHOD_CANCEL := 2
def METHOD_ACK := 4
def METHOD_BYE := 8
def METHOD_INFO := 16
def METHOD_OPTIONS := 32
def METHOD_UPDATE := 64
def METHOD_REGISTER := 128
def METHOD_MESSAGE := 256
def METHOD_SUBSCRIBE := 512
def METHOD_NOTIFY := 1024
def METHOD_PRACK := 2048
def METHOD_REFER := 4096
def METHOD_PUBLISH := 8192
def METHOD_OTHER := 16384

def method_char (c : UInt8) : Bool :=
  (chr 'A' ≤ c && c ≤ chr 'Z') || (chr 'a' ≤ c && c ≤ chr 'z') || (chr '0' ≤ c && c ≤ chr '9') ||
    c == chr '-' || c == chr '.' || c == chr '%' || c == chr '*' || c == chr '_' || c == chr '+' ||
    c == chr '~' || c == chr '+'

/-- `text`, in lower case, is what stands at position `i`; the tests of `max` come to this, too. -/
def has (t : Str) (i : ℕ) (text : String) : Bool :=
  ((t.drop i).take text.length).map tolower == text.toList.map chr

/-- The `switch` of `parse_method`: the method and the length of its name. -/
def known_method (t : Str) : Option (ℕ × ℕ) :=
  if has t 0 "a" then if has t 1 "ck" then some (METHOD_ACK, 3) else none
  else if has t 0 "b" then if has t 1 "ye" then some (METHOD_BYE, 3) else none
  else if has t 0 "c" then if has t 1 "ancel" then some (METHOD_CANCEL, 6) else none
  else if has t 0 "i" then
    -- the test of the second character, `start[1]=='n' && start[1]=='N'`, never holds
    if has t 2 "fo" then some (METHOD_INFO, 4)
    else if has t 2 "vite" then some (METHOD_INVITE, 6) else none
  else if has t 0 "m" then if has t 1 "essage" then some (METHOD_MESSAGE, 7) else none
  else if has t 0 "n" then if has t 1 "otify" then some (METHOD_NOTIFY, 6) else none
  else if has t 0 "o" then if has t 1 "ptions" then some (METHOD_OPTIONS, 7) else none
  else if has t 0 "p" then
    if has t 1 "rack" then some (METHOD_PRACK, 5)
    else if has t 1 "ublish" then some (METHOD_PUBLISH, 7) else none
  else if has t 0 "r" then
    if has t 1 "e" then
      -- the last letter is compared with `R` twice
      if has t 2 "fe" && t[4]? == some (chr 'R') then some (METHOD_REFER, 5)
      else if has t 2 "gister" then some (METHOD_REGISTER, 8) else none
    else none
  else if has t 0 "s" then if has t 1 "ubscribe" then some (METHOD_SUBSCRIBE, 9) else none
  else if has t 0 "u" then if has t 1 "pdate" then some (METHOD_UPDATE, 6) else none
  else none

def ends_method (c : UInt8) : Bool := c == 0 || c == chr ',' || !isToken c

/-- The loop at `unknown`, from position `n`. -/
def unknown_loop : ℕ → Str → Option ℕ
  | n, [] => some n
  | n, c :: s => if ends_method c then some n else if method_char c then unknown_loop (n + 1) s else none

/-- `parse_method` of a text with an end: how far it reads and the method; `none` is `NULL`. -/
def parse_method (t : Str) : Option (ℕ × ℕ) :=
  let unknown := fun n => (unknown_loop n (t.drop n)).map fun n => (n, METHOD_OTHER)
  match known_method t with
  | some (method, len) =>
    match t[len]? with
    | none => some (len, method)
    | some c => if ends_method c then some (len, method) else unknown len
  | none => unknown 0

end Methods

inductive MsgType where
  | SIP_REQUEST | SIP_REPLY
  deriving DecidableEq

/-- A `struct msg_start`; requests and replies share the texts, given by start and length, and the
number. -/
structure MsgStart where
  type : MsgType
  len : ℕ
  first : ℕ × ℕ
  second : ℕ × ℕ
  third : ℕ × ℕ
  value : ℕ

namespace MsgStart

variable (fl : MsgStart)

def method := fl.first
def uri := fl.second
def version := fl.third
def method_value := fl.value
def reply_version := fl.first
def status := fl.second
def reason := fl.third
def statuscode := fl.value

end MsgStart

inductive Failure where
  | too_short | invalid
  deriving DecidableEq

section Source

/-- The methods of the `IFISMETHOD` macros. -/
def fast_methods : List (Str × ℕ) :=
  [("INVITE".toList.map chr, METHOD_INVITE), ("CANCEL".toList.map chr, METHOD_CANCEL),
    ("ACK".toList.map chr, METHOD_ACK), ("BYE".toList.map chr, METHOD_BYE), ("INFO".toList.map chr, METHOD_INFO)]

def starts_with (b word : Str) : Bool :=
  decide (same_case (b.take word.length) word) && b[word.length]? == some SPACE

def first_token (b : Str) : Except Failure (MsgType × ℕ × ℕ) :=
  if starts_with b SIP_VERSION then .ok (.SIP_REPLY, SIP_VERSION.length, 0)
  else match fast_methods.find? fun m => starts_with b m.1 with
    | some m => .ok (.SIP_REQUEST, m.1.length, m.2)
    | none =>
      let n := eat_token_end b
      if n = 0 then .error .invalid
      else match b[n]? with
        | none => .error .too_short
        | some c =>
          if c ≠ SPACE then .error .invalid
          else match parse_method (b.take n) with
            | none => .error .invalid
            | some m => .ok (.SIP_REQUEST, n, m.2)

/-- The end of the line at `nl`: the position behind it. -/
def line_end (nl : ℕ) : Str → Except Failure ℕ
  | [] => .error .too_short
  | c :: s =>
    if c = CR then
      match s with
      | [] => .error .too_short
      | d :: _ => if d = LF then .ok (nl + 2) else .ok (nl + 1)
    else if c = LF then .ok (nl + 1)
    else .error .invalid

def isDigit (c : UInt8) : Bool := chr '0' ≤ c && c ≤ chr '9'

/-- The status code and what is behind it, at `third`: the length of the reason, the code and the next
line. -/
def reply_end (status : Str) (third : ℕ) (s : Str) : Except Failure (ℕ × ℕ × ℕ) :=
  match status with
  | [s1, s2, s3] =>
    if isDigit s1 && isDigit s2 && isDigit s3 then
      let n := eat_token2_end CR s
      (line_end (third + n) (s.drop n)).map fun nl =>
        (n, (s1.toNat - 48) * 100 + 10 * (s2.toNat - 48) + (s3.toNat - 48), nl)
    else .error .invalid
  | _ => .error .invalid

/-- The version, at `third`: its length and the next line. -/
def request_end (third : ℕ) (s : Str) : Except Failure (ℕ × ℕ) :=
  let n := eat_token_end s
  if n = 0 then .error .invalid
  else
    let k := eat_space_end (s.drop n)
    (line_end (third + n + k) ((s.drop n).drop k)).map fun nl => (n, nl)

def parse_first_line (b : Str) : Except Failure MsgStart :=
  if b.length ≤ 16 then .error .too_short
  else match first_token b with
    | .error e => .error e
    | .ok (type, n, value) =>
      let second := n + 1
      let s := b.drop second
      let u := eat_token_end s
      let s' := s.drop u
      if s' = [] then .error .too_short
      else
        let w := eat_space_end s'
        let third := second + u + w
        if w = 0 then .error .invalid
        else if s'.drop w = [] then .error .too_short
        else match type with
          | .SIP_REPLY => (reply_end (s.take u) third (s'.drop w)).map fun r =>
              { type := type, len := r.2.2, first := (0, n), second := (second, u), third := (third, r.1)
                value := r.2.1 }
          | .SIP_REQUEST => (request_end third (s'.drop w)).map fun r =>
              { type := type, len := r.2, first := (0, n), second := (second, u), third := (third, r.1)
                value := value }

end Source

section Texts

/-- `e` is the end of a line in front of `r`. -/
def LineEnd (e r : Str) : Prop := e = [LF] ∨ e = [CR, LF] ∨ e = [CR] ∧ ∃ c ∈ r.head?, c ≠ LF

def Word (xs : Str) : Prop := ∀ c ∈ xs, isToken c = true

def Blank (xs : Str) : Prop := ∀ c ∈ xs, isSP c = true

def Line (xs : Str) : Prop := ∀ c ∈ xs, c ≠ CR ∧ c ≠ LF

variable {b s t u w v k e r x y : Str} {c : UInt8} {n nl : ℕ} {fl : MsgStart}

theorem isSP_of_isToken (h : isToken c = true) : isSP c = false := by
  simp only [isToken, Bool.and_eq_true, bne_iff_ne] at h
  simp [isSP, h.1.1.1, h.1.1.2]

theorem isToken_of_isSP (h : isSP c = true) : isToken c = false := by
  rcases Bool.or_eq_true .. ▸ h with h | h
  · rw [beq_iff_eq.1 h]
    rfl
  · rw [beq_iff_eq.1 h]
    rfl

theorem line_end_iff : line_end nl s = .ok n ↔ ∃ e r, s = e ++ r ∧ LineEnd e r ∧ n = nl + e.length := by
  constructor
  · intro h
    match s with
    | [] => exact absurd h (by simp [line_end])
    | [c] =>
      rw [line_end] at h
      split_ifs at h with h1 h2
      obtain rfl := Except.ok.inj h
      exact ⟨[c], [], rfl, .inl (by rw [h2]), rfl⟩
    | c :: d :: s =>
      rw [line_end] at h
      split_ifs at h with h1 h2 h3
      · obtain rfl := Except.ok.inj h
        exact ⟨[c, d], s, rfl, .inr (.inl (by rw [h1, h2])), rfl⟩
      · obtain rfl := Except.ok.inj h
        exact ⟨[c], d :: s, rfl, .inr (.inr ⟨by rw [h1], d, rfl, h2⟩), rfl⟩
      · obtain rfl := Except.ok.inj h
        exact ⟨[c], d :: s, rfl, .inl (by rw [h3]), rfl⟩
  · rintro ⟨e, r, rfl, rfl | rfl | ⟨rfl, d, hd, hne⟩, rfl⟩
    · rfl
    · rfl
    · cases r with
      | nil => exact absurd hd (by simp)
      | cons a r =>
        obtain rfl := some.inj hd
        show (if a = LF then Except.ok (nl + 2) else Except.ok (nl + 1)) = (Except.ok (nl + 1) : Except Failure ℕ)
        rw [if_neg hne]

theorem LineEnd.head (h : LineEnd e r) : ∃ c e', e = c :: e' ∧ (c = CR ∨ c = LF) := by
  rcases h with rfl | rfl | ⟨rfl, -⟩
  · exact ⟨LF, [], rfl, .inr rfl⟩
  · exact ⟨CR, [LF], rfl, .inl rfl⟩
  · exact ⟨CR, [], rfl, .inl rfl⟩

theorem LineEnd.unique {e' r' : Str} (h : LineEnd e r) (h' : LineEnd e' r') (heq : e ++ r = e' ++ r') :
    e = e' ∧ r = r' := by
  have h1 : line_end 0 (e ++ r) = .ok (0 + e.length) := line_end_iff.2 ⟨e, r, rfl, h, rfl⟩
  have h2 : line_end 0 (e ++ r) = .ok (0 + e'.length) := line_end_iff.2 ⟨e', r', heq, h', rfl⟩
  rw [h1, zero_add, zero_add] at h2
  exact append_inj heq (Except.ok.inj h2)

theorem eat_token_end_of (h : Cut isToken s x y) :
    eat_token_end s = x.length ∧ s.drop (eat_token_end s) = y ∧ s.take (eat_token_end s) = x := by
  obtain ⟨hx, hy⟩ := h.takeWhile_eq
  refine ⟨by rw [eat_token_end, hx], ?_, ?_⟩
  · rw [eat_token_end, drop_takeWhile, hy]
  · rw [eat_token_end, hx, h.eq, take_left]

theorem eat_space_end_of (h : Cut isSP s x y) :
    eat_space_end s = x.length ∧ s.drop (eat_space_end s) = y := by
  obtain ⟨hx, hy⟩ := h.takeWhile_eq
  refine ⟨by rw [eat_space_end, hx], ?_⟩
  rw [eat_space_end, drop_takeWhile, hy]

theorem LineEnd.no_token (h : LineEnd e r) : ∀ c ∈ (e ++ r).head?, isToken c = false ∧ isSP c = false := by
  obtain ⟨a, e', rfl, ha⟩ := h.head
  intro c hc
  cases hc
  rcases ha with rfl | rfl <;> exact ⟨rfl, rfl⟩

theorem cut_blank (hw : Blank w) (h : LineEnd e r) : Cut isSP (w ++ (e ++ r)) w (e ++ r) :=
  ⟨rfl, hw, fun c hc => (h.no_token c hc).2⟩

theorem cut_word (hv : Word v) (hw : Blank w) (hne : w = [] → ∀ c ∈ s.head?, isToken c = false) :
    Cut isToken (v ++ (w ++ s)) v (w ++ s) := by
  refine ⟨rfl, hv, fun c hc => ?_⟩
  cases w with
  | nil => exact hne rfl c hc
  | cons a w =>
    obtain rfl := some.inj hc
    exact isToken_of_isSP (hw a mem_cons_self)

theorem cut_blanks (hw : Blank w) (hv : Word v) (hne : v ≠ []) : Cut isSP (w ++ (v ++ s)) w (v ++ s) := by
  refine ⟨rfl, hw, fun c hc => ?_⟩
  cases v with
  | nil => exact absurd rfl hne
  | cons a v =>
    obtain rfl := some.inj hc
    exact isSP_of_isToken (hv a mem_cons_self)

/-- **The version and the end of a request's line.** -/
theorem request_end_iff {i : ℕ} : request_end n s = .ok (i, nl) ↔ ∃ v w e r, s = v ++ (w ++ (e ++ r)) ∧
    v ≠ [] ∧ Word v ∧ Blank w ∧ LineEnd e r ∧ i = v.length ∧ nl = n + v.length + w.length + e.length := by
  constructor
  · intro h
    have hv := cut_takeWhile isToken s
    obtain ⟨h1, h2, -⟩ := eat_token_end_of hv
    have hw := cut_takeWhile isSP (s.dropWhile isToken)
    obtain ⟨h3, h4⟩ := eat_space_end_of hw
    rw [request_end, h2] at h
    dsimp only at h
    rw [h4] at h
    split_ifs at h with h0
    cases hl : line_end (n + eat_token_end s + eat_space_end (s.dropWhile isToken))
        ((s.dropWhile isToken).dropWhile isSP) with
    | error f =>
      rw [hl] at h
      exact absurd h (by simp [Except.map])
    | ok m =>
      rw [hl] at h
      obtain ⟨rfl, rfl⟩ := Prod.mk.inj (Except.ok.inj h)
      obtain ⟨e, r, hs, he, rfl⟩ := line_end_iff.1 hl
      refine ⟨_, _, e, r, ?_, fun hnil => ?_, hv.all, hw.all, he, h1, by rw [h1, h3]⟩
      · rw [← hs, ← hw.eq]
        exact hv.eq
      · rw [h1, hnil] at h0
        exact h0 rfl
  · rintro ⟨v, w, e, r, rfl, hne, hv, hw, he, rfl, rfl⟩
    obtain ⟨h1, h2, -⟩ := eat_token_end_of (cut_word hv hw (s := e ++ r) fun _ c hc => (he.no_token c hc).1)
    obtain ⟨h3, h4⟩ := eat_space_end_of (cut_blank hw he)
    have hpos : ¬ v.length = 0 := fun h => hne (length_eq_zero_iff.1 h)
    rw [request_end, h2]
    dsimp only
    rw [h4, h3, h1, if_neg hpos, line_end_iff.2 ⟨e, r, rfl, he, rfl⟩]
    rfl

def Status (xs : Str) (code : ℕ) : Prop := ∃ s1 s2 s3, xs = [s1, s2, s3] ∧ isDigit s1 = true ∧
  isDigit s2 = true ∧ isDigit s3 = true ∧
    code = (s1.toNat - 48) * 100 + 10 * (s2.toNat - 48) + (s3.toNat - 48)

/-- **The reason and the end of a reply's line.** -/
theorem reply_end_iff {i code : ℕ} : reply_end t n s = .ok (i, code, nl) ↔ Status t code ∧
    ∃ v e r, s = v ++ (e ++ r) ∧ Line v ∧ LineEnd e r ∧ i = v.length ∧ nl = n + v.length + e.length := by
  have hline : ∀ c : UInt8, (c != CR && c != LF && c != CR) = true ↔ c ≠ CR ∧ c ≠ LF := fun c => by
    simp only [Bool.and_eq_true, bne_iff_ne]
    exact ⟨fun h => h.1, fun h => ⟨h, h.1⟩⟩
  constructor
  · intro h
    unfold reply_end at h
    split at h
    · split_ifs at h with hd
      obtain ⟨⟨h1, h2⟩, h3⟩ := (Bool.and_eq_true ..).mp hd |>.imp_left (Bool.and_eq_true ..).mp
      have hv := cut_takeWhile (fun c => c != CR && c != LF && c != CR) s
      have hdrop : s.drop (eat_token2_end CR s) = _ := drop_takeWhile _ s
      dsimp only at h
      rw [hdrop] at h
      cases hl : line_end (n + eat_token2_end CR s) (s.dropWhile fun c => c != CR && c != LF && c != CR) with
      | error f =>
        rw [hl] at h
        exact absurd h (by simp [Except.map])
      | ok m =>
        rw [hl] at h
        obtain ⟨rfl, htail⟩ := Prod.mk.inj (Except.ok.inj h)
        obtain ⟨rfl, rfl⟩ := Prod.mk.inj htail
        obtain ⟨e, r, hs, he, rfl⟩ := line_end_iff.mp hl
        refine ⟨⟨_, _, _, rfl, h1, h2, h3, rfl⟩, _, e, r, ?_, fun c hc => (hline c).mp (hv.all c hc), he, rfl,
          rfl⟩
        rw [← hs]
        exact hv.eq
    · exact absurd h (by simp)
  · rintro ⟨⟨s1, s2, s3, rfl, h1, h2, h3, rfl⟩, v, e, r, rfl, hv, he, rfl, rfl⟩
    have hcut : Cut (fun c => c != CR && c != LF && c != CR) (v ++ (e ++ r)) v (e ++ r) := by
      refine ⟨rfl, fun c hc => (hline c).mpr (hv c hc), fun c hc => Bool.eq_false_iff.mpr fun hc' => ?_⟩
      obtain ⟨a, e', rfl, ha⟩ := he.head
      obtain rfl := some.inj hc
      exact ha.elim ((hline a).mp hc').1 ((hline a).mp hc').2
    have hn : eat_token2_end CR (v ++ (e ++ r)) = v.length := by
      rw [eat_token2_end, hcut.takeWhile_eq.1]
    have hdigits : (isDigit s1 && isDigit s2 && isDigit s3) = true := by
      rw [h1, h2, h3]
      rfl
    show (if (isDigit s1 && isDigit s2 && isDigit s3) = true then _ else _) = _
    rw [if_pos hdigits, hn, drop_left, line_end_iff.mpr ⟨e, r, rfl, he, rfl⟩]
    rfl

end Texts

section Tokens

variable {b t x y name : Str} {c : UInt8} {n value : ℕ} {fl : MsgStart} {type : MsgType}

theorem isToken_tolower (c : UInt8) : isToken (tolower c) = isToken c := by
  unfold tolower
  split_ifs with h
  · have hA : (chr 'A').toNat = 65 := rfl
    have hZ : (chr 'Z').toNat = 90 := rfl
    obtain ⟨h1, h2⟩ := h
    rw [UInt8.le_iff_toNat_le] at h1 h2
    have hadd : (c + 32).toNat = c.toNat + 32 := by
      rw [UInt8.toNat_add]
      show (c.toNat + 32) % 256 = _
      omega
    have hne : ∀ d : UInt8, d.toNat < 65 → c ≠ d ∧ c + 32 ≠ d := fun d hd => by
      refine ⟨fun he => ?_, fun he => ?_⟩
      · rw [he] at h1
        omega
      · rw [he] at hadd
        omega
    have h32 := hne SPACE (by decide)
    have h9 := hne TAB (by decide)
    have h10 := hne LF (by decide)
    have h13 := hne CR (by decide)
    rw [isToken, isToken, bne_iff_ne.2 h32.1, bne_iff_ne.2 h32.2, bne_iff_ne.2 h9.1,
      bne_iff_ne.2 h9.2, bne_iff_ne.2 h10.1, bne_iff_ne.2 h10.2, bne_iff_ne.2 h13.1,
      bne_iff_ne.2 h13.2]
  · rfl

theorem same_case.length_eq (h : same_case x y) : x.length = y.length := by
  have := congrArg List.length h
  rwa [length_map, length_map] at this

theorem same_case.word (h : same_case x y) (hy : Word y) : Word x := by
  intro c hc
  have hmem : tolower c ∈ y.map tolower := h ▸ List.mem_map_of_mem hc
  obtain ⟨d, hd, he⟩ := List.mem_map.1 hmem
  rw [← isToken_tolower, ← he, isToken_tolower]
  exact hy d hd

theorem starts_with_iff : starts_with b name = true ↔ ∃ x y, b = x ++ SPACE :: y ∧ same_case x name := by
  rw [starts_with, Bool.and_eq_true, decide_eq_true_eq, beq_iff_eq]
  constructor
  · rintro ⟨hcase, hspace⟩
    refine ⟨_, b.drop (name.length + 1), ?_, hcase⟩
    have hdrop : b.drop name.length = SPACE :: b.drop (name.length + 1) := by
      obtain ⟨hlt, hget⟩ := List.getElem?_eq_some_iff.1 hspace
      rw [drop_eq_getElem_cons hlt, hget]
    rw [← hdrop, take_append_drop]
  · rintro ⟨x, y, rfl, hcase⟩
    rw [← hcase.length_eq, take_left, getElem?_append_right (le_rfl), Nat.sub_self]
    exact ⟨hcase, rfl⟩

/-- The first token of a request is one of the methods tried first, or `parse_method` takes it. -/
def Accepted (t : Str) : Prop := (∃ m ∈ fast_methods, same_case t m.1) ∨ (parse_method t).isSome = true

theorem word_fast {m : Str × ℕ} (h : m ∈ fast_methods) : Word m.1 ∧ m.1 ≠ [] := by
  have hall : ∀ m ∈ fast_methods, m.1.all isToken = true ∧ m.1 ≠ [] := by decide
  exact ⟨List.all_eq_true.1 (hall m h).1, (hall m h).2⟩

theorem first_word {x' y' : Str} (hx : Word x) (hx' : Word x') (h : x ++ SPACE :: y = x' ++ SPACE :: y') :
    x = x' ∧ y = y' := by
  have hspace : isToken SPACE = false := rfl
  obtain ⟨h1, h2⟩ := (cut_cons hx hspace (y := y)).takeWhile_eq
  obtain ⟨h1', h2'⟩ := (cut_cons hx' hspace (y := y')).takeWhile_eq
  rw [h] at h1 h2
  exact ⟨h1.symm.trans h1', cons.inj (h2.symm.trans h2') |>.2⟩

theorem first_token_ok (h : first_token b = .ok (type, n, value)) :
    (starts_with b SIP_VERSION = true ∧ type = .SIP_REPLY ∧ n = SIP_VERSION.length ∧ value = 0) ∨
    (starts_with b SIP_VERSION = false ∧ type = .SIP_REQUEST ∧
      ((∃ m ∈ fast_methods, starts_with b m.1 = true ∧ n = m.1.length) ∨
        (n ≠ 0 ∧ n = eat_token_end b ∧ b[n]? = some SPACE ∧ (parse_method (b.take n)).isSome = true))) := by
  unfold first_token at h
  split_ifs at h with hsip
  · cases h
    exact .inl ⟨hsip, rfl, rfl, rfl⟩
  right
  cases hf : fast_methods.find? fun m => starts_with b m.1 with
  | some m =>
    rw [hf] at h
    cases h
    have hstart := find?_some hf
    exact ⟨Bool.eq_false_iff.2 hsip, rfl, .inl ⟨m, mem_of_find?_eq_some hf, hstart, rfl⟩⟩
  | none =>
    rw [hf] at h
    dsimp only at h
    split_ifs at h with h0
    cases hc : b[eat_token_end b]? with
    | none =>
      rw [hc] at h
      exact absurd h (by simp)
    | some c =>
      rw [hc] at h
      dsimp only at h
      split_ifs at h with hspace
      cases hp : parse_method (b.take (eat_token_end b)) with
      | none =>
        rw [hp] at h
        exact absurd h (by simp)
      | some m =>
        rw [hp] at h
        cases h
        refine ⟨Bool.eq_false_iff.2 hsip, rfl, .inr ⟨h0, rfl, ?_, ?_⟩⟩
        · rw [hc, not_not.1 hspace]
        · rw [hp]
          rfl

/-- **The first token of a request.** -/
theorem first_token_request : (∃ value, first_token b = .ok (.SIP_REQUEST, n, value)) ↔
    starts_with b SIP_VERSION = false ∧ ∃ t y, b = t ++ SPACE :: y ∧ Word t ∧ t ≠ [] ∧ Accepted t ∧
      n = t.length := by
  constructor
  · rintro ⟨value, h⟩
    obtain ⟨-, htype, -⟩ | ⟨hsip, -, hways⟩ := first_token_ok h
    · exact absurd htype (by decide)
    refine ⟨hsip, ?_⟩
    obtain ⟨m, hmem, hstart, rfl⟩ | ⟨h0, rfl, hspace, hmethod⟩ := hways
    · obtain ⟨x, y, hb, hcase⟩ := starts_with_iff.1 hstart
      obtain ⟨hword, hne⟩ := word_fast hmem
      refine ⟨x, y, hb, hcase.word hword, fun hx => hne ?_, .inl ⟨m, hmem, hcase⟩, hcase.length_eq.symm⟩
      have := hcase.length_eq
      rw [hx] at this
      exact length_eq_zero_iff.1 this.symm
    · have hcut := cut_takeWhile isToken b
      obtain ⟨hn, hdrop, htake⟩ := eat_token_end_of hcut
      obtain ⟨hlt, hget⟩ := List.getElem?_eq_some_iff.1 hspace
      have hsplit : b.dropWhile isToken = SPACE :: b.drop (eat_token_end b + 1) := by
        rw [← hdrop, drop_eq_getElem_cons hlt, hget]
      refine ⟨_, _, hsplit ▸ hcut.eq, hcut.all, fun hnil => h0 ?_, .inr ?_, hn⟩
      · rw [hn, hnil]
        rfl
      · rwa [← htake]
  · rintro ⟨hsip, t, y, rfl, hword, hne, hacc, rfl⟩
    unfold first_token
    rw [if_neg (Bool.eq_false_iff.1 hsip)]
    cases hf : fast_methods.find? fun m => starts_with (t ++ SPACE :: y) m.1 with
    | some m =>
      have hstart := find?_some hf
      obtain ⟨x, y', hb, hcase⟩ := starts_with_iff.1 hstart
      obtain ⟨rfl, -⟩ := first_word hword (hcase.word (word_fast (mem_of_find?_eq_some hf)).1) hb
      exact ⟨m.2, by rw [hcase.length_eq]⟩
    | none =>
      obtain ⟨hn, -, htake⟩ := eat_token_end_of (cut_cons hword (show isToken SPACE = false from rfl) (y := y))
      have hmethod : (parse_method t).isSome = true := by
        rcases hacc with ⟨m, hm, hcase⟩ | hacc
        · exact absurd (starts_with_iff.2 ⟨t, y, rfl, hcase⟩) (by simpa using find?_eq_none.1 hf m hm)
        · exact hacc
      obtain ⟨m, hm⟩ := isSome_iff_exists.1 hmethod
      have hpos : ¬ t.length = 0 := fun h => hne (length_eq_zero_iff.1 h)
      have hget : (t ++ SPACE :: y)[t.length]? = some SPACE := by
        rw [getElem?_append_right (le_rfl), Nat.sub_self]
        rfl
      rw [hn] at htake
      rw [hn, if_neg hpos, hget, htake, hm]
      exact ⟨m.2, rfl⟩

theorem first_token_reply : first_token b = .ok (.SIP_REPLY, n, value) ↔
    starts_with b SIP_VERSION = true ∧ n = SIP_VERSION.length ∧ value = 0 := by
  constructor
  · intro h
    obtain ⟨hsip, -, hn, hvalue⟩ | ⟨-, htype, -⟩ := first_token_ok h
    · exact ⟨hsip, hn, hvalue⟩
    · exact absurd htype (by decide)
  · rintro ⟨hsip, rfl, rfl⟩
    unfold first_token
    rw [if_pos hsip]

end Tokens

section Lines

variable {b t u w v k e r s x y z : Str} {n value code : ℕ} {fl : MsgStart} {type : MsgType}

/-- The second token and the blanks behind it, and what comes behind these. -/
structure Middle (s u w z : Str) : Prop where
  word : Cut isToken s u (w ++ z)
  blank : Cut isSP (w ++ z) w z
  gap : w ≠ []
  more : z ≠ []

theorem parse_eval (hlen : 16 < b.length) (ht : first_token b = .ok (type, n, value))
    (hm : Middle (b.drop (n + 1)) u w z) : parse_first_line b = match type with
      | .SIP_REPLY => (reply_end u (n + 1 + u.length + w.length) z).map fun r =>
        { type := type, len := r.2.2, first := (0, n), second := (n + 1, u.length)
          third := (n + 1 + u.length + w.length, r.1), value := r.2.1 }
      | .SIP_REQUEST => (request_end (n + 1 + u.length + w.length) z).map fun r =>
        { type := type, len := r.2, first := (0, n), second := (n + 1, u.length)
          third := (n + 1 + u.length + w.length, r.1), value := value } := by
  obtain ⟨h1, h2, h3⟩ := eat_token_end_of hm.word
  obtain ⟨h4, h5⟩ := eat_space_end_of hm.blank
  have hne : w ++ z ≠ [] := fun h => hm.gap (append_eq_nil_iff.1 h).1
  have hw : ¬ w.length = 0 := fun h => hm.gap (length_eq_zero_iff.1 h)
  unfold parse_first_line
  rw [if_neg (not_le.2 hlen), ht]
  dsimp only
  rw [h2, if_neg hne, h5, if_neg (h4 ▸ hw), if_neg hm.more, h3, h1, h4]

theorem map_eq_ok {α β ε : Type} {f : α → β} {x : Except ε α} {y : β} (h : x.map f = .ok y) :
    ∃ a, x = .ok a ∧ f a = y := by
  cases x with
  | error e => cases h
  | ok a => exact ⟨a, rfl, Except.ok.inj h⟩

theorem parse_ok (h : parse_first_line b = .ok fl) : 16 < b.length ∧ ∃ type n value u w z,
    first_token b = .ok (type, n, value) ∧ Middle (b.drop (n + 1)) u w z := by
  unfold parse_first_line at h
  split_ifs at h with hlen
  refine ⟨not_le.1 hlen, ?_⟩
  cases ht : first_token b with
  | error f =>
    rw [ht] at h
    exact absurd h (by simp)
  | ok res =>
    obtain ⟨type, n, value⟩ := res
    rw [ht] at h
    dsimp only at h
    have hu := cut_takeWhile isToken (b.drop (n + 1))
    obtain ⟨-, h2, -⟩ := eat_token_end_of hu
    have hw := cut_takeWhile isSP ((b.drop (n + 1)).dropWhile isToken)
    obtain ⟨h4, h5⟩ := eat_space_end_of hw
    rw [h2, h5] at h
    split_ifs at h with h6 h7 h8
    refine ⟨type, n, value, _, _, _, rfl, hw.eq ▸ hu, ?_, fun hnil => h7 ?_, h8⟩
    · rw [← hw.eq]
      exact hw
    · rw [h4, hnil]
      rfl

/-- A line as the loops read it: a token, a space, a word, blanks, a word, perhaps blanks. -/
structure Request (b t u w v k e r : Str) : Prop where
  text : b = t ++ SPACE :: (u ++ (w ++ (v ++ (k ++ (e ++ r)))))
  method : Word t ∧ t ≠ []
  uri : Word u
  gap : Blank w ∧ w ≠ []
  version : Word v ∧ v ≠ []
  blanks : Blank k
  line_end : LineEnd e r

/-- The version, a space, three digits, blanks, and a reason that starts with none. -/
structure Reply (b x u w v e r : Str) (code : ℕ) : Prop where
  text : b = x ++ SPACE :: (u ++ (w ++ (v ++ (e ++ r))))
  version : same_case x SIP_VERSION
  status : Status u code
  gap : Blank w ∧ w ≠ []
  reason : Line v ∧ ∀ c ∈ v.head?, isSP c = false
  line_end : LineEnd e r

structure Fields (fl : MsgStart) (t u w v : Str) (len : ℕ) : Prop where
  first : fl.first = (0, t.length)
  second : fl.second = (t.length + 1, u.length)
  third : fl.third = (t.length + 1 + u.length + w.length, v.length)
  len : fl.len = len

theorem drop_behind (t y : Str) : (t ++ SPACE :: y).drop (t.length + 1) = y := by
  rw [← drop_drop, drop_left]
  rfl

theorem Request.middle (h : Request b t u w v k e r) :
    Middle (b.drop (t.length + 1)) u w (v ++ (k ++ (e ++ r))) := by
  refine ⟨?_, cut_blanks h.gap.1 h.version.1 h.version.2, h.gap.2, fun hnil => ?_⟩
  · rw [h.text, drop_behind]
    exact cut_word h.uri h.gap.1 fun hw => absurd hw h.gap.2
  · exact h.version.2 (append_eq_nil_iff.1 hnil).1

/-- **What is taken for a request.** -/
theorem parse_request (h : parse_first_line b = .ok fl) (htype : fl.type = .SIP_REQUEST) :
    16 < b.length ∧ starts_with b SIP_VERSION = false ∧ ∃ t u w v k e r, Request b t u w v k e r ∧ Accepted t ∧
      Fields fl t u w v (t.length + 1 + u.length + w.length + v.length + k.length + e.length) := by
  obtain ⟨hlen, type, n, value, u, w, z, ht, hm⟩ := parse_ok h
  rw [parse_eval hlen ht hm] at h
  cases type with
  | SIP_REPLY =>
    obtain ⟨res, -, rfl⟩ := map_eq_ok h
    cases htype
  | SIP_REQUEST =>
    obtain ⟨⟨i, nl⟩, hr, hfl⟩ := map_eq_ok h
    obtain ⟨v, k, e, r, rfl, hv0, hv, hk, he, rfl, rfl⟩ := request_end_iff.1 hr
    obtain ⟨hsip, t, y, rfl, hword, hne, hacc, rfl⟩ := first_token_request.1 ⟨value, ht⟩
    rw [drop_behind] at hm
    refine ⟨hlen, hsip, t, u, w, v, k, e, r, ⟨?_, ⟨hword, hne⟩, hm.word.all, ⟨hm.blank.all, hm.gap⟩,
      ⟨hv, hv0⟩, hk, he⟩, hacc, ?_⟩
    · rw [hm.word.eq]
    · rw [← hfl]
      exact ⟨rfl, rfl, rfl, rfl⟩

/-- **Every such line is.** -/
theorem request_parse (h : Request b t u w v k e r) (hlen : 16 < b.length)
    (hsip : starts_with b SIP_VERSION = false) (hacc : Accepted t) : ∃ fl, parse_first_line b = .ok fl ∧
      fl.type = .SIP_REQUEST ∧
      Fields fl t u w v (t.length + 1 + u.length + w.length + v.length + k.length + e.length) := by
  obtain ⟨value, ht⟩ := first_token_request.2 ⟨hsip, t, _, h.text, h.method.1, h.method.2, hacc, rfl⟩
  rw [parse_eval hlen ht h.middle]
  rw [request_end_iff.2 ⟨v, k, e, r, rfl, h.version.2, h.version.1, h.blanks, h.line_end, rfl, rfl⟩]
  exact ⟨_, rfl, rfl, rfl, rfl, rfl, rfl⟩

theorem word_status (h : Status u code) : Word u ∧ u.length = 3 := by
  obtain ⟨s1, s2, s3, rfl, h1, h2, h3, -⟩ := h
  have hdigit : ∀ c, isDigit c = true → isToken c = true := by
    intro c hc
    rw [isDigit, Bool.and_eq_true, decide_eq_true_eq, decide_eq_true_eq, UInt8.le_iff_toNat_le] at hc
    have h0 : (chr '0').toNat = 48 := rfl
    have hne : ∀ d : UInt8, d.toNat < 48 → (c != d) = true := fun d hd => bne_iff_ne.2 fun he => by
      have := hc.1
      rw [he] at this
      omega
    rw [isToken, hne SPACE (by decide), hne TAB (by decide), hne LF (by decide), hne CR (by decide)]
    rfl
  refine ⟨fun c hc => ?_, rfl⟩
  rcases mem_cons.1 hc with rfl | hc
  · exact hdigit c h1
  · rcases mem_cons.1 hc with rfl | hc
    · exact hdigit c h2
    · exact mem_singleton.1 hc ▸ hdigit s3 h3

theorem Reply.middle (h : Reply b x u w v e r code) :
    Middle (b.drop (x.length + 1)) u w (v ++ (e ++ r)) := by
  refine ⟨?_, ⟨rfl, h.gap.1, fun c hc => ?_⟩, h.gap.2, fun hnil => ?_⟩
  · rw [h.text, drop_behind]
    exact cut_word (word_status h.status).1 h.gap.1 fun hw => absurd hw h.gap.2
  · cases v with
    | nil => exact (h.line_end.no_token c hc).2
    | cons a v =>
      obtain rfl := some.inj hc
      exact h.reason.2 a rfl
  · obtain ⟨a, e', he, -⟩ := h.line_end.head
    rw [he] at hnil
    exact absurd (append_eq_nil_iff.1 hnil).2 (by simp)

/-- **What is taken for a reply.** -/
theorem parse_reply (h : parse_first_line b = .ok fl) (htype : fl.type = .SIP_REPLY) :
    16 < b.length ∧ ∃ x u w v e r, Reply b x u w v e r fl.statuscode ∧
      Fields fl x u w v (x.length + 1 + u.length + w.length + v.length + e.length) := by
  obtain ⟨hlen, type, n, value, u, w, z, ht, hm⟩ := parse_ok h
  rw [parse_eval hlen ht hm] at h
  cases type with
  | SIP_REQUEST =>
    obtain ⟨res, -, rfl⟩ := map_eq_ok h
    cases htype
  | SIP_REPLY =>
    obtain ⟨⟨i, c, nl⟩, hr, hfl⟩ := map_eq_ok h
    obtain ⟨hstatus, v, e, r, rfl, hv, he, rfl, rfl⟩ := reply_end_iff.1 hr
    obtain ⟨hsip, rfl, -⟩ := first_token_reply.1 ht
    obtain ⟨x, y, rfl, hcase⟩ := starts_with_iff.1 hsip
    rw [← hcase.length_eq] at hm hfl
    rw [drop_behind] at hm
    refine ⟨hlen, x, u, w, v, e, r, ⟨?_, hcase, ?_, ⟨hm.blank.all, hm.gap⟩, ⟨hv, fun c hc => ?_⟩, he⟩, ?_⟩
    · rw [hm.word.eq]
    · rw [← hfl]
      exact hstatus
    · cases v with
      | nil => exact absurd hc (by simp)
      | cons a v => exact hm.blank.stop c hc
    · rw [← hfl]
      exact ⟨rfl, rfl, rfl, rfl⟩

/-- **Every such line is.** -/
theorem reply_parse (h : Reply b x u w v e r code) (hlen : 16 < b.length) : ∃ fl,
    parse_first_line b = .ok fl ∧ fl.type = .SIP_REPLY ∧ fl.statuscode = code ∧
      Fields fl x u w v (x.length + 1 + u.length + w.length + v.length + e.length) := by
  have ht := first_token_reply.2 ⟨starts_with_iff.2 ⟨x, _, h.text, h.version⟩, rfl, rfl⟩
  rw [← h.version.length_eq] at ht
  rw [parse_eval hlen ht h.middle]
  rw [reply_end_iff.2 ⟨h.status, v, e, r, rfl, h.reason.1, h.line_end, rfl, rfl⟩]
  exact ⟨_, rfl, rfl, rfl, rfl, rfl, rfl, rfl⟩

end Lines

section Grammar

/-- A character of a token of the grammar: these are missing in `method_char`. -/
def token_char (c : UInt8) : Bool := method_char c || c == chr '!' || c == 0x60 || c == 0x27

/-- `method SP uri SP version`, and the end of the line. -/
structure RequestLine (b m u x e r : Str) : Prop where
  text : b = m ++ SPACE :: (u ++ SPACE :: (x ++ (e ++ r)))
  method : (∀ c ∈ m, token_char c = true) ∧ m ≠ []
  uri : Word u ∧ u ≠ []
  version : same_case x SIP_VERSION
  line_end : LineEnd e r

/-- `version SP status SP reason`, and the end of the line. -/
structure ReplyLine (b x u v e r : Str) (code : ℕ) : Prop where
  text : b = x ++ SPACE :: (u ++ SPACE :: (v ++ (e ++ r)))
  version : same_case x SIP_VERSION
  status : Status u code
  reason : Line v
  line_end : LineEnd e r

/-- `parse_first_line` does what the grammar says. -/
structure Meets (b : Str) : Prop where
  request : ∀ fl, parse_first_line b = .ok fl → fl.type = .SIP_REQUEST → ∃ m u x e r, RequestLine b m u x e r ∧
    Fields fl m u [SPACE] x (m.length + 1 + u.length + 1 + x.length + e.length)
  accepts_request : ∀ m u x e r, RequestLine b m u x e r →
    ∃ fl, parse_first_line b = .ok fl ∧ fl.type = .SIP_REQUEST
  reply : ∀ fl, parse_first_line b = .ok fl → fl.type = .SIP_REPLY → ∃ x u v e r,
    ReplyLine b x u v e r fl.statuscode ∧
      Fields fl x u [SPACE] v (x.length + 1 + u.length + 1 + v.length + e.length)
  accepts_reply : ∀ x u v e r code, ReplyLine b x u v e r code →
    ∃ fl, parse_first_line b = .ok fl ∧ fl.type = .SIP_REPLY

/-- A line that is read as a request, or as a reply, has single spaces, none at its end, a method that is
a token, a uri and the right version; a line of the grammar has more than 16 bytes with what is behind
it, and a method that `parse_method` takes. -/
structure Regular (b : Str) : Prop where
  request : 16 < b.length → ∀ t u w v k e r, Request b t u w v k e r → Accepted t →
    starts_with b SIP_VERSION = false →
    (∀ c ∈ t, token_char c = true) ∧ u ≠ [] ∧ w = [SPACE] ∧ same_case v SIP_VERSION ∧ k = []
  long_request : ∀ m u x e r, RequestLine b m u x e r → 16 < b.length ∧ Accepted m
  reply : 16 < b.length → ∀ x u w v e r code, Reply b x u w v e r code → w = [SPACE]
  long_reply : ∀ x u v e r code, ReplyLine b x u v e r code → 16 < b.length

variable {b t m u w v k e r x y : Str} {code : ℕ} {c : UInt8}

theorem word_token (h : ∀ c ∈ m, token_char c = true) : Word m := by
  intro c hc
  by_contra hn
  have hfour : c = SPACE ∨ c = TAB ∨ c = LF ∨ c = CR := by
    by_contra hne
    simp only [not_or] at hne
    apply hn
    simp [isToken, hne]
  have htrue := h c hc
  rcases hfour with rfl | rfl | rfl | rfl <;> exact absurd htrue (by decide)

theorem not_version (h : ∀ c ∈ m, token_char c = true) : ¬ same_case m SIP_VERSION := by
  intro hcase
  have hslash : chr '/' ∈ m.map tolower := by
    rw [hcase]
    decide
  obtain ⟨c, hc, he⟩ := List.mem_map.1 hslash
  have hc' : c = chr '/' := by
    unfold tolower at he
    split_ifs at he with hl
    · have h1 := UInt8.le_iff_toNat_le.1 hl.1
      have h2 := UInt8.le_iff_toNat_le.1 hl.2
      have hA : (chr 'A').toNat = 65 := rfl
      have hZ : (chr 'Z').toNat = 90 := rfl
      have hs : (chr '/').toNat = 47 := rfl
      have hadd : (c + 32).toNat = (c.toNat + 32) % 256 := UInt8.toNat_add c 32
      rw [he] at hadd
      omega
    · exact he
  exact absurd (hc' ▸ h c hc) (by decide)

theorem word_version (h : same_case x SIP_VERSION) : Word x ∧ x ≠ [] := by
  refine ⟨h.word (List.all_eq_true.1 (by decide)), fun hnil => ?_⟩
  rw [hnil] at h
  exact absurd h (by decide)

theorem RequestLine.read (h : RequestLine b m u x e r) : Request b m u [SPACE] x [] e r :=
  ⟨h.text, ⟨word_token h.method.1, h.method.2⟩, h.uri.1,
    ⟨fun _ hc => mem_singleton.1 hc ▸ rfl, cons_ne_nil _ _⟩, word_version h.version,
    fun _ hc => absurd hc not_mem_nil, h.line_end⟩

theorem RequestLine.not_reply (h : RequestLine b m u x e r) : starts_with b SIP_VERSION = false := by
  apply Bool.eq_false_iff.2
  intro hs
  obtain ⟨x', y, hb, hcase⟩ := starts_with_iff.1 hs
  obtain ⟨rfl, -⟩ := first_word (word_token h.method.1) (word_version hcase).1 (h.text.symm.trans hb)
  exact not_version h.method.1 hcase

/-- **There is one way to read a line.** -/
theorem Request.unique {t' u' w' v' k' e' r' : Str} (h : Request b t u w v k e r)
    (h' : Request b t' u' w' v' k' e' r') : t = t' ∧ u = u' ∧ w = w' ∧ v = v' ∧ k = k' ∧ e = e' := by
  obtain ⟨rfl, -⟩ := first_word h.method.1 h'.method.1 (h.text.symm.trans h'.text)
  obtain ⟨h1, h2⟩ := h.middle.word.takeWhile_eq
  obtain ⟨h1', h2'⟩ := h'.middle.word.takeWhile_eq
  obtain ⟨h3, h4⟩ := h.middle.blank.takeWhile_eq
  obtain ⟨h3', h4'⟩ := h'.middle.blank.takeWhile_eq
  rw [← h2.symm.trans h2'] at h3' h4'
  have hrest := h4.symm.trans h4'
  obtain ⟨h5, h6⟩ := (cut_word h.version.1 h.blanks fun _ c hc => (h.line_end.no_token c hc).1).takeWhile_eq
  obtain ⟨h5', h6'⟩ := (cut_word h'.version.1 h'.blanks fun _ c hc =>
    (h'.line_end.no_token c hc).1).takeWhile_eq
  rw [← hrest] at h5' h6'
  have hend := h6.symm.trans h6'
  obtain ⟨h7, h8⟩ := (cut_blank h.blanks h.line_end).takeWhile_eq
  obtain ⟨h7', h8'⟩ := (cut_blank h'.blanks h'.line_end).takeWhile_eq
  rw [← hend] at h7' h8'
  exact ⟨rfl, h1.symm.trans h1', h3.symm.trans h3', h5.symm.trans h5', h7.symm.trans h7',
    (h.line_end.unique h'.line_end (h8.symm.trans h8')).1⟩

theorem ReplyLine.read (h : ReplyLine b x u v e r code) :
    Reply b x u (SPACE :: v.takeWhile isSP) (v.dropWhile isSP) e r code := by
  have hcut := cut_takeWhile isSP v
  refine ⟨?_, h.version, h.status, ⟨fun c hc => ?_, cons_ne_nil _ _⟩, ⟨fun c hc => ?_, hcut.stop⟩, h.line_end⟩
  · rw [h.text, cons_append, ← append_assoc (v.takeWhile isSP), ← hcut.eq]
  · rcases mem_cons.1 hc with rfl | hc
    · rfl
    · exact hcut.all c hc
  · exact h.reason c (dropWhile_sublist isSP |>.subset hc)

theorem Meets.regular (h : Meets b) : Regular b := by
  refine ⟨fun hlen t u w v k e r hr hacc hsip => ?_, fun m u x e r hl => ?_,
    fun hlen x u w v e r code hr => ?_, fun x u v e r code hl => ?_⟩
  · obtain ⟨fl, hok, htype, -⟩ := request_parse hr hlen hsip hacc
    obtain ⟨m, u', x, e', r', hl, -⟩ := h.request fl hok htype
    obtain ⟨rfl, rfl, rfl, rfl, rfl, -⟩ := hr.unique hl.read
    exact ⟨hl.method.1, hl.uri.2, rfl, hl.version, rfl⟩
  · obtain ⟨fl, hok, htype⟩ := h.accepts_request m u x e r hl
    obtain ⟨hlen, -, t, u', w, v, k, e', r', hr, hacc, -⟩ := parse_request hok htype
    obtain ⟨rfl, -⟩ := hr.unique hl.read
    exact ⟨hlen, hacc⟩
  · obtain ⟨fl, hok, htype, -, hf⟩ := reply_parse hr hlen
    obtain ⟨x', u', v', e', r', hl, hf'⟩ := h.reply fl hok htype
    have h1 : x.length = x'.length := congrArg Prod.snd (hf.first.symm.trans hf'.first)
    have h2 : u.length = u'.length := congrArg Prod.snd (hf.second.symm.trans hf'.second)
    have h3 : x.length + 1 + u.length + w.length = x'.length + 1 + u'.length + 1 :=
      congrArg Prod.fst (hf.third.symm.trans hf'.third)
    obtain ⟨-, htail⟩ := append_inj (hr.text.symm.trans hl.text) h1
    obtain ⟨-, htail⟩ := append_inj (cons.inj htail).2 h2
    exact (append_inj htail (show w.length = [SPACE].length by rw [length_singleton]; omega)).1
  · obtain ⟨fl, hok, htype⟩ := h.accepts_reply x u v e r code hl
    exact (parse_reply hok htype).1

theorem Regular.meets (h : Regular b) : Meets b := by
  refine ⟨fun fl hok htype => ?_, fun m u x e r hl => ?_, fun fl hok htype => ?_, fun x u v e r code hl => ?_⟩
  · obtain ⟨hlen, hsip, t, u, w, v, k, e, r, hr, hacc, hf⟩ := parse_request hok htype
    obtain ⟨htoken, hu, rfl, hv, rfl⟩ := h.request hlen t u w v k e r hr hacc hsip
    exact ⟨t, u, v, e, r, ⟨hr.text, ⟨htoken, hr.method.2⟩, ⟨hr.uri, hu⟩, hv, hr.line_end⟩, hf⟩
  · obtain ⟨hlen, hacc⟩ := h.long_request m u x e r hl
    obtain ⟨fl, hok, htype, -⟩ := request_parse hl.read hlen hl.not_reply hacc
    exact ⟨fl, hok, htype⟩
  · obtain ⟨hlen, x, u, w, v, e, r, hr, hf⟩ := parse_reply hok htype
    obtain rfl := h.reply hlen x u w v e r _ hr
    exact ⟨x, u, v, e, r, ⟨hr.text, hr.version, hr.status, hr.reason.1, hr.line_end⟩, hf⟩
  · obtain ⟨fl, hok, htype, -⟩ := reply_parse hl.read (h.long_reply x u v e r code hl)
    exact ⟨fl, hok, htype⟩

/-- **The first line is what the grammar says** exactly for regular buffers. -/
theorem first_line_grammar (b : Str) : Meets b ↔ Regular b := ⟨Meets.regular, Regular.meets⟩

def other_version : Str := "INVITE sip:bob HTTP/1.1\r\n".toList.map chr

/-- It is taken for a SIP request. -/
theorem version_unchecked : (∃ fl, parse_first_line other_version = .ok fl ∧ fl.type = .SIP_REQUEST ∧
    fl.version = (15, 8)) ∧ ¬ Meets other_version := by
  refine ⟨⟨_, rfl, rfl, by decide⟩, fun h => ?_⟩
  have hr : Request other_version ("INVITE".toList.map chr) ("sip:bob".toList.map chr) [SPACE]
      ("HTTP/1.1".toList.map chr) [] [CR, LF] [] := by
    refine ⟨by decide, ⟨?_, by decide⟩, ?_, ⟨?_, by decide⟩, ⟨?_, by decide⟩, ?_, .inr (.inl rfl)⟩
    · unfold Word
      exact List.all_eq_true.1 (by decide)
    · unfold Word
      exact List.all_eq_true.1 (by decide)
    · unfold Blank
      exact List.all_eq_true.1 (by decide)
    · unfold Word
      exact List.all_eq_true.1 (by decide)
    · unfold Blank
      exact List.all_eq_true.1 (by decide)
  obtain ⟨-, -, -, hv, -⟩ := h.regular.request (by decide) _ _ _ _ _ _ _ hr
    (.inl ⟨("INVITE".toList.map chr, METHOD_INVITE), by decide, by decide⟩) (by decide)
  exact absurd hv (by decide)

end Grammar

end OpenSips.FirstLine
