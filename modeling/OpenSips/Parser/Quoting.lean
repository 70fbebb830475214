import OpenSips.Lib.Scanner
import OpenSips.Str

/-!
# OpenSips.Parser.Quoting — what counts as quoted (`parser_f.h`, `contact/contact.c`, `parse_nameaddr.c`)

A backslash in a quoted string escapes the next character, whatever it is.  `find_not_quoted` and
`skip_name` look at the character before a quote instead, and `skip_uri` keeps an escape until one of
`"`, `<`, `>` and the backslash ends it.
-/

namespace OpenSips.Quoting

open Lib List

def QUOTE : UInt8 := chr '"'

def BACKSLASH : UInt8 := chr '\\'

section Source

variable (s : Str)

/-- A character of the loop of `find_not_quoted`; the position of `c` ends it. -/
def find_step (c : UInt8) (quoted : Bool) (i : ℕ) (ch : UInt8) : Except ℕ Bool :=
  if quoted then
    if ch = QUOTE ∧ s[i - 1]? ≠ some BACKSLASH then .ok false else .ok true
  else if ch = QUOTE then .ok true
  else if ch = c then .error i
  else .ok false

def find_not_quoted (c : UInt8) : Option ℕ :=
  match scan (find_step s c) false 0 s with
  | .error i => some i
  | .ok _ => none

/-- The variables of `skip_name`. -/
structure NameState where
  quoted : Bool
  last_wsp : Option ℕ

/-- A character of `skip_name`; what ends it are the new start and length of the text. -/
def name_step (v : NameState) (i : ℕ) (ch : UInt8) : Except (ℕ × ℕ) NameState :=
  if v.quoted then
    if ch = QUOTE ∧ s[i - 1]? ≠ some BACKSLASH then .ok { v with quoted := false } else .ok v
  else if ch = chr ' ' ∨ ch = chr '\t' then .ok { v with last_wsp := some i }
  else if ch = chr '<' then .error (i, s.length - i)
  else if ch = chr ':' then
    -- `_s->s` is set before it is subtracted
    .error (match v.last_wsp with
      | some w => (w, s.length - 1)
      | none => (0, s.length))
  else if ch = QUOTE then .ok { v with quoted := true }
  else .ok v

def skip_name : Option (ℕ × ℕ) :=
  match scan (name_step s) ⟨false, none⟩ 0 s with
  | .error r => some r
  | .ok _ => none

/-- Basic, quoted, angle quoted, angle quoted and quoted, and an escape in either quoted state. -/
inductive UriState where
  | ST1 | ST2 | ST3 | ST4 | ST5 | ST6
  deriving DecidableEq

/-- A character of `skip_uri`; it ends at a position with a result. -/
def uri_step (st : UriState) (i : ℕ) (ch : UInt8) : Except (ℕ × ℤ) UriState :=
  if ch = chr ',' ∨ ch = chr ';' then
    if st = .ST1 then .error (i, 0) else .ok st
  else if ch = QUOTE then
    .ok (match st with
      | .ST1 => .ST2
      | .ST2 => .ST1
      | .ST3 => .ST4
      | .ST4 => .ST3
      | .ST5 => .ST2
      | .ST6 => .ST4)
  else if ch = chr '<' then
    match st with
    | .ST1 => .ok .ST3
    | .ST3 => .error (i, -1)
    | .ST5 => .ok .ST2
    | .ST6 => .ok .ST4
    | st => .ok st
  else if ch = chr '>' then
    match st with
    | .ST1 => .error (i, -2)
    | .ST3 => .ok .ST1
    | .ST5 => .ok .ST2
    | .ST6 => .ok .ST4
    | st => .ok st
  else if ch = BACKSLASH then
    .ok (match st with
      | .ST2 => .ST5
      | .ST4 => .ST6
      | .ST5 => .ST2
      | .ST6 => .ST4
      | st => st)
  else .ok st

def skip_uri : ℕ × ℤ :=
  match scan uri_step .ST1 0 s with
  | .error r => r
  | .ok st => (s.length, if st = .ST1 then 0 else -3)

/-- A `name_addr_t`; the texts are given by start and length. -/
structure NameAddr where
  name : ℕ × ℕ
  uri : ℕ × ℕ
  len : ℕ

def parse_nameaddr : Except ℤ NameAddr :=
  match find_not_quoted s (chr '<') with
  | none => .error (-3)
  | some k =>
    match find_not_quoted (s.drop (k + 1)) (chr '>') with
    | none => .error (-4)
    | some j => .ok { name := (0, k), uri := (k + 1, j), len := k + 1 + j + 1 }

end Source

section Grammar

/-- Where a reader of quoted strings is. -/
inductive Place where
  | outside | inside | escape
  deriving DecidableEq

def Place.read : Place → UInt8 → Place
  | .outside, c => if c = QUOTE then .inside else .outside
  | .inside, c => if c = QUOTE then .outside else if c = BACKSLASH then .escape else .inside
  | .escape, _ => .inside

/-- Where the reader is in front of position `i`. -/
def place (s : Str) (i : ℕ) : Place := (s.take i).foldl Place.read .outside

def Quoted (s : Str) (i : ℕ) : Prop := place s i ≠ .outside

instance (s : Str) (i : ℕ) : Decidable (Quoted s i) := inferInstanceAs (Decidable (_ ≠ _))

def Place.bracket (p : Place) (angle : Bool) (c : UInt8) : Bool :=
  if p ≠ .outside then angle else if c = chr '<' then true else if c = chr '>' then false else angle

/-- Whether position `i` is between angle brackets. -/
def angle (s : Str) : ℕ → Bool
  | 0 => false
  | i + 1 => match s[i]? with
    | some c => (place s i).bracket (angle s i) c
    | none => angle s i

/-- A URI, with its brackets, does not go on at position `i`. -/
def Stops (s : Str) (i : ℕ) : Prop :=
  ¬ Quoted s i ∧ ∃ c, s[i]? = some c ∧
    if angle s i then c = chr '<' else c = chr ',' ∨ c = chr ';' ∨ c = chr '>'

/-- The URI goes on up to position `i`. -/
def Within (s : Str) (i : ℕ) : Prop := ∀ j < i, ¬ Stops s j

/-- The backslashes in front of position `i` since the last quote or bracket. -/
def backslashes (s : Str) (i : ℕ) : ℕ :=
  ((s.take i).reverse.takeWhile fun c => !(c == QUOTE || c == chr '<' || c == chr '>')).count BACKSLASH

/-- A quote in a quoted string ends the string exactly when `p` holds. -/
def Ends (s : Str) (i : ℕ) (p : Prop) : Prop :=
  s[i]? = some QUOTE → Quoted s i → (place s i = .inside ↔ p)

/-- `c` is at position `i` and not quoted, and was not before. -/
def First (s : Str) (c : UInt8) (i : ℕ) : Prop :=
  s[i]? = some c ∧ ¬ Quoted s i ∧ ∀ j < i, s[j]? = some c → Quoted s j

end Grammar

variable {s : Str} {c ch : UInt8} {i n k : ℕ}

section Places

theorem take_succ_of (h : s[i]? = some ch) : s.take (i + 1) = s.take i ++ [ch] := by
  rw [take_add_one, h, Option.toList_some]

theorem place_zero : place s 0 = .outside := by
  rw [place, take_zero, foldl_nil]

theorem place_succ (h : s[i]? = some ch) : place s (i + 1) = (place s i).read ch := by
  rw [place, take_succ_of h, foldl_append]
  rfl

theorem not_quoted_zero : ¬ Quoted s 0 := fun h => h place_zero

theorem backslash_of_escape (hi : i ≤ s.length) (h : place s i = .escape) :
    s[i - 1]? = some BACKSLASH := by
  cases i with
  | zero =>
    rw [place_zero] at h
    exact absurd h (by decide)
  | succ i =>
    have hget := getElem?_eq_getElem hi
    rw [place_succ hget] at h
    rw [Nat.add_sub_cancel, hget]
    cases hp : place s i with
    | outside =>
      rw [hp, Place.read] at h
      split_ifs at h
    | inside =>
      rw [hp, Place.read] at h
      split_ifs at h with h1 h2
      rw [h2]
    | escape =>
      rw [hp, Place.read] at h
      exact absurd h (by decide)

theorem backslashes_succ (h : s[i]? = some ch) : backslashes s (i + 1) =
    if ch = QUOTE ∨ ch = chr '<' ∨ ch = chr '>' then 0
    else backslashes s i + if ch = BACKSLASH then 1 else 0 := by
  rw [backslashes, take_succ_of h, reverse_append, reverse_singleton, singleton_append, takeWhile_cons]
  by_cases hc : ch = QUOTE ∨ ch = chr '<' ∨ ch = chr '>'
  · rw [if_pos hc, if_neg]
    · rfl
    · rcases hc with rfl | rfl | rfl <;> decide
  · rw [if_neg hc, if_pos, count_cons, backslashes]
    · congr 1
      by_cases hb : ch = BACKSLASH
      · rw [if_pos hb, if_pos (beq_iff_eq.2 hb)]
      · rw [if_neg hb, if_neg (fun h => hb (beq_iff_eq.1 h))]
    · simpa [and_assoc] using hc

end Places

section Lookback

def looked (s : Str) : ℕ → Bool
  | 0 => false
  | i + 1 => match s[i]? with
    | some ch => if looked s i then !decide (ch = QUOTE ∧ s[i - 1]? ≠ some BACKSLASH) else ch == QUOTE
    | none => looked s i

theorem looked_succ (h : s[i]? = some ch) : looked s (i + 1) =
    if looked s i then !decide (ch = QUOTE ∧ s[i - 1]? ≠ some BACKSLASH) else ch == QUOTE := by
  rw [looked, h]

/-- **The flag is right** up to a position if each quote in a quoted string ends it exactly when it does
not stand behind a backslash, and only then. -/
theorem looked_iff (hn : n ≤ s.length) : (∀ i ≤ n, looked s i = true ↔ Quoted s i) ↔
      ∀ i < n, Ends s i (s[i - 1]? ≠ some BACKSLASH) := by
  constructor
  · intro h i hi hq hquoted
    have hl := (h i (Nat.le_of_lt hi)).2 hquoted
    have hs := h (i + 1) hi
    rw [looked_succ hq, if_pos hl, Quoted, place_succ hq] at hs
    cases hp : place s i with
    | outside => exact absurd hp hquoted
    | inside =>
      rw [hp] at hs
      simpa [Place.read] using hs
    | escape =>
      rw [hp] at hs
      simpa [Place.read] using hs
  · intro h i
    induction i with
    | zero => exact fun _ => iff_of_false Bool.false_ne_true not_quoted_zero
    | succ i ih =>
      intro hi
      have ih := ih (Nat.le_of_lt hi)
      have hget := getElem?_eq_getElem (Nat.lt_of_lt_of_le hi hn)
      obtain ⟨ch, hch⟩ : ∃ ch, s[i]? = some ch := ⟨_, hget⟩
      rw [looked_succ hch, Quoted, place_succ hch]
      by_cases hq : Quoted s i
      · rw [if_pos (ih.2 hq)]
        have hends := h i hi
        cases hp : place s i with
        | outside => exact absurd hp hq
        | inside =>
          rw [Place.read]
          by_cases hc : ch = QUOTE
          · have := (hends (hc ▸ hch) hq).1 hp
            simp [hc, this]
          · simp only [hc, false_and, decide_false, Bool.not_false, if_false, true_iff]
            split_ifs <;> decide
        | escape =>
          have hb := backslash_of_escape (Nat.le_of_lt (Nat.lt_of_lt_of_le hi hn)) hp
          simp [Place.read, hb]
      · rw [if_neg fun hl => hq (ih.1 hl)]
        have hp : place s i = .outside := not_not.1 hq
        rw [hp, Place.read]
        by_cases hc : ch = QUOTE
        · simp [hc]
        · simp [hc]

theorem find_step_ok {q : Bool} (hch : s[i]? = some ch) (h : find_step s c (looked s i) i ch = .ok q) :
    q = looked s (i + 1) := by
  rw [looked_succ hch]
  unfold find_step at h
  split_ifs at h ⊢ with h1 h2 h3 h4
  · rw [decide_eq_true h2]
    exact (Except.ok.inj h).symm
  · rw [decide_eq_false h2]
    exact (Except.ok.inj h).symm
  · rw [h3]
    exact (Except.ok.inj h).symm
  · rw [beq_false_of_ne h3]
    exact (Except.ok.inj h).symm

/-- `find_not_quoted` has the flag. -/
theorem find_flag {q : Bool} (hn : n ≤ s.length) (h : scan (find_step s c) false 0 (s.take n) = .ok q) :
    q = looked s n := by
  refine scan_take (I := fun i q => q = looked s i) (fun i q ch q' hch hq hstep => ?_) hn rfl h
  subst hq
  exact find_step_ok hch hstep

theorem find_reads (hn : n ≤ s.length) :
    scan (find_step s QUOTE) false 0 (s.take n) = .ok (looked s n) := by
  obtain ⟨q, hq, -⟩ : ∃ q, scan (find_step s QUOTE) false 0 (s.take n) = .ok q ∧ True := by
    refine scan_progress (fun q i ch _ _ => ?_) trivial
    unfold find_step
    split_ifs <;> exact ⟨_, rfl, trivial⟩
  rw [hq, find_flag hn hq]

/-- It does not read past `c` without the flag. -/
theorem find_past {q : Bool} (hc : c ≠ QUOTE) (hn : n ≤ s.length)
    (h : scan (find_step s c) false 0 (s.take n) = .ok q) : ∀ j < n, s[j]? = some c → looked s j = true := by
  refine (scan_take (I := fun i q => q = looked s i ∧ ∀ j < i, s[j]? = some c → looked s j = true)
    (fun i q ch q' hch hI hstep => ?_) hn ⟨rfl, fun j hj => absurd hj (Nat.not_lt_zero j)⟩ h).2
  obtain ⟨rfl, hI⟩ := hI
  refine ⟨find_step_ok hch hstep, fun j hj hjc => ?_⟩
  rcases Nat.lt_succ_iff_lt_or_eq.1 hj with hj | rfl
  · exact hI j hj hjc
  · obtain rfl := Option.some.inj (hch.symm.trans hjc)
    by_contra hl
    rw [find_step, if_neg hl, if_neg hc, if_pos rfl] at hstep
    exact absurd hstep (by simp)

theorem find_not_quoted_iff (hc : c ≠ QUOTE) : find_not_quoted s c = some k ↔
    s[k]? = some c ∧ looked s k = false ∧ ∀ j < k, s[j]? = some c → looked s j = true := by
  have hstop : ∀ k, find_not_quoted s c = some k →
      s[k]? = some c ∧ looked s k = false ∧ ∀ j < k, s[j]? = some c → looked s j = true := by
    intro k h
    unfold find_not_quoted at h
    cases hs : scan (find_step s c) false 0 s with
    | ok q =>
      rw [hs] at h
      exact absurd h (by simp)
    | error e =>
      rw [hs] at h
      obtain rfl := Option.some.inj h
      obtain ⟨i, ch, q, hch, hq, hstep⟩ := scan_error_iff.1 hs
      have hi := Nat.le_of_lt (List.getElem?_eq_some_iff.1 hch).1
      have hflag := find_flag hi hq
      rw [Nat.zero_add] at hstep
      unfold find_step at hstep
      split_ifs at hstep with h1 h2 h3 h4
      obtain rfl := Except.error.inj hstep
      exact ⟨h4 ▸ hch, hflag ▸ Bool.eq_false_iff.2 h1, find_past hc hi hq⟩
  refine ⟨hstop k, fun ⟨hk, hl, hbefore⟩ => ?_⟩
  cases hf : find_not_quoted s c with
  | some e =>
    obtain ⟨he, hle, hbe⟩ := hstop e hf
    rcases Nat.lt_trichotomy e k with h | h | h
    · exact absurd (hbefore e h he) (by simp [hle])
    · rw [h]
    · exact absurd (hbe k h hk) (by simp [hl])
  | none =>
    unfold find_not_quoted at hf
    cases hs : scan (find_step s c) false 0 s with
    | error e =>
      rw [hs] at hf
      exact absurd hf (by simp)
    | ok q =>
      rw [← take_length (l := s)] at hs
      have hlt := (List.getElem?_eq_some_iff.1 hk).1
      have hpast := find_past hc (Nat.le_refl _) (by rwa [take_length] at hs ⊢) k hlt hk
      exact absurd hpast (by simp [hl])

theorem name_step_ok {v v' : NameState} (hch : s[i]? = some ch) (hv : v.quoted = looked s i)
    (h : name_step s v i ch = .ok v') : v'.quoted = looked s (i + 1) := by
  rw [looked_succ hch, ← hv]
  unfold name_step at h
  split_ifs at h ⊢ with h1 h2 h3 h4 h5 h6
  · rw [decide_eq_true h2, ← Except.ok.inj h]
    rfl
  · rw [decide_eq_false h2, ← Except.ok.inj h, h1]
    rfl
  · rw [← Except.ok.inj h, Bool.eq_false_iff.2 h1]
    rcases h3 with rfl | rfl <;> rfl
  · rw [h6, ← Except.ok.inj h]
    rfl
  · rw [beq_false_of_ne h6, ← Except.ok.inj h]
    exact Bool.eq_false_iff.2 h1

/-- `skip_name` has the flag. -/
theorem name_flag {v : NameState} (hn : n ≤ s.length)
    (h : scan (name_step s) ⟨false, none⟩ 0 (s.take n) = .ok v) : v.quoted = looked s n :=
  scan_take (I := fun i v => v.quoted = looked s i) (fun _ _ _ _ hch hv hstep => name_step_ok hch hv hstep)
    hn rfl h

end Lookback

section Uris

def UriState.quoted : UriState → Bool
  | .ST2 | .ST4 | .ST5 | .ST6 => true
  | _ => false

/-- The state `skip_uri` should be in. -/
def state_of (p : Place) (angle odd : Bool) : UriState :=
  if p = .outside then if angle then .ST3 else .ST1
  else if angle then if odd then .ST6 else .ST4
  else if odd then .ST5 else .ST2

def odd (s : Str) (i : ℕ) : Bool := backslashes s i % 2 == 1

def expected (s : Str) (i : ℕ) : UriState := state_of (place s i) (angle s i) (odd s i)

def flip (b : Bool) (ch : UInt8) : Bool :=
  if ch = QUOTE ∨ ch = chr '<' ∨ ch = chr '>' then false else b ^^ (ch == BACKSLASH)

theorem odd_succ (h : s[i]? = some ch) : odd s (i + 1) = flip (odd s i) ch := by
  rw [odd, backslashes_succ h, flip]
  split_ifs with h1 h2
  · rfl
  · rw [h2, odd]
    rcases Nat.mod_two_eq_zero_or_one (backslashes s i) with h | h
    · rw [Nat.add_mod, h]
      rfl
    · rw [Nat.add_mod, h]
      rfl
  · rw [add_zero, beq_false_of_ne h2, Bool.xor_false]
    rfl

theorem angle_succ (h : s[i]? = some ch) : angle s (i + 1) = (place s i).bracket (angle s i) ch := by
  rw [angle, h]

def halts (p : Place) (angle : Bool) (ch : UInt8) : Bool :=
  p == .outside && if angle then ch == chr '<' else ch == chr ',' || ch == chr ';' || ch == chr '>'

theorem stops_iff (h : s[i]? = some ch) : Stops s i ↔ halts (place s i) (angle s i) ch = true := by
  rw [halts, Bool.and_eq_true, beq_iff_eq]
  constructor
  · rintro ⟨hq, c, hc, hcase⟩
    obtain rfl := Option.some.inj (h.symm.trans hc)
    refine ⟨not_not.1 hq, ?_⟩
    split_ifs at hcase ⊢
    · exact beq_iff_eq.2 hcase
    · simpa [or_assoc] using hcase
  · rintro ⟨hp, hcase⟩
    refine ⟨not_not.2 hp, ch, h, ?_⟩
    split_ifs at hcase ⊢
    · exact beq_iff_eq.1 hcase
    · simpa [or_assoc] using hcase

theorem char_cases (ch : UInt8) : (ch = chr ',' ∨ ch = chr ';') ∨ ch = QUOTE ∨ ch = chr '<' ∨ ch = chr '>' ∨
    ch = BACKSLASH ∨ ch ≠ chr ',' ∧ ch ≠ chr ';' ∧ ch ≠ QUOTE ∧ ch ≠ chr '<' ∧ ch ≠ chr '>' ∧
      ch ≠ BACKSLASH := by
  tauto

/-- **A character of `skip_uri`**, where a quote ends the string exactly after an even number of
backslashes. -/
theorem uri_step_of {p : Place} {a b : Bool} (hends : ch = QUOTE → p ≠ .outside → (p = .inside ↔ b = false)) :
    (halts p a ch = true → ∃ e, uri_step (state_of p a b) i ch = .error e) ∧
      (halts p a ch = false → uri_step (state_of p a b) i ch =
        .ok (state_of (p.read ch) (p.bracket a ch) (flip b ch))) := by
  rcases char_cases ch with (rfl | rfl) | rfl | rfl | rfl | rfl | ⟨h1, h2, h3, h4, h5, h6⟩
  case inr.inr.inr.inr.inr =>
    -- any other character
    have hst : ∀ st, uri_step st i ch = .ok st := fun st => by
      unfold uri_step
      rw [if_neg (not_or.2 ⟨h1, h2⟩), if_neg h3, if_neg h4, if_neg h5, if_neg h6]
    have hhalts : halts p a ch = false := by
      simp [halts, h1, h2, h4, h5]
    have hflip : flip b ch = b := by
      simp [flip, h3, h4, h5, beq_false_of_ne h6]
    have hbracket : p.bracket a ch = a := by
      simp [Place.bracket, h4, h5]
    refine ⟨fun h => absurd (hhalts.symm.trans h) Bool.false_ne_true, fun _ => ?_⟩
    rw [hst, hflip, hbracket]
    cases p with
    | outside => simp [Place.read, h3]
    | inside => simp [Place.read, h3, h6, state_of]
    | escape => rfl
  case inr.inl =>
    -- a quote
    refine ⟨fun h => absurd h (by cases p <;> cases a <;> decide), fun _ => ?_⟩
    cases p with
    | outside => cases a <;> cases b <;> rfl
    | inside =>
      obtain rfl := (hends rfl (by decide)).1 rfl
      cases a <;> rfl
    | escape =>
      cases b with
      | false => exact absurd ((hends rfl (by decide)).2 rfl) (by decide)
      | true => cases a <;> rfl
  all_goals
    constructor
    · intro h
      cases p <;> cases a <;> first | exact ⟨_, rfl⟩ | exact absurd h (by decide)
    · intro h
      cases p <;> cases a <;> cases b <;> first | rfl | exact absurd h (by decide)

theorem within_succ : Within s (n + 1) ↔ Within s n ∧ ¬ Stops s n := by
  constructor
  · exact fun h => ⟨fun j hj => h j (Nat.lt_succ_of_lt hj), h n (Nat.lt_succ_self n)⟩
  · rintro ⟨h, hn⟩ j hj
    rcases Nat.lt_succ_iff_lt_or_eq.1 hj with hj | rfl
    · exact h j hj
    · exact hn

/-- **The state of `skip_uri`** as far as the URI goes. -/
theorem uri_track (hn : n ≤ s.length) (hends : ∀ i < n, Within s i → Ends s i (backslashes s i % 2 = 0)) :
    (Within s n → scan uri_step .ST1 0 (s.take n) = .ok (expected s n)) ∧
      (¬ Within s n → ∃ e, scan uri_step .ST1 0 (s.take n) = .error e) := by
  induction n with
  | zero =>
    refine ⟨fun _ => ?_, fun h => absurd (fun j hj => absurd hj (Nat.not_lt_zero j)) h⟩
    rw [expected, place_zero]
    rfl
  | succ n ih =>
    obtain ⟨hok, herr⟩ := ih (Nat.le_of_lt hn) fun i hi => hends i (Nat.lt_succ_of_lt hi)
    obtain ⟨ch, hch⟩ : ∃ ch, s[n]? = some ch := ⟨_, getElem?_eq_getElem hn⟩
    rw [scan_take_succ hch, within_succ]
    by_cases hw : Within s n
    · have hquote : ch = QUOTE → place s n ≠ .outside → (place s n = .inside ↔ odd s n = false) := by
        intro hc hp
        rw [hends n (Nat.lt_succ_self n) hw (hc ▸ hch) hp, odd, beq_eq_false_iff_ne]
        omega
      obtain ⟨hhalt, hgo⟩ := uri_step_of (i := n) (a := angle s n) hquote
      rw [hok hw, stops_iff hch]
      constructor
      · rintro ⟨-, hh⟩
        have hnext : expected s (n + 1) = state_of ((place s n).read ch) ((place s n).bracket (angle s n) ch)
            (flip (odd s n) ch) := by
          rw [expected, place_succ hch, angle_succ hch, odd_succ hch]
        rw [hnext]
        exact hgo (Bool.eq_false_iff.2 hh)
      · intro hh
        exact hhalt (by simpa [hw] using hh)
    · obtain ⟨e, he⟩ := herr hw
      rw [he]
      exact ⟨fun h => absurd h.1 hw, fun _ => ⟨e, rfl⟩⟩

theorem quoted_state_of (p : Place) (a b : Bool) : (state_of p a b).quoted = true ↔ p ≠ .outside := by
  cases p <;> cases a <;> cases b <;> decide

/-- A quote in a quoted string leaves `skip_uri` in it after an odd number of backslashes. -/
theorem uri_step_quote {p : Place} (hp : p ≠ .outside) (a b : Bool) (i : ℕ) :
    ∃ st, uri_step (state_of p a b) i QUOTE = .ok st ∧ st.quoted = b := by
  cases p with
  | outside => exact absurd rfl hp
  | inside => cases a <;> cases b <;> exact ⟨_, rfl, rfl⟩
  | escape => cases a <;> cases b <;> exact ⟨_, rfl, rfl⟩

/-- **`skip_uri` is right** as far as the URI goes if each quote in a quoted string ends it exactly after
an even number of backslashes, and only then. -/
theorem uri_flag_iff :
    (∀ i st, i < s.length → scan uri_step .ST1 0 (s.take i) = .ok st → (st.quoted = true ↔ Quoted s i)) ↔
      ∀ i, i + 1 < s.length → Within s i → Ends s i (backslashes s i % 2 = 0) := by
  constructor
  · intro h i
    induction i using Nat.strongRecOn with
    | ind i ih =>
      intro hi hw hch hq
      obtain ⟨hok, -⟩ := uri_track (n := i) (by omega) fun j hj => ih j hj (by omega)
      obtain ⟨st, hst, hflag⟩ := uri_step_quote hq (angle s i) (odd s i) i
      have hnext : scan uri_step .ST1 0 (s.take (i + 1)) = .ok st := by
        rw [scan_take_succ hch, hok hw]
        exact hst
      have hagree := h (i + 1) st hi hnext
      rw [hflag, Quoted, place_succ hch, odd, beq_iff_eq] at hagree
      cases hp : place s i with
      | outside => exact absurd hp hq
      | inside =>
        rw [hp] at hagree
        have heven : ¬ backslashes s i % 2 = 1 := fun h => hagree.1 h rfl
        exact iff_of_true rfl (by omega)
      | escape =>
        rw [hp] at hagree
        have hodd := hagree.2 (by decide)
        exact iff_of_false (by decide) (by omega)
  · intro h i st hi hst
    obtain ⟨hok, herr⟩ := uri_track (n := i) (Nat.le_of_lt hi) fun j hj => h j (by omega)
    by_cases hw : Within s i
    · rw [hok hw] at hst
      rw [← Except.ok.inj hst]
      exact quoted_state_of _ _ _
    · obtain ⟨e, he⟩ := herr hw
      rw [he] at hst
      exact absurd hst (by simp)

end Uris

section Names

theorem name_past {v : NameState} (hn : n ≤ s.length)
    (h : scan (name_step s) ⟨false, none⟩ 0 (s.take n) = .ok v) :
    (∀ j < n, s[j]? = some (chr '<') → looked s j = true) ∧
      ∀ w, v.last_wsp = some w → s[w]? ≠ some (chr '<') := by
  refine (scan_take (I := fun i v => v.quoted = looked s i ∧
    (∀ j < i, s[j]? = some (chr '<') → looked s j = true) ∧
      ∀ w, v.last_wsp = some w → s[w]? ≠ some (chr '<')) (fun i v ch v' hch hI hstep => ?_) hn
    ⟨rfl, fun j hj => absurd hj (Nat.not_lt_zero j), fun w hw => absurd hw (by simp)⟩ h).2
  obtain ⟨hq, hpast, hwsp⟩ := hI
  refine ⟨name_step_ok hch hq hstep, fun j hj hjc => ?_, ?_⟩
  · rcases Nat.lt_succ_iff_lt_or_eq.1 hj with hj | rfl
    · exact hpast j hj hjc
    · obtain rfl := Option.some.inj (hch.symm.trans hjc)
      by_contra hl
      rw [name_step, hq, if_neg hl, if_neg (by decide), if_pos rfl] at hstep
      exact absurd hstep (by simp)
  · unfold name_step at hstep
    split_ifs at hstep with h1 h2 h3 h4 h5 h6
    · rw [← Except.ok.inj hstep]
      exact hwsp
    · rw [← Except.ok.inj hstep]
      exact hwsp
    · rw [← Except.ok.inj hstep]
      intro w hw
      obtain rfl := Option.some.inj hw
      rw [hch]
      rcases h3 with rfl | rfl <;> decide
    · rw [← Except.ok.inj hstep]
      exact hwsp
    · rw [← Except.ok.inj hstep]
      exact hwsp

/-- What `skip_name` stops at, if that is a bracket. -/
theorem skip_name_spec {r : ℕ × ℕ} (h : skip_name s = some r) (hr : s[r.1]? = some (chr '<')) :
    looked s r.1 = false ∧ ∀ j < r.1, s[j]? = some (chr '<') → looked s j = true := by
  unfold skip_name at h
  cases hs : scan (name_step s) ⟨false, none⟩ 0 s with
  | ok v =>
    rw [hs] at h
    exact absurd h (by simp)
  | error e =>
    rw [hs] at h
    obtain rfl := Option.some.inj h
    obtain ⟨i, ch, v, hch, hv, hstep⟩ := scan_error_iff.1 hs
    have hi := Nat.le_of_lt (List.getElem?_eq_some_iff.1 hch).1
    have hflag := name_flag hi hv
    obtain ⟨hpast, hwsp⟩ := name_past hi hv
    rw [Nat.zero_add] at hstep
    unfold name_step at hstep
    split_ifs at hstep with h1 h2 h3 h4 h5 h6
    · rw [← Except.error.inj hstep]
      exact ⟨hflag ▸ Bool.eq_false_iff.2 h1, hpast⟩
    · exfalso
      rw [← Except.error.inj hstep] at hr
      cases hw : v.last_wsp with
      | some w =>
        rw [hw] at hr
        exact hwsp w hw hr
      | none =>
        rw [hw] at hr
        rcases Nat.eq_zero_or_pos i with rfl | hpos
        · exact h4 (Option.some.inj (hch.symm.trans hr))
        · exact absurd (hpast 0 hpos hr) (by simp [looked])

end Names

/-- A quote that ends a quoted string does not stand behind a backslash, and in what `skip_uri` reads
each quote in a quoted string ends it exactly after an even number of backslashes since the last quote
or bracket. -/
structure Clear (s : Str) : Prop where
  lookback : ∀ i, i + 1 < s.length → Ends s i (s[i - 1]? ≠ some BACKSLASH)
  even : ∀ i, i + 1 < s.length → Within s i → Ends s i (backslashes s i % 2 = 0)

/-- What the loops take for quoted is quoted, at each position they read. -/
structure Agrees (s : Str) : Prop where
  find_not_quoted : ∀ c i q, i < s.length → scan (find_step s c) false 0 (s.take i) = .ok q →
    (q = true ↔ Quoted s i)
  skip_name : ∀ i v, i < s.length → scan (name_step s) ⟨false, none⟩ 0 (s.take i) = .ok v →
    (v.quoted = true ↔ Quoted s i)
  skip_uri : ∀ i st, i < s.length → scan uri_step .ST1 0 (s.take i) = .ok st →
    (st.quoted = true ↔ Quoted s i)
  parse_nameaddr : ∀ k i q, Quoting.find_not_quoted s (chr '<') = some k → k + 1 + i < s.length →
    scan (find_step (s.drop (k + 1)) (chr '>')) false 0 ((s.drop (k + 1)).take i) = .ok q →
    (q = true ↔ Quoted s (k + 1 + i))

structure Finds (s : Str) : Prop where
  find_not_quoted : ∀ c ≠ QUOTE, ∀ i, Quoting.find_not_quoted s c = some i ↔ First s c i
  skip_name : ∀ r, Quoting.skip_name s = some r → s[r.1]? = some (chr '<') → First s (chr '<') r.1
  skip_uri : ∀ i < s.length, Quoting.skip_uri s = (i, 0) ↔ Within s i ∧ ¬ Quoted s i ∧ angle s i = false ∧
    (s[i]? = some (chr ',') ∨ s[i]? = some (chr ';'))
  parse_nameaddr : ∀ a, Quoting.parse_nameaddr s = .ok a → First s (chr '<') a.name.2 ∧
    a.uri.1 = a.name.2 + 1 ∧ a.len = a.uri.1 + a.uri.2 + 1 ∧ s[a.uri.1 + a.uri.2]? = some (chr '>') ∧
      ¬ Quoted s (a.uri.1 + a.uri.2) ∧ ∀ j < a.uri.2, s[a.uri.1 + j]? = some (chr '>') → Quoted s (a.uri.1 + j)

section Agreement

theorem lookback_iff : (∀ i < s.length, looked s i = true ↔ Quoted s i) ↔
    ∀ i, i + 1 < s.length → Ends s i (s[i - 1]? ≠ some BACKSLASH) := by
  cases hs : s.length with
  | zero =>
    exact iff_of_true (fun i hi => absurd hi (Nat.not_lt_zero i)) fun i hi => absurd hi (Nat.not_lt_zero _)
  | succ n =>
    have hiff := looked_iff (s := s) (n := n) (by omega)
    constructor
    · intro h i hi
      exact hiff.1 (fun i hi => h i (Nat.lt_succ_of_le hi)) i (Nat.lt_of_succ_lt_succ hi)
    · intro h i hi
      exact hiff.2 (fun i hi => h i (Nat.succ_lt_succ hi)) i (Nat.le_of_lt_succ hi)

theorem place_drop (h : place s k = .outside) : place (s.drop k) i = place s (k + i) := by
  rw [place, place, take_add, foldl_append]
  exact congrArg (fun p => ((s.drop k).take i).foldl Place.read p) h.symm

theorem lookback_drop (hk : place s k = .outside)
    (h : ∀ i, i + 1 < s.length → Ends s i (s[i - 1]? ≠ some BACKSLASH)) :
    ∀ i, i + 1 < (s.drop k).length → Ends (s.drop k) i ((s.drop k)[i - 1]? ≠ some BACKSLASH) := by
  intro i hi hch hq
  rw [length_drop] at hi
  rw [getElem?_drop] at hch
  rw [Quoted, place_drop hk] at hq
  rw [place_drop hk, getElem?_drop]
  cases i with
  | zero => exact absurd hk hq
  | succ i => exact h (k + (i + 1)) (by omega) hch hq

theorem outside_behind (h : s[k]? = some (chr '<')) (hq : ¬ Quoted s k) : place s (k + 1) = .outside := by
  rw [place_succ h, not_not.1 hq]
  rfl

theorem agrees_iff : Agrees s ↔ Clear s := by
  constructor
  · intro h
    refine ⟨lookback_iff.1 fun i hi => ?_, uri_flag_iff.1 h.skip_uri⟩
    exact h.find_not_quoted QUOTE i _ hi (find_reads (Nat.le_of_lt hi))
  · intro h
    have hlook := lookback_iff.2 h.lookback
    refine ⟨fun c i q hi hq => ?_, fun i v hi hv => ?_, uri_flag_iff.2 h.even, fun k i q hk hi hq => ?_⟩
    · rw [find_flag (Nat.le_of_lt hi) hq]
      exact hlook i hi
    · rw [name_flag (Nat.le_of_lt hi) hv]
      exact hlook i hi
    · obtain ⟨hch, hl, -⟩ := (find_not_quoted_iff (by decide)).1 hk
      have hkq : ¬ Quoted s k := fun hq => by
        have hlt := (List.getElem?_eq_some_iff.1 hch).1
        rw [(hlook k hlt).2 hq] at hl
        exact absurd hl (by decide)
      have hout := outside_behind hch hkq
      have hi' : i < (s.drop (k + 1)).length := by
        rw [length_drop]
        omega
      rw [find_flag (Nat.le_of_lt hi') hq, Quoted, ← place_drop hout]
      exact lookback_iff.2 (lookback_drop hout h.lookback) i hi'

theorem find_iff_first (h : ∀ i < s.length, looked s i = true ↔ Quoted s i) (hc : c ≠ QUOTE) :
    find_not_quoted s c = some k ↔ First s c k := by
  have hlt : ∀ j, s[j]? = some c → j < s.length := fun j hj => (List.getElem?_eq_some_iff.1 hj).1
  rw [find_not_quoted_iff hc, First]
  refine and_congr_right fun hk => and_congr ?_ (forall_congr' fun j => forall_congr' fun hj =>
    forall_congr' fun hjc => h j (hlt j hjc))
  rw [← h k (hlt k hk), Bool.not_eq_true]

theorem state_of_basic {p : Place} {a b : Bool} : state_of p a b = .ST1 ↔ p = .outside ∧ a = false := by
  cases p <;> cases a <;> cases b <;> decide

theorem skip_uri_iff (h : ∀ i, i + 1 < s.length → Within s i → Ends s i (backslashes s i % 2 = 0))
    (hi : i < s.length) : skip_uri s = (i, 0) ↔ Within s i ∧ ¬ Quoted s i ∧ angle s i = false ∧
      (s[i]? = some (chr ',') ∨ s[i]? = some (chr ';')) := by
  have htrack : ∀ j, j < s.length → (Within s j → scan uri_step .ST1 0 (s.take j) = .ok (expected s j)) ∧
      (¬ Within s j → ∃ e, scan uri_step .ST1 0 (s.take j) = .error e) := fun j hj =>
    uri_track (Nat.le_of_lt hj) fun i hi => h i (by omega)
  constructor
  · intro heq
    unfold skip_uri at heq
    cases hs : scan uri_step .ST1 0 s with
    | ok st =>
      rw [hs] at heq
      exact absurd (congrArg Prod.fst heq) (Nat.ne_of_gt hi)
    | error r =>
      rw [hs] at heq
      obtain rfl : r = (i, 0) := heq
      obtain ⟨j, ch, st, hch, hst, hstep⟩ := scan_error_iff.1 hs
      obtain ⟨hok, herr⟩ := htrack j (List.getElem?_eq_some_iff.1 hch).1
      by_cases hw : Within s j
      · rw [hok hw] at hst
        obtain rfl := Except.ok.inj hst
        rw [Nat.zero_add] at hstep
        have hbasic : (ch = chr ',' ∨ ch = chr ';') ∧ expected s j = .ST1 ∧ j = i := by
          unfold uri_step at hstep
          split_ifs at hstep with h1 h2 h3 h4 h5
          · exact ⟨h1, h2, congrArg Prod.fst (Except.error.inj hstep)⟩
          · cases hx : expected s j <;> simp [hx] at hstep
          · cases hx : expected s j <;> simp [hx] at hstep
        obtain ⟨hc, hx, rfl⟩ := hbasic
        obtain ⟨hp, ha⟩ := state_of_basic.1 hx
        refine ⟨hw, not_not.2 hp, ha, ?_⟩
        rw [hch]
        exact hc.imp (congrArg some) (congrArg some)
      · obtain ⟨e, he⟩ := herr hw
        rw [he] at hst
        exact absurd hst (by simp)
  · rintro ⟨hw, hq, ha, hch⟩
    have hx : expected s i = .ST1 := state_of_basic.2 ⟨not_not.1 hq, ha⟩
    have hok := (htrack i hi).1 hw
    have herr : scan uri_step .ST1 0 s = .error (i, 0) := by
      rcases hch with hch | hch
      · exact scan_error_iff.2 ⟨i, _, _, hch, hok, by rw [hx, Nat.zero_add]; rfl⟩
      · exact scan_error_iff.2 ⟨i, _, _, hch, hok, by rw [hx, Nat.zero_add]; rfl⟩
    rw [skip_uri, herr]

theorem Clear.finds (h : Clear s) : Finds s := by
  have hlook := lookback_iff.2 h.lookback
  refine ⟨fun c hc i => find_iff_first hlook hc, fun r hr hch => ?_, fun i hi => skip_uri_iff h.even hi,
    fun a ha => ?_⟩
  · obtain ⟨hl, hpast⟩ := skip_name_spec hr hch
    have hlt : ∀ j, s[j]? = some (chr '<') → j < s.length := fun j hj => (List.getElem?_eq_some_iff.1 hj).1
    refine ⟨hch, fun hq => ?_, fun j hj hjc => (hlook j (hlt j hjc)).1 (hpast j hj hjc)⟩
    rw [(hlook _ (hlt _ hch)).2 hq] at hl
    exact absurd hl (by decide)
  · unfold parse_nameaddr at ha
    cases hf : find_not_quoted s (chr '<') with
    | none =>
      rw [hf] at ha
      exact absurd ha (by simp)
    | some k =>
      have hfirst := (find_iff_first hlook (by decide)).1 hf
      have hout := outside_behind hfirst.1 hfirst.2.1
      rw [hf] at ha
      dsimp only at ha
      cases hg : find_not_quoted (s.drop (k + 1)) (chr '>') with
      | none =>
        rw [hg] at ha
        exact absurd ha (by simp)
      | some j =>
        rw [hg] at ha
        obtain rfl := Except.ok.inj ha
        have hlook' := lookback_iff.2 (lookback_drop hout h.lookback)
        obtain ⟨hj, hjq, hbefore⟩ := (find_iff_first hlook' (by decide)).1 hg
        rw [Quoted, place_drop hout] at hjq
        refine ⟨hfirst, rfl, rfl, ?_, hjq, fun i hi hch => ?_⟩
        · rw [← getElem?_drop]
          exact hj
        · have hq := hbefore i hi (by rw [getElem?_drop]; exact hch)
          rwa [Quoted, place_drop hout] at hq

/-- **The loops agree on what is quoted**, and with the grammar, exactly on clear texts, and there they
find the same characters. -/
theorem quoting_agrees (s : Str) : (Agrees s ↔ Clear s) ∧ (Clear s → Finds s) :=
  ⟨agrees_iff, Clear.finds⟩

/-- A name that ends with an escaped backslash, and one with an escaped letter. -/
def escaped_backslash : Str := [QUOTE, chr 'a', BACKSLASH, BACKSLASH, QUOTE, chr ' ', chr '<', chr 'b', chr '>']

def escaped_letter : Str := [QUOTE, BACKSLASH, chr 'a', QUOTE, chr ',', chr 'b']

/-- `find_not_quoted` and `skip_name` miss a bracket, `skip_uri` a comma. -/
theorem quoting_differs : (¬ Agrees escaped_backslash ∧ First escaped_backslash (chr '<') 6 ∧
      find_not_quoted escaped_backslash (chr '<') = none ∧ skip_name escaped_backslash = none) ∧
    ¬ Agrees escaped_letter ∧ First escaped_letter (chr ',') 4 ∧
      find_not_quoted escaped_letter (chr ',') = some 4 ∧ skip_uri escaped_letter = (6, -3) := by
  refine ⟨⟨fun h => ?_, by unfold First; decide, by decide, by decide⟩, fun h => ?_, by unfold First; decide,
    by decide, by decide⟩
  · have hquoted := h.find_not_quoted QUOTE 5 _ (by decide) (find_reads (by decide))
    exact absurd (hquoted.1 (by decide)) (by decide)
  · have hquoted := h.skip_uri 4 .ST2 (by decide) rfl
    exact absurd (hquoted.1 rfl) (by decide)

end Agreement

end OpenSips.Quoting
