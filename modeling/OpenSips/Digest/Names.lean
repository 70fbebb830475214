import OpenSips.Parser.Classify

/-!
# OpenSips.Digest.Names — the name of a digest parameter (`digest/param_parser.c`)

Names are compared four bytes at a time, at places counted from the start of the name.  Two of the macros end
without a `goto other`: what begins with `real` or `nonc` is compared with the rest of other names, further on.
-/

namespace OpenSips.Digest

open List Option

open Hname (LOWER_BYTE LOWER_DWORD _user_ bytes memory q_memchr room val)
open FirstLine (forall_char isLetter tolower)
open ParseParam (Blanks EQUAL Named blank)

-- the names of the source
set_option linter.style.nameCheck false

section Source

def _name_ := 0x656d616e
def _real_ := 0x6c616572
def _nonc_ := 0x636e6f6e
def _resp_ := 0x70736572
def _onse_ := 0x65736e6f
def _cnon_ := 0x6e6f6e63
def _opaq_ := 0x7161706f
def _algo_ := 0x6f676c61
def _rith_ := 0x68746972

/-- `dig_par_t` -/
inductive DigPar where
  | PAR_USERNAME | PAR_REALM | PAR_NONCE | PAR_URI | PAR_RESPONSE | PAR_CNONCE | PAR_OPAQUE | PAR_QOP | PAR_NC
  | PAR_ALGORITHM | PAR_OTHER
  deriving DecidableEq

/-- The label that is gone to, `end` with the type that was set. -/
inductive Goto where
  | found (type : DigPar)
  | other
  deriving DecidableEq

-- the memory that the text is in
variable (mem : ℕ → UInt8)

def PARSE_SHORT (p : ℕ) : Goto × ℕ :=
  if LOWER_BYTE (mem p) = chr 'u' then
    if LOWER_BYTE (mem (p + 1)) = chr 'r' ∧ LOWER_BYTE (mem (p + 2)) = chr 'i' then (.found .PAR_URI, p + 3)
    else (.other, p)
  else if LOWER_BYTE (mem p) = chr 'q' then
    if LOWER_BYTE (mem (p + 1)) = chr 'o' ∧ LOWER_BYTE (mem (p + 2)) = chr 'p' then (.found .PAR_QOP, p + 3)
    else (.other, p)
  else if LOWER_BYTE (mem p) = chr 'n' then
    if LOWER_BYTE (mem (p + 1)) = chr 'c' then (.found .PAR_NC, p + 2) else (.other, p)
  else (.other, p)

def user_CASE (p : ℕ) : Goto × ℕ :=
  if LOWER_DWORD (val mem (p + 4)) = _name_ then (.found .PAR_USERNAME, p + 4 + 4) else (.other, p + 4)

def resp_CASE (p : ℕ) : Goto × ℕ :=
  if LOWER_DWORD (val mem (p + 4)) = _onse_ then (.found .PAR_RESPONSE, p + 4 + 4) else (.other, p + 4)

/-- Without a `goto other`: the next case follows. -/
def nonc_CASE (p : ℕ) : Goto × ℕ :=
  if LOWER_BYTE (mem (p + 4)) = chr 'e' then (.found .PAR_NONCE, p + 4 + 1) else resp_CASE mem (p + 4)

/-- Nor does this one have it. -/
def real_CASE (p : ℕ) : Goto × ℕ :=
  if LOWER_BYTE (mem (p + 4)) = chr 'm' then (.found .PAR_REALM, p + 4 + 1) else nonc_CASE mem (p + 4)

def cnon_CASE (p : ℕ) : Goto × ℕ :=
  if LOWER_BYTE (mem (p + 4)) = chr 'c' then
    if LOWER_BYTE (mem (p + 5)) = chr 'e' then (.found .PAR_CNONCE, p + 6) else (.other, p + 5)
  else (.other, p + 4)

def opaq_CASE (p : ℕ) : Goto × ℕ :=
  if LOWER_BYTE (mem (p + 4)) = chr 'u' then
    if LOWER_BYTE (mem (p + 5)) = chr 'e' then (.found .PAR_OPAQUE, p + 6) else (.other, p + 5)
  else (.other, p + 4)

def algo_CASE (p : ℕ) : Goto × ℕ :=
  if LOWER_DWORD (val mem (p + 4)) = _rith_ then
    if LOWER_BYTE (mem (p + 8)) = chr 'm' then (.found .PAR_ALGORITHM, p + 9) else (.other, p + 8)
  else (.other, p + 4)

/-- The switch on `LOWER_DWORD(val)`. -/
def FIRST_QUATERNIONS (p : ℕ) : Goto × ℕ :=
  if LOWER_DWORD (val mem p) = _user_ then user_CASE mem p
  else if LOWER_DWORD (val mem p) = _real_ then real_CASE mem p
  else if LOWER_DWORD (val mem p) = _nonc_ then nonc_CASE mem p
  else if LOWER_DWORD (val mem p) = _resp_ then resp_CASE mem p
  else if LOWER_DWORD (val mem p) = _cnon_ then cnon_CASE mem p
  else if LOWER_DWORD (val mem p) = _opaq_ then opaq_CASE mem p
  else if LOWER_DWORD (val mem p) = _algo_ then algo_CASE mem p
  else PARSE_SHORT mem p

/-- `trim_leading`, with `len` left. -/
def trim_leading : ℕ → ℕ → ℕ
  | p, 0 => p
  | p, len + 1 => if blank (mem p) then trim_leading (p + 1) len else p

/-- The label `other`; the text ends at `size`. -/
def other (size p : ℕ) : Option (DigPar × ℕ) :=
  (q_memchr mem EQUAL p (room size p)).map fun p => (.PAR_OTHER, p)

def settle (size : ℕ) : Goto × ℕ → Option (DigPar × ℕ)
  | (.found type, p) =>
    if mem (trim_leading mem p (size - p)) = EQUAL then some (type, trim_leading mem p (size - p))
    else other mem size p
  | (.other, p) => other mem size p

/-- `parse_param_name`, for the text from `p` to `size`: the type, and where it stops. -/
def parse_param_name (size p : ℕ) : Option (DigPar × ℕ) :=
  settle mem size (if size - p < 4 then (.other, p) else FIRST_QUATERNIONS mem p)

end Source

section Grammar

def par_names : List (String × DigPar) :=
  [("username", .PAR_USERNAME), ("realm", .PAR_REALM), ("nonce", .PAR_NONCE), ("uri", .PAR_URI),
    ("response", .PAR_RESPONSE), ("cnonce", .PAR_CNONCE), ("opaque", .PAR_OPAQUE), ("qop", .PAR_QOP), ("nc", .PAR_NC),
    ("algorithm", .PAR_ALGORITHM)]

def par_type (name : Str) : DigPar :=
  ((par_names.find? fun n => decide (Named name n.1)).map Prod.snd).getD .PAR_OTHER

/-- The text from `p` on: a name, white space and a `=`. -/
structure ParamText (mem : ℕ → UInt8) (size p : ℕ) (name ws rest : Str) : Prop where
  text : ∀ j a, (name ++ (ws ++ EQUAL :: rest))[j]? = some a → mem (p + j) = a
  ends : size = p + (name ++ (ws ++ EQUAL :: rest)).length
  bound : size < 2 ^ 31
  free : EQUAL ∉ name
  white : Blanks ws
  last : ∀ c ∈ name.getLast?, blank c = false

/-- The name begins with `x`, from place `i` on. -/
def Has (name : Str) (i : ℕ) (x : String) : Prop := Named ((name.drop i).take x.length) x

instance (name : Str) (i : ℕ) (x : String) : Decidable (Has name i x) := inferInstanceAs (Decidable (Named _ _))

/-- Names that are not compared with the wrong part of another one: `name` is followed by `ws`, a `=` and `rest`. -/
structure Safe (name ws rest : Str) : Prop where
  nc : (name ++ (ws ++ EQUAL :: rest)).length < 4 → ¬ Named name "nc"
  real : Has name 0 "real" → ¬ Has name 0 "realm" →
    if Has name 8 "e" then name.length ≠ 9 else if Has name 12 "onse" then name.length ≠ 16
      else 12 ≤ (name ++ ws).length
  nonc : Has name 0 "nonc" → ¬ Has name 0 "nonce" →
    if Has name 8 "onse" then name.length ≠ 12 else 8 ≤ (name ++ ws).length

end Grammar

section Reads

open Hname (Starts)

variable {mem : ℕ → UInt8} {size p i j k f q : ℕ} {name ws rest l : Str} {x : String} {t t' : DigPar}

theorem stop_not_letter (c : UInt8) : blank c = true ∨ c = EQUAL → isLetter (LOWER_BYTE c) = false :=
  forall_char (p := fun c => blank c = true ∨ c = EQUAL → isLetter (LOWER_BYTE c) = false) (by decide) c

section

variable (h : ParamText mem size p name ws rest)
include h

theorem ParamText.at {a : UInt8} (ha : name[j]? = some a) : mem (p + j) = a := by
  refine h.text j a ?_
  rw [getElem?_append_left (List.getElem?_eq_some_iff.1 ha).1, ha]

theorem ParamText.equal : mem (p + (name ++ ws).length) = EQUAL := by
  refine h.text _ _ ?_
  rw [← append_assoc, getElem?_append_right (le_rfl), Nat.sub_self]
  rfl

theorem ParamText.white_at (hj : name.length ≤ j)
    (hf : j < (name ++ ws).length) : blank (mem (p + j)) = true := by
  rw [length_append] at hf
  have hget : j - name.length < ws.length := by omega
  have hm : mem (p + j) = ws[j - name.length] := by
    refine h.text j _ ?_
    rw [getElem?_append_right hj, getElem?_append_left hget, getElem?_eq_getElem hget]
  rw [hm]
  exact h.white _ (getElem_mem hget)

theorem ParamText.behind : blank (mem (p + name.length)) = true ∨ mem (p + name.length) = EQUAL := by
  cases hw : ws with
  | nil =>
    have := h.equal
    rw [hw, append_nil] at this
    exact .inr this
  | cons c w =>
    refine .inl (h.white_at (le_rfl) ?_)
    rw [length_append, hw, length_cons]
    omega

theorem ParamText.before (hj : j < (name ++ ws).length) : mem (p + j) ≠ EQUAL := by
  intro he
  rcases lt_or_ge j name.length with hn | hn
  · have := h.at (getElem?_eq_getElem hn)
    exact h.free (he ▸ this ▸ getElem_mem hn)
  · have := h.white_at hn hj
    rw [he] at this
    cases this

theorem ParamText.starts : ∀ {l : Str} {j : ℕ}, (∀ a ∈ l, isLetter a = true) → j ≤ name.length →
    (Starts (fun i => mem (p + j + i)) l ↔ ((name.drop j).take l.length).map tolower = l) := by
  intro l
  induction l with
  | nil => exact fun _ _ => iff_of_true (fun i a ha => by cases ha) rfl
  | cons a l ih =>
    intro j hl hj
    obtain ⟨ha, hl⟩ := forall_mem_cons.1 hl
    rw [← singleton_append, Hname.starts_append, Hname.starts_one, add_zero]
    rcases Nat.lt_or_eq_of_le hj with hlt | rfl
    · have hm := h.at (getElem?_eq_getElem hlt)
      have hshift : Starts (fun i => mem (p + j + ([a].length + i))) l ↔ Starts (fun i => mem (p + (j + 1) + i)) l := by
        simp only [length_singleton, add_assoc]
      rw [hshift, ih hl hlt, drop_eq_getElem_cons hlt, singleton_append, length_cons,
        take_succ_cons, map_cons, cons.injEq, hm, Hname.lower_iff ha]
    · rw [drop_length, take_nil, map_nil]
      refine iff_of_false (fun hs => ?_) (by simp only [singleton_append, reduceCtorEq, not_false_eq_true])
      have := stop_not_letter _ h.behind
      rw [hs.1, ha] at this
      cases this

end

theorem trim_ge (mem : ℕ → UInt8) : ∀ k q, q ≤ trim_leading mem q k
  | 0, q => Nat.le_refl q
  | k + 1, q => by
    rw [trim_leading]
    split_ifs
    · exact le_trans (Nat.le_succ q) (trim_ge mem k (q + 1))
    · exact Nat.le_refl q

theorem trim_le (hf : blank (mem f) = false) : ∀ k q, q ≤ f → trim_leading mem q k ≤ f
  | 0, q, h => h
  | k + 1, q, h => by
    rw [trim_leading]
    split_ifs with hq
    · have hne : q ≠ f := fun heq => by
        rw [heq, hf] at hq
        cases hq
      exact trim_le hf k (q + 1) (by omega)
    · exact h

theorem trim_to (hf : blank (mem f) = false) : ∀ k q, (∀ j, q ≤ j → j < f → blank (mem j) = true) → q ≤ f →
    f ≤ q + k → trim_leading mem q k = f
  | 0, q, _, h, h' => le_antisymm h h'
  | k + 1, q, hall, h, h' => by
    rw [trim_leading]
    split_ifs with hq
    · have hne : q ≠ f := fun heq => by
        rw [heq, hf] at hq
        cases hq
      exact trim_to hf k (q + 1) (fun j hj hjf => hall j (by omega) hjf) (by omega) (by omega)
    · by_contra hne
      exact hq (hall q (Nat.le_refl q) (by omega))

theorem equal_not_blank : blank EQUAL = false := by decide

theorem ParamText.ends_eq (h : ParamText mem size p name ws rest) :
    size = p + ((name ++ ws).length + (rest.length + 1)) := by
  rw [h.ends]
  simp only [length_append, length_cons, add_assoc]

/-- The label `other`, up to the `=` and behind it. -/
theorem ParamText.other_eq (h : ParamText mem size p name ws rest) (hq : q ≤ (name ++ ws).length) :
    other mem size (p + q) = some (.PAR_OTHER, p + (name ++ ws).length) := by
  have hsize := h.ends_eq
  have hbound := h.bound
  rw [other, Hname.room_eq (by omega) (by omega), Hname.q_memchr_first h.equal (Nat.add_le_add_left hq p) (by omega)]
  · rfl
  · intro j hj hlt
    obtain ⟨i, rfl⟩ := Nat.exists_eq_add_of_le (show p ≤ j by omega)
    exact h.before (by omega)

theorem ParamText.other_ne (hq : (name ++ ws).length < q) :
    other mem size (p + q) ≠ some (t, p + (name ++ ws).length) := by
  intro ho
  rw [other] at ho
  obtain ⟨g, hg, heq⟩ := map_eq_some_iff.1 ho
  have hspec := Hname.q_memchr_spec mem EQUAL (p + q) (room size (p + q))
  rw [hg] at hspec
  have := (Prod.mk.inj heq).2
  omega

/-- The label `end`, in the name, at its end and behind the `=`. -/
theorem ParamText.found_eq (h : ParamText mem size p name ws rest) (hq : q ≤ name.length) :
    settle mem size (.found t, p + q) =
      some (if q = name.length then t else .PAR_OTHER, p + (name ++ ws).length) := by
  have hsize := h.ends_eq
  have hlen : (name ++ ws).length = name.length + ws.length := length_append
  rw [settle]
  rcases Nat.lt_or_eq_of_le hq with hlt | rfl
  · have hlast : blank (mem (p + (name.length - 1))) = false := by
      rw [h.at (getElem?_eq_getElem (by omega))]
      exact h.last _ (by rw [getLast?_eq_getElem?, getElem?_eq_getElem (by omega)]; rfl)
    have h1 := trim_ge mem (size - (p + q)) (p + q)
    have h2 := trim_le hlast (size - (p + q)) (p + q) (by omega)
    obtain ⟨r, hr⟩ : ∃ r, trim_leading mem (p + q) (size - (p + q)) = p + r := Nat.exists_eq_add_of_le (by omega)
    rw [hr, if_neg (h.before (by omega)), if_neg (ne_of_lt hlt), h.other_eq (by omega)]
  · have htrim : trim_leading mem (p + name.length) (size - (p + name.length)) = p + (name ++ ws).length := by
      refine trim_to (by rw [h.equal]; exact equal_not_blank) _ _ (fun j hj hjf => ?_) (by omega) (by omega)
      obtain ⟨i, rfl⟩ := Nat.exists_eq_add_of_le (show p ≤ j by omega)
      exact h.white_at (by omega) (by omega)
    rw [htrim, if_pos h.equal, if_pos rfl]

theorem ParamText.found_ne (hq : (name ++ ws).length < q) :
    settle mem size (.found t, p + q) ≠ some (t', p + (name ++ ws).length) := by
  rw [settle]
  split_ifs with he
  · intro h
    have := trim_ge mem (size - (p + q)) (p + q)
    have := (Prod.mk.inj (some.inj h)).2
    omega
  · exact ParamText.other_ne hq

end Reads

section Names

open Hname (Starts)

variable {mem : ℕ → UInt8} {size p i j k q : ℕ} {name ws rest : Str} {w x y : String} {t : DigPar} {ch : Char}

theorem letter_same (c : UInt8) : isLetter c = true → tolower c = c :=
  forall_char (p := fun c => isLetter c = true → tolower c = c) (by decide) c

section

variable (hx : (bytes x).all isLetter = true)
include hx

theorem lower_bytes : (bytes x).map tolower = bytes x := by
  conv_rhs => rw [← List.map_id (bytes x)]
  exact map_congr_left fun a ha => letter_same a (List.all_eq_true.1 hx a ha)

theorem has_iff : Has name j x ↔ ((name.drop j).take (bytes x).length).map tolower = bytes x := by
  rw [Has, show x.length = (bytes x).length by rw [bytes, length_map, String.length_toList]]
  exact Eq.congr_right (lower_bytes hx)

theorem has_le (h : Has name j x) (hne : 0 < (bytes x).length) : j + (bytes x).length ≤ name.length := by
  have hlen := congrArg List.length ((has_iff hx).1 h)
  rw [length_map, length_take, length_drop] at hlen
  omega

end

section

variable (h : ParamText mem size p name ws rest)
include h

/-- A comparison at a place up to the `=`. -/
theorem ParamText.has (hx : (bytes x).all isLetter = true)
    (hne : 0 < (bytes x).length) (hj : j ≤ (name ++ ws).length) :
    Starts (fun i => mem (p + j + i)) (bytes x) ↔ Has name j x := by
  rcases lt_or_ge name.length j with hlt | hle
  · refine iff_of_false (fun hs => ?_) fun hh => ?_
    · obtain ⟨a, l, hal⟩ := exists_cons_of_ne_nil (ne_nil_of_length_pos hne)
      have hm : LOWER_BYTE (mem (p + j)) = a := hs 0 a (by rw [hal]; rfl)
      have hstop : blank (mem (p + j)) = true ∨ mem (p + j) = EQUAL := by
        rcases Nat.lt_or_eq_of_le hj with hf | rfl
        · exact .inl (h.white_at (le_of_lt hlt) hf)
        · exact .inr h.equal
      have hno := stop_not_letter _ hstop
      rw [hm, List.all_eq_true.1 hx a (by rw [hal]; exact mem_cons_self)] at hno
      cases hno
    · have := has_le hx hh hne
      omega
  · rw [h.starts (List.all_eq_true.1 hx) hle, has_iff hx]

theorem ParamText.key {key : ℕ} (hx : (bytes x).all isLetter = true)
    (hne : 0 < (bytes x).length) (hj : j ≤ (name ++ ws).length) (hplain : Hname.plain (.key key) = true)
    (hkey : Hname.atoms (.key key) = (bytes x).zipIdx.map Prod.swap) :
    LOWER_DWORD (val mem (p + j)) = key ↔ Has name j x := by
  rw [Hname.key_starts hplain hkey, h.has hx hne hj]

theorem ParamText.byte (hx : bytes x = [chr ch])
    (hch : isLetter (chr ch) = true) (hj : j ≤ (name ++ ws).length) :
    LOWER_BYTE (mem (p + j)) = chr ch ↔ Has name j x := by
  rw [← h.has (by rw [hx, all_cons, hch]; rfl) (by rw [hx]; exact one_pos) hj, hx, Hname.starts_one, add_zero]

end

theorem has_append (hw : bytes w = bytes x ++ bytes y) (hall : (bytes w).all isLetter = true) :
    Has name j w ↔ Has name j x ∧ Has name (j + (bytes x).length) y := by
  have hparts := hall
  rw [hw, all_append, Bool.and_eq_true] at hparts
  rw [has_iff hall, has_iff hparts.1, has_iff hparts.2, hw, length_append, take_add, map_append, drop_drop]
  constructor
  · intro h
    refine append_inj h ?_
    have hlen := congrArg List.length h
    rw [length_append, length_append, length_map, length_map, length_take, length_take] at hlen
    rw [length_map, length_take]
    omega
  · rintro ⟨h1, h2⟩
    rw [h1, h2]

theorem named_iff (hall : (bytes w).all isLetter = true) :
    Named name w ↔ Has name 0 w ∧ name.length = (bytes w).length := by
  rw [has_iff hall, drop_zero]
  have hn : Named name w ↔ name.map tolower = bytes w := Eq.congr_right (lower_bytes hall)
  rw [hn]
  constructor
  · intro h
    have hlen := congrArg List.length h
    rw [length_map] at hlen
    exact ⟨by rw [← hlen, take_length, h], hlen⟩
  · rintro ⟨h, hlen⟩
    rwa [← hlen, take_length] at h

theorem name_letters : ∀ v ∈ par_names, (bytes v.1).all isLetter = true := by decide

theorem names_apart : ∀ v ∈ par_names, ∀ v' ∈ par_names, bytes v.1 <+: bytes v'.1 → v = v' := by decide

theorem par_type_of (hw : (w, t) ∈ par_names) (hn : Named name w) : par_type name = t := by
  rw [par_type]
  have hlow : ∀ v ∈ par_names, Named name v.1 ↔ bytes v.1 = bytes w := fun v hv => by
    have hv' : Named name v.1 ↔ name.map tolower = bytes v.1 := Eq.congr_right (lower_bytes (name_letters v hv))
    have hw' : name.map tolower = bytes w := Eq.trans hn (lower_bytes (name_letters _ hw))
    rw [hv', hw', eq_comm]
  cases hf : par_names.find? fun n => decide (Named name n.1) with
  | none => exact absurd (decide_eq_true hn) (find?_eq_none.1 hf _ hw)
  | some v =>
    have hv := mem_of_find?_eq_some hf
    have hnamed : decide (Named name v.1) = true := find?_some (p := fun n : String × DigPar => decide (Named name n.1)) hf
    have heq := (hlow v hv).1 (of_decide_eq_true hnamed)
    rw [names_apart v hv _ hw (heq ▸ prefix_rfl)]
    rfl

theorem par_type_other (hno : ∀ v ∈ par_names, ¬ Named name v.1) : par_type name = .PAR_OTHER := by
  rw [par_type, find?_eq_none.2 fun v hv h => hno v hv (of_decide_eq_true h)]
  rfl

theorem par_type_has (hw : (w, t) ∈ par_names) (hh : Has name 0 w) :
    par_type name = if (bytes w).length = name.length then t else .PAR_OTHER := by
  have hall := name_letters _ hw
  by_cases hlen : (bytes w).length = name.length
  · rw [if_pos hlen, par_type_of hw ((named_iff hall).2 ⟨hh, hlen.symm⟩)]
  · rw [if_neg hlen]
    refine par_type_other fun v hv hn => ?_
    obtain ⟨hv0, hvl⟩ := (named_iff (name_letters v hv)).1 hn
    rw [has_iff (name_letters v hv), drop_zero, ← hvl, take_length] at hv0
    rw [has_iff hall, drop_zero, map_take, hv0] at hh
    have heq := names_apart _ hw v hv (hh ▸ take_prefix _ _)
    rw [← heq] at hvl
    exact hlen hvl.symm

/-- **A word of the table**, whose first letters are those of no other one. -/
theorem ParamText.word (h : ParamText mem size p name ws rest) {g : Goto × ℕ} (hw : (w, t) ∈ par_names)
    (hx : Has name 0 x) (hlow : (bytes x).all isLetter = true)
    (honly : ∀ v ∈ par_names, (bytes v.1).take (bytes x).length = bytes x → v = (w, t))
    (hyes : Has name 0 w → g = (.found t, p + (bytes w).length))
    (hno : ¬ Has name 0 w → ∃ q ≤ (name ++ ws).length, g = (.other, p + q)) :
    settle mem size g = some (par_type name, p + (name ++ ws).length) := by
  have hall := name_letters _ hw
  by_cases hh : Has name 0 w
  · have hpos : 0 < (bytes w).length := (by decide : ∀ v ∈ par_names, 0 < (bytes v.1).length) _ hw
    have hle : 0 + (bytes w).length ≤ name.length := has_le hall hh hpos
    rw [hyes hh, h.found_eq (by omega), par_type_has hw hh]
  · obtain ⟨q, hq, rfl⟩ := hno hh
    rw [settle, h.other_eq hq, par_type_other fun v hv hn => ?_]
    obtain ⟨hv0, hvl⟩ := (named_iff (name_letters v hv)).1 hn
    have hv0' := hv0
    rw [has_iff (name_letters v hv), drop_zero, ← hvl, take_length] at hv0
    rw [has_iff hlow, drop_zero, map_take, hv0] at hx
    have hv1 : v.1 = w := congrArg Prod.fst (honly v hv hx)
    exact hh (hv1 ▸ hv0')

end Names

section Switch

variable {mem : ℕ → UInt8} {size p k : ℕ} {name ws rest : Str}

theorem ParamText.resp_far (h : ParamText mem size p name ws rest) :
    settle mem size (resp_CASE mem (p + k)) = some (.PAR_OTHER, p + (name ++ ws).length) ↔
      if Has name (k + 4) "onse" then name.length ≠ k + 8 else k + 4 ≤ (name ++ ws).length := by
  have hlen : (name ++ ws).length = name.length + ws.length := length_append
  have honse : Has name (k + 4) "onse" → k + 4 + 4 ≤ name.length := fun hh => has_le (by decide) hh (by decide)
  rw [resp_CASE, add_assoc p k 4, add_assoc p (k + 4) 4]
  by_cases hf : k + 4 ≤ (name ++ ws).length
  · have hkey : LOWER_DWORD (val mem (p + (k + 4))) = _onse_ ↔ Has name (k + 4) "onse" :=
      h.key (by decide) (by decide) hf (by decide) (by decide)
    by_cases hh : Has name (k + 4) "onse"
    · rw [if_pos (hkey.2 hh), if_pos hh, h.found_eq (honse hh)]
      have := honse hh
      by_cases heq : k + 4 + 4 = name.length
      · rw [if_pos heq]
        exact iff_of_false (by simp only [some.injEq, Prod.mk.injEq, reduceCtorEq, false_and,
          not_false_eq_true]) (fun hne => hne (by omega))
      · rw [if_neg heq]
        exact iff_of_true rfl (by omega)
    · rw [if_neg fun hk => hh (hkey.1 hk), if_neg hh, settle, h.other_eq hf]
      exact iff_of_true rfl hf
  · have hno : ¬ Has name (k + 4) "onse" := fun hh => hf (by have := honse hh; omega)
    rw [if_neg hno]
    refine iff_of_false ?_ hf
    split_ifs
    · exact ParamText.found_ne (by omega)
    · exact ParamText.other_ne (by omega)

/-- So does what begins with `real` and is not `realm`. -/
theorem ParamText.nonc_far (h : ParamText mem size p name ws rest) :
    settle mem size (nonc_CASE mem (p + 4)) = some (.PAR_OTHER, p + (name ++ ws).length) ↔
      if Has name 8 "e" then name.length ≠ 9 else if Has name 12 "onse" then name.length ≠ 16
        else 12 ≤ (name ++ ws).length := by
  have hlen : (name ++ ws).length = name.length + ws.length := length_append
  have he : Has name 8 "e" → 8 + 1 ≤ name.length := fun hh => has_le (by decide) hh (by decide)
  have honse : Has name 12 "onse" → 12 + 4 ≤ name.length := fun hh => has_le (by decide) hh (by decide)
  rw [nonc_CASE, add_assoc p 4 4, add_assoc p 8 1]
  by_cases hf : 8 ≤ (name ++ ws).length
  · have hbyte : LOWER_BYTE (mem (p + 8)) = chr 'e' ↔ Has name 8 "e" := h.byte (by decide) (by decide) hf
    by_cases hh : Has name 8 "e"
    · rw [if_pos (hbyte.2 hh), if_pos hh, h.found_eq (he hh)]
      have := he hh
      by_cases heq : 8 + 1 = name.length
      · rw [if_pos heq]
        exact iff_of_false (by simp only [some.injEq, Prod.mk.injEq, reduceCtorEq, false_and,
          not_false_eq_true]) (fun hne => hne (by omega))
      · rw [if_neg heq]
        exact iff_of_true rfl (by omega)
    · rw [if_neg fun hk => hh (hbyte.1 hk), if_neg hh]
      exact h.resp_far (k := 8)
  · have hno : ¬ Has name 8 "e" := fun hh => hf (by have := he hh; omega)
    have hno' : ¬ Has name 12 "onse" := fun hh => hf (by have := honse hh; omega)
    rw [if_neg hno, if_neg hno']
    refine iff_of_false ?_ (by omega)
    split_ifs
    · exact ParamText.found_ne (by omega)
    · rw [h.resp_far (k := 8), if_neg hno']
      omega

theorem has_prefix {x w : String} (hw : (bytes w).all isLetter = true) (hxw : bytes x <+: bytes w)
    (h : Has name 0 w) : Has name 0 x := by
  have hx : (bytes x).all isLetter = true := List.all_eq_true.2 fun a ha => List.all_eq_true.1 hw a (hxw.subset ha)
  rw [has_iff hw, drop_zero, map_take] at h
  rw [has_iff hx, drop_zero, map_take]
  calc (name.map tolower).take (bytes x).length
      = ((name.map tolower).take (bytes w).length).take (bytes x).length := by
        rw [take_take, Nat.min_eq_left hxw.length_le]
    _ = (bytes w).take (bytes x).length := by rw [h]
    _ = bytes x := (prefix_iff_eq_take.1 hxw).symm

theorem ParamText.two {T : Prop} [Decidable T] {w x y : String} {t : DigPar} {q : ℕ}
    (h : ParamText mem size p name ws rest) (hw : (w, t) ∈ par_names) (hwxy : bytes w = bytes x ++ bytes y)
    (honly : ∀ v ∈ par_names, (bytes v.1).take (bytes x).length = bytes x → v = (w, t))
    (hT : T ↔ Has name (bytes x).length y) (hx : Has name 0 x) (hq : q ≤ (bytes x).length) :
    settle mem size (if T then (.found t, p + (bytes w).length) else (.other, p + q)) =
      some (par_type name, p + (name ++ ws).length) := by
  have hall := name_letters _ hw
  have hsplit : Has name 0 w ↔ Has name 0 x ∧ Has name (bytes x).length y := by
    rw [has_append hwxy hall, zero_add]
  have hlow : (bytes x).all isLetter = true := by
    have := hall
    rw [hwxy, all_append, Bool.and_eq_true] at this
    exact this.1
  have hlen : (name ++ ws).length = name.length + ws.length := length_append
  have hle : q ≤ (name ++ ws).length := by
    rcases Nat.eq_zero_or_pos (bytes x).length with h0 | hpos
    · omega
    · have := has_le hlow hx hpos
      omega
  refine h.word hw hx hlow honly (fun hh => if_pos (hT.2 (hsplit.1 hh).2)) fun hh => ⟨q, hle, if_neg fun ht => ?_⟩
  exact hh (hsplit.2 ⟨hx, hT.1 ht⟩)

theorem ParamText.four (ws : Str) {x : String} (hx : Has name 0 x) (hlow : (bytes x).all isLetter = true)
    (h4 : (bytes x).length = 4) : 4 ≤ (name ++ ws).length := by
  have hle := has_le hlow hx (by omega)
  rw [length_append]
  omega

theorem ParamText.user (h : ParamText mem size p name ws rest) (hx : Has name 0 "user") :
    settle mem size (user_CASE mem p) = some (par_type name, p + (name ++ ws).length) :=
  h.two (w := "username") (x := "user") (y := "name") (q := 4) (by decide) (by decide) (by decide)
    (h.key (by decide) (by decide) (ParamText.four ws hx (by decide) (by decide)) (by decide) (by decide)) hx (by decide)

theorem ParamText.resp (h : ParamText mem size p name ws rest) (hx : Has name 0 "resp") :
    settle mem size (resp_CASE mem p) = some (par_type name, p + (name ++ ws).length) :=
  h.two (w := "response") (x := "resp") (y := "onse") (q := 4) (by decide) (by decide) (by decide)
    (h.key (by decide) (by decide) (ParamText.four ws hx (by decide) (by decide)) (by decide) (by decide)) hx (by decide)

theorem ParamText.three {T T' : Prop} [Decidable T] [Decidable T'] {w x y u z : String} {t : DigPar} {q q' : ℕ}
    (h : ParamText mem size p name ws rest) (hw : (w, t) ∈ par_names) (hwxy : bytes w = bytes u ++ bytes z)
    (hxy : bytes u = bytes x ++ bytes y)
    (honly : ∀ v ∈ par_names, (bytes v.1).take (bytes x).length = bytes x → v = (w, t))
    (hx : Has name 0 x) (hT : T ↔ Has name (bytes x).length y)
    (hT' : Has name (bytes x).length y → (T' ↔ Has name (bytes u).length z))
    (hq : q ≤ (name ++ ws).length) (hq' : q' ≤ (bytes u).length) :
    settle mem size (if T then if T' then (.found t, p + (bytes w).length) else (.other, p + q')
      else (.other, p + q)) = some (par_type name, p + (name ++ ws).length) := by
  have hall := name_letters _ hw
  have hall' : (bytes u).all isLetter = true := by
    have := hall
    rw [hwxy, all_append, Bool.and_eq_true] at this
    exact this.1
  have hlow : (bytes x).all isLetter = true := by
    have := hall'
    rw [hxy, all_append, Bool.and_eq_true] at this
    exact this.1
  have hsplit : Has name 0 u ↔ Has name 0 x ∧ Has name (bytes x).length y := by
    rw [has_append hxy hall', zero_add]
  by_cases hy : Has name (bytes x).length y
  · rw [if_pos (hT.2 hy)]
    refine h.two hw hwxy (fun v hv hvx => honly v hv ?_) (hT' hy) (hsplit.2 ⟨hx, hy⟩) hq'
    have htake := congrArg (List.take (bytes x).length) hvx
    rwa [take_take, hxy, take_left, Nat.min_eq_left (by rw [length_append]; omega)] at htake
  · rw [if_neg fun ht => hy (hT.1 ht)]
    refine h.word hw hx hlow honly (fun hh => absurd (hsplit.1 ( has_prefix hall ⟨_, hwxy.symm⟩ hh)).2 hy)
      fun _ => ⟨q, hq, rfl⟩

section

variable (h : ParamText mem size p name ws rest)
include h

theorem ParamText.cnon (hx : Has name 0 "cnon") :
    settle mem size (cnon_CASE mem p) = some (par_type name, p + (name ++ ws).length) := by
  have h4 := ParamText.four ws hx (by decide) (by decide)
  refine h.three (w := "cnonce") (x := "cnon") (y := "c") (u := "cnonc") (z := "e") (q := 4) (by decide) (by decide)
    (by decide) (by decide) hx (h.byte (by decide) (by decide) h4) (fun hc => ?_) h4 (by decide)
  have hle : 4 + 1 ≤ name.length := has_le (by decide) hc (by decide)
  exact h.byte (j := 5) (by decide) (by decide) (by rw [length_append]; omega)

theorem ParamText.opaq (hx : Has name 0 "opaq") :
    settle mem size (opaq_CASE mem p) = some (par_type name, p + (name ++ ws).length) := by
  have h4 := ParamText.four ws hx (by decide) (by decide)
  refine h.three (w := "opaque") (x := "opaq") (y := "u") (u := "opaqu") (z := "e") (q := 4) (by decide) (by decide)
    (by decide) (by decide) hx (h.byte (by decide) (by decide) h4) (fun hc => ?_) h4 (by decide)
  have hle : 4 + 1 ≤ name.length := has_le (by decide) hc (by decide)
  exact h.byte (j := 5) (by decide) (by decide) (by rw [length_append]; omega)

theorem ParamText.algo (hx : Has name 0 "algo") :
    settle mem size (algo_CASE mem p) = some (par_type name, p + (name ++ ws).length) := by
  have h4 := ParamText.four ws hx (by decide) (by decide)
  refine h.three (w := "algorithm") (x := "algo") (y := "rith") (u := "algorith") (z := "m") (q := 4) (by decide)
    (by decide) (by decide) (by decide) hx (h.key (by decide) (by decide) h4 (by decide) (by decide)) (fun hc => ?_) h4
    (by decide)
  have hle : 4 + 4 ≤ name.length := has_le (by decide) hc (by decide)
  exact h.byte (j := 8) (by decide) (by decide) (by rw [length_append]; omega)

end

def firsts : List String := ["user", "real", "nonc", "resp", "cnon", "opaq", "algo"]

theorem names_begin : ∀ v ∈ par_names, (∃ x ∈ firsts, bytes x <+: bytes v.1) ∨
    v.1 = "uri" ∨ v.1 = "qop" ∨ v.1 = "nc" := by decide

theorem has_unique {x y : String} (hx : (bytes x).all isLetter = true) (hy : (bytes y).all isLetter = true)
    (hlen : (bytes x).length = (bytes y).length) (h : Has name 0 x) (h' : Has name 0 y) : bytes x = bytes y := by
  rw [has_iff hx] at h
  rw [has_iff hy, ← hlen, h] at h'
  exact h'

theorem ParamText.short (h : ParamText mem size p name ws rest) (hno : ∀ x ∈ firsts, ¬ Has name 0 x) :
    settle mem size (PARSE_SHORT mem p) = some (par_type name, p + (name ++ ws).length) := by
  have hfirst : ∀ {x : String} {c : Char}, bytes x = [chr c] → isLetter (chr c) = true →
      (LOWER_BYTE (mem p) = chr c ↔ Has name 0 x) := fun hx hc => h.byte (j := 0) hx hc (Nat.zero_le _)
  have hlen : (name ++ ws).length = name.length + ws.length := length_append
  have hone : ∀ {x : String}, (bytes x).all isLetter = true → (bytes x).length = 1 → Has name 0 x →
      1 ≤ (name ++ ws).length := fun hx h1 hh => by
    have := has_le hx hh (by omega)
    omega
  have hri : Has name 0 "u" → (LOWER_BYTE (mem (p + 1)) = chr 'r' ∧ LOWER_BYTE (mem (p + 2)) = chr 'i' ↔
      Has name 1 "ri") := fun hh => by
    rw [← h.has (x := "ri") (by decide) (by decide) (hone (by decide) (by decide) hh),
      show bytes "ri" = [chr 'r'] ++ [chr 'i'] by decide, Hname.starts_append, Hname.starts_one, Hname.starts_one]
    rfl
  have hop : Has name 0 "q" → (LOWER_BYTE (mem (p + 1)) = chr 'o' ∧ LOWER_BYTE (mem (p + 2)) = chr 'p' ↔
      Has name 1 "op") := fun hh => by
    rw [← h.has (x := "op") (by decide) (by decide) (hone (by decide) (by decide) hh),
      show bytes "op" = [chr 'o'] ++ [chr 'p'] by decide, Hname.starts_append, Hname.starts_one, Hname.starts_one]
    rfl
  have hc : Has name 0 "n" → (LOWER_BYTE (mem (p + 1)) = chr 'c' ↔ Has name 1 "c") := fun hh =>
    h.byte (by decide) (by decide) (hone (by decide) (by decide) hh)
  have huri : Has name 0 "uri" ↔ Has name 0 "u" ∧ Has name 1 "ri" := has_append (by decide) (by decide)
  have hqop : Has name 0 "qop" ↔ Has name 0 "q" ∧ Has name 1 "op" := has_append (by decide) (by decide)
  have hnc : Has name 0 "nc" ↔ Has name 0 "n" ∧ Has name 1 "c" := has_append (by decide) (by decide)
  have hfound : ∀ {w : String} {t : DigPar}, (w, t) ∈ par_names → Has name 0 w →
      settle mem size (.found t, p + (bytes w).length) = some (par_type name, p + (name ++ ws).length) := by
    intro w t hw hh
    exact h.word hw hh (name_letters _ hw) (fun v hv hvw => (names_apart _ hw v hv (hvw ▸ take_prefix _ _)).symm)
      (fun _ => rfl) fun hn => absurd hh hn
  have hother : ¬ Has name 0 "uri" → ¬ Has name 0 "qop" → ¬ Has name 0 "nc" →
      settle mem size (.other, p) = some (par_type name, p + (name ++ ws).length) := by
    intro h1 h2 h3
    have ho := h.other_eq (q := 0) (Nat.zero_le _)
    rw [Nat.add_zero] at ho
    rw [settle, ho, par_type_other fun v hv hn => ?_]
    have hh := ((named_iff (name_letters v hv)).1 hn).1
    rcases names_begin v hv with ⟨x, hx, hxv⟩ | heq | heq | heq
    · exact hno x hx ( has_prefix (name_letters v hv) hxv hh)
    · exact h1 (heq ▸ hh)
    · exact h2 (heq ▸ hh)
    · exact h3 (heq ▸ hh)
  rw [PARSE_SHORT]
  simp only [hfirst (x := "u") (c := 'u') (by decide) (by decide), hfirst (x := "q") (c := 'q') (by decide) (by decide),
    hfirst (x := "n") (c := 'n') (by decide) (by decide)]
  have hapart : ∀ {x y : String}, (bytes x).all isLetter = true → (bytes y).all isLetter = true →
      (bytes x).length = (bytes y).length → bytes x ≠ bytes y → Has name 0 x → ¬ Has name 0 y :=
    fun hx hy hl hne hh hh' => hne (has_unique hx hy hl hh hh')
  by_cases hu : Has name 0 "u"
  · have hq : ¬ Has name 0 "q" := hapart (by decide) (by decide) (by decide) (by decide) hu
    have hn : ¬ Has name 0 "n" := hapart (by decide) (by decide) (by decide) (by decide) hu
    rw [if_pos hu]
    by_cases hT : Has name 1 "ri"
    · rw [if_pos ((hri hu).2 hT)]
      exact hfound (w := "uri") (by decide) (huri.2 ⟨hu, hT⟩)
    · rw [if_neg fun ht => hT ((hri hu).1 ht)]
      exact hother (fun hh => hT (huri.1 hh).2) (fun hh => hq (hqop.1 hh).1) fun hh => hn (hnc.1 hh).1
  rw [if_neg hu]
  by_cases hq : Has name 0 "q"
  · have hn : ¬ Has name 0 "n" := hapart (by decide) (by decide) (by decide) (by decide) hq
    rw [if_pos hq]
    by_cases hT : Has name 1 "op"
    · rw [if_pos ((hop hq).2 hT)]
      exact hfound (w := "qop") (by decide) (hqop.2 ⟨hq, hT⟩)
    · rw [if_neg fun ht => hT ((hop hq).1 ht)]
      exact hother (fun hh => hu (huri.1 hh).1) (fun hh => hT (hqop.1 hh).2) fun hh => hn (hnc.1 hh).1
  rw [if_neg hq]
  by_cases hn : Has name 0 "n"
  · rw [if_pos hn]
    by_cases hT : Has name 1 "c"
    · rw [if_pos ((hc hn).2 hT)]
      exact hfound (w := "nc") (by decide) (hnc.2 ⟨hn, hT⟩)
    · rw [if_neg fun ht => hT ((hc hn).1 ht)]
      exact hother (fun hh => hu (huri.1 hh).1) (fun hh => hq (hqop.1 hh).1) fun hh => hT (hnc.1 hh).2
  rw [if_neg hn]
  exact hother (fun hh => hu (huri.1 hh).1) (fun hh => hq (hqop.1 hh).1) fun hh => hn (hnc.1 hh).1

/-- What begins with `real` or `nonc`, and is another name. -/
theorem other_of_first {w x : String} {t : DigPar} (hx : Has name 0 x) (hlow : (bytes x).all isLetter = true)
    (honly : ∀ v ∈ par_names, (bytes v.1).take (bytes x).length = bytes x → v = (w, t)) (hno : ¬ Has name 0 w) :
    par_type name = .PAR_OTHER := by
  refine par_type_other fun v hv hn => hno ?_
  obtain ⟨hv0, hvl⟩ := (named_iff (name_letters v hv)).1 hn
  have hv1 := hv0
  rw [has_iff (name_letters v hv), drop_zero, ← hvl, take_length] at hv0
  rw [has_iff hlow, drop_zero, map_take, hv0] at hx
  have heq : v.1 = w := congrArg Prod.fst (honly v hv hx)
  exact heq ▸ hv1

theorem ParamText.real (h : ParamText mem size p name ws rest) (hx : Has name 0 "real") :
    settle mem size (real_CASE mem p) = some (par_type name, p + (name ++ ws).length) ↔
      (¬ Has name 0 "realm" → if Has name 8 "e" then name.length ≠ 9 else if Has name 12 "onse" then name.length ≠ 16
        else 12 ≤ (name ++ ws).length) := by
  have h4 := ParamText.four ws hx (by decide) (by decide)
  have hm : LOWER_BYTE (mem (p + 4)) = chr 'm' ↔ Has name 4 "m" := h.byte (by decide) (by decide) h4
  have hrealm : Has name 0 "realm" ↔ Has name 0 "real" ∧ Has name 4 "m" := has_append (by decide) (by decide)
  rw [real_CASE]
  by_cases hh : Has name 4 "m"
  · rw [if_pos (hm.2 hh)]
    refine iff_of_true ?_ fun hno => absurd (hrealm.2 ⟨hx, hh⟩) hno
    exact h.word (w := "realm") (x := "real") (by decide) hx (by decide) (by decide) (fun _ => rfl)
      fun hno => absurd (hrealm.2 ⟨hx, hh⟩) hno
  · have hno : ¬ Has name 0 "realm" := fun hr => hh (hrealm.1 hr).2
    rw [if_neg fun hk => hh (hm.1 hk), other_of_first (w := "realm") (x := "real") (t := .PAR_REALM) hx
      (by decide) (by decide) hno, h.nonc_far]
    exact ⟨fun h _ => h, fun h => h hno⟩

theorem ParamText.nonc (h : ParamText mem size p name ws rest) (hx : Has name 0 "nonc") :
    settle mem size (nonc_CASE mem p) = some (par_type name, p + (name ++ ws).length) ↔
      (¬ Has name 0 "nonce" → if Has name 8 "onse" then name.length ≠ 12 else 8 ≤ (name ++ ws).length) := by
  have h4 := ParamText.four ws hx (by decide) (by decide)
  have he : LOWER_BYTE (mem (p + 4)) = chr 'e' ↔ Has name 4 "e" := h.byte (by decide) (by decide) h4
  have hnonce : Has name 0 "nonce" ↔ Has name 0 "nonc" ∧ Has name 4 "e" := has_append (by decide) (by decide)
  rw [nonc_CASE]
  by_cases hh : Has name 4 "e"
  · rw [if_pos (he.2 hh)]
    refine iff_of_true ?_ fun hno => absurd (hnonce.2 ⟨hx, hh⟩) hno
    exact h.word (w := "nonce") (x := "nonc") (by decide) hx (by decide) (by decide) (fun _ => rfl)
      fun hno => absurd (hnonce.2 ⟨hx, hh⟩) hno
  · have hno : ¬ Has name 0 "nonce" := fun hr => hh (hnonce.1 hr).2
    rw [if_neg fun hk => hh (he.1 hk), other_of_first (w := "nonce") (x := "nonc") (t := .PAR_NONCE) hx
      (by decide) (by decide) hno, h.resp_far (k := 4)]
    exact ⟨fun h _ => h, fun h => h hno⟩

def quaternions : List (ℕ × String) :=
  [(_user_, "user"), (_real_, "real"), (_nonc_, "nonc"), (_resp_, "resp"), (_cnon_, "cnon"), (_opaq_, "opaq"),
    (_algo_, "algo")]

theorem keys_plain : ∀ k ∈ quaternions, (bytes k.2).all isLetter = true ∧ (bytes k.2).length = 4 ∧
    Hname.plain (.key k.1) = true ∧ Hname.atoms (.key k.1) = (bytes k.2).zipIdx.map Prod.swap := by decide

theorem ParamText.first (h : ParamText mem size p name ws rest) {k : ℕ × String} (hk : k ∈ quaternions) :
    LOWER_DWORD (val mem p) = k.1 ↔ Has name 0 k.2 := by
  obtain ⟨hall, hlen, hplain, hatoms⟩ := keys_plain k hk
  exact h.key (j := 0) hall (by omega) (Nat.zero_le _) hplain hatoms

theorem firsts_apart : ∀ x ∈ firsts, ∀ y ∈ firsts, x ≠ y → (bytes x).all isLetter = true ∧
    (bytes y).all isLetter = true ∧ (bytes x).length = (bytes y).length ∧ bytes x ≠ bytes y := by decide

theorem one_first {x y : String} (hx : x ∈ firsts) (hy : y ∈ firsts) (hne : x ≠ y) (h : Has name 0 x) :
    ¬ Has name 0 y := by
  obtain ⟨h1, h2, h3, h4⟩ := firsts_apart x hx y hy hne
  exact fun h' => h4 (has_unique h1 h2 h3 h h')

theorem ParamText.first_quaternions (h : ParamText mem size p name ws rest) :
    settle mem size (FIRST_QUATERNIONS mem p) = some (par_type name, p + (name ++ ws).length) ↔
      (Has name 0 "real" → ¬ Has name 0 "realm" →
        if Has name 8 "e" then name.length ≠ 9 else if Has name 12 "onse" then name.length ≠ 16
          else 12 ≤ (name ++ ws).length) ∧
      (Has name 0 "nonc" → ¬ Has name 0 "nonce" →
        if Has name 8 "onse" then name.length ≠ 12 else 8 ≤ (name ++ ws).length) := by
  have huser := h.first (k := (_user_, "user")) (by decide)
  have hreal' := h.first (k := (_real_, "real")) (by decide)
  have hnonc' := h.first (k := (_nonc_, "nonc")) (by decide)
  have hresp := h.first (k := (_resp_, "resp")) (by decide)
  have hcnon := h.first (k := (_cnon_, "cnon")) (by decide)
  have hopaq := h.first (k := (_opaq_, "opaq")) (by decide)
  have halgo := h.first (k := (_algo_, "algo")) (by decide)
  have hneither : ¬ Has name 0 "real" → ¬ Has name 0 "nonc" → settle mem size (FIRST_QUATERNIONS mem p) =
      some (par_type name, p + (name ++ ws).length) := by
    intro hreal hnonc
    rw [FIRST_QUATERNIONS]
    simp only [huser, hreal', hnonc', hresp, hcnon, hopaq, halgo, if_neg hreal, if_neg hnonc]
    split_ifs with h1 h2 h3 h4 h5
    · exact h.user h1
    · exact h.resp h2
    · exact h.cnon h3
    · exact h.opaq h4
    · exact h.algo h5
    · refine h.short ?_
      simp only [firsts, forall_mem_cons]
      exact ⟨h1, hreal, hnonc, h2, h3, h4, h5, fun _ hx => absurd hx not_mem_nil⟩
  by_cases hreal : Has name 0 "real"
  · have hnonc : ¬ Has name 0 "nonc" := one_first (x := "real") (by decide) (by decide) (by decide) hreal
    have huser' : ¬ Has name 0 "user" := one_first (x := "real") (by decide) (by decide) (by decide) hreal
    rw [FIRST_QUATERNIONS, if_neg fun hk => huser' (huser.1 hk), if_pos (hreal'.2 hreal), h.real hreal]
    exact ⟨fun hr => ⟨fun _ => hr, fun hn => absurd hn hnonc⟩, fun hr => hr.1 hreal⟩
  by_cases hnonc : Has name 0 "nonc"
  · have huser' : ¬ Has name 0 "user" := one_first (x := "nonc") (by decide) (by decide) (by decide) hnonc
    rw [FIRST_QUATERNIONS, if_neg fun hk => huser' (huser.1 hk), if_neg fun hk => hreal (hreal'.1 hk),
      if_pos (hnonc'.2 hnonc), h.nonc hnonc]
    exact ⟨fun hr => ⟨fun hn => absurd hn hreal, fun _ => hr⟩, fun hr => hr.2 hnonc⟩
  · exact iff_of_true (hneither hreal hnonc) ⟨fun hr => absurd hr hreal, fun hr => absurd hr hnonc⟩

end Switch

section Spec

variable {size p : ℕ} {name ws rest : Str}

/-- **The name of a digest parameter**: it is told by its type, and the cursor is left at the `=` behind it, exactly
for the names that are not compared with a part of another one. -/
theorem parse_param_name_iff {mem : ℕ → UInt8} (h : ParamText mem size p name ws rest) :
    parse_param_name mem size p = some (par_type name, p + (name ++ ws).length) ↔ Safe name ws rest := by
  have hsize := h.ends
  rw [parse_param_name]
  by_cases hs : size - p < 4
  · have ho := h.other_eq (q := 0) (Nat.zero_le _)
    rw [Nat.add_zero] at ho
    rw [if_pos hs, settle, ho, some_inj, Prod.mk.injEq, and_iff_left rfl]
    have hlen : (name ++ (ws ++ EQUAL :: rest)).length < 4 := by omega
    have hn : name.length < 3 := by
      simp only [length_append, length_cons] at hlen
      omega
    have hshort : ∀ {x : String}, (bytes x).all isLetter = true → (bytes x).length = 4 → ¬ Has name 0 x :=
      fun hx h4 hh => by
        have := has_le hx hh (by omega)
        omega
    constructor
    · intro heq
      refine ⟨fun _ hnc => ?_, fun hr => absurd hr (hshort (by decide) (by decide)),
        fun hr => absurd hr (hshort (by decide) (by decide))⟩
      rw [par_type_of (w := "nc") (t := .PAR_NC) (by decide) hnc] at heq
      cases heq
    · intro hsafe
      refine (par_type_other fun v hv hnamed => ?_).symm
      have hvl := ((named_iff (name_letters v hv)).1 hnamed).2
      have honly : ∀ v ∈ par_names, (bytes v.1).length < 3 → v.1 = "nc" ∨ (bytes v.1).length = 3 := by decide
      rcases honly v hv (by omega) with heq | h3
      · exact hsafe.nc hlen (heq ▸ hnamed)
      · omega
  · rw [if_neg hs, h.first_quaternions]
    exact ⟨fun hc => ⟨fun hlt => absurd hlt (by omega), hc.1, hc.2⟩, fun hc => ⟨hc.real, hc.nonc⟩⟩

/-- The name at the start of a text, with `past` behind it. -/
theorem parse_param_name_spec (past : ℕ → UInt8) (hname : EQUAL ∉ name) (hlast : ∀ c ∈ name.getLast?, blank c = false)
    (hws : Blanks ws) (hsize : (name ++ (ws ++ EQUAL :: rest)).length < 2 ^ 31) :
    parse_param_name (memory (name ++ (ws ++ EQUAL :: rest)) past) (name ++ (ws ++ EQUAL :: rest)).length 0 =
      some (par_type name, (name ++ ws).length) ↔ Safe name ws rest := by
  have h : ParamText (memory (name ++ (ws ++ EQUAL :: rest)) past) (name ++ (ws ++ EQUAL :: rest)).length 0 name ws
      rest := by
    refine ⟨fun j a ha => ?_, (Nat.zero_add _).symm, hsize, hname, hws, hlast⟩
    rw [Nat.zero_add, memory, ha, getD_some]
  have hiff := parse_param_name_iff h
  rwa [Nat.zero_add] at hiff

/-- `realx=yy,nonce=a`: the `=` is looked for behind the one of this parameter. -/
theorem realx_skips : parse_param_name (memory (bytes "realx=yy,nonce=a") fun _ => 0) 16 0 = some (.PAR_OTHER, 14) ∧
    parse_param_name (memory (bytes "realx=yy,nonce=a") fun _ => 0) 16 0 ≠
      some (par_type (bytes "realx"), (bytes "realx" ++ []).length) := by
  have hrun : parse_param_name (memory (bytes "realx=yy,nonce=a") fun _ => 0) 16 0 = some (.PAR_OTHER, 14) := by
    decide +kernel
  refine ⟨hrun, ?_⟩
  rw [hrun]
  decide

/-- `Realm ="x"` -/
theorem realm_read : parse_param_name (memory (bytes "Realm" ++ (bytes " " ++ EQUAL :: bytes "\"x\"")) fun _ => 0)
      (bytes "Realm" ++ (bytes " " ++ EQUAL :: bytes "\"x\"")).length 0 =
    some (par_type (bytes "Realm"), (bytes "Realm" ++ bytes " ").length) :=
  (parse_param_name_spec (fun _ => 0) (by decide) (by decide +kernel) (List.all_eq_true.1 (by decide)) (by decide)).2
    ⟨fun h => absurd h (by decide), fun _ h => absurd (by decide) h, fun h => absurd h (by decide)⟩

end Spec

end OpenSips.Digest
