import OpenSips.Parser.Classify

/-!
# OpenSips.Parser.Supported — the option tags of a Supported header field (`parse_supported.c`)

A turn looks at the first four bytes of an element.  When these are those of a tag and the rest is not, nothing is
passed over and the next turn does the same; and the byte behind a tag is looked at wherever the tag ends.
-/

namespace OpenSips.Supported

open List

open Hname (READ val LOWER_BYTE LOWER_DWORD _path_ _even_ bytes)
open FirstLine (CR forall_char isLetter tolower)
open ParseParam (COMMA Named blank)

-- the names of the source
set_option linter.style.nameCheck false

section Source

def _tlis_ := 0x73696c74
def _100r_ := 0x72303031
def _time_ := 0x656d6974

def F_SUPPORTED_PATH := 1
def F_SUPPORTED_100REL := 2
def F_SUPPORTED_TIMER := 4
def F_SUPPORTED_EVENTLIST := 8

def IS_DELIM (c : UInt8) : Bool := blank c || c == COMMA

-- what stands behind the body
variable (past : ℕ → UInt8)

/-- The memory from `p` on, when `p` is what is left of the body. -/
def mem (p : Str) : ℕ → UInt8 := fun i => (p[i]?).getD (past (i - p.length))

/-- A turn of the loop: what it leaves of the body, the bit it sets, and how many bytes it looks at behind the
delimiters. -/
structure Turn where
  rest : Str
  sup : ℕ
  reach : ℕ
  deriving DecidableEq

/-- The switch, at an element. -/
def element (p : Str) : Turn :=
  let c := mem past p
  if LOWER_DWORD (val c 0) = _path_ then
    if p.length < 4 then ⟨p, 0, 4⟩
    else if IS_DELIM (c 4) then ⟨p.drop 5, F_SUPPORTED_PATH, 5⟩
    else ⟨p, 0, 5⟩
  else if LOWER_DWORD (val c 0) = _100r_ then
    if p.length < 6 then ⟨p, 0, 4⟩
    else if LOWER_BYTE (c 4) ≠ chr 'e' then ⟨p, 0, 5⟩
    else if LOWER_BYTE (c 5) ≠ chr 'l' then ⟨p, 0, 6⟩
    else if IS_DELIM (c 6) then ⟨p.drop 7, F_SUPPORTED_100REL, 7⟩
    else ⟨p, 0, 7⟩
  else if LOWER_DWORD (val c 0) = _time_ then
    if p.length < 5 then ⟨p, 0, 4⟩
    else if LOWER_BYTE (c 4) ≠ chr 'r' then ⟨p, 0, 5⟩
    else if IS_DELIM (c 5) then ⟨p.drop 6, F_SUPPORTED_TIMER, 6⟩
    else ⟨p, 0, 6⟩
  else if LOWER_DWORD (val c 0) = _even_ then
    if p.length < 9 then ⟨p, 0, 4⟩
    else if LOWER_DWORD (val c 4) ≠ _tlis_ then ⟨p, 0, 8⟩
    else if LOWER_BYTE (c 8) ≠ chr 't' then ⟨p, 0, 9⟩
    else if IS_DELIM (c 9) then ⟨p.drop 10, F_SUPPORTED_EVENTLIST, 10⟩
    else ⟨p, 0, 10⟩
  else ⟨p.dropWhile fun c => !IS_DELIM c, 0, 4⟩

def turn (s : Str) : Turn := element past (s.dropWhile IS_DELIM)

/-- `parse_supported_body` -/
def parse_supported_body : ℕ → Str → ℕ → Option ℕ
  | 0, _, _ => none
  | fuel + 1, s, sup =>
    if s = [] then some sup
    else parse_supported_body fuel (turn past s).rest (sup ||| (turn past s).sup)

inductive Reached (body : Str) : Str → Prop where
  | start : Reached body body
  | next {s : Str} (run : Reached body s) (more : s ≠ []) : Reached body (turn past s).rest

end Source

section Grammar

def tags : List (String × ℕ) :=
  [("path", F_SUPPORTED_PATH), ("100rel", F_SUPPORTED_100REL), ("timer", F_SUPPORTED_TIMER),
    ("eventlist", F_SUPPORTED_EVENTLIST)]

/-- The elements of a body, separated by commas and white space. -/
def elements (body : Str) : List Str := (body.splitOnP IS_DELIM).filter (· ≠ [])

/-- The loop ends, every turn takes a byte at least and looks at none behind the body, and the mask has the bits of
the tags among the elements. -/
structure Meets (past : ℕ → UInt8) (body : Str) : Prop where
  ends : ∃ fuel r, parse_supported_body past fuel body 0 = some r
  progress : ∀ s, Reached past body s → s ≠ [] → (turn past s).rest.length < s.length
  inside : ∀ s, Reached past body s → s ≠ [] → (turn past s).reach ≤ (s.dropWhile IS_DELIM).length
  mask : ∀ fuel r, parse_supported_body past fuel body 0 = some r →
    ∀ t ∈ tags, r &&& t.2 ≠ 0 ↔ ∃ w ∈ elements body, Named w t.1

def Delims (d : Str) : Prop := ∀ c ∈ d, IS_DELIM c = true

def Spelt (w : Str) (tag : String) : Prop := w.map LOWER_BYTE = bytes tag

/-- A body whose elements are tags, each with a delimiter behind it, and elements that do not begin like a tag, with
four bytes at least up to the end of the body. -/
inductive Regular : Str → Prop where
  | nil : Regular []
  | tag {d w rest : Str} {t : String × ℕ} {c : UInt8} (before : Delims d) (ht : t ∈ tags) (spelt : Spelt w t.1)
      (behind : IS_DELIM c = true) (more : Regular rest) : Regular (d ++ (w ++ c :: rest))
  | other {d w rest : Str} (before : Delims d) (ne : w ≠ []) (element : ∀ c ∈ w, IS_DELIM c = false)
      (behind : ∀ c ∈ rest.head?, IS_DELIM c = true) (size : 4 ≤ (w ++ rest).length)
      (unlike : ∀ t ∈ tags, ((w ++ rest).take 4).map LOWER_BYTE ≠ (bytes t.1).take 4) (more : Regular rest) :
      Regular (d ++ (w ++ rest))

end Grammar

section Elements

open Hname (Starts atoms key_starts starts_append starts_one)

variable {past : ℕ → UInt8} {c : ℕ → UInt8} {p : Str}

theorem path_starts : Starts c (bytes "path") ↔ LOWER_DWORD (val c 0) = _path_ := by
  rw [key_starts (x := bytes "path") (by decide) (by decide)]
  simp only [zero_add]

theorem rel_starts : Starts c (bytes "100rel") ↔
    LOWER_DWORD (val c 0) = _100r_ ∧ LOWER_BYTE (c 4) = chr 'e' ∧ LOWER_BYTE (c 5) = chr 'l' := by
  rw [key_starts (x := bytes "100r") (by decide) (by decide),
    show bytes "100rel" = bytes "100r" ++ ([chr 'e'] ++ [chr 'l']) from by decide, starts_append, starts_append,
    starts_one, starts_one]
  simp only [zero_add]
  rfl

theorem timer_starts : Starts c (bytes "timer") ↔
    LOWER_DWORD (val c 0) = _time_ ∧ LOWER_BYTE (c 4) = chr 'r' := by
  rw [key_starts (x := bytes "time") (by decide) (by decide),
    show bytes "timer" = bytes "time" ++ [chr 'r'] from by decide, starts_append, starts_one]
  simp only [zero_add]
  rfl

theorem eventlist_starts : Starts c (bytes "eventlist") ↔
    LOWER_DWORD (val c 0) = _even_ ∧ LOWER_DWORD (val c 4) = _tlis_ ∧ LOWER_BYTE (c 8) = chr 't' := by
  rw [key_starts (x := bytes "even") (by decide) (by decide), key_starts (x := bytes "tlis") (by decide) (by decide),
    show bytes "eventlist" = bytes "even" ++ (bytes "tlis" ++ [chr 't']) from by decide, starts_append, starts_append,
    starts_one]
  simp only [zero_add]
  rfl

def key_of : String → ℕ
  | "path" => _path_
  | "100rel" => _100r_
  | "timer" => _time_
  | _ => _even_

theorem like_starts {t : String × ℕ} (ht : t ∈ tags) :
    Starts c ((bytes t.1).take 4) ↔ LOWER_DWORD (val c 0) = key_of t.1 := by
  have hkey : ∀ t ∈ tags, Hname.plain (.key (key_of t.1)) = true ∧
      atoms (.key (key_of t.1)) = ((bytes t.1).take 4).zipIdx.map Prod.swap := by decide +kernel
  rw [key_starts (hkey t ht).1 (hkey t ht).2]
  simp only [zero_add]

theorem tag_cases {t : String × ℕ} (ht : t ∈ tags) : t = ("path", F_SUPPORTED_PATH) ∨
    t = ("100rel", F_SUPPORTED_100REL) ∨ t = ("timer", F_SUPPORTED_TIMER) ∨ t = ("eventlist", F_SUPPORTED_EVENTLIST) := by
  simpa only [tags, mem_cons, not_mem_nil, or_false] using ht

theorem element_unlike (h : ∀ t ∈ tags, ¬ Starts (mem past p) ((bytes t.1).take 4)) :
    element past p = ⟨p.dropWhile fun c => !IS_DELIM c, 0, 4⟩ := by
  have hne : ∀ t ∈ tags, LOWER_DWORD (val (mem past p) 0) ≠ key_of t.1 := fun t ht hk => h t ht ((like_starts ht).2 hk)
  have hpath : LOWER_DWORD (val (mem past p) 0) ≠ _path_ := hne ("path", F_SUPPORTED_PATH) (by decide)
  have hrel : LOWER_DWORD (val (mem past p) 0) ≠ _100r_ := hne ("100rel", F_SUPPORTED_100REL) (by decide)
  have htimer : LOWER_DWORD (val (mem past p) 0) ≠ _time_ := hne ("timer", F_SUPPORTED_TIMER) (by decide)
  have heven : LOWER_DWORD (val (mem past p) 0) ≠ _even_ := hne ("eventlist", F_SUPPORTED_EVENTLIST) (by decide)
  rw [element, if_neg hpath, if_neg hrel, if_neg htimer, if_neg heven]

def Full (past : ℕ → UInt8) (p : Str) (t : String) : Prop :=
  Starts (mem past p) (bytes t) ∧ (bytes t).length ≤ p.length ∧ IS_DELIM (mem past p (bytes t).length) = true

theorem element_full {t : String × ℕ} (ht : t ∈ tags) (h : Full past p t.1) :
    element past p = ⟨p.drop ((bytes t.1).length + 1), t.2, (bytes t.1).length + 1⟩ := by
  obtain ⟨hs, hl, hd⟩ := h
  rw [element]
  rcases tag_cases ht with rfl | rfl | rfl | rfl
  · have hlen : ¬ p.length < 4 := not_lt.2 hl
    have hdelim : IS_DELIM (mem past p 4) = true := hd
    rw [if_pos (path_starts.1 hs), if_neg hlen, if_pos hdelim]
    rfl
  · obtain ⟨h0, h4, h5⟩ := rel_starts.1 hs
    have hlen : ¬ p.length < 6 := not_lt.2 hl
    have hdelim : IS_DELIM (mem past p 6) = true := hd
    rw [if_neg (by rw [h0]; decide), if_pos h0, if_neg hlen, if_neg (not_not_intro h4), if_neg (not_not_intro h5),
      if_pos hdelim]
    rfl
  · obtain ⟨h0, h4⟩ := timer_starts.1 hs
    have hlen : ¬ p.length < 5 := not_lt.2 hl
    have hdelim : IS_DELIM (mem past p 5) = true := hd
    rw [if_neg (by rw [h0]; decide), if_neg (by rw [h0]; decide), if_pos h0, if_neg hlen, if_neg (not_not_intro h4),
      if_pos hdelim]
    rfl
  · obtain ⟨h0, h4, h8⟩ := eventlist_starts.1 hs
    have hlen : ¬ p.length < 9 := not_lt.2 hl
    have hdelim : IS_DELIM (mem past p 9) = true := hd
    rw [if_neg (by rw [h0]; decide), if_neg (by rw [h0]; decide), if_neg (by rw [h0]; decide), if_pos h0,
      if_neg hlen, if_neg (not_not_intro h4), if_neg (not_not_intro h8), if_pos hdelim]
    rfl

theorem element_stays {t : String × ℕ} (ht : t ∈ tags) (h4 : Starts (mem past p) ((bytes t.1).take 4))
    (h : ¬ Full past p t.1) : (element past p).rest = p := by
  have h0 := (like_starts ht).1 h4
  rw [element]
  rcases tag_cases ht with rfl | rfl | rfl | rfl
  · rw [if_pos (show LOWER_DWORD (val (mem past p) 0) = _path_ from h0)]
    split_ifs with hl hd
    · rfl
    · exact absurd ⟨path_starts.2 h0, not_lt.1 hl, hd⟩ h
    · rfl
  · rw [if_neg (by rw [h0]; decide), if_pos (show LOWER_DWORD (val (mem past p) 0) = _100r_ from h0)]
    split_ifs with hl he he' hd <;> try rfl
    exact absurd ⟨rel_starts.2 ⟨h0, not_not.1 he, not_not.1 he'⟩, not_lt.1 hl, hd⟩ h
  · rw [if_neg (by rw [h0]; decide), if_neg (by rw [h0]; decide),
      if_pos (show LOWER_DWORD (val (mem past p) 0) = _time_ from h0)]
    split_ifs with hl he hd <;> try rfl
    exact absurd ⟨timer_starts.2 ⟨h0, not_not.1 he⟩, not_lt.1 hl, hd⟩ h
  · rw [if_neg (by rw [h0]; decide), if_neg (by rw [h0]; decide), if_neg (by rw [h0]; decide),
      if_pos (show LOWER_DWORD (val (mem past p) 0) = _even_ from h0)]
    split_ifs with hl he he' hd <;> try rfl
    exact absurd ⟨eventlist_starts.2 ⟨h0, not_not.1 he, not_not.1 he'⟩, not_lt.1 hl, hd⟩ h

end Elements

section Lists

open Hname (Starts)

variable {past : ℕ → UInt8} {s p d w rest : Str} {t : String × ℕ} {c : UInt8}

theorem starts_take {x : Str} (hx : x.length ≤ p.length) :
    Starts (mem past p) x ↔ (p.take x.length).map LOWER_BYTE = x := by
  have hat : ∀ j (hj : j < x.length), mem past p j = p[j] := fun j hj => by
    rw [mem, getElem?_eq_getElem (lt_of_lt_of_le hj hx), Option.getD_some]
  constructor
  · intro h
    apply ext_getElem
    · rw [length_map, length_take_of_le hx]
    · intro j _ hj
      rw [getElem_map, getElem_take, ← hat j hj]
      exact h j _ (getElem?_eq_getElem hj)
  · intro h j a ha
    obtain ⟨hj, rfl⟩ := List.getElem?_eq_some_iff.1 ha
    rw [hat j hj]
    have hj' : j < ((p.take x.length).map LOWER_BYTE).length := by rwa [h]
    have hget := getElem_of_eq h hj'
    rwa [getElem_map, getElem_take] at hget

theorem lengths : ∀ t ∈ tags, 4 ≤ (bytes t.1).length := by decide

theorem delims_skip (hd : Delims d) (hp : ∀ c ∈ p.head?, IS_DELIM c = false) : (d ++ p).dropWhile IS_DELIM = p := by
  rw [dropWhile_append_of_pos hd]
  cases p with
  | nil => rfl
  | cons c p => rw [dropWhile_cons_of_neg (by rw [hp c rfl]; exact nofun)]

theorem delim_letter (c : UInt8) : IS_DELIM c = true → ∀ t ∈ tags, LOWER_BYTE c ∉ bytes t.1 :=
  forall_char (p := fun c => IS_DELIM c = true → ∀ t ∈ tags, LOWER_BYTE c ∉ bytes t.1) (by decide) c

theorem Spelt.element (ht : t ∈ tags) (h : Spelt w t.1) : ∀ c ∈ w, IS_DELIM c = false := by
  intro c hc
  by_contra hd
  exact delim_letter c (Bool.not_eq_false _ ▸ hd) t ht (h ▸ List.mem_map_of_mem hc)

theorem Spelt.length (h : Spelt w t.1) : w.length = (bytes t.1).length := by
  rw [← h, length_map]

theorem Spelt.ne_nil (ht : t ∈ tags) (h : Spelt w t.1) : w ≠ [] := by
  rintro rfl
  have := lengths t ht
  rw [← h.length] at this
  exact absurd this (by decide)

theorem turn_at (hd : Delims d) (hp : ∀ c ∈ p.head?, IS_DELIM c = false) : turn past (d ++ p) = element past p := by
  rw [turn, delims_skip hd hp]

theorem head_of_element (ne : w ≠ []) (hw : ∀ c ∈ w, IS_DELIM c = false) : ∀ c ∈ (w ++ rest).head?, IS_DELIM c = false := by
  cases w with
  | nil => exact absurd rfl ne
  | cons a w =>
    intro c hc
    obtain rfl := Option.some.inj hc
    exact hw _ mem_cons_self

theorem turn_tag (hd : Delims d) (ht : t ∈ tags) (hw : Spelt w t.1) (hc : IS_DELIM c = true) :
    turn past (d ++ (w ++ c :: rest)) = ⟨rest, t.2, (bytes t.1).length + 1⟩ := by
  have hlen := hw.length
  rw [turn_at hd (head_of_element (hw.ne_nil ht) (hw.element ht))]
  have hl : (bytes t.1).length ≤ (w ++ c :: rest).length := by
    rw [length_append]
    omega
  have hfull : Full past (w ++ c :: rest) t.1 := by
    refine ⟨(starts_take hl).2 ?_, hl, ?_⟩
    · rw [← hlen, take_left]
      exact hw
    · rw [mem, ← hlen, getElem?_append_right le_rfl, Nat.sub_self]
      exact hc
  rw [element_full ht hfull, ← hlen, drop_append]
  simp only [Nat.add_sub_cancel_left, drop_succ_cons, drop_zero, drop_eq_nil_of_le (Nat.le_succ _), nil_append]

theorem turn_other (hd : Delims d) (ne : w ≠ []) (hw : ∀ c ∈ w, IS_DELIM c = false)
    (hr : ∀ c ∈ rest.head?, IS_DELIM c = true) (hsize : 4 ≤ (w ++ rest).length)
    (hno : ∀ t ∈ tags, ((w ++ rest).take 4).map LOWER_BYTE ≠ (bytes t.1).take 4) :
    turn past (d ++ (w ++ rest)) = ⟨rest, 0, 4⟩ := by
  rw [turn_at hd (head_of_element ne hw), element_unlike]
  · rw [dropWhile_append_of_pos fun c hc => by rw [hw c hc]; rfl]
    cases rest with
    | nil => rfl
    | cons c rest => rw [dropWhile_cons_of_neg (by rw [hr c rfl]; exact nofun)]
  · intro t ht hs
    have hlen : ((bytes t.1).take 4).length = 4 := length_take_of_le (lengths t ht)
    rw [starts_take (by rw [hlen]; exact hsize), hlen] at hs
    exact hno t ht hs

end Lists

section Turns

variable {past : ℕ → UInt8} {s s' s'' d w rest : Str} {t : String × ℕ} {c : UInt8}

theorem element_reach (p : Str) : 4 ≤ (element past p).reach := by
  rw [element]
  split_ifs <;> simp only [le_refl, Nat.reduceLeDiff]

theorem Reached.trans (h : Reached past s s') (h' : Reached past s' s'') : Reached past s s'' := by
  induction h' with
  | start => exact h
  | next _ more ih => exact .next ih more

theorem Regular.turn (h : Regular s) (hne : s ≠ []) : Regular (turn past s).rest ∧
    (turn past s).rest.length < s.length ∧ (turn past s).reach ≤ (s.dropWhile IS_DELIM).length := by
  cases h with
  | nil => exact absurd rfl hne
  | tag hd ht hw hc hrest =>
    rw [turn_tag hd ht hw hc, delims_skip hd (head_of_element (hw.ne_nil ht) (hw.element ht)), ← hw.length]
    refine ⟨hrest, ?_, ?_⟩ <;> simp only [length_append, length_cons] <;> omega
  | other hd ne hw hr hsize hno hrest =>
    rw [turn_other hd ne hw hr hsize hno, delims_skip hd (head_of_element ne hw)]
    refine ⟨hrest, ?_, hsize⟩
    have := length_pos_of_ne_nil ne
    simp only [length_append]
    omega

theorem Regular.reached (h : Regular s) (hr : Reached past s s') : Regular s' := by
  induction hr with
  | start => exact h
  | next _ more ih => exact (ih.turn more).1

theorem regular_of_turns : ∀ {n : ℕ} {s : Str}, s.length < n → (∀ s', Reached past s s' → s' ≠ [] →
    (Supported.turn past s').rest.length < s'.length ∧
      (Supported.turn past s').reach ≤ (s'.dropWhile IS_DELIM).length) → Regular s := by
  intro n
  induction n with
  | zero => exact fun h => absurd h (Nat.not_lt_zero _)
  | succ n ih =>
    intro s hn hall
    by_cases hs : s = []
    · exact hs ▸ .nil
    obtain ⟨hlt, hin⟩ := hall s .start hs
    -- the rest of the body is regular
    have hnext : Regular (Supported.turn past s).rest :=
      ih (by omega) fun s' hr hne => hall s' (Reached.trans (.next .start hs) hr) hne
    have hsplit := takeWhile_append_dropWhile (p := IS_DELIM) (l := s)
    have hd : Delims (s.takeWhile IS_DELIM) := fun _ hc => mem_takeWhile_imp hc
    obtain ⟨p, hp⟩ : ∃ p, p = s.dropWhile IS_DELIM := ⟨_, rfl⟩
    have hhead : ∀ c ∈ p.head?, IS_DELIM c = false := by
      intro c hc
      have := head?_dropWhile_not IS_DELIM s
      rw [← hp, hc] at this
      exact this
    have hturn : Supported.turn past s = element past p := by rw [Supported.turn, hp]
    rw [hturn] at hin hnext hlt
    rw [← hp] at hin hsplit
    have hsize : 4 ≤ p.length := le_trans (element_reach p) hin
    have hne : p ≠ [] := by
      rintro rfl
      exact absurd hsize (by decide)
    by_cases hlike : ∃ t ∈ tags, Hname.Starts (mem past p) ((bytes t.1).take 4)
    · obtain ⟨t, ht, h4⟩ := hlike
      by_cases hfull : Full past p t.1
      · rw [element_full ht hfull] at hin hnext
        obtain ⟨hs, hl, hc⟩ := hfull
        rw [mem, getElem?_eq_getElem hin, Option.getD_some] at hc
        have hp' : p = p.take (bytes t.1).length ++ p[(bytes t.1).length] :: p.drop ((bytes t.1).length + 1) := by
          rw [getElem_cons_drop, take_append_drop]
        rw [← hsplit, hp']
        exact .tag hd ht ((starts_take hl).1 hs) hc hnext
      · -- the next turn would do the same
        exfalso
        have hstays := element_stays ht h4 hfull
        have hreach : Reached past s p := by
          have hnext : Reached past s (turn past s).rest := .next .start hs
          rwa [hturn, hstays] at hnext
        have hagain := (hall p hreach hne).1
        rw [← nil_append p, turn_at (fun _ hc => absurd hc not_mem_nil) hhead, hstays] at hagain
        exact absurd hagain (lt_irrefl _)
    · have hun : ∀ t ∈ tags, ¬ Hname.Starts (mem past p) ((bytes t.1).take 4) := fun t ht h => hlike ⟨t, ht, h⟩
      rw [element_unlike hun] at hnext
      have hw := takeWhile_append_dropWhile (p := fun c => !IS_DELIM c) (l := p)
      rw [← hsplit, ← hw]
      refine .other hd ?_ ?_ ?_ (by rw [hw]; exact hsize) ?_ hnext
      · cases p with
        | nil => exact absurd rfl hne
        | cons c p =>
          rw [takeWhile_cons_of_pos (by rw [hhead c rfl]; rfl)]
          exact cons_ne_nil _ _
      · intro c hc
        exact Bool.not_eq_true' .. ▸ mem_takeWhile_imp (p := fun c => !IS_DELIM c) hc
      · intro c hc
        have := head?_dropWhile_not (fun c => !IS_DELIM c) p
        rw [hc] at this
        exact Bool.not_eq_false' .. ▸ this
      · intro t ht h
        have hlen : ((bytes t.1).take 4).length = 4 := length_take_of_le (lengths t ht)
        rw [hw] at h
        exact hun t ht ((starts_take (by rw [hlen]; exact hsize)).2 (by rw [hlen]; exact h))

end Turns

section Masks

variable {past : ℕ → UInt8} {s d w rest : Str} {t : String × ℕ} {c : UInt8} {sup r r' fuel fuel' : ℕ}

theorem elements_delims (hd : Delims d) : elements (d ++ s) = elements s := by
  induction d with
  | nil => rfl
  | cons c d ih =>
    obtain ⟨hc, hd⟩ := forall_mem_cons.1 hd
    rw [← ih hd, elements, elements, cons_append, splitOnP_cons_eq_if_modifyHead, if_pos hc,
      filter_cons_of_neg (by decide)]

theorem elements_cons (ne : w ≠ []) (hw : ∀ c ∈ w, IS_DELIM c = false) (hr : ∀ c ∈ rest.head?, IS_DELIM c = true) :
    elements (w ++ rest) = w :: elements rest := by
  have hkeep : ∀ l : List Str, (w :: l).filter (· ≠ []) = w :: l.filter (· ≠ []) := fun l =>
    filter_cons_of_pos (decide_eq_true ne)
  cases rest with
  | nil =>
    rw [append_nil, elements, splitOnP_eq_singleton hw, hkeep]
    rfl
  | cons c rest =>
    have hc : Delims [c] := forall_mem_singleton.2 (hr c rfl)
    rw [← singleton_append, elements_delims hc, elements, singleton_append,
      splitOnP_append_cons_of_forall_mem hw c (hr c rfl), hkeep, elements]

theorem flags_apart : ∀ t ∈ tags, ∀ t' ∈ tags, t'.2 &&& t.2 ≠ 0 ↔ t = t' := by decide

theorem bytes_apart : ∀ t ∈ tags, ∀ t' ∈ tags, bytes t.1 = bytes t'.1 → t = t' := by decide

theorem or_flag (ht : t ∈ tags) {t' : String × ℕ} (ht' : t' ∈ tags) :
    (sup ||| t'.2) &&& t.2 ≠ 0 ↔ sup &&& t.2 ≠ 0 ∨ t = t' := by
  rw [Nat.and_or_distrib_right, Ne, Nat.or_eq_zero_iff, not_and_or, ← flags_apart t ht t' ht']

/-- **The mask** of a regular body, in which a tag is compared byte by byte with 0x20 set. -/
theorem Regular.mask (h : Regular s) : ∀ sup, ∃ fuel r, parse_supported_body past fuel s sup = some r ∧
    ∀ t ∈ tags, r &&& t.2 ≠ 0 ↔ sup &&& t.2 ≠ 0 ∨ ∃ w ∈ elements s, Spelt w t.1 := by
  induction h with
  | nil =>
    refine fun sup => ⟨1, sup, rfl, fun t _ => (or_iff_left ?_).symm⟩
    rintro ⟨w, hw, -⟩
    exact absurd hw (by rw [show elements [] = [] from rfl]; exact not_mem_nil)
  | @tag d w rest t' c hd ht hw hc hrest ih =>
    intro sup
    obtain ⟨fuel, r, hr, hall⟩ := ih (sup ||| t'.2)
    refine ⟨fuel + 1, r, ?_, fun t htag => ?_⟩
    · rw [parse_supported_body, if_neg (by simp only [append_eq_nil_iff, reduceCtorEq, and_false,
        not_false_eq_true]), turn_tag hd ht hw hc, hr]
    · rw [hall t htag, or_flag htag ht, elements_delims hd,
        @elements_cons _ (c :: rest) (hw.ne_nil ht) (hw.element ht) (fun a ha => by rwa [← Option.some.inj ha]),
        show elements (c :: rest) = elements rest from elements_delims (d := [c]) (forall_mem_singleton.2 hc),
        exists_mem_cons_iff, or_assoc]
      refine or_congr_right (or_congr_left ⟨fun heq => heq ▸ hw, fun h => ?_⟩)
      exact bytes_apart t htag t' ht (Eq.trans (Eq.symm h) hw)
  | @other d w rest hd ne hw hr' hsize hno hrest ih =>
    intro sup
    obtain ⟨fuel, r, hr, hall⟩ := ih (sup ||| 0)
    refine ⟨fuel + 1, r, ?_, fun t htag => ?_⟩
    · rw [parse_supported_body, if_neg (by simp only [append_eq_nil_iff, ne, false_and, and_false,
        not_false_eq_true]), turn_other hd ne hw hr' hsize hno, hr]
    · rw [hall t htag, Nat.or_zero, elements_delims hd, elements_cons ne hw hr', exists_mem_cons_iff]
      refine or_congr_right (or_iff_right fun h => ?_).symm
      refine hno t htag ?_
      have hlen := lengths t htag
      rw [← h.length] at hlen
      rw [take_append_of_le_length hlen, map_take]
      exact congrArg (List.take 4) h

theorem mask_unique : ∀ {fuel fuel' : ℕ} {s : Str} {sup : ℕ}, parse_supported_body past fuel s sup = some r →
    parse_supported_body past fuel' s sup = some r' → r = r' := by
  intro fuel
  induction fuel with
  | zero => exact fun h _ => by cases h
  | succ fuel ih =>
    intro fuel' s sup h h'
    cases fuel' with
    | zero => cases h'
    | succ fuel' =>
      rw [parse_supported_body] at h h'
      by_cases hs : s = []
      · rw [if_pos hs] at h h'
        exact Option.some.inj (h.symm.trans h')
      · rw [if_neg hs] at h h'
        exact ih h h'

theorem map_imp {f g : UInt8 → UInt8} : ∀ {w l : Str}, (∀ a ∈ l, ∀ c, f c = a → g c = a) → w.map f = l → w.map g = l
  | [], _, _, h => h
  | c :: w, [], _, h => nomatch h
  | c :: w, a :: l, hall, h => by
    obtain ⟨hc, hw⟩ := cons.inj h
    obtain ⟨ha, hl⟩ := forall_mem_cons.1 hall
    rw [map_cons, ha c hc, map_imp hl hw]

theorem lower_same (c : UInt8) : isLetter (tolower c) = true ∨ tolower c = chr '0' ∨ tolower c = chr '1' →
    LOWER_BYTE c = tolower c :=
  forall_char (p := fun c => isLetter (tolower c) = true ∨ tolower c = chr '0' ∨ tolower c = chr '1' →
    LOWER_BYTE c = tolower c) (by decide) c

theorem tag_letters : ∀ t ∈ tags, t.1 ≠ "100rel" → (bytes t.1).all isLetter = true := by decide

theorem tag_chars : ∀ t ∈ tags, (bytes t.1).all (fun a => isLetter a || (a == chr '0' || a == chr '1')) = true := by
  decide

theorem lower_of_same (ht : t ∈ tags) {a : UInt8} (ha : a ∈ bytes t.1) (c : UInt8) (h : tolower c = a) :
    LOWER_BYTE c = a := by
  have hchar := List.all_eq_true.1 (tag_chars t ht) a ha
  rw [Bool.or_eq_true, Bool.or_eq_true, beq_iff_eq, beq_iff_eq, ← h] at hchar
  rw [lower_same c hchar, h]

theorem named_lower (ht : t ∈ tags) : Named w t.1 ↔ w.map tolower = bytes t.1 := by
  have hlow : ∀ t ∈ tags, (bytes t.1).map tolower = bytes t.1 := by decide
  exact Eq.congr_right (hlow t ht)

theorem spelt_of_named (ht : t ∈ tags) (h : Named w t.1) : Spelt w t.1 :=
  map_imp (fun _ ha c => lower_of_same ht ha c) ((named_lower ht).1 h)

theorem spelt_iff (ht : t ∈ tags) (hne : t.1 ≠ "100rel") : Spelt w t.1 ↔ Named w t.1 :=
  ⟨fun h => (named_lower ht).2 (map_imp (fun a ha c =>
    (Hname.lower_iff (List.all_eq_true.1 (tag_letters t ht hne) a ha) c).1) h), spelt_of_named ht⟩

end Masks

section Spec

variable {past : ℕ → UInt8} {body : Str}

/-- **The body of a Supported header field** is read as it should be exactly when it is regular, and has an element
`100rel` if it has one that is `100rel` with 0x20 set in every byte. -/
theorem parse_supported_body_spec (past : ℕ → UInt8) (body : Str) : Meets past body ↔
    Regular body ∧ ((∃ w ∈ elements body, Spelt w "100rel") → ∃ w ∈ elements body, Named w "100rel") := by
  have hrel : ("100rel", F_SUPPORTED_100REL) ∈ tags := by decide
  constructor
  · intro h
    have hreg : Regular body := regular_of_turns (Nat.lt_succ_self _) fun s hr hs =>
      ⟨h.progress s hr hs, h.inside s hr hs⟩
    refine ⟨hreg, fun hspelt => ?_⟩
    obtain ⟨fuel, r, hr, hall⟩ := @Regular.mask past body hreg 0
    exact (h.mask fuel r hr _ hrel).1 ((hall _ hrel).2 (.inr hspelt))
  · rintro ⟨hreg, hspelt⟩
    obtain ⟨fuel, r, hr, hall⟩ := @Regular.mask past body hreg 0
    refine ⟨⟨fuel, r, hr⟩, fun s hs hne => ((hreg.reached hs).turn hne).2.1,
      fun s hs hne => ((hreg.reached hs).turn hne).2.2, fun fuel' r' hr' t ht => ?_⟩
    obtain rfl := mask_unique hr hr'
    rw [hall t ht, Nat.zero_and, or_iff_right fun h => absurd rfl h]
    by_cases hne : t.1 = "100rel"
    · rw [hne]
      exact ⟨hspelt, fun ⟨w, hw, hn⟩ => ⟨w, hw, spelt_of_named hrel hn⟩⟩
    · simp only [spelt_iff ht hne]

/-- `pathx` begins like a tag: nothing is passed over, however long the loop runs. -/
theorem pathx_stuck : ¬ Meets (fun _ => CR) (bytes "pathx") ∧
    ∀ fuel, parse_supported_body (fun _ => CR) fuel (bytes "pathx") 0 = none := by
  have hturn : turn (fun _ => CR) (bytes "pathx") = ⟨bytes "pathx", 0, 5⟩ := by decide
  have hloop : ∀ fuel, parse_supported_body (fun _ => CR) fuel (bytes "pathx") 0 = none := by
    intro fuel
    induction fuel with
    | zero => rfl
    | succ fuel ih => rw [parse_supported_body, if_neg (by decide), hturn]; exact ih
  refine ⟨fun h => ?_, hloop⟩
  obtain ⟨fuel, r, hr⟩ := h.ends
  rw [hloop] at hr
  cases hr

end Spec

end OpenSips.Supported
