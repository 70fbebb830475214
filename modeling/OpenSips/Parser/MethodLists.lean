import OpenSips.Parser.Methods

/-!
# OpenSips.Parser.MethodLists — `parse_methods` and the first token of a request (`parse_methods.c`)

`parse_method` looks for a name in all of the text that is left, not in the element of the list: behind
an `i` the tests skip one character, whatever it is.
-/

namespace OpenSips.FirstLine

open Lib List Option

section Source

def lws (c : UInt8) : Bool := c == SPACE || c == TAB || c == CR || c == LF

theorem length_dropWhile_le (p : UInt8 → Bool) (s : Str) : (s.dropWhile p).length ≤ s.length :=
  (dropWhile_sublist p).length_le

/-- The loop of `parse_methods`. -/
def parse_methods_loop (methods : ℕ) (s : Str) : Option ℕ :=
  if s = [] then some methods
  else
    match parse_method s with
    | none => none
    | some (n, method) =>
      match _h : (s.drop n).dropWhile lws with
      | [] => some (methods ||| method)
      | c :: r =>
        if c = 0 then some (methods ||| method)
        else if c = chr ',' then parse_methods_loop (methods ||| method) (r.dropWhile lws)
        else none
termination_by s.length
decreasing_by
  have h1 := length_dropWhile_le lws r
  have h2 := length_dropWhile_le lws (s.drop n)
  have h3 := congrArg List.length _h
  rw [length_cons] at h3
  rw [length_drop] at h2
  omega

/-- `parse_methods`; `none` is -1. -/
def parse_methods (body : Str) : Option ℕ := parse_methods_loop 0 (body.dropWhile lws)

def parse_methods_next (methods : ℕ) (s : Str) : Option ℕ :=
  match s.dropWhile lws with
  | [] => some methods
  | c :: r =>
    if c = 0 then some methods
    else if c = chr ',' then parse_methods_loop methods (r.dropWhile lws)
    else none

theorem parse_methods_loop_eq {methods n method : ℕ} {s : Str} (hs : s ≠ [])
    (h : parse_method s = some (n, method)) :
    parse_methods_loop methods s = parse_methods_next (methods ||| method) (s.drop n) := by
  rw [parse_methods_loop, if_neg hs, h]
  dsimp only
  rw [parse_methods_next]
  split <;> rename_i h' <;> rw [h']

end Source

section Lists

/-- An element: characters that `parse_method` takes. -/
def Item (t : Str) : Prop := t ≠ [] ∧ ∀ c ∈ t, method_char c = true

def Blanks (w : Str) : Prop := ∀ c ∈ w, lws c = true

theorem blanks_nil : Blanks [] := fun _ h => by cases h

/-- The elements of a list, each with whether the next one stands right behind its comma. -/
inductive MethodList : Str → List (Str × Bool) → Prop where
  | last {t w : Str} : Item t → Blanks w → MethodList (t ++ w) [(t, false)]
  | more {t w w' s : Str} {b : Bool} {ts : List (Str × Bool)} : Item t → Blanks w → Blanks w' →
      (b = true ↔ w = [] ∧ w' = []) → MethodList s ts →
      MethodList (t ++ (w ++ chr ',' :: (w' ++ s))) ((t, b) :: ts)

/-- The value that `parse_method` gives a token. -/
def value (t : Str) : ℕ := ((parse_method t).map Prod.snd).getD 0

def any_of (ms : List ℕ) : ℕ := ms.foldr (· ||| ·) 0

/-- The elements that are read one by one, and the methods of the pairs that are read as one: `i` with
`fo` or `vite` right behind its comma. -/
def pairs : List (Str × Bool) → List ℕ × List ℕ
  | (t, true) :: (t', b) :: ts =>
    if same_case t ("I".toList.map chr) ∧ same_case t' ("FO".toList.map chr) then
      ((pairs ts).1, METHOD_INFO :: (pairs ts).2)
    else if same_case t ("I".toList.map chr) ∧ same_case t' ("VITE".toList.map chr) then
      ((pairs ts).1, METHOD_INVITE :: (pairs ts).2)
    else (value t :: (pairs ((t', b) :: ts)).1, (pairs ((t', b) :: ts)).2)
  | (t, _) :: ts => (value t :: (pairs ts).1, (pairs ts).2)
  | [] => ([], [])

/-- No pair is read as one, or it makes no difference: the list has an unknown method and the ones that
the pairs are read as. -/
def Apart (ts : List (Str × Bool)) : Prop :=
  (pairs ts).2 = [] ∨ METHOD_OTHER ∈ (pairs ts).1 ∧ ∀ m ∈ (pairs ts).2, m ∈ (pairs ts).1

end Lists

section Context

variable {t r : Str} {k m n : ℕ} {c : UInt8}

def Ends (r : Str) : Prop := ∀ c ∈ r.head?, ends_method c = true

theorem item_not_end (h : method_char c = true) : ends_method c = false :=
  token_not_end c (method_char_token c h)

theorem Item.token (h : Item t) : Token t := ⟨h.1, fun c hc => method_char_token c (h.2 c hc)⟩

theorem has_item (hr : Ends r) (hk : k ≤ t.length) {text : String}
    (htext : (text.toList.map chr).all method_char = true) : has (t ++ r) k text = has t k text := by
  rw [Bool.eq_iff_iff, has_iff, has_iff, drop_append_of_le_length hk]
  constructor
  · rintro ⟨x, y, hxy, hx⟩
    by_cases hlen : x.length ≤ (t.drop k).length
    · obtain ⟨y', hy'⟩ : x <+: t.drop k :=
        prefix_of_prefix_length_le ⟨y, hxy.symm⟩ ⟨r, rfl⟩ hlen
      exact ⟨x, y', hy'.symm, hx⟩
    · -- the character behind the element would be a letter
      exfalso
      obtain ⟨z, hz⟩ : t.drop k <+: x :=
        prefix_of_prefix_length_le ⟨r, rfl⟩ ⟨y, hxy.symm⟩ (le_of_lt (not_le.1 hlen))
      subst hz
      rw [append_assoc, append_cancel_left_eq] at hxy
      cases z with
      | nil =>
        rw [append_nil] at hlen
        exact hlen (le_rfl)
      | cons a z =>
        have ha : method_char (tolower a) = true := by
          refine List.all_eq_true.1 htext _ (hx ▸ ?_)
          rw [map_append, map_cons]
          exact mem_append_right _ mem_cons_self
        rw [method_char_tolower] at ha
        have he := hr a (by rw [hxy]; rfl)
        rw [item_not_end ha] at he
        cases he
  · rintro ⟨x, y, hxy, hx⟩
    exact ⟨x, y ++ r, by rw [hxy, append_assoc], hx⟩

theorem known_item (hr : Ends r) (h2 : 2 ≤ t.length) : known_method (t ++ r) = known_method t := by
  have h0 : ∀ text : String, (text.toList.map chr).all method_char = true →
      has (t ++ r) 0 text = has t 0 text := fun _ htext => has_item hr (Nat.zero_le _) htext
  have h1 : ∀ text : String, (text.toList.map chr).all method_char = true →
      has (t ++ r) 1 text = has t 1 text := fun _ htext => has_item hr (by omega) htext
  have h2' : ∀ text : String, (text.toList.map chr).all method_char = true →
      has (t ++ r) 2 text = has t 2 text := fun _ htext => has_item hr h2 htext
  have hR : (has t 2 "fe" && (t ++ r)[4]? == some (chr 'R')) = (has t 2 "fe" && t[4]? == some (chr 'R')) := by
    by_cases hfe : has t 2 "fe" = true
    · obtain ⟨x, y, hxy, hx⟩ := has_iff.1 hfe
      have hx2 := congrArg List.length hx
      have hlen := congrArg List.length hxy
      rw [length_map] at hx2
      rw [length_drop, length_append, hx2] at hlen
      have h4 : 4 ≤ t.length := by
        have : ("fe".toList.map chr).length = 2 := rfl
        omega
      rcases Nat.lt_or_eq_of_le h4 with h4 | h4
      · rw [getElem?_append_left h4]
      · have hne : (t ++ r)[4]? ≠ some (chr 'R') := by
          rw [getElem?_append_right (Nat.le_of_eq h4.symm), ← h4, Nat.sub_self, ← head?_eq_getElem?]
          intro he
          exact absurd (hr _ he) (by decide)
        have hne' : t[4]? ≠ some (chr 'R') := by
          rw [getElem?_eq_none (Nat.le_of_eq h4.symm)]
          exact fun he => by cases he
        rw [beq_false_of_ne hne, beq_false_of_ne hne']
    · rw [Bool.eq_false_iff.2 hfe]
      rfl
  unfold known_method
  rw [h0 "a" (by decide), h0 "b" (by decide), h0 "c" (by decide),
    h0 "i" (by decide), h0 "m" (by decide), h0 "n" (by decide),
    h0 "o" (by decide), h0 "p" (by decide), h0 "r" (by decide),
    h0 "s" (by decide), h0 "u" (by decide),
    h1 "ck" (by decide), h1 "ye" (by decide), h1 "ancel" (by decide),
    h1 "essage" (by decide), h1 "otify" (by decide), h1 "ptions" (by decide),
    h1 "rack" (by decide), h1 "ublish" (by decide), h1 "e" (by decide),
    h1 "ubscribe" (by decide), h1 "pdate" (by decide),
    h2' "fo" (by decide), h2' "vite" (by decide), h2' "fe" (by decide),
    h2' "gister" (by decide), hR]

/-- `unknown` stops behind an element. -/
theorem unknown_loop_item (n : ℕ) (h : ∀ c ∈ t, method_char c = true) (hr : Ends r) :
    unknown_loop n (t ++ r) = some (n + t.length) := by
  induction t generalizing n with
  | nil =>
    cases r with
    | nil => rfl
    | cons c r => exact if_pos (hr c rfl)
  | cons c t ih =>
    have hc := h c mem_cons_self
    rw [cons_append, unknown_loop, if_neg (Bool.eq_false_iff.1 (item_not_end hc)), if_pos hc,
      ih _ fun d hd => h d (mem_cons_of_mem c hd), length_cons]
    congr 1
    omega

theorem parse_known_item (hr : Ends r) (h : known_method (t ++ r) = some (m, t.length)) :
    parse_method (t ++ r) = some (t.length, m) := by
  rw [parse_method, h]
  dsimp only
  rw [getElem?_append_right (le_rfl), Nat.sub_self, ← head?_eq_getElem?]
  cases hc : r.head? with
  | none => rfl
  | some c => exact if_pos (hr c hc)

theorem parse_longer_item (ht : ∀ c ∈ t.drop n, method_char c = true) (hr : Ends r)
    (h : known_method (t ++ r) = some (m, n)) (hn : n < t.length) :
    parse_method (t ++ r) = some (t.length, METHOD_OTHER) := by
  have hmem : t[n] ∈ t.drop n := by
    rw [drop_eq_getElem_cons hn]
    exact mem_cons_self
  have hc := item_not_end (ht _ hmem)
  rw [parse_method, h]
  dsimp only
  rw [getElem?_append_left hn, getElem?_eq_getElem hn]
  dsimp only
  rw [if_neg (Bool.eq_false_iff.1 hc), drop_append_of_le_length (le_of_lt hn),
    unknown_loop_item n ht hr, length_drop,
    Nat.add_sub_cancel' (le_of_lt hn)]
  rfl

theorem parse_unknown_item (ht : Item t) (hr : Ends r) (h : known_method (t ++ r) = none) :
    parse_method (t ++ r) = some (t.length, METHOD_OTHER) := by
  rw [parse_method, h]
  dsimp only
  rw [drop_zero, unknown_loop_item 0 ht.2 hr, zero_add]
  rfl

theorem ends_nil : Ends [] := fun _ h => by cases h

/-- **An element is read alone**, when the same is known of it there. -/
theorem parse_item (ht : Item t) (hr : Ends r) (h : known_method (t ++ r) = known_method t) :
    parse_method (t ++ r) = some (t.length, value t) := by
  have hboth : ∀ x, parse_method (t ++ r) = some (t.length, x) → parse_method t = some (t.length, x) →
      parse_method (t ++ r) = some (t.length, value t) := by
    intro x h1 h2
    rw [h1, value, h2]
    rfl
  have happ : t = t ++ [] := (append_nil t).symm
  cases hk : known_method t with
  | none =>
    rw [hk] at h
    refine hboth METHOD_OTHER (parse_unknown_item ht hr h) ?_
    rw [happ] at hk
    have := parse_unknown_item ht ends_nil hk
    rwa [← happ] at this
  | some x =>
    obtain ⟨m, n⟩ := x
    rw [hk] at h
    obtain ⟨hle, -⟩ := known_sound t m n hk
    rcases Nat.lt_or_eq_of_le hle with hn | rfl
    · have hrest : ∀ c ∈ t.drop n, method_char c = true := fun c hc => ht.2 c (mem_of_mem_drop hc)
      refine hboth METHOD_OTHER (parse_longer_item hrest hr h hn) ?_
      rw [happ] at hk
      have := parse_longer_item hrest ends_nil hk hn
      rwa [← happ] at this
    · exact hboth m (parse_known_item hr h) (parse_known hk)

theorem has_first (c : UInt8) (r : Str) (text : String) (hlen : text.length = 1) :
    has (c :: r) 0 text = ([tolower c] == text.toList.map chr) := by
  rw [has, hlen]
  rfl

/-- A single character, behind which nothing is looked for unless it is an `i`. -/
theorem known_single (hr : Ends r) (hi : tolower c ≠ chr 'i') : known_method (c :: r) = none := by
  have hi' : has (c :: r) 0 "i" = false := by
    refine beq_false_of_ne fun he => hi ?_
    exact (cons.inj he).1
  have h1 : ∀ text : String, (text.toList.map chr).all method_char = true → 0 < text.length →
      has (c :: r) 1 text = false := by
    intro text htext hne
    have hnil : has [c] 1 text = false := by
      refine beq_false_of_ne fun he => ?_
      have := congrArg List.length he
      rw [length_map, length_map, String.length_toList, length_take] at this
      simp at this
      omega
    exact (has_item (t := [c]) hr (le_rfl) htext).trans hnil
  unfold known_method
  rw [hi', h1 "ck" (by decide) (by decide), h1 "ye" (by decide) (by decide),
    h1 "ancel" (by decide) (by decide), h1 "essage" (by decide) (by decide),
    h1 "otify" (by decide) (by decide), h1 "ptions" (by decide) (by decide),
    h1 "rack" (by decide) (by decide), h1 "ublish" (by decide) (by decide),
    h1 "e" (by decide) (by decide), h1 "ubscribe" (by decide) (by decide),
    h1 "pdate" (by decide) (by decide)]
  simp only [Bool.false_eq_true, if_false, ite_self]

/-- Behind an `i`. -/
theorem known_i (hc : tolower c = chr 'i') (a : UInt8) (r : Str) : known_method (c :: a :: r) =
    if has r 0 "fo" then some (METHOD_INFO, 4)
    else if has r 0 "vite" then some (METHOD_INVITE, 6) else none := by
  rw [known_method, has_first _ _ _ rfl, has_first _ _ _ rfl, has_first _ _ _ rfl, has_first _ _ _ rfl, hc]
  rfl

theorem known_i_alone (hc : tolower c = chr 'i') : known_method [c] = none := by
  rw [known_method, has_first _ _ _ rfl, has_first _ _ _ rfl, has_first _ _ _ rfl, has_first _ _ _ rfl, hc]
  rfl

theorem known_fv (hc : tolower c = chr 'f' ∨ tolower c = chr 'v') : known_method (c :: r) = none := by
  unfold known_method
  simp only [has_first c r "a" rfl, has_first c r "b" rfl,
    has_first c r "c" rfl, has_first c r "i" rfl, has_first c r "m" rfl,
    has_first c r "n" rfl, has_first c r "o" rfl, has_first c r "p" rfl,
    has_first c r "r" rfl, has_first c r "s" rfl, has_first c r "u" rfl]
  rcases hc with hc | hc
  · rw [hc]
    rfl
  · rw [hc]
    rfl

end Context

section Loop

variable {t t' r s w : Str} {b b' : Bool} {ts : List (Str × Bool)}

/-- What stands behind an element of a list. -/
def After (r : Str) (b : Bool) (ts : List (Str × Bool)) : Prop :=
  ts = [] ∧ b = false ∧ Blanks r ∨ ∃ w w' s, r = w ++ chr ',' :: (w' ++ s) ∧ Blanks w ∧ Blanks w' ∧
    (b = true ↔ w = [] ∧ w' = []) ∧ MethodList s ts

theorem MethodList.after (h : MethodList s ((t, b) :: ts)) : ∃ r, s = t ++ r ∧ Item t ∧ After r b ts := by
  cases h with
  | last ht hw => exact ⟨_, rfl, ht, .inl ⟨rfl, rfl, hw⟩⟩
  | more ht hw hw' hb h => exact ⟨_, rfl, ht, .inr ⟨_, _, _, rfl, hw, hw', hb, h⟩⟩

theorem MethodList.head (h : MethodList s ts) : ∃ t b ts', ts = (t, b) :: ts' := by
  cases h with
  | last => exact ⟨_, _, _, rfl⟩
  | more => exact ⟨_, _, _, rfl⟩

theorem ends_lws {c : UInt8} : lws c = true → ends_method c = true :=
  forall_char (p := fun c => lws c = true → ends_method c = true) (by decide) c

theorem Blanks.ends (h : Blanks w) {c : UInt8} (hc : ends_method c = true) : Ends (w ++ c :: r) := by
  intro a ha
  cases w with
  | nil =>
    obtain rfl := some.inj ha
    exact hc
  | cons d w =>
    obtain rfl := some.inj ha
    exact ends_lws (h d mem_cons_self)

theorem After.ends (h : After r b ts) : Ends r := by
  rcases h with ⟨-, -, h⟩ | ⟨w, w', s, rfl, hw, -⟩
  · intro c hc
    cases r with
    | nil => cases hc
    | cons d r =>
      obtain rfl := some.inj hc
      exact ends_lws (h d mem_cons_self)
  · exact hw.ends (by decide)

theorem item_no_lws {c : UInt8} : method_char c = true → lws c = false :=
  forall_char (p := fun c => method_char c = true → lws c = false) (by decide) c

theorem dropWhile_list (hw : Blanks w) (h : MethodList s ts) : (w ++ s).dropWhile lws = s := by
  obtain ⟨t, b, ts', rfl⟩ := h.head
  obtain ⟨r, rfl, ht, -⟩ := h.after
  rw [dropWhile_append_of_pos hw]
  cases t with
  | nil => exact absurd rfl ht.1
  | cons c t =>
    rw [cons_append, dropWhile_cons_of_neg]
    exact Bool.eq_false_iff.1 (item_no_lws (ht.2 c mem_cons_self))

theorem next_after (h : After r b ts) (methods : ℕ) :
    (ts = [] → parse_methods_next methods r = some methods) ∧
      ∀ x, (∀ s, MethodList s ts → parse_methods_loop methods s = some x) → ts ≠ [] →
        parse_methods_next methods r = some x := by
  rcases h with ⟨rfl, -, hr⟩ | ⟨w, w', s, rfl, hw, hw', -, hs⟩
  · refine ⟨fun _ => ?_, fun x _ hne => absurd rfl hne⟩
    rw [parse_methods_next, dropWhile_eq_nil_iff.2 hr]
  · refine ⟨fun hts => ?_, fun x hx _ => ?_⟩
    · obtain ⟨t, b, ts', h⟩ := hs.head
      rw [hts] at h
      cases h
    · have hcomma : lws (chr ',') = false := by decide
      rw [parse_methods_next, dropWhile_append_of_pos hw,
        dropWhile_cons_of_neg (Bool.eq_false_iff.1 hcomma)]
      dsimp only
      rw [if_neg (by decide), if_pos rfl, dropWhile_list hw' hs]
      exact hx s hs

/-- An element that is not the `i` of a pair. -/
theorem pairs_alone (h : b = true → same_case t ("I".toList.map chr) → ∀ t' b' ts', ts = (t', b') :: ts' →
    ¬ same_case t' ("FO".toList.map chr) ∧ ¬ same_case t' ("VITE".toList.map chr)) :
    pairs ((t, b) :: ts) = (value t :: (pairs ts).1, (pairs ts).2) := by
  cases b with
  | false =>
    rw [pairs]
    exact fun _ _ _ _ h => absurd h Bool.false_ne_true
  | true =>
    cases ts with
    | nil => rfl
    | cons x ts =>
      obtain ⟨t', b'⟩ := x
      have hno := fun hi => h rfl hi t' b' ts rfl
      rw [pairs, if_neg fun hh => (hno hh.1).1 hh.2, if_neg fun hh => (hno hh.1).2 hh.2]

/-- The methods that are read. -/
def read (ts : List (Str × Bool)) : ℕ := any_of (pairs ts).1 ||| any_of (pairs ts).2

theorem any_of_cons (m : ℕ) (ms : List ℕ) : any_of (m :: ms) = m ||| any_of ms := rfl

theorem read_cons (hp : pairs ((t, b) :: ts) = (value t :: (pairs ts).1, (pairs ts).2)) :
    read ((t, b) :: ts) = value t ||| read ts := by
  rw [read, hp]
  exact Nat.or_assoc _ _ _

theorem next_read {methods : ℕ} (ha : After r b ts)
    (ih : ∀ methods s, MethodList s ts → parse_methods_loop methods s = some (methods ||| read ts)) :
    parse_methods_next methods r = some (methods ||| read ts) := by
  obtain ⟨h1, h2⟩ := next_after ha methods
  by_cases hts : ts = []
  · rw [h1 hts, hts]
    exact congrArg some (Nat.or_zero _).symm
  · exact h2 _ (fun s hs => ih _ s hs) hts

theorem loop_alone {methods : ℕ} (ht : Item t) (ha : After r b ts) (hk : known_method (t ++ r) = known_method t)
    (hp : pairs ((t, b) :: ts) = (value t :: (pairs ts).1, (pairs ts).2))
    (ih : ∀ methods s, MethodList s ts → parse_methods_loop methods s = some (methods ||| read ts)) :
    parse_methods_loop methods (t ++ r) = some (methods ||| read ((t, b) :: ts)) := by
  have hne : t ++ r ≠ [] := fun h => ht.1 (append_eq_nil_iff.1 h).1
  rw [parse_methods_loop_eq hne (parse_item ht ha.ends hk), drop_left, next_read ha ih, read_cons hp,
    ← Nat.or_assoc]

theorem value_unknown (ht : Item t) (hk : known_method t = none) : value t = METHOD_OTHER := by
  have h := parse_unknown_item (r := []) ht ends_nil (by rw [append_nil]; exact hk)
  rw [append_nil] at h
  rw [value, h]
  rfl

/-- What the tests behind an `i` find is the next element, right behind a comma. -/
theorem behind_i {a c : UInt8} {x z : Str} {text : String} (h : After (a :: x) b ts)
    (htext : text.toList.map chr = c :: z) (hc : method_char c = true)
    (hx : has x 0 text = true) : a = chr ',' ∧ b = true ∧ MethodList x ts := by
  obtain ⟨u, y, hd, hu⟩ := has_iff.1 hx
  rw [drop_zero] at hd
  have hfirst : ∃ d y', x = d :: y' ∧ method_char d = true := by
    cases u with
    | nil =>
      rw [htext] at hu
      cases hu
    | cons d u =>
      rw [htext] at hu
      refine ⟨d, u ++ y, hd, ?_⟩
      rw [← method_char_tolower, (cons.inj hu).1]
      exact hc
  obtain ⟨d, y', rfl, hd'⟩ := hfirst
  have hno : ∀ {w z : Str}, d :: y' = w ++ z → Blanks w → w = [] := by
    intro w z hwz hw
    cases w with
    | nil => rfl
    | cons e w =>
      obtain rfl := (cons.inj hwz).1
      have := hw d mem_cons_self
      rw [item_no_lws hd'] at this
      cases this
  rcases h with ⟨-, -, hr⟩ | ⟨w, w', s, hr, hw, hw', hb, hs⟩
  · have := hr d (mem_cons_of_mem a mem_cons_self)
    rw [item_no_lws hd'] at this
    cases this
  · cases w with
    | nil =>
      obtain ⟨ha, hr⟩ := cons.inj (show a :: d :: y' = chr ',' :: (w' ++ s) from hr)
      obtain rfl := hno hr hw'
      rw [show d :: y' = s from hr]
      exact ⟨ha, hb.2 ⟨rfl, rfl⟩, hs⟩
    | cons e w =>
      obtain ⟨-, hr⟩ := cons.inj (show a :: d :: y' = e :: (w ++ chr ',' :: (w' ++ s)) from hr)
      have hw0 := hno hr fun c hc => hw c (mem_cons_of_mem e hc)
      rw [hw0, nil_append] at hr
      rw [(cons.inj hr).1] at hd'
      exact absurd hd' (by decide)

/-- The pair of an `i` and the next element is read as one. -/
theorem loop_pair {methods m n : ℕ} {i : UInt8} {u v : Str} (hi : tolower i = chr 'i')
    (ht : Item (u ++ v)) (hfv : ∃ c x, u = c :: x ∧ (tolower c = chr 'f' ∨ tolower c = chr 'v'))
    (hn : n = 2 + u.length) (ha : After r b' ts)
    (hk : known_method (i :: chr ',' :: ((u ++ v) ++ r)) = some (m, n))
    (hp : pairs (([i], true) :: (u ++ v, b') :: ts) = if v = [] then ((pairs ts).1, m :: (pairs ts).2)
      else (value [i] :: (pairs ((u ++ v, b') :: ts)).1, (pairs ((u ++ v, b') :: ts)).2))
    (ih : ∀ methods s, MethodList s ts → parse_methods_loop methods s = some (methods ||| read ts)) :
    parse_methods_loop methods (i :: chr ',' :: ((u ++ v) ++ r)) =
      some (methods ||| read (([i], true) :: (u ++ v, b') :: ts)) := by
  obtain ⟨x, hx⟩ : ∃ x, x = i :: chr ',' :: (u ++ v) := ⟨_, rfl⟩
  have hxr : i :: chr ',' :: ((u ++ v) ++ r) = x ++ r := by rw [hx]; rfl
  have hlen : x.length = 2 + u.length + v.length := by
    rw [hx, length_cons, length_cons, length_append]
    omega
  have hne : x ++ r ≠ [] := by
    rw [← hxr]
    exact cons_ne_nil _ _
  rw [hxr] at hk ⊢
  by_cases hv : v = []
  · rw [hv, length_nil, add_zero, ← hn] at hlen
    rw [← hlen] at hk
    rw [parse_methods_loop_eq hne (parse_known_item ha.ends hk), drop_left, next_read ha ih, read, read,
      hp, if_pos hv, any_of_cons, Nat.or_assoc, ← Nat.or_assoc m, Nat.or_comm m, Nat.or_assoc]
  · have hlt : n < x.length := by
      have := length_pos_of_ne_nil hv
      omega
    have hdrop : x.drop n = v := by
      rw [hx, hn, add_comm, drop_succ_cons, drop_succ_cons, drop_left]
    have hchars : ∀ c ∈ x.drop n, method_char c = true := by
      rw [hdrop]
      exact fun c hc => ht.2 c (mem_append_right u hc)
    obtain ⟨c, y, rfl, hc⟩ := hfv
    have hi1 : Item [i] := by
      refine ⟨cons_ne_nil _ _, fun d hd => ?_⟩
      obtain rfl := mem_singleton.1 hd
      rw [← method_char_tolower, hi]
      decide
    have halone : pairs ((c :: y ++ v, b') :: ts) = (value (c :: y ++ v) :: (pairs ts).1, (pairs ts).2) := by
      refine pairs_alone fun _ hI => ?_
      have hc' : tolower c = chr 'i' := (cons.inj hI).1
      rcases hc with hc | hc
      · rw [hc] at hc'
        exact absurd hc' (by decide)
      · rw [hc] at hc'
        exact absurd hc' (by decide)
    have hread : read (([i], true) :: (c :: y ++ v, b') :: ts) =
        METHOD_OTHER ||| (METHOD_OTHER ||| read ts) := by
      rw [read_cons (by rw [hp, if_neg hv]), read_cons halone, value_unknown hi1 (known_i_alone hi),
        value_unknown ht (known_fv hc)]
    rw [parse_methods_loop_eq hne (parse_longer_item hchars ha.ends hk hlt), drop_left, next_read ha ih,
      hread, ← Nat.or_assoc METHOD_OTHER, Nat.or_self, Nat.or_assoc]

/-- An `i` behind which no name is found is no part of a pair. -/
theorem pairs_i {i : UInt8} (ha : After r b ts) (hfo : ∀ a x, r = a :: x → has x 0 "fo" = false)
    (hvite : ∀ a x, r = a :: x → has x 0 "vite" = false) :
    pairs (([i], b) :: ts) = (value [i] :: (pairs ts).1, (pairs ts).2) := by
  refine pairs_alone fun hb _ t' b' ts' hts => ?_
  rcases ha with ⟨rfl, -, -⟩ | ⟨w, w', s, rfl, -, -, hb', hs⟩
  · cases hts
  · obtain ⟨rfl, rfl⟩ := hb'.1 hb
    subst hts
    obtain ⟨r', rfl, -, -⟩ := hs.after
    constructor
    · intro h
      have := hfo (chr ',') (t' ++ r') rfl
      rw [has_iff.2 ⟨t', r', drop_zero, h.trans (by decide)⟩] at this
      cases this
    · intro h
      have := hvite (chr ',') (t' ++ r') rfl
      rw [has_iff.2 ⟨t', r', drop_zero, h.trans (by decide)⟩] at this
      cases this

theorem pairs_fo {i : UInt8} {u v : Str} (hI : same_case [i] ("I".toList.map chr))
    (hu : u.map tolower = "fo".toList.map chr) : pairs (([i], true) :: (u ++ v, b') :: ts) =
      if v = [] then ((pairs ts).1, METHOD_INFO :: (pairs ts).2)
      else (value [i] :: (pairs ((u ++ v, b') :: ts)).1, (pairs ((u ++ v, b') :: ts)).2) := by
  have h2 : u.length = 2 := by
    have := congrArg List.length hu
    rwa [length_map] at this
  rw [pairs]
  by_cases hv : v = []
  · rw [hv, append_nil, if_pos ⟨hI, hu.trans (by decide)⟩, if_pos rfl]
  · have hpos := length_pos_of_ne_nil hv
    have hlen : (u ++ v).length = 2 + v.length := by rw [length_append, h2]
    rw [if_neg hv, if_neg, if_neg]
    · rintro ⟨-, h⟩
      have hvite : (u ++ v).map tolower = "vite".toList.map chr := h.trans (by decide)
      have htake := congrArg (List.take 2) hvite
      rw [map_append, take_left' (by rw [length_map, h2]), hu] at htake
      exact absurd htake (by decide)
    · rintro ⟨-, h⟩
      have : (u ++ v).length = 2 := h.length_eq
      omega

theorem pairs_vite {i : UInt8} {u v : Str} (hI : same_case [i] ("I".toList.map chr))
    (hu : u.map tolower = "vite".toList.map chr) : pairs (([i], true) :: (u ++ v, b') :: ts) =
      if v = [] then ((pairs ts).1, METHOD_INVITE :: (pairs ts).2)
      else (value [i] :: (pairs ((u ++ v, b') :: ts)).1, (pairs ((u ++ v, b') :: ts)).2) := by
  have h4 : u.length = 4 := by
    have := congrArg List.length hu
    rwa [length_map] at this
  have hlen : (u ++ v).length = 4 + v.length := by rw [length_append, h4]
  have hfo : ¬ (same_case [i] ("I".toList.map chr) ∧ same_case (u ++ v) ("FO".toList.map chr)) := by
    rintro ⟨-, h⟩
    have : (u ++ v).length = 2 := h.length_eq
    omega
  rw [pairs, if_neg hfo]
  by_cases hv : v = []
  · rw [hv, append_nil, if_pos ⟨hI, hu.trans (by decide)⟩, if_pos rfl]
  · have hpos := length_pos_of_ne_nil hv
    rw [if_neg hv, if_neg]
    rintro ⟨-, h⟩
    have : (u ++ v).length = 4 := h.length_eq
    omega

/-- An `i` and what is found behind it. -/
theorem loop_i {methods m : ℕ} {i a d : UInt8} {x y : Str} {text : String} (hi : tolower i = chr 'i')
    (ha : After (a :: x) b ts) (hx : has x 0 text = true) (htext : text.toList.map chr = d :: y)
    (hd : d = chr 'f' ∨ d = chr 'v') (hchars : (text.toList.map chr).all method_char = true)
    (hknown : known_method (i :: a :: x) = some (m, 2 + text.length))
    (hp : ∀ u v b' ts, u.map tolower = text.toList.map chr → pairs (([i], true) :: (u ++ v, b') :: ts) =
      if v = [] then ((pairs ts).1, m :: (pairs ts).2)
      else (value [i] :: (pairs ((u ++ v, b') :: ts)).1, (pairs ((u ++ v, b') :: ts)).2))
    (ih : ∀ methods s ts', ts'.length < ts.length → MethodList s ts' →
      parse_methods_loop methods s = some (methods ||| read ts')) :
    parse_methods_loop methods (i :: a :: x) = some (methods ||| read (([i], b) :: ts)) := by
  have hd' : method_char d = true := List.all_eq_true.1 hchars d (htext ▸ mem_cons_self)
  obtain ⟨rfl, rfl, hlist⟩ := behind_i ha htext hd' hx
  obtain ⟨t', b', ts', rfl⟩ := hlist.head
  obtain ⟨r', rfl, ht', ha'⟩ := hlist.after
  rw [has_item ha'.ends (Nat.zero_le _) hchars] at hx
  obtain ⟨u, v, huv, hu⟩ := has_iff.1 hx
  rw [drop_zero] at huv
  subst huv
  have hulen : u.length = text.length := by
    have := congrArg List.length hu
    rwa [length_map, length_map, String.length_toList] at this
  refine loop_pair hi ht' ?_ (by rw [hulen]) ha' hknown (hp u v b' ts' hu) fun methods s hs =>
    ih methods s ts' (Nat.lt_succ_self _) hs
  cases u with
  | nil =>
    rw [htext] at hu
    cases hu
  | cons c u =>
    refine ⟨c, u, rfl, ?_⟩
    rw [htext] at hu
    rw [(cons.inj hu).1]
    exact hd

/-- **The loop on a list.** -/
theorem loop_spec (h : MethodList s ts) (methods : ℕ) :
    parse_methods_loop methods s = some (methods ||| read ts) := by
  induction hlen : ts.length using Nat.strong_induction_on generalizing s ts methods with
  | _ n ih =>
    obtain ⟨t, b, rest, rfl⟩ := h.head
    obtain ⟨r, rfl, ht, ha⟩ := h.after
    rw [length_cons] at hlen
    have ih1 : ∀ methods s, MethodList s rest → parse_methods_loop methods s = some (methods ||| read rest) :=
      fun methods s hs => ih _ (by omega) hs methods rfl
    have ih2 : ∀ methods s ts', ts'.length < rest.length → MethodList s ts' →
        parse_methods_loop methods s = some (methods ||| read ts') :=
      fun methods s ts' hlt hs => ih _ (by omega) hs methods rfl
    have hlong : ∀ x : Str, x.length = 1 → 2 ≤ t.length → ¬ same_case t x := fun x hx h2 hs => by
      have := hs.length_eq
      omega
    cases t with
    | nil => exact absurd rfl ht.1
    | cons i t =>
    cases t with
    | cons d t =>
      have h2 : 2 ≤ (i :: d :: t).length := Nat.le_add_left 2 _
      exact loop_alone ht ha (known_item ha.ends h2) (pairs_alone fun _ hI => absurd hI (hlong _ rfl h2)) ih1
    | nil =>
    by_cases hi : tolower i = chr 'i'
    · have hI : same_case [i] ("I".toList.map chr) := congrArg (fun c => [c]) hi
      cases r with
      | nil =>
        exact loop_alone ht ha rfl (pairs_i ha (fun a x hx => by cases hx) fun a x hx => by cases hx) ih1
      | cons a x =>
      have hknown := known_i hi a x
      by_cases hfo : has x 0 "fo" = true
      · rw [if_pos hfo] at hknown
        exact loop_i hi ha hfo rfl (.inl rfl) (by decide) hknown (fun u v b' ts hu => pairs_fo hI hu) ih2
      rw [if_neg hfo] at hknown
      by_cases hvite : has x 0 "vite" = true
      · rw [if_pos hvite] at hknown
        exact loop_i hi ha hvite rfl (.inr rfl) (by decide) hknown (fun u v b' ts hu => pairs_vite hI hu) ih2
      rw [if_neg hvite] at hknown
      refine loop_alone ht ha (hknown.trans (known_i_alone hi).symm) (pairs_i ha ?_ ?_) ih1
      · rintro a' x' hax
        obtain ⟨-, rfl⟩ := cons.inj hax
        exact Bool.eq_false_iff.2 hfo
      · rintro a' x' hax
        obtain ⟨-, rfl⟩ := cons.inj hax
        exact Bool.eq_false_iff.2 hvite
    · refine loop_alone ht ha ?_ (pairs_alone fun _ hI => absurd (cons.inj hI).1 hi) ih1
      rw [known_single ends_nil hi]
      exact known_single ha.ends hi

end Loop

section Values

variable {t s w : Str} {b : Bool} {ts : List (Str × Bool)} {ms : List ℕ} {k : ℕ}

theorem MethodList.items (h : MethodList s ts) : ∀ x ∈ ts, Item x.1 := by
  induction h with
  | last ht hw => exact fun x hx => mem_singleton.1 hx ▸ ht
  | more ht hw hw' hb h ih => exact forall_mem_cons.2 ⟨ht, ih⟩

theorem known_power : ∀ N ∈ names, ∃ k, N.2 = 2 ^ k := by
  have hall : ∀ N ∈ names, ∃ k < 15, N.2 = 2 ^ k := by decide
  exact fun N hN => (hall N hN).imp fun k hk => hk.2

theorem value_power (ht : Item t) : ∃ k, value t = 2 ^ k := by
  have hother : ∃ k, METHOD_OTHER = 2 ^ k := ⟨14, rfl⟩
  cases hk : known_method t with
  | none =>
    rw [value_unknown ht hk]
    exact hother
  | some x =>
    obtain ⟨m, n⟩ := x
    obtain ⟨hle, hknown⟩ := known_sound t m n hk
    rcases Nat.lt_or_eq_of_le hle with hn | rfl
    · have h := parse_longer hk ht.token.2 hn
      rw [if_pos fun c hc => ht.2 c (mem_of_mem_drop hc)] at h
      rw [value, h]
      exact hother
    · rw [value, parse_known hk]
      show ∃ k, m = 2 ^ k
      cases hknown with
      | name N hN hm hn h => exact hm ▸ known_power N hN
      | skips v h hv =>
        obtain ⟨m', n', hk', -, hcases⟩ := h.known
        rw [hk] at hk'
        rw [(Prod.mk.inj (some.inj hk')).1]
        rcases hcases with ⟨rfl, -⟩ | ⟨rfl, -⟩
        · exact ⟨4, rfl⟩
        · exact ⟨0, rfl⟩

theorem testBit_any_of (ms : List ℕ) (k : ℕ) : (any_of ms).testBit k = true ↔ ∃ m ∈ ms, m.testBit k = true := by
  induction ms with
  | nil => simp [any_of]
  | cons m ms ih => rw [any_of_cons, Nat.testBit_or, Bool.or_eq_true, ih, exists_mem_cons_iff]

theorem testBit_powers (h : ∀ m ∈ ms, ∃ j, m = 2 ^ j) : (any_of ms).testBit k = true ↔ 2 ^ k ∈ ms := by
  rw [testBit_any_of]
  constructor
  · rintro ⟨m, hm, hk⟩
    obtain ⟨j, rfl⟩ := h m hm
    rw [Nat.testBit_two_pow, decide_eq_true_eq] at hk
    exact hk ▸ hm
  · exact fun hm => ⟨_, hm, by rw [Nat.testBit_two_pow, decide_eq_true_eq]⟩

/-- What the two parts of `pairs` are. -/
structure Split (ts : List (Str × Bool)) : Prop where
  powers : ∀ m ∈ (pairs ts).1, ∃ k, m = 2 ^ k
  methods : ∀ m ∈ (pairs ts).2, m = METHOD_INFO ∨ m = METHOD_INVITE
  values : any_of (ts.map fun x => value x.1) =
    any_of (pairs ts).1 ||| if (pairs ts).2 = [] then 0 else METHOD_OTHER

theorem value_pair {t' : Str} (ht : Item t) (ht' : Item t') (hi : same_case t ("I".toList.map chr))
    (hfv : same_case t' ("FO".toList.map chr) ∨ same_case t' ("VITE".toList.map chr)) :
    value t = METHOD_OTHER ∧ value t' = METHOD_OTHER := by
  constructor
  · refine value_unknown ht ?_
    have hlen := hi.length_eq
    match t, hlen, hi with
    | [i], _, hi => exact known_i_alone (cons.inj hi).1
  · refine value_unknown ht' ?_
    cases t' with
    | nil => exact absurd rfl ht'.1
    | cons c t' =>
      rcases hfv with h | h
      · exact known_fv (.inl (cons.inj h).1)
      · exact known_fv (.inr (cons.inj h).1)

theorem Split.cons (h : Split ts) (ht : Item t)
    (hp : pairs ((t, b) :: ts) = (value t :: (pairs ts).1, (pairs ts).2)) : Split ((t, b) :: ts) := by
  refine ⟨?_, ?_, ?_⟩
  · rw [hp]
    exact forall_mem_cons.2 ⟨value_power ht, h.powers⟩
  · rw [hp]
    exact h.methods
  · rw [hp, map_cons, any_of_cons, h.values, any_of_cons, Nat.or_assoc]

theorem Split.pair {m : ℕ} {t' : Str} (h : Split ts) (hv : value t = METHOD_OTHER ∧ value t' = METHOD_OTHER)
    (hm : m = METHOD_INFO ∨ m = METHOD_INVITE) {b' : Bool}
    (hp : pairs ((t, b') :: (t', b) :: ts) = ((pairs ts).1, m :: (pairs ts).2)) :
    Split ((t, b') :: (t', b) :: ts) := by
  refine ⟨?_, ?_, ?_⟩
  · rw [hp]
    exact h.powers
  · rw [hp]
    exact forall_mem_cons.2 ⟨hm, h.methods⟩
  · rw [hp, map_cons, map_cons, any_of_cons, any_of_cons, h.values, hv.1, hv.2,
      if_neg (cons_ne_nil _ _), ← Nat.or_assoc METHOD_OTHER, Nat.or_self, Nat.or_comm METHOD_OTHER,
      Nat.or_assoc]
    split_ifs
    · rw [Nat.zero_or]
    · rw [Nat.or_self]

theorem split_nil : Split [] := ⟨fun m hm => (by cases hm), fun m hm => (by cases hm), rfl⟩

theorem split_spec (h : ∀ x ∈ ts, Item x.1) : Split ts := by
  induction hlen : ts.length using Nat.strong_induction_on generalizing ts with
  | _ n ih =>
    match ts, h, hlen with
    | [], _, _ => exact split_nil
    | [(t, b)], h, hlen =>
      have ht := h (t, b) mem_cons_self
      exact split_nil.cons ht (pairs_alone fun _ _ t' b' ts' hts => by cases hts)
    | (t, b) :: (t', b') :: ts, h, hlen =>
      have ht := h (t, b) mem_cons_self
      have hrest := fun x hx => h x (mem_cons_of_mem (t, b) hx)
      have ht' := hrest (t', b') mem_cons_self
      rw [length_cons, length_cons] at hlen
      have ih1 : Split ((t', b') :: ts) := ih _ (by rw [← hlen]; exact Nat.lt_succ_self _) hrest rfl
      have ih2 : Split ts := ih _ (by omega) (fun x hx => hrest x (mem_cons_of_mem _ hx)) rfl
      by_cases hp : b = true ∧ same_case t ("I".toList.map chr) ∧
          (same_case t' ("FO".toList.map chr) ∨ same_case t' ("VITE".toList.map chr))
      · obtain ⟨rfl, hi, hfv⟩ := hp
        have hv := value_pair ht ht' hi hfv
        by_cases hfo : same_case t' ("FO".toList.map chr)
        · exact ih2.pair hv (.inl rfl) (by rw [pairs, if_pos ⟨hi, hfo⟩])
        · exact ih2.pair hv (.inr rfl)
            (by rw [pairs, if_neg fun hh => hfo hh.2, if_pos ⟨hi, hfv.resolve_left hfo⟩])
      · refine ih1.cons ht (pairs_alone fun hb hi t'' b'' ts'' hts => ?_)
        obtain ⟨hx, -⟩ := cons.inj hts
        obtain ⟨rfl, -⟩ := Prod.mk.inj hx
        exact ⟨fun hfo => hp ⟨hb, hi, .inl hfo⟩, fun hvite => hp ⟨hb, hi, .inr hvite⟩⟩

/-- **What is read is the OR of the tokens' values**, where no pair makes a difference. -/
theorem read_iff (h : ∀ x ∈ ts, Item x.1) : read ts = any_of (ts.map fun x => value x.1) ↔ Apart ts := by
  obtain ⟨hpow, hmeth, hval⟩ := split_spec h
  have hpow2 : ∀ m ∈ (pairs ts).2, ∃ k, m = 2 ^ k ∧ k ≠ 14 := fun m hm => by
    rcases hmeth m hm with rfl | rfl
    · exact ⟨4, rfl, by decide⟩
    · exact ⟨0, rfl, by decide⟩
  rw [hval, read, Apart]
  by_cases hnil : (pairs ts).2 = []
  · rw [if_pos hnil, hnil]
    exact iff_of_true rfl (.inl rfl)
  rw [if_neg hnil]
  constructor
  · intro heq
    refine .inr ⟨?_, fun m hm => ?_⟩
    · have hbit := congrArg (fun n => n.testBit 14) heq
      have h14 : METHOD_OTHER.testBit 14 = true := by decide
      rw [Nat.testBit_or, Nat.testBit_or, h14, Bool.or_true, Bool.or_eq_true, testBit_powers hpow,
        testBit_any_of] at hbit
      rcases hbit with hbit | ⟨m, hm, hbit⟩
      · exact hbit
      · obtain ⟨k, rfl, hk⟩ := hpow2 m hm
        rw [Nat.testBit_two_pow, decide_eq_true_eq] at hbit
        exact absurd hbit hk
    · obtain ⟨k, rfl, hk⟩ := hpow2 m hm
      have hbit := congrArg (fun n => n.testBit k) heq
      have hm' : (any_of (pairs ts).2).testBit k = true := (testBit_any_of _ _).2
        ⟨_, hm, by rw [Nat.testBit_two_pow, decide_eq_true_eq]⟩
      have hother : METHOD_OTHER.testBit k = false := by
        rw [show METHOD_OTHER = 2 ^ 14 from rfl, Nat.testBit_two_pow]
        exact decide_eq_false fun h => hk h.symm
      rw [Nat.testBit_or, Nat.testBit_or, hm', hother, Bool.or_true, Bool.or_false] at hbit
      exact (testBit_powers hpow).1 hbit.symm
  · rintro (h0 | ⟨hother, hall⟩)
    · exact absurd h0 hnil
    · refine Nat.eq_of_testBit_eq fun k => ?_
      rw [Nat.testBit_or, Nat.testBit_or, Bool.eq_iff_iff, Bool.or_eq_true, Bool.or_eq_true]
      constructor
      · rintro (hk | hk)
        · exact .inl hk
        · obtain ⟨m, hm, hk⟩ := (testBit_any_of _ _).1 hk
          exact .inl ((testBit_any_of _ _).2 ⟨m, hall m hm, hk⟩)
      · rintro (hk | hk)
        · exact .inl hk
        · exact .inl ((testBit_any_of _ _).2 ⟨_, hother, hk⟩)

theorem parse_methods_list (hw : Blanks w) (h : MethodList s ts) :
    parse_methods (w ++ s) = some (any_of (ts.map fun x => value x.1)) ↔ Apart ts := by
  rw [parse_methods, dropWhile_list hw h, loop_spec h, Nat.zero_or, some.injEq]
  exact read_iff h.items

end Values

section Recognition

variable {t y : Str} {n v : ℕ}

theorem fast_names : ∀ m ∈ fast_methods, m ∈ names ∧ m.1 ≠ "REFER".toList.map chr := by decide

theorem parse_length (ht : Token t) {m : ℕ × ℕ} (h : parse_method t = some m) : m.1 = t.length := by
  cases hk : known_method t with
  | none =>
    rw [parse_unknown hk ht.2] at h
    split_ifs at h
    rw [← some.inj h]
  | some x =>
    obtain ⟨value, k⟩ := x
    obtain ⟨hle, -⟩ := known_sound t value k hk
    rcases Nat.lt_or_eq_of_le hle with hn | rfl
    · rw [parse_longer hk ht.2 hn] at h
      split_ifs at h
      rw [← some.inj h]
    · rw [parse_known hk] at h
      rw [← some.inj h]

theorem version_word : Word SIP_VERSION :=
  have h : ∀ c ∈ SIP_VERSION, isToken c = true := List.all_eq_true.1 (by decide)
  h

/-- **The methods tried first are the ones that `parse_method` finds.** -/
theorem first_token_method (ht : Token t) :
    first_token (t ++ SPACE :: y) = .ok (.SIP_REQUEST, n, v) ↔ parse_method t = some (n, v) := by
  have hword : Word t := word_token ht.2
  have hsip : starts_with (t ++ SPACE :: y) SIP_VERSION = false := by
    refine Bool.eq_false_iff.2 fun hstart => ?_
    obtain ⟨x, y', hb, hcase⟩ := starts_with_iff.1 hstart
    obtain ⟨rfl, -⟩ := first_word hword (hcase.word version_word) hb
    exact not_version ht.2 hcase
  rw [first_token, if_neg (Bool.eq_false_iff.1 hsip)]
  cases hf : fast_methods.find? fun m => starts_with (t ++ SPACE :: y) m.1 with
  | some m =>
    have hmem := mem_of_find?_eq_some hf
    have hstart := find?_some hf
    obtain ⟨x, y', hb, hcase⟩ := starts_with_iff.1 hstart
    obtain ⟨rfl, -⟩ := first_word hword (hcase.word (word_fast hmem).1) hb
    obtain ⟨hname, hne⟩ := fast_names m hmem
    rw [parse_known (known_of_name hname hcase fun hr => absurd hr hne), hcase.length_eq]
    simp
  | none =>
    obtain ⟨hn, -, htake⟩ := eat_token_end_of (cut_cons hword (show isToken SPACE = false from rfl) (y := y))
    have hpos : ¬ t.length = 0 := fun h => ht.1 (length_eq_zero_iff.1 h)
    have hget : (t ++ SPACE :: y)[t.length]? = some SPACE := by
      rw [getElem?_append_right (le_rfl), Nat.sub_self]
      rfl
    rw [hn] at htake
    dsimp only
    rw [hn, if_neg hpos, hget, htake]
    dsimp only
    rw [if_neg (not_not.2 rfl)]
    cases hp : parse_method t with
    | none => simp
    | some m =>
      obtain ⟨k, value⟩ := m
      obtain rfl := parse_length ht hp
      simp

/-- **A token is a method by its name, in the first line and in a list**: both ways to read the first
token give the same; that is the method that the token names, but for the tokens that are misread or not
taken; and a list is the OR of its tokens, but for an `i` before a comma. -/
theorem method_recognition (t y w s : Str) (n v : ℕ) (ts : List (Str × Bool)) :
    (Token t → (first_token (t ++ SPACE :: y) = .ok (.SIP_REQUEST, n, v) ↔ parse_method t = some (n, v))) ∧
    (Token t → (parse_method t = some (t.length, method_of t) ↔ Readable t ∧ ¬ Misread t)) ∧
    (Blanks w → MethodList s ts →
      (parse_methods (w ++ s) = some (any_of (ts.map fun x => value x.1)) ↔ Apart ts)) :=
  ⟨first_token_method, parse_method_meets, parse_methods_list⟩

/-- `refer` is not REFER, `ixfo` is INFO, and so is the list of `i` and `fo`. -/
theorem refer_misread : (method_of ("refer".toList.map chr) = METHOD_REFER ∧
      parse_method ("refer".toList.map chr) = some (5, METHOD_OTHER)) ∧
    (method_of ("ixfo".toList.map chr) = METHOD_OTHER ∧
      parse_method ("ixfo".toList.map chr) = some (4, METHOD_INFO)) ∧
    (parse_method ("i".toList.map chr) = some (1, METHOD_OTHER) ∧
      parse_method ("fo".toList.map chr) = some (2, METHOD_OTHER) ∧
      parse_methods ("i,fo".toList.map chr) = some METHOD_INFO) ∧
    parse_method ("a!b".toList.map chr) = none := by
  refine ⟨⟨by decide, by decide⟩, ⟨by decide, by decide⟩, ⟨by decide, by decide, ?_⟩, by decide⟩
  have hd : ("i,fo".toList.map chr).dropWhile lws = "i,fo".toList.map chr := by decide
  have hp : parse_method ("i,fo".toList.map chr) = some (4, METHOD_INFO) := by decide
  have hr : ("i,fo".toList.map chr).drop 4 = [] := by decide
  rw [parse_methods, hd, parse_methods_loop_eq (by decide) hp, hr]
  rfl

theorem method_recognition_ack : parse_method ("Ack".toList.map chr) = some (3, METHOD_ACK) ∧
    first_token ("Ack".toList.map chr ++ SPACE :: []) = .ok (.SIP_REQUEST, 3, METHOD_ACK) ∧
    parse_methods (SPACE :: "Ack,i".toList.map chr) = some (METHOD_ACK ||| METHOD_OTHER) := by
  have ht : Token ("Ack".toList.map chr) := by
    have h : ∀ c ∈ "Ack".toList.map chr, token_char c = true := List.all_eq_true.1 (by decide)
    exact ⟨by decide, h⟩
  have hack : Item ("Ack".toList.map chr) := by
    have h : ∀ c ∈ "Ack".toList.map chr, method_char c = true := List.all_eq_true.1 (by decide)
    exact ⟨by decide, h⟩
  have hi : Item ("i".toList.map chr) := by
    have h : ∀ c ∈ "i".toList.map chr, method_char c = true := List.all_eq_true.1 (by decide)
    exact ⟨by decide, h⟩
  have hm : parse_method ("Ack".toList.map chr) = some (3, METHOD_ACK) := by decide
  obtain ⟨h1, h2, h3⟩ := method_recognition ("Ack".toList.map chr) [] [SPACE] ("Ack,i".toList.map chr) 3
    METHOD_ACK [("Ack".toList.map chr, true), ("i".toList.map chr, false)]
  refine ⟨?_, (h1 ht).2 hm, ?_⟩
  · refine (h2 ht).2 ⟨.inl hack.2, ?_⟩
    rintro (⟨⟨i, c, u, heq, hcase, -⟩, -, -⟩ | ⟨hcase, -⟩)
    · rw [← (cons.inj heq).1] at hcase
      exact absurd hcase (by decide)
    · exact absurd hcase (by decide)
  · have hlist : MethodList ("Ack,i".toList.map chr)
        [("Ack".toList.map chr, true), ("i".toList.map chr, false)] :=
      .more hack blanks_nil blanks_nil ⟨fun _ => ⟨rfl, rfl⟩, fun _ => rfl⟩ (.last hi blanks_nil)
    have hspace : Blanks [SPACE] := fun c hc => by
      obtain rfl := mem_singleton.1 hc
      rfl
    exact (h3 hspace hlist).2 (.inl rfl)

end Recognition

end OpenSips.FirstLine
