import OpenSips.Parser.Param

/-!
# OpenSips.Parser.Event — the Event header field (`parse_event.c`)

The package ends at white space or at a `;`.  The parameters are read when the `;` is the next character, and the
first of them tells `dialog;sla` from `dialog`.
-/

namespace OpenSips.ParseEvent

open Lib ParseParam Option
open List hiding tail
open FirstLine (tolower same_case)

inductive EventType where
  | EVENT_OTHER | EVENT_PRESENCE | EVENT_PRESENCE_WINFO | EVENT_SIP_PROFILE
  | EVENT_XCAP_CHANGE | EVENT_DIALOG | EVENT_MWI | EVENT_DIALOG_SLA
  deriving DecidableEq

/-- `event_t`, with the slices of the body. -/
structure Event where
  text : Span
  parsed : EventType
  params : List Param
  deriving DecidableEq

section Source

-- the byte behind the body
variable (past : UInt8)

def package_char (c : UInt8) : Bool := !(blank c || c == SEMICOLON)

/-- `skip_token`: how far. -/
def skip_token (s : Str) : ℕ := (s.takeWhile package_char).length

/-- `len == strlen(name) && !strncasecmp(name, s, len)` -/
def is_name (s : Str) (len : ℕ) (name : String) : Prop := len = name.length ∧ Named (s.take len) name

instance (s : Str) (len : ℕ) (name : String) : Decidable (is_name s len name) := inferInstanceAs (Decidable (_ ∧ _))

def package_of (s : Str) (len : ℕ) : EventType :=
  if is_name s len "presence" then .EVENT_PRESENCE
  else if is_name s len "xcap-change" then .EVENT_XCAP_CHANGE
  else if is_name s len "presence.winfo" then .EVENT_PRESENCE_WINFO
  else if is_name s len "sip-profile" then .EVENT_SIP_PROFILE
  else if is_name s len "dialog" then .EVENT_DIALOG
  else if is_name s len "message-summary" then .EVENT_MWI
  else .EVENT_OTHER

/-- `event_parser` of a body; `none` is -1. -/
def event_parser_body (s : Str) : Option Event :=
  let tmp := trim_leading ⟨0, s⟩
  if tmp.s = [] then none
  else
    let len := skip_token tmp.s
    let parsed := package_of tmp.s len
    if len < tmp.s.length ∧ (tmp.s.drop len).head? = some SEMICOLON then
      (parse_params_at past .CLASS_ANY (tmp.skip (len + 1))).map fun (_, params, _) =>
        if parsed = .EVENT_DIALOG ∧ ∃ t ∈ params.head?, is_name (s.drop t.name.pos) t.name.len "sla" then
          ⟨⟨tmp.pos, len⟩, .EVENT_DIALOG_SLA, params⟩
        else ⟨⟨tmp.pos, len⟩, parsed, params⟩
    else some ⟨⟨tmp.pos, len⟩, parsed, []⟩

end Source

section Grammar

def packages : List (String × EventType) :=
  [("presence", .EVENT_PRESENCE), ("presence.winfo", .EVENT_PRESENCE_WINFO), ("xcap-change", .EVENT_XCAP_CHANGE),
    ("sip-profile", .EVENT_SIP_PROFILE), ("message-summary", .EVENT_MWI), ("dialog", .EVENT_DIALOG)]

/-- The body of an Event header field: white space, the package, white space, and the parameters, each behind
a `;`. -/
structure EventBody where
  before : Str
  package : Str
  space : Str
  items : List Item

namespace EventBody

variable (b : EventBody)

def text : Str := b.before ++ (b.package ++ (b.space ++ tail b.items []))

structure Formed : Prop where
  before : Blanks b.before
  package : b.package ≠ [] ∧ ∀ c ∈ b.package, package_char c = true
  space : Blanks b.space
  items : ∀ x ∈ b.items, x.Formed

/-- Where the text of the first parameter starts. -/
def start : ℕ := b.before.length + b.package.length + b.space.length + 1

/-- The package is `dialog`, and one of the parameters is `sla`. -/
def Sla : Prop := Named b.package "dialog" ∧ ∃ x ∈ b.items, Named x.name "sla"

/-- What is to be read from the body. -/
structure Read (e : Event) : Prop where
  text : e.text = ⟨b.before.length, b.package.length⟩
  params : e.params = params .CLASS_ANY b.start b.items
  sla : e.parsed = .EVENT_DIALOG_SLA ↔ b.Sla
  known : ¬ b.Sla → ∀ k ∈ packages, e.parsed = k.2 ↔ Named b.package k.1
  other : e.parsed = .EVENT_OTHER ↔ ∀ k ∈ packages, ¬ Named b.package k.1

/-- No white space in front of the first `;` and behind it, no escaped quote, and a parameter `sla` of `dialog` is
the first one. -/
structure Plain (x : Item) (xs : List Item) : Prop where
  space : b.space = []
  before : x.before = []
  unescaped : ∀ y ∈ x :: xs, ∀ w v q, y.value = some (w, v, .quoted q) → QUOTE ∉ q
  sla : b.Sla → Named x.name "sla"

def Regular : Prop := ∀ x xs, b.items = x :: xs → b.Plain x xs

end EventBody

end Grammar

section Package

variable {p z : Str} {name : String}

theorem is_name_iff : is_name (p ++ z) p.length name ↔ Named p name := by
  rw [is_name, take_left]
  refine ⟨fun h => h.2, fun h => ⟨?_, h⟩⟩
  have hlen := FirstLine.same_case.length_eq h
  rwa [length_map, String.length_toList] at hlen

theorem package_cases (p z : Str) : (∃ k ∈ packages, Named p k.1 ∧ package_of (p ++ z) p.length = k.2) ∨
    (∀ k ∈ packages, ¬ Named p k.1) ∧ package_of (p ++ z) p.length = .EVENT_OTHER := by
  have hmem : ∀ k : String × EventType, k ∈ packages → Named p k.1 → package_of (p ++ z) p.length = k.2 →
      ∃ k ∈ packages, Named p k.1 ∧ package_of (p ++ z) p.length = k.2 := fun k hk hn he => ⟨k, hk, hn, he⟩
  rw [package_of] at *
  simp only [is_name_iff] at *
  split_ifs with h1 h2 h3 h4 h5 h6
  · exact .inl ⟨("presence", .EVENT_PRESENCE), by simp [packages], h1, rfl⟩
  · exact .inl ⟨("xcap-change", .EVENT_XCAP_CHANGE), by simp [packages], h2, rfl⟩
  · exact .inl ⟨("presence.winfo", .EVENT_PRESENCE_WINFO), by simp [packages], h3, rfl⟩
  · exact .inl ⟨("sip-profile", .EVENT_SIP_PROFILE), by simp [packages], h4, rfl⟩
  · exact .inl ⟨("dialog", .EVENT_DIALOG), by simp [packages], h5, rfl⟩
  · exact .inl ⟨("message-summary", .EVENT_MWI), by simp [packages], h6, rfl⟩
  · refine .inr ⟨?_, rfl⟩
    simp [packages, h1, h2, h3, h4, h5, h6]

theorem named_once : ∀ j ∈ packages, ∀ k ∈ packages, Named p j.1 → Named p k.1 → j = k := by
  have hnames : ∀ j ∈ packages, ∀ k ∈ packages,
      (j.1.toList.map chr).map tolower = (k.1.toList.map chr).map tolower → j = k := by decide
  exact fun j hj k hk h h' => hnames j hj k hk (h.symm.trans h')

theorem codes : (∀ j ∈ packages, ∀ k ∈ packages, j.2 = k.2 → j = k) ∧
    ∀ k ∈ packages, k.2 ≠ .EVENT_OTHER ∧ k.2 ≠ .EVENT_DIALOG_SLA ∧ (k.2 = .EVENT_DIALOG → k.1 = "dialog") := by
  decide

theorem package_known {k : String × EventType} (hk : k ∈ packages) :
    package_of (p ++ z) p.length = k.2 ↔ Named p k.1 := by
  rcases package_cases p z with ⟨j, hj, hn, he⟩ | ⟨hno, he⟩
  · rw [he]
    constructor
    · intro h
      rwa [← codes.1 j hj k hk h]
    · intro h
      rw [named_once j hj k hk hn h]
  · rw [he]
    exact iff_of_false (codes.2 k hk).1.symm (hno k hk)

theorem package_other : package_of (p ++ z) p.length = .EVENT_OTHER ↔ ∀ k ∈ packages, ¬ Named p k.1 := by
  rcases package_cases p z with ⟨j, hj, hn, he⟩ | ⟨hno, he⟩
  · rw [he]
    exact iff_of_false (codes.2 j hj).1 fun h => h j hj hn
  · exact iff_of_true he hno

theorem package_not_sla : package_of (p ++ z) p.length ≠ .EVENT_DIALOG_SLA := by
  rcases package_cases p z with ⟨j, hj, -, he⟩ | ⟨-, he⟩
  · rw [he]
    exact (codes.2 j hj).2.1
  · rw [he]
    decide

theorem package_dialog : package_of (p ++ z) p.length = .EVENT_DIALOG ↔ Named p "dialog" :=
  package_known (k := ("dialog", .EVENT_DIALOG)) (by decide)

end Package

section Body

variable {past : UInt8} {b : EventBody} {e : Event} {x : Item} {xs : List Item} {z : Str}

theorem read_of_parsed (htext : e.text = ⟨b.before.length, b.package.length⟩)
    (hparams : e.params = params .CLASS_ANY b.start b.items) (hsla : b.Sla → e.parsed = .EVENT_DIALOG_SLA)
    (hno : ¬ b.Sla → e.parsed = package_of (b.package ++ z) b.package.length) : b.Read e := by
  by_cases h : b.Sla
  · have hd := hsla h
    refine ⟨htext, hparams, iff_of_true hd h, fun hn => absurd h hn, ?_⟩
    refine iff_of_false (fun ho => ?_) fun hn => hn ("dialog", .EVENT_DIALOG) (by decide) h.1
    rw [hd] at ho
    cases ho
  · have hd := hno h
    refine ⟨htext, hparams, iff_of_false (fun hs => ?_) h, fun _ k hk => ?_, ?_⟩
    · exact package_not_sla (hd.symm.trans hs)
    · rw [hd]
      exact package_known hk
    · rw [hd]
      exact package_other

theorem trim_body (hb : b.Formed) : trim_leading ⟨0, b.text⟩ =
    ⟨b.before.length, b.package ++ (b.space ++ tail b.items [])⟩ := by
  obtain ⟨c, w, hc⟩ := exists_cons_of_ne_nil hb.package.1
  rw [EventBody.text, trim_skip hb.before, zero_add]
  intro d hd
  rw [hc] at hd
  cases hd
  have hchar := hb.package.2 c (hc ▸ mem_cons_self)
  rw [package_char, Bool.not_eq_true', Bool.or_eq_false_iff] at hchar
  exact hchar.1

theorem blank_ends (c : UInt8) (h : blank c = true) : package_char c = false := by
  rw [package_char, h]
  rfl

/-- White space, the `;` or the end is behind the package. -/
theorem skip_package (hb : b.Formed) :
    skip_token (b.package ++ (b.space ++ tail b.items [])) = b.package.length := by
  have hends : ∀ d ∈ (b.space ++ tail b.items []).head?, package_char d = false := by
    intro d hd
    cases hs : b.space with
    | nil =>
      rw [hs] at hd
      cases hi : b.items with
      | nil =>
        rw [hi] at hd
        cases hd
      | cons x xs =>
        rw [hi] at hd
        obtain rfl := some.inj hd
        decide
    | cons c w =>
      rw [hs] at hd
      obtain rfl := some.inj hd
      exact blank_ends c (hb.space c (hs ▸ mem_cons_self))
  obtain ⟨hx, -⟩ := (⟨rfl, hb.package.2, hends⟩ : Cut package_char _ b.package _).takeWhile_eq
  rw [skip_token, hx]

/-- A body is read without parameters when the `;` is not the next character. -/
theorem event_bare (hb : b.Formed) (h : (b.space ++ tail b.items []).head? ≠ some SEMICOLON) :
    event_parser_body past b.text = some ⟨⟨b.before.length, b.package.length⟩,
      package_of (b.package ++ (b.space ++ tail b.items [])) b.package.length, []⟩ := by
  have hne : b.package ++ (b.space ++ tail b.items []) ≠ [] := append_ne_nil_of_left_ne_nil hb.package.1 _
  rw [event_parser_body, trim_body hb]
  dsimp only
  rw [if_neg hne, skip_package hb, drop_left, if_neg fun hc => h hc.2]

/-- A `;` behind the package. -/
theorem event_params (hb : b.Formed) (hs : b.space = []) (hi : b.items = x :: xs) :
    event_parser_body past b.text = (parse_params_at past .CLASS_ANY ⟨b.start, x.text ++ tail xs []⟩).map
      fun (_, params, _) =>
        if package_of (b.package ++ tail b.items []) b.package.length = .EVENT_DIALOG ∧
            ∃ t ∈ params.head?, is_name (b.text.drop t.name.pos) t.name.len "sla" then
          ⟨⟨b.before.length, b.package.length⟩, .EVENT_DIALOG_SLA, params⟩
        else ⟨⟨b.before.length, b.package.length⟩, package_of (b.package ++ tail b.items []) b.package.length,
          params⟩ := by
  have hne : b.package ++ (b.space ++ tail b.items []) ≠ [] := append_ne_nil_of_left_ne_nil hb.package.1 _
  have hlt : b.package.length < (b.package ++ (b.space ++ tail b.items [])).length ∧
      (b.space ++ tail b.items []).head? = some SEMICOLON := by
    rw [hs, hi, nil_append, length_append]
    exact ⟨Nat.lt_add_of_pos_right (Nat.succ_pos _), rfl⟩
  have hskip : (⟨b.before.length, b.package ++ (b.space ++ tail b.items [])⟩ : Cursor).skip
      (b.package.length + 1) = ⟨b.start, x.text ++ tail xs []⟩ := by
    rw [Cursor.skip, EventBody.start, hs, hi, nil_append, ← drop_drop, drop_left]
    rfl
  rw [event_parser_body, trim_body hb]
  dsimp only
  rw [if_neg hne, skip_package hb, drop_left, if_pos hlt, hskip, hs, nil_append]

theorem drop_start (hi : b.items = x :: xs) : b.text.drop b.start = x.text ++ tail xs [] := by
  have htext : b.text = (b.before ++ b.package ++ b.space ++ [SEMICOLON]) ++ (x.text ++ tail xs []) := by
    rw [EventBody.text, hi, tail]
    simp only [append_assoc, singleton_append]
  have hlen : b.start = (b.before ++ b.package ++ b.space ++ [SEMICOLON]).length := by
    simp only [EventBody.start, length_append, length_singleton]
  rw [htext, hlen, drop_left]

/-- The test for `sla` looks at the first parameter. -/
theorem first_sla (hi : b.items = x :: xs) (hx : x.before = []) :
    (∃ t ∈ (params .CLASS_ANY b.start b.items).head?, is_name (b.text.drop t.name.pos) t.name.len "sla") ↔
      Named x.name "sla" := by
  have htext : b.text.drop (b.start + x.before.length) = x.name ++ (x.assign ++ x.after ++ tail xs []) := by
    rw [hx, length_nil, add_zero, drop_start hi, Item.text, hx]
    simp only [nil_append, append_assoc]
  rw [hi, params, head?_cons]
  simp only [mem_some_iff, exists_eq_left', Item.param]
  rw [htext]
  exact is_name_iff

end Body

section Main

variable {past : UInt8} {b : EventBody} {x : Item} {xs : List Item}

theorem no_items (hi : b.items = []) : ¬ b.Sla := by
  rintro ⟨-, y, hy, -⟩
  rw [hi] at hy
  cases hy

theorem read_bare (hb : b.Formed) (hi : b.items = []) : ∃ e, event_parser_body past b.text = some e ∧ b.Read e := by
  have hno : (b.space ++ tail b.items []).head? ≠ some SEMICOLON := by
    rw [hi, tail, append_nil]
    intro h
    have hblank := hb.space SEMICOLON (mem_of_mem_head? h)
    cases hblank
  refine ⟨_, event_bare hb hno, ?_⟩
  apply read_of_parsed rfl
  · rw [hi]
    rfl
  · exact fun h => absurd h (no_items hi)
  · exact fun _ => rfl

theorem read_plain (hb : b.Formed) (hi : b.items = x :: xs) (hp : b.Plain x xs) :
    ∃ e, event_parser_body past b.text = some e ∧ b.Read e := by
  have hx : ∀ y ∈ x :: xs, y.Formed := hi ▸ hb.items
  have hstop : Stop [] := fun c hc => by cases hc
  have hplain : AllPlain past .CLASS_ANY (x :: xs) [] := plain_any.2 hp.unescaped
  obtain ⟨h, heq, -⟩ := params_at_plain hx hp.before hstop hplain b.start
  have hparams : params .CLASS_ANY b.start (x :: xs) = params .CLASS_ANY b.start b.items := by rw [hi]
  rw [event_params hb hp.space hi, heq, map_some]
  refine ⟨_, rfl, ?_⟩
  have hsla : package_of (b.package ++ tail b.items []) b.package.length = .EVENT_DIALOG ∧
      (∃ t ∈ (params .CLASS_ANY b.start b.items).head?, is_name (b.text.drop t.name.pos) t.name.len "sla") ↔
      b.Sla := by
    rw [first_sla hi hp.before, package_dialog]
    exact ⟨fun h => ⟨h.1, x, hi ▸ mem_cons_self, h.2⟩, fun h => ⟨h.1, hp.sla h⟩⟩
  rw [hparams]
  dsimp only
  by_cases h : b.Sla
  · rw [if_pos (hsla.2 h)]
    exact read_of_parsed (z := []) rfl rfl (fun _ => rfl) fun hn => absurd h hn
  · rw [if_neg fun hc => h (hsla.1 hc)]
    exact read_of_parsed rfl rfl (fun hs => absurd hs h) fun _ => rfl

theorem plain_of_read {e : Event} (hb : b.Formed) (hi : b.items = x :: xs)
    (he : event_parser_body past b.text = some e) (hr : b.Read e) : b.Plain x xs := by
  have hx : ∀ y ∈ x :: xs, y.Formed := hi ▸ hb.items
  have hne : e.params ≠ [] := by
    rw [hr.params, hi]
    exact cons_ne_nil _ _
  have hspace : b.space = [] := by
    by_contra hs
    obtain ⟨c, w, hc⟩ := exists_cons_of_ne_nil hs
    have hno : (b.space ++ tail b.items []).head? ≠ some SEMICOLON := by
      rw [hc]
      intro h
      cases h
      have hblank := hb.space SEMICOLON (hc ▸ mem_cons_self)
      cases hblank
    rw [event_bare hb hno] at he
    exact hne (some.inj he ▸ rfl)
  rw [event_params hb hspace hi] at he
  obtain ⟨⟨c', ps, h'⟩, heq, hev⟩ := map_eq_some_iff.1 he
  have hps : ps = params .CLASS_ANY b.start (x :: xs) := by
    rw [← hi, ← hr.params, ← hev]
    dsimp only
    split_ifs <;> rfl
  have hbefore : x.before = [] := by
    by_contra hbl
    rw [params_at_blank (hx x mem_cons_self) hbl] at heq
    cases heq
  have hstop : Stop [] := fun c hc => by cases hc
  refine ⟨hspace, hbefore, plain_any.1 (plain_of_params_at hx hbefore hstop (hps ▸ heq)), fun hs => ?_⟩
  have hsla := hr.sla.2 hs
  rw [← hev] at hsla
  dsimp only at hsla
  split_ifs at hsla with h
  · rw [hps, ← hi] at h
    exact (first_sla hi hbefore).1 h.2
  · exact absurd hsla package_not_sla

/-- **`event_parser` reads a body for what it is**, the package, its code and all parameters in order, exactly when
there are no parameters or they are plain. -/
theorem event_parser_spec (past : UInt8) (hb : b.Formed) :
    (∃ e, event_parser_body past b.text = some e ∧ b.Read e) ↔ b.Regular := by
  constructor
  · rintro ⟨e, he, hr⟩ x xs hi
    exact plain_of_read hb hi he hr
  · intro h
    cases hi : b.items with
    | nil => exact read_bare hb hi
    | cons x xs => exact read_plain hb hi (h x xs hi)

theorem single_formed {name : String} (h : Token (name.toList.map chr)) : (single name none).Formed :=
  ⟨blanks_of_all rfl, h, fun _ _ _ hv => (by cases hv), blanks_of_all rfl⟩

/-- **`dialog ;sla`** is read without its parameter. -/
theorem dialog_space_sla : ∃ b : EventBody, b.Formed ∧ b.text = "dialog ;sla".toList.map chr ∧ b.Sla ∧
    event_parser_body 0 b.text = some ⟨⟨0, 6⟩, .EVENT_DIALOG, []⟩ ∧
    ¬ ∃ e, event_parser_body 0 b.text = some e ∧ b.Read e := by
  have heq : event_parser_body 0 ("dialog ;sla".toList.map chr) = some ⟨⟨0, 6⟩, .EVENT_DIALOG, []⟩ := by decide
  refine ⟨⟨[], "dialog".toList.map chr, " ".toList.map chr, [single "sla" none]⟩,
    ⟨blanks_of_all rfl, ⟨by decide, List.all_eq_true.1 (by decide)⟩, blanks_of_all (by decide), ?_⟩, by decide, ?_,
    heq, ?_⟩
  · intro x hx
    rw [mem_singleton.1 hx]
    exact single_formed (token_of_all (by decide) (by decide))
  · exact ⟨by decide, _, mem_singleton_self _, by decide⟩
  · rintro ⟨e, he, hr⟩
    obtain rfl := some.inj (heq.symm.trans he)
    have hparams := hr.params
    cases hparams

/-- `presence;id;a`. -/
theorem presence_params : ∃ b : EventBody, b.text = "presence;id;a".toList.map chr ∧
    ∃ e, event_parser_body 0 b.text = some e ∧ b.Read e := by
  refine ⟨⟨[], "presence".toList.map chr, [], [single "id" none, single "a" none]⟩, by decide,
    (event_parser_spec 0 ⟨blanks_of_all rfl, ⟨by decide, List.all_eq_true.1 (by decide)⟩, blanks_of_all rfl, ?_⟩).2 ?_⟩
  · intro x hx
    rcases mem_cons.1 hx with rfl | hx
    · exact single_formed (token_of_all (by decide) (by decide))
    · rw [mem_singleton.1 hx]
      exact single_formed (token_of_all (by decide) (by decide))
  · rintro x xs ⟨⟩
    refine ⟨rfl, rfl, fun y hy w v q hv => ?_, fun hs => ?_⟩
    · rcases mem_cons.1 hy with rfl | hy
      · cases hv
      · rw [mem_singleton.1 hy] at hv
        cases hv
    · exact absurd hs.1 (by decide)

end Main

end OpenSips.ParseEvent
