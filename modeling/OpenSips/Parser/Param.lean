import OpenSips.Parser.Methods

/-!
# OpenSips.Parser.Param — parameters of headers and URIs (`parse_param.c`)

`parse_params` cuts `p1;p2;...;pn` with three scanners: a name ends at white space, `;`, `,` or `=`, a token
at white space, `,` or `;`, and a quoted body at the next quote.  It stops at the end of the text, at `,` and
at `>`.
-/

namespace OpenSips.ParseParam

open Lib FirstLine List Option Function

def SEMICOLON : UInt8 := chr ';'
def COMMA : UInt8 := chr ','
def EQUAL : UInt8 := chr '='
def GREATER : UInt8 := chr '>'
def QUOTE : UInt8 := chr '"'
def BACKSLASH : UInt8 := chr '\\'

inductive PType where
  | P_OTHER | P_Q | P_EXPIRES | P_METHODS | P_RECEIVED
  | P_TRANSPORT | P_LR | P_R2 | P_MADDR | P_TTL | P_DSTIP | P_DSTPORT
  deriving DecidableEq

inductive PClass where
  | CLASS_ANY | CLASS_CONTACT | CLASS_URI
  deriving DecidableEq

structure Span where
  pos : ℕ
  len : ℕ
  deriving DecidableEq

/-- `struct param`, without the link to the next one. -/
structure Param where
  type : PType
  name : Span
  body : Option Span
  len : ℕ
  deriving DecidableEq

/-- The hooks of the class, the number of a parameter for its address. -/
abbrev Hooks := PType → Option ℕ

/-- The `str` that is moved forward: where it points to in the text, and what it holds. -/
structure Cursor where
  pos : ℕ
  s : Str
  deriving DecidableEq

def Cursor.skip (c : Cursor) (n : ℕ) : Cursor := ⟨c.pos + n, c.s.drop n⟩

section Source

-- the byte behind the text
variable (past : UInt8)

/-- White space of `trim_leading`. -/
def blank (c : UInt8) : Bool := c == SPACE || c == TAB || c == CR || c == LF

def trim_leading (c : Cursor) : Cursor := c.skip (c.s.takeWhile blank).length

/-- One of a letter and its capital. -/
def either (c : UInt8) (small capital : Char) : Prop := c = chr small ∨ c = chr capital

instance (c : UInt8) (small capital : Char) : Decidable (either c small capital) :=
  inferInstanceAs (Decidable (_ ∨ _))

/-- `parse_contact_class` for the name of `len` characters at the start of `s`: the type that is set, with
its hook. -/
def parse_contact_class (s : Str) (len : ℕ) : Option PType :=
  if either (s.headD past) 'q' 'Q' then if len = 1 then some .P_Q else none
  else if either (s.headD past) 'e' 'E' then if len = 7 ∧ has s 1 "xpires" then some .P_EXPIRES else none
  else if either (s.headD past) 'm' 'M' then if len = 7 ∧ has s 1 "ethods" then some .P_METHODS else none
  else if either (s.headD past) 'r' 'R' then if len = 8 ∧ has s 1 "eceived" then some .P_RECEIVED else none
  else none

/-- `parse_uri_class`; the third character of a name of two is the one behind it. -/
def parse_uri_class (s : Str) (len : ℕ) : Option PType :=
  if either (s.headD past) 't' 'T' then
    if len = 9 ∧ has s 1 "ransport" then some .P_TRANSPORT
    else if len = 2 then
      if either (s.getD 1 past) 't' 'T' ∧ either (s.getD 2 past) 'l' 'L' then some .P_TTL else none
    else none
  else if either (s.headD past) 'l' 'L' then
    if len = 2 ∧ either (s.getD 1 past) 'r' 'R' then some .P_LR else none
  else if either (s.headD past) 'r' 'R' then if len = 2 ∧ s.getD 1 past = chr '2' then some .P_R2 else none
  else if either (s.headD past) 'm' 'M' then if len = 5 ∧ has s 1 "addr" then some .P_MADDR else none
  else if either (s.headD past) 'd' 'D' then
    if len = 5 ∧ has s 1 "stip" then some .P_DSTIP
    else if len = 7 ∧ has s 1 "stport" then some .P_DSTPORT
    else none
  else none

def parse_class : PClass → Str → ℕ → Option PType
  | .CLASS_CONTACT, s, len => parse_contact_class past s len
  | .CLASS_URI, s, len => parse_uri_class past s len
  | .CLASS_ANY, _, _ => none

def name_char (c : UInt8) : Bool :=
  !(blank c || c == SEMICOLON || c == COMMA || c == EQUAL)

/-- `parse_param_name` -/
def parse_param_name (cls : PClass) (c : Cursor) : Param × Cursor :=
  let len := (c.s.takeWhile name_char).length
  (⟨(parse_class past cls c.s len).getD .P_OTHER, ⟨c.pos, len⟩, none, 0⟩, c.skip len)

/-- `parse_quoted_param`: what is in front of the next quote. -/
def parse_quoted_param (c : Cursor) : Option (Span × Cursor) :=
  if c.s.length < 2 then none
  else ((c.skip 1).s.findIdx? (· = QUOTE)).map fun n => (⟨c.pos + 1, n⟩, (c.skip 1).skip (n + 1))

def token_char (c : UInt8) : Bool := !(blank c || c == COMMA || c == SEMICOLON)

/-- `parse_token_param` -/
def parse_token_param (c : Cursor) : Option (Span × Cursor) :=
  let n := (c.s.takeWhile token_char).length
  if n = 0 then none else some (⟨c.pos, n⟩, c.skip n)

def parse_param_body (c : Cursor) : Option (Span × Cursor) :=
  if c.s.head? = some QUOTE then parse_quoted_param c else parse_token_param c

/-- The first part of the loop of `parse_params`: a parameter, and the white space behind it. -/
def parse_param (cls : PClass) (c : Cursor) : Option (Param × Cursor) :=
  let (t, c) := parse_param_name past cls c
  let c := trim_leading c
  if c.s.head? = some EQUAL then
    let c := trim_leading (c.skip 1)
    if c.s = [] then none
    else (parse_param_body c).map fun (body, c) =>
      ({ t with body := some body, len := c.pos - t.name.pos }, trim_leading c)
  else some ({ t with len := t.name.len }, c)

/-- The hook of a parameter with a type. -/
def note (h : Hooks) (t : Param) (i : ℕ) : Hooks :=
  if t.type = .P_OTHER then h else Function.update h t.type (some i)

/-- The loop of `parse_params`. -/
def parse_params_loop (cls : PClass) : ℕ → Cursor → List Param → Hooks → Option (Cursor × List Param × Hooks)
  | 0, _, _, _ => none
  | fuel + 1, c, ps, h =>
    match parse_param past cls c with
    | none => none
    | some (t, c) =>
      let h := note h t ps.length
      match c.s with
      | [] => some (c, ps ++ [t], h)
      | ch :: _ =>
        if ch = COMMA ∨ ch = GREATER then some (c, ps ++ [t], h)
        else if ch ≠ SEMICOLON then none
        else
          let c := trim_leading (c.skip 1)
          if c.s = [] then none else parse_params_loop cls fuel c (ps ++ [t]) h

/-- `parse_params` of a text: where it stops, the parameters and their hooks; `none` is -2. -/
def parse_params (cls : PClass) (s : Str) : Option (Cursor × List Param × Hooks) :=
  parse_params_loop past cls (s.length + 1) ⟨0, s⟩ [] fun _ => none

/-- `parse_params` of what is left of a text, with the slices in that text. -/
def parse_params_at (cls : PClass) (c : Cursor) : Option (Cursor × List Param × Hooks) :=
  parse_params_loop past cls (c.s.length + 1) c [] fun _ => none

end Source

section Grammar

def TokenChar (c : UInt8) : Prop := token_char c = true ∧ c ≠ EQUAL ∧ c ≠ GREATER ∧ c ≠ QUOTE

def Token (t : Str) : Prop := t ≠ [] ∧ ∀ c ∈ t, TokenChar c

def Blanks (w : Str) : Prop := ∀ c ∈ w, blank c = true

/-- What stands between quotes: a backslash goes with the character behind it. -/
inductive Quoted : Str → Prop where
  | nil : Quoted []
  | plain {c : UInt8} {q : Str} (hq : c ≠ QUOTE) (hb : c ≠ BACKSLASH) (h : Quoted q) : Quoted (c :: q)
  | pair {q : Str} (c : UInt8) (h : Quoted q) : Quoted (BACKSLASH :: c :: q)

inductive Body where
  | token (t : Str)
  | quoted (q : Str)

def Body.text : Body → Str
  | .token t => t
  | .quoted q => QUOTE :: q ++ [QUOTE]

def Body.Formed : Body → Prop
  | .token t => Token t
  | .quoted q => Quoted q

/-- The slice of the body at `pos`, without its quotes. -/
def Body.span (pos : ℕ) : Body → Span
  | .token t => ⟨pos, t.length⟩
  | .quoted q => ⟨pos + 1, q.length⟩

/-- A parameter: white space, its name, its body with the white space around the `=`, and white space. -/
structure Item where
  before : Str
  name : Str
  value : Option (Str × Str × Body)
  after : Str

namespace Item

variable (x : Item)

/-- The `=` and the body. -/
def assign : Str :=
  match x.value with
  | none => []
  | some (b, a, body) => b ++ EQUAL :: a ++ body.text

def text : Str := x.before ++ (x.name ++ x.assign ++ x.after)

structure Formed : Prop where
  before : Blanks x.before
  name : Token x.name
  value : ∀ b a body, x.value = some (b, a, body) → Blanks b ∧ Blanks a ∧ body.Formed
  after : Blanks x.after

end Item

/-- The parameters behind the first one, and what stops the parser. -/
def tail : List Item → Str → Str
  | [], stop => stop
  | x :: xs, stop => SEMICOLON :: (x.text ++ tail xs stop)

/-- The end of the text, a `,` or a `>`. -/
def Stop (s : Str) : Prop := ∀ c ∈ s.head?, c = COMMA ∨ c = GREATER

/-- The well-known parameters of a class. -/
def known : PClass → List (String × PType)
  | .CLASS_ANY => []
  | .CLASS_CONTACT =>
    [("q", .P_Q), ("expires", .P_EXPIRES), ("methods", .P_METHODS), ("received", .P_RECEIVED)]
  | .CLASS_URI =>
    [("transport", .P_TRANSPORT), ("ttl", .P_TTL), ("lr", .P_LR), ("r2", .P_R2), ("maddr", .P_MADDR),
      ("dstip", .P_DSTIP), ("dstport", .P_DSTPORT)]

def Named (name : Str) (text : String) : Prop := same_case name (text.toList.map chr)

instance (name : Str) (text : String) : Decidable (Named name text) := inferInstanceAs (Decidable (same_case _ _))

def type_of (cls : PClass) (name : Str) : PType :=
  (((known cls).find? fun k => decide (Named name k.1)).map Prod.snd).getD .P_OTHER

/-- The parameter that is to be read at `pos`. -/
def Item.param (cls : PClass) (x : Item) (pos : ℕ) : Param where
  type := type_of cls x.name
  name := ⟨pos, x.name.length⟩
  body := x.value.map fun (b, a, body) => body.span (pos + x.name.length + b.length + 1 + a.length)
  len := x.name.length + x.assign.length

/-- The parameters of a text that starts at `pos`. -/
def params (cls : PClass) : ℕ → List Item → List Param
  | _, [] => []
  | pos, x :: xs => x.param cls (pos + x.before.length) :: params cls (pos + x.text.length + 1) xs

/-- The last parameter of type `t` is number `i`. -/
def Last (t : PType) (ps : List Param) (i : ℕ) : Prop :=
  ps[i]?.map Param.type = some t ∧ ∀ j, i < j → ps[j]?.map Param.type ≠ some t

def Hooked (h : Hooks) (ps : List Param) : Prop := ∀ t i, h t = some i ↔ t ≠ .P_OTHER ∧ Last t ps i

/-- The name is read for what it is: the test for `ttl` asks for a name of two characters, and looks at the
one behind them. -/
def Typed (past : UInt8) (cls : PClass) (name rest : Str) : Prop :=
  cls = .CLASS_URI → ¬ Named name "ttl" ∧ (rest = [] → either past 'l' 'L' → ¬ Named name "tt")

/-- Nothing but the parameter is read, when `rest` is behind it. -/
structure Plain (past : UInt8) (cls : PClass) (x : Item) (rest : Str) : Prop where
  typed : Typed past cls x.name (x.assign ++ (x.after ++ rest))
  unescaped : ∀ b a q, x.value = some (b, a, .quoted q) → QUOTE ∉ q
  apart : rest.head? = some GREATER → x.after = [] → ∃ b a q, x.value = some (b, a, .quoted q)

def AllPlain (past : UInt8) (cls : PClass) : List Item → Str → Prop
  | [], _ => True
  | x :: xs, stop => Plain past cls x (tail xs stop) ∧ AllPlain past cls xs stop

end Grammar

section Names

variable {past : UInt8} {cls : PClass} {c : UInt8} {w y : Str}

theorem either_iff (small capital : Char) (h : ∀ i < 16, ∀ j < 16,
    either (UInt8.ofNat (16 * i + j)) small capital ↔ tolower (UInt8.ofNat (16 * i + j)) = chr small) (c : UInt8) : either c small capital ↔ tolower c = chr small :=
  forall_char (p := fun c => either c small capital ↔ tolower c = chr small) h c

theorem digit_iff (c : UInt8) : c = chr '2' ↔ tolower c = chr '2' :=
  forall_char (p := fun c => c = chr '2' ↔ tolower c = chr '2') (by decide) c

theorem has_rest {s : String} (hlen : w.length = s.length) :
    has (c :: (w ++ y)) 1 s = true ↔ w.map tolower = s.toList.map chr := by
  rw [has, beq_iff_eq, drop_succ_cons, drop_zero, ← hlen, take_left]

/-- A name of `n + 1` characters with this rest. -/
theorem rest_iff {s : String} {n : ℕ} (hn : n = s.length + 1) :
    (w.length + 1 = n ∧ has (c :: (w ++ y)) 1 s = true) ↔ w.map tolower = s.toList.map chr := by
  constructor
  · exact fun h => (has_rest (by omega)).1 h.2
  · intro h
    have hlen := congrArg List.length h
    rw [length_map, length_map, String.length_toList] at hlen
    exact ⟨by omega, (has_rest hlen).2 h⟩

theorem second_iff (past : UInt8) {small : Char} {q : UInt8 → Prop} (hq : ∀ d, q d ↔ tolower d = chr small) :
    (w.length + 1 = 2 ∧ q ((c :: (w ++ y)).getD 1 past)) ↔ w.map tolower = [chr small] := by
  match w with
  | [] => simp
  | [d] => simp [hq]
  | d :: e :: w => simp

theorem named_cons {s r : String} {a : Char} (h : (s.toList.map chr).map tolower = chr a :: r.toList.map chr) :
    Named (c :: w) s ↔ tolower c = chr a ∧ w.map tolower = r.toList.map chr := by
  rw [Named, same_case, h, map_cons, cons.injEq]

theorem type_of_known (cls : PClass) (w : Str) : type_of cls w =
    (known cls).foldr (fun k t => if Named w k.1 then k.2 else t) .P_OTHER := by
  rw [type_of]
  induction known cls with
  | nil => rfl
  | cons k ks ih =>
    rw [foldr_cons, ← ih]
    by_cases h : Named w k.1
    · simp only [find?_cons, decide_eq_true h, if_pos h, map_some, getD_some]
    · simp only [find?_cons, decide_eq_false h, if_neg h]

theorem contact_class : (parse_contact_class past (c :: (w ++ y)) (w.length + 1)).getD .P_OTHER =
    type_of .CLASS_CONTACT (c :: w) := by
  have hq : w.length + 1 = 1 ↔ w.map tolower = "".toList.map chr := by
    rw [show "".toList.map chr = [] from rfl, map_eq_nil_iff, ← length_eq_zero_iff]
    omega
  have hqe : chr 'q' ≠ chr 'e' ∧ chr 'q' ≠ chr 'm' ∧ chr 'q' ≠ chr 'r' := by decide
  have hem : chr 'e' ≠ chr 'm' ∧ chr 'e' ≠ chr 'r' ∧ chr 'm' ≠ chr 'r' := by decide
  simp only [type_of_known, known, foldr_cons, foldr_nil, parse_contact_class, headD_cons,
    either_iff 'q' 'Q' (by decide), either_iff 'e' 'E' (by decide),
    either_iff 'm' 'M' (by decide), either_iff 'r' 'R' (by decide), hq,
    rest_iff (w := w) (c := c) (y := y) (s := "xpires") (n := 7) (by decide),
    rest_iff (w := w) (c := c) (y := y) (s := "ethods") (n := 7) (by decide),
    rest_iff (w := w) (c := c) (y := y) (s := "eceived") (n := 8) (by decide),
    named_cons (c := c) (w := w) (s := "q") (r := "") (a := 'q') (by decide),
    named_cons (c := c) (w := w) (s := "expires") (r := "xpires") (a := 'e') (by decide),
    named_cons (c := c) (w := w) (s := "methods") (r := "ethods") (a := 'm') (by decide),
    named_cons (c := c) (w := w) (s := "received") (r := "eceived") (a := 'r') (by decide)]
  by_cases h1 : tolower c = chr 'q'
  · simp only [h1, hqe, true_and, false_and, if_true, if_false]
    split_ifs <;> rfl
  by_cases h2 : tolower c = chr 'e'
  · simp only [h2, hqe.1.symm, hem, true_and, false_and, if_true, if_false]
    split_ifs <;> rfl
  by_cases h3 : tolower c = chr 'm'
  · simp only [h3, hqe.2.1.symm, hem.1.symm, hem, true_and, false_and, if_true, if_false]
    split_ifs <;> rfl
  · simp only [h1, h2, h3, false_and, if_false]
    by_cases h4 : tolower c = chr 'r'
    · simp only [h4, true_and, if_true]
      split_ifs <;> rfl
    · simp only [h4, false_and, if_false, getD_none]

theorem third_iff (hy : ∀ d ∈ y.head?, name_char d = false) :
    ((w.length + 1 = 2) ∧ either ((c :: (w ++ y)).getD 1 past) 't' 'T' ∧
      either ((c :: (w ++ y)).getD 2 past) 'l' 'L') ↔
    w.map tolower = [chr 't'] ∧ y = [] ∧ either past 'l' 'L' := by
  rw [← and_assoc, second_iff past (q := fun d => either d 't' 'T') (either_iff 't' 'T' (by decide))]
  refine and_congr_right fun hw => ?_
  obtain ⟨d, rfl⟩ : ∃ d, w = [d] := length_eq_one_iff.1 (by
    have := congrArg List.length hw
    rwa [length_map] at this)
  cases y with
  | nil => simp
  | cons e y =>
    have hl : name_char (chr 'l') = true ∧ name_char (chr 'L') = true := by decide
    refine iff_of_false (fun h => ?_) fun h => absurd h.1 (cons_ne_nil e y)
    have he := hy e rfl
    rcases h with h | h
    · rw [show e = chr 'l' from h, hl.1] at he
      cases he
    · rw [show e = chr 'L' from h, hl.2] at he
      cases he

theorem uri_class (hy : ∀ d ∈ y.head?, name_char d = false) :
    (parse_uri_class past (c :: (w ++ y)) (w.length + 1)).getD .P_OTHER = type_of .CLASS_URI (c :: w) ↔
      Typed past .CLASS_URI (c :: w) y := by
  have ht : chr 't' ≠ chr 'l' ∧ chr 't' ≠ chr 'r' ∧ chr 't' ≠ chr 'm' ∧ chr 't' ≠ chr 'd' := by decide
  have hl : chr 'l' ≠ chr 'r' ∧ chr 'l' ≠ chr 'm' ∧ chr 'l' ≠ chr 'd' ∧ chr 'r' ≠ chr 'm' := by decide
  have hd : chr 'r' ≠ chr 'd' ∧ chr 'm' ≠ chr 'd' := by decide
  simp only [Typed, type_of_known, known, foldr_cons, foldr_nil, parse_uri_class, headD_cons,
    either_iff 't' 'T' (by decide) c, either_iff 'l' 'L' (by decide) c,
    either_iff 'r' 'R' (by decide) c, either_iff 'm' 'M' (by decide) c,
    either_iff 'd' 'D' (by decide) c, ← ite_and, third_iff hy,
    second_iff past (w := w) (c := c) (y := y) (q := fun d => either d 'r' 'R')
      (either_iff 'r' 'R' (by decide)),
    second_iff past (w := w) (c := c) (y := y) (q := fun d => d = chr '2') digit_iff,
    rest_iff (w := w) (c := c) (y := y) (s := "ransport") (n := 9) (by decide),
    rest_iff (w := w) (c := c) (y := y) (s := "addr") (n := 5) (by decide),
    rest_iff (w := w) (c := c) (y := y) (s := "stip") (n := 5) (by decide),
    rest_iff (w := w) (c := c) (y := y) (s := "stport") (n := 7) (by decide),
    named_cons (c := c) (w := w) (s := "transport") (r := "ransport") (a := 't') (by decide),
    named_cons (c := c) (w := w) (s := "ttl") (r := "tl") (a := 't') (by decide),
    named_cons (c := c) (w := w) (s := "tt") (r := "t") (a := 't') (by decide),
    named_cons (c := c) (w := w) (s := "lr") (r := "r") (a := 'l') (by decide),
    named_cons (c := c) (w := w) (s := "r2") (r := "2") (a := 'r') (by decide),
    named_cons (c := c) (w := w) (s := "maddr") (r := "addr") (a := 'm') (by decide),
    named_cons (c := c) (w := w) (s := "dstip") (r := "stip") (a := 'd') (by decide),
    named_cons (c := c) (w := w) (s := "dstport") (r := "stport") (a := 'd') (by decide)]
  simp only [show "r".toList.map chr = [chr 'r'] from rfl, show "2".toList.map chr = [chr '2'] from rfl,
    show "t".toList.map chr = [chr 't'] from rfl, true_imp_iff]
  by_cases h1 : tolower c = chr 't'
  · simp only [h1, ht, true_and, false_and, if_true, if_false]
    by_cases hx : w.map tolower = "ransport".toList.map chr
    · have hne : "ransport".toList.map chr ≠ "tl".toList.map chr ∧
          "ransport".toList.map chr ≠ [chr 't'] := by
        decide
      simp only [hx, hne, if_true, getD_some, not_false_eq_true, imp_true_iff, and_self]
    by_cases hz : w.map tolower = "tl".toList.map chr
    · simp [hz]
    · simp only [hx, hz, if_false, not_false_eq_true, true_and]
      by_cases hend : w.map tolower = [chr 't'] ∧ y = [] ∧ either past 'l' 'L'
      · simp [hend]
      · rw [if_neg hend]
        exact iff_of_true rfl fun hy' hp hw => hend ⟨hw, hy', hp⟩
  · have hrest : ¬ (tolower c = chr 't' ∧ w.map tolower = "tl".toList.map chr) ∧
        (y = [] → either past 'l' 'L' → ¬ (tolower c = chr 't' ∧ w.map tolower = [chr 't'])) :=
      ⟨fun h => h1 h.1, fun _ _ h => h1 h.1⟩
    refine iff_of_true ?_ hrest
    simp only [h1, false_and, if_false]
    by_cases h2 : tolower c = chr 'l'
    · simp only [h2, hl, true_and, false_and, if_true, if_false]
      split_ifs <;> rfl
    by_cases h3 : tolower c = chr 'r'
    · simp only [h3, hl.1.symm, hl, hd, true_and, false_and, if_true, if_false]
      split_ifs <;> rfl
    by_cases h4 : tolower c = chr 'm'
    · simp only [h4, hl.2.1.symm, hl.2.2.2.symm, hd, true_and, false_and, if_true, if_false]
      split_ifs <;> rfl
    by_cases h5 : tolower c = chr 'd'
    · simp only [h5, hl.2.2.1.symm, hd.1.symm, hd.2.symm, true_and, false_and, if_true, if_false]
      split_ifs <;> rfl
    · simp only [h2, h3, h4, h5, false_and, if_false, getD_none]

/-- **The type of a parameter** is that of its name, without regard to case. -/
theorem class_type (hw : w ≠ []) (hy : ∀ d ∈ y.head?, name_char d = false) :
    (parse_class past cls (w ++ y) w.length).getD .P_OTHER = type_of cls w ↔ Typed past cls w y := by
  obtain ⟨c, w, rfl⟩ := exists_cons_of_ne_nil hw
  cases cls with
  | CLASS_ANY => exact iff_of_true rfl fun h => by cases h
  | CLASS_CONTACT => exact iff_of_true contact_class fun h => by cases h
  | CLASS_URI => exact uri_class hy

end Names

section Scanners

variable {past : UInt8} {cls : PClass} {p : ℕ} {n b a t q w y z rest : Str} {c : Cursor} {x : Item} {r : Param}

/-- What is behind a parameter and its white space: the end of the text, a `;`, a `,` or a `>`. -/
def Behind (rest : Str) : Prop := ∀ d ∈ rest.head?, d = SEMICOLON ∨ d = COMMA ∨ d = GREATER

theorem blank_not_name (d : UInt8) : blank d = true → name_char d = false ∧ token_char d = false :=
  forall_char (p := fun d => blank d = true → name_char d = false ∧ token_char d = false) (by decide) d

theorem char_of_token (d : UInt8) : token_char d = true → d ≠ EQUAL → name_char d = true ∧ blank d = false :=
  forall_char (p := fun d => token_char d = true → d ≠ EQUAL → name_char d = true ∧ blank d = false)
    (by decide) d

theorem behind_char (d : UInt8) (h : d = SEMICOLON ∨ d = COMMA ∨ d = GREATER) : blank d = false ∧ d ≠ EQUAL ∧
    (d ≠ GREATER → name_char d = false ∧ token_char d = false) := by
  rcases h with rfl | rfl | rfl <;> decide

theorem name_of_token (hn : Token n) : ∀ d ∈ n, name_char d = true :=
  fun d hd => (char_of_token d (hn.2 d hd).1 (hn.2 d hd).2.1).1

theorem blanks_of_all {w : Str} (h : w.all blank = true) : Blanks w := List.all_eq_true.1 h

theorem token_of_all {t : Str} (hne : t ≠ [])
    (h : t.all (fun c => token_char c && c != EQUAL && c != GREATER && c != QUOTE) = true) : Token t := by
  refine ⟨hne, fun c hc => ?_⟩
  have hall := List.all_eq_true.1 h c hc
  simp only [Bool.and_eq_true, bne_iff_ne] at hall
  exact ⟨hall.1.1.1, hall.1.1.2, hall.1.2, hall.2⟩

theorem trim_skip (hb : Blanks b) (hy : ∀ d ∈ y.head?, blank d = false) :
    trim_leading ⟨p, b ++ y⟩ = ⟨p + b.length, y⟩ := by
  obtain ⟨hx, -⟩ := (⟨rfl, hb, hy⟩ : Cut blank (b ++ y) b y).takeWhile_eq
  rw [trim_leading, Cursor.skip]
  rw [hx, drop_left]

theorem name_skip (hn : ∀ d ∈ n, name_char d = true) (hy : ∀ d ∈ y.head?, name_char d = false) :
    parse_param_name past cls ⟨p, n ++ y⟩ =
      (⟨(parse_class past cls (n ++ y) n.length).getD .P_OTHER, ⟨p, n.length⟩, none, 0⟩,
        ⟨p + n.length, y⟩) := by
  obtain ⟨hx, -⟩ := (⟨rfl, hn, hy⟩ : Cut name_char (n ++ y) n y).takeWhile_eq
  rw [parse_param_name, Cursor.skip]
  rw [hx, drop_left]

theorem param_name {c' : Cursor} (h : parse_param past cls c = some (r, c')) :
    r.name = ⟨c.pos, (c.s.takeWhile name_char).length⟩ := by
  unfold parse_param at h
  dsimp only at h
  split_ifs at h with h1 h2
  · obtain ⟨⟨s, c2⟩, -, heq⟩ := map_eq_some_iff.1 h
    rw [← (Prod.mk.inj heq).1]
    rfl
  · rw [← (Prod.mk.inj (some.inj h)).1]
    rfl

/-- A scanner that meets `>` goes on. -/
theorem takeWhile_longer {f : UInt8 → Bool} (hn : ∀ d ∈ n, f d = true) (hg : f GREATER = true)
    (hy : y.head? = some GREATER) : n.length < ((n ++ y).takeWhile f).length := by
  obtain ⟨z, rfl⟩ := head?_eq_some_iff.1 hy
  rw [takeWhile_append_of_pos hn, takeWhile_cons_of_pos hg, length_append, length_cons]
  omega

/-- White space, or what is behind it, ends a name and a token, but for a `>`. -/
theorem after_stops (ha : Blanks a) (hr : Behind rest) (hgt : rest.head? = some GREATER → a ≠ []) :
    ∀ d ∈ (a ++ rest).head?, name_char d = false ∧ token_char d = false := by
  cases a with
  | nil =>
    intro d hd
    exact (behind_char d (hr d hd)).2.2 fun hg => hgt (hg ▸ hd) rfl
  | cons e a =>
    intro d hd
    cases hd
    exact blank_not_name e (ha e mem_cons_self)

theorem assign_stops (hb : Blanks b) : ∀ d ∈ (b ++ EQUAL :: z).head?, name_char d = false := by
  cases b with
  | nil =>
    intro d hd
    cases hd
    decide
  | cons e b =>
    intro d hd
    cases hd
    exact (blank_not_name e (hb e mem_cons_self)).1

theorem bare_param (hn : ∀ d ∈ n, name_char d = true) (ha : Blanks a) (hr : Behind rest)
    (hgt : rest.head? = some GREATER → a ≠ []) : parse_param past cls ⟨p, n ++ (a ++ rest)⟩ =
      some (⟨(parse_class past cls (n ++ (a ++ rest)) n.length).getD .P_OTHER, ⟨p, n.length⟩, none, n.length⟩,
        ⟨p + n.length + a.length, rest⟩) := by
  have hy := fun d hd => (after_stops ha hr hgt d hd).1
  have hne : rest.head? ≠ some EQUAL := fun h => (behind_char EQUAL (hr EQUAL h)).2.1 rfl
  rw [parse_param, name_skip hn hy]
  dsimp only
  rw [trim_skip ha fun d hd => (behind_char d (hr d hd)).1, if_neg hne]

theorem assigned_param (hn : ∀ d ∈ n, name_char d = true) (hb : Blanks b) (ha : Blanks a)
    (hz : ∀ d ∈ z.head?, blank d = false) (hne : z ≠ []) :
    parse_param past cls ⟨p, n ++ (b ++ EQUAL :: (a ++ z))⟩ =
      (parse_param_body ⟨p + n.length + b.length + 1 + a.length, z⟩).map fun (s, c) =>
        (⟨(parse_class past cls (n ++ (b ++ EQUAL :: (a ++ z))) n.length).getD .P_OTHER, ⟨p, n.length⟩, some s,
          c.pos - p⟩, trim_leading c) := by
  have heq : ∀ d ∈ (EQUAL :: (a ++ z)).head?, blank d = false := fun d hd => by
    cases hd
    decide
  have hskip : (⟨p + n.length + b.length, EQUAL :: (a ++ z)⟩ : Cursor).skip 1 =
      ⟨p + n.length + b.length + 1, a ++ z⟩ := rfl
  rw [parse_param, name_skip hn (assign_stops hb)]
  dsimp only
  rw [trim_skip hb heq]
  dsimp only
  rw [if_pos head?_cons, hskip, trim_skip ha hz]
  dsimp only
  rw [if_neg hne]

theorem quote_body (s : Str) : parse_param_body ⟨p, QUOTE :: (s ++ QUOTE :: z)⟩ =
    some (⟨p + 1, (s ++ QUOTE :: z).findIdx (· = QUOTE)⟩, ⟨p + 1 + ((s ++ QUOTE :: z).findIdx (· = QUOTE) + 1),
        (s ++ QUOTE :: z).drop ((s ++ QUOTE :: z).findIdx (· = QUOTE) + 1)⟩) := by
  have hlen : ¬ (QUOTE :: (s ++ QUOTE :: z)).length < 2 := by
    rw [length_cons, length_append, length_cons]
    omega
  have hskip : (⟨p, QUOTE :: (s ++ QUOTE :: z)⟩ : Cursor).skip 1 = ⟨p + 1, s ++ QUOTE :: z⟩ := rfl
  rw [parse_param_body, if_pos head?_cons, parse_quoted_param, if_neg hlen, hskip]
  rw [findIdx?_eq_some_of_exists ⟨QUOTE, by simp, by simp⟩, map_some]
  rfl

theorem findIdx_quote (h : QUOTE ∉ q) : (q ++ QUOTE :: z).findIdx (· = QUOTE) = q.length := by
  rw [findIdx_append, if_neg, findIdx_cons]
  · simp
  · rw [findIdx_lt_length, not_exists]
    rintro d ⟨hd, he⟩
    exact h (of_decide_eq_true he ▸ hd)

theorem findIdx_inner (h : QUOTE ∈ q) : (q ++ QUOTE :: z).findIdx (· = QUOTE) < q.length := by
  have hlt : q.findIdx (· = QUOTE) < q.length := findIdx_lt_length_of_exists ⟨QUOTE, h, by simp⟩
  rw [findIdx_append, if_pos hlt]
  exact hlt

theorem token_body (ht : Token t) : parse_param_body ⟨p, t ++ z⟩ =
    some (⟨p, ((t ++ z).takeWhile token_char).length⟩,
      (⟨p, t ++ z⟩ : Cursor).skip ((t ++ z).takeWhile token_char).length) := by
  obtain ⟨d, t, rfl⟩ := exists_cons_of_ne_nil ht.1
  have hd := ht.2 d mem_cons_self
  have hne : (d :: t ++ z).head? ≠ some QUOTE := fun h => hd.2.2.2 (some.inj h)
  have hlen : ((d :: t ++ z).takeWhile token_char).length ≠ 0 := by
    rw [cons_append, takeWhile_cons_of_pos hd.1]
    exact Nat.succ_ne_zero _
  rw [parse_param_body, if_neg hne, parse_token_param]
  rw [if_neg hlen]

theorem body_start {body : Body} (h : body.Formed) :
    (∀ d ∈ (body.text ++ z).head?, blank d = false) ∧ body.text ++ z ≠ [] := by
  cases body with
  | token t =>
    obtain ⟨d, t, rfl⟩ := exists_cons_of_ne_nil (h : Token t).1
    refine ⟨fun e he => ?_, cons_ne_nil _ _⟩
    cases he
    have hd := (h : Token (d :: t)).2 d mem_cons_self
    exact (char_of_token d hd.1 hd.2.1).2
  | quoted q =>
    refine ⟨fun e he => ?_, cons_ne_nil _ _⟩
    cases he
    decide

theorem assign_append {b a z : Str} {body : Body} (hv : x.value = some (b, a, body)) :
    x.assign ++ z = b ++ EQUAL :: (a ++ (body.text ++ z)) := by
  rw [Item.assign, hv]
  simp

/-- A body is read when its quotes are not escaped, and a `>` does not follow its token. -/
theorem body_plain {body : Body} (hf : body.Formed) (hq : ∀ q, body = .quoted q → QUOTE ∉ q)
    (ht : (∃ t, body = .token t) → ∀ d ∈ z.head?, token_char d = false) :
    parse_param_body ⟨p, body.text ++ z⟩ = some (body.span p, ⟨p + body.text.length, z⟩) := by
  cases body with
  | token t =>
    obtain ⟨hx, -⟩ := (⟨rfl, fun d hd => ((hf : Token t).2 d hd).1, ht ⟨t, rfl⟩⟩ :
      Cut token_char (t ++ z) t z).takeWhile_eq
    show parse_param_body ⟨p, t ++ z⟩ = _
    rw [token_body hf, hx, Cursor.skip]
    rw [drop_left]
    rfl
  | quoted q =>
    have htext : (Body.quoted q).text ++ z = QUOTE :: (q ++ QUOTE :: z) := by simp [Body.text]
    have hdrop : (q ++ QUOTE :: z).drop (q.length + 1) = z := by
      rw [← drop_drop, drop_left]
      rfl
    rw [htext, quote_body, findIdx_quote (hq q rfl), hdrop, Body.span, Body.text]
    simp only [length_cons, length_append, length_nil]
    congr 3
    omega

/-- **A plain parameter** is read, up to what is behind it. -/
theorem param_plain (hx : x.Formed) (hr : Behind rest) (hp : Plain past cls x rest) :
    parse_param past cls ⟨p, x.name ++ (x.assign ++ (x.after ++ rest))⟩ =
      some (x.param cls p, ⟨p + (x.name ++ x.assign ++ x.after).length, rest⟩) := by
  have hn := name_of_token hx.name
  have hbehind := fun d hd => (behind_char d (hr d hd)).1
  cases hv : x.value with
  | none =>
    have hgt : rest.head? = some GREATER → x.after ≠ [] := fun hg ha => by
      obtain ⟨b, a, q, hq⟩ := hp.apart hg ha
      rw [hv] at hq
      cases hq
    have hassign : x.assign = [] := by rw [Item.assign, hv]
    have hty := hp.typed
    rw [hassign, nil_append] at hty
    have ht := (class_type hx.name.1 fun d hd => (after_stops hx.after hr hgt d hd).1).2 hty
    rw [hassign, nil_append, bare_param hn hx.after hr hgt, ht, Item.param, hv, hassign]
    simp [add_assoc]
  | some v =>
    obtain ⟨b, a, body⟩ := v
    obtain ⟨hb, ha, hbody⟩ := hx.value b a body hv
    obtain ⟨hz, hne⟩ := body_start (z := x.after ++ rest) hbody
    have hty := hp.typed
    rw [assign_append hv] at hty ⊢
    have ht := (class_type hx.name.1 (assign_stops hb)).2 hty
    have hread := body_plain (p := p + x.name.length + b.length + 1 + a.length) (z := x.after ++ rest) hbody
      (fun q hq => hp.unescaped b a q (hq ▸ hv)) fun ⟨t, ht⟩ d hd => by
        refine (after_stops hx.after hr (fun hg ha => ?_) d hd).2
        obtain ⟨b', a', q, hq⟩ := hp.apart hg ha
        rw [hv, ht] at hq
        cases hq
    rw [assigned_param hn hb ha hz hne, hread, ht, map_some]
    dsimp only
    rw [trim_skip hx.after hbehind, Item.param, hv, Item.assign, hv]
    simp only [map_some, length_append, length_cons]
    congr 3
    · omega
    · omega

theorem plain_of_param (hx : x.Formed) (hr : Behind rest)
    (h : parse_param past cls ⟨p, x.name ++ (x.assign ++ (x.after ++ rest))⟩ = some (x.param cls p, c)) :
    Plain past cls x rest := by
  have hn := name_of_token hx.name
  cases hv : x.value with
  | none =>
    have hassign : x.assign = [] := by rw [Item.assign, hv]
    rw [hassign, nil_append] at h
    have hgt : rest.head? = some GREATER → x.after ≠ [] := fun hg ha => by
      have hname := param_name h
      rw [ha, nil_append] at hname
      have hlong := takeWhile_longer (f := name_char) hn (by decide) hg
      have hlen : x.name.length = ((x.name ++ rest).takeWhile name_char).length := congrArg Span.len hname
      omega
    rw [bare_param hn hx.after hr hgt] at h
    have ht := congrArg Param.type (Prod.mk.inj (some.inj h)).1
    refine ⟨?_, fun b a q hq => ?_, fun hg ha => absurd ha (hgt hg)⟩
    · rw [hassign, nil_append]
      exact (class_type hx.name.1 fun d hd => (after_stops hx.after hr hgt d hd).1).1 ht
    · rw [hv] at hq
      cases hq
  | some v =>
    obtain ⟨b, a, body⟩ := v
    obtain ⟨hb, ha, hbody⟩ := hx.value b a body hv
    obtain ⟨hz, hne⟩ := body_start (z := x.after ++ rest) hbody
    rw [assign_append hv, assigned_param hn hb ha hz hne] at h
    obtain ⟨⟨s, c2⟩, hread, heq⟩ := map_eq_some_iff.1 h
    have hparam := (Prod.mk.inj heq).1
    have ht := congrArg Param.type hparam
    have hs : some s = some (body.span (p + x.name.length + b.length + 1 + a.length)) := by
      have := congrArg Param.body hparam
      rwa [Item.param, hv] at this
    refine ⟨?_, fun b' a' q hq hmem => ?_, fun hg haft => ?_⟩
    · rw [assign_append hv]
      exact (class_type hx.name.1 (assign_stops hb)).1 ht
    · rw [hv] at hq
      obtain rfl : body = .quoted q := (Prod.mk.inj (Prod.mk.inj (some.inj hq)).2).2
      have htext : (Body.quoted q).text ++ (x.after ++ rest) = QUOTE :: (q ++ QUOTE :: (x.after ++ rest)) := by
        simp [Body.text]
      rw [htext, quote_body] at hread
      have hlen := congrArg Span.len ((Prod.mk.inj (some.inj hread)).1.trans (some.inj hs))
      have hlt := findIdx_inner (z := x.after ++ rest) hmem
      exact absurd hlen (ne_of_lt hlt)
    · cases body with
      | quoted q => exact ⟨b, a, q, hv⟩
      | token t =>
        have htok : parse_param_body ⟨p + x.name.length + b.length + 1 + a.length, t ++ (x.after ++ rest)⟩ =
          some (s, c2) := hread
        rw [token_body hbody] at htok
        have hlen := congrArg Span.len ((Prod.mk.inj (some.inj htok)).1.trans (some.inj hs))
        have hlong := takeWhile_longer (f := token_char) (n := t) (fun d hd => ((hbody : Token t).2 d hd).1)
          (by decide) hg
        rw [haft, nil_append] at hlen
        exact absurd hlen (ne_of_gt hlong)

end Scanners

section Loop

variable {past : UInt8} {cls : PClass} {x y : Item} {xs : List Item} {stop z : Str} {c c' : Cursor} {t : Param}
  {ps ps' : List Param} {h h' : Hooks}

/-- The cursor at the name of a parameter of the text at `pos`. -/
def Item.cursor (x : Item) (pos : ℕ) (z : Str) : Cursor :=
  ⟨pos + x.before.length, x.name ++ (x.assign ++ (x.after ++ z))⟩

theorem tail_behind (hs : Stop stop) (xs : List Item) : Behind (tail xs stop) := by
  cases xs with
  | nil => exact fun d hd => .inr (hs d hd)
  | cons x xs => exact fun d hd => .inl (some.inj hd).symm

theorem tail_append (xs : List Item) (stop : Str) : tail xs stop = tail xs [] ++ stop := by
  induction xs with
  | nil => rfl
  | cons x xs ih => rw [tail, tail, ih, cons_append, append_assoc]

theorem length_le_tail (xs : List Item) : xs.length ≤ (tail xs []).length := by
  induction xs with
  | nil => exact Nat.le_refl 0
  | cons x xs ih =>
    rw [tail, length_cons, length_cons, length_append]
    omega

/-- The parameter behind a `;`. -/
theorem next_item (hx : x.Formed) (pos : ℕ) :
    trim_leading ⟨pos, x.text ++ z⟩ = x.cursor pos z ∧ (x.cursor pos z).s ≠ [] := by
  obtain ⟨d, n, hn⟩ := exists_cons_of_ne_nil hx.name.1
  have hd := hx.name.2 d (hn ▸ mem_cons_self)
  have htext : x.text ++ z = x.before ++ (x.name ++ (x.assign ++ (x.after ++ z))) := by
    rw [Item.text]
    simp only [append_assoc]
  constructor
  · rw [htext, trim_skip hx.before]
    · rfl
    · intro e he
      rw [hn] at he
      cases he
      exact (char_of_token d hd.1 hd.2.1).2
  · rw [Item.cursor, hn]
    exact cons_ne_nil _ _

theorem Hooked.note (hh : Hooked h ps) (t : Param) : Hooked (note h t ps.length) (ps ++ [t]) := by
  intro ty i
  have hother : t.type ≠ ty ∨ ty = .P_OTHER → (ty ≠ .P_OTHER ∧ Last ty (ps ++ [t]) i ↔
      ty ≠ .P_OTHER ∧ Last ty ps i) := by
    intro hne
    refine and_congr_right fun hty => ?_
    have hsame : ∀ j : ℕ, (ps ++ [t])[j]?.map Param.type = some ty ↔ ps[j]?.map Param.type = some ty := by
      intro j
      rcases lt_trichotomy j ps.length with hj | rfl | hj
      · rw [getElem?_append_left hj]
      · have hno : t.type ≠ ty := hne.resolve_right hty
        simp [hno]
      · have hlen : (ps ++ [t]).length ≤ j := by
          rw [length_append, length_singleton]
          omega
        rw [getElem?_eq_none hlen, getElem?_eq_none (le_of_lt hj)]
    unfold Last
    simp only [ne_eq, hsame]
  rw [ParseParam.note]
  by_cases ht : t.type = .P_OTHER
  · rw [if_pos ht, hh ty i, hother]
    by_cases hty : ty = .P_OTHER
    · exact .inr hty
    · exact .inl fun h => hty (h ▸ ht)
  · rw [if_neg ht]
    by_cases hty : ty = t.type
    · subst hty
      rw [update_self]
      constructor
      · intro hi
        cases hi
        refine ⟨ht, by simp, fun j hj => ?_⟩
        have hlen : (ps ++ [t]).length ≤ j := by
          rw [length_append, length_singleton]
          omega
        rw [getElem?_eq_none hlen]
        exact some_ne_none _ |>.symm
      · rintro ⟨-, hi, hlast⟩
        rcases lt_trichotomy i ps.length with hlt | rfl | hgt
        · have hnew : (ps ++ [t])[ps.length]?.map Param.type = some t.type := by simp
          exact absurd hnew (hlast ps.length hlt)
        · rfl
        · have hlen : (ps ++ [t]).length ≤ i := by
            rw [length_append, length_singleton]
            omega
          rw [getElem?_eq_none hlen] at hi
          cases hi
    · rw [update_of_ne hty, hh ty i, hother (.inl fun h => hty h.symm)]

theorem text_length (x : Item) (pos : ℕ) :
    pos + x.before.length + (x.name ++ x.assign ++ x.after).length = pos + x.text.length := by
  simp only [Item.text, length_append]
  omega

theorem loop_last (hx : x.Formed) (hs : Stop stop) (hp : Plain past cls x stop) (fuel pos : ℕ) :
    parse_params_loop past cls (fuel + 1) (x.cursor pos stop) ps h =
      some (⟨pos + x.text.length, stop⟩, ps ++ [x.param cls (pos + x.before.length)],
        note h (x.param cls (pos + x.before.length)) ps.length) := by
  have hbehind : Behind stop := tail_behind hs []
  rw [parse_params_loop, Item.cursor, param_plain hx hbehind hp, text_length]
  dsimp only
  cases stop with
  | nil => rfl
  | cons d stop =>
    dsimp only
    rw [if_pos (hs d rfl)]

/-- A parameter and the `;` behind it. -/
theorem loop_more (hx : x.Formed) (hy : y.Formed) (hs : Stop stop)
    (hp : Plain past cls x (tail (y :: xs) stop)) (fuel pos : ℕ) :
    parse_params_loop past cls (fuel + 1) (x.cursor pos (tail (y :: xs) stop)) ps h =
      parse_params_loop past cls fuel (y.cursor (pos + x.text.length + 1) (tail xs stop))
        (ps ++ [x.param cls (pos + x.before.length)]) (note h (x.param cls (pos + x.before.length)) ps.length) := by
  obtain ⟨hnext, hne⟩ := next_item (z := tail xs stop) hy (pos + x.text.length + 1)
  have hskip : (⟨pos + x.text.length, tail (y :: xs) stop⟩ : Cursor).skip 1 =
      ⟨pos + x.text.length + 1, y.text ++ tail xs stop⟩ := rfl
  rw [parse_params_loop, Item.cursor, param_plain hx (tail_behind hs (y :: xs)) hp, text_length]
  dsimp only
  rw [hskip, hnext]
  simp only [tail]
  rw [if_neg (by decide), if_neg (by decide), if_neg hne]

theorem loop_grows : ∀ {fuel c ps h}, parse_params_loop past cls fuel c ps h = some (c', ps', h') →
    ∃ t c1 more, parse_param past cls c = some (t, c1) ∧ ps' = ps ++ t :: more
  | 0, _, _, _, heq => by cases heq
  | fuel + 1, c, ps, h, heq => by
    rw [parse_params_loop] at heq
    cases ht : parse_param past cls c with
    | none =>
      rw [ht] at heq
      cases heq
    | some q =>
      obtain ⟨t, c1⟩ := q
      rw [ht] at heq
      dsimp only at heq
      refine ⟨t, c1, ?_⟩
      split at heq
      · exact ⟨[], rfl, (Prod.mk.inj (Prod.mk.inj (some.inj heq)).2).1.symm⟩
      · split_ifs at heq
        · exact ⟨[], rfl, (Prod.mk.inj (Prod.mk.inj (some.inj heq)).2).1.symm⟩
        · obtain ⟨t', -, more, -, rfl⟩ := loop_grows heq
          exact ⟨t' :: more, rfl, by rw [append_assoc]; rfl⟩

/-- **Plain parameters are read in order**, up to what stops the parser. -/
theorem loop_plain (hs : Stop stop) : ∀ {xs x} fuel pos ps {h}, (∀ y ∈ x :: xs, y.Formed) →
    AllPlain past cls (x :: xs) stop → xs.length < fuel → Hooked h ps →
    ∃ h', parse_params_loop past cls fuel (x.cursor pos (tail xs stop)) ps h =
        some (⟨pos + x.text.length + (tail xs []).length, stop⟩, ps ++ params cls pos (x :: xs), h') ∧
      Hooked h' (ps ++ params cls pos (x :: xs))
  | [], x, fuel + 1, pos, ps, h, hx, hp, _, hh =>
    ⟨_, loop_last (hx x mem_cons_self) hs hp.1 fuel pos, hh.note _⟩
  | y :: xs, x, fuel + 1, pos, ps, h, hx, hp, hlt, hh => by
    have hyx : y ∈ x :: y :: xs := mem_cons_of_mem x mem_cons_self
    obtain ⟨h', heq, hh'⟩ := loop_plain hs fuel (pos + x.text.length + 1) _
      (fun w hw => hx w (mem_cons_of_mem x hw)) hp.2 (Nat.lt_of_succ_lt_succ hlt)
      (hh.note (x.param cls (pos + x.before.length)))
    have hlen : pos + x.text.length + 1 + y.text.length + (tail xs []).length =
        pos + x.text.length + (tail (y :: xs) []).length := by
      rw [tail, length_cons, length_append]
      omega
    rw [append_assoc] at heq hh'
    refine ⟨h', ?_, hh'⟩
    rw [loop_more (hx x mem_cons_self) (hx y hyx) hs hp.1, heq, hlen]
    rfl

theorem plain_of_loop (hs : Stop stop) : ∀ {xs x fuel pos} ps {h}, (∀ y ∈ x :: xs, y.Formed) →
    parse_params_loop past cls fuel (x.cursor pos (tail xs stop)) ps h =
      some (c', ps ++ params cls pos (x :: xs), h') → AllPlain past cls (x :: xs) stop
  | xs, x, fuel, pos, ps, h, hx, heq => by
    obtain ⟨t, c1, more, ht, hps⟩ := loop_grows heq
    obtain ⟨rfl, -⟩ := cons.inj (append_cancel_left hps)
    have hplain := plain_of_param (hx x mem_cons_self) (tail_behind hs xs) ht
    refine ⟨hplain, ?_⟩
    match xs, fuel with
    | [], _ => trivial
    | y :: xs, 0 => cases heq
    | y :: xs, fuel + 1 =>
      have hyx : y ∈ x :: y :: xs := mem_cons_of_mem x mem_cons_self
      rw [loop_more (hx x mem_cons_self) (hx y hyx) hs hplain] at heq
      refine plain_of_loop hs _ (fun w hw => hx w (mem_cons_of_mem x hw)) (heq.trans ?_)
      rw [append_assoc]
      rfl

theorem first_cursor (hb : x.before = []) (pos : ℕ) (z : Str) : (⟨pos, x.text ++ z⟩ : Cursor) = x.cursor pos z := by
  rw [Item.cursor, Item.text, hb]
  simp

theorem params_at_plain (hx : ∀ y ∈ x :: xs, y.Formed) (hb : x.before = []) (hs : Stop stop)
    (hp : AllPlain past cls (x :: xs) stop) (pos : ℕ) :
    ∃ h, parse_params_at past cls ⟨pos, x.text ++ tail xs stop⟩ =
        some (⟨pos + x.text.length + (tail xs []).length, stop⟩, params cls pos (x :: xs), h) ∧
      Hooked h (params cls pos (x :: xs)) := by
  have hlt : xs.length < (x.text ++ tail xs stop).length + 1 := by
    have := length_le_tail xs
    rw [tail_append, length_append, length_append]
    omega
  obtain ⟨h, heq, hh⟩ := loop_plain hs _ pos [] (h := fun _ => none) hx hp hlt fun t i => by
    simp [Last]
  refine ⟨h, ?_, hh⟩
  rw [← first_cursor hb] at heq
  exact heq

theorem plain_of_params_at (hx : ∀ y ∈ x :: xs, y.Formed) (hb : x.before = []) (hs : Stop stop) {pos : ℕ}
    (heq : parse_params_at past cls ⟨pos, x.text ++ tail xs stop⟩ = some (c', params cls pos (x :: xs), h')) :
    AllPlain past cls (x :: xs) stop := by
  rw [parse_params_at, first_cursor hb] at heq
  exact plain_of_loop hs [] hx heq

theorem params_at_blank (hx : x.Formed) (hb : x.before ≠ []) (pos : ℕ) (z : Str) :
    parse_params_at past cls ⟨pos, x.text ++ z⟩ = none := by
  obtain ⟨d, n, hn⟩ := exists_cons_of_ne_nil hx.name.1
  have hd := hx.name.2 d (hn ▸ mem_cons_self)
  obtain ⟨hname, hplain⟩ := char_of_token d hd.1 hd.2.1
  have hsep : ¬ (d = COMMA ∨ d = GREATER) ∧ d ≠ SEMICOLON := by
    refine ⟨not_or.2 ⟨?_, hd.2.2.1⟩, ?_⟩
    · rintro rfl
      cases hname
    · rintro rfl
      cases hname
  have hempty : (x.text ++ z).takeWhile name_char = [] := by
    obtain ⟨e, b, hbe⟩ := exists_cons_of_ne_nil hb
    rw [Item.text, hbe]
    apply takeWhile_cons_of_neg
    rw [(blank_not_name e (hx.before e (hbe ▸ mem_cons_self))).1]
    exact Bool.false_ne_true
  obtain ⟨hnext, hne⟩ := next_item (z := z) hx pos
  have hs : (x.cursor pos z).s = d :: (n ++ (x.assign ++ (x.after ++ z))) := by
    rw [Item.cursor, hn]
    rfl
  have hhead : ¬ (x.cursor pos z).s.head? = some EQUAL := by
    rw [hs]
    exact fun he => hd.2.1 (some.inj he)
  have hparam : parse_param past cls ⟨pos, x.text ++ z⟩ =
      some (⟨(parse_class past cls (x.text ++ z) 0).getD .P_OTHER, ⟨pos, 0⟩, none, 0⟩, x.cursor pos z) := by
    have hskip : (⟨pos, x.text ++ z⟩ : Cursor).skip 0 = ⟨pos, x.text ++ z⟩ := rfl
    rw [parse_param, parse_param_name, hempty, length_nil]
    dsimp only
    rw [hskip, hnext, if_neg hhead]
  rw [parse_params_at, parse_params_loop, hparam]
  dsimp only
  rw [hs]
  dsimp only
  rw [if_neg hsep.1, if_pos hsep.2]

/-- **`parse_params` returns the parameters of a text**, in order, with their types, their hooks and the
slices of their names and bodies, and stops where the text does, exactly when they are plain. -/
theorem parse_params_spec (past : UInt8) (cls : PClass) (hx : ∀ y ∈ x :: xs, y.Formed) (hb : x.before = [])
    (hs : Stop stop) :
    (∃ h, parse_params past cls (x.text ++ tail xs stop) =
        some (⟨(x.text ++ tail xs []).length, stop⟩, params cls 0 (x :: xs), h) ∧
      Hooked h (params cls 0 (x :: xs))) ↔ AllPlain past cls (x :: xs) stop := by
  constructor
  · rintro ⟨h, heq, -⟩
    exact plain_of_params_at hx hb hs heq
  · intro hp
    obtain ⟨h, heq, hh⟩ := params_at_plain hx hb hs hp 0
    refine ⟨h, ?_, hh⟩
    rw [length_append, ← Nat.zero_add x.text.length]
    exact heq

theorem plain_any : ∀ {xs : List Item}, AllPlain past .CLASS_ANY xs [] ↔
    ∀ y ∈ xs, ∀ b a q, y.value = some (b, a, .quoted q) → QUOTE ∉ q
  | [] => iff_of_true trivial fun y hy => absurd hy not_mem_nil
  | x :: xs => by
    have hno : (tail xs []).head? ≠ some GREATER := by
      cases xs with
      | nil => exact (some_ne_none _).symm
      | cons y xs => exact fun h => absurd (some.inj h) (by decide)
    rw [AllPlain, plain_any, forall_mem_cons]
    refine and_congr_left fun _ => ⟨fun h => h.unescaped, fun h => ⟨fun hc => (by cases hc), h, fun hg => ?_⟩⟩
    exact absurd hg hno

/-- A parameter with this body, and no white space. -/
def single (name : String) (body : Option Body) : Item :=
  ⟨[], name.toList.map chr, body.map fun b => ([], [], b), []⟩

/-- **Parameters that are not read**: `lr` and the body `udp` in front of a `>`, `ttl`, and a body with an
escaped quote. -/
theorem params_misread :
    ¬ (∃ h, parse_params 0 .CLASS_URI ((single "lr" none).text ++ tail [] [GREATER]) =
        some (⟨2, [GREATER]⟩, params .CLASS_URI 0 [single "lr" none], h)) ∧
    ¬ (∃ h, parse_params 0 .CLASS_URI ((single "transport" (some (.token ("udp".toList.map chr)))).text ++
          tail [] [GREATER]) =
        some (⟨13, [GREATER]⟩, params .CLASS_URI 0 [single "transport" (some (.token ("udp".toList.map chr)))],
          h)) ∧
    ¬ (∃ h, parse_params 0 .CLASS_URI ((single "ttl" (some (.token ("5".toList.map chr)))).text ++ tail [] []) =
        some (⟨5, []⟩, params .CLASS_URI 0 [single "ttl" (some (.token ("5".toList.map chr)))], h)) ∧
    ¬ (∃ h, parse_params 0 .CLASS_ANY ((single "a" (some (.quoted ("b\\\"c".toList.map chr)))).text ++
          tail [] []) =
        some (⟨8, []⟩, params .CLASS_ANY 0 [single "a" (some (.quoted ("b\\\"c".toList.map chr)))], h)) := by
  have key : ∀ {cls : PClass} {s : Str} {c : Cursor} {ps : List Param},
      (parse_params 0 cls s).map (fun r => (r.1, r.2.1)) ≠ some (c, ps) →
      ¬ ∃ h, parse_params 0 cls s = some (c, ps, h) := by
    rintro cls s c ps hne ⟨h, heq⟩
    rw [heq] at hne
    exact hne rfl
  refine ⟨key ?_, key ?_, key ?_, key ?_⟩
  · decide
  · decide
  · decide
  · decide

/-- `q=0.7 ; Expires = "36" ,b`. -/
theorem parse_params_q : ∃ h, parse_params 0 .CLASS_CONTACT ("q=0.7 ; Expires = \"36\" ,b".toList.map chr) =
      some (⟨23, ",b".toList.map chr⟩,
        [⟨.P_Q, ⟨0, 1⟩, some ⟨2, 3⟩, 5⟩, ⟨.P_EXPIRES, ⟨8, 7⟩, some ⟨19, 2⟩, 14⟩], h) ∧
    h .P_EXPIRES = some 1 := by
  obtain ⟨x, hx⟩ : ∃ x : Item, x = ⟨[], "q".toList.map chr,
    some ([], [], .token ("0.7".toList.map chr)), " ".toList.map chr⟩ := ⟨_, rfl⟩
  obtain ⟨y, hy⟩ : ∃ y : Item, y = ⟨" ".toList.map chr, "Expires".toList.map chr,
    some (" ".toList.map chr, " ".toList.map chr, .quoted ("36".toList.map chr)), " ".toList.map chr⟩ := ⟨_, rfl⟩
  have hblank : Blanks (" ".toList.map chr) := blanks_of_all (by decide)
  have hnil : Blanks [] := blanks_of_all rfl
  have hxf : x.Formed := by
    subst hx
    refine ⟨hnil, token_of_all (by decide) (by decide), ?_, hblank⟩
    rintro b a body ⟨⟩
    exact ⟨hnil, hnil, token_of_all (by decide) (by decide)⟩
  have hyf : y.Formed := by
    subst hy
    refine ⟨hblank, token_of_all (by decide) (by decide), ?_, hblank⟩
    rintro b a body ⟨⟩
    exact ⟨hblank, hblank, .plain (by decide) (by decide)
      (.plain (by decide) (by decide) .nil)⟩
  have hplain : AllPlain 0 .CLASS_CONTACT [x, y] (",b".toList.map chr) := by
    subst hx hy
    refine ⟨⟨fun h => (by cases h), ?_, fun _ h => (by cases h)⟩,
      ⟨fun h => (by cases h), ?_, fun _ h => (by cases h)⟩, trivial⟩
    · rintro b a q ⟨⟩
    · rintro b a q ⟨⟩
      decide
  have hstop : Stop (",b".toList.map chr) := fun c hc => by
    obtain rfl := some.inj hc
    exact .inl rfl
  have hformed : ∀ w ∈ x :: [y], w.Formed := by
    intro w hw
    rcases mem_cons.1 hw with rfl | hw
    · exact hxf
    · rwa [mem_singleton.1 hw]
  obtain ⟨h, heq, hh⟩ := (parse_params_spec 0 .CLASS_CONTACT hformed (by rw [hx]) hstop).2 hplain
  subst hx hy
  refine ⟨h, heq, ?_⟩
  exact (hh .P_EXPIRES 1).2 ⟨by decide, by decide, fun j hj => by
    obtain ⟨j, rfl⟩ := Nat.exists_eq_add_of_le' hj
    exact (some_ne_none _).symm⟩

end Loop

end OpenSips.ParseParam
