import Mathlib.Data.List.Nodup
import OpenSips.Lib.Trie
import OpenSips.Parser.Numbers
import OpenSips.Parser.Param

/-!
# OpenSips.Parser.Content — the mime type of a body (`parse_content.c`)

`decode_mime_type` looks for the type and the subtype in two tables of first sons and next siblings, then
parses the parameters, or passes over them up to a `,`.  The walk down a table goes on at the first son of the
node found and stays at a leaf, and the code is that of the node where it has come to: the last letter of a
name may be missing, or stand there more than once.
-/

namespace OpenSips.Mime

open Lib Trie Option
open List hiding lookup
open FirstLine (forall_char has tolower)
open Numbers (LF is_space skip_lws)
open ParseParam (COMMA Param SEMICOLON Span parse_params)

section Tables

def TYPE_TEXT := 1
def TYPE_MESSAGE := 2
def TYPE_APPLICATION := 3
def TYPE_MULTIPART := 4
def TYPE_ALL := 0xfe
def TYPE_UNKNOWN := 0xff

def SUBTYPE_PLAIN := 1
def SUBTYPE_CPIM := 2
def SUBTYPE_SDP := 3
def SUBTYPE_CPLXML := 4
def SUBTYPE_PIDFXML := 5
def SUBTYPE_RLMIXML := 6
def SUBTYPE_RELATED := 7
def SUBTYPE_LPIDFXML := 8
def SUBTYPE_XPIDFXML := 9
def SUBTYPE_WATCHERINFOXML := 10
def SUBTYPE_EXTERNAL_BODY := 11
def SUBTYPE_XML_MSRTC_PIDF := 12
def SUBTYPE_SMS := 13
def SUBTYPE_MIXED := 14
def SUBTYPE_ALL := 0xfe
def SUBTYPE_UNKNOWN := 0xff

/-- A line of a table. -/
def node (c : Char) (final nr_sons : ℕ) (next : ℤ) : Node UInt8 ℕ :=
  ⟨chr c, final, nr_sons, if next = -1 then none else some next.toNat⟩

def type_tree : List (Node UInt8 ℕ) :=
  [node 't' TYPE_UNKNOWN 1 4, node 'e' TYPE_UNKNOWN 1 (-1), node 'x' TYPE_UNKNOWN 1 (-1),
    node 't' TYPE_TEXT 0 (-1), node 'm' TYPE_UNKNOWN 2 19, node 'e' TYPE_UNKNOWN 1 11,
    node 's' TYPE_UNKNOWN 1 (-1), node 's' TYPE_UNKNOWN 1 (-1), node 'a' TYPE_UNKNOWN 1 (-1),
    node 'g' TYPE_UNKNOWN 1 (-1), node 'e' TYPE_MESSAGE 0 (-1), node 'u' TYPE_UNKNOWN 1 (-1),
    node 'l' TYPE_UNKNOWN 1 (-1), node 't' TYPE_UNKNOWN 1 (-1), node 'i' TYPE_UNKNOWN 1 (-1),
    node 'p' TYPE_UNKNOWN 1 (-1), node 'a' TYPE_UNKNOWN 1 (-1), node 'r' TYPE_UNKNOWN 1 (-1),
    node 't' TYPE_MULTIPART 0 (-1), node 'a' TYPE_UNKNOWN 1 (-1), node 'p' TYPE_UNKNOWN 1 (-1),
    node 'p' TYPE_UNKNOWN 1 (-1), node 'l' TYPE_UNKNOWN 1 (-1), node 'i' TYPE_UNKNOWN 1 (-1),
    node 'c' TYPE_UNKNOWN 1 (-1), node 'a' TYPE_UNKNOWN 1 (-1), node 't' TYPE_UNKNOWN 1 (-1),
    node 'i' TYPE_UNKNOWN 1 (-1), node 'o' TYPE_UNKNOWN 1 (-1), node 'n' TYPE_APPLICATION 0 (-1)]

def subtype_tree : List (Node UInt8 ℕ) :=
  [node 'p' SUBTYPE_UNKNOWN 2 12, node 'l' SUBTYPE_UNKNOWN 1 5, node 'a' SUBTYPE_UNKNOWN 1 (-1),
    node 'i' SUBTYPE_UNKNOWN 1 (-1), node 'n' SUBTYPE_PLAIN 0 (-1), node 'i' SUBTYPE_UNKNOWN 1 (-1),
    node 'd' SUBTYPE_UNKNOWN 1 (-1), node 'f' SUBTYPE_UNKNOWN 1 (-1),
    node '+' SUBTYPE_UNKNOWN 1 (-1), node 'x' SUBTYPE_UNKNOWN 1 (-1),
    node 'm' SUBTYPE_UNKNOWN 1 (-1), node 'l' SUBTYPE_PIDFXML 0 (-1), node 's' SUBTYPE_UNKNOWN 2 36,
    node 'd' SUBTYPE_UNKNOWN 1 15, node 'p' SUBTYPE_SDP 0 (-1), node 'i' SUBTYPE_UNKNOWN 1 (-1),
    node 'm' SUBTYPE_UNKNOWN 1 (-1), node 'p' SUBTYPE_UNKNOWN 1 (-1),
    node 'l' SUBTYPE_UNKNOWN 1 (-1), node 'e' SUBTYPE_UNKNOWN 1 (-1),
    node '-' SUBTYPE_UNKNOWN 1 (-1), node 'm' SUBTYPE_UNKNOWN 1 (-1),
    node 'e' SUBTYPE_UNKNOWN 1 (-1), node 's' SUBTYPE_UNKNOWN 1 (-1),
    node 's' SUBTYPE_UNKNOWN 1 (-1), node 'a' SUBTYPE_UNKNOWN 1 (-1),
    node 'g' SUBTYPE_UNKNOWN 1 (-1), node 'e' SUBTYPE_UNKNOWN 1 (-1),
    node '-' SUBTYPE_UNKNOWN 1 (-1), node 's' SUBTYPE_UNKNOWN 1 (-1),
    node 'u' SUBTYPE_UNKNOWN 1 (-1), node 'm' SUBTYPE_UNKNOWN 1 (-1),
    node 'm' SUBTYPE_UNKNOWN 1 (-1), node 'a' SUBTYPE_UNKNOWN 1 (-1),
    node 'r' SUBTYPE_UNKNOWN 1 (-1), node 'y' SUBTYPE_SMS 0 (-1), node 'c' SUBTYPE_UNKNOWN 1 45,
    node 'p' SUBTYPE_UNKNOWN 2 (-1), node 'i' SUBTYPE_UNKNOWN 1 40, node 'm' SUBTYPE_CPIM 0 (-1),
    node 'l' SUBTYPE_UNKNOWN 1 (-1), node '+' SUBTYPE_UNKNOWN 1 (-1),
    node 'x' SUBTYPE_UNKNOWN 1 (-1), node 'm' SUBTYPE_UNKNOWN 1 (-1),
    node 'l' SUBTYPE_CPLXML 0 (-1), node 'r' SUBTYPE_UNKNOWN 2 59, node 'l' SUBTYPE_UNKNOWN 1 53,
    node 'm' SUBTYPE_UNKNOWN 1 (-1), node 'i' SUBTYPE_UNKNOWN 1 (-1),
    node '+' SUBTYPE_UNKNOWN 1 (-1), node 'x' SUBTYPE_UNKNOWN 1 (-1),
    node 'm' SUBTYPE_UNKNOWN 1 (-1), node 'l' SUBTYPE_RLMIXML 0 (-1),
    node 'e' SUBTYPE_UNKNOWN 1 (-1), node 'l' SUBTYPE_UNKNOWN 1 (-1),
    node 'a' SUBTYPE_UNKNOWN 1 (-1), node 't' SUBTYPE_UNKNOWN 1 (-1),
    node 'e' SUBTYPE_UNKNOWN 1 (-1), node 'd' SUBTYPE_RELATED 0 (-1), node 'l' SUBTYPE_UNKNOWN 1 68,
    node 'p' SUBTYPE_UNKNOWN 1 (-1), node 'i' SUBTYPE_UNKNOWN 1 (-1),
    node 'd' SUBTYPE_UNKNOWN 1 (-1), node 'f' SUBTYPE_UNKNOWN 1 (-1),
    node '+' SUBTYPE_UNKNOWN 1 (-1), node 'x' SUBTYPE_UNKNOWN 1 (-1),
    node 'm' SUBTYPE_UNKNOWN 1 (-1), node 'l' SUBTYPE_LPIDFXML 0 (-1),
    node 'w' SUBTYPE_UNKNOWN 1 83, node 'a' SUBTYPE_UNKNOWN 1 (-1), node 't' SUBTYPE_UNKNOWN 1 (-1),
    node 'c' SUBTYPE_UNKNOWN 1 (-1), node 'h' SUBTYPE_UNKNOWN 1 (-1),
    node 'e' SUBTYPE_UNKNOWN 1 (-1), node 'r' SUBTYPE_UNKNOWN 1 (-1),
    node 'i' SUBTYPE_UNKNOWN 1 (-1), node 'n' SUBTYPE_UNKNOWN 1 (-1),
    node 'f' SUBTYPE_UNKNOWN 1 (-1), node 'o' SUBTYPE_UNKNOWN 1 (-1),
    node '+' SUBTYPE_UNKNOWN 1 (-1), node 'x' SUBTYPE_UNKNOWN 1 (-1),
    node 'm' SUBTYPE_UNKNOWN 1 (-1), node 'l' SUBTYPE_WATCHERINFOXML 0 (-1),
    node 'x' SUBTYPE_UNKNOWN 2 105, node 'p' SUBTYPE_UNKNOWN 1 92, node 'i' SUBTYPE_UNKNOWN 1 (-1),
    node 'd' SUBTYPE_UNKNOWN 1 (-1), node 'f' SUBTYPE_UNKNOWN 1 (-1),
    node '+' SUBTYPE_UNKNOWN 1 (-1), node 'x' SUBTYPE_UNKNOWN 1 (-1),
    node 'm' SUBTYPE_UNKNOWN 1 (-1), node 'l' SUBTYPE_XPIDFXML 0 (-1),
    node 'm' SUBTYPE_UNKNOWN 1 (-1), node 'l' SUBTYPE_UNKNOWN 1 (-1),
    node '+' SUBTYPE_UNKNOWN 1 (-1), node 'm' SUBTYPE_UNKNOWN 1 (-1),
    node 's' SUBTYPE_UNKNOWN 1 (-1), node 'r' SUBTYPE_UNKNOWN 1 (-1),
    node 't' SUBTYPE_UNKNOWN 1 (-1), node 'c' SUBTYPE_UNKNOWN 1 (-1),
    node '.' SUBTYPE_UNKNOWN 1 (-1), node 'p' SUBTYPE_UNKNOWN 1 (-1),
    node 'i' SUBTYPE_UNKNOWN 1 (-1), node 'd' SUBTYPE_UNKNOWN 1 (-1),
    node 'f' SUBTYPE_XML_MSRTC_PIDF 0 (-1), node 'e' SUBTYPE_UNKNOWN 1 118,
    node 'x' SUBTYPE_UNKNOWN 1 (-1), node 't' SUBTYPE_UNKNOWN 1 (-1),
    node 'e' SUBTYPE_UNKNOWN 1 (-1), node 'r' SUBTYPE_UNKNOWN 1 (-1),
    node 'n' SUBTYPE_UNKNOWN 1 (-1), node 'a' SUBTYPE_UNKNOWN 1 (-1),
    node 'l' SUBTYPE_UNKNOWN 1 (-1), node '-' SUBTYPE_UNKNOWN 1 (-1),
    node 'b' SUBTYPE_UNKNOWN 1 (-1), node 'o' SUBTYPE_UNKNOWN 1 (-1),
    node 'd' SUBTYPE_UNKNOWN 1 (-1), node 'y' SUBTYPE_EXTERNAL_BODY 0 (-1),
    node 'm' SUBTYPE_UNKNOWN 1 (-1), node 'i' SUBTYPE_UNKNOWN 1 (-1),
    node 'x' SUBTYPE_UNKNOWN 1 (-1), node 'e' SUBTYPE_UNKNOWN 1 (-1), node 'd' SUBTYPE_MIXED 0 (-1)]

end Tables

section Source

def isalpha (c : UInt8) : Bool := (chr 'A' ≤ c && c ≤ chr 'Z') || (chr 'a' ≤ c && c ≤ chr 'z')

def is_mime_char (c : UInt8) : Bool := isalpha c || c == chr '-' || c == chr '+' || c == chr '.'

def is_char_equal (c cs : UInt8) : Bool := if isalpha c then c ||| 0x20 == cs else c == cs

/-- `content_t`, without the type; its slices count from the `;` in front of the parameters. -/
structure Content where
  boundary : Option Span
  start : Option Span
  params : List Param

/-- One of the two names: `*`, or the characters of `char`, and the code of the node that they lead to. -/
def parse_name (tree : List (Node UInt8 ℕ)) (char : UInt8 → Bool) (all unknown : ℕ) (p : Str) :
    Option (ℕ × Str) :=
  if p.head? = some (chr '*') then some (all, p.drop 1)
  else if p.takeWhile char = [] then none
  else some (code tree is_char_equal unknown (p.takeWhile char), p.dropWhile char)

def parse_type (p : Str) : Option (ℕ × Str) :=
  if p = [] then none
  else (parse_name type_tree is_mime_char TYPE_ALL TYPE_UNKNOWN p).bind fun r =>
    if p.head? ≠ some (chr '*') ∧ r.2 = [] then none else some r

def parse_subtype (p : Str) : Option (ℕ × Str) :=
  if p = [] then none
  else parse_name subtype_tree (fun c => is_mime_char c || c == chr '_') SUBTYPE_ALL SUBTYPE_UNKNOWN p

def named (s : Str) (text : String) (cur : Param) : Bool :=
  cur.name.len == text.length && has (s.drop cur.name.pos) 0 text

def note_param (s : Str) (con : Content) (cur : Param) : Content :=
  let con := if named s "boundary" cur then { con with boundary := cur.body } else con
  if named s "start" cur then { con with start := cur.body } else con

def decode_params (past : UInt8) (con : Option Content) (p : Str) : Option (Str × Option Content) :=
  if p.head? ≠ some SEMICOLON then some (p, con)
  else
    match con with
    | none => some ((p.drop 1).dropWhile (· ≠ COMMA), none)
    | some con => (parse_params past .CLASS_ANY p).map fun (c, ps, _) =>
      (c.s, some (ps.foldl (note_param p) { con with params := ps }))

/-- `decode_mime_type`: where it stops, the two codes, and what is known of the parameters. -/
def decode_mime_type (past : UInt8) (s : Str) (con : Option Content) : Option (Str × ℕ × Option Content) := do
  let (type, p) ← parse_type (skip_lws past s)
  let p := skip_lws past p
  if p.head? ≠ some (chr '/') then none
  else do
    let (subtype, p) ← parse_subtype (skip_lws past (p.drop 1))
    let mime_type := type <<< 16 ||| subtype
    let (p, con) ← decode_params past con (skip_lws past p)
    if p ≠ [] ∧ p.head? ≠ some COMMA then none
    else if mime_type >>> 16 = TYPE_ALL ∧ mime_type &&& 0x00ff ≠ SUBTYPE_ALL then none
    else some (p, mime_type, con)

end Source

section Names

def type_names : List (String × ℕ) :=
  [("text", TYPE_TEXT), ("message", TYPE_MESSAGE), ("multipart", TYPE_MULTIPART),
    ("application", TYPE_APPLICATION)]

def subtype_names : List (String × ℕ) :=
  [("plain", SUBTYPE_PLAIN), ("pidf+xml", SUBTYPE_PIDFXML), ("sdp", SUBTYPE_SDP),
    ("simple-message-summary", SUBTYPE_SMS), ("cpim", SUBTYPE_CPIM), ("cpl+xml", SUBTYPE_CPLXML),
    ("rlmi+xml", SUBTYPE_RLMIXML), ("related", SUBTYPE_RELATED), ("lpidf+xml", SUBTYPE_LPIDFXML),
    ("watcherinfo+xml", SUBTYPE_WATCHERINFOXML), ("xpidf+xml", SUBTYPE_XPIDFXML),
    ("xml+msrtc.pidf", SUBTYPE_XML_MSRTC_PIDF), ("external-body", SUBTYPE_EXTERNAL_BODY),
    ("mixed", SUBTYPE_MIXED)]

def spelled (names : List (String × ℕ)) : List (Str × ℕ) := names.map fun n => (n.1.toList.map chr, n.2)

/-- The word in front of each node of a table that starts at node `i` with the word `w`; `pending` has the
siblings that are still to come. -/
def spell (i : ℕ) : List (Node UInt8 ℕ) → Str → List (ℕ × Str) → List Str
  | [], _, _ => []
  | x :: xs, w, pending =>
    let pending := match x.next with
      | some j => (j, w) :: pending
      | none => pending
    if x.nr_sons ≠ 0 then w :: spell (i + 1) xs (w ++ [x.c]) pending
    else
      match pending with
      | (_, w') :: pending => w :: spell (i + 1) xs w' pending
      | [] => w :: spell (i + 1) xs [] []

def paths (tree : List (Node UInt8 ℕ)) : List Str := spell 0 tree [] []

def path (tree : List (Node UInt8 ℕ)) (i : ℕ) : Str := (paths tree).getD i []

end Names

section Grammar

def Token (t : Str) : Prop := t ≠ [] ∧ ∀ c ∈ t, FirstLine.token_char c = true

def Blanks (w : Str) : Prop := ∀ c ∈ w, is_space c = true

def STAR : Str := [chr '*']

/-- Any two tokens; the type is `*` only in `*/*`. -/
def MediaRange (t u : Str) : Prop := Token t ∧ Token u ∧ (t = STAR → u = STAR)

/-- The type, the subtype and what is behind them, with white space around the two. -/
def media (w1 t w2 w3 u w4 rest : Str) : Str :=
  w1 ++ (t ++ (w2 ++ chr '/' :: (w3 ++ (u ++ (w4 ++ rest)))))

def Behind (rest : Str) : Prop := ∀ c ∈ rest.head?, c = COMMA ∨ c = SEMICOLON

def code_of (names : List (String × ℕ)) (all unknown : ℕ) (t : Str) : ℕ :=
  if t = STAR then all
  else ((names.find? fun n => decide (ParseParam.Named t n.1)).map Prod.snd).getD unknown

def type_code (t : Str) : ℕ := code_of type_names TYPE_ALL TYPE_UNKNOWN t

def subtype_code (u : Str) : ℕ := code_of subtype_names SUBTYPE_ALL SUBTYPE_UNKNOWN u

/-- The body of the first parameter called `boundary`, and that of the last one. -/
def first_body (s : Str) (ps : List Param) : Option (Option Span) :=
  (ps.find? (named s "boundary")).map Param.body

def last_body (s : Str) (ps : List Param) : Option (Option Span) :=
  (ps.reverse.find? (named s "boundary")).map Param.body

/-- What is made of `rest`: parameters are passed over, or cut by `parse_params`, and the boundary is that of
the first one of this name. -/
def Taken (past : UInt8) (con : Option Content) (rest stop : Str) (con' : Option Content) : Prop :=
  if rest.head? = some SEMICOLON then
    match con with
    | none => stop = (rest.drop 1).dropWhile (· ≠ COMMA) ∧ con' = none
    | some k => ∃ c ps h k', parse_params past .CLASS_ANY rest = some (c, ps, h) ∧ stop = c.s ∧ con' = some k' ∧
        k'.params = ps ∧ k'.boundary = (first_body rest ps).getD k.boundary
  else stop = rest ∧ con' = con

def Decoded (past : UInt8) (con : Option Content) (t u rest : Str)
    (r : Option (Str × ℕ × Option Content)) : Prop :=
  ∃ stop con', r = some (stop, type_code t <<< 16 ||| subtype_code u, con') ∧ Taken past con rest stop con'

/-- The characters are taken, and the token is no name without its last letter or with more than one of it. -/
def Spelt (names : List (String × ℕ)) (char : UInt8 → Bool) (t : Str) : Prop :=
  t = STAR ∨ (∀ c ∈ t, char c = true) ∧ ¬ Blurred (spelled names) (t.map tolower)

def subtype_char (c : UInt8) : Bool := is_mime_char c || c == chr '_'

/-- `parse_params` takes the parameters to their end, and the last boundary is the first one. -/
def OneBoundary (past : UInt8) (rest : Str) : Prop :=
  ∃ c ps h, parse_params past .CLASS_ANY rest = some (c, ps, h) ∧ (∀ d ∈ c.s.head?, d = COMMA) ∧
    last_body rest ps = first_body rest ps

structure Clear (past : UInt8) (con : Option Content) (t u rest : Str) : Prop where
  type : Spelt type_names is_mime_char t
  subtype : Spelt subtype_names subtype_char u
  params : rest.head? = some SEMICOLON → con.isSome → OneBoundary past rest

end Grammar

section Spelling

variable {tree : List (Node UInt8 ℕ)} {unknown : ℕ} {c : UInt8} {t : Str}

/-- Node `i` is spelled, `w` being the word in front of it and `w'` that in front of the next one. -/
def line_spelled (tree : List (Node UInt8 ℕ)) (unknown : ℕ) (ps : List Str) (i : ℕ) (x : Node UInt8 ℕ)
    (w w' : Str) : Bool :=
  if x.nr_sons ≠ 0 then
    w' == w ++ [x.c] && x.final == unknown &&
      (match x.next with
        | some j => ps.getD j [] == w
        | none => true)
  else x.next == none && x.final != unknown && walk tree (fun a b => decide (a = b)) (some 0) w == some i

def lines_spelled (tree : List (Node UInt8 ℕ)) (unknown : ℕ) (ps : List Str) : Bool :=
  ps.length == tree.length && (ps.head? == some [] &&
    ((tree.zip (ps.zip (ps.drop 1 ++ [[]]))).zipIdx.all fun l =>
      line_spelled tree unknown ps l.2 l.1.1 l.1.2.1 l.1.2.2))

theorem spelled_of (ps : List Str) (h : lines_spelled tree unknown ps = true) :
    Spelled tree unknown fun i => ps.getD i [] := by
  simp only [lines_spelled, Bool.and_eq_true, beq_iff_eq] at h
  obtain ⟨hlen, h0, h⟩ := h
  have hline : ∀ i x, tree[i]? = some x →
      line_spelled tree unknown ps i x (ps.getD i []) (ps.getD (i + 1) []) = true := by
    intro i x hx
    have hlt : i < tree.length := (List.getElem?_eq_some_iff.1 hx).1
    have hw : ps[i]? = some (ps.getD i []) := by
      rw [getD_eq_getElem?_getD, getElem?_eq_getElem (by omega), getD_some]
    have hw' : (ps.drop 1 ++ [[]])[i]? = some (ps.getD (i + 1) []) := by
      rw [getD_eq_getElem?_getD]
      by_cases hlast : i + 1 < ps.length
      · rw [getElem?_append_left (by rw [length_drop]; omega), getElem?_drop, add_comm 1 i,
          getElem?_eq_getElem hlast, getD_some]
      · have hend : i = (ps.drop 1).length := by rw [length_drop]; omega
        have hnone : ps[i + 1]? = none := getElem?_eq_none (by omega)
        rw [hnone, hend, getElem?_append_right le_rfl, Nat.sub_self]
        rfl
    have hzip : (tree.zip (ps.zip (ps.drop 1 ++ [[]])))[i]? = some (x, ps.getD i [], ps.getD (i + 1) []) := by
      rw [getElem?_zip_eq_some, getElem?_zip_eq_some]
      exact ⟨hx, hw, hw'⟩
    exact List.all_eq_true.1 h (_, i) (mem_zipIdx_iff_getElem?.2 hzip)
  refine ⟨by rw [getD_eq_getElem?_getD, ← head?_eq_getElem?, h0]; rfl, fun i x hx hsons => ?_,
    fun i x j hx hn => ?_, fun i x hx hleaf => ?_⟩
  · have hl := hline i x hx
    rw [line_spelled, if_pos hsons] at hl
    simp only [Bool.and_eq_true, beq_iff_eq] at hl
    exact hl.1
  · have hl := hline i x hx
    rw [line_spelled] at hl
    split_ifs at hl with hsons
    · rw [hn] at hl
      simp only [Bool.and_eq_true, beq_iff_eq] at hl
      exact hl.2
    · rw [hn] at hl
      cases hl
  · have hl := hline i x hx
    rw [line_spelled, if_neg (not_not_intro hleaf)] at hl
    simp only [Bool.and_eq_true, beq_iff_eq, bne_iff_ne] at hl
    exact ⟨hl.1.1, hl.1.2, hl.2⟩

theorem type_lines : lines_spelled type_tree TYPE_UNKNOWN (paths type_tree) = true := by
  decide

theorem subtype_lines : lines_spelled subtype_tree SUBTYPE_UNKNOWN (paths subtype_tree) = true := by
  decide +kernel

theorem type_spelled : Spelled type_tree TYPE_UNKNOWN (path type_tree) := spelled_of (paths type_tree) type_lines

theorem subtype_spelled : Spelled subtype_tree SUBTYPE_UNKNOWN (path subtype_tree) :=
  spelled_of (paths subtype_tree) subtype_lines

theorem words_of {ps : List Str} (h : lines_spelled tree unknown ps = true) : words tree (fun i => ps.getD i []) =
    (tree.zip ps).filterMap fun l => if l.1.nr_sons = 0 then some (l.2 ++ [l.1.c], l.1.final) else none := by
  have hlen : ps.length = tree.length := by
    simp only [lines_spelled, Bool.and_eq_true, beq_iff_eq] at h
    exact h.1
  have hall : ∀ l : List (Node UInt8 ℕ × Str), (List.range l.length).filterMap (fun i => l[i]?) = l := by
    intro l
    induction l using List.reverseRecOn with
    | nil => rfl
    | append_singleton l a ih =>
      rw [length_append, length_singleton, range_succ, filterMap_append]
      congr 1
      · refine (filterMap_congr fun i hi => ?_).trans ih
        exact getElem?_append_left (mem_range.1 hi)
      · rw [filterMap_cons, getElem?_append_right (le_rfl), Nat.sub_self]
        rfl
  have hl := hall (tree.zip ps)
  rw [length_zip, hlen, Nat.min_self] at hl
  rw [words, ← hl, filterMap_filterMap]
  refine filterMap_congr fun i hi => ?_
  have hlt : i < tree.length := mem_range.1 hi
  have hlt' : i < ps.length := by omega
  have hzip : (tree.zip ps)[i]? = some (tree[i], ps[i]) :=
    getElem?_zip_eq_some.2 ⟨getElem?_eq_getElem hlt, getElem?_eq_getElem hlt'⟩
  rw [hzip, getElem?_eq_getElem hlt, getD_eq_getElem?_getD, getElem?_eq_getElem hlt']
  rfl

theorem type_words : words type_tree (path type_tree) = spelled type_names :=
  (words_of type_lines).trans (by decide)

theorem subtype_words : words subtype_tree (path subtype_tree) = spelled subtype_names :=
  (words_of subtype_lines).trans (by decide)

end Spelling

section Tokens

variable {past : UInt8} {f : UInt8 → Bool} {tree : List (Node UInt8 ℕ)} {names : List (String × ℕ)}
  {all unknown : ℕ} {t w y : Str}

theorem equal_iff (g a : UInt8) : is_char_equal g a = true ↔ tolower g = a := by
  have hkey : (if isalpha g then g ||| 0x20 else g) = tolower g :=
    forall_char (p := fun g => (if isalpha g then g ||| 0x20 else g) = tolower g) (by decide) g
  rw [is_char_equal, ← hkey]
  split_ifs <;> exact beq_iff_eq

theorem token_facts (d : UInt8) : FirstLine.token_char d = true →
    is_space d = false ∧ d ≠ LF ∧ d ≠ chr '/' ∧ d ≠ COMMA ∧ d ≠ SEMICOLON :=
  forall_char (p := fun d => FirstLine.token_char d = true →
    is_space d = false ∧ d ≠ LF ∧ d ≠ chr '/' ∧ d ≠ COMMA ∧ d ≠ SEMICOLON) (by decide) d

theorem mime_facts (d : UInt8) : subtype_char d = true → is_space d = false ∧ d ≠ chr '/' ∧ d ≠ COMMA ∧
    d ≠ SEMICOLON ∧ d ≠ chr '*' :=
  forall_char (p := fun d => subtype_char d = true → is_space d = false ∧ d ≠ chr '/' ∧ d ≠ COMMA ∧
    d ≠ SEMICOLON ∧ d ≠ chr '*') (by decide) d

theorem skip_blanks (hw : Blanks w) (hy : ∀ d ∈ y.head?, is_space d = false ∧ d ≠ LF) :
    skip_lws past (w ++ y) = y := by
  induction w with
  | nil =>
    cases y with
    | nil => rfl
    | cons d y =>
      obtain ⟨hs, hlf⟩ := hy d rfl
      rw [nil_append, skip_lws, if_neg]
      rintro (h | ⟨h, -⟩)
      · rw [hs] at h
        cases h
      · exact hlf h
  | cons c w ih =>
    rw [cons_append, skip_lws, if_pos (.inl (hw c mem_cons_self))]
    exact ih fun d hd => hw d (mem_cons_of_mem c hd)

theorem code_spec {path : ℕ → Str} (hs : Spelled tree unknown path) (hw : words tree path = spelled names)
    (hcodes : (names.map Prod.snd).Nodup)
    (hlow : ∀ n ∈ names, (n.1.toList.map chr).map tolower = n.1.toList.map chr) (ht : t ≠ STAR) :
    code tree is_char_equal unknown t = code_of names all unknown t ↔
      ¬ Blurred (spelled names) (t.map tolower) := by
  have hlookup : lookup (spelled names) unknown (t.map tolower) = code_of names all unknown t := by
    rw [code_of, if_neg ht, lookup, spelled, find?_map, Option.map_map]
    congr 2
    refine find?_congr fun n hn => ?_
    rw [Function.comp_apply, decide_eq_decide, ParseParam.Named, FirstLine.same_case, hlow n hn]
    exact eq_comm
  have hnodup : ((spelled names).map Prod.snd).Nodup := by
    rw [spelled, List.map_map]
    exact hcodes
  rw [← hlookup, ← hw]
  exact code_exact hs equal_iff (by rw [hw]; exact fun n hn n' hn' => inj_on_of_nodup_map hnodup hn hn')

/-- **A name that is read.** -/
theorem parse_name_good (ht : t = STAR ∨ t ≠ [] ∧ ∀ c ∈ t, f c = true)
    (hstar : f (chr '*') = false) (hy : ∀ d ∈ y.head?, f d = false) :
    parse_name tree f all unknown (t ++ y) =
      some (if t = STAR then all else code tree is_char_equal unknown t, y) := by
  by_cases hs : t = STAR
  · rw [if_pos hs, hs]
    rfl
  · obtain ⟨hne, hall⟩ := ht.resolve_left hs
    obtain ⟨hx, hx'⟩ := (⟨rfl, hall, hy⟩ : Cut f (t ++ y) t y).takeWhile_eq
    have hhead : (t ++ y).head? ≠ some (chr '*') := by
      obtain ⟨c, t, rfl⟩ := exists_cons_of_ne_nil hne
      intro h
      have hc := hall c mem_cons_self
      rw [some.inj h, hstar] at hc
      cases hc
    rw [parse_name, if_neg hhead, hx, hx', if_neg hne, if_neg hs]

/-- **A token that is not read** to its end. -/
theorem parse_name_bad (ht : Token t) (hbad : ¬ (t = STAR ∨ ∀ c ∈ t, f c = true)) {r : ℕ × Str}
    (h : parse_name tree f all unknown (t ++ y) = some r) :
    ∃ d q, r.2 = d :: q ∧ FirstLine.token_char d = true := by
  rw [not_or] at hbad
  rw [parse_name] at h
  split_ifs at h with h1 h2
  · obtain ⟨c, t, rfl⟩ := exists_cons_of_ne_nil ht.1
    cases h1
    obtain ⟨d, t, rfl⟩ := exists_cons_of_ne_nil fun h : t = [] => hbad.1 (by rw [h]; rfl)
    cases h
    exact ⟨d, t ++ y, rfl, ht.2 d (mem_cons_of_mem _ mem_cons_self)⟩
  · cases h
    have hall : ¬ ∀ c ∈ t, f c = true := hbad.2
    have hne : t.dropWhile f ≠ [] := fun hd => hall (dropWhile_eq_nil_iff.1 hd)
    obtain ⟨d, q, hq⟩ := exists_cons_of_ne_nil hne
    refine ⟨d, q ++ y, ?_, ht.2 d ?_⟩
    · show (t ++ y).dropWhile f = _
      rw [dropWhile_append, hq]
      rfl
    · exact (dropWhile_sublist f).subset (hq ▸ mem_cons_self)

end Tokens

section Boundaries

variable {past : UInt8} {con : Option Content} {s rest : Str} {ps : List Param} {k : Content}

/-- The last parameter called `boundary` is the one that stays. -/
theorem fold_boundary (s : Str) (k : Content) (ps : List Param) :
    (ps.foldl (note_param s) k).boundary = (last_body s ps).getD k.boundary ∧
      (ps.foldl (note_param s) k).params = k.params := by
  induction ps using List.reverseRecOn with
  | nil => exact ⟨rfl, rfl⟩
  | append_singleton ps p ih =>
    rw [foldl_append, foldl_cons, foldl_nil]
    obtain ⟨hb, hp⟩ := ih
    generalize ps.foldl (note_param s) k = k' at hb hp
    have hlast : last_body s (ps ++ [p]) = if named s "boundary" p then some p.body else last_body s ps := by
      rw [last_body, reverse_append, reverse_singleton, singleton_append, find?_cons]
      cases named s "boundary" p <;> rfl
    rw [hlast, note_param]
    constructor
    · cases named s "boundary" p <;> cases named s "start" p <;> first | exact hb | rfl
    · cases named s "boundary" p <;> cases named s "start" p <;> exact hp

theorem body_getD (b : Option Span) :
    (last_body s ps).getD b = (first_body s ps).getD b ↔ last_body s ps = first_body s ps := by
  refine ⟨fun h => ?_, fun h => by rw [h]⟩
  have hsome : (last_body s ps).isSome = (first_body s ps).isSome := by
    rw [last_body, first_body, isSome_map, isSome_map, Bool.eq_iff_iff, find?_isSome, find?_isSome]
    simp only [mem_reverse]
  cases hl : last_body s ps with
  | none =>
    rw [hl] at hsome
    exact (isSome_eq_false_iff.1 hsome.symm |> isNone_iff_eq_none.1).symm
  | some x =>
    rw [hl] at hsome h
    obtain ⟨y, hy⟩ := isSome_iff_exists.1 hsome.symm
    rw [hy] at h ⊢
    exact congrArg some h

theorem params_iff (hr : Behind rest) :
    (∃ stop con', decode_params past con rest = some (stop, con') ∧ (∀ d ∈ stop.head?, d = COMMA) ∧
      Taken past con rest stop con') ↔ (rest.head? = some SEMICOLON → con.isSome → OneBoundary past rest) := by
  by_cases hsemi : rest.head? = some SEMICOLON
  · cases con with
    | none =>
      refine iff_of_true ⟨(rest.drop 1).dropWhile (· ≠ COMMA), none, ?_, fun d hd => ?_, ?_⟩
        fun _ h => absurd h Bool.false_ne_true
      · rw [decode_params, if_neg (not_not_intro hsemi)]
      · have hstop := (cut_takeWhile (fun c => decide (c ≠ COMMA)) (rest.drop 1)).stop d hd
        simpa using hstop
      · rw [Taken, if_pos hsemi]
        exact ⟨rfl, rfl⟩
    | some k =>
      rw [decode_params, if_neg (not_not_intro hsemi)]
      constructor
      · rintro ⟨stop, con', heq, hstop, htaken⟩ - -
        rw [Taken, if_pos hsemi] at htaken
        obtain ⟨c, ps, h, k', hparse, rfl, rfl, -, hb⟩ := htaken
        rw [hparse, map_some] at heq
        obtain ⟨-, hk⟩ := Prod.mk.inj (some.inj heq)
        cases hk
        rw [(fold_boundary rest _ ps).1] at hb
        exact ⟨c, ps, h, hparse, hstop, (body_getD _).1 hb⟩
      · intro hone
        obtain ⟨c, ps, h, hparse, hstop, hsame⟩ := hone hsemi rfl
        refine ⟨c.s, _, by rw [hparse]; rfl, hstop, ?_⟩
        rw [Taken, if_pos hsemi]
        refine ⟨c, ps, h, _, hparse, rfl, rfl, ?_, ?_⟩
        · rw [(fold_boundary rest _ ps).2]
        · rw [(fold_boundary rest _ ps).1, hsame]
  · refine iff_of_true ⟨rest, con, ?_, fun d hd => ?_, ?_⟩ fun h => absurd h hsemi
    · unfold decode_params
      rw [if_pos hsemi]
    · exact (hr d hd).resolve_right fun h => hsemi (h ▸ hd)
    · unfold Taken
      rw [if_neg hsemi]
      exact ⟨rfl, rfl⟩

end Boundaries

section Codes

variable {tree : List (Node UInt8 ℕ)} {names : List (String × ℕ)} {unknown t u t' u' : ℕ}

theorem mime_eq (hu : u < 65536) : t <<< 16 ||| u = t * 65536 + u := by
  rw [← Nat.shiftLeft_add_eq_or_of_lt hu, Nat.shiftLeft_eq]

theorem mime_inj (t t' : ℕ) (hu : u < 65536) (hu' : u' < 65536) :
    t <<< 16 ||| u = t' <<< 16 ||| u' ↔ t = t' ∧ u = u' := by
  rw [mime_eq hu, mime_eq hu']
  omega

/-- The test for `*`. -/
theorem mime_parts (hu : u < 256) : (t <<< 16 ||| u) >>> 16 = t ∧ (t <<< 16 ||| u) &&& 0x00ff = u := by
  rw [mime_eq (by omega), Nat.shiftRight_eq_div_pow]
  constructor
  · omega
  · rw [show (0x00ff : ℕ) = 2 ^ 8 - 1 from rfl, Nat.and_two_pow_sub_one_eq_mod]
    omega

theorem code_mem {path : ℕ → Str} (hs : Spelled tree unknown path) (hw : words tree path = spelled names)
    (t : Str) : code tree is_char_equal unknown t = unknown ∨
      code tree is_char_equal unknown t ∈ names.map Prod.snd := by
  by_cases hu : code tree is_char_equal unknown t = unknown
  · exact .inl hu
  · obtain ⟨w, a, k, hmem, -⟩ := (code_iff hs equal_iff hu).1 rfl
    rw [hw, spelled, List.mem_map] at hmem
    obtain ⟨n, hn, heq⟩ := hmem
    exact .inr (List.mem_map.2 ⟨n, hn, (Prod.mk.inj heq).2⟩)

/-- No type is read as `*`. -/
theorem type_range (w : Str) : code type_tree is_char_equal TYPE_UNKNOWN w ≠ TYPE_ALL := by
  have hall : ∀ f ∈ TYPE_UNKNOWN :: type_names.map Prod.snd, f ≠ TYPE_ALL := by decide
  exact hall _ (mem_cons.2 (code_mem type_spelled type_words w))

theorem subtype_range (w : Str) : code subtype_tree is_char_equal SUBTYPE_UNKNOWN w < 256 := by
  have hall : ∀ f ∈ SUBTYPE_UNKNOWN :: subtype_names.map Prod.snd, f < 256 := by decide
  exact hall _ (mem_cons.2 (code_mem subtype_spelled subtype_words w))

theorem subtype_code_range (w : Str) : subtype_code w < 256 := by
  have hall : ∀ f ∈ subtype_names.map Prod.snd, f < 256 := by decide
  rw [subtype_code, code_of]
  split_ifs
  · decide
  · cases h : subtype_names.find? fun n => decide (ParseParam.Named w n.1) with
    | none => decide
    | some n => exact hall n.2 (List.mem_map_of_mem (mem_of_find?_eq_some h))

end Codes

section Decoding

variable {past : UInt8} {con : Option Content} {t u w1 w2 w3 w4 rest : Str}

def read_type (t : Str) : ℕ := if t = STAR then TYPE_ALL else code type_tree is_char_equal TYPE_UNKNOWN t

def read_subtype (u : Str) : ℕ :=
  if u = STAR then SUBTYPE_ALL else code subtype_tree is_char_equal SUBTYPE_UNKNOWN u

theorem type_spec (t : Str) : read_type t = type_code t ↔
    t = STAR ∨ ¬ Blurred (spelled type_names) (t.map tolower) := by
  by_cases ht : t = STAR
  · rw [read_type, type_code, code_of, if_pos ht, if_pos ht]
    exact iff_of_true rfl (.inl ht)
  · rw [read_type, if_neg ht, type_code, code_spec type_spelled type_words (by decide) (by decide) ht,
      or_iff_right ht]

theorem subtype_spec (u : Str) : read_subtype u = subtype_code u ↔
    u = STAR ∨ ¬ Blurred (spelled subtype_names) (u.map tolower) := by
  by_cases hu : u = STAR
  · rw [read_subtype, subtype_code, code_of, if_pos hu, if_pos hu]
    exact iff_of_true rfl (.inl hu)
  · rw [read_subtype, if_neg hu, subtype_code,
      code_spec subtype_spelled subtype_words (by decide) (by decide) hu, or_iff_right hu]

theorem read_subtype_range (u : Str) : read_subtype u < 256 := by
  rw [read_subtype]
  split_ifs
  · decide
  · exact subtype_range u

theorem blanks_stop {w y : Str} {f : UInt8 → Bool} (hw : Blanks w) (hf : ∀ d, f d = true → is_space d = false)
    (hy : ∀ d ∈ y.head?, f d = false) : ∀ d ∈ (w ++ y).head?, f d = false := by
  cases w with
  | nil => exact hy
  | cons c w =>
    intro d hd
    cases hd
    refine Bool.eq_false_iff.2 fun h => ?_
    have hs := hf c h
    rw [hw c mem_cons_self] at hs
    cases hs

theorem token_head {y : Str} (ht : Token t) : ∀ d ∈ (t ++ y).head?, is_space d = false ∧ d ≠ LF := by
  obtain ⟨c, t, rfl⟩ := exists_cons_of_ne_nil ht.1
  intro d hd
  cases hd
  obtain ⟨hs, hlf, -⟩ := token_facts c (ht.2 c mem_cons_self)
  exact ⟨hs, hlf⟩

theorem mime_subtype (c : UInt8) (h : is_mime_char c = true) : subtype_char c = true := by
  rw [subtype_char, h, Bool.true_or]

theorem parse_type_good (ht : Token t) (hw2 : Blanks w2) (hall : t = STAR ∨ ∀ c ∈ t, is_mime_char c = true)
    (y : Str) : parse_type (t ++ (w2 ++ chr '/' :: y)) = some (read_type t, w2 ++ chr '/' :: y) := by
  have hne : t ++ (w2 ++ chr '/' :: y) ≠ [] := fun h => ht.1 (append_eq_nil_iff.1 h).1
  have hslash : is_mime_char (chr '/') = false := by decide
  have hstop := blanks_stop (y := chr '/' :: y) (f := is_mime_char) hw2
    (fun d hd => (mime_facts d (mime_subtype d hd)).1) fun d hd => by
      cases hd
      exact hslash
  rw [parse_type, if_neg hne,
    parse_name_good (hall.imp id fun h => ⟨ht.1, h⟩) (by decide) hstop, bind_some, if_neg]
  · rfl
  · rintro ⟨-, h⟩
    exact cons_ne_nil _ _ (append_eq_nil_iff.1 h).2

theorem parse_type_bad (ht : Token t) (hbad : ¬ (t = STAR ∨ ∀ c ∈ t, is_mime_char c = true)) {y : Str}
    {r : ℕ × Str} (h : parse_type (t ++ y) = some r) : ∃ d q, r.2 = d :: q ∧ FirstLine.token_char d = true := by
  rw [parse_type] at h
  split_ifs at h with hne
  obtain ⟨r', hr', h⟩ := bind_eq_some_iff.1 h
  split_ifs at h
  cases h
  exact parse_name_bad ht hbad hr'

theorem behind_stop (hr : Behind rest) : ∀ d ∈ rest.head?, is_space d = false ∧ d ≠ LF ∧
    subtype_char d = false := by
  intro d hd
  rcases hr d hd with rfl | rfl <;> decide

theorem parse_subtype_good (hu : Token u) (hw4 : Blanks w4) (hr : Behind rest)
    (hall : u = STAR ∨ ∀ c ∈ u, subtype_char c = true) :
    parse_subtype (u ++ (w4 ++ rest)) = some (read_subtype u, w4 ++ rest) := by
  have hne : u ++ (w4 ++ rest) ≠ [] := fun h => hu.1 (append_eq_nil_iff.1 h).1
  have hstop := blanks_stop (f := subtype_char) hw4 (fun d hd => (mime_facts d hd).1)
    fun d hd => (behind_stop hr d hd).2.2
  rw [parse_subtype, if_neg hne]
  exact parse_name_good (f := subtype_char) (hall.imp id fun h => ⟨hu.1, h⟩) (by decide) hstop

/-- **Both names are read**: what is left is what is behind them. -/
theorem decode_good (h1 : Blanks w1) (ht : Token t) (h2 : Blanks w2) (h3 : Blanks w3) (hu : Token u)
    (h4 : Blanks w4) (hr : Behind rest) (hstar : t = STAR → u = STAR)
    (hat : t = STAR ∨ ∀ c ∈ t, is_mime_char c = true) (hau : u = STAR ∨ ∀ c ∈ u, subtype_char c = true) :
    decode_mime_type past (media w1 t w2 w3 u w4 rest) con = (decode_params past con rest).bind fun r =>
        if r.1 ≠ [] ∧ r.1.head? ≠ some COMMA then none
        else some (r.1, read_type t <<< 16 ||| read_subtype u, r.2) := by
  obtain ⟨hty, hsub⟩ := mime_parts (t := read_type t) (read_subtype_range u)
  have hcheck : ¬ (read_type t = TYPE_ALL ∧ read_subtype u ≠ SUBTYPE_ALL) := by
    rintro ⟨hall, hsall⟩
    rw [read_type] at hall
    split_ifs at hall with hts
    · rw [read_subtype, if_pos (hstar hts)] at hsall
      exact hsall rfl
    · exact type_range t hall
  have hslash : ∀ y, ∀ d ∈ (chr '/' :: y : Str).head?, is_space d = false ∧ d ≠ LF := fun y d hd => by
    cases hd
    decide
  rw [decode_mime_type, media, skip_blanks h1 (token_head ht), parse_type_good ht h2 hat]
  simp only [bind_eq_bind, bind_some]
  rw [skip_blanks h2 (hslash _), if_neg (not_not_intro head?_cons), drop_succ_cons, drop_zero,
    skip_blanks h3 (token_head hu), parse_subtype_good hu h4 hr hau]
  simp only [bind_some]
  rw [skip_blanks h4 fun d hd => ⟨(behind_stop hr d hd).1, (behind_stop hr d hd).2.1⟩, hty, hsub]
  congr 1
  funext r
  rw [if_neg hcheck]

theorem head_ne {c d : UInt8} {q : Str} (h : d ≠ c) : (d :: q).head? ≠ some c := fun h' => h (some.inj h')

/-- **A name that is not read to its end** is an error. -/
theorem decode_bad (h1 : Blanks w1) (ht : Token t) (h2 : Blanks w2) (h3 : Blanks w3) (hu : Token u)
    (hbad : ¬ ((t = STAR ∨ ∀ c ∈ t, is_mime_char c = true) ∧ (u = STAR ∨ ∀ c ∈ u, subtype_char c = true))) :
    decode_mime_type past (media w1 t w2 w3 u w4 rest) con = none := by
  have hslash : ∀ y, ∀ d ∈ (chr '/' :: y : Str).head?, is_space d = false ∧ d ≠ LF := fun y d hd => by
    cases hd
    decide
  have hstay : ∀ {d : UInt8} (q : Str), FirstLine.token_char d = true → skip_lws past (d :: q) = d :: q := by
    intro d q hd
    refine skip_blanks (w := []) (fun c hc => absurd hc not_mem_nil) fun e he => ?_
    cases he
    exact ⟨(token_facts _ hd).1, (token_facts _ hd).2.1⟩
  rw [decode_mime_type, media, skip_blanks h1 (token_head ht)]
  by_cases hat : t = STAR ∨ ∀ c ∈ t, is_mime_char c = true
  · rw [parse_type_good ht h2 hat]
    simp only [bind_eq_bind, bind_some]
    rw [skip_blanks h2 (hslash _), if_neg (not_not_intro head?_cons), drop_succ_cons, drop_zero,
      skip_blanks h3 (token_head hu)]
    cases hs : parse_subtype (u ++ (w4 ++ rest)) with
    | none => rfl
    | some r =>
      rw [parse_subtype, if_neg fun h => hu.1 (append_eq_nil_iff.1 h).1] at hs
      obtain ⟨d, q, hq, hd⟩ := parse_name_bad (f := subtype_char) hu (fun h => hbad ⟨hat, h⟩) hs
      obtain ⟨-, -, -, hcomma, hsemi⟩ := token_facts d hd
      have hpar : decode_params past con (d :: q) = some (d :: q, con) := by
        unfold decode_params
        rw [if_pos (head_ne hsemi)]
      rw [bind_some, hq, hstay q hd, hpar, bind_some]
      exact if_pos ⟨cons_ne_nil d q, head_ne hcomma⟩
  · cases hp : parse_type (t ++ (w2 ++ chr '/' :: (w3 ++ (u ++ (w4 ++ rest))))) with
    | none => rfl
    | some r =>
      obtain ⟨d, q, hq, hd⟩ := parse_type_bad ht hat hp
      obtain ⟨-, -, hne, -⟩ := token_facts d hd
      simp only [bind_eq_bind, bind_some]
      rw [hq, hstay q hd, if_pos (head_ne hne)]

theorem spelt_iff {names : List (String × ℕ)} {char : UInt8 → Bool} (h : t = STAR ∨ ∀ c ∈ t, char c = true) :
    Spelt names char t ↔ t = STAR ∨ ¬ Blurred (spelled names) (t.map tolower) := by
  by_cases ht : t = STAR
  · exact iff_of_true (.inl ht) (.inl ht)
  · rw [Spelt, or_iff_right ht, or_iff_right ht]
    exact and_iff_right (h.resolve_left ht)

/-- **A mime type is decoded**: the codes of the two tokens are those of the names that they equal without
regard to case, what is behind them is taken for what it is, and the boundary is the first one, exactly when
the characters are those of the tables, no token is a name without its last letter or with more than one of
it, and the last boundary is the first. -/
theorem decode_mime_type_spec (past : UInt8) (con : Option Content) (h1 : Blanks w1) (h2 : Blanks w2)
    (h3 : Blanks w3) (h4 : Blanks w4) (hm : MediaRange t u) (hr : Behind rest) :
    Decoded past con t u rest (decode_mime_type past (media w1 t w2 w3 u w4 rest) con) ↔
      Clear past con t u rest := by
  obtain ⟨ht, hu, hstar⟩ := hm
  by_cases hchars : (t = STAR ∨ ∀ c ∈ t, is_mime_char c = true) ∧ (u = STAR ∨ ∀ c ∈ u, subtype_char c = true)
  · obtain ⟨hat, hau⟩ := hchars
    have hcodes := mime_inj (read_type t) (type_code t)
      (lt_trans (read_subtype_range u) (by decide)) (lt_trans (subtype_code_range u) (by decide))
    rw [decode_good h1 ht h2 h3 hu h4 hr hstar hat hau]
    constructor
    · rintro ⟨stop, con', heq, htaken⟩
      obtain ⟨⟨p, con''⟩, hp, heq⟩ := bind_eq_some_iff.1 heq
      split_ifs at heq with hend
      obtain ⟨rfl, hrest⟩ := Prod.mk.inj (some.inj heq)
      obtain ⟨hmime, rfl⟩ := Prod.mk.inj hrest
      obtain ⟨hty, hsub⟩ := hcodes.1 hmime
      have hstop : ∀ d ∈ p.head?, d = COMMA := by
        intro d hd
        by_contra hne
        refine hend ⟨fun h => ?_, fun h => hne (some.inj (hd.symm.trans h))⟩
        have hp : p = [] := h
        rw [hp] at hd
        cases hd
      exact ⟨(spelt_iff hat).2 ((type_spec t).1 hty), (spelt_iff hau).2 ((subtype_spec u).1 hsub),
        (params_iff hr).1 ⟨p, con'', hp, hstop, htaken⟩⟩
    · rintro ⟨htype, hsubtype, hparams⟩
      obtain ⟨stop, con', hp, hstop, htaken⟩ := (params_iff hr).2 hparams
      have hmime := hcodes.2 ⟨(type_spec t).2 ((spelt_iff hat).1 htype),
        (subtype_spec u).2 ((spelt_iff hau).1 hsubtype)⟩
      refine ⟨stop, con', ?_, htaken⟩
      have hend : ¬ (stop ≠ [] ∧ stop.head? ≠ some COMMA) := by
        rintro ⟨hne, hcomma⟩
        obtain ⟨d, q, rfl⟩ := exists_cons_of_ne_nil hne
        exact hcomma (congrArg some (hstop d rfl))
      rw [hp, bind_some]
      dsimp only
      rw [if_neg hend, hmime]
  · rw [decode_bad h1 ht h2 h3 hu hchars]
    refine iff_of_false ?_ fun h => hchars ⟨h.type.imp id And.left, h.subtype.imp id And.left⟩
    rintro ⟨stop, con', heq, -⟩
    cases heq

/-- A text in bytes. -/
def bytes (s : String) : Str := s.toList.map chr

/-- **Tokens that are misread**: `tex` and `textt` are `text`, `sd` is `sdp`, `x2` is no type, and the second
boundary is taken. -/
theorem mime_misread :
    ((decode_mime_type 0 (bytes "tex/sd") none).map fun r => r.2.1) = some (TYPE_TEXT <<< 16 ||| SUBTYPE_SDP) ∧
    ((decode_mime_type 0 (bytes "textt/plain") none).map fun r => r.2.1) =
      some (TYPE_TEXT <<< 16 ||| SUBTYPE_PLAIN) ∧
    (decode_mime_type 0 (bytes "x2/plain") none).isNone ∧
    ((decode_mime_type 0 (bytes "multipart/mixed;boundary=a;boundary=b") (some ⟨none, none, []⟩)).map fun r =>
      r.2.2.map Content.boundary) = some (some (some ⟨21, 1⟩)) ∧
    ¬ Decoded 0 none (bytes "tex") (bytes "sd") [] (decode_mime_type 0 (media [] (bytes "tex") [] []
      (bytes "sd") [] []) none) := by
  refine ⟨by decide +kernel, by decide +kernel, by decide, by decide +kernel, ?_⟩
  rintro ⟨stop, con', heq, -⟩
  have hcode : ((decode_mime_type 0 (media [] (bytes "tex") [] [] (bytes "sd") [] []) none).map fun r => r.2.1) =
      some (TYPE_TEXT <<< 16 ||| SUBTYPE_SDP) := by
    decide +kernel
  rw [heq] at hcode
  have hne : type_code (bytes "tex") <<< 16 ||| subtype_code (bytes "sd") ≠ TYPE_TEXT <<< 16 ||| SUBTYPE_SDP := by
    decide
  exact hne (some.inj hcode)

/-- `Multipart/mixed ;a=1;Boundary=x`. -/
theorem decode_multipart : Decoded 0 (some ⟨none, none, []⟩) (bytes "Multipart") (bytes "mixed")
    (bytes ";a=1;Boundary=x") (decode_mime_type 0
      (media [] (bytes "Multipart") [] [] (bytes "mixed") (bytes " ") (bytes ";a=1;Boundary=x"))
      (some ⟨none, none, []⟩)) := by
  have hnil : Blanks [] := fun c hc => absurd hc not_mem_nil
  have hspace : Blanks (bytes " ") := by
    have h : ∀ c ∈ bytes " ", is_space c = true := List.all_eq_true.1 (by decide)
    exact h
  have htype : Token (bytes "Multipart") := by
    have h : ∀ c ∈ bytes "Multipart", FirstLine.token_char c = true := List.all_eq_true.1 (by decide)
    exact ⟨by decide, h⟩
  have hsubtype : Token (bytes "mixed") := by
    have h : ∀ c ∈ bytes "mixed", FirstLine.token_char c = true := List.all_eq_true.1 (by decide)
    exact ⟨by decide, h⟩
  have hbehind : Behind (bytes ";a=1;Boundary=x") := fun c hc => by
    obtain rfl := some.inj hc
    exact .inr rfl
  have hparse : (parse_params 0 .CLASS_ANY (bytes ";a=1;Boundary=x")).map (fun r => (r.1, r.2.1)) =
      some (⟨15, []⟩, [⟨.P_OTHER, ⟨0, 0⟩, none, 0⟩, ⟨.P_OTHER, ⟨1, 1⟩, some ⟨3, 1⟩, 3⟩,
        ⟨.P_OTHER, ⟨5, 8⟩, some ⟨14, 1⟩, 10⟩]) := by
    decide
  obtain ⟨⟨c, ps, h⟩, heq, hcps⟩ := map_eq_some_iff.1 hparse
  obtain ⟨rfl, rfl⟩ := Prod.mk.inj hcps
  refine (decode_mime_type_spec 0 (some ⟨none, none, []⟩) hnil hnil hnil hspace
    ⟨htype, hsubtype, fun h => absurd h (by decide)⟩ hbehind).2 ⟨?_, ?_, fun _ _ => ⟨_, _, h, heq, ?_, ?_⟩⟩
  · have hall : ∀ c ∈ bytes "Multipart", is_mime_char c = true := List.all_eq_true.1 (by decide)
    exact (spelt_iff (.inr hall)).2 ((type_spec _).1 (by decide))
  · have hall : ∀ c ∈ bytes "mixed", subtype_char c = true := List.all_eq_true.1 (by decide)
    exact (spelt_iff (.inr hall)).2 ((subtype_spec _).1 (by decide +kernel))
  · exact fun d hd => by cases hd
  · decide

end Decoding


end OpenSips.Mime
