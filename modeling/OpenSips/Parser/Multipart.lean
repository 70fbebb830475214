import OpenSips.Parser.Content
import OpenSips.Parser.Hname
import OpenSips.Parser.Iterate
import OpenSips.Sdp.Delimiter

/-!
# OpenSips.Parser.Multipart — the parts of a body (`parse_multipart.c`)

Positions count from the beginning of the message.  A NUL stands behind it; a NULL that is used as a pointer and a
read further behind have no result.
-/

open OpenSips.Parser (CR LF HdrType body_end eat_lws_end isSP trim_r)

namespace OpenSips.Multipart

open Lib List Option
open FirstLine (token_char tolower)
open Hname (Code Goto Test holds parse_hname2 FIRST_QUATERNIONS compact switch)
open Mime (Blanks Content MediaRange TYPE_ALL TYPE_MULTIPART TYPE_TEXT SUBTYPE_ALL SUBTYPE_PLAIN decode_mime_type
  media subtype_code type_code)
open Sdp (Delimits Taken delimiter_lines delimiterhead find_sdp_line_delimiter)

/-- What is read of a `sip_msg`: the text, where `get_body` points to, the value of the Content-Length header, and
the body of the Content-Type header with the byte behind it. -/
structure Msg where
  buf : Str
  body : Option ℕ
  content_length : Option ℤ
  content_type : Option (Str × UInt8)

/-- `struct part`; a length may be negative. -/
structure Part where
  content_type : ℕ
  body : ℕ × ℤ
  all_data : ℕ × ℤ
  deriving DecidableEq

/-- `struct multi_body` -/
structure MultiBody where
  from_multi_part : Bool
  boundary : Str
  part_count : ℕ
  parts : List Part
  deriving DecidableEq

section Source

variable (m : Msg)

/-- The bytes from `q` on. -/
def Msg.mem (q i : ℕ) : UInt8 := m.buf.getD (q + i) 0

/-- The text of the message in front of `end_`, from `p` on. -/
def Msg.block (p end_ : ℕ) : Str := (m.buf.take end_).drop p

/-- `msg->content_type->parsed`: the mime type, which is not positive when there is none, and the boundary. -/
def parse_content_type_hdr : ℤ × Str :=
  match m.content_type with
  | none => (0, [])
  | some (s, past) =>
    match decode_mime_type past s (some ⟨none, none, []⟩) with
    | none => (-1, [])
    | some (rest, mime, con) =>
      if rest ≠ [] then (-1, [])
      else if mime &&& 0x00ff = SUBTYPE_ALL ∨ mime >>> 16 = TYPE_ALL then (-1, [])
      else
        -- the parameters count from the `;` in front of them
        let params := s.dropWhile (· ≠ ParseParam.SEMICOLON)
        (mime, ((con.bind Content.boundary).map fun b => (params.drop b.pos).take b.len).getD [])

def width : Test → ℕ
  | .key _ => 4
  | .lower i _ | .byte i _ => i + 1

def reach (f : Test → ℕ → Bool) : Code → ℕ → ℕ
  | .done _, _ => 0
  | .test k yes no, p => max (p + width k) (if f k p then reach f yes p else reach f no p)
  | .skip n t, p => reach f t (p + n)

/-- Whether `parse_hname2(q, end)` reads behind the message: in its tests, or because a name goes on behind `end`,
where a size that is not positive is a large one, and no `:` follows. -/
def strays (q end_ : ℕ) : Bool :=
  let f := holds (m.mem q)
  let tree := switch FIRST_QUATERNIONS compact
  let stop := Decision.run f tree 0
  4 ≤ end_ - q && (m.buf.length + 1 < q + reach f tree 0 ||
    match stop.1 with
    | .found _ _ _ => false
    | _ => end_ - q < stop.2 && chr ':' ∉ m.buf.drop (q + stop.2))

/-- What is found of a header field: its type, its body, and where the next one begins. -/
inductive Hdr where
  | error
  | eoh
  | field (type : HdrType) (body len next : ℕ)
  deriving DecidableEq

def get_hdr_field_unparsed (buf end_ : ℕ) : Option Hdr :=
  match (m.buf ++ [0])[buf]? with
  | none => none
  | some c =>
    if c = LF ∨ c = CR then some .eoh
    else if strays m buf end_ then none
    else
      let h := parse_hname2 (m.mem buf) (end_ - buf)
      if h.type = .ERROR then some .error
      else
        match h.next with
        | none => some .error
        | some n =>
          let tmp := buf + n + eat_lws_end (m.block (buf + n) end_)
          if end_ ≤ tmp then some .error
          else
            match body_end (m.block tmp end_) with
            | none => some .error
            | some len => some (.field h.type tmp (trim_r m.buf tmp len) (tmp + len))

def mime_of (body len : ℕ) : Option ℕ :=
  (decode_mime_type (m.mem (body + len) 0) ((m.buf.drop body).take len) none).map fun r => r.2.1

/-- The loop over the headers of a part, which goes on by a byte at least: where its body begins and its type, or
nothing when a header is bad. -/
def headers_loop (end_ : ℕ) : ℕ → ℕ → Option ℕ → Option (Option (ℕ × Option ℕ))
  | 0, _, _ => some none
  | fuel + 1, tmp, type =>
    match get_hdr_field_unparsed m tmp end_ with
    | none => none
    | some .error => some none
    | some .eoh => some (some (tmp + 2, type))
    | some (.field .CONTENTTYPE body len next) =>
      match mime_of m body len with
      | none => some none
      | some mime => headers_loop end_ fuel next (some mime)
    | some (.field _ _ _ next) => headers_loop end_ fuel next type

def parse_single_part (start end_ : ℕ) : Option (Option Part) :=
  (headers_loop m end_ (m.buf.length + 2) start none).map fun r => r.map fun (tmp, type) =>
    ⟨type.getD (TYPE_TEXT <<< 16 + SUBTYPE_PLAIN), (tmp, (end_ : ℤ) - tmp), (start, (end_ : ℤ) - start)⟩

def find_delimiter (delimiter : Str) (p : ℕ) : Option ℕ :=
  find_sdp_line_delimiter ⟨0, m.buf⟩ m.buf.length delimiter p

def parts_loop (delimiter : Str) : ℕ → ℕ → Option (Option (List Part))
  | 0, _ => some (some [])
  | fuel + 1, start =>
    match find_delimiter m delimiter (start + 1) with
    | none => some (some [])
    | some end_ =>
      match parse_single_part m (start + delimiter.length + 4) (end_ - 2) with
      | none => none
      | some none => some none
      | some (some temp) => (parts_loop delimiter fuel end_).map fun r => r.map (temp :: ·)

def get_all_bodies : Option (Option MultiBody) :=
  match m.body with
  | none => some none
  | some start =>
    match m.content_length with
    -- `NULL->parsed`
    | none => none
    | some len =>
      if (m.buf.length : ℤ) - start < len then some none
      else
        let (type, boundary) := parse_content_type_hdr m
        if type ≤ 0 then some none
        else if type >>> (16 : ℕ) = TYPE_MULTIPART then
          match find_delimiter m boundary start with
          -- the search goes on at `NULL + 1`
          | none => none
          | some d => (parts_loop m boundary (m.buf.length + 1) d).map fun r => r.map (⟨true, boundary, 0, ·⟩)
        else some (some ⟨false, boundary, 1, [⟨type.toNat, (start, len), (start, len)⟩]⟩)

end Source

section Formed

/-- A header field of a part, with the blanks in front of the `:`. -/
structure Field where
  name : Str
  blanks : Str
  value : Str

def Field.text (f : Field) : Str := f.name ++ f.blanks ++ chr ':' :: f.value ++ [CR, LF]

def Folded (v : Str) : Prop := ∀ x c y, v = x ++ c :: y →
  (c = CR → y.head? = some LF) ∧ (c = LF → x.getLast? = some CR ∧ ∃ d ∈ y.head?, isSP d = true)

structure Field.Formed (f : Field) : Prop where
  name : f.name ≠ [] ∧ ∀ c ∈ f.name, token_char c = true
  blanks : ∀ c ∈ f.blanks, isSP c = true
  value : Folded f.value

def Field.is_content_type (f : Field) : Bool :=
  f.name.map tolower = "content-type".toList.map chr || f.name.map tolower = [chr 'c']

structure PartText where
  fields : List Field
  body : Str
  content_type : ℕ

def PartText.head (p : PartText) : Str := p.fields.flatMap Field.text

def PartText.text (p : PartText) : Str := p.head ++ [CR, LF] ++ p.body

/-- The type is that of the Content-Type header, or else `text/plain`. -/
def PartText.Typed (p : PartText) : Prop :=
  match p.fields.filter Field.is_content_type with
  | [] => p.content_type = TYPE_TEXT <<< 16 ||| SUBTYPE_PLAIN
  | [f] => ∃ w1 t w2 w3 u w4 rest, (Blanks w1 ∧ Blanks w2 ∧ Blanks w3 ∧ Blanks w4) ∧ MediaRange t u ∧
    Mime.Behind rest ∧ f.value = media w1 t w2 w3 u w4 rest ∧
    p.content_type = type_code t <<< 16 ||| subtype_code u
  | _ => False

structure PartText.Formed (p : PartText) : Prop where
  fields : ∀ f ∈ p.fields, f.Formed
  type : p.Typed

def parts_text (boundary : Str) (ps : List PartText) : Str :=
  ps.flatMap fun p => delimiterhead ++ boundary ++ [CR, LF] ++ p.text ++ [CR, LF]

/-- What is to be returned of the parts, for a delimiter at `pos`. -/
def parts_at (boundary : Str) : ℕ → List PartText → List Part
  | _, [] => []
  | pos, p :: ps =>
    let start := pos + boundary.length + 4
    ⟨p.content_type, (start + p.head.length + 2, p.body.length), (start, p.text.length)⟩ ::
      parts_at boundary (start + p.text.length + 2) ps

/-- A message with a body of many parts: a preamble, the parts, and a closing delimiter. -/
structure Formed (m : Msg) (start : ℕ) (boundary preamble : Str) (ps : List PartText) : Prop where
  body : m.body = some start
  length : ∀ n ∈ m.content_length, n = (m.buf.length : ℤ) - start
  type : ∃ type, parse_content_type_hdr m = (type, boundary) ∧ type >>> (16 : ℕ) = TYPE_MULTIPART
  no_nul : 0 ∉ boundary
  line : preamble = [] ∨ [CR, LF] <:+ preamble
  text : ∃ epilogue, m.buf.drop start =
    preamble ++ parts_text boundary ps ++ (delimiterhead ++ boundary ++ delimiterhead) ++ epilogue
  lines : (delimiter_lines ⟨0, m.buf⟩ m.buf.length boundary start).length = ps.length + 1
  parts : ∀ p ∈ ps, p.Formed

/-- No pointer goes astray, and a body of many parts is taken apart for what it is. -/
structure Meets (m : Msg) : Prop where
  pointers : get_all_bodies m ≠ none
  formed : ∀ start boundary preamble ps, Formed m start boundary preamble ps →
    ∃ multi, get_all_bodies m = some (some multi) ∧
      multi.parts = parts_at boundary (start + preamble.length) ps ∧ multi.part_count = ps.length

end Formed

section Safe

variable (m : Msg)

def IsMultipart (start : ℕ) (boundary : Str) : Prop :=
  m.body = some start ∧ ∃ n type, m.content_length = some n ∧ n ≤ (m.buf.length : ℤ) - start ∧
    parse_content_type_hdr m = (type, boundary) ∧ type >>> (16 : ℕ) = TYPE_MULTIPART

/-- A header line at `q` lies behind the message, or its name is looked for there. -/
def Outside (q end_ : ℕ) : Prop :=
  m.buf.length < q ∨ (∀ c ∈ (m.buf ++ [0])[q]?, c ≠ LF ∧ c ≠ CR) ∧ strays m q end_ = true

/-- From the header line at the first position the one at the second is reached. -/
inductive Line (end_ : ℕ) : ℕ → ℕ → Prop where
  | here (q : ℕ) : Line end_ q q
  | next {q r body len next : ℕ} {type : HdrType} :
    get_hdr_field_unparsed m q end_ = some (.field type body len next) →
    (type = .CONTENTTYPE → mime_of m body len ≠ none) → Line end_ next r → Line end_ q r

/-- From the delimiter at `d` the part between the other two is reached. -/
inductive Reached (delimiter : Str) : ℕ → ℕ → ℕ → Prop where
  | here {d e : ℕ} : find_delimiter m delimiter (d + 1) = some e → Reached delimiter d d e
  | next {d e d' e' : ℕ} {p : Part} : find_delimiter m delimiter (d + 1) = some e →
    parse_single_part m (d + delimiter.length + 4) (e - 2) = some (some p) →
    Reached delimiter e d' e' → Reached delimiter d d' e'

/-- There is a Content-Length header; a delimiter is found in a body of many parts, and no header line that is read
there is outside; and the body has no parts. -/
structure Safe : Prop where
  length : m.body ≠ none → m.content_length ≠ none
  found : ∀ start boundary, IsMultipart m start boundary → find_delimiter m boundary start ≠ none
  inside : ∀ start boundary d d' e' q, IsMultipart m start boundary → find_delimiter m boundary start = some d →
    Reached m boundary d d' e' → Line m (e' - 2) (d' + boundary.length + 4) q → ¬ Outside m q (e' - 2)
  parts : ∀ start boundary preamble ps, Formed m start boundary preamble ps → ps = []

end Safe

section Headers

variable {m : Msg} {q end_ fuel : ℕ} {type : Option ℕ}

theorem field_next {ty : HdrType} {body len next : ℕ}
    (h : get_hdr_field_unparsed m q end_ = some (.field ty body len next)) : q < next ∧ next ≤ m.buf.length := by
  rw [get_hdr_field_unparsed] at h
  cases hc : (m.buf ++ [0])[q]? with
  | none => simp [hc] at h
  | some c =>
    rw [hc] at h
    dsimp only at h
    split_ifs at h with hnl hstray herr
    · simp at h
    · simp at h
    · cases hn : (parse_hname2 (m.mem q) (end_ - q)).next with
      | none => simp [hn] at h
      | some n =>
        rw [hn] at h
        dsimp only at h
        split_ifs at h with hend
        · simp at h
        · cases hb : body_end (m.block (q + n + eat_lws_end (m.block (q + n) end_)) end_) with
          | none => simp [hb] at h
          | some k =>
            rw [hb] at h
            obtain ⟨-, -, -, rfl⟩ := Hdr.field.inj (some.inj h)
            have hle := Contacts.body_end_le _ hb
            have hpos := (Contacts.body_end_last hb).1
            rw [Msg.block, length_drop, length_take] at hle
            omega

theorem outside_iff : get_hdr_field_unparsed m q end_ = none ↔ Outside m q end_ := by
  rw [get_hdr_field_unparsed, Outside]
  cases hc : (m.buf ++ [0])[q]? with
  | none =>
    rw [List.getElem?_eq_none_iff, length_append] at hc
    exact iff_of_true rfl (.inl hc)
  | some c =>
    have hq : ¬ m.buf.length < q := by
      have hlt := (List.getElem?_eq_some_iff.1 hc).1
      rw [length_append, length_singleton] at hlt
      omega
    dsimp only
    split_ifs with hnl hstray herr
    · refine iff_of_false (by simp) ?_
      rintro (h | ⟨h, -⟩)
      · exact hq h
      · obtain ⟨hlf, hcr⟩ := h c rfl
        exact hnl.elim hlf hcr
    · refine iff_of_true rfl (.inr ⟨fun d hd => ?_, hstray⟩)
      cases hd
      exact not_or.1 hnl
    · refine iff_of_false (by simp) ?_
      rintro (h | ⟨-, h⟩)
      · exact hq h
      · exact hstray h
    · refine iff_of_false ?_ ?_
      · cases (parse_hname2 (m.mem q) (end_ - q)).next with
        | none => simp
        | some n =>
          dsimp only
          split_ifs with hend
          · simp
          · cases body_end (m.block (q + n + eat_lws_end (m.block (q + n) end_)) end_) with
            | none => simp
            | some k => simp
      · rintro (h | ⟨-, h⟩)
        · exact hq h
        · exact hstray h

theorem headers_loop_field {ty : HdrType} {body len next : ℕ}
    (h : get_hdr_field_unparsed m q end_ = some (.field ty body len next)) :
    headers_loop m end_ (fuel + 1) q type = if ty = .CONTENTTYPE then
        match mime_of m body len with
        | none => some none
        | some mime => headers_loop m end_ fuel next (some mime)
      else headers_loop m end_ fuel next type := by
  rw [headers_loop, h]
  by_cases hty : ty = .CONTENTTYPE
  · rw [hty, if_pos rfl]
  · rw [if_neg hty]
    cases ty <;> first | rfl | exact absurd rfl hty

theorem headers_loop_none (hfuel : m.buf.length + 1 ≤ q + fuel) :
    headers_loop m end_ (fuel + 1) q type = none ↔ ∃ r, Line m end_ q r ∧ Outside m r end_ := by
  induction fuel generalizing q type with
  | zero =>
    have hout : Outside m q end_ := .inl (by omega)
    refine iff_of_true ?_ ⟨q, .here q, hout⟩
    rw [headers_loop, outside_iff.2 hout]
  | succ fuel ih =>
    cases hget : get_hdr_field_unparsed m q end_ with
    | none =>
      refine iff_of_true ?_ ⟨q, .here q, outside_iff.1 hget⟩
      rw [headers_loop, hget]
    | some hdr =>
      have hin : ¬ Outside m q end_ := fun hout => by
        rw [outside_iff.2 hout] at hget
        exact absurd hget (by simp)
      cases hdr with
      | error =>
        refine iff_of_false (by rw [headers_loop, hget]; simp) ?_
        rintro ⟨r, hr, hout⟩
        cases hr with
        | here => exact hin hout
        | next h _ _ => exact absurd (hget.symm.trans h) (by simp)
      | eoh =>
        refine iff_of_false (by rw [headers_loop, hget]; simp) ?_
        rintro ⟨r, hr, hout⟩
        cases hr with
        | here => exact hin hout
        | next h _ _ => exact absurd (hget.symm.trans h) (by simp)
      | field ty body len next =>
        obtain ⟨hlt, -⟩ := field_next hget
        -- a line that is reached from here is reached from the next one
        have hline : (∃ r, Line m end_ q r ∧ Outside m r end_) ↔
            (ty = .CONTENTTYPE → mime_of m body len ≠ none) ∧ ∃ r, Line m end_ next r ∧ Outside m r end_ := by
          constructor
          · rintro ⟨r, hr, hout⟩
            cases hr with
            | here => exact absurd hout hin
            | next h hmime hrest =>
              obtain ⟨rfl, rfl, rfl, rfl⟩ := Hdr.field.inj (some.inj (hget.symm.trans h))
              exact ⟨hmime, r, hrest, hout⟩
          · rintro ⟨hmime, r, hr, hout⟩
            exact ⟨r, .next hget hmime hr, hout⟩
        rw [headers_loop_field hget, hline]
        by_cases hty : ty = .CONTENTTYPE
        · rw [if_pos hty]
          cases hmime : mime_of m body len with
          | none => exact iff_of_false (by simp) fun h => h.1 hty rfl
          | some mime =>
            rw [ih (by omega)]
            exact ⟨fun h => ⟨fun _ => by simp, h⟩, And.right⟩
        · rw [if_neg hty, ih (by omega)]
          exact ⟨fun h => ⟨fun h => absurd h hty, h⟩, And.right⟩

theorem parse_single_part_none {start : ℕ} :
    parse_single_part m start end_ = none ↔ ∃ r, Line m end_ start r ∧ Outside m r end_ := by
  rw [parse_single_part, map_eq_none_iff]
  exact headers_loop_none (by omega)

end Headers

section Parts

variable {m : Msg} {boundary : Str} {start d e fuel : ℕ}

theorem find_delimiter_lt (h : find_delimiter m boundary d = some e) : d ≤ e ∧ e + 2 ≤ m.buf.length :=
  Sdp.find_lt h

theorem parts_loop_none (hfuel : m.buf.length < d + fuel) : parts_loop m boundary fuel d = none ↔
    ∃ d' e', Reached m boundary d d' e' ∧
      parse_single_part m (d' + boundary.length + 4) (e' - 2) = none := by
  induction fuel generalizing d with
  | zero =>
    refine iff_of_false (by simp [parts_loop]) ?_
    rintro ⟨d', e', hr, -⟩
    have hlt : ∀ {e}, find_delimiter m boundary (d + 1) ≠ some e := fun h => by
      have hle := find_delimiter_lt h
      omega
    cases hr with
    | here h => exact hlt h
    | next h _ _ => exact hlt h
  | succ fuel ih =>
    rw [parts_loop]
    cases he : find_delimiter m boundary (d + 1) with
    | none =>
      refine iff_of_false (by simp) ?_
      rintro ⟨d', e', hr, -⟩
      cases hr with
      | here h => exact absurd (he.symm.trans h) (by simp)
      | next h _ _ => exact absurd (he.symm.trans h) (by simp)
    | some e =>
      have hlt := (find_delimiter_lt he).1
      dsimp only
      cases hp : parse_single_part m (d + boundary.length + 4) (e - 2) with
      | none => exact iff_of_true rfl ⟨d, e, .here he, hp⟩
      | some r =>
        have hfirst : (∃ d' e', Reached m boundary d d' e' ∧
            parse_single_part m (d' + boundary.length + 4) (e' - 2) = none) ↔
            r ≠ none ∧ ∃ d' e', Reached m boundary e d' e' ∧
              parse_single_part m (d' + boundary.length + 4) (e' - 2) = none := by
          constructor
          · rintro ⟨d', e', hr, hnone⟩
            cases hr with
            | here h =>
              obtain rfl := some.inj (he.symm.trans h)
              exact absurd (hp.symm.trans hnone) (by simp)
            | next h hp' hrest =>
              obtain rfl := some.inj (he.symm.trans h)
              obtain rfl := some.inj (hp.symm.trans hp')
              exact ⟨by simp, d', e', hrest, hnone⟩
          · rintro ⟨hne, d', e', hr, hnone⟩
            obtain ⟨p, rfl⟩ := ne_none_iff_exists'.1 hne
            exact ⟨d', e', .next he hp hr, hnone⟩
        rw [hfirst]
        cases r with
        | none => exact iff_of_false (by simp) fun h => h.1 rfl
        | some p =>
          dsimp only
          rw [map_eq_none_iff, ih (by omega)]
          exact ⟨fun h => ⟨by simp, h⟩, And.right⟩

theorem multipart_positive {type : ℤ} (h : type >>> (16 : ℕ) = TYPE_MULTIPART) : ¬ type ≤ 0 := by
  have hdiv : type >>> (16 : ℕ) = type / 65536 := Int.shiftRight_eq_div_pow type 16
  have hfour : type / 65536 = 4 := hdiv.symm.trans h
  omega

theorem get_all_bodies_multipart (h : IsMultipart m start boundary) : get_all_bodies m =
    match find_delimiter m boundary start with
    | none => none
    | some d => (parts_loop m boundary (m.buf.length + 1) d).map fun r => r.map (⟨true, boundary, 0, ·⟩) := by
  obtain ⟨hbody, n, type, hlen, hn, htype, hmulti⟩ := h
  rw [get_all_bodies, hbody, hlen, htype]
  dsimp only
  rw [if_neg (Int.not_lt.2 hn), if_neg (multipart_positive hmulti), if_pos hmulti]

theorem astray (h : get_all_bodies m = none) :
    (m.body ≠ none ∧ m.content_length = none) ∨ ∃ start boundary, IsMultipart m start boundary := by
  rw [get_all_bodies] at h
  cases hbody : m.body with
  | none => simp [hbody] at h
  | some start =>
    cases hlen : m.content_length with
    | none => exact .inl ⟨by simp, rfl⟩
    | some n =>
      rw [hbody, hlen] at h
      dsimp only at h
      split_ifs at h with hn htype hmulti
      refine .inr ⟨start, (parse_content_type_hdr m).2, hbody, n, (parse_content_type_hdr m).1, hlen, ?_, rfl, hmulti⟩
      omega

theorem not_counted (h : IsMultipart m start boundary) {multi : MultiBody}
    (hm : get_all_bodies m = some (some multi)) : multi.part_count = 0 := by
  rw [get_all_bodies_multipart h] at hm
  cases hd : find_delimiter m boundary start with
  | none => simp [hd] at hm
  | some d =>
    rw [hd] at hm
    obtain ⟨r, -, hr⟩ := map_eq_some_iff.1 hm
    obtain ⟨ps, -, rfl⟩ := map_eq_some_iff.1 hr
    rfl

end Parts

section Bodies

variable {m : Msg} {start : ℕ} {boundary preamble : Str} {ps : List PartText}

theorem Formed.isMultipart (h : Formed m start boundary preamble ps) (hlen : m.content_length ≠ none) :
    IsMultipart m start boundary := by
  obtain ⟨n, hn⟩ := ne_none_iff_exists'.1 hlen
  obtain ⟨type, htype, hmulti⟩ := h.type
  exact ⟨h.body, n, type, hn, Int.le_of_eq (h.length n hn), htype, hmulti⟩

theorem delimits_of_find {d c : ℕ} (hnul : 0 ∉ boundary) (h : find_delimiter m boundary c = some d) :
    Delimits ⟨0, m.buf⟩ m.buf.length boundary d := by
  obtain ⟨hscan, ⟨hmatch, hstart⟩, -⟩ := (Sdp.find_loop_iff (by omega)).1 h
  refine ⟨hstart, ?_⟩
  obtain ⟨r, hr⟩ := hscan.holds
  rw [take_length] at hr ⊢
  have hdrop : m.buf.drop (d + 2) = r := by
    rw [← drop_drop, ← hr]
    rfl
  have hfull : Mi.cstr (r.take boundary.length) = boundary := by
    have heq := of_decide_eq_true hmatch
    rw [hdrop, take_length] at heq
    rw [heq, Mi.cstr, takeWhile_eq_self_iff]
    exact fun c hc => decide_eq_true fun hc0 => hnul (hc0 ▸ hc)
  -- as many bytes as the boundary has are compared, and none is a NUL
  have hprefix : boundary <+: r := by
    have hsub : Mi.cstr (r.take boundary.length) <+: r.take boundary.length := takeWhile_prefix _
    rw [hfull] at hsub
    exact hsub.trans (List.take_prefix _ _)
  rw [← hr]
  exact (prefix_append_right_inj _).2 hprefix

theorem no_part (h : Formed m start boundary preamble []) {d : ℕ}
    (hd : find_delimiter m boundary start = some d) : find_delimiter m boundary (d + 1) = none := by
  obtain ⟨p, hp⟩ := length_eq_one_iff.1 h.lines
  have hmem : ∀ {c e : ℕ}, start ≤ c → find_delimiter m boundary c = some e → e = p := by
    intro c e hc he
    have hin := Sdp.mem_delimiter_lines.2 ⟨hc.trans (find_delimiter_lt he).1, delimits_of_find h.no_nul he⟩
    rw [hp] at hin
    exact mem_singleton.1 hin
  obtain rfl := hmem (Nat.le_refl start) hd
  cases he : find_delimiter m boundary (d + 1) with
  | none => rfl
  | some e =>
    have hle := (find_delimiter_lt he).1
    obtain rfl := hmem (Nat.le_succ_of_le (find_delimiter_lt hd).1) he
    omega

/-- The bodies are found without a stray pointer, and for what they are, exactly when the message is safe. -/
theorem get_all_bodies_spec (m : Msg) : Meets m ↔ Safe m := by
  have hreached : ∀ {start d : ℕ} {boundary : Str}, IsMultipart m start boundary →
      find_delimiter m boundary start = some d → (get_all_bodies m = none ↔
        ∃ d' e', Reached m boundary d d' e' ∧ ∃ q, Line m (e' - 2) (d' + boundary.length + 4) q ∧
          Outside m q (e' - 2)) := by
    intro start d boundary hmulti hd
    rw [get_all_bodies_multipart hmulti, hd]
    dsimp only
    rw [map_eq_none_iff, parts_loop_none (by omega)]
    simp only [parse_single_part_none]
  constructor
  · intro h
    refine ⟨fun hbody hlen => h.pointers ?_, fun start boundary hmulti hd => h.pointers ?_, ?_, ?_⟩
    · obtain ⟨start, hstart⟩ := ne_none_iff_exists'.1 hbody
      rw [get_all_bodies, hstart, hlen]
    · rw [get_all_bodies_multipart hmulti, hd]
    · intro start boundary d d' e' q hmulti hd hr hq hout
      exact h.pointers ((hreached hmulti hd).2 ⟨d', e', hr, q, hq, hout⟩)
    · intro start boundary preamble ps hps
      obtain ⟨multi, hmulti, -, hcount⟩ := h.formed start boundary preamble ps hps
      have hlen : m.content_length ≠ none := fun hlen => by
        rw [get_all_bodies, hps.body, hlen] at hmulti
        exact absurd hmulti (by simp)
      rw [not_counted (hps.isMultipart hlen) hmulti] at hcount
      exact length_eq_zero_iff.1 hcount.symm
  · intro h
    refine ⟨fun hnone => ?_, ?_⟩
    · obtain ⟨hbody, hlen⟩ | ⟨start, boundary, hmulti⟩ := astray hnone
      · exact h.length hbody hlen
      · obtain ⟨d, hd⟩ := ne_none_iff_exists'.1 (h.found start boundary hmulti)
        obtain ⟨d', e', hr, q, hq, hout⟩ := (hreached hmulti hd).1 hnone
        exact h.inside start boundary d d' e' q hmulti hd hr hq hout
    · intro start boundary preamble ps hps
      obtain rfl := h.parts start boundary preamble ps hps
      have hmulti := hps.isMultipart (h.length (by simp [hps.body]))
      obtain ⟨d, hd⟩ := ne_none_iff_exists'.1 (h.found start boundary hmulti)
      refine ⟨⟨true, boundary, 0, []⟩, ?_, rfl, rfl⟩
      rw [get_all_bodies_multipart hmulti, hd]
      dsimp only
      rw [parts_loop, no_part hps hd]
      rfl

/-- A message with the boundary `b`, its header fields left out. -/
def message (body : String) : Msg :=
  ⟨[CR, LF] ++ body.toList.map chr, some 2, some body.length,
    some ("multipart/mixed;boundary=b".toList.map chr, CR)⟩

/-- The only part of a body is not counted, and a body without a boundary line is searched from NULL on. -/
theorem part_not_counted : ¬ Meets (message "--b\r\n\r\nx\r\n--b--") ∧ get_all_bodies (message "x") = none := by
  have htype : ∀ body, ∃ type, parse_content_type_hdr (message body) = (type, [chr 'b']) ∧
      type >>> (16 : ℕ) = TYPE_MULTIPART := by
    intro body
    have heq : parse_content_type_hdr ⟨[], none, none, some ("multipart/mixed;boundary=b".toList.map chr, CR)⟩ =
        (((TYPE_MULTIPART <<< 16 ||| Mime.SUBTYPE_MIXED : ℕ) : ℤ), [chr 'b']) := by decide +kernel
    refine ⟨((TYPE_MULTIPART <<< 16 ||| Mime.SUBTYPE_MIXED : ℕ) : ℤ), ?_, ?_⟩
    · rw [← heq, parse_content_type_hdr, parse_content_type_hdr, message]
    · decide
  constructor
  · intro h
    have hformed : Formed (message "--b\r\n\r\nx\r\n--b--") 2 [chr 'b'] []
        [⟨[], [chr 'x'], TYPE_TEXT <<< 16 ||| SUBTYPE_PLAIN⟩] := by
      refine ⟨rfl, fun n hn => ?_, htype _, by decide, .inl rfl, ⟨[], by decide⟩, by decide, fun p hp => ?_⟩
      · obtain rfl := some.inj hn
        decide
      · obtain rfl := mem_singleton.1 hp
        exact ⟨fun f hf => absurd hf not_mem_nil, rfl⟩
    obtain ⟨multi, hm, -, hcount⟩ := h.formed _ _ _ _ hformed
    rw [not_counted (hformed.isMultipart (by simp [message])) hm] at hcount
    exact absurd hcount (by simp)
  · obtain ⟨type, heq, hmulti⟩ := htype "x"
    have hm : IsMultipart (message "x") 2 [chr 'b'] := ⟨rfl, 1, type, rfl, by decide, heq, hmulti⟩
    have hnone : find_delimiter (message "x") [chr 'b'] 2 = none := by decide
    rw [get_all_bodies_multipart hm, hnone]

end Bodies

end OpenSips.Multipart
