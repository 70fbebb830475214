import OpenSips.Parser.Msg

/-!
# OpenSips.Parser.Headers — `parse_msg`, `parse_headers`, `get_hdr_field` and `free_sip_msg`

The parsers of the first line, of header names and of header bodies are parameters: nothing is
assumed of the lengths they return.
-/

namespace OpenSips.Parser

/-- The parsers called for one header or line, on a buffer and a position in it.  `parse_hname`
returns the type, the length of the name and how many bytes it skips behind the colon; a body parser
returns how many bytes it takes, `parse_via` also the number of bodies behind the first.  `none` is
an error; `parse_first_line` may also want more bytes, `some none` is then the error.  `avail` says
which allocations succeed. -/
structure Parsers where
  parse_first_line : Str → ℕ → Option (Option MsgStart)
  parse_hname : Str → ℕ → Option (HdrType × ℕ × ℕ)
  parse_via : Str → ℕ → Option (ℕ × ℕ)
  parse_cseq : Str → ℕ → Option ℕ
  parse_to : Str → ℕ → Option ℕ
  parse_content_length : Str → ℕ → Option ℕ
  parse_name_only : CharPtr → ℤ → HdrType × ℤ
  avail : ℕ → Bool

def CR : UInt8 := 13

def LF : UInt8 := 10

/-- The macro `SP`. -/
def isSP (c : UInt8) : Bool := c = 32 ∨ c = 9

/-- `eat_lws_end`: how many bytes it skips. -/
def eat_lws_end : Str → ℕ
  | [] => 0
  | c :: s =>
    if isSP c then eat_lws_end s + 1
    else match s with
      | [] => 0
      | d :: s =>
        if c = LF ∧ isSP d then eat_lws_end s + 2
        else match s with
          | [] => 0
          | e :: s => if c = CR ∧ d = LF ∧ isSP e then eat_lws_end s + 3 else 0

/-- The loop over `q_memchr(tmp, '\n', end - tmp)`: the length of a folded body with its line
ends. -/
def body_end : Str → Option ℕ
  | [] => none
  | c :: s =>
    if c = LF then
      match s with
      | [] => some 1
      | d :: t => if isSP d then (body_end (d :: t)).map (· + 1) else some 1
    else (body_end s).map (· + 1)

/-- `trim_r`: the length without trailing NUL, CR and LF. -/
def trim_r (s : Str) (off : ℕ) : ℕ → ℕ
  | 0 => 0
  | n + 1 =>
    let c := (s.drop (off + n)).headD 0
    if c = 0 ∨ c = CR ∨ c = LF then trim_r s off n else n + 1

/-- What a body parser yields: how many objects it allocated, and how many bytes it took. -/
def parse_body (P : Parsers) (buf : Str) (t : HdrType) (tmp : ℕ) : Option (ℕ × ℕ) :=
  match t with
  | .VIA => (P.parse_via buf tmp).map fun (n, more) => (more + 1, n)
  | .CSEQ => (P.parse_cseq buf tmp).map fun n => (1, n)
  | .TO => (P.parse_to buf tmp).map fun n => (1, n)
  | .CONTENTLENGTH => (P.parse_content_length buf tmp).map fun n => (0, n)
  | .ERROR | .EOH | .VIA2 => none
  | _ => (body_end (buf.drop tmp)).map fun n => (0, n)

/-- `get_hdr_field` on the line at `pos`: the header field, where the next line starts, and how many
objects it allocated, the first at `obj`.  A type `ERROR` is a bad header, `EOH` the empty line.
`hf->len` is a `short`. -/
def get_hdr_field (P : Parsers) (buf : Str) (obj : ℕ) (pos : ℕ) : HdrField × ℕ × ℕ :=
  let bad := ({ HdrField.zero with type := .ERROR }, pos, 0)
  match buf.drop pos with
  | [] => bad
  | c :: _ =>
    if c = LF ∨ c = CR then ({ HdrField.zero with type := .EOH }, pos, 0)
    else
      match P.parse_hname buf pos with
      | none => bad
      | some (t, name_len, skipped) =>
        let p := pos + name_len + 1 + skipped
        let tmp := p + eat_lws_end (buf.drop p)
        if buf.length ≤ tmp then bad
        else
          match parse_body P buf t tmp with
          | none => bad
          | some (objs, n) =>
            ({ HdrField.zero with
              type := t
              name := ⟨.msg pos, name_len⟩
              body := ⟨.msg tmp, trim_r buf tmp n⟩
              len := short ((tmp + n - pos : ℕ) : ℤ)
              parsed := List.range' obj objs }, tmp + n, objs)

/-- `HDR_T2F` -/
def HDR_T2F (t : HdrType) : BitVec 64 :=
  if t = .EOH then BitVec.allOnes 64 else BitVec.twoPow 64 t.ctorIdx

/-- The scan for the end of a header: a CRLF that is first, or that no blank and no NUL follows.
`past` is the byte behind the message, which the scan may read. -/
def have_header (past : UInt8) : Bool → Str → Bool
  | first, c :: d :: s =>
    (c = CR ∧ d = LF ∧ (first ∨ ¬ (isSP (s.headD past) ∨ s.headD past = 0))) ||
    have_header past false (d :: s)
  | _, _ => false

def note_via (m : SipMsg) (h : ℕ) (objs : List ℕ) : Option SipMsg :=
  if m.via1 = 0 then
    match objs with
    | [] => none
    | v :: vs =>
      let m := { m.setHook .VIA h with via1 := v }
      some (match vs with
        | [] => m
        | w :: _ => { m with via2 := w, parsed_flag := m.parsed_flag ||| HDR_T2F .VIA2 })
  else if m.via2 = 0 then
    some { m with via2 := objs.headD 0, parsed_flag := m.parsed_flag ||| HDR_T2F .VIA2 }
  else some m

/-- The switch of `parse_headers` for the good header `h`. -/
def note_hdr (m : SipMsg) (h : ℕ) (x : HdrField) : Option SipMsg := do
  let m ← link_hook m x.type h
  let m := if x.type.hookKind = .none then m
    else { m with parsed_flag := m.parsed_flag ||| HDR_T2F x.type }
  if x.type = .VIA then note_via m h x.parsed else some m

def append_hdr (m : SipMsg) (h : ℕ) : Option SipMsg :=
  if m.last_header = 0 then some { m with headers := h, last_header := h }
  else do
    let last := m.last_header
    let m ← m.upd last fun x => { x with next := h }
    let m ← m.upd h fun x => { x with prev := last }
    some { m with last_header := h }

/-- The loop of `parse_headers`; the result is its return value, and -1 leaves `unparsed` behind. -/
def parse_headers_loop (P : Parsers) (past : UInt8) (flags : BitVec 64) :
    ℕ → SipMsg → ℕ → Option (SipMsg × ℤ)
  | 0, _, _ => none
  | fuel + 1, m, tmp =>
    if ¬ (tmp < m.buf.length ∧ flags &&& m.parsed_flag ≠ flags) then
      some ({ m with unparsed := some tmp }, 0)
    else if ¬ have_header past true (m.buf.drop tmp) then
      some ({ m with unparsed := some tmp }, 1)
    else if ¬ P.avail m.fresh then some (m, -1)
    else
      let h := m.fresh
      let (x, rest, objs) := get_hdr_field P m.buf (h + 1) tmp
      let m := (m.newHdr x).newObjs objs
      if x.type = .EOH then
        some ({ m.freeHdr h with parsed_flag := m.parsed_flag ||| HDR_T2F .EOH,
                                 unparsed := some tmp }, 0)
      else if x.type.hookKind = .bad then some (m.freeHdr h, -1)
      else do
        let m ← note_hdr m h x
        let m ← append_hdr m h
        parse_headers_loop P past flags fuel m rest

/-- `parse_headers`: one round per byte is enough. -/
def parse_headers (P : Parsers) (past : UInt8) (m : SipMsg) (flags : BitVec 64) (next : Bool) :
    Option (SipMsg × ℤ) := do
  let tmp ← m.unparsed
  let orig_flag := if next then m.parsed_flag else 0
  let m := if next then { m with parsed_flag := m.parsed_flag &&& ~~~flags } else m
  let (m, ret) ← parse_headers_loop P past flags (m.buf.length + 1) m tmp
  some (if ret < 0 then { m with parsed_flag := m.parsed_flag ||| orig_flag } else m, ret)

def leading_crlf : Str → ℕ
  | [] => 0
  | c :: s => if c = LF ∨ c = CR then leading_crlf s + 1 else 0

/-- `parse_msg`: 0, -1, or 1 for a partial parse. -/
def parse_msg (P : Parsers) (past : UInt8) (m : SipMsg) (flags : BitVec 64) : Option (SipMsg × ℤ) :=
  match m.unparsed with
  | some _ => parse_headers P past m (HDR_T2F .VIA ||| flags) false
  | none =>
    let offset := leading_crlf m.buf
    match P.parse_first_line m.buf offset with
    | none => some (m, 1)
    | some none => some (m, -1)
    | some (some fl) =>
      parse_headers P past { m with first_line := fl, unparsed := some (offset + fl.len) }
        (HDR_T2F .VIA ||| flags) false

/-- A message with the bytes received, before `parse_msg`. -/
def SipMsg.init (buf : Str) : SipMsg where
  buf := buf
  first_line := ⟨false, 0, 0, 0⟩
  via1 := 0
  via2 := 0
  headers := 0
  last_header := 0
  parsed_flag := 0
  hook := fun _ => 0
  unparsed := none
  new_len := 0
  new_uri := ⟨.null, 0⟩
  hdr := fun _ => none
  blk := fun _ => none
  obj := fun _ => false
  fresh := 1

/-- `free_hdr_field_lst` -/
def free_hdr_field_lst : ℕ → SipMsg → ℕ → Option SipMsg
  | 0, _, _ => none
  | fuel + 1, m, hf =>
    if hf = 0 then some m
    else do
      let x ← m.hdr hf
      let m ← clean_hdr_field m hf
      let m ← if x.flags.free_body then m.freePtr x.body.s else some m
      free_hdr_field_lst fuel (m.freeHdr hf) x.next

/-- `free_sip_msg`: what it releases of the fields modelled. -/
def free_sip_msg (m : SipMsg) : Option SipMsg := do
  let m ← m.freePtr m.new_uri.s
  free_hdr_field_lst (m.fresh + 1) m m.headers

/-- `set_ruri`: a private copy of the URI; the old block is used again when it is long enough. -/
def set_ruri (m : SipMsg) (uri : Slice) (mem : Alloc) : Option (SipMsg × ℤ) := do
  let src ← (m.argument uri.s).bind (SipMsg.cut · 0 uri.len)
  if m.new_uri.s ≠ .null ∧ uri.len ≤ m.new_uri.len then
    let m ← m.write m.new_uri.s 0 src
    some ({ m with new_uri := ⟨m.new_uri.s, uri.len⟩ }, 0)
  else
    match mem with
    | none => some (m, -1)
    | some junk =>
      let ptr := CharPtr.blk m.fresh
      let m' ← (m.newBlk (fill junk uri.len)).write ptr 0 src
      let m' ← m'.freePtr m.new_uri.s
      some ({ m' with new_uri := ⟨ptr, uri.len⟩ }, 0)

/-- The number of bytes in front of the first `c`. -/
def upTo (c : UInt8) (s : Str) : Option ℕ := s.findIdx? (· = c)

def nameType (s : Str) : HdrType :=
  if s = [86, 105, 97] then .VIA
  else if s = [84, 111] then .TO
  else if s = [70, 114, 111, 109] then .FROM
  else if s = [82, 111, 117, 116, 101] then .ROUTE
  else .OTHER

/-- Parsers that do on plain messages what those of the source do: a request line of three words, a
few names right in front of the colon, bodies up to the end of the line, Via bodies separated by
commas. -/
def plain : Parsers where
  parse_first_line s off := do
    let n ← body_end (s.drop off)
    let k ← upTo 32 (s.drop off)
    let l ← upTo 32 (s.drop (off + k + 1))
    some (some ⟨true, n, off + k + 1, l⟩)
  parse_hname s pos := (upTo 58 (s.drop pos)).map fun n => (nameType ((s.drop pos).take n), n, 0)
  parse_via s pos := (body_end (s.drop pos)).map fun n => (n, ((s.drop pos).take n).count 44)
  parse_cseq s pos := body_end (s.drop pos)
  parse_to s pos := body_end (s.drop pos)
  parse_content_length s pos := body_end (s.drop pos)
  parse_name_only _ n := (.OTHER, n)
  avail _ := true

end OpenSips.Parser
