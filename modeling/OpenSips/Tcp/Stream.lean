import OpenSips.Parser.Atomic
import OpenSips.Parser.Numbers

/-!
# OpenSips.Tcp.Stream — the messages in the bytes of a connection (`net/tcp/tcp.c`)

`tcp_event_read` parses what it has read up to the end of the headers, takes the length of the message
from Content-Length, and cuts the message off; what is left is parsed as the next one at once.
-/

namespace OpenSips.Tcp.Stream

open OpenSips.Parser SipMsg List Option

section Source

/-- What was read so far: the message, the number of its first Content-Length header
(`content_length->parsed`) and `read.msg_len`. -/
structure Reading where
  msg : SipMsg
  content_length : ℤ
  msg_len : ℕ

/-- A new message with some bytes in it. -/
def Reading.start (bytes : Str) : Reading := ⟨SipMsg.init bytes, 0, 0⟩

/-- `msg->len += len`, behind what is there. -/
def Reading.received (r : Reading) (bytes : Str) : Reading :=
  { r with msg := { r.msg with buf := r.msg.buf ++ bytes } }

/-- `msg->eoh`: it is set together with all flags, the last of which no header has, and `unparsed` stays
there. -/
def eoh (m : SipMsg) : Option ℕ := if m.parsed_flag.getLsbD 63 then m.unparsed else none

def with_length (P : Parsers) (past : UInt8) : Parsers :=
  { P with parse_content_length := fun buf tmp =>
      (Numbers.parse_content_length past (buf.drop tmp)).map Prod.fst }

/-- The number stored for the header that `msg->content_length` points at. -/
def length_of (past : UInt8) (m : SipMsg) : Option ℤ :=
  match (m.field (m.hook .CONTENTLENGTH)).body.s with
  | .msg tmp => (Numbers.parse_content_length past (m.buf.drop tmp)).map Prod.snd
  | _ => none

/-- `parse_msg(msg, HDR_EOH_F)`; the number is stored when its header is parsed. -/
def parse (P : Parsers) (past : UInt8) (r : Reading) : Option (Reading × ℤ) :=
  (parse_msg (with_length P past) past r.msg (HDR_T2F .EOH)).map fun q =>
    ({ r with
      msg := q.1
      content_length := if r.msg.hook .CONTENTLENGTH = 0 then (length_of past q.1).getD 0
        else r.content_length }, q.2)

/-- Where the body starts when the headers end at `len`. -/
def body_at (buf : Str) (len : ℕ) : Option ℕ :=
  if len + 2 ≤ buf.length ∧ buf[len]? = some CR ∧ buf[len + 1]? = some LF then some (len + 2)
  else if len + 1 ≤ buf.length ∧ (buf[len]? = some LF ∨ buf[len]? = some CR) then some (len + 1)
  else none

/-- `get_body` -/
def get_body (P : Parsers) (past : UInt8) (m : SipMsg) : Option (SipMsg × Option ℕ) :=
  (parse_headers (with_length P past) past m (HDR_T2F .EOH) false).map fun q =>
    (q.1, if q.2 = -1 then none else q.1.unparsed.bind (body_at q.1.buf))

/-- What the code between `again_message` and the test for a complete message comes to. -/
inductive Headers where
  | terminate
  | fault
  | go (r : Reading)

def read_headers (P : Parsers) (past : UInt8) (r : Reading) : Headers :=
  if (eoh r.msg).isSome then .go r
  else
    match parse P past r with
    | none => .fault
    | some (r, n) =>
      if n < 0 then .terminate
      else if n = 0 ∧ (eoh r.msg).isSome then
        if r.msg.hook .CONTENTLENGTH = 0 then .terminate
        else
          match get_body P past r.msg with
          | some (m, some body) =>
            .go { r with msg := m, msg_len := (uint (r.content_length + body)).toNat }
          | _ => .fault
      else .go r

/-- What the loop does next: it ends the connection, follows `NULL`, waits for more bytes, hands over a
message, or hands one over and jumps back with what is left. -/
inductive Turn where
  | terminate
  | fault
  | wait (r : Reading)
  | complete (msg : SipMsg)
  | again (msg : SipMsg) (r : Reading)

/-- What a turn finds: the byte behind the buffer, and whether there is memory for one more message. -/
structure Env where
  past : UInt8
  shm : Bool

/-- The code from `again_message` on. -/
def again_message (P : Parsers) (env : Env) (r : Reading) : Turn :=
  match read_headers P env.past r with
  | .terminate => .terminate
  | .fault => .fault
  | .go r =>
    if (eoh r.msg).isSome ∧ r.msg_len ≤ r.msg.buf.length then
      -- `conn->port_alias = msg->via1->port`
      if r.msg.via1 = 0 then .fault
      else if r.msg_len < r.msg.buf.length then
        if env.shm then
          .again { r.msg with buf := r.msg.buf.take r.msg_len } (.start (r.msg.buf.drop r.msg_len))
        else .terminate
      else .complete { r.msg with buf := r.msg.buf.take r.msg_len }
    else .wait r

/-- The loop: the messages handed over before the last turn, and the last turn. -/
def loop (P : Parsers) (envs : ℕ → Env) : ℕ → ℕ → Reading → Option (List SipMsg × Turn)
  | 0, _, _ => none
  | fuel + 1, k, r =>
    match again_message P (envs k) r with
    | .again msg r' => (loop P envs fuel (k + 1) r').map fun q => (msg :: q.1, q.2)
    | t => some ([], t)

/-- What the forwarding of a message comes to: it follows `NULL`, drops the message, adds a Via to a
request, or takes the first Via header, or its first body, off a reply. -/
inductive Forward where
  | fault
  | dropped
  | add_via
  | rm_hdr (h_via : ℕ)
  | alter_hdr (h_via : ℕ)

/-- `handle_msg_continue`, with the headers that it follows: those of a reply. -/
def handle_msg_continue (m : SipMsg) : Forward :=
  if m.first_line.request then .add_via
  else
    match m.hdr (m.hook .VIA) with
    | none => .fault
    | some h_via =>
      match h_via.parsed with
      | [] => .fault
      | [_] => .rm_hdr (m.hook .VIA)
      | _ => .alter_hdr (m.hook .VIA)

/-- `handle_new_msg`, with the headers that it follows; `ok` tells the Via bodies whose error is
`PARSE_OK`. -/
def handle_new_msg (P : Parsers) (past : UInt8) (ok : ℕ → Bool) (m : SipMsg) : Forward :=
  if m.first_line.request then handle_msg_continue m
  else
    match parse_headers (with_length P past) past m (HDR_T2F .VIA ||| HDR_T2F .VIA2) false with
    | none => .fault
    | some (m, n) =>
      if n = -1 ∨ m.via2 = 0 then .dropped
      else if !m.obj m.via2 then .fault
      else if !ok m.via2 then .dropped
      else handle_msg_continue m

end Source

/-- The readings that the loop starts with: new bytes, or more of them for a message that was waited
for. -/
inductive Reads (P : Parsers) : Reading → Prop where
  | new (bytes : Str) : Reads P (.start bytes)
  | more {r r' : Reading} {env : Env} (h : Reads P r) (hw : again_message P env r = .wait r') (bytes : Str) :
      Reads P (r'.received bytes)

inductive Met (P : Parsers) (envs : ℕ → Env) (r : Reading) : ℕ → Reading → Prop where
  | first : Met P envs r 0 r
  | next {k : ℕ} {r1 r2 : Reading} {msg : SipMsg} (h : Met P envs r k r1)
      (ha : again_message P (envs k) r1 = .again msg r2) : Met P envs r (k + 1) r2

section Ends

variable {P : Parsers} {past : UInt8} {buf b : Str} {e body : ℕ} {x : HdrField} {xs : List HdrField}

theorem have_header_length {first : Bool} {s : Str} (h : have_header past first s = true) : 2 ≤ s.length := by
  match s, h with
  | _ :: _ :: s, _ => exact Nat.le_add_left 2 s.length

theorem at_eoh_char (h : AtEoh P past buf e) :
    e + 2 ≤ buf.length ∧ (buf[e]? = some LF ∨ buf[e]? = some CR) := by
  obtain ⟨hlt, hh, ht⟩ := h
  have hlen := have_header_length hh
  rw [length_drop] at hlen
  refine ⟨by omega, ?_⟩
  have ht0 := ht 0
  unfold get_hdr_field at ht0
  have hdrop := drop_eq_getElem_cons hlt
  rw [hdrop] at ht0
  dsimp only at ht0
  rw [getElem?_eq_getElem hlt]
  by_cases hc : buf[e] = LF ∨ buf[e] = CR
  · exact hc.imp (congrArg some) (congrArg some)
  · rw [if_neg hc] at ht0
    exfalso
    cases hn : P.parse_hname buf e with
    | none =>
      rw [hn] at ht0
      cases ht0
    | some q =>
      obtain ⟨t, name_len, skipped⟩ := q
      rw [hn] at ht0
      dsimp only at ht0
      split_ifs at ht0
      cases hb : parse_body P buf t (e + name_len + 1 + skipped +
          eat_lws_end (buf.drop (e + name_len + 1 + skipped))) with
      | none =>
        rw [hb] at ht0
        cases ht0
      | some q =>
        rw [hb] at ht0
        obtain rfl : t = .EOH := ht0
        cases hb

theorem body_at_of (h : e + 2 ≤ buf.length ∧ (buf[e]? = some LF ∨ buf[e]? = some CR)) :
    ∃ body, body_at buf e = some body ∧ e < body ∧ body ≤ buf.length := by
  unfold body_at
  by_cases hcr : e + 2 ≤ buf.length ∧ buf[e]? = some CR ∧ buf[e + 1]? = some LF
  · exact ⟨e + 2, by rw [if_pos hcr], by omega, h.1⟩
  · exact ⟨e + 1, by rw [if_neg hcr, if_pos ⟨by omega, h.2⟩], by omega, by omega⟩

theorem body_at_append (h : e + 2 ≤ buf.length) : body_at (buf ++ b) e = body_at buf e := by
  unfold body_at
  rw [getElem?_append_left (by omega), getElem?_append_left (by omega), length_append]
  have h2 : e + 2 ≤ buf.length + b.length := by omega
  have h1 : e + 1 ≤ buf.length + b.length := by omega
  have h1' : e + 1 ≤ buf.length := by omega
  simp only [h, h2, h1, h1', true_and]

theorem lines_mem {pos : ℕ} (h : Lines P past buf pos xs e) (hx : x ∈ xs) :
    ∃ p rest, line_at P past buf p = some (x, rest) := by
  induction h with
  | nil pos => exact absurd hx not_mem_nil
  | cons eq _ ih =>
    rcases mem_cons.1 hx with rfl | hx
    · exact ⟨_, _, eq⟩
    · exact ih hx

theorem line_length {p rest : ℕ} (h : line_at (with_length P past) past buf p = some (x, rest))
    (ht : x.type = .CONTENTLENGTH) :
    ∃ tmp k z, x.body.s = .msg tmp ∧ Numbers.parse_content_length past (buf.drop tmp) = some (k, z) := by
  obtain ⟨⟨y, k, n⟩, hn, hr⟩ := map_eq_some_iff.1 h
  obtain ⟨rfl, -⟩ := Prod.mk.inj hr
  obtain ⟨t, name_len, skipped, k', -, hb, -, rfl⟩ := next_hdr_some hn
  obtain rfl : t = .CONTENTLENGTH := ht
  obtain ⟨k'', hk'', -⟩ := map_eq_some_iff.1 hb
  obtain ⟨⟨k3, z⟩, hz, -⟩ := map_eq_some_iff.1 hk''
  exact ⟨_, k3, z, rfl, hz⟩

end Ends

section Lists

variable {m m' : SipMsg} {L N : List ℕ} {h : ℕ}

theorem listed_bytes (hl : Listed m L) (buf : Str) : Listed { m with buf := buf } L :=
  ⟨⟨hl.wf.list, hl.wf.live, hl.wf.nodup, hl.wf.ids, ⟨hl.wf.hooked.single, hl.wf.hooked.siblings⟩⟩,
    hl.content, hl.via1, hl.via2, hl.fresh_pos, hl.objs⟩

theorem listed_length (hl : Listed m L) : m.hook .CONTENTLENGTH = (m.ofType .CONTENTLENGTH L).headD 0 :=
  hl.wf.hooked.single .CONTENTLENGTH rfl

theorem mem_of_headD {xs : List ℕ} (h : xs.headD 0 ≠ 0) : xs.headD 0 ∈ xs := by
  cases xs with
  | nil => exact absurd rfl h
  | cons x xs => exact mem_cons_self

theorem length_stays (hl : Listed m L) (ha : Contacts.Advance m L m' N) (h0 : m.hook .CONTENTLENGTH ≠ 0) :
    m'.hook .CONTENTLENGTH = m.hook .CONTENTLENGTH ∧
      (m'.field (m.hook .CONTENTLENGTH)).body = (m.field (m.hook .CONTENTLENGTH)).body := by
  have hof : m'.ofType .CONTENTLENGTH (L ++ N) = m.ofType .CONTENTLENGTH L ++ m'.ofType .CONTENTLENGTH N := by
    rw [Contacts.ofType_append, ha.ofType]
  have hhead := listed_length hl
  have hmem := mem_of_headD (hhead ▸ h0)
  refine ⟨?_, ?_⟩
  · rw [listed_length ha.listed, hof, hhead]
    cases hx : m.ofType .CONTENTLENGTH L with
    | nil =>
      rw [hhead, hx] at h0
      exact absurd rfl h0
    | cons x xs => rfl
  · rw [hhead]
    have := congrArg HdrField.body (ha.core _ (mem_ofType.1 hmem).1)
    exact this

theorem length_new (hl : Listed m L) (ha : Contacts.Advance m L m' N) (h0 : m.hook .CONTENTLENGTH = 0)
    (h1 : m'.hook .CONTENTLENGTH ≠ 0) : m'.hook .CONTENTLENGTH ∈ N ∧
      (m'.field (m'.hook .CONTENTLENGTH)).type = .CONTENTLENGTH := by
  have hhead := listed_length ha.listed
  obtain ⟨hmem, ht⟩ := mem_ofType.1 (mem_of_headD (hhead ▸ h1))
  rw [← hhead] at hmem ht
  refine ⟨(mem_append.1 hmem).resolve_left fun hL => ?_, ht⟩
  have hold : m'.hook .CONTENTLENGTH ∈ m.ofType .CONTENTLENGTH L := by
    rw [← ha.ofType]
    exact mem_ofType.2 ⟨hL, ht⟩
  rw [listed_length hl] at h0
  cases hx : m.ofType .CONTENTLENGTH L with
  | nil =>
    rw [hx] at hold
    exact absurd hold not_mem_nil
  | cons x xs =>
    rw [hx] at h0
    have hxL : x ∈ m.ofType .CONTENTLENGTH L := hx ▸ mem_cons_self
    exact (hl.wf.ids x (mem_ofType.1 hxL).1).1 h0

end Lists

section Turns

variable {P : Parsers} {past : UInt8} {env : Env} {m m' : SipMsg} {L N : List ℕ} {r r' : Reading} {tmp e body : ℕ}

/-- The digits that the number comes from: those of the Content-Length header, in what had arrived when it
was parsed. -/
def Written (r : Reading) : Prop :=
  ∃ past n tmp, n ≤ r.msg.buf.length ∧ (r.msg.field (r.msg.hook .CONTENTLENGTH)).body.s = .msg tmp ∧
    r.content_length = Numbers.int (Numbers.decimal
      ((Numbers.skip_lws past ((r.msg.buf.take n).drop tmp)).takeWhile Numbers.is_num))

/-- The headers end at `e`. -/
def EndsAt (m : SipMsg) (e : ℕ) : Prop :=
  eoh m = some e ∧ e + 2 ≤ m.buf.length ∧ (m.buf[e]? = some LF ∨ m.buf[e]? = some CR)

/-- **A message being read**, up to `read.msg_len`. -/
structure Underway (r : Reading) : Prop where
  listed : ∃ L, Listed r.msg L
  first : r.msg.unparsed = none → r.msg = SipMsg.init r.msg.buf
  ended : ∀ e, eoh r.msg = some e → EndsAt r.msg e
  written : r.msg.hook .CONTENTLENGTH ≠ 0 → Written r

/-- The headers with the empty line are `body` bytes. -/
def Block (r : Reading) (body : ℕ) : Prop := ∃ e, eoh r.msg = some e ∧ body_at r.msg.buf e = some body

def Sized (r : Reading) : Prop := ∀ body, Block r body →
  r.msg.hook .CONTENTLENGTH ≠ 0 ∧ r.msg_len = (uint (r.content_length + body)).toNat

theorem init_listed (buf : Str) : Listed (SipMsg.init buf) [] :=
  (start_listed buf ⟨false, 0, 0, 0⟩ 0).mono (Nat.le_refl _) 0 none

theorem bit_of_eoh (h : eoh m = none) (hu : m.unparsed = some tmp) : m.parsed_flag.getLsbD 63 = false := by
  rw [eoh] at h
  split_ifs at h with hb
  · rw [hu] at h
    cases h
  · exact Bool.eq_false_iff.2 hb

theorem headers_spec (P : Parsers) (past : UInt8) (hl : Listed m L) (hu : m.unparsed = some tmp)
    (hb : m.parsed_flag.getLsbD 63 = false) :
    ∃ m' ret N, parse_headers (with_length P past) past m (HDR_T2F .VIA ||| HDR_T2F .EOH) false =
        some (m', ret) ∧
      Contacts.Advance m L m' N ∧ m'.unparsed ≠ none ∧
      (∀ e, eoh m' = some e → EndsAt m' e ∧ ret = 0 ∧ m'.parsed_flag = BitVec.allOnes 64) ∧
      (m.hook .CONTENTLENGTH = 0 → m'.hook .CONTENTLENGTH ≠ 0 →
        ∃ tmp k z, (m'.field (m'.hook .CONTENTLENGTH)).body.s = .msg tmp ∧
          Numbers.parse_content_length past (m'.buf.drop tmp) = some (k, z)) := by
  obtain ⟨m', ret, N, e, heq, hp, htold⟩ := call_passed (with_length P past) past
    (HDR_T2F .VIA ||| HDR_T2F .EOH) false hl hu
  refine ⟨m', ret, N, heq, hp.advance, ?_, fun e' he' => ?_, fun h0 h1 => ?_⟩
  · rcases hp.answer with rfl | hret
    · rw [(hp.failed rfl).1, hu]
      exact some_ne_none _
    · rw [hp.stored hret]
      exact some_ne_none _
  · rcases htold rfl with ⟨rfl, hall, hat⟩ | hsame
    · have hun := hp.stored (Int.le_refl 0)
      have he : eoh m' = some e := by
        rw [eoh, hall, if_pos (by rfl), hun]
      obtain rfl : e = e' := some.inj (he.symm.trans he')
      have hbuf := hp.advance.same.1
      rw [← hbuf] at hat
      exact ⟨⟨he, at_eoh_char hat⟩, rfl, hall⟩
    · rw [eoh, hsame, hb, if_neg Bool.false_ne_true] at he'
      cases he'
  · obtain ⟨hN, ht⟩ := length_new hl hp.advance h0 h1
    obtain ⟨p, rest, hline⟩ := lines_mem hp.lines (List.mem_map.2 ⟨_, hN, rfl⟩)
    rw [hp.advance.same.1]
    exact line_length (x := (m'.field (m'.hook .CONTENTLENGTH)).text) hline ht

/-- The headers of a message that has its first line, `r.msg` or that with the line just parsed. -/
theorem parse_goes (h : Underway r) (hl : Listed m L) (hbuf : m.buf = r.msg.buf) (hu : m.unparsed = some tmp)
    (hb : m.parsed_flag.getLsbD 63 = false) (hhook : m.hook = r.msg.hook) (hhdr : m.hdr = r.msg.hdr)
    (heq : parse_msg (with_length P past) past r.msg (HDR_T2F .EOH) =
      parse_headers (with_length P past) past m (HDR_T2F .VIA ||| HDR_T2F .EOH) false) :
    ∃ r' n, parse P past r = some (r', n) ∧ Underway r' ∧ r'.msg.buf = r.msg.buf ∧
      (eoh r'.msg ≠ none → n = 0 ∧ r'.msg.parsed_flag = BitVec.allOnes 64) := by
  obtain ⟨m', ret, N, hcall, ha, hun, hend, hnew⟩ := headers_spec P past hl hu hb
  have hbuf' : m'.buf = r.msg.buf := ha.same.1.trans hbuf
  obtain ⟨z, hzdef, hp⟩ : ∃ z, z = (if r.msg.hook .CONTENTLENGTH = 0 then (length_of past m').getD 0
      else r.content_length) ∧ parse P past r = some (⟨m', z, r.msg_len⟩, ret) :=
    ⟨_, rfl, by rw [parse, heq, hcall, map_some]⟩
  have hwritten : m'.hook .CONTENTLENGTH ≠ 0 → Written ⟨m', z, r.msg_len⟩ := by
    intro hc
    by_cases h0 : r.msg.hook .CONTENTLENGTH = 0
    · obtain ⟨t, k, w, hs, hw⟩ := hnew (by rw [hhook]; exact h0) hc
      have hlen : length_of past m' = some w := by
        rw [length_of, hs]
        dsimp only
        rw [hw, map_some]
      refine ⟨past, m'.buf.length, t, Nat.le_refl _, hs, ?_⟩
      dsimp only
      rw [hzdef, if_pos h0, hlen, getD_some, take_length]
      exact Numbers.parse_content_length_number hw
    · obtain ⟨p, n, t, hn, hs, hw⟩ := h.written h0
      obtain ⟨hk, hbody⟩ := length_stays hl ha (by rw [hhook]; exact h0)
      refine ⟨p, n, t, by dsimp only; rw [hbuf']; exact hn, ?_, ?_⟩
      · dsimp only
        rw [hhook] at hk hbody
        rw [hk, hbody, ← hs, SipMsg.field, SipMsg.field, hhdr]
      · dsimp only
        rw [hzdef, if_neg h0, hbuf']
        exact hw
  refine ⟨⟨m', z, r.msg_len⟩, ret, hp, ⟨⟨_, ha.listed⟩, fun hn => absurd hn hun,
    fun e he => (hend e he).1, hwritten⟩, hbuf', fun hne => ?_⟩
  obtain ⟨e, he⟩ := ne_none_iff_exists'.1 hne
  exact (hend e he).2

/-- **Parsing** goes on with the message. -/
theorem parse_spec (P : Parsers) (past : UInt8) (h : Underway r) (he : eoh r.msg = none) :
    ∃ r' n, parse P past r = some (r', n) ∧ Underway r' ∧ r'.msg.buf = r.msg.buf ∧
      (eoh r'.msg ≠ none → n = 0 ∧ r'.msg.parsed_flag = BitVec.allOnes 64) := by
  obtain ⟨L, hl⟩ := h.listed
  cases hu : r.msg.unparsed with
  | some tmp =>
    refine parse_goes h hl rfl hu (bit_of_eoh he hu) rfl rfl ?_
    rw [parse_msg, hu]
  | none =>
    have hinit := h.first hu
    have hkeep : ∀ n : ℤ, parse_msg (with_length P past) past r.msg (HDR_T2F .EOH) = some (r.msg, n) →
        ∃ r' n, parse P past r = some (r', n) ∧ Underway r' ∧ r'.msg.buf = r.msg.buf ∧
          (eoh r'.msg ≠ none → n = 0 ∧ r'.msg.parsed_flag = BitVec.allOnes 64) := by
      intro n heq
      have h0 : r.msg.hook .CONTENTLENGTH = 0 := by rw [hinit]; rfl
      obtain ⟨z, hp⟩ : ∃ z, parse P past r = some (⟨r.msg, z, r.msg_len⟩, n) :=
        ⟨_, by rw [parse, heq, map_some]⟩
      exact ⟨_, n, hp, ⟨h.listed, h.first, h.ended, fun hc => absurd h0 hc⟩, rfl, fun hne => absurd he hne⟩
    cases hf : (with_length P past).parse_first_line r.msg.buf (leading_crlf r.msg.buf) with
    | none => exact hkeep 1 (by rw [parse_msg, hu]; dsimp only; rw [hf])
    | some o =>
      cases o with
      | none => exact hkeep (-1) (by rw [parse_msg, hu]; dsimp only; rw [hf])
      | some fl =>
        refine parse_goes (L := L) (m := { r.msg with first_line := fl, unparsed := some (leading_crlf r.msg.buf + fl.len) })
          h ?_ rfl rfl ?_ rfl rfl (by rw [parse_msg, hu]; dsimp only; rw [hf])
        · exact ⟨⟨hl.wf.list, hl.wf.live, hl.wf.nodup, hl.wf.ids,
            ⟨hl.wf.hooked.single, hl.wf.hooked.siblings⟩⟩, hl.content, hl.via1, hl.via2, hl.fresh_pos, hl.objs⟩
        · show r.msg.parsed_flag.getLsbD 63 = false
          rw [hinit]
          exact BitVec.getLsbD_zero

theorem get_body_spec (P : Parsers) (past : UInt8) (he : EndsAt m e) (hall : m.parsed_flag = BitVec.allOnes 64) :
    ∃ body, body_at m.buf e = some body ∧ get_body P past m = some (m, some body) := by
  obtain ⟨h, hlen, hc⟩ := he
  have hu : m.unparsed = some e := by
    rw [eoh, hall, if_pos (by rfl)] at h
    exact h
  obtain ⟨body, hbody, -⟩ := body_at_of ⟨hlen, hc⟩
  refine ⟨body, hbody, ?_⟩
  have hflags : HDR_T2F .EOH &&& m.parsed_flag = HDR_T2F .EOH := by
    rw [hall, BitVec.and_allOnes]
  have hm : { m with unparsed := some e } = m := by
    rw [← hu]
  rw [get_body, parse_headers_eq hu, if_neg Bool.false_ne_true, parse_headers_loop,
    if_pos fun hh => hh.2 hflags, bind_some, if_neg (Int.lt_irrefl 0), hm, map_some]
  dsimp only
  rw [if_neg (by decide), hu, bind_some, hbody]

theorem Block.unique {body' : ℕ} (h : Block r body) (h' : Block r body') : body = body' := by
  obtain ⟨e, he, hb⟩ := h
  obtain ⟨e', he', hb'⟩ := h'
  obtain rfl := some.inj (he.symm.trans he')
  exact some.inj (hb.symm.trans hb')

theorem Underway.block (h : Underway r) (he : eoh r.msg ≠ none) :
    ∃ body, Block r body ∧ 0 < body ∧ body ≤ r.msg.buf.length := by
  obtain ⟨e, he⟩ := ne_none_iff_exists'.1 he
  obtain ⟨-, hlen, hc⟩ := h.ended e he
  obtain ⟨body, hbody, hlt, hle⟩ := body_at_of ⟨hlen, hc⟩
  exact ⟨body, ⟨e, he, hbody⟩, by omega, hle⟩

/-- **Reading the headers** ends the connection or goes on with the message, whose length is known when
the headers have ended. -/
theorem read_headers_spec (h : Underway r) (hs : Sized r) (past : UInt8) :
    read_headers P past r = .terminate ∨ ∃ r', read_headers P past r = .go r' ∧ Underway r' ∧ Sized r' ∧
      r'.msg.buf = r.msg.buf := by
  by_cases he : (eoh r.msg).isSome
  · exact .inr ⟨r, by rw [read_headers, if_pos he], h, hs, rfl⟩
  · obtain ⟨r1, n, hp, h1, hbuf, hall⟩ := parse_spec P past h (not_isSome_iff_eq_none.1 he)
    rw [read_headers, if_neg he, hp]
    dsimp only
    by_cases hn : n < 0
    · exact .inl (if_pos hn)
    · rw [if_neg hn]
      cases heoh : eoh r1.msg with
      | none =>
        refine .inr ⟨r1, if_neg (fun hh => absurd hh.2 Bool.false_ne_true), h1, fun body hb => ?_, hbuf⟩
        obtain ⟨e, hb, -⟩ := hb
        exact absurd (heoh.symm.trans hb) (some_ne_none e).symm
      | some e =>
        obtain ⟨h0, hflags⟩ := hall (heoh ▸ some_ne_none e)
        rw [if_pos ⟨h0, rfl⟩]
        by_cases hc : r1.msg.hook .CONTENTLENGTH = 0
        · exact .inl (if_pos hc)
        · obtain ⟨body, hbody, hget⟩ := get_body_spec P past (h1.ended e heoh) hflags
          rw [if_neg hc, hget]
          refine .inr ⟨_, rfl, ⟨h1.listed, h1.first, h1.ended, h1.written⟩, fun b hb => ⟨hc, ?_⟩, hbuf⟩
          rw [Block.unique (r := { r1 with msg_len := _ }) hb ⟨e, heoh, hbody⟩]

theorem Underway.received (h : Underway r) (b : Str) : Underway (r.received b) := by
  obtain ⟨L, hl⟩ := h.listed
  refine ⟨⟨L, listed_bytes hl _⟩, fun hu => ?_, fun e he => ?_, fun hc => ?_⟩
  · rw [Reading.received, h.first hu]
    rfl
  · obtain ⟨he, hlen, hc⟩ := h.ended e he
    refine ⟨he, ?_, ?_⟩
    · show e + 2 ≤ (r.msg.buf ++ b).length
      rw [length_append]
      omega
    · show (r.msg.buf ++ b)[e]? = some LF ∨ (r.msg.buf ++ b)[e]? = some CR
      rw [getElem?_append_left (by omega)]
      exact hc
  · obtain ⟨past, n, tmp, hn, hs, hz⟩ := h.written hc
    refine ⟨past, n, tmp, ?_, hs, ?_⟩
    · show n ≤ (r.msg.buf ++ b).length
      rw [length_append]
      omega
    · show r.content_length = Numbers.int (Numbers.decimal
        ((Numbers.skip_lws past (((r.msg.buf ++ b).take n).drop tmp)).takeWhile Numbers.is_num))
      rw [take_append_of_le_length hn]
      exact hz

theorem Block.received {b : Str} (h : Underway r) (hb : Block (r.received b) body) : Block r body := by
  obtain ⟨e, he, hat⟩ := hb
  have hat' : body_at (r.msg.buf ++ b) e = some body := hat
  rw [body_at_append (h.ended e he).2.1] at hat'
  exact ⟨e, he, hat'⟩

theorem Underway.start (b : Str) : Underway (.start b) where
  listed := ⟨[], init_listed b⟩
  first _ := rfl
  ended e he := by
    have hb : (SipMsg.init b).parsed_flag.getLsbD 63 = false := BitVec.getLsbD_zero
    rw [Reading.start, eoh, hb] at he
    cases he
  written h := absurd rfl h

theorem Sized.start (b : Str) : Sized (.start b) := fun body hb => by
  obtain ⟨e, he, -⟩ := hb
  exact absurd ((Underway.start b).ended e he).1 (by
    have hb : (SipMsg.init b).parsed_flag.getLsbD 63 = false := BitVec.getLsbD_zero
    rw [Reading.start, eoh, hb]
    exact (some_ne_none e).symm)

theorem wait_go (h : again_message P env r = .wait r') : read_headers P env.past r = .go r' := by
  rw [again_message] at h
  split at h
  · cases h
  · cases h
  · rename_i r1 heq
    split_ifs at h with h1 h2 h3 h4
    obtain rfl := Turn.wait.inj h
    exact heq

/-- **Every message being read** is well formed, and its length is known when its headers have ended. -/
theorem Reads.underway (h : Reads P r) : Underway r ∧ Sized r := by
  induction h with
  | new bytes => exact ⟨.start bytes, .start bytes⟩
  | more h hw bytes ih =>
    obtain hno | ⟨r1, hgo, h1, hs, -⟩ := read_headers_spec (P := P) ih.1 ih.2 _
    · rw [wait_go hw] at hno
      cases hno
    · obtain rfl := Headers.go.inj ((wait_go hw).symm.trans hgo)
      exact ⟨h1.received bytes, fun body hb => hs body (hb.received h1)⟩

end Turns

section Splitting

variable {P : Parsers} {past : UInt8} {env : Env} {envs : ℕ → Env} {r r0 r' : Reading} {msg : SipMsg} {k body : ℕ}

/-- The number of Content-Length and the headers stay below `2^32` together. -/
def Fits (P : Parsers) (past : UInt8) (r : Reading) : Prop := ∀ r' body, read_headers P past r = .go r' →
  Block r' body → uint r'.content_length + body < 4294967296

/-- The length is not below that of the headers, and what is left behind the message is less. -/
def Shrinks (P : Parsers) (env : Env) (r : Reading) : Prop :=
  (∀ r' body, read_headers P env.past r = .go r' → Block r' body → body ≤ r'.msg_len) ∧
    ∀ msg r', again_message P env r = .again msg r' → r'.msg.buf.length < r.msg.buf.length

/-- The number and the headers in an `unsigned int`. -/
theorem uint_sum (z : ℤ) (body : ℕ) : body ≤ (uint (z + body)).toNat ↔ uint z + body < 4294967296 := by
  simp only [uint]
  omega

theorem again_spec (h : again_message P env r = .again msg r') : ∃ r1, read_headers P env.past r = .go r1 ∧
    eoh r1.msg ≠ none ∧ r1.msg_len < r1.msg.buf.length ∧ r1.msg.via1 ≠ 0 ∧
    msg = { r1.msg with buf := r1.msg.buf.take r1.msg_len } ∧
    r' = .start (r1.msg.buf.drop r1.msg_len) := by
  rw [again_message] at h
  split at h
  · cases h
  · cases h
  · rename_i r1 heq
    split_ifs at h with h1 h2 h3 h4
    obtain ⟨rfl, rfl⟩ := Turn.again.inj h
    exact ⟨r1, heq, isSome_iff_ne_none.1 h1.1, h3, h2, rfl, rfl⟩

theorem shrinks_iff (h : Underway r) (hs : Sized r) : Shrinks P env r ↔ Fits P env.past r := by
  constructor
  · rintro ⟨hlen, -⟩ r' body hgo hb
    obtain hno | ⟨r1, hgo', -, hs1, -⟩ := read_headers_spec (P := P) h hs env.past
    · rw [hno] at hgo
      cases hgo
    · obtain rfl := Headers.go.inj (hgo.symm.trans hgo')
      have hle := hlen r' body hgo hb
      rw [(hs1 body hb).2] at hle
      exact (uint_sum _ body).1 hle
  · intro hfits
    have hlen : ∀ r' body, read_headers P env.past r = .go r' → Block r' body → body ≤ r'.msg_len := by
      intro r' body hgo hb
      obtain hno | ⟨r1, hgo', -, hs1, -⟩ := read_headers_spec (P := P) h hs env.past
      · rw [hno] at hgo
        cases hgo
      · obtain rfl := Headers.go.inj (hgo.symm.trans hgo')
        rw [(hs1 body hb).2]
        exact (uint_sum _ body).2 (hfits r' body hgo hb)
    refine ⟨hlen, fun msg r' ha => ?_⟩
    obtain ⟨r1, hgo, he, hlt, -, -, rfl⟩ := again_spec ha
    obtain hno | ⟨r2, hgo', h2, hs2, hbuf⟩ := read_headers_spec (P := P) h hs env.past
    · rw [hno] at hgo
      cases hgo
    · obtain rfl := Headers.go.inj (hgo.symm.trans hgo')
      obtain ⟨body, hb, hpos, -⟩ := h2.block he
      have hle := hlen r1 body hgo hb
      show (r1.msg.buf.drop r1.msg_len).length < r.msg.buf.length
      rw [length_drop, ← hbuf]
      omega

theorem Met.reads (h : Reads P r0) (hm : Met P envs r0 k r) : Reads P r := by
  induction hm with
  | first => exact h
  | next hm ha ih =>
    obtain ⟨r1, -, -, -, -, -, rfl⟩ := again_spec ha
    exact .new _

theorem loop_ends (hall : ∀ k r, Met P envs r0 k r → Shrinks P (envs k) r) (n : ℕ) :
    ∀ {k r}, Met P envs r0 k r → r.msg.buf.length < n → ∃ q, loop P envs n k r = some q := by
  induction n with
  | zero => exact fun _ h => absurd h (Nat.not_lt_zero _)
  | succ n ih =>
    intro k r hm hlt
    rw [loop]
    cases ha : again_message P (envs k) r with
    | again msg r' =>
      have hless := (hall k r hm).2 msg r' ha
      obtain ⟨q, hq⟩ := ih (hm.next ha) (by omega)
      exact ⟨_, by dsimp only; rw [hq, map_some]⟩
    | terminate => exact ⟨_, rfl⟩
    | fault => exact ⟨_, rfl⟩
    | wait r' => exact ⟨_, rfl⟩
    | complete msg => exact ⟨_, rfl⟩

/-- The plain parsers with the compact name of Content-Length. -/
def compact : Parsers :=
  { plain with
    parse_hname := fun s pos => (upTo 58 (s.drop pos)).map fun n =>
      (if (s.drop pos).take n = [108] then .CONTENTLENGTH else nameType ((s.drop pos).take n), n, 0) }

/-- A request with this Content-Length. -/
def request (length : String) : Str :=
  ("A b SIP/2.0\r\nVia:SIP/2.0/TCP x\r\nl:" ++ length ++ "\r\n\r\n").toList.map chr

/-- What is read of the headers: the number of Content-Length, the length of the headers and that of the
message. -/
def lengths : Headers → Option (ℤ × Option ℕ × ℕ)
  | .go r => some (r.content_length, (eoh r.msg).bind (body_at r.msg.buf), r.msg_len)
  | _ => none

end Splitting

section Vias

variable {P : Parsers} {past : UInt8} {env : Env} {envs : ℕ → Env} {m : SipMsg} {L : List ℕ}
  {r r0 r' : Reading} {msg : SipMsg} {k : ℕ}

def HasVia (m : SipMsg) : Prop := ∃ L, Listed m L ∧ ∃ h ∈ L, (m.field h).type = .VIA

def Complete (r : Reading) : Prop := eoh r.msg ≠ none ∧ r.msg_len ≤ r.msg.buf.length

section

variable (hl : Listed m L)
include hl

theorem via_bodies {h : ℕ} (hL : h ∈ L) (ht : (m.field h).type = .VIA) :
    ∃ n, 0 < n ∧ (m.field h).parsed = List.range' (h + 1) n := by
  obtain ⟨-, n, hn, hpos⟩ := hl.content h hL
  exact ⟨n, hpos ht, hn⟩

theorem vias_ne {o : ℕ} (ho : o ∈ vias m L) : o ≠ 0 := by
  obtain ⟨h, hL, ho⟩ := mem_flatMap.1 ho
  obtain ⟨hL, ht⟩ := mem_ofType.1 hL
  obtain ⟨n, -, hn⟩ := via_bodies hl hL ht
  rw [hn, mem_range'_1] at ho
  omega

theorem vias_obj {o : ℕ} (ho : o ∈ vias m L) : m.obj o = true := by
  obtain ⟨h, hL, ho⟩ := mem_flatMap.1 ho
  exact (hl.objs o).2 ⟨h, (mem_ofType.1 hL).1, ho⟩

theorem via1_iff : m.via1 ≠ 0 ↔ ∃ h ∈ L, (m.field h).type = .VIA := by
  constructor
  · intro h1
    rw [hl.via1] at h1
    obtain ⟨h, hL, -⟩ := mem_flatMap.1 (mem_of_headD h1)
    exact ⟨h, mem_ofType.1 hL⟩
  · rintro ⟨h, hL, ht⟩
    obtain ⟨n, hpos, hn⟩ := via_bodies hl hL ht
    have hmem : h + 1 ∈ vias m L := by
      refine mem_flatMap.2 ⟨h, mem_ofType.2 ⟨hL, ht⟩, ?_⟩
      rw [hn, mem_range'_1]
      omega
    rw [hl.via1]
    cases hv : vias m L with
    | nil =>
      rw [hv] at hmem
      exact absurd hmem not_mem_nil
    | cons o os => exact vias_ne (o := o) hl (by rw [hv]; exact mem_cons_self)

theorem hasVia_iff : HasVia m ↔ m.via1 ≠ 0 := by
  constructor
  · rintro ⟨L', hl', h⟩
    exact (via1_iff hl').2 h
  · exact fun h => ⟨L, hl, (via1_iff hl).1 h⟩

theorem continue_safe (h1 : m.via1 ≠ 0) : handle_msg_continue m ≠ .fault := by
  obtain ⟨h, hL, ht⟩ := (via1_iff hl).1 h1
  have hsib : m.Siblings .VIA (m.ofType .VIA L) := hl.wf.hooked.siblings .VIA rfl
  rw [handle_msg_continue]
  by_cases hreq : m.first_line.request = true
  · rw [if_pos hreq]
    exact Forward.noConfusion
  · rw [if_neg hreq]
    have hmem : h ∈ m.ofType .VIA L := mem_ofType.2 ⟨hL, ht⟩
    cases hS : m.ofType .VIA L with
    | nil =>
      rw [hS] at hmem
      exact absurd hmem not_mem_nil
    | cons g S =>
      rw [hS] at hsib
      have hhook : m.hook .VIA = g := hsib.1
      obtain ⟨hgL, hgt⟩ := mem_ofType.1 (hS ▸ mem_cons_self : g ∈ m.ofType .VIA L)
      obtain ⟨x, hx⟩ := ne_none_iff_exists'.1 ((hl.wf.live g).1 hgL)
      obtain ⟨n, hpos, hn⟩ := via_bodies hl hgL hgt
      rw [SipMsg.field, hx, getD_some] at hn
      obtain ⟨n, rfl⟩ := Nat.exists_eq_succ_of_ne_zero (Nat.pos_iff_ne_zero.1 hpos)
      rw [hhook, hx]
      dsimp only
      rw [hn, range'_succ]
      cases List.range' (g + 1 + 1) n with
      | nil => exact Forward.noConfusion
      | cons o os => exact Forward.noConfusion

/-- **Forwarding follows no `NULL`**, whatever Via's a message has. -/
theorem forward_safe (hu : m.unparsed ≠ none) (past : UInt8) (ok : ℕ → Bool)
    (h1 : m.via1 ≠ 0) : handle_new_msg P past ok m ≠ .fault := by
  obtain ⟨tmp, hu⟩ := ne_none_iff_exists'.1 hu
  rw [handle_new_msg]
  by_cases hreq : m.first_line.request = true
  · rw [if_pos hreq]
    exact continue_safe hl h1
  · rw [if_neg hreq]
    obtain ⟨m', ret, N, e, heq, hp, -⟩ := call_passed (with_length P past) past
      (HDR_T2F .VIA ||| HDR_T2F .VIA2) false hl hu
    have hl' := hp.advance.listed
    rw [heq]
    dsimp only
    by_cases hd : ret = -1 ∨ m'.via2 = 0
    · rw [if_pos hd]
      exact Forward.noConfusion
    · rw [if_neg hd]
      have h2 : m'.via2 ≠ 0 := fun h => hd (.inr h)
      rw [hl'.via2] at h2
      have hmem := mem_of_mem_drop (mem_of_headD h2)
      rw [← hl'.via2] at hmem
      have h1' : m'.via1 ≠ 0 := by
        obtain ⟨h, hL, -⟩ := mem_flatMap.1 hmem
        exact (via1_iff hl').2 ⟨h, mem_ofType.1 hL⟩
      rw [vias_obj hl' hmem, if_neg (by decide)]
      by_cases hok : ok m'.via2 = true
      · rw [hok, if_neg (by decide)]
        exact continue_safe hl' h1'
      · rw [Bool.eq_false_iff.2 hok, if_pos (by decide)]
        exact Forward.noConfusion

end

def ViaThere (P : Parsers) (past : UInt8) (r : Reading) : Prop := ∀ r', read_headers P past r = .go r' →
  Complete r' → HasVia r'.msg

inductive Handed : Turn → SipMsg → Prop where
  | complete (msg : SipMsg) : Handed (.complete msg) msg
  | again (msg : SipMsg) (r : Reading) : Handed (.again msg r) msg

/-- It has a first Via, and its forwarding follows no `NULL`. -/
def Forwardable (P : Parsers) (m : SipMsg) : Prop :=
  m.via1 ≠ 0 ∧ ∀ past ok, handle_new_msg P past ok m ≠ .fault

theorem handed_spec (h : Handed (again_message P env r) msg) : ∃ r1, read_headers P env.past r = .go r1 ∧
    eoh r1.msg ≠ none ∧ r1.msg.via1 ≠ 0 ∧ msg = { r1.msg with buf := r1.msg.buf.take r1.msg_len } := by
  rw [again_message] at h
  split at h
  · cases h
  · cases h
  · rename_i r1 heq
    split_ifs at h with h1 h2 h3 h4
    · cases h
    · cases h
      exact ⟨r1, heq, isSome_iff_ne_none.1 h1.1, h2, rfl⟩
    · cases h
    · cases h
      exact ⟨r1, heq, isSome_iff_ne_none.1 h1.1, h2, rfl⟩
    · cases h

theorem handed_forwardable (hr : Reads P r) (h : Handed (again_message P env r) msg) : Forwardable P msg := by
  obtain ⟨hu, hs⟩ := hr.underway
  obtain ⟨r1, hgo, he, h1, rfl⟩ := handed_spec h
  obtain hno | ⟨r2, hgo', h2, -, -⟩ := read_headers_spec (P := P) hu hs env.past
  · rw [hno] at hgo
    cases hgo
  · obtain rfl := Headers.go.inj (hgo.symm.trans hgo')
    obtain ⟨L, hl⟩ := h2.listed
    have hun : r1.msg.unparsed ≠ none := fun hn => he (by rw [eoh, hn, ite_self])
    exact ⟨h1, fun past ok => forward_safe (listed_bytes hl (r1.msg.buf.take r1.msg_len)) hun past ok h1⟩

/-- **`conn->port_alias = msg->via1->port`** follows `NULL` when a complete message has no Via. -/
theorem fault_iff (hr : Reads P r) : again_message P env r = .fault ↔ ¬ ViaThere P env.past r := by
  obtain ⟨hu, hs⟩ := hr.underway
  obtain hno | ⟨r1, hgo, h1, -, -⟩ := read_headers_spec (P := P) hu hs env.past
  · have hterm : again_message P env r = .terminate := by rw [again_message, hno]
    rw [hterm]
    refine iff_of_false Turn.noConfusion fun h => h fun r' hgo => ?_
    rw [hno] at hgo
    cases hgo
  · obtain ⟨L, hl⟩ := h1.listed
    have hthere : ViaThere P env.past r ↔ (Complete r1 → r1.msg.via1 ≠ 0) := by
      rw [← hasVia_iff hl]
      refine ⟨fun h => h r1 hgo, fun h r' hgo' => ?_⟩
      obtain rfl := Headers.go.inj (hgo.symm.trans hgo')
      exact h
    rw [hthere, again_message, hgo]
    dsimp only
    by_cases hc : Complete r1
    · rw [if_pos ⟨isSome_iff_ne_none.2 hc.1, hc.2⟩]
      by_cases hv : r1.msg.via1 = 0
      · rw [if_pos hv]
        exact iff_of_true rfl fun h => h hc hv
      · rw [if_neg hv]
        refine iff_of_false (fun h => ?_) fun h => h fun _ => hv
        split_ifs at h
    · rw [if_neg fun h => hc ⟨isSome_iff_ne_none.1 h.1, h.2⟩]
      exact iff_of_false Turn.noConfusion fun h => h fun hc' => absurd hc' hc

/-- **What a run hands over can be forwarded**, and it follows no `NULL` when each complete message has a
Via. -/
theorem loop_spec (hr : Reads P r0) (hall : ∀ k r, Met P envs r0 k r → ViaThere P (envs k).past r) (fuel : ℕ) :
    ∀ {k r msgs t}, Met P envs r0 k r → loop P envs fuel k r = some (msgs, t) →
      t ≠ .fault ∧ ∀ msg, msg ∈ msgs ∨ Handed t msg → Forwardable P msg := by
  induction fuel with
  | zero => exact fun _ h => absurd h (some_ne_none _).symm
  | succ fuel ih =>
    intro k r msgs t hm h
    have hnow : ∀ msg, Handed (again_message P (envs k) r) msg → Forwardable P msg :=
      fun msg => handed_forwardable (hm.reads hr)
    have hsafe : again_message P (envs k) r ≠ .fault := fun hf => (fault_iff (hm.reads hr)).1 hf (hall k r hm)
    have hlast : ∀ t', again_message P (envs k) r = t' → some (([] : List SipMsg), t') = some (msgs, t) →
        t ≠ .fault ∧ ∀ msg, msg ∈ msgs ∨ Handed t msg → Forwardable P msg := by
      rintro t' rfl heq
      cases heq
      exact ⟨hsafe, fun msg hmsg => hnow msg (hmsg.resolve_left not_mem_nil)⟩
    rw [loop] at h
    cases ha : again_message P (envs k) r with
    | again msg r' =>
      rw [ha] at h
      obtain ⟨q, hq, heq⟩ := map_eq_some_iff.1 h
      obtain ⟨rfl, rfl⟩ := Prod.mk.inj heq
      obtain ⟨ht, hmsgs⟩ := ih (hm.next ha) hq
      refine ⟨ht, fun msg' hmsg => ?_⟩
      rcases hmsg with hmem | hlast'
      · rcases mem_cons.1 hmem with rfl | hmem
        · exact hnow msg' (ha ▸ .again msg' r')
        · exact hmsgs msg' (.inl hmem)
      · exact hmsgs msg' (.inr hlast')
    | terminate => exact hlast _ ha (by rw [ha] at h; exact h)
    | fault => exact absurd ha hsafe
    | wait r' => exact hlast _ ha (by rw [ha] at h; exact h)
    | complete msg => exact hlast _ ha (by rw [ha] at h; exact h)

end Vias

end OpenSips.Tcp.Stream
