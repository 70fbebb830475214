import Mathlib.Data.List.Nodup
import OpenSips.Str

/-!
# OpenSips.Sdp.Cells — the cells of a parsed SDP (`sdp/sdp.c`)

Sessions, streams and payloads are put in front of their lists, with the next number.  `get_sdp_stream_sdp` goes on to
the next session only when the number of this one is not the wanted one.
-/

namespace OpenSips.Sdp

open List Option

/-- `sdp_payload_attr_t`, with the texts its slices hold. -/
structure Payload where
  payload_num : ℤ
  rtp_payload : Str
  rtp_enc : Str := []
  rtp_clock : Str := []
  rtp_params : Str := []
  sendrecv_mode : Str := []
  ptime : Str := []
  fmtp_string : Str := []
  deriving DecidableEq

/-- `sdp_stream_cell_t`; `p_payload_attr` has the places of the payloads in their list. -/
structure Stream where
  pf : ℤ
  ip_addr : Str
  stream_num : ℤ
  media : Str
  port : Str
  transport : Str
  payloads : Str
  payloads_num : ℕ := 0
  bw_type : Str := []
  bw_width : Str := []
  path : Str := []
  max_size : Str := []
  accept_types : Str := []
  accept_wrapped_types : Str := []
  p_payload_attr : Option (List ℕ) := none
  payload_attr : List Payload := []
  deriving DecidableEq

/-- `sdp_session_cell_t` -/
structure Session where
  session_num : ℤ
  cnt_disp : Str
  bw_type : Str := []
  bw_width : Str := []
  streams_num : ℕ := 0
  streams : List Stream := []
  deriving DecidableEq

/-- `sdp_info_t` -/
structure SdpInfo where
  sessions_num : ℕ := 0
  sessions : List Session := []
  deriving DecidableEq

section Source

def add_sdp_session (sdp : SdpInfo) (session_num : ℤ) (cnt_disp : Str) : SdpInfo :=
  ⟨sdp.sessions_num + 1, { session_num := session_num, cnt_disp := cnt_disp } :: sdp.sessions⟩

def add_sdp_stream (session : Session) (stream_num : ℤ) (media port transport payloads : Str) (pf : ℤ)
    (sdp_ip : Str) : Session :=
  { session with
    streams_num := session.streams_num + 1
    streams := { stream_num := stream_num, media := media, port := port, transport := transport,
                 payloads := payloads, pf := pf, ip_addr := sdp_ip } :: session.streams }

def add_sdp_payload (stream : Stream) (payload_num : ℤ) (payload : Str) : Stream :=
  { stream with
    payloads_num := stream.payloads_num + 1
    payload_attr := { payload_num := payload_num, rtp_payload := payload } :: stream.payload_attr }

/-- The places in `init_p_payload_attr`: number `i` of the list goes to the end, less `i`. -/
def places (payloads_num : ℕ) : List ℕ := (List.range payloads_num).map fun j => payloads_num - 1 - j

def init_p_payload_attr (stream : Stream) : Option Stream :=
  if stream.payloads_num = 0 then none
  else some { stream with p_payload_attr := some (places stream.payloads_num) }

/-- The payloads of a media line in `parse_sdp_session`, in a stream without any. -/
def add_payloads : List Str → ℤ → Stream → Stream
  | [], _, stream => stream
  | payload :: payloads, payloadnum, stream =>
    add_payloads payloads (payloadnum + 1) (add_sdp_payload stream payloadnum payload)

def get_sdp_session_sdp (sdp : SdpInfo) (session_num : ℤ) : Option Session :=
  if session_num > sdp.sessions_num then none else sdp.sessions.find? fun s => s.session_num = session_num

/-- The loop of `get_sdp_stream_sdp`; `none` when it has not ended yet. -/
def stream_loop (session_num stream_num : ℤ) : ℕ → List Session → Option (Option Stream)
  | 0, _ => none
  | _ + 1, [] => some none
  | fuel + 1, session :: next =>
    if session.session_num = session_num then
      match session.streams.find? fun s => s.stream_num = stream_num with
      | some stream => some (some stream)
      | none => stream_loop session_num stream_num fuel (session :: next)
    else stream_loop session_num stream_num fuel next

def get_sdp_stream_sdp (sdp : SdpInfo) (session_num stream_num : ℤ) (fuel : ℕ) : Option (Option Stream) :=
  if session_num > sdp.sessions_num then some none else stream_loop session_num stream_num fuel sdp.sessions

end Source

section Meaning

/-- The numbers of a list of `n` cells. -/
def numbers (n : ℕ) : List ℤ := (List.range n).reverse.map Nat.cast

structure Stream.Parsed (s : Stream) : Prop where
  payloads_num : s.payloads_num = s.payload_attr.length
  numbered : s.payload_attr.map Payload.payload_num = numbers s.payload_attr.length
  access : s.p_payload_attr = if s.payloads_num = 0 then none else some (places s.payloads_num)

structure Session.Parsed (s : Session) : Prop where
  streams_num : s.streams_num = s.streams.length
  numbered : s.streams.map Stream.stream_num = numbers s.streams.length
  streams : ∀ t ∈ s.streams, t.Parsed

/-- The cells of the parser: their counts, numbers and access pointers. -/
structure SdpInfo.Parsed (sdp : SdpInfo) : Prop where
  sessions_num : sdp.sessions_num = sdp.sessions.length
  numbered : sdp.sessions.map Session.session_num = numbers sdp.sessions.length
  sessions : ∀ s ∈ sdp.sessions, s.Parsed

/-- The two functions end, with the cell of these numbers, or with none when there is none. -/
structure Gets (sdp : SdpInfo) (session_num stream_num : ℤ) : Prop where
  session : ∀ s, get_sdp_session_sdp sdp session_num = some s ↔ s ∈ sdp.sessions ∧ s.session_num = session_num
  ends : ∃ fuel r, get_sdp_stream_sdp sdp session_num stream_num fuel = some r
  stream : ∀ fuel r, get_sdp_stream_sdp sdp session_num stream_num fuel = some r → ∀ t, r = some t ↔
    ∃ s ∈ sdp.sessions, s.session_num = session_num ∧ t ∈ s.streams ∧ t.stream_num = stream_num

end Meaning

section Parser

variable {sdp : SdpInfo} {session : Session} {stream : Stream} {n : ℤ}

theorem numbers_succ (n : ℕ) : numbers (n + 1) = (n : ℤ) :: numbers n := by
  rw [numbers, range_succ, reverse_append]
  rfl

theorem mem_numbers {n : ℕ} {i : ℤ} : i ∈ numbers n ↔ 0 ≤ i ∧ i < n := by
  rw [numbers, List.mem_map]
  constructor
  · rintro ⟨j, hj, rfl⟩
    rw [mem_reverse, mem_range] at hj
    omega
  · intro h
    refine ⟨i.toNat, ?_, by omega⟩
    rw [mem_reverse, mem_range]
    omega

theorem numbers_nodup (n : ℕ) : (numbers n).Nodup := by
  induction n with
  | zero => exact nodup_nil
  | succ n ih =>
    rw [numbers_succ]
    refine nodup_cons.2 ⟨fun h => ?_, ih⟩
    have := (mem_numbers.1 h).2
    omega

theorem numbered_cons {α : Type} {num : α → ℤ} {cells : List α} {cell : α} (h : cells.map num = numbers cells.length)
    (hc : num cell = cells.length) : (cell :: cells).map num = numbers (cell :: cells).length := by
  rw [map_cons, length_cons, numbers_succ, h, hc]

theorem new_parsed : SdpInfo.Parsed {} := ⟨rfl, rfl, fun _ h => absurd h not_mem_nil⟩

/-- `parse_mixed_content` numbers the sessions as they are added. -/
theorem session_parsed (h : sdp.Parsed) (cnt_disp : Str) :
    (add_sdp_session sdp sdp.sessions_num cnt_disp).Parsed := by
  refine ⟨congrArg (· + 1) h.sessions_num, numbered_cons h.numbered ?_, forall_mem_cons.2 ⟨?_, h.sessions⟩⟩
  · exact congrArg Nat.cast h.sessions_num
  · exact ⟨rfl, rfl, fun _ ht => absurd ht not_mem_nil⟩

theorem stream_parsed (h : session.Parsed) (media port transport payloads : Str) (pf : ℤ) (sdp_ip : Str) :
    (add_sdp_stream session session.streams_num media port transport payloads pf sdp_ip).Parsed := by
  refine ⟨congrArg (· + 1) h.streams_num, numbered_cons h.numbered ?_, forall_mem_cons.2 ⟨?_, h.streams⟩⟩
  · exact congrArg Nat.cast h.streams_num
  · exact ⟨rfl, rfl, rfl⟩

theorem add_payloads_numbered : ∀ (texts : List Str) (stream : Stream), stream.payloads_num = stream.payload_attr.length →
    stream.payload_attr.map Payload.payload_num = numbers stream.payload_attr.length →
    (add_payloads texts stream.payload_attr.length stream).payloads_num =
        (add_payloads texts stream.payload_attr.length stream).payload_attr.length ∧
      (add_payloads texts stream.payload_attr.length stream).payload_attr.map Payload.payload_num =
        numbers (add_payloads texts stream.payload_attr.length stream).payload_attr.length
  | [], _, hn, hl => ⟨hn, hl⟩
  | text :: texts, stream, hn, hl =>
    add_payloads_numbered texts (add_sdp_payload stream stream.payload_attr.length text)
      (congrArg (· + 1) hn) (numbered_cons hl rfl)

theorem payloads_parsed {texts : List Str} {s : Stream} (hn : stream.payloads_num = 0) (hl : stream.payload_attr = [])
    (h : init_p_payload_attr (add_payloads texts 0 stream) = some s) : s.Parsed := by
  have hzero : ((stream.payload_attr.length : ℕ) : ℤ) = 0 := by rw [hl]; rfl
  obtain ⟨hnum, hlist⟩ := add_payloads_numbered texts stream (by rw [hn, hl]; rfl) (by rw [hl]; rfl)
  rw [hzero] at hnum hlist
  rw [init_p_payload_attr] at h
  split_ifs at h with h0
  cases h
  exact ⟨hnum, hlist, (if_neg h0).symm⟩

end Parser

section Getters

variable {sdp : SdpInfo} {sn tn : ℤ} {s : Session} {t : Stream} {ss : List Session} {α : Type} {num : α → ℤ}
  {cells : List α} {cell : α} {n : ℤ}

theorem find_cell (h : cells.map num = numbers cells.length) :
    (cells.find? fun c => num c = n) = some cell ↔ cell ∈ cells ∧ num cell = n := by
  have hnodup : (cells.map num).Nodup := h ▸ numbers_nodup _
  constructor
  · intro hf
    exact ⟨mem_of_find?_eq_some hf, by simpa using find?_some hf⟩
  · rintro ⟨hc, hn⟩
    cases hf : cells.find? fun c => decide (num c = n) with
    | none => exact absurd (decide_eq_true hn) (find?_eq_none.1 hf cell hc)
    | some c =>
      have hcn : num c = n := by simpa using find?_some hf
      rw [inj_on_of_nodup_map hnodup (mem_of_find?_eq_some hf) hc (hcn.trans hn.symm)]

theorem loop_found {fuel : ℕ} {r : Option Stream} : ∀ {ss}, (ss.map Session.session_num).Nodup → s ∈ ss →
    s.session_num = sn → stream_loop sn tn fuel ss = some r → ∃ t, r = some t ∧
      (s.streams.find? fun t => t.stream_num = tn) = some t
  | [], _, hs, _, _ => absurd hs not_mem_nil
  | u :: ss, hnodup, hs, hn, hr => by
    obtain ⟨hnot, hrest⟩ := nodup_cons.1 hnodup
    induction fuel with
    | zero => cases hr
    | succ fuel ih =>
      rw [stream_loop] at hr
      by_cases hu : u.session_num = sn
      · obtain rfl : s = u := by
          rcases mem_cons.1 hs with rfl | hs
          · rfl
          · exact absurd (List.mem_map.2 ⟨s, hs, hn.trans hu.symm⟩) hnot
        rw [if_pos hu] at hr
        cases hf : s.streams.find? fun t => t.stream_num = tn with
        | some t =>
          rw [hf] at hr
          exact ⟨t, (some.inj hr).symm, rfl⟩
        | none =>
          rw [hf] at hr
          obtain ⟨t, -, ht⟩ := ih hr
          rw [hf] at ht
          cases ht
      · rw [if_neg hu] at hr
        rcases mem_cons.1 hs with rfl | hs
        · exact absurd hn hu
        · exact loop_found hrest hs hn hr

theorem loop_missing : ∀ {ss : List Session}, (∀ s ∈ ss, s.session_num ≠ sn) →
    stream_loop sn tn (ss.length + 1) ss = some none
  | [], _ => rfl
  | s :: ss, h => by
    obtain ⟨hs, hss⟩ := forall_mem_cons.1 h
    rw [length_cons, stream_loop, if_neg hs]
    exact loop_missing hss

theorem missing_null {r : Option Stream} : ∀ {fuel ss}, (∀ s ∈ ss, s.session_num ≠ sn) →
    stream_loop sn tn fuel ss = some r → r = none
  | 0, _, _, hr => by cases hr
  | _ + 1, [], _, hr => (some.inj hr).symm
  | fuel + 1, s :: ss, h, hr => by
    obtain ⟨hs, hss⟩ := forall_mem_cons.1 h
    rw [stream_loop, if_neg hs] at hr
    exact missing_null hss hr

theorem loop_ends : ∀ {ss : List Session}, (ss.map Session.session_num).Nodup → s ∈ ss → s.session_num = sn →
    (s.streams.find? fun t => t.stream_num = tn) = some t → stream_loop sn tn (ss.length + 1) ss = some (some t)
  | [], _, hs, _, _ => absurd hs not_mem_nil
  | u :: ss, hnodup, hs, hn, ht => by
    obtain ⟨hnot, hrest⟩ := nodup_cons.1 hnodup
    rw [length_cons, stream_loop]
    rcases mem_cons.1 hs with rfl | hs
    · rw [if_pos hn, ht]
    · have hu : u.session_num ≠ sn := fun hu => hnot (List.mem_map.2 ⟨s, hs, hn.trans hu.symm⟩)
      rw [if_neg hu]
      exact loop_ends hrest hs hn ht

theorem too_large (h : sdp.Parsed) (hn : sn > sdp.sessions_num) : ∀ s ∈ sdp.sessions, s.session_num ≠ sn := by
  rintro s hs rfl
  have hmem : s.session_num ∈ numbers sdp.sessions.length := by
    rw [← h.numbered]
    exact List.mem_map_of_mem hs
  have hlt := (mem_numbers.1 hmem).2
  rw [h.sessions_num] at hn
  omega

theorem get_session (h : sdp.Parsed) (sn : ℤ) (s : Session) :
    get_sdp_session_sdp sdp sn = some s ↔ s ∈ sdp.sessions ∧ s.session_num = sn := by
  rw [get_sdp_session_sdp]
  by_cases hn : sn > sdp.sessions_num
  · rw [if_pos hn]
    exact iff_of_false (some_ne_none s).symm fun ⟨hs, he⟩ => too_large h hn s hs he
  · rw [if_neg hn]
    exact find_cell h.numbered

/-- **`get_sdp_session_sdp` and `get_sdp_stream_sdp` end, with the cell of the numbers**, in every parsed SDP, exactly
when the session is not there or has the stream. -/
theorem getters_spec (h : sdp.Parsed) (sn tn : ℤ) : Gets sdp sn tn ↔
    ∀ s ∈ sdp.sessions, s.session_num = sn → ∃ t ∈ s.streams, t.stream_num = tn := by
  have hnodup : (sdp.sessions.map Session.session_num).Nodup := h.numbered ▸ numbers_nodup _
  have hloop : (∃ s ∈ sdp.sessions, s.session_num = sn) → ∀ fuel,
      get_sdp_stream_sdp sdp sn tn fuel = stream_loop sn tn fuel sdp.sessions := by
    rintro ⟨s, hs, he⟩ fuel
    exact if_neg fun hn => too_large h hn s hs he
  constructor
  · intro hg s hs he
    obtain ⟨fuel, r, hr⟩ := hg.ends
    rw [hloop ⟨s, hs, he⟩] at hr
    obtain ⟨t, -, ht⟩ := loop_found hnodup hs he hr
    exact ⟨t, (find_cell (h.sessions s hs).numbered).1 ht⟩
  · intro hcond
    by_cases hex : ∃ s ∈ sdp.sessions, s.session_num = sn
    · have hget := hloop hex
      obtain ⟨s, hs, he⟩ := hex
      obtain ⟨t, ht, hte⟩ := hcond s hs he
      have hfind := (find_cell (h.sessions s hs).numbered).2 ⟨ht, hte⟩
      refine ⟨get_session h sn, ⟨_, some t, (hget _).trans (loop_ends hnodup hs he hfind)⟩, fun fuel r hr u => ?_⟩
      rw [hget] at hr
      obtain ⟨t', rfl, ht'⟩ := loop_found hnodup hs he hr
      constructor
      · intro hu
        obtain rfl := some.inj hu
        exact ⟨s, hs, he, (find_cell (h.sessions s hs).numbered).1 ht'⟩
      · rintro ⟨s', hs', he', hu⟩
        obtain rfl := inj_on_of_nodup_map hnodup hs' hs (he'.trans he.symm)
        rw [← ht', find_cell (h.sessions s' hs').numbered]
        exact hu
    · have hno : ∀ s ∈ sdp.sessions, s.session_num ≠ sn := fun s hs he => hex ⟨s, hs, he⟩
      have hnull : ∀ fuel r, get_sdp_stream_sdp sdp sn tn fuel = some r → r = none := by
        intro fuel r hr
        rw [get_sdp_stream_sdp] at hr
        split_ifs at hr
        · exact (some.inj hr).symm
        · exact missing_null hno hr
      refine ⟨get_session h sn, ⟨sdp.sessions.length + 1, none, ?_⟩, fun fuel r hr u => ?_⟩
      · rw [get_sdp_stream_sdp]
        split_ifs
        · rfl
        · exact loop_missing hno
      · rw [hnull fuel r hr]
        exact iff_of_false (some_ne_none u).symm fun ⟨s, hs, he, _⟩ => hno s hs he

def one_stream : SdpInfo :=
  { sessions_num := 1
    sessions := [add_sdp_stream { session_num := 0, cnt_disp := [] } 0 [] [] [] [] 2 []] }

theorem one_stream_parsed : one_stream.Parsed := by
  refine ⟨rfl, rfl, fun s hs => ?_⟩
  obtain rfl := mem_singleton.1 hs
  have hnew : Session.Parsed { session_num := 0, cnt_disp := [] } := ⟨rfl, rfl, fun _ ht => absurd ht not_mem_nil⟩
  exact stream_parsed hnew [] [] [] [] 2 []

/-- **A stream that the session does not have** is looked for without end. -/
theorem stream_loop_stays : (∀ fuel, get_sdp_stream_sdp one_stream 0 1 fuel = none) ∧ ¬ Gets one_stream 0 1 := by
  have hloop : ∀ fuel, stream_loop 0 1 fuel one_stream.sessions = none := by
    intro fuel
    induction fuel with
    | zero => rfl
    | succ fuel ih => exact ih
  have hget : ∀ fuel, get_sdp_stream_sdp one_stream 0 1 fuel = none := by
    intro fuel
    rw [get_sdp_stream_sdp, if_neg (by decide)]
    exact hloop fuel
  refine ⟨hget, fun hg => ?_⟩
  obtain ⟨fuel, r, hr⟩ := hg.ends
  rw [hget] at hr
  cases hr

theorem one_stream_gets : Gets one_stream 0 0 := by
  refine (getters_spec one_stream_parsed 0 0).2 fun s hs _ => ?_
  obtain rfl := mem_singleton.1 hs
  exact ⟨_, mem_singleton_self _, rfl⟩

end Getters

end OpenSips.Sdp
