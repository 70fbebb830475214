import OpenSips.Lib.Bytes
import OpenSips.Sdp.Cells

/-!
# OpenSips.Sdp.Clone — the copy of a parsed SDP in shared memory (`clone_sdp_info`)

A cell is copied into one block, with its texts packed behind the structure.  The bandwidth of a stream is given its
place there and is not copied, and the `fmtp` of a payload is left out.
-/

namespace OpenSips.Sdp

open Lib List Option

/-- A `str` of a clone: where it points to behind the structure, and its length. -/
structure Slice where
  pos : ℕ
  len : ℕ
  deriving DecidableEq

structure Block where
  size : ℕ
  mem : ℕ → UInt8

structure PayloadClone where
  payload_num : ℤ
  rtp_payload : Slice
  rtp_enc : Slice
  rtp_clock : Slice
  rtp_params : Slice
  sendrecv_mode : Slice
  ptime : Slice
  fmtp_string : Slice
  block : Block

structure StreamClone where
  pf : ℤ
  ip_addr : Slice
  stream_num : ℤ
  media : Slice
  port : Slice
  transport : Slice
  payloads : Slice
  payloads_num : ℕ
  bw_type : Slice
  bw_width : Slice
  p_payload_attr : Option (List ℕ)
  payload_attr : List PayloadClone
  block : Block

structure SessionClone where
  session_num : ℤ
  cnt_disp : Slice
  bw_type : Slice
  bw_width : Slice
  streams_num : ℕ
  streams : List StreamClone
  block : Block

structure SdpClone where
  sessions_num : ℕ
  sessions : List SessionClone

section Source

-- the memory behind a block
variable (past : ℕ → UInt8)

/-- What `memset` leaves. -/
def zeroed (size : ℕ) : ℕ → UInt8 := fun i => if i < size then 0 else past i

/-- The texts of a cell one after another: each is given its place, and copied when it is marked so. -/
def pack : List (Bool × Str) → (ℕ → UInt8) → ℕ → List Slice × (ℕ → UInt8)
  | [], mem, _ => ([], mem)
  | (copied, x) :: fields, mem, p =>
    if x.length ≠ 0 then
      let (slices, mem) := pack fields (if copied then write mem p x else mem) (p + x.length)
      (⟨p, x.length⟩ :: slices, mem)
    else
      let (slices, mem) := pack fields mem p
      (⟨0, 0⟩ :: slices, mem)

def room (fields : List (Bool × Str)) : ℕ := (fields.map fun f => f.2.length).sum

def cell_block (fields : List (Bool × Str)) : Block :=
  ⟨room fields, (pack fields (zeroed past (room fields)) 0).2⟩

/-- `str` number `i` of those that are packed. -/
def cell_str (fields : List (Bool × Str)) (i : ℕ) : Slice :=
  (pack fields (zeroed past (room fields)) 0).1.getD i ⟨0, 0⟩

def payload_fields (attr : Payload) : List (Bool × Str) :=
  [(true, attr.rtp_payload), (true, attr.rtp_enc), (true, attr.rtp_clock), (true, attr.rtp_params),
    (true, attr.sendrecv_mode), (true, attr.ptime)]

def clone_sdp_payload_attr (attr : Payload) : PayloadClone where
  payload_num := attr.payload_num
  rtp_payload := cell_str past (payload_fields attr) 0
  rtp_enc := cell_str past (payload_fields attr) 1
  rtp_clock := cell_str past (payload_fields attr) 2
  rtp_params := cell_str past (payload_fields attr) 3
  sendrecv_mode := cell_str past (payload_fields attr) 4
  ptime := cell_str past (payload_fields attr) 5
  fmtp_string := ⟨0, 0⟩
  block := cell_block past (payload_fields attr)

def clone_payloads (access : List ℕ) (payload_attr : List Payload) : List PayloadClone → Option (List PayloadClone) :=
  access.foldlM fun clones i => (payload_attr[i]?).map fun attr => clone_sdp_payload_attr past attr :: clones

def stream_fields (stream : Stream) : List (Bool × Str) :=
  [(true, stream.media), (true, stream.port), (true, stream.transport), (true, stream.payloads),
    (false, stream.bw_type), (false, stream.bw_width), (true, stream.ip_addr)]

def stream_clone (stream : Stream) (payload_attr : List PayloadClone) : StreamClone where
  pf := stream.pf
  stream_num := stream.stream_num
  media := cell_str past (stream_fields stream) 0
  port := cell_str past (stream_fields stream) 1
  transport := cell_str past (stream_fields stream) 2
  payloads := cell_str past (stream_fields stream) 3
  bw_type := cell_str past (stream_fields stream) 4
  bw_width := cell_str past (stream_fields stream) 5
  ip_addr := cell_str past (stream_fields stream) 6
  payloads_num := stream.payloads_num
  p_payload_attr := if stream.payloads_num = 0 then none else some (places stream.payloads_num)
  payload_attr := payload_attr
  block := cell_block past (stream_fields stream)

def clone_sdp_stream_cell (stream : Stream) : Option StreamClone :=
  (clone_payloads past ((stream.p_payload_attr.getD []).take stream.payloads_num) stream.payload_attr []).map
    (stream_clone past stream)

/-- The first `n` cells of a list, each cloned. -/
def clone_cells {α β : Type} (clone : α → Option β) : ℕ → List α → Option (List β)
  | 0, _ => some []
  | _ + 1, [] => none
  | n + 1, cell :: next => (clone cell).bind fun c => (clone_cells clone n next).map (c :: ·)

def session_fields (session : Session) : List (Bool × Str) :=
  [(true, session.cnt_disp), (true, session.bw_type), (true, session.bw_width)]

def session_clone (session : Session) (streams : List StreamClone) : SessionClone where
  session_num := session.session_num
  cnt_disp := cell_str past (session_fields session) 0
  bw_type := cell_str past (session_fields session) 1
  bw_width := cell_str past (session_fields session) 2
  streams_num := session.streams_num
  streams := streams
  block := cell_block past (session_fields session)

def clone_sdp_session_cell (session : Session) : Option SessionClone :=
  (clone_cells (clone_sdp_stream_cell past) session.streams_num session.streams).map (session_clone past session)

def clone_sdp_info (sdp_info : SdpInfo) : Option SdpClone :=
  if sdp_info.sessions_num = 0 then none
  else (clone_cells (clone_sdp_session_cell past) sdp_info.sessions_num sdp_info.sessions).map fun sessions =>
    ⟨sdp_info.sessions_num, sessions⟩

end Source

section Meaning

variable (past : ℕ → UInt8)

/-- The text of the clone is in the block, and has these bytes. -/
structure Holds (b : Block) (x : Str) (s : Slice) : Prop where
  len : s.len = x.length
  inside : s.len ≠ 0 → s.pos + s.len ≤ b.size
  bytes : read b.mem s.pos s.len = x

def Kept (b : Block) : Prop := ∀ i, b.size ≤ i → b.mem i = past i

structure PayloadCopy (a : Payload) (c : PayloadClone) : Prop where
  payload_num : c.payload_num = a.payload_num
  rtp_payload : Holds c.block a.rtp_payload c.rtp_payload
  rtp_enc : Holds c.block a.rtp_enc c.rtp_enc
  rtp_clock : Holds c.block a.rtp_clock c.rtp_clock
  rtp_params : Holds c.block a.rtp_params c.rtp_params
  sendrecv_mode : Holds c.block a.sendrecv_mode c.sendrecv_mode
  ptime : Holds c.block a.ptime c.ptime
  fmtp_string : Holds c.block a.fmtp_string c.fmtp_string
  kept : Kept past c.block

structure StreamCopy (s : Stream) (c : StreamClone) : Prop where
  pf : c.pf = s.pf
  stream_num : c.stream_num = s.stream_num
  payloads_num : c.payloads_num = s.payloads_num
  media : Holds c.block s.media c.media
  port : Holds c.block s.port c.port
  transport : Holds c.block s.transport c.transport
  payloads : Holds c.block s.payloads c.payloads
  bw_type : Holds c.block s.bw_type c.bw_type
  bw_width : Holds c.block s.bw_width c.bw_width
  ip_addr : Holds c.block s.ip_addr c.ip_addr
  payload_attr : List.Forall₂ (PayloadCopy past) s.payload_attr c.payload_attr
  access : ∀ i < s.payloads_num, ∃ l j p, c.p_payload_attr = some l ∧ l[i]? = some j ∧ c.payload_attr[j]? = some p ∧
    p.payload_num = i
  kept : Kept past c.block

structure SessionCopy (s : Session) (c : SessionClone) : Prop where
  session_num : c.session_num = s.session_num
  streams_num : c.streams_num = s.streams_num
  cnt_disp : Holds c.block s.cnt_disp c.cnt_disp
  bw_type : Holds c.block s.bw_type c.bw_type
  bw_width : Holds c.block s.bw_width c.bw_width
  streams : List.Forall₂ (StreamCopy past) s.streams c.streams
  kept : Kept past c.block

structure SdpCopy (sdp : SdpInfo) (c : SdpClone) : Prop where
  sessions_num : c.sessions_num = sdp.sessions_num
  sessions : List.Forall₂ (SessionCopy past) sdp.sessions c.sessions

def Blank (x : Str) : Prop := ∀ c ∈ x, c = 0

/-- The stream has no bandwidth, and no payload of it an `fmtp`. -/
structure Stream.Plain (s : Stream) : Prop where
  bw_type : Blank s.bw_type
  bw_width : Blank s.bw_width
  fmtp_string : ∀ p ∈ s.payload_attr, p.fmtp_string = []

end Meaning

section Packing

variable {past : ℕ → UInt8} {fields : List (Bool × Str)} {m : ℕ → UInt8} {p : ℕ}

theorem pack_nil (fields : List (Bool × Str)) (m : ℕ → UInt8) (p : ℕ) (c : Bool) :
    pack ((c, []) :: fields) m p = (⟨0, 0⟩ :: (pack fields m p).1, (pack fields m p).2) := rfl

theorem pack_text {x : Str} (hx : x ≠ []) (fields : List (Bool × Str)) (m : ℕ → UInt8) (p : ℕ) (c : Bool) :
    pack ((c, x) :: fields) m p = (⟨p, x.length⟩ :: (pack fields (if c then write m p x else m) (p + x.length)).1,
      (pack fields (if c then write m p x else m) (p + x.length)).2) := by
  have hlen : x.length ≠ 0 := fun h => hx (length_eq_zero_iff.1 h)
  rw [pack, if_pos hlen]

theorem room_cons (f : Bool × Str) (fields : List (Bool × Str)) : room (f :: fields) = f.2.length + room fields :=
  sum_cons

theorem pack_outside : ∀ (fields : List (Bool × Str)) (m : ℕ → UInt8) (p i : ℕ), i < p ∨ p + room fields ≤ i →
    (pack fields m p).2 i = m i
  | [], _, _, _, _ => rfl
  | (c, x) :: fields, m, p, i, h => by
    rw [room_cons] at h
    by_cases hx : x = []
    · subst hx
      rw [pack_nil]
      rw [length_nil, zero_add] at h
      exact pack_outside fields m p i h
    · rw [pack_text hx]
      dsimp only at h ⊢
      rw [pack_outside fields _ (p + x.length) i (by omega)]
      cases c with
      | false => rfl
      | true => exact write_outside (by omega)

/-- What a text is to be read as: itself when it was copied, and what was there when not. -/
structure Packed (m m' : ℕ → UInt8) (p size : ℕ) (f : Bool × Str) (s : Slice) : Prop where
  len : s.len = f.2.length
  first : s.len ≠ 0 → p ≤ s.pos
  inside : s.len ≠ 0 → s.pos + s.len ≤ p + size
  bytes : read m' s.pos s.len = if f.1 then f.2 else read m s.pos s.len

/-- **The texts that are packed** follow one another, and each has its bytes. -/
theorem pack_packed : ∀ (fields : List (Bool × Str)) (m : ℕ → UInt8) (p : ℕ),
    List.Forall₂ (Packed m (pack fields m p).2 p (room fields)) fields (pack fields m p).1
  | [], _, _ => .nil
  | (c, x) :: fields, m, p => by
    rw [room_cons]
    by_cases hx : x = []
    · subst hx
      rw [pack_nil, length_nil, zero_add]
      refine .cons ⟨rfl, fun h => absurd rfl h, fun h => absurd rfl h, ?_⟩ (pack_packed fields m p)
      cases c with
      | false => rfl
      | true => rfl
    · rw [pack_text hx]
      have hread : ∀ m', (∀ i, i < p + x.length → m' i = (if c then write m p x else m) i) →
          read m' p x.length = if c then x else read m p x.length := by
        intro m' h
        have hsame : Set.EqOn m' (if c then write m p x else m) (Set.Ico p (p + x.length)) := fun i hi => h i hi.2
        rw [read_congr hsame]
        cases c with
        | false => rfl
        | true => exact read_write
      refine .cons ⟨rfl, fun _ => Nat.le_refl p, fun _ => ?_, hread _ fun i hi => ?_⟩ ?_
      · dsimp only
        omega
      · exact pack_outside fields _ (p + x.length) i (.inl hi)
      · refine (pack_packed fields (if c then write m p x else m) (p + x.length)).imp fun f s h => ?_
        refine ⟨h.len, fun hs => ?_, fun hs => ?_, ?_⟩
        · have := h.first hs
          omega
        · have := h.inside hs
          dsimp only
          omega
        · rw [h.bytes]
          by_cases hs : s.len = 0
          · rw [hs, read_zero, read_zero]
          · have hfirst := h.first hs
            cases c with
            | false => rfl
            | true => rw [if_pos rfl, read_write_of_disjoint (.inr hfirst)]

theorem Packed.holds {f : Bool × Str} {s : Slice} {m' : ℕ → UInt8} {size : ℕ} (h : Packed (zeroed past size) m' 0 size f s) :
    Holds ⟨size, m'⟩ f.2 s ↔ f.1 = true ∨ Blank f.2 := by
  have hzero : read (zeroed past size) s.pos s.len = List.replicate s.len 0 := by
    unfold Lib.read
    rw [eq_replicate_iff, length_map, length_range']
    refine ⟨rfl, fun c hc => ?_⟩
    obtain ⟨i, hi, rfl⟩ := List.mem_map.1 hc
    obtain ⟨h1, h2⟩ := mem_range'_1.1 hi
    have hin := h.inside (by omega)
    exact if_pos (by omega)
  have hblank : List.replicate s.len 0 = f.2 ↔ Blank f.2 := by
    rw [eq_comm, eq_replicate_iff]
    exact ⟨fun h => h.2, fun hb => ⟨h.len.symm, hb⟩⟩
  have hin : s.len ≠ 0 → s.pos + s.len ≤ size := fun hs => by
    have := h.inside hs
    omega
  have hbytes := h.bytes
  constructor
  · intro hh
    cases hc : f.1 with
    | true => exact .inl rfl
    | false =>
      rw [hc, hzero] at hbytes
      exact .inr (hblank.1 (hbytes.symm.trans hh.bytes))
  · intro hor
    refine ⟨h.len, hin, ?_⟩
    show read m' s.pos s.len = f.2
    cases hc : f.1 with
    | true =>
      rw [hc] at hbytes
      exact hbytes
    | false =>
      rw [hc, hzero] at hbytes
      rw [hc] at hor
      exact hbytes.trans (hblank.2 (hor.resolve_left Bool.false_ne_true))

theorem cell_kept (fields : List (Bool × Str)) : Kept past (cell_block past fields) := by
  intro i hi
  have hout : i < 0 ∨ 0 + room fields ≤ i := .inr (by rw [zero_add]; exact hi)
  exact (pack_outside fields _ 0 i hout).trans (if_neg (not_lt.2 hi))

theorem cell_holds (i : ℕ) {c : Bool} {x : Str} (hf : fields[i]? = some (c, x)) :
    Holds (cell_block past fields) x (cell_str past fields i) ↔ c = true ∨ Blank x := by
  have hall := pack_packed fields (zeroed past (room fields)) 0
  obtain ⟨hlt, hget⟩ := List.getElem?_eq_some_iff.1 hf
  have hlt' : i < (pack fields (zeroed past (room fields)) 0).1.length := hall.length_eq ▸ hlt
  have hpacked := (hall.get hlt hlt').holds
  rw [get_eq_getElem, hget] at hpacked
  rw [cell_str, getD_eq_getElem _ _ hlt']
  exact hpacked

theorem cell_text (i : ℕ) {x : Str} (hf : fields[i]? = some (true, x)) :
    Holds (cell_block past fields) x (cell_str past fields i) := (cell_holds i hf).2 (.inl rfl)

theorem cell_gap (i : ℕ) {x : Str} (hf : fields[i]? = some (false, x)) :
    Holds (cell_block past fields) x (cell_str past fields i) ↔ Blank x :=
  (cell_holds i hf).trans (or_iff_right Bool.false_ne_true)

end Packing

section Cells

variable {past : ℕ → UInt8} {stream : Stream} {session : Session} {sdp : SdpInfo}

theorem holds_nil {b : Block} {x : Str} : Holds b x ⟨0, 0⟩ ↔ x = [] := by
  constructor
  · exact fun h => h.bytes.symm
  · rintro rfl
    exact ⟨rfl, fun h => absurd rfl h, rfl⟩

/-- The copy of a payload lacks its `fmtp`. -/
theorem payload_iff (a : Payload) : PayloadCopy past a (clone_sdp_payload_attr past a) ↔ a.fmtp_string = [] := by
  constructor
  · exact fun h => holds_nil.1 h.fmtp_string
  · intro h
    exact ⟨rfl, cell_text 0 rfl, cell_text 1 rfl, cell_text 2 rfl, cell_text 3 rfl, cell_text 4 rfl, cell_text 5 rfl,
      holds_nil.2 h, cell_kept _⟩

theorem places_succ (n : ℕ) : places (n + 1) = n :: places n := by
  rw [places, range_succ_eq_map, map_cons, List.map_map, places]
  refine congrArg₂ List.cons (Nat.sub_zero n) (map_congr_left fun j _ => ?_)
  show n + 1 - 1 - (j + 1) = n - 1 - j
  omega

theorem places_get {n i : ℕ} (hi : i < n) : (places n)[i]? = some (n - 1 - i) := by
  rw [places, getElem?_map, getElem?_range hi]
  rfl

theorem clone_places (xs : List Payload) : ∀ n acc, n ≤ xs.length →
    clone_payloads past (places n) xs acc = some ((xs.take n).map (clone_sdp_payload_attr past) ++ acc)
  | 0, acc, _ => rfl
  | n + 1, acc, h => by
    have hn : xs[n]? = some xs[n] := getElem?_eq_getElem h
    have hnext := clone_places xs n (clone_sdp_payload_attr past xs[n] :: acc) (by omega)
    rw [clone_payloads] at hnext ⊢
    rw [places_succ, foldlM_cons, hn]
    refine hnext.trans ?_
    rw [take_succ_eq_append_getElem h, map_append, append_assoc]
    rfl

theorem clone_parsed (h : stream.Parsed) :
    clone_payloads past ((stream.p_payload_attr.getD []).take stream.payloads_num) stream.payload_attr [] =
      some (stream.payload_attr.map (clone_sdp_payload_attr past)) := by
  have hplaces : (stream.p_payload_attr.getD []).take stream.payloads_num = places stream.payload_attr.length := by
    rw [h.access]
    split_ifs with h0
    · rw [← h.payloads_num, h0]
      rfl
    · rw [getD_some, ← h.payloads_num]
      apply take_of_length_le
      rw [places, length_map, length_range]
  rw [hplaces, clone_places _ _ _ (le_rfl), take_length, append_nil]

theorem access_number (h : stream.Parsed) {i : ℕ} (hi : i < stream.payloads_num) :
    ∃ p, stream.payload_attr[stream.payloads_num - 1 - i]? = some p ∧ p.payload_num = i := by
  have hn := h.payloads_num
  have hlt : stream.payloads_num - 1 - i < stream.payload_attr.length := by omega
  have hrange : stream.payloads_num - 1 - i < (List.range stream.payload_attr.length).reverse.length := by
    rw [length_reverse, length_range]
    exact hlt
  refine ⟨_, getElem?_eq_getElem hlt, ?_⟩
  have hget : (stream.payload_attr.map Payload.payload_num)[stream.payloads_num - 1 - i]? =
      (numbers stream.payload_attr.length)[stream.payloads_num - 1 - i]? := by rw [h.numbered]
  rw [getElem?_map, getElem?_eq_getElem hlt, numbers, getElem?_map,
    getElem?_eq_getElem hrange, getElem_reverse, getElem_range, length_range] at hget
  rw [some.inj hget]
  congr 1
  omega

theorem stream_iff (h : stream.Parsed) : ∃ c, clone_sdp_stream_cell past stream = some c ∧
    (StreamCopy past stream c ↔ stream.Plain) := by
  refine ⟨_, by rw [clone_sdp_stream_cell, clone_parsed h, map_some], ?_⟩
  have hpayloads : List.Forall₂ (PayloadCopy past) stream.payload_attr
      (stream.payload_attr.map (clone_sdp_payload_attr past)) ↔ ∀ p ∈ stream.payload_attr, p.fmtp_string = [] := by
    rw [forall₂_map_right_iff, forall₂_same]
    exact forall₂_congr fun p _ => payload_iff p
  constructor
  · intro hc
    exact ⟨(cell_gap 4 rfl).1 hc.bw_type, (cell_gap 5 rfl).1 hc.bw_width, hpayloads.1 hc.payload_attr⟩
  · intro hp
    refine ⟨rfl, rfl, rfl, cell_text 0 rfl, cell_text 1 rfl, cell_text 2 rfl, cell_text 3 rfl,
      (cell_gap 4 rfl).2 hp.bw_type, (cell_gap 5 rfl).2 hp.bw_width, cell_text 6 rfl,
      hpayloads.2 hp.fmtp_string, fun i hi => ?_, cell_kept _⟩
    obtain ⟨p, hp, hnum⟩ := access_number h hi
    refine ⟨_, _, clone_sdp_payload_attr past p, if_neg (by omega), places_get hi, ?_, hnum⟩
    rw [stream_clone, getElem?_map, hp, map_some]

theorem cells_iff {α β : Type} {clone : α → Option β} {R : α → β → Prop} {P : α → Prop} : ∀ {xs : List α},
    (∀ x ∈ xs, ∃ c, clone x = some c ∧ (R x c ↔ P x)) →
    ∃ cs, clone_cells clone xs.length xs = some cs ∧ (List.Forall₂ R xs cs ↔ ∀ x ∈ xs, P x)
  | [], _ => ⟨[], rfl, iff_of_true .nil fun _ hx => absurd hx not_mem_nil⟩
  | x :: xs, h => by
    obtain ⟨⟨c, hc, hiff⟩, hrest⟩ := forall_mem_cons.1 h
    obtain ⟨cs, hcs, hiffs⟩ := cells_iff hrest
    refine ⟨c :: cs, ?_, ?_⟩
    · rw [length_cons, clone_cells, hc, bind_some, hcs, map_some]
    · rw [forall₂_cons, forall_mem_cons, hiff, hiffs]

theorem session_iff (h : session.Parsed) : ∃ c, clone_sdp_session_cell past session = some c ∧
    (SessionCopy past session c ↔ ∀ t ∈ session.streams, t.Plain) := by
  obtain ⟨cs, hcs, hiff⟩ := cells_iff fun t ht => @stream_iff past t (h.streams t ht)
  rw [← h.streams_num] at hcs
  refine ⟨_, by rw [clone_sdp_session_cell, hcs, map_some], ?_⟩
  constructor
  · exact fun hc => hiff.1 hc.streams
  · intro hp
    exact ⟨rfl, rfl, cell_text 0 rfl, cell_text 1 rfl, cell_text 2 rfl, hiff.2 hp, cell_kept _⟩

/-- **`clone_sdp_info` makes an equal, self-contained copy** of a parsed SDP, and writes in the blocks of the cells only,
exactly when there is a session, and no stream has a bandwidth, and no payload an `fmtp`. -/
theorem clone_sdp_info_spec (past : ℕ → UInt8) (h : sdp.Parsed) :
    (∃ c, clone_sdp_info past sdp = some c ∧ SdpCopy past sdp c) ↔
      sdp.sessions ≠ [] ∧ ∀ s ∈ sdp.sessions, ∀ t ∈ s.streams, t.Plain := by
  obtain ⟨cs, hcs, hiff⟩ := cells_iff fun s hs => @session_iff past s (h.sessions s hs)
  rw [← h.sessions_num] at hcs
  have hzero : sdp.sessions_num = 0 ↔ sdp.sessions = [] := by
    rw [h.sessions_num, length_eq_zero_iff]
  rw [clone_sdp_info, hcs]
  by_cases h0 : sdp.sessions_num = 0
  · rw [if_pos h0]
    refine iff_of_false ?_ fun hc => hc.1 (hzero.1 h0)
    rintro ⟨c, hc, -⟩
    cases hc
  · rw [if_neg h0, map_some]
    constructor
    · rintro ⟨c, hc, hcopy⟩
      obtain rfl := some.inj hc
      exact ⟨fun he => h0 (hzero.2 he), hiff.1 hcopy.sessions⟩
    · intro hp
      exact ⟨_, rfl, rfl, hiff.2 hp.2⟩

def with_bandwidth : SdpInfo :=
  { sessions_num := 1
    sessions := [{ session_num := 0, cnt_disp := [], streams_num := 1,
                   streams := [{ pf := 2, ip_addr := [], stream_num := 0, media := [], port := [], transport := [],
                                 payloads := [], bw_type := [chr 'A', chr 'S'] }] }] }

theorem with_bandwidth_parsed : with_bandwidth.Parsed := by
  refine ⟨rfl, rfl, fun s hs => ?_⟩
  obtain rfl := mem_singleton.1 hs
  refine ⟨rfl, rfl, fun t ht => ?_⟩
  obtain rfl := mem_singleton.1 ht
  exact ⟨rfl, rfl, rfl⟩

/-- **The bandwidth of a stream** has its place in the clone, and is two zeros there. -/
theorem bandwidth_lost : ∃ c s t, clone_sdp_info (fun _ => 0) with_bandwidth = some c ∧ c.sessions = [s] ∧
    s.streams = [t] ∧ t.bw_type = ⟨0, 2⟩ ∧ read t.block.mem 0 2 = [0, 0] ∧
    ¬ ∃ c, clone_sdp_info (fun _ => 0) with_bandwidth = some c ∧ SdpCopy (fun _ => 0) with_bandwidth c := by
  refine ⟨_, _, _, rfl, rfl, rfl, rfl, by decide, ?_⟩
  rintro ⟨c, hc, hcopy⟩
  obtain rfl := some.inj hc
  obtain ⟨hs, -⟩ := forall₂_cons.1 hcopy.sessions
  obtain ⟨ht, -⟩ := forall₂_cons.1 hs.streams
  exact absurd ht.bw_type.bytes (by decide)

theorem one_stream_cloned : ∃ c, clone_sdp_info (fun _ => 1) one_stream = some c ∧ SdpCopy (fun _ => 1) one_stream c := by
  refine (clone_sdp_info_spec (fun _ => 1) one_stream_parsed).2 ⟨cons_ne_nil _ _, fun s hs t ht => ?_⟩
  obtain rfl := mem_singleton.1 hs
  obtain rfl := mem_singleton.1 ht
  exact ⟨fun _ hc => absurd hc not_mem_nil, fun _ hc => absurd hc not_mem_nil,
    fun _ hp => absurd hp not_mem_nil⟩

end Cells

end OpenSips.Sdp
