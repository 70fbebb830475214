import OpenSips.Lib.Bytes
import OpenSips.Resolve.Srv

/-!
# OpenSips.Resolve.Passed — the names that are passed on (`core/resolve/sip_resolvehost.c`)

The name of a SRV or NAPTR record is copied to a new request, as many bytes of it as `dn_expand` took from
the message; the request is in memory that nobody cleared.
-/

namespace OpenSips.Resolve

open Lib List Option
open Lib.Attempt (bind_eq_ok map_eq_ok byte)

/-- The string in a buffer of `size` bytes, if there is a NUL. -/
def c_str (size : ℕ) (m : ℕ → UInt8) : Option Str :=
  let s := read m 0 size
  if 0 ∈ s then some (s.takeWhile (· ≠ 0)) else none

/-- `memcpy` of `n` bytes to `new->name`; `shm` is what the new request had in it. -/
def memcpy (shm src : ℕ → UInt8) (n : ℕ) : ℕ → UInt8 := write shm 0 (read src 0 n)

/-- The buffer with the name that is passed on: that of a new request, or the one in the record of a CNAME.
`pkg` is what the structure of the data had in it. -/
def Data.passed (pkg shm : ℕ → UInt8) : Data → Option (ℕ → UInt8)
  | .T_SRV srv => some (memcpy shm (write pkg 0 srv.name) srv.name_len)
  | .T_NAPTR naptr => some (memcpy shm (write pkg 0 naptr.repl) naptr.repl_len)
  | .T_CNAME name => some (write pkg 0 name)
  | _ => none

/-- Whatever was in memory, the name that is passed on is `text`. -/
def Data.Passes (data : Data) (text : Str) : Prop :=
  ∀ pkg shm, ∃ m, data.passed pkg shm = some m ∧ c_str MAX_DNS_NAME m = some text

/-- Where the name in the data at `p` begins. -/
def name_at (msg : Str) (rtype : UInt16) (p : ℕ) : ℕ :=
  if rtype = T_SRV then p + 6
  else if rtype = T_NAPTR then
    let flags_len := (msg.getD (p + 4) 0).toNat
    let services_len := (msg.getD (p + 5 + flags_len) 0).toNat
    let regexp_len := (msg.getD (p + 6 + flags_len + services_len) 0).toNat
    p + 7 + flags_len + services_len + regexp_len
  else p

variable {dn_expand : Str → ℕ → ℕ → Option (ℕ × Str)} {msg text : Str} {mem : Option (ℕ → UInt8)}
  {p n size : ℕ} {m pkg shm : ℕ → UInt8} {rtype : UInt16} {data : Data}

/-! ### Buffers -/

theorem read_write_prefix {s : Str} (h : n ≤ s.length) : read (write m 0 s) 0 n = s.take n := by
  have hall : read (write m 0 s) 0 s.length = s := read_write
  rw [← Nat.add_sub_cancel' h, read_append] at hall
  exact (take_left' length_read).symm.trans (congrArg (List.take n) hall)

theorem c_str_of (h : read m 0 (text.length + 1) = text ++ [0]) (h0 : 0 ∉ text) (hsize : text.length < size) :
    c_str size m = some text := by
  obtain ⟨k, rfl⟩ : ∃ k, size = text.length + 1 + k := ⟨size - (text.length + 1), by omega⟩
  rw [c_str, read_append, h, append_assoc]
  have hall : ∀ c ∈ text, decide (c ≠ 0) = true := fun c hc => decide_eq_true fun e => h0 (e ▸ hc)
  rw [if_pos (by simp), takeWhile_append_of_pos hall]
  simp

theorem c_str_write (h0 : 0 ∉ text) (hsize : text.length < size) :
    c_str size (write m 0 (text ++ [0])) = some text := by
  refine c_str_of ?_ h0 hsize
  have hlen : text.length + 1 = (text ++ [0]).length := by rw [length_append, length_singleton]
  rw [hlen]
  exact read_write

/-- **The copy of a name is that name** exactly when its NUL is copied. -/
theorem memcpy_passes (h0 : 0 ∉ text) (hsize : text.length < size) :
    (∀ pkg shm, c_str size (memcpy shm (write pkg 0 (text ++ [0])) n) = some text) ↔ text.length < n := by
  have hlen : (text ++ [0]).length = text.length + 1 := by rw [length_append, length_singleton]
  constructor
  · intro h
    apply lt_of_not_ge
    intro hle
    -- nothing but the text is copied, and the memory has no NUL
    have hcopy : memcpy (fun _ => 1) (write (fun _ => 1) 0 (text ++ [0])) n = write (fun _ => 1) 0 (text.take n) := by
      rw [memcpy, read_write_prefix (by omega), take_append_of_le_length hle]
    have hnul : 0 ∉ read (write (fun _ => (1 : UInt8)) 0 (text.take n)) 0 size := by
      intro hm
      obtain ⟨i, -, hi⟩ := List.mem_map.1 hm
      by_cases hin : i < (text.take n).length
      · have := write_inside (m := fun _ => (1 : UInt8)) (a := 0) hin
        rw [zero_add] at this
        rw [this] at hi
        exact h0 (mem_of_mem_take (hi ▸ getElem_mem hin))
      · rw [write_outside (by omega)] at hi
        cases hi
    have := h (fun _ => 1) fun _ => 1
    rw [hcopy, c_str, if_neg hnul] at this
    cases this
  · intro hn pkg shm
    refine c_str_of ?_ h0 hsize
    obtain ⟨k, rfl⟩ : ∃ k, n = text.length + 1 + k := ⟨n - (text.length + 1), by omega⟩
    rw [memcpy, read_write_prefix (by rw [length_read]; omega), read_append, take_append_of_le_length
      (by rw [length_read]), take_of_length_le (by rw [length_read]), ← hlen]
    exact read_write

/-! ### The parsers -/

section Parsers

variable (hdn : Respects dn_expand)
include hdn

theorem expand_ok {x : ℕ × Str} (h : expand dn_expand msg p = .ok x) :
    ∃ text, dn_expand msg p (MAX_DNS_NAME - 1) = some (x.1, text) ∧ x.2 = text ++ [0] := by
  rw [expand_eq hdn] at h
  cases he : dn_expand msg p (MAX_DNS_NAME - 1) with
  | none =>
    rw [he] at h
    cases h
  | some r =>
    rw [he] at h
    cases h
    exact ⟨r.2, rfl, rfl⟩

theorem dns_srv_parser_name {srv : SrvRdata} (h : dns_srv_parser_run dn_expand msg mem p = .ok srv) :
    ∃ text, dn_expand msg (p + 6) (MAX_DNS_NAME - 1) = some (srv.name_len, text) ∧ srv.name = text ++ [0] := by
  obtain ⟨_, -, h⟩ := bind_eq_ok.1 h
  obtain ⟨_, -, h⟩ := bind_eq_ok.1 h
  obtain ⟨_, -, h⟩ := bind_eq_ok.1 h
  obtain ⟨_, -, h⟩ := bind_eq_ok.1 h
  obtain ⟨_, -, h⟩ := bind_eq_ok.1 h
  obtain ⟨name, hname, h⟩ := bind_eq_ok.1 h
  cases h
  exact expand_ok hdn hname

theorem dns_cname_parser_name {name : Str} (h : dns_cname_parser_run dn_expand msg mem p = .ok name) :
    ∃ len text, dn_expand msg p (MAX_DNS_NAME - 1) = some (len, text) ∧ name = text ++ [0] := by
  obtain ⟨_, -, h⟩ := bind_eq_ok.1 h
  obtain ⟨x, hx, h⟩ := bind_eq_ok.1 h
  cases h
  exact ⟨_, expand_ok hdn hx⟩

omit hdn in
theorem byte_getD {i : ℕ} {c : UInt8} (h : byte msg i = .ok c) : msg.getD i 0 = c := by
  unfold byte at h
  cases hi : msg[i]? with
  | none =>
    rw [hi] at h
    cases h
  | some a =>
    rw [hi] at h
    cases h
    rw [getD_eq_getElem?_getD, hi]
    rfl

theorem dns_naptr_parser_name {naptr : NaptrRdata} (h : dns_naptr_parser_run dn_expand msg mem p = .ok naptr) :
    ∃ text, dn_expand msg (name_at msg T_NAPTR p) (MAX_DNS_NAME - 1) = some (naptr.repl_len, text) ∧
      naptr.repl = text ++ [0] := by
  obtain ⟨_, -, h⟩ := bind_eq_ok.1 h
  obtain ⟨_, -, h⟩ := bind_eq_ok.1 h
  obtain ⟨_, -, h⟩ := bind_eq_ok.1 h
  obtain ⟨_, -, h⟩ := bind_eq_ok.1 h
  obtain ⟨flags_len, hf, h⟩ := bind_eq_ok.1 h
  obtain ⟨_, -, h⟩ := bind_eq_ok.1 h
  obtain ⟨_, -, h⟩ := bind_eq_ok.1 h
  obtain ⟨_, -, h⟩ := bind_eq_ok.1 h
  obtain ⟨services_len, hs, h⟩ := bind_eq_ok.1 h
  obtain ⟨_, -, h⟩ := bind_eq_ok.1 h
  obtain ⟨_, -, h⟩ := bind_eq_ok.1 h
  obtain ⟨_, -, h⟩ := bind_eq_ok.1 h
  obtain ⟨regexp_len, hr, h⟩ := bind_eq_ok.1 h
  obtain ⟨_, -, h⟩ := bind_eq_ok.1 h
  obtain ⟨_, -, h⟩ := bind_eq_ok.1 h
  obtain ⟨_, -, h⟩ := bind_eq_ok.1 h
  obtain ⟨repl, hrepl, h⟩ := bind_eq_ok.1 h
  cases h
  have hat : name_at msg T_NAPTR p = p + 7 + flags_len.toNat + services_len.toNat + regexp_len.toNat := by
    rw [name_at, if_neg (by decide), if_pos rfl]
    simp only [byte_getD hf, byte_getD hs, byte_getD hr]
  rw [hat]
  exact expand_ok hdn hrepl

/-- **The name in the data of a record**, and when it is passed on. -/
theorem parse_rdata_passes (hstr : ∀ msg p n len name, dn_expand msg p n = some (len, name) → 0 ∉ name)
    (hkind : rtype = T_SRV ∨ rtype = T_NAPTR ∨ rtype = T_CNAME)
    (h : parse_rdata dn_expand msg mem rtype p = .ok data) : ∃ len text,
      dn_expand msg (name_at msg rtype p) (MAX_DNS_NAME - 1) = some (len, text) ∧
      (data.Passes text ↔ rtype = T_CNAME ∨ text.length < len) := by
  have hsize : ∀ {q len text}, dn_expand msg q (MAX_DNS_NAME - 1) = some (len, text) →
      text.length < MAX_DNS_NAME := fun h => Nat.lt_of_lt_pred (hdn _ _ _ _ _ h)
  -- a copy of the name, and the name itself
  have hcopy : ∀ {name text : Str} {len q : ℕ}, dn_expand msg q (MAX_DNS_NAME - 1) = some (len, text) →
      name = text ++ [0] → ((∀ pkg shm, ∃ m, some (memcpy shm (write pkg 0 name) len) = some m ∧
        c_str MAX_DNS_NAME m = some text) ↔ text.length < len) := by
    rintro name text len q hx rfl
    rw [← memcpy_passes (hstr _ _ _ _ _ hx) (hsize hx)]
    refine forall_congr' fun pkg => forall_congr' fun shm => ?_
    exact ⟨fun ⟨m, hm, h⟩ => some_inj.1 hm ▸ h, fun h => ⟨_, rfl, h⟩⟩
  rcases hkind with rfl | rfl | rfl
  · obtain ⟨srv, hsrv, rfl⟩ := map_eq_ok.1 h
    obtain ⟨text, hx, hname⟩ := dns_srv_parser_name hdn hsrv
    refine ⟨srv.name_len, text, hx, ?_⟩
    rw [or_iff_right (by decide)]
    exact hcopy hx hname
  · obtain ⟨naptr, hnaptr, rfl⟩ := map_eq_ok.1 h
    obtain ⟨text, hx, hname⟩ := dns_naptr_parser_name hdn hnaptr
    refine ⟨naptr.repl_len, text, hx, ?_⟩
    rw [or_iff_right (by decide)]
    exact hcopy hx hname
  · obtain ⟨name, hn, rfl⟩ := map_eq_ok.1 h
    obtain ⟨len, text, hx, hname⟩ := dns_cname_parser_name hdn hn
    refine ⟨len, text, hx, iff_of_true (fun pkg shm => ⟨_, rfl, ?_⟩) (.inl rfl)⟩
    rw [hname]
    exact c_str_write (hstr _ _ _ _ _ hx) (hsize hx)

/-- What is parsed at `q` has its data behind the name of the record. -/
theorem parse_answer_passes {alloc : Alloc} {q next : ℕ} {rd : Record}
    (hstr : ∀ msg p n len name, dn_expand msg p n = some (len, name) → 0 ∉ name)
    (hkind : rd.type = T_SRV ∨ rd.type = T_NAPTR ∨ rd.type = T_CNAME)
    (h : parse_answer dn_expand msg alloc q = .ok (rd, next)) : ∃ p len text, dns_skipname msg q = .ok p ∧
      dn_expand msg (name_at msg rd.type (p + 10)) (MAX_DNS_NAME - 1) = some (len, text) ∧
      (rd.data.Passes text ↔ rd.type = T_CNAME ∨ text.length < len) := by
  obtain ⟨p, hp, h⟩ := bind_eq_ok.1 h
  obtain ⟨_, -, h⟩ := bind_eq_ok.1 h
  obtain ⟨rtype, -, h⟩ := bind_eq_ok.1 h
  obtain ⟨_, -, h⟩ := bind_eq_ok.1 h
  obtain ⟨_, -, h⟩ := bind_eq_ok.1 h
  obtain ⟨_, -, h⟩ := bind_eq_ok.1 h
  obtain ⟨_, -, h⟩ := bind_eq_ok.1 h
  obtain ⟨data, hdata, h⟩ := bind_eq_ok.1 h
  cases h
  obtain ⟨len, text, hx, hiff⟩ := parse_rdata_passes hdn hstr hkind hdata
  exact ⟨p, len, text, hp, hx, hiff⟩

end Parsers

theorem mem_answers {heap : ℕ → Alloc} {r q : ℕ} {all : List Record} {rd : Record}
    (h : answers dn_expand heap msg n r q = .ok all) (hrd : rd ∈ all) :
    ∃ alloc q next, parse_answer dn_expand msg alloc q = .ok (rd, next) := by
  induction n generalizing r q all with
  | zero =>
    cases h
    cases hrd
  | succ n ih =>
    rw [answers] at h
    split_ifs at h
    · obtain ⟨answer, ha, h⟩ := bind_eq_ok.1 h
      obtain ⟨rest, hr, h⟩ := bind_eq_ok.1 h
      cases h
      rcases mem_cons.1 hrd with rfl | hrd
      · exact ⟨_, _, _, ha⟩
      · exact ih hr hrd
    · cases h
      cases hrd

/-- **The names of a reply**: the name of a record is passed on as `dn_expand` wrote it, whatever was in memory,
exactly for a CNAME record and for a name that is shorter than the bytes it takes in the reply. -/
theorem names_passed (dn_expand : Str → ℕ → ℕ → Option (ℕ × Str)) (heap : ℕ → Alloc) (msg : Str)
    (l : List Record) (rd : Record) (hdn : Respects dn_expand)
    (hstr : ∀ msg p n len name, dn_expand msg p n = some (len, name) → 0 ∉ name)
    (hl : parse_record dn_expand heap msg = some l) (hrd : rd ∈ l)
    (hkind : rd.type = T_SRV ∨ rd.type = T_NAPTR ∨ rd.type = T_CNAME) :
    ∃ alloc q next p len text, parse_answer dn_expand msg alloc q = .ok (rd, next) ∧ dns_skipname msg q = .ok p ∧
      dn_expand msg (name_at msg rd.type (p + 10)) (MAX_DNS_NAME - 1) = some (len, text) ∧
      (rd.data.Passes text ↔ rd.type = T_CNAME ∨ text.length < len) := by
  unfold parse_record at hl
  cases hreply : parse_reply dn_expand heap msg with
  | fault =>
    rw [hreply] at hl
    cases hl
  | error =>
    rw [hreply] at hl
    cases hl
    cases hrd
  | ok l' =>
    rw [hreply] at hl
    cases hl
    obtain ⟨answers_no, p, all, -, hall, hperm, -⟩ := parse_reply_kept hreply
    obtain ⟨alloc, q, next, h⟩ := mem_answers hall (hperm.mem_iff.1 hrd)
    obtain ⟨p, len, text, hp, hx, hiff⟩ := parse_answer_passes hdn hstr hkind h
    exact ⟨alloc, q, next, p, len, text, h, hp, hx, hiff⟩

def labels_at (msg : Str) : ℕ → ℕ → Option (ℕ × List Str)
  | 0, _ => none
  | fuel + 1, p => do
    let c ← msg[p]?
    if c = 0 then some (1, [])
    else if c &&& 0xc0 = 0xc0 then
      let low ← msg[p + 1]?
      let rest ← labels_at msg fuel ((c &&& 0x3f).toNat * 256 + low.toNat)
      some (2, rest.2)
    else
      let rest ← labels_at msg fuel (p + c.toNat + 1)
      some (c.toNat + 1 + rest.1, (msg.drop (p + 1)).take c.toNat :: rest.2)

/-- `dn_expand` for names that need no escapes. -/
def plain_expand (msg : Str) (p n : ℕ) : Option (ℕ × Str) := do
  let x ← labels_at msg msg.length p
  let name := [chr '.'].intercalate x.2
  if name.length < n ∧ 0 ∉ name then some (x.1, name) else none

theorem plain_expand_spec {len : ℕ} {name : Str} (h : plain_expand msg p n = some (len, name)) :
    name.length < n ∧ 0 ∉ name := by
  obtain ⟨x, -, h⟩ := bind_eq_some_iff.1 h
  simp only at h
  split_ifs at h with hn
  cases h
  exact hn

/-- One SRV record for `foo.bar`, whose target is a pointer to this name. -/
def pointing : Str := header_of 1 ++ ("\x03foo\x03bar".toList.map chr ++ answer_of 33 8 [0, 1, 0, 2, 0, 80, 0xc0, 12])

def pointing_record : Record :=
  ⟨T_SRV, 1, 60, .T_SRV ⟨1, 2, 80, "foo.bar".toList.map chr ++ [0], 2⟩, some (1, 2)⟩

theorem names_passed_pointing : Respects plain_expand ∧
    (∀ msg p n len name, plain_expand msg p n = some (len, name) → 0 ∉ name) ∧
    parse_record plain_expand served pointing = some [pointing_record] ∧
    ∃ alloc q next p len text, parse_answer plain_expand pointing alloc q = .ok (pointing_record, next) ∧
      dns_skipname pointing q = .ok p ∧
      plain_expand pointing (name_at pointing pointing_record.type (p + 10)) (MAX_DNS_NAME - 1) = some (len, text) ∧
      (pointing_record.data.Passes text ↔ pointing_record.type = T_CNAME ∨ text.length < len) := by
  have hdn : Respects plain_expand := fun _ _ _ _ _ h => (plain_expand_spec h).1
  have hstr : ∀ msg p n len name, plain_expand msg p n = some (len, name) → 0 ∉ name :=
    fun _ _ _ _ _ h => (plain_expand_spec h).2
  have hl : parse_record plain_expand served pointing = some [pointing_record] := by decide
  exact ⟨hdn, hstr, hl, names_passed plain_expand served pointing [pointing_record] pointing_record hdn hstr hl
    mem_cons_self (.inl rfl)⟩

/-- Two bytes of the name `foo.bar` are passed on, and what was in memory behind them. -/
theorem names_passed_cut : parse_record plain_expand served pointing = some [pointing_record] ∧
    plain_expand pointing (name_at pointing T_SRV 31) (MAX_DNS_NAME - 1) = some (2, "foo.bar".toList.map chr) ∧
    (∃ m, pointing_record.data.passed (fun _ => 0) (fun i => if i = 2 then 0 else 1) = some m ∧
      c_str MAX_DNS_NAME m = some ("fo".toList.map chr)) ∧
    ¬ pointing_record.data.Passes ("foo.bar".toList.map chr) := by
  have hcut : c_str MAX_DNS_NAME (memcpy (fun i => if i = 2 then 0 else 1)
      (write (fun _ => 0) 0 ("foo.bar".toList.map chr ++ [0])) 2) = some ("fo".toList.map chr) := by decide
  refine ⟨by decide, by decide, ⟨_, rfl, hcut⟩, fun h => ?_⟩
  obtain ⟨m, hm, hc⟩ := h (fun _ => 0) fun i => if i = 2 then 0 else 1
  obtain rfl := some_inj.1 hm
  exact absurd (hcut.symm.trans hc) (by decide)

end OpenSips.Resolve
