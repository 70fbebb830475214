import OpenSips.Resolve.Runs

/-!
# OpenSips.Resolve.Target — the target that a lookup selects

What RFC 3263 asks for: which query a target starts with, and which services its addresses may come
from.  `sip_resolvehost` does that for all targets but those of `Fit`'s exceptions.
-/

namespace OpenSips.Resolve

open Lib List Option

section Spec

structure Target where
  name : Str
  port : UInt16
  proto : Proto
  is_sips : Bool
  deriving DecidableEq

def Target.Literal (t : Target) : Prop := str2ip t.name ∨ str2ip6 t.name

instance (t : Target) : Decidable t.Literal := inferInstanceAs (Decidable (_ ∨ _))

def default_proto (is_sips : Bool) : Proto := if is_sips then .PROTO_TLS else .PROTO_UDP

/-- The protocol that is given, or the default. -/
def Target.transport (t : Target) : Proto :=
  if t.proto = .PROTO_NONE then default_proto t.is_sips else t.proto

def disabled (cfg : Config) : Proto → Bool
  | .PROTO_TCP => cfg.tcp_disable
  | .PROTO_TLS => cfg.tls_disable
  | .PROTO_SCTP => cfg.sctp_disable
  | .PROTO_UDP | .PROTO_NONE => false

def srv_labels : Proto → Str
  | .PROTO_UDP => SRV_UDP_PREFIX
  | .PROTO_TCP => SRV_TCP_PREFIX
  | .PROTO_TLS => SRV_TLS_PREFIX
  | .PROTO_SCTP => SRV_SCTP_PREFIX
  | .PROTO_NONE => []

def Target.SrvFits (t : Target) : Prop :=
  t.name.length + SRV_MAX_PREFIX_LEN + 1 ≤ MAX_DNS_NAME

/-- How a lookup starts: it fails, the address is known, or there is a query; its port and protocol
count when it is for an address. -/
inductive Decision where
  | reject
  | address (port : UInt16) (proto : Proto)
  | query (type : ReqType) (name : Str) (port : UInt16) (proto : Proto)

/-- Only TLS serves a SIPS target.  A literal address or a port leaves nothing to be looked up but
addresses, a protocol leads to its SRV name if there is one, and nothing to NAPTR. -/
def decision (cfg : Config) (t : Target) : Decision :=
  if t.is_sips ∧ t.proto ≠ .PROTO_NONE ∧ t.proto ≠ .PROTO_TLS then .reject
  else if t.Literal then
    .address (if t.port = 0 then default_port t.is_sips t.transport else t.port) t.transport
  else if MAX_DNS_NAME ≤ t.name.length then .reject
  else if t.port ≠ 0 then .query .DNS_A_REQUEST (t.name ++ [0]) t.port t.transport
  else if t.proto = .PROTO_NONE then .query .DNS_NAPTR_REQUEST (t.name ++ [0]) 0 .PROTO_NONE
  else if MAX_DNS_NAME < t.name.length + SRV_MAX_PREFIX_LEN + 1 then
    .query .DNS_A_REQUEST (t.name ++ [0]) (default_port t.is_sips t.proto) t.proto
  else if disabled cfg t.proto then .reject
  else .query .DNS_SRV_REQUEST (srv_labels t.proto ++ t.name ++ [0]) 0 t.proto

def Decision.Started (he : Ptr) (shm : Bool × Bool) (m : Objects Request) (call : Call) :
    Decision → Prop
  | .reject => call = .error
  | .address port proto => call = .callback port proto he none
  | .query type name port proto =>
    if shm.1 ∧ shm.2 then
      ∃ pack r x, call = .pack pack (.search name type) ∧ pack.requests = some r ∧
        m.get r = some x ∧ x.type = type ∧ x.name = name ∧ x.port = some port ∧ x.proto = proto
    else call = .error

/-- The queries of a lookup, and what they were answered with; the last comes first. -/
abbrev History := List (Str × ReqType × Answer)

def service_proto (is_sips : Bool) (n : NaptrRdata) : Proto :=
  let p := last_char n.services
  if is_sips then .PROTO_TLS
  else if p = chr 'U' ∨ p = chr 'u' then .PROTO_UDP
  else if p = chr 'T' ∨ p = chr 't' then .PROTO_TCP
  else .PROTO_SCTP

/-- The SRV names of a target and their protocols: that of the protocol which is given, those of the NAPTR
records for it, and that of the default protocol. -/
inductive SrvName (cfg : Config) (t : Target) (h : History) : Str → Proto → Prop where
  | given : t.proto ≠ .PROTO_NONE → SrvName cfg t h (srv_labels t.proto ++ t.name ++ [0]) t.proto
  | naptr (reply : Reply) (n : NaptrRdata) :
      t.proto = .PROTO_NONE →
      (t.name ++ [0], ReqType.DNS_NAPTR_REQUEST, Answer.ARES_SUCCESS reply) ∈ h →
      .T_NAPTR n ∈ reply.records → naptr_usable cfg t.is_sips n →
      SrvName cfg t h (n.repl.take n.repl_len) (service_proto t.is_sips n)
  | default : t.proto = .PROTO_NONE → SrvName cfg t h
      (srv_labels (default_proto t.is_sips) ++ t.name ++ [0]) (default_proto t.is_sips)

/-- The port and the protocol for the addresses of a name: those of the target, those of a service that
was found, or the default for the protocol of the service. -/
inductive Chosen (cfg : Config) (t : Target) (h : History) : Str → UInt16 → Proto → Prop where
  | given : t.port ≠ 0 → Chosen cfg t h (t.name ++ [0]) t.port t.transport
  | service (q : Str) (proto : Proto) (reply : Reply) (srv : SrvRdata) :
      t.port = 0 → SrvName cfg t h q proto →
      (q, ReqType.DNS_SRV_REQUEST, Answer.ARES_SUCCESS reply) ∈ h → .T_SRV srv ∈ reply.records →
      Chosen cfg t h (srv.name.take srv.name_len) srv.port proto
  | default (q name : Str) (proto : Proto) :
      t.port = 0 → SrvName cfg t h q proto →
      Chosen cfg t h name (default_port t.is_sips proto) proto

/-- What a user's function is called with: the answer to the last query, which was for the addresses of a
name, and the port and the protocol for these. -/
def Handed (cfg : Config) (t : Target) (h : History) (pack : Pack) : Prop :=
  ∃ name type reply older port, h = (name, type, .ARES_SUCCESS reply) :: older ∧
    (type = .DNS_A_REQUEST ∨ type = .DNS_AAAA_REQUEST) ∧ reply.he type = some pack.he ∧
    pack.port = some port ∧ Chosen cfg t older name port pack.proto

structure Story where
  target : ℕ → Option Target
  history : ℕ → History

def Story.init : Story := ⟨fun _ => none, fun _ => []⟩

/-- The query that is under way for a lookup. -/
def Sys.query (s : Sys) (id : ℕ) : Option (Str × ReqType) :=
  match s.conv id with
  | some (.waiting pack) => do
    let x ← s.store.get (← pack.requests)
    some (x.name, x.type)
  | _ => none

def Story.next (s : Sys) (g : Story) (op : Op) (_ : Event) : Story :=
  match op with
  | .sip_resolvehost _ _ name port proto is_sips =>
    { g with target := fun i => if i = s.fresh then some ⟨name, port, proto, is_sips⟩ else g.target i }
  | .sip_ares_to_dns id _ _ answer =>
    match s.query id with
    | none => g
    | some (name, type) =>
      { g with history := fun i =>
          if i = id then (name, type, answer) :: g.history i else g.history i }
  | _ => g

/-- The lookups of a target start as they should, and what users are called with was chosen for it. -/
def Selects (cfg : Config) (t : Target) : Prop :=
  (∀ he shm m, ∃ m' call, sip_resolvehost cfg he shm m t.name t.port t.proto t.is_sips =
    some (m', call) ∧ (decision cfg t).Started he shm m' call) ∧
  ∀ s g, Run (exec cfg) (fun s _ op => Proper s op) Story.next (Sys.init, Story.init) s g →
    ∀ id pack, g.target id = some t → s.conv id = some (.queued pack) → pack.he ≠ NULL →
      Handed cfg t (g.history id) pack

end Spec

section Start

/-- The target is rejected whatever the comparison of its protocol says: its name is too long, or its
protocol is switched off where an SRV name would be looked up. -/
def Rejected (cfg : Config) (t : Target) : Prop :=
  ¬ t.Literal ∧ (MAX_DNS_NAME ≤ t.name.length ∨ t.port = 0 ∧ t.SrvFits ∧ disabled cfg t.proto)

def SipsServices (cfg : Config) : Prop :=
  cfg.USE_TCP ∧ ¬ cfg.tcp_disable ∨ cfg.USE_SCTP ∧ ¬ cfg.sctp_disable

structure Fit (cfg : Config) (t : Target) : Prop where
  sips : t.is_sips → t.proto ≠ .PROTO_NONE →
    Rejected cfg t ∨ t.proto = .PROTO_TLS ∧ (t.Literal ∨ t.port ≠ 0)
  long : ¬ t.is_sips → t.proto = .PROTO_TLS → t.port = 0 → ¬ t.Literal →
    t.name.length < MAX_DNS_NAME → t.SrvFits
  services : t.is_sips → t.proto = .PROTO_NONE → t.port = 0 → ¬ t.Literal →
    t.name.length < MAX_DNS_NAME → cfg.USE_TLS ∨ ¬ SipsServices cfg

variable {cfg : Config} {t : Target}

def Decision.Asks : Decision → Option Request → Prop
  | .reject, req => req = none
  | .address _ _, _ => False
  | .query type name port proto, req =>
    ∃ x, req = some x ∧ x.type = type ∧ x.name = name ∧ x.port = some port ∧ x.proto = proto

theorem started_iff (hlit : ¬ t.Literal) (d : Decision) (hd : ∀ port proto, d ≠ .address port proto) :
    (∀ he shm m, ∃ m' call, sip_resolvehost cfg he shm m t.name t.port t.proto t.is_sips =
      some (m', call) ∧ d.Started he shm m' call) ↔
    d.Asks (first_request cfg t.name t.port t.proto t.is_sips) := by
  have hlit' : ¬ (str2ip t.name ∨ str2ip6 t.name : Prop) := hlit
  unfold sip_resolvehost
  simp only [if_neg hlit']
  cases first_request cfg t.name t.port t.proto t.is_sips with
  | none =>
    cases d with
    | address port proto => exact absurd rfl (hd port proto)
    | reject =>
      refine ⟨fun _ => rfl, fun _ he shm m => ⟨m, .error, ?_, rfl⟩⟩
      split_ifs <;> rfl
    | query type name port proto =>
      refine ⟨fun h => ?_, fun ⟨x, hx, _⟩ => by cases hx⟩
      obtain ⟨m', call, hcall, hs⟩ := h 0 (true, true) .empty
      cases hcall
      obtain ⟨pack, r, x, hcall, -⟩ := hs
      cases hcall
  | some req =>
    have hnext : ∀ shm (m : Objects Request), next_he shm (m.alloc req) (some m.fresh) = some (if shm then
          .pack ⟨none, .PROTO_NONE, NULL, some m.fresh⟩ (.search req.name req.type) else .error) := by
      intro shm m
      cases shm with
      | false => rfl
      | true =>
        rw [next_he, if_neg (fun h => h rfl)]
        exact (congrArg (· >>= _) Objects.get_alloc_self).trans rfl
    simp only [hnext]
    cases d with
    | address port proto => exact absurd rfl (hd port proto)
    | reject =>
      refine ⟨fun h => ?_, fun h => by cases h⟩
      obtain ⟨m', call, hcall, hs⟩ := h 0 (true, true) .empty
      cases hcall
      cases hs
    | query type name port proto =>
      constructor
      · intro h
        obtain ⟨m', call, hcall, hs⟩ := h 0 (true, true) .empty
        cases hcall
        obtain ⟨pack, r, x, hcall, hr, hx, hrest⟩ := hs
        cases hcall
        cases hr
        obtain rfl := some.inj (Objects.get_alloc_self.symm.trans hx)
        exact ⟨req, rfl, hrest⟩
      · rintro ⟨x, hx, rfl, rfl, hport, rfl⟩ he ⟨shm₁, shm₂⟩ m
        cases hx
        cases shm₁ with
        | false => exact ⟨m, .error, rfl, rfl⟩
        | true =>
          refine ⟨_, _, rfl, ?_⟩
          cases shm₂ with
          | false => rfl
          | true => exact ⟨_, _, _, rfl, rfl, Objects.get_alloc_self, rfl, rfl, hport, rfl⟩

theorem started_literal (hlit : t.Literal) :
    (∀ he shm m, ∃ m' call, sip_resolvehost cfg he shm m t.name t.port t.proto t.is_sips =
      some (m', call) ∧ (decision cfg t).Started he shm m' call) ↔
    (t.is_sips → t.proto ≠ .PROTO_NONE → t.proto = .PROTO_TLS) := by
  have hcall : ∀ he shm m, sip_resolvehost cfg he shm m t.name t.port t.proto t.is_sips = some (m,
      .callback (if t.port = 0 then default_port t.is_sips t.transport else t.port) t.transport he
        none) := by
    intro he shm m
    rw [sip_resolvehost, if_pos (show (str2ip t.name ∨ str2ip6 t.name : Prop) from hlit)]
    rfl
  unfold decision
  by_cases h : t.is_sips ∧ t.proto ≠ .PROTO_NONE ∧ t.proto ≠ .PROTO_TLS
  · rw [if_pos h]
    refine ⟨fun hs => ?_, fun hs => absurd (hs h.1 h.2.1) h.2.2⟩
    obtain ⟨m', call, hc, he⟩ := hs 0 (true, true) .empty
    have hproto : t.transport = .PROTO_NONE := by
      have hc := (hcall 0 (true, true) .empty).symm.trans hc
      rw [show call = .error from he, some.injEq, Prod.mk.injEq] at hc
      exact (Call.callback.inj hc.2).2.1
    unfold Target.transport at hproto
    rw [if_neg h.2.1] at hproto
    exact absurd hproto h.2.1
  · rw [if_neg h, if_pos hlit]
    exact ⟨fun _ hsips hproto => of_not_not fun htls => h ⟨hsips, hproto, htls⟩,
      fun _ he shm m => ⟨m, _, hcall he shm m, rfl⟩⟩

theorem asks_iff (hlit : ¬ t.Literal) :
    (decision cfg t).Asks (first_request cfg t.name t.port t.proto t.is_sips) ↔
    (t.is_sips → t.proto ≠ .PROTO_NONE → Rejected cfg t ∨ t.proto = .PROTO_TLS ∧ t.port ≠ 0) ∧
      (¬ t.is_sips → t.proto = .PROTO_TLS → t.port = 0 → t.name.length < MAX_DNS_NAME → t.SrvFits) := by
  have hrej : Rejected cfg t ↔ MAX_DNS_NAME ≤ t.name.length ∨
      t.port = 0 ∧ t.SrvFits ∧ disabled cfg t.proto := and_iff_right hlit
  rw [hrej]
  obtain ⟨name, port, proto, is_sips⟩ := t
  unfold decision first_request
  simp only [if_neg hlit, Target.SrvFits, Target.transport]
  by_cases hlong : MAX_DNS_NAME ≤ name.length
  · have htight : MAX_DNS_NAME < name.length + SRV_MAX_PREFIX_LEN + 1 := by omega
    cases is_sips <;> cases proto <;> by_cases hport : port = 0 <;>
      simp [hlong, htight, hport, Decision.Asks]
  · by_cases hport : port = 0
    · by_cases htight : MAX_DNS_NAME < name.length + SRV_MAX_PREFIX_LEN + 1
      · -- the name has no SRV name, and its addresses are looked up
        have hfits : ¬ name.length + SRV_MAX_PREFIX_LEN + 1 ≤ MAX_DNS_NAME := not_le.2 htight
        cases is_sips <;> cases proto <;>
          simp [hlong, htight, hfits, hport, Decision.Asks, default_port, SIP_PORT, SIPS_PORT]
      · have hfits : name.length + SRV_MAX_PREFIX_LEN + 1 ≤ MAX_DNS_NAME := not_lt.1 htight
        cases is_sips <;> cases proto <;>
          simp [hlong, htight, hfits, hport, Decision.Asks, disabled, srv_labels]
        -- a protocol that can be switched off
        all_goals split_ifs with hoff <;> simp [hoff]
    · cases is_sips <;> cases proto <;> simp [hlong, hport, Decision.Asks, default_proto]

end Start

section Services

variable {cfg : Config} {is_sips : Bool} {n : NaptrRdata}

theorem tolower_s {c : UInt8} (h : tolower c = chr 's') : c = chr 's' ∨ c = chr 'S' := by
  unfold tolower at h
  split_ifs at h with hc
  · have hsum : c.toNat + 32 = 115 := by
      have hle : c.toNat ≤ 90 := hc.2
      have := congrArg UInt8.toNat h
      rw [UInt8.toNat_add] at this
      change (c.toNat + 32) % 256 = 115 at this
      omega
    exact .inr (UInt8.toNat_inj.1 (show c.toNat = 83 by omega))
  · exact .inl h

theorem strncaseeq_get {s t : Str} {k i : ℕ} (h : strncaseeq s t k) (hi : i < k) (hs : i < s.length)
    (ht : i < t.length) : tolower (s.getD i 0) = tolower (t.getD i 0) := by
  have hget := congrArg (fun l => l[i]?) (of_decide_eq_true h)
  simpa [getElem?_take, hi, getElem?_eq_getElem hs, getElem?_eq_getElem ht, getD_eq_getElem?_getD] using hget

theorem usable_third (h : naptr_usable cfg is_sips n) :
    (n.services.getD 3 0 = chr 's' ∨ n.services.getD 3 0 = chr 'S') ↔ is_sips = true := by
  obtain ⟨-, -, -, hs, -, -⟩ := of_decide_eq_true h
  rcases hs with ⟨hn, hlen, heq⟩ | ⟨hy, hlen, heq⟩
  · have h3 := strncaseeq_get (i := 3) heq (by decide) (by omega) (by decide)
    refine ⟨fun hc => ?_, fun hy => absurd hy hn⟩
    rcases hc with hc | hc <;> rw [hc] at h3 <;> exact absurd h3 (by decide)
  · have h3 := strncaseeq_get (i := 3) heq (by decide) (by omega) (by decide)
    exact ⟨fun _ => hy, fun _ => tolower_s (h3.trans (by decide))⟩

theorem naptr_proto_eq (h : naptr_usable cfg is_sips n) (hcfg : is_sips → cfg.USE_TLS ∨ ¬ SipsServices cfg) :
    get_naptr_proto cfg n = service_proto is_sips n := by
  have hthird := usable_third h
  obtain ⟨-, -, -, hs, hp, hu⟩ := of_decide_eq_true h
  unfold get_naptr_proto service_proto
  cases is_sips with
  | false =>
    have hno : ¬ (n.services.getD 3 0 = chr 's' ∨ n.services.getD 3 0 = chr 'S') :=
      fun hc => by cases hthird.1 hc
    rw [if_neg fun hc => hno hc.2, if_neg Bool.false_ne_true]
    by_cases hU : last_char n.services = chr 'U' ∨ last_char n.services = chr 'u'
    · rw [if_pos hU, if_pos hU]
    · rw [if_neg hU, if_neg hU]
      rcases hp with hp | hp | ⟨htcp, -, hp⟩ | ⟨hsctp, -, hp⟩
      · exact absurd (.inl hp) hU
      · exact absurd (.inr hp) hU
      · rw [if_pos ⟨htcp, hp⟩, if_pos hp]
      · have hT : ¬ (last_char n.services = chr 'T' ∨ last_char n.services = chr 't') := by
          rcases hp with hp | hp <;> rw [hp] <;> decide
        rw [if_neg fun hc => hT hc.2, if_neg hT, if_pos ⟨hsctp, hp⟩]
  | true =>
    have hlen : n.services.length = 8 := by
      rcases hs with ⟨hn, -⟩ | ⟨-, hlen, -⟩
      · exact absurd rfl hn
      · exact hlen
    have htls : cfg.USE_TLS := by
      refine (hcfg rfl).resolve_right (not_not_intro ?_)
      rcases hp with hp | hp | ⟨htcp, hoff, -⟩ | ⟨hsctp, hoff, -⟩
      · exact absurd ⟨hlen, .inl hp⟩ hu
      · exact absurd ⟨hlen, .inr hp⟩ hu
      · exact .inl ⟨htcp, hoff⟩
      · exact .inr ⟨hsctp, hoff⟩
    rw [if_pos ⟨htls, hthird.2 rfl⟩, if_pos rfl]

end Services

section Requests

def Justified (cfg : Config) (t : Target) (h : History) (x : Request) : Prop :=
  x.is_sips = t.is_sips ∧
  match x.type with
  | .DNS_A_REQUEST | .DNS_AAAA_REQUEST =>
    ∃ port, x.port = some port ∧ Chosen cfg t h x.name port x.proto
  | .DNS_SRV_REQUEST => t.port = 0 ∧ SrvName cfg t h x.name x.proto
  | .DNS_NAPTR_REQUEST => t.port = 0 ∧ t.proto = .PROTO_NONE ∧ ¬ t.Literal ∧
    t.name.length < MAX_DNS_NAME ∧ x.name = t.name ++ [0] ∧ x.name_len = some t.name.length

variable {cfg : Config} {shm : ℕ → Bool} {rand : ℕ → ℕ → ℕ} {t : Target} {h h' : History}
  {x z : Request} {rest l : List Request} {found : Option Ptr} {answer : Answer}

theorem SrvName.mono {name : Str} {proto : Proto} (hs : SrvName cfg t h name proto)
    (hh : ∀ q ∈ h, q ∈ h') : SrvName cfg t h' name proto := by
  cases hs with
  | given hp => exact .given hp
  | naptr reply n hp hq hn hu => exact .naptr reply n hp (hh _ hq) hn hu
  | default hp => exact .default hp

theorem Chosen.mono {name : Str} {port : UInt16} {proto : Proto}
    (hc : Chosen cfg t h name port proto) (hh : ∀ q ∈ h, q ∈ h') :
    Chosen cfg t h' name port proto := by
  cases hc with
  | given hp => exact .given hp
  | service q proto reply srv hp hs hq hr => exact .service q proto reply srv hp (hs.mono hh) (hh _ hq) hr
  | default q name proto hp hs => exact .default q name proto hp (hs.mono hh)

theorem Justified.mono (hx : Justified cfg t h x) (hh : ∀ q ∈ h, q ∈ h') : Justified cfg t h' x := by
  obtain ⟨hsips, hx⟩ := hx
  refine ⟨hsips, ?_⟩
  revert hx
  cases x.type with
  | DNS_A_REQUEST => exact fun ⟨port, hp, hc⟩ => ⟨port, hp, hc.mono hh⟩
  | DNS_AAAA_REQUEST => exact fun ⟨port, hp, hc⟩ => ⟨port, hp, hc.mono hh⟩
  | DNS_SRV_REQUEST => exact fun ⟨hp, hs⟩ => ⟨hp, hs.mono hh⟩
  | DNS_NAPTR_REQUEST => exact id

theorem justified_direct_a (hx : x.is_sips = t.is_sips) (hp : t.port = 0) {q : Str}
    (hs : SrvName cfg t h q x.proto) (hr : react_direct_a cfg x rest = some (l, found)) :
    ∃ z, l = z :: rest ∧ Justified cfg t h z ∧ found = none := by
  obtain ⟨z, hz, e⟩ := map_eq_some_iff.1 hr
  cases e
  refine ⟨z, rfl, ?_, rfl⟩
  have hkeep : z.is_sips = x.is_sips ∧ z.port = some (default_port x.is_sips x.proto) ∧ z.proto = x.proto := by
    simp only [srv_2_a, bind_eq_bind] at hz
    split_ifs at hz
    · obtain ⟨w, hw, hz⟩ := bind_eq_some_iff.1 hz
      cases hz
      obtain ⟨len, -, hw⟩ := bind_eq_some_iff.1 hw
      dsimp only at hw
      split_ifs at hw
      cases hw
      exact ⟨rfl, rfl, rfl⟩
    · cases hz
      exact ⟨rfl, rfl, rfl⟩
  obtain ⟨hzs, hport, hproto⟩ := hkeep
  refine ⟨hzs.trans hx, ?_⟩
  rw [srv_2_a_type hz]
  refine ⟨_, hport, ?_⟩
  rw [hx, hproto]
  exact .default q z.name x.proto hp hs

theorem justified_natpr_2_srv (hx : Justified cfg t h x) (ht : x.type = .DNS_NAPTR_REQUEST)
    (hz : natpr_2_srv cfg (set_default_proto x) = some (some z)) : Justified cfg t h z := by
  obtain ⟨hsips, hx⟩ := hx
  rw [ht] at hx
  obtain ⟨hp, hnone, -, -, hname, hlen⟩ := hx
  have hproto : (set_default_proto x).proto = default_proto t.is_sips := by
    rw [← hsips]
    rfl
  have htake : (t.name ++ [0]).take (t.name.length + 1) = t.name ++ [0] :=
    take_of_length_le (by rw [length_append, length_singleton])
  have hpush : ∀ pre, pre = srv_labels (default_proto t.is_sips) →
      prefix_name (set_default_proto x) t.name.length pre = z → Justified cfg t h z := by
    rintro pre rfl rfl
    refine ⟨hsips, hp, ?_⟩
    show SrvName cfg t h (_ ++ (x.name.take (t.name.length + 1))) (set_default_proto x).proto
    rw [hproto, hname, htake, ← append_assoc]
    exact .default hnone
  unfold natpr_2_srv at hz
  rw [show (set_default_proto x).name_len = some t.name.length from hlen, hproto] at hz
  simp only [bind_eq_bind, bind_some] at hz
  unfold default_proto at hz hpush
  split_ifs at hz hpush
  all_goals first
    | cases hz; done
    | exact hpush _ rfl (some.inj (some.inj hz))

theorem justified_no_data (hx : Justified cfg t h x) (hr : react_no_data cfg x rest = some (l, found)) :
    found = none ∧ ∀ z ∈ l, z ∈ rest ∨ Justified cfg t h z := by
  have hkeep : ∀ z, l = z :: rest → Justified cfg t h z → ∀ y ∈ l, y ∈ rest ∨ Justified cfg t h y := by
    rintro z rfl hz y hy
    rcases mem_cons.1 hy with rfl | hy
    · exact .inr hz
    · exact .inl hy
  unfold react_no_data at hr
  cases ht : x.type with
  | DNS_A_REQUEST =>
    rw [ht] at hr
    cases hr
    exact ⟨rfl, fun z hz => .inl hz⟩
  | DNS_AAAA_REQUEST =>
    rw [ht] at hr
    cases hr
    exact ⟨rfl, fun z hz => .inl hz⟩
  | DNS_SRV_REQUEST =>
    rw [ht] at hr
    have hj := hx.2
    rw [ht] at hj
    obtain ⟨z, hl, hz, hfound⟩ := justified_direct_a hx.1 hj.1 hj.2 hr
    exact ⟨hfound, hkeep z hl hz⟩
  | DNS_NAPTR_REQUEST =>
    rw [ht] at hr
    have hj := hx.2
    rw [ht] at hj
    dsimp only at hr
    split at hr
    · cases hr
    · rename_i z hz
      cases hr
      exact ⟨rfl, hkeep z rfl (justified_natpr_2_srv hx ht hz)⟩
    · have hproto : (set_default_proto x).proto = default_proto t.is_sips := by
        rw [← hx.1]
        rfl
      obtain ⟨z, hl, hz, hfound⟩ := justified_direct_a (x := set_default_proto x) hx.1 hj.1
        (hproto ▸ SrvName.default hj.2.1) hr
      exact ⟨hfound, hkeep z hl hz⟩

theorem mem_react_add {news : List Request} (hz : z ∈ (react_add shm news rest).1) :
    z ∈ news ∨ z ∈ rest := by
  rcases mem_append.1 hz with hz | hz
  · exact .inl (allotted_sub hz)
  · exact .inr hz

theorem react_add_found {news : List Request} {he : Ptr}
    (hf : (react_add shm news rest).2 = some he) : he = NULL := by
  unfold react_add at hf
  split_ifs at hf
  exact (some.inj hf).symm

/-- **What an answer leads to is justified by it** and by those before it. -/
theorem justified_react (hfit : Fit cfg t) (hx : Justified cfg t h x)
    (hrest : ∀ z ∈ rest, Justified cfg t h z) (hr : react cfg shm rand x rest answer = some (l, found)) :
    (∀ z ∈ l, Justified cfg t ((x.name, x.type, answer) :: h) z) ∧
    ∀ he, found = some he → he ≠ NULL → ∃ reply, answer = .ARES_SUCCESS reply ∧
      (x.type = .DNS_A_REQUEST ∨ x.type = .DNS_AAAA_REQUEST) ∧ reply.he x.type = some he := by
  have hmono : ∀ z, Justified cfg t h z → Justified cfg t ((x.name, x.type, answer) :: h) z :=
    fun z hz => hz.mono fun q hq => mem_cons_of_mem _ hq
  have hskip : ∀ z ∈ rest, Justified cfg t ((x.name, x.type, answer) :: h) z :=
    fun z hz => hmono z (hrest z hz)
  have hnodata : ∀ l found, react_no_data cfg x rest = some (l, found) →
      (∀ z ∈ l, Justified cfg t ((x.name, x.type, answer) :: h) z) ∧ found = none := by
    intro l found hr
    obtain ⟨hf, hl⟩ := justified_no_data hx hr
    exact ⟨fun z hz => (hl z hz).elim (hskip z) (hmono z), hf⟩
  cases answer with
  | other =>
    cases hr
    exact ⟨hskip, fun he hf => by cases hf⟩
  | ARES_ENODATA =>
    obtain ⟨hl, rfl⟩ := hnodata l found hr
    exact ⟨hl, fun he hf => by cases hf⟩
  | ARES_ENOTFOUND =>
    obtain ⟨hl, rfl⟩ := hnodata l found hr
    exact ⟨hl, fun he hf => by cases hf⟩
  | ARES_SUCCESS reply =>
    change react_success cfg shm rand x rest reply = _ at hr
    unfold react_success at hr
    have hj := (hmono x hx).2
    cases ht : x.type with
    | DNS_A_REQUEST =>
      rw [ht] at hr hskip
      cases hr
      exact ⟨hskip, fun he hf _ => ⟨reply, rfl, .inl rfl, hf⟩⟩
    | DNS_AAAA_REQUEST =>
      rw [ht] at hr hskip
      cases hr
      exact ⟨hskip, fun he hf _ => ⟨reply, rfl, .inr rfl, hf⟩⟩
    | DNS_SRV_REQUEST =>
      simp only [ht] at hr hskip hj
      split_ifs at hr
      · cases hr
        exact ⟨hskip, fun he hf => by cases hf⟩
      · obtain ⟨head, hsort, e⟩ := map_eq_some_iff.1 hr
        rw [Prod.ext_iff] at e
        obtain ⟨rfl, rfl⟩ := e
        refine ⟨fun z hz => ?_, fun he hf hne => absurd (react_add_found hf) hne⟩
        refine (mem_react_add hz).elim (fun hz => ?_) (hskip z)
        obtain ⟨srv, hsrv, hz⟩ := mem_flatMap.1 hz
        obtain ⟨type, htype, rfl⟩ := List.mem_map.1 hz
        obtain ⟨rd, hrd, hrd'⟩ := mem_filterMap.1 ((sort_srvs_perm hsort).mem_iff.1 hsrv)
        obtain rfl : rd = .T_SRV srv := by
          cases rd with
          | T_SRV srv' => exact congrArg _ (some.inj hrd')
          | T_NAPTR n => cases hrd'
          | other type p => cases hrd'
        have hc := Chosen.service x.name x.proto reply srv hj.1 hj.2 mem_cons_self hrd
        refine ⟨hx.1, ?_⟩
        unfold dns_types at htype
        split_ifs at htype <;> simp only [mem_cons, not_mem_nil, or_false] at htype
        · rcases htype with rfl | rfl <;> exact ⟨_, rfl, hc⟩
        · rw [htype]
          exact ⟨_, rfl, hc⟩
    | DNS_NAPTR_REQUEST =>
      simp only [ht] at hr hskip hj
      split_ifs at hr
      · cases hr
        exact ⟨hskip, fun he hf => by cases hf⟩
      · have e := some.inj hr
        rw [Prod.ext_iff] at e
        obtain ⟨rfl, rfl⟩ := e
        refine ⟨fun z hz => ?_, fun he hf hne => absurd (react_add_found hf) hne⟩
        refine (mem_react_add hz).elim (fun hz => ?_) (hskip z)
        obtain ⟨n, hn, rfl⟩ := List.mem_map.1 hz
        obtain ⟨hp, hnone, hlit, hlen, hname, -⟩ := hj
        rcases mem_filter_and_sort_naptr.1 hn with hn | ⟨hn, hu⟩
        · cases hn
        · rw [hx.1] at hu
          refine ⟨hx.1, hp, ?_⟩
          show SrvName cfg t _ _ (get_naptr_proto cfg n)
          rw [naptr_proto_eq hu fun hsips => hfit.services hsips hnone hp hlit hlen]
          exact .naptr reply n hnone (hname ▸ mem_cons_self) hn hu

/-- What `first_request` writes besides what is asked for. -/
theorem first_request_rest (hreq : first_request cfg t.name t.port t.proto t.is_sips = some x) :
    x.is_sips = t.is_sips ∧ (x.type = .DNS_NAPTR_REQUEST → x.name_len = some t.name.length) := by
  have hsips : ∀ y : Request, y.is_sips = t.is_sips → y.type ≠ .DNS_NAPTR_REQUEST → some y = some x →
      x.is_sips = t.is_sips ∧ (x.type = .DNS_NAPTR_REQUEST → x.name_len = some t.name.length) := by
    rintro y hy hty ⟨⟩
    exact ⟨hy, fun ht => absurd ht hty⟩
  unfold first_request at hreq
  dsimp only at hreq
  split_ifs at hreq
  all_goals first
    | exact absurd hreq (some_ne_none _).symm
    | (obtain rfl := some.inj hreq; exact ⟨rfl, fun _ => rfl⟩)
    | exact hsips _ rfl (fun ht => by cases ht) hreq
    | (revert hreq; cases t.proto <;> intro hreq <;> first
        | cases hreq; done
        | exact hsips _ rfl (fun ht => by cases ht) hreq)

theorem fit_asks (hfit : Fit cfg t) (hlit : ¬ t.Literal) :
    (decision cfg t).Asks (first_request cfg t.name t.port t.proto t.is_sips) := by
  refine (asks_iff hlit).2 ⟨fun hsips hp => ?_, fun hsips htls hp => hfit.long hsips htls hp hlit⟩
  rcases hfit.sips hsips hp with hrej | ⟨htls, hlit' | hport⟩
  · exact .inl hrej
  · exact absurd hlit' hlit
  · exact .inr ⟨htls, hport⟩

theorem justified_first (hfit : Fit cfg t) (hlit : ¬ t.Literal)
    (hreq : first_request cfg t.name t.port t.proto t.is_sips = some x) : Justified cfg t h x := by
  obtain ⟨hsips, hlen⟩ := first_request_rest hreq
  have hasks := fit_asks hfit hlit
  rw [hreq] at hasks
  refine ⟨hsips, ?_⟩
  unfold decision at hasks
  rw [if_neg hlit] at hasks
  by_cases h1 : t.is_sips ∧ t.proto ≠ .PROTO_NONE ∧ t.proto ≠ .PROTO_TLS
  · rw [if_pos h1] at hasks
    cases hasks
  rw [if_neg h1] at hasks
  by_cases hlong : MAX_DNS_NAME ≤ t.name.length
  · rw [if_pos hlong] at hasks
    cases hasks
  rw [if_neg hlong] at hasks
  by_cases hport : t.port = 0
  · rw [if_neg (not_not_intro hport)] at hasks
    by_cases hproto : t.proto = .PROTO_NONE
    · rw [if_pos hproto] at hasks
      obtain ⟨y, hy, ht, hname, -, -⟩ := hasks
      cases hy
      rw [ht]
      exact ⟨hport, hproto, hlit, not_le.1 hlong, hname, hlen ht⟩
    · rw [if_neg hproto] at hasks
      split_ifs at hasks
      · obtain ⟨y, hy, ht, -, hp, hpr⟩ := hasks
        cases hy
        rw [ht, hpr]
        exact ⟨_, hp, .default _ _ _ hport (.given hproto)⟩
      · cases hasks
      · obtain ⟨y, hy, ht, hname, -, hpr⟩ := hasks
        cases hy
        rw [ht, hname, hpr]
        exact ⟨hport, .given hproto⟩
  · rw [if_pos hport] at hasks
    obtain ⟨y, hy, ht, hname, hp, hpr⟩ := hasks
    cases hy
    rw [ht, hname, hpr]
    exact ⟨_, hp, .given hport⟩

end Requests

section Story

variable {cfg : Config} {s s' : Sys} {g : Story} {e : Event} {id : ℕ} {t : Target}

theorem query_eq {pack : Pack} {r : Ref} {refs : List Ref} {x : Request} {l : List Request}
    (hc : s.conv id = some (.waiting pack))
    (hl : Listed s.store pack.requests (r :: refs) (x :: l)) : s.query id = some (x.name, x.type) := by
  obtain ⟨hp, y, hy, rfl, -⟩ := hl.head
  unfold Sys.query
  rw [hc]
  simp only [show pack.requests = some r from hp, hy, bind_eq_bind, bind_some]
  rfl

/-- The requests of a lookup are justified, and so is what its user is called with. -/
structure Serving (cfg : Config) (t : Target) (h : History) (m : Objects Request) (c : Conv) : Prop where
  requests : ∃ refs l, Listed m c.requests refs l ∧ ∀ x ∈ l, Justified cfg t h x
  handed : ∀ pack, c = .queued pack → pack.he ≠ NULL → Handed cfg t h pack

theorem Serving.idle {h : History} {m : Objects Request} : Serving cfg t h m (.held none) :=
  ⟨⟨[], [], listed_none, fun _ hx => by cases hx⟩, fun _ hc => by cases hc⟩

/-- The lookups are known, and those of fit targets are justified. -/
structure Told (cfg : Config) (s : Sys) (g : Story) : Prop where
  inv : Inv s
  fresh : ∀ id, s.fresh ≤ id → g.target id = none
  served : ∀ id t, g.target id = some t → Fit cfg t →
    ∃ c, s.conv id = some c ∧ Serving cfg t (g.history id) s.store c

theorem told_init : Told cfg Sys.init Story.init := ⟨.init, fun _ _ => rfl, fun _ _ h => by cases h⟩

theorem Told.put {c : Conv} {m' : Objects Request} {g' : Story} {n : ℕ} {refs : List Ref}
    (h : Told cfg s g) (hinv : Inv (s.put id c m' n)) (hn : s.fresh ≤ n) (hid : id < n)
    (hf : Objects.Frame refs s.store m')
    (hown : ∀ j d refs' l', j ≠ id → s.conv j = some d → Listed s.store d.requests refs' l' →
      ∀ r ∈ refs, r ∉ refs')
    (htarget : ∀ j, j ≠ id → g'.target j = g.target j)
    (hhistory : ∀ j, j ≠ id → g'.history j = g.history j)
    (hserved : ∀ t, g'.target id = some t → Fit cfg t →
      Serving cfg t (g'.history id) m' c) : Told cfg (s.put id c m' n) g' := by
  refine ⟨hinv, fun j hj => ?_, fun j t ht hfit => ?_⟩
  · rw [htarget j (ne_of_gt (lt_of_lt_of_le hid hj))]
    exact h.fresh j (le_trans hn hj)
  · by_cases hji : j = id
    · subst hji
      exact ⟨c, s.put_self, hserved t ht hfit⟩
    · rw [htarget j hji] at ht
      rw [hhistory j hji]
      obtain ⟨d, hd, ⟨refs', l, hl, hx⟩, hh⟩ := h.served j t ht hfit
      refine ⟨d, (s.put_ne hji).trans hd, ⟨refs', l, ?_, hx⟩, hh⟩
      exact hl.frame hf h.inv.valid fun r hr hmem => hown j d refs' l hji hd hl r hmem hr

theorem Serving.answer {shm : ℕ → Bool} {rand : ℕ → ℕ → ℕ} {answer : Answer} {pack : Pack}
    {refs : List Ref} {x : Request} {l l' : List Request} {found : Option Ptr} {h : History}
    {out : Objects Request × Pack × Next} (hfit : Fit cfg t)
    (hs : Serving cfg t h s.store (.waiting pack)) (hl : Listed s.store pack.requests refs (x :: l))
    (hr : react cfg shm rand x l answer = some (l', found)) (ha : After s.store refs x l' found out) :
    Serving cfg t ((x.name, x.type, answer) :: h) out.1 (Call.pack out.2.1 out.2.2).conv := by
  obtain ⟨refs₁, l₁, hl₁, hj⟩ := hs.requests
  obtain ⟨rfl, rfl⟩ := hl.unique hl₁
  have hx : Justified cfg t h x := hj x mem_cons_self
  obtain ⟨hjust, hfound⟩ := justified_react hfit hx (fun z hz => hj z (mem_cons_of_mem _ hz)) hr
  obtain ⟨refs', hl', -⟩ := ha.listed
  have hreq : (Call.pack out.2.1 out.2.2).conv.requests = out.2.1.requests := by
    cases out.2.2 <;> rfl
  refine ⟨⟨refs', l', hreq ▸ hl', hjust⟩, fun pack' hc hne => ?_⟩
  obtain ⟨rfl, hsub⟩ : out.2.1 = pack' ∧ out.2.2 = .submit := by
    cases hn : out.2.2 with
    | search name type =>
      rw [hn] at hc
      cases hc
    | submit =>
      rw [hn] at hc
      exact ⟨Conv.queued.inj hc, rfl⟩
  have hhe := ha.he hsub
  cases hf : found with
  | none =>
    rw [hf] at hhe
    exact absurd hhe hne
  | some he =>
    rw [hf] at hhe
    have hhe : out.2.1.he = he := hhe
    obtain ⟨reply, rfl, ht, hreply⟩ := hfound he hf (hhe ▸ hne)
    have hport := hx.2
    obtain ⟨port, hp, hc⟩ : ∃ port, x.port = some port ∧ Chosen cfg t h x.name port x.proto := by
      rcases ht with ht | ht <;> rw [ht] at hport <;> exact hport
    exact ⟨x.name, x.type, reply, h, port, rfl, ht, hhe ▸ hreply, ha.port.trans hp, ha.proto ▸ hc⟩

/-- **A step keeps the lookups of fit targets justified.** -/
theorem Told.step {op : Op} (h : Told cfg s g) (hp : Proper s op)
    (he : exec cfg s op = some (s', e)) : Told cfg s' (Story.next s g op e) := by
  have hinv := (exec_step h.inv hp he).inv
  cases op with
  | sip_resolvehost he' shm name port proto is_sips =>
    obtain ⟨m', call, hcall, hf, hkind⟩ :=
      sip_resolvehost_spec cfg he' shm s.store name port proto is_sips
    obtain ⟨rfl, -⟩ : s.put s.fresh call.conv m' (s.fresh + 1) = s' ∧ call.event s.fresh = e := by
      rw [show exec cfg s _ = some _ from (congrArg (· >>= _) hcall).trans rfl] at he
      cases he
      exact ⟨rfl, rfl⟩
    refine h.put hinv (Nat.le_succ _) (Nat.lt_succ_self _) hf (fun _ _ _ _ _ _ _ _ hr => by cases hr)
      (fun j hj => if_neg hj) (fun j hj => rfl) fun t ht hfit => ?_
    obtain rfl := some.inj ((if_pos rfl).symm.trans ht)
    rcases hkind with ⟨port', proto', he', rfl⟩ | ⟨req, hreq, hlit, hl, rfl⟩
    · exact .idle
    · refine ⟨⟨_, _, hl, fun x hx => ?_⟩, fun _ hc => by cases hc⟩
      rw [mem_singleton.1 hx]
      exact justified_first hfit hlit hreq
  | sip_ares_to_dns id shm rand answer =>
    obtain ⟨pack, hc⟩ := hp
    obtain ⟨r, refs, x, l, -, hl, -⟩ := h.inv.waiting_head hc
    have hexec := exec_answer_eq cfg shm rand answer h.inv hc hl
    cases hr : react cfg shm rand x l answer with
    | none =>
      rw [hr] at hexec
      rw [hexec] at he
      cases he
    | some q =>
    rw [hr] at hexec
    obtain ⟨out, ha, hexec⟩ := hexec
    rw [hexec] at he
    cases he
    have hnext : Story.next s g (.sip_ares_to_dns id shm rand answer) ⟨none, none⟩ = { g with
        history := fun i => if i = id then (x.name, x.type, answer) :: g.history i else g.history i } := by
      simp only [Story.next, query_eq hc hl]
    rw [hnext]
    refine h.put hinv (le_rfl) (h.inv.id_lt hc) ha.frame (h.inv.own hc hl) (fun _ _ => rfl)
      (fun j hj => if_neg hj) fun t ht hfit => ?_
    obtain ⟨c, hc', hserving⟩ := h.served id t ht hfit
    obtain rfl := some.inj (hc.symm.trans hc')
    show Serving cfg t (if id = id then _ else _) _ _
    rw [if_pos rfl]
    exact hserving.answer hfit hl hr ha
  | sip_dns_to_user id =>
    obtain ⟨pack, hc⟩ := hp
    simp only [exec, hc] at he
    cases he
    obtain ⟨refs, l, hl, -⟩ := h.inv.listed id _ hc
    refine h.put hinv (le_rfl) (h.inv.id_lt hc) (.refl refs _) (h.inv.own hc hl)
      (fun _ _ => rfl) (fun _ _ => rfl) fun t ht hfit => ?_
    obtain ⟨c, hc', hserving⟩ := h.served id t ht hfit
    obtain rfl := some.inj (hc.symm.trans hc')
    exact ⟨hserving.requests, fun _ hc => by cases hc⟩
  | next_he id shm =>
    obtain ⟨requests, hc⟩ := hp
    obtain ⟨refs, l, hl, -⟩ := h.inv.listed id _ hc
    obtain ⟨call, hcall, hkind⟩ := next_he_spec shm hl
    obtain ⟨rfl, -⟩ : s.put id call.conv s.store s.fresh = s' ∧ call.event id = e := by
      simp only [exec, hc] at he
      rw [show Resolve.next_he shm s.store requests = some call from hcall] at he
      cases he
      exact ⟨rfl, rfl⟩
    refine h.put hinv (le_rfl) (h.inv.id_lt hc) (.refl refs _) (h.inv.own hc hl)
      (fun _ _ => rfl) (fun _ _ => rfl) fun t ht hfit => ?_
    obtain ⟨c, hc', hserving⟩ := h.served id t ht hfit
    obtain rfl := some.inj (hc.symm.trans hc')
    rcases hkind with rfl | ⟨pack, name, type, rfl, rfl, -⟩
    · exact .idle
    · exact ⟨hserving.requests, fun _ hc => by cases hc⟩

end Story

section Selection

variable {cfg : Config} {t : Target}

abbrev Reached (cfg : Config) (s : Sys) (g : Story) : Prop :=
  Run (exec cfg) (fun s _ op => Proper s op) Story.next (Sys.init, Story.init) s g

theorem told {s : Sys} {g : Story} (hr : Reached cfg s g) : Told cfg s g :=
  hr.invariant told_init fun _ _ _ _ _ h hp he => h.step hp he

/-- A lookup of the target waits for the answer about its first request. -/
structure At (cfg : Config) (t : Target) (s : Sys) (g : Story) (id : ℕ) (x : Request)
    (l : List Request) (h : History) : Prop where
  run : Reached cfg s g
  target : g.target id = some t
  history : g.history id = h
  waits : ∃ pack r refs, s.conv id = some (.waiting pack) ∧
    Listed s.store pack.requests (r :: refs) (x :: l)

variable {s : Sys} {g : Story} {id : ℕ} {x : Request} {l l' : List Request} {h : History}
  {answer : Answer} {found : Option Ptr}

theorem At.exec (ha : At cfg t s g id x l h)
    (hr : react cfg (fun _ => true) (fun _ _ => 0) x l answer = some (l', found)) :
    ∃ s' g' refs out, Reached cfg s' g' ∧ g'.target id = some t ∧
      g'.history id = (x.name, x.type, answer) :: h ∧ After s.store refs x l' found out ∧
      s'.store = out.1 ∧ s'.conv id = some (Call.pack out.2.1 out.2.2).conv := by
  obtain ⟨pack, r, refs, hc, hl⟩ := ha.waits
  have hexec := exec_answer_eq cfg (fun _ => true) (fun _ _ => 0) answer (told ha.run).inv hc hl
  rw [hr] at hexec
  obtain ⟨out, hafter, he⟩ := hexec
  have hp : Proper s (.sip_ares_to_dns id (fun _ => true) (fun _ _ => 0) answer) := ⟨pack, hc⟩
  refine ⟨_, _, _, out, ha.run.step hp he, ?_, ?_, hafter, rfl, s.put_self⟩
  · simp only [Story.next, query_eq hc hl]
    exact ha.target
  · simp only [Story.next, query_eq hc hl, if_true, ha.history]

theorem At.goes_on {y : Request} (ha : At cfg t s g id x l h)
    (hr : react cfg (fun _ => true) (fun _ _ => 0) x l answer = some (y :: l', none)) :
    ∃ s' g', At cfg t s' g' id y l' ((x.name, x.type, answer) :: h) := by
  obtain ⟨s', g', _, ⟨m', pack, next⟩, hrun, htarget, hhistory, hafter, hstore, hconv⟩ := ha.exec hr
  obtain ⟨refs', hl, -⟩ := hafter.listed
  obtain ⟨r, refs, rfl⟩ : ∃ r refs, refs' = r :: refs := by
    cases refs' with
    | nil => exact absurd (congrArg List.length hl.contents) (by simp)
    | cons r refs => exact ⟨r, refs, rfl⟩
  have hnext := hafter.next
  obtain rfl : next = .search y.name y.type := hnext
  exact ⟨s', g', hrun, htarget, hhistory, pack, r, refs, hconv, hstore ▸ hl⟩

theorem At.finds {he : Ptr} (ha : At cfg t s g id x l h)
    (hr : react cfg (fun _ => true) (fun _ _ => 0) x l answer = some (l', some he)) :
    ∃ s' g' pack, Reached cfg s' g' ∧ g'.target id = some t ∧ s'.conv id = some (.queued pack) ∧
      pack.he = he ∧ pack.proto = x.proto := by
  obtain ⟨s', g', _, ⟨m', pack, next⟩, hrun, htarget, -, hafter, -, hconv⟩ := ha.exec hr
  have hnext := hafter.next
  obtain rfl : next = .submit := by
    rw [show next = follow l' (some he) from hnext]
    cases l' <;> rfl
  exact ⟨s', g', pack, hrun, htarget, hconv, hafter.he rfl, hafter.proto⟩

theorem at_first (hlit : ¬ t.Literal) (hreq : first_request cfg t.name t.port t.proto t.is_sips = some x) :
    ∃ s g, At cfg t s g 0 x [] [] := by
  have hcall : Resolve.sip_resolvehost cfg 1 (true, true) Sys.init.store t.name t.port t.proto
      t.is_sips = some (Sys.init.store.alloc x,
        .pack ⟨none, .PROTO_NONE, NULL, some 0⟩ (.search x.name x.type)) := by
    unfold Resolve.sip_resolvehost
    rw [if_neg (show ¬ (str2ip t.name ∨ str2ip6 t.name : Prop) from hlit),
      if_neg (not_not_intro (show (true, true).1 = true from rfl)), hreq]
    rfl
  have he : exec cfg Sys.init (.sip_resolvehost 1 (true, true) t.name t.port t.proto t.is_sips) =
      some (Sys.init.put 0 (.waiting ⟨none, .PROTO_NONE, NULL, some 0⟩) (Sys.init.store.alloc x) 1,
        ⟨some 0, none⟩) := (congrArg (· >>= _) hcall).trans rfl
  have hp : Proper Sys.init (.sip_resolvehost 1 (true, true) t.name t.port t.proto t.is_sips) := trivial
  exact ⟨_, _, .step .init hp he, rfl, rfl, _, 0, [], rfl, listed_alloc (first_request_spec hreq).2⟩

theorem chosen_sips {h : History} {name : Str} {port : UInt16} {proto : Proto} (hsips : t.is_sips)
    (hnone : t.proto = .PROTO_NONE) (hport : t.port = 0) (hc : Chosen cfg t h name port proto) :
    proto = .PROTO_TLS := by
  have hname : ∀ q proto, SrvName cfg t h q proto → proto = .PROTO_TLS := by
    intro q proto hs
    cases hs with
    | given hp => exact absurd hnone hp
    | naptr reply n => rw [service_proto, hsips, if_pos rfl]
    | default => rw [default_proto, hsips, if_pos rfl]
  cases hc with
  | given hp => exact absurd hport hp
  | service q proto reply srv hp hs => exact hname q proto hs
  | default q name proto hp hs => exact hname q proto hs

def sips_naptr (p : UInt8) : NaptrRdata :=
  ⟨0, 0, [chr 's'], "SIPS+D2".toList.map chr ++ [p], [], [chr 'a', 0], 3⟩

theorem sips_naptr_usable (hs : SipsServices cfg) : ∃ p, (p = chr 'T' ∨ p = chr 'S') ∧
    naptr_usable cfg true (sips_naptr p) ∧ (¬ cfg.USE_TLS →
      get_naptr_proto cfg (sips_naptr p) ≠ .PROTO_TLS) := by
  have hproto : ∀ p, ¬ cfg.USE_TLS → get_naptr_proto cfg (sips_naptr p) ≠ .PROTO_TLS := by
    intro p htls h
    unfold get_naptr_proto at h
    dsimp only at h
    rw [if_neg fun hc => htls hc.1] at h
    split_ifs at h
  rcases hs with ⟨htcp, hoff⟩ | ⟨hsctp, hoff⟩
  · refine ⟨chr 'T', .inl rfl, decide_eq_true ⟨.inl rfl, by decide, rfl,
      .inr ⟨rfl, rfl, by decide⟩, ?_, by decide⟩, hproto _⟩
    exact .inr (.inr (.inl ⟨htcp, hoff, .inl rfl⟩))
  · refine ⟨chr 'S', .inr rfl, decide_eq_true ⟨.inl rfl, by decide, rfl,
      .inr ⟨rfl, rfl, by decide⟩, ?_, by decide⟩, hproto _⟩
    exact .inr (.inr (.inr ⟨hsctp, hoff, .inl rfl⟩))

theorem sips_without_tls (hsips : t.is_sips) (hnone : t.proto = .PROTO_NONE) (hport : t.port = 0)
    (hlit : ¬ t.Literal) (hlen : t.name.length < MAX_DNS_NAME) (htls : ¬ cfg.USE_TLS)
    (hs : SipsServices cfg) : ∃ s g pack, Reached cfg s g ∧ g.target 0 = some t ∧
      s.conv 0 = some (.queued pack) ∧ pack.he ≠ NULL ∧ pack.proto ≠ .PROTO_TLS := by
  obtain ⟨p, -, hu, hproto⟩ := sips_naptr_usable hs
  obtain ⟨x, hx, hxt, hxs⟩ : ∃ x, first_request cfg t.name t.port t.proto t.is_sips = some x ∧
      x.type = .DNS_NAPTR_REQUEST ∧ x.is_sips = true := by
    unfold first_request
    dsimp only
    rw [if_neg (not_not_intro hport), if_neg (not_not_intro hnone), if_neg (not_le.2 hlen)]
    exact ⟨_, rfl, rfl, hsips⟩
  obtain ⟨s₁, g₁, h₁⟩ := at_first hlit hx
  -- the NAPTR record leads to its replacement, and that to an address
  obtain ⟨y, hy⟩ : ∃ y : Request, y = ⟨.DNS_SRV_REQUEST, [chr 'a', 0], some 3, true, none,
    get_naptr_proto cfg (sips_naptr p), none⟩ := ⟨_, rfl⟩
  have hr₁ : react cfg (fun _ => true) (fun _ _ => 0) x []
      (.ARES_SUCCESS ⟨none, none, [.T_NAPTR (sips_naptr p)]⟩) = some ([y], none) := by
    show react_success _ _ _ _ _ _ = _
    unfold react_success
    rw [hxt]
    dsimp only
    rw [if_neg (cons_ne_nil _ _), filter_and_sort_naptr, hxs, if_pos hu, filter_and_sort_naptr,
      naptr_requests, hxs, hy]
    rfl
  obtain ⟨s₂, g₂, h₂⟩ := h₁.goes_on hr₁
  obtain ⟨z, rest, hz, hzt, hr₂⟩ : ∃ z rest, z.proto = get_naptr_proto cfg (sips_naptr p) ∧
      z.type = .DNS_A_REQUEST ∧ react cfg (fun _ => true) (fun _ _ => 0) y []
        (.ARES_SUCCESS ⟨none, none, [.T_SRV ⟨0, 0, 5061, [chr 'a', 0], 3⟩]⟩) = some (z :: rest, none) := by
    obtain ⟨sorted, hsort⟩ :=
      (sort_srvs_apart (fun _ _ => 0) 0 [.T_SRV ⟨0, 0, 5061, [chr 'a', 0], 3⟩]).2 (.singleton _)
    obtain rfl := perm_singleton.1 (sort_srvs_perm hsort)
    have hreact : react cfg (fun _ => true) (fun _ _ => 0) y []
        (.ARES_SUCCESS ⟨none, none, [.T_SRV ⟨0, 0, 5061, [chr 'a', 0], 3⟩]⟩) = some (react_add (fun _ => true)
            (srv_requests cfg y y.proto [⟨0, 0, 5061, [chr 'a', 0], 3⟩]) []) := by
      rw [hy]
      unfold react react_success
      dsimp only
      rw [if_neg (cons_ne_nil _ _), hsort]
      rfl
    rw [hreact, hy]
    unfold srv_requests dns_types
    cases cfg.dns_try_ipv6 <;> exact ⟨_, _, rfl, rfl, rfl⟩
  obtain ⟨s₃, g₃, h₃⟩ := h₂.goes_on hr₂
  have hr₃ : react cfg (fun _ => true) (fun _ _ => 0) z rest
      (.ARES_SUCCESS ⟨some 1, none, []⟩) = some (rest, some 1) := by
    show react_success _ _ _ _ _ _ = _
    unfold react_success
    rw [hzt]
    rfl
  obtain ⟨s₄, g₄, pack, hrun, htarget, hconv, hhe, hp⟩ := h₃.finds hr₃
  exact ⟨s₄, g₄, pack, hrun, htarget, hconv, by rw [hhe]; decide, hp ▸ hz ▸ hproto htls⟩

end Selection

end OpenSips.Resolve
