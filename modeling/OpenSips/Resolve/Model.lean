import OpenSips.Lib.Objects
import OpenSips.Resolve.Records

/-!
# OpenSips.Resolve.Model — resolving a target (`core/resolve/sip_resolvehost.c`)

One lookup is a chain of queries to the resolver library, each answered by a call of
`sip_ares_to_dns`, over a list of requests that are still to be tried.  `none` is undefined behaviour:
a request that is not live is used or freed, or memory outside of a request or a record is.  The text
of a name is what was written to its buffer.
-/

namespace OpenSips.Resolve

open Lib

def SIP_PORT : UInt16 := 5060

def SIPS_PORT : UInt16 := 5061

def MAX_DNS_NAME : ℕ := 256

def SRV_UDP_PREFIX : Str := "_sip._udp.".toList.map chr

def SRV_TCP_PREFIX : Str := "_sip._tcp.".toList.map chr

def SRV_SCTP_PREFIX : Str := "_sip._sctp.".toList.map chr

def SRV_TLS_PREFIX : Str := "_sips._tcp.".toList.map chr

def SRV_MAX_PREFIX_LEN : ℕ := SRV_TLS_PREFIX.length

inductive ReqType where
  | DNS_A_REQUEST | DNS_AAAA_REQUEST | DNS_SRV_REQUEST | DNS_NAPTR_REQUEST
  deriving DecidableEq

/-- `dns_request_t`; a field that is not written has no value. -/
structure Request where
  type : ReqType
  name : Str
  name_len : Option ℕ
  is_sips : Bool
  port : Option UInt16
  proto : Proto
  next : Option Ref
  deriving DecidableEq

/-- `sip_pack_t` without the callback and its argument. -/
structure Pack where
  port : Option UInt16
  proto : Proto
  he : Ptr
  requests : Option Ref
  deriving DecidableEq

/-- What the resolver library makes of a reply: the host entry (`NULL` when it could not be copied), or
none when it does not parse, and the records that `parse_record` lists. -/
structure Reply where
  a_reply : Option Ptr
  aaaa_reply : Option Ptr
  records : List Rdata

inductive Answer where
  | ARES_SUCCESS (reply : Reply)
  | ARES_ENODATA
  | ARES_ENOTFOUND
  | other

/-- The queries and the calls of the user's function. -/
inductive Next where
  | search (name : Str) (type : ReqType)
  | submit
  deriving DecidableEq

/-- The default port of a request. -/
def default_port (is_sips : Bool) (proto : Proto) : UInt16 :=
  if is_sips ∨ proto = .PROTO_TLS then SIPS_PORT else SIP_PORT

section Names

/-- The prefix is written in front of a name of length `len`. -/
def prefix_name (req : Request) (len : ℕ) (pre : Str) : Request :=
  { req with
    type := .DNS_SRV_REQUEST
    name := pre ++ req.name.take (len + 1)
    name_len := some (len + pre.length) }

/-- `natpr_2_srv`; no request: it returned -1. -/
def natpr_2_srv (cfg : Config) (req : Request) : Option (Option Request) := do
  let len ← req.name_len
  if MAX_DNS_NAME < len + SRV_MAX_PREFIX_LEN + 1 then some none
  else
    match req.proto with
    | .PROTO_UDP => some (some (prefix_name req len SRV_UDP_PREFIX))
    | .PROTO_TCP => some (if cfg.tcp_disable then none else prefix_name req len SRV_TCP_PREFIX)
    | .PROTO_TLS => some (if cfg.tls_disable then none else prefix_name req len SRV_TLS_PREFIX)
    | .PROTO_SCTP =>
      some (if ¬ cfg.USE_SCTP ∨ cfg.sctp_disable then none else prefix_name req len SRV_SCTP_PREFIX)
    | .PROTO_NONE => some none

/-- The prefix is taken off the name.  When the name is shorter, `name_len` wraps, and the `memmove`
reaches far behind the request. -/
def unprefix_name (req : Request) (pre : Str) : Option Request := do
  let len ← req.name_len
  if len < pre.length then none
  else
    some { req with
      name := (req.name.drop pre.length).take (len - pre.length + 1)
      name_len := some (len - pre.length) }

/-- What `srv_2_a` takes off. -/
def srv_prefix_of (cfg : Config) : Proto → Str
  | .PROTO_UDP => SRV_UDP_PREFIX
  | .PROTO_TCP => SRV_TCP_PREFIX
  | .PROTO_TLS => SRV_TLS_PREFIX
  | .PROTO_SCTP => if cfg.USE_SCTP then SRV_SCTP_PREFIX else []
  | .PROTO_NONE => []

/-- `srv_2_a` -/
def srv_2_a (cfg : Config) (req : Request) : Option Request := do
  let req ← if req.type = .DNS_SRV_REQUEST ∧ srv_prefix_of cfg req.proto ≠ [] then
      unprefix_name req (srv_prefix_of cfg req.proto)
    else some req
  some { req with type := .DNS_A_REQUEST }

end Names

section Requests

/-- The cell behind the last request that was added: `&pack->requests`, or a `next`. -/
abbrev Last := Option Ref

/-- `new->next = *last; *last = new; last = &new->next` -/
def add_request (m : Objects Request) (pack : Pack) (last : Last) (new : Request) :
    Option (Objects Request × Pack × Last) :=
  match last with
  | none =>
    some (m.alloc { new with next := pack.requests }, { pack with requests := some m.fresh }, m.fresh)
  | some r => do
    let x ← m.get r
    let m' ← (m.alloc { new with next := x.next }).set r { x with next := some m.fresh }
    some (m', pack, some m.fresh)

/-- The new requests in front of the others, until one cannot be allocated. -/
def add_requests (shm : ℕ → Bool) : ℕ → Objects Request → Pack → Last → List Request →
    Option (Objects Request × Pack × Bool)
  | _, m, pack, _, [] => some (m, pack, true)
  | n, m, pack, last, new :: rest =>
    if shm n then do
      let (m, pack, last) ← add_request m pack last new
      add_requests shm (n + 1) m pack last rest
    else some (m, pack, false)

def dns_types (cfg : Config) : List ReqType :=
  if cfg.dns_try_ipv6 then [.DNS_A_REQUEST, .DNS_AAAA_REQUEST] else [.DNS_A_REQUEST]

/-- The requests for the services of an SRV reply; `next` is set when they are added. -/
def srv_requests (cfg : Config) (req : Request) (proto : Proto) (l : List SrvRdata) :
    List Request :=
  l.flatMap fun srv => (dns_types cfg).map fun type =>
    ⟨type, srv.name.take srv.name_len, some srv.name_len, req.is_sips, some srv.port, proto, none⟩

/-- The requests for a NAPTR reply; their port is not written. -/
def naptr_requests (cfg : Config) (req : Request) (l : List NaptrRdata) : List Request :=
  l.map fun n => ⟨.DNS_SRV_REQUEST, n.repl.take n.repl_len, some n.repl_len, req.is_sips, none,
    get_naptr_proto cfg n, none⟩

/-- `free_request` -/
def free_request (m : Objects Request) (req : Option Ref) : Option (Objects Request) :=
  match req with
  | some r => m.free r
  | none => some m

/-- `error` and `submit`; the request is freed unless it was reused. -/
def error (m : Objects Request) (pack : Pack) (req : Option Ref) :
    Option (Objects Request × Pack × Next) := do
  some (← free_request m req, { pack with he := NULL }, .submit)

/-- `search_again` -/
def search_again (m : Objects Request) (pack : Pack) (req : Option Ref) :
    Option (Objects Request × Pack × Next) :=
  match pack.requests with
  | none => error m pack req
  | some r => do
    let x ← m.get r
    some (← free_request m req, pack, .search x.name x.type)

end Requests

section Callback

/-- An address lookup in place of one that found nothing; the request is reused. -/
def direct_a (cfg : Config) (m : Objects Request) (pack : Pack) (r : Ref) (req : Request) :
    Option (Objects Request × Pack × Next) := do
  let req ← srv_2_a cfg { req with port := some (default_port req.is_sips req.proto) }
  search_again (← m.set r req) pack none

/-- The host entry of a reply to an address request. -/
def Reply.he (reply : Reply) (type : ReqType) : Option Ptr :=
  if type = .DNS_A_REQUEST then reply.a_reply else reply.aaaa_reply

/-- The reply to the query for `req`. -/
def on_success (cfg : Config) (shm : ℕ → Bool) (rand : ℕ → ℕ → ℕ) (m : Objects Request)
    (pack : Pack) (r : Ref) (req : Request) (reply : Reply) :
    Option (Objects Request × Pack × Next) :=
  let pack := { pack with requests := req.next }
  match req.type with
  | .DNS_A_REQUEST | .DNS_AAAA_REQUEST =>
    match reply.he req.type with
    | none => search_again m pack (some r)
    | some he => do some (← free_request m (some r), { pack with he := he }, .submit)
  | .DNS_SRV_REQUEST =>
    if reply.records = [] then search_again m pack (some r)
    else do
      let head ← sort_srvs rand 0 reply.records
      let (m, pack, ok) ← add_requests shm 0 m pack none (srv_requests cfg req pack.proto head)
      if ok then search_again m pack (some r) else error m pack (some r)
  | .DNS_NAPTR_REQUEST =>
    if reply.records = [] then search_again m pack (some r)
    else do
      let head := filter_and_sort_naptr cfg req.is_sips [] reply.records
      let (m, pack, ok) ← add_requests shm 0 m pack none (naptr_requests cfg req head)
      if ok then search_again m pack (some r) else error m pack (some r)

def set_default_proto (req : Request) : Request :=
  { req with proto := if req.is_sips then .PROTO_TLS else .PROTO_UDP }

/-- Nothing is found for `req`. -/
def on_no_data (cfg : Config) (m : Objects Request) (pack : Pack) (r : Ref) (req : Request) :
    Option (Objects Request × Pack × Next) :=
  match req.type with
  | .DNS_A_REQUEST | .DNS_AAAA_REQUEST =>
    search_again m { pack with requests := req.next } (some r)
  | .DNS_NAPTR_REQUEST => do
    let req := set_default_proto req
    match ← natpr_2_srv cfg req with
    | some req => search_again (← m.set r req) pack none
    | none => direct_a cfg m pack r req
  | .DNS_SRV_REQUEST => direct_a cfg m pack r req

/-- `sip_ares_to_dns` -/
def sip_ares_to_dns (cfg : Config) (shm : ℕ → Bool) (rand : ℕ → ℕ → ℕ) (m : Objects Request)
    (pack : Pack) (answer : Answer) : Option (Objects Request × Pack × Next) := do
  let r ← pack.requests
  let req ← m.get r
  let pack := { pack with port := req.port, proto := req.proto }
  match answer with
  | .ARES_SUCCESS reply => on_success cfg shm rand m pack r req reply
  | .ARES_ENODATA | .ARES_ENOTFOUND => on_no_data cfg m pack r req
  | .other => search_again m { pack with requests := req.next } (some r)

end Callback

section Lookup

/-- What a call of the user or of the library leads to: the user's function is called at once, or a
pack is under way, with a query or with the task that calls the function. -/
inductive Call where
  | callback (port : UInt16) (proto : Proto) (he : Ptr) (requests : Option Ref)
  | pack (pack : Pack) (next : Next)
  deriving DecidableEq

/-- `func(arg, 0, PROTO_NONE, NULL, NULL)` -/
def Call.error : Call := .callback 0 .PROTO_NONE NULL none

/-- `next_he`; `shm` says whether the pack can be allocated. -/
def next_he (shm : Bool) (m : Objects Request) (requests : Option Ref) : Option Call :=
  if ¬ shm then some .error
  else
    match requests with
    | none => some .error
    | some r => do
      let x ← m.get r
      some (.pack ⟨none, .PROTO_NONE, NULL, some r⟩ (.search x.name x.type))

/-- The request of `sip_resolvehost`, or none for an error. -/
def first_request (cfg : Config) (name : Str) (port : UInt16) (proto : Proto) (is_sips : Bool) :
    Option Request :=
  let req : Request := ⟨.DNS_A_REQUEST, [], none, is_sips, some port, proto, none⟩
  let do_a (req : Request) : Option Request :=
    if MAX_DNS_NAME ≤ name.length then none
    else some { req with type := .DNS_A_REQUEST, name := name ++ [0] }
  let do_srv (pre : Str) : Option Request :=
    some { req with
      type := .DNS_SRV_REQUEST
      name := pre ++ name ++ [0]
      name_len := some (pre.length + name.length) }
  if port ≠ 0 then
    do_a (if proto = .PROTO_NONE then
      { req with proto := if is_sips then .PROTO_TLS else .PROTO_UDP } else req)
  else if proto ≠ .PROTO_NONE then
    if is_sips ∧ proto = .PROTO_TLS then none
    else if MAX_DNS_NAME < name.length + SRV_MAX_PREFIX_LEN + 1 then
      do_a { req with port := some (if is_sips then SIPS_PORT else SIP_PORT) }
    else
      match proto with
      | .PROTO_UDP => do_srv SRV_UDP_PREFIX
      | .PROTO_TCP => if cfg.tcp_disable then none else do_srv SRV_TCP_PREFIX
      | .PROTO_TLS => if cfg.tls_disable then none else do_srv SRV_TLS_PREFIX
      | .PROTO_SCTP => if cfg.sctp_disable then none else do_srv SRV_SCTP_PREFIX
      | .PROTO_NONE => none
  else if MAX_DNS_NAME ≤ name.length then none
  else
    some { req with
      type := .DNS_NAPTR_REQUEST, name := name ++ [0], name_len := some name.length }

/-- `sip_resolvehost`; `he` is the entry that `ip_addr2he` makes of a literal address, and `shm` says
whether the request and the pack can be allocated. -/
def sip_resolvehost (cfg : Config) (he : Ptr) (shm : Bool × Bool) (m : Objects Request) (name : Str)
    (port : UInt16) (proto : Proto) (is_sips : Bool) : Option (Objects Request × Call) :=
  if str2ip name ∨ str2ip6 name then
    let proto := if proto = .PROTO_NONE then if is_sips then .PROTO_TLS else .PROTO_UDP else proto
    let port := if port = 0 then default_port is_sips proto else port
    some (m, .callback port proto he none)
  else if ¬ shm.1 then some (m, .error)
  else
    match first_request cfg name port proto is_sips with
    -- the request that was allocated is lost
    | none => some (m, .error)
    | some req => do some (m.alloc req, ← next_he shm.2 (m.alloc req) (some m.fresh))

end Lookup

end OpenSips.Resolve
