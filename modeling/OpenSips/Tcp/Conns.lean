import OpenSips.Lib.Buckets
import OpenSips.Lib.Objects
import OpenSips.Net
import OpenSips.Tcp.Model

/-!
# OpenSips.Tcp.Conns — the TCP connections (`net/tcp/conns.c`, `net/tcp/tcp.c`)

All connections with their two hash tables, and what the handlers do to them: the tables are linked
through the connections, so an access to one that was freed is a fault.  A call is one step; what the
connections read and write is not here.
-/

namespace OpenSips.Tcp.Conns

open Lib Option

def TCP_HASH_SIZE : UInt32 := 1024

def tcp_hash (no1 no2 : UInt32) : ℕ := ((no1 + no2) % TCP_HASH_SIZE).toNat

/-- A descriptor, and which of the sockets that had this number it is. -/
structure Socket where
  fd : ℕ
  opening : ℕ
  deriving DecidableEq

/-- A `union sockaddr_union` with an address of one of the two families. -/
structure Su where
  ip : IpAddr
  port : UInt16

/-- `ip->u.addr32[0]`, the bytes of the address being in network order. -/
def addr32 : IpAddr → UInt32
  | .AF_INET addr =>
    (addr 0).toUInt32 + (addr 1).toUInt32 * 256 + (addr 2).toUInt32 * 65536 + (addr 3).toUInt32 * 16777216
  | .AF_INET6 addr16 =>
    (addr16 0 / 256).toUInt32 + (addr16 0 % 256).toUInt32 * 256 + (addr16 1 / 256).toUInt32 * 65536 +
      (addr16 1 % 256).toUInt32 * 16777216

def ip_addr_cmp : IpAddr → IpAddr → Bool
  | .AF_INET a, .AF_INET b => (List.finRange 4).all fun i => a i == b i
  | .AF_INET6 a, .AF_INET6 b => (List.finRange 8).all fun i => a i == b i
  | _, _ => false

/-- A `struct tcp_conn` without its links; of `rcv`, the peer. -/
structure TcpConn where
  id : UInt32
  state : ConnState
  ref : ℤ
  socket : Socket
  src_ip : IpAddr
  src_port : UInt16
  port_alias : UInt16

/-- The connections with the static variables of `conns.c`, and the sockets `close` was called for. -/
structure ConnTable where
  tcp_connections_no : ℤ
  last_tcp_id : UInt32
  mem : Objects TcpConn
  hash_id_conns : Buckets ℕ Ref
  hash_ip_conns : Buckets ℕ Ref
  closed : List Socket

def close (c : ConnTable) (s : Socket) : ConnTable := { c with closed := c.closed ++ [s] }

/-- `last_tcp_id` is what `rand` gives. -/
def init_tcp_conns (rand : UInt32) : ConnTable :=
  { tcp_connections_no := 0, last_tcp_id := rand, mem := .empty, hash_id_conns := .empty,
    hash_ip_conns := .empty, closed := [] }

def TcpConn.id_hash (conn : TcpConn) : ℕ := tcp_hash conn.id 0

def TcpConn.ip_hash (conn : TcpConn) : ℕ := tcp_hash (addr32 conn.src_ip) conn.src_port.toUInt32

structure Steps where
  init_tcp_socket : Bool
  bind : Bool
  shm_malloc : Bool
  lock_init : Bool
  submit_task : Bool

def free_tcp_conn (c : ConnTable) (r : Ref) : Option ConnTable := do
  let conn ← c.mem.get r
  let c := if conn.socket.fd ≠ 0 then close c conn.socket else c
  let mem ← c.mem.free r
  some { c with mem := mem, tcp_connections_no := c.tcp_connections_no - 1 }

/-- A write to a connection. -/
def update (c : ConnTable) (r : Ref) (f : TcpConn → TcpConn) : Option ConnTable := do
  let conn ← c.mem.get r
  let mem ← c.mem.set r (f conn)
  some { c with mem := mem }

/-- `if (conn->ref==0) free_tcp_conn(conn);` -/
def free_if_unused (c : ConnTable) (r : Ref) : Option ConnTable := do
  let conn ← c.mem.get r
  if conn.ref = 0 then free_tcp_conn c r else some c

def unlink (c : ConnTable) (r : Ref) (conn : TcpConn) : ConnTable :=
  { c with
    hash_id_conns := c.hash_id_conns.unlink r conn.id_hash,
    hash_ip_conns := c.hash_ip_conns.unlink r conn.ip_hash }

def remove_tcp_conn (c : ConnTable) (r : Ref) (extra_ref : ℤ) : Option ConnTable := do
  let conn ← c.mem.get r
  let c ← update (unlink c r conn) r fun conn => { conn with ref := conn.ref - extra_ref }
  free_if_unused c r

def unref_tcp_conn (c : ConnTable) (r : Ref) : Option ConnTable := do
  let c ← update c r fun conn => { conn with ref := conn.ref - 1 }
  free_if_unused c r

def ref_tcp_conn (c : ConnTable) (r : Ref) : Option ConnTable :=
  update c r fun conn => { conn with ref := conn.ref + 1 }

/-- A change of `state`; nothing leaves `TCP_CONN_TERM`. -/
def set_conn_state (c : ConnTable) (r : Ref) (new_state : ConnState) : Option ConnTable :=
  update c r fun conn => { conn with state := if conn.state = .TERM then .TERM else new_state }

/-- The update of `port_alias` in `tcp_event_read`. -/
def set_port_alias (c : ConnTable) (r : Ref) (port : UInt16) : Option ConnTable :=
  update c r fun conn => { conn with port_alias := port }

variable (tcp_max_connections : ℤ)

/-- The structure, in both tables. -/
def link (c : ConnTable) (conn : TcpConn) : ConnTable :=
  { c with
    mem := c.mem.alloc conn,
    hash_id_conns := c.hash_id_conns.push c.mem.fresh conn.id_hash,
    hash_ip_conns := c.hash_ip_conns.push c.mem.fresh conn.ip_hash }

/-- The structure that was allocated is freed again when its lock cannot be made. -/
def create_tcp_conn (c : ConnTable) (s : Socket) (src_su : Su) (init_state : ConnState) (ok : Steps) :
    ConnTable × Option Ref :=
  if c.tcp_connections_no ≥ tcp_max_connections then (close c s, none)
  else
    let c := { c with tcp_connections_no := c.tcp_connections_no + 1 }
    if !ok.shm_malloc then (c, none)
    else if !ok.lock_init then (c, none)
    else
      let conn :=
        { id := c.last_tcp_id, state := init_state, ref := 1, socket := s, src_ip := src_su.ip,
          src_port := src_su.port, port_alias := 0 }
      (link c conn, some c.mem.fresh)

/-- `tcp_accept`, from where `accept` has given `s`. -/
def tcp_accept (c : ConnTable) (s : Socket) (su : Su) (ok : Steps) : ConnTable × Option Ref :=
  if !ok.init_tcp_socket then (close c s, none)
  else
    match create_tcp_conn tcp_max_connections c s su .READY ok with
    | (c, none) => (close c s, none)
    | (c, some r) => (c, some r)

inductive Connected where
  | done | blocks | fails
  deriving DecidableEq

/-- `a_tcp_connect`, from where `socket` has given `s` to where the write begins. -/
def a_tcp_connect (c : ConnTable) (s : Socket) (to' : Su) (ok : Steps) (connect : Connected) :
    Option (ConnTable × Option Ref) :=
  if !ok.init_tcp_socket || !ok.bind then some (close c s, none)
  else
    match create_tcp_conn tcp_max_connections c s to' .WRITING ok with
    | (c, none) => some (close c s, none)
    | (c, some r) =>
      if connect = .fails then (remove_tcp_conn c r 0).map fun c => (c, none) else some (c, some r)

def port_match (conn : TcpConn) (port : UInt16) : Bool := port == conn.src_port || port == conn.port_alias

/-- No list is longer than that. -/
def steps (c : ConnTable) : ℕ := c.mem.fresh + 1

/-- The connection the first loop of `search_tcp_conn` ends with, if it is validated. -/
def search_id (c : ConnTable) (id : UInt32) (to' : Su) : Option (Option Ref) := do
  match ← c.hash_id_conns.find (fun r => (c.mem.get r).map fun conn => conn.id == id) (steps c)
      (c.hash_id_conns.head (tcp_hash id 0)) with
  | none => some none
  | some r =>
    let conn ← c.mem.get r
    if conn.state = .TERM then some none
    else if ip_addr_cmp to'.ip conn.src_ip && port_match conn to'.port then some (some r)
    else some none

def search_ip (c : ConnTable) (to' : Su) : Option (Option Ref) :=
  c.hash_ip_conns.find
    (fun r => (c.mem.get r).map fun conn =>
      conn.state != .TERM && ip_addr_cmp to'.ip conn.src_ip && port_match conn to'.port)
    (steps c) (c.hash_ip_conns.head (tcp_hash (addr32 to'.ip) to'.port.toUInt32))

/-- The connection `search_tcp_conn` finds; the outer `none` is a fault. -/
def find_tcp_conn (c : ConnTable) (id : UInt32) (to' : Su) : Option (Option Ref) := do
  match ← if id ≠ 0 then search_id c id to' else some none with
  | some r => some (some r)
  | none => search_ip c to'

/-- `search_tcp_conn`, with the reference it takes. -/
def search_tcp_conn (c : ConnTable) (id : UInt32) (to' : Su) : Option (ConnTable × Option Ref) := do
  match ← find_tcp_conn c id to' with
  | none => some (c, none)
  | some r => (ref_tcp_conn c r).map fun c => (c, some r)

inductive Op where
  | accept (s : Socket) (su : Su) (ok : Steps)
  | connect (s : Socket) (to' : Su) (ok : Steps) (connect : Connected)
  | port_alias (r : Ref) (port : UInt16)
  | set_state (r : Ref) (new_state : ConnState)
  | remove (r : Ref) (extra_ref : ℤ)
  | ref (r : Ref)
  | unref (r : Ref)
  | search (id : UInt32) (to' : Su)

/-- A call, with the connection it returns. -/
def exec (c : ConnTable) : Op → Option (ConnTable × Option Ref)
  | .accept s su ok => some (tcp_accept tcp_max_connections c s su ok)
  | .connect s to' ok connect => a_tcp_connect tcp_max_connections c s to' ok connect
  | .port_alias r port => (set_port_alias c r port).map fun c => (c, none)
  | .set_state r new_state => (set_conn_state c r new_state).map fun c => (c, none)
  | .remove r extra_ref => (remove_tcp_conn c r extra_ref).map fun c => (c, none)
  | .ref r => (ref_tcp_conn c r).map fun c => (c, none)
  | .unref r => (unref_tcp_conn c r).map fun c => (c, none)
  | .search id to' => search_tcp_conn c id to'

def peer (port : UInt16) : Su := ⟨.AF_INET fun i => if i = 0 then 10 else if i = 3 then 1 else 0, port⟩

def all_ok : Steps := ⟨true, true, true, true, true⟩

section Steps

variable {tcp_max_connections : ℤ} {c c' : ConnTable} {r : Ref} {f : TcpConn → TcpConn} {s : Socket}
  {to' : Su} {state : ConnState} {ok : Steps}

theorem update_eq_some (h : update c r f = some c') : ∃ conn mem, c.mem.get r = some conn ∧
    c.mem.set r (f conn) = some mem ∧ c' = { c with mem := mem } := by
  obtain ⟨conn, hget, h⟩ := bind_eq_some_iff.1 h
  obtain ⟨mem, hset, h⟩ := bind_eq_some_iff.1 h
  exact ⟨conn, mem, hget, hset, (some_inj.1 h).symm⟩

theorem free_eq_some (h : free_tcp_conn c r = some c') : ∃ conn mem, c.mem.get r = some conn ∧
    c.mem.free r = some mem ∧
    c' = { c with
      mem := mem, tcp_connections_no := c.tcp_connections_no - 1,
      closed := if conn.socket.fd ≠ 0 then c.closed ++ [conn.socket] else c.closed } := by
  obtain ⟨conn, hget, h⟩ := bind_eq_some_iff.1 h
  by_cases hfd : conn.socket.fd ≠ 0
  · rw [if_pos hfd] at h
    obtain ⟨mem, hfree, h⟩ := bind_eq_some_iff.1 h
    refine ⟨conn, mem, hget, hfree, ?_⟩
    rw [if_pos hfd]
    exact (some_inj.1 h).symm
  · rw [if_neg hfd] at h
    obtain ⟨mem, hfree, h⟩ := bind_eq_some_iff.1 h
    refine ⟨conn, mem, hget, hfree, ?_⟩
    rw [if_neg hfd]
    exact (some_inj.1 h).symm

theorem free_if_unused_eq_some (h : free_if_unused c r = some c') :
    c' = c ∨ free_tcp_conn c r = some c' := by
  obtain ⟨conn, hget, h⟩ := bind_eq_some_iff.1 h
  by_cases href : conn.ref = 0
  · rw [if_pos href] at h
    exact .inr h
  · rw [if_neg href] at h
    exact .inl (some_inj.1 h).symm

/-- The structure of a new connection. -/
def new_conn (c : ConnTable) (s : Socket) (src_su : Su) (init_state : ConnState) : TcpConn :=
  { id := c.last_tcp_id, state := init_state, ref := 1, socket := s, src_ip := src_su.ip,
    src_port := src_su.port, port_alias := 0 }

theorem create_full (h : c.tcp_connections_no ≥ tcp_max_connections) :
    create_tcp_conn tcp_max_connections c s to' state ok = (close c s, none) := if_pos h

theorem create_done (h : c.tcp_connections_no < tcp_max_connections) (hm : ok.shm_malloc = true)
    (hl : ok.lock_init = true) :
    create_tcp_conn tcp_max_connections c s to' state ok =
      (link { c with tcp_connections_no := c.tcp_connections_no + 1 } (new_conn c s to' state),
        some c.mem.fresh) := by
  rw [create_tcp_conn, if_neg (not_le.2 h), hm, hl]
  rfl

theorem create_refused
    (h : ¬ (c.tcp_connections_no < tcp_max_connections ∧ ok.shm_malloc = true ∧ ok.lock_init = true)) :
    (create_tcp_conn tcp_max_connections c s to' state ok).2 = none := by
  unfold create_tcp_conn
  by_cases hfull : c.tcp_connections_no ≥ tcp_max_connections
  · rw [if_pos hfull]
  rw [if_neg hfull]
  by_cases hm : ok.shm_malloc = true
  · have hl : ¬ ok.lock_init = true := fun hl => h ⟨not_le.1 hfull, hm, hl⟩
    rw [hm, Bool.eq_false_iff.2 hl]
    rfl
  · rw [Bool.eq_false_iff.2 hm]
    rfl

end Steps

end OpenSips.Tcp.Conns
