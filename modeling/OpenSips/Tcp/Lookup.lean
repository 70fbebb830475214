import OpenSips.Tcp.Conns

/-!
# OpenSips.Tcp.Lookup — finding a connection (`search_tcp_conn`)

Every connection is in the bucket of its id and in that of its peer's address and source port, whatever
calls were made.  An alias is looked for in the bucket of its own number, and all connections have the
same id: what is found by them depends on more than that.
-/

namespace OpenSips.Tcp.Conns

open Lib List Option Function

variable {c c' : ConnTable} {r r' : Ref} {conn conn' : TcpConn} {f : TcpConn → TcpConn} {to' : Su}

/-- The connection is in `hash_id_conns`. -/
def InTables (c : ConnTable) (r : Ref) : Prop :=
  ∃ conn l, c.mem.get r = some conn ∧
    c.hash_id_conns.Linked none (c.hash_id_conns.head conn.id_hash) l ∧ r ∈ l

structure Live (c : ConnTable) (r : Ref) (conn : TcpConn) : Prop where
  get : c.mem.get r = some conn
  linked : InTables c r
  state : conn.state ≠ .TERM

/-- The address is that of the peer, with its port or with the alias that was learned. -/
structure Reaches (to' : Su) (conn : TcpConn) : Prop where
  ip : to'.ip = conn.src_ip
  port : to'.port = conn.src_port ∨ conn.port_alias ≠ 0 ∧ to'.port = conn.port_alias

structure LooksUp (c : ConnTable) : Prop where
  by_address : ∀ to' r conn, Live c r conn → Reaches to' conn → ∃ r' conn',
    find_tcp_conn c 0 to' = some (some r') ∧ Live c r' conn' ∧ Reaches to' conn'
  by_id : ∀ to' r conn, Live c r conn → Reaches to' conn → find_tcp_conn c conn.id to' = some (some r)
  distinct : ∀ r r' conn conn', Live c r conn → Live c r' conn' → conn.id = conn'.id → r = r'

/-- Only connections that are in the tables are taken out, and the reference of the tables is not
released otherwise. -/
def Op.Client (c : ConnTable) : Op → Prop
  | .remove r _ => InTables c r
  | .unref r => InTables c r → ∃ conn, c.mem.get r = some conn ∧ conn.ref ≠ 1
  | _ => True

variable (tcp_max_connections : ℤ)

/-- The call leaves a new connection in the tables. -/
def Op.Creates (c : ConnTable) : Op → Prop
  | .accept _ _ ok =>
    ok.init_tcp_socket ∧ c.tcp_connections_no < tcp_max_connections ∧ ok.shm_malloc ∧ ok.lock_init
  | .connect _ _ ok result =>
    ok.init_tcp_socket ∧ ok.bind ∧ c.tcp_connections_no < tcp_max_connections ∧ ok.shm_malloc ∧
      ok.lock_init ∧ result ≠ .fails
  | _ => False

/-- One live connection at a time, and no alias in another bucket than the source port. -/
def Op.Spread (c : ConnTable) (op : Op) : Prop :=
  (op.Creates tcp_max_connections c → ∀ r conn, ¬ Live c r conn) ∧
    ∀ r port, op = .port_alias r port → ∀ conn, Live c r conn →
      port = 0 ∨ tcp_hash (addr32 conn.src_ip) port.toUInt32 = conn.ip_hash

/-- The states that `allowed` calls reach. -/
def Runs (rand : UInt32) (allowed : ConnTable → Op → Prop) (c : ConnTable) : Prop :=
  Run (exec tcp_max_connections) (fun c _ op => allowed c op) (fun _ _ _ _ => ())
    (init_tcp_conns rand, ()) c ()

variable {tcp_max_connections} {L M : ℕ → List Ref}

structure Hashed (c : ConnTable) (L M : ℕ → List Ref) : Prop where
  valid : c.mem.Valid
  ids : c.hash_id_conns.Holds L
  ips : c.hash_ip_conns.Holds M
  id_key : ∀ k r, r ∈ L k → ∃ conn, c.mem.get r = some conn ∧ k = conn.id_hash
  ip_key : ∀ k r, r ∈ M k → ∃ conn, c.mem.get r = some conn ∧ k = conn.ip_hash
  same : ∀ r, (∃ k, r ∈ L k) ↔ ∃ k, r ∈ M k
  id : ∀ r conn, c.mem.get r = some conn → conn.id = c.last_tcp_id

theorem Hashed.inTables (h : Hashed c L M) : InTables c r ↔ ∃ k, r ∈ L k := by
  constructor
  · rintro ⟨conn, l, _, hl, hr⟩
    rw [hl.unique (h.ids.linked _)] at hr
    exact ⟨_, hr⟩
  · rintro ⟨k, hr⟩
    obtain ⟨conn, hget, rfl⟩ := h.id_key k r hr
    exact ⟨conn, _, hget, h.ids.linked _, hr⟩

theorem ip_addr_cmp_iff {a b : IpAddr} : ip_addr_cmp a b = true ↔ a = b := by
  cases a with
  | AF_INET a =>
    cases b with
    | AF_INET b => simp [ip_addr_cmp, funext_iff]
    | AF_INET6 b => simp [ip_addr_cmp]
  | AF_INET6 a =>
    cases b with
    | AF_INET b => simp [ip_addr_cmp]
    | AF_INET6 b => simp [ip_addr_cmp, funext_iff]

section Searches

theorem length_lt_steps {l : List Ref} (hv : c.mem.Valid) (hnd : l.Nodup)
    (hl : ∀ r ∈ l, ∃ conn, c.mem.get r = some conn) : l.length < steps c := by
  have hsub : l ⊆ List.range c.mem.fresh := fun r hr => by
    obtain ⟨conn, hget⟩ := hl r hr
    exact mem_range.2 (hv r conn hget)
  have hle := (subperm_of_subset hnd hsub).length_le
  rw [length_range] at hle
  exact Nat.lt_succ_of_le hle

/-- What the second loop of `search_tcp_conn` looks for. -/
def wanted (c : ConnTable) (to' : Su) (r : Ref) : Bool :=
  (c.mem.get r).any fun conn =>
    conn.state != .TERM && ip_addr_cmp to'.ip conn.src_ip && port_match conn to'.port

theorem Hashed.search_ip_eq (h : Hashed c L M) (to' : Su) :
    search_ip c to' = some ((M (tcp_hash (addr32 to'.ip) to'.port.toUInt32)).find? (wanted c to')) := by
  have hlive : ∀ k, ∀ r ∈ M k, ∃ conn, c.mem.get r = some conn := fun k r hr => by
    obtain ⟨conn, hget, _⟩ := h.ip_key k r hr
    exact ⟨conn, hget⟩
  refine (h.ips.linked _).find (fun r hr => ?_) (length_lt_steps h.valid (h.ips.nodup _) (hlive _))
  obtain ⟨conn, hget⟩ := hlive _ r hr
  rw [wanted, hget]
  rfl

theorem find_zero (c : ConnTable) (to' : Su) : find_tcp_conn c 0 to' = search_ip c to' := by
  unfold find_tcp_conn
  rw [if_neg (fun hne => hne rfl)]
  rfl

/-- **A connection in the bucket that is searched is found**, or another one that fits. -/
theorem Hashed.find_address (h : Hashed c L M) (hlive : Live c r conn) (hto : Reaches to' conn)
    (hbucket : tcp_hash (addr32 to'.ip) to'.port.toUInt32 = conn.ip_hash) :
    ∃ r' conn', search_ip c to' = some (some r') ∧ Live c r' conn' ∧ to'.ip = conn'.src_ip ∧
      (to'.port = conn'.src_port ∨ to'.port = conn'.port_alias) := by
  obtain ⟨k, hk⟩ := (h.same r).1 (h.inTables.1 hlive.linked)
  obtain ⟨conn₁, hget₁, hk₁⟩ := h.ip_key k r hk
  obtain rfl := some_inj.1 (hget₁.symm.trans hlive.get)
  rw [← hbucket] at hk₁
  subst hk₁
  have hmatch : port_match conn₁ to'.port = true := by
    rw [port_match, Bool.or_eq_true, beq_iff_eq, beq_iff_eq]
    exact hto.port.imp_right And.right
  have hwanted : wanted c to' r = true := by
    rw [wanted, hget₁, any_some, ip_addr_cmp_iff.2 hto.ip, hmatch, Bool.and_true, Bool.and_true]
    exact bne_iff_ne.2 hlive.state
  cases hfind : (M (tcp_hash (addr32 to'.ip) to'.port.toUInt32)).find? (wanted c to') with
  | none => exact absurd hwanted (find?_eq_none.1 hfind r hk)
  | some r' =>
    have hmem := mem_of_find?_eq_some hfind
    have hw := find?_some hfind
    obtain ⟨conn', hget', _⟩ := h.ip_key _ r' hmem
    rw [wanted, hget', any_some, Bool.and_eq_true, Bool.and_eq_true, bne_iff_ne,
      ip_addr_cmp_iff, port_match, Bool.or_eq_true, beq_iff_eq, beq_iff_eq] at hw
    refine ⟨r', conn', ?_, ⟨hget', h.inTables.2 ((h.same r').2 ⟨_, hmem⟩), hw.1.1⟩, hw.1.2, hw.2⟩
    rw [h.search_ip_eq, hfind]

theorem Hashed.find_front (h : Hashed c L M) {l : List Ref} (hid : conn.id ≠ 0) (hlive : Live c r conn)
    (hto : Reaches to' conn) (hfront : L conn.id_hash = r :: l) :
    find_tcp_conn c conn.id to' = some (some r) := by
  have hget : ∀ r' ∈ r :: l, ∃ conn', c.mem.get r' = some conn' := fun r' hr' => by
    obtain ⟨conn', hget', _⟩ := h.id_key _ r' (hfront ▸ hr')
    exact ⟨conn', hget'⟩
  have hlinked := h.ids.linked conn.id_hash
  have hnd := h.ids.nodup conn.id_hash
  rw [hfront] at hlinked hnd
  have hfind : c.hash_id_conns.find (fun r => (c.mem.get r).map fun x => x.id == conn.id) (steps c)
      (c.hash_id_conns.head conn.id_hash) = some (some r) := by
    rw [hlinked.find (q := fun r => (c.mem.get r).any fun x => x.id == conn.id) (fun r' hr' => ?_)
      (length_lt_steps h.valid hnd hget)]
    · rw [find?_cons_of_pos]
      rw [hlive.get, any_some, beq_self_eq_true]
    · obtain ⟨conn', hget'⟩ := hget r' hr'
      rw [hget']
      rfl
  have hmatch : port_match conn to'.port = true := by
    rw [port_match, Bool.or_eq_true, beq_iff_eq, beq_iff_eq]
    exact hto.port.imp_right And.right
  have hsearch : search_id c conn.id to' = some (some r) := by
    unfold search_id
    rw [show tcp_hash conn.id 0 = conn.id_hash from rfl, hfind]
    simp only [bind_eq_bind, bind_some, hlive.get, if_neg hlive.state,
      ip_addr_cmp_iff.2 hto.ip, hmatch, Bool.and_true, if_true]
  unfold find_tcp_conn
  rw [if_pos hid, hsearch]
  rfl

end Searches

section Changes

theorem update_get (hu : update c r f = some c') : ∃ conn, c.mem.get r = some conn ∧
    c'.mem.get r = some (f conn) ∧ (∀ i, i ≠ r → c'.mem.get i = c.mem.get i) ∧
    (c.mem.Valid → c'.mem.Valid) ∧ c'.hash_id_conns = c.hash_id_conns ∧
    c'.hash_ip_conns = c.hash_ip_conns ∧ c'.last_tcp_id = c.last_tcp_id := by
  obtain ⟨conn, mem, hget, hset, rfl⟩ := update_eq_some hu
  obtain ⟨mem', hset', hframe, hself, hother, _⟩ := Objects.set_spec hget (f conn)
  obtain rfl := some_inj.1 (hset'.symm.trans hset)
  exact ⟨conn, hget, hself, hother, hframe.valid, rfl, rfl, rfl⟩

theorem Hashed.update (h : Hashed c L M) (hu : update c r f = some c')
    (hf : ∀ x, (f x).id = x.id ∧ (f x).src_ip = x.src_ip ∧ (f x).src_port = x.src_port) :
    Hashed c' L M := by
  obtain ⟨conn, hget, hself, hother, hvalid, hids, hips, hlast⟩ := update_get hu
  have hold : ∀ i x, c.mem.get i = some x → ∃ y, c'.mem.get i = some y ∧ y.id = x.id ∧
      y.src_ip = x.src_ip ∧ y.src_port = x.src_port := by
    intro i x hx
    by_cases hi : i = r
    · subst hi
      obtain rfl := some_inj.1 (hx.symm.trans hget)
      exact ⟨_, hself, hf x⟩
    · exact ⟨x, (hother i hi).trans hx, rfl, rfl, rfl⟩
  refine ⟨hvalid h.valid, hids ▸ h.ids, hips ▸ h.ips, fun k i hi => ?_, fun k i hi => ?_, h.same,
    fun i x hx => ?_⟩
  · obtain ⟨x, hx, rfl⟩ := h.id_key k i hi
    obtain ⟨y, hy, h1, _⟩ := hold i x hx
    exact ⟨y, hy, by rw [TcpConn.id_hash, TcpConn.id_hash, h1]⟩
  · obtain ⟨x, hx, rfl⟩ := h.ip_key k i hi
    obtain ⟨y, hy, _, h2, h3⟩ := hold i x hx
    exact ⟨y, hy, by rw [TcpConn.ip_hash, TcpConn.ip_hash, h2, h3]⟩
  · rw [hlast]
    by_cases hi : i = r
    · subst hi
      obtain rfl := some_inj.1 (hself.symm.trans hx)
      rw [(hf conn).1]
      exact h.id i conn hget
    · exact h.id i x ((hother i hi).symm.trans hx)

theorem Hashed.not_fresh (h : Hashed c L M) (k : ℕ) : c.mem.fresh ∉ L k ∧ c.mem.fresh ∉ M k := by
  constructor
  · intro hin
    obtain ⟨x, hx, _⟩ := h.id_key k _ hin
    exact lt_irrefl _ (h.valid _ x hx)
  · intro hin
    obtain ⟨x, hx, _⟩ := h.ip_key k _ hin
    exact lt_irrefl _ (h.valid _ x hx)

theorem mem_update_cons {x : Ref} {k k' : ℕ} :
    r ∈ Function.update L k (x :: L k) k' ↔ r = x ∧ k' = k ∨ r ∈ L k' := by
  by_cases hk : k' = k
  · subst hk
    rw [update_self, mem_cons]
    simp
  · rw [update_of_ne hk]
    simp [hk]

theorem mem_update_erase {t : Buckets ℕ Ref} {x : Ref} {k k' : ℕ} (h : t.Holds L) (hx : x ∈ L k) :
    r ∈ Function.update L k ((L k).erase x) k' ↔ r ≠ x ∧ r ∈ L k' := by
  by_cases hk : k' = k
  · subst hk
    rw [update_self]
    exact (h.nodup k').mem_erase_iff
  · rw [update_of_ne hk]
    refine ⟨fun hr => ⟨?_, hr⟩, And.right⟩
    rintro rfl
    exact hk (h.apart k' k r hr hx)

theorem Hashed.link (h : Hashed c L M) (hid : conn.id = c.last_tcp_id) :
    Hashed (link c conn) (Function.update L conn.id_hash (c.mem.fresh :: L conn.id_hash))
      (Function.update M conn.ip_hash (c.mem.fresh :: M conn.ip_hash)) := by
  have hget : ∀ i x, c.mem.get i = some x → (c.mem.alloc conn).get i = some x := fun i x hx =>
    (Objects.get_alloc (h.valid.ne_fresh hx)).trans hx
  refine ⟨(Objects.frame_alloc [] c.mem conn).valid h.valid, h.ids.push fun k => (h.not_fresh k).1,
    h.ips.push fun k => (h.not_fresh k).2, fun k i hi => ?_, fun k i hi => ?_, fun i => ?_,
    fun i x hx => ?_⟩
  · rcases mem_update_cons.1 hi with ⟨rfl, rfl⟩ | hi
    · exact ⟨conn, Objects.get_alloc_self, rfl⟩
    · obtain ⟨x, hx, hk⟩ := h.id_key k i hi
      exact ⟨x, hget i x hx, hk⟩
  · rcases mem_update_cons.1 hi with ⟨rfl, rfl⟩ | hi
    · exact ⟨conn, Objects.get_alloc_self, rfl⟩
    · obtain ⟨x, hx, hk⟩ := h.ip_key k i hi
      exact ⟨x, hget i x hx, hk⟩
  · simp only [mem_update_cons, exists_or, h.same i]
    simp
  · by_cases hi : i = c.mem.fresh
    · rw [hi] at hx
      have hx' : (c.mem.alloc conn).get c.mem.fresh = some x := hx
      rw [Objects.get_alloc_self] at hx'
      rw [← some_inj.1 hx']
      exact hid
    · exact h.id i x ((Objects.get_alloc hi).symm.trans hx)

theorem Hashed.unlink (h : Hashed c L M) (hget : c.mem.get r = some conn) (hin : InTables c r) :
    Hashed (unlink c r conn) (Function.update L conn.id_hash ((L conn.id_hash).erase r))
      (Function.update M conn.ip_hash ((M conn.ip_hash).erase r)) := by
  obtain ⟨k, hk⟩ := h.inTables.1 hin
  obtain ⟨k', hk'⟩ := (h.same r).1 ⟨k, hk⟩
  obtain ⟨x, hx, rfl⟩ := h.id_key k r hk
  obtain ⟨y, hy, rfl⟩ := h.ip_key k' r hk'
  obtain rfl := some_inj.1 (hx.symm.trans hget)
  obtain rfl := some_inj.1 (hy.symm.trans hget)
  refine ⟨h.valid, h.ids.unlink hk, h.ips.unlink hk', fun k i hi => ?_, fun k i hi => ?_, fun i => ?_, h.id⟩
  · exact h.id_key k i ((mem_update_erase h.ids hk).1 hi).2
  · exact h.ip_key k i ((mem_update_erase h.ips hk').1 hi).2
  · simp only [mem_update_erase h.ids hk, mem_update_erase h.ips hk', exists_and_left, h.same i]

theorem Hashed.free (h : Hashed c L M) (hout : ∀ k, r ∉ L k) (hfree : free_tcp_conn c r = some c') :
    Hashed c' L M ∧ ∀ i, i ≠ r → c'.mem.get i = c.mem.get i := by
  obtain ⟨conn, mem, hget, hmem, rfl⟩ := free_eq_some hfree
  obtain ⟨mem', hmem', hframe, hself, hother, _⟩ := Objects.free_spec hget
  obtain rfl := some_inj.1 (hmem'.symm.trans hmem)
  have hout' : ∀ k, r ∉ M k := fun k hin => by
    obtain ⟨k', hk'⟩ := (h.same r).2 ⟨k, hin⟩
    exact hout k' hk'
  refine ⟨⟨hframe.valid h.valid, h.ids, h.ips, fun k i hi => ?_, fun k i hi => ?_, h.same,
    fun i x hx => ?_⟩, hother⟩
  · obtain ⟨x, hx, hk⟩ := h.id_key k i hi
    exact ⟨x, (hother i fun heq => hout k (heq ▸ hi)).trans hx, hk⟩
  · obtain ⟨x, hx, hk⟩ := h.ip_key k i hi
    exact ⟨x, (hother i fun heq => hout' k (heq ▸ hi)).trans hx, hk⟩
  · by_cases hi : i = r
    · subst hi
      exact absurd (hself.symm.trans hx) (by simp)
    · exact h.id i x ((hother i hi).symm.trans hx)

end Changes

section Single

variable {op : Op} {res : Option Ref}

def Aliased (conn : TcpConn) : Prop :=
  conn.port_alias = 0 ∨ tcp_hash (addr32 conn.src_ip) conn.port_alias.toUInt32 = conn.ip_hash

/-- At most the first connection of a bucket is not terminated, and its alias is in its bucket. -/
structure Single (c : ConnTable) (L : ℕ → List Ref) : Prop where
  front : ∀ k, ∀ i ∈ (L k).tail, ∀ x, c.mem.get i = some x → x.state = .TERM
  aliased : ∀ k, ∀ i ∈ L k, ∀ x, c.mem.get i = some x → x.state ≠ .TERM → Aliased x

theorem Single.congr {L' : ℕ → List Ref} (h : Single c L) (hL : ∀ k, ∀ i ∈ L' k, i ∈ L k)
    (htail : ∀ k, ∀ i ∈ (L' k).tail, i ∈ (L k).tail)
    (hget : ∀ k, ∀ i ∈ L' k, c'.mem.get i = c.mem.get i) : Single c' L' :=
  ⟨fun k i hi x hx => h.front k i (htail k i hi) x ((hget k i (mem_of_mem_tail hi)).symm.trans hx),
    fun k i hi x hx => h.aliased k i (hL k i hi) x ((hget k i hi).symm.trans hx)⟩

theorem Single.update (h : Single c L) (hu : update c r f = some c')
    (hterm : ∀ x, x.state = .TERM → (f x).state = .TERM)
    (halias : ∀ k x, r ∈ L k → c.mem.get r = some x → x.state ≠ .TERM → Aliased x → Aliased (f x)) :
    Single c' L := by
  obtain ⟨conn, hget, hself, hother, _⟩ := update_get hu
  refine ⟨fun k i hi x hx => ?_, fun k i hi x hx hne => ?_⟩
  · by_cases hir : i = r
    · subst hir
      rw [← some_inj.1 (hself.symm.trans hx)]
      exact hterm conn (h.front k i hi conn hget)
    · exact h.front k i hi x ((hother i hir).symm.trans hx)
  · by_cases hir : i = r
    · subst hir
      obtain rfl := some_inj.1 (hself.symm.trans hx)
      have hne' : conn.state ≠ .TERM := fun heq => hne (hterm conn heq)
      exact halias k conn hi hget hne' (h.aliased k i hi conn hget hne')
    · exact h.aliased k i hi x ((hother i hir).symm.trans hx) hne

theorem Hashed.single_link (hh : Hashed c L M) (hlive : ∀ i x, ¬ Live c i x) (hconn : conn.port_alias = 0) :
    Single (Conns.link c conn) (Function.update L conn.id_hash (c.mem.fresh :: L conn.id_hash)) := by
  have hget : ∀ k, ∀ i ∈ L k, ∀ x, (c.mem.alloc conn).get i = some x → c.mem.get i = some x := by
    intro k i hi x hx
    obtain ⟨y, hy, _⟩ := hh.id_key k i hi
    exact (Objects.get_alloc (hh.valid.ne_fresh hy)).symm.trans hx
  have hterm : ∀ k, ∀ i ∈ L k, ∀ x, (c.mem.alloc conn).get i = some x → x.state = .TERM := by
    intro k i hi x hx
    by_contra hne
    exact hlive i x ⟨hget k i hi x hx, hh.inTables.2 ⟨k, hi⟩, hne⟩
  refine ⟨fun k i hi x hx => ?_, fun k i hi x hx hne => ?_⟩
  · by_cases hk : k = conn.id_hash
    · subst hk
      rw [update_self, tail_cons] at hi
      exact hterm _ i hi x hx
    · rw [update_of_ne hk] at hi
      exact hterm _ i (mem_of_mem_tail hi) x hx
  · rcases mem_update_cons.1 hi with ⟨rfl, _⟩ | hi
    · have hx' : (c.mem.alloc conn).get c.mem.fresh = some x := hx
      rw [Objects.get_alloc_self] at hx'
      rw [← some_inj.1 hx']
      exact .inl hconn
    · exact absurd (hterm k i hi x hx) hne

theorem mem_tail_of_erase {l : List Ref} {i : Ref} (h : i ∈ (l.erase r).tail) : i ∈ l.tail := by
  cases l with
  | nil => exact h
  | cons x l =>
    by_cases hx : x = r
    · subst hx
      rw [erase_cons_head] at h
      exact mem_of_mem_tail h
    · rw [erase_cons_tail (by simpa using hx), tail_cons] at h
      exact mem_of_mem_erase h

theorem Single.unlink (h : Single c L) (k : ℕ) :
    Single (Conns.unlink c r conn) (Function.update L k ((L k).erase r)) := by
  refine h.congr (fun k' i hi => ?_) (fun k' i hi => ?_) fun _ _ _ => rfl
  · by_cases hk : k' = k
    · subst hk
      rw [update_self] at hi
      exact mem_of_mem_erase hi
    · rwa [update_of_ne hk] at hi
  · by_cases hk : k' = k
    · subst hk
      rw [update_self] at hi
      exact mem_tail_of_erase hi
    · rwa [update_of_ne hk] at hi

def Ordered (c : ConnTable) : Prop := ∃ L M, Hashed c L M ∧ Single c L

theorem Ordered.update (h : Ordered c) (hu : Conns.update c r f = some c')
    (hf : ∀ x, (f x).id = x.id ∧ (f x).src_ip = x.src_ip ∧ (f x).src_port = x.src_port)
    (hterm : ∀ x, x.state = .TERM → (f x).state = .TERM)
    (halias : ∀ x, Live c r x → Aliased x → Aliased (f x)) : Ordered c' := by
  obtain ⟨L, M, hh, hs⟩ := h
  exact ⟨L, M, hh.update hu hf, hs.update hu hterm fun k x hin hget hne =>
    halias x ⟨hget, hh.inTables.2 ⟨k, hin⟩, hne⟩⟩

variable {n : ℤ}

theorem Ordered.ref (h : Ordered c)
    (hu : Conns.update c r (fun x => { x with ref := x.ref + n }) = some c') : Ordered c' :=
  h.update hu (fun _ => ⟨rfl, rfl, rfl⟩) (fun _ hx => hx) fun _ _ hx => hx

theorem Ordered.remove {extra_ref : ℤ} (h : Ordered c) (hin : InTables c r)
    (hrm : remove_tcp_conn c r extra_ref = some c') : Ordered c' := by
  obtain ⟨L, M, hh, hs⟩ := h
  obtain ⟨conn, hget, hrm₁⟩ := bind_eq_some_iff.1 hrm
  obtain ⟨c₁, hu, hend⟩ := bind_eq_some_iff.1 hrm₁
  obtain ⟨k, hk⟩ := hh.inTables.1 hin
  obtain ⟨x, hx, rfl⟩ := hh.id_key k r hk
  obtain rfl := some_inj.1 (hx.symm.trans hget)
  have hh₁ := (hh.unlink hget hin).update hu fun _ => ⟨rfl, rfl, rfl⟩
  have hs₁ := (hs.unlink x.id_hash).update hu (fun _ hx => hx) fun _ _ _ _ _ hx => hx
  rcases free_if_unused_eq_some hend with rfl | hfree
  · exact ⟨_, _, hh₁, hs₁⟩
  · have hout : ∀ k', r ∉ Function.update L x.id_hash ((L x.id_hash).erase r) k' :=
      fun k' hr => ((mem_update_erase hh.ids hk).1 hr).1 rfl
    obtain ⟨hh₂, hother⟩ := hh₁.free hout hfree
    exact ⟨_, _, hh₂, hs₁.congr (fun _ _ hi => hi) (fun _ _ hi => hi)
      fun k' i hi => hother i fun heq => hout k' (heq ▸ hi)⟩

theorem Ordered.unref (h : Ordered c) (hclient : (Op.unref r).Client c)
    (hu : unref_tcp_conn c r = some c') : Ordered c' := by
  obtain ⟨c₁, hu, hfree⟩ := bind_eq_some_iff.1 hu
  obtain ⟨L, M, hh, hs⟩ := h
  have hh₁ := hh.update hu fun _ => ⟨rfl, rfl, rfl⟩
  have hs₁ := hs.update hu (fun _ hx => hx) fun _ _ _ _ _ hx => hx
  obtain ⟨conn, hget, hself, _⟩ := update_get hu
  obtain ⟨conn₁, hget₁, hfree⟩ := bind_eq_some_iff.1 hfree
  obtain rfl := some_inj.1 (hself.symm.trans hget₁)
  by_cases href : conn.ref - 1 = 0
  · have hout : ∀ k, r ∉ L k := fun k hin => by
      obtain ⟨x, hx, hne⟩ := hclient (hh.inTables.2 ⟨k, hin⟩)
      obtain rfl := some_inj.1 (hx.symm.trans hget)
      omega
    rw [if_pos href] at hfree
    obtain ⟨hh₂, hother⟩ := hh₁.free hout hfree
    exact ⟨L, M, hh₂, hs₁.congr (fun _ _ hi => hi) (fun _ _ hi => hi)
      fun k i hi => hother i fun heq => hout k (heq ▸ hi)⟩
  · rw [if_neg href] at hfree
    cases hfree
    exact ⟨L, M, hh₁, hs₁⟩

theorem Hashed.scalars {l : List Socket} (h : Hashed c L M) :
    Hashed { c with tcp_connections_no := n, closed := l } L M :=
  ⟨h.valid, h.ids, h.ips, h.id_key, h.ip_key, h.same, h.id⟩

theorem Ordered.scalars {l : List Socket} (h : Ordered c) :
    Ordered { c with tcp_connections_no := n, closed := l } := by
  obtain ⟨L, M, hh, hs⟩ := h
  exact ⟨L, M, hh.scalars, ⟨hs.front, hs.aliased⟩⟩

variable {s : Socket} {ok : Steps}

theorem Ordered.create {state : ConnState} (h : Ordered c)
    (hlive : c.tcp_connections_no < tcp_max_connections → ok.shm_malloc = true → ok.lock_init = true →
      ∀ i x, ¬ Live c i x) : Ordered (create_tcp_conn tcp_max_connections c s to' state ok).1 := by
  by_cases hmade : c.tcp_connections_no < tcp_max_connections ∧ ok.shm_malloc = true ∧ ok.lock_init = true
  · obtain ⟨hlt, hm, hl⟩ := hmade
    rw [create_done hlt hm hl]
    obtain ⟨L, M, hh, _⟩ := h.scalars (n := c.tcp_connections_no + 1) (l := c.closed)
    exact ⟨_, _, hh.link rfl, hh.single_link
      (fun i x hx => hlive hlt hm hl i x ⟨hx.get, hx.linked, hx.state⟩) rfl⟩
  · unfold create_tcp_conn
    by_cases hfull : c.tcp_connections_no ≥ tcp_max_connections
    · rw [if_pos hfull]
      exact h.scalars
    rw [if_neg hfull]
    by_cases hm : ok.shm_malloc = true
    · have hl : ¬ ok.lock_init = true := fun hl => hmade ⟨not_le.1 hfull, hm, hl⟩
      rw [hm, Bool.eq_false_iff.2 hl]
      exact h.scalars
    · rw [Bool.eq_false_iff.2 hm]
      exact h.scalars

theorem update_cons_erase {x : Ref} {k : ℕ} : Function.update (Function.update L k (x :: L k)) k
      ((Function.update L k (x :: L k) k).erase x) = L := by
  rw [update_self, update_idem, erase_cons_head, update_eq_self]

theorem Ordered.connect_fails (h : Ordered c) (hid : conn.id = c.last_tcp_id) (href : conn.ref = 1)
    (hrm : remove_tcp_conn (Conns.link c conn) c.mem.fresh 0 = some c') : Ordered c' := by
  obtain ⟨L, M, hh, hs⟩ := h
  have hh₁ := hh.link hid
  have hget : (Conns.link c conn).mem.get c.mem.fresh = some conn := Objects.get_alloc_self
  have hin : InTables (Conns.link c conn) c.mem.fresh :=
    hh₁.inTables.2 ⟨conn.id_hash, mem_update_cons.2 (.inl ⟨rfl, rfl⟩)⟩
  obtain ⟨x, hx, hrm₁⟩ := bind_eq_some_iff.1 hrm
  obtain rfl := some_inj.1 (hx.symm.trans hget)
  obtain ⟨c₁, hu, hend⟩ := bind_eq_some_iff.1 hrm₁
  have hh₂ := (hh₁.unlink hget hin).update hu fun _ => ⟨rfl, rfl, rfl⟩
  rw [update_cons_erase, update_cons_erase] at hh₂
  obtain ⟨y, hy, hself, hother, _⟩ := update_get hu
  have hs₂ : Single c₁ L := by
    refine hs.congr (fun _ _ hi => hi) (fun _ _ hi => hi) fun k i hi => ?_
    have hne : i ≠ c.mem.fresh := fun heq => (hh.not_fresh k).1 (heq ▸ hi)
    exact (hother i hne).trans (Objects.get_alloc hne)
  rcases free_if_unused_eq_some hend with rfl | hfree
  · exact ⟨L, M, hh₂, hs₂⟩
  · obtain ⟨hh₃, hother'⟩ := hh₂.free (fun k => (hh.not_fresh k).1) hfree
    exact ⟨L, M, hh₃, hs₂.congr (fun _ _ hi => hi) (fun _ _ hi => hi) fun k i hi =>
      hother' i fun heq => (hh.not_fresh k).1 (heq ▸ hi)⟩

theorem Ordered.tcp_accept (h : Ordered c) (hspread : (Op.accept s to' ok).Spread tcp_max_connections c) :
    Ordered (tcp_accept tcp_max_connections c s to' ok).1 := by
  unfold Conns.tcp_accept
  by_cases hi : ok.init_tcp_socket = true
  · rw [hi]
    have hcreate : Ordered (create_tcp_conn tcp_max_connections c s to' .READY ok).1 :=
      h.create fun hlt hm hl => hspread.1 ⟨hi, hlt, hm, hl⟩
    generalize create_tcp_conn tcp_max_connections c s to' .READY ok = made at hcreate ⊢
    obtain ⟨c₁, made⟩ := made
    cases made with
    | none => exact hcreate.scalars
    | some r => exact hcreate
  · rw [Bool.eq_false_iff.2 hi]
    exact h.scalars

theorem Ordered.a_tcp_connect {result : Connected} (h : Ordered c)
    (hspread : (Op.connect s to' ok result).Spread tcp_max_connections c)
    (heq : a_tcp_connect tcp_max_connections c s to' ok result = some (c', res)) : Ordered c' := by
  unfold Conns.a_tcp_connect at heq
  by_cases hib : (!ok.init_tcp_socket || !ok.bind) = true
  · rw [if_pos hib] at heq
    obtain ⟨rfl, _⟩ := Prod.mk.inj (some_inj.1 heq)
    exact h.scalars
  rw [if_neg hib] at heq
  have hib' : ok.init_tcp_socket = true ∧ ok.bind = true := by
    cases hi : ok.init_tcp_socket <;> cases hb : ok.bind <;> simp_all
  by_cases hfails : result = .fails
  · by_cases hmade : c.tcp_connections_no < tcp_max_connections ∧ ok.shm_malloc = true ∧
        ok.lock_init = true
    · obtain ⟨hlt, hm, hl⟩ := hmade
      rw [create_done hlt hm hl, hfails] at heq
      obtain ⟨c₁, hrm, heq⟩ := map_eq_some_iff.1 heq
      obtain ⟨rfl, _⟩ := Prod.mk.inj heq
      have h₁ : Ordered { c with tcp_connections_no := c.tcp_connections_no + 1 } := h.scalars
      exact @Ordered.connect_fails _ _ (new_conn c s to' .WRITING) h₁ rfl rfl hrm
    · have hcreate : Ordered (create_tcp_conn tcp_max_connections c s to' .WRITING ok).1 :=
        h.create fun hlt hm hl => absurd ⟨hlt, hm, hl⟩ hmade
      have hnone : (create_tcp_conn tcp_max_connections c s to' .WRITING ok).2 = none :=
        create_refused hmade
      generalize create_tcp_conn tcp_max_connections c s to' .WRITING ok = made at hcreate heq hnone
      obtain ⟨c₁, made⟩ := made
      obtain rfl : made = none := hnone
      obtain ⟨rfl, _⟩ := Prod.mk.inj (some_inj.1 heq)
      exact hcreate.scalars
  · have hcreate : Ordered (create_tcp_conn tcp_max_connections c s to' .WRITING ok).1 :=
      h.create fun hlt hm hl => hspread.1 ⟨hib'.1, hib'.2, hlt, hm, hl, hfails⟩
    generalize create_tcp_conn tcp_max_connections c s to' .WRITING ok = made at hcreate heq
    obtain ⟨c₁, made⟩ := made
    cases made with
    | none =>
      obtain ⟨rfl, _⟩ := Prod.mk.inj (some_inj.1 heq)
      exact hcreate.scalars
    | some r =>
      simp only [if_neg hfails] at heq
      obtain ⟨rfl, _⟩ := Prod.mk.inj (some_inj.1 heq)
      exact hcreate

/-- **One call.** -/
theorem Ordered.step (h : Ordered c) (hclient : op.Client c) (hspread : op.Spread tcp_max_connections c)
    (heq : exec tcp_max_connections c op = some (c', res)) : Ordered c' := by
  cases op with
  | accept s su ok =>
    obtain rfl := congrArg Prod.fst (some_inj.1 heq)
    exact h.tcp_accept hspread
  | connect s to' ok result => exact h.a_tcp_connect hspread heq
  | port_alias r port =>
    obtain ⟨c₁, hu, heq⟩ := map_eq_some_iff.1 heq
    obtain ⟨rfl, _⟩ := Prod.mk.inj heq
    exact h.update hu (fun _ => ⟨rfl, rfl, rfl⟩) (fun _ hx => hx) fun x hx _ => hspread.2 r port rfl x hx
  | set_state r new_state =>
    obtain ⟨c₁, hu, heq⟩ := map_eq_some_iff.1 heq
    obtain ⟨rfl, _⟩ := Prod.mk.inj heq
    exact h.update hu (fun _ => ⟨rfl, rfl, rfl⟩) (fun _ hx => if_pos hx) fun _ _ hx => hx
  | remove r extra_ref =>
    obtain ⟨c₁, hrm, heq⟩ := map_eq_some_iff.1 heq
    obtain ⟨rfl, _⟩ := Prod.mk.inj heq
    exact h.remove hclient hrm
  | ref r =>
    obtain ⟨c₁, hu, heq⟩ := map_eq_some_iff.1 heq
    obtain ⟨rfl, _⟩ := Prod.mk.inj heq
    exact h.ref hu
  | unref r =>
    obtain ⟨c₁, hu, heq⟩ := map_eq_some_iff.1 heq
    obtain ⟨rfl, _⟩ := Prod.mk.inj heq
    exact h.unref hclient hu
  | search id to' =>
    obtain ⟨found, hfound, heq⟩ := bind_eq_some_iff.1 heq
    cases found with
    | none =>
      obtain ⟨rfl, _⟩ := Prod.mk.inj (some_inj.1 heq)
      exact h
    | some r =>
      obtain ⟨c₁, hu, heq⟩ := map_eq_some_iff.1 heq
      obtain ⟨rfl, _⟩ := Prod.mk.inj heq
      exact h.ref hu

theorem ordered_init (rand : UInt32) : Ordered (init_tcp_conns rand) :=
  ⟨fun _ => [], fun _ => [], ⟨fun _ _ h => (by cases h), Buckets.holds_empty, Buckets.holds_empty,
    fun _ _ h => absurd h not_mem_nil, fun _ _ h => absurd h not_mem_nil, fun _ => Iff.rfl,
    fun _ _ h => (by cases h)⟩,
    ⟨fun _ _ h => absurd h not_mem_nil, fun _ _ h => absurd h not_mem_nil⟩⟩

theorem Live.front (hh : Hashed c L M) (hs : Single c L) (h : Live c r conn) :
    ∃ l, L (tcp_hash c.last_tcp_id 0) = r :: l := by
  obtain ⟨k, hk⟩ := hh.inTables.1 h.linked
  obtain ⟨x, hx, rfl⟩ := hh.id_key k r hk
  rw [TcpConn.id_hash, hh.id r x hx] at hk
  cases hL : L (tcp_hash c.last_tcp_id 0) with
  | nil =>
    rw [hL] at hk
    exact absurd hk not_mem_nil
  | cons y l =>
    rw [hL] at hk
    rcases mem_cons.1 hk with rfl | hk
    · exact ⟨l, rfl⟩
    · refine absurd (hs.front (tcp_hash c.last_tcp_id 0) r ?_ conn h.get) h.state
      rw [hL]
      exact hk

theorem Live.unique (h : Ordered c) (h₁ : Live c r conn) (h₂ : Live c r' conn') : r = r' := by
  obtain ⟨L, M, hh, hs⟩ := h
  obtain ⟨l, hl⟩ := h₁.front hh hs
  obtain ⟨l', hl'⟩ := h₂.front hh hs
  exact (cons.inj (hl.symm.trans hl')).1

theorem Reaches.bucket (h : Reaches to' conn) (ha : Aliased conn) :
    tcp_hash (addr32 to'.ip) to'.port.toUInt32 = conn.ip_hash := by
  rcases h.port with hp | ⟨hne, hp⟩
  · rw [h.ip, hp]
    rfl
  · rw [h.ip, hp]
    exact ha.resolve_left hne

theorem Ordered.looksUp (h : Ordered c) : LooksUp c := by
  have hfind : ∀ to' r conn, Live c r conn → Reaches to' conn → search_ip c to' = some (some r) := by
    intro to' r conn hlive hto
    obtain ⟨L, M, hh, hs⟩ := h
    obtain ⟨k, hk⟩ := hh.inTables.1 hlive.linked
    obtain ⟨r', conn', hsearch, hlive', _⟩ :=
      hh.find_address hlive hto (hto.bucket (hs.aliased k r hk conn hlive.get hlive.state))
    rw [Live.unique ⟨L, M, hh, hs⟩ hlive hlive']
    exact hsearch
  constructor
  · intro to' r conn hlive hto
    exact ⟨r, conn, (find_zero c to').trans (hfind to' r conn hlive hto), hlive, hto⟩
  · intro to' r conn hlive hto
    by_cases hid : conn.id = 0
    · rw [hid, find_zero]
      exact hfind to' r conn hlive hto
    · obtain ⟨L, M, hh, hs⟩ := h
      obtain ⟨l, hl⟩ := hlive.front hh hs
      rw [← hh.id r conn hlive.get] at hl
      exact hh.find_front hid hlive hto hl
  · intro r r' conn conn' hlive hlive' _
    exact Live.unique h hlive hlive'

/-- **Lookups are right in every run with one live connection at a time** whose aliases are in the
buckets of their source ports. -/
theorem connections_found {rand : UInt32} (h : Runs tcp_max_connections rand
    (fun c op => op.Client c ∧ op.Spread tcp_max_connections c) c) : LooksUp c := by
  have hordered : Ordered c := Run.invariant (I := fun c _ => Ordered c) (ordered_init rand)
    (fun _ _ _ _ _ hc hop heq => hc.step hop.1 hop.2 heq) h
  exact hordered.looksUp

theorem Runs.start {rand : UInt32} {allowed : ConnTable → Op → Prop} :
    Runs tcp_max_connections rand allowed (init_tcp_conns rand) := Run.init

theorem Runs.then {rand : UInt32} {allowed : ConnTable → Op → Prop} {res : Option Ref}
    (h : Runs tcp_max_connections rand allowed c) (op : Op) (hop : allowed c op)
    (heq : exec tcp_max_connections c op = some (c', res)) :
    Runs tcp_max_connections rand allowed c' := Run.step h hop heq

theorem live_first {port : UInt16} : Live (tcp_accept 10 (init_tcp_conns 7) s (peer port) all_ok).1 0
      (new_conn { init_tcp_conns 7 with tcp_connections_no := 1 } s (peer port) .READY) :=
  ⟨rfl, ⟨_, [0], rfl, ⟨rfl, rfl, rfl⟩, mem_singleton_self _⟩, ConnState.noConfusion⟩

theorem connections_found_one :
    find_tcp_conn (tcp_accept 10 (init_tcp_conns 7) ⟨5, 0⟩ (peer 40000) all_ok).1 7 (peer 40000) =
      some (some 0) := by
  have hnone : ∀ r conn, ¬ Live (init_tcp_conns 7) r conn := fun _ _ h => (by cases h.get)
  have hrun : Runs 10 7 (fun c op => op.Client c ∧ op.Spread 10 c) _ :=
    Runs.start.then (.accept ⟨5, 0⟩ (peer 40000) all_ok)
      ⟨trivial, fun _ => hnone, fun _ _ _ conn h => absurd h (hnone _ conn)⟩ rfl
  exact (connections_found hrun).by_id (peer 40000) 0 _ live_first ⟨rfl, .inl rfl⟩

/-- A connection from port 40000 is not found by its alias 5060, and two connections have one id. -/
theorem lookups_fail : (∃ c, Runs 10 7 (fun c op => op.Client c) c ∧ ∃ r conn, Live c r conn ∧
      Reaches (peer 5060) conn ∧ find_tcp_conn c 0 (peer 5060) = some none) ∧
    ∃ c, Runs 10 7 (fun c op => op.Client c) c ∧ ∃ r r' conn conn', Live c r conn ∧
      Live c r' conn' ∧ conn.id = conn'.id ∧ r ≠ r' := by
  have hone : Runs 10 7 (fun c op => op.Client c) _ :=
    Runs.start.then (.accept ⟨5, 0⟩ (peer 40000) all_ok) trivial rfl
  constructor
  · refine ⟨_, hone.then (.port_alias 0 5060) trivial rfl, 0, _, ⟨rfl, ⟨_, [0], rfl, ⟨rfl, rfl, rfl⟩,
      mem_singleton_self _⟩, ConnState.noConfusion⟩, ⟨rfl, .inr ⟨?_, rfl⟩⟩, rfl⟩
    decide
  · exact ⟨_, hone.then (.accept ⟨6, 0⟩ (peer 40001) all_ok) trivial rfl, 0, 1, _, _,
      ⟨rfl, ⟨_, [1, 0], rfl, ⟨rfl, rfl, rfl, rfl, rfl⟩, mem_cons_of_mem _ (mem_singleton_self _)⟩,
        ConnState.noConfusion⟩,
      ⟨rfl, ⟨_, [1, 0], rfl, ⟨rfl, rfl, rfl, rfl, rfl⟩, mem_cons_self⟩, ConnState.noConfusion⟩,
      rfl, Nat.zero_ne_one⟩

end Single

end OpenSips.Tcp.Conns
