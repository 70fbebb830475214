import OpenSips.Tcp.Conns

/-!
# OpenSips.Tcp.Count — how many connections there are

`tcp_connections_no` is the number of structures, and an accepted socket is either held by one of them or
was closed once, as long as no creation fails behind the increment of the counter or for the limit.
-/

namespace OpenSips.Tcp.Conns

open Lib List Option

/-- What the handlers have opened: all sockets, and the accepted ones. -/
structure Opened where
  opened : List Socket
  accepted : List Socket

def Opened.next (_ : ConnTable) (g : Opened) : Op → Option Ref → Opened
  | .accept s _ _, _ => ⟨g.opened ++ [s], g.accepted ++ [s]⟩
  | .connect s _ _ _, _ => ⟨g.opened ++ [s], g.accepted⟩
  | _, _ => g

/-- A socket is new when it is opened. -/
def Opened.New (g : Opened) : Op → Prop
  | .accept s .. | .connect s .. => s ∉ g.opened
  | _ => True

variable (tcp_max_connections : ℤ)

def Op.Fails (c : ConnTable) : Op → Prop
  | .accept _ _ ok =>
    ¬ (ok.init_tcp_socket ∧ c.tcp_connections_no < tcp_max_connections ∧ ok.shm_malloc ∧ ok.lock_init ∧
      ok.submit_task)
  | .connect _ _ ok result =>
    ¬ (ok.init_tcp_socket ∧ ok.bind ∧ c.tcp_connections_no < tcp_max_connections ∧ ok.shm_malloc ∧
      ok.lock_init ∧ result ≠ .fails ∧ (result = .blocks → ok.submit_task))
  | _ => False

/-- No creation fails behind the increment of the counter; no accepted socket is refused for the limit,
or is the descriptor 0. -/
def Op.Sound (c : ConnTable) : Op → Prop
  | .accept s _ ok =>
    ok.init_tcp_socket → c.tcp_connections_no < tcp_max_connections ∧ ok.shm_malloc ∧ ok.lock_init ∧
      ok.submit_task ∧ s.fd ≠ 0
  | .connect _ _ ok result =>
    ok.init_tcp_socket → ok.bind → c.tcp_connections_no < tcp_max_connections → ok.shm_malloc ∧
      ok.lock_init ∧ result ≠ .fails ∧ (result = .blocks → ok.submit_task)
  | _ => True

/-- The runs of calls that are `allowed`, from the start of the module. -/
def Reachable (rand : UInt32) (allowed : ConnTable → Op → Prop) : ConnTable → Opened → Prop :=
  Run (exec tcp_max_connections) (fun c g op => g.New op ∧ allowed c op) Opened.next
    (init_tcp_conns rand, ⟨[], []⟩)

/-- How many structures hold the socket. -/
def holders (c : ConnTable) (s : Socket) : ℕ := c.mem.tally fun conn => conn.socket = s

variable {tcp_max_connections} {c c' : ConnTable} {g : Opened} {r : Ref} {conn : TcpConn} {s : Socket}
  {f : TcpConn → TcpConn}

structure Counted (c : ConnTable) (g : Opened) : Prop where
  valid : c.mem.Valid
  count : c.tcp_connections_no = c.mem.tally fun _ => true
  once : ∀ s ∈ g.accepted, c.closed.count s + holders c s = 1
  fd : ∀ r conn, c.mem.get r = some conn → conn.socket ∈ g.accepted → conn.socket.fd ≠ 0
  held : ∀ r conn, c.mem.get r = some conn → conn.socket ∈ g.opened
  closed : ∀ s ∈ c.closed, s ∈ g.opened
  accepted : ∀ s ∈ g.accepted, s ∈ g.opened

theorem Counted.links (h : Counted c g) {t t' : Buckets ℕ Ref} :
    Counted { c with hash_id_conns := t, hash_ip_conns := t' } g :=
  ⟨h.valid, h.count, h.once, h.fd, h.held, h.closed, h.accepted⟩

theorem Counted.update (h : Counted c g) (hu : update c r f = some c')
    (hf : ∀ conn, (f conn).socket = conn.socket) : Counted c' g ∧ c'.tcp_connections_no = c.tcp_connections_no := by
  obtain ⟨conn, mem, hget, hset, rfl⟩ := update_eq_some hu
  obtain ⟨mem', hset', hframe, hself, hother, _⟩ := Objects.set_spec hget (f conn)
  obtain rfl := some_inj.1 (hset'.symm.trans hset)
  have hlive : ∀ i x, mem'.get i = some x → ∃ y, c.mem.get i = some y ∧ y.socket = x.socket := by
    intro i x hx
    by_cases hi : i = r
    · subst hi
      obtain rfl := some_inj.1 (hself.symm.trans hx)
      exact ⟨conn, hget, (hf conn).symm⟩
    · exact ⟨x, (hother i hi).symm.trans hx, rfl⟩
  refine ⟨⟨hframe.valid h.valid, ?_, fun s hs => ?_, fun i x hx hin => ?_, fun i x hx => ?_, h.closed,
    h.accepted⟩, rfl⟩
  · have htally := Objects.tally_set (p := fun _ => true) h.valid hget hset
    exact h.count.trans (by rw [Nat.add_right_cancel htally])
  · have htally := Objects.tally_set (p := fun conn => conn.socket = s) h.valid hget hset
    rw [hf conn] at htally
    rw [← h.once s hs]
    exact congrArg _ (Nat.add_right_cancel htally)
  · obtain ⟨y, hy, heq⟩ := hlive i x hx
    rw [← heq] at hin ⊢
    exact h.fd i y hy hin
  · obtain ⟨y, hy, heq⟩ := hlive i x hx
    rw [← heq]
    exact h.held i y hy

theorem Counted.free (h : Counted c g) (hfree : free_tcp_conn c r = some c') : Counted c' g := by
  obtain ⟨conn, mem, hget, hmem, rfl⟩ := free_eq_some hfree
  obtain ⟨mem', hmem', hframe, hself, hother, _⟩ := Objects.free_spec hget
  obtain rfl := some_inj.1 (hmem'.symm.trans hmem)
  have hlive : ∀ i x, mem'.get i = some x → c.mem.get i = some x := by
    intro i x hx
    by_cases hi : i = r
    · subst hi
      rw [hself] at hx
      cases hx
    · exact (hother i hi).symm.trans hx
  refine ⟨hframe.valid h.valid, ?_, fun s hs => ?_, fun i x hx => h.fd i x (hlive i x hx),
    fun i x hx => h.held i x (hlive i x hx), fun s hs => ?_, h.accepted⟩
  · have htally := Objects.tally_free (p := fun _ => true) h.valid hget hmem
    have hcount := h.count
    rw [← htally] at hcount
    show c.tcp_connections_no - 1 = _
    rw [hcount]
    simp
  · have htally := Objects.tally_free (p := fun conn => conn.socket = s) h.valid hget hmem
    have honce := h.once s hs
    rw [holders, ← htally] at honce
    show (if conn.socket.fd ≠ 0 then c.closed ++ [conn.socket] else c.closed).count s + _ = 1
    rw [← honce, holders]
    by_cases hsock : conn.socket = s
    · rw [if_pos (h.fd r conn hget (hsock ▸ hs)), count_append, hsock]
      simp
      omega
    · have hcnt : (if conn.socket.fd ≠ 0 then c.closed ++ [conn.socket] else c.closed).count s =
          c.closed.count s := by
        split_ifs
        · rw [count_append, count_singleton]
          simp [hsock]
        · rfl
      rw [hcnt]
      simp [hsock]
  · have hs' : s ∈ c.closed ∨ s = conn.socket := by
      have hs' : s ∈ if conn.socket.fd ≠ 0 then c.closed ++ [conn.socket] else c.closed := hs
      split_ifs at hs'
      · exact (mem_append.1 hs').imp_right mem_singleton.1
      · exact .inl hs'
    rcases hs' with hs' | rfl
    · exact h.closed s hs'
    · exact h.held r conn hget

theorem Counted.free_if_unused (h : Counted c g) (hfree : free_if_unused c r = some c') :
    Counted c' g := by
  rcases free_if_unused_eq_some hfree with rfl | hfree
  · exact h
  · exact h.free hfree

section Creation

variable {o a : List Socket} {to' : Su} {state : ConnState} {ok : Steps}

theorem Counted.fresh (h : Counted c g) (hs : s ∉ g.opened) : c.closed.count s = 0 ∧ holders c s = 0 := by
  refine ⟨count_eq_zero_of_not_mem fun hc => hs (h.closed s hc), ?_⟩
  rw [holders, Objects.tally, countP_eq_zero]
  intro r _ hr
  cases hget : c.mem.get r with
  | none =>
    rw [hget] at hr
    cases hr
  | some conn =>
    rw [hget] at hr
    exact hs (of_decide_eq_true hr ▸ h.held r conn hget)

section

variable (h : Counted c ⟨o, a⟩)
include h

theorem Counted.open (s : Socket) : Counted c ⟨o ++ [s], a⟩ :=
  ⟨h.valid, h.count, h.once, h.fd, fun r x hx => mem_append_left _ (h.held r x hx),
    fun x hx => mem_append_left _ (h.closed x hx), fun x hx => mem_append_left _ (h.accepted x hx)⟩

theorem Counted.close (hs : s ∈ o) (hout : s ∉ a) : Counted (close c s) ⟨o, a⟩ := by
  refine ⟨h.valid, h.count, fun x hx => ?_, h.fd, h.held, fun x hx => ?_, h.accepted⟩
  · have hne : s ≠ x := fun heq => hout (heq ▸ hx)
    show (c.closed ++ [s]).count x + holders c x = 1
    rw [count_append, count_singleton, if_neg (by simpa using hne)]
    exact h.once x hx
  · rcases mem_append.1 hx with hx | hx
    · exact h.closed x hx
    · exact mem_singleton.1 hx ▸ hs

theorem Counted.accept (hs : s ∈ o) (honce : c.closed.count s + holders c s = 1)
    (hfd : holders c s = 0 ∨ s.fd ≠ 0) : Counted c ⟨o, a ++ [s]⟩ := by
  refine ⟨h.valid, h.count, fun x hx => ?_, fun r x hx hin => ?_, h.held, h.closed, fun x hx => ?_⟩
  · rcases mem_append.1 hx with hx | hx
    · exact h.once x hx
    · rwa [mem_singleton.1 hx]
  · rcases mem_append.1 hin with hin | hin
    · exact h.fd r x hx hin
    · rw [mem_singleton.1 hin]
      refine hfd.resolve_left fun hzero => ?_
      rw [holders, Objects.tally, countP_eq_zero] at hzero
      refine hzero r (mem_range.2 (h.valid r x hx)) ?_
      rw [hx]
      simpa using mem_singleton.1 hin
  · rcases mem_append.1 hx with hx | hx
    · exact h.accepted x hx
    · exact mem_singleton.1 hx ▸ hs

theorem Counted.link (hs : conn.socket ∈ o) (hout : conn.socket ∉ a) :
    Counted (link { c with tcp_connections_no := c.tcp_connections_no + 1 } conn) ⟨o, a⟩ := by
  have hget : ∀ i x, (c.mem.alloc conn).get i = some x → x = conn ∨ c.mem.get i = some x := by
    intro i x hx
    by_cases hi : i = c.mem.fresh
    · rw [hi, Objects.get_alloc_self] at hx
      exact .inl (some_inj.1 hx).symm
    · rw [Objects.get_alloc hi] at hx
      exact .inr hx
  refine ⟨(Objects.frame_alloc [] c.mem conn).valid h.valid, ?_, fun x hx => ?_, fun i x hx hin => ?_,
    fun i x hx => ?_, h.closed, h.accepted⟩
  · show c.tcp_connections_no + 1 = ((c.mem.alloc conn).tally _ : ℤ)
    rw [Objects.tally_alloc, h.count]
    rfl
  · have hne : conn.socket ≠ x := fun heq => hout (heq ▸ hx)
    show c.closed.count x + (c.mem.alloc conn).tally _ = 1
    rw [Objects.tally_alloc, decide_eq_false hne]
    exact h.once x hx
  · rcases hget i x hx with rfl | hx
    · exact absurd hin hout
    · exact h.fd i x hx hin
  · rcases hget i x hx with rfl | hx
    · exact hs
    · exact h.held i x hx

end

theorem holders_link : holders (Conns.link c conn) conn.socket = holders c conn.socket + 1 := by
  show (c.mem.alloc conn).tally _ = _
  rw [Objects.tally_alloc, decide_eq_true rfl]
  rfl

end Creation

section Runs

variable {op : Op} {res : Option Ref} {ok : Steps} {to' : Su} {result : Connected}

theorem Counted.tcp_accept (h : Counted c g) (hnew : s ∉ g.opened)
    (hsound : (Op.accept s to' ok).Sound tcp_max_connections c) :
    Counted (tcp_accept tcp_max_connections c s to' ok).1 ⟨g.opened ++ [s], g.accepted ++ [s]⟩ ∧
      ((Op.accept s to' ok).Fails tcp_max_connections c →
        (tcp_accept tcp_max_connections c s to' ok).1.tcp_connections_no = c.tcp_connections_no) := by
  obtain ⟨o, a⟩ := g
  have hmem : s ∈ o ++ [s] := mem_append_right _ (mem_singleton_self s)
  have hout : s ∉ a := fun hin => hnew (h.accepted s hin)
  obtain ⟨hclosed, hholders⟩ := h.fresh hnew
  unfold Conns.tcp_accept
  by_cases hi : ok.init_tcp_socket = true
  · obtain ⟨hlt, hm, hl, hsub, hfd⟩ := hsound hi
    rw [hi, create_done hlt hm hl]
    have hlink := (h.open s).link (show (new_conn c s to' .READY).socket ∈ _ from hmem) hout
    refine ⟨hlink.accept hmem ?_ (.inr hfd), fun hfail => absurd ⟨hi, hlt, hm, hl, hsub⟩ hfail⟩
    have hone : holders (Conns.link { c with tcp_connections_no := c.tcp_connections_no + 1 }
        (new_conn c s to' .READY)) s = holders c s + 1 := holders_link
    show c.closed.count s + holders (Conns.link _ _) s = 1
    rw [hone, hholders, hclosed]
  · rw [Bool.not_eq_true] at hi
    rw [hi]
    refine ⟨((h.open s).close hmem hout).accept hmem ?_ (.inl hholders), fun _ => rfl⟩
    show (c.closed ++ [s]).count s + holders c s = 1
    rw [count_append, hclosed, hholders, count_singleton_self]

theorem Counted.a_tcp_connect (h : Counted c g) (hnew : s ∉ g.opened)
    (hsound : (Op.connect s to' ok result).Sound tcp_max_connections c)
    (heq : a_tcp_connect tcp_max_connections c s to' ok result = some (c', res)) :
    Counted c' ⟨g.opened ++ [s], g.accepted⟩ ∧ ((Op.connect s to' ok result).Fails tcp_max_connections c →
        c'.tcp_connections_no = c.tcp_connections_no) := by
  obtain ⟨o, a⟩ := g
  have hmem : s ∈ o ++ [s] := mem_append_right _ (mem_singleton_self s)
  have hout : s ∉ a := fun hin => hnew (h.accepted s hin)
  unfold Conns.a_tcp_connect at heq
  by_cases hib : ok.init_tcp_socket = true ∧ ok.bind = true
  · obtain ⟨hi, hb⟩ := hib
    rw [hi, hb] at heq
    by_cases hlt : c.tcp_connections_no < tcp_max_connections
    · obtain ⟨hm, hl, hne, hsub⟩ := hsound hi hb hlt
      rw [create_done hlt hm hl] at heq
      simp only [if_neg hne] at heq
      obtain ⟨rfl, _⟩ := Prod.mk.inj (some_inj.1 heq)
      exact ⟨(h.open s).link (show (new_conn c s to' .WRITING).socket ∈ _ from hmem) hout,
        fun hfail => absurd ⟨hi, hb, hlt, hm, hl, hne, hsub⟩ hfail⟩
    · rw [create_full (not_lt.1 hlt)] at heq
      obtain ⟨rfl, _⟩ := Prod.mk.inj (some_inj.1 heq)
      exact ⟨((h.open s).close hmem hout).close hmem hout, fun _ => rfl⟩
  · have hib' : (!ok.init_tcp_socket || !ok.bind) = true := by
      cases hi : ok.init_tcp_socket <;> cases hb : ok.bind <;> simp_all
    rw [if_pos hib'] at heq
    obtain ⟨rfl, _⟩ := Prod.mk.inj (some_inj.1 heq)
    exact ⟨(h.open s).close hmem hout, fun _ => rfl⟩

/-- **One call.** -/
theorem Counted.step (h : Counted c g) (hnew : g.New op) (hsound : op.Sound tcp_max_connections c)
    (heq : exec tcp_max_connections c op = some (c', res)) :
    Counted c' (Opened.next c g op res) ∧
      (op.Fails tcp_max_connections c → c'.tcp_connections_no = c.tcp_connections_no) := by
  cases op with
  | accept s su ok =>
    obtain rfl := congrArg Prod.fst (some_inj.1 heq)
    exact h.tcp_accept hnew hsound
  | connect s to' ok result => exact h.a_tcp_connect hnew hsound heq
  | port_alias r port =>
    obtain ⟨c₁, hc₁, heq⟩ := map_eq_some_iff.1 heq
    obtain ⟨rfl, _⟩ := Prod.mk.inj heq
    exact ⟨(h.update hc₁ fun _ => rfl).1, False.elim⟩
  | set_state r new_state =>
    obtain ⟨c₁, hc₁, heq⟩ := map_eq_some_iff.1 heq
    obtain ⟨rfl, _⟩ := Prod.mk.inj heq
    exact ⟨(h.update hc₁ fun _ => rfl).1, False.elim⟩
  | remove r extra_ref =>
    obtain ⟨c₁, hc₁, heq⟩ := map_eq_some_iff.1 heq
    obtain ⟨rfl, _⟩ := Prod.mk.inj heq
    obtain ⟨conn, hget, hc₁⟩ := bind_eq_some_iff.1 hc₁
    obtain ⟨c₂, hc₂, hc₁⟩ := bind_eq_some_iff.1 hc₁
    exact ⟨(h.links.update hc₂ fun _ => rfl).1.free_if_unused hc₁, False.elim⟩
  | ref r =>
    obtain ⟨c₁, hc₁, heq⟩ := map_eq_some_iff.1 heq
    obtain ⟨rfl, _⟩ := Prod.mk.inj heq
    exact ⟨(h.update hc₁ fun _ => rfl).1, False.elim⟩
  | unref r =>
    obtain ⟨c₁, hc₁, heq⟩ := map_eq_some_iff.1 heq
    obtain ⟨rfl, _⟩ := Prod.mk.inj heq
    obtain ⟨c₂, hc₂, hc₁⟩ := bind_eq_some_iff.1 hc₁
    exact ⟨(h.update hc₂ fun _ => rfl).1.free_if_unused hc₁, False.elim⟩
  | search id to' =>
    obtain ⟨found, hfound, heq⟩ := bind_eq_some_iff.1 heq
    cases found with
    | none =>
      obtain ⟨rfl, _⟩ := Prod.mk.inj (some_inj.1 heq)
      exact ⟨h, False.elim⟩
    | some r =>
      obtain ⟨c₁, hc₁, heq⟩ := map_eq_some_iff.1 heq
      obtain ⟨rfl, _⟩ := Prod.mk.inj heq
      exact ⟨(h.update hc₁ fun _ => rfl).1, False.elim⟩

theorem counted_init (rand : UInt32) : Counted (init_tcp_conns rand) ⟨[], []⟩ :=
  ⟨fun _ _ h => (by cases h), rfl, fun _ h => absurd h not_mem_nil, fun _ _ h => (by cases h),
    fun _ _ h => (by cases h), fun _ h => absurd h not_mem_nil,
    fun _ h => absurd h not_mem_nil⟩

variable {rand : UInt32}

theorem Reachable.counted (h : Reachable tcp_max_connections rand
    (fun c op => op.Sound tcp_max_connections c) c g) : Counted c g :=
  Run.invariant (counted_init rand) (fun _ _ _ _ _ hc hop heq => (hc.step hop.1 hop.2 heq).1) h

/-- **The counter is the number of structures, every accepted socket is held or was closed once, and no
failed attempt is counted**, in every run without the excluded steps. -/
theorem connections_counted {rand : UInt32} (h : Reachable tcp_max_connections rand
    (fun c op => op.Sound tcp_max_connections c) c g) :
    c.tcp_connections_no = c.mem.tally (fun _ => true) ∧
      (∀ s ∈ g.accepted, c.closed.count s + holders c s = 1) ∧
      ∀ op c' res, g.New op → op.Sound tcp_max_connections c →
        exec tcp_max_connections c op = some (c', res) → op.Fails tcp_max_connections c →
        c'.tcp_connections_no = c.tcp_connections_no := by
  have hc := h.counted
  exact ⟨hc.count, hc.once, fun op c' res hnew hsound heq => (hc.step hnew hsound heq).2⟩

theorem Reachable.then {allowed : ConnTable → Op → Prop}
    (h : Reachable tcp_max_connections rand allowed c g) (op : Op) (hnew : g.New op)
    (hop : allowed c op) (heq : exec tcp_max_connections c op = some (c', res)) :
    Reachable tcp_max_connections rand allowed c' (Opened.next c g op res) :=
  Run.step h ⟨hnew, hop⟩ heq

theorem Reachable.start {allowed : ConnTable → Op → Prop} :
    Reachable tcp_max_connections rand allowed (init_tcp_conns rand) ⟨[], []⟩ := Run.init

theorem connections_counted_one :
    (tcp_accept 10 (init_tcp_conns 7) ⟨5, 0⟩ (peer 40000) all_ok).1.tcp_connections_no =
      (tcp_accept 10 (init_tcp_conns 7) ⟨5, 0⟩ (peer 40000) all_ok).1.mem.tally fun _ => true := by
  have hsound : (Op.accept ⟨5, 0⟩ (peer 40000) all_ok).Sound 10 (init_tcp_conns 7) :=
    fun _ => ⟨by decide, rfl, rfl, rfl, by decide⟩
  have hrun : Reachable 10 7 (fun c op => op.Sound 10 c) _ _ :=
    Reachable.start.then (.accept ⟨5, 0⟩ (peer 40000) all_ok) not_mem_nil hsound rfl
  exact (connections_counted hrun).1

/-- A structure that cannot be allocated is counted; a socket that is refused for the limit is closed
twice, and the socket 0 never. -/
theorem counter_leaks : (∃ c g, Reachable 10 7 (fun _ _ => True) c g ∧
      c.tcp_connections_no = 1 ∧ c.mem.tally (fun _ => true) = 0) ∧
    (∃ c g, Reachable 0 7 (fun _ _ => True) c g ∧
      ∃ s ∈ g.accepted, holders c s = 0 ∧ c.closed.count s = 2) ∧
    ∃ c g, Reachable 10 7 (fun _ _ => True) c g ∧
      ∃ s ∈ g.accepted, holders c s = 0 ∧ c.closed.count s = 0 := by
  refine ⟨⟨_, _, Reachable.start.then (.accept ⟨5, 0⟩ (peer 40000) { all_ok with shm_malloc := false })
    not_mem_nil trivial rfl, rfl, rfl⟩, ⟨_, _, Reachable.start.then
    (.accept ⟨5, 0⟩ (peer 40000) all_ok) not_mem_nil trivial rfl, ⟨5, 0⟩,
    mem_singleton_self _, rfl, rfl⟩, _, _, (Reachable.start.then
    (.accept ⟨0, 0⟩ (peer 40000) all_ok) not_mem_nil trivial rfl).then (.remove 0 1) trivial trivial
    rfl, ⟨0, 0⟩, mem_singleton_self _, rfl, rfl⟩

end Runs

end OpenSips.Tcp.Conns
