import OpenSips.Tcp.Token

/-!
# OpenSips.Tcp.Order — the order of the bytes sent

The bytes given to the socket are the buffers of the writes in the order in which they obtained, or
were queued behind, the state `WRITING`: whole buffers, then a part of the one being written.
-/

namespace OpenSips.Tcp

open Lib List Option

/-- The buffers one behind the other. -/
def bytes (ws : List Write) : Str := ws.flatMap Write.buf

/-- Where a thread with the right to write is: in the buffer of `cur`, behind `off` bytes. -/
def At (c : Conn) (cur : Write) (off : ℕ) : Pc → Prop
  | .connect_start w => w = cur ∧ off = 0
  | .connect w => w = cur ∧ off = 0 ∧ c.active = cur ∧ c.offset = 0
  | .connect_done | .connect_result | .connect_error _ | .connect_read | .send_resume _
  | .put _ _ => c.active = cur ∧ c.offset = off
  | .send w o _ | .sending w o _ | .blocked w o _ | .failed w o _ => w = cur ∧ o = off
  | .completed w _ | .upload w _ => w = cur ∧ off = cur.buf.length
  | _ => True

/-- `cur` is being written: everything before it is sent, and `off` bytes of it. -/
structure Writing (c : Conn) (T : Multiset Pc) (fin : List Write) (cur : Write) (off : ℕ) :
    Prop where
  order : c.order = fin ++ cur :: c.queue
  le : off ≤ cur.buf.length
  sent : c.sent = bytes fin ++ cur.buf.take off
  threads : ∀ pc ∈ T, At c cur off pc
  reg : ∀ cb, c.reg_out = some cb → c.active = cur ∧ c.offset = off

/-- **The bytes sent follow the order of the writes**, as long as the connection is not
terminated. -/
structure InOrder (c : Conn) (T : Multiset Pc) : Prop where
  ready : c.state = .READY → c.sent = bytes c.order
  writing : c.state = .WRITING → ∃ fin cur off, Writing c T fin cur off

variable {c c' : Conn} {pc : Pc} {a : Answer} {T : Multiset Pc} {new : List Pc} {fin : List Write} {cur : Write}
  {off : ℕ}

theorem at_of_token {c : Conn} {cur : Write} {off : ℕ} (h : token pc = 0) : At c cur off pc := by
  cases pc <;> trivial

/-- The right to write excludes the state `READY` and all others. -/
theorem alone (ht : Tokens c (pc ::ₘ T)) (hp : token pc = 1) : c.state ≠ .READY ∧ (c.state ≠ .TERM →
      (∀ p ∈ T, ∀ (c' : Conn) (cur : Write) (off : ℕ), At c' cur off p) ∧ c.reg_out = none) := by
  refine ⟨fun hs => ?_, fun hs => ?_⟩
  · have := (ht.none hs).1
    rw [weigh_cons] at this
    omega
  · have h1 := ht.one hs
    rw [weigh_cons] at h1
    refine ⟨fun p hm c' cur off => at_of_token ?_, ?_⟩
    · have := le_weigh (f := token) hm
      omega
    · cases hr : c.reg_out with
      | none => rfl
      | some cb =>
        rw [regs, hr, elim_some] at h1
        omega

theorem Writing.rest {T' : Multiset Pc} (h : Writing c T fin cur off) (ho : c'.order = c.order)
    (hq : c'.queue = c.queue) (hs : c'.sent = c.sent) (ha : c'.active = c.active)
    (hf : c'.offset = c.offset) (hr : ∀ cb, c'.reg_out = some cb → c.reg_out = some cb)
    (hT : ∀ p ∈ T', p ∈ T ∨ At c cur off p) : Writing c' T' fin cur off := by
  refine ⟨by rw [ho, hq, h.order], h.le, by rw [hs, h.sent], fun p hp => ?_, fun cb hcb => ?_⟩
  · have hat : At c cur off p := (hT p hp).elim (h.threads p) id
    cases p <;> first | trivial | exact hat | (simp only [At, ha, hf] at hat ⊢; exact hat)
  · rw [ha, hf]
    exact h.reg cb (hr cb hcb)

theorem Writing.keep (h : Writing c (pc ::ₘ T) fin cur off) (ho : c'.order = c.order)
    (hq : c'.queue = c.queue) (hs : c'.sent = c.sent) (ha : c'.active = c.active)
    (hf : c'.offset = c.offset) (hr : c'.reg_out = c.reg_out)
    (hn : ∀ p ∈ new, At c cur off p) : Writing c' (T + (new : Multiset Pc)) fin cur off :=
  h.rest ho hq hs ha hf (fun _ h => hr ▸ h) fun p hp =>
    (Multiset.mem_add.1 hp).imp Multiset.mem_cons_of_mem fun hp => hn p (Multiset.mem_coe.1 hp)

theorem Writing.move (hT : ∀ p ∈ T, ∀ (c : Conn) (cur : Write) (off : ℕ), At c cur off p)
    (hn : ∀ p ∈ new, At c' cur off p) (ho : c'.order = fin ++ cur :: c'.queue)
    (hle : off ≤ cur.buf.length) (hs : c'.sent = bytes fin ++ cur.buf.take off)
    (hr : ∀ cb, c'.reg_out = some cb → c'.active = cur ∧ c'.offset = off) :
    Writing c' (T + (new : Multiset Pc)) fin cur off := by
  refine ⟨ho, hle, hs, fun p hm => ?_, hr⟩
  rcases Multiset.mem_add.1 hm with hm | hm
  · exact hT p hm c' cur off
  · exact hn p (Multiset.mem_coe.1 hm)

theorem bytes_concat (ws : List Write) (w : Write) : bytes (ws ++ [w]) = bytes ws ++ w.buf := by
  rw [bytes, flatMap_append, flatMap_singleton, bytes]

theorem Writing.sent_all (h : Writing c T fin cur cur.buf.length) : c.sent = bytes (fin ++ [cur]) := by
  rw [h.sent, take_length, bytes_concat]

/-- `send` takes the next `n` bytes. -/
theorem Writing.took (h : Writing c T fin cur off) (n : ℕ) :
    c.sent ++ (cur.buf.drop off).take n = bytes fin ++ cur.buf.take (off + n) := by
  rw [h.sent, append_assoc, take_add]

theorem InOrder.turn (h : InOrder c (pc ::ₘ T)) (ht : Tokens c (pc ::ₘ T)) (hd : Does c pc a c' new) :
    InOrder c' (T + (new : Multiset Pc)) := by
  have hpc := Multiset.mem_cons_self pc T
  cases hd with
  | connect_start w =>
    obtain ⟨hrdy, hal⟩ := alone ht rfl
    refine ⟨fun hs => absurd hs hrdy, fun hs => ?_⟩
    obtain ⟨hT, hr⟩ := hal (by rw [hs]; decide)
    obtain ⟨fin, cur, off, hw⟩ := h.writing hs
    obtain ⟨rfl, rfl⟩ := hw.threads _ hpc
    exact ⟨fin, w, 0, .move hT (by simp [At]) hw.order hw.le hw.sent fun cb hcb =>
      absurd (hr.symm.trans hcb) (by simp)⟩
  | connect_block w =>
    obtain ⟨hrdy, hal⟩ := alone ht rfl
    refine ⟨fun hs => absurd hs hrdy, fun hs => ?_⟩
    obtain ⟨hT, -⟩ := hal (by rw [hs]; decide)
    obtain ⟨fin, cur, off, hw⟩ := h.writing hs
    obtain ⟨rfl, rfl, ha, ho⟩ := hw.threads _ hpc
    exact ⟨fin, w, 0, .move hT (by simp) hw.order hw.le hw.sent fun _ _ => ⟨ha, ho⟩⟩
  | connect_ok w =>
    refine ⟨h.ready, fun hs => ?_⟩
    obtain ⟨fin, cur, off, hw⟩ := h.writing hs
    obtain ⟨rfl, rfl, ha, ho⟩ := hw.threads _ hpc
    exact ⟨fin, w, 0, hw.keep rfl rfl rfl rfl rfl rfl (by simp [At, ha, ho])⟩
  | result_block =>
    obtain ⟨hrdy, hal⟩ := alone ht rfl
    refine ⟨fun hs => absurd hs hrdy, fun hs => ?_⟩
    obtain ⟨hT, -⟩ := hal (by rw [hs]; decide)
    obtain ⟨fin, cur, off, hw⟩ := h.writing hs
    exact ⟨fin, cur, off, .move hT (by simp) hw.order hw.le hw.sent fun _ _ => hw.threads _ hpc⟩
  | obtain w hl hs =>
    -- the writes so far are sent
    refine ⟨fun hs => absurd hs (by simp), fun _ => ?_⟩
    obtain ⟨hnone, hq⟩ := ht.none hs
    rw [weigh_cons] at hnone
    have hT : ∀ p ∈ T, ∀ (c : Conn) (cur : Write) (off : ℕ), At c cur off p :=
      fun p hp c cur off => at_of_token (by have := le_weigh (f := token) hp; omega)
    refine ⟨c.order, w, 0, .move hT (by simp [At]) (by rw [hq]) (Nat.zero_le _) ?_ fun cb hcb => ?_⟩
    · rw [take_zero, append_nil]
      exact h.ready hs
    · rw [regs, hcb, elim_some] at hnone
      omega
  | refused w hl hs => exact ⟨h.ready, fun hs' => absurd (hs.symm.trans hs') (by decide)⟩
  | add_ok w =>
    have hst := locked_writing ht rfl
    refine ⟨fun hs => absurd (hst.symm.trans hs) (by decide), fun _ => ?_⟩
    obtain ⟨fin, cur, off, hw⟩ := h.writing hst
    refine ⟨fin, cur, off, ?_, hw.le, hw.sent, ?_, hw.reg⟩
    · show c.order ++ [w] = _
      rw [hw.order, append_assoc, cons_append]
    · intro p hm
      rcases Multiset.mem_add.1 hm with hm | hm
      · have := hw.threads p (Multiset.mem_cons_of_mem hm)
        cases p <;> exact this
      · rw [Multiset.mem_coe, mem_singleton] at hm
        rw [hm]
        trivial
  | sending_part w o n b hn =>
    obtain ⟨hrdy, hal⟩ := alone ht rfl
    refine ⟨fun hs => absurd hs hrdy, fun hs => ?_⟩
    obtain ⟨hT, hr⟩ := hal (by rw [hs]; decide)
    obtain ⟨fin, cur, off, hw⟩ := h.writing hs
    obtain ⟨rfl, rfl⟩ := hw.threads _ hpc
    exact ⟨fin, w, o + n, .move hT (by simp [At]) hw.order (Nat.le_of_lt hn) (hw.took n)
      fun cb hcb => absurd (hr.symm.trans hcb) (by simp)⟩
  | sending_all w o n b hn =>
    obtain ⟨hrdy, hal⟩ := alone ht rfl
    refine ⟨fun hs => absurd hs hrdy, fun hs => ?_⟩
    obtain ⟨hT, hr⟩ := hal (by rw [hs]; decide)
    obtain ⟨fin, cur, off, hw⟩ := h.writing hs
    obtain ⟨rfl, rfl⟩ := hw.threads _ hpc
    exact ⟨fin, w, o + n, .move hT (by simp [At, hn]) hw.order (Nat.le_of_eq hn) (hw.took n)
      fun cb hcb => absurd (hr.symm.trans hcb) (by simp)⟩
  | blocked w o b hl hs =>
    obtain ⟨hrdy, hal⟩ := alone ht rfl
    refine ⟨fun hs => absurd hs hrdy, fun hs => ?_⟩
    obtain ⟨hT, -⟩ := hal (by rw [hs]; decide)
    obtain ⟨fin, cur, off, hw⟩ := h.writing hs
    obtain ⟨rfl, rfl⟩ := hw.threads _ hpc
    exact ⟨fin, w, o, .move hT (by simp [At]) hw.order hw.le hw.sent fun _ _ => ⟨rfl, rfl⟩⟩
  | completed w b hl hs hq =>
    obtain ⟨fin, cur, off, hw⟩ := h.writing hs
    obtain ⟨rfl, rfl⟩ := hw.threads _ hpc
    refine ⟨fun _ => ?_, fun hs => absurd hs (by simp)⟩
    show c.sent = bytes c.order
    rw [hw.sent_all, hw.order, hq]
  | completed_more w b hl hs hq =>
    obtain ⟨fin, cur, off, hw⟩ := h.writing hs
    obtain ⟨rfl, rfl⟩ := hw.threads _ hpc
    exact ⟨h.ready, fun _ => ⟨fin, w, _, hw.keep rfl rfl rfl rfl rfl rfl (by simp [At])⟩⟩
  | upload w old rest b hq =>
    obtain ⟨hrdy, hal⟩ := alone ht rfl
    refine ⟨fun hs => absurd hs hrdy, fun hs => ?_⟩
    obtain ⟨hT, hr⟩ := hal (by rw [hs]; decide)
    obtain ⟨fin, cur, off, hw⟩ := h.writing hs
    obtain ⟨rfl, rfl⟩ := hw.threads _ hpc
    refine ⟨fin ++ [w], old, 0, .move hT (by simp [At]) ?_ (Nat.zero_le _) ?_ fun cb hcb =>
      absurd (hr.symm.trans hcb) (by simp)⟩
    · show c.order = _
      rw [hw.order, hq, append_assoc, singleton_append]
    · rw [take_zero, append_nil]
      exact hw.sent_all
  | error ctx hl hs => exact ⟨fun hs => absurd hs (by simp), fun hs => absurd hs (by simp)⟩
  | failed w o b hl hs => exact ⟨fun hs => absurd hs (by simp), fun hs => absurd hs (by simp)⟩
  | terminate hl hs => exact ⟨fun hs => absurd hs (by simp), fun hs => absurd hs (by simp)⟩
  | unref k =>
    rw [unref_tcp_conn_eq]
    refine ⟨h.ready, fun hs => ?_⟩
    obtain ⟨fin, cur, off, hw⟩ := h.writing hs
    exact ⟨fin, cur, off, hw.keep rfl rfl rfl rfl rfl rfl fun p hp => by
      cases k <;> simp [Cont.pcs] at hp <;> subst hp <;> trivial⟩
  | remove_end k =>
    rw [free_if_unused_eq]
    refine ⟨h.ready, fun hs => ?_⟩
    obtain ⟨fin, cur, off, hw⟩ := h.writing hs
    exact ⟨fin, cur, off, hw.keep rfl rfl rfl rfl rfl rfl fun p hp => by
      cases k <;> simp [Cont.pcs] at hp <;> subst hp <;> trivial⟩
  | read_term hl hs =>
    rw [unref_tcp_conn_eq]
    exact ⟨fun h => absurd (hs.symm.trans h) (by decide), fun h => absurd (hs.symm.trans h) (by decide)⟩
  | _ =>
    refine ⟨h.ready, fun hs => ?_⟩
    obtain ⟨fin, cur, off, hw⟩ := h.writing hs
    have hat := hw.threads _ hpc
    refine ⟨fin, cur, off, hw.keep rfl rfl rfl rfl rfl rfl ?_⟩
    revert hat
    simp [At]

theorem InOrder.event {ev : Event} (h : InOrder c T) (hd : Happens c ev c' new) :
    InOrder c' (T + (new : Multiset Pc)) := by
  cases hd with
  | timer hl hi hs => exact ⟨fun hs => absurd hs (by simp), fun hs => absurd hs (by simp)⟩
  | ready_out cb hr =>
    refine ⟨h.ready, fun hs => ?_⟩
    obtain ⟨fin, cur, off, hw⟩ := h.writing hs
    refine ⟨fin, cur, off, hw.rest rfl rfl rfl rfl rfl (by simp) fun p hp =>
      (Multiset.mem_add.1 hp).imp id fun hp => ?_⟩
    obtain rfl := mem_singleton.1 (Multiset.mem_coe.1 hp)
    have := hw.reg cb hr
    cases cb <;> exact this
  | fire_out cb hr =>
    refine ⟨h.ready, fun hs => ?_⟩
    obtain ⟨fin, cur, off, hw⟩ := h.writing hs
    refine ⟨fin, cur, off, hw.rest rfl rfl rfl rfl rfl (by simp) fun p hp =>
      (Multiset.mem_add.1 hp).imp id fun hp => ?_⟩
    obtain rfl := mem_singleton.1 (Multiset.mem_coe.1 hp)
    have := hw.reg cb hr
    cases cb <;> exact this
  | fire_out_none hr =>
    refine ⟨h.ready, fun hs => ?_⟩
    obtain ⟨fin, cur, off, hw⟩ := h.writing hs
    exact ⟨fin, cur, off, hw.rest rfl rfl rfl rfl rfl (by simp) (by simp +contextual)⟩
  | _ =>
    refine ⟨h.ready, fun hs => ?_⟩
    obtain ⟨fin, cur, off, hw⟩ := h.writing hs
    exact ⟨fin, cur, off, hw.rest rfl rfl rfl rfl rfl (fun _ h => h) fun p hp =>
      (Multiset.mem_add.1 hp).imp id fun hp => by
        simp at hp <;> subst hp <;> trivial⟩

theorem in_order_reachable {allowed : Conn → Multiset Pc → Turn Pc Answer Event → Prop}
    {s : Pool Conn Pc} (hr : Reachable allowed s) :
    Tokens s.shared s.threads ∧ InOrder s.shared s.threads := by
  obtain ⟨init, hi, hrun⟩ := hr
  refine Pool.invariant (I := fun c T => Tokens c T ∧ InOrder c T) ?_
    (fun c c' T pc a new h _ e => ⟨h.1.turn (turn_does e), h.2.turn h.1 (turn_does e)⟩)
    (fun c c' T e new h _ he => ⟨h.1.event (event_happens he), h.2.event (event_happens he)⟩) hrun
  refine ⟨tokens_reachable allowed ⟨init, hi, .init⟩, ?_⟩
  rcases hi with rfl | ⟨w, rfl⟩
  · exact ⟨fun _ => rfl, fun h => absurd h (by decide)⟩
  · refine ⟨fun h => absurd h (by simp [a_tcp_connect, create_tcp_conn]), fun _ => ⟨[], w, 0, rfl, Nat.zero_le _, rfl, ?_,
      fun cb h => absurd h (by simp [a_tcp_connect, create_tcp_conn])⟩⟩
    intro p hp
    obtain rfl := Multiset.mem_singleton.1 hp
    exact ⟨rfl, rfl⟩

/-- **TCP write ordering.**  As long as the connection is not terminated the bytes sent are those of
the writes in the order in which they obtained or were queued behind `WRITING`: all of them in state
`READY`; in state `WRITING` all bytes of the first writes and `off` bytes of the next one, which at
most one thread works on and goes on with there, and the rest is the queue. -/
theorem writes_in_order {s : Pool Conn Pc} (hr : Reachable (fun _ _ _ => True) s)
    (hs : s.shared.state ≠ .TERM) :
    (s.shared.state = .READY ∧ s.shared.queue = [] ∧ s.shared.sent = bytes s.shared.order) ∨
      (s.shared.state = .WRITING ∧ ∃ fin cur off, s.shared.order = fin ++ cur :: s.shared.queue ∧
        off ≤ cur.buf.length ∧ s.shared.sent = bytes fin ++ cur.buf.take off ∧
        weigh token s.threads + regs s.shared ≤ 1 ∧
        ∀ w o b, Pc.sending w o b ∈ s.threads → w = cur ∧ o = off) := by
  obtain ⟨ht, ho⟩ := in_order_reachable hr
  cases hst : s.shared.state with
  | READY => exact .inl ⟨rfl, (ht.none hst).2, ho.ready hst⟩
  | WRITING =>
    obtain ⟨fin, cur, off, hw⟩ := ho.writing hst
    exact .inr ⟨rfl, fin, cur, off, hw.order, hw.le, hw.sent, ht.one hs,
      fun w o b hm => hw.threads _ hm⟩
  | TERM => exact absurd hst hs

/-- Two writes on an accepted connection: the second is queued while the first is half sent. -/
def twoWrites : List (Turn Pc Answer Event) :=
  let v : Write := ⟨1, [65, 66]⟩
  let w : Write := ⟨2, [67]⟩
  [.thread .accepted .ok, .event (.write v), .event (.write w), .thread (.set_writing v) .ok,
    .thread (.send v 0 .async) .ok, .thread (.sending v 0 .async) (.took 1),
    .thread (.set_writing w) .ok, .thread (.add_pending w) .ok,
    .thread (.sending v 1 .async) (.took 1), .thread (.completed v .async) .ok,
    .thread (.upload v .async) .ok]

theorem writes_in_order_two :
    ∃ s, Pool.replay turn event (fun _ _ => True) tcp_accept twoWrites = some s ∧
      s.shared.sent = [65, 66] ∧ ∃ fin cur off, s.shared.order = fin ++ cur :: s.shared.queue ∧
        s.shared.sent = bytes fin ++ cur.buf.take off := by
  obtain ⟨s, hs, hst, hse⟩ : ∃ s, Pool.replay turn event (fun _ _ => True) tcp_accept twoWrites =
      some s ∧ s.shared.state = .WRITING ∧ s.shared.sent = [65, 66] := ⟨_, rfl, rfl, rfl⟩
  have hr : Reachable (fun _ _ _ => True) s :=
    ⟨tcp_accept, .inl rfl, Pool.run_replay .init hs⟩
  rcases writes_in_order hr (by rw [hst]; decide) with h | ⟨-, fin, cur, off, h1, -, h3, -⟩
  · exact absurd (h.1.symm.trans hst) (by decide)
  · exact ⟨s, hs, hse, fin, cur, off, h1, h3⟩

end OpenSips.Tcp
