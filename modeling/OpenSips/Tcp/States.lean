import OpenSips.Tcp.Token

/-!
# OpenSips.Tcp.States — the changes of state of a connection

`set_conn_state` of `net/tcp/conns.c` with the operations on its lock, and sequences of calls.  Who got 1
queues a write, or takes the next one, and releases the lock (`net/tcp/conns.h`); whatever else happens to
a connection keeps its state, its lock and its queue.
-/

namespace OpenSips.Tcp

open Lib Option

/-- Waits where the lock is held. -/
def lock_get (c : Conn) : Option Conn := if c.locked then none else some { c with locked := true }

/-- There is nothing to release where the lock is not held. -/
def lock_release (c : Conn) : Option Conn := if c.locked then some { c with locked := false } else none

/-- `set_conn_state`, each branch with its calls of `lock_release`. -/
def set_conn_state_locks (c : Conn) (new_state : ConnState) : Option (Conn × List Pc × ℤ) := do
  let c ← lock_get c
  match c.state with
  | .READY =>
    match new_state with
    | .WRITING | .TERM =>
      let c ← lock_release { c with state := new_state }
      some (c, [], 0)
    | _ =>
      let c ← lock_release c
      some (c, [], -1)
  | .WRITING =>
    match new_state with
    | .WRITING => some (c, [], 1)
    | .TERM =>
      let c ← lock_release { c with state := new_state }
      some (c, resume_pending_writes c, 0)
    | .READY =>
      if c.queue = [] then
        let c ← lock_release { c with state := new_state }
        some (c, [], 0)
      else some (c, [], 1)
  | .TERM =>
    let c ← lock_release c
    some (c, [], -1)

theorem set_conn_state_eq (c : Conn) (new_state : ConnState) :
    set_conn_state_locks c new_state = set_conn_state c new_state := by
  obtain ⟨state, locked, _, _, _, _, _, queue⟩ := c
  cases locked with
  | true => rfl
  | false =>
    cases state with
    | READY | TERM => cases new_state <;> rfl
    | WRITING =>
      cases new_state with
      | WRITING | TERM => rfl
      | READY => cases queue <;> rfl

/-- What happens to a connection between two calls, or in one. -/
inductive StateOp where
  | set_conn_state (new_state : ConnState)
  | conn_add_pending_write (w : Write) (added : Bool)
  | conn_upload_next_write
  | other (c' : Conn)

/-- Both operations on the queue end with `unlock_tcp_conn`. -/
def StateOp.next (c : Conn) : StateOp → Option Conn
  | .set_conn_state new_state => (set_conn_state_locks c new_state).map Prod.fst
  | .conn_add_pending_write w added =>
    lock_release (if added then { c with queue := c.queue ++ [w] } else c)
  | .conn_upload_next_write =>
    match c.queue with
    | [] => none
    | old :: rest => lock_release { c with active := old, offset := 0, queue := rest }
  | .other c' =>
    if c'.state = c.state ∧ c'.locked = c.locked ∧ c'.queue = c.queue then some c' else none

def after (c : Conn) (ops : List StateOp) : Option Conn := ops.foldlM StateOp.next c

/-- What a call restores: who gets 1 holds the lock in state `WRITING` and makes all other calls wait;
nothing leaves `TERM`; and from `WRITING` to `READY` no write is left, or its caller takes the head. -/
structure Restored (c : Conn) (new_state : ConnState) (c' : Conn) (n : ℤ) : Prop where
  held : c'.locked = true ↔ n = 1
  owns : n = 1 → c'.state = .WRITING ∧ ∀ state, set_conn_state_locks c' state = none
  term : c.state = .TERM → n = -1 ∧ c'.state = .TERM
  ready : c.state = .WRITING → c'.state = .READY → c.queue = []
  head : c.state = .WRITING → new_state = .READY → ∀ w rest, c.queue = w :: rest →
    n = 1 ∧ StateOp.conn_upload_next_write.next c' =
      some { c with active := w, offset := 0, queue := rest }

variable {c c' c'' : Conn} {tasks : List Pc} {n : ℤ} {st : ConnState} {op : StateOp}

theorem lock_release_eq (h : lock_release c = some c') :
    c.locked = true ∧ c' = { c with locked := false } := by
  rw [lock_release] at h
  by_cases hl : c.locked = true
  · rw [if_pos hl] at h
    cases h
    exact ⟨hl, rfl⟩
  · rw [if_neg hl] at h
    cases h

theorem locked_waits (hl : c.locked = true) (st : ConnState) : set_conn_state_locks c st = none := by
  rw [set_conn_state_eq]
  exact if_pos hl

theorem restored_refused (hl : c.locked = false) (hs : c.state ≠ .WRITING) : Restored c st c (-1) where
  held := iff_of_false (fun hc => absurd (hl.symm.trans hc) (by decide)) (by decide)
  owns := fun h => absurd h (by decide)
  term := fun ht => ⟨rfl, ht⟩
  ready := fun hw => absurd hw hs
  head := fun hw => absurd hw hs

theorem restored_moved (hl : c.locked = false) (hs : c.state ≠ .TERM)
    (hq : c.state = .WRITING → st = .READY → c.queue = []) :
    Restored c st { c with state := st } 0 where
  held := iff_of_false (fun hc => absurd (hl.symm.trans hc) (by decide)) (by decide)
  owns := fun h => absurd h (by decide)
  term := fun ht => absurd ht hs
  ready := hq
  head := fun hw hr w rest hc => absurd ((hq hw hr).symm.trans hc) (List.cons_ne_nil w rest).symm

theorem restored_kept (hl : c.locked = false) (hs : c.state = .WRITING) :
    Restored c st { c with locked := true } 1 where
  held := iff_of_true rfl rfl
  owns := fun _ => ⟨hs, locked_waits rfl⟩
  term := fun ht => absurd (hs.symm.trans ht) (by decide)
  ready := fun _ hr => absurd (hs.symm.trans hr) (by decide)
  head := fun _ _ w rest hq => by
    refine ⟨rfl, ?_⟩
    show (match c.queue with | [] => none | old :: rest => lock_release _) = _
    rw [hq]
    show some _ = _
    rw [← hl]

theorem restored_call (h : set_conn_state_locks c st = some (c', tasks, n)) : Restored c st c' n := by
  rw [set_conn_state_eq] at h
  have hl := set_unlocked h
  cases st with
  | WRITING =>
    obtain ⟨-, -, ⟨hs, rfl, rfl⟩ | ⟨hs, rfl, rfl⟩ | ⟨hs, rfl, rfl⟩⟩ := set_writing h
    · exact restored_moved hl (by rw [hs]; decide) fun _ hr => absurd hr (by decide)
    · exact restored_kept hl hs
    · exact restored_refused hl (by rw [hs]; decide)
  | TERM =>
    obtain ⟨-, ⟨hs, rfl, -, rfl⟩ | ⟨hs, rfl, -, rfl⟩⟩ := set_term h
    · exact restored_refused hl (by rw [hs]; decide)
    · exact restored_moved hl hs fun _ hr => absurd hr (by decide)
  | READY =>
    obtain ⟨-, -, ⟨hs, hq, rfl, rfl⟩ | ⟨hs, -, rfl, rfl⟩ | ⟨hs, rfl, rfl⟩⟩ := set_ready h
    · exact restored_moved hl (by rw [hs]; decide) fun _ _ => hq
    · exact restored_kept hl hs
    · exact restored_refused hl hs

/-- Only `set_conn_state` changes the state. -/
theorem next_state (h : op.next c = some c') (hop : ∀ st, op ≠ .set_conn_state st) :
    c'.state = c.state := by
  cases op with
  | set_conn_state st => exact absurd rfl (hop st)
  | conn_add_pending_write w added =>
    rw [(lock_release_eq h).2]
    cases added <;> rfl
  | conn_upload_next_write =>
    rw [StateOp.next] at h
    cases hq : c.queue with
    | nil =>
      rw [hq] at h
      cases h
    | cons old rest =>
      rw [hq] at h
      rw [(lock_release_eq h).2]
  | other c₁ =>
    rw [StateOp.next] at h
    split_ifs at h with hc
    cases h
    exact hc.1

theorem next_term (h : op.next c = some c') (hs : c.state = .TERM) : c'.state = .TERM := by
  cases op with
  | set_conn_state st =>
    obtain ⟨⟨c₁, tasks, n⟩, hc, rfl⟩ := map_eq_some_iff.1 h
    exact ((restored_call hc).term hs).2
  | _ => exact (next_state h (by simp)).trans hs

/-- Once it is reached, `TERM` stays. -/
theorem after_term {ops : List StateOp} (h : after c ops = some c') (hs : c.state = .TERM) :
    c'.state = .TERM := by
  induction ops generalizing c with
  | nil =>
    cases h
    exact hs
  | cons op ops ih =>
    obtain ⟨c₁, hop, hr⟩ := bind_eq_some_iff.1 h
    exact ih hr (next_term hop hs)

/-- **The state of a connection.**  Every call of every sequence restores the lock and keeps to the
order of the states; `c` is any state on the way, from where `TERM` is final. -/
theorem set_conn_state_restores (c c₁ c₂ : Conn) (ops : List StateOp) (st : ConnState)
    (tasks : List Pc) (n : ℤ) (h : after c ops = some c₁)
    (hc : set_conn_state_locks c₁ st = some (c₂, tasks, n)) :
    Restored c₁ st c₂ n ∧ (c.state = .TERM → n = -1 ∧ c₂.state = .TERM) := by
  have hr := restored_call hc
  exact ⟨hr, fun hs => hr.term (after_term h hs)⟩

def oneQueued : List StateOp :=
  [.set_conn_state .WRITING, .set_conn_state .WRITING, .conn_add_pending_write ⟨2, [67]⟩ true]

theorem set_conn_state_restores_queued :
    let c := create_tcp_conn .READY .accepted []
    ∃ c₁ c₂ tasks n, after c oneQueued = some c₁ ∧
      set_conn_state_locks c₁ .READY = some (c₂, tasks, n) ∧ n = 1 ∧ c₂.locked = true ∧
      Restored c₁ .READY c₂ n ∧ (c.state = .TERM → n = -1 ∧ c₂.state = .TERM) :=
  ⟨_, _, _, _, rfl, rfl, rfl, rfl, set_conn_state_restores _ _ _ oneQueued _ _ _ rfl rfl⟩

section Connection

/-- `c'` comes from `c` by such operations. -/
def Follows (c c' : Conn) : Prop := ∃ ops, after c ops = some c'

theorem Follows.step (o : StateOp) (h : o.next c = some c') : Follows c c' := by
  refine ⟨[o], ?_⟩
  show (o.next c).bind some = some c'
  rw [h]
  rfl

theorem Follows.trans (h : Follows c c') (h' : Follows c' c'') : Follows c c'' := by
  obtain ⟨ops, hr⟩ := h
  obtain ⟨ops', hr'⟩ := h'
  refine ⟨ops ++ ops', ?_⟩
  show (ops ++ ops').foldlM StateOp.next c = _
  rw [List.foldlM_append]
  show (after c ops).bind (after · ops') = _
  rw [hr]
  exact hr'

theorem Follows.other (hs : c'.state = c.state) (hl : c'.locked = c.locked)
    (hq : c'.queue = c.queue) : Follows c c' :=
  .step (.other c') (if_pos ⟨hs, hl, hq⟩)

section

variable (hl : c.locked = false)
include hl

theorem Follows.call (st : ConnState)
    (h : ∀ c₁ tasks n, set_conn_state c st = some (c₁, tasks, n) → c₁ = c') : Follows c c' := by
  refine .step (.set_conn_state st) ?_
  rw [StateOp.next, set_conn_state_eq]
  have hn : set_conn_state c st = some _ := if_neg (Bool.eq_false_iff.1 hl)
  rw [hn]
  exact congrArg some (h _ _ _ hn)

theorem Follows.term (hs : c.state ≠ .TERM) : Follows c { c with state := .TERM } := by
  refine .call hl .TERM fun c₁ tasks n h => ?_
  obtain ⟨-, ⟨ht, -⟩ | ⟨-, rfl, -⟩⟩ := set_term h
  · exact absurd ht hs
  · rfl

theorem Follows.writing (hs : c.state = .READY) : Follows c { c with state := .WRITING } := by
  refine .call hl .WRITING fun c₁ tasks n h => ?_
  obtain ⟨-, -, ⟨-, rfl, -⟩ | ⟨hw, -⟩ | ⟨ht, -⟩⟩ := set_writing h
  · rfl
  · exact absurd (hs.symm.trans hw) (by decide)
  · exact absurd (hs.symm.trans ht) (by decide)

theorem Follows.locked (hs : c.state = .WRITING) : Follows c { c with locked := true } := by
  refine .call hl .WRITING fun c₁ tasks n h => ?_
  obtain ⟨-, -, ⟨hr, -⟩ | ⟨-, rfl, -⟩ | ⟨ht, -⟩⟩ := set_writing h
  · exact absurd (hs.symm.trans hr) (by decide)
  · rfl
  · exact absurd (hs.symm.trans ht) (by decide)

theorem Follows.ready (hs : c.state = .WRITING) (hq : c.queue = []) :
    Follows c { c with state := .READY } := by
  refine .call hl .READY fun c₁ tasks n h => ?_
  obtain ⟨-, -, ⟨-, -, rfl, -⟩ | ⟨-, hn, -⟩ | ⟨hn, -⟩⟩ := set_ready h
  · rfl
  · exact absurd hq hn
  · exact absurd hs hn

end

variable {pc : Pc} {a : Answer} {T : Multiset Pc} {new : List Pc}

/-- A turn of a thread is a sequence of these operations; who is behind a result 1 holds the lock. -/
theorem Does.follows (ht : Tokens c (pc ::ₘ T)) (h : Does c pc a c' new) : Follows c c' := by
  have hh : holds pc = 1 → c.locked = true := by
    intro hp
    have hl := ht.lock
    rw [weigh_cons, hp] at hl
    cases hc : c.locked with
    | true => rfl
    | false =>
      rw [hc, Bool.toNat_false] at hl
      omega
  cases h with
  | error ctx hl hs | failed w o b hl hs | terminate hl hs => exact .term hl hs
  | obtain w hl hs => exact (Follows.writing hl hs).trans (.other rfl rfl rfl)
  | behind w hl hs | completed_more w b hl hs hq => exact .locked hl hs
  | completed w b hl hs hq => exact .ready hl hs hq
  | add_ok w =>
    have hq : Follows c { c with queue := c.queue ++ [w], locked := false } :=
      .step (.conn_add_pending_write w true) (if_pos (hh rfl))
    exact hq.trans (.other rfl rfl rfl)
  | add_err w => exact .step (.conn_add_pending_write w false) (if_pos (hh rfl))
  | upload w old rest b hq =>
    refine .step .conn_upload_next_write ?_
    rw [StateOp.next, hq]
    exact if_pos (hh rfl)
  | unref k | read_term =>
    rw [unref_tcp_conn_eq]
    exact .other rfl rfl rfl
  | remove_end k =>
    rw [free_if_unused_eq]
    exact .other rfl rfl rfl
  | _ => exact .other rfl rfl rfl

theorem Happens.follows {ev : Event} (h : Happens c ev c' new) : Follows c c' := by
  cases h with
  | timer hl hi hs => exact (Follows.term hl hs).trans (.other rfl rfl rfl)
  | _ => exact .other rfl rfl rfl

/-- **The threads of a connection only do this to it.** -/
theorem reachable_follows {allowed : Conn → Multiset Pc → Turn Pc Answer Event → Prop}
    {s s' : Pool Conn Pc} {t : Turn Pc Answer Event} (hr : Reachable allowed s)
    (h : s.exec turn event t = some (s', ())) : Follows s.shared s'.shared := by
  have ht := tokens_reachable allowed hr
  obtain ⟨c₁, new, T, rfl, ⟨pc, a, -, hT, he⟩ | ⟨e, -, -, he⟩⟩ := Pool.exec_cases h
  · rw [hT] at ht
    exact (turn_does he).follows ht
  · exact (event_happens he).follows

/-- **A run of the threads is a sequence of these operations**, and `TERM` is final. -/
theorem runs_follow (allowed : Conn → Multiset Pc → Turn Pc Answer Event → Prop) (s s' : Pool Conn Pc)
    (hr : Reachable allowed s) (hrun : Run (Pool.exec turn event) (fun s _ op => allowed s.shared s.threads op)
      (fun _ _ _ _ => ()) (s, ()) s' ()) :
    Follows s.shared s'.shared ∧ (s.shared.state = .TERM → s'.shared.state = .TERM) := by
  have h : Reachable allowed s' ∧ Follows s.shared s'.shared := by
    refine hrun.invariant (I := fun x _ => Reachable allowed x ∧ Follows s.shared x.shared) ⟨hr, [], rfl⟩ ?_
    rintro x _ op x' r ⟨⟨init, hi, hx⟩, hf⟩ ok e
    exact ⟨⟨init, hi, .step hx ok e⟩, hf.trans (reachable_follows ⟨init, hi, hx⟩ e)⟩
  obtain ⟨ops, ho⟩ := h.2
  exact ⟨h.2, after_term ho⟩

theorem runs_follow_write : ∃ s, Pool.replay turn event (fun _ _ => True) tcp_accept
      [.thread .accepted .ok, .event (.write ⟨1, [65]⟩), .thread (.set_writing ⟨1, [65]⟩) .ok] = some s ∧
    s.shared.state = .WRITING ∧ Follows tcp_accept.shared s.shared := by
  obtain ⟨s, hs, hst⟩ : ∃ s, Pool.replay turn event (fun _ _ => True) tcp_accept
      [.thread .accepted .ok, .event (.write ⟨1, [65]⟩), .thread (.set_writing ⟨1, [65]⟩) .ok] = some s ∧
      s.shared.state = .WRITING := ⟨_, rfl, rfl⟩
  exact ⟨s, hs, hst, (runs_follow (fun _ _ _ => True) _ s ⟨_, .inl rfl, .init⟩ (Pool.run_replay .init hs)).1⟩

end Connection

end OpenSips.Tcp
