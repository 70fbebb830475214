import OpenSips.Tcp.Token

/-!
# OpenSips.Tcp.Resume — every write resumes its context once

A context given to `a_tcp_write` is in one place at a time: with a thread that will resume it, in the
queue, or the active write of a callback.  The places are counted.
-/

namespace OpenSips.Tcp

open Lib List

/-- 1 for the same context. -/
def same (ctx x : ℕ) : ℕ := if x = ctx then 1 else 0

/-- Whether a thread behind `unref_tcp_conn` or `remove_tcp_conn` will resume `x`. -/
def Cont.own (x : ℕ) : Cont → ℕ
  | .stop => 0
  | .ret ctx _ n => if n = 1 then 0 else same ctx x
  | .fire_in ctx _ => same ctx x

/-- Whether a thread will resume the context `x` it was given. -/
def own (x : ℕ) : Pc → ℕ
  | .connect_start w | .connect w | .set_writing w | .add_pending w | .send w _ _ | .sending w _ _
  | .blocked w _ _ | .failed w _ _ | .completed w _ | .upload w _ | .put w _ => same w.ctx x
  | .connect_error ctx | .fire_in ctx _ | .on_failure ctx => same ctx x
  | .ret ctx _ n => if n = 1 then 0 else same ctx x
  | .unref k | .remove_id _ k | .remove_ip k | .remove_end k => k.own x
  | _ => 0

def waits : Pc → ℕ
  | .connect_done | .connect_result | .connect_read | .send_resume _ | .put _ _ => 1
  | _ => 0

/-- How often `x` is in the queue of writes. -/
def queued (c : Conn) (x : ℕ) : ℕ :=
  if c.state = .WRITING then (c.queue.map Write.ctx).count x else 0

/-- **How often `x` will be resumed.** -/
def held (c : Conn) (T : Multiset Pc) (x : ℕ) : ℕ :=
  weigh (own x) T + (weigh waits T + regs c) * same c.active.ctx x + queued c x

def fires : Pc → ℕ
  | .timer_fire_out => 1
  | _ => 0

/-- The turns that lose no context and resume none twice.  Excluded are: a connect that fails at once
with writes queued, and a write queued behind it; a connect that the connection is terminated under;
a connect that is done at once and whose write then comes to an end without blocking; and a reader
that terminates the connection while a write waits in the OUT reactor. -/
def Resumable (c : Conn) (_ : Multiset Pc) : Turn Pc Answer Event → Prop
  | .thread (.connect _) .err => c.queue = []
  | .thread (.add_pending _) .ok => c.opened ≠ .failed
  | .thread (.connect _) .block => c.state ≠ .TERM
  | .thread .connect_result .block => c.state ≠ .TERM
  | .thread .connect_done _ => c.state ≠ .TERM
  | .thread (.ret _ .connect n) _ => n = 1
  | .thread .terminate _ => c.state ≠ .TERM → c.reg_out = none
  | _ => True

instance (c : Conn) (T : Multiset Pc) (op : Turn Pc Answer Event) :
    Decidable (Resumable c T op) := by
  refine op.casesOn (motive := fun op => Decidable (Resumable c T op)) (fun pc a => ?_) fun _ => isTrue trivial
  cases pc with
  | connect w =>
    cases a with
    | err => exact (inferInstance : Decidable (c.queue = []))
    | block => exact (inferInstance : Decidable (c.state ≠ .TERM))
    | _ => exact isTrue trivial
  | add_pending w =>
    cases a with
    | ok => exact (inferInstance : Decidable (c.opened ≠ .failed))
    | _ => exact isTrue trivial
  | connect_result =>
    cases a with
    | block => exact (inferInstance : Decidable (c.state ≠ .TERM))
    | _ => exact isTrue trivial
  | connect_done => exact (inferInstance : Decidable (c.state ≠ .TERM))
  | ret ctx b n =>
    cases b with
    | connect => exact (inferInstance : Decidable (n = 1))
    | _ => exact isTrue trivial
  | terminate => exact (inferInstance : Decidable (c.state ≠ .TERM → c.reg_out = none))
  | _ => exact isTrue trivial

/-- **Every context is accounted for.**  Queued writes have a writer before them, and a callback left
in the OUT reactor of a terminated connection is fired. -/
structure Accounted (c : Conn) (T : Multiset Pc) : Prop where
  once : ∀ x, c.resumed.count x + held c T x = c.issued.count x
  started : ∀ w, Pc.connect w ∈ T → c.active = w
  live : c.state = .WRITING → weigh token T + regs c = 1 ∨ c.opened = .failed ∧ c.queue = []
  woken : c.state = .TERM → c.reg_out ≠ none → c.fired_out = true ∨ 0 < weigh fires T

variable {c c' : Conn} {pc : Pc} {a : Answer} {T : Multiset Pc} {new : List Pc}

theorem count_ctx (w : Write) (ws : List Write) (x : ℕ) :
    ((w :: ws).map Write.ctx).count x = same w.ctx x + (ws.map Write.ctx).count x := by
  rw [map_cons, count_cons, add_comm, same]
  by_cases h : x = w.ctx
  · simp [h]
  · simp [h, Ne.symm h]

theorem own_flushed (c : Conn) (x : ℕ) : ((flushed c).map (own x)).sum = queued c x := by
  rw [flushed, queued]
  by_cases hs : c.state = .WRITING
  · rw [if_pos hs, if_pos hs, resume_pending_writes, List.map_map]
    induction c.queue with
    | nil => rfl
    | cons w ws ih =>
      rw [map_cons, sum_cons, ih, count_ctx]
      rfl
  · rw [if_neg hs, if_neg hs]
    rfl

theorem own_cont (k : Cont) (x : ℕ) : (k.pcs.map (own x)).sum = k.own x := by
  cases k <;> simp [Cont.pcs, Cont.own, own]

theorem count_cons_same (ctx x : ℕ) (r : Multiset ℕ) : (ctx ::ₘ r).count x = same ctx x + r.count x := by
  rw [Multiset.count_cons, add_comm, same]

theorem waits_flushed (c : Conn) : ((flushed c).map waits).sum = 0 := sum_flushed _ (fun _ => rfl) c

theorem waits_cont (k : Cont) : (k.pcs.map waits).sum = 0 :=
  sum_cont _ (fun _ _ _ => rfl) (fun _ _ => rfl) k

theorem waits_le (T : Multiset Pc) : weigh waits T ≤ weigh acting T :=
  weigh_le (fun pc => by cases pc <;> simp [waits, acting, token]) T

theorem no_waits (ht : Tokens c (pc ::ₘ T)) (hp : acting pc = 1) :
    weigh waits T = 0 ∧ c.reg_out = none := by
  have h1 := ht.acting
  have h2 := waits_le T
  rw [weigh_cons] at h1
  refine ⟨by omega, ?_⟩
  cases hr : c.reg_out with
  | none => rfl
  | some cb =>
    rw [regs, hr, Option.elim_some] at h1
    omega

attribute [local simp] own waits Cont.own own_flushed own_cont waits_flushed waits_cont
  free_if_unused_eq unref_tcp_conn_eq count_cons_same

theorem Accounted.once_turn (h : Accounted c (pc ::ₘ T)) (ht : Tokens c (pc ::ₘ T))
    (ok : Resumable c (pc ::ₘ T) (.thread pc a)) (hd : Does c pc a c' new) (x : ℕ) :
    c'.resumed.count x + held c' (T + (new : Multiset Pc)) x = c'.issued.count x := by
  have h1 := h.once x
  cases hd with
  | connect_start w =>
    obtain ⟨hw, hr⟩ := no_waits ht rfl
    simp [held, regs, queued, hw, hr] at h1 ⊢
    omega
  | connect_block w =>
    obtain ⟨hw, hr⟩ := no_waits ht rfl
    have ha := h.started w (Multiset.mem_cons_self _ _)
    simp [held, regs, queued, hw, hr, ha] at h1 ⊢
    omega
  | connect_ok w =>
    have ha := h.started w (Multiset.mem_cons_self _ _)
    simp [held, regs, queued, add_mul, ha] at h1 ⊢
    omega
  | result_block =>
    obtain ⟨hw, hr⟩ := no_waits ht rfl
    simp [held, regs, queued, hw, hr] at h1 ⊢
    omega
  | done_term hs => exact absurd hs ok
  | error ctx hl hs =>
    simp [held, regs, queued, add_mul] at h1 ⊢
    omega
  | failed w o b hl hs =>
    simp [held, regs, queued, add_mul] at h1 ⊢
    omega
  | terminate hl hs =>
    simp [held, regs, queued, add_mul] at h1 ⊢
    omega
  | obtain w hl hs =>
    have hq := (ht.none hs).2
    simp [held, regs, queued, add_mul, hs, hq] at h1 ⊢
    omega
  | behind w hl hs =>
    simp [held, regs, queued, add_mul] at h1 ⊢
    omega
  | add_ok w =>
    have hs := locked_writing ht rfl
    have hq : ((c.queue ++ [w]).map Write.ctx).count x = (c.queue.map Write.ctx).count x + same w.ctx x := by
      rw [map_append, count_append, count_ctx]
      rfl
    simp only [held, regs, queued, hs, if_true, hq, weigh_add, weigh_coe, weigh_cons] at h1 ⊢
    simp [add_mul] at h1 ⊢
    omega
  | blocked w o b hl hs =>
    obtain ⟨hw, hr⟩ := no_waits ht rfl
    simp [held, regs, queued, hw, hr] at h1 ⊢
    omega
  | completed w b hl hs hq =>
    simp [held, regs, queued, add_mul, hs, hq] at h1 ⊢
    omega
  | upload w old rest b hq =>
    obtain ⟨hw, hr⟩ := no_waits ht rfl
    have hs := locked_writing ht rfl
    simp only [held, regs, queued, hs, if_true, hq, count_ctx] at h1 ⊢
    simp [hw, hr] at h1 ⊢
    omega
  | ret ctx b n =>
    have hb : b = .connect → n = 1 := by
      rintro rfl
      exact ok
    by_cases hn : n = 1
    · have hz : resumes b n = 0 := by cases b <;> simp [resumes, hn]
      simp [held, regs, queued, hz] at h1 ⊢
      simp [hn] at h1
      omega
    · have hz : resumes b n = 1 := by
        cases b with
        | connect => exact absurd (hb rfl) hn
        | _ => simp [resumes, hn]
      simp [held, regs, queued, hn, hz] at h1 ⊢
      omega
  | _ =>
    simp [held, regs, queued, add_mul] at h1 ⊢
    omega

theorem connect_flushed (c : Conn) (w : Write) : Pc.connect w ∉ flushed c := fun hm => by
  have := le_sum_of_mem (List.mem_map_of_mem (f := token) hm)
  rw [sum_flushed token (fun _ => rfl)] at this
  simp [token] at this

theorem Accounted.started_turn (h : Accounted c (pc ::ₘ T)) (ht : Tokens c (pc ::ₘ T))
    (hd : Does c pc a c' new) (w : Write) (hw : Pc.connect w ∈ T + (new : Multiset Pc)) :
    c'.active = w := by
  have hold : Pc.connect w ∈ T → c.active = w := fun hm =>
    h.started w (Multiset.mem_cons_of_mem hm)
  -- who acts does so alone
  have hno : acting pc = 1 → Pc.connect w ∉ T := fun hp hm => by
    have h1 := ht.acting
    have h2 := le_weigh (f := acting) hm
    rw [weigh_cons] at h1
    simp only [acting, token] at h2
    omega
  rcases Multiset.mem_add.1 hw with hm | hm
  · cases hd with
    | connect_start w => exact absurd hm (hno rfl)
    | blocked w o b hl hs => exact absurd hm (hno rfl)
    | upload w old rest b hq => exact absurd hm (hno rfl)
    | _ => simpa using hold hm
  · rw [Multiset.mem_coe] at hm
    have hflush := connect_flushed c w
    have hcont : ∀ k : Cont, Pc.connect w ∉ k.pcs := fun k => by cases k <;> simp [Cont.pcs]
    cases hd with
    | connect_start v =>
      simp only [mem_singleton, Pc.connect.injEq] at hm
      exact hm.symm
    | connect_intr v =>
      simp only [mem_singleton, Pc.connect.injEq] at hm
      rw [hm]
      exact h.started v (Multiset.mem_cons_self _ _)
    | _ => simp [hflush, hcont] at hm

theorem fires_cont (k : Cont) : (k.pcs.map fires).sum = 0 :=
  sum_cont _ (fun _ _ _ => rfl) (fun _ _ => rfl) k

attribute [local simp] token fires plain_cont fires_cont

theorem live_of_token (ht : Tokens c (pc ::ₘ T)) (hp : token pc = 1) (hs : c.state = .WRITING) :
    weigh token T + regs c = 0 := by
  have := ht.one (by rw [hs]; decide)
  rw [weigh_cons] at this
  omega

theorem Accounted.live_turn (h : Accounted c (pc ::ₘ T)) (ht : Tokens c (pc ::ₘ T))
    (ok : Resumable c (pc ::ₘ T) (.thread pc a)) (hd : Does c pc a c' new) :
    c'.state = .WRITING →
      weigh token (T + (new : Multiset Pc)) + regs c' = 1 ∨ c'.opened = .failed ∧ c'.queue = [] := by
  intro hs'
  cases hd with
  | connect_err w => exact .inr ⟨rfl, ok⟩
  | connect_ok w =>
    have := live_of_token ht rfl hs'
    simp [regs] at this ⊢
    omega
  | result_ok =>
    have := live_of_token ht rfl hs'
    simp [regs] at this ⊢
    omega
  | obtain w hl hs =>
    have := (ht.none hs).1
    simp [regs] at this ⊢
    omega
  | add_ok w =>
    rcases h.live (locked_writing ht rfl) with h1 | ⟨h1, -⟩
    · simp [regs] at h1 ⊢
      omega
    · exact absurd h1 ok
  | upload w old rest b hq =>
    have := live_of_token ht rfl hs'
    simp [regs] at this ⊢
    omega
  | done_term hs => exact absurd hs ok
  | refused w hl hs => exact absurd (hs.symm.trans hs') (by decide)
  | send_term w o b hs => exact absurd (hs.symm.trans hs') (by decide)
  | blocked_term w o b hl hs => exact absurd (hs.symm.trans hs') (by decide)
  | failed_term w o b hl hs => exact absurd (hs.symm.trans hs') (by decide)
  | error_term ctx hl hs => exact absurd (hs.symm.trans hs') (by decide)
  | completed_idle w b hl hs => exact absurd hs' hs
  | read_term hl hs => exact absurd (hs.symm.trans (by simpa using hs')) (by decide)
  | error ctx hl hs => exact absurd hs' (by simp)
  | failed w o b hl hs => exact absurd hs' (by simp)
  | terminate hl hs => exact absurd hs' (by simp)
  | completed w b hl hs hq => exact absurd hs' (by simp)
  | connect_block w =>
    have := live_of_token ht rfl hs'
    simp [regs] at this ⊢
    omega
  | result_block =>
    have := live_of_token ht rfl hs'
    simp [regs] at this ⊢
    omega
  | blocked w o b hl hs =>
    have := live_of_token ht rfl hs'
    simp [regs] at this ⊢
    omega
  | _ =>
    refine (h.live (by simpa using hs')).imp (fun h1 => ?_) fun h1 => by simpa using h1
    simp [regs] at h1 ⊢
    omega

theorem Accounted.woken_turn (h : Accounted c (pc ::ₘ T)) (ht : Tokens c (pc ::ₘ T))
    (ok : Resumable c (pc ::ₘ T) (.thread pc a)) (hd : Does c pc a c' new) :
    c'.state = .TERM → c'.reg_out ≠ none → c'.fired_out = true ∨ 0 < weigh fires (T + (new : Multiset Pc)) := by
  intro hs' hr'
  cases hd with
  | connect_block w => exact absurd hs' ok
  | result_block => exact absurd hs' ok
  | blocked w o b hl hs => exact absurd hs' hs
  | error ctx hl hs => exact absurd (no_waits ht rfl).2 hr'
  | failed w o b hl hs => exact absurd (no_waits ht rfl).2 hr'
  | terminate hl hs => exact absurd (ok hs) hr'
  | obtain w hl hs => exact absurd hs' (by simp)
  | completed w b hl hs hq => exact absurd hs' (by simp)
  | timer_fire_out => exact .inl rfl
  | _ => simpa using h.woken (by simpa using hs') (by simpa using hr')

theorem Accounted.turn (h : Accounted c (pc ::ₘ T)) (ht : Tokens c (pc ::ₘ T))
    (ok : Resumable c (pc ::ₘ T) (.thread pc a)) (hd : Does c pc a c' new) :
    Accounted c' (T + (new : Multiset Pc)) :=
  ⟨h.once_turn ht ok hd, h.started_turn ht hd, h.live_turn ht ok hd, h.woken_turn ht ok hd⟩

theorem Accounted.event {ev : Event} (h : Accounted c T)
    (hd : Happens c ev c' new) : Accounted c' (T + (new : Multiset Pc)) := by
  obtain ⟨h1, h2, h3, h4⟩ := h
  cases hd with
  | write w hs hl =>
    refine ⟨fun x => ?_, fun v hv => h2 v (by simpa using hv), fun hs => ?_, fun hs hr => ?_⟩
    · have := h1 x
      simp [held, regs, queued] at this ⊢
      omega
    · simpa [regs] using h3 hs
    · simpa using h4 hs hr
  | timer hl hi hs =>
    refine ⟨fun x => ?_, fun v hv => ?_, fun hs => absurd hs (by simp), fun _ _ => .inr ?_⟩
    · have := h1 x
      simp [held, regs, queued] at this ⊢
      omega
    · refine h2 v ?_
      simpa [connect_flushed] using hv
    · simp
  | ready_out cb hr =>
    refine ⟨fun x => ?_, fun v hv => h2 v ?_, fun hs => ?_, fun hs h => absurd rfl h⟩
    · have := h1 x
      cases cb <;> simp [held, regs, queued, hr, Callback.pc, add_mul] at this ⊢ <;> omega
    · cases cb <;> simpa [Callback.pc] using hv
    · have := h3 hs
      cases cb <;> simp [regs, hr, Callback.pc] at this ⊢ <;> omega
  | fire_out cb hr =>
    refine ⟨fun x => ?_, fun v hv => h2 v ?_, fun hs => ?_, fun hs h => absurd rfl h⟩
    · have := h1 x
      cases cb <;> simp [held, regs, queued, hr, Callback.pc, add_mul] at this ⊢ <;> omega
    · cases cb <;> simpa [Callback.pc] using hv
    · have := h3 hs
      cases cb <;> simp [regs, hr, Callback.pc] at this ⊢ <;> omega
  | fire_out_none hr =>
    refine ⟨fun x => ?_, fun v hv => h2 v (by simpa using hv), fun hs => ?_, fun hs h => absurd rfl h⟩
    · have := h1 x
      simp [held, regs, queued, hr] at this ⊢
      omega
    · have := h3 hs
      simpa [regs, hr] using this
  | _ =>
    refine ⟨fun x => ?_, fun v hv => h2 v (by simpa using hv), fun hs => ?_, fun hs hr => ?_⟩
    · have := h1 x
      simp [held, regs, queued] at this ⊢
      omega
    · simpa [regs] using h3 hs
    · simpa using h4 hs hr

theorem accounted_reachable {s : Pool Conn Pc} (hr : Reachable Resumable s) :
    Tokens s.shared s.threads ∧ Accounted s.shared s.threads := by
  obtain ⟨init, hi, hrun⟩ := hr
  refine Pool.invariant (I := fun c T => Tokens c T ∧ Accounted c T) ?_
    (fun c c' T pc a new h ok e => ⟨h.1.turn (turn_does e), h.2.turn h.1 ok (turn_does e)⟩)
    (fun c c' T e new h _ he => ⟨h.1.event (event_happens he), h.2.event (event_happens he)⟩) hrun
  refine ⟨tokens_reachable Resumable ⟨init, hi, .init⟩, ?_⟩
  rcases hi with rfl | ⟨w, rfl⟩
  · refine ⟨fun x => ?_, fun v hv => ?_, fun h => absurd h (by decide), fun h => absurd h (by decide)⟩
    · simp [tcp_accept, create_tcp_conn, held, regs, queued]
    · simp [tcp_accept] at hv
  · refine ⟨fun x => ?_, fun v hv => ?_, fun _ => .inl ?_, fun h => absurd h ?_⟩
    · simp [a_tcp_connect, create_tcp_conn, held, regs, queued, same, Multiset.count_singleton]
    · simp [a_tcp_connect] at hv
    · simp [a_tcp_connect, create_tcp_conn, regs]
    · simp [a_tcp_connect, create_tcp_conn]

/-- **Context resumption.**  In runs of such turns a context has been resumed or is in one place from
which it will be, and not both; queued writes are behind one who writes; what waits in the OUT
reactor of a terminated connection is fired; and when nothing is left to do, all are resumed. -/
theorem resumed_once {s : Pool Conn Pc} (hr : Reachable Resumable s) :
    (∀ x, s.shared.resumed.count x + held s.shared s.threads x = s.shared.issued.count x) ∧
      (∀ x, s.shared.issued.count x = 1 → s.shared.resumed.count x = 0 ∧ held s.shared s.threads x = 1 ∨
          s.shared.resumed.count x = 1 ∧ held s.shared s.threads x = 0) ∧
      (s.shared.state = .WRITING → s.shared.queue ≠ [] → weigh token s.threads + regs s.shared = 1) ∧
      (s.shared.state = .TERM → s.shared.reg_out ≠ none →
        s.shared.fired_out = true ∨ 0 < weigh fires s.threads) ∧
      (s.threads = 0 → s.shared.reg_out = none → s.shared.resumed = s.shared.issued) := by
  obtain ⟨ht, ha⟩ := accounted_reachable hr
  refine ⟨ha.once, fun x hx => ?_, fun hs hq => ?_, ha.woken, fun h0 hr0 => ?_⟩
  · have := ha.once x
    omega
  · exact (ha.live hs).resolve_right fun h => hq h.2
  · refine Multiset.ext.2 fun x => ?_
    have hq : queued s.shared x = 0 := by
      rw [queued]
      by_cases hs : s.shared.state = .WRITING
      · rw [if_pos hs]
        rcases ha.live hs with h | ⟨-, h⟩
        · rw [h0, regs, hr0] at h
          exact absurd h (by decide)
        · rw [h]
          rfl
      · rw [if_neg hs]
    have := ha.once x
    rw [held, h0, regs, hr0, hq] at this
    simpa using this

def oneWrite : List (Turn Pc Answer Event) :=
  let w : Write := ⟨1, [65]⟩
  [.thread .accepted .ok, .event (.write w), .thread (.set_writing w) .ok,
    .thread (.send w 0 .async) .ok, .thread (.sending w 0 .async) (.took 1),
    .thread (.completed w .async) .ok, .thread (.unref (.ret 1 .async 0)) .ok,
    .thread (.ret 1 .async 0) .ok]

theorem resumed_once_one : ∃ s, Pool.replay turn event (fun s op => Resumable s.shared s.threads op)
    tcp_accept oneWrite = some s ∧ s.shared.resumed = {1} ∧ s.shared.resumed = s.shared.issued := by
  obtain ⟨s, hs, hst, h0, hr0⟩ : ∃ s, Pool.replay turn event
      (fun s op => Resumable s.shared s.threads op) tcp_accept oneWrite = some s ∧
      s.shared.resumed = {1} ∧ s.threads = 0 ∧ s.shared.reg_out = none := ⟨_, rfl, rfl, rfl, rfl⟩
  have hr : Reachable Resumable s := ⟨tcp_accept, .inl rfl, Pool.run_replay .init hs⟩
  exact ⟨s, hs, hst, (resumed_once hr).2.2.2.2 h0 hr0⟩

/-- A write that opens a connection, where `connect` is done at once: `a_tcp_send_resume` resumes the
context and returns 0, and `async` resumes it again. -/
def connectedAtOnce : List (Turn Pc Answer Event) :=
  let w : Write := ⟨1, [65]⟩
  [.thread (.connect_start w) .ok, .thread (.connect w) .ok, .thread (.send_resume .connect) .ok,
    .thread (.send w 0 .connect) .ok, .thread (.sending w 0 .connect) (.took 1),
    .thread (.completed w .connect) .ok, .thread (.unref (.ret 1 .connect 0)) .ok,
    .thread (.ret 1 .connect 0) .ok]

theorem resumed_twice : ¬ ∀ s : Pool Conn Pc, Reachable (fun _ _ _ => True) s →
    ∀ x, s.shared.issued.count x = 1 → s.shared.resumed.count x ≤ 1 := by
  intro h
  obtain ⟨s, hs, h1, h2⟩ : ∃ s, Pool.replay turn event (fun _ _ => True)
      (a_tcp_connect ⟨1, [65]⟩) connectedAtOnce = some s ∧
      s.shared.issued.count 1 = 1 ∧ s.shared.resumed.count 1 = 2 := ⟨_, rfl, rfl, rfl⟩
  have := h s ⟨_, .inr ⟨⟨1, [65]⟩, rfl⟩, Pool.run_replay .init hs⟩ 1 h1
  omega

end OpenSips.Tcp
