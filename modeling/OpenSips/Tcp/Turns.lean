import OpenSips.Tcp.Model

/-!
# OpenSips.Tcp.Turns — what a turn can do

Each branch of a turn with its guard and its effect, so that invariants need not unfold the turns.
-/

namespace OpenSips.Tcp

open Lib Option

variable {c c' : Conn} {new tasks : List Pc} {n : ℤ}

theorem free_if_unused_eq (c : Conn) :
    free_if_unused c = { c with frees := c.frees + if c.ref = 0 then 1 else 0 } := by
  unfold free_if_unused
  by_cases h : c.ref = 0
  · rw [if_pos h, if_pos h]
  · rw [if_neg h, if_neg h]
    rfl

theorem unref_tcp_conn_eq (c : Conn) : unref_tcp_conn c =
    { c with ref := c.ref - 1, frees := c.frees + if c.ref - 1 = 0 then 1 else 0 } :=
  free_if_unused_eq _

def flushed (c : Conn) : List Pc := if c.state = .WRITING then resume_pending_writes c else []

theorem set_unlocked {st : ConnState} {r : Conn × List Pc × ℤ} (h : set_conn_state c st = some r) :
    c.locked = false := by
  unfold set_conn_state at h
  by_contra hl
  rw [if_pos (Bool.eq_true_of_not_eq_false hl)] at h
  exact absurd h (by simp)

theorem set_term (h : set_conn_state c .TERM = some (c', tasks, n)) :
    c.locked = false ∧ ((c.state = .TERM ∧ c' = c ∧ tasks = [] ∧ n = -1) ∨
      (c.state ≠ .TERM ∧ c' = { c with state := .TERM } ∧ tasks = flushed c ∧ n = 0)) := by
  have hl := set_unlocked h
  unfold set_conn_state at h
  rw [if_neg (Bool.eq_false_iff.1 hl)] at h
  refine ⟨hl, ?_⟩
  cases hs : c.state with
  | READY =>
    rw [hs] at h
    cases h
    exact .inr ⟨by decide, rfl, by rw [flushed, hs, if_neg (by decide)], rfl⟩
  | WRITING =>
    rw [hs] at h
    cases h
    exact .inr ⟨by decide, rfl, by rw [flushed, hs, if_pos rfl], rfl⟩
  | TERM =>
    rw [hs] at h
    cases h
    exact .inl ⟨rfl, rfl, rfl, rfl⟩

theorem set_writing (h : set_conn_state c .WRITING = some (c', tasks, n)) :
    c.locked = false ∧ tasks = [] ∧ ((c.state = .READY ∧ c' = { c with state := .WRITING } ∧ n = 0) ∨
      (c.state = .WRITING ∧ c' = { c with locked := true } ∧ n = 1) ∨
      (c.state = .TERM ∧ c' = c ∧ n = -1)) := by
  have hl := set_unlocked h
  unfold set_conn_state at h
  rw [if_neg (Bool.eq_false_iff.1 hl)] at h
  cases hs : c.state with
  | READY =>
    rw [hs] at h
    cases h
    exact ⟨hl, rfl, .inl ⟨rfl, rfl, rfl⟩⟩
  | WRITING =>
    rw [hs] at h
    cases h
    exact ⟨hl, rfl, .inr (.inl ⟨rfl, rfl, rfl⟩)⟩
  | TERM =>
    rw [hs] at h
    cases h
    exact ⟨hl, rfl, .inr (.inr ⟨rfl, rfl, rfl⟩)⟩

theorem set_ready (h : set_conn_state c .READY = some (c', tasks, n)) : c.locked = false ∧ tasks = [] ∧
      ((c.state = .WRITING ∧ c.queue = [] ∧ c' = { c with state := .READY } ∧ n = 0) ∨
      (c.state = .WRITING ∧ c.queue ≠ [] ∧ c' = { c with locked := true } ∧ n = 1) ∨
      (c.state ≠ .WRITING ∧ c' = c ∧ n = -1)) := by
  have hl := set_unlocked h
  unfold set_conn_state at h
  rw [if_neg (Bool.eq_false_iff.1 hl)] at h
  cases hs : c.state with
  | READY =>
    rw [hs] at h
    cases h
    exact ⟨hl, rfl, .inr (.inr ⟨by decide, rfl, rfl⟩)⟩
  | WRITING =>
    rw [hs] at h
    dsimp only at h
    by_cases hq : c.queue = []
    · rw [if_pos hq] at h
      cases h
      exact ⟨hl, rfl, .inl ⟨rfl, hq, rfl, rfl⟩⟩
    · rw [if_neg hq] at h
      cases h
      exact ⟨hl, rfl, .inr (.inl ⟨rfl, hq, rfl, rfl⟩)⟩
  | TERM =>
    rw [hs] at h
    cases h
    exact ⟨hl, rfl, .inr (.inr ⟨by decide, rfl, rfl⟩)⟩

/-- `Does c pc a c' new`: a thread at `pc` that is answered `a` leaves the connection as `c'` and goes
on at, or starts threads at, the points `new`. -/
inductive Does (c : Conn) : Pc → Answer → Conn → List Pc → Prop where
  | accepted {a : Answer} : Does c .accepted a { c with reg_in := true } []
  | connect_start {a : Answer} (w : Write) :
    Does c (.connect_start w) a { c with active := w, offset := 0 } [.connect w]
  | connect_intr (w : Write) : Does c (.connect w) .intr c [.connect w]
  | connect_block (w : Write) :
    Does c (.connect w) .block { c with reg_out := some .a_tcp_connect_done } []
  | connect_err (w : Write) : Does c (.connect w) .err { c with opened := .failed }
      [.remove_id 0 (.ret w.ctx .async (-1))]
  | connect_ok (w : Write) :
    Does c (.connect w) .ok { c with opened := .at_once } [.send_resume .connect]
  | done_term {a : Answer} (hs : c.state = .TERM) : Does c .connect_done a c [.unref .stop]
  | done {a : Answer} (hs : c.state ≠ .TERM) : Does c .connect_done a c [.connect_result]
  | result_block : Does c .connect_result .block { c with reg_out := some .a_tcp_connect_done } []
  | result_err : Does c .connect_result .err c [.connect_error c.active.ctx]
  | result_ok :
    Does c .connect_result .ok { c with ref := c.ref + 1, opened := .later } [.connect_read]
  | error_term {a : Answer} (ctx : ℕ) (hl : c.locked = false) (hs : c.state = .TERM) :
    Does c (.connect_error ctx) a c [.remove_id 0 (.ret ctx .async (-1))]
  | error {a : Answer} (ctx : ℕ) (hl : c.locked = false) (hs : c.state ≠ .TERM) :
    Does c (.connect_error ctx) a { c with state := .TERM }
      (.remove_id 0 (.ret ctx .async (-1)) :: flushed c)
  | connect_read {a : Answer} :
    Does c .connect_read a { c with reg_in := true } [.send_resume .reactor]
  | obtain {a : Answer} (w : Write) (hl : c.locked = false) (hs : c.state = .READY) :
    Does c (.set_writing w) a { c with state := .WRITING, order := c.order ++ [w] }
      [.send w 0 .async]
  | behind {a : Answer} (w : Write) (hl : c.locked = false) (hs : c.state = .WRITING) :
    Does c (.set_writing w) a { c with locked := true } [.add_pending w]
  | refused {a : Answer} (w : Write) (hl : c.locked = false) (hs : c.state = .TERM) :
    Does c (.set_writing w) a c [.send w 0 .async]
  | add_ok (w : Write) : Does c (.add_pending w) .ok
      { c with queue := c.queue ++ [w], order := c.order ++ [w], locked := false }
      [.unref (.ret w.ctx .async 1)]
  | add_err (w : Write) : Does c (.add_pending w) .err { c with locked := false }
      [.unref (.ret w.ctx .async (-1))]
  | send_resume {a : Answer} (b : Caller) : Does c (.send_resume b) a c [.send c.active c.offset b]
  | send_term {a : Answer} (w : Write) (o : ℕ) (b : Caller) (hs : c.state = .TERM) :
    Does c (.send w o b) a c [.unref (.ret w.ctx b (-1))]
  | send {a : Answer} (w : Write) (o : ℕ) (b : Caller) (hs : c.state ≠ .TERM) :
    Does c (.send w o b) a c [.sending w o b]
  | sending_intr (w : Write) (o : ℕ) (b : Caller) : Does c (.sending w o b) .intr c [.sending w o b]
  | sending_part (w : Write) (o n : ℕ) (b : Caller) (hn : o + n < w.buf.length) :
    Does c (.sending w o b) (.took n) { c with sent := c.sent ++ (w.buf.drop o).take n }
      [.sending w (o + n) b]
  | sending_all (w : Write) (o n : ℕ) (b : Caller) (hn : o + n = w.buf.length) :
    Does c (.sending w o b) (.took n) { c with sent := c.sent ++ (w.buf.drop o).take n } [.completed w b]
  | sending_block (w : Write) (o : ℕ) (b : Caller) :
    Does c (.sending w o b) .block c [.blocked w o b]
  | sending_err (w : Write) (o : ℕ) (b : Caller) : Does c (.sending w o b) .err c [.failed w o b]
  | blocked_term {a : Answer} (w : Write) (o : ℕ) (b : Caller) (hl : c.locked = false) (hs : c.state = .TERM) :
    Does c (.blocked w o b) a c [.unref (.ret w.ctx b (-1))]
  | blocked {a : Answer} (w : Write) (o : ℕ) (b : Caller) (hl : c.locked = false) (hs : c.state ≠ .TERM) :
    Does c (.blocked w o b) a
      { c with active := w, offset := o, reg_out := some .a_tcp_send_resume } [.ret w.ctx b 1]
  | failed_term {a : Answer} (w : Write) (o : ℕ) (b : Caller) (hl : c.locked = false) (hs : c.state = .TERM) :
    Does c (.failed w o b) a c [.ret w.ctx b (-1)]
  | failed {a : Answer} (w : Write) (o : ℕ) (b : Caller) (hl : c.locked = false) (hs : c.state ≠ .TERM) :
    Does c (.failed w o b) a { c with state := .TERM }
      (.remove_id 1 (.fire_in w.ctx b) :: flushed c)
  | completed {a : Answer} (w : Write) (b : Caller) (hl : c.locked = false) (hs : c.state = .WRITING)
      (hq : c.queue = []) :
    Does c (.completed w b) a { c with state := .READY } [.unref (.ret w.ctx b 0)]
  | completed_more {a : Answer} (w : Write) (b : Caller) (hl : c.locked = false) (hs : c.state = .WRITING)
      (hq : c.queue ≠ []) :
    Does c (.completed w b) a { c with locked := true } [.upload w b]
  | completed_idle {a : Answer} (w : Write) (b : Caller) (hl : c.locked = false) (hs : c.state ≠ .WRITING) :
    Does c (.completed w b) a c [.unref (.ret w.ctx b 0)]
  | upload {a : Answer} (w old : Write) (rest : List Write) (b : Caller) (hq : c.queue = old :: rest) :
    Does c (.upload w b) a
      { c with active := old, offset := 0, queue := rest, locked := false } [.put w b]
  | put {a : Answer} (w : Write) (b : Caller) :
    Does c (.put w b) a c [.send_resume .reactor, .ret w.ctx b 0]
  | fire_in {a : Answer} (ctx : ℕ) (b : Caller) :
    Does c (.fire_in ctx b) a { c with fired_in := true } [.ret ctx b (-1)]
  | ret {a : Answer} (ctx : ℕ) (b : Caller) (n : ℤ) : Does c (.ret ctx b n) a
      { c with resumed := Multiset.replicate (resumes b n) ctx + c.resumed } []
  | unref {a : Answer} (k : Cont) : Does c (.unref k) a (unref_tcp_conn c) k.pcs
  | remove_id {a : Answer} (extra : ℕ) (k : Cont) :
    Does c (.remove_id extra k) a { c with id_linked := false, ref := c.ref - extra } [.remove_ip k]
  | remove_ip {a : Answer} (k : Cont) :
    Does c (.remove_ip k) a { c with ip_linked := false } [.remove_end k]
  | remove_end {a : Answer} (k : Cont) : Does c (.remove_end k) a (free_if_unused c) k.pcs
  | event_term {a : Answer} (hs : c.state = .TERM) : Does c .event_read a c [.unref .stop]
  | event {a : Answer} (hs : c.state ≠ .TERM) : Does c .event_read a c [.reading]
  | reading_ok : Does c .reading .ok c [.read_done]
  | reading_err : Does c .reading .err c [.terminate]
  | read_term {a : Answer} (hl : c.locked = false) (hs : c.state = .TERM) :
    Does c .read_done a (unref_tcp_conn c) []
  | read_done {a : Answer} (hl : c.locked = false) (hs : c.state ≠ .TERM) :
    Does c .read_done a { c with reg_in := true } []
  | terminate_term {a : Answer} (hl : c.locked = false) (hs : c.state = .TERM) :
    Does c .terminate a c []
  | terminate {a : Answer} (hl : c.locked = false) (hs : c.state ≠ .TERM) :
    Does c .terminate a { c with state := .TERM } (.remove_id 1 .stop :: flushed c)
  | timer_fire_out {a : Answer} :
    Does c .timer_fire_out a { c with fired_out := true } [.timer_fire_in]
  | timer_fire_in {a : Answer} :
    Does c .timer_fire_in a { c with fired_in := true } [.remove_id 1 .stop]
  | on_failure {a : Answer} (ctx : ℕ) :
    Does c (.on_failure ctx) a { c with resumed := ctx ::ₘ c.resumed } []

/-- **The turns, branch by branch.** -/
theorem turn_does {pc : Pc} {a : Answer} (e : turn c pc a = some (c', new)) : Does c pc a c' new := by
  cases pc with
  | accepted => cases e; exact .accepted
  | connect_start w => cases e; exact .connect_start w
  | connect w => cases a <;> cases e <;> constructor
  | connect_done =>
    by_cases hs : c.state = .TERM
    · rw [turn, if_pos hs] at e
      cases e
      exact .done_term hs
    · rw [turn, if_neg hs] at e
      cases e
      exact .done hs
  | connect_result => cases a <;> cases e <;> constructor
  | connect_error ctx =>
    obtain ⟨⟨c1, tasks, n⟩, hset, e⟩ := bind_eq_some_iff.1 e
    cases e
    obtain ⟨hl, ⟨hs, rfl, rfl, -⟩ | ⟨hs, rfl, rfl, -⟩⟩ := set_term hset
    · exact .error_term ctx hl hs
    · exact .error ctx hl hs
  | connect_read => cases e; exact .connect_read
  | set_writing w =>
    obtain ⟨⟨c1, tasks, n⟩, hset, e⟩ := bind_eq_some_iff.1 e
    obtain ⟨hl, rfl, ⟨hs, rfl, rfl⟩ | ⟨hs, rfl, rfl⟩ | ⟨hs, rfl, rfl⟩⟩ := set_writing hset
    · cases e
      exact .obtain w hl hs
    · cases e
      exact .behind w hl hs
    · cases e
      exact .refused w hl hs
  | add_pending w => cases a <;> cases e <;> constructor
  | send_resume b => cases e; exact .send_resume b
  | send w o b =>
    by_cases hs : c.state = .TERM
    · rw [turn, if_pos hs] at e
      cases e
      exact .send_term w o b hs
    · rw [turn, if_neg hs] at e
      cases e
      exact .send w o b hs
  | sending w o b =>
    cases a with
    | ok => cases e
    | intr => cases e; exact .sending_intr w o b
    | block => cases e; exact .sending_block w o b
    | err => cases e; exact .sending_err w o b
    | took n =>
      rw [turn] at e
      by_cases hn : o + n ≤ w.buf.length
      · rw [if_pos hn] at e
        by_cases he : o + n = w.buf.length
        · rw [if_pos he] at e
          cases e
          exact .sending_all w o n b he
        · rw [if_neg he] at e
          cases e
          exact .sending_part w o n b (Nat.lt_of_le_of_ne hn he)
      · rw [if_neg hn] at e
        exact absurd e (by simp)
  | blocked w o b =>
    rw [turn] at e
    by_cases hl : c.locked = true
    · rw [if_pos hl] at e
      exact absurd e (by simp)
    · rw [if_neg hl] at e
      have hl' : c.locked = false := Bool.eq_false_iff.2 hl
      by_cases hs : c.state = .TERM
      · rw [if_pos hs] at e
        cases e
        exact .blocked_term w o b hl' hs
      · rw [if_neg hs] at e
        cases e
        exact .blocked w o b hl' hs
  | failed w o b =>
    obtain ⟨⟨c1, tasks, n⟩, hset, e⟩ := bind_eq_some_iff.1 e
    obtain ⟨hl, ⟨hs, rfl, rfl, rfl⟩ | ⟨hs, rfl, rfl, rfl⟩⟩ := set_term hset
    · cases e
      exact .failed_term w o b hl hs
    · cases e
      exact .failed w o b hl hs
  | completed w b =>
    obtain ⟨⟨c1, tasks, n⟩, hset, e⟩ := bind_eq_some_iff.1 e
    obtain ⟨hl, rfl, ⟨hs, hq, rfl, rfl⟩ | ⟨hs, hq, rfl, rfl⟩ | ⟨hs, rfl, rfl⟩⟩ := set_ready hset
    · cases e
      exact .completed w b hl hs hq
    · cases e
      exact .completed_more w b hl hs hq
    · cases e
      exact .completed_idle w b hl hs
  | upload w b =>
    rw [turn] at e
    cases hq : c.queue with
    | nil =>
      rw [hq] at e
      exact absurd e (by simp)
    | cons old rest =>
      rw [hq] at e
      cases e
      exact .upload w old rest b hq
  | put w b => cases e; exact .put w b
  | fire_in ctx b => cases e; exact .fire_in ctx b
  | ret ctx b n => cases e; exact .ret ctx b n
  | unref k => cases e; exact .unref k
  | remove_id extra k => cases e; exact .remove_id extra k
  | remove_ip k => cases e; exact .remove_ip k
  | remove_end k => cases e; exact .remove_end k
  | event_read =>
    by_cases hs : c.state = .TERM
    · rw [turn, if_pos hs] at e
      cases e
      exact .event_term hs
    · rw [turn, if_neg hs] at e
      cases e
      exact .event hs
  | reading => cases a <;> cases e <;> constructor
  | read_done =>
    rw [turn] at e
    by_cases hl : c.locked = true
    · rw [if_pos hl] at e
      exact absurd e (by simp)
    · rw [if_neg hl] at e
      have hl' : c.locked = false := Bool.eq_false_iff.2 hl
      by_cases hs : c.state = .TERM
      · rw [if_pos hs] at e
        cases e
        exact .read_term hl' hs
      · rw [if_neg hs] at e
        cases e
        exact .read_done hl' hs
  | terminate =>
    obtain ⟨⟨c1, tasks, n⟩, hset, e⟩ := bind_eq_some_iff.1 e
    obtain ⟨hl, ⟨hs, rfl, rfl, rfl⟩ | ⟨hs, rfl, rfl, rfl⟩⟩ := set_term hset
    · cases e
      exact .terminate_term hl hs
    · cases e
      exact .terminate hl hs
  | timer_fire_out => cases e; exact .timer_fire_out
  | timer_fire_in => cases e; exact .timer_fire_in
  | on_failure ctx => cases e; exact .on_failure ctx

inductive Happens (c : Conn) : Event → Conn → List Pc → Prop where
  | write (w : Write) (hs : c.state ≠ .TERM) (hl : c.id_linked = true ∨ c.ip_linked = true) :
    Happens c (.write w) { c with ref := c.ref + 1, issued := w.ctx ::ₘ c.issued } [.set_writing w]
  | timer_term (hl : c.locked = false) (hi : c.id_linked = true) (hs : c.state = .TERM) :
    Happens c .timer c []
  | timer (hl : c.locked = false) (hi : c.id_linked = true) (hs : c.state ≠ .TERM) :
    Happens c .timer { c with state := .TERM, ref := c.ref + 1 } (.timer_fire_out :: flushed c)
  | ready_in (hr : c.reg_in = true) : Happens c .ready_in { c with reg_in := false } [.event_read]
  | ready_out (cb : Callback) (hr : c.reg_out = some cb) :
    Happens c .ready_out { c with reg_out := none } [cb.pc]
  | fire_in_none (hr : c.reg_in = false) :
    Happens c .fire_in { c with fired_in := false, reg_in := false } []
  | fire_in (hr : c.reg_in = true) :
    Happens c .fire_in { c with fired_in := false, reg_in := false } [.event_read]
  | fire_out_none (hr : c.reg_out = none) :
    Happens c .fire_out { c with fired_out := false, reg_out := none } []
  | fire_out (cb : Callback) (hr : c.reg_out = some cb) :
    Happens c .fire_out { c with fired_out := false, reg_out := none } [cb.pc]

theorem event_happens {ev : Event} (e : event c ev = some (c', new)) : Happens c ev c' new := by
  cases ev with
  | write w =>
    rw [event] at e
    by_cases h : c.state ≠ .TERM ∧ (c.id_linked = true ∨ c.ip_linked = true)
    · rw [if_pos h] at e
      cases e
      exact .write w h.1 h.2
    · rw [if_neg h] at e
      exact absurd e (by simp)
  | timer =>
    rw [event] at e
    cases hi : c.id_linked with
    | false =>
      rw [hi, if_neg Bool.false_ne_true] at e
      exact absurd e (by simp)
    | true =>
      rw [hi, if_pos rfl] at e
      obtain ⟨⟨c1, tasks, n⟩, hset, e⟩ := bind_eq_some_iff.1 e
      obtain ⟨hl, ⟨hs, rfl, rfl, rfl⟩ | ⟨hs, rfl, rfl, rfl⟩⟩ := set_term hset
      · cases e
        exact .timer_term hl hi hs
      · cases e
        exact .timer hl hi hs
  | ready_in =>
    rw [event] at e
    cases hr : c.reg_in with
    | false =>
      rw [hr, if_neg Bool.false_ne_true] at e
      exact absurd e (by simp)
    | true =>
      rw [hr, if_pos rfl] at e
      cases e
      exact .ready_in hr
  | ready_out =>
    rw [event] at e
    obtain ⟨cb, hr, e⟩ := map_eq_some_iff.1 e
    cases e
    exact .ready_out cb hr
  | fire_in =>
    rw [event] at e
    cases hf : c.fired_in with
    | false =>
      rw [hf, if_neg Bool.false_ne_true] at e
      exact absurd e (by simp)
    | true =>
      rw [hf, if_pos rfl] at e
      cases hr : c.reg_in with
      | false =>
        rw [hr, if_neg Bool.false_ne_true] at e
        cases e
        exact .fire_in_none hr
      | true =>
        rw [hr, if_pos rfl] at e
        cases e
        exact .fire_in hr
  | fire_out =>
    rw [event] at e
    cases hf : c.fired_out with
    | false =>
      rw [hf, if_neg Bool.false_ne_true] at e
      exact absurd e (by simp)
    | true =>
      rw [hf, if_pos rfl] at e
      cases hr : c.reg_out with
      | none =>
        rw [hr] at e
        cases e
        exact .fire_out_none hr
      | some cb =>
        rw [hr] at e
        cases e
        exact .fire_out cb hr

end OpenSips.Tcp
