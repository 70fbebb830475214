import OpenSips.Lib.Threads
import OpenSips.Str

/-!
# OpenSips.Tcp.Model — the write side of a TCP connection (`net/tcp/tcp.c`, `net/tcp/conns.c`)

One connection, from where `create_tcp_conn` has returned, with the threads that work on it.  Every
section under a lock, and every access outside of one, is a turn of its own; `state_lock` is part of
the state because `set_conn_state` may return with it held.  The timer may find the connection
expired at any time.
-/

namespace OpenSips.Tcp

open Lib

/-- `tcp_conn_state` -/
inductive ConnState where
  | READY | WRITING | TERM
  deriving DecidableEq

/-- What a call of `a_tcp_write` brings: a context and a buffer. -/
structure Write where
  ctx : ℕ
  buf : Str
  deriving DecidableEq

/-- The callbacks submitted to the OUT reactor. -/
inductive Callback where
  | a_tcp_connect_done | a_tcp_send_resume
  deriving DecidableEq

/-- Whom `a_tcp_send` returns to: to `async`, to `a_tcp_send_resume` run by a reactor, or to
`a_tcp_send_resume` called by `a_tcp_connect`. -/
inductive Caller where
  | async | reactor | connect
  deriving DecidableEq

/-- How the connection came to be: accepted, or by a connect that is pending, was done later, was
done at once, or failed at once. -/
inductive Opened where
  | accepted | pending | later | at_once | failed
  deriving DecidableEq

/-- What a thread does behind `remove_tcp_conn` or `unref_tcp_conn`. -/
inductive Cont where
  | stop
  | ret (ctx : ℕ) (by' : Caller) (n : ℤ)
  | fire_in (ctx : ℕ) (by' : Caller)
  deriving DecidableEq

inductive Pc where
  -- `tcp_accept` and `a_tcp_connect`, behind `create_tcp_conn`
  | accepted
  | connect_start (w : Write)
  | connect (w : Write)
  -- `a_tcp_connect_done`
  | connect_done
  | connect_result
  | connect_error (ctx : ℕ)
  | connect_read
  -- `a_tcp_write`, behind `search_tcp_conn`, and with `state_lock` held
  | set_writing (w : Write)
  | add_pending (w : Write)
  -- `a_tcp_send_resume` and `a_tcp_send`; `upload` holds `state_lock`
  | send_resume (by' : Caller)
  | send (w : Write) (offset : ℕ) (by' : Caller)
  | sending (w : Write) (offset : ℕ) (by' : Caller)
  | blocked (w : Write) (offset : ℕ) (by' : Caller)
  | failed (w : Write) (offset : ℕ) (by' : Caller)
  | completed (w : Write) (by' : Caller)
  | upload (w : Write) (by' : Caller)
  | put (w : Write) (by' : Caller)
  | fire_in (ctx : ℕ) (by' : Caller)
  | ret (ctx : ℕ) (by' : Caller) (n : ℤ)
  -- `unref_tcp_conn` and the sections of `remove_tcp_conn`
  | unref (k : Cont)
  | remove_id (extra_ref : ℕ) (k : Cont)
  | remove_ip (k : Cont)
  | remove_end (k : Cont)
  -- `tcp_event_read`
  | event_read
  | reading
  | read_done
  | terminate
  -- `tcp_timer_routine`, behind `hash_id_lock`
  | timer_fire_out
  | timer_fire_in
  -- `resume_write_on_failue`
  | on_failure (ctx : ℕ)
  deriving DecidableEq

/-- What the environment answers: a call worked, was interrupted, blocks or fails, or `send` took
`n` bytes. -/
inductive Answer where
  | ok | intr | block | err
  | took (n : ℕ)

/-- `struct tcp_conn`, what the reactors have of it, and, from `frees` on, what happened to it: the
calls of `free_tcp_conn`, the bytes `send` took, the writes that obtained or were queued behind
`WRITING`, the contexts given to `a_tcp_write` and the calls of their resume functions. -/
structure Conn where
  state : ConnState
  locked : Bool
  ref : ℤ
  id_linked : Bool
  ip_linked : Bool
  active : Write
  offset : ℕ
  queue : List Write
  reg_in : Bool
  reg_out : Option Callback
  fired_in : Bool
  fired_out : Bool
  frees : ℕ
  opened : Opened
  sent : Str
  order : List Write
  issued : Multiset ℕ
  resumed : Multiset ℕ

/-- The tasks of `resume_pending_writes`. -/
def resume_pending_writes (c : Conn) : List Pc := c.queue.map fun w => .on_failure w.ctx

/-- `set_conn_state`: it waits for the lock, and keeps it when it returns 1. -/
def set_conn_state (c : Conn) (new_state : ConnState) : Option (Conn × List Pc × ℤ) :=
  if c.locked then none
  else some (match c.state, new_state with
    | .READY, .READY => (c, [], -1)
    | .READY, _ => ({ c with state := new_state }, [], 0)
    | .WRITING, .WRITING => ({ c with locked := true }, [], 1)
    | .WRITING, .TERM => ({ c with state := .TERM }, resume_pending_writes c, 0)
    | .WRITING, .READY =>
      if c.queue = [] then ({ c with state := .READY }, [], 0) else ({ c with locked := true }, [], 1)
    | .TERM, _ => (c, [], -1))

/-- `conn->ref == 0` frees. -/
def free_if_unused (c : Conn) : Conn := if c.ref = 0 then { c with frees := c.frees + 1 } else c

def unref_tcp_conn (c : Conn) : Conn := free_if_unused { c with ref := c.ref - 1 }

def Cont.pcs : Cont → List Pc
  | .stop => []
  | .ret ctx by' n => [.ret ctx by' n]
  | .fire_in ctx by' => [.fire_in ctx by']

/-- How often a context is resumed when `a_tcp_send` returns `n`: `async` and `a_tcp_send_resume`
resume it unless `n` is 1, and for `a_tcp_connect` one after the other. -/
def resumes : Caller → ℤ → ℕ
  | .connect, n => if n = 1 then 0 else 2
  | _, n => if n = 1 then 0 else 1

/-- The next turn of a thread. -/
def turn (c : Conn) : Pc → Answer → Option (Conn × List Pc)
  | .accepted, _ => some ({ c with reg_in := true }, [])
  | .connect_start w, _ => some ({ c with active := w, offset := 0 }, [.connect w])
  | .connect w, .intr => some (c, [.connect w])
  | .connect _, .block => some ({ c with reg_out := some .a_tcp_connect_done }, [])
  | .connect w, .err =>
    some ({ c with opened := .failed }, [.remove_id 0 (.ret w.ctx .async (-1))])
  | .connect _, .ok => some ({ c with opened := .at_once }, [.send_resume .connect])
  | .connect_done, _ =>
    if c.state = .TERM then some (c, [.unref .stop]) else some (c, [.connect_result])
  | .connect_result, .block => some ({ c with reg_out := some .a_tcp_connect_done }, [])
  | .connect_result, .err => some (c, [.connect_error c.active.ctx])
  | .connect_result, .ok => some ({ c with ref := c.ref + 1, opened := .later }, [.connect_read])
  | .connect_error ctx, _ => do
    let (c, tasks, _) ← set_conn_state c .TERM
    some (c, .remove_id 0 (.ret ctx .async (-1)) :: tasks)
  | .connect_read, _ => some ({ c with reg_in := true }, [.send_resume .reactor])
  | .set_writing w, _ => do
    let (c', tasks, n) ← set_conn_state c .WRITING
    if n = 1 then some (c', .add_pending w :: tasks)
    else some (if n = 0 then { c' with order := c'.order ++ [w] } else c', .send w 0 .async :: tasks)
  | .add_pending w, .ok =>
    some ({ c with queue := c.queue ++ [w], order := c.order ++ [w], locked := false },
      [.unref (.ret w.ctx .async 1)])
  | .add_pending w, .err => some ({ c with locked := false }, [.unref (.ret w.ctx .async (-1))])
  | .send_resume by', _ => some (c, [.send c.active c.offset by'])
  | .send w offset by', _ =>
    if c.state = .TERM then some (c, [.unref (.ret w.ctx by' (-1))])
    else some (c, [.sending w offset by'])
  | .sending w offset by', .intr => some (c, [.sending w offset by'])
  | .sending w offset by', .took n =>
    if offset + n ≤ w.buf.length then
      some ({ c with sent := c.sent ++ (w.buf.drop offset).take n },
        [if offset + n = w.buf.length then .completed w by' else .sending w (offset + n) by'])
    else none
  | .sending w offset by', .block => some (c, [.blocked w offset by'])
  | .sending w offset by', .err => some (c, [.failed w offset by'])
  | .blocked w offset by', _ =>
    if c.locked then none
    else if c.state = .TERM then some (c, [.unref (.ret w.ctx by' (-1))])
    else some ({ c with active := w, offset := offset, reg_out := some .a_tcp_send_resume },
      [.ret w.ctx by' 1])
  | .failed w _ by', _ => do
    let (c, tasks, n) ← set_conn_state c .TERM
    if n = -1 then some (c, .ret w.ctx by' (-1) :: tasks)
    else some (c, .remove_id 1 (.fire_in w.ctx by') :: tasks)
  | .completed w by', _ => do
    let (c, tasks, n) ← set_conn_state c .READY
    if n = 1 then some (c, .upload w by' :: tasks)
    else some (c, .unref (.ret w.ctx by' 0) :: tasks)
  | .upload w by', _ =>
    match c.queue with
    | [] => none
    | old :: rest =>
      some ({ c with active := old, offset := 0, queue := rest, locked := false }, [.put w by'])
  | .put w by', _ => some (c, [.send_resume .reactor, .ret w.ctx by' 0])
  | .fire_in ctx by', _ => some ({ c with fired_in := true }, [.ret ctx by' (-1)])
  | .ret ctx by' n, _ =>
    some ({ c with resumed := Multiset.replicate (resumes by' n) ctx + c.resumed }, [])
  | .unref k, _ => some (unref_tcp_conn c, k.pcs)
  | .remove_id extra_ref k, _ =>
    some ({ c with id_linked := false, ref := c.ref - extra_ref }, [.remove_ip k])
  | .remove_ip k, _ => some ({ c with ip_linked := false }, [.remove_end k])
  | .remove_end k, _ => some (free_if_unused c, k.pcs)
  | .event_read, _ =>
    if c.state = .TERM then some (c, [.unref .stop]) else some (c, [.reading])
  | .reading, .ok => some (c, [.read_done])
  | .reading, .err => some (c, [.terminate])
  | .read_done, _ =>
    if c.locked then none
    else if c.state = .TERM then some (unref_tcp_conn c, [])
    else some ({ c with reg_in := true }, [])
  | .terminate, _ => do
    let (c, tasks, n) ← set_conn_state c .TERM
    if n = -1 then some (c, tasks) else some (c, .remove_id 1 .stop :: tasks)
  | .timer_fire_out, _ => some ({ c with fired_out := true }, [.timer_fire_in])
  | .timer_fire_in, _ => some ({ c with fired_in := true }, [.remove_id 1 .stop])
  | .on_failure ctx, _ => some ({ c with resumed := ctx ::ₘ c.resumed }, [])
  | _, _ => none

/-- What happens outside of the threads at work: a call of `a_tcp_write` finds the connection, the
timer finds it expired, the socket is ready, a reactor handles `fire_fd`. -/
inductive Event where
  | write (w : Write)
  | timer
  | ready_in | ready_out
  | fire_in | fire_out

def Callback.pc : Callback → Pc
  | .a_tcp_connect_done => .connect_done
  | .a_tcp_send_resume => .send_resume .reactor

def event (c : Conn) : Event → Option (Conn × List Pc)
  | .write w =>
    if c.state ≠ .TERM ∧ (c.id_linked ∨ c.ip_linked) then
      some ({ c with ref := c.ref + 1, issued := w.ctx ::ₘ c.issued }, [.set_writing w])
    else none
  | .timer =>
    if c.id_linked then do
      let (c, tasks, n) ← set_conn_state c .TERM
      if n = -1 then some (c, tasks)
      else some ({ c with ref := c.ref + 1 }, .timer_fire_out :: tasks)
    else none
  | .ready_in => if c.reg_in then some ({ c with reg_in := false }, [.event_read]) else none
  | .ready_out => c.reg_out.map fun cb => ({ c with reg_out := none }, [cb.pc])
  | .fire_in =>
    if c.fired_in then
      some ({ c with fired_in := false, reg_in := false }, if c.reg_in then [.event_read] else [])
    else none
  | .fire_out =>
    if c.fired_out then
      some ({ c with fired_out := false, reg_out := none }, c.reg_out.toList.map Callback.pc)
    else none

/-- The connection in the state `create_tcp_conn` leaves it in. -/
def create_tcp_conn (init_state : ConnState) (opened : Opened) (order : List Write) : Conn where
  state := init_state
  locked := false
  ref := 1
  id_linked := true
  ip_linked := true
  active := ⟨0, []⟩
  offset := 0
  queue := []
  reg_in := false
  reg_out := none
  fired_in := false
  fired_out := false
  frees := 0
  opened := opened
  sent := []
  order := order
  issued := order.map Write.ctx
  resumed := 0

/-- `tcp_accept` and `a_tcp_connect` behind `create_tcp_conn`. -/
def tcp_accept : Pool Conn Pc := ⟨create_tcp_conn .READY .accepted [], {.accepted}⟩

def a_tcp_connect (w : Write) : Pool Conn Pc :=
  ⟨create_tcp_conn .WRITING .pending [w], {.connect_start w}⟩

/-- The runs of a connection whose turns are all `allowed`. -/
def Reachable (allowed : Conn → Multiset Pc → Turn Pc Answer Event → Prop) (s : Pool Conn Pc) :
    Prop :=
  ∃ init, (init = tcp_accept ∨ ∃ w, init = a_tcp_connect w) ∧
    Run (Pool.exec turn event) (fun s _ op => allowed s.shared s.threads op) (fun _ _ _ _ => ())
      (init, ()) s ()

end OpenSips.Tcp
