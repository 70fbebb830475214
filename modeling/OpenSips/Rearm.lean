import OpenSips.Db.Model
import OpenSips.Mi.Model

/-!
# OpenSips.Rearm — the handlers of descriptors that stay

A reactor forgets a descriptor when it calls its handler, which has to submit it again.  Each handler is
a function of what the calls in it give, to its return code and to what it does, in order.  Besides the
management interface and the queries these are `udp_read` (`core/net/udp/udp.c`), `tcp_accept` and
`tcp_event_read` (`core/net/tcp/tcp.c`).
-/

namespace OpenSips.Rearm

open Option

/-- What a handler does: `submit_task` on the IN reactor with a callback and a descriptor, and other
things. -/
inductive Act where
  | udp_read (fd : ℕ) | tcp_accept (fd : ℕ) | tcp_event_read (fd : ℕ)
  | close (fd : ℕ)
  | shm_free
  | put_task
  | handle_new_msg
  | unref_tcp_conn
  | terminate
  deriving DecidableEq

section Udp

/-- What a `recvfrom` gives: a datagram and its length, one of `EAGAIN`, `EINTR`, `EWOULDBLOCK` and
`ECONNREFUSED`, or another error. -/
inductive Recv where
  | len (n : ℕ) | again | error
  deriving DecidableEq

/-- `do … while (n<0)`: the length, or none for an error that ends the loop.  There is no result as long
as the loop goes on. -/
def recvfrom : List Recv → Option (Option ℕ × List Recv)
  | [] => none
  | .again :: recvs => recvfrom recvs
  | .len n :: recvs => some (some n, recvs)
  | .error :: recvs => some (none, recvs)

/-- `memory` is whether there is memory for the message; `src_port` and `parsed` are the port that the
datagram comes from and what `parse_msg` returns. -/
def udp_read (socket udp_min_size : ℕ) (recvs : List Recv) (memory : Bool) (src_port : ℕ)
    (parsed : ℤ) : Option (ℤ × List Act) :=
  match recvfrom recvs with
  | none => none
  | some (none, _) => some (-1, [])
  | some (some len, recvs) =>
    -- four bytes are read to flush the event
    if !memory then some (-1, [])
    else
      match recvfrom recvs with
      | none => none
      | some (none, _) => some (-1, [.shm_free])
      | some (some _, _) =>
        if len < udp_min_size then some (-1, [.udp_read socket, .shm_free])
        else if src_port = 0 then some (-1, [.udp_read socket, .shm_free])
        else if parsed ≠ 0 then some (-1, [.udp_read socket, .shm_free])
        else some (0, [.udp_read socket, .handle_new_msg])

end Udp

section Tcp

/-- What `accept` gives: a descriptor, one of `EAGAIN` and `EWOULDBLOCK`, or another error. -/
inductive Accept where
  | fd (s : ℕ) | again | error
  deriving DecidableEq

/-- `init` and `create` are whether `init_tcp_socket` and `create_tcp_conn` work. -/
def tcp_accept (socket : ℕ) (accepted : Accept) (init create : Bool) : ℤ × List Act :=
  match accepted with
  | .again => (0, [])
  | .error => (-1, [])
  | .fd s =>
    if !init then (-1, [.tcp_accept socket, .close s])
    else if !create then (-1, [.tcp_accept socket, .close s])
    else (0, [.tcp_accept socket, .tcp_event_read s])

def TCP_READ_CHUNK : ℤ := 4098

def TCP_READ_MINFREE : ℤ := 16

/-- What a `read` gives: data (none at the end), `EWOULDBLOCK` or `EAGAIN`, `EINTR`, or another error. -/
inductive Read where
  | got (n : ℕ) | again | intr | error
  deriving DecidableEq

/-- The length that is returned, and `eof`. -/
def tcp_read : List Read → Option (ℤ × Bool)
  | [] => none
  | .intr :: reads => tcp_read reads
  | .again :: _ => some (0, false)
  | .error :: _ => some (-1, false)
  | .got n :: _ => some (n, n = 0)

/-- The message being read (`conn->read.msg`): how much of it was read, and whether its headers are
all parsed. -/
structure Msg where
  len : ℤ
  eoh : Bool
  deriving DecidableEq

/-- `conn->read` -/
structure ReadBuf where
  msg : Option Msg
  size : ℤ
  msg_len : ℤ
  deriving DecidableEq

/-- What `parse_msg` makes of the message: its return code, whether the end of the headers was found,
and, if there is a Content-Length, how long the whole message is then. -/
structure Parsed where
  ret : ℤ
  eoh : Bool
  msg_len : Option ℤ
  deriving DecidableEq

/-- The message and its length behind the headers; none is to terminate. -/
def parse_hdrs (m : Msg) (msg_len : ℤ) (p : Parsed) : Option (Msg × ℤ) :=
  if m.eoh then some (m, msg_len)
  else if p.ret < 0 then none
  else if p.ret = 0 ∧ p.eoh then p.msg_len.map fun l => ({ m with eoh := true }, l)
  else some ({ m with eoh := p.eoh }, msg_len)

/-- From `again_message` on: every pass takes what parsing gives and whether there is memory for one
more message.  `msg` is whether a message was detached in an earlier pass, which is put on the
dispatcher then.  The result is none to terminate; there is none as long as the passes go on. -/
def again_message (m : Msg) (size msg_len : ℤ) (msg : Bool) (acts : List Act) :
    List (Parsed × Bool) → Option (Option (ReadBuf × Bool) × List Act)
  | [] => none
  | (p, memory) :: passes =>
    match parse_hdrs m msg_len p with
    | none => some (none, acts)
    | some (m, msg_len) =>
      -- entire message read ?
      if m.eoh ∧ msg_len ≤ m.len then
        let acts := if msg then acts ++ [.put_task] else acts
        if msg_len < m.len then
          let n := m.len - msg_len
          if !memory then some (none, acts)
          else again_message ⟨n, false⟩ ((n / TCP_READ_CHUNK + 1) * TCP_READ_CHUNK) 0 true acts passes
        else some (some (⟨none, 0, 0⟩, true), acts)
      else some (some (⟨some m, size, msg_len⟩, msg), acts)

/-- The space for reading: a new message, or what is left of the buffer of the one being read, which is
made larger when that is little.  None is to terminate. -/
def make_room (buf : ReadBuf) (tcp_max_size : ℤ) (memory : Bool) : Option (Msg × ℤ) :=
  match buf.msg with
  | none => if memory then some (⟨0, false⟩, TCP_READ_CHUNK) else none
  | some m =>
    if buf.size - m.len < TCP_READ_MINFREE then
      if buf.size + TCP_READ_CHUNK > tcp_max_size then none
      else if memory then some (m, buf.size + TCP_READ_CHUNK) else none
    else some (m, buf.size)

/-- `term` and `term'` are whether the connection is in the state `TCP_CONN_TERM` when the handler is
called and when it has the lock in the end.  The second result is whether it is when the handler returns. -/
def tcp_event_read (socket : ℕ) (tcp_max_size : ℤ) (term term' : Bool) (buf : ReadBuf) (memory : Bool)
    (reads : List Read) (passes : List (Parsed × Bool)) : Option (List Act × Bool) :=
  if term then some ([.unref_tcp_conn], true)
  else
    match make_room buf tcp_max_size memory with
    | none => some ([.terminate], true)
    | some (m, size) =>
      match tcp_read reads with
      | none => none
      | some (len, eof) =>
        let resubmit (msg : Bool) : List Act :=
          (if !eof && !term' then [.tcp_event_read socket] else [.unref_tcp_conn]) ++
            if msg then [.handle_new_msg] else []
        if len < 0 then some ([.terminate], true)
        else if len = 0 then
          if eof then some ([.terminate], true) else some (resubmit false, term')
        else
          match again_message { m with len := m.len + len } size buf.msg_len false [] passes with
          | none => none
          | some (none, acts) => some (acts ++ [.terminate], true)
          | some (some (_, msg), acts) => some (acts ++ resubmit msg, term')

end Tcp

section Rearming

/-- `udp_read` submits its socket behind the second `recvfrom`. -/
theorem udp_read_rearms {socket udp_min_size : ℕ} {recvs : List Recv} {memory : Bool} {src_port : ℕ}
    {parsed ret : ℤ} {acts : List Act}
    (h : udp_read socket udp_min_size recvs memory src_port parsed = some (ret, acts)) :
    acts.count (.udp_read socket) = 1 ↔ ∃ len rest, recvfrom recvs = some (some len, rest) ∧ memory = true ∧
        ∃ len' rest', recvfrom rest = some (some len', rest') := by
  rw [udp_read] at h
  cases hpeek : recvfrom recvs with
  | none => simp [hpeek] at h
  | some peek =>
    obtain ⟨len, rest⟩ := peek
    rw [hpeek] at h
    cases len with
    | none =>
      cases h
      simp
    | some len =>
      cases memory with
      | false =>
        cases h
        simp
      | true =>
        simp only [Bool.not_true, Bool.false_eq_true, if_false] at h
        cases hread : recvfrom rest with
        | none => simp [hread] at h
        | some r =>
          obtain ⟨len', rest'⟩ := r
          simp only [hread] at h
          cases len' with
          | none =>
            cases h
            simp [hread]
          | some len' =>
            refine iff_of_true ?_ ⟨len, rest, rfl, rfl, len', rest', hread⟩
            -- whatever becomes of the datagram
            simp only at h
            split at h
            · cases h
              simp
            · split at h
              · cases h
                simp
              · split at h
                · cases h
                  simp
                · cases h
                  simp

/-- `tcp_accept` submits its socket when there is a connection. -/
theorem tcp_accept_rearms (socket : ℕ) (accepted : Accept) (init create : Bool) :
    (tcp_accept socket accepted init create).2.count (.tcp_accept socket) = 1 ↔ ∃ s, accepted = .fd s := by
  cases accepted with
  | fd s =>
    refine iff_of_true ?_ ⟨s, rfl⟩
    cases init <;> cases create <;> simp [tcp_accept]
  | again => simp [tcp_accept]
  | error => simp [tcp_accept]

theorem count_again_message {m : Msg} {size msg_len : ℤ} {msg : Bool} {acts acts' : List Act}
    {passes : List (Parsed × Bool)} {r : Option (ReadBuf × Bool)} {fd : ℕ}
    (h : again_message m size msg_len msg acts passes = some (r, acts')) :
    acts'.count (.tcp_event_read fd) = acts.count (.tcp_event_read fd) := by
  induction passes generalizing m size msg_len msg acts with
  | nil => cases h
  | cons pass passes ih =>
    obtain ⟨p, memory⟩ := pass
    rw [again_message] at h
    cases hparse : parse_hdrs m msg_len p with
    | none =>
      rw [hparse] at h
      cases h
      rfl
    | some parsed =>
      obtain ⟨m', l⟩ := parsed
      rw [hparse] at h
      have hput : (if msg then acts ++ [Act.put_task] else acts).count (.tcp_event_read fd) =
          acts.count (.tcp_event_read fd) := by
        cases msg <;> simp
      simp only at h
      split at h
      · split at h
        · split at h
          · cases h
            exact hput
          · exact (ih h).trans hput
        · cases h
          exact hput
      · cases h
        rfl

theorem tcp_read_eof {reads : List Read} {len : ℤ} (h : tcp_read reads = some (len, true)) :
    len = 0 := by
  induction reads with
  | nil => cases h
  | cons r reads ih =>
    cases r with
    | got n =>
      simp only [tcp_read, some.injEq, Prod.mk.injEq, decide_eq_true_eq] at h
      omega
    | again => cases h
    | intr => exact ih h
    | error => cases h

/-- **A connection is submitted once, or it is terminated.** -/
theorem tcp_event_read_rearms {socket : ℕ} {tcp_max_size : ℤ} {term term' : Bool} {buf : ReadBuf}
    {memory : Bool} {reads : List Read} {passes : List (Parsed × Bool)} {acts : List Act}
    {terminated : Bool}
    (h : tcp_event_read socket tcp_max_size term term' buf memory reads passes = some (acts, terminated)) :
    acts.count (.tcp_event_read socket) = if terminated then 0 else 1 := by
  rw [tcp_event_read] at h
  cases term with
  | true =>
    cases h
    rfl
  | false =>
    simp only [Bool.false_eq_true, if_false] at h
    cases hroom : make_room buf tcp_max_size memory with
    | none =>
      rw [hroom] at h
      cases h
      rfl
    | some room =>
      obtain ⟨m, size⟩ := room
      rw [hroom] at h
      cases hread : tcp_read reads with
      | none => simp [hread] at h
      | some r =>
        obtain ⟨len, eof⟩ := r
        simp only [hread] at h
        by_cases hneg : len < 0
        · rw [if_pos hneg] at h
          cases h
          rfl
        rw [if_neg hneg] at h
        by_cases hzero : len = 0
        · rw [if_pos hzero] at h
          cases eof with
          | true =>
            cases h
            rfl
          | false =>
            cases h
            cases term' <;> simp
        · have heof : eof = false := by
            refine Bool.eq_false_iff.2 fun he => hzero ?_
            rw [he] at hread
            exact tcp_read_eof hread
          rw [if_neg hzero, heof] at h
          cases hloop : again_message { m with len := m.len + len } size buf.msg_len false []
              passes with
          | none => simp [hloop] at h
          | some result =>
            obtain ⟨kept, put⟩ := result
            have hput : put.count (.tcp_event_read socket) = 0 := count_again_message hloop
            simp only [hloop] at h
            cases kept with
            | none =>
              cases h
              simpa using hput
            | some kept =>
              cases h
              rw [List.count_append, hput]
              cases term' <;> cases kept.2 <;> simp

open Mi in
def submitted (fd : ℕ) (acts : List Action) : ℕ := acts.count (.listen fd) + acts.count (.write fd)

open Mi in
/-- The command of a pipe has a reply, and `mi_writer` is waited for. -/
def Replies (env : Env) (fuel : ℕ) (w : Wrap) (calls : Calls) (reads : List Mi.Read) : Prop :=
  w.type ≠ .TYPE_SOCKET_CLIENT ∧ calls.run = true ∧ calls.response = true ∧
    ∃ b rest cmd input, read_command fuel w.buffer reads = some (.valid b, rest) ∧
      execute env fuel w.type b = some (.run cmd input)

open Mi in
theorem submitted_finish {env : Env} {w : Wrap} {calls : Calls} {b : Str} {e : Executed}
    (hfresh : ∀ name, env.open_reply name ≠ some w.fd) :
    submitted w.fd (finish env w calls b e) = 1 ↔
      ¬ (w.type ≠ .TYPE_SOCKET_CLIENT ∧ calls.run = true ∧ calls.response = true ∧
        ∃ cmd input, e = .run cmd input) := by
  have hclose : ∀ pipe : Option ℕ, submitted w.fd (if w.type = .TYPE_FIFO then
      (pipe.filter (0 < ·)).toList.map .close ++ [.listen w.fd] else [.listen w.fd]) = 1 := by
    intro pipe
    by_cases hf : w.type = .TYPE_FIFO
    · rw [if_pos hf]
      cases pipe.filter (0 < ·) <;> simp [submitted]
    · rw [if_neg hf]
      simp [submitted]
  have hlisten : submitted w.fd [.listen w.fd] = 1 := by simp [submitted]
  cases e with
  | malformed => simp [finish, hlisten]
  | no_reply_pipe => simp [finish, hlisten]
  | not_available name => simp only [finish, hclose]; simp
  | parse_error name => simp only [finish, hclose]; simp
  | run cmd input =>
    by_cases hreply : calls.run = true ∧ calls.response = true
    · rw [finish]
      simp only [hreply.1, hreply.2, Bool.and_self, if_true]
      by_cases hc : w.type = .TYPE_SOCKET_CLIENT
      · simp [hc, submitted]
      · -- the reply goes to another descriptor
        refine iff_of_false ?_ fun hno => hno ⟨hc, trivial, trivial, cmd, input, rfl⟩
        rw [if_neg hc]
        cases hpipe : ((command_line env w.type b).bind Prod.snd).bind env.open_reply with
        | none => simp [submitted]
        | some fd =>
          obtain ⟨name, -, hfd⟩ := bind_eq_some_iff.1 hpipe
          have hne : fd ≠ w.fd := fun he => hfresh name (by rw [hfd, he])
          simp [submitted, hne]
    · have hand : (calls.run && calls.response) = false := by
        rw [Bool.and_eq_false_iff]
        cases hr : calls.run with
        | false => exact .inl rfl
        | true => exact .inr (Bool.eq_false_iff.2 fun h => hreply ⟨hr, h⟩)
      rw [finish]
      simp only [hand, Bool.false_eq_true, if_false, hclose]
      exact iff_of_true trivial fun hno => hreply ⟨hno.2.1, hno.2.2.1⟩

open Mi in
/-- `mi_listener` submits its descriptor or closes it, unless `mi_writer` has to be waited for. -/
theorem mi_listener_rearms {env : Env} {fuel : ℕ} {w : Wrap} {calls : Calls} {reads rest : List Mi.Read}
    {turn : Turn} (hfresh : ∀ name, env.open_reply name ≠ some w.fd)
    (h : mi_listener env fuel w calls reads = some (turn, rest)) :
    (submitted w.fd turn.actions = 1 ∨ turn.buffer = none) ↔ ¬ Replies env fuel w calls reads := by
  rw [mi_listener] at h
  have hlisten : submitted w.fd [.listen w.fd] = 1 := by simp [submitted]
  cases hread : read_command fuel w.buffer reads with
  | none => simp [hread] at h
  | some ret =>
    obtain ⟨got, rest'⟩ := ret
    rw [hread] at h
    have hno : (∀ b, got ≠ .valid b) → ¬ Replies env fuel w calls reads := by
      rintro hne ⟨-, -, -, b, rest'', cmd, input, hb, -⟩
      rw [hread] at hb
      cases hb
      exact hne b rfl
    cases got with
    | failed =>
      cases h
      exact iff_of_true (.inl hlisten) (hno fun b hb => by cases hb)
    | closed =>
      cases h
      exact iff_of_true (.inr rfl) (hno fun b hb => by cases hb)
    | incomplete b =>
      cases h
      exact iff_of_true (.inl hlisten) (hno fun b hb => by cases hb)
    | valid b =>
      simp only at h
      obtain ⟨e, he, hturn⟩ := map_eq_some_iff.1 h
      cases hturn
      simp only [submitted_finish hfresh, reduceCtorEq, or_false, Replies, hread, some.injEq,
        Prod.mk.injEq, Received.valid.injEq, not_iff_not]
      constructor
      · rintro ⟨hc, hr, hm, cmd, input, rfl⟩
        exact ⟨hc, hr, hm, b, _, cmd, input, ⟨rfl, rfl⟩, he⟩
      · rintro ⟨hc, hr, hm, b', rest'', cmd, input, ⟨rfl, -⟩, he'⟩
        rw [he] at he'
        exact ⟨hc, hr, hm, cmd, input, some.inj he'⟩

open Mi in
theorem mi_accept_rearms {fd : ℕ} {connect_fd : Option ℕ} {nonblocking memory : Bool}
    (hfresh : connect_fd ≠ some fd) : submitted fd (mi_accept fd connect_fd nonblocking memory) = 1 := by
  cases connect_fd with
  | none => simp [mi_accept, submitted]
  | some s =>
    have hne : s ≠ fd := fun he => hfresh (by rw [he])
    cases nonblocking <;> cases memory <;> simp [mi_accept, submitted, hne]

open Mi in
theorem mi_writer_rearms (w : Wrap) (fd : ℕ) : submitted w.fd (mi_writer w fd) = 1 := by
  by_cases h : fd = w.fd <;> simp [mi_writer, submitted, h]

/-- **Which calls of the handlers submit their descriptor again**: all of `tcp_event_read` and
`continue_query` and of the listener of the management interface for sockets, and of the others those
in which a datagram is read into a message, a connection is accepted, or nothing waits for a pipe. -/
theorem handlers_rearm (socket : ℕ) (memory : Bool) : (∀ udp_min_size recvs src_port parsed ret acts,
      udp_read socket udp_min_size recvs memory src_port parsed = some (ret, acts) →
      (acts.count (.udp_read socket) = 1 ↔ ∃ len rest, recvfrom recvs = some (some len, rest) ∧
        memory = true ∧ ∃ len' rest', recvfrom rest = some (some len', rest'))) ∧
    (∀ accepted init create, (tcp_accept socket accepted init create).2.count (.tcp_accept socket) = 1 ↔
        ∃ s, accepted = .fd s) ∧
    (∀ tcp_max_size term term' buf reads passes acts terminated,
      tcp_event_read socket tcp_max_size term term' buf memory reads passes = some (acts, terminated) →
      acts.count (.tcp_event_read socket) = if terminated then 0 else 1) ∧
    (∀ env fuel w calls reads rest turn, (∀ name, env.open_reply name ≠ some w.fd) →
      Mi.mi_listener env fuel w calls reads = some (turn, rest) →
      ((submitted w.fd turn.actions = 1 ∨ turn.buffer = none) ↔ ¬ Replies env fuel w calls reads)) ∧
    (∀ connect_fd nonblocking, connect_fd ≠ some socket →
      submitted socket (Mi.mi_accept socket connect_fd nonblocking memory) = 1) ∧
    (∀ w fd, submitted w.fd (Mi.mi_writer w fd) = 1) ∧
    (∀ env s s' x answer pcs, 0 < answer.ret →
      Db.turn env s (.continue_query x) answer = some (s', pcs) →
      pcs.count (.continue_query x) = 1) := by
  refine ⟨fun _ _ _ _ _ _ h => udp_read_rearms h, tcp_accept_rearms socket,
    fun _ _ _ _ _ _ _ _ h => tcp_event_read_rearms h,
    fun _ _ _ _ _ _ _ hfresh h => mi_listener_rearms hfresh h,
    fun _ _ hfresh => mi_accept_rearms hfresh, mi_writer_rearms, ?_⟩
  intro env s s' x answer pcs hmore h
  cases h
  rw [if_pos hmore]
  simp

/-- A datagram that is read behind an interrupted call, a connection that is taken, and a client of the
management interface whose command has not come yet. -/
theorem handlers_rearm_x : [Act.udp_read 5, .handle_new_msg].count (.udp_read 5) = 1 ∧
    (tcp_accept 6 (.fd 9) true false).2.count (.tcp_accept 6) = 1 ∧
    [Act.tcp_event_read 9].count (.tcp_event_read 9) = 1 ∧
    submitted 7 [.listen 8, .listen 7] = 1 ∧
    (submitted 8 [.listen 8] = 1 ∨ some (chr ':' :: []) = (none : Option Str)) := by
  refine ⟨((handlers_rearm 5 true).1 10 [.again, .len 300, .len 300] 5060 0 0 _ rfl).2
      ⟨300, [.len 300], rfl, rfl, 300, [], rfl⟩,
    ((handlers_rearm 6 true).2.1 (.fd 9) true false).2 ⟨9, rfl⟩,
    (handlers_rearm 9 true).2.2.1 65535 false false ⟨none, 0, 0⟩ [.intr, .again] [] _ false rfl,
    (handlers_rearm 7 true).2.2.2.2.1 (some 8) true (by decide), ?_⟩
  refine ((handlers_rearm 8 true).2.2.2.1 ⟨[], [], fun _ => none, fun _ => true⟩ 1 ⟨8, .TYPE_SOCKET_CLIENT, []⟩
    ⟨true, true⟩ [.got [chr ':'], .again] [] ⟨some [chr ':'], none, [.listen 8]⟩ (fun name => by simp)
    (by decide)).2 ?_
  exact fun h => h.1 rfl

/-- **A socket is forgotten** when there is no memory for a datagram, and when nothing is accepted. -/
theorem listener_forgotten : udp_read 5 10 [.len 300] false 5060 0 = some (-1, []) ∧
    tcp_accept 6 .again true true = (0, []) ∧
    ¬ (∀ recvs memory ret acts, udp_read 5 10 recvs memory 5060 0 = some (ret, acts) →
      acts.count (.udp_read 5) = 1) ∧
    ¬ (∀ accepted, (tcp_accept 6 accepted true true).2.count (.tcp_accept 6) = 1) := by
  refine ⟨rfl, rfl, fun h => ?_, fun h => ?_⟩
  · exact absurd (h [.len 300] false (-1) [] rfl) (by decide)
  · exact absurd (h .again) (by decide)

end Rearming

end OpenSips.Rearm
