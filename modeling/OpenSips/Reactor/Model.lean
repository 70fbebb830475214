import Mathlib.Data.Int.Order.Basic
import Mathlib.Data.List.Basic

/-!
# OpenSips.Reactor.Model — the reactor and its back-ends

Modelled from `core/reactor/general.c`, `poll.c`, `select.c`, `epoll.c` and `kqueue.c`.  A reactor thread
waits for descriptors, carries out what was written to its control pipe and puts the tasks of the
descriptors that are ready on the dispatcher; other threads submit and fire.  A step is one call of the
kernel, one command or one event.  There is no next state when memory is accessed behind a table, an
`fd_set` or what was read.  Descriptors stay open while they are registered, calls of the kernel fail for
the reasons given here only, and `last_reactor`, which is the reactor itself, is left out.
-/

namespace OpenSips.Reactor

def ADD_FD : ℤ := 0

def FIRE_FD : ℤ := 2

/-- `sizeof(buff) / sizeof(int)` -/
def BUFF_SIZE : ℕ := 4096

def FD_SETSIZE : ℤ := 1024

inductive PollType where
  | poll | epoll | select | kqueue
  deriving DecidableEq

/-- `REACTOR_IN` and `REACTOR_OUT`; also the direction in which the kernel watches a descriptor. -/
inductive ReactorType where
  | IN | OUT
  deriving DecidableEq

def ReactorType.code : ReactorType → ℤ
  | .IN => 1
  | .OUT => 2

/-- `control_pipe` is the end that is read. -/
structure Config where
  poll_method : PollType
  type : ReactorType
  max_fd_no : ℤ
  control_pipe : ℤ

/-- `cb` and `cb_param` are addresses. -/
structure FdMap where
  fd : ℤ
  priority : ℤ
  flags : ℤ
  cb : ℕ
  cb_param : ℕ
  deriving DecidableEq

/-- An entry of `fd_array`; `revents` is whether one of the flags that are looked at is set. -/
structure PollFd where
  fd : ℤ
  events : ℤ
  revents : Bool
  deriving DecidableEq

/-- Where the reactor thread is: at the call that waits, at an event of the first loop over the events
(epoll), at the `read` of the control pipe, at a command in `buff`, at entry `r` of `fd_array` with `n`
descriptors left, or at an event of the last loop.  Behind the pipe the thread goes on at `next`. -/
inductive Phase where
  | idle
  | scan (todo events : List ℤ)
  | control (next : Phase)
  | commands (buff : List ℤ) (next : Phase)
  | sweep (local_set : List ℤ) (n r : ℕ)
  | events (todo : List ℤ)
  deriving DecidableEq

/-- `struct io_wait_handler`: `sets` are the descriptors in `master_set` (IN) and `out_set` (OUT), or those that the kernel watches
for epoll and kqueue; `pipe` is what can be read from the control pipe; `calls` are the calls of
`submit_task` that have filled in the hash and have not told the kernel or the reactor thread yet. -/
structure IoWait where
  fd_hash : ℤ → FdMap
  fd_array : List PollFd
  sets : List (ℤ × ReactorType)
  pipe : List ℤ
  calls : List FdMap
  phase : Phase

/-- What is written to the control pipe, with the task of the call that writes it. -/
inductive Command where
  | add (e : FdMap)
  | fire (fd : ℤ)
  deriving DecidableEq

/-- What is observed of a step: a task is taken, a command is written or carried out, `put_task`. -/
inductive Effect where
  | submit (e : FdMap)
  | write (c : Command)
  | execute (c : Command)
  | put_task (e : FdMap)
  deriving DecidableEq

inductive Op where
  | submit_task (e : FdMap)
  | announce (k : ℕ)
  | fire_fd (fd junk : ℤ)
  | wait (ready : List ℤ)
  | step

section General

variable (c : Config) (s : IoWait)

def get_fd_map (fd : ℤ) : Option FdMap :=
  if 0 ≤ fd ∧ fd < c.max_fd_no then some (s.fd_hash fd) else none

def hash_fd_map (e : FdMap) : IoWait :=
  { s with fd_hash := fun fd => if fd = e.fd then e else s.fd_hash fd }

def unhash_fd_map (fd : ℤ) : IoWait :=
  { s with fd_hash := fun fd' => if fd' = fd then { s.fd_hash fd with fd := -1 } else s.fd_hash fd' }

/-- The hash has `max_fd_no` entries. -/
def safe_add_to_hash (e : FdMap) : Option (IoWait × Bool) :=
  if e.fd < 0 ∨ c.max_fd_no < e.fd then some (s, false)
  else if e.fd = c.max_fd_no then none
  else some (hash_fd_map s e, true)

def safe_remove_from_hash (fd : ℤ) : Option (IoWait × Bool) :=
  if fd < 0 ∨ c.max_fd_no < fd then some (s, false)
  else if fd = c.max_fd_no then none
  else some (unhash_fd_map s fd, true)

def array_fd_add (fd ev : ℤ) : Option IoWait :=
  if s.fd_array.length < c.max_fd_no then
    some { s with fd_array := s.fd_array ++ [{ fd := fd, events := ev, revents := false }] }
  else none

/-- `idx` is none for -1. -/
def array_fd_del (fd1 : ℤ) (idx : Option ℕ) : IoWait × Bool :=
  let idx := idx.getD (s.fd_array.findIdx (·.fd = fd1))
  if idx < s.fd_array.length then ({ s with fd_array := s.fd_array.eraseIdx idx }, true)
  else (s, false)

end General

section Select

variable (c : Config) (s : IoWait)

def FD_SET (fd : ℤ) (set : ReactorType) : Option IoWait :=
  if 0 ≤ fd ∧ fd < FD_SETSIZE then
    some { s with sets := if (fd, set) ∈ s.sets then s.sets else s.sets ++ [(fd, set)] }
  else none

/-- From both sets. -/
def FD_CLR (fd : ℤ) : Option IoWait :=
  if 0 ≤ fd ∧ fd < FD_SETSIZE then some { s with sets := s.sets.filter (·.1 ≠ fd) } else none

def select_local_del (fd : ℤ) (idx : Option ℕ) : Option (IoWait × Bool) :=
  (FD_CLR s fd).map fun s => array_fd_del s fd idx

def select_local_add (fd ev : ℤ) : Option IoWait :=
  match array_fd_add c s fd ev with
  | none => none
  | some s =>
    if ev = ReactorType.IN.code then FD_SET s fd .IN
    else if ev = ReactorType.OUT.code then FD_SET s fd .OUT
    else some s

end Select

section Kernel

variable (c : Config) (s : IoWait)

/-- `EPOLL_CTL_DEL` fails for a descriptor that is not watched. -/
def epoll_del (fd : ℤ) : Option (IoWait × Bool) :=
  match safe_remove_from_hash c s fd with
  | none => none
  | some (s, false) => some (s, false)
  | some (s, true) =>
    if fd ∈ s.sets.map Prod.fst then some ({ s with sets := s.sets.filter (·.1 ≠ fd) }, true)
    else some (s, false)

/-- `EVFILT_READ` is deleted whatever the type of the reactor is. -/
def kqueue_del (fd : ℤ) : Option (IoWait × Bool) :=
  match safe_remove_from_hash c s fd with
  | none => none
  | some (s, false) => some (s, false)
  | some (s, true) =>
    if (fd, .IN) ∈ s.sets then some ({ s with sets := s.sets.filter (· ≠ (fd, .IN)) }, true)
    else some (s, false)

end Kernel

section Submit

variable (c : Config) (s : IoWait)

/-- The first part of `poll_add`, `select_add`, `epoll_add` and `kqueue_add`. -/
def submit_task (e : FdMap) : Option (IoWait × List Effect) :=
  match safe_add_to_hash c s e with
  | none => none
  | some (s, false) => some (s, [])
  | some (s, true) => some ({ s with calls := s.calls ++ [e] }, [.submit e])

def announce (k : ℕ) : IoWait × List Effect :=
  match s.calls[k]? with
  | none => (s, [])
  | some e =>
    let s := { s with calls := s.calls.eraseIdx k }
    match c.poll_method with
    | .poll | .select =>
      ({ s with pipe := s.pipe ++ [ADD_FD, e.fd, c.type.code] }, [.write (.add e)])
    | .epoll =>
      -- a descriptor that is watched gives EEXIST
      if e.fd ∈ s.sets.map Prod.fst then (s, []) else ({ s with sets := s.sets ++ [(e.fd, c.type)] }, [])
    | .kqueue =>
      if (e.fd, c.type) ∈ s.sets then (s, []) else ({ s with sets := s.sets ++ [(e.fd, c.type)] }, [])

/-- The third number is not set. -/
def send_fire (fd junk : ℤ) : IoWait × List Effect :=
  ({ s with pipe := s.pipe ++ [FIRE_FD, fd, junk] }, [.write (.fire fd)])

end Submit

section Commands

variable (c : Config) (s : IoWait)

/-- A command of the control pipe in `poll_loop` and `select_loop`; `add` and `del` are
`array_fd_add` and `array_fd_del`, or `select_local_add` and `select_local_del`. -/
def array_command (add : IoWait → ℤ → ℤ → Option IoWait)
    (del : IoWait → ℤ → Option (IoWait × Bool)) (op fd ev : ℤ) : Option (IoWait × List Effect) :=
  if op = ADD_FD then (add s fd ev).map fun s' => (s', [.execute (.add (s.fd_hash fd))])
  else if op = FIRE_FD then
    match get_fd_map c s fd with
    | none => none
    | some e =>
      if e.fd ≠ -1 then
        match del s fd with
        | none => none
        | some (s, true) => some (s, [.execute (.fire fd), .put_task e])
        | some (s, false) => some (s, [.execute (.fire fd)])
      else some (s, [.execute (.fire fd)])
  else some (s, [])

def poll_command : ℤ → ℤ → ℤ → Option (IoWait × List Effect) :=
  array_command c s (array_fd_add c) fun s fd => some (array_fd_del s fd none)

def select_command : ℤ → ℤ → ℤ → Option (IoWait × List Effect) :=
  array_command c s (select_local_add c) fun s fd => select_local_del s fd none

def epoll_command (op fd _ev : ℤ) : Option (IoWait × List Effect) :=
  if op = FIRE_FD then
    match get_fd_map c s fd with
    | none => none
    | some e =>
      if e.fd ≠ -1 then
        match epoll_del c s fd with
        | none => none
        | some (s, true) => some (s, [.execute (.fire fd), .put_task e])
        | some (s, false) => some (s, [.execute (.fire fd)])
      else some (s, [.execute (.fire fd)])
  else some (s, [])

/-- The loop of kqueue does not read the pipe. -/
def command (op fd ev : ℤ) : Option (IoWait × List Effect) :=
  match c.poll_method with
  | .poll => poll_command c s op fd ev
  | .select => select_command c s op fd ev
  | .epoll => epoll_command c s op fd ev
  | .kqueue => some (s, [])

end Commands

section Events

variable (c : Config) (s : IoWait)

/-- An entry of the array that is behind the one of the control pipe, in `poll_loop`. -/
def poll_event (n r : ℕ) (p : PollFd) : Option (IoWait × List Effect) :=
  if p.revents then
    match get_fd_map c s p.fd with
    | none => none
    | some e =>
      some ({ (array_fd_del s p.fd (some r)).1 with phase := .sweep [] (n - 1) r }, [.put_task e])
  else some ({ s with phase := .sweep [] n (r + 1) }, [])

def select_event (local_set : List ℤ) (n r : ℕ) (p : PollFd) : Option (IoWait × List Effect) :=
  if p.fd ∈ local_set then
    match get_fd_map c s p.fd, select_local_del s p.fd (some r) with
    | some e, some (s, _) => some ({ s with phase := .sweep local_set (n - 1) r }, [.put_task e])
    | _, _ => none
  else some ({ s with phase := .sweep local_set n (r + 1) }, [])

def epoll_event (fd : ℤ) : Option (IoWait × List Effect) :=
  match get_fd_map c s fd with
  | none => none
  | some e =>
    if e.fd ≠ -1 ∧ e.fd ≠ c.control_pipe then
      match epoll_del c s e.fd with
      | none => none
      | some (s, true) => some (s, [.put_task e])
      | some (s, false) => some (s, [])
    else some (s, [])

/-- Whatever `kqueue_del` returns. -/
def kqueue_event (fd : ℤ) : Option (IoWait × List Effect) :=
  match get_fd_map c s fd with
  | none => none
  | some e => (kqueue_del c s e.fd).map fun (s, _) => (s, [.put_task e])

end Events

section Loop

variable (c : Config) (s : IoWait)

/-- The call that waits, for all four loops: it reports `ready`. -/
def wait (ready : List ℤ) : IoWait :=
  match c.poll_method with
  | .poll =>
    let fd_array := s.fd_array.map fun p => { p with revents := p.fd ∈ ready }
    let sweep := Phase.sweep [] (fd_array.filter (·.revents)).length 1
    let phase := if fd_array.head?.elim false (·.revents) then .control sweep else sweep
    { s with fd_array := fd_array, phase := phase }
  | .select =>
    let set := s.sets.filter (·.1 ∈ ready)
    let sweep := Phase.sweep (set.map Prod.fst) set.length 1
    { s with phase := if (c.control_pipe, .IN) ∈ set then .control sweep else sweep }
  | .epoll => { s with phase := .scan ready ready }
  | .kqueue => { s with phase := .events ready }

/-- The reactor thread goes on. -/
def step : Option (IoWait × List Effect) :=
  match s.phase with
  | .idle => some (s, [])
  | .scan [] events => some ({ s with phase := .events events }, [])
  | .scan (fd :: todo) events =>
    match get_fd_map c s fd with
    | none => none
    | some ctrl =>
      let next := Phase.scan todo events
      some ({ s with phase := if ctrl.fd = c.control_pipe then .control next else next }, [])
  | .control next =>
    some ({ s with phase := .commands (s.pipe.take BUFF_SIZE) next, pipe := s.pipe.drop BUFF_SIZE }, [])
  | .commands [] next => some ({ s with phase := next }, [])
  | .commands (op :: fd :: ev :: buff) next =>
    (command c s op fd ev).map fun (s, es) => ({ s with phase := .commands buff next }, es)
  | .commands _ _ => none
  | .sweep local_set n r =>
    match s.fd_array[r]? with
    | none => some ({ s with phase := .idle }, [])
    | some p =>
      if n = 0 then some ({ s with phase := .idle }, [])
      else if c.poll_method = .select then select_event c s local_set n r p
      else poll_event c s n r p
  | .events [] => some ({ s with phase := .idle }, [])
  | .events (fd :: todo) =>
    (if c.poll_method = .kqueue then kqueue_event c s fd else epoll_event c s fd).map
      fun (s, es) => ({ s with phase := .events todo }, es)

def exec (op : Op) : Option (IoWait × List Effect) :=
  match op with
  | .submit_task e => submit_task c s e
  | .announce k => some (announce c s k)
  | .fire_fd fd junk => some (send_fire s fd junk)
  | .wait ready => some (wait c s ready, [])
  | .step => step c s

end Loop

/-- The memory of the hash is zeroed. -/
def FdMap.zero : FdMap := { fd := 0, priority := 0, flags := 0, cb := 0, cb_param := 0 }

/-- What `init_io_wait` leaves. -/
def init_io_wait (c : Config) : IoWait :=
  let s : IoWait :=
    { fd_hash := fun _ => .zero, fd_array := [], sets := [], pipe := [], calls := [], phase := .idle }
  let pipe : PollFd := { fd := c.control_pipe, events := ReactorType.IN.code, revents := false }
  match c.poll_method with
  | .poll => { s with fd_array := [pipe] }
  | .select => { s with fd_array := [pipe], sets := [(c.control_pipe, .IN)] }
  | .epoll => { hash_fd_map s { FdMap.zero with fd := c.control_pipe } with
      sets := [(c.control_pipe, .IN)] }
  | .kqueue => s

def watched (c : Config) (s : IoWait) : List ℤ :=
  if c.poll_method = .poll then s.fd_array.map (·.fd) else s.sets.map Prod.fst

end OpenSips.Reactor
