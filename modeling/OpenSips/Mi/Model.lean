import Mathlib.Data.List.DropRight
import OpenSips.Str

/-!
# OpenSips.Mi.Model — management commands (`core/modules/mi_stream`)

A wrapper's buffer is the text that was received for the command, `current_comm_len` bytes.  Loops that
may run forever take fuel: `none` is a handler that has not returned yet.  What the buffer holds behind
the command, the texts of the replies and the log are left out.
-/

namespace OpenSips.Mi

def MAX_MI_FIFO_BUFFER : ℕ := 1024

def MAX_MI_FILENAME : ℕ := 128

def MI_CMD_SEPARATOR : UInt8 := chr ':'

def MI_ATTR_VAL_SEP1 : UInt8 := chr ':'

def MI_ATTR_VAL_SEP2 : UInt8 := chr ':'

def LF : UInt8 := chr '\n'

def QUOTE : UInt8 := chr '"'

def BACKSLASH : UInt8 := chr '\\'

/-- `isspace` in the C locale. -/
def isspace (c : UInt8) : Bool := c == 32 || (9 ≤ c && c ≤ 13)

def skip_spaces (s : Str) : Str := s.dropWhile isspace

def rstrip (s : Str) : Str := s.rdropWhile isspace

def cstr (s : Str) : Str := s.takeWhile (· ≠ 0)

section Reading

/-- What a `read` gives: data, 0 without and with `EINTR`, one of `EAGAIN`, `EINTR` and `EWOULDBLOCK`,
or another error. -/
inductive Read where
  | got (b : Str) | zero | zero_intr | again | error
  deriving DecidableEq

/-- The return codes of `mi_read_and_append`, with the buffer where it changed. -/
inductive ReadRet where
  | ok (b : Str) | error | closed | full (b : Str)
  deriving DecidableEq

/-- `b` is the command and what was read of it so far.  There is no result as long as `read` does not
return; it returns at least one byte and no more than it was asked for. -/
def mi_read_and_append (b : Str) (reads : List Read) : Option (ReadRet × List Read) :=
  if b.length = MAX_MI_FIFO_BUFFER then some (.full b, reads)
  else
    match reads with
    | [] => none
    | .got nr :: reads =>
      if nr = [] ∨ MAX_MI_FIFO_BUFFER - b.length < nr.length then none
      else mi_read_and_append (b ++ nr) reads
    | .zero_intr :: reads => mi_read_and_append b reads
    | .zero :: reads => some (.closed, reads)
    | .again :: reads => some (.ok b, reads)
    | .error :: reads => some (.error, reads)

def mi_is_valid (b : Str) : Bool :=
  if b.length > 1 then b.drop (b.length - 2) == [LF, LF] else false

/-- What `mi_listener` has when it is through with reading. -/
inductive Received where
  | failed | closed | incomplete (b : Str) | valid (b : Str)
  deriving DecidableEq

def read_command : ℕ → Str → List Read → Option (Received × List Read)
  | 0, _, _ => none
  | fuel + 1, b, reads =>
    match mi_read_and_append b reads with
    | none => none
    | some (.error, reads) => some (.failed, reads)
    | some (.closed, reads) => some (.closed, reads)
    | some (.full b, reads) =>
      -- buffer full, give it one last check for validity before flushing
      if mi_is_valid b then some (.valid b, reads) else read_command fuel [] reads
    | some (.ok b, reads) =>
      if mi_is_valid b then some (.valid b, reads) else some (.incomplete b, reads)

end Reading

section Parsing

/-- A line of `source`, which has to end within `max` characters. -/
def mi_get_next_line (max : ℕ) (source : Str) : Option Str :=
  let line := source.takeWhile (· ≠ LF)
  if line.length < max - 1 then some line else none

/-- The text up to the separator, behind `name`, and what follows that; none when a quote comes first. -/
def attr_name (name : Str) : Str → Option (Str × Option Str)
  | [] => some (name, none)
  | c :: p =>
    if c = MI_ATTR_VAL_SEP1 ∧ p.head? = some MI_ATTR_VAL_SEP2 then some (name, some p.tail)
    else if c = QUOTE then none
    else attr_name (name ++ [c]) p

inductive Attr where
  | node (name value : Str)
  | quoted (name text : Str)
  | parse_err
  deriving DecidableEq

def parse_attr (start : Str) : Attr :=
  if start.head? = some QUOTE then .quoted [] start.tail
  else
    match attr_name [] start with
    | none => .parse_err
    | some (value, none) => .node [] (rstrip value)
    | some (name, some p) =>
      let p := skip_spaces p
      if p = [] then .node (rstrip name) []
      else if p.head? = some QUOTE then .quoted (rstrip name) p.tail
      else if QUOTE ∈ p then .parse_err
      else .node (rstrip name) (rstrip p)

/-- What a line of a quoted value comes to, and the bytes that the line is left with. -/
inductive Quoted where
  | done (value line : Str)
  | parse_err
  | unclosed (text stale : Str)
  deriving DecidableEq

/-- Looking for the closing quote from `start` on, behind `seen`.  Where a quote is escaped the rest is
moved one to the left, and the last character stays there twice. -/
def quoted (seen : Str) : Str → Str → Quoted
  | [], stale => .unclosed seen stale
  | c :: p, stale =>
    if c = QUOTE then
      if seen.length ≠ 1 ∧ seen.getLast? = some BACKSLASH then
        quoted (seen.dropLast ++ [QUOTE]) p ((c :: p).getLast (List.cons_ne_nil c p) :: stale)
      else if p.all isspace then .done seen (seen ++ c :: p ++ stale)
      else .parse_err
    else quoted (seen ++ [c]) p stale

/-- The outcome of `mi_parse_node`, with what is left from `mi_buf_pos` on. -/
inductive NodeRet where
  | error | end_of_stream | node (name value rest : Str)
  deriving DecidableEq

/-- A quoted value is continued by the line at `mi_buf_pos`, which stays where it is. -/
def quoted_lines : ℕ → Str → Str → Str → Option NodeRet
  | 0, _, _, _ => none
  | fuel + 1, name, value, rest =>
    match mi_get_next_line rest.length rest with
    | none => some .error
    | some line =>
      if line = [] then some .error
      else
        match quoted [] line [] with
        | .parse_err => some .error
        | .done text line' =>
          some (.node name (value ++ LF :: text) (line' ++ rest.drop line.length))
        | .unclosed text stale =>
          quoted_lines fuel name value (text ++ stale ++ rest.drop line.length)

def mi_parse_node : ℕ → Str → Option NodeRet
  | 0, _ => none
  | fuel + 1, rest =>
    match mi_get_next_line (rest.length + 1) rest with
    | none => some .error
    | some line =>
      if line = [] then some .end_of_stream
      else
        let rest := rest.drop (line.length + 1)
        let start := skip_spaces line
        if start = [] then mi_parse_node fuel rest
        else
          match parse_attr start with
          | .parse_err => some .error
          | .node name value => some (.node name value rest)
          | .quoted name text =>
            match quoted [] text [] with
            | .parse_err => some .error
            | .done value _ => some (.node name value rest)
            | .unclosed text stale => quoted_lines fuel name (text ++ stale) rest

/-- `struct mi_node`, a child of the root of a request. -/
structure Node where
  name : Str
  value : Str
  deriving DecidableEq

/-- `strncpy` into zeroed memory of the same length. -/
def strncpy (s : Str) : Str := cstr s ++ List.replicate (s.length - (cstr s).length) 0

def create_mi_node (name value : Str) : Option Node :=
  if name = [] ∧ value = [] then none else some ⟨strncpy name, strncpy value⟩

/-- A registered command (`struct mi_cmd`); its id is a function of the name. -/
structure Cmd where
  name : Str
  no_input : Bool
  deriving DecidableEq

/-- What the process and the system give: the registered commands, the directory of the reply pipes,
which of those can be opened and as what, and for which children of a tree there is memory. -/
structure Env where
  mi_cmds : List Cmd
  reply_dir : Str
  open_reply : Str → Option ℕ
  memory : List Node → Bool

/-- The nodes of the tree, behind `kids`. -/
def parse_nodes (env : Env) : ℕ → Str → List Node → Option (Option (List Node))
  | 0, _, _ => none
  | fuel + 1, rest, kids =>
    match mi_parse_node fuel rest with
    | none => none
    | some .error => some none
    | some .end_of_stream => some (some kids)
    | some (.node name value rest) =>
      match create_mi_node name value with
      | none => some none
      | some node =>
        if env.memory (kids ++ [node]) then parse_nodes env fuel rest (kids ++ [node])
        else some none

def mi_parse_tree (env : Env) (fuel : ℕ) (rest : Str) : Option (Option (List Node)) :=
  if env.memory [] then parse_nodes env fuel rest [] else some none

end Parsing

section Executing

inductive FdType where
  | TYPE_FIFO | TYPE_SOCKET_SERVER | TYPE_SOCKET_CLIENT
  deriving DecidableEq

def lookup_mi_cmd (env : Env) (name : Str) : Option Cmd :=
  env.mi_cmds.find? fun cmd => cmd.name = name

def trimmed (c : UInt8) : Bool := c == LF || c == chr '\r' || c == chr ' ' || c == chr '\t'

/-- The name of a reply pipe; `file` is followed by a NUL. -/
def get_reply_filename (env : Env) (file : Str) : Option Str :=
  if chr '.' ∈ cstr file ∨ chr '/' ∈ cstr file ∨ chr '\\' ∈ cstr file then none
  else if env.reply_dir.length + file.length + 1 > MAX_MI_FILENAME then none
  else some (cstr (env.reply_dir ++ file))

def command_line (env : Env) (type : FdType) (mi_buf : Str) : Option (Str × Option Str) :=
  if LF ∉ mi_buf then none
  else
    let line := (mi_buf.takeWhile (· ≠ LF)).rdropWhile trimmed
    if line.length < 3 then none
    else if line.head? ≠ some MI_CMD_SEPARATOR then none
    else
      let command := line.tail
      if MI_CMD_SEPARATOR ∉ cstr command then none
      else
        let name := command.takeWhile (· ≠ MI_CMD_SEPARATOR)
        let file := command.drop (name.length + 1)
        if name = [] then none
        else if cstr file = [] then
          -- tcp MI commands should not specify a reply fifo
          if type = .TYPE_SOCKET_CLIENT then some (name, none) else none
        else (get_reply_filename env file).map fun file => (name, some file)

inductive Executed where
  | malformed
  | no_reply_pipe
  | not_available (name : Str)
  | parse_error (name : Str)
  | run (cmd : Cmd) (input : Option (List Node))
  deriving DecidableEq

/-- There is a descriptor for the reply: that of a client, or the pipe can be opened. -/
def has_reply (env : Env) (type : FdType) (file : Option Str) : Bool :=
  type = .TYPE_SOCKET_CLIENT || (file.bind env.open_reply).isSome

/-- The command is found and takes arguments, and its reply can be written. -/
def takes_input (env : Env) (type : FdType) (mi_buf : Str) : Bool :=
  match command_line env type mi_buf with
  | none => false
  | some (name, file) =>
    match lookup_mi_cmd env name with
    | none => false
    | some f => !f.no_input && has_reply env type file

/-- What is made of the command in the buffer, given the tree of its arguments. -/
def respond (env : Env) (type : FdType) (mi_buf : Str) (tree : Option (List Node)) : Executed :=
  match command_line env type mi_buf with
  | none => .malformed
  | some (name, file) =>
    if !has_reply env type file then .no_reply_pipe
    else
      match lookup_mi_cmd env name with
      | none => .not_available name
      | some f =>
        if f.no_input then .run f none
        else
          match tree with
          | none => .parse_error name
          | some kids => .run f (some kids)

def unread (mi_buf : Str) : Str := mi_buf.drop ((mi_buf.takeWhile (· ≠ LF)).length + 1)

def execute (env : Env) (fuel : ℕ) (type : FdType) (mi_buf : Str) : Option Executed :=
  if takes_input env type mi_buf then
    (mi_parse_tree env fuel (unread mi_buf)).map (respond env type mi_buf)
  else some (respond env type mi_buf none)

end Executing

section Listening

/-- `fd_wrapper` -/
structure Wrap where
  fd : ℕ
  type : FdType
  buffer : Str
  deriving DecidableEq

/-- What a handler does with descriptors: `submit_task` on one of the reactors, or `close`. -/
inductive Action where
  | listen (fd : ℕ) | write (fd : ℕ) | close (fd : ℕ)
  deriving DecidableEq

/-- The outcome of a call of `mi_listener`; there is no buffer when the wrapper was freed. -/
structure Turn where
  buffer : Option Str
  executed : Option Executed
  actions : List Action
  deriving DecidableEq

/-- Whether the command gives a reply, and whether there is memory to keep it. -/
structure Calls where
  run : Bool
  response : Bool
  deriving DecidableEq

/-- From `valid` on: a reply goes to `mi_writer`, otherwise the next command is waited for. -/
def finish (env : Env) (w : Wrap) (calls : Calls) (mi_buf : Str) (e : Executed) : List Action :=
  let pipe := ((command_line env w.type mi_buf).bind Prod.snd).bind env.open_reply
  let reply_fd := if w.type = .TYPE_SOCKET_CLIENT then some w.fd else pipe
  let close_fd :=
    if w.type = .TYPE_FIFO then (reply_fd.filter (0 < ·)).toList.map .close ++ [.listen w.fd]
    else [.listen w.fd]
  match e with
  | .malformed | .no_reply_pipe => [.listen w.fd]
  | .not_available _ | .parse_error _ => close_fd
  | .run _ _ => if calls.run && calls.response then reply_fd.toList.map .write else close_fd

/-- A call for a descriptor that gives commands. -/
def mi_listener (env : Env) (fuel : ℕ) (w : Wrap) (calls : Calls) (reads : List Read) :
    Option (Turn × List Read) :=
  match read_command fuel w.buffer reads with
  | none => none
  | some (.failed, reads) => some (⟨some [], none, [.listen w.fd]⟩, reads)
  | some (.closed, reads) => some (⟨none, none, [.close w.fd]⟩, reads)
  | some (.incomplete b, reads) => some (⟨some b, none, [.listen w.fd]⟩, reads)
  | some (.valid b, reads) =>
    (execute env fuel w.type b).map fun e => (⟨some [], some e, finish env w calls b e⟩, reads)

/-- A call for the socket that takes connections: what `accept` and `fcntl` give, and whether there is
memory for a wrapper. -/
def mi_accept (fd : ℕ) (connect_fd : Option ℕ) (nonblocking memory : Bool) : List Action :=
  match connect_fd with
  | none => [.listen fd]
  | some connect_fd =>
    if !nonblocking then [.close connect_fd, .listen fd]
    else if !memory then [.listen fd]
    else [.listen connect_fd, .listen fd]

/-- `mi_writer` has written the reply to `fd`. -/
def mi_writer (w : Wrap) (fd : ℕ) : List Action :=
  (if fd ≠ w.fd then [.close fd] else []) ++ [.listen w.fd]

/-- The commands that are executed from one descriptor: after every call the reactor calls the listener
again, behind `mi_writer` where that has a reply to write, until the descriptor is closed or nothing
comes anymore. -/
def serve (env : Env) (type : FdType) : ℕ → (ℕ → Calls) → Str → List Read → Option (List Executed)
  | _, _, _, [] => some []
  | 0, _, _, _ :: _ => none
  | fuel + 1, calls, buffer, r :: reads =>
    match mi_listener env fuel ⟨0, type, buffer⟩ (calls 0) (r :: reads) with
    | none => none
    | some (turn, rest) =>
      match turn.buffer with
      | none => some turn.executed.toList
      | some buffer =>
        (serve env type fuel (fun n => calls (n + 1)) buffer rest).map
          (turn.executed.toList ++ ·)

end Listening

end OpenSips.Mi
