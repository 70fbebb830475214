import OpenSips.Lib.Scanner
import OpenSips.Net

/-!
# OpenSips.Via.Model — `parse_via` (`core/parser/parse_via.c`)

The four character loops of `parse_via` and `parse_via_param` are the phases of one machine that reads
the memory from the start of the body on; `goto` and the calls in between change the phase.  Two of the
loops stop at `end`, the others run on to a NUL.  Pointers are positions in the memory, and log texts
are left out.
-/

namespace OpenSips.Via

open Lib

/-- A `str`.  A length is unknown when it was taken from a `NULL` pointer. -/
structure Slice where
  s : Option ℕ
  len : Option ℕ
  deriving DecidableEq

def Slice.zero : Slice := ⟨none, some 0⟩

/-- `x.s = p` -/
def Slice.at (x : Slice) (p : ℕ) : Slice := { x with s := some p }

/-- `x.len = p - x.s` -/
def Slice.upto (x : Slice) (p : ℕ) : Slice := { x with len := x.s.map fun s => p - s }

/-- The characters of a `str`. -/
def Slice.text (mem : Str) (x : Slice) : Str :=
  match x.s, x.len with
  | some s, some len => (mem.drop s).take len
  | _, _ => []

inductive State where
  -- main via states
  | F_HOST | P_HOST | L_PORT | F_PORT | P_PORT | L_PARAM | F_PARAM | P_PARAM | L_VIA | F_VIA
  | F_COMMENT | P_COMMENT | F_IP6HOST | P_IP6HOST | F_CRLF | F_LF | F_CR | END_OF_HEADER
  -- first via part
  | F_SIP | SIP1 | SIP2 | FIN_SIP | L_VER | F_VER | VER1 | VER2 | FIN_VER | UDP1 | UDP2 | FIN_UDP
  | TCP_TLS1 | TCP2 | FIN_TCP | TLS2 | FIN_TLS | SCTP1 | SCTP2 | SCTP3 | FIN_SCTP | L_PROTO | F_PROTO
  -- param related states
  | L_VALUE | F_VALUE | P_VALUE | P_STRING | HIDDEN1 | HIDDEN2 | HIDDEN3 | HIDDEN4 | HIDDEN5
  | TTL1 | TTL2 | BRANCH1 | BRANCH2 | BRANCH3 | BRANCH4 | BRANCH5 | MADDR1 | MADDR2 | MADDR3 | MADDR4
  | RECEIVED1 | RECEIVED2 | RECEIVED3 | RECEIVED4 | RECEIVED5 | RECEIVED6 | RECEIVED7
  | RPORT1 | RPORT2 | RPORT3
  | FIN_HIDDEN | FIN_TTL | FIN_BRANCH | FIN_MADDR | FIN_RECEIVED | FIN_RPORT | FIN_I | FIN_ALIAS
  | GEN_PARAM | PARAM_ERROR
  deriving DecidableEq

/-- `L_VALUE` is 200, and there are 34 names from there to `ALIAS4`, but `FIN_HIDDEN` is 230: the four
states of `alias` have the numbers of the first four final states. -/
@[match_pattern] def State.ALIAS1 : State := .FIN_HIDDEN

@[match_pattern] def State.ALIAS2 : State := .FIN_TTL

@[match_pattern] def State.ALIAS3 : State := .FIN_BRANCH

@[match_pattern] def State.ALIAS4 : State := .FIN_MADDR

/-- `struct via_param`; `PARAM_HIDDEN` and its siblings are the final states. -/
structure ViaParam where
  type : State
  name : Slice
  value : Slice
  start : ℕ
  size : ℕ
  deriving DecidableEq

/-- `struct via_body` without its `error` and the links of its lists; `hdr` is set by the caller. -/
structure ViaBody where
  name : Slice
  version : Slice
  transport : Slice
  host : Slice
  proto : Proto
  port : ℕ
  port_str : Slice
  params : Slice
  comment : Slice
  bsize : ℕ
  param_lst : List ViaParam
  branch : Option ViaParam
  received : Option ViaParam
  rport : Option ViaParam
  i : Option ViaParam
  alias_ : Option ViaParam
  maddr : Option ViaParam
  deriving DecidableEq

/-- After `memset(vb, 0, sizeof *vb)`. -/
def ViaBody.zero : ViaBody :=
  ⟨.zero, .zero, .zero, .zero, .PROTO_NONE, 0, .zero, .zero, .zero, 0, [], none, none, none, none,
    none, none⟩

/-- The loops: the first and the second of `parse_via`, the two of `parse_via_param`. -/
inductive Phase where
  | first | main | param | value
  deriving DecidableEq

/-- The variables; `bodies` are the bodies in front of `vb`. -/
structure Vars where
  phase : Phase
  state : State
  saved_state : State
  buffer : ℕ
  param_start : ℕ
  c_nest : ℕ
  param : ViaParam
  vb : ViaBody
  bodies : List ViaBody
  allocs : ℕ

/-- What `parse_via` returns, and where. -/
inductive Stop where
  | accepted (bodies : List ViaBody) (tmp : ℕ)
  | parse_error (tmp : ℕ)
  deriving DecidableEq

/-- Where `parse_via` starts, also at `parse_again`: `saved_state` is 0. -/
def parse_again (u : Vars) (buffer : ℕ) : Vars :=
  { u with
    phase := .first, state := .F_SIP, saved_state := .F_HOST, buffer := buffer, param_start := 0 }

def start (buffer : ℕ) : Vars :=
  parse_again ⟨.first, .F_SIP, .F_HOST, buffer, 0, 0, ⟨.PARAM_ERROR, .zero, .zero, 0, 0⟩, .zero, [], 0⟩
    buffer

section End

/-- The port and the size of a body that ends at `p`. -/
def fin_body (mem : Str) (u : Vars) (p : ℕ) : Except Stop ViaBody :=
  let vb := { u.vb with bsize := p - u.buffer }
  if vb.port_str.s.isSome then
    match str2s (vb.port_str.text mem) with
    | some port => .ok { vb with port := port }
    | none => .error (.parse_error p)
  else .ok vb

/-- `endofpacket` -/
def endofpacket (mem : Str) (u : Vars) (p : ℕ) : Except Stop Vars :=
  match u.state with
  | .P_HOST | .L_PORT | .P_PORT | .L_PARAM | .P_PARAM | .P_VALUE | .GEN_PARAM | .FIN_HIDDEN
  | .L_VIA => do
    let vb ← fin_body mem u p
    .error (.accepted (u.bodies ++ [vb]) p)
  | _ => .error (.parse_error p)

/-- `endofheader` -/
def endofheader (mem : Str) (u : Vars) (p : ℕ) : Except Stop Vars :=
  endofpacket mem { u with state := u.saved_state } p

end End

section First

inductive FirstChar where
  | blank | nl | cr | slash | s | i | p | u | d | t | c | l | two | dot | zero | other
  deriving DecidableEq

def first_char (ch : UInt8) : FirstChar :=
  if ch = chr ' ' ∨ ch = chr '\t' then .blank
  else if ch = chr '\n' then .nl
  else if ch = chr '\r' then .cr
  else if ch = chr '/' then .slash
  else if ch = chr 'S' ∨ ch = chr 's' then .s
  else if ch = chr 'I' ∨ ch = chr 'i' then .i
  else if ch = chr 'p' ∨ ch = chr 'P' then .p
  else if ch = chr 'U' ∨ ch = chr 'u' then .u
  else if ch = chr 'D' ∨ ch = chr 'd' then .d
  else if ch = chr 'T' ∨ ch = chr 't' then .t
  else if ch = chr 'C' ∨ ch = chr 'c' then .c
  else if ch = chr 'L' ∨ ch = chr 'l' then .l
  else if ch = chr '2' then .two
  else if ch = chr '.' then .dot
  else if ch = chr '0' then .zero
  else .other

/-- `main_via` -/
def main_via (u : Vars) (state saved_state : State) : Vars :=
  { u with phase := .main, state := state, saved_state := saved_state, c_nest := 0 }

def fin_transport (u : Vars) (proto : Proto) (p : ℕ) : Vars :=
  { u with vb := { u.vb with transport := u.vb.transport.upto p, proto := proto } }

def fin_name (u : Vars) (p : ℕ) : Vars := { u with vb := { u.vb with name := u.vb.name.upto p } }

def fin_version (u : Vars) (p : ℕ) : Vars :=
  { u with vb := { u.vb with version := u.vb.version.upto p } }

def first_line_end (u : Vars) (p : ℕ) (state : State) : Except Stop Vars :=
  match u.state with
  | .L_VER | .F_SIP | .F_VER | .F_PROTO | .L_PROTO =>
    .ok { u with saved_state := u.state, state := state }
  | .FIN_UDP => .ok (main_via (fin_transport u .PROTO_UDP p) state .F_HOST)
  | .FIN_TCP => .ok (main_via (fin_transport u .PROTO_TCP p) state .F_HOST)
  | .FIN_TLS => .ok (main_via (fin_transport u .PROTO_TLS p) state .F_HOST)
  | .FIN_SIP => .ok { fin_name u p with state := state, saved_state := .L_VER }
  | .FIN_VER => .ok { fin_version u p with state := state, saved_state := .L_PROTO }
  | _ => .error (.parse_error p)

def first_step (u : Vars) (p : ℕ) (next : State → Option State) : Except Stop Vars :=
  match next u.state with
  | some state => .ok { u with state := state }
  | none => .error (.parse_error p)

def first_transport (u : Vars) (p : ℕ) (state : State) : Except Stop Vars :=
  .ok { u with state := state, vb := { u.vb with transport := u.vb.transport.at p } }

def first_turn (mem : Str) (u : Vars) (p : ℕ) (ch : UInt8) : Except Stop Vars :=
  match first_char ch with
  | .blank =>
    match u.state with
    | .L_VER | .L_PROTO | .F_SIP | .F_VER | .F_PROTO => .ok u
    | .FIN_UDP => .ok (main_via (fin_transport u .PROTO_UDP p) .F_HOST u.saved_state)
    | .FIN_TCP => .ok (main_via (fin_transport u .PROTO_TCP p) .F_HOST u.saved_state)
    | .FIN_TLS => .ok (main_via (fin_transport u .PROTO_TLS p) .F_HOST u.saved_state)
    | .FIN_SCTP => .ok (main_via (fin_transport u .PROTO_SCTP p) .F_HOST u.saved_state)
    | .FIN_SIP => .ok { fin_name u p with state := .L_VER }
    | .FIN_VER => .ok { fin_version u p with state := .L_PROTO }
    | .F_LF | .F_CRLF | .F_CR => .ok { u with state := u.saved_state }
    | _ => .error (.parse_error p)
  | .nl =>
    match u.state with
    | .F_CR => .ok { u with state := .F_CRLF }
    | .F_LF | .F_CRLF => endofheader mem u p
    | _ => first_line_end u p .F_LF
  | .cr =>
    match u.state with
    | .F_LF | .F_CR | .F_CRLF => endofheader mem u p
    | _ => first_line_end u p .F_CR
  | .slash =>
    match u.state with
    | .FIN_SIP => .ok { fin_name u p with state := .F_VER }
    | .FIN_VER => .ok { fin_version u p with state := .F_PROTO }
    | .L_VER => .ok { u with state := .F_VER }
    | .L_PROTO => .ok { u with state := .F_PROTO }
    | _ => .error (.parse_error p)
  | .s =>
    match u.state with
    | .F_SIP => .ok { u with state := .SIP1, vb := { u.vb with name := u.vb.name.at p } }
    | .TLS2 => .ok { u with state := .FIN_TLS }
    | .F_PROTO => first_transport u p .SCTP1
    | _ => .error (.parse_error p)
  | .i => first_step u p fun | .SIP1 => some .SIP2 | _ => none
  | .p => first_step u p fun
    | .SIP2 => some .FIN_SIP
    | .UDP2 => some .FIN_UDP
    | .TCP2 => some .FIN_TCP
    | .SCTP3 => some .FIN_SCTP
    | _ => none
  | .u =>
    match u.state with
    | .F_PROTO => first_transport u p .UDP1
    | _ => .error (.parse_error p)
  | .d => first_step u p fun | .UDP1 => some .UDP2 | _ => none
  | .t =>
    match u.state with
    | .F_PROTO => first_transport u p .TCP_TLS1
    | .SCTP2 => .ok { u with state := .SCTP3 }
    | _ => .error (.parse_error p)
  | .c => first_step u p fun | .TCP_TLS1 => some .TCP2 | .SCTP1 => some .SCTP2 | _ => none
  | .l => first_step u p fun | .TCP_TLS1 => some .TLS2 | _ => none
  | .two =>
    match u.state with
    | .F_VER => .ok { u with state := .VER1, vb := { u.vb with version := u.vb.version.at p } }
    | _ => .error (.parse_error p)
  | .dot => first_step u p fun | .VER1 => some .VER2 | _ => none
  | .zero => first_step u p fun | .VER2 => some .FIN_VER | _ => none
  | .other => .error (.parse_error p)

end First

section Param

/-- `*_param` shortcuts of a body, by the type of the parameter. -/
def shortcut (vb : ViaBody) (param : ViaParam) : ViaBody :=
  match param.type with
  | .FIN_BRANCH => { vb with branch := some param }
  | .FIN_RECEIVED => { vb with received := some param }
  | .FIN_RPORT => { vb with rport := some param }
  | .FIN_I => { vb with i := some param }
  | .FIN_ALIAS => { vb with alias_ := some param }
  | .FIN_MADDR => { vb with maddr := some param }
  | _ => vb

/-- The parameter is added to the list. -/
def add_param (vb : ViaBody) (param : ViaParam) : ViaBody :=
  shortcut { vb with param_lst := vb.param_lst ++ [param] } param

/-- `vb->params.len=param->start+param->size-vb->params.s` -/
def fin_params (vb : ViaBody) (param : ViaParam) : ViaBody :=
  { vb with params := vb.params.upto (param.start + param.size) }

/-- `parse_via` behind the call of `parse_via_param`, which returned `p`. -/
def behind_param (mem : Str) (u : Vars) (p : ℕ) : Except Stop Vars :=
  let u := { u with phase := .main }
  match u.state with
  | .F_PARAM => .ok { u with param_start := p + 1, vb := add_param u.vb u.param }
  | .L_PARAM | .F_LF | .F_CR => .ok { u with vb := add_param u.vb u.param }
  | .F_VIA => .ok { u with vb := add_param (fin_params u.vb u.param) u.param }
  | .END_OF_HEADER => endofheader mem { u with vb := add_param (fin_params u.vb u.param) u.param } p
  | _ => .error (.parse_error p)

/-- `endofparam` and `endofvalue` -/
def endofparam (mem : Str) (u : Vars) (p : ℕ) : Except Stop Vars :=
  behind_param mem { u with param := { u.param with size := p - u.param.start } } p

/-- `end_via`: a parameter may end the header without a value when it is an unknown one or `rport`. -/
def end_via (mem : Str) (u : Vars) (p : ℕ) : Except Stop Vars :=
  if u.param.type = .GEN_PARAM ∨ u.param.type = .FIN_RPORT then
    behind_param mem { u with state := .END_OF_HEADER, saved_state := .L_PARAM } p
  else .error (.parse_error p)

def fin_name_param (u : Vars) (type : State) (p : ℕ) : Vars :=
  { u with param := { u.param with type := type, name := u.param.name.upto p } }

/-- `param->size=tmp-param->start` -/
def sized (u : Vars) (p : ℕ) : Vars :=
  { u with param := { u.param with size := p - u.param.start } }

/-- `find_value` -/
def find_value (u : Vars) (state : State) : Vars := { u with phase := .value, state := state }

/-- One of the letters of the known names: `first` is the state when it starts a name. -/
def name_char (mem : Str) (u : Vars) (p : ℕ) (first : State) (next : State → State) :
    Except Stop Vars :=
  match u.state with
  | .F_PARAM => .ok { u with state := first, param := { u.param with name := u.param.name.at p } }
  | .F_CR | .F_LF | .F_CRLF => end_via mem u p
  | state => .ok { u with state := next state }

def name_turn (mem : Str) (u : Vars) (p : ℕ) (ch : UInt8) : Except Stop Vars :=
  if ch = chr 'h' ∨ ch = chr 'H' then
    name_char mem u p .HIDDEN1 fun | .BRANCH5 => .FIN_BRANCH | _ => .GEN_PARAM
  else if ch = chr 'i' ∨ ch = chr 'I' then
    name_char mem u p .FIN_I fun
      | .HIDDEN1 => .HIDDEN2
      | .RECEIVED4 => .RECEIVED5
      | .ALIAS2 => .ALIAS3
      | _ => .GEN_PARAM
  else if ch = chr 'd' ∨ ch = chr 'D' then
    name_char mem u p .GEN_PARAM fun
      | .HIDDEN2 => .HIDDEN3
      | .HIDDEN3 => .HIDDEN4
      | .MADDR2 => .MADDR3
      | .MADDR3 => .MADDR4
      | .RECEIVED7 => .FIN_RECEIVED
      | _ => .GEN_PARAM
  else if ch = chr 'e' ∨ ch = chr 'E' then
    name_char mem u p .GEN_PARAM fun
      | .HIDDEN4 => .HIDDEN5
      | .RECEIVED1 => .RECEIVED2
      | .RECEIVED3 => .RECEIVED4
      | .RECEIVED6 => .RECEIVED7
      | _ => .GEN_PARAM
  else if ch = chr 'n' ∨ ch = chr 'N' then
    name_char mem u p .GEN_PARAM fun
      | .HIDDEN5 => .FIN_HIDDEN
      | .BRANCH3 => .BRANCH4
      | _ => .GEN_PARAM
  else if ch = chr 't' ∨ ch = chr 'T' then
    name_char mem u p .TTL1 fun | .TTL1 => .TTL2 | .RPORT3 => .FIN_RPORT | _ => .GEN_PARAM
  else if ch = chr 'l' ∨ ch = chr 'L' then
    name_char mem u p .GEN_PARAM fun | .TTL2 => .FIN_TTL | .ALIAS1 => .ALIAS2 | _ => .GEN_PARAM
  else if ch = chr 'm' ∨ ch = chr 'M' then name_char mem u p .MADDR1 fun _ => .GEN_PARAM
  else if ch = chr 'a' ∨ ch = chr 'A' then
    name_char mem u p .ALIAS1 fun
      | .MADDR1 => .MADDR2
      | .BRANCH2 => .BRANCH3
      | .ALIAS3 => .ALIAS4
      | _ => .GEN_PARAM
  else if ch = chr 'r' ∨ ch = chr 'R' then
    name_char mem u p .RECEIVED1 fun
      | .MADDR4 => .FIN_MADDR
      | .BRANCH1 => .BRANCH2
      | .RPORT2 => .RPORT3
      | _ => .GEN_PARAM
  else if ch = chr 'c' ∨ ch = chr 'C' then
    name_char mem u p .GEN_PARAM fun
      | .RECEIVED2 => .RECEIVED3
      | .BRANCH4 => .BRANCH5
      | _ => .GEN_PARAM
  else if ch = chr 'v' ∨ ch = chr 'V' then
    name_char mem u p .GEN_PARAM fun | .RECEIVED5 => .RECEIVED6 | _ => .GEN_PARAM
  else if ch = chr 'b' ∨ ch = chr 'B' then name_char mem u p .BRANCH1 fun _ => .GEN_PARAM
  else if ch = chr 'p' ∨ ch = chr 'P' then
    name_char mem u p .GEN_PARAM fun | .RECEIVED1 => .RPORT1 | _ => .GEN_PARAM
  else if ch = chr 'o' ∨ ch = chr 'O' then
    name_char mem u p .GEN_PARAM fun | .RPORT1 => .RPORT2 | _ => .GEN_PARAM
  else if ch = chr 's' ∨ ch = chr 'S' then
    name_char mem u p .GEN_PARAM fun | .ALIAS4 => .FIN_ALIAS | _ => .GEN_PARAM
  else name_char mem u p .GEN_PARAM fun _ => .GEN_PARAM

/-- A line end in the first loop of `parse_via_param`, but for the states of line ends. -/
def param_line_end (mem : Str) (u : Vars) (p : ℕ) (state : State) : Except Stop Vars :=
  match u.state with
  | .FIN_HIDDEN | .FIN_ALIAS =>
    endofparam mem { fin_name_param u u.state p with saved_state := .L_PARAM, state := state } p
  | .FIN_BRANCH | .FIN_TTL | .FIN_MADDR | .FIN_RECEIVED | .FIN_I | .FIN_RPORT =>
    .ok (find_value { sized (fin_name_param u u.state p) p with saved_state := .L_VALUE } state)
  | .F_PARAM => .ok { u with saved_state := u.state, state := state }
  | _ => .ok (find_value { sized (fin_name_param u .GEN_PARAM p) p with saved_state := .L_VALUE } state)

/-- The first loop of `parse_via_param`. -/
def param_turn (mem : Str) (u : Vars) (p : ℕ) (ch : UInt8) : Except Stop Vars :=
  if ch = chr ' ' ∨ ch = chr '\t' then
    match u.state with
    | .FIN_HIDDEN | .FIN_ALIAS =>
      endofparam mem { fin_name_param u u.state p with state := .L_PARAM } p
    | .FIN_BRANCH | .FIN_TTL | .FIN_MADDR | .FIN_RECEIVED | .FIN_RPORT | .FIN_I =>
      .ok (find_value (fin_name_param u u.state p) .L_VALUE)
    | .F_PARAM => .ok u
    | .F_LF | .F_CR | .F_CRLF => .ok { u with state := u.saved_state }
    | _ => .ok (find_value (fin_name_param u .GEN_PARAM p) .L_VALUE)
  else if ch = chr '\n' then
    match u.state with
    | .F_LF | .F_CRLF => end_via mem u p
    | .F_CR => .ok { u with state := .F_CRLF }
    | _ => param_line_end mem u p .F_LF
  else if ch = chr '\r' then
    match u.state with
    | .F_CR | .F_CRLF => end_via mem u p
    | _ => param_line_end mem u p .F_CR
  else if ch = chr '=' then
    match u.state with
    | .FIN_BRANCH | .FIN_TTL | .FIN_MADDR | .FIN_RECEIVED | .FIN_RPORT | .FIN_I =>
      .ok (find_value (fin_name_param u u.state p) .F_VALUE)
    | .F_PARAM | .FIN_HIDDEN | .FIN_ALIAS => .error (.parse_error p)
    | .F_CR | .F_LF | .F_CRLF => end_via mem u p
    | _ => .ok (find_value (fin_name_param u .GEN_PARAM p) .F_VALUE)
  else if ch = chr ';' then
    match u.state with
    | .FIN_HIDDEN | .FIN_RPORT | .FIN_ALIAS =>
      endofparam mem { fin_name_param u u.state p with state := .F_PARAM } p
    | .FIN_BRANCH | .FIN_MADDR | .FIN_TTL | .FIN_RECEIVED | .FIN_I => .error (.parse_error p)
    | .F_CR | .F_LF | .F_CRLF => end_via mem u p
    | _ => endofparam mem { fin_name_param u .GEN_PARAM p with state := .F_PARAM } p
  else if ch = chr ',' then
    match u.state with
    | .FIN_HIDDEN | .FIN_RPORT | .FIN_ALIAS =>
      endofparam mem { fin_name_param u u.state p with state := .F_VIA } p
    | .FIN_BRANCH | .FIN_MADDR | .FIN_TTL | .FIN_RECEIVED | .FIN_I => .error (.parse_error p)
    | .F_CR | .F_LF | .F_CRLF => end_via mem u p
    | _ => endofparam mem { fin_name_param u .GEN_PARAM p with state := .F_VIA } p
  else name_turn mem u p ch

end Param

section Value

inductive ValueChar where
  | nul | blank | nl | cr | equal | semicolon | comma | quote | other
  deriving DecidableEq

def value_char (ch : UInt8) : ValueChar :=
  if ch = 0 then .nul
  else if ch = chr ' ' ∨ ch = chr '\t' then .blank
  else if ch = chr '\n' then .nl
  else if ch = chr '\r' then .cr
  else if ch = chr '=' then .equal
  else if ch = chr ';' then .semicolon
  else if ch = chr ',' then .comma
  else if ch = chr '"' then .quote
  else .other

/-- `param->value.len=tmp-param->value.s` -/
def fin_value (u : Vars) (p : ℕ) : Vars :=
  { u with param := { u.param with value := u.param.value.upto p } }

def value_line_end (mem : Str) (u : Vars) (p : ℕ) (state : State) : Except Stop Vars :=
  match u.state with
  | .L_VALUE | .F_VALUE | .P_STRING =>
    .ok { sized u p with saved_state := u.state, state := state }
  | .P_VALUE => endofparam mem { fin_value u p with saved_state := .L_PARAM, state := state } p
  | _ => .error (.parse_error p)

/-- `;` or `,` behind a name: `rport` may be without a value. -/
def no_value (mem : Str) (u : Vars) (p : ℕ) (state : State) : Except Stop Vars :=
  if u.param.type = .FIN_RPORT then
    endofparam mem { u with param := { u.param with value := .zero }, state := state } p
  else .error (.parse_error p)

/-- The second loop of `parse_via_param`. -/
def value_turn (mem : Str) (u : Vars) (p : ℕ) (ch : UInt8) : Except Stop Vars :=
  match value_char ch with
  | .nul => .error (.parse_error p)
  | .blank =>
    match u.state with
    | .L_VALUE | .F_VALUE | .P_STRING => .ok u
    | .P_VALUE => endofparam mem { fin_value u p with state := .L_PARAM } p
    | .F_CR | .F_LF | .F_CRLF => .ok { u with state := u.saved_state }
    | _ => .error (.parse_error p)
  | .nl =>
    match u.state with
    | .F_LF | .F_CRLF => end_via mem u p
    | .F_CR => .ok { u with state := .F_CRLF }
    | _ => value_line_end mem u p .F_LF
  | .cr =>
    match u.state with
    | .F_LF | .F_CR | .F_CRLF => end_via mem u p
    | _ => value_line_end mem u p .F_CR
  | .equal =>
    match u.state with
    | .L_VALUE => .ok { u with state := .F_VALUE }
    | .P_STRING => .ok u
    | .F_LF | .F_CR | .F_CRLF => end_via mem u p
    | _ => .error (.parse_error p)
  | .semicolon =>
    match u.state with
    | .P_VALUE => endofparam mem { fin_value u p with state := .F_PARAM } p
    | .F_VALUE =>
      let value := { u.param.value with len := some 0 }
      endofparam mem { u with param := { u.param with value := value }, state := .F_PARAM } p
    | .P_STRING => .ok u
    | .F_LF | .F_CR | .F_CRLF => end_via mem u p
    | .L_VALUE => no_value mem u p .F_PARAM
    | _ => .error (.parse_error p)
  | .comma =>
    match u.state with
    | .P_VALUE => endofparam mem { fin_value u p with state := .F_VIA } p
    -- a comma inside a quoted value counts as the end of the header
    | .P_STRING | .F_LF | .F_CR | .F_CRLF => end_via mem u p
    | .L_VALUE => no_value mem u p .F_VIA
    | _ => .error (.parse_error p)
  | .quote =>
    match u.state with
    | .F_VALUE =>
      let value := u.param.value.at (p + 1)
      .ok { u with state := .P_STRING, param := { u.param with value := value } }
    | .P_STRING => endofparam mem { fin_value u p with state := .L_PARAM } p
    | .F_LF | .F_CR | .F_CRLF => end_via mem u p
    | _ => .error (.parse_error p)
  | .other =>
    match u.state with
    | .F_VALUE =>
      .ok { u with state := .P_VALUE, param := { u.param with value := u.param.value.at p } }
    | .P_VALUE | .P_STRING => .ok u
    | .F_LF | .F_CR | .F_CRLF => end_via mem u p
    | _ => .error (.parse_error p)

end Value

section Main

/-- The characters the second loop of `parse_via` tells apart. -/
inductive MainChar where
  | nul | blank | nl | cr | colon | semicolon | comma | lparen | rparen | lbracket | rbracket | other
  deriving DecidableEq

def main_char (ch : UInt8) : MainChar :=
  if ch = 0 then .nul
  else if ch = chr ' ' ∨ ch = chr '\t' then .blank
  else if ch = chr '\n' then .nl
  else if ch = chr '\r' then .cr
  else if ch = chr ':' then .colon
  else if ch = chr ';' then .semicolon
  else if ch = chr ',' then .comma
  else if ch = chr '(' then .lparen
  else if ch = chr ')' then .rparen
  else if ch = chr '[' then .lbracket
  else if ch = chr ']' then .rbracket
  else .other

def fin_host (u : Vars) (p : ℕ) : Vars := { u with vb := { u.vb with host := u.vb.host.upto p } }

def fin_port (u : Vars) (p : ℕ) : Vars :=
  { u with vb := { u.vb with port_str := u.vb.port_str.upto p } }

def open_comment (u : Vars) : Vars := { u with state := .F_COMMENT, c_nest := u.c_nest + 1 }

/-- `vb->params.len=tmp-vb->params.s` -/
def end_params (u : Vars) (p : ℕ) : Vars := { u with vb := { u.vb with params := u.vb.params.upto p } }

/-- The first character of a comment, when it is not a blank or a parenthesis. -/
def comment_char (u : Vars) (p : ℕ) : Vars :=
  { u with state := .P_COMMENT, vb := { u.vb with comment := u.vb.comment.at p } }

def main_line_end (u : Vars) (p : ℕ) (state : State) : Except Stop Vars :=
  match u.state with
  | .F_HOST | .L_PORT | .F_PORT | .L_PARAM | .F_PARAM | .F_VIA | .L_VIA | .F_COMMENT | .P_COMMENT
  | .F_IP6HOST | .P_IP6HOST => .ok { u with saved_state := u.state, state := state }
  | .P_HOST => .ok { fin_host u p with saved_state := .L_PORT, state := state }
  | .P_PORT => .ok { fin_port u p with saved_state := .L_PARAM, state := state }
  | .P_PARAM => .ok { u with saved_state := .L_PARAM, state := state }
  | _ => .error (.parse_error p)

/-- A parameter starts: the call of `parse_via_param`, whose loop reads the same character. -/
def start_param (mem : Str) (end_ : ℕ) (avail : ℕ → Bool) (u : Vars) (p : ℕ) (ch : UInt8) :
    Except Stop Vars :=
  let params := if u.vb.params.s = none then u.vb.params.at u.param_start else u.vb.params
  let u := { u with vb := { u.vb with params := params } }
  if ¬ avail u.allocs then .error (.parse_error p)
  else if end_ ≤ p then .error (.parse_error p)
  else
    let param := ⟨.PARAM_ERROR, .zero, .zero, u.param_start, 0⟩
    param_turn mem { u with phase := .param, param := param, allocs := u.allocs + 1 } p ch

/-- `nextvia` -/
def nextvia (mem : Str) (end_ : ℕ) (avail : ℕ → Bool) (u : Vars) (p : ℕ) (ch : UInt8) :
    Except Stop Vars := do
  let vb ← fin_body mem u p
  if ¬ avail u.allocs then .error (.parse_error p)
  else if end_ ≤ p then .error (.parse_error p)
  else
    let u := { u with vb := .zero, bodies := u.bodies ++ [vb], allocs := u.allocs + 1 }
    first_turn mem (parse_again u p) p ch

/-- The second loop of `parse_via`. -/
def main_turn (mem : Str) (end_ : ℕ) (avail : ℕ → Bool) (u : Vars) (p : ℕ) (ch : UInt8) :
    Except Stop Vars :=
  match main_char ch with
  | .nul => endofpacket mem u p
  | .blank =>
    match u.state with
    | .F_HOST | .L_PORT | .F_PORT | .L_PARAM | .F_PARAM | .L_VIA | .F_VIA | .F_COMMENT
    | .P_COMMENT => .ok u
    | .P_HOST => .ok { fin_host u p with state := .L_PORT }
    | .P_PORT => .ok { fin_port u p with state := .L_PARAM }
    | .P_PARAM => .ok { u with state := .L_PARAM }
    | .F_CRLF | .F_LF | .F_CR => .ok { u with state := u.saved_state }
    | _ => .error (.parse_error p)
  | .nl =>
    match u.state with
    | .F_CR => .ok { u with state := .F_CRLF }
    | .F_CRLF | .F_LF => endofheader mem u p
    | _ => main_line_end u p .F_LF
  | .cr =>
    match u.state with
    | .F_CRLF | .F_CR | .F_LF => endofheader mem u p
    | _ => main_line_end u p .F_CR
  | .colon =>
    match u.state with
    | .F_HOST | .F_IP6HOST => .ok { u with state := .P_IP6HOST }
    | .P_IP6HOST | .P_COMMENT => .ok u
    | .P_HOST => .ok { fin_host u p with state := .F_PORT }
    | .L_PORT => .ok { u with state := .F_PORT }
    | .F_CRLF | .F_LF | .F_CR => endofheader mem u p
    | .F_COMMENT => .ok (comment_char u p)
    | _ => .error (.parse_error p)
  | .semicolon =>
    match u.state with
    | .P_HOST => .ok { fin_host u p with state := .F_PARAM, param_start := p + 1 }
    | .P_PORT => .ok { fin_port u p with state := .F_PARAM, param_start := p + 1 }
    | .L_PORT | .L_PARAM | .P_PARAM => .ok { u with state := .F_PARAM, param_start := p + 1 }
    | .F_CRLF | .F_LF | .F_CR => endofheader mem u p
    | .F_COMMENT => .ok (comment_char u p)
    | .P_COMMENT => .ok u
    | _ => .error (.parse_error p)
  | .comma =>
    match u.state with
    | .P_HOST => .ok { fin_host u p with state := .F_VIA }
    | .P_PORT => .ok { fin_port u p with state := .F_VIA }
    | .L_PORT | .L_PARAM | .P_PARAM | .L_VIA => .ok { u with state := .F_VIA }
    | .F_VIA | .P_COMMENT => .ok u
    | .F_CRLF | .F_LF | .F_CR => endofheader mem u p
    | .F_COMMENT => .ok (comment_char u p)
    | _ => .error (.parse_error p)
  | .lparen =>
    match u.state with
    | .P_HOST => .ok (open_comment (fin_host u p))
    | .P_PORT => .ok (open_comment (fin_port u p))
    | .P_PARAM | .L_PORT | .L_PARAM | .L_VIA => .ok (open_comment (end_params u p))
    | .P_COMMENT | .F_COMMENT => .ok { u with c_nest := u.c_nest + 1 }
    | .F_CRLF | .F_LF | .F_CR => endofheader mem u p
    | _ => .error (.parse_error p)
  | .rparen =>
    match u.state with
    | .F_COMMENT | .P_COMMENT =>
      if u.c_nest = 0 then .error (.parse_error p)
      else if u.c_nest - 1 = 0 then
        let vb := { u.vb with comment := u.vb.comment.upto p }
        .ok { u with c_nest := 0, state := .L_VIA, vb := vb }
      else .ok { u with c_nest := u.c_nest - 1 }
    | .F_CRLF | .F_LF | .F_CR => endofheader mem u p
    | _ => .error (.parse_error p)
  | .lbracket =>
    match u.state with
    | .F_HOST => .ok { u with state := .F_IP6HOST, vb := { u.vb with host := u.vb.host.at p } }
    | .F_COMMENT => .ok (comment_char u p)
    | .P_COMMENT => .ok u
    | .F_CRLF | .F_LF | .F_CR => endofheader mem u p
    | _ => .error (.parse_error p)
  | .rbracket =>
    match u.state with
    -- the host includes the bracket
    | .P_IP6HOST => .ok { fin_host u (p + 1) with state := .L_PORT }
    | .F_CRLF | .F_LF | .F_CR => endofheader mem u p
    | .F_COMMENT => .ok (comment_char u p)
    | .P_COMMENT => .ok u
    | _ => .error (.parse_error p)
  | .other =>
    match u.state with
    | .F_HOST => .ok { u with state := .P_HOST, vb := { u.vb with host := u.vb.host.at p } }
    | .P_HOST | .P_PORT | .P_PARAM | .P_COMMENT | .P_IP6HOST => .ok u
    | .F_PORT => .ok { u with state := .P_PORT, vb := { u.vb with port_str := u.vb.port_str.at p } }
    | .F_PARAM => start_param mem end_ avail u p ch
    | .F_VIA => nextvia mem end_ avail u p ch
    | .F_COMMENT => .ok (comment_char u p)
    | .F_IP6HOST => .ok { u with state := .P_IP6HOST }
    | .F_CRLF | .F_LF | .F_CR => endofheader mem u p
    | _ => .error (.parse_error p)

end Main

/-- One character. -/
def turn (mem : Str) (end_ : ℕ) (avail : ℕ → Bool) (u : Vars) (p : ℕ) (ch : UInt8) :
    Except Stop Vars :=
  match u.phase with
  | .first => if end_ ≤ p then .error (.parse_error p) else first_turn mem u p ch
  | .main => main_turn mem end_ avail u p ch
  | .param => if end_ ≤ p then .error (.parse_error p) else param_turn mem u p ch
  | .value => value_turn mem u p ch

/-- `parse_via` on the body between `buffer` and `end`.  `none`: it reads behind the memory. -/
def parse_via (mem : Str) (avail : ℕ → Bool) (buffer end_ : ℕ) : Option Stop :=
  match scan (turn mem end_ avail) (start buffer) buffer (mem.drop buffer) with
  | .error stop => some stop
  | .ok u =>
    match u.phase with
    | .first | .param => if end_ ≤ mem.length then some (.parse_error mem.length) else none
    | .main | .value => none

/-- **The rule for `parse_via`**: what every character keeps, and what holds where one ends the header,
holds of an accepted header. -/
theorem parse_via_rule {mem : Str} {avail : ℕ → Bool} {buffer end_ tmp : ℕ} {bodies : List ViaBody}
    {I : ℕ → Vars → Prop} {Q : List ViaBody → ℕ → Prop}
    (hstep : ∀ p u ch, mem[p]? = some ch → I p u →
      Outcome (I (p + 1)) (fun stop => ∀ bodies tmp, stop = .accepted bodies tmp → Q bodies tmp)
        (turn mem end_ avail u p ch))
    (h0 : I buffer (start buffer)) (hb : buffer ≤ mem.length)
    (e : parse_via mem avail buffer end_ = some (.accepted bodies tmp)) : Q bodies tmp := by
  have hout := scan_outcome hstep hb h0
  unfold parse_via at e
  cases hs : scan (turn mem end_ avail) (start buffer) buffer (mem.drop buffer) with
  | error stop =>
    rw [hs] at e hout
    exact hout bodies tmp (Option.some.inj e)
  | ok u =>
    rw [hs] at e
    dsimp only at e
    split at e <;> first
      | cases e
      | (split_ifs at e; cases e)

end OpenSips.Via
