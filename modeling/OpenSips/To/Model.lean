import OpenSips.Via.Model

/-!
# OpenSips.To.Model — `parse_to` (`core/parser/parse_to.c`)

The loops of `parse_to` and `parse_to_param` are the two phases of one machine; the call in between
changes the phase.  Parameters are named by the number of their allocation.
-/

namespace OpenSips.To

open Lib Via

inductive State where
  | START_TO | DISPLAY_QUOTED | E_DISPLAY_QUOTED | DISPLAY_TOKEN | DISPLAY_TOKEN2
  | S_URI_ENCLOSED | URI_ENCLOSED | E_URI_ENCLOSED | URI_OR_TOKEN | MAYBE_URI_END | END
  | F_CR | F_LF | F_CRLF
  | S_PARA_NAME | PARA_NAME | S_EQUAL | S_PARA_VALUE | TAG1 | TAG2 | TAG3
  | PARA_VALUE_TOKEN | PARA_VALUE_QUOTED | E_PARA_VALUE
  deriving DecidableEq

inductive ParamType where
  | TAG_PARAM | GENERAL_PARAM
  deriving DecidableEq

/-- `struct to_param`; `addr` is where it was allocated. -/
structure ToParam where
  addr : ℕ
  type : ParamType
  name : Slice
  value : Slice
  deriving DecidableEq

/-- `struct to_body`; `error` is true for `PARSE_ERROR`. -/
structure ToBody where
  error : Bool
  body : Slice
  uri : Slice
  display : Slice
  tag_value : Slice
  param_lst : List ToParam
  deriving DecidableEq

/-- After `memset(to_b, 0, sizeof *to_b)`; 0 is `PARSE_OK`. -/
def ToBody.zero : ToBody := ⟨false, .zero, .zero, .zero, .zero, []⟩

inductive Phase where
  | to | param
  deriving DecidableEq

/-- The variables.  `skip` is set when the next character is jumped over; `allocs` and `freed` are the
allocations so far, counted, and the ones freed. -/
structure Vars where
  phase : Phase
  status : State
  saved_status : State
  skip : Bool
  end_mark : ℕ
  param : Option ToParam
  to_b : ToBody
  allocs : ℕ
  freed : List ℕ
  deriving DecidableEq

/-- How the loops are left: at a `NULL` pointer, or for the labels `endofheader` and `parse_error` or
`error` of `parse_to_param` and of `parse_to`. -/
inductive Exit where
  | fault
  | endofparams (u : Vars) (p : ℕ)
  | param_error (u : Vars) (p : ℕ)
  | endofheader (u : Vars) (p : ℕ)
  | error (u : Vars) (p : ℕ)
  deriving DecidableEq

def start (allocs : ℕ) : Vars :=
  ⟨.to, .START_TO, .START_TO, false, 0, none, .zero, allocs, []⟩

/-- `param->...` -/
def with_param (u : Vars) (f : ToParam → Except Exit Vars) : Except Exit Vars :=
  match u.param with
  | none => .error .fault
  | some x => f x

/-- The macro `add_param`. -/
def add_param (u : Vars) (x : ToParam) : Vars :=
  { u with
    param := none
    to_b := { u.to_b with
      param_lst := u.to_b.param_lst ++ [x]
      tag_value := if x.type = .TAG_PARAM then x.value else u.to_b.tag_value } }

section Labels

/-- `error` of `parse_to` -/
def error (u : Vars) : Vars := { u with to_b := { u.to_b with error := true } }

/-- `endofheader` of `parse_to` -/
def endofheader (u : Vars) (p : ℕ) : Vars :=
  let display := if u.to_b.display.len = some 0 then { u.to_b.display with s := none } else u.to_b.display
  let u := { u with status := u.saved_status, to_b := { u.to_b with display := display } }
  match u.status with
  | .MAYBE_URI_END =>
    { u with to_b := { u.to_b with uri := u.to_b.uri.upto u.end_mark, body := u.to_b.body.upto p } }
  | .END => { u with to_b := { u.to_b with body := u.to_b.body.upto p } }
  | .E_PARA_VALUE => u
  | _ => error u

/-- `parse_error` of `parse_to_param`; its caller goes on at `endofheader`. -/
def param_error (u : Vars) (p : ℕ) : Vars :=
  let freed := u.freed ++ (u.param.map ToParam.addr).toList ++ u.to_b.param_lst.map ToParam.addr
  endofheader { error u with freed := freed, saved_status := u.status } p

/-- `endofheader` of `parse_to_param` -/
def endofparams (u : Vars) (p : ℕ) : Vars :=
  match u.param with
  | none => endofheader u p
  | some x =>
    if u.saved_status = .S_EQUAL ∨ u.saved_status = .S_PARA_VALUE then
      let u := { u with saved_status := .E_PARA_VALUE }
      let x := { x with value := ⟨none, some 0⟩ }
      if x.type = .TAG_PARAM then param_error { u with param := some x } p
      else endofheader (add_param u x) p
    else endofheader u p

/-- What `parse_to` leaves, and the position it returns. -/
def Exit.run : Exit → Option (Vars × ℕ)
  | .fault => none
  | .endofparams u p => some (To.endofparams u p, p)
  | .param_error u p => some (To.param_error u p, p)
  | .endofheader u p => some (To.endofheader u p, p)
  | .error u p => some (To.error u, p)

end Labels

section Param

/-- The characters that `parse_to_param` tells apart. -/
inductive ParamChar where
  | blank | nl | cr | nul | backslash | quote | semicolon | t | a | g | equal | other
  deriving DecidableEq

def param_char (ch : UInt8) : ParamChar :=
  if ch = chr ' ' ∨ ch = chr '\t' then .blank
  else if ch = chr '\n' then .nl
  else if ch = chr '\r' then .cr
  else if ch = 0 then .nul
  else if ch = chr '\\' then .backslash
  else if ch = chr '"' then .quote
  else if ch = chr ';' then .semicolon
  else if ch = chr 'T' ∨ ch = chr 't' then .t
  else if ch = chr 'A' ∨ ch = chr 'a' then .a
  else if ch = chr 'G' ∨ ch = chr 'g' then .g
  else if ch = chr '=' then .equal
  else .other

/-- The name ends: `TAG3` is a name `tag`. -/
def fin_name (u : Vars) (p : ℕ) (x : ToParam) : ToParam :=
  { x with
    type := if u.status = .TAG3 then .TAG_PARAM else x.type
    name := x.name.upto p }

def fin_value (u : Vars) (p : ℕ) (status : State) : Except Exit Vars :=
  with_param u fun x => .ok { add_param u { x with value := x.value.upto p } with status := status }

def param_line_end (u : Vars) (p : ℕ) (status : State) : Except Exit Vars :=
  match u.status with
  | .S_PARA_NAME | .S_EQUAL | .S_PARA_VALUE | .E_PARA_VALUE =>
    .ok { u with saved_status := u.status, status := status }
  | .TAG3 | .PARA_NAME | .TAG1 | .TAG2 => with_param u fun x =>
    .ok { u with param := some (fin_name u p x), saved_status := .S_EQUAL, status := status }
  | .PARA_VALUE_TOKEN => with_param u fun x =>
    .ok { add_param u { x with value := x.value.upto p } with
      saved_status := .E_PARA_VALUE, status := status }
  | _ => .error (.param_error u p)

/-- A parameter without a value ends at a `;` or a NUL. -/
def no_value (u : Vars) (p : ℕ) (x : ToParam) (f : Vars → Except Exit Vars) : Except Exit Vars :=
  if x.type = .TAG_PARAM then .error (.param_error { u with param := some x } p)
  else
    let x := { x with value := x.value.at p }
    f (add_param u { x with value := x.value.upto p })

/-- A `;` or a NUL outside a quoted value; `f` is what follows when the last parameter is added. -/
def param_end (u : Vars) (p : ℕ) (f : Vars → Except Exit Vars) : Except Exit Vars :=
  match u.status with
  | .PARA_NAME => with_param u fun x => no_value u p { x with name := x.name.upto p } f
  | .S_EQUAL | .S_PARA_VALUE => with_param u fun x => no_value u p x f
  | .PARA_VALUE_TOKEN => with_param u fun x => f (add_param u { x with value := x.value.upto p })
  | .E_PARA_VALUE => f u
  | _ => .error (.param_error u p)

def new_param (avail : ℕ → Bool) (p : ℕ) (u : Vars) : Except Exit Vars :=
  if avail u.allocs then
    let x := { addr := u.allocs, type := .GENERAL_PARAM, name := .zero, value := .zero }
    .ok { u with param := some x, status := .S_PARA_NAME, allocs := u.allocs + 1 }
  else .error (.param_error u p)

/-- One of the letters of `tag`, or any other: `first` is the state when it starts a name, `next` the
one in the middle of `tag`. -/
def name_char (u : Vars) (p : ℕ) (first : State) (next : State → State) : Except Exit Vars :=
  match u.status with
  | .PARA_VALUE_QUOTED | .PARA_VALUE_TOKEN | .PARA_NAME => .ok u
  | .S_PARA_NAME => with_param u fun x =>
    .ok { u with param := some { x with name := x.name.at p }, status := first }
  | .S_PARA_VALUE => with_param u fun x =>
    .ok { u with param := some { x with value := x.value.at p }, status := .PARA_VALUE_TOKEN }
  | .TAG1 | .TAG2 | .TAG3 => .ok { u with status := next u.status }
  | .F_CRLF | .F_LF | .F_CR => .error (.endofparams u p)
  | _ => .error (.param_error u p)

/-- The loop of `parse_to_param`.  `next` is the character behind. -/
def param_turn (avail : ℕ → Bool) (u : Vars) (p : ℕ) (ch next : UInt8) : Except Exit Vars :=
  match param_char ch with
  | .blank =>
    match u.status with
    | .TAG3 | .PARA_NAME | .TAG1 | .TAG2 => with_param u fun x =>
      .ok { u with param := some (fin_name u p x), status := .S_EQUAL }
    | .PARA_VALUE_TOKEN => fin_value u p .E_PARA_VALUE
    | .F_CRLF | .F_LF | .F_CR => .ok { u with status := u.saved_status }
    | _ => .ok u
  | .nl =>
    match u.status with
    | .F_CR => .ok { u with status := .F_CRLF }
    | .F_CRLF | .F_LF => .error (.endofparams { u with status := u.saved_status } p)
    | _ => param_line_end u p .F_LF
  | .cr =>
    match u.status with
    | .F_CRLF | .F_CR | .F_LF => .error (.endofparams { u with status := u.saved_status } p)
    | _ => param_line_end u p .F_CR
  | .nul => param_end u p fun u =>
    .error (.endofparams { u with status := .E_PARA_VALUE, saved_status := .E_PARA_VALUE } p)
  | .backslash =>
    -- the jump over the next character falls through to the error
    if u.status = .PARA_VALUE_QUOTED ∧ next ≠ chr '\r' ∧ next ≠ chr '\n' then .error (.param_error u (p + 1))
    else .error (.param_error u p)
  | .quote =>
    match u.status with
    | .S_PARA_VALUE => with_param u fun x =>
      .ok { u with param := some { x with value := x.value.at (p + 1) }, status := .PARA_VALUE_QUOTED }
    | .PARA_VALUE_QUOTED => fin_value u p .E_PARA_VALUE
    | .F_CRLF | .F_LF | .F_CR => .error (.endofparams u p)
    | _ => .error (.param_error u p)
  | .semicolon =>
    match u.status with
    | .PARA_VALUE_QUOTED => .ok u
    | .F_CRLF | .F_LF | .F_CR => .error (.endofparams u p)
    | _ => param_end u p (new_param avail p)
  | .t => name_char u p .TAG1 fun _ => .PARA_NAME
  | .a => name_char u p .PARA_NAME fun | .TAG1 => .TAG2 | _ => .PARA_NAME
  | .g => name_char u p .PARA_NAME fun | .TAG2 => .TAG3 | _ => .PARA_NAME
  | .equal =>
    match u.status with
    | .PARA_VALUE_QUOTED => .ok u
    | .TAG3 | .PARA_NAME | .TAG1 | .TAG2 => with_param u fun x =>
      .ok { u with param := some (fin_name u p x), status := .S_PARA_VALUE }
    | .S_EQUAL => .ok { u with status := .S_PARA_VALUE }
    | .F_CRLF | .F_LF | .F_CR => .error (.endofparams u p)
    | _ => .error (.param_error u p)
  | .other => name_char u p .PARA_NAME fun _ => .PARA_NAME

end Param

section Main

/-- The characters that `parse_to` tells apart. -/
inductive MainChar where
  | blank | nl | cr | nul | backslash | langle | rangle | quote | semicolon | other
  deriving DecidableEq

def main_char (ch : UInt8) : MainChar :=
  if ch = chr ' ' ∨ ch = chr '\t' then .blank
  else if ch = chr '\n' then .nl
  else if ch = chr '\r' then .cr
  else if ch = 0 then .nul
  else if ch = chr '\\' then .backslash
  else if ch = chr '<' then .langle
  else if ch = chr '>' then .rangle
  else if ch = chr '"' then .quote
  else if ch = chr ';' then .semicolon
  else .other

/-- `to_b->uri.len = q - to_b->uri.s` -/
def fin_uri (u : Vars) (q : ℕ) : Vars := { u with to_b := { u.to_b with uri := u.to_b.uri.upto q } }

/-- `to_b->display.len=end_mark-to_b->display.s` -/
def fin_display (u : Vars) : Vars :=
  { u with to_b := { u.to_b with display := u.to_b.display.upto u.end_mark }, status := .S_URI_ENCLOSED }

def main_line_end (u : Vars) (p : ℕ) (status : State) : Except Exit Vars :=
  match u.status with
  | .URI_OR_TOKEN => .ok { u with end_mark := p, saved_status := .MAYBE_URI_END, status := status }
  | .MAYBE_URI_END | .DISPLAY_TOKEN | .DISPLAY_TOKEN2 | .E_DISPLAY_QUOTED | .END =>
    .ok { u with saved_status := u.status, status := status }
  | _ => .error (.error u p)

/-- The call of `parse_to_param`, whose loop reads the same character. -/
def parse_to_param (avail : ℕ → Bool) (u : Vars) (p : ℕ) (ch next : UInt8) : Except Exit Vars :=
  param_turn avail { u with
    phase := .param, status := .E_PARA_VALUE, saved_status := .E_PARA_VALUE, param := none
    to_b := { u.to_b with body := u.to_b.body.upto p } } p ch next

/-- The loop of `parse_to`. -/
def main_turn (avail : ℕ → Bool) (u : Vars) (p : ℕ) (ch next : UInt8) : Except Exit Vars :=
  match main_char ch with
  | .blank =>
    match u.status with
    | .F_CRLF | .F_LF | .F_CR => .ok { u with status := u.saved_status }
    | .URI_ENCLOSED => .ok { fin_uri u p with status := .E_URI_ENCLOSED }
    | .URI_OR_TOKEN => .ok { u with status := .MAYBE_URI_END, end_mark := p }
    | .DISPLAY_TOKEN => .ok { u with status := .DISPLAY_TOKEN2, end_mark := p }
    | _ => .ok u
  | .nl =>
    match u.status with
    | .F_CR => .ok { u with status := .F_CRLF }
    | .F_CRLF | .F_LF => .error (.endofheader u p)
    | _ => main_line_end u p .F_LF
  | .cr =>
    match u.status with
    | .F_CRLF | .F_CR | .F_LF => .error (.endofheader u p)
    | _ => main_line_end u p .F_CR
  | .nul =>
    match u.status with
    | .URI_OR_TOKEN | .MAYBE_URI_END => .error (.endofheader { fin_uri u p with saved_status := .END } p)
    | .END => .error (.endofheader { u with saved_status := .END } p)
    | _ => .error (.error u p)
  | .backslash =>
    match u.status with
    | .DISPLAY_QUOTED => .ok { u with skip := true }
    | _ => .error (.error u p)
  | .langle =>
    match u.status with
    | .START_TO => .ok { u with
        to_b := { u.to_b with body := u.to_b.body.at p }, status := .S_URI_ENCLOSED }
    | .DISPLAY_QUOTED => .ok u
    | .E_DISPLAY_QUOTED => .ok { u with status := .S_URI_ENCLOSED }
    | .URI_OR_TOKEN | .DISPLAY_TOKEN => .ok (fin_display { u with end_mark := p })
    | .DISPLAY_TOKEN2 | .MAYBE_URI_END => .ok (fin_display u)
    | .F_CRLF | .F_LF | .F_CR => .error (.endofheader u p)
    | _ => .error (.error u p)
  | .rangle =>
    match u.status with
    | .DISPLAY_QUOTED => .ok u
    | .URI_ENCLOSED => .ok { fin_uri u p with status := .END }
    | .E_URI_ENCLOSED => .ok { u with status := .END }
    | .F_CRLF | .F_LF | .F_CR => .error (.endofheader u p)
    | _ => .error (.error u p)
  | .quote =>
    match u.status with
    | .START_TO => .ok { u with
        to_b := { u.to_b with body := u.to_b.body.at p, display := u.to_b.display.at p }
        status := .DISPLAY_QUOTED }
    | .DISPLAY_QUOTED => .ok { u with
        to_b := { u.to_b with display := u.to_b.display.upto (p + 1) }, status := .E_DISPLAY_QUOTED }
    | .F_CRLF | .F_LF | .F_CR => .error (.endofheader u p)
    | _ => .error (.error u p)
  | .semicolon =>
    match u.status with
    | .DISPLAY_QUOTED | .DISPLAY_TOKEN | .URI_ENCLOSED => .ok u
    | .URI_OR_TOKEN => parse_to_param avail { fin_uri u p with end_mark := p } p ch next
    | .MAYBE_URI_END => parse_to_param avail (fin_uri u u.end_mark) p ch next
    | .END => parse_to_param avail u p ch next
    | .F_CRLF | .F_LF | .F_CR => .error (.endofheader u p)
    | _ => .error (.error u p)
  | .other =>
    match u.status with
    | .START_TO => .ok { u with
        to_b := { u.to_b with
          uri := u.to_b.uri.at p, body := u.to_b.body.at p, display := u.to_b.display.at p }
        status := .URI_OR_TOKEN }
    | .S_URI_ENCLOSED => .ok { u with
        to_b := { u.to_b with uri := u.to_b.uri.at p }, status := .URI_ENCLOSED }
    | .MAYBE_URI_END | .DISPLAY_TOKEN2 => .ok { u with status := .DISPLAY_TOKEN }
    | .DISPLAY_QUOTED | .DISPLAY_TOKEN | .URI_ENCLOSED | .URI_OR_TOKEN => .ok u
    | .F_CRLF | .F_LF | .F_CR => .error (.endofheader u p)
    | _ => .error (.error u p)

end Main

/-- One character; `next` is the one behind. -/
def turn (mem : Str) (avail : ℕ → Bool) (u : Vars) (p : ℕ) (ch : UInt8) : Except Exit Vars :=
  let next := (mem.drop (p + 1)).headD 0
  if u.skip then .ok { u with skip := false }
  else match u.phase with
    | .to => main_turn avail u p ch next
    | .param => param_turn avail u p ch next

/-- The end of the buffer at `p`; a jump leads one further. -/
def at_end (u : Vars) (p : ℕ) : Exit :=
  let p := if u.skip then p + 1 else p
  match u.phase with
  | .to => .endofheader u p
  | .param => .endofparams u p

/-- The loops on the body between `buffer` and `end`; `allocs` allocations were made before. -/
def to_loop (mem : Str) (avail : ℕ → Bool) (allocs buffer end_ : ℕ) : Exit :=
  match scan (turn mem avail) (start allocs) buffer ((mem.take end_).drop buffer) with
  | .error exit => exit
  | .ok u => at_end u end_

def parse_to (mem : Str) (avail : ℕ → Bool) (allocs buffer end_ : ℕ) : Option (Vars × ℕ) :=
  (to_loop mem avail allocs buffer end_).run

end OpenSips.To
