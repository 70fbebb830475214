import OpenSips.Lib.Scanner
import OpenSips.Str

/-!
# OpenSips.Disposition.Model — `parse_disposition` (`core/parser/parse_disposition.c`)

One machine reads the text; positions count from its beginning.  The parameter that `disp_p` points to is the
last of the list.
-/

namespace OpenSips.Disp

open Lib (scan)

inductive State where
  | FIND_TYPE | TYPE | END_TYPE | FIND_PARAM | PARAM | END_PARAM | FIND_VAL
  | FIND_QUOTED_VAL | QUOTED_VAL | SKIP_QUOTED_VAL | VAL | END_VAL
  | F_LF | F_CR | F_CRLF
  deriving DecidableEq

/-- `str` -/
structure Slice where
  s : Option ℕ
  len : ℕ
  deriving DecidableEq

/-- After `memset` -/
def Slice.zero : Slice := ⟨none, 0⟩

/-- `struct disposition_param` -/
structure DispositionParam where
  name : Slice
  body : Slice
  is_quoted : Bool
  deriving DecidableEq

/-- `struct disposition` -/
structure Disposition where
  type : Slice
  params : List DispositionParam
  deriving DecidableEq

structure Vars where
  state : State
  saved_state : State
  disp : Disposition
  deriving DecidableEq

inductive CharClass where
  | blank | nl | cr | nul | semicolon | equal | quote | backslash | special | other
  deriving DecidableEq

def specials : List UInt8 := "()<>@,:/[]?{}".toList.map chr

def class_of (c : UInt8) : CharClass :=
  if c = chr ' ' ∨ c = chr '\t' then .blank
  else if c = chr '\n' then .nl
  else if c = chr '\r' then .cr
  else if c = 0 then .nul
  else if c = chr ';' then .semicolon
  else if c = chr '=' then .equal
  else if c = chr '"' then .quote
  else if c = chr '\\' then .backslash
  else if c ∈ specials then .special
  else .other

section Fields

/-- `ptr.len = tmp - ptr.s` -/
def Slice.upto (x : Slice) (tmp : ℕ) : Slice := { x with len := tmp - x.s.getD 0 }

def Disposition.fin_type (d : Disposition) (tmp : ℕ) : Disposition := { d with type := d.type.upto tmp }

def Disposition.fin_name (d : Disposition) (tmp : ℕ) : Disposition :=
  { d with params := d.params.modifyLast fun x => { x with name := x.name.upto tmp } }

def Disposition.fin_body (d : Disposition) (tmp : ℕ) : Disposition :=
  { d with params := d.params.modifyLast fun x => { x with body := x.body.upto tmp } }

/-- `disp_p->body.s = tmp` -/
def Disposition.start_body (d : Disposition) (tmp : ℕ) : Disposition :=
  { d with params := d.params.modifyLast fun x => { x with body := { x.body with s := some tmp } } }

def Disposition.fin_quoted (d : Disposition) (tmp : ℕ) : Disposition :=
  { d with params := d.params.modifyLast fun x => { x with body := x.body.upto tmp, is_quoted := true } }

def Disposition.new_param (d : Disposition) (tmp : ℕ) : Disposition :=
  { d with params := d.params ++ [⟨⟨some tmp, 0⟩, .zero, false⟩] }

end Fields

/-- `parse_error` -/
def PARSE_ERROR : ℤ := -2

/-- What a character is to a quoted value, and the place of the text where it begins. -/
def quoted_char (u : Vars) (tmp : ℕ) : Except ℤ Vars :=
  match u.state with
  | .FIND_QUOTED_VAL => .ok { u with state := .QUOTED_VAL, disp := u.disp.start_body tmp }
  | .SKIP_QUOTED_VAL => .ok { u with state := .QUOTED_VAL }
  | .QUOTED_VAL => .ok u
  | _ => .error PARSE_ERROR

/-- A turn of the loop. -/
def turn (u : Vars) (tmp : ℕ) (ch : UInt8) : Except ℤ Vars :=
  match class_of ch with
  | .blank =>
    match u.state with
    | .FIND_QUOTED_VAL => .ok { u with state := .QUOTED_VAL, disp := u.disp.start_body tmp }
    | .SKIP_QUOTED_VAL => .ok { u with state := .QUOTED_VAL }
    | .TYPE => .ok { u with state := .END_TYPE, disp := u.disp.fin_type tmp }
    | .PARAM => .ok { u with state := .END_PARAM, disp := u.disp.fin_name tmp }
    | .VAL => .ok { u with state := .END_VAL, disp := u.disp.fin_body tmp }
    | .F_CRLF | .F_LF | .F_CR => .ok { u with state := u.saved_state }
    | _ => .ok u
  | .nl =>
    match u.state with
    | .TYPE => .ok ⟨.F_LF, .END_TYPE, u.disp.fin_type tmp⟩
    | .PARAM => .ok ⟨.F_LF, .END_PARAM, u.disp.fin_name tmp⟩
    -- as for a `\r`
    | .VAL => .ok ⟨.F_CR, .END_VAL, u.disp.fin_body tmp⟩
    | .FIND_TYPE | .FIND_PARAM => .ok ⟨.F_LF, u.state, u.disp⟩
    | .F_CR => .ok { u with state := .F_CRLF }
    | _ => .error PARSE_ERROR
  | .cr =>
    match u.state with
    | .TYPE => .ok ⟨.F_CR, .END_TYPE, u.disp.fin_type tmp⟩
    | .PARAM => .ok ⟨.F_CR, .END_PARAM, u.disp.fin_name tmp⟩
    | .VAL => .ok ⟨.F_CR, .END_VAL, u.disp.fin_body tmp⟩
    | .FIND_TYPE | .FIND_PARAM => .ok ⟨.F_CR, u.state, u.disp⟩
    | _ => .error PARSE_ERROR
  | .nul => .error PARSE_ERROR
  | .semicolon =>
    match u.state with
    | .VAL => .ok { u with state := .FIND_PARAM, disp := u.disp.fin_body tmp }
    | .PARAM => .ok { u with state := .FIND_PARAM, disp := u.disp.fin_name tmp }
    | .TYPE => .ok { u with state := .FIND_PARAM, disp := u.disp.fin_type tmp }
    | .END_TYPE | .END_VAL => .ok { u with state := .FIND_PARAM }
    | _ => quoted_char u tmp
  | .equal =>
    match u.state with
    | .PARAM => .ok { u with state := .FIND_VAL, disp := u.disp.fin_name tmp }
    | .END_PARAM => .ok { u with state := .FIND_VAL }
    | _ => quoted_char u tmp
  | .quote =>
    match u.state with
    | .SKIP_QUOTED_VAL => .ok { u with state := .QUOTED_VAL }
    | .FIND_VAL => .ok { u with state := .FIND_QUOTED_VAL }
    | .QUOTED_VAL => .ok { u with state := .END_VAL, disp := u.disp.fin_quoted tmp }
    | _ => .error PARSE_ERROR
  | .backslash =>
    match u.state with
    | .FIND_QUOTED_VAL => .ok { u with state := .SKIP_QUOTED_VAL, disp := u.disp.start_body tmp }
    | .SKIP_QUOTED_VAL => .ok { u with state := .QUOTED_VAL }
    | .QUOTED_VAL => .ok { u with state := .SKIP_QUOTED_VAL }
    | _ => .error PARSE_ERROR
  | .special => quoted_char u tmp
  | .other =>
    match u.state with
    | .SKIP_QUOTED_VAL => .ok { u with state := .QUOTED_VAL }
    | .FIND_TYPE => .ok { u with state := .TYPE, disp := { u.disp with type := { u.disp.type with s := some tmp } } }
    | .FIND_PARAM => .ok { u with state := .PARAM, disp := u.disp.new_param tmp }
    | .FIND_VAL => .ok { u with state := .VAL, disp := u.disp.start_body tmp }
    | .FIND_QUOTED_VAL => .ok { u with state := .QUOTED_VAL, disp := u.disp.start_body tmp }
    -- behind an element, and in front of the line that continues it, a character is passed over
    | _ => .ok u

def at_end (u : Vars) (tmp : ℕ) : Except ℤ Disposition :=
  match u.state with
  | .END_PARAM | .END_TYPE | .END_VAL => .ok u.disp
  | .TYPE => .ok (u.disp.fin_type tmp)
  | .PARAM => .ok (u.disp.fin_name tmp)
  | .VAL => .ok (u.disp.fin_body tmp)
  | _ => .error PARSE_ERROR

/-- With memory for the parameters, from a `disp` that is zero. -/
def parse_disposition (s : Str) : Except ℤ Disposition :=
  scan turn ⟨.FIND_TYPE, .FIND_TYPE, ⟨.zero, []⟩⟩ 0 s >>= fun u => at_end u s.length

end OpenSips.Disp
