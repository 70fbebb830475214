import OpenSips.Lib.Scanner
import OpenSips.Net

/-!
# OpenSips.Uri.Model — `parse_uri` (`core/parser/parse_uri.c`)

The character loop, its end of uri switch and the handling of `user=phone` and of tel uris.  Pointers
into the uri are positions in it; `char` is signed and an `int` wraps around.
-/

namespace OpenSips.Uri

open Lib

/-- A `str`: `NULL`, `len` characters of the uri from `s` on, or the constant `""`. -/
inductive Part where
  | null
  | part (s len : ℕ)
  | empty
  deriving DecidableEq

/-- `uri_type` -/
inductive UriType where
  | ERROR_URI_T | SIP_URI_T | SIPS_URI_T | TEL_URI_T | TELS_URI_T
  deriving DecidableEq

/-- The parameters `struct sip_uri` has fields for. -/
inductive Param where
  | transport | ttl | user_param | maddr | method | lr | r2
  deriving DecidableEq

/-- `struct sip_uri`; `given` and `value` are the fields `transport`, `transport_val` and so on. -/
structure SipUri where
  user : Part
  passwd : Part
  host : Part
  port : Part
  params : Part
  headers : Part
  port_no : ℕ
  proto : Proto
  type : UriType
  given : Param → Part
  value : Param → Part

/-- After `memset(uri, 0, sizeof *uri)`. -/
def SipUri.zero : SipUri :=
  ⟨.null, .null, .null, .null, .null, .null, 0, .PROTO_NONE, .ERROR_URI_T, fun _ => .null,
    fun _ => .null⟩

inductive State where
  | URI_INIT | URI_USER | URI_PASSWORD | URI_PASSWORD_ALPHA | URI_HOST | URI_HOST_P
  | URI_HOST6_P | URI_HOST6_END | URI_PORT | URI_PARAM | URI_PARAM_P | URI_VAL_P | URI_HEADERS
  -- transport
  | PT_T | PT_R | PT_A | PT_N | PT_S | PT_P | PT_O | PT_R2 | PT_T2 | PT_eq
  -- ttl
  | PTTL_T2 | PTTL_L | PTTL_eq
  -- user
  | PU_U | PU_S | PU_E | PU_R | PU_eq
  -- method
  | PM_M | PM_E | PM_T | PM_H | PM_O | PM_D | PM_eq
  -- maddr
  | PMA_A | PMA_D | PMA_D2 | PMA_R | PMA_eq
  -- lr
  | PLR_L | PLR_R_FIN | PLR_eq
  -- r2
  | PR2_R | PR2_2_FIN | PR2_eq
  -- transport values
  | VU_U | VU_D | VU_P_FIN
  | VT_T | VT_C | VT_P_FIN
  | VTLS_L | VTLS_S_FIN
  | VS_S | VS_C | VS_T | VS_P_FIN
  deriving DecidableEq

/-- Where `parse_uri` jumps to on an error. -/
inductive UriError where
  | too_short | bad_char | bad_host | bad_port | bad_uri | headers | bug
  deriving DecidableEq

/-- The variables of the loop.  `b`, `v` and `param` are set in the states that use them. -/
structure Vars where
  state : State
  s : ℕ
  b : ℕ
  v : ℕ
  param : Option Param
  port_no : ℤ
  pass : Option ℕ
  found_user : Bool
  error_headers : Bool
  uri : SipUri

/-- The pointer of a `str`. -/
def Part.s : Part → ℕ
  | .part s _ => s
  | _ => 0

/-- An `int` after an addition or multiplication. -/
def int32 (n : ℤ) : ℤ := n.bmod (2 ^ 32)

/-- `case_port`, and what all other characters do. -/
def case_port (u : Vars) (ch : UInt8) (other : Except UriError Vars) : Except UriError Vars :=
  if chr '0' ≤ ch ∧ ch ≤ chr '9' then
    .ok { u with port_no := int32 (u.port_no * 10 + ((ch.toNat : ℤ) - (chr '0').toNat)) }
  else other

/-- The assignments of `uri->port` and `uri->port_no`, an `unsigned short`. -/
def set_port (u : Vars) (p : ℕ) : SipUri :=
  { u.uri with port := .part u.s (p - u.s), port_no := (u.port_no % 2 ^ 16).toNat }

/-- What was read as host and parameters or headers is the user, or user and password. -/
def still_at_user (u : Vars) (p : ℕ) : Except UriError Vars :=
  if u.found_user then .error .bad_char
  else
    let user_s := u.uri.host.s
    let uri := match u.pass with
      | some pass => { SipUri.zero with
          type := u.uri.type
          user := .part user_s (pass - user_s)
          passwd := .part (pass + 1) (p - (pass + 1)) }
      | none => { SipUri.zero with type := u.uri.type, user := .part user_s (p - user_s) }
    .ok { u with
      uri := uri, s := p + 1, found_user := true, error_headers := false, state := .URI_HOST }

def check_host_end (u : Vars) (p : ℕ) (ch : UInt8) (other : Except UriError Vars) :
    Except UriError Vars :=
  let uri := { u.uri with host := .part u.s (p - u.s) }
  if ch = chr ':' then .ok { u with uri := uri, state := .URI_PORT, s := p + 1 }
  else if ch = chr ';' then .ok { u with uri := uri, state := .URI_PARAM, s := p + 1 }
  else if ch = chr '?' then .ok { u with uri := uri, state := .URI_HEADERS, s := p + 1 }
  else if ch = chr '&' ∨ ch = chr '@' then .error .bad_char
  else other

/-- `param` and `param_val` get the fields of one parameter. -/
def param_set (u : Vars) (p : ℕ) : Vars :=
  match u.param with
  | none => u
  | some k => { u with uri := { u.uri with
      given := Function.update u.uri.given k (.part u.b (p - u.b))
      value := Function.update u.uri.value k (.part u.v (p - u.v)) } }

def flag_set (u : Vars) (k : Param) (p : ℕ) : Vars :=
  { u with uri := { u.uri with given := Function.update u.uri.given k (.part u.b (p - u.b)) } }

def proto_set (u : Vars) (proto : Proto) : Vars := { u with uri := { u.uri with proto := proto } }

def no_user (u : Vars) : Vars :=
  if u.pass.isSome then { u with found_user := true, pass := none } else u

def semicolon_case (u : Vars) : Vars := { no_user u with state := .URI_PARAM }

def question_case (u : Vars) (p : ℕ) : Vars :=
  { no_user u with
    uri := { u.uri with params := .part u.s (p - u.s) }, state := .URI_HEADERS, s := p + 1 }

/-- A colon might start the password. -/
def colon (u : Vars) (p : ℕ) : Vars :=
  if u.found_user then u else if u.pass.isSome then no_user u else { u with pass := some p }

def colon_case (u : Vars) (p : ℕ) (state : State) : Vars := { colon u p with state := state }

def param_common_cases (u : Vars) (p : ℕ) (ch : UInt8) (other : Except UriError Vars) :
    Except UriError Vars :=
  if ch = chr '@' then still_at_user u p
  else if ch = chr ';' then .ok (semicolon_case u)
  else if ch = chr '?' then .ok (question_case u p)
  else if ch = chr ':' then .ok (colon_case u p .URI_PARAM_P)
  else other

def value_common_cases (u : Vars) (p : ℕ) (ch : UInt8) (other : Except UriError Vars) :
    Except UriError Vars :=
  if ch = chr '@' then still_at_user u p
  else if ch = chr ';' then .ok (param_set (semicolon_case u) p)
  else if ch = chr '?' then .ok (param_set (question_case u p) p)
  else if ch = chr ':' then .ok (colon_case u p .URI_VAL_P)
  else other

def param_switch1 (u : Vars) (p : ℕ) (ch : UInt8) (c1 : Char) (new_state : State) :
    Except UriError Vars :=
  if ch = chr c1 then .ok { u with state := new_state }
  else param_common_cases u p ch (.ok { u with state := .URI_PARAM_P })

def param_switch (u : Vars) (p : ℕ) (ch : UInt8) (c1 c2 : Char) (new_state : State) :
    Except UriError Vars :=
  if ch = chr c1 ∨ ch = chr c2 then .ok { u with state := new_state }
  else param_common_cases u p ch (.ok { u with state := .URI_PARAM_P })

def param_switch_big (u : Vars) (p : ℕ) (ch : UInt8) (c1 c2 d1 d2 : Char)
    (new_state_c new_state_d : State) : Except UriError Vars :=
  if ch = chr c1 ∨ ch = chr c2 then .ok { u with state := new_state_c }
  else if ch = chr d1 ∨ ch = chr d2 then .ok { u with state := new_state_d }
  else param_common_cases u p ch (.ok { u with state := .URI_PARAM_P })

def value_switch (u : Vars) (p : ℕ) (ch : UInt8) (c1 c2 : Char) (new_state : State) :
    Except UriError Vars :=
  if ch = chr c1 ∨ ch = chr c2 then .ok { u with state := new_state }
  else value_common_cases u p ch (.ok { u with state := .URI_VAL_P })

def value_switch_big (u : Vars) (p : ℕ) (ch : UInt8) (c1 c2 d1 d2 : Char)
    (new_state_c new_state_d : State) : Except UriError Vars :=
  if ch = chr c1 ∨ ch = chr c2 then .ok { u with state := new_state_c }
  else if ch = chr d1 ∨ ch = chr d2 then .ok { u with state := new_state_d }
  else value_common_cases u p ch (.ok { u with state := .URI_VAL_P })

/-- The colon falls through to the default. -/
def transport_fin (u : Vars) (p : ℕ) (ch : UInt8) (proto_no : Proto) : Except UriError Vars :=
  if ch = chr '@' then still_at_user u p
  else if ch = chr ';' then .ok (proto_set (param_set (semicolon_case u) p) proto_no)
  else if ch = chr '?' then .ok (proto_set (param_set (question_case u p) p) proto_no)
  else if ch = chr ':' then .ok (colon_case u p .URI_VAL_P)
  else .ok { u with state := .URI_VAL_P }

/-- The states behind `name=`: a value starts, unless the parameter ends. -/
def value_start (u : Vars) (p : ℕ) (ch : UInt8) (k : Param) : Except UriError Vars :=
  let u := { u with param := some k }
  param_common_cases u p ch (.ok { u with v := p, state := .URI_VAL_P })

/-- The states behind the names `lr` and `r2`. -/
def flag_fin (u : Vars) (p : ℕ) (ch : UInt8) (k : Param) (eq : State) : Except UriError Vars :=
  if ch = chr '@' then still_at_user u p
  else if ch = chr '=' then .ok { u with state := eq }
  else if ch = chr ';' then .ok (flag_set (semicolon_case u) k p)
  else if ch = chr '?' then .ok (flag_set (question_case u p) k p)
  else if ch = chr ':' then .ok (colon_case u p .URI_PARAM_P)
  else .ok { u with state := .URI_PARAM_P }

/-- One character of the uri, at position `p`. -/
def turn (u : Vars) (p : ℕ) (ch : UInt8) : Except UriError Vars :=
  match u.state with
  | .URI_INIT =>
    if ch = chr '[' then .ok { u with state := .URI_HOST6_P, s := p }
    else if ch = chr ']' ∨ ch = chr ':' ∨ ch = chr '@' then .error .bad_char
    else .ok { u with state := .URI_USER }
  | .URI_USER =>
    if ch = chr '@' then
      .ok { u with uri := { u.uri with user := .part u.s (p - u.s) }, state := .URI_HOST,
                   found_user := true, s := p + 1 }
    else if ch = chr ':' then
      .ok { u with uri := { u.uri with user := .part u.s (p - u.s) }, state := .URI_PASSWORD,
                   s := p + 1 }
    else if ch = chr ';' then
      .ok { u with uri := { u.uri with host := .part u.s (p - u.s) }, state := .URI_PARAM, s := p + 1 }
    else if ch = chr '?' then
      .ok { u with uri := { u.uri with host := .part u.s (p - u.s) }, state := .URI_HEADERS, s := p + 1 }
    else if ch = chr '[' ∨ ch = chr ']' then .error .bad_char
    else .ok u
  | .URI_PASSWORD =>
    if ch = chr '@' then
      .ok { u with uri := { u.uri with passwd := .part u.s (p - u.s) }, port_no := 0,
                   state := .URI_HOST, found_user := true, s := p + 1 }
    else if ch = chr ';' then
      .ok { u with uri := { set_port u p with host := u.uri.user, user := .null },
                   state := .URI_PARAM, found_user := true, s := p + 1 }
    else if ch = chr '?' then
      .ok { u with uri := { set_port u p with host := u.uri.user, user := .null },
                   state := .URI_HEADERS, found_user := true, s := p + 1 }
    else case_port u ch
      (if ch = chr '[' ∨ ch = chr ']' ∨ ch = chr ':' then .error .bad_char
      else .ok { u with port_no := 0, state := .URI_PASSWORD_ALPHA })
  | .URI_PASSWORD_ALPHA =>
    if ch = chr '@' then
      .ok { u with uri := { u.uri with passwd := .part u.s (p - u.s) }, state := .URI_HOST,
                   found_user := true, s := p + 1 }
    else if ch = chr ';' ∨ ch = chr '?' then .error .bad_port
    else if ch = chr '[' ∨ ch = chr ']' ∨ ch = chr ':' then .error .bad_char
    else .ok u
  | .URI_HOST =>
    if ch = chr '[' then .ok { u with state := .URI_HOST6_P }
    else if ch = chr ':' ∨ ch = chr ';' ∨ ch = chr '?' ∨ ch = chr '&' ∨ ch = chr '@' then
      .error .bad_host
    else .ok { u with state := .URI_HOST_P }
  | .URI_HOST_P => check_host_end u p ch (.ok u)
  | .URI_HOST6_END => check_host_end u p ch (.error .bad_host)
  | .URI_HOST6_P =>
    if ch = chr ']' then .ok { u with state := .URI_HOST6_END }
    else if ch = chr '[' ∨ ch = chr '&' ∨ ch = chr '@' ∨ ch = chr ';' ∨ ch = chr '?' then
      .error .bad_host
    else .ok u
  | .URI_PORT =>
    if ch = chr ';' then .ok { u with uri := set_port u p, state := .URI_PARAM, s := p + 1 }
    else if ch = chr '?' then .ok { u with uri := set_port u p, state := .URI_HEADERS, s := p + 1 }
    else case_port u ch (.error .bad_port)
  | .URI_PARAM =>
    param_common_cases u p ch
      (if ch = chr 't' ∨ ch = chr 'T' then .ok { u with b := p, state := .PT_T }
      else if ch = chr 'u' ∨ ch = chr 'U' then .ok { u with b := p, state := .PU_U }
      else if ch = chr 'm' ∨ ch = chr 'M' then .ok { u with b := p, state := .PM_M }
      else if ch = chr 'l' ∨ ch = chr 'L' then .ok { u with b := p, state := .PLR_L }
      -- there is no break behind `PR2_R`
      else if ch = chr 'r' ∨ ch = chr 'R' then .ok { u with b := p, state := .URI_PARAM_P }
      else .ok { u with state := .URI_PARAM_P })
  | .URI_PARAM_P => param_common_cases u p ch (.ok u)
  | .PT_T => param_switch_big u p ch 'r' 'R' 't' 'T' .PT_R .PTTL_T2
  | .PT_R => param_switch u p ch 'a' 'A' .PT_A
  | .PT_A => param_switch u p ch 'n' 'N' .PT_N
  | .PT_N => param_switch u p ch 's' 'S' .PT_S
  | .PT_S => param_switch u p ch 'p' 'P' .PT_P
  | .PT_P => param_switch u p ch 'o' 'O' .PT_O
  | .PT_O => param_switch u p ch 'r' 'R' .PT_R2
  | .PT_R2 => param_switch u p ch 't' 'T' .PT_T2
  | .PT_T2 => param_switch1 u p ch '=' .PT_eq
  | .PT_eq =>
    let u := { u with param := some .transport }
    param_common_cases u p ch
      (if ch = chr 'u' ∨ ch = chr 'U' then .ok { u with v := p, state := .VU_U }
      else if ch = chr 't' ∨ ch = chr 'T' then .ok { u with v := p, state := .VT_T }
      else if ch = chr 's' ∨ ch = chr 'S' then .ok { u with v := p, state := .VS_S }
      else .ok { u with v := p, state := .URI_VAL_P })
  | .URI_VAL_P => value_common_cases u p ch (.ok u)
  | .VU_U => value_switch u p ch 'd' 'D' .VU_D
  | .VU_D => value_switch u p ch 'p' 'P' .VU_P_FIN
  | .VU_P_FIN => transport_fin u p ch .PROTO_UDP
  | .VT_T => value_switch_big u p ch 'c' 'C' 'l' 'L' .VT_C .VTLS_L
  | .VT_C => value_switch u p ch 'p' 'P' .VT_P_FIN
  | .VT_P_FIN => transport_fin u p ch .PROTO_TCP
  | .VTLS_L => value_switch u p ch 's' 'S' .VTLS_S_FIN
  | .VTLS_S_FIN => transport_fin u p ch .PROTO_TLS
  | .VS_S => value_switch u p ch 'c' 'C' .VS_C
  | .VS_C => value_switch u p ch 't' 'T' .VS_T
  | .VS_T => value_switch u p ch 'p' 'P' .VS_P_FIN
  | .VS_P_FIN => transport_fin u p ch .PROTO_SCTP
  | .PTTL_T2 => param_switch u p ch 'l' 'L' .PTTL_L
  | .PTTL_L => param_switch1 u p ch '=' .PTTL_eq
  | .PTTL_eq => value_start u p ch .ttl
  | .PU_U => param_switch u p ch 's' 'S' .PU_S
  | .PU_S => param_switch u p ch 'e' 'E' .PU_E
  | .PU_E => param_switch u p ch 'r' 'R' .PU_R
  | .PU_R => param_switch1 u p ch '=' .PU_eq
  | .PU_eq => value_start u p ch .user_param
  | .PM_M => param_switch_big u p ch 'e' 'E' 'a' 'A' .PM_E .PMA_A
  | .PM_E => param_switch u p ch 't' 'T' .PM_T
  | .PM_T => param_switch u p ch 'h' 'H' .PM_H
  | .PM_H => param_switch u p ch 'o' 'O' .PM_O
  | .PM_O => param_switch u p ch 'd' 'D' .PM_D
  | .PM_D => param_switch1 u p ch '=' .PM_eq
  | .PM_eq => value_start u p ch .method
  | .PMA_A => param_switch u p ch 'd' 'D' .PMA_D
  | .PMA_D => param_switch u p ch 'd' 'D' .PMA_D2
  | .PMA_D2 => param_switch u p ch 'r' 'R' .PMA_R
  | .PMA_R => param_switch1 u p ch '=' .PMA_eq
  | .PMA_eq => value_start u p ch .maddr
  | .PLR_L => param_switch u p ch 'r' 'R' .PLR_R_FIN
  | .PLR_R_FIN => flag_fin u p ch .lr .PLR_eq
  | .PLR_eq => value_start u p ch .lr
  | .PR2_R => param_switch1 u p ch '2' .PR2_2_FIN
  | .PR2_2_FIN => flag_fin u p ch .r2 .PR2_eq
  | .PR2_eq => value_start u p ch .r2
  | .URI_HEADERS =>
    if ch = chr '@' then still_at_user u p
    else if ch = chr ';' then
      if u.found_user then .error .bad_char
      else if u.pass.isSome then .error .headers
      else .ok { u with error_headers := true }
    else if ch = chr ':' then .ok (colon u p)
    else if ch = chr '?' then .ok (no_user u)
    else .ok u

/-- The assignments of `uri->params` at the end of the uri. -/
def params_set (u : Vars) (p : ℕ) : Vars :=
  { u with uri := { u.uri with params := .part u.s (p - u.s) } }

def end_of_uri (u : Vars) (p : ℕ) : Except UriError SipUri :=
  match u.state with
  | .URI_INIT => .error .too_short
  | .URI_USER =>
    if u.found_user then .error .bad_uri
    else .ok { u.uri with host := .part u.s (p - u.s) }
  | .URI_PASSWORD =>
    if u.found_user then .error .bad_port
    else .ok { set_port u p with host := u.uri.user, user := .null }
  | .URI_PASSWORD_ALPHA => .error .bad_port
  | .URI_HOST_P | .URI_HOST6_END => .ok { u.uri with host := .part u.s (p - u.s) }
  | .URI_HOST | .URI_HOST6_P => .error .bad_host
  | .URI_PORT => .ok (set_port u p)
  | .URI_PARAM | .URI_PARAM_P | .PT_T | .PT_R | .PT_A | .PT_N | .PT_S | .PT_P | .PT_O | .PT_R2
  | .PT_T2 | .PT_eq | .PTTL_T2 | .PTTL_L | .PTTL_eq | .PU_U | .PU_S | .PU_E | .PU_R | .PU_eq | .PM_M
  | .PM_E | .PM_T | .PM_H | .PM_O | .PM_D | .PM_eq | .PLR_L | .PR2_R => .ok (params_set u p).uri
  | .PLR_R_FIN | .PLR_eq => .ok (flag_set (params_set u p) .lr p).uri
  | .PR2_2_FIN | .PR2_eq => .ok (flag_set (params_set u p) .r2 p).uri
  | .URI_VAL_P | .VU_U | .VU_D | .VT_T | .VT_C | .VTLS_L | .VS_S | .VS_C | .VS_T =>
    .ok (param_set (params_set u p) p).uri
  | .VU_P_FIN => .ok (proto_set (param_set (params_set u p) p) .PROTO_UDP).uri
  | .VT_P_FIN => .ok (proto_set (param_set (params_set u p) p) .PROTO_TCP).uri
  | .VTLS_S_FIN => .ok (proto_set (param_set (params_set u p) p) .PROTO_TLS).uri
  | .VS_P_FIN => .ok (proto_set (param_set (params_set u p) p) .PROTO_SCTP).uri
  | .URI_HEADERS =>
    if u.error_headers then .error .headers
    else .ok { u.uri with headers := .part u.s (p - u.s) }
  -- the states of `maddr` are missing
  | .PMA_A | .PMA_D | .PMA_D2 | .PMA_R | .PMA_eq => .error .bug

/-- The characters of a `str`. -/
def Part.text (buf : Str) : Part → Str
  | .part s len => (buf.drop s).take len
  | _ => []

/-- The lower case of a letter, as `strncasecmp` compares it. -/
def lower (ch : UInt8) : UInt8 := if chr 'A' ≤ ch ∧ ch ≤ chr 'Z' then ch + 32 else ch

/-- Whether the uri has `user=phone`. -/
def is_phone (buf : Str) (uri : SipUri) : Bool :=
  ((uri.value .user_param).text buf).map lower = ['p', 'h', 'o', 'n', 'e'].map chr

def move_params (buf : Str) (uri : SipUri) : SipUri :=
  match uri.user with
  | .part s len =>
    let n := (((buf.drop s).take len).takeWhile (· ≠ chr ';')).length
    if n < len then { uri with params := .part (s + n + 1) (len - (n + 1)), user := .part s n }
    else uri
  | _ => uri

def fix_type (buf : Str) (uri : SipUri) : Except UriError SipUri :=
  match uri.type with
  | .SIP_URI_T =>
    if is_phone buf uri then .ok (move_params buf { uri with type := .TEL_URI_T }) else .ok uri
  | .SIPS_URI_T =>
    if is_phone buf uri then .ok (move_params buf { uri with type := .TELS_URI_T }) else .ok uri
  | .TEL_URI_T | .TELS_URI_T => .ok { uri with user := uri.host, host := .empty }
  | .ERROR_URI_T => .error .bad_uri

/-- A `char`. -/
def schar (ch : UInt8) : ℤ := (ch.toNat : ℤ).bmod 256

/-- The first four characters as an `unsigned int`, in lower case. -/
def scheme (b0 b1 b2 b3 : UInt8) : ℕ :=
  ((schar b0 + schar b1 * 2 ^ 8 + schar b2 * 2 ^ 16 + schar b3 * 2 ^ 24) % 2 ^ 32).toNat |||
    0x20202020

def SIP_SCH : ℕ := 0x3a706973

def SIPS_SCH : ℕ := 0x73706973

def TEL_SCH : ℕ := 0x3a6c6574

/-- The variables in front of the loop. -/
def start (type : UriType) (p : ℕ) : Vars where
  state := .URI_INIT
  s := p
  b := 0
  v := 0
  param := none
  port_no := 0
  pass := none
  found_user := false
  error_headers := false
  uri := { SipUri.zero with type := type }

def read_scheme : Str → Except UriError (UriType × ℕ)
  | b0 :: b1 :: b2 :: b3 :: b4 :: _ =>
    if scheme b0 b1 b2 b3 = SIP_SCH then .ok (.SIP_URI_T, 4)
    else if scheme b0 b1 b2 b3 = SIPS_SCH then
      if b4 = chr ':' then .ok (.SIPS_URI_T, 5) else .error .bad_uri
    else if scheme b0 b1 b2 b3 = TEL_SCH then .ok (.TEL_URI_T, 4)
    else .error .bad_uri
  | _ => .error .too_short

/-- `parse_uri` in front of the switch over the type. -/
def parse_parts (buf : Str) : Except UriError SipUri := do
  let (type, p) ← read_scheme buf
  let u ← scan turn (start type p) p (buf.drop p)
  end_of_uri u buf.length

def parse_uri (buf : Str) : Except UriError SipUri := do
  let uri ← parse_parts buf
  fix_type buf uri

end OpenSips.Uri
