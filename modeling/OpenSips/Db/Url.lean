import OpenSips.Lib.Cut
import OpenSips.Parser.Numbers

/-!
# OpenSips.Db.Url — the identifier in a database URL (`db/db_id.c`)

Whether a token is a user or a host is known at the delimiter behind the next one.  Until then `prev_token` has it,
and a user that it is given to is freed with it when the URL turns out wrong.
-/

namespace OpenSips.DbId

open Lib List Option
open Numbers (decimal is_num)

abbrev Chunk := ℕ × Str

/-- `struct db_id` -/
structure Id where
  scheme : Option Chunk := none
  username : Option Chunk := none
  password : Option Chunk := none
  host : Option Chunk := none
  port : ℕ := 0
  database : Option Chunk := none
  deriving DecidableEq

inductive State where
  | ST_SCHEME | ST_SLASH1 | ST_SLASH2 | ST_USER_HOST | ST_PASS_PORT | ST_HOST | ST_PORT | ST_DB
  deriving DecidableEq

/-- The variables of the loop, with the text from `begin` on, the number of allocations and what was freed. -/
structure Vars where
  id : Id := {}
  prev_token : Option Chunk := none
  tok : Str := []
  allocs : ℕ := 0
  freed : List ℕ := []

/-- 0, or -1 with the number of allocations and what was freed. -/
inductive Result where
  | ok (id : Id)
  | err (allocs : ℕ) (freed : List ℕ)
  deriving DecidableEq

section Source

/-- `dupl_string` to `*dst`. -/
def Vars.dupl_string (v : Vars) (dst : Option Chunk) (text : Str) : Option Chunk × Vars :=
  (some (v.allocs, text), { v with allocs := v.allocs + 1, freed := v.freed ++ (dst.map Prod.fst).toList, tok := [] })

/-- The label `err`. -/
def Vars.err (v : Vars) : Result :=
  .err v.allocs (v.freed ++ [v.id.scheme, v.id.username, v.id.password, v.id.host, v.id.database, v.prev_token].filterMap
    fun p => p.map Prod.fst)

/-- The token is given to `host`, and what is left to `database`. -/
def Vars.host (v : Vars) : Vars :=
  let (host, v) := v.dupl_string v.id.host v.tok
  { v with id := { v.id with host := host } }

def Vars.database (v : Vars) (rest : Str) : Result :=
  let (database, v) := v.dupl_string v.id.database rest
  .ok { v.id with database := database }

/-- The loop of `parse_db_url`. -/
def parse_loop : State → Vars → Str → Result
  | st, v, [] => if st = .ST_DB then .ok v.id else v.err
  | .ST_SCHEME, v, c :: s =>
    if c = chr ':' then
      let (scheme, v) := v.dupl_string v.id.scheme v.tok
      parse_loop .ST_SLASH1 { v with id := { v.id with scheme := scheme } } s
    else parse_loop .ST_SCHEME { v with tok := v.tok ++ [c] } s
  | .ST_SLASH1, v, c :: s => if c = chr '/' then parse_loop .ST_SLASH2 v s else v.err
  | .ST_SLASH2, v, c :: s => if c = chr '/' then parse_loop .ST_USER_HOST { v with tok := [] } s else v.err
  | .ST_USER_HOST, v, c :: s =>
    if c = chr '@' then
      let (username, v) := v.dupl_string v.id.username v.tok
      parse_loop .ST_HOST { v with id := { v.id with username := username } } s
    else if c = chr ':' then
      let (prev_token, v) := v.dupl_string v.prev_token v.tok
      parse_loop .ST_PASS_PORT { v with prev_token := prev_token } s
    else if c = chr '/' then v.host.database s
    else parse_loop .ST_USER_HOST { v with tok := v.tok ++ [c] } s
  | .ST_PASS_PORT, v, c :: s =>
    if c = chr '@' then
      -- `prev_token` still has the user
      let v := { v with id := { v.id with username := v.prev_token } }
      let (password, v) := v.dupl_string v.id.password v.tok
      parse_loop .ST_HOST { v with id := { v.id with password := password } } s
    else if c = chr '/' then
      { v with id := { v.id with host := v.prev_token, port := (str2s v.tok).getD 0 } }.database s
    else parse_loop .ST_PASS_PORT { v with tok := v.tok ++ [c] } s
  | .ST_HOST, v, c :: s =>
    if c = chr ':' then parse_loop .ST_PORT v.host s
    else if c = chr '/' then v.host.database s
    else parse_loop .ST_HOST { v with tok := v.tok ++ [c] } s
  | .ST_PORT, v, c :: s =>
    if c = chr '/' then { v with id := { v.id with port := (str2s v.tok).getD 0 } }.database s
    else parse_loop .ST_PORT { v with tok := v.tok ++ [c] } s
  | .ST_DB, v, _ :: s => parse_loop .ST_DB v s

def SHORTEST_DB_URL_LEN := 7

/-- `parse_db_url`, of an identifier that was zeroed. -/
def parse_db_url (url : Str) : Result :=
  if url.length < SHORTEST_DB_URL_LEN then Vars.err {} else parse_loop .ST_SCHEME {} url

end Source

section Form

/-- `scheme://[user[:password]@]host[:port]/database` -/
structure Url where
  scheme : Str
  login : Option (Str × Option Str)
  host : Str
  port : Option Str
  database : Str

/-- None of the delimiters of the form. -/
def Free (w : Str) : Prop := ∀ c ∈ w, c ≠ chr ':' ∧ c ≠ chr '/' ∧ c ≠ chr '@'

structure Parts where
  scheme : Option Str
  username : Option Str
  password : Option Str
  host : Option Str
  port : ℕ
  database : Option Str
  deriving DecidableEq

def Id.parts (id : Id) : Parts :=
  ⟨id.scheme.map Prod.snd, id.username.map Prod.snd, id.password.map Prod.snd, id.host.map Prod.snd, id.port,
    id.database.map Prod.snd⟩

namespace Url

variable (u : Url)

def login_text : Str :=
  match u.login with
  | none => []
  | some (user, none) => user ++ [chr '@']
  | some (user, some password) => user ++ chr ':' :: (password ++ [chr '@'])

def port_text : Str :=
  match u.port with
  | none => []
  | some port => chr ':' :: port

def text : Str :=
  u.scheme ++ chr ':' :: chr '/' :: chr '/' :: (u.login_text ++ (u.host ++ (u.port_text ++ chr '/' :: u.database)))

structure Formed : Prop where
  scheme : u.scheme ≠ [] ∧ chr ':' ∉ u.scheme
  user : ∀ l ∈ u.login, Free l.1 ∧ ∀ password ∈ l.2, Free password
  host : Free u.host
  port : ∀ p ∈ u.port, p ≠ [] ∧ (∀ c ∈ p, is_num c = true) ∧ decimal p ≤ 65535
  database : Free u.database

/-- The components, with this number for a port. -/
def parts (number : Str → ℕ) : Parts where
  scheme := some u.scheme
  username := u.login.map Prod.fst
  password := u.login.bind Prod.snd
  host := some u.host
  port := u.port.elim 0 number
  database := some u.database

/-- What the states let through: the delimiters are those that end the state the component is read in. -/
structure Loose : Prop where
  scheme : chr ':' ∉ u.scheme
  user : ∀ l ∈ u.login, Free l.1 ∧ ∀ password ∈ l.2, ∀ c ∈ password, c ≠ chr '@' ∧ c ≠ chr '/'
  host : ∀ c ∈ u.host, c ≠ chr ':' ∧ c ≠ chr '/' ∧ (u.login = none → c ≠ chr '@')
  port : ∀ p ∈ u.port, ∀ c ∈ p, c ≠ chr '/' ∧ (u.login = none → c ≠ chr '@')

end Url

/-- A user with a password, and no `/` behind them. -/
def Twice (s : Str) : Prop := ∃ scheme user password rest : Str,
  s = scheme ++ chr ':' :: chr '/' :: chr '/' :: (user ++ chr ':' :: (password ++ chr '@' :: rest)) ∧
    chr ':' ∉ scheme ∧ Free user ∧ (∀ c ∈ password, c ≠ chr '@' ∧ c ≠ chr '/') ∧ chr '/' ∉ rest

def Once (allocs : ℕ) (freed : List ℕ) : Prop := ∀ i, freed.count i = if i < allocs then 1 else 0

/-- A URL of the form gives its components, and any other string fails, with each allocation freed once. -/
structure Meets (s : Str) : Prop where
  formed : ∀ u : Url, u.Formed → u.text = s → ∃ id, parse_db_url s = .ok id ∧ id.parts = u.parts decimal
  other : (¬ ∃ u : Url, u.Formed ∧ u.text = s) → ∃ allocs freed, parse_db_url s = .err allocs freed ∧ Once allocs freed

/-- A URL of the form is not too short, and its port has five digits at most, or is 0; any other string is too short,
or the states do not let it through, and it is not one with a user, a password and no `/` behind them. -/
structure Regular (s : Str) : Prop where
  formed : ∀ u : Url, u.Formed → u.text = s → SHORTEST_DB_URL_LEN ≤ s.length ∧
    ∀ p ∈ u.port, p.length ≤ 5 ∨ decimal p = 0
  other : (¬ ∃ u : Url, u.Formed ∧ u.text = s) → SHORTEST_DB_URL_LEN ≤ s.length →
    (¬ ∃ u : Url, u.Loose ∧ u.text = s) ∧ ¬ Twice s

end Form

section Reading

variable {st : State} {w s user password rest : Str} {c : UInt8} {v : Vars}

/-- The delimiters of a state. -/
def State.ends : State → Str
  | .ST_SCHEME => [chr ':']
  | .ST_USER_HOST => [chr '@', chr ':', chr '/']
  | .ST_PASS_PORT => [chr '@', chr '/']
  | .ST_HOST => [chr ':', chr '/']
  | .ST_PORT => [chr '/']
  | _ => []

def State.Reads (st : State) : Prop := st ∉ [State.ST_SLASH1, .ST_SLASH2, .ST_DB]

instance : DecidablePred State.Reads := fun st => inferInstanceAs (Decidable (st ∉ [State.ST_SLASH1, .ST_SLASH2, .ST_DB]))

theorem parse_loop_char (hst : st.Reads) (hc : c ∉ st.ends) :
    parse_loop st v (c :: s) = parse_loop st { v with tok := v.tok ++ [c] } s := by
  cases st <;> simp_all [State.ends, State.Reads, parse_loop]

theorem not_user_end : c ∉ State.ST_USER_HOST.ends ↔ c ≠ chr ':' ∧ c ≠ chr '/' ∧ c ≠ chr '@' := by
  rw [State.ends, mem_cons, mem_cons, mem_singleton, not_or, not_or]
  exact ⟨fun h => ⟨h.2.1, h.2.2, h.1⟩, fun h => ⟨h.2.2, h.1, h.2.1⟩⟩

theorem not_pass_end : c ∉ State.ST_PASS_PORT.ends ↔ c ≠ chr '@' ∧ c ≠ chr '/' := by
  rw [State.ends, mem_cons, mem_singleton, not_or]

theorem not_host_end : c ∉ State.ST_HOST.ends ↔ c ≠ chr ':' ∧ c ≠ chr '/' := by
  rw [State.ends, mem_cons, mem_singleton, not_or]

theorem parse_loop_reads (hst : st.Reads) (hw : ∀ c ∈ w, c ∉ st.ends) :
    parse_loop st v (w ++ s) = parse_loop st { v with tok := v.tok ++ w } s := by
  induction w generalizing v with
  | nil =>
    rw [nil_append, append_nil]
  | cons c w ih =>
    rw [cons_append, parse_loop_char hst (hw c mem_cons_self), ih fun a ha => hw a (mem_cons_of_mem c ha)]
    rw [append_assoc, singleton_append]

theorem parse_loop_stuck (hst : st.Reads) (hs : ∀ c ∈ s, c ∉ st.ends) : parse_loop st v s = v.err := by
  have h := parse_loop_reads (s := []) (v := v) hst hs
  rw [append_nil] at h
  rw [h]
  cases st <;> simp_all [State.Reads, parse_loop, Vars.err]

theorem ends_cases (st : State) (s : Str) : (∀ c ∈ s, c ∉ st.ends) ∨
    ∃ w c rest, s = w ++ c :: rest ∧ (∀ a ∈ w, a ∉ st.ends) ∧ c ∈ st.ends := by
  obtain h | ⟨w, c, rest, heq, hw, hc⟩ := cut_cases (fun c => decide (c ∉ st.ends)) s
  · exact .inl fun c hc => of_decide_eq_true (h c hc)
  · exact .inr ⟨w, c, rest, heq, fun a ha => of_decide_eq_true (hw a ha), not_not.1 (of_decide_eq_false hc)⟩

end Reading

section Points

variable {scheme user password host port s database : Str} {v : Vars}

def named (scheme : Str) : Vars := { id := { scheme := some (0, scheme) }, allocs := 1 }

def logged (scheme user : Str) : Vars :=
  { id := { scheme := some (0, scheme), username := some (1, user) }, allocs := 2 }

def waiting (scheme user : Str) : Vars :=
  { id := { scheme := some (0, scheme) }, prev_token := some (1, user), allocs := 2 }

def shared (scheme user password : Str) : Vars :=
  { id := { scheme := some (0, scheme), username := some (1, user), password := some (2, password) },
    prev_token := some (1, user), allocs := 3 }

theorem at_scheme (h : ∀ c ∈ scheme, c ∉ State.ST_SCHEME.ends) :
    parse_loop .ST_SCHEME {} (scheme ++ chr ':' :: chr '/' :: chr '/' :: s) =
      parse_loop .ST_USER_HOST (named scheme) s := by
  rw [parse_loop_reads (by decide) h]
  rfl

theorem at_user (h : ∀ c ∈ user, c ∉ State.ST_USER_HOST.ends) :
    parse_loop .ST_USER_HOST (named scheme) (user ++ chr '@' :: s) = parse_loop .ST_HOST (logged scheme user) s := by
  rw [parse_loop_reads (by decide) h]
  rfl

theorem at_token (h : ∀ c ∈ user, c ∉ State.ST_USER_HOST.ends) :
    parse_loop .ST_USER_HOST (named scheme) (user ++ chr ':' :: s) =
      parse_loop .ST_PASS_PORT (waiting scheme user) s := by
  rw [parse_loop_reads (by decide) h]
  rfl

theorem at_password (h : ∀ c ∈ password, c ∉ State.ST_PASS_PORT.ends) :
    parse_loop .ST_PASS_PORT (waiting scheme user) (password ++ chr '@' :: s) =
      parse_loop .ST_HOST (shared scheme user password) s := by
  rw [parse_loop_reads (by decide) h]
  rfl

theorem only_host (h : ∀ c ∈ host, c ∉ State.ST_USER_HOST.ends) :
    parse_loop .ST_USER_HOST (named scheme) (host ++ chr '/' :: database) =
      .ok ⟨some (0, scheme), none, none, some (1, host), 0, some (2, database)⟩ := by
  rw [parse_loop_reads (by decide) h]
  rfl

theorem token_host (h : ∀ c ∈ port, c ∉ State.ST_PASS_PORT.ends) :
    parse_loop .ST_PASS_PORT (waiting scheme host) (port ++ chr '/' :: database) =
      .ok ⟨some (0, scheme), none, none, some (1, host), (str2s port).getD 0, some (2, database)⟩ := by
  rw [parse_loop_reads (by decide) h]
  rfl

theorem at_host (hv : v.tok = []) (h : ∀ c ∈ host, c ∉ State.ST_HOST.ends) :
    parse_loop .ST_HOST v (host ++ chr '/' :: database) = ({ v with tok := host } : Vars).host.database database := by
  rw [parse_loop_reads (by decide) h, hv]
  rfl

theorem at_host_end (hv : v.tok = []) (h : ∀ c ∈ host, c ∉ State.ST_HOST.ends) :
    parse_loop .ST_HOST v (host ++ chr ':' :: s) = parse_loop .ST_PORT ({ v with tok := host } : Vars).host s := by
  rw [parse_loop_reads (by decide) h, hv]
  rfl

theorem at_port (hv : v.tok = []) (h : ∀ c ∈ port, c ∉ State.ST_PORT.ends) :
    parse_loop .ST_PORT v (port ++ chr '/' :: database) =
      ({ v with id := { v.id with port := (str2s port).getD 0 }, tok := port } : Vars).database database := by
  rw [parse_loop_reads (by decide) h, hv]
  rfl

end Points

section Accepted

variable {u : Url} {s : Str} {v : Vars} {number : Str → ℕ}

/-- The components of an identifier, and of what `host` and `port` were added to. -/
theorem host_parts (hv : v.tok = []) (host : ∀ c ∈ u.host, c ∉ State.ST_HOST.ends)
    (hport : ∀ p ∈ u.port, ∀ c ∈ p, c ∉ State.ST_PORT.ends) :
    ∃ id, parse_loop .ST_HOST v (u.host ++ (u.port_text ++ chr '/' :: u.database)) = .ok id ∧
      id.scheme = v.id.scheme ∧ id.username = v.id.username ∧ id.password = v.id.password ∧
      id.host.map Prod.snd = some u.host ∧ id.port = u.port.elim v.id.port (fun p => (str2s p).getD 0) ∧
      id.database.map Prod.snd = some u.database := by
  rw [Url.port_text]
  cases hp : u.port with
  | none =>
    rw [nil_append, at_host hv host]
    exact ⟨_, rfl, rfl, rfl, rfl, rfl, rfl, rfl⟩
  | some port =>
    rw [cons_append, at_host_end hv host, at_port rfl (hport port hp)]
    exact ⟨_, rfl, rfl, rfl, rfl, rfl, rfl, rfl⟩

/-- What the states let through gives its components, with the number that `str2s` reads, or 0. -/
theorem loose_parts (h : u.Loose) :
    ∃ id, parse_loop .ST_SCHEME {} u.text = .ok id ∧ id.parts = u.parts fun p => (str2s p).getD 0 := by
  have hscheme : ∀ c ∈ u.scheme, c ∉ State.ST_SCHEME.ends :=
    fun c hc hin => h.scheme (mem_singleton.1 hin ▸ hc)
  have hbehind : ∀ c ∈ u.host, c ∉ State.ST_HOST.ends :=
    fun c hc => not_host_end.2 ⟨(h.host c hc).1, (h.host c hc).2.1⟩
  have hport : ∀ p ∈ u.port, ∀ c ∈ p, c ∉ State.ST_PORT.ends :=
    fun p hp c hc hin => (h.port p hp c hc).1 (mem_singleton.1 hin)
  rw [Url.text, at_scheme hscheme, Url.login_text]
  cases hlogin : u.login with
  | none =>
    have honly : ∀ c ∈ u.host, c ∉ State.ST_USER_HOST.ends :=
      fun c hc => not_user_end.2 ⟨(h.host c hc).1, (h.host c hc).2.1, (h.host c hc).2.2 hlogin⟩
    rw [nil_append, Url.port_text]
    cases hp : u.port with
    | none =>
      rw [nil_append, only_host honly]
      refine ⟨_, rfl, ?_⟩
      rw [Url.parts, hlogin, hp]
      rfl
    | some port =>
      have hwait : ∀ c ∈ port, c ∉ State.ST_PASS_PORT.ends :=
        fun c hc => not_pass_end.2 ⟨(h.port port hp c hc).2 hlogin, (h.port port hp c hc).1⟩
      rw [cons_append, at_token honly, token_host hwait]
      refine ⟨_, rfl, ?_⟩
      rw [Url.parts, hlogin, hp]
      rfl
  | some l =>
    obtain ⟨huser, hpassword⟩ := h.user l hlogin
    have hstop : ∀ c ∈ l.1, c ∉ State.ST_USER_HOST.ends := fun c hc => not_user_end.2 (huser c hc)
    obtain ⟨user, password⟩ := l
    cases password with
    | none =>
      rw [append_assoc, singleton_append, at_user hstop]
      obtain ⟨id, heq, h1, h2, h3, h4, h5, h6⟩ := host_parts (v := logged u.scheme user) rfl hbehind hport
      refine ⟨id, heq, ?_⟩
      rw [Id.parts, Url.parts, h1, h2, h3, h4, h5, h6, hlogin]
      rfl
    | some password =>
      have hpass : ∀ c ∈ password, c ∉ State.ST_PASS_PORT.ends :=
        fun c hc => not_pass_end.2 (hpassword password rfl c hc)
      rw [append_assoc, cons_append, append_assoc, singleton_append, at_token hstop, at_password hpass]
      obtain ⟨id, heq, h1, h2, h3, h4, h5, h6⟩ := host_parts (v := shared u.scheme user password) rfl hbehind hport
      refine ⟨id, heq, ?_⟩
      rw [Id.parts, Url.parts, h1, h2, h3, h4, h5, h6, hlogin]
      rfl

end Accepted

section Rejected

variable {s scheme user password : Str} {v : Vars} {r : Result}

def Fails (r : Result) : Prop := ∃ allocs freed, r = .err allocs freed ∧ Once allocs freed

theorem once_range (n : ℕ) : Once n (List.range n) := by
  intro i
  rw [count_range]

/-- What is behind a user ends at a `/`, with a port in front of it or none. -/
theorem host_shape (scheme : Str) (login : Option (Str × Option Str)) (s : Str) : chr '/' ∉ s ∨
    ∃ host port database, s = host ++ ((Url.mk scheme login host port database).port_text ++ chr '/' :: database) ∧
      (∀ c ∈ host, c ∉ State.ST_HOST.ends) ∧ ∀ p ∈ port, ∀ c ∈ p, c ≠ chr '/' := by
  obtain h | ⟨host, c, rest, rfl, hhost, hc⟩ := ends_cases .ST_HOST s
  · exact .inl fun hin => (not_host_end.1 (h _ hin)).2 rfl
  have hslash : chr '/' ∉ host := fun hin => (not_host_end.1 (hhost _ hin)).2 rfl
  obtain rfl | rfl : c = chr ':' ∨ c = chr '/' := by simpa [State.ends] using hc
  · obtain h | ⟨port, c, database, rfl, hport, hc⟩ := ends_cases .ST_PORT rest
    · refine .inl fun hin => ?_
      obtain hin | hin := mem_append.1 hin
      · exact hslash hin
      · obtain heq | hin := mem_cons.1 hin
        · exact absurd heq (by decide)
        · exact h _ hin (mem_singleton.2 rfl)
    · obtain rfl := mem_singleton.1 hc
      refine .inr ⟨host, some port, database, rfl, hhost, fun p hp c hc => ?_⟩
      cases hp
      exact fun heq => hport c hc (mem_singleton.2 heq)
  · exact .inr ⟨host, none, rest, rfl, hhost, fun p hp => absurd hp (by simp)⟩

/-- Behind a user, a `/` makes it one that the states let through. -/
theorem logged_loose (s : Str) (login : Str × Option Str) (hscheme : chr ':' ∉ scheme) (huser : Free login.1)
    (hpassword : ∀ password ∈ login.2, ∀ c ∈ password, c ≠ chr '@' ∧ c ≠ chr '/') : chr '/' ∉ s ∨
    ∃ u : Url, u.Loose ∧ u.text = scheme ++ chr ':' :: chr '/' :: chr '/' ::
      ((Url.mk scheme (some login) [] none []).login_text ++ s) := by
  obtain h | ⟨host, port, database, rfl, hhost, hport⟩ := host_shape scheme (some login) s
  · exact .inl h
  refine .inr ⟨⟨scheme, some login, host, port, database⟩, ⟨hscheme, ?_, ?_, ?_⟩, rfl⟩
  · intro l hl
    cases hl
    exact ⟨huser, hpassword⟩
  · exact fun c hc => ⟨(not_host_end.1 (hhost c hc)).1, (not_host_end.1 (hhost c hc)).2, by simp⟩
  · exact fun p hp c hc => ⟨hport p hp c hc, by simp⟩

/-- Without a `/` behind the user it fails, with a host or without one. -/
theorem host_stuck (hv : v.tok = []) (h : chr '/' ∉ s) : parse_loop .ST_HOST v s = v.err ∨
    ∃ host, parse_loop .ST_HOST v s = ({ v with tok := host } : Vars).host.err := by
  obtain hs | ⟨host, c, rest, rfl, hhost, hc⟩ := ends_cases .ST_HOST s
  · exact .inl (parse_loop_stuck (by decide) hs)
  · obtain rfl | rfl : c = chr ':' ∨ c = chr '/' := by simpa [State.ends] using hc
    · refine .inr ⟨host, ?_⟩
      rw [at_host_end hv hhost, parse_loop_stuck (by decide)]
      intro c hc hin
      obtain rfl := mem_singleton.1 hin
      exact h (mem_append_right _ (mem_cons_of_mem _ hc))
    · exact absurd (mem_append_right _ mem_cons_self) h

/-- A user and no `/` behind it: everything is freed once. -/
theorem logged_fails (h : chr '/' ∉ s) : Fails (parse_loop .ST_HOST (logged scheme user) s) := by
  obtain heq | ⟨host, heq⟩ := host_stuck (v := logged scheme user) rfl h
  · exact ⟨_, _, heq, once_range 2⟩
  · exact ⟨_, _, heq, once_range 3⟩

/-- A user with a password and no `/` behind them: the user is freed twice. -/
theorem shared_twice (h : chr '/' ∉ s) : ∃ allocs freed,
    parse_loop .ST_HOST (shared scheme user password) s = .err allocs freed ∧ ¬ Once allocs freed := by
  obtain heq | ⟨host, heq⟩ := host_stuck (v := shared scheme user password) rfl h
  · exact ⟨3, [0, 1, 2, 1], heq, fun honce => absurd (honce 1) (by decide)⟩
  · exact ⟨4, [0, 1, 2, 3, 1], heq, fun honce => absurd (honce 1) (by decide)⟩

theorem twice_err (h : Twice s) : ∃ allocs freed, parse_loop .ST_SCHEME {} s = .err allocs freed ∧
    ¬ Once allocs freed := by
  obtain ⟨scheme, user, password, rest, rfl, hscheme, huser, hpassword, hrest⟩ := h
  rw [at_scheme fun c hc hin => hscheme (mem_singleton.1 hin ▸ hc),
    at_token fun c hc => not_user_end.2 (huser c hc), at_password fun c hc => not_pass_end.2 (hpassword c hc)]
  exact shared_twice hrest

theorem slash_cases (scheme s : Str) : parse_loop .ST_SLASH1 (named scheme) s = (named scheme).err ∨
    ∃ rest, s = chr '/' :: chr '/' :: rest := by
  cases s with
  | nil => exact .inl rfl
  | cons c s =>
    by_cases hc : c = chr '/'
    · subst hc
      cases s with
      | nil => exact .inl rfl
      | cons c s =>
        by_cases hc : c = chr '/'
        · subst hc
          exact .inr ⟨s, rfl⟩
        · refine .inl ?_
          rw [parse_loop, if_pos rfl, parse_loop, if_neg hc]
    · refine .inl ?_
      rw [parse_loop, if_neg hc]

theorem parse_cases (s : Str) :
    Fails (parse_loop .ST_SCHEME {} s) ∨ (∃ u : Url, u.Loose ∧ u.text = s) ∨ Twice s := by
  obtain hs | ⟨scheme, c, rest, rfl, hscheme, hc⟩ := ends_cases .ST_SCHEME s
  · exact .inl ⟨_, _, parse_loop_stuck (by decide) hs, once_range 0⟩
  obtain rfl := mem_singleton.1 hc
  have hcolon : chr ':' ∉ scheme := fun hin => hscheme _ hin (mem_singleton.2 rfl)
  obtain hstuck | ⟨rest, rfl⟩ := slash_cases scheme rest
  · refine .inl ⟨1, List.range 1, ?_, once_range 1⟩
    rw [parse_loop_reads (by decide) hscheme]
    exact hstuck
  rw [at_scheme hscheme]
  obtain hs | ⟨user, c, rest, rfl, huser, hc⟩ := ends_cases .ST_USER_HOST rest
  · exact .inl ⟨_, _, parse_loop_stuck (by decide) hs, once_range 1⟩
  have hfree : Free user := fun c hc => not_user_end.1 (huser c hc)
  obtain rfl | rfl | rfl : c = chr '@' ∨ c = chr ':' ∨ c = chr '/' := by simpa [State.ends] using hc
  · -- a user
    rw [at_user huser]
    obtain hslash | ⟨u, hu, htext⟩ := logged_loose rest (user, none) hcolon hfree (by simp)
    · exact .inl (logged_fails hslash)
    · refine .inr (.inl ⟨u, hu, ?_⟩)
      rw [htext, Url.login_text]
      rw [append_assoc, singleton_append]
  · -- a user or a host
    rw [at_token huser]
    obtain hs | ⟨token, c, rest, rfl, htoken, hc⟩ := ends_cases .ST_PASS_PORT rest
    · exact .inl ⟨_, _, parse_loop_stuck (by decide) hs, once_range 2⟩
    have hends : ∀ c ∈ token, c ≠ chr '@' ∧ c ≠ chr '/' := fun c hc => not_pass_end.1 (htoken c hc)
    obtain rfl | rfl : c = chr '@' ∨ c = chr '/' := by simpa [State.ends] using hc
    · obtain hslash | ⟨u, hu, htext⟩ := logged_loose rest (user, some token) hcolon hfree
        fun p hp => some.inj hp ▸ hends
      · exact .inr (.inr ⟨scheme, user, token, rest, rfl, hcolon, hfree, hends, hslash⟩)
      · refine .inr (.inl ⟨u, hu, ?_⟩)
        rw [htext, Url.login_text]
        rw [append_assoc, cons_append, append_assoc, singleton_append]
    · refine .inr (.inl ⟨⟨scheme, none, user, some token, rest⟩, ⟨hcolon, by simp, ?_, ?_⟩, rfl⟩)
      · exact fun c hc => ⟨(hfree c hc).1, (hfree c hc).2.1, fun _ => (hfree c hc).2.2⟩
      · intro p hp c hc
        cases hp
        exact ⟨(hends c hc).2, fun _ => (hends c hc).1⟩
  · -- a host
    refine .inr (.inl ⟨⟨scheme, none, user, none, rest⟩, ⟨hcolon, by simp, ?_, by simp⟩, rfl⟩)
    exact fun c hc => ⟨(hfree c hc).1, (hfree c hc).2.1, fun _ => (hfree c hc).2.2⟩

end Rejected

section Exact

variable {s : Str} {u : Url}

theorem formed_loose (h : u.Formed) : u.Loose where
  scheme := h.scheme.2
  user := fun l hl => ⟨(h.user l hl).1, fun password hp c hc =>
    ⟨((h.user l hl).2 password hp c hc).2.2, ((h.user l hl).2 password hp c hc).2.1⟩⟩
  host := fun c hc => ⟨(h.host c hc).1, (h.host c hc).2.1, fun _ => (h.host c hc).2.2⟩
  port := by
    intro p hp c hc
    have hnum := (h.port p hp).2.1 c hc
    refine ⟨?_, fun _ => ?_⟩
    · rintro rfl
      exact absurd hnum (by decide)
    · rintro rfl
      exact absurd hnum (by decide)

theorem parse_db_url_long (h : SHORTEST_DB_URL_LEN ≤ s.length) : parse_db_url s = parse_loop .ST_SCHEME {} s := by
  rw [parse_db_url, if_neg (not_lt.2 h)]

theorem parse_db_url_short (h : ¬ SHORTEST_DB_URL_LEN ≤ s.length) : parse_db_url s = .err 0 [] := by
  rw [parse_db_url, if_pos (not_le.1 h)]
  rfl

/-- A port at most 65535 is read unless it has more than five digits. -/
theorem port_read {p : Str} (hnum : ∀ c ∈ p, is_num c = true) (hle : decimal p ≤ 65535) :
    (str2s p).getD 0 = decimal p ↔ p.length ≤ 5 ∨ decimal p = 0 := by
  have hword : decimal p < 2 ^ 16 := lt_of_le_of_lt hle (by decide)
  rw [Numbers.str2s_digits hnum]
  by_cases h5 : 5 < p.length
  · rw [if_pos h5, getD_none]
    exact ⟨fun h => .inr h.symm, fun h => (h.resolve_left (not_le.2 h5)).symm⟩
  · rw [if_neg h5, getD_some, Nat.mod_eq_of_lt hword]
    exact ⟨fun _ => .inl (not_lt.1 h5), fun _ => rfl⟩

theorem formed_parts (h : u.Formed) (hlen : SHORTEST_DB_URL_LEN ≤ u.text.length) :
    ∃ id, parse_db_url u.text = .ok id ∧
      (id.parts = u.parts decimal ↔ ∀ p ∈ u.port, p.length ≤ 5 ∨ decimal p = 0) := by
  obtain ⟨id, hok, hparts⟩ := loose_parts (formed_loose h)
  refine ⟨id, (parse_db_url_long hlen).trans hok, ?_⟩
  rw [hparts, Url.parts, Url.parts]
  cases hp : u.port with
  | none => exact ⟨fun _ p hp => absurd hp (by simp), fun _ => rfl⟩
  | some p =>
    obtain ⟨-, hnum, hle⟩ := h.port p hp
    have hread := port_read hnum hle
    constructor
    · intro heq q hq
      cases hq
      exact hread.1 (congrArg Parts.port heq)
    · intro hshort
      dsimp only [Option.elim]
      rw [hread.2 (hshort p rfl)]

/-- A string is treated as the form says exactly when it is regular. -/
theorem parse_db_url_spec (s : Str) : Meets s ↔ Regular s := by
  constructor
  · refine fun h => ⟨?_, ?_⟩
    · rintro u hu rfl
      obtain ⟨id, hok, hid⟩ := h.formed u hu rfl
      have hlen : SHORTEST_DB_URL_LEN ≤ u.text.length := by
        by_contra hshort
        rw [parse_db_url_short hshort] at hok
        exact absurd hok (by simp)
      obtain ⟨id', hok', hiff⟩ := formed_parts hu hlen
      obtain rfl := Result.ok.inj (hok.symm.trans hok')
      exact ⟨hlen, hiff.1 hid⟩
    · intro hs hlen
      obtain ⟨allocs, freed, herr, honce⟩ := h.other hs
      rw [parse_db_url_long hlen] at herr
      constructor
      · rintro ⟨u, hu, rfl⟩
        obtain ⟨id, hok, -⟩ := loose_parts hu
        exact absurd (hok.symm.trans herr) (by simp)
      · intro htwice
        obtain ⟨n, f, heq, hnot⟩ := twice_err htwice
        obtain ⟨rfl, rfl⟩ := Result.err.inj (heq.symm.trans herr)
        exact hnot honce
  · refine fun h => ⟨?_, ?_⟩
    · rintro u hu rfl
      obtain ⟨hlen, hport⟩ := h.formed u hu rfl
      obtain ⟨id, hok, hiff⟩ := formed_parts hu hlen
      exact ⟨id, hok, hiff.2 hport⟩
    · intro hs
      by_cases hlen : SHORTEST_DB_URL_LEN ≤ s.length
      · obtain ⟨hloose, htwice⟩ := h.other hs hlen
        rw [parse_db_url_long hlen]
        exact (parse_cases s).resolve_right fun hor => hor.elim hloose htwice
      · exact ⟨_, _, parse_db_url_short hlen, once_range 0⟩

/-- `s://u:p@host`: the user is freed as the user and as the token. -/
theorem user_freed_twice : parse_db_url ("s://u:p@host".toList.map chr) = .err 3 [0, 1, 2, 1] ∧
    ¬ Meets ("s://u:p@host".toList.map chr) := by
  have herr : parse_db_url ("s://u:p@host".toList.map chr) = .err 3 [0, 1, 2, 1] := by decide
  refine ⟨herr, fun h => ?_⟩
  by_cases hs : ∃ u : Url, u.Formed ∧ u.text = "s://u:p@host".toList.map chr
  · obtain ⟨u, hu, htext⟩ := hs
    obtain ⟨id, hok, -⟩ := h.formed u hu htext
    exact absurd (hok.symm.trans herr) (by simp)
  · obtain ⟨n, f, heq, honce⟩ := h.other hs
    obtain ⟨rfl, rfl⟩ := Result.err.inj (heq.symm.trans herr)
    exact absurd (honce 1) (by decide)

end Exact

end OpenSips.DbId
