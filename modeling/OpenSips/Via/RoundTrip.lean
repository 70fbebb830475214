import OpenSips.Via.Builder
import OpenSips.Via.Values
import Mathlib.Tactic.IntervalCases

/-!
# OpenSips.Via.RoundTrip — `parse_via` on what `via_builder` writes

The text is followed part by part through the loops of `parse_via`.  It is read back as it was meant
unless the branch, taken over from a quoted value, has a character in it that ends an unquoted one.
-/

namespace OpenSips.Via

open Lib List Option

/-- **The body is what `via_builder` meant to write.** -/
structure Meant (mem : Str) (send_sock : SocketInfo) (branch : Str) (vb : ViaBody) : Prop where
  proto : vb.proto = send_sock.proto
  host : vb.host.text mem = send_sock.address_str
  port : vb.port = send_sock.port.toNat
  port_str : vb.port_str.text mem = send_sock.port_str
  branch : ∃ x, vb.branch = some x ∧ vb.param_lst = [x] ∧
    x.name.text mem = "branch".toList.map chr ∧ x.value.text mem = branch
  others : vb.received = none ∧ vb.rport = none ∧ vb.i = none ∧ vb.alias_ = none ∧ vb.maddr = none

def Plain (s : Str) : Prop := ∀ c ∈ s, value_char c = .other

instance (s : Str) : Decidable (Plain s) := inferInstanceAs (Decidable (∀ c ∈ s, _))

section Steps

variable {mem : Str} {end_ : ℕ} {avail : ℕ → Bool} {u u' : Vars} {p : ℕ} {ch : UInt8} {s : Str}

theorem scan_step (h : turn mem end_ avail u p ch = .ok u') :
    scan (turn mem end_ avail) u p (ch :: s) = scan (turn mem end_ avail) u' (p + 1) s := by
  rw [scan, h]
  rfl

theorem turn_first (hp : u.phase = .first) (h : p < end_) :
    turn mem end_ avail u p ch = first_turn mem u p ch := by
  unfold turn
  rw [hp]
  exact if_neg (Nat.not_le_of_lt h)

theorem turn_main (hp : u.phase = .main) :
    turn mem end_ avail u p ch = main_turn mem end_ avail u p ch := by
  unfold turn
  rw [hp]

theorem turn_param (hp : u.phase = .param) (h : p < end_) :
    turn mem end_ avail u p ch = param_turn mem u p ch := by
  unfold turn
  rw [hp]
  exact if_neg (Nat.not_le_of_lt h)

theorem turn_value (hp : u.phase = .value) : turn mem end_ avail u p ch = value_turn mem u p ch := by
  unfold turn
  rw [hp]

theorem scan_same (h : ∀ p, ∀ c ∈ s, turn mem end_ avail u p c = .ok u) :
    scan (turn mem end_ avail) u p s = .ok u := by
  induction s generalizing p with
  | nil => rfl
  | cons c s ih =>
    rw [scan_step (h p c mem_cons_self)]
    exact ih fun p d hd => h p d (mem_cons_of_mem _ hd)

end Steps

section Stages

variable (mem : Str) (end_ : ℕ) {u : Vars} {p : ℕ} {ch : UInt8} {s : Str} {proto : Proto}

structure NoParams (vb : ViaBody) : Prop where
  param_lst : vb.param_lst = []
  shortcuts : vb.branch = none ∧ vb.received = none ∧ vb.rport = none ∧ vb.i = none ∧
    vb.alias_ = none ∧ vb.maddr = none

structure AtHost (proto : Proto) (u : Vars) : Prop where
  phase : u.phase = .main
  state : u.state = .F_HOST
  bodies : u.bodies = []
  proto : u.vb.proto = proto
  port_str : u.vb.port_str = .zero
  params : NoParams u.vb

theorem scan_hdr {hdr : Str} (hh : VIA_HDR proto = some hdr) (hp : p + 13 ≤ end_) :
    ∃ u, scan (turn mem end_ fun _ => true) (start p) p hdr = .ok u ∧ AtHost proto u := by
  cases proto with
  | PROTO_NONE => cases hh
  | PROTO_SCTP =>
    cases hh
    refine ⟨?_, ?_, ?_⟩
    rotate_left
    · show scan _ _ _ [_, _, _, _, _, _, _, _, _, _, _, _, _] = _
      repeat' first
        | rfl
        | rw [scan_step ((turn_first rfl (by omega)).trans rfl)]
    · exact ⟨rfl, rfl, rfl, rfl, rfl, rfl, rfl, rfl, rfl, rfl, rfl, rfl⟩
  | _ =>
    cases hh
    refine ⟨?_, ?_, ?_⟩
    rotate_left
    · show scan _ _ _ [_, _, _, _, _, _, _, _, _, _, _, _] = _
      repeat' first
        | rfl
        | rw [scan_step ((turn_first rfl (by omega)).trans rfl)]
    · exact ⟨rfl, rfl, rfl, rfl, rfl, rfl, rfl, rfl, rfl, rfl, rfl, rfl⟩

/-- Behind the host at `s`, at the colon. -/
structure BehindHost (proto : Proto) (s p : ℕ) (u : Vars) : Prop where
  phase : u.phase = .main
  bodies : u.bodies = []
  proto : u.vb.proto = proto
  port_str : u.vb.port_str = .zero
  params : NoParams u.vb
  host : u.state = .P_HOST ∧ (∃ len, u.vb.host = ⟨some s, len⟩) ∨
    u.state = .L_PORT ∧ u.vb.host = ⟨some s, some (p - s)⟩

theorem scan_host {c : UInt8} (h : AtHost proto u) (hc : main_char c = .other)
    (hs : ∀ d ∈ s, main_char d = .other) :
    ∃ u', scan (turn mem end_ fun _ => true) u p (c :: s) = .ok u' ∧
      BehindHost proto p (p + (c :: s).length) u' := by
  have hstep : turn mem end_ (fun _ => true) u p c =
      .ok { u with state := .P_HOST, vb := { u.vb with host := u.vb.host.at p } } := by
    rw [turn_main h.phase, main_turn, hc, h.state]
  have hsame : ∀ v : Vars, v.phase = .main → v.state = .P_HOST → ∀ q, ∀ d ∈ s,
      turn mem end_ (fun _ => true) v q d = .ok v := by
    intro v hv hst q d hd
    rw [turn_main hv, main_turn, hs d hd, hst]
  refine ⟨_, (scan_step hstep).trans (scan_same (hsame _ h.phase rfl)), ?_⟩
  · exact ⟨h.phase, h.bodies, h.proto, h.port_str, ⟨h.params.param_lst, h.params.shortcuts⟩,
      .inl ⟨rfl, _, rfl⟩⟩

theorem scan_host6 {c : UInt8} (h : AtHost proto u) (hc : main_char c = .other)
    (hs : ∀ d ∈ s, main_char d = .other ∨ main_char d = .colon) :
    ∃ u', scan (turn mem end_ fun _ => true) u p (chr '[' :: c :: s ++ [chr ']']) = .ok u' ∧
      BehindHost proto p (p + (chr '[' :: c :: s ++ [chr ']']).length) u' := by
  have h1 : turn mem end_ (fun _ => true) u p (chr '[') =
      .ok { u with state := .F_IP6HOST, vb := { u.vb with host := u.vb.host.at p } } := by
    rw [turn_main h.phase, main_turn, show main_char (chr '[') = .lbracket from rfl, h.state]
  have h2 : ∀ v : Vars, v.phase = .main → v.state = .F_IP6HOST → ∀ q,
      turn mem end_ (fun _ => true) v q c = .ok { v with state := .P_IP6HOST } := by
    intro v hv hst q
    rw [turn_main hv, main_turn, hc, hst]
  have h3 : ∀ v : Vars, v.phase = .main → v.state = .P_IP6HOST → ∀ q, ∀ d ∈ s,
      turn mem end_ (fun _ => true) v q d = .ok v := by
    intro v hv hst q d hd
    rw [turn_main hv, main_turn]
    rcases hs d hd with hd | hd
    · rw [hd, hst]
    · rw [hd, hst]
  have h4 : ∀ v : Vars, v.phase = .main → v.state = .P_IP6HOST → ∀ q,
      turn mem end_ (fun _ => true) v q (chr ']') = .ok { fin_host v (q + 1) with state := .L_PORT } := by
    intro v hv hst q
    rw [turn_main hv, main_turn, show main_char (chr ']') = .rbracket from rfl, hst]
  obtain ⟨v, hv⟩ : ∃ v : Vars, v = { u with
    state := .F_IP6HOST, vb := { u.vb with host := u.vb.host.at p } } := ⟨_, rfl⟩
  obtain ⟨w, hw⟩ : ∃ w : Vars, w = { v with state := .P_IP6HOST } := ⟨_, rfl⟩
  have hvp : v.phase = .main := by rw [hv]; exact h.phase
  have hwp : w.phase = .main := by rw [hw]; exact hvp
  have hscan : scan (turn mem end_ fun _ => true) u p (chr '[' :: c :: s ++ [chr ']']) =
      .ok { fin_host w (p + 1 + 1 + s.length + 1) with state := .L_PORT } := by
    rw [cons_append, scan_step (h1.trans (congrArg _ hv.symm)), cons_append,
      scan_step ((h2 v hvp (by rw [hv]) _).trans (congrArg _ hw.symm)), scan_append,
      scan_same fun q d hd => h3 w hwp (by rw [hw]) q d hd]
    exact scan_step (h4 w hwp (by rw [hw]) _)
  refine ⟨_, hscan, ?_⟩
  subst hw hv
  refine ⟨h.phase, h.bodies, h.proto, h.port_str, ⟨h.params.param_lst, h.params.shortcuts⟩, .inr ⟨rfl, ?_⟩⟩
  show (⟨some p, some (p + 1 + 1 + s.length + 1 - p)⟩ : Slice) = _
  congr 2
  simp only [length_append, length_cons, length_nil]
  omega

/-- Behind the port at `t`. -/
structure BehindPort (proto : Proto) (host : Slice) (t : ℕ) (u : Vars) : Prop where
  phase : u.phase = .main
  state : u.state = .P_PORT
  bodies : u.bodies = []
  proto : u.vb.proto = proto
  host : u.vb.host = host
  port_str : ∃ len, u.vb.port_str = ⟨some t, len⟩
  params : NoParams u.vb

theorem scan_port {q : ℕ} {c : UInt8} (h : BehindHost proto q p u) (hc : main_char c = .other)
    (hs : ∀ d ∈ s, main_char d = .other) :
    ∃ u', scan (turn mem end_ fun _ => true) u p (chr ':' :: c :: s) = .ok u' ∧
      BehindPort proto ⟨some q, some (p - q)⟩ (p + 1) u' := by
  have h1 : ∃ v, turn mem end_ (fun _ => true) u p (chr ':') = .ok v ∧ v.phase = .main ∧
      v.state = .F_PORT ∧ v.bodies = [] ∧ v.vb.proto = proto ∧ v.vb.host = ⟨some q, some (p - q)⟩ ∧
      v.vb.port_str = .zero ∧ NoParams v.vb := by
    rw [turn_main h.phase, main_turn, show main_char (chr ':') = .colon from rfl]
    have hno := h.params
    rcases h.host with ⟨hst, len, hh⟩ | ⟨hst, hh⟩
    · rw [hst]
      refine ⟨_, rfl, h.phase, rfl, h.bodies, h.proto, ?_, h.port_str, ⟨hno.param_lst, hno.shortcuts⟩⟩
      show u.vb.host.upto p = _
      rw [hh]
      rfl
    · rw [hst]
      exact ⟨_, rfl, h.phase, rfl, h.bodies, h.proto, hh, h.port_str, hno⟩
  obtain ⟨v, hv, hph, hst, hb, hpr, hh, hps, hno⟩ := h1
  have h2 : turn mem end_ (fun _ => true) v (p + 1) c =
      .ok { v with state := .P_PORT, vb := { v.vb with port_str := v.vb.port_str.at (p + 1) } } := by
    rw [turn_main hph, main_turn, hc, hst]
  have hsame : ∀ w : Vars, w.phase = .main → w.state = .P_PORT → ∀ r, ∀ d ∈ s,
      turn mem end_ (fun _ => true) w r d = .ok w := by
    intro w hw hst' r d hd
    rw [turn_main hw, main_turn, hs d hd, hst']
  refine ⟨_, (scan_step hv).trans ((scan_step h2).trans (scan_same (hsame _ hph rfl))), ?_⟩
  exact ⟨hph, rfl, hb, hpr, hh, ⟨_, rfl⟩, ⟨hno.param_lst, hno.shortcuts⟩⟩

/-- In front of the value of the parameter `branch` that starts at `q`. -/
structure AtValue (proto : Proto) (host port_str : Slice) (q : ℕ) (u : Vars) : Prop where
  phase : u.phase = .value
  state : u.state = .F_VALUE
  bodies : u.bodies = []
  proto : u.vb.proto = proto
  host : u.vb.host = host
  port_str : u.vb.port_str = port_str
  params : NoParams u.vb
  type : u.param.type = .FIN_BRANCH
  name : u.param.name = ⟨some q, some 6⟩
  value : u.param.value = .zero

theorem turn_start_param (hp : u.phase = .main) (hs : u.state = .F_PARAM)
    (hc : main_char ch = .other) (h : p < end_) :
    turn mem end_ (fun _ => true) u p ch = param_turn mem { u with
        vb := { u.vb with
          params := if u.vb.params.s = none then u.vb.params.at u.param_start else u.vb.params }
        phase := .param
        param := ⟨.PARAM_ERROR, .zero, .zero, u.param_start, 0⟩
        allocs := u.allocs + 1 } p ch := by
  rw [turn_main hp, main_turn, hc, hs]
  show start_param mem end_ (fun _ => true) u p ch = _
  unfold start_param
  rw [if_neg (fun h => h rfl), if_neg (Nat.not_le_of_lt h), hs]

theorem scan_branch_name {host : Slice} {t : ℕ} (h : BehindPort proto host t u) (hp : p + 8 ≤ end_) :
    ∃ u', scan (turn mem end_ fun _ => true) u p VIA_BRANCH_PARAM = .ok u' ∧
      AtValue proto host ⟨some t, some (p - t)⟩ (p + 1) u' := by
  have h1 : ∃ v, turn mem end_ (fun _ => true) u p (chr ';') = .ok v ∧ v.phase = .main ∧
      v.state = .F_PARAM ∧ v.bodies = [] ∧ v.vb.proto = proto ∧ v.vb.host = host ∧
      v.vb.port_str = ⟨some t, some (p - t)⟩ ∧ NoParams v.vb := by
    rw [turn_main h.phase, main_turn, show main_char (chr ';') = .semicolon from rfl, h.state]
    refine ⟨_, rfl, h.phase, rfl, h.bodies, h.proto, h.host, ?_, ⟨h.params.param_lst, h.params.shortcuts⟩⟩
    obtain ⟨len, hps⟩ := h.port_str
    show u.vb.port_str.upto p = _
    rw [hps]
    rfl
  obtain ⟨⟨phase, state, saved, buffer, param_start, c_nest, param, vb, bodies, allocs⟩, hv, hph, hst,
    hb, hpr, hh, hps, hno⟩ := h1
  cases hph
  cases hst
  cases hb
  refine ⟨?_, (scan_step hv).trans ?_, ?_⟩
  rotate_left
  · show scan _ _ _ [_, _, _, _, _, _, _] = _
    refine (scan_step ((turn_start_param mem end_ rfl rfl rfl (by omega)).trans rfl)).trans ?_
    repeat' first
      | rfl
      | rw [scan_step ((turn_param rfl (by omega)).trans rfl)]
  · refine ⟨rfl, rfl, rfl, hpr, hh, hps, ⟨hno.param_lst, hno.shortcuts⟩, rfl, ?_, rfl⟩
    show (⟨some (p + 1), some (p + 1 + 1 + 1 + 1 + 1 + 1 + 1 - (p + 1))⟩ : Slice) = _
    congr 2
    omega

structure OneBranch (proto : Proto) (host port_str name value : Slice) (port : ℕ) (vb : ViaBody) :
    Prop where
  proto : vb.proto = proto
  host : vb.host = host
  port : vb.port = port
  port_str : vb.port_str = port_str
  branch : ∃ x, vb.branch = some x ∧ vb.param_lst = [x] ∧ x.name = name ∧ x.value = value
  others : vb.received = none ∧ vb.rport = none ∧ vb.i = none ∧ vb.alias_ = none ∧ vb.maddr = none

theorem endofheader_line {c : UInt8} (hp : u.phase = .main) (hs : u.state = .F_CRLF)
    (hb : main_char c ≠ .blank) (hn : main_char c ≠ .nul) :
    turn mem end_ (fun _ => true) u p c = endofheader mem u p := by
  rw [turn_main hp, main_turn]
  cases hc : main_char c with
  | nul => exact absurd hc hn
  | blank => exact absurd hc hb
  | _ => simp only [hs]

theorem add_branch {vb : ViaBody} {x : ViaParam} (h : x.type = .FIN_BRANCH) :
    add_param vb x = { vb with param_lst := vb.param_lst ++ [x], branch := some x } := by
  rw [add_param, shortcut, h]

theorem scan_header_end {port : ℕ} {d : UInt8} {rest : Str} {x : ViaParam} {vb : ViaBody}
    (hp : u.phase = .main) (hst : u.state = .F_CR) (hsv : u.saved_state = .L_PARAM)
    (hb : u.bodies = []) (hvb : u.vb = add_param vb x) (hno : NoParams vb)
    (hty : x.type = .FIN_BRANCH) (hd : main_char d ≠ .blank) (hn : main_char d ≠ .nul)
    (hport : vb.port_str.s.isSome) (hstr : str2s (vb.port_str.text mem) = some port) :
    ∃ vb', scan (turn mem end_ fun _ => true) u p (chr '\n' :: d :: rest) = .error (.accepted [vb'] (p + 1)) ∧
      OneBranch vb.proto vb.host vb.port_str x.name x.value port vb' := by
  rw [add_branch hty] at hvb
  have h1 : turn mem end_ (fun _ => true) u p (chr '\n') = .ok { u with state := .F_CRLF } := by
    rw [turn_main hp, main_turn, show main_char (chr '\n') = .nl from rfl, hst]
  have h2 : ∀ st sv, fin_body mem { u with state := st, saved_state := sv } (p + 1) =
      .ok { u.vb with bsize := p + 1 - u.buffer, port := port } := by
    intro st sv
    unfold fin_body
    rw [hvb]
    rw [if_pos hport]
    simp only [hstr]
  have h3 : turn mem end_ (fun _ => true) { u with state := .F_CRLF } (p + 1) d =
      .error (.accepted [{ u.vb with bsize := p + 1 - u.buffer, port := port }] (p + 1)) := by
    rw [endofheader_line mem end_ (u := { u with state := .F_CRLF }) hp rfl hd hn, endofheader, endofpacket]
    rw [hsv]
    rw [h2, hb]
    rfl
  refine ⟨{ u.vb with bsize := p + 1 - u.buffer, port := port }, (scan_step h1).trans ?_, ?_⟩
  · rw [scan, h3]
    rfl
  · obtain ⟨hl, -, h⟩ := hno
    rw [hvb]
    refine ⟨rfl, rfl, rfl, rfl, ⟨x, rfl, ?_, rfl, rfl⟩, h⟩
    rw [hl]
    rfl

theorem scan_value {host port_str : Slice} {q port : ℕ} {c d : UInt8} {rest : Str}
    (h : AtValue proto host port_str q u) (hc : value_char c = .other)
    (hs : ∀ d ∈ s, value_char d = .other) (hd : main_char d ≠ .blank) (hn : main_char d ≠ .nul)
    (hport : port_str.s.isSome) (hstr : str2s (port_str.text mem) = some port) :
    ∃ vb, scan (turn mem end_ fun _ => true) u p (c :: s ++ (CRLF ++ d :: rest)) =
      .error (.accepted [vb] (p + (c :: s).length + 2)) ∧
      OneBranch proto host port_str ⟨some q, some 6⟩ ⟨some p, some (c :: s).length⟩ port vb := by
  obtain ⟨v, hv⟩ : ∃ v : Vars, v = { u with
    state := .P_VALUE, param := { u.param with value := u.param.value.at p } } := ⟨_, rfl⟩
  have hvp : v.phase = .value := by rw [hv]; exact h.phase
  have hvs : v.state = .P_VALUE := by rw [hv]
  have h1 : turn mem end_ (fun _ => true) u p c = .ok v := by
    rw [turn_value h.phase, value_turn, hc, h.state, hv]
  have h2 : scan (turn mem end_ fun _ => true) v (p + 1) s = .ok v := by
    refine scan_same fun r d hd => ?_
    rw [turn_value hvp, value_turn, hs d hd, hvs]
  obtain ⟨x, hx⟩ : ∃ x : ViaParam, x = { v.param with
    value := ⟨some p, some (p + 1 + s.length - p)⟩
    size := p + 1 + s.length - v.param.start } := ⟨_, rfl⟩
  have h3 : turn mem end_ (fun _ => true) v (p + 1 + s.length) (chr '\r') = .ok { v with
      phase := .main, state := .F_CR, saved_state := .L_PARAM, param := x
      vb := add_param v.vb x } := by
    rw [turn_value hvp, value_turn, show value_char (chr '\r') = .cr from rfl, hvs]
    show value_line_end mem v _ .F_CR = _
    rw [value_line_end, hvs]
    have hval : (fin_value v (p + 1 + s.length)).param.value = ⟨some p, some (p + 1 + s.length - p)⟩ := by
      rw [hv]
      rfl
    have hx' : x = { (fin_value v (p + 1 + s.length)).param with
        size := p + 1 + s.length - v.param.start } := by
      rw [hx, ← hval]
      rfl
    rw [hx']
    rfl
  have hname : x.name = ⟨some q, some 6⟩ := by rw [hx, hv]; exact h.name
  have hvalue : x.value = ⟨some p, some (c :: s).length⟩ := by
    rw [hx]
    dsimp only
    congr 2
    rw [length_cons]
    omega
  have hvb : v.vb = u.vb := by rw [hv]
  obtain ⟨vb, hend, hone⟩ := @scan_header_end mem end_ { v with
      phase := .main, state := .F_CR, saved_state := .L_PARAM, param := x, vb := add_param v.vb x }
    (p + 1 + s.length + 1) port d rest x v.vb rfl rfl rfl (by rw [hv]; exact h.bodies) rfl
    (hvb ▸ h.params) (by rw [hx, hv]; exact h.type) hd hn (by rw [hvb, h.port_str]; exact hport)
    (by rw [hvb, h.port_str]; exact hstr)
  refine ⟨vb, ?_, ?_⟩
  · rw [cons_append, scan_step h1, scan_append, h2]
    show scan _ v _ (chr '\r' :: chr '\n' :: d :: rest) = _
    rw [scan_step h3, hend, length_cons, show p + 1 + s.length + 1 + 1 = p + (s.length + 1) + 2 by omega]
  · rwa [hvb, h.proto, h.host, h.port_str, hname, hvalue] at hone

end Stages

section Texts

variable {mem mem' a b t : Str} {c : UInt8} {s len b0 p : ℕ} {vb : ViaBody} {v : Slice} {branch : Str}

theorem text_at (h : mem = a ++ t ++ b) (hs : s = a.length) (hl : len = t.length) :
    (Slice.mk (some s) (some len)).text mem = t := by
  subst h hs hl
  show ((a ++ t ++ b).drop a.length).take t.length = t
  rw [append_assoc, drop_left, take_left]

theorem mem_text (h : c ∈ (Slice.mk (some s) (some len)).text mem) :
    ∃ i, s ≤ i ∧ i < s + len ∧ mem[i]? = some c := by
  obtain ⟨j, hj⟩ := mem_iff_getElem?.1 h
  change ((mem.drop s).take len)[j]? = some c at hj
  rw [getElem?_take] at hj
  split_ifs at hj with hlt
  rw [getElem?_drop] at hj
  exact ⟨s + j, by omega, by omega, hj⟩

theorem Slice.Read.text (h : v.Read mem b0 p) (hv : v.text mem ≠ []) :
    (∀ c ∈ v.text mem, value_char c = .other) ∨ (∃ i, b0 ≤ i ∧ i < p ∧ mem[i]? = some (chr '"')) ∧
        ∀ c ∈ v.text mem, value_char c ≠ .quote ∧ value_char c ≠ .nul := by
  rcases h with h | ⟨s, len, rfl, hb, hl, h⟩
  · refine absurd ?_ hv
    obtain ⟨s, len⟩ := v
    obtain rfl : len = some 0 := h
    cases s <;> rfl
  · rcases h with h | ⟨hb0, hq, h⟩
    · left
      intro c hc
      obtain ⟨i, hi, hlt, hmem⟩ := mem_text hc
      obtain ⟨d, hd, hother⟩ := h i hi hlt
      rw [hmem] at hd
      rwa [some.inj hd]
    · refine .inr ⟨⟨s - 1, by omega, by omega, hq⟩, fun c hc => ?_⟩
      obtain ⟨i, hi, hlt, hmem⟩ := mem_text hc
      obtain ⟨d, hd, hne⟩ := h i hi hlt
      rw [hmem] at hd
      rwa [some.inj hd]

theorem valid_branch_text (h : vb.Read mem b0 p) (e : valid_branch mem vb = some branch) :
    branch ≠ [] ∧ ∀ c ∈ branch, value_char c ≠ .quote ∧ value_char c ≠ .nul := by
  unfold valid_branch at e
  split at e
  · cases e
  · rename_i x hx
    split_ifs at e with hno
    cases e
    have hread := h.params x (h.branch x hx)
    rw [not_or] at hno
    have hne : x.value.text mem ≠ [] := by
      rcases hread with h0 | ⟨s, len, hv, -, -, hchars⟩
      · exact absurd h0 hno.2
      · rw [hv] at hno ⊢
        have hlen : len ≠ 0 := fun h0 => hno.2 (by rw [h0])
        obtain ⟨c, hc⟩ : ∃ c, mem[s]? = some c := by
          rcases hchars with hchars | ⟨-, -, hchars⟩
          · obtain ⟨c, hc, -⟩ := hchars s (le_rfl) (by omega)
            exact ⟨c, hc⟩
          · obtain ⟨c, hc, -⟩ := hchars s (le_rfl) (by omega)
            exact ⟨c, hc⟩
        intro h0
        have hlt := (List.getElem?_eq_some_iff.1 hc).1
        have hlength := congrArg List.length h0
        change ((mem.drop s).take len).length = 0 at hlength
        rw [length_take, length_drop] at hlength
        omega
    refine ⟨hne, fun c hc => ?_⟩
    rcases hread.text hne with hp | ⟨-, hq⟩
    · rw [hp c hc]
      decide
    · exact hq c hc

theorem digit_char (n : ℕ) : main_char (digit n) = .other ∧ digit n ≠ chr '"' := by
  have h : n % 10 < 10 := Nat.mod_lt _ (by decide)
  unfold digit
  generalize n % 10 = k at h
  interval_cases k <;> decide

theorem hexdig_char {n : ℕ} (h : n < 16) : main_char (HEXDIG n) = .other ∧ HEXDIG n ≠ chr '"' := by
  interval_cases n <;> decide

end Texts

section Parts

variable {mem hdr addr ports branch rest : Str} {end_ p q port : ℕ} {proto : Proto} {c b d : UInt8}

/-- **The loops over the parts of a body.** -/
theorem scan_parts (hh : VIA_HDR proto = some hdr)
    (haddr : ∀ u, AtHost proto u → ∃ u', scan (turn mem end_ fun _ => true) u (p + hdr.length) addr =
      .ok u' ∧ BehindHost proto (p + hdr.length) (p + hdr.length + addr.length) u')
    (hports : ∀ d ∈ c :: ports, main_char d = .other) (hplain : Plain (b :: branch))
    (hq : q = p + hdr.length + addr.length + 1 + (ports.length + 1))
    (hend : p + 13 ≤ end_ ∧ q + 8 ≤ end_) (hd : main_char d ≠ .blank) (hn : main_char d ≠ .nul)
    (hstr : str2s ((Slice.mk (some (p + hdr.length + addr.length + 1)) (some (ports.length + 1))).text
      mem) = some port) :
    ∃ vb, scan (turn mem end_ fun _ => true) (start p) p
        (hdr ++ (addr ++ (chr ':' :: c :: ports ++ (VIA_BRANCH_PARAM ++
          (b :: branch ++ (CRLF ++ d :: rest)))))) =
      .error (.accepted [vb] (q + 8 + (branch.length + 1) + 2)) ∧
      OneBranch proto ⟨some (p + hdr.length), some addr.length⟩
        ⟨some (p + hdr.length + addr.length + 1), some (ports.length + 1)⟩ ⟨some (q + 1), some 6⟩
        ⟨some (q + 8), some (branch.length + 1)⟩ port vb := by
  obtain ⟨u1, h1, H1⟩ := scan_hdr mem end_ hh hend.1
  obtain ⟨u2, h2, H2⟩ := haddr u1 H1
  obtain ⟨u3, h3, H3⟩ := scan_port mem end_ H2 (hports c mem_cons_self)
    fun d hd => hports d (mem_cons_of_mem _ hd)
  rw [Nat.add_sub_cancel_left] at H3
  obtain ⟨u4, h4, H4⟩ := scan_branch_name mem end_ (p := q) H3 hend.2
  have hlen : q - (p + hdr.length + addr.length + 1) = ports.length + 1 := by omega
  rw [hlen] at H4
  obtain ⟨vb, h5, H5⟩ := scan_value mem end_ (p := q + 8) H4
    (hplain b mem_cons_self) (fun d hd => hplain d (mem_cons_of_mem _ hd)) hd hn rfl hstr
  refine ⟨vb, ?_, H5⟩
  have hq' : p + hdr.length + addr.length + (chr ':' :: c :: ports).length = q := by
    rw [hq, length_cons, length_cons]
    omega
  rw [scan_append, h1]
  show scan _ u1 _ _ = _
  rw [scan_append, h2]
  show scan _ u2 _ _ = _
  rw [scan_append, h3]
  show scan _ u3 _ _ = _
  rw [hq', scan_append, h4]
  exact h5

end Parts

section Listener

variable {mem : Str} {end_ p : ℕ} {u : Vars} {proto proto' : Proto} {address : IpAddr} {port : UInt16}

theorem scan_address (h : AtHost proto u) :
    ∃ u', scan (turn mem end_ fun _ => true) u p (fix_listener proto' address port).address_str = .ok u' ∧
      BehindHost proto p (p + (fix_listener proto' address port).address_str.length) u' := by
  cases address with
  | AF_INET addr =>
    obtain ⟨c, cs, hs, ⟨n, hn⟩, hcs⟩ := ip_addr2a_inet addr
    have hstr : (fix_listener proto' (.AF_INET addr) port).address_str = c :: cs := hs
    rw [hstr]
    refine scan_host mem end_ h (hn ▸ (digit_char n).1) fun d hd => ?_
    rcases hcs d hd with ⟨m, rfl⟩ | rfl
    · exact (digit_char m).1
    · rfl
  | AF_INET6 addr16 =>
    obtain ⟨c, cs, hs, ⟨n, hlt, hn⟩, hcs⟩ := ip_addr2a_inet6 addr16
    have hstr : (fix_listener proto' (.AF_INET6 addr16) port).address_str =
        chr '[' :: c :: cs ++ [chr ']'] := by
      show chr '[' :: ip_addr2a (.AF_INET6 addr16) ++ [chr ']'] = _
      rw [hs]
    rw [hstr]
    refine scan_host6 mem end_ h (hn ▸ (hexdig_char hlt).1) fun d hd => ?_
    rcases hcs d hd with ⟨m, hm, rfl⟩ | rfl
    · exact .inl (hexdig_char hm).1
    · exact .inr rfl

theorem address_no_quote : chr '"' ∉ (fix_listener proto' address port).address_str := by
  cases address with
  | AF_INET addr =>
    obtain ⟨c, cs, hs, ⟨n, hn⟩, hcs⟩ := ip_addr2a_inet addr
    have hstr : (fix_listener proto' (.AF_INET addr) port).address_str = c :: cs := hs
    rw [hstr]
    intro hmem
    rcases mem_cons.1 hmem with hd | hd
    · exact (digit_char n).2 (hn ▸ hd.symm)
    · rcases hcs _ hd with ⟨m, hm⟩ | hm
      · exact (digit_char m).2 hm.symm
      · exact absurd hm (by decide)
  | AF_INET6 addr16 =>
    obtain ⟨c, cs, hs, ⟨n, hlt, hn⟩, hcs⟩ := ip_addr2a_inet6 addr16
    have hstr : (fix_listener proto' (.AF_INET6 addr16) port).address_str =
        chr '[' :: (c :: cs ++ [chr ']']) := by
      rw [← hs]
      rfl
    rw [hstr]
    intro hmem
    rcases mem_cons.1 hmem with hd | hd
    · exact absurd hd (by decide)
    · rcases mem_append.1 hd with hd | hd
      · rcases mem_cons.1 hd with hd | hd
        · exact (hexdig_char hlt).2 (hn ▸ hd.symm)
        · rcases hcs _ hd with ⟨m, hm, hq⟩ | hm
          · exact (hexdig_char hm).2 hq.symm
          · exact absurd hm (by decide)
      · exact absurd (mem_singleton.1 hd) (by decide)

end Listener

section RoundTrip

variable {mem0 pre via rest branch : Str} {msg : Vias} {proto : Proto} {address : IpAddr}
  {port : UInt16} {d : UInt8} {end_ : ℕ}

/-- The Via headers of a message, each accepted by `parse_via`. -/
def Received (mem0 : Str) (msg : Vias) : Prop :=
  ∀ bodies ∈ msg.h_via ++ msg.more.getD [], ∃ avail buffer end_ tmp, buffer ≤ mem0.length ∧
    parse_via mem0 avail buffer end_ = some (.accepted bodies tmp)

theorem received_branch (hmsg : Received mem0 msg) (hb : get_sl_branch mem0 msg = some branch) :
    branch ≠ [] ∧ chr '"' ∉ branch := by
  rcases get_sl_branch_from hb with rfl | ⟨bodies, hbodies, vb, hvb, hv⟩
  · exact ⟨by decide, by decide⟩
  · obtain ⟨avail, buffer, end_, tmp, hle, e⟩ := hmsg bodies hbodies
    obtain ⟨hne, hchars⟩ := valid_branch_text (parse_via_read hle e vb hvb) hv
    exact ⟨hne, fun hq => (hchars _ hq).1 rfl⟩

/-- **A body with a plain branch is read back as it was meant.** -/
theorem read_back (hb : get_sl_branch mem0 msg = some branch)
    (e : via_builder mem0 msg (fix_listener proto address port) true = some via)
    (hne : branch ≠ []) (hplain : Plain branch) (hd : main_char d ≠ .blank)
    (hn : main_char d ≠ .nul) (hend : (pre ++ via).length ≤ end_) :
    ∃ vb, parse_via (pre ++ via ++ d :: rest) (fun _ => true) pre.length end_ =
      some (.accepted [vb] (pre ++ via).length) ∧
      Meant (pre ++ via ++ d :: rest) (fix_listener proto address port) branch vb := by
  obtain ⟨branch', hdr, hb', hh, hvia⟩ := via_builder_eq e
  rw [hb] at hb'
  cases hb'
  obtain ⟨b, bs, rfl⟩ := exists_cons_of_ne_nil hne
  have hhdr : 12 ≤ hdr.length ∧ hdr.length ≤ 13 := by
    change VIA_HDR proto = some hdr at hh
    revert hh
    cases proto <;> rintro ⟨⟩ <;> decide
  -- the port
  obtain ⟨ds, hds, hdsne⟩ := int2str_digits port.toNat
  obtain ⟨n, ns, rfl⟩ := exists_cons_of_ne_nil hdsne
  have hport : str2s (digit n :: ns.map digit) = some port.toNat := by
    rw [← map_cons, ← hds]
    exact str2s_int2str port.toNat_lt
  have hports : ∀ d ∈ digit n :: ns.map digit, main_char d = .other := by
    intro d hd
    rw [← map_cons] at hd
    obtain ⟨m, -, rfl⟩ := List.mem_map.1 hd
    exact (digit_char m).1
  change via = hdr ++ (fix_listener proto address port).address_str ++ [chr ':'] ++
    int2str port.toNat ++ VIA_BRANCH_PARAM ++ b :: bs ++ CRLF at hvia
  -- the address
  have haddr : ∀ mem u, AtHost proto u → ∃ u', scan (turn mem end_ fun _ => true) u
      (pre.length + hdr.length) (fix_listener proto address port).address_str = .ok u' ∧
      BehindHost proto (pre.length + hdr.length)
        (pre.length + hdr.length + (fix_listener proto address port).address_str.length) u' :=
    fun mem u h => scan_address h
  obtain ⟨host, hhost⟩ : ∃ host, host = (fix_listener proto address port).address_str := ⟨_, rfl⟩
  rw [← hhost, hds, map_cons] at hvia
  rw [← hhost] at haddr
  have hlen : via.length = hdr.length + host.length + 1 + (ns.length + 1) + 8 + (bs.length + 1) + 2 := by
    rw [hvia]
    simp only [length_append, length_cons, length_nil, length_map, CRLF]
    rw [show VIA_BRANCH_PARAM.length = 8 from rfl]
  have hpv : (pre ++ via).length = pre.length + via.length := length_append
  obtain ⟨mem, hmem⟩ : ∃ mem, mem = pre ++ via ++ d :: rest := ⟨_, rfl⟩
  have hmem' : mem = pre ++ (hdr ++ (host ++ (chr ':' :: digit n :: ns.map digit ++
      (VIA_BRANCH_PARAM ++ (b :: bs ++ (CRLF ++ d :: rest)))))) := by
    rw [hmem, hvia]
    simp only [append_assoc, cons_append, nil_append]
  have htport : (Slice.mk (some (pre.length + hdr.length + host.length + 1))
      (some ((ns.map digit).length + 1))).text mem = digit n :: ns.map digit := by
    refine text_at (a := pre ++ hdr ++ host ++ [chr ':'])
      (b := VIA_BRANCH_PARAM ++ (b :: bs ++ (CRLF ++ d :: rest))) ?_ ?_ rfl
    · rw [hmem']
      simp only [append_assoc, cons_append, nil_append]
    · simp only [length_append, length_cons, length_nil]
  obtain ⟨vb, hscan, hone⟩ := scan_parts (p := pre.length) (q := pre.length + hdr.length +
    host.length + 1 + ((ns.map digit).length + 1)) hh (haddr mem) hports hplain rfl
    (by rw [length_map]; omega) hd hn (htport ▸ hport)
  rw [length_map] at hscan hone htport
  rw [← hmem]
  refine ⟨vb, ?_, ?_⟩
  · have hdrop : mem.drop pre.length = hdr ++ (host ++ (chr ':' :: digit n :: ns.map digit ++
        (VIA_BRANCH_PARAM ++ (b :: bs ++ (CRLF ++ d :: rest))))) := by
      rw [hmem']
      exact drop_left
    have hpos : pre.length + hdr.length + host.length + 1 + (ns.length + 1) + 8 +
        (bs.length + 1) + 2 = pre.length + via.length := by omega
    rw [parse_via, hdrop, hscan, hpv, hpos]
  · obtain ⟨hproto, hh1, hp1, hps1, ⟨x, hx, hl, hxn, hxv⟩, hothers⟩ := hone
    refine ⟨hproto, ?_, hp1, ?_, ⟨x, hx, hl, ?_, ?_⟩, hothers⟩
    · rw [hh1, ← hhost]
      refine text_at (a := pre ++ hdr) (b := chr ':' :: digit n :: ns.map digit ++
        (VIA_BRANCH_PARAM ++ (b :: bs ++ (CRLF ++ d :: rest)))) ?_ length_append.symm rfl
      rw [hmem', append_assoc, append_assoc]
    · rw [hps1, htport]
      exact hds.symm
    · rw [hxn]
      refine text_at (a := pre ++ hdr ++ host ++ (chr ':' :: digit n :: ns.map digit) ++ [chr ';'])
        (b := chr '=' :: (b :: bs ++ (CRLF ++ d :: rest))) ?_ ?_ rfl
      · rw [hmem']
        simp only [append_assoc, cons_append, nil_append]
        rfl
      · simp only [length_append, length_cons, length_nil, length_map]
        omega
    · rw [hxv]
      refine text_at (a := pre ++ hdr ++ host ++ (chr ':' :: digit n :: ns.map digit) ++
        VIA_BRANCH_PARAM) (b := CRLF ++ d :: rest) ?_ ?_ rfl
      · rw [hmem']
        simp only [append_assoc, cons_append]
      · simp only [length_append, length_cons, length_map]
        rw [show VIA_BRANCH_PARAM.length = 8 from rfl]
        omega

/-- No quote is written unless the branch has one. -/
theorem via_no_quote (hb : get_sl_branch mem0 msg = some branch)
    (e : via_builder mem0 msg (fix_listener proto address port) true = some via)
    (hq : chr '"' ∉ branch) : chr '"' ∉ via := by
  obtain ⟨branch', hdr, hb', hh, rfl⟩ := via_builder_eq e
  rw [hb] at hb'
  cases hb'
  have hhdr : chr '"' ∉ hdr := by
    change VIA_HDR proto = some hdr at hh
    revert hh
    cases proto <;> rintro ⟨⟩ <;> decide
  have hport : chr '"' ∉ (fix_listener proto address port).port_str := by
    obtain ⟨ds, hds, -⟩ := int2str_digits port.toNat
    change chr '"' ∉ int2str port.toNat
    rw [hds]
    intro hmem
    obtain ⟨m, -, hm⟩ := List.mem_map.1 hmem
    exact (digit_char m).2 hm
  simp only [mem_append, not_or]
  exact ⟨⟨⟨⟨⟨⟨hhdr, address_no_quote⟩, by decide⟩, hport⟩, by decide⟩, hq⟩, by decide⟩

def one_via : Str := "SIP/2.0/UDP h;branch=z9hG4bK1\r\nX".toList.map chr

/-- A received Via header with a branch in quotes, which are not part of its value. -/
def quoted_via : Str := "SIP/2.0/UDP h;branch=\"a;b\"\r\nX".toList.map chr

end RoundTrip

end OpenSips.Via
