import OpenSips.Via.Model

/-!
# OpenSips.Via.Builder — `via_builder` (`core/builder/via_builder.c`)

The Via body of a forwarded request: protocol, address and port of the socket it is sent from, and a
branch taken from the received Via headers.
-/

namespace OpenSips.Via

open List Option

def MCOOKIE : Str := "z9hG4bK".toList.map chr

def CRLF : Str := [chr '\r', chr '\n']

def VIA_BRANCH_PARAM : Str := ";branch=".toList.map chr

/-- What `get_sl_branch` reads of a message: the bodies of each Via header parsed so far, and of those
that `parse_headers` adds, unless it fails. -/
structure Vias where
  h_via : List (List ViaBody)
  more : Option (List (List ViaBody))

def valid_branch (mem : Str) (b_via : ViaBody) : Option Str :=
  match b_via.branch with
  | none => none
  | some param =>
    if param.value.s = none ∨ param.value.len = some 0 then none else some (param.value.text mem)

/-- The branch has the magic cookie, and something behind it. -/
def stateful (branch : Str) : Bool := MCOOKIE.length < branch.length ∧ MCOOKIE <+: branch

/-- The loop over the bodies of one header: the branch found last, and whether it ends the search. -/
def sl_bodies (mem : Str) : Option Str → List ViaBody → Option Str × Bool
  | branch, [] => (branch, false)
  | branch, b_via :: bodies =>
    match valid_branch mem b_via with
    | none => sl_bodies mem branch bodies
    | some b => if stateful b then (some b, true) else sl_bodies mem (some b) bodies

def default_branch : Str := [chr '0']

/-- `get_sl_branch`; all headers are parsed behind the first Via. -/
def get_sl_branch (mem : Str) (msg : Vias) : Option Str :=
  match msg.h_via with
  | [] => some default_branch
  | bodies :: h_via =>
    match sl_bodies mem none bodies with
    | (branch, true) => some (branch.getD default_branch)
    | (branch, false) =>
      match msg.more with
      | none => none
      | some more => some ((sl_bodies mem branch (h_via ++ more).flatten).1.getD default_branch)

/-- `VIA_HDR_UDP` and its siblings. -/
def VIA_HDR : Proto → Option Str
  | .PROTO_UDP => some ("SIP/2.0/UDP ".toList.map chr)
  | .PROTO_TCP => some ("SIP/2.0/TCP ".toList.map chr)
  | .PROTO_TLS => some ("SIP/2.0/TLS ".toList.map chr)
  | .PROTO_SCTP => some ("SIP/2.0/SCTP ".toList.map chr)
  | .PROTO_NONE => none

/-- The length that `via_builder` allocates. -/
def via_len (send_sock : SocketInfo) (branch : Str) : ℕ :=
  12 + 1 + send_sock.address_str.length + 2 + 1 + send_sock.port_str.length +
    VIA_BRANCH_PARAM.length + branch.length + CRLF.length

/-- `via_builder`, when it returns 0; `shm` says whether the allocation succeeds. -/
def via_builder (mem : Str) (msg : Vias) (send_sock : SocketInfo) (shm : Bool) : Option Str := do
  let branch ← get_sl_branch mem msg
  if ¬ shm then none
  else
    let hdr ← VIA_HDR send_sock.proto
    some (hdr ++ send_sock.address_str ++ [chr ':'] ++ send_sock.port_str ++ VIA_BRANCH_PARAM ++
      branch ++ CRLF)

section Builder

variable {mem : Str} {msg : Vias} {send_sock : SocketInfo} {shm : Bool} {via branch b : Str}

theorem via_builder_eq (e : via_builder mem msg send_sock shm = some via) :
    ∃ branch hdr, get_sl_branch mem msg = some branch ∧ VIA_HDR send_sock.proto = some hdr ∧
      via = hdr ++ send_sock.address_str ++ [chr ':'] ++ send_sock.port_str ++ VIA_BRANCH_PARAM ++
        branch ++ CRLF := by
  unfold via_builder at e
  cases hb : get_sl_branch mem msg with
  | none =>
    rw [hb] at e
    cases e
  | some branch =>
    rw [hb] at e
    cases hh : VIA_HDR send_sock.proto with
    | none =>
      rw [hh] at e
      cases shm <;> cases e
    | some hdr =>
      rw [hh] at e
      cases shm
      · cases e
      · exact ⟨branch, hdr, rfl, rfl, (some.inj e).symm⟩

/-- **What is written fits into the buffer.** -/
theorem via_builder_fits (e : via_builder mem msg send_sock shm = some via) :
    ∃ branch, get_sl_branch mem msg = some branch ∧ via.length ≤ via_len send_sock branch := by
  obtain ⟨branch, hdr, hb, hh, rfl⟩ := via_builder_eq e
  refine ⟨branch, hb, ?_⟩
  have hlen : hdr.length ≤ 13 := by
    revert hh
    cases send_sock.proto <;> rintro ⟨⟩ <;> decide
  simp only [via_len, length_append, length_singleton]
  omega

theorem sl_bodies_from (mem : Str) (branch : Option Str) (bodies : List ViaBody) :
    (sl_bodies mem branch bodies).1 = branch ∨
      ∃ vb ∈ bodies, ∃ b, (sl_bodies mem branch bodies).1 = some b ∧ valid_branch mem vb = some b := by
  induction bodies generalizing branch with
  | nil => exact .inl rfl
  | cons vb bodies ih =>
    unfold sl_bodies
    cases hv : valid_branch mem vb with
    | none =>
      dsimp only
      rcases ih branch with h | ⟨vb', hvb', h⟩
      · exact .inl h
      · exact .inr ⟨vb', mem_cons_of_mem _ hvb', h⟩
    | some b =>
      dsimp only
      split_ifs with hst
      · exact .inr ⟨vb, mem_cons_self, b, rfl, hv⟩
      · rcases ih (some b) with h | ⟨vb', hvb', h⟩
        · exact .inr ⟨vb, mem_cons_self, b, h, hv⟩
        · exact .inr ⟨vb', mem_cons_of_mem _ hvb', h⟩

/-- **The branch is the default one or one of the received Via headers.** -/
theorem get_sl_branch_from (e : get_sl_branch mem msg = some branch) :
    branch = default_branch ∨ ∃ bodies ∈ msg.h_via ++ msg.more.getD [], ∃ vb ∈ bodies,
      valid_branch mem vb = some branch := by
  unfold get_sl_branch at e
  split at e
  · exact .inl (some.inj e).symm
  · rename_i bodies h_via hh
    rw [hh]
    have hfirst := sl_bodies_from mem none bodies
    split at e
    · rename_i br hbr
      rw [hbr] at hfirst
      rcases hfirst with rfl | ⟨vb, hvb, b, rfl, hv⟩
      · exact .inl (some.inj e).symm
      · refine .inr ⟨bodies, mem_append.2 (.inl mem_cons_self), vb, hvb, ?_⟩
        rw [hv, ← e]
        rfl
    · rename_i br hbr
      rw [hbr] at hfirst
      split at e
      · cases e
      · rename_i more hmore
        rw [hmore]
        have hrest := sl_bodies_from mem br (h_via ++ more).flatten
        rcases hrest with h | ⟨vb, hvb, b, h, hv⟩
        · rw [h] at e
          rcases hfirst with rfl | ⟨vb, hvb, b, rfl, hv⟩
          · exact .inl (some.inj e).symm
          · refine .inr ⟨bodies, mem_append.2 (.inl mem_cons_self), vb, hvb, ?_⟩
            rw [hv, ← e]
            rfl
        · rw [h] at e
          obtain ⟨bodies', hb', hvb⟩ := mem_flatten.1 hvb
          refine .inr ⟨bodies', ?_, vb, hvb, ?_⟩
          · rcases mem_append.1 hb' with hb' | hb'
            · exact mem_append.2 (.inl (mem_cons_of_mem _ hb'))
            · exact mem_append.2 (.inr hb')
          · rw [hv, ← e]
            rfl

end Builder

end OpenSips.Via
