import OpenSips.Via.Model

/-!
# OpenSips.Via.Objects — the bodies and parameters that `parse_via` allocates

An accepted header has all of them in its lists: the bodies behind the first, and the parameters of each.
The lists are counted, since the objects in them are values here.
-/

namespace OpenSips.Via

open Lib List

/-- The body and the parameters in its list. -/
def ViaBody.objects (vb : ViaBody) : ℕ := vb.param_lst.length + 1

/-- A list of bodies. -/
def objects (bodies : List ViaBody) : ℕ := (bodies.map ViaBody.objects).sum

/-- The character starts a parameter or a body, and there is memory for it. -/
def allocates (mem : Str) (avail : ℕ → Bool) (u : Vars) (p : ℕ) (ch : UInt8) : Bool :=
  u.phase = .main && main_char ch = .other && avail u.allocs &&
    (u.state = .F_PARAM || u.state = .F_VIA && (fin_body mem u p).isOk)

/-- The parameter under construction is freed where `parse_via_param` fails, and not where the header
behind it ends with a bad port. -/
def frees (mem : Str) (end_ : ℕ) (avail : ℕ → Bool) (u : Vars) (p : ℕ) (ch : UInt8) : Bool :=
  match u.phase with
  | .first => false
  | .main => u.state = .F_PARAM && allocates mem avail u p ch
  | .param | .value =>
    match turn mem end_ avail { u with vb := { u.vb with port_str := .zero } } p ch with
    | .error (.accepted _ _) => false
    | _ => true

/-- How many allocations `parse_via` makes up to where it stops, and what it frees there: they are named
by their numbers, from 1 on. -/
def ledger (mem : Str) (end_ : ℕ) (avail : ℕ → Bool) : Vars → ℕ → List UInt8 → ℕ × List ℕ
  | u, _, [] => (u.allocs, if u.phase = .param then [u.allocs] else [])
  | u, p, ch :: cs =>
    let n := u.allocs + (allocates mem avail u p ch).toNat
    match turn mem end_ avail u p ch with
    | .ok u' => ledger mem end_ avail u' (p + 1) cs
    | .error (.accepted _ _) => (n, [])
    | .error (.parse_error _) => (n, if frees mem end_ avail u p ch then [n] else [])

/-- The objects of the header so far: the last parameter is not in its list. -/
structure Counted (u : Vars) : Prop where
  list : objects u.bodies + u.vb.param_lst.length +
    (if u.phase = .param ∨ u.phase = .value then 1 else 0) = u.allocs

/-- An accepted header: `n` objects were allocated behind the first body. -/
def AllCounted (n : ℕ) : Stop → Prop
  | .accepted bodies _ => objects bodies = n + 1
  | .parse_error _ => True

section Turns

variable {mem : Str} {p end_ : ℕ} {u : Vars} {ch : UInt8} {avail : ℕ → Bool}

theorem objects_append (bodies : List ViaBody) (vb : ViaBody) :
    objects (bodies ++ [vb]) = objects bodies + vb.param_lst.length + 1 := by
  rw [objects, map_append, sum_append, map_singleton, sum_singleton, ViaBody.objects, ← add_assoc]
  rfl

theorem add_param_length (vb : ViaBody) (x : ViaParam) :
    (add_param vb x).param_lst.length = vb.param_lst.length + 1 := by
  have hl : (add_param vb x).param_lst = vb.param_lst ++ [x] := by
    unfold add_param shortcut
    split <;> rfl
  rw [hl, length_append, length_singleton]

theorem fin_body_length (mem : Str) (u : Vars) (p n : ℕ) :
    Outcome (fun vb => vb.param_lst.length = u.vb.param_lst.length) (AllCounted n) (fin_body mem u p) := by
  unfold fin_body
  dsimp only
  split_ifs
  · split
    · rfl
    · trivial
  · rfl

theorem endofpacket_counted (h : objects u.bodies + u.vb.param_lst.length = u.allocs) (I : Vars → Prop) :
    Outcome I (AllCounted u.allocs) (endofpacket mem u p) := by
  unfold endofpacket
  split <;> first
    | trivial
    | (refine (fin_body_length mem u p _).bind fun vb hvb => ?_
       show objects (u.bodies ++ [vb]) = u.allocs + 1
       rw [objects_append, hvb, h])

theorem Counted.outside (h : Counted u) (hp : u.phase = .first ∨ u.phase = .main) :
    objects u.bodies + u.vb.param_lst.length = u.allocs := by
  have hl := h.list
  rwa [if_neg (by rcases hp with hp | hp <;> rw [hp] <;> decide)] at hl

theorem Counted.inside (h : Counted u) (hp : u.phase = .param ∨ u.phase = .value) :
    objects u.bodies + u.vb.param_lst.length + 1 = u.allocs := by
  have hl := h.list
  rwa [if_pos hp] at hl

theorem Counted.of_outside (h : objects u.bodies + u.vb.param_lst.length = u.allocs)
    (hp : u.phase = .first ∨ u.phase = .main) : Counted u :=
  ⟨by rw [if_neg (by rcases hp with hp | hp <;> rw [hp] <;> decide)]; exact h⟩

theorem Counted.around (h : Counted u) (hp : u.phase = .first ∨ u.phase = .main) {u' : Vars}
    (hb : u'.bodies = u.bodies) (hl : u'.vb.param_lst = u.vb.param_lst) (ha : u'.allocs = u.allocs)
    (hp' : u'.phase = .first ∨ u'.phase = .main) : Counted u' :=
  .of_outside (by rw [hb, hl, ha]; exact h.outside hp) hp'

theorem Counted.within (h : Counted u) (hp : u.phase = .param ∨ u.phase = .value) {u' : Vars}
    (hb : u'.bodies = u.bodies) (hl : u'.vb.param_lst = u.vb.param_lst) (ha : u'.allocs = u.allocs)
    (hp' : u'.phase = .param ∨ u'.phase = .value) : Counted u' :=
  ⟨by rw [hb, hl, ha, if_pos hp', h.inside hp]⟩

section First

variable (h : Counted u) (hp : u.phase = .first)
include h hp

theorem first_line_end_counted (state : State) :
    Outcome Counted (AllCounted u.allocs) (first_line_end u p state) := by
  unfold first_line_end
  split <;> first
    | trivial
    | exact h.around (.inl hp) rfl rfl rfl (.inl hp)
    | exact h.around (.inl hp) rfl rfl rfl (.inr rfl)

theorem first_step_counted (next : State → Option State) :
    Outcome Counted (AllCounted u.allocs) (first_step u p next) := by
  unfold first_step
  split
  · exact h.around (.inl hp) rfl rfl rfl (.inl hp)
  · trivial

theorem first_turn_counted : Outcome Counted (AllCounted u.allocs) (first_turn mem u p ch) := by
  have hend : Outcome Counted (AllCounted u.allocs) (endofheader mem u p) :=
    endofpacket_counted (u := { u with state := u.saved_state }) (h.outside (.inl hp)) _
  unfold first_turn
  split
  all_goals first
    | exact first_step_counted h hp _
    | trivial
    | (split <;> first
        | trivial
        | exact hend
        | exact first_line_end_counted h hp _
        | exact h.around (.inl hp) rfl rfl rfl (.inl hp)
        | exact h.around (.inl hp) rfl rfl rfl (.inr rfl))

end First

section Param

/-- The parameter is added, and the loops of `parse_via_param` are left. -/
theorem behind_param_counted (h : objects u.bodies + u.vb.param_lst.length + 1 = u.allocs) :
    Outcome Counted (AllCounted u.allocs) (behind_param mem u p) := by
  have hadd : ∀ vb : ViaBody, vb.param_lst = u.vb.param_lst →
      objects u.bodies + (add_param vb u.param).param_lst.length = u.allocs := by
    intro vb hvb
    rw [add_param_length, hvb, ← h, add_assoc]
  unfold behind_param
  dsimp only
  split <;> first
    | trivial
    | exact Counted.of_outside (hadd _ rfl) (.inr rfl)
    | exact endofpacket_counted (hadd (fin_params u.vb u.param) rfl) _

variable (h : Counted u) (hp : u.phase = .param ∨ u.phase = .value)
include h hp

theorem endofparam_counted {u' : Vars} (hb : u'.bodies = u.bodies)
    (hl : u'.vb.param_lst = u.vb.param_lst) (ha : u'.allocs = u.allocs) :
    Outcome Counted (AllCounted u.allocs) (endofparam mem u' p) := by
  have hin := h.inside hp
  rw [← hb, ← hl, ← ha] at hin
  rw [← ha]
  exact behind_param_counted hin

variable (mem p) in
theorem end_via_counted : Outcome Counted (AllCounted u.allocs) (end_via mem u p) := by
  unfold end_via
  split_ifs
  · exact behind_param_counted (h.inside hp)
  · trivial

theorem value_line_end_counted (state : State) :
    Outcome Counted (AllCounted u.allocs) (value_line_end mem u p state) := by
  unfold value_line_end
  split <;> first
    | trivial
    | exact endofparam_counted h hp rfl rfl rfl
    | exact h.within hp rfl rfl rfl hp

theorem value_turn_counted : Outcome Counted (AllCounted u.allocs) (value_turn mem u p ch) := by
  have hend := end_via_counted mem p h hp
  have hno : ∀ state, Outcome Counted (AllCounted u.allocs) (no_value mem u p state) := by
    intro state
    unfold no_value
    split_ifs
    · exact endofparam_counted h hp rfl rfl rfl
    · trivial
  unfold value_turn
  split
  all_goals first
    | trivial
    | (split <;> first
        | trivial
        | exact hend
        | exact hno _
        | exact value_line_end_counted h hp _
        | exact endofparam_counted h hp rfl rfl rfl
        | exact h.within hp rfl rfl rfl hp)

theorem name_turn_counted : Outcome Counted (AllCounted u.allocs) (name_turn mem u p ch) := by
  have hname : ∀ first next, Outcome Counted (AllCounted u.allocs) (name_char mem u p first next) := by
    intro first next
    unfold name_char
    split <;> first
      | exact end_via_counted mem p h hp
      | exact h.within hp rfl rfl rfl hp
  unfold name_turn
  repeat' first
    | exact hname _ _
    | refine .ite (fun _ => ?_) fun _ => ?_

theorem param_line_end_counted (state : State) :
    Outcome Counted (AllCounted u.allocs) (param_line_end mem u p state) := by
  unfold param_line_end
  split <;> first
    | exact endofparam_counted h hp rfl rfl rfl
    | exact h.within hp rfl rfl rfl hp
    | exact h.within hp rfl rfl rfl (.inr rfl)

theorem param_turn_counted : Outcome Counted (AllCounted u.allocs) (param_turn mem u p ch) := by
  have hend := end_via_counted mem p h hp
  unfold param_turn
  split_ifs
  all_goals first
    | exact name_turn_counted h hp
    | (split <;> first
        | trivial
        | exact hend
        | exact param_line_end_counted h hp _
        | exact endofparam_counted h hp rfl rfl rfl
        | exact h.within hp rfl rfl rfl hp
        | exact h.within hp rfl rfl rfl (.inr rfl))

end Param

section Main

variable (h : Counted u) (hp : u.phase = .main)
include h hp

theorem start_param_counted (hs : u.state = .F_PARAM) (hc : main_char ch = .other) :
    Outcome Counted (AllCounted (u.allocs + (allocates mem avail u p ch).toNat))
      (start_param mem end_ avail u p ch) := by
  unfold start_param
  refine .ite (fun _ => trivial) fun ha => .ite (fun _ => trivial) fun _ => ?_
  have hall : allocates mem avail u p ch = true := by simp [allocates, hp, hs, hc, not_not.mp ha]
  rw [hall, Bool.toNat_true]
  refine param_turn_counted ⟨?_⟩ (Or.inl rfl)
  rw [if_pos (Or.inl rfl)]
  exact congrArg (· + 1) (h.outside (Or.inr hp))

theorem nextvia_counted (hs : u.state = .F_VIA) (hc : main_char ch = .other) :
    Outcome Counted (AllCounted (u.allocs + (allocates mem avail u p ch).toNat))
      (nextvia mem end_ avail u p ch) := by
  have hbody := fin_body_length mem u p (u.allocs + (allocates mem avail u p ch).toNat)
  unfold nextvia
  cases hf : fin_body mem u p with
  | error stop =>
    rw [hf] at hbody
    exact hbody
  | ok vb =>
    rw [hf] at hbody
    refine .ite (fun _ => trivial) fun ha => .ite (fun _ => trivial) fun _ => ?_
    have hall : allocates mem avail u p ch = true := by
      simp [allocates, hp, hs, hc, not_not.1 ha, hf, Except.isOk, Except.toBool]
    rw [hall, Bool.toNat_true]
    refine first_turn_counted (.of_outside ?_ (.inl rfl)) rfl
    show objects (u.bodies ++ [vb]) + 0 = u.allocs + 1
    rw [objects_append, hbody, h.outside (.inr hp)]

/-- The second loop of `parse_via`. -/
theorem main_turn_counted : Outcome Counted
    (AllCounted (u.allocs + (allocates mem avail u p ch).toNat)) (main_turn mem end_ avail u p ch) := by
  have hkeep : ∀ u' : Vars, u'.bodies = u.bodies → u'.vb.param_lst = u.vb.param_lst →
      u'.allocs = u.allocs → u'.phase = u.phase → Counted u' := fun u' hb hl ha hp' =>
    h.around (.inr hp) hb hl ha (.inr (hp'.trans hp))
  have hpacket : ∀ state, allocates mem avail u p ch = false → Outcome Counted
      (AllCounted (u.allocs + (allocates mem avail u p ch).toNat))
      (endofpacket mem { u with state := state } p) := by
    intro state ha
    rw [ha, Bool.toNat_false, add_zero]
    exact endofpacket_counted (u := { u with state := state }) (h.outside (.inr hp)) _
  have hline : ∀ state, Outcome Counted
      (AllCounted (u.allocs + (allocates mem avail u p ch).toNat)) (main_line_end u p state) := by
    intro state
    unfold main_line_end
    split <;> first
      | trivial
      | exact hkeep _ rfl rfl rfl rfl
  unfold main_turn
  cases hc : main_char ch with
  | other =>
    dsimp only
    cases hs : u.state <;> first
      | trivial
      | exact start_param_counted h hp hs hc
      | exact nextvia_counted h hp hs hc
      | exact hkeep _ rfl rfl rfl rfl
      | exact hpacket _ (by simp [allocates, hs])
  | _ =>
    have ha : allocates mem avail u p ch = false := by simp [allocates, hc]
    dsimp only
    first
      | exact hpacket u.state ha
      | (split <;> first
          | trivial
          | exact hkeep _ rfl rfl rfl rfl
          | exact hpacket u.saved_state ha
          | exact hline _
          | (refine .ite (fun _ => trivial) fun _ => .ite (fun _ => ?_) fun _ => ?_
             · exact hkeep _ rfl rfl rfl rfl
             · exact hkeep _ rfl rfl rfl rfl))

end Main

variable (mem p end_ ch avail) in
/-- **One character.** -/
theorem turn_counted (h : Counted u) : Outcome Counted
    (AllCounted (u.allocs + (allocates mem avail u p ch).toNat)) (turn mem end_ avail u p ch) := by
  have ha : u.phase ≠ .main → allocates mem avail u p ch = false := fun hp => by simp [allocates, hp]
  unfold turn
  split <;> rename_i hp
  · rw [ha (by rw [hp]; decide), Bool.toNat_false, add_zero]
    exact .ite (fun _ => trivial) fun _ => first_turn_counted h hp
  · exact main_turn_counted h hp
  · rw [ha (by rw [hp]; decide), Bool.toNat_false, add_zero]
    exact .ite (fun _ => trivial) fun _ => param_turn_counted h (.inl hp)
  · rw [ha (by rw [hp]; decide), Bool.toNat_false, add_zero]
    exact value_turn_counted h (.inr hp)

theorem frees_pos (h : Counted u) (hf : frees mem end_ avail u p ch = true) :
    0 < u.allocs + (allocates mem avail u p ch).toNat := by
  unfold frees at hf
  split at hf <;> rename_i hp
  · cases hf
  · rw [(Bool.and_eq_true_iff.1 hf).2]
    exact Nat.succ_pos _
  · have := h.inside (.inl hp)
    omega
  · have := h.inside (.inr hp)
    omega

variable (mem p end_ avail) in
/-- **Where the header ends, all objects are in the lists of the bodies; where it is refused, the first
body is not freed.** -/
theorem scan_counted (cs : List UInt8) (h : Counted u) :
    (∀ bodies tmp, scan (turn mem end_ avail) u p cs = .error (.accepted bodies tmp) →
      objects bodies = (ledger mem end_ avail u p cs).1 + 1) ∧
    0 ∉ (ledger mem end_ avail u p cs).2 := by
  induction cs generalizing u p with
  | nil =>
    refine ⟨fun bodies tmp e => (by cases e), ?_⟩
    rw [ledger]
    split_ifs with hp
    · have := h.inside (.inl hp)
      rw [mem_singleton]
      omega
    · exact not_mem_nil
  | cons ch cs ih =>
    have ht := turn_counted mem p end_ ch avail h
    have hscan : scan (turn mem end_ avail) u p (ch :: cs) =
      turn mem end_ avail u p ch >>= fun s' => scan (turn mem end_ avail) s' (p + 1) cs := rfl
    rw [hscan, ledger]
    cases hr : turn mem end_ avail u p ch with
    | ok u' =>
      rw [hr] at ht
      exact ih _ ht
    | error stop =>
      rw [hr] at ht
      cases stop with
      | accepted bodies tmp =>
        refine ⟨fun bodies' tmp' e => ?_, not_mem_nil⟩
        cases e
        exact ht
      | parse_error tmp =>
        refine ⟨fun bodies' tmp' e => (by cases e), ?_⟩
        split_ifs with hf
        · have := frees_pos h hf
          rw [mem_singleton]
          omega
        · exact not_mem_nil

/-- **The objects of `parse_via`.** -/
theorem parse_via_counted (mem : Str) (avail : ℕ → Bool) (buffer end_ : ℕ) :
    (∀ bodies tmp, parse_via mem avail buffer end_ = some (.accepted bodies tmp) →
      objects bodies = (ledger mem end_ avail (start buffer) buffer (mem.drop buffer)).1 + 1) ∧
    0 ∉ (ledger mem end_ avail (start buffer) buffer (mem.drop buffer)).2 := by
  have hscan := scan_counted mem buffer end_ avail (mem.drop buffer) (show Counted (start buffer) from ⟨rfl⟩)
  refine ⟨fun bodies tmp e => hscan.1 bodies tmp ?_, hscan.2⟩
  unfold parse_via at e
  cases hs : scan (turn mem end_ avail) (start buffer) buffer (mem.drop buffer) with
  | error stop =>
    rw [hs] at e
    rw [Option.some.inj e]
  | ok u =>
    rw [hs] at e
    dsimp only at e
    split at e <;> first
      | cases e
      | (split_ifs at e; cases e)

end Turns

end OpenSips.Via
