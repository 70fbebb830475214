import OpenSips.Via.Model

/-!
# OpenSips.Via.Values — what `parse_via` records as values

The value of a parameter is empty, or a text without special characters, or stands behind a quote
and has no quote in it.
-/

namespace OpenSips.Via

open Lib List

/-- A value recorded in front of `p`, of a header that starts at `b0`. -/
def Slice.Read (mem : Str) (b0 p : ℕ) (v : Slice) : Prop :=
  v.len = some 0 ∨ ∃ s len, v = ⟨some s, some len⟩ ∧ b0 ≤ s ∧ s + len ≤ p ∧
    ((∀ i, s ≤ i → i < s + len → ∃ c, mem[i]? = some c ∧ value_char c = .other) ∨
      (b0 < s ∧ mem[s - 1]? = some (chr '"') ∧
        ∀ i, s ≤ i → i < s + len → ∃ c, mem[i]? = some c ∧ value_char c ≠ .quote ∧ value_char c ≠ .nul))

/-- A body whose values were all recorded in front of `p`. -/
structure ViaBody.Read (mem : Str) (b0 p : ℕ) (vb : ViaBody) : Prop where
  params : ∀ x ∈ vb.param_lst, x.value.Read mem b0 p
  branch : ∀ x, vb.branch = some x → x ∈ vb.param_lst

def Unquoted (mem : Str) (b0 p : ℕ) (v : Slice) : Prop :=
  ∃ s, v = ⟨some s, some 0⟩ ∧ b0 ≤ s ∧ s < p ∧
    ∀ i, s ≤ i → i < p → ∃ c, mem[i]? = some c ∧ value_char c = .other

def Quoted (mem : Str) (b0 p : ℕ) (v : Slice) : Prop :=
  ∃ s, v = ⟨some s, some 0⟩ ∧ b0 < s ∧ s ≤ p ∧ mem[s - 1]? = some (chr '"') ∧
    ∀ i, s ≤ i → i < p → ∃ c, mem[i]? = some c ∧ value_char c ≠ .quote ∧ value_char c ≠ .nul

def InValue (mem : Str) (b0 p : ℕ) (u : Vars) : Prop :=
  match u.state with
  | .L_VALUE | .F_VALUE => u.param.value = .zero
  | .P_VALUE => Unquoted mem b0 p u.param.value
  | .P_STRING => Quoted mem b0 p u.param.value
  | .F_LF | .F_CR | .F_CRLF =>
    match u.saved_state with
    | .L_VALUE | .F_VALUE => u.param.value = .zero
    | .P_STRING => Quoted mem b0 p u.param.value
    | _ => False
  | _ => False

/-- **The invariant of the values**, at position `p`. -/
structure Values (mem : Str) (b0 p : ℕ) (u : Vars) : Prop where
  start : b0 ≤ p
  vb : u.vb.Read mem b0 p
  bodies : ∀ vb ∈ u.bodies, vb.Read mem b0 p
  param : u.phase = .param → u.param.value = .zero
  value : u.phase = .value → InValue mem b0 p u

def AllRead (mem : Str) (b0 p : ℕ) : Stop → Prop
  | .accepted bodies t => t = p ∧ ∀ vb ∈ bodies, vb.Read mem b0 p
  | .parse_error _ => True

section Read

variable {mem : Str} {b0 p p' : ℕ} {v : Slice} {vb vb' : ViaBody} {u u' : Vars} {x : ViaParam}
  {ch : UInt8}

theorem Slice.Read.mono (h : v.Read mem b0 p) (hp : p ≤ p') : v.Read mem b0 p' := by
  rcases h with h | ⟨s, len, hv, hb, hl, h⟩
  · exact .inl h
  · exact .inr ⟨s, len, hv, hb, le_trans hl hp, h⟩

theorem ViaBody.Read.mono (h : vb.Read mem b0 p) (hp : p ≤ p') : vb.Read mem b0 p' :=
  ⟨fun x hx => (h.params x hx).mono hp, h.branch⟩

theorem ViaBody.read_zero : ViaBody.zero.Read mem b0 p :=
  ⟨fun _ hx => absurd hx not_mem_nil, fun _ hx => absurd hx.symm (Option.some_ne_none _)⟩

theorem ViaBody.Read.congr (h : vb.Read mem b0 p) (hl : vb'.param_lst = vb.param_lst)
    (hb : vb'.branch = vb.branch) : vb'.Read mem b0 p :=
  ⟨by rw [hl]; exact h.params, by rw [hl, hb]; exact h.branch⟩

theorem Slice.read_zero : Slice.zero.Read mem b0 p := .inl rfl

theorem Slice.read_of_len_zero {s : Option ℕ} : (Slice.mk s (some 0)).Read mem b0 p := .inl rfl

theorem Unquoted.read (h : Unquoted mem b0 p v) : (v.upto p).Read mem b0 p := by
  obtain ⟨s, rfl, hb, hs, h⟩ := h
  refine .inr ⟨s, p - s, rfl, hb, by omega, .inl fun i hi hlt => h i hi (by omega)⟩

theorem Quoted.read (h : Quoted mem b0 p v) : (v.upto p).Read mem b0 p := by
  obtain ⟨s, rfl, hb, hs, hq, h⟩ := h
  exact .inr ⟨s, p - s, rfl, by omega, by omega, .inr ⟨hb, hq, fun i hi hlt => h i hi (by omega)⟩⟩

theorem Unquoted.next (h : Unquoted mem b0 p v) (hch : mem[p]? = some ch)
    (hc : value_char ch = .other) : Unquoted mem b0 (p + 1) v := by
  obtain ⟨s, rfl, hb, hs, h⟩ := h
  refine ⟨s, rfl, hb, by omega, fun i hi hlt => ?_⟩
  by_cases hip : i = p
  · subst hip
    exact ⟨ch, hch, hc⟩
  · exact h i hi (by omega)

theorem Quoted.next (h : Quoted mem b0 p v) (hch : mem[p]? = some ch)
    (hc : value_char ch ≠ .quote ∧ value_char ch ≠ .nul) : Quoted mem b0 (p + 1) v := by
  obtain ⟨s, rfl, hb, hs, hq, h⟩ := h
  refine ⟨s, rfl, hb, by omega, hq, fun i hi hlt => ?_⟩
  by_cases hip : i = p
  · subst hip
    exact ⟨ch, hch, hc⟩
  · exact h i hi (by omega)

theorem InValue.read (h : InValue mem b0 p u) : ∃ s, u.param.value = ⟨s, some 0⟩ := by
  unfold InValue at h
  split at h
  · exact ⟨none, h⟩
  · exact ⟨none, h⟩
  · obtain ⟨s, hv, -⟩ := h
    exact ⟨some s, hv⟩
  · obtain ⟨s, hv, -⟩ := h
    exact ⟨some s, hv⟩
  all_goals first
    | exact h.elim
    | (split at h
       · exact ⟨none, h⟩
       · exact ⟨none, h⟩
       · obtain ⟨s, hv, -⟩ := h
         exact ⟨some s, hv⟩
       · exact h.elim)

end Read

section Turns

variable {mem : Str} {b0 p : ℕ} {u : Vars} {x : ViaParam} {vb : ViaBody} {ch : UInt8}
  {end_ : ℕ} {avail : ℕ → Bool}

/-- `fin_body` keeps the parameters. -/
theorem fin_body_read (h : u.vb.Read mem b0 p) :
    Outcome (fun vb => vb.Read mem b0 p) (AllRead mem b0 p) (fin_body mem u p) := by
  unfold fin_body
  dsimp only
  split_ifs
  · split
    · exact h.congr rfl rfl
    · trivial
  · exact h.congr rfl rfl

theorem endofpacket_read (h : u.vb.Read mem b0 p) (hb : ∀ vb ∈ u.bodies, vb.Read mem b0 p)
    (I : Vars → Prop) : Outcome I (AllRead mem b0 p) (endofpacket mem u p) := by
  unfold endofpacket
  split <;> first
    | trivial
    | (refine (fin_body_read h).bind fun vb hvb => ⟨rfl, fun vb' hvb' => ?_⟩
       rcases mem_append.1 hvb' with hvb' | hvb'
       · exact hb vb' hvb'
       · rwa [mem_singleton.1 hvb'])

theorem endofheader_read (h : u.vb.Read mem b0 p) (hb : ∀ vb ∈ u.bodies, vb.Read mem b0 p)
    (I : Vars → Prop) : Outcome I (AllRead mem b0 p) (endofheader mem u p) :=
  endofpacket_read (u := { u with state := u.saved_state }) h hb I

theorem add_param_read (h : vb.Read mem b0 p) (hx : x.value.Read mem b0 p) :
    (add_param vb x).Read mem b0 p := by
  have hbody : ViaBody.Read mem b0 p { vb with param_lst := vb.param_lst ++ [x] } := by
    refine ⟨fun y hy => ?_, fun y hy => mem_append.2 (.inl (h.branch y hy))⟩
    rcases mem_append.1 hy with hy | hy
    · exact h.params y hy
    · rwa [mem_singleton.1 hy]
  unfold add_param shortcut
  split
  · refine ⟨hbody.params, fun y hy => ?_⟩
    cases hy
    exact mem_append.2 (.inr (mem_singleton.2 rfl))
  all_goals exact hbody.congr rfl rfl

/-- **A parameter is recorded.** -/
theorem behind_param_read (h0 : b0 ≤ p) (h : u.vb.Read mem b0 p)
    (hb : ∀ vb ∈ u.bodies, vb.Read mem b0 p) (hx : u.param.value.Read mem b0 p) :
    Outcome (Values mem b0 (p + 1)) (AllRead mem b0 p) (behind_param mem u p) := by
  have hadd := add_param_read h hx
  have hvb : (fin_params u.vb u.param).Read mem b0 p := h.congr rfl rfl
  have hfin := add_param_read hvb hx
  have key : ∀ u' : Vars, u'.phase = .main → u'.vb.Read mem b0 p → u'.bodies = u.bodies →
      Values mem b0 (p + 1) u' := by
    intro u' h1 h2 h3
    refine ⟨Nat.le_succ_of_le h0, h2.mono (Nat.le_succ p), ?_, ?_, ?_⟩
    · rw [h3]
      exact fun vb hvb => (hb vb hvb).mono (Nat.le_succ p)
    · intro h4
      rw [h1] at h4
      cases h4
    · intro h4
      rw [h1] at h4
      cases h4
  unfold behind_param
  dsimp only
  split <;> first
    | trivial
    | exact Outcome.ok (key _ rfl hadd rfl)
    | exact Outcome.ok (key _ rfl hfin rfl)
    | (apply endofheader_read; exacts [hfin, hb])

theorem endofparam_read (h0 : b0 ≤ p) (h : u.vb.Read mem b0 p)
    (hb : ∀ vb ∈ u.bodies, vb.Read mem b0 p) (hx : u.param.value.Read mem b0 p) :
    Outcome (Values mem b0 (p + 1)) (AllRead mem b0 p) (endofparam mem u p) :=
  behind_param_read (u := { u with param := { u.param with size := p - u.param.start } }) h0 h hb hx

theorem end_via_read (h0 : b0 ≤ p) (h : u.vb.Read mem b0 p)
    (hb : ∀ vb ∈ u.bodies, vb.Read mem b0 p) (hx : u.param.value.Read mem b0 p) :
    Outcome (Values mem b0 (p + 1)) (AllRead mem b0 p) (end_via mem u p) := by
  unfold end_via
  split_ifs
  · exact behind_param_read (u := { u with state := .END_OF_HEADER, saved_state := .L_PARAM }) h0 h hb
      hx
  · trivial

section

variable (h : Values mem b0 p u)
include h

theorem Values.keep {u' : Vars} (hvb : u'.vb.param_lst = u.vb.param_lst)
    (hbr : u'.vb.branch = u.vb.branch) (hb : u'.bodies = u.bodies)
    (hp : u'.phase = .first ∨ u'.phase = .main) : Values mem b0 (p + 1) u' := by
  refine ⟨Nat.le_succ_of_le h.start, (h.vb.congr hvb hbr).mono (Nat.le_succ p), ?_, ?_, ?_⟩
  · rw [hb]
    exact fun vb hvb => (h.bodies vb hvb).mono (Nat.le_succ p)
  · intro hph
    rcases hp with hp | hp <;> rw [hp] at hph <;> cases hph
  · intro hph
    rcases hp with hp | hp <;> rw [hp] at hph <;> cases hph

theorem first_step_values (hp : u.phase = .first) (next : State → Option State) :
    Outcome (Values mem b0 (p + 1)) (AllRead mem b0 p) (first_step u p next) := by
  unfold first_step
  split
  · exact h.keep rfl rfl rfl (.inl hp)
  · trivial

theorem first_line_end_values (hp : u.phase = .first) (state : State) :
    Outcome (Values mem b0 (p + 1)) (AllRead mem b0 p) (first_line_end u p state) := by
  unfold first_line_end
  split <;> first
    | trivial
    | exact h.keep rfl rfl rfl (.inl hp)
    | exact h.keep rfl rfl rfl (.inr rfl)

theorem first_turn_values (hp : u.phase = .first) :
    Outcome (Values mem b0 (p + 1)) (AllRead mem b0 p) (first_turn mem u p ch) := by
  unfold first_turn
  split <;> first
    | trivial
    | exact first_step_values h hp _
    | (split <;> first
        | trivial
        | exact h.keep rfl rfl rfl (.inl hp)
        | exact h.keep rfl rfl rfl (.inr rfl)
        | exact endofheader_read h.vb h.bodies _
        | exact first_line_end_values h hp _)

/-- The first loop of `parse_via_param` goes on. -/
theorem Values.stay (hp : u.phase = .param) {u' : Vars}
    (hvb : u'.vb = u.vb) (hb : u'.bodies = u.bodies) (hp' : u'.phase = .param)
    (hv : u'.param.value = u.param.value) : Values mem b0 (p + 1) u' := by
  refine ⟨Nat.le_succ_of_le h.start, hvb ▸ h.vb.mono (Nat.le_succ p), ?_, fun _ => hv.trans (h.param hp), ?_⟩
  · rw [hb]
    exact fun vb hvb => (h.bodies vb hvb).mono (Nat.le_succ p)
  · intro h5
    rw [hp'] at h5
    cases h5

theorem name_char_values (hp : u.phase = .param) (first : State) (next : State → State) :
    Outcome (Values mem b0 (p + 1)) (AllRead mem b0 p) (name_char mem u p first next) := by
  have hz := h.param hp
  unfold name_char
  split <;> first
    | exact Outcome.ok (h.stay hp rfl rfl hp rfl)
    | exact end_via_read h.start h.vb h.bodies (hz ▸ Slice.read_zero)

theorem name_turn_values (hp : u.phase = .param) :
    Outcome (Values mem b0 (p + 1)) (AllRead mem b0 p) (name_turn mem u p ch) := by
  unfold name_turn
  repeat' first
    | exact name_char_values h hp _ _
    | refine Outcome.ite (fun _ => ?_) (fun _ => ?_)

theorem Values.find (hz : u.param.value = .zero) {u' : Vars}
    (hvb : u'.vb = u.vb) (hb : u'.bodies = u.bodies) (hv : u'.param.value = u.param.value)
    (hp : u'.phase = .value) (hs : u'.state = .L_VALUE ∨ u'.state = .F_VALUE ∨
      (u'.state = .F_LF ∨ u'.state = .F_CR) ∧ u'.saved_state = .L_VALUE) :
    Values mem b0 (p + 1) u' := by
  refine ⟨Nat.le_succ_of_le h.start, hvb ▸ h.vb.mono (Nat.le_succ p), ?_, ?_, fun _ => ?_⟩
  · rw [hb]
    exact fun vb hvb => (h.bodies vb hvb).mono (Nat.le_succ p)
  · intro h5
    rw [hp] at h5
    cases h5
  · rcases hs with hs | hs | ⟨hs | hs, hss⟩
    · rw [InValue, hs]
      exact hv.trans hz
    · rw [InValue, hs]
      exact hv.trans hz
    · rw [InValue, hs, hss]
      exact hv.trans hz
    · rw [InValue, hs, hss]
      exact hv.trans hz

theorem param_line_end_values (hp : u.phase = .param) {state : State} (hs : state = .F_LF ∨ state = .F_CR) :
    Outcome (Values mem b0 (p + 1)) (AllRead mem b0 p) (param_line_end mem u p state) := by
  have hz := h.param hp
  have hread : u.param.value.Read mem b0 p := hz ▸ Slice.read_zero
  unfold param_line_end
  split
  · exact endofparam_read h.start h.vb h.bodies hread
  · exact endofparam_read h.start h.vb h.bodies hread
  all_goals first
    | exact Outcome.ok (h.find hz rfl rfl rfl rfl (.inr (.inr ⟨hs, rfl⟩)))
    | exact Outcome.ok (h.stay hp rfl rfl hp rfl)

theorem param_turn_values (hp : u.phase = .param) :
    Outcome (Values mem b0 (p + 1)) (AllRead mem b0 p) (param_turn mem u p ch) := by
  have hz := h.param hp
  have hread : u.param.value.Read mem b0 p := hz ▸ Slice.read_zero
  unfold param_turn
  split_ifs <;> first
    | exact name_turn_values h hp
    | (split <;> first
        | trivial
        | exact endofparam_read h.start h.vb h.bodies hread
        | exact end_via_read h.start h.vb h.bodies hread
        | exact param_line_end_values h hp (.inl rfl)
        | exact param_line_end_values h hp (.inr rfl)
        | exact Outcome.ok (h.find hz rfl rfl rfl rfl (.inl rfl))
        | exact Outcome.ok (h.find hz rfl rfl rfl rfl (.inr (.inl rfl)))
        | exact Outcome.ok (h.stay hp rfl rfl hp rfl))

theorem Values.inside {u' : Vars} (hvb : u'.vb = u.vb)
    (hb : u'.bodies = u.bodies) (hp : u'.phase = .value) (hv : InValue mem b0 (p + 1) u') :
    Values mem b0 (p + 1) u' := by
  refine ⟨Nat.le_succ_of_le h.start, hvb ▸ h.vb.mono (Nat.le_succ p), ?_, ?_, fun _ => hv⟩
  · rw [hb]
    exact fun vb hvb => (h.bodies vb hvb).mono (Nat.le_succ p)
  · intro h5
    rw [hp] at h5
    cases h5

end

theorem InValue.read_value (h : InValue mem b0 p u) : u.param.value.Read mem b0 p := by
  obtain ⟨s, hs⟩ := h.read
  rw [hs]
  exact Slice.read_of_len_zero

theorem value_line_end_values (h : Values mem b0 p u) (hp : u.phase = .value)
    (hch : mem[p]? = some ch) (hc : value_char ch ≠ .quote ∧ value_char ch ≠ .nul) {state : State}
    (hs : state = .F_LF ∨ state = .F_CR) :
    Outcome (Values mem b0 (p + 1)) (AllRead mem b0 p) (value_line_end mem u p state) := by
  have hv := h.value hp
  unfold value_line_end
  split <;> rename_i hst <;> first | trivial | rw [InValue, hst] at hv
  · refine Outcome.ok (h.inside rfl rfl hp ?_)
    rcases hs with rfl | rfl <;> rw [InValue] <;> dsimp only [sized] <;> rw [hst] <;> exact hv
  · refine Outcome.ok (h.inside rfl rfl hp ?_)
    rcases hs with rfl | rfl <;> rw [InValue] <;> dsimp only [sized] <;> rw [hst] <;> exact hv
  · refine Outcome.ok (h.inside rfl rfl hp ?_)
    rcases hs with rfl | rfl <;> rw [InValue] <;> dsimp only [sized] <;> rw [hst] <;>
      exact hv.next hch hc
  · exact endofparam_read h.start h.vb h.bodies hv.read

theorem no_value_values (h : Values mem b0 p u) (state : State) :
    Outcome (Values mem b0 (p + 1)) (AllRead mem b0 p) (no_value mem u p state) := by
  unfold no_value
  split_ifs
  · exact endofparam_read h.start h.vb h.bodies Slice.read_zero
  · trivial

theorem InValue.unfold (h : InValue mem b0 p u) (hch : mem[p]? = some ch)
    (hc : value_char ch ≠ .quote ∧ value_char ch ≠ .nul)
    (hs : u.state = .F_CR ∨ u.state = .F_LF ∨ u.state = .F_CRLF) :
    InValue mem b0 (p + 1) { u with state := u.saved_state } := by
  have key : (match u.saved_state with
    | .L_VALUE | .F_VALUE => u.param.value = .zero
    | .P_STRING => Quoted mem b0 p u.param.value
    | _ => False) := by
    rcases hs with hs | hs | hs <;> rw [InValue, hs] at h <;> exact h
  rw [InValue]
  cases hsv : u.saved_state <;> rw [hsv] at key <;> first
    | exact key.elim
    | exact key
    | exact Quoted.next key hch hc

theorem InValue.crlf (h : InValue mem b0 p u) (hch : mem[p]? = some ch)
    (hc : value_char ch ≠ .quote ∧ value_char ch ≠ .nul) (hs : u.state = .F_CR) :
    InValue mem b0 (p + 1) { u with state := .F_CRLF } := by
  rw [InValue, hs] at h
  rw [InValue]
  dsimp only at h ⊢
  cases hsv : u.saved_state <;> rw [hsv] at h <;> first
    | exact h.elim
    | exact h
    | exact Quoted.next h hch hc

section

variable (h : Values mem b0 p u)
include h

theorem value_turn_values (hp : u.phase = .value) (hch : mem[p]? = some ch) :
    Outcome (Values mem b0 (p + 1)) (AllRead mem b0 p) (value_turn mem u p ch) := by
  have hv := h.value hp
  have hread := hv.read_value
  have hend := end_via_read h.start h.vb h.bodies hread
  unfold value_turn
  cases hc : value_char ch with
  | nul => trivial
  | blank =>
    have hc' : value_char ch ≠ .quote ∧ value_char ch ≠ .nul := by rw [hc]; decide
    dsimp only
    split <;> rename_i hst
    · rw [InValue, hst] at hv
      exact Outcome.ok (h.inside rfl rfl hp (by rw [InValue, hst]; exact hv))
    · rw [InValue, hst] at hv
      exact Outcome.ok (h.inside rfl rfl hp (by rw [InValue, hst]; exact hv))
    · rw [InValue, hst] at hv
      exact Outcome.ok (h.inside rfl rfl hp (by rw [InValue, hst]; exact hv.next hch hc'))
    · rw [InValue, hst] at hv
      exact endofparam_read h.start h.vb h.bodies hv.read
    · exact Outcome.ok (h.inside rfl rfl hp (hv.unfold hch hc' (.inl hst)))
    · exact Outcome.ok (h.inside rfl rfl hp (hv.unfold hch hc' (.inr (.inl hst))))
    · exact Outcome.ok (h.inside rfl rfl hp (hv.unfold hch hc' (.inr (.inr hst))))
    · trivial
  | nl =>
    have hc' : value_char ch ≠ .quote ∧ value_char ch ≠ .nul := by rw [hc]; decide
    dsimp only
    split <;> rename_i hst
    · exact hend
    · exact hend
    · exact Outcome.ok (h.inside rfl rfl hp (hv.crlf hch hc' hst))
    · exact value_line_end_values h hp hch hc' (.inl rfl)
  | cr =>
    have hc' : value_char ch ≠ .quote ∧ value_char ch ≠ .nul := by rw [hc]; decide
    dsimp only
    split
    · exact hend
    · exact hend
    · exact hend
    · exact value_line_end_values h hp hch hc' (.inr rfl)
  | equal =>
    have hc' : value_char ch ≠ .quote ∧ value_char ch ≠ .nul := by rw [hc]; decide
    dsimp only
    split <;> rename_i hst <;> first | exact hend | trivial | rw [InValue, hst] at hv
    · exact Outcome.ok (h.inside rfl rfl hp hv)
    · exact Outcome.ok (h.inside rfl rfl hp (by rw [InValue, hst]; exact hv.next hch hc'))
  | semicolon =>
    have hc' : value_char ch ≠ .quote ∧ value_char ch ≠ .nul := by rw [hc]; decide
    dsimp only
    split <;> rename_i hst <;> first
      | exact hend
      | trivial
      | exact no_value_values h _
      | rw [InValue, hst] at hv
    · exact endofparam_read h.start h.vb h.bodies hv.read
    · exact endofparam_read h.start h.vb h.bodies Slice.read_of_len_zero
    · exact Outcome.ok (h.inside rfl rfl hp (by rw [InValue, hst]; exact hv.next hch hc'))
  | comma =>
    dsimp only
    split <;> rename_i hst <;> first
      | exact hend
      | trivial
      | exact no_value_values h _
      | rw [InValue, hst] at hv
    exact endofparam_read h.start h.vb h.bodies hv.read
  | quote =>
    have hq : ch = chr '"' := by
      unfold value_char at hc
      split_ifs at hc with h1 h2 h3 h4 h5 h6 h7 h8
      exact h8
    dsimp only
    split <;> rename_i hst <;> first | exact hend | trivial | rw [InValue, hst] at hv
    · refine Outcome.ok (h.inside rfl rfl hp ?_)
      refine ⟨p + 1, ?_, Nat.lt_succ_of_le h.start, le_rfl, ?_, fun i hi hlt => by omega⟩
      · show Slice.at u.param.value (p + 1) = _
        rw [hv]
        rfl
      · rw [Nat.add_sub_cancel, hch, hq]
    · exact endofparam_read h.start h.vb h.bodies hv.read
  | other =>
    have hc' : value_char ch ≠ .quote ∧ value_char ch ≠ .nul := by rw [hc]; decide
    dsimp only
    split <;> rename_i hst <;> first | exact hend | trivial | rw [InValue, hst] at hv
    · refine Outcome.ok (h.inside rfl rfl hp ?_)
      refine ⟨p, ?_, h.start, Nat.lt_succ_self p, fun i hi hlt => ?_⟩
      · show Slice.at u.param.value p = _
        rw [hv]
        rfl
      · obtain rfl : i = p := by omega
        exact ⟨ch, hch, hc⟩
    · exact Outcome.ok (h.inside rfl rfl hp (by rw [InValue, hst]; exact hv.next hch hc))
    · exact Outcome.ok (h.inside rfl rfl hp (by rw [InValue, hst]; exact hv.next hch hc'))

theorem main_line_end_values (hp : u.phase = .main) (state : State) :
    Outcome (Values mem b0 (p + 1)) (AllRead mem b0 p) (main_line_end u p state) := by
  unfold main_line_end
  split <;> first
    | trivial
    | exact h.keep rfl rfl rfl (.inr hp)

theorem start_param_values :
    Outcome (Values mem b0 (p + 1)) (AllRead mem b0 p) (start_param mem end_ avail u p ch) := by
  unfold start_param
  refine Outcome.ite (fun _ => trivial) fun _ => Outcome.ite (fun _ => trivial) fun _ => ?_
  refine param_turn_values ⟨h.start, h.vb.congr rfl rfl, h.bodies, fun _ => rfl, fun h5 => ?_⟩ rfl
  cases h5

theorem nextvia_values :
    Outcome (Values mem b0 (p + 1)) (AllRead mem b0 p) (nextvia mem end_ avail u p ch) := by
  unfold nextvia
  refine (fin_body_read h.vb).bind fun vb hvb => ?_
  refine Outcome.ite (fun _ => trivial) fun _ => Outcome.ite (fun _ => trivial) fun _ => ?_
  refine first_turn_values ⟨h.start, ViaBody.read_zero, fun vb' hvb' => ?_, fun h5 => ?_, fun h5 => ?_⟩ rfl
  · rcases mem_append.1 hvb' with hvb' | hvb'
    · exact h.bodies vb' hvb'
    · rwa [mem_singleton.1 hvb']
  · cases h5
  · cases h5

theorem main_turn_values (hp : u.phase = .main) :
    Outcome (Values mem b0 (p + 1)) (AllRead mem b0 p) (main_turn mem end_ avail u p ch) := by
  unfold main_turn
  cases main_char ch <;> dsimp only
  · exact endofpacket_read h.vb h.bodies _
  all_goals
    split <;> first
      | trivial
      | exact h.keep rfl rfl rfl (.inr hp)
      | exact endofheader_read h.vb h.bodies _
      | exact main_line_end_values h hp _
      | exact start_param_values h
      | exact nextvia_values h
      | (refine Outcome.ite (fun _ => trivial) fun _ => Outcome.ite (fun _ => ?_) fun _ => ?_
         · exact h.keep rfl rfl rfl (.inr hp)
         · exact h.keep rfl rfl rfl (.inr hp))

/-- **One character keeps the values.** -/
theorem turn_values (hch : mem[p]? = some ch) :
    Outcome (Values mem b0 (p + 1)) (AllRead mem b0 p) (turn mem end_ avail u p ch) := by
  unfold turn
  split <;> rename_i hp
  · exact Outcome.ite (fun _ => trivial) fun _ => first_turn_values h hp
  · exact main_turn_values h hp
  · exact Outcome.ite (fun _ => trivial) fun _ => param_turn_values h hp
  · exact value_turn_values h hp hch

end

/-- **The values of an accepted header.** -/
theorem parse_via_read {bodies : List ViaBody} {tmp : ℕ} (hb0 : b0 ≤ mem.length)
    (e : parse_via mem avail b0 end_ = some (.accepted bodies tmp)) :
    ∀ vb ∈ bodies, vb.Read mem b0 tmp := by
  refine parse_via_rule (I := fun p u => Values mem b0 p u)
    (Q := fun bodies tmp => ∀ vb ∈ bodies, vb.Read mem b0 tmp) (fun p u ch hch h => ?_) ?_ hb0 e
  · refine (turn_values h hch).imp (fun _ h => h) fun stop hstop bodies tmp hs => ?_
    subst hs
    obtain ⟨rfl, hall⟩ := hstop
    exact hall
  · refine ⟨le_rfl, ViaBody.read_zero, fun vb hvb => ?_, fun h => ?_, fun h => ?_⟩
    · exact absurd hvb not_mem_nil
    · cases h
    · cases h

end Turns

end OpenSips.Via
