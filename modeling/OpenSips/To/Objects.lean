import OpenSips.To.Model

/-!
# OpenSips.To.Objects — the parameters that `parse_to` allocates

The parameters allocated are those in the list and the one under construction.  `parse_to_param` frees
them all for a character it does not expect; at the end of the header it forgets the last one, or all.
-/

namespace OpenSips.To

open Lib Via List Option

variable {n : ℕ} {u : Vars} {x : ToParam} {p : ℕ}

/-- The parameters allocated from `n` on: the ones in the list, and the one under construction. -/
structure Params (n : ℕ) (u : Vars) : Prop where
  ok : u.to_b.error = false
  freed : u.freed = []
  le : n ≤ u.allocs
  objs : u.to_b.param_lst.map ToParam.addr ++ (u.param.map ToParam.addr).toList =
    List.range' n (u.allocs - n)

/-- The loop of `parse_to`: there are none. -/
structure InMain (n : ℕ) (u : Vars) : Prop where
  phase : u.phase = .to
  ok : u.to_b.error = false
  freed : u.freed = []
  none : u.param = none
  nil : u.to_b.param_lst = []
  allocs : u.allocs = n

/-- The state that the loop of `parse_to_param` is in or comes back to. -/
def Vars.place (u : Vars) : State :=
  match u.status with
  | .F_CR | .F_LF | .F_CRLF => u.saved_status
  | s => s

/-- The states of `parse_to_param`. -/
def State.of_param : State → Bool
  | .S_PARA_NAME | .PARA_NAME | .S_EQUAL | .S_PARA_VALUE | .TAG1 | .TAG2 | .TAG3
  | .PARA_VALUE_TOKEN | .PARA_VALUE_QUOTED | .E_PARA_VALUE => true
  | _ => false

def State.at_line_end : State → Bool
  | .S_PARA_NAME | .S_EQUAL | .S_PARA_VALUE | .E_PARA_VALUE => true
  | _ => false

/-- The loop of `parse_to_param`: outside of `E_PARA_VALUE` a parameter is under construction. -/
structure InParam (n : ℕ) (u : Vars) : Prop where
  phase : u.phase = .param
  skip : u.skip = false
  params : Params n u
  place : u.place.of_param = true
  saved : u.saved_status.at_line_end = true
  param : u.param.isSome = true ↔ u.place ≠ .E_PARA_VALUE

def Left (n : ℕ) : Exit → Prop
  | .fault => False
  | .endofparams u _ => Params n u ∧ n < u.allocs ∧ u.saved_status.at_line_end = true
  | .param_error u _ => Params n u
  | .endofheader u _ => InMain n u
  | .error u _ => InMain n u

def Inside (n : ℕ) (u : Vars) : Prop := InMain n u ∨ InParam n u ∧ n < u.allocs

theorem place_eq {s : State} (hs : u.status = s) (hp : s.of_param = true) : u.place = s := by
  rw [Vars.place, hs]
  cases s <;> first | rfl | exact absurd hp (by decide)

section Param

theorem Params.change (h : Params n u) (hx : u.param = some x) {u' : Vars} (y : ToParam)
    (hy : y.addr = x.addr) (hp : u'.param = some y) (hb : u'.to_b = u.to_b)
    (hf : u'.freed = u.freed) (ha : u'.allocs = u.allocs) : Params n u' := by
  refine ⟨by rw [hb]; exact h.ok, hf.trans h.freed, by rw [ha]; exact h.le, ?_⟩
  rw [hp, hb, ha, ← h.objs, hx, map_some, map_some, hy]

theorem Params.add (h : Params n u) (hx : u.param = some x) {u' : Vars} (y : ToParam)
    (hy : y.addr = x.addr) (hp : u'.param = none) (hb : u'.to_b = (add_param u y).to_b)
    (hf : u'.freed = u.freed) (ha : u'.allocs = u.allocs) : Params n u' := by
  refine ⟨by rw [hb]; exact h.ok, hf.trans h.freed, by rw [ha]; exact h.le, ?_⟩
  have hl : (add_param u y).to_b.param_lst = u.to_b.param_lst ++ [y] := rfl
  rw [hp, hb, hl, ha, ← h.objs, hx, map_append, map_singleton, hy, map_none, toList_none, append_nil]
  rfl

theorem InParam.exists_param (h : InParam n u) {s : State} (hs : u.status = s)
    (hp : s.of_param = true) (hne : s ≠ .E_PARA_VALUE) : ∃ x, u.param = some x :=
  isSome_iff_exists.1 (h.param.2 (by rw [place_eq hs hp]; exact hne))

theorem InParam.no_param (h : InParam n u) (hs : u.status = .E_PARA_VALUE) : u.param = none := by
  have hp := place_eq hs rfl
  cases hx : u.param with
  | none => rfl
  | some x =>
    have := h.param.1 (by rw [hx]; rfl)
    exact absurd hp this

theorem Inside.under {u' : Vars} (hphase : u'.phase = .param) (hskip : u'.skip = false) (h : Params n u')
    (ha : n < u'.allocs) (hx : ∃ x, u'.param = some x)
    (hp : u'.place.of_param = true) (hne : u'.place ≠ .E_PARA_VALUE)
    (hs : u'.saved_status.at_line_end = true) : Inside n u' := by
  obtain ⟨x, hx⟩ := hx
  exact .inr ⟨⟨hphase, hskip, h, hp, hs, ⟨fun _ => hne, fun _ => by rw [hx]; rfl⟩⟩, ha⟩

theorem Inside.between {u' : Vars} (hphase : u'.phase = .param) (hskip : u'.skip = false)
    (h : Params n u') (ha : n < u'.allocs) (hx : u'.param = none) (hp : u'.place = .E_PARA_VALUE)
    (hs : u'.saved_status.at_line_end = true) : Inside n u' :=
  .inr ⟨⟨hphase, hskip, h, by rw [hp]; rfl, hs,
    ⟨fun hx' => absurd (hx ▸ hx') (by decide), fun hne => absurd hp hne⟩⟩, ha⟩

def State.in_name : State → Bool
  | .PARA_NAME | .TAG1 | .TAG2 | .TAG3 => true
  | _ => false

theorem State.in_name.of_param {s : State} (h : s.in_name = true) : s.of_param = true ∧ s ≠ .E_PARA_VALUE := by
  cases s <;> first | exact ⟨rfl, by decide⟩ | exact absurd h (by decide)

theorem State.at_line_end.of_param {s : State} (h : s.at_line_end = true) : s.of_param = true := by
  cases s <;> first | rfl | exact absurd h (by decide)

theorem no_value_spec (h : InParam n u) (y : ToParam) (hx : u.param = some x) (hy : y.addr = x.addr)
    {f : Vars → Except Exit Vars}
    (hf : ∀ u', Params n u' → u'.phase = .param → u'.skip = false → u'.param = none →
      u'.saved_status.at_line_end = true → u'.allocs = u.allocs → Outcome (Inside n) (Left n) (f u')) :
    Outcome (Inside n) (Left n) (no_value u p y f) := by
  rw [no_value]
  refine .ite (fun _ => h.params.change hx y hy rfl rfl rfl rfl) fun _ => ?_
  exact hf _ (h.params.add hx { y with value := (y.value.at p).upto p } hy rfl rfl rfl rfl) h.phase h.skip rfl
    h.saved rfl

theorem new_param_spec {avail : ℕ → Bool} (h : Params n u) (hphase : u.phase = .param)
    (hskip : u.skip = false) (hx : u.param = none) (hs : u.saved_status.at_line_end = true) :
    Outcome (Inside n) (Left n) (new_param avail p u) := by
  rw [new_param]
  refine .ite (fun _ => ?_) fun _ => h
  refine .under hphase hskip ⟨h.ok, h.freed, Nat.le_succ_of_le h.le, ?_⟩ (Nat.lt_succ_of_le h.le) ⟨_, rfl⟩
    rfl (show State.S_PARA_NAME ≠ .E_PARA_VALUE by decide) hs
  have hlist : u.to_b.param_lst.map ToParam.addr = List.range' n (u.allocs - n) := by
    rw [← h.objs, hx, map_none, toList_none, append_nil]
  have hle := h.le
  rw [hlist, map_some, toList_some, show u.allocs + 1 - n = u.allocs - n + 1 by omega,
    range'_1_concat, show n + (u.allocs - n) = u.allocs by omega]

theorem param_end_spec (h : InParam n u) {f : Vars → Except Exit Vars}
    (hf : ∀ u', Params n u' → u'.phase = .param → u'.skip = false → u'.param = none →
      u'.saved_status.at_line_end = true → u'.allocs = u.allocs → Outcome (Inside n) (Left n) (f u')) :
    Outcome (Inside n) (Left n) (param_end u p f) := by
  have herr : Outcome (Inside n) (Left n) (.error (.param_error u p) : Except Exit Vars) := h.params
  rw [param_end]
  cases hs : u.status <;> try exact herr
  case PARA_NAME =>
    obtain ⟨x, hx⟩ := h.exists_param hs rfl (by decide)
    dsimp only
    rw [with_param, hx]
    exact no_value_spec h { x with name := x.name.upto p } hx rfl hf
  case S_EQUAL =>
    obtain ⟨x, hx⟩ := h.exists_param hs rfl (by decide)
    dsimp only
    rw [with_param, hx]
    exact no_value_spec h x hx rfl hf
  case S_PARA_VALUE =>
    obtain ⟨x, hx⟩ := h.exists_param hs rfl (by decide)
    dsimp only
    rw [with_param, hx]
    exact no_value_spec h x hx rfl hf
  case PARA_VALUE_TOKEN =>
    obtain ⟨x, hx⟩ := h.exists_param hs rfl (by decide)
    dsimp only
    rw [with_param, hx]
    exact hf _ (h.params.add hx { x with value := x.value.upto p } rfl rfl rfl rfl rfl) h.phase h.skip rfl
      h.saved rfl
  case E_PARA_VALUE =>
    exact hf u h.params h.phase h.skip (h.no_param hs) h.saved rfl

section Turn

variable (h : InParam n u) (ha : n < u.allocs)
include h ha

theorem fin_value_spec (hs : u.place ≠ .E_PARA_VALUE) :
    Outcome (Inside n) (Left n) (fin_value u p .E_PARA_VALUE) := by
  obtain ⟨x, hx⟩ := isSome_iff_exists.1 (h.param.2 hs)
  rw [fin_value, with_param, hx]
  exact .between h.phase h.skip
    (h.params.add hx { x with value := x.value.upto p } rfl rfl rfl rfl rfl) ha rfl rfl h.saved

/-- A name ends: a blank, a line end or `=` follows. -/
theorem fin_name_spec (hs : u.status.in_name = true) {status saved : State}
    (hp : (match status with | .F_CR | .F_LF | .F_CRLF => saved | s => s) = .S_EQUAL ∨
      (match status with | .F_CR | .F_LF | .F_CRLF => saved | s => s) = .S_PARA_VALUE)
    (hsaved : saved.at_line_end = true) :
    Outcome (Inside n) (Left n) (with_param u fun x =>
      .ok { u with param := some (fin_name u p x), saved_status := saved, status := status }) := by
  obtain ⟨hp1, hne⟩ := State.in_name.of_param hs
  obtain ⟨x, hx⟩ := h.exists_param rfl hp1 hne
  rw [with_param, hx]
  refine .under h.phase h.skip (h.params.change hx (fin_name u p x) rfl rfl rfl rfl rfl) ha ⟨_, rfl⟩
    ?_ ?_ hsaved
  all_goals
    rw [Vars.place]
    rcases hp with hp | hp
    all_goals
      rw [hp]
      decide

theorem param_line_end_spec {status : State} (hst : status = .F_LF ∨ status = .F_CR) :
    Outcome (Inside n) (Left n) (param_line_end u p status) := by
  have hplace : ∀ s, (match status with | .F_CR | .F_LF | .F_CRLF => s | s => s) = s := by
    rcases hst with rfl | rfl <;> exact fun _ => rfl
  have hstay : ∀ s, u.status = s → s.at_line_end = true →
      Inside n { u with saved_status := s, status := status } := by
    intro s hu hs
    have hp := State.at_line_end.of_param hs
    have heq : Vars.place { u with saved_status := s, status := status } = u.place :=
      (hplace s).trans (place_eq hu hp).symm
    exact .inr ⟨⟨h.phase, h.skip, ⟨h.params.ok, h.params.freed, h.params.le, h.params.objs⟩,
      by rw [heq]; exact h.place, hs, by rw [heq]; exact h.param⟩, ha⟩
  have hname : u.status.in_name = true → Outcome (Inside n) (Left n) (with_param u fun x =>
      .ok { u with param := some (fin_name u p x), saved_status := .S_EQUAL, status := status }) :=
    fun hs => fin_name_spec h ha hs (.inl (hplace _)) rfl
  have hvalue : u.status = .PARA_VALUE_TOKEN → Outcome (Inside n) (Left n) (with_param u fun x =>
      .ok { add_param u { x with value := x.value.upto p } with
        saved_status := .E_PARA_VALUE, status := status }) := by
    intro hs
    obtain ⟨x, hx⟩ := h.exists_param hs rfl (by decide)
    rw [with_param, hx]
    exact .between h.phase h.skip
      (h.params.add hx { x with value := x.value.upto p } rfl rfl rfl rfl rfl) ha rfl (hplace _) rfl
  have herr : Outcome (Inside n) (Left n) (.error (.param_error u p) : Except Exit Vars) := h.params
  rw [param_line_end]
  cases hs : u.status <;> first
    | exact herr
    | exact hvalue hs
    | exact hname (by rw [hs]; rfl)
    | exact hstay _ hs rfl

theorem name_char_spec {first : State} {next : State → State}
    (hfirst : first.in_name = true) (hnext : ∀ s, s.in_name = true → (next s).in_name = true) :
    Outcome (Inside n) (Left n) (name_char u p first next) := by
  have herr : Outcome (Inside n) (Left n) (.error (.param_error u p) : Except Exit Vars) := h.params
  have hend : Outcome (Inside n) (Left n) (.error (.endofparams u p) : Except Exit Vars) :=
    ⟨h.params, ha, h.saved⟩
  have hkeep : ∀ (s : State), s.of_param = true → s ≠ .E_PARA_VALUE → (∃ x, u.param = some x) →
      Inside n { u with status := s } := fun s h1 h2 hx =>
    .under h.phase h.skip ⟨h.params.ok, h.params.freed, h.params.le, h.params.objs⟩ ha hx
      (by rw [place_eq rfl h1]; exact h1) (by rw [place_eq rfl h1]; exact h2) h.saved
  have hself : u.status.of_param = true → u.status ≠ .E_PARA_VALUE → Inside n u := fun h1 h2 =>
    .inr ⟨h, ha⟩
  have hin : ∀ s, u.status = s → s.in_name = true → Inside n { u with status := next s } := by
    intro s hs hn
    obtain ⟨h1, h2⟩ := State.in_name.of_param hn
    obtain ⟨h3, h4⟩ := State.in_name.of_param (hnext s hn)
    exact hkeep _ h3 h4 (h.exists_param hs h1 h2)
  rw [name_char]
  cases hs : u.status <;> first
    | exact herr
    | exact hend
    | exact .inr ⟨h, ha⟩
    | exact hin _ hs rfl
    | skip
  case S_PARA_NAME =>
    obtain ⟨h3, h4⟩ := State.in_name.of_param hfirst
    obtain ⟨x, hx⟩ := h.exists_param hs rfl (by decide)
    dsimp only
    rw [with_param, hx]
    exact .under h.phase h.skip (h.params.change hx { x with name := x.name.at p } rfl rfl rfl rfl rfl) ha
      ⟨_, rfl⟩ (by rw [place_eq rfl h3]; exact h3) (by rw [place_eq rfl h3]; exact h4) h.saved
  case S_PARA_VALUE =>
    obtain ⟨x, hx⟩ := h.exists_param hs rfl (by decide)
    dsimp only
    rw [with_param, hx]
    exact .under h.phase h.skip (h.params.change hx { x with value := x.value.at p } rfl rfl rfl rfl rfl) ha
      ⟨_, rfl⟩ rfl (show State.PARA_VALUE_TOKEN ≠ .E_PARA_VALUE by decide) h.saved

/-- **A character in `parse_to_param`.** -/
theorem param_turn_spec (avail : ℕ → Bool) (ch next : UInt8) :
    Outcome (Inside n) (Left n) (param_turn avail u p ch next) := by
  have herr : ∀ q, Outcome (Inside n) (Left n) (.error (.param_error u q) : Except Exit Vars) :=
    fun _ => h.params
  have hend : ∀ s, Outcome (Inside n) (Left n)
      (.error (.endofparams { u with status := s } p) : Except Exit Vars) := fun _ =>
    ⟨⟨h.params.ok, h.params.freed, h.params.le, h.params.objs⟩, ha, h.saved⟩
  have hend' : Outcome (Inside n) (Left n) (.error (.endofparams u p) : Except Exit Vars) :=
    ⟨h.params, ha, h.saved⟩
  have hsame : Inside n u := .inr ⟨h, ha⟩
  have hstatus : ∀ s, Vars.place { u with status := s } = u.place → Inside n { u with status := s } :=
    fun s hs => .inr ⟨⟨h.phase, h.skip, ⟨h.params.ok, h.params.freed, h.params.le, h.params.objs⟩,
      by rw [hs]; exact h.place, h.saved, by rw [hs]; exact h.param⟩, ha⟩
  have hname : ∀ s, u.status.in_name = true → s = .S_EQUAL ∨ s = .S_PARA_VALUE →
      Outcome (Inside n) (Left n) (with_param u fun x =>
        .ok { u with param := some (fin_name u p x), status := s }) := fun s hs hse => by
    rcases hse with rfl | rfl
    · exact fin_name_spec h ha hs (.inl rfl) h.saved
    · exact fin_name_spec h ha hs (.inr rfl) h.saved
  rw [param_turn]
  cases param_char ch with
  | blank =>
    have hback : ∀ s, u.status = s → Vars.place { u with status := s } = u.saved_status →
        Inside n { u with status := u.saved_status } := by
      intro s hs hp
      refine hstatus _ ?_
      rw [place_eq rfl (State.at_line_end.of_param h.saved)]
      rw [← hs] at hp
      exact hp.symm
    dsimp only
    cases hs : u.status <;> first
      | exact hsame
      | exact hback _ hs rfl
      | exact hname _ (by rw [hs]; rfl) (.inl rfl)
      | exact fin_value_spec h ha (by rw [place_eq hs rfl]; decide)
  | nl =>
    have hcr : u.status = .F_CR → Inside n { u with status := .F_CRLF } := fun hs =>
      hstatus _ (by rw [Vars.place, Vars.place, hs])
    dsimp only
    cases hs : u.status <;> first
      | exact hcr hs
      | exact hend _
      | exact param_line_end_spec h ha (.inl rfl)
  | cr =>
    dsimp only
    cases hs : u.status <;> first
      | exact hend _
      | exact param_line_end_spec h ha (.inr rfl)
  | nul =>
    refine param_end_spec h fun u' hp hphase hskip hx hsv hal => ?_
    exact ⟨⟨hp.ok, hp.freed, hp.le, hp.objs⟩, by rw [← hal] at ha; exact ha, rfl⟩
  | backslash =>
    exact .ite (fun _ => herr _) fun _ => herr _
  | quote =>
    dsimp only
    cases hs : u.status <;> first
      | exact herr _
      | exact hend'
      | exact fin_value_spec h ha (by rw [place_eq hs rfl]; decide)
      | skip
    obtain ⟨x, hx⟩ := h.exists_param hs rfl (by decide)
    rw [with_param, hx]
    exact .under h.phase h.skip (h.params.change hx { x with value := x.value.at (p + 1) } rfl rfl rfl rfl rfl)
      ha ⟨_, rfl⟩ rfl (show State.PARA_VALUE_QUOTED ≠ .E_PARA_VALUE by decide) h.saved
  | semicolon =>
    have hnew : Outcome (Inside n) (Left n) (param_end u p (new_param avail p)) :=
      param_end_spec h fun u' hp hphase hskip hx hsv hal => new_param_spec hp hphase hskip hx hsv
    dsimp only
    cases hs : u.status <;> first
      | exact hsame
      | exact hend'
      | exact hnew
  | t => exact name_char_spec h ha rfl fun _ _ => rfl
  | a => exact name_char_spec h ha rfl fun s _ => by cases s <;> rfl
  | g => exact name_char_spec h ha rfl fun s _ => by cases s <;> rfl
  | equal =>
    have hequal : u.status = .S_EQUAL → Inside n { u with status := .S_PARA_VALUE } := fun hs =>
      .under h.phase h.skip ⟨h.params.ok, h.params.freed, h.params.le, h.params.objs⟩ ha
        (h.exists_param hs rfl (by decide)) rfl (show State.S_PARA_VALUE ≠ .E_PARA_VALUE by decide) h.saved
    dsimp only
    cases hs : u.status <;> first
      | exact herr _
      | exact hsame
      | exact hend'
      | exact hname _ (by rw [hs]; rfl) (.inr rfl)
      | exact hequal hs
  | other => exact name_char_spec h ha rfl fun _ _ => rfl

end Turn

end Param

section Main

theorem semicolon_of_main {ch : UInt8} (hch : main_char ch = .semicolon) :
    param_char ch = .semicolon := by
  rw [main_char] at hch
  split_ifs at hch with h1 h2 h3 h4 h5 h6 h7 h8 h9
  rw [h9]
  decide

variable (h : InMain n u) (hskip : u.skip = false)
include h

/-- What the loop of `parse_to` changes is not about parameters. -/
theorem InMain.change {u' : Vars} (hp : u'.phase = u.phase) (he : u'.to_b.error = u.to_b.error)
    (hf : u'.freed = u.freed) (hx : u'.param = u.param) (hl : u'.to_b.param_lst = u.to_b.param_lst)
    (ha : u'.allocs = u.allocs) : InMain n u' :=
  ⟨hp.trans h.phase, he.trans h.ok, hf.trans h.freed, hx.trans h.none, hl.trans h.nil, ha.trans h.allocs⟩

theorem main_line_end_spec (status : State) :
    Outcome (Inside n) (Left n) (main_line_end u p status) := by
  have herr : Outcome (Inside n) (Left n) (.error (.error u p) : Except Exit Vars) := h
  rw [main_line_end]
  cases u.status <;> first
    | exact herr
    | exact .inl (h.change rfl rfl rfl rfl rfl rfl)

include hskip in
/-- The `;` behind the address starts the first parameter. -/
theorem parse_to_param_spec (avail : ℕ → Bool) {ch : UInt8} (hch : param_char ch = .semicolon)
    (next : UInt8) : Outcome (Inside n) (Left n) (parse_to_param avail u p ch next) := by
  rw [parse_to_param, param_turn, hch]
  refine new_param_spec ⟨h.ok, h.freed, h.allocs.ge, ?_⟩ rfl hskip rfl rfl
  rw [h.nil, h.allocs, Nat.sub_self]
  rfl

include hskip in
/-- **A character in `parse_to`.** -/
theorem main_turn_spec (avail : ℕ → Bool) (ch next : UInt8) :
    Outcome (Inside n) (Left n) (main_turn avail u p ch next) := by
  have herr : Outcome (Inside n) (Left n) (.error (.error u p) : Except Exit Vars) := h
  have hend : ∀ u', InMain n u' → Outcome (Inside n) (Left n) (.error (.endofheader u' p) : Except Exit Vars) :=
    fun _ h => h
  have hsame : Inside n u := .inl h
  rw [main_turn]
  cases hch : main_char ch with
  | nl =>
    cases hs : u.status <;> first
      | exact .inl (h.change rfl rfl rfl rfl rfl rfl)
      | exact hend u h
      | exact main_line_end_spec h _
  | cr =>
    cases hs : u.status <;> first
      | exact hend u h
      | exact main_line_end_spec h _
  | semicolon =>
    have hcall : ∀ u', InMain n u' → u'.skip = false →
        Outcome (Inside n) (Left n) (parse_to_param avail u' p ch next) :=
      fun u' h' hs' => parse_to_param_spec h' hs' avail (semicolon_of_main hch) next
    cases hs : u.status <;> first
      | exact herr
      | exact hend u h
      | exact hsame
      | (apply hcall
         · exact h.change rfl rfl rfl rfl rfl rfl
         · exact hskip)
  | _ =>
    cases hs : u.status <;> first
      | exact herr
      | exact hsame
      | exact hend _ (h.change rfl rfl rfl rfl rfl rfl)
      | exact .inl (h.change rfl rfl rfl rfl rfl rfl)

end Main

section Loop

/-- **A character.** -/
theorem turn_spec (mem : Str) (avail : ℕ → Bool) (ch : UInt8) (h : Inside n u) :
    Outcome (Inside n) (Left n) (turn mem avail u p ch) := by
  rw [turn]
  rcases h with h | ⟨h, ha⟩
  · refine .ite (fun _ => .inl (h.change rfl rfl rfl rfl rfl rfl)) fun hs => ?_
    rw [h.phase]
    exact main_turn_spec h (Bool.eq_false_iff.2 hs) avail ch _
  · rw [h.skip, if_neg Bool.false_ne_true, h.phase]
    exact param_turn_spec h ha avail ch _

theorem at_end_spec (h : Inside n u) : Left n (at_end u p) := by
  rw [at_end]
  rcases h with h | ⟨h, ha⟩
  · rw [h.phase]
    exact h
  · rw [h.phase]
    exact ⟨h.params, ha, h.saved⟩

theorem start_spec : Inside n (start n) := .inl ⟨rfl, rfl, rfl, rfl, rfl, rfl⟩

/-- **However the loops are left, no parameter has been freed, and each is in the list or under
construction.** -/
theorem to_loop_spec (mem : Str) (avail : ℕ → Bool) (buffer end_ : ℕ) :
    Left n (to_loop mem avail n buffer end_) := by
  have hscan : Outcome (Inside n) (Left n)
      (scan (turn mem avail) (start n) buffer ((mem.take end_).drop buffer)) := by
    by_cases hb : buffer ≤ (mem.take end_).length
    · exact scan_outcome (I := fun _ => Inside n) (fun p u c _ hu => turn_spec mem avail c hu) hb start_spec
    · rw [drop_of_length_le (le_of_not_ge hb)]
      exact start_spec
  rw [to_loop]
  cases hs : scan (turn mem avail) (start n) buffer ((mem.take end_).drop buffer) with
  | ok u =>
    rw [hs] at hscan
    exact at_end_spec hscan
  | error exit =>
    rw [hs] at hscan
    exact hscan

end Loop

section End

/-- The states in which `endofheader` of `parse_to` takes the header. -/
def State.at_end : State → Bool
  | .MAYBE_URI_END | .END | .E_PARA_VALUE => true
  | _ => false

/-- `endofheader` of `parse_to` reads the saved state, and touches no parameter. -/
theorem endofheader_spec (u : Vars) (p : ℕ) :
    (endofheader u p).to_b.error = (u.to_b.error || !u.saved_status.at_end) ∧
      (endofheader u p).freed = u.freed ∧ (endofheader u p).allocs = u.allocs ∧
      (endofheader u p).to_b.param_lst = u.to_b.param_lst := by
  unfold endofheader
  cases u.saved_status <;> exact ⟨by simp [State.at_end, error], rfl, rfl, rfl⟩

/-- What a call leaves: after an error every parameter that it allocated is freed, once; else none is,
and each is in the list, once. -/
def Kept (n : ℕ) (u : Vars) : Prop :=
  if u.to_b.error then u.freed.Perm (List.range' n (u.allocs - n))
  else u.freed = [] ∧ u.to_b.param_lst.map ToParam.addr = List.range' n (u.allocs - n)

/-- The header ends where a parameter may: behind a value, or behind the name of one without. -/
def Vars.Settled (u : Vars) : Prop :=
  match u.param with
  | none => u.saved_status = .E_PARA_VALUE
  | some _ => u.saved_status = .S_EQUAL ∨ u.saved_status = .S_PARA_VALUE

/-- The label `endofheader` of `parse_to_param` is only reached there. -/
def Exit.Settled : Exit → Prop
  | .endofparams u _ => u.Settled
  | _ => True

variable {r : Vars}

theorem kept_error (he : r.to_b.error = true) :
    Kept n r ↔ r.freed.Perm (List.range' n (r.allocs - n)) := by
  rw [Kept, if_pos he]

theorem kept_ok (he : r.to_b.error = false) :
    Kept n r ↔ r.freed = [] ∧ r.to_b.param_lst.map ToParam.addr = List.range' n (r.allocs - n) := by
  rw [Kept, if_neg (by rw [he]; exact Bool.false_ne_true)]

/-- `parse_error` of `parse_to_param` frees them all. -/
theorem Params.free (h : Params n u) (p : ℕ) : Kept n (param_error u p) := by
  obtain ⟨h1, h2, h3, -⟩ := endofheader_spec { error u with
    freed := u.freed ++ (u.param.map ToParam.addr).toList ++ u.to_b.param_lst.map ToParam.addr
    saved_status := u.status } p
  refine (kept_error (r := param_error u p) h1).2 ?_
  unfold param_error
  rw [h2, h3, h.freed, nil_append]
  exact perm_append_comm.trans (Perm.of_eq h.objs)

theorem InMain.kept (h : InMain n u) (hf : r.freed = u.freed) (ha : r.allocs = u.allocs)
    (hl : r.to_b.param_lst = u.to_b.param_lst) : Kept n r := by
  rw [Kept, hf, ha, hl, h.freed, h.allocs, h.nil, Nat.sub_self]
  split_ifs
  · exact List.Perm.refl _
  · exact ⟨rfl, rfl⟩

theorem lost (hf : r.freed = []) (ha : n < r.allocs)
    (hl : r.to_b.error = false → r.to_b.param_lst.length ≠ r.allocs - n) : ¬ Kept n r := by
  intro hk
  cases he : r.to_b.error with
  | true =>
    have hp := ((kept_error he).1 hk).length_eq
    rw [hf, length_nil, length_range'] at hp
    omega
  | false =>
    have hp := congrArg List.length ((kept_ok he).1 hk).2
    rw [length_map, length_range'] at hp
    exact hl he hp

theorem param_error_allocs (u : Vars) (p : ℕ) : (param_error u p).allocs = u.allocs :=
  (endofheader_spec _ p).2.2.1

theorem endofparams_allocs (u : Vars) (p : ℕ) : (endofparams u p).allocs = u.allocs := by
  unfold endofparams
  split
  · exact (endofheader_spec u p).2.2.1
  · dsimp only
    split_ifs
    · exact param_error_allocs _ p
    · exact (endofheader_spec _ p).2.2.1
    · exact (endofheader_spec u p).2.2.1

/-- The end of the header in `parse_to_param`. -/
theorem endofparams_spec (h : Params n u) (ha : n < u.allocs) (hs : u.saved_status.at_line_end = true) :
    Kept n (endofparams u p) ↔ u.Settled := by
  have hlen := congrArg List.length h.objs
  rw [length_append, length_map, length_range'] at hlen
  obtain ⟨h1, h2, h3, h4⟩ := endofheader_spec u p
  rw [h.ok, Bool.false_or] at h1
  cases hx : u.param with
  | none =>
    have hend : endofparams u p = endofheader u p := by rw [endofparams, hx]
    have hl : u.to_b.param_lst.map ToParam.addr = List.range' n (u.allocs - n) := by
      rw [← h.objs, hx, map_none, toList_none, append_nil]
    have hset : u.Settled ↔ u.saved_status = .E_PARA_VALUE := by rw [Vars.Settled, hx]
    rw [hend, hset]
    by_cases hv : u.saved_status = .E_PARA_VALUE
    · rw [hv] at h1
      refine iff_of_true ((kept_ok h1).2 ⟨h2.trans h.freed, ?_⟩) hv
      rw [h3, h4]
      exact hl
    · refine iff_of_false (lost (h2.trans h.freed) (by rw [h3]; exact ha) fun he => ?_) hv
      rw [h1] at he
      cases hsv : u.saved_status <;> rw [hsv] at hs hv he <;> first
        | exact absurd rfl hv
        | exact absurd hs (by decide)
        | exact absurd he (by decide)
  | some x =>
    have hset : u.Settled ↔ u.saved_status = .S_EQUAL ∨ u.saved_status = .S_PARA_VALUE := by
      rw [Vars.Settled, hx]
    rw [hset]
    by_cases hv : u.saved_status = .S_EQUAL ∨ u.saved_status = .S_PARA_VALUE
    · refine iff_of_true ?_ hv
      rw [endofparams, hx]
      dsimp only
      rw [if_pos hv]
      split_ifs with ht
      · have hchange : Params n { u with saved_status := .E_PARA_VALUE
                                         param := some { x with value := ⟨none, some 0⟩ } } :=
          h.change hx { x with value := ⟨none, some 0⟩ } rfl rfl rfl rfl rfl
        exact hchange.free p
      · have hadd : Params n (add_param { u with saved_status := .E_PARA_VALUE }
            { x with value := ⟨none, some 0⟩ }) :=
          h.add hx { x with value := ⟨none, some 0⟩ } rfl rfl rfl rfl rfl
        obtain ⟨e1, e2, e3, e4⟩ := endofheader_spec (add_param { u with saved_status := .E_PARA_VALUE }
          { x with value := ⟨none, some 0⟩ }) p
        rw [hadd.ok] at e1
        refine (kept_ok e1).2 ⟨e2.trans hadd.freed, ?_⟩
        rw [e3, e4, ← hadd.objs]
        exact (append_nil _).symm
    · refine iff_of_false ?_ hv
      have hend : endofparams u p = endofheader u p := by
        rw [endofparams, hx]
        dsimp only
        rw [if_neg hv]
      rw [hend]
      refine lost (h2.trans h.freed) (by rw [h3]; exact ha) fun _ => ?_
      rw [h3, h4]
      rw [hx, map_some, toList_some, length_singleton] at hlen
      omega

/-- **`parse_to` keeps or frees its parameters exactly when the label `endofheader` of `parse_to_param` is
reached where a parameter may end, or not at all.** -/
theorem run_spec {e : Exit} (h : Left n e) (hr : e.run = some (r, p)) :
    n ≤ r.allocs ∧ (Kept n r ↔ e.Settled) := by
  cases e with
  | fault => exact h.elim
  | endofparams u q =>
    obtain ⟨rfl, rfl⟩ := Prod.mk.inj (some.inj hr)
    exact ⟨le_of_lt (by rw [endofparams_allocs]; exact h.2.1), endofparams_spec h.1 h.2.1 h.2.2⟩
  | param_error u q =>
    obtain ⟨rfl, rfl⟩ := Prod.mk.inj (some.inj hr)
    have hle : n ≤ (param_error u q).allocs := by
      rw [param_error_allocs]
      exact Params.le h
    exact ⟨hle, iff_of_true (Params.free h q) trivial⟩
  | endofheader u q =>
    obtain ⟨rfl, rfl⟩ := Prod.mk.inj (some.inj hr)
    obtain ⟨-, h2, h3, h4⟩ := endofheader_spec u q
    exact ⟨(h3.trans (InMain.allocs h)).ge, iff_of_true (InMain.kept h h2 h3 h4) trivial⟩
  | error u q =>
    obtain ⟨rfl, rfl⟩ := Prod.mk.inj (some.inj hr)
    exact ⟨(InMain.allocs h).ge, iff_of_true (InMain.kept h rfl rfl rfl) trivial⟩

/-- No state of the loops follows a `NULL` pointer. -/
theorem parse_to_returns (mem : Str) (avail : ℕ → Bool) (n buffer end_ : ℕ) :
    ∃ r p, parse_to mem avail n buffer end_ = some (r, p) := by
  have h := to_loop_spec (n := n) mem avail buffer end_
  rw [parse_to]
  cases he : to_loop mem avail n buffer end_ with
  | fault =>
    rw [he] at h
    exact h.elim
  | _ => exact ⟨_, _, rfl⟩

end End

end OpenSips.To
