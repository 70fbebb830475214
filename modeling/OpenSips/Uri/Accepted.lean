import OpenSips.Uri.Alphabet

/-!
# OpenSips.Uri.Accepted — the loop reads every uri of the grammar

The other direction of `OpenSips.Uri.Grammar`: the texts described there are read without an error, up to
the parameters.  What is left to go wrong is the switch at the end of the uri, which does not know all
states of the loop.
-/

namespace OpenSips.Uri

open Lib List

section Runs

variable {u : Vars} {p : ℕ} {h w d : Str}

structure View (st : State) (f : Bool) (pass : Option ℕ) (u : Vars) : Prop where
  state : u.state = st
  found_user : u.found_user = f
  pass : u.pass = pass

/-- The text `w` is read without an error, to a state of which `P` holds. -/
def Runs (u : Vars) (p : ℕ) (w : Str) (P : Vars → Prop) : Prop := ∃ u', scan turn u p w = .ok u' ∧ P u'

theorem Runs.then {P Q : Vars → Prop} {w' : Str} (h : Runs u p w P)
    (h' : ∀ u', P u' → ∀ p', Runs u' p' w' Q) : Runs u p (w ++ w') Q := by
  obtain ⟨u1, h1, hP⟩ := h
  obtain ⟨u2, h2, hQ⟩ := h' u1 hP (p + w.length)
  exact ⟨u2, scan_concat h1 h2, hQ⟩

theorem Runs.char {P : Vars → Prop} {c : UInt8} (h : ∃ u', turn u p c = .ok u' ∧ P u') :
    Runs u p [c] P := by
  obtain ⟨u', h, hP⟩ := h
  refine ⟨u', ?_, hP⟩
  show (turn u p c >>= fun s => Except.ok s) = _
  rw [h]
  rfl

variable {f : Bool} {pass : Option ℕ}

theorem ne_of_notMem {c : UInt8} {cs : List Char} (h : c ∉ cs.map chr) : ∀ e ∈ cs, c ≠ chr e :=
  fun _ he hc => h (hc ▸ List.mem_map_of_mem he)

theorem runs_early (hu : View .URI_INIT false none u) (hh : Early h) :
    Runs u p h (View .URI_USER false none) := by
  obtain ⟨c, w, rfl, hc, hw⟩ := hh
  have hne := ne_of_notMem hc
  simp only [mem_cons, not_mem_nil, or_false, forall_eq_or_imp, forall_eq] at hne
  have h1 : Runs u p [c] (View .URI_USER false none) := by
    refine Runs.char ⟨{ u with state := .URI_USER }, ?_, rfl, hu.found_user, hu.pass⟩
    rw [turn, hu.state]
    dsimp only
    rw [if_neg hne.1, if_neg (by tauto)]
  refine Runs.then h1 fun u' hu' p' => ?_
  refine scan_progress (fun s p c hc hs => ⟨s, ?_, hs⟩) hu'
  have hne := ne_of_notMem (hw c hc)
  simp only [mem_cons, not_mem_nil, or_false, forall_eq_or_imp, forall_eq] at hne
  rw [turn, hs.state]
  dsimp only
  rw [if_neg hne.1, if_neg hne.2.1, if_neg hne.2.2.1, if_neg hne.2.2.2.1, if_neg (by tauto)]

theorem runs_bracketed (hu : View .URI_INIT f pass u ∨ View .URI_HOST f pass u) (hh : Bracketed h) :
    Runs u p h (View .URI_HOST6_END f pass) := by
  obtain ⟨w, rfl, hw⟩ := hh
  have h1 : Runs u p [chr '['] (View .URI_HOST6_P f pass) := by
    rcases hu with hu | hu
    · refine Runs.char ⟨{ u with state := .URI_HOST6_P, s := p }, ?_, rfl, hu.found_user, hu.pass⟩
      rw [turn, hu.state]
      rfl
    · refine Runs.char ⟨{ u with state := .URI_HOST6_P }, ?_, rfl, hu.found_user, hu.pass⟩
      rw [turn, hu.state]
      rfl
  refine Runs.then h1 fun u1 hu1 p1 => Runs.then (P := View .URI_HOST6_P f pass) ?_ fun u2 hu2 p2 => ?_
  · refine scan_progress (fun s p c hc hs => ⟨s, ?_, hs⟩) hu1
    have hne := ne_of_notMem (hw c hc)
    simp only [mem_cons, not_mem_nil, or_false, forall_eq_or_imp, forall_eq] at hne
    rw [turn, hs.state]
    dsimp only
    rw [if_neg hne.1, if_neg (by tauto)]
  · refine Runs.char ⟨{ u2 with state := .URI_HOST6_END }, ?_, rfl, hu2.found_user, hu2.pass⟩
    rw [turn, hu2.state]
    rfl

theorem runs_late (hu : View .URI_HOST f pass u) (hh : Late h) : Runs u p h (View .URI_HOST_P f pass) := by
  obtain ⟨c, w, rfl, hc, hw⟩ := hh
  have hne := ne_of_notMem hc
  simp only [mem_cons, not_mem_nil, or_false, forall_eq_or_imp, forall_eq] at hne
  have h1 : Runs u p [c] (View .URI_HOST_P f pass) := by
    refine Runs.char ⟨{ u with state := .URI_HOST_P }, ?_, rfl, hu.found_user, hu.pass⟩
    rw [turn, hu.state]
    dsimp only
    rw [if_neg hne.1, if_neg (by tauto)]
  refine Runs.then h1 fun u' hu' p' => ?_
  refine scan_progress (fun s p c hc hs => ⟨s, ?_, hs⟩) hu'
  have hne := ne_of_notMem (hw c hc)
  simp only [mem_cons, not_mem_nil, or_false, forall_eq_or_imp, forall_eq] at hne
  rw [turn, hs.state]
  dsimp only [check_host_end]
  rw [if_neg hne.1, if_neg hne.2.1, if_neg hne.2.2.1, if_neg (by tauto)]

theorem runs_port (hu : View .URI_HOST_P f pass u ∨ View .URI_HOST6_END f pass u) (hd : Digits d) :
    Runs u p (chr ':' :: d) (View .URI_PORT f pass) := by
  have h1 : Runs u p [chr ':'] (View .URI_PORT f pass) := by
    rcases hu with hu | hu
    · refine Runs.char ?_
      rw [turn, hu.state]
      exact ⟨_, rfl, rfl, hu.found_user, hu.pass⟩
    · refine Runs.char ?_
      rw [turn, hu.state]
      exact ⟨_, rfl, rfl, hu.found_user, hu.pass⟩
  refine Runs.then h1 fun u1 hu1 p1 => ?_
  refine scan_progress (fun s p c hc hs => ⟨{ s with
    port_no := int32 (s.port_no * 10 + ((c.toNat : ℤ) - (chr '0').toNat)) }, ?_, hs.state, hs.found_user,
    hs.pass⟩) hu1
  have hne := ne_of_notMem (hd.free c hc)
  simp only [mem_cons, not_mem_nil, or_false, forall_eq_or_imp, forall_eq] at hne
  rw [turn, hs.state]
  dsimp only [case_port]
  rw [if_neg hne.2.1, if_neg hne.2.2.1, if_pos (hd c hc), hs.state]

def HostRead (f : Bool) (pass : Option ℕ) (u : Vars) : Prop :=
  View .URI_USER f pass u ∨ View .URI_HOST_P f pass u ∨ View .URI_HOST6_END f pass u ∨ View .URI_PORT f pass u

theorem runs_taken (hu : View .URI_INIT false none u) (hb : Taken w d) :
    Runs u p w (HostRead false none) := by
  have hmono : ∀ {P Q : Vars → Prop} {w : Str}, Runs u p w P → (∀ v, P v → Q v) → Runs u p w Q :=
    fun ⟨u', h, hP⟩ hPQ => ⟨u', h, hPQ u' hP⟩
  cases hb with
  | early h => exact hmono (runs_early hu h) fun v hv => .inl hv
  | bracketed h => exact hmono (runs_bracketed (.inl hu) h) fun v hv => .inr (.inr (.inl hv))
  | port h hd =>
    exact hmono (Runs.then (runs_bracketed (.inl hu) h) fun v hv p' => runs_port (.inr hv) hd)
      fun v hv => .inr (.inr (.inr hv))

theorem runs_sep (hu : HostRead f pass u) {c : UInt8} {st : State}
    (hc : c = chr ';' ∧ st = .URI_PARAM ∨ c = chr '?' ∧ st = .URI_HEADERS) : Runs u p [c] (View st f pass) := by
  have hgo : ∀ {st'}, View st' f pass u → (∃ u', turn u p c = .ok u' ∧ u'.state = st ∧
      u'.found_user = u.found_user ∧ u'.pass = u.pass) → Runs u p [c] (View st f pass) :=
    fun hv ⟨u', h1, h2, h3, h4⟩ => Runs.char ⟨u', h1, h2, h3.trans hv.found_user, h4.trans hv.pass⟩
  rcases hu with hu | hu | hu | hu <;> rcases hc with ⟨rfl, rfl⟩ | ⟨rfl, rfl⟩ <;>
    exact hgo hu (by rw [turn, hu.state]; exact ⟨_, rfl, rfl, rfl, rfl⟩)

def Loose (colon : Bool) (u : Vars) : Prop :=
  (in_params u.state = true ∨ u.state = .URI_HEADERS) ∧ u.found_user = false ∧ u.pass.isSome = colon

theorem loose_other {colon : Bool} {c : UInt8} (h : Loose colon u) (hc : c ≠ chr ':') (hat : c ≠ chr '@')
    (hsep : colon = true → c ≠ chr ';' ∧ c ≠ chr '?') : ∃ u', turn u p c = .ok u' ∧ Loose colon u' := by
  obtain ⟨hst, hf, hp⟩ := h
  have hno : colon = false → no_user u = u := fun hcol => by
    rw [no_user, hp, hcol]
    rfl
  rcases hst with hst | hst
  · have hfr := (entered_frame u).trans (recorded_frame (entered u) p)
    have hno' : colon = false → no_user (recorded (entered u) p) = recorded (entered u) p := fun hcol => by
      rw [no_user, hfr.pass, hp, hcol]
      rfl
    by_cases hs : c = chr ';'
    · have hcol : colon = false := by
        cases colon with
        | false => rfl
        | true => exact absurd hs (hsep rfl).1
      rw [hs, turn_semicolon hst, semicolon_case, hno' hcol]
      exact ⟨_, rfl, .inl rfl, hfr.found_user.trans hf, by rw [← hp]; exact congrArg _ hfr.pass⟩
    by_cases hq : c = chr '?'
    · have hcol : colon = false := by
        cases colon with
        | false => rfl
        | true => exact absurd hq (hsep rfl).2
      rw [hq, turn_question hst, question_case, hno' hcol]
      exact ⟨_, rfl, .inr rfl, hfr.found_user.trans hf, by rw [← hp]; exact congrArg _ hfr.pass⟩
    have hends : ¬ ends c := by
      rintro (h | h | h)
      · exact hat h
      · exact hs h
      · exact hq h
    have hfr' := went_on_frame u p c
    exact ⟨_, turn_other hst hends hc, .inl (in_params_move hst hends), hfr'.found_user.trans hf,
      by rw [← hp]; exact congrArg _ hfr'.pass⟩
  · rw [turn, hst]
    dsimp only
    rw [if_neg hat]
    by_cases hs : c = chr ';'
    · have hcol : colon = false := by
        cases colon with
        | false => rfl
        | true => exact absurd hs (hsep rfl).1
      rw [if_pos hs, if_neg (by simp [hf]), if_neg (by simp [hp, hcol])]
      exact ⟨_, rfl, .inr rfl, hf, hp⟩
    rw [if_neg hs, if_neg hc]
    by_cases hq : c = chr '?'
    · have hcol : colon = false := by
        cases colon with
        | false => rfl
        | true => exact absurd hq (hsep rfl).2
      rw [if_pos hq, hno hcol]
      exact ⟨u, rfl, .inr hst, hf, hp⟩
    · rw [if_neg hq]
      exact ⟨u, rfl, .inr hst, hf, hp⟩

theorem loose_colon (h : Loose false u) : ∃ u', turn u p (chr ':') = .ok u' ∧ Loose true u' := by
  obtain ⟨hst, hf, hp⟩ := h
  have hcolon : colon u p = { u with pass := some p } := by
    rw [colon, if_neg (by simp [hf]), if_neg (by simp [hp])]
  rcases hst with hst | hst
  · have hfr := went_on_frame (colon u p) p (chr ':')
    refine ⟨_, turn_colon hst, .inl ?_, ?_, ?_⟩
    · rw [hcolon]
      exact in_params_move hst (by decide)
    · rw [hfr.found_user, hcolon]
      exact hf
    · rw [hfr.pass, hcolon]
      rfl
  · refine ⟨colon u p, ?_, ?_⟩
    · rw [turn, hst]
      rfl
    · rw [hcolon]
      exact ⟨.inr hst, hf, rfl⟩

theorem loose_at {colon : Bool} (h : Loose colon u) :
    ∃ u', turn u p (chr '@') = .ok u' ∧ u'.state = .URI_HOST ∧ u'.found_user = true := by
  obtain ⟨hst, hf, -⟩ := h
  have hat : ∀ v : Vars, v.found_user = false →
      ∃ u', still_at_user v p = .ok u' ∧ u'.state = .URI_HOST ∧ u'.found_user = true := fun v hv => by
    rw [still_at_user, hv]
    exact ⟨_, rfl, rfl, rfl⟩
  rcases hst with hst | hst
  · rw [turn_at hst]
    exact hat _ ((entered_frame u).found_user.trans hf)
  · rw [turn, hst]
    exact hat u hf

/-- Text behind the host that may belong to the user does, when an `@` comes. -/
theorem runs_still {y : Str} (hu : HostRead false none u) (hy : Still y) :
    Runs u p (y ++ [chr '@']) fun v => v.state = .URI_HOST ∧ v.found_user = true := by
  obtain ⟨c, y', rfl, hc⟩ := hy.starts
  have hat := (free_cons.1 hy.no_at).2
  have h1 : Runs u p [c] (Loose false) := by
    rcases hc with rfl | rfl
    · obtain ⟨v, h, hv⟩ := runs_sep (p := p) hu (.inl ⟨rfl, rfl⟩)
      exact ⟨v, h, .inl (by rw [hv.state]; rfl), hv.found_user, by rw [hv.pass]; rfl⟩
    · obtain ⟨v, h, hv⟩ := runs_sep (p := p) hu (.inr ⟨rfl, rfl⟩)
      exact ⟨v, h, .inr hv.state, hv.found_user, by rw [hv.pass]; rfl⟩
  have hend : ∀ {colon : Bool} {v : Vars} {n : ℕ}, Loose colon v →
      Runs v n [chr '@'] fun v => v.state = .URI_HOST ∧ v.found_user = true := fun hv =>
    Runs.char (loose_at hv)
  have hno_at : ∀ {w : Str}, Free ['@'] w → ∀ c ∈ w, c ≠ chr '@' := fun hw c hc e =>
    hw c hc (e ▸ mem_cons_self)
  by_cases hcolon : chr ':' ∈ y'
  · -- the colon of the password
    obtain ⟨y1, y2, rfl, hy1⟩ := eq_append_cons_of_mem hcolon
    have hy2 := hy.colon (c :: y1) y2 rfl
    have hat1 := (free_append.1 hat).1
    have hat2 := (free_cons.1 (free_append.1 hat).2).2
    have hrun : Runs u p ([c] ++ (y1 ++ ([chr ':'] ++ (y2 ++ [chr '@']))))
        fun v => v.state = .URI_HOST ∧ v.found_user = true := by
      refine Runs.then h1 fun v hv n => Runs.then (P := Loose false) ?_ fun v hv n => ?_
      · exact scan_progress (fun s p c hc hs => loose_other hs (fun e => hy1 (e ▸ hc)) (hno_at hat1 c hc)
          fun h => nomatch h) hv
      refine Runs.then (Runs.char (loose_colon hv)) fun v hv n =>
        Runs.then (P := Loose true) ?_ fun v hv n => hend hv
      refine scan_progress (fun s p c hc hs => ?_) hv
      have hne := ne_of_notMem (hy2 c hc)
      simp only [mem_cons, not_mem_nil, or_false, forall_eq_or_imp, forall_eq] at hne
      exact loose_other hs hne.1 (hno_at hat2 c hc) fun _ => hne.2
    simpa using hrun
  · have hrun : Runs u p ([c] ++ (y' ++ [chr '@'])) fun v => v.state = .URI_HOST ∧ v.found_user = true := by
      refine Runs.then h1 fun v hv n => Runs.then (P := Loose false) ?_ fun v hv n => hend hv
      exact scan_progress (fun s p c hc hs => loose_other hs (fun e => hcolon (e ▸ hc)) (hno_at hat c hc)
        fun h => nomatch h) hv
    simpa using hrun

theorem runs_password (hu : View .URI_USER false none u) (hw : Free ['@', ';', '?', '[', ']', ':'] w) :
    Runs u p (chr ':' :: w) fun v => v.state = .URI_PASSWORD ∨ v.state = .URI_PASSWORD_ALPHA := by
  have h1 : Runs u p [chr ':'] fun v => v.state = .URI_PASSWORD ∨ v.state = .URI_PASSWORD_ALPHA := by
    refine Runs.char ?_
    rw [turn, hu.state]
    exact ⟨_, rfl, .inl rfl⟩
  refine Runs.then h1 fun v hv n => scan_progress (fun s p c hc hs => ?_) hv
  have hne := ne_of_notMem (hw c hc)
  simp only [mem_cons, not_mem_nil, or_false, forall_eq_or_imp, forall_eq] at hne
  rcases hs with hs | hs
  · rw [turn, hs]
    dsimp only [case_port]
    rw [if_neg hne.1, if_neg hne.2.1, if_neg hne.2.2.1]
    split_ifs with h1 h2
    · exact ⟨_, rfl, .inl hs⟩
    · exact absurd h2 (by tauto)
    · exact ⟨_, rfl, .inr rfl⟩
  · rw [turn, hs]
    dsimp only
    rw [if_neg hne.1, if_neg (by tauto), if_neg (by tauto)]
    exact ⟨s, rfl, .inr hs⟩

theorem runs_user {user left : Str} (hu : View .URI_INIT false none u) (hw : IsUser w user left) :
    Runs u p (w ++ [chr '@']) fun v => v.state = .URI_HOST ∧ v.found_user = true := by
  cases hw with
  | plain h =>
    refine Runs.then (runs_early hu h) fun v hv n => Runs.char ?_
    rw [turn, hv.state]
    exact ⟨_, rfl, rfl, rfl⟩
  | password h hw =>
    rw [append_assoc]
    refine Runs.then (runs_early hu h) fun v hv n => Runs.then (runs_password hv hw) fun v hv n => ?_
    rcases hv with hv | hv <;>
      exact Runs.char (by rw [turn, hv]; exact ⟨_, rfl, rfl, rfl⟩)
  | guess hb hy =>
    rw [append_assoc]
    exact Runs.then (runs_taken hu hb) fun v hv n => runs_still hv hy

def LeadRead (u : Vars) : Prop :=
  u.state = .URI_USER ∨ u.state = .URI_PASSWORD ∨ u.state = .URI_HOST_P ∨ u.state = .URI_HOST6_END ∨
    u.state = .URI_PORT

theorem runs_early_port (hu : View .URI_USER false none u) (hd : Digits d) :
    Runs u p (chr ':' :: d) fun v => v.state = .URI_PASSWORD := by
  have h1 : Runs u p [chr ':'] fun v => v.state = .URI_PASSWORD := by
    refine Runs.char ?_
    rw [turn, hu.state]
    exact ⟨_, rfl, rfl⟩
  refine Runs.then h1 fun v hv n => scan_progress (fun s p c hc hs => ?_) hv
  have hne := ne_of_notMem (hd.free c hc)
  simp only [mem_cons, not_mem_nil, or_false, forall_eq_or_imp, forall_eq] at hne
  rw [turn, hs]
  dsimp only [case_port]
  rw [if_neg hne.1, if_neg hne.2.1, if_neg hne.2.2.1, if_pos (hd c hc)]
  exact ⟨_, rfl, hs⟩

/-- **Every lead is read.** -/
theorem runs_lead {b : Lead} (hu : View .URI_INIT false none u) (hb : b.Ok) : Runs u p b.text LeadRead := by
  have hport : ∀ {v : Vars} {f pass n}, View .URI_HOST_P f pass v ∨ View .URI_HOST6_END f pass v →
      Runs v n b.port_text LeadRead := by
    intro v f pass n hv
    rw [Lead.port_text]
    cases hp : b.port with
    | none => exact ⟨v, rfl, hv.elim (fun h => by simp [LeadRead, h.state]) fun h => by simp [LeadRead, h.state]⟩
    | some d =>
      obtain ⟨v', h, hv'⟩ := runs_port (p := n) hv (hb.port d hp)
      exact ⟨v', h, by simp [LeadRead, hv'.state]⟩
  rw [Lead.text]
  rcases hb.front with ⟨hf, -⟩ | ⟨w, hf, hw⟩
  · rw [hf, nil_append]
    rcases hb.host with hh | hh
    · exact Runs.then (runs_bracketed (.inl hu) hh) fun v hv n => hport (.inr hv)
    · rw [if_pos hf] at hh
      refine Runs.then (runs_early hu hh) fun v hv n => ?_
      rw [Lead.port_text]
      cases hp : b.port with
      | none => exact ⟨v, rfl, .inl hv.state⟩
      | some d =>
        obtain ⟨v', h, hv'⟩ := runs_early_port (p := n) hv (hb.port d hp)
        exact ⟨v', h, .inr (.inl hv')⟩
  · rw [hf]
    refine Runs.then (runs_user hu hw) fun v hv n => ?_
    have hview : View .URI_HOST true v.pass v := ⟨hv.1, hv.2, rfl⟩
    rcases hb.host with hh | hh
    · exact Runs.then (runs_bracketed (.inr hview) hh) fun v hv n => hport (.inr hv)
    · rw [if_neg (by simp [hf])] at hh
      exact Runs.then (runs_late hview hh) fun v hv n => hport (.inl hv)

theorem runs_lead_semicolon (hu : LeadRead u) : Runs u p [chr ';'] fun v => v.state = .URI_PARAM := by
  rcases hu with hu | hu | hu | hu | hu <;>
    exact Runs.char (by rw [turn, hu]; exact ⟨_, rfl, rfl⟩)

theorem runs_params (hu : in_params u.state = true) (hw : Free ['@', '?'] w) :
    Runs u p w fun v => in_params v.state = true := by
  refine scan_progress (fun s p c hc hs => ?_) hu
  have hne := ne_of_notMem (hw c hc)
  simp only [mem_cons, not_mem_nil, or_false, forall_eq_or_imp, forall_eq] at hne
  by_cases hsemi : c = chr ';'
  · exact ⟨_, hsemi ▸ turn_semicolon hs, rfl⟩
  have hends : ¬ ends c := by
    rintro (h | h | h)
    · exact hne.1 h
    · exact hsemi h
    · exact hne.2 h
  by_cases hcolon : c = chr ':'
  · subst hcolon
    refine ⟨_, turn_colon hs, ?_⟩
    show in_params (move (colon s p).state (chr ':')) = true
    rw [colon_state]
    exact in_params_move hs (by decide)
  · exact ⟨_, turn_other hs hends hcolon, in_params_move hs hends⟩

def Opens (pre : Str) : Prop := ∃ (b : Lead) (x : Str), pre = b.text ++ x ∧ b.Ok ∧ Semis x

/-- **A parameter starts behind every such text.** -/
theorem runs_opens {pre : Str} (hu : View .URI_INIT false none u) (h : Opens pre) :
    Runs u p (pre ++ [chr ';']) fun v => v.state = .URI_PARAM := by
  obtain ⟨b, x, rfl, hb, hx⟩ := h
  rw [append_assoc]
  refine Runs.then (runs_lead hu hb) fun v hv n => ?_
  rcases hx with rfl | ⟨x', rfl, hx'⟩
  · exact runs_lead_semicolon hv
  · have hrun : Runs v n ([chr ';'] ++ (x' ++ [chr ';'])) fun v => v.state = .URI_PARAM := by
      refine Runs.then (runs_lead_semicolon hv) fun v hv n => ?_
      refine Runs.then (runs_params (by rw [hv]; rfl) hx') fun v hv n => ?_
      exact Runs.char ⟨_, turn_semicolon hv, rfl⟩
    simpa using hrun

theorem runs_param {st : State} (hst : u.state = st) (hin : in_params st = true) (hw : ∀ c ∈ w, ¬ ends c) :
    Runs u p w fun v => v.state = w.foldl move st := by
  induction w generalizing u st p with
  | nil => exact ⟨u, rfl, hst⟩
  | cons c w ih =>
    have hc := hw c mem_cons_self
    have hu : in_params u.state = true := hst ▸ hin
    have h1 : Runs u p [c] fun v => v.state = move st c := by
      by_cases hcolon : c = chr ':'
      · subst hcolon
        refine Runs.char ⟨_, turn_colon hu, ?_⟩
        show move (colon u p).state (chr ':') = _
        rw [colon_state, hst]
      · refine Runs.char ⟨_, turn_other hu hc hcolon, ?_⟩
        show move u.state c = _
        rw [hst]
    exact Runs.then (w := [c]) h1 fun v hv n => ih hv (in_params_move hin hc) fun d hd =>
      hw d (mem_cons_of_mem _ hd)

end Runs

section Bug

variable {buf t w : Str} {p p0 : ℕ} {u u' : Vars} {ch : UInt8} {st : State} {type : UriType}

def of_maddr : State → Bool
  | .PMA_A | .PMA_D | .PMA_D2 | .PMA_R | .PMA_eq => true
  | _ => false

theorem end_of_uri_bug : end_of_uri u p = .error .bug ↔ of_maddr u.state = true := by
  rw [end_of_uri]
  cases hs : u.state <;> first
    | exact iff_of_true rfl rfl
    | exact iff_of_false (fun h => by cases h) Bool.false_ne_true
    | (dsimp only
       split_ifs <;> exact iff_of_false (fun h => by cases h) Bool.false_ne_true)

theorem end_of_uri_params (hin : in_params u.state = true) (hm : of_maddr u.state = false) :
    ∃ uri, end_of_uri u p = .ok uri := by
  rw [end_of_uri]
  cases hs : u.state <;> rw [hs] at hin hm <;> first
    | exact ⟨_, rfl⟩
    | exact absurd hin Bool.false_ne_true
    | exact absurd hm.symm Bool.false_ne_true

/-- The beginnings of `maddr=` that the loop takes for it: all but the first letter. -/
def Maddr (w : Str) : Prop :=
  ∃ n, 2 ≤ n ∧ n ≤ 6 ∧ w.map lower = (['m', 'a', 'd', 'd', 'r', '='].map chr).take n

theorem of_maddr_iff (hw : ∀ c ∈ w, ¬ ends c) : of_maddr (w.foldl move .URI_PARAM) = true ↔ Maddr w := by
  constructor
  · intro h
    obtain ⟨t, ht⟩ : ∃ t, t = w.foldl move .URI_PARAM := ⟨_, rfl⟩
    rw [← ht] at h
    have hword : ∀ {v}, word t = some v → w.map lower = v := fun hv => (foldl_move_iff hw hv).1 ht.symm
    cases t <;> first
      | exact absurd h Bool.false_ne_true
      | exact ⟨2, by decide, by decide, hword rfl⟩
      | exact ⟨3, by decide, by decide, hword rfl⟩
      | exact ⟨4, by decide, by decide, hword rfl⟩
      | exact ⟨5, by decide, by decide, hword rfl⟩
      | exact ⟨6, by decide, by decide, hword rfl⟩
  · rintro ⟨n, h2, h6, hn⟩
    have hgo : ∀ t, of_maddr t = true → word t = some (w.map lower) →
        of_maddr (w.foldl move .URI_PARAM) = true := fun t ht hv => by
      rwa [(foldl_move_iff hw hv).2 rfl]
    obtain rfl | rfl | rfl | rfl | rfl : n = 2 ∨ n = 3 ∨ n = 4 ∨ n = 5 ∨ n = 6 := by omega
    · exact hgo .PMA_A rfl (hn ▸ rfl)
    · exact hgo .PMA_D rfl (hn ▸ rfl)
    · exact hgo .PMA_D2 rfl (hn ▸ rfl)
    · exact hgo .PMA_R rfl (hn ▸ rfl)
    · exact hgo .PMA_eq rfl (hn ▸ rfl)

theorem still_at_user_ne_bug : still_at_user u p ≠ .error .bug := by
  unfold still_at_user
  split_ifs <;> exact fun h => by cases h

/-- No character leads to `error_bug`. -/
theorem turn_ne_bug : turn u p ch ≠ .error .bug := by
  by_cases hin : in_params u.state = true
  · by_cases hat : ch = chr '@'
    · rw [hat, turn_at hin]
      exact still_at_user_ne_bug
    by_cases hs : ch = chr ';'
    · rw [hs, turn_semicolon hin]
      exact fun h => by cases h
    by_cases hq : ch = chr '?'
    · rw [hq, turn_question hin]
      exact fun h => by cases h
    by_cases hc : ch = chr ':'
    · rw [hc, turn_colon hin]
      exact fun h => by cases h
    · rw [turn_other hin (by rintro (h | h | h); exacts [hat h, hs h, hq h]) hc]
      exact fun h => by cases h
  · rw [turn]
    cases hs : u.state <;> rw [hs] at hin <;> first
      | exact absurd rfl hin
      | (dsimp only [check_host_end, case_port]
         split_ifs <;> first
           | exact still_at_user_ne_bug
           | exact fun h => by cases h)

theorem scan_ne_bug : scan turn u p w ≠ .error .bug := by
  induction w generalizing u p with
  | nil => exact fun h => by cases h
  | cons c w ih =>
    show (turn u p c >>= fun s => scan turn s (p + 1) w) ≠ _
    cases h : turn u p c with
    | error e => exact fun he => turn_ne_bug (h.trans he)
    | ok s => exact ih

theorem fix_type_ne_bug {uri : SipUri} : fix_type buf uri ≠ .error .bug := by
  unfold fix_type
  split
  · split_ifs <;> exact fun h => by cases h
  · split_ifs <;> exact fun h => by cases h
  · exact fun h => by cases h
  · exact fun h => by cases h
  · exact fun h => by cases h

theorem read_scheme_ne_bug : read_scheme buf ≠ .error .bug := by
  unfold read_scheme
  split
  · split_ifs <;> exact fun h => by cases h
  · exact fun h => by cases h

/-- **The uri ends inside `maddr` or behind its `=`.** -/
def EndsInMaddr (buf : Str) : Prop := ∃ type p0 pre w, read_scheme buf = .ok (type, p0) ∧
  buf.drop p0 = pre ++ chr ';' :: w ∧ Opens pre ∧ Maddr w

theorem Maddr.plain (h : Maddr w) : ∀ c ∈ w, ¬ ends c := by
  obtain ⟨n, -, -, hn⟩ := h
  intro c hc he
  have hmem : lower c ∈ ['m', 'a', 'd', 'd', 'r', '='].map chr :=
    mem_of_mem_take (hn ▸ List.mem_map_of_mem hc)
  rcases he with rfl | rfl | rfl <;> exact absurd hmem (by decide)

theorem scan_last {pre : Str} (htext : buf.drop p0 = pre ++ chr ';' :: w) (hpre : Opens pre)
    (hw : ∀ c ∈ w, ¬ ends c) : ∃ u, scan turn (start type p0) p0 (buf.drop p0) = .ok u ∧
      u.state = w.foldl move .URI_PARAM := by
  have hrun : Runs (start type p0) p0 (pre ++ [chr ';'] ++ w) fun v => v.state = w.foldl move .URI_PARAM :=
    Runs.then (runs_opens ⟨rfl, rfl, rfl⟩ hpre) fun v hv n => runs_param hv rfl hw
  rw [append_assoc, singleton_append] at hrun
  exact htext ▸ hrun

theorem parse_parts_eq (hs : read_scheme buf = .ok (type, p0))
    (hscan : scan turn (start type p0) p0 (buf.drop p0) = .ok u) :
    parse_parts buf = end_of_uri u buf.length := by
  rw [parse_parts, hs]
  show (scan turn (start type p0) p0 (buf.drop p0) >>= fun u => end_of_uri u buf.length) = _
  rw [hscan]
  rfl

theorem parse_uri_of_parts {e : UriError} (h : parse_parts buf = .error e) : parse_uri buf = .error e := by
  rw [parse_uri, h]
  rfl

/-- **`parse_uri` reaches `error_bug` exactly when the uri ends inside `maddr`.** -/
theorem parse_uri_bug : parse_uri buf = .error .bug ↔ EndsInMaddr buf := by
  constructor
  · intro h
    have hparts : parse_parts buf = .error .bug := by
      cases hp : parse_parts buf with
      | error e => exact (parse_uri_of_parts hp).symm.trans h
      | ok parts =>
        rw [parse_uri, hp] at h
        exact absurd h fix_type_ne_bug
    cases hs : read_scheme buf with
    | error e =>
      rw [parse_parts, hs] at hparts
      obtain rfl : e = .bug := Except.error.inj hparts
      exact absurd hs read_scheme_ne_bug
    | ok r =>
      obtain ⟨type, p0⟩ := r
      cases hscan : scan turn (start type p0) p0 (buf.drop p0) with
      | error e =>
        rw [parse_parts, hs] at hparts
        change (scan turn (start type p0) p0 (buf.drop p0) >>= fun u => end_of_uri u buf.length) = _ at hparts
        rw [hscan] at hparts
        obtain rfl : e = .bug := Except.error.inj hparts
        exact absurd hscan scan_ne_bug
      | ok u =>
        rw [parse_parts_eq hs hscan] at hparts
        have hm := end_of_uri_bug.1 hparts
        have hin : in_params u.state = true := by
          revert hm
          cases u.state <;> decide
        have hshape : Shape p0 (buf.drop p0) u := by
          refine scan_prefix (fun t u c u' h e => shape_turn h e) _ ?_ hscan
          exact ⟨rfl, rfl, rfl, rfl, rfl, rfl, rfl, rfl, rfl⟩
        obtain ⟨b, x, q, htext, hx, hq, hst, hb, -⟩ := (shape_iff_params hin).1 hshape
        refine ⟨type, p0, b.text ++ x, q, hs, ?_, ⟨b, x, rfl, hb.ok, hx⟩, (of_maddr_iff hq).1 (hst ▸ hm)⟩
        rw [htext, append_assoc]
  · rintro ⟨type, p0, pre, w, hs, htext, hpre, hm⟩
    obtain ⟨u, hscan, hst⟩ := scan_last htext hpre hm.plain
    refine parse_uri_of_parts ((parse_parts_eq hs hscan).trans (end_of_uri_bug.2 ?_))
    rw [hst]
    exact (of_maddr_iff hm.plain).2 hm

theorem read_scheme_type (h : read_scheme buf = .ok (type, p0)) : type ≠ .ERROR_URI_T := by
  unfold read_scheme at h
  split at h
  · split_ifs at h <;> cases h <;> decide
  · cases h

theorem fix_type_ok {uri : SipUri} (h : uri.type ≠ .ERROR_URI_T) : ∃ uri', fix_type buf uri = .ok uri' := by
  unfold fix_type
  cases ht : uri.type with
  | ERROR_URI_T => exact absurd ht h
  | SIP_URI_T | SIPS_URI_T =>
    split_ifs <;> exact ⟨_, rfl⟩
  | TEL_URI_T | TELS_URI_T => exact ⟨_, rfl⟩

theorem in_params_foldl (hin : in_params st = true) (hw : ∀ c ∈ w, ¬ ends c) :
    in_params (w.foldl move st) = true := by
  induction w generalizing st with
  | nil => exact hin
  | cons c w ih =>
    exact ih (in_params_move hin (hw c mem_cons_self)) fun d hd => hw d (mem_cons_of_mem _ hd)

/-- **Which letters a last parameter consists of decides whether the uri is accepted.** -/
theorem parse_uri_last {pre : Str} (hs : read_scheme buf = .ok (type, p0))
    (htext : buf.drop p0 = pre ++ chr ';' :: w) (hpre : Opens pre) (hw : ∀ c ∈ w, ¬ ends c) :
    (∃ uri, parse_uri buf = .ok uri) ↔ ¬ Maddr w := by
  constructor
  · rintro ⟨uri, e⟩ hm
    rw [parse_uri_bug.2 ⟨type, p0, pre, w, hs, htext, hpre, hm⟩] at e
    cases e
  · intro hm
    obtain ⟨u, hscan, hst⟩ : ∃ u, scan turn (start type p0) p0 (buf.drop p0) = .ok u ∧
        u.state = w.foldl move .URI_PARAM := scan_last htext hpre hw
    have hno : of_maddr u.state = false := by
      rw [hst]
      exact Bool.eq_false_iff.2 fun h => hm ((of_maddr_iff hw).1 h)
    obtain ⟨parts, hparts⟩ := end_of_uri_params (p := buf.length) (hst ▸ in_params_foldl rfl hw) hno
    have hkept : Kept type buf.length u := by
      refine scan_invariant (fun p u ch u' _ h e => h.turn e) (read_scheme_le hs) ?_ hscan
      exact ⟨rfl, Nat.zero_le _, Nat.zero_le _, fun _ => trivial, fun _ => trivial⟩
    rw [parse_uri, parse_parts_eq hs hscan, hparts]
    exact fix_type_ok ((hkept.end_of_uri hparts).1 ▸ read_scheme_type hs)

/-- **No uri that does not end inside `maddr` reaches `error_bug`**, and behind a text that opens a
parameter every other name is accepted. -/
theorem parse_uri_no_bug (buf : Str) : (parse_uri buf ≠ .error .bug ↔ ¬ EndsInMaddr buf) ∧
    ∀ type p0 pre w, read_scheme buf = .ok (type, p0) → buf.drop p0 = pre ++ chr ';' :: w → Opens pre →
      (∀ c ∈ w, ¬ ends c) → ((∃ uri, parse_uri buf = .ok uri) ↔ ¬ Maddr w) :=
  ⟨not_congr parse_uri_bug, fun _ _ _ _ hs htext hpre hw => parse_uri_last hs htext hpre hw⟩

set_option maxRecDepth 10000 in
theorem parse_uri_no_bug_lr : (parse_uri ("sip:a;lr".toList.map chr) ≠ .error .bug ↔
    ¬ EndsInMaddr ("sip:a;lr".toList.map chr)) ∧
    ((∃ uri, parse_uri ("sip:a;lr".toList.map chr) = .ok uri) ↔ ¬ Maddr ("lr".toList.map chr)) := by
  refine ⟨(parse_uri_no_bug _).1, (parse_uri_no_bug _).2 .SIP_URI_T 4 ("a".toList.map chr) _ rfl rfl ?_ ?_⟩
  · refine ⟨lead ("a".toList.map chr) none, [], rfl, lead_ok (.inl ?_) (fun d hd => nomatch hd), .inl rfl⟩
    exact ⟨chr 'a', [], rfl, by decide, Free.nil⟩
  · decide

set_option maxRecDepth 10000 in
/-- A uri that ends in the middle of `maddr` is a bug of the parser to itself. -/
theorem maddr_unhandled : ¬ ∀ buf, parse_uri buf ≠ .error .bug :=
  fun h => h ("sip:host;ma".toList.map chr) rfl

end Bug

end OpenSips.Uri
