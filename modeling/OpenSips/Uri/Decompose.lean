import OpenSips.Uri.Turns

/-!
# OpenSips.Uri.Decompose — the parts of an accepted uri

What was read of the uri is laid out in the parts found so far.  While no user was found, what was
read may all be the user.
-/

namespace OpenSips.Uri

open Lib

/-- User and password in front of the host, which starts at `h`. -/
def UserAt (buf : Str) (p0 : ℕ) (uri : SipUri) (h : ℕ) : Prop :=
  (uri.user = .null ∧ uri.passwd = .null ∧ h = p0) ∨
  (∃ n, uri.user = .part p0 n ∧ uri.passwd = .null ∧ buf[p0 + n]? = some (chr '@') ∧ h = p0 + n + 1) ∨
  (∃ n m, uri.user = .part p0 n ∧ uri.passwd = .part (p0 + n + 1) m ∧
    buf[p0 + n]? = some (chr ':') ∧ buf[p0 + n + 1 + m]? = some (chr '@') ∧ h = p0 + n + 1 + m + 1)

/-- A part behind the character `c`, between `e` and `e'`, if there is one. -/
def Follows (buf : Str) (c : Char) (part : Part) (e e' : ℕ) : Prop :=
  (part = .null ∧ e' = e) ∨
  ∃ n, part = .part (e + 1) n ∧ buf[e]? = some (chr c) ∧ e' = e + 1 + n

/-- **The uri is laid out in its parts**, from `p0` on. -/
def Decomposes (buf : Str) (p0 : ℕ) (uri : SipUri) : Prop :=
  ∃ h n e1 e2, UserAt buf p0 uri h ∧ uri.host = .part h n ∧ 0 < n ∧
    Follows buf ':' uri.port (h + n) e1 ∧ Follows buf ';' uri.params e1 e2 ∧
    Follows buf '?' uri.headers e2 buf.length

def NoUser (uri : SipUri) : Prop := uri.user = .null ∧ uri.passwd = .null

def NoHost (uri : SipUri) : Prop :=
  uri.host = .null ∧ uri.port = .null ∧ uri.params = .null ∧ uri.headers = .null

/-- While no user was found there is none, and `pass` is a colon. -/
def Guess (buf : Str) (p0 p : ℕ) (u : Vars) : Prop :=
  u.found_user = false → NoUser u.uri ∧ ∀ q, u.pass = some q → p0 ≤ q ∧ q < p ∧ buf[q]? = some (chr ':')

/-- What was read in front of position `p`, for each state. -/
def Laid (buf : Str) (p0 p : ℕ) (u : Vars) : Prop :=
  match u.state with
  | .URI_INIT => p = p0 ∧ u.s = p0 ∧ u.found_user = false ∧ u.pass = none ∧ NoUser u.uri ∧ NoHost u.uri
  | .URI_USER => u.s = p0 ∧ p0 < p ∧ u.found_user = false ∧ u.pass = none ∧ NoUser u.uri ∧ NoHost u.uri
  | .URI_PASSWORD | .URI_PASSWORD_ALPHA => u.found_user = false ∧ u.pass = none ∧ NoHost u.uri ∧
      u.uri.passwd = .null ∧ ∃ n, 0 < n ∧ u.uri.user = .part p0 n ∧
        buf[p0 + n]? = some (chr ':') ∧ u.s = p0 + n + 1 ∧ u.s ≤ p
  | .URI_HOST => UserAt buf p0 u.uri u.s ∧ u.s = p ∧ NoHost u.uri ∧ Guess buf p0 p u
  | .URI_HOST_P | .URI_HOST6_P | .URI_HOST6_END =>
      UserAt buf p0 u.uri u.s ∧ u.s < p ∧ NoHost u.uri ∧ Guess buf p0 p u
  | .URI_PORT => ∃ h n, UserAt buf p0 u.uri h ∧ u.uri.host = .part h n ∧ 0 < n ∧
      buf[h + n]? = some (chr ':') ∧ u.s = h + n + 1 ∧ u.s ≤ p ∧ u.uri.port = .null ∧
      u.uri.params = .null ∧ u.uri.headers = .null ∧ Guess buf p0 p u
  | .URI_HEADERS => ∃ h n e1 e2, UserAt buf p0 u.uri h ∧ u.uri.host = .part h n ∧ 0 < n ∧
      Follows buf ':' u.uri.port (h + n) e1 ∧ Follows buf ';' u.uri.params e1 e2 ∧
      buf[e2]? = some (chr '?') ∧ u.s = e2 + 1 ∧ u.s ≤ p ∧ u.uri.headers = .null ∧
      Guess buf p0 p u
  | _ => ∃ h n e1, UserAt buf p0 u.uri h ∧ u.uri.host = .part h n ∧ 0 < n ∧
      Follows buf ':' u.uri.port (h + n) e1 ∧ buf[e1]? = some (chr ';') ∧ u.s = e1 + 1 ∧
      u.s ≤ p ∧ u.uri.params = .null ∧ u.uri.headers = .null ∧ Guess buf p0 p u

variable {buf : Str} {p0 p : ℕ} {u u' : Vars} {ch : UInt8}

theorem laid_params (h : in_params u.state = true) : Laid buf p0 p u ↔
    ∃ h n e1, UserAt buf p0 u.uri h ∧ u.uri.host = .part h n ∧ 0 < n ∧
      Follows buf ':' u.uri.port (h + n) e1 ∧ buf[e1]? = some (chr ';') ∧ u.s = e1 + 1 ∧
      u.s ≤ p ∧ u.uri.params = .null ∧ u.uri.headers = .null ∧ Guess buf p0 p u := by
  unfold Laid
  cases hs : u.state <;> rw [hs] at h <;> exact absurd h Bool.false_ne_true

theorem still_at_user_laid {h n : ℕ} (hu : UserAt buf p0 u.uri h) (hh : u.uri.host = .part h n)
    (hp0 : p0 ≤ p) (hg : Guess buf p0 p u) (hch : buf[p]? = some (chr '@'))
    (e : still_at_user u p = .ok u') : Laid buf p0 (p + 1) u' := by
  unfold still_at_user at e
  cases hf : u.found_user with
  | true =>
    rw [hf, if_pos rfl] at e
    cases e
  | false =>
    obtain ⟨⟨hu0, hp0'⟩, hq⟩ := hg hf
    have hh0 : h = p0 := by
      rcases hu with ⟨-, -, rfl⟩ | ⟨n, hn, -⟩ | ⟨n, m, hn, -⟩
      · rfl
      · exact absurd (hu0.symm.trans hn) (by simp)
      · exact absurd (hu0.symm.trans hn) (by simp)
    subst hh0
    rw [hf, if_neg Bool.false_ne_true] at e
    cases hpass : u.pass with
    | none =>
      simp only [hpass, hh, Part.s] at e
      cases e
      refine ⟨.inr (.inl ⟨p - h, rfl, rfl, ?_, ?_⟩), rfl, ⟨rfl, rfl, rfl, rfl⟩, fun h => absurd h (by simp)⟩
      · rwa [Nat.add_sub_cancel' hp0]
      · show p + 1 = _
        omega
    | some q =>
      obtain ⟨hq1, hq2, hq3⟩ := hq q hpass
      simp only [hpass, hh, Part.s] at e
      cases e
      refine ⟨.inr (.inr ⟨q - h, p - (q + 1), rfl, ?_, ?_, ?_, ?_⟩), rfl, ⟨rfl, rfl, rfl, rfl⟩,
        fun h => absurd h (by simp)⟩
      · show Part.part (q + 1) _ = _
        rw [Nat.add_sub_cancel' hq1]
      · rwa [Nat.add_sub_cancel' hq1]
      · rwa [Nat.add_sub_cancel' hq1, Nat.add_sub_cancel' hq2]
      · show p + 1 = _
        omega

theorem Guess.succ (h : Guess buf p0 p u) : Guess buf p0 (p + 1) u := by
  intro hf
  obtain ⟨hu, hq⟩ := h hf
  exact ⟨hu, fun q e => ⟨(hq q e).1, Nat.lt_succ_of_lt (hq q e).2.1, (hq q e).2.2⟩⟩

theorem Guess.no_user (h : Guess buf p0 p u) : Guess buf p0 p (no_user u) := by
  unfold Uri.no_user
  cases hp : u.pass with
  | none => exact h
  | some q => exact fun hf => absurd hf (by simp)

theorem Guess.colon (h : Guess buf p0 p u) (hp0 : p0 ≤ p) (hch : buf[p]? = some (chr ':')) :
    Guess buf p0 (p + 1) (colon u p) := by
  unfold Uri.colon
  by_cases hf : u.found_user = true
  · rw [if_pos hf]
    exact h.succ
  · rw [if_neg hf]
    cases hp : u.pass with
    | some q => exact h.no_user.succ
    | none =>
      refine fun hf => ⟨(h hf).1, fun q e => ?_⟩
      obtain rfl := Option.some.inj e
      exact ⟨hp0, Nat.lt_succ_self _, hch⟩

theorem UserAt.congr {uri uri' : SipUri} {h : ℕ} (hu : UserAt buf p0 uri h)
    (h1 : uri'.user = uri.user) (h2 : uri'.passwd = uri.passwd) : UserAt buf p0 uri' h := by
  rwa [UserAt, h1, h2]

theorem Guess.congr (h : Guess buf p0 p u) (h1 : u'.found_user = u.found_user)
    (h2 : u'.pass = u.pass) (h3 : u'.uri.user = u.uri.user) (h4 : u'.uri.passwd = u.uri.passwd) :
    Guess buf p0 p u' := by
  intro hf
  rw [NoUser, h3, h4, h2]
  exact h (h1 ▸ hf)

theorem Frame.guess (hfr : Frame u u') (h : Guess buf p0 p u) : Guess buf p0 p u' :=
  h.congr hfr.found_user hfr.pass hfr.user hfr.passwd

theorem Frame.userAt {h : ℕ} (hfr : Frame u u') (hu : UserAt buf p0 u.uri h) : UserAt buf p0 u'.uri h :=
  hu.congr hfr.user hfr.passwd

theorem laid_params_turn (hin : in_params u.state = true) (hp0 : p0 ≤ p)
    (h : Laid buf p0 p u) (hch : buf[p]? = some ch) (e : turn u p ch = .ok u') :
    Laid buf p0 (p + 1) u' := by
  obtain ⟨h, n, e1, hu, hh, hn, hport, hsemi, hs, hsp, hparams, hheaders, hg⟩ := (laid_params hin).1 h
  have hfr := (entered_frame u).trans (recorded_frame (entered u) p)
  by_cases hat : ch = chr '@'
  · subst hat
    rw [turn_at hin] at e
    have hfe := entered_frame u
    exact still_at_user_laid (hfe.userAt hu) (hfe.host.trans hh) hp0 (hfe.guess hg) hch e
  · by_cases hsc : ch = chr ';'
    · subst hsc
      rw [turn_semicolon hin] at e
      cases e
      refine (laid_params rfl).2 ⟨h, n, e1, ?_, ?_, hn, ?_, hsemi, ?_, ?_, ?_, ?_, ?_⟩
      · simpa [semicolon_case] using hfr.userAt hu
      · simpa [semicolon_case] using hfr.host.trans hh
      · simpa [semicolon_case, hfr.port] using hport
      · simpa [semicolon_case] using hfr.s.trans hs
      · simpa [semicolon_case, hfr.s] using Nat.le_succ_of_le hsp
      · simpa [semicolon_case] using hfr.params.trans hparams
      · simpa [semicolon_case] using hfr.headers.trans hheaders
      · exact (hfr.guess hg).no_user.succ
    · by_cases hq : ch = chr '?'
      · subst hq
        rw [turn_question hin] at e
        cases e
        refine ⟨h, n, e1, p, ?_, ?_, hn, ?_, .inr ⟨p - u.s, ?_, hsemi, ?_⟩, hch, rfl, ?_, ?_, ?_⟩
        · exact (hfr.userAt hu).congr (by simp [question_case]) (by simp [question_case])
        · simpa [question_case] using hfr.host.trans hh
        · simpa [question_case, hfr.port] using hport
        · simp [question_case, hfr.s, hs]
        · omega
        · simp [question_case]
        · simpa [question_case] using hfr.headers.trans hheaders
        · exact (hfr.guess hg).no_user.succ.congr rfl rfl (by simp [question_case])
            (by simp [question_case])
      · have hends : ¬ ends ch := by
          simp [ends, hat, hsc, hq]
        by_cases hc : ch = chr ':'
        · subst hc
          rw [turn_colon hin] at e
          cases e
          have hfw := went_on_frame (colon u p) p (chr ':')
          refine (laid_params ?_).2 ⟨h, n, e1, hfw.userAt (by simpa using hu),
            hfw.host.trans (by simpa using hh), hn, ?_, hsemi, hfw.s.trans (by simpa using hs), ?_,
            hfw.params.trans (by simpa using hparams), hfw.headers.trans (by simpa using hheaders),
            hfw.guess (hg.colon hp0 hch)⟩
          · show in_params (move (colon u p).state _) = true
            rw [colon_state]
            exact in_params_move hin hends
          · rw [hfw.port]
            simpa using hport
          · rw [hfw.s]
            simpa using Nat.le_succ_of_le hsp
        · rw [turn_other hin hends hc] at e
          cases e
          have hfw := went_on_frame u p ch
          refine (laid_params (in_params_move hin hends)).2 ⟨h, n, e1, hfw.userAt hu,
            hfw.host.trans hh, hn, ?_, hsemi, hfw.s.trans hs, ?_, hfw.params.trans hparams,
            hfw.headers.trans hheaders, hfw.guess hg.succ⟩
          · rwa [hfw.port]
          · rw [hfw.s]
            exact Nat.le_succ_of_le hsp

theorem laid_user_turn (hs : u.state = .URI_INIT ∨ u.state = .URI_USER) (h : Laid buf p0 p u)
    (hch : buf[p]? = some ch) (e : turn u p ch = .ok u') : Laid buf p0 (p + 1) u' := by
  rcases hs with hs | hs
  · rw [Laid, hs] at h
    obtain ⟨rfl, hs0, hf, hpass, hnu, hnh⟩ := h
    rw [turn, hs] at e
    dsimp only at e
    split_ifs at e <;> cases e
    · exact ⟨.inl ⟨hnu.1, hnu.2, rfl⟩, Nat.lt_succ_self _, hnh,
        fun _ => ⟨hnu, fun q hq => absurd (hpass.symm.trans hq) (by simp)⟩⟩
    · exact ⟨hs0, Nat.lt_succ_self _, hf, hpass, hnu, hnh⟩
  · rw [Laid, hs] at h
    obtain ⟨hs0, hlt, hf, hpass, hnu, hnh⟩ := h
    have hg : ∀ q, u.pass = some q → p0 ≤ q ∧ q < p + 1 ∧ buf[q]? = some (chr ':') :=
      fun q hq => absurd (hpass.symm.trans hq) (by simp)
    have hadd : p0 + (p - p0) = p := Nat.add_sub_cancel' (le_of_lt hlt)
    rw [turn, hs] at e
    dsimp only at e
    split_ifs at e with h1 h2 h3 h4 <;> cases e
    · subst h1
      refine ⟨.inr (.inl ⟨p - p0, ?_, hnu.2, by rwa [hadd], by rw [hadd]⟩), rfl, hnh,
        fun h => absurd h (by simp)⟩
      rw [hs0]
    · subst h2
      refine ⟨hf, hpass, hnh, hnu.2, p - p0, Nat.sub_pos_of_lt hlt, ?_, by rwa [hadd], by rw [hadd], le_rfl⟩
      rw [hs0]
    · subst h3
      refine ⟨p0, p - p0, p, .inl ⟨hnu.1, hnu.2, rfl⟩, ?_, Nat.sub_pos_of_lt hlt,
        .inl ⟨hnh.2.1, hadd.symm⟩, hch, rfl, le_rfl, hnh.2.2.1, hnh.2.2.2, fun _ => ⟨hnu, hg⟩⟩
      rw [hs0]
    · subst h4
      refine ⟨p0, p - p0, p, p, .inl ⟨hnu.1, hnu.2, rfl⟩, ?_, Nat.sub_pos_of_lt hlt,
        .inl ⟨hnh.2.1, hadd.symm⟩, .inl ⟨hnh.2.2.1, rfl⟩, hch, rfl, le_rfl, hnh.2.2.2,
        fun _ => ⟨hnu, hg⟩⟩
      rw [hs0]
    · rw [Laid, hs]
      exact ⟨hs0, Nat.lt_succ_of_lt hlt, hf, hpass, hnu, hnh⟩

theorem laid_password_turn (hs : u.state = .URI_PASSWORD ∨ u.state = .URI_PASSWORD_ALPHA)
    (h : Laid buf p0 p u) (hch : buf[p]? = some ch) (e : turn u p ch = .ok u') :
    Laid buf p0 (p + 1) u' := by
  have h' : u.found_user = false ∧ u.pass = none ∧ NoHost u.uri ∧ u.uri.passwd = .null ∧
      ∃ n, 0 < n ∧ u.uri.user = .part p0 n ∧ buf[p0 + n]? = some (chr ':') ∧ u.s = p0 + n + 1 ∧ u.s ≤ p := by
    rcases hs with hs | hs <;> rwa [Laid, hs] at h
  obtain ⟨hf, hpass, hnh, hpw, n, hn, hu, hc, hs0, hsp⟩ := h'
  have hadd : p0 + n + 1 + (p - u.s) = p := by
    rw [← hs0]
    exact Nat.add_sub_cancel' hsp
  have hkeep : ∀ st n', st = .URI_PASSWORD ∨ st = .URI_PASSWORD_ALPHA →
      Laid buf p0 (p + 1) { u with state := st, port_no := n' } := by
    intro st n' hst
    rcases hst with rfl | rfl
    · exact ⟨hf, hpass, hnh, hpw, n, hn, hu, hc, hs0, Nat.le_succ_of_le hsp⟩
    · exact ⟨hf, hpass, hnh, hpw, n, hn, hu, hc, hs0, Nat.le_succ_of_le hsp⟩
  have hat : ch = chr '@' → ∀ n', Laid buf p0 (p + 1) { u with
      uri := { u.uri with passwd := .part u.s (p - u.s) }, port_no := n', state := .URI_HOST,
      found_user := true, s := p + 1 } := by
    rintro rfl n'
    refine ⟨.inr (.inr ⟨n, p - u.s, hu, ?_, hc, by rwa [hadd], by rw [hadd]⟩), rfl, hnh,
      fun h => absurd h (by simp)⟩
    rw [hs0]
  rcases hs with hs | hs
  · rw [turn, hs] at e
    dsimp only [case_port] at e
    split_ifs at e with h1 h2 h3 <;> cases e
    · exact hat h1 0
    · subst h2
      refine ⟨p0, n, p, .inl ⟨rfl, hpw, rfl⟩, hu, hn, .inr ⟨p - u.s, ?_, hc, hadd.symm⟩, hch, rfl,
        le_rfl, hnh.2.2.1, hnh.2.2.2, fun h => absurd h (by simp)⟩
      rw [set_port, hs0]
    · subst h3
      refine ⟨p0, n, p, p, .inl ⟨rfl, hpw, rfl⟩, hu, hn, .inr ⟨p - u.s, ?_, hc, hadd.symm⟩,
        .inl ⟨hnh.2.2.1, rfl⟩, hch, rfl, le_rfl, hnh.2.2.2, fun h => absurd h (by simp)⟩
      rw [set_port, hs0]
    · exact hs ▸ hkeep .URI_PASSWORD _ (.inl rfl)
    · exact hkeep _ _ (.inr rfl)
  · rw [turn, hs] at e
    dsimp only at e
    split_ifs at e with h1 <;> cases e
    · exact hat h1 _
    · have := hkeep u.state u.port_no (.inr hs)
      exact this

theorem laid_host_turn (hs : u.state = .URI_HOST ∨ u.state = .URI_HOST_P ∨ u.state = .URI_HOST6_P ∨
    u.state = .URI_HOST6_END) (h : Laid buf p0 p u)
    (hch : buf[p]? = some ch) (e : turn u p ch = .ok u') : Laid buf p0 (p + 1) u' := by
  rcases hs with hs | hs
  · rw [Laid, hs] at h
    obtain ⟨hu, hsp, hnh, hg⟩ := h
    have hlt : u.s < p + 1 := by omega
    rw [turn, hs] at e
    dsimp only at e
    split_ifs at e <;> cases e <;> exact ⟨hu, hlt, hnh, hg.succ⟩
  · have h' : UserAt buf p0 u.uri u.s ∧ u.s < p ∧ NoHost u.uri ∧ Guess buf p0 p u := by
      rcases hs with hs | hs | hs <;> rwa [Laid, hs] at h
    obtain ⟨hu, hsp, hnh, hg⟩ := h'
    have hadd : u.s + (p - u.s) = p := Nat.add_sub_cancel' (le_of_lt hsp)
    have hn : 0 < p - u.s := Nat.sub_pos_of_lt hsp
    have hkeep : Laid buf p0 (p + 1) u := by
      rcases hs with hs | hs | hs <;> rw [Laid, hs] <;>
        exact ⟨hu, Nat.lt_succ_of_lt hsp, hnh, hg.succ⟩
    have hend : ∀ other, (∀ v, other = .ok v → Laid buf p0 (p + 1) v) →
        check_host_end u p ch other = .ok u' → Laid buf p0 (p + 1) u' := by
      intro other ho e
      unfold check_host_end at e
      split_ifs at e with h1 h2 h3 h4
      · cases e
        subst h1
        exact ⟨u.s, p - u.s, hu, rfl, hn, by rwa [hadd], by rw [hadd], le_rfl, hnh.2.1,
          hnh.2.2.1, hnh.2.2.2, hg.succ⟩
      · cases e
        subst h2
        exact ⟨u.s, p - u.s, p, hu, rfl, hn, .inl ⟨hnh.2.1, hadd.symm⟩, hch, rfl, le_rfl,
          hnh.2.2.1, hnh.2.2.2, hg.succ⟩
      · cases e
        subst h3
        exact ⟨u.s, p - u.s, p, p, hu, rfl, hn, .inl ⟨hnh.2.1, hadd.symm⟩,
          .inl ⟨hnh.2.2.1, rfl⟩, hch, rfl, le_rfl, hnh.2.2.2, hg.succ⟩
      · exact ho u' e
    rcases hs with hs | hs | hs
    · rw [turn, hs] at e
      exact hend _ (fun v hv => by cases hv; exact hkeep) e
    · rw [turn, hs] at e
      dsimp only at e
      split_ifs at e <;> cases e
      · exact ⟨hu, Nat.lt_succ_of_lt hsp, hnh, hg.succ⟩
      · exact hkeep
    · rw [turn, hs] at e
      exact hend _ (fun v hv => by cases hv) e

theorem laid_port_turn (hs : u.state = .URI_PORT) (h : Laid buf p0 p u) (hch : buf[p]? = some ch)
    (e : turn u p ch = .ok u') : Laid buf p0 (p + 1) u' := by
  rw [Laid, hs] at h
  obtain ⟨h, n, hu, hh, hn, hc, hs0, hsp, hport, hparams, hheaders, hg⟩ := h
  have hadd : h + n + 1 + (p - u.s) = p := by
    rw [← hs0]
    exact Nat.add_sub_cancel' hsp
  rw [turn, hs] at e
  dsimp only [case_port] at e
  split_ifs at e with h1 h2 <;> cases e
  · subst h1
    refine ⟨h, n, p, hu, hh, hn, .inr ⟨p - u.s, ?_, hc, hadd.symm⟩, hch, rfl, le_rfl,
      hparams, hheaders, hg.succ⟩
    rw [set_port, hs0]
  · subst h2
    refine ⟨h, n, p, p, hu, hh, hn, .inr ⟨p - u.s, ?_, hc, hadd.symm⟩, .inl ⟨hparams, rfl⟩, hch,
      rfl, le_rfl, hheaders, hg.succ⟩
    rw [set_port, hs0]
  · rw [Laid, hs]
    exact ⟨h, n, hu, hh, hn, hc, hs0, Nat.le_succ_of_le hsp, hport, hparams, hheaders, hg.succ⟩

theorem laid_headers_turn (hs : u.state = .URI_HEADERS) (hp0 : p0 ≤ p) (h : Laid buf p0 p u)
    (hch : buf[p]? = some ch) (e : turn u p ch = .ok u') : Laid buf p0 (p + 1) u' := by
  rw [Laid, hs] at h
  obtain ⟨h, n, e1, e2, hu, hh, hn, hport, hparams, hq, hs0, hsp, hheaders, hg⟩ := h
  have hkeep : ∀ v : Vars, v.state = .URI_HEADERS → v.s = u.s → v.uri = u.uri →
      Guess buf p0 (p + 1) v → Laid buf p0 (p + 1) v := by
    intro v hvs hv0 hvu hvg
    rw [Laid, hvs]
    rw [hv0, hvu]
    exact ⟨h, n, e1, e2, hu, hh, hn, hport, hparams, hq, hs0, Nat.le_succ_of_le hsp, hheaders, hvg⟩
  rw [turn, hs] at e
  dsimp only at e
  split_ifs at e with h1 h2 h3 h4 h5 h6
  · subst h1
    exact still_at_user_laid hu hh hp0 hg hch e
  · cases e
    exact hkeep _ rfl rfl rfl hg.succ
  · cases e
    subst h5
    exact hkeep _ (by simpa using hs) (by simp) (by simp) (hg.colon hp0 hch)
  · cases e
    exact hkeep _ (by simpa using hs) (by simp) (by simp) hg.no_user.succ
  · cases e
    exact hkeep _ hs rfl rfl hg.succ

/-- **Every character keeps what was read laid out.** -/
theorem laid_turn (hp0 : p0 ≤ p) (h : Laid buf p0 p u) (hch : buf[p]? = some ch)
    (e : turn u p ch = .ok u') : Laid buf p0 (p + 1) u' := by
  cases hs : u.state with
  | URI_INIT => exact laid_user_turn (.inl hs) h hch e
  | URI_USER => exact laid_user_turn (.inr hs) h hch e
  | URI_PASSWORD => exact laid_password_turn (.inl hs) h hch e
  | URI_PASSWORD_ALPHA => exact laid_password_turn (.inr hs) h hch e
  | URI_HOST => exact laid_host_turn (.inl hs) h hch e
  | URI_HOST_P => exact laid_host_turn (.inr (.inl hs)) h hch e
  | URI_HOST6_P => exact laid_host_turn (.inr (.inr (.inl hs))) h hch e
  | URI_HOST6_END => exact laid_host_turn (.inr (.inr (.inr hs))) h hch e
  | URI_PORT => exact laid_port_turn hs h hch e
  | URI_HEADERS => exact laid_headers_turn hs hp0 h hch e
  | _ => exact laid_params_turn (by rw [hs]; rfl) hp0 h hch e

/-- **The end of the uri ends the last part.** -/
theorem laid_end {uri : SipUri} (h : Laid buf p0 buf.length u)
    (e : end_of_uri u buf.length = .ok uri) : Decomposes buf p0 uri := by
  have hhost : UserAt buf p0 u.uri u.s → u.s < buf.length → NoHost u.uri →
      Decomposes buf p0 { u.uri with host := .part u.s (buf.length - u.s) } := fun hu hsp hnh =>
    ⟨u.s, _, buf.length, buf.length, hu, rfl, Nat.sub_pos_of_lt hsp,
      .inl ⟨hnh.2.1, (Nat.add_sub_cancel' (le_of_lt hsp)).symm⟩, .inl ⟨hnh.2.2.1, rfl⟩,
      .inl ⟨hnh.2.2.2, rfl⟩⟩
  cases hs : u.state with
  | URI_INIT =>
    rw [end_of_uri, hs] at e
    cases e
  | URI_USER =>
    rw [Laid, hs] at h
    obtain ⟨hs0, hlt, hf, -, hnu, hnh⟩ := h
    rw [end_of_uri, hs, hf] at e
    cases e
    exact hhost (.inl ⟨hnu.1, hnu.2, hs0⟩) (by rwa [hs0]) hnh
  | URI_PASSWORD =>
    rw [Laid, hs] at h
    obtain ⟨hf, -, hnh, hpw, n, hn, hu, hc, hs0, hsp⟩ := h
    rw [end_of_uri, hs, hf] at e
    cases e
    refine ⟨p0, n, buf.length, buf.length, .inl ⟨rfl, hpw, rfl⟩, hu, hn,
      .inr ⟨buf.length - u.s, ?_, hc, ?_⟩, .inl ⟨hnh.2.2.1, rfl⟩, .inl ⟨hnh.2.2.2, rfl⟩⟩
    · rw [set_port, hs0]
    · omega
  | URI_PASSWORD_ALPHA =>
    rw [end_of_uri, hs] at e
    cases e
  | URI_HOST =>
    rw [end_of_uri, hs] at e
    cases e
  | URI_HOST6_P =>
    rw [end_of_uri, hs] at e
    cases e
  | URI_HOST_P =>
    rw [Laid, hs] at h
    rw [end_of_uri, hs] at e
    cases e
    exact hhost h.1 h.2.1 h.2.2.1
  | URI_HOST6_END =>
    rw [Laid, hs] at h
    rw [end_of_uri, hs] at e
    cases e
    exact hhost h.1 h.2.1 h.2.2.1
  | URI_PORT =>
    rw [Laid, hs] at h
    obtain ⟨h, n, hu, hh, hn, hc, hs0, hsp, hport, hparams, hheaders, -⟩ := h
    rw [end_of_uri, hs] at e
    cases e
    refine ⟨h, n, buf.length, buf.length, hu, hh, hn, .inr ⟨buf.length - u.s, ?_, hc, ?_⟩,
      .inl ⟨hparams, rfl⟩, .inl ⟨hheaders, rfl⟩⟩
    · rw [set_port, hs0]
    · omega
  | URI_HEADERS =>
    rw [Laid, hs] at h
    obtain ⟨h, n, e1, e2, hu, hh, hn, hport, hparams, hq, hs0, hsp, hheaders, -⟩ := h
    rw [end_of_uri, hs] at e
    dsimp only at e
    split_ifs at e
    cases e
    refine ⟨h, n, e1, e2, hu, hh, hn, hport, hparams, .inr ⟨buf.length - u.s, ?_, hq, ?_⟩⟩
    · rw [hs0]
    · omega
  | _ =>
    have hin : in_params u.state = true := by rw [hs]; rfl
    obtain ⟨h, n, e1, hu, hh, hn, hport, hsemi, hs0, hsp, hparams, hheaders, -⟩ := (laid_params hin).1 h
    obtain rfl := end_of_params hin e
    have hfr := recorded_last_frame (params_set u buf.length) buf.length
    refine ⟨h, n, e1, buf.length, hu.congr hfr.user hfr.passwd, hfr.host.trans hh, hn, ?_,
      .inr ⟨buf.length - u.s, ?_, hsemi, ?_⟩, .inl ⟨hfr.headers.trans hheaders, rfl⟩⟩
    · rw [hfr.port]
      exact hport
    · rw [hfr.params, ← hs0]
      rfl
    · omega

end OpenSips.Uri
