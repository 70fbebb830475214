import OpenSips.Uri.Assemble
import OpenSips.Uri.Reading

/-!
# OpenSips.Uri.Recorded — what an accepted uri records of its parameters

Over the whole loop every parameter is recorded in turn; what is kept of a parameter that occurs
more than once is what its last occurrences record.
-/

namespace OpenSips.Uri

open Lib List

/-- The parameters of a text at `pos`, none of them at the end of the uri. -/
def places : ℕ → List Str → List Piece
  | _, [] => []
  | pos, q :: qs => ⟨pos, q, false⟩ :: places (pos + q.length + 1) qs

def mark_last : List Piece → List Piece
  | [] => []
  | [x] => [{ x with last := true }]
  | x :: y :: xs => x :: mark_last (y :: xs)

/-- The parameters of the part `uri->params`. -/
def pieces_of (buf : Str) : Part → List Piece
  | .null => []
  | params => places params.s ((params.text buf).splitOn (chr ';'))

/-- **The parameters of an accepted uri.** -/
def pieces (buf : Str) (uri : SipUri) : List Piece :=
  if uri.headers = .null then mark_last (pieces_of buf uri.params) else pieces_of buf uri.params

def Records.zero : Records := SipUri.zero.records

section Places

theorem places_append (pos : ℕ) (ps qs : List Str) :
    places pos (ps ++ qs) = places pos ps ++ places (pos + (ps.map (·.length + 1)).sum) qs := by
  induction ps generalizing pos with
  | nil => rfl
  | cons q ps ih =>
    rw [cons_append, places, ih, places, cons_append, map_cons, sum_cons]
    congr 3
    omega

theorem mark_last_concat (xs : List Piece) (x : Piece) :
    mark_last (xs ++ [x]) = xs ++ [{ x with last := true }] := by
  induction xs with
  | nil => rfl
  | cons y xs ih =>
    cases xs with
    | nil => rfl
    | cons z xs =>
      rw [cons_append] at ih ⊢
      rw [cons_append, mark_last]
      exact congrArg _ ih

theorem splitOn_params {ps : List Str} {q : Str} (hps : ∀ x ∈ ps, chr ';' ∉ x) (hq : chr ';' ∉ q) :
    ((ps.map (· ++ [chr ';'])).flatten ++ q).splitOn (chr ';') = ps ++ [q] := by
  induction ps with
  | nil =>
    rw [map_nil, flatten_nil, nil_append, nil_append, splitOn_eq_splitOnP, splitOnP_eq_singleton]
    intro c hc
    refine beq_eq_false_iff_ne.2 ?_
    rintro rfl
    exact hq hc
  | cons x ps ih =>
    rw [map_cons, List.flatten_cons, append_assoc, append_assoc,
      singleton_append, splitOn_append_cons_self_of_not_mem (hps x mem_cons_self),
      ih fun y hy => hps y (mem_cons_of_mem _ hy), cons_append]

end Places

section Runs

variable {buf : Str} {p : ℕ} {u u' : Vars} {ch : UInt8} {uri : SipUri}

def Logging (buf : Str) (p : ℕ) (u : Vars) : Prop :=
  ∃ ps q, (∀ x ∈ ps, chr ';' ∉ x) ∧ (ps.map (· ++ [chr ';'])).flatten ++ q <+: buf.drop u.s ∧
    p = u.s + (ps.map (·.length + 1)).sum + q.length ∧
    Reading (u.s + (ps.map (·.length + 1)).sum) q u ∧
    u.uri.records = (places u.s ps).foldl record .zero

/-- What is recorded at position `p`. -/
def Logged (buf : Str) (p : ℕ) (u : Vars) : Prop :=
  if in_params u.state = true then Logging buf p u
  else if u.state = .URI_HEADERS then
    u.uri.records = (pieces_of buf u.uri.params).foldl record .zero
  else u.uri.params = .null ∧ u.uri.records = .zero

theorem length_params (ps : List Str) (q : Str) :
    ((ps.map (· ++ [chr ';'])).flatten ++ q).length = (ps.map (·.length + 1)).sum + q.length := by
  rw [length_append, length_flatten, List.map_map]
  congr 3
  funext x
  simp

theorem text_of_prefix {t : Str} {s : ℕ} (h : t <+: buf.drop s) : (Part.part s t.length).text buf = t :=
  (prefix_iff_eq_take.1 h).symm

theorem prefix_concat {t : Str} {s : ℕ} (h : t <+: buf.drop s) (hc : buf[s + t.length]? = some ch) :
    t ++ [ch] <+: buf.drop s := by
  obtain ⟨r, hr⟩ := h
  have hlen : (buf.drop s)[t.length]? = some ch := by
    rw [getElem?_drop, hc]
  rw [← hr, getElem?_append_right (le_rfl), Nat.sub_self] at hlen
  cases r with
  | nil => cases hlen
  | cons d r =>
    obtain rfl := Option.some.inj hlen
    exact ⟨r, by rw [append_assoc, singleton_append, hr]⟩

theorem turn_outside_state (h : in_params u.state = false) (e : turn u p ch = .ok u') :
    (u.state = .URI_HEADERS ∧ still_at_user u p = .ok u') ∨
      (u.state = .URI_HEADERS ∧ u'.state = .URI_HEADERS ∧ u'.uri = u.uri) ∨
      (u.state ≠ .URI_HEADERS ∧ u'.uri.params = u.uri.params ∧
        (in_params u'.state = true → u'.state = .URI_PARAM ∧ u'.s = p + 1)) := by
  cases hs : u.state <;> rw [hs] at h <;> first
    | exact absurd h.symm Bool.false_ne_true
    | (rw [turn, hs] at e
       dsimp only [check_host_end, case_port] at e
       split_ifs at e <;> first
         | exact .inl ⟨rfl, e⟩
         | (cases e; exact .inr (.inr ⟨by decide, rfl, fun h => absurd h Bool.false_ne_true⟩))
         | (cases e; exact .inr (.inr ⟨by decide, rfl, fun _ => ⟨rfl, rfl⟩⟩))
         | (cases e; exact .inr (.inr ⟨by decide, rfl, fun h => by rw [hs] at h; cases h⟩))
         | (cases e; exact .inr (.inl ⟨rfl, by simp [hs], by simp⟩)))

theorem still_at_user_logged (e : still_at_user u p = .ok u') : Logged buf (p + 1) u' := by
  have hr := still_at_user_records e
  obtain ⟨-, -, hs, hg, hv, hp⟩ := hr
  have hparams : u'.uri.params = .null := by
    unfold still_at_user at e
    split_ifs at e
    cases hp : u.pass <;> rw [hp] at e <;> cases e <;> rfl
  rw [Logged, hs, if_neg (by decide), if_neg (by decide)]
  exact ⟨hparams, Records.ext hg hv hp⟩

/-- **A character inside the parameters.** -/
theorem logging_turn (hin : in_params u.state = true) (h : Logging buf p u)
    (hch : buf[p]? = some ch) (e : turn u p ch = .ok u') : Logged buf (p + 1) u' := by
  obtain ⟨ps, q, hps, htext, hp, hread, hrec⟩ := h
  have hq : chr ';' ∉ q := fun hmem => hread.plain _ hmem (.inr (.inl rfl))
  have hlen := length_params ps q
  have hpos : u.s + ((ps.map (· ++ [chr ';'])).flatten ++ q).length = p := by
    rw [hlen, hp, add_assoc]
  have htext' := prefix_concat htext (hpos.symm ▸ hch)
  have hfr := (entered_frame u).trans (recorded_frame (entered u) p)
  have hrecord : (recorded (entered u) p).uri.records = (places u.s (ps ++ [q])).foldl record .zero := by
    rw [hp, hread.recorded, hrec, places_append, foldl_append]
    rfl
  by_cases hat : ch = chr '@'
  · subst hat
    rw [turn_at hin] at e
    exact still_at_user_logged e
  · by_cases hsc : ch = chr ';'
    · subst hsc
      rw [turn_semicolon hin] at e
      cases e
      have hs : (semicolon_case (recorded (entered u) p)).s = u.s := by
        simpa [semicolon_case] using hfr.s
      have hst : in_params (semicolon_case (recorded (entered u) p)).state = true := rfl
      rw [Logged, if_pos hst]
      refine ⟨ps ++ [q], [], ?_, ?_, ?_, Reading.start rfl, ?_⟩
      · intro x hx
        rcases mem_append.1 hx with hx | hx
        · exact hps x hx
        · rwa [mem_singleton.1 hx]
      · rw [hs]
        simpa using htext'
      · rw [hs, hp]
        simp
        omega
      · rw [hs]
        simpa [semicolon_case] using hrecord
    · by_cases hqm : ch = chr '?'
      · subst hqm
        rw [turn_question hin] at e
        cases e
        have hst : (question_case (recorded (entered u) p) p).state = .URI_HEADERS := rfl
        rw [Logged, hst, if_neg (by decide), if_pos rfl]
        refine hrecord.trans ?_
        have hparams : (question_case (recorded (entered u) p) p).uri.params =
            .part u.s ((ps.map (· ++ [chr ';'])).flatten ++ q).length := by
          show Part.part (recorded (entered u) p).s (p - (recorded (entered u) p).s) = _
          rw [hfr.s, ← hpos, Nat.add_sub_cancel_left]
        rw [hparams, pieces_of, text_of_prefix htext, splitOn_params hps hq]
        · rfl
        · intro h
          cases h
      · have hends : ¬ ends ch := by simp [ends, hat, hsc, hqm]
        have key : ∀ v : Vars, v.state = u.state → v.s = u.s → v.b = u.b → v.v = u.v →
            v.param = u.param → v.uri = u.uri → Logged buf (p + 1) (went_on v p ch) := by
          intro v h1 h2 h3 h4 h5 h6
          have hv : Reading (u.s + (ps.map (·.length + 1)).sum) q v :=
            ⟨hread.plain, h1.trans hread.state, h1.symm ▸ hread.params, h1.symm ▸ hread.not_r2,
              by rw [h1, h3]; exact hread.b, by rw [h1, h3, h4, h5]; exact hread.value⟩
          have hfw := went_on_frame v p ch
          have hinv : in_params (went_on v p ch).state = true :=
            in_params_move (h1.symm ▸ hin) hends
          rw [Logged, if_pos hinv]
          refine ⟨ps, q ++ [ch], hps, ?_, ?_, ?_, ?_⟩
          · rw [hfw.s, h2, ← append_assoc]
            exact htext'
          · rw [hfw.s, h2, hp, length_append]
            rfl
          · rw [hfw.s, h2, hp]
            exact hv.went_on hends
          · rw [hfw.s, h2, ← hrec, ← h6]
            have hwu : (went_on v p ch).uri = v.uri := by
              show (entered v).uri = _
              unfold entered
              cases behind_eq v.state <;> rfl
            rw [hwu]
        by_cases hc : ch = chr ':'
        · subst hc
          rw [turn_colon hin] at e
          cases e
          exact key _ (by simp) (by simp) (by simp) (by simp) (by simp) (by simp)
        · rw [turn_other hin hends hc] at e
          cases e
          exact key u rfl rfl rfl rfl rfl rfl

theorem logged_turn (h : Logged buf p u) (hch : buf[p]? = some ch) (e : turn u p ch = .ok u') :
    Logged buf (p + 1) u' := by
  by_cases hin : in_params u.state = true
  · rw [Logged, if_pos hin] at h
    exact logging_turn hin h hch e
  · rw [Logged, if_neg hin] at h
    have hin' : in_params u.state = false := Bool.eq_false_iff.2 hin
    rcases turn_outside_state hin' e with ⟨hs, e'⟩ | ⟨hs, hs', huri⟩ | ⟨hs, hparams, hst⟩
    · exact still_at_user_logged e'
    · rw [if_pos hs] at h
      rw [Logged, hs', if_neg (by decide), if_pos rfl, huri]
      exact h
    · rw [if_neg hs] at h
      have hrec : u'.uri.records = .zero := by
        rcases turn_outside hin' e with e' | ⟨-, -, hr⟩
        · obtain ⟨-, -, -, hg, hv, hp⟩ := still_at_user_records e'
          exact Records.ext hg hv hp
        · rw [← h.2]
          exact Records.ext hr.given hr.value hr.proto
      rw [Logged]
      by_cases hin2 : in_params u'.state = true
      · obtain ⟨hs2, hs3⟩ := hst hin2
        rw [if_pos hin2]
        exact ⟨[], [], fun x hx => absurd hx (not_mem_nil), nil_prefix, by simp [hs3], Reading.start hs2, hrec⟩
      · rw [if_neg hin2]
        have hp : u'.uri.params = .null := hparams.trans h.1
        by_cases hh : u'.state = .URI_HEADERS
        · rw [if_pos hh, hp]
          exact hrec
        · rw [if_neg hh]
          exact ⟨hp, hrec⟩

/-- **What an accepted uri records.** -/
theorem logged_end {p0 : ℕ} (hl : Laid buf p0 buf.length u) (h : Logged buf buf.length u)
    (e : end_of_uri u buf.length = .ok uri) :
    uri.records = (pieces buf uri).foldl record .zero := by
  by_cases hin : in_params u.state = true
  · rw [Logged, if_pos hin] at h
    obtain ⟨ps, q, hps, htext, hp, hread, hrec⟩ := h
    have hq : chr ';' ∉ q := fun hmem => hread.plain _ hmem (.inr (.inl rfl))
    obtain rfl := end_of_params hin e
    have hfr := recorded_last_frame (params_set u buf.length) buf.length
    obtain ⟨-, -, -, -, -, -, -, -, -, -, -, hheaders, -⟩ := (laid_params hin).1 hl
    have hread' : Reading (u.s + (ps.map (·.length + 1)).sum) q (params_set u buf.length) :=
      ⟨hread.plain, hread.state, hread.params, hread.not_r2, hread.b, hread.value⟩
    have hparams : (recorded_last (params_set u buf.length) buf.length).uri.params =
        .part u.s ((ps.map (· ++ [chr ';'])).flatten ++ q).length := by
      rw [hfr.params]
      show Part.part u.s (buf.length - u.s) = _
      rw [length_params, hp, add_assoc, Nat.add_sub_cancel_left]
    rw [pieces, if_pos (hfr.headers.trans hheaders), hparams, pieces_of, text_of_prefix htext,
      splitOn_params hps hq]
    · show _ = (mark_last (places u.s (ps ++ [q]))).foldl record .zero
      rw [places_append, places, places, mark_last_concat, foldl_append, ← hrec, foldl_cons, foldl_nil]
      have := hread'.recorded_last
      rw [← hp] at this
      exact this
    · intro h
      cases h
  · rw [Logged, if_neg hin] at h
    cases hs : u.state with
    | URI_HEADERS =>
      rw [if_pos hs] at h
      rw [end_of_uri, hs] at e
      dsimp only at e
      split_ifs at e
      cases e
      rw [pieces, if_neg (by simp)]
      exact h
    | URI_INIT => rw [end_of_uri, hs] at e; cases e
    | URI_PASSWORD_ALPHA => rw [end_of_uri, hs] at e; cases e
    | URI_HOST => rw [end_of_uri, hs] at e; cases e
    | URI_HOST6_P => rw [end_of_uri, hs] at e; cases e
    | URI_USER | URI_PASSWORD | URI_HOST_P | URI_HOST6_END | URI_PORT =>
      rw [hs, if_neg (by decide)] at h
      have huri : uri.params = .null ∧ uri.records = .zero := by
        rw [end_of_uri, hs] at e
        dsimp only at e
        first
          | (cases e; exact h)
          | (split_ifs at e; cases e; exact h)
      rw [pieces, huri.1, huri.2]
      by_cases hh : uri.headers = .null
      · rw [if_pos hh]
        rfl
      · rw [if_neg hh]
        rfl
    | _ => exact absurd (by rw [hs]; rfl) hin

end Runs

end OpenSips.Uri
