import OpenSips.Uri.Recorded

/-!
# OpenSips.Uri.Parameters — every parameter is recorded with its last occurrence

`uri->transport`, `uri->transport_val` and their siblings are compared with the last parameter of
that name, and `uri->proto` with the recorded value.  They agree exactly when the last occurrences
are ones that the parser records.
-/

namespace OpenSips.Uri

open Lib List Option

section Overwrite

variable {α β : Type*} {p p' : α → Prop} [DecidablePred p] [DecidablePred p'] {xs : List α} {x : α}

def last_with (p : α → Prop) [DecidablePred p] (xs : List α) : Option α := (xs.filter p).getLast?

theorem last_with_some (h : last_with p xs = some x) : x ∈ xs ∧ p x := by
  have hx := mem_of_getLast? h
  rw [mem_filter, decide_eq_true_iff] at hx
  exact hx

theorem last_with_none : last_with p xs = none ↔ ∀ x ∈ xs, ¬ p x := by
  rw [last_with, getLast?_eq_none_iff, filter_eq_nil_iff]
  simp only [decide_eq_true_iff]

theorem last_with_of (h : last_with p xs = some x) (hx : p' x) (hp : ∀ y, p' y → p y) :
    last_with p' xs = some x := by
  obtain ⟨ys, hys⟩ := getLast?_eq_some_iff.1 h
  have hf : xs.filter p' = (xs.filter p).filter p' := by
    rw [List.filter_filter]
    congr 1
    funext y
    by_cases hy : p' y
    · simp [hy, hp y hy]
    · simp [hy]
  rw [last_with, hf, hys, filter_append, filter_cons_of_pos (by simpa using hx), filter_nil, getLast?_concat]

theorem foldl_overwrite {ρ : Type*} {step : ρ → α → ρ} {f : α → β} (get : ρ → β)
    (hstep : ∀ r x, get (step r x) = if p x then f x else get r) (r : ρ) :
    get (xs.foldl step r) = (last_with p xs).elim (get r) f := by
  induction xs generalizing r with
  | nil => rfl
  | cons x xs ih =>
    rw [foldl_cons, ih, hstep]
    by_cases hx : p x
    · rw [if_pos hx, last_with, last_with, filter_cons_of_pos (by simpa using hx), getLast?_cons]
      cases (xs.filter p).getLast? <;> rfl
    · rw [if_neg hx, last_with, last_with, filter_cons_of_neg (by simpa using hx)]

end Overwrite

/-- The last parameter named `k`. -/
def last_named (k : Param) (xs : List Piece) : Option Piece := last_with (fun x => Named k x.text) xs

/-- **The recorded parameters are the last of their name**, and the protocol is the one the recorded
value names. -/
structure ParamsRecorded (buf : Str) (xs : List Piece) (uri : SipUri) : Prop where
  given : ∀ k, uri.given k = (last_named k xs).elim .null Piece.whole
  value : ∀ k, uri.value k = (last_named k xs).elim .null Piece.value
  proto : uri.proto = proto_named ((uri.value .transport).text buf)

/-- The last parameter of each name is one the parser records, with its value unless no parameter
of that name has one, and it names a known protocol unless none does. -/
structure Recordable (xs : List Piece) : Prop where
  recorded : ∀ k x, last_named k xs = some x → x.Recorded k
  valued : ∀ k x, last_named k xs = some x → ¬ Valued x.text → ∀ y ∈ xs, Named k y.text → ¬ Valued y.text
  proto : ∀ x, last_named .transport xs = some x → x.proto = .PROTO_NONE →
    ∀ y ∈ xs, y.proto = .PROTO_NONE

section Fold

variable {xs : List Piece} {x y : Piece} {k : Param}

theorem records_foldl_given (xs : List Piece) (k : Param) :
    (xs.foldl record .zero).given k = (last_with (Piece.Recorded k) xs).elim .null Piece.whole :=
  foldl_overwrite (fun r : Records => r.given k) (fun _ _ => rfl) _

theorem records_foldl_value (xs : List Piece) (k : Param) : (xs.foldl record .zero).value k =
      (last_with (Piece.RecordedValue k) xs).elim .null Piece.value :=
  foldl_overwrite (fun r : Records => r.value k) (fun _ _ => rfl) _

theorem records_foldl_proto (xs : List Piece) : (xs.foldl record .zero).proto =
    (last_with (fun x : Piece => x.proto ≠ .PROTO_NONE) xs).elim .PROTO_NONE Piece.proto := by
  refine foldl_overwrite (fun r : Records => r.proto) (fun r x => ?_) _
  by_cases h : x.proto = .PROTO_NONE
  · rw [if_neg (fun hn => hn h)]
    exact if_pos h
  · rw [if_pos h]
    exact if_neg h

theorem Piece.value_eq_null (h : ¬ Valued x.text) (hr : x.Recorded k) : x.value = .null := by
  obtain ⟨-, -, hv | ⟨-, hf, -⟩⟩ := hr
  · exact absurd hv h
  · exact if_pos hf

theorem Piece.value_ne_null (h : Valued x.text) : x.value ≠ .null := by
  obtain ⟨c, hc, -⟩ := h
  rw [Piece.value, if_neg]
  · exact fun h => by cases h
  · intro h0
    rw [h0] at hc
    cases hc

theorem Piece.named_of_proto (h : x.proto ≠ .PROTO_NONE) : Named .transport x.text := by
  by_contra hn
  exact h (if_neg hn)

end Fold

section Positions

variable {buf : Str} {xs : List Piece} {x y : Piece} {uri : SipUri}

theorem lt_pos_of_places {pos : ℕ} {ps : List Str} (h : x ∈ places pos ps) : pos ≤ x.pos := by
  induction ps generalizing pos with
  | nil => cases h
  | cons q ps ih =>
    rcases mem_cons.1 h with rfl | h
    · exact le_rfl
    · exact le_trans (by omega) (ih h)

theorem places_nodup (pos : ℕ) (ps : List Str) : ((places pos ps).map Piece.pos).Nodup := by
  induction ps generalizing pos with
  | nil => exact nodup_nil
  | cons q ps ih =>
    refine nodup_cons.2 ⟨fun h => ?_, ih _⟩
    obtain ⟨y, hy, hpos⟩ := List.mem_map.1 h
    have := lt_pos_of_places hy
    dsimp only at hpos
    omega

theorem mark_last_map {α : Type*} (f : ℕ → Str → α) (xs : List Piece) :
    (mark_last xs).map (fun x => f x.pos x.text) = xs.map (fun x => f x.pos x.text) := by
  induction xs with
  | nil => rfl
  | cons x xs ih =>
    cases xs with
    | nil => rfl
    | cons y xs =>
      rw [mark_last, map_cons, ih]
      rfl

theorem pieces_nodup (buf : Str) (uri : SipUri) : ((pieces buf uri).map Piece.pos).Nodup := by
  have h : ((pieces_of buf uri.params).map Piece.pos).Nodup := by
    unfold pieces_of
    split
    · exact nodup_nil
    · exact places_nodup _ _
  rw [pieces]
  split_ifs
  · exact (mark_last_map (fun pos _ => pos) _).symm ▸ h
  · exact h

theorem places_text {pos : ℕ} {ps : List Str} (h : [chr ';'].intercalate ps <+: buf.drop pos)
    (hx : x ∈ places pos ps) : x.text <+: buf.drop x.pos := by
  induction ps generalizing pos with
  | nil => cases hx
  | cons q ps ih =>
    cases ps with
    | nil =>
      rw [mem_singleton.1 hx]
      simpa using h
    | cons q' ps =>
      rw [intercalate_cons_cons] at h
      rcases mem_cons.1 hx with rfl | hx
      · exact (prefix_append _ _).trans ((prefix_append _ _).trans h)
      · refine ih ?_ hx
        obtain ⟨r, hr⟩ := h
        refine ⟨r, ?_⟩
        rw [← drop_drop, ← drop_drop, ← hr]
        simp

theorem pieces_text (hx : x ∈ pieces buf uri) : x.text <+: buf.drop x.pos := by
  have h : ∀ y ∈ pieces_of buf uri.params, y.text <+: buf.drop y.pos := by
    intro y hy
    unfold pieces_of at hy
    split at hy
    · cases hy
    · refine places_text ?_ hy
      rw [intercalate_splitOn]
      cases uri.params with
      | part s len => exact take_prefix _ _
      | null | empty => exact nil_prefix
  rw [pieces] at hx
  split_ifs at hx
  · obtain ⟨y, hy, hyx⟩ : ∃ y ∈ pieces_of buf uri.params, (y.pos, y.text) = (x.pos, x.text) := by
      have hmem := List.mem_map_of_mem (f := fun z : Piece => (z.pos, z.text)) hx
      rw [mark_last_map Prod.mk] at hmem
      exact List.mem_map.1 hmem
    obtain ⟨hpos, htext⟩ := Prod.mk.inj hyx
    rw [← hpos, ← htext]
    exact h y hy
  · exact h x hx

theorem value_text (hx : x ∈ pieces buf uri) (hv : Valued x.text) :
    x.value.text buf = pvalue x.text := by
  obtain ⟨c, hc, -⟩ := hv
  have hne : pvalue x.text ≠ [] := by
    intro h0
    rw [h0] at hc
    cases hc
  have heq : chr '=' ∈ x.text := by
    by_contra hno
    exact hne (pname_of_no_eq hno).2
  obtain ⟨hsplit, -⟩ := split_at_eq heq
  obtain ⟨r, hr⟩ := pieces_text hx
  rw [Piece.value, if_neg hne]
  refine text_of_prefix ⟨r, ?_⟩
  have hlen : (pname x.text).length + 1 ≤ x.text.length := by
    have h := congrArg List.length hsplit
    rw [length_append, length_cons] at h
    omega
  rw [add_assoc, ← drop_drop, ← hr, drop_append_of_le_length hlen]
  rfl

theorem pieces_inj (hx : x ∈ pieces buf uri) (hy : y ∈ pieces buf uri) (h : x.whole = y.whole) :
    x = y := by
  refine inj_on_of_nodup_map (pieces_nodup buf uri) hx hy ?_
  rw [Piece.whole, Piece.whole, Part.part.injEq] at h
  exact h.1

end Positions

section Accepted

variable {buf : Str} {uri parts : SipUri}

theorem fix_type_records (e : fix_type buf parts = .ok uri) : uri.records = parts.records := by
  have hmove : ∀ v : SipUri, (move_params buf v).records = v.records := by
    intro v
    unfold move_params
    split
    · dsimp only
      split_ifs <;> rfl
    · rfl
  unfold fix_type at e
  split at e
  · split_ifs at e <;> cases e
    · exact hmove _
    · rfl
  · split_ifs at e <;> cases e
    · exact hmove _
    · rfl
  · cases e
    rfl
  · cases e
    rfl
  · cases e

theorem parse_parts_records (e : parse_parts buf = .ok parts) :
    parts.records = (pieces buf parts).foldl record .zero := by
  obtain ⟨type, p0, u, hsch, hscan, hend⟩ := parse_parts_ok e
  have h : Laid buf p0 buf.length u ∧ Logged buf buf.length u := by
    have hinv := scan_invariant (I := fun p u => p0 ≤ p ∧ Laid buf p0 p u ∧ Logged buf p u)
      (fun p u ch u' hch h e => ⟨Nat.le_succ_of_le h.1, laid_turn h.1 h.2.1 hch e,
        logged_turn h.2.2 hch e⟩) (read_scheme_le hsch) ?_ hscan
    · exact hinv.2
    · exact ⟨le_rfl, ⟨rfl, rfl, rfl, rfl, ⟨rfl, rfl⟩, rfl, rfl, rfl, rfl⟩, rfl, rfl⟩
  exact logged_end h.1 h.2 hend

/-- **The parameters of an accepted uri are recorded with their last occurrences**, exactly when
those are ones that the parser records. -/
theorem parse_uri_params (e : parse_uri buf = .ok uri) (hp : parse_parts buf = .ok parts) :
    ParamsRecorded buf (pieces buf parts) uri ↔ Recordable (pieces buf parts) := by
  have hrec : uri.records = (pieces buf parts).foldl record .zero := by
    rw [parse_uri, hp] at e
    exact (fix_type_records e).trans (parse_parts_records hp)
  have hgiven : ∀ k, uri.given k =
      (last_with (Piece.Recorded k) (pieces buf parts)).elim .null Piece.whole := fun k =>
    (congrFun (congrArg Records.given hrec) k).trans (records_foldl_given _ k)
  have hvalue : ∀ k, uri.value k =
      (last_with (Piece.RecordedValue k) (pieces buf parts)).elim .null Piece.value := fun k =>
    (congrFun (congrArg Records.value hrec) k).trans (records_foldl_value _ k)
  have hproto := (congrArg Records.proto hrec).trans (records_foldl_proto _)
  change uri.proto = _ at hproto
  constructor
  · intro h
    have hrecorded : ∀ k x, last_named k (pieces buf parts) = some x → x.Recorded k := by
      intro k x hx
      have hg := (h.given k).symm.trans (hgiven k)
      rw [hx] at hg
      cases hl : last_with (Piece.Recorded k) (pieces buf parts) with
      | none =>
        rw [hl] at hg
        cases hg
      | some y =>
        rw [hl] at hg
        obtain ⟨hy, hyr⟩ := last_with_some hl
        rwa [pieces_inj (last_with_some hx).1 hy hg]
    refine ⟨hrecorded, ?_, ?_⟩
    · intro k x hx hnv y hy hname hv
      have hr := hrecorded k x hx
      have hg := (h.value k).symm.trans (hvalue k)
      rw [hx, elim_some, Piece.value_eq_null hnv hr] at hg
      cases hl : last_with (Piece.RecordedValue k) (pieces buf parts) with
      | none => exact last_with_none.1 hl y hy ⟨hr.1, hname, hv⟩
      | some z =>
        rw [hl] at hg
        exact Piece.value_ne_null (last_with_some hl).2.2.2 hg.symm
    · intro x hx hnone
      obtain ⟨hmem, hname⟩ := last_with_some hx
      have hg : uri.proto = .PROTO_NONE := by
        obtain ⟨-, -, hv | ⟨hk, -⟩⟩ := hrecorded _ x hx
        · rw [h.proto, h.value, hx, elim_some, value_text hmem hv, ← hnone]
          exact (if_pos hname).symm
        · cases hk
      cases hl : last_with (fun x : Piece => x.proto ≠ .PROTO_NONE) (pieces buf parts) with
      | none => exact fun y hy => not_not.1 (last_with_none.1 hl y hy)
      | some z =>
        rw [hproto, hl] at hg
        exact absurd hg (last_with_some hl).2
  · intro h
    have hv : ∀ k, uri.value k = (last_named k (pieces buf parts)).elim .null Piece.value := by
      intro k
      rw [hvalue]
      cases hx : last_named k (pieces buf parts) with
      | none => rw [last_with_none.2 fun y hy hr => last_with_none.1 hx y hy hr.2.1]
      | some x =>
        have hr := h.recorded k x hx
        by_cases hval : Valued x.text
        · rw [last_with_of hx ⟨hr.1, hr.2.1, hval⟩ fun y hy => hy.2.1]
        · rw [last_with_none.2 fun y hy hyr => h.valued k x hx hval y hy hyr.2.1 hyr.2.2,
            elim_some, Piece.value_eq_null hval hr, elim_none]
    refine ⟨fun k => ?_, hv, ?_⟩
    · rw [hgiven]
      cases hx : last_named k (pieces buf parts) with
      | none => rw [last_with_none.2 fun y hy hr => last_with_none.1 hx y hy hr.2.1]
      | some x => rw [last_with_of hx (h.recorded k x hx) fun y hy => hy.2.1]
    · rw [hproto, hv]
      cases hx : last_named .transport (pieces buf parts) with
      | none =>
        rw [last_with_none.2 fun y hy hne => last_with_none.1 hx y hy (Piece.named_of_proto hne)]
        rfl
      | some x =>
        obtain ⟨hmem, hname⟩ := last_with_some hx
        obtain ⟨-, -, hval | ⟨hk, -⟩⟩ := h.recorded _ x hx
        · have hpr : x.proto = proto_named (pvalue x.text) := if_pos hname
          rw [elim_some, value_text hmem hval, ← hpr]
          by_cases hnone : x.proto = .PROTO_NONE
          · rw [last_with_none.2 fun y hy hne => hne (h.proto x hx hnone y hy), hnone]
            rfl
          · rw [last_with_of hx hnone fun y hy => Piece.named_of_proto hy]
            rfl
        · cases hk

set_option maxRecDepth 10000 in
/-- `transport` and `lr`. -/
theorem parse_uri_params_lr : ∃ uri parts,
    parse_uri ("sip:h;transport=UDP;lr".toList.map chr) = .ok uri ∧
      parse_parts ("sip:h;transport=UDP;lr".toList.map chr) = .ok parts ∧
      ParamsRecorded ("sip:h;transport=UDP;lr".toList.map chr)
        (pieces ("sip:h;transport=UDP;lr".toList.map chr) parts) uri := by
  obtain ⟨uri, parts, e, hp, hparams, hheaders⟩ : ∃ uri parts,
      parse_uri ("sip:h;transport=UDP;lr".toList.map chr) = .ok uri ∧
      parse_parts ("sip:h;transport=UDP;lr".toList.map chr) = .ok parts ∧
      parts.params = .part 6 16 ∧ parts.headers = .null :=
    ⟨_, _, rfl, rfl, rfl, rfl⟩
  refine ⟨uri, parts, e, hp, (parse_uri_params e hp).2 ?_⟩
  have hxs : pieces ("sip:h;transport=UDP;lr".toList.map chr) parts =
      [⟨6, "transport=UDP".toList.map chr, false⟩, ⟨20, "lr".toList.map chr, true⟩] := by
    rw [pieces, if_pos hheaders, hparams]
    rfl
  rw [hxs]
  refine ⟨?_, ?_, ?_⟩
  · intro k x hx
    cases k <;> cases hx <;> decide
  · intro k x hx
    cases k <;> cases hx <;> decide
  · intro x hx
    cases hx
    decide

set_option maxRecDepth 10000 in
/-- `r2` is listed among the parameters and never recorded: the `break` behind `PR2_R` is missing. -/
theorem parse_uri_r2 : ¬ ∀ buf uri parts, parse_uri buf = .ok uri → parse_parts buf = .ok parts →
    ParamsRecorded buf (pieces buf parts) uri := by
  intro h
  obtain ⟨uri, parts, e, hp, hparams, hheaders, hr2⟩ : ∃ uri parts,
      parse_uri ("sip:h;r2=on".toList.map chr) = .ok uri ∧
      parse_parts ("sip:h;r2=on".toList.map chr) = .ok parts ∧
      parts.params = .part 6 5 ∧ parts.headers = .null ∧ uri.given .r2 = .null :=
    ⟨_, _, rfl, rfl, rfl, rfl, rfl⟩
  have hg := (h _ uri parts e hp).given .r2
  have hxs : pieces ("sip:h;r2=on".toList.map chr) parts = [⟨6, "r2=on".toList.map chr, true⟩] := by
    rw [pieces, if_pos hheaders, hparams]
    rfl
  rw [hr2, hxs] at hg
  cases hg

end Accepted

end OpenSips.Uri
