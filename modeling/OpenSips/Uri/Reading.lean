import OpenSips.Uri.Params

/-!
# OpenSips.Uri.Reading — the loop inside one parameter

The variables of the loop after a part of a parameter was read, and what is recorded at its end.
-/

namespace OpenSips.Uri

open Lib List Option Function

/-- A parameter, where it is, and whether the uri ends with it. -/
structure Piece where
  pos : ℕ
  text : Str
  last : Bool

/-- What `given` is set to. -/
def Piece.whole (x : Piece) : Part := .part x.pos x.text.length

/-- What `value` is set to. -/
def Piece.value (x : Piece) : Part :=
  if pvalue x.text = [] then .null
  else .part (x.pos + (pname x.text).length + 1) (pvalue x.text).length

/-- A parameter without a value: at the end of the uri also with an `=`. -/
def Piece.Flag (x : Piece) : Prop := pvalue x.text = [] ∧ (chr '=' ∈ x.text → x.last = true)

instance (x : Piece) : Decidable x.Flag := inferInstanceAs (Decidable (_ ∧ _))

/-- The parameter is recorded as `k`. -/
def Piece.Recorded (k : Param) (x : Piece) : Prop :=
  k ≠ .r2 ∧ Named k x.text ∧ (Valued x.text ∨ k = .lr ∧ x.Flag)

instance (k : Param) (x : Piece) : Decidable (x.Recorded k) :=
  inferInstanceAs (Decidable (_ ∧ _))

/-- The parameter and its value are recorded as `k`. -/
def Piece.RecordedValue (k : Param) (x : Piece) : Prop :=
  k ≠ .r2 ∧ Named k x.text ∧ Valued x.text

instance (k : Param) (x : Piece) : Decidable (x.RecordedValue k) :=
  inferInstanceAs (Decidable (_ ∧ _))

/-- The protocol the parameter sets. -/
def Piece.proto (x : Piece) : Proto :=
  if Named .transport x.text then proto_named (pvalue x.text) else .PROTO_NONE

@[ext] structure Records where
  given : Param → Part
  value : Param → Part
  proto : Proto

def SipUri.records (uri : SipUri) : Records := ⟨uri.given, uri.value, uri.proto⟩

/-- **What the end of a parameter records.** -/
def record (r : Records) (x : Piece) : Records where
  given k := if x.Recorded k then x.whole else r.given k
  value k := if x.RecordedValue k then x.value else r.value k
  proto := if x.proto = .PROTO_NONE then r.proto else x.proto

/-- The variables when `q` was read of the parameter at `pos`. -/
structure Reading (pos : ℕ) (q : Str) (u : Vars) : Prop where
  plain : ∀ c ∈ q, ¬ ends c
  state : u.state = q.foldl move .URI_PARAM
  params : in_params u.state = true
  not_r2 : of_r2 u.state = false
  b : word u.state ≠ none → q ≠ [] → u.b = pos
  value : in_value u.state = true → ∃ k n val, k ≠ .r2 ∧ q = n ++ chr '=' :: val ∧ chr '=' ∉ n ∧
    n.map lower = param_name k ∧ (∃ c, val.head? = some c ∧ c ≠ chr ':') ∧ u.b = pos ∧
    u.v = pos + n.length + 1 ∧ u.param = some k

variable {pos : ℕ} {q : Str} {u : Vars} {ch : UInt8}

theorem Reading.word_iff (h : Reading pos q u) {t : State} {w : Str} (ht : word t = some w) :
    u.state = t ↔ q.map lower = w := by
  rw [h.state]
  exact foldl_move_iff h.plain ht

theorem Reading.start (hs : u.state = .URI_PARAM) : Reading pos [] u where
  plain := fun c hc => absurd hc (not_mem_nil)
  state := hs
  params := by rw [hs]; rfl
  not_r2 := by rw [hs]; rfl
  b := fun _ h => absurd rfl h
  value := fun h => by rw [hs] at h; exact absurd h Bool.false_ne_true

theorem first_letter (hch : ¬ ends ch) (h : word (move .URI_PARAM ch) ≠ none) :
    lower ch ∈ ['t', 'u', 'm', 'l', 'r'].map chr := by
  obtain ⟨w, hw⟩ := ne_none_iff_exists'.1 h
  obtain ⟨v, hv, rfl⟩ := word_move hch hw
  obtain rfl : [] = v := some.inj hv
  obtain ⟨t, ht⟩ : ∃ t, t = move .URI_PARAM ch := ⟨_, rfl⟩
  rw [← ht] at hw
  cases t <;> simp [word, name_word, transport_word, param_name] at hw ⊢ <;> simp [← hw]

theorem went_on_value (h : behind_eq u.state = none ∨ ch = chr ':') (p : ℕ) : (went_on u p ch).v = u.v := by
  refine if_neg ?_
  rintro ⟨h1, h2⟩
  rcases h with h | h
  · rw [h] at h1
    exact absurd h1 Bool.false_ne_true
  · exact h2 h

theorem went_on_param (h : behind_eq u.state = none) (p : ℕ) : (went_on u p ch).param = u.param := by
  show (entered u).param = _
  rw [entered, h]

theorem in_value_behind {st : State} (h : in_value st = true) : behind_eq st = none := by
  cases st <;> first | exact absurd h Bool.false_ne_true | rfl

/-- **One more character of the parameter.** -/
theorem Reading.went_on (h : Reading pos q u) (hch : ¬ ends ch) :
    Reading pos (q ++ [ch]) (went_on u (pos + q.length) ch) where
  plain := by
    intro c hc
    rcases mem_append.mp hc with hc | hc
    · exact h.plain c hc
    · rw [mem_singleton.mp hc]
      exact hch
  state := by
    rw [foldl_append, ← h.state]
    rfl
  params := in_params_move h.params hch
  not_r2 := of_r2_move h.params hch h.not_r2
  b := by
    intro hw _
    by_cases hq : q = []
    · subst hq
      have hs : u.state = .URI_PARAM := h.state
      have hl : lower ch ∈ ['t', 'u', 'm', 'l', 'r'].map chr :=
        first_letter hch (by rw [← hs]; exact hw)
      exact if_pos ⟨hs, hl⟩
    · obtain ⟨w, hw'⟩ := ne_none_iff_exists'.mp hw
      obtain ⟨v, hv, -⟩ := word_move hch hw'
      have hs : u.state ≠ .URI_PARAM := by
        intro hs
        have := (h.word_iff (t := .URI_PARAM) rfl).mp hs
        exact hq (map_eq_nil_iff.mp this)
      refine (if_neg fun hn => hs hn.1).trans (h.b ?_ hq)
      rw [hv]
      exact some_ne_none _
  value := by
    intro hv
    have hv' : (in_value u.state || ((behind_eq u.state).isSome && decide (ch ≠ chr ':'))) = true :=
      (in_value_move h.params hch).symm.trans hv
    rcases (Bool.or_eq_true _ _).mp hv' with hin | hst
    · -- inside the value
      obtain ⟨k, n, val, hk, rfl, hn, hname, hc, hb, hvv, hp⟩ := h.value hin
      have heq := in_value_behind hin
      have hs : u.state ≠ .URI_PARAM := by
        intro hs
        rw [hs] at hin
        exact absurd hin Bool.false_ne_true
      refine ⟨k, n, val ++ [ch], hk, by simp, hn, hname, ?_,
        (if_neg fun hn => hs hn.1).trans hb, (went_on_value (Or.inl heq) _).trans hvv,
        (went_on_param heq _).trans hp⟩
      obtain ⟨c, hc, hne⟩ := hc
      refine ⟨c, ?_, hne⟩
      cases val with
      | nil => cases hc
      | cons d val => exact hc
    · -- behind `name=`
      obtain ⟨hsome, hcolon⟩ := (Bool.and_eq_true _ _).mp hst
      obtain ⟨k, hk⟩ := isSome_iff_exists.mp hsome
      obtain ⟨hk2, hword⟩ := behind_eq_word hk h.not_r2
      have hq := (h.word_iff hword).mp rfl
      obtain ⟨n, r, rfl, hn1, hn2⟩ := map_eq_append_iff.mp hq
      obtain ⟨c, rfl, hc⟩ := map_eq_singleton_iff.mp hn2
      obtain rfl : c = chr '=' := by
        rcases eq_of_lower hc with rfl | rfl
        · rfl
        · exact absurd hc (by decide)
      have hs : u.state ≠ .URI_PARAM := by
        intro hs
        rw [hs] at hk
        cases hk
      have hneq : chr '=' ∉ n := by
        intro hmem
        have := List.mem_map_of_mem (f := lower) hmem
        rw [hn1] at this
        revert this
        cases k <;> decide
      refine ⟨k, n, [ch], hk2, by simp, hneq, hn1, ⟨ch, rfl, of_decide_eq_true hcolon⟩, ?_, ?_, ?_⟩
      · refine (if_neg fun hn => hs hn.1).trans (h.b ?_ (by simp))
        rw [hword]
        exact some_ne_none _
      · refine (if_pos ⟨hsome, of_decide_eq_true hcolon⟩).trans ?_
        simp
        omega
      · show (entered u).param = _
        rw [entered, hk]

section End

theorem in_value_foldl {st : State} {val : Str} (hin : in_params st = true)
    (hplain : ∀ c ∈ val, ¬ ends c) (h : in_value st = true) : in_value (val.foldl move st) = true := by
  induction val generalizing st with
  | nil => exact h
  | cons c val ih =>
    have hc := hplain c mem_cons_self
    refine ih (in_params_move hin hc) (fun d hd => hplain d (mem_cons_of_mem _ hd)) ?_
    rw [in_value_move hin hc, h, Bool.true_or]

/-- **A known name with a value is read as such.** -/
theorem Reading.in_value_iff (h : Reading pos q u) :
    in_value u.state = true ↔ ∃ k, k ≠ .r2 ∧ Named k q ∧ Valued q := by
  constructor
  · intro hv
    obtain ⟨k, n, val, hk, rfl, hn, hname, hc, -⟩ := h.value hv
    refine ⟨k, hk, ?_, ?_⟩
    · rwa [Named, pname_cons hn]
    · rwa [Valued, pvalue_cons hn]
  · rintro ⟨k, hk, hname, c, hc, hne⟩
    have heq : chr '=' ∈ q := by
      by_contra hno
      rw [(pname_of_no_eq hno).2] at hc
      cases hc
    obtain ⟨hq, hn⟩ := split_at_eq heq
    obtain ⟨c', val, hval⟩ : ∃ c' val, pvalue q = c' :: val := by
      cases hv : pvalue q with
      | nil => rw [hv] at hc; cases hc
      | cons c' val => exact ⟨c', val, rfl⟩
    rw [hval] at hc
    obtain rfl := some.inj hc
    have hplain := h.plain
    rw [hq, hval] at hplain
    -- the state behind `name=`
    obtain ⟨hbe, hword⟩ := eq_state_word hk
    have hst : (pname q ++ [chr '=']).foldl move .URI_PARAM = eq_state k := by
      refine read_word lower (fun t h0 => ?_) (fun t v x hx => word_prev hx) ?_
      · cases t <;> first
          | rfl
          | exact absurd (show none = some [] from h0).symm (some_ne_none _)
          | exact absurd (some.inj h0) (cons_ne_nil _ _)
      · rw [hword, map_append, show (pname q).map lower = _ from hname]
        rfl
    have hin : in_params (eq_state k) = true := by
      cases k <;> rfl
    have hc' : ¬ ends c' := hplain c' (by simp)
    rw [h.state, hq, hval, append_cons, foldl_append, hst, foldl_cons]
    refine in_value_foldl (in_params_move hin hc') (fun d hd => hplain d (by simp [hd])) ?_
    rw [in_value_move hin hc', hbe]
    simp [hne]

theorem Named.unique {k k' : Param} (h : Named k q) (h' : Named k' q) : k = k' :=
  param_name_inj (h.symm.trans h')

theorem pname_map_lower (q : Str) : pname (q.map lower) = (pname q).map lower := by
  induction q with
  | nil => rfl
  | cons c q ih =>
    unfold pname at ih ⊢
    have hc : lower c = chr '=' ↔ c = chr '=' := by
      constructor
      · intro h
        rcases eq_of_lower h with rfl | rfl
        · rfl
        · exact absurd h (by decide)
      · rintro rfl
        rfl
    by_cases h : c = chr '='
    · rw [map_cons, takeWhile_cons_of_neg (by simpa using hc.2 h), takeWhile_cons_of_neg (by simp [h])]
      rfl
    · rw [map_cons, takeWhile_cons_of_pos (by simp [hc, h]), takeWhile_cons_of_pos (by simp [h]), ih]
      rfl

theorem pvalue_map_lower (q : Str) : pvalue (q.map lower) = (pvalue q).map lower := by
  rw [pvalue, pvalue, pname_map_lower, length_map, map_drop]

theorem named_of_lower {k : Param} {value : Str} (h : q.map lower = param_name k ++ chr '=' :: value) :
    Named k q ∧ (pvalue q).map lower = value := by
  have hno : chr '=' ∉ param_name k := by
    cases k <;> decide
  rw [Named, ← pname_map_lower, ← pvalue_map_lower, h, pname_cons hno, pvalue_cons hno]
  exact ⟨rfl, rfl⟩

theorem lower_of_named {k : Param} (h : Named k q) (heq : chr '=' ∈ q) :
    q.map lower = param_name k ++ chr '=' :: (pvalue q).map lower := by
  obtain ⟨hq, -⟩ := split_at_eq heq
  have := congrArg (List.map lower) hq
  rw [map_append, map_cons, show (pname q).map lower = _ from h] at this
  exact this

theorem proto_named_cases {value : Str} (h : proto_named value ≠ .PROTO_NONE) :
    ∃ st, behind_proto st = some (proto_named value) ∧
      word st = some (param_name .transport ++ chr '=' :: value.map lower) := by
  unfold proto_named at h ⊢
  split_ifs at h ⊢ with h1 h2 h3 h4
  · rw [h1]
    exact ⟨.VU_P_FIN, rfl, rfl⟩
  · rw [h2]
    exact ⟨.VT_P_FIN, rfl, rfl⟩
  · rw [h3]
    exact ⟨.VTLS_S_FIN, rfl, rfl⟩
  · rw [h4]
    exact ⟨.VS_P_FIN, rfl, rfl⟩
  · exact absurd rfl h

theorem proto_named_lower (value : Str) : proto_named (value.map lower) = proto_named value := by
  have hl : lower ∘ lower = lower := by
    funext c
    have h3 := c.toNat_lt
    have h1 : (chr 'A').toNat = 65 := rfl
    have h2 : (chr 'Z').toNat = 90 := rfl
    simp only [comp_apply, lower, UInt8.le_iff_toNat_le, h1, h2]
    by_cases h : 65 ≤ c.toNat ∧ c.toNat ≤ 90
    · rw [if_pos h, if_neg]
      rw [UInt8.toNat_add]
      simp
      omega
    · rw [if_neg h, if_neg h]
  unfold proto_named
  rw [List.map_map, hl]

theorem Reading.proto (h : Reading pos q u) (last : Bool) :
    (Piece.mk pos q last).proto = (behind_proto u.state).getD .PROTO_NONE := by
  cases hb : behind_proto u.state with
  | some pr =>
    obtain ⟨value, hw, hval, hpr⟩ := behind_proto_word hb
    obtain ⟨hn, hv⟩ := named_of_lower ((h.word_iff hw).1 rfl)
    rw [Piece.proto, if_pos hn, ← proto_named_lower, hv, hpr]
    rfl
  | none =>
    rw [Piece.proto, getD_none]
    by_cases hn : Named .transport q
    · rw [if_pos hn]
      by_contra hne
      obtain ⟨st, hst, hw⟩ := proto_named_cases hne
      have heq : chr '=' ∈ q := by
        by_contra hno
        rw [(pname_of_no_eq hno).2] at hne
        exact hne rfl
      rw [(h.word_iff hw).2 (lower_of_named hn heq), hst] at hb
      cases hb
    · rw [if_neg hn]

/-- The parameter `lr` without a value. -/
theorem Reading.flag_iff (h : Reading pos q u) :
    behind_flag u.state = some .lr ↔ Named .lr q ∧ chr '=' ∉ q := by
  have hw : word .PLR_R_FIN = some (param_name .lr) := rfl
  constructor
  · intro hb
    obtain ⟨-, hword⟩ := behind_flag_word hb h.not_r2
    have hq := (h.word_iff hword).1 rfl
    have hno : chr '=' ∉ q := by
      intro hmem
      have := List.mem_map_of_mem (f := lower) hmem
      rw [hq] at this
      exact absurd this (by decide)
    refine ⟨?_, hno⟩
    rw [Named, (pname_of_no_eq hno).1, hq]
  · rintro ⟨hn, hno⟩
    rw [Named, (pname_of_no_eq hno).1] at hn
    rw [(h.word_iff hw).2 hn]
    rfl

theorem recorded_entered (u : Vars) (p : ℕ) :
    (recorded (entered u) p).uri.records = (recorded u p).uri.records := by
  cases hb : behind_eq u.state with
  | none => rw [entered, hb]
  | some k =>
    have hs : (entered u).state = u.state := by
      rw [entered, hb]
    have huri : (entered u).uri = u.uri := by
      rw [entered, hb]
    have hv : in_value u.state = false := by
      revert hb
      cases u.state <;> simp [in_value, behind_eq]
    have hf : behind_flag u.state = none := by
      revert hb
      cases u.state <;> simp [behind_flag, behind_eq]
    rw [Uri.recorded, Uri.recorded, hs, hv, if_neg Bool.false_ne_true, if_neg Bool.false_ne_true, hf]
    exact congrArg SipUri.records huri

section

variable (h : Reading pos q u)
include h

theorem Reading.record_value (hv : in_value u.state = true) (last : Bool) :
    (recorded u (pos + q.length)).uri.records = record u.uri.records ⟨pos, q, last⟩ := by
  have hpr := h.proto last
  obtain ⟨k, n, val, hk, hq, hn, hname, ⟨c, hc, hne⟩, hb, hvv, hp⟩ := h.value hv
  have hnamed : Named k q := by rwa [hq, Named, pname_cons hn]
  have hpn : pname q = n := by rw [hq, pname_cons hn]
  have hpv : pvalue q = val := by rw [hq, pvalue_cons hn]
  have hvalued : Valued q := ⟨c, by rwa [hpv], hne⟩
  have hlen : q.length = n.length + 1 + val.length := by
    rw [hq, length_append, length_cons]
    omega
  have hval : val ≠ [] := by
    rintro rfl
    cases hc
  have hwhole : Part.part u.b (pos + q.length - u.b) = (Piece.mk pos q last).whole := by
    rw [hb, Nat.add_sub_cancel_left]
    rfl
  have hvalue : Part.part u.v (pos + q.length - u.v) = (Piece.mk pos q last).value := by
    rw [Piece.value, if_neg (by rwa [hpv]), hpv, hpn, hvv, hlen]
    congr 1
    omega
  have hset : (param_set u (pos + q.length)).uri.records =
      ⟨Function.update u.uri.given k (Piece.mk pos q last).whole,
        Function.update u.uri.value k (Piece.mk pos q last).value, u.uri.proto⟩ := by
    rw [param_set, hp, hwhole, hvalue]
    rfl
  have hgiven : (record u.uri.records ⟨pos, q, last⟩).given =
      Function.update u.uri.given k (Piece.mk pos q last).whole := by
    funext k'
    by_cases hkk : k' = k
    · subst hkk
      rw [update_self]
      exact if_pos ⟨hk, hnamed, .inl hvalued⟩
    · rw [update_of_ne hkk]
      exact if_neg fun hr => hkk (hr.2.1.unique hnamed)
  have hvalue' : (record u.uri.records ⟨pos, q, last⟩).value =
      Function.update u.uri.value k (Piece.mk pos q last).value := by
    funext k'
    by_cases hkk : k' = k
    · subst hkk
      rw [update_self]
      exact if_pos ⟨hk, hnamed, hvalued⟩
    · rw [update_of_ne hkk]
      exact if_neg fun hr => hkk (hr.2.1.unique hnamed)
  rw [Uri.recorded, hv, if_pos rfl]
  cases hbp : behind_proto u.state with
  | none =>
    rw [hbp, getD_none] at hpr
    refine hset.trans (Records.ext hgiven.symm hvalue'.symm ?_)
    exact (if_pos hpr).symm
  | some pr =>
    rw [hbp, getD_some] at hpr
    have hne : pr ≠ .PROTO_NONE := by
      revert hbp
      cases u.state <;> simp [behind_proto] <;> rintro rfl <;> simp
    refine Records.ext ?_ ?_ ?_
    · exact (congrArg Records.given hset).trans hgiven.symm
    · exact (congrArg Records.value hset).trans hvalue'.symm
    · have hproto : (record u.uri.records ⟨pos, q, last⟩).proto = pr :=
        (if_neg (by rw [hpr]; exact hne)).trans hpr
      exact hproto.symm

/-- A parameter without a value is not recorded, but for `lr`. -/
theorem Reading.record_flag (hv : in_value u.state = false) :
    (recorded u (pos + q.length)).uri.records = record u.uri.records ⟨pos, q, false⟩ := by
  have hno : ∀ k, k ≠ .r2 → Named k q → ¬ Valued q := by
    intro k hk hn hval
    rw [h.in_value_iff.2 ⟨k, hk, hn, hval⟩] at hv
    cases hv
  have hproto : (Piece.mk pos q false).proto = .PROTO_NONE := by
    rw [h.proto false]
    revert hv
    cases u.state <;> simp [in_value, behind_proto]
  have hvalue : (record u.uri.records ⟨pos, q, false⟩).value = u.uri.value := by
    funext k
    exact if_neg fun hr => hno k hr.1 hr.2.1 hr.2.2
  have hrecorded : ∀ k, (Piece.mk pos q false).Recorded k ↔ k = .lr ∧ behind_flag u.state = some .lr := by
    intro k
    rw [h.flag_iff]
    constructor
    · rintro ⟨hk, hn, hval | ⟨rfl, -, hf⟩⟩
      · exact absurd hval (hno k hk hn)
      · exact ⟨rfl, hn, fun hmem => Bool.false_ne_true (hf hmem)⟩
    · rintro ⟨rfl, hn, hmem⟩
      exact ⟨by decide, hn, .inr ⟨rfl, (pname_of_no_eq hmem).2, fun h => absurd h hmem⟩⟩
  rw [Uri.recorded, hv, if_neg Bool.false_ne_true]
  cases hb : behind_flag u.state with
  | none =>
    refine Records.ext ?_ hvalue.symm (if_pos hproto).symm
    funext k
    exact (if_neg fun hr => by rw [((hrecorded k).1 hr).2] at hb; cases hb).symm
  | some k' =>
    obtain ⟨rfl, -⟩ := behind_flag_word hb h.not_r2
    have hq : q ≠ [] := by
      rintro rfl
      rw [h.state] at hb
      cases hb
    have hub : u.b = pos := h.b (by rw [(behind_flag_word hb h.not_r2).2]; exact some_ne_none _) hq
    refine Records.ext ?_ hvalue.symm (if_pos hproto).symm
    funext k
    show Function.update u.uri.given .lr (.part u.b (pos + q.length - u.b)) k = _
    rw [hub, Nat.add_sub_cancel_left]
    by_cases hk : k = .lr
    · subst hk
      rw [update_self]
      exact (if_pos ((hrecorded _).2 ⟨rfl, hb⟩)).symm
    · rw [update_of_ne hk]
      exact (if_neg fun hr => hk ((hrecorded k).1 hr).1).symm

/-- **What the loop records at the end of a parameter.** -/
theorem Reading.recorded :
    (recorded (entered u) (pos + q.length)).uri.records = record u.uri.records ⟨pos, q, false⟩ := by
  rw [recorded_entered]
  cases hv : in_value u.state with
  | true => exact h.record_value hv false
  | false => exact h.record_flag hv

/-- The state behind `lr=`. -/
theorem Reading.lr_eq_iff : u.state = .PLR_eq ↔ Named .lr q ∧ chr '=' ∈ q ∧ pvalue q = [] := by
  have hw : word .PLR_eq = some (param_name .lr ++ chr '=' :: []) := rfl
  rw [h.word_iff hw]
  constructor
  · intro hq
    obtain ⟨hn, hv⟩ := named_of_lower hq
    refine ⟨hn, ?_, map_eq_nil_iff.1 hv⟩
    by_contra hno
    rw [Named, (pname_of_no_eq hno).1, hq] at hn
    exact absurd hn (by decide)
  · rintro ⟨hn, hmem, hv⟩
    rw [lower_of_named hn hmem, hv, map_nil]

/-- **What is recorded at the end of the uri.** -/
theorem Reading.recorded_last :
    (recorded_last u (pos + q.length)).uri.records = record u.uri.records ⟨pos, q, true⟩ := by
  rw [recorded_last_eq h.not_r2]
  by_cases hs : u.state = .PLR_eq
  · rw [if_pos hs]
    obtain ⟨hn, hmem, hval⟩ := h.lr_eq_iff.1 hs
    have hnv : ¬ Valued q := by
      rintro ⟨c, hc, -⟩
      rw [hval] at hc
      cases hc
    have hub : u.b = pos := by
      refine h.b (by rw [hs]; exact some_ne_none _) ?_
      rintro rfl
      cases hmem
    refine Records.ext ?_ ?_ ?_
    · funext k
      show Function.update u.uri.given .lr (.part u.b (pos + q.length - u.b)) k = _
      rw [hub, Nat.add_sub_cancel_left]
      by_cases hk : k = .lr
      · subst hk
        rw [update_self]
        exact (if_pos ⟨by decide, hn, .inr ⟨rfl, hval, fun _ => rfl⟩⟩).symm
      · rw [update_of_ne hk]
        exact (if_neg fun hr => hk (hr.2.1.unique hn)).symm
    · funext k
      exact (if_neg fun hr => hnv hr.2.2).symm
    · refine (if_pos ?_).symm
      rw [h.proto true, hs]
      rfl
  · rw [if_neg hs]
    cases hv : in_value u.state with
    | true => exact h.record_value hv true
    | false =>
      rw [h.record_flag hv]
      have hflag : ∀ k, (Piece.mk pos q false).Recorded k ↔ (Piece.mk pos q true).Recorded k := by
        intro k
        constructor
        · rintro ⟨hk, hn, hval | ⟨rfl, he, -⟩⟩
          · exact ⟨hk, hn, .inl hval⟩
          · exact ⟨hk, hn, .inr ⟨rfl, he, fun _ => rfl⟩⟩
        · rintro ⟨hk, hn, hval | ⟨rfl, he, -⟩⟩
          · exact ⟨hk, hn, .inl hval⟩
          · exact ⟨hk, hn, .inr ⟨rfl, he, fun hmem => absurd (h.lr_eq_iff.2 ⟨hn, hmem, he⟩) hs⟩⟩
      refine Records.ext ?_ rfl rfl
      funext k
      show ite _ _ _ = ite _ _ _
      simp only [hflag]
      rfl

end

end End

end OpenSips.Uri
