import Mathlib.Data.List.ModifyLast
import OpenSips.Disposition.Runs

/-!
# OpenSips.Disposition.Accepted — the texts that `parse_disposition` accepts

They are those of the passed layouts, and the slices are those of the layout.  A strict layout that is not passed is
refused.
-/

namespace OpenSips.Disp

open Lib List Option

section Quoted

variable {sv : State} {d : Disposition} {p : ℕ} {c : UInt8} {t rest : Str} {esc : Bool}

def quoting (esc : Bool) : State := if esc then .SKIP_QUOTED_VAL else .QUOTED_VAL

theorem turn_quoted_plain (hq : Quotable c) (hback : class_of c ≠ .backslash) (hquote : class_of c ≠ .quote) :
    turn ⟨.QUOTED_VAL, sv, d⟩ p c = .ok ⟨.QUOTED_VAL, sv, d⟩ := by
  obtain ⟨hnl, hcr, hnul⟩ := hq
  rw [turn]
  cases hcl : class_of c with
  | nl => exact absurd hcl hnl
  | cr => exact absurd hcl hcr
  | nul => exact absurd hcl hnul
  | backslash => exact absurd hcl hback
  | quote => exact absurd hcl hquote
  | _ => rfl

theorem turn_backslash (h : class_of c = .backslash) :
    turn ⟨.QUOTED_VAL, sv, d⟩ p c = .ok ⟨.SKIP_QUOTED_VAL, sv, d⟩ := by
  rw [turn, h]

theorem turn_skip (hq : Quotable c) : turn ⟨.SKIP_QUOTED_VAL, sv, d⟩ p c = .ok ⟨.QUOTED_VAL, sv, d⟩ := by
  obtain ⟨hnl, hcr, hnul⟩ := hq
  rw [turn]
  cases hcl : class_of c with
  | nl => exact absurd hcl hnl
  | cr => exact absurd hcl hcr
  | nul => exact absurd hcl hnul
  | _ => rfl

theorem turn_quoting_error (esc : Bool) (hq : ¬ Quotable c) :
    turn ⟨quoting esc, sv, d⟩ p c = .error PARSE_ERROR := by
  rw [turn]
  cases hcl : class_of c with
  | nl => cases esc <;> rfl
  | cr => cases esc <;> rfl
  | nul => rfl
  | _ => exact absurd (by simp [Quotable, hcl]) hq

theorem run_quoted (ht : QuotedText esc t) :
    run ⟨quoting esc, sv, d⟩ p (t ++ rest) = run ⟨.QUOTED_VAL, sv, d⟩ (p + t.length) rest := by
  induction t generalizing esc p with
  | nil =>
    cases esc with
    | true => exact ht.elim
    | false => rfl
  | cons c t ih =>
    rw [length_cons, ← Nat.add_assoc, Nat.add_right_comm, cons_append]
    cases esc with
    | true =>
      obtain ⟨hq, ht⟩ := ht
      exact (run_ok (turn_skip hq)).trans (ih ht)
    | false =>
      rw [QuotedText] at ht
      by_cases hback : class_of c = .backslash
      · rw [if_pos hback] at ht
        exact (run_ok (turn_backslash hback)).trans (ih ht)
      · rw [if_neg hback] at ht
        obtain ⟨hq, hquote, ht⟩ := ht
        exact (run_ok (turn_quoted_plain hq hback hquote)).trans (ih ht)

theorem quoted_or_failed (esc : Bool) : (∃ t y, rest = t ++ QUOTE :: y ∧ QuotedText esc t) ∨
    Failed (run ⟨quoting esc, sv, d⟩ p rest) := by
  induction rest generalizing esc p with
  | nil =>
    refine .inr ?_
    cases esc <;> rfl
  | cons c rest ih =>
    by_cases hq : Quotable c
    swap
    · exact .inr (run_error (turn_quoting_error esc hq))
    cases esc with
    | true =>
      rw [show quoting true = .SKIP_QUOTED_VAL from rfl, run_ok (turn_skip hq)]
      obtain ⟨t, y, rfl, ht⟩ | hfail := @ih (p + 1) false
      · exact .inl ⟨c :: t, y, rfl, hq, ht⟩
      · exact .inr hfail
    | false =>
      by_cases hback : class_of c = .backslash
      · rw [show quoting false = .QUOTED_VAL from rfl, run_ok (turn_backslash hback)]
        obtain ⟨t, y, rfl, ht⟩ | hfail := @ih (p + 1) true
        · exact .inl ⟨c :: t, y, rfl, by rwa [QuotedText, if_pos hback]⟩
        · exact .inr hfail
      by_cases hquote : class_of c = .quote
      · obtain rfl := char_of_class hquote rfl
        exact .inl ⟨[], rest, rfl, trivial⟩
      · rw [show quoting false = .QUOTED_VAL from rfl, run_ok (turn_quoted_plain hq hback hquote)]
        obtain ⟨t, y, rfl, ht⟩ | hfail := @ih (p + 1) false
        · exact .inl ⟨c :: t, y, rfl, by rw [QuotedText, if_neg hback]; exact ⟨hq, hquote, ht⟩⟩
        · exact .inr hfail

theorem run_find_quoted (hquote : class_of c ≠ .quote) :
    run ⟨.FIND_QUOTED_VAL, sv, d⟩ p (c :: rest) = run ⟨.QUOTED_VAL, sv, d.start_body p⟩ p (c :: rest) := by
  have hturn : turn ⟨.FIND_QUOTED_VAL, sv, d⟩ p c = turn ⟨.QUOTED_VAL, sv, d.start_body p⟩ p c := by
    rw [turn, turn]
    cases hcl : class_of c with
    | quote => exact absurd hcl hquote
    | _ => rfl
  rw [run_cons, run_cons, hturn]

theorem QuotedText.head {c : UInt8} (h : QuotedText false (c :: t)) : class_of c ≠ .quote := by
  rw [QuotedText] at h
  by_cases hback : class_of c = .backslash
  · rw [hback]
    decide
  · rw [if_neg hback] at h
    exact h.2.1

theorem go_quoted (ht : QuotedText false t) (hne : t ≠ []) :
    go .FIND_QUOTED_VAL d p (t ++ QUOTE :: rest) =
      go .END_VAL ((d.start_body p).fin_quoted (p + t.length)) (p + t.length + 1) rest := by
  cases t with
  | nil => exact absurd rfl hne
  | cons c t =>
    rw [cons_append, go, run_find_quoted ht.head, ← cons_append]
    have hrun := @run_quoted .FIND_QUOTED_VAL (d.start_body p) p (c :: t) (QUOTE :: rest) false ht
    refine hrun.trans ?_
    exact (run_ok rfl).trans (run_saved (by decide))

theorem find_quoted_or_failed : (∃ t y, rest = t ++ QUOTE :: y ∧ QuotedText false t ∧ t ≠ []) ∨
    Failed (go .FIND_QUOTED_VAL d p rest) := by
  cases rest with
  | nil => exact .inr rfl
  | cons c rest =>
    by_cases hquote : class_of c = .quote
    · obtain rfl := char_of_class hquote rfl
      exact .inr (run_error rfl)
    rw [go, run_find_quoted hquote]
    obtain ⟨t, y, heq, ht⟩ | hfail :=
      @quoted_or_failed .FIND_QUOTED_VAL (d.start_body p) p (c :: rest) false
    · refine .inl ⟨t, y, heq, ht, ?_⟩
      rintro rfl
      obtain rfl := (cons.inj heq).1
      exact hquote (by decide)
    · exact .inr hfail

end Quoted

section Words

variable {d : Disposition} {p : ℕ} {c : UInt8} {w g rest : Str}

theorem word_cut (hc : Other c) : ∃ w y, c :: rest = w ++ y ∧ Word w ∧ ∀ a ∈ y.head?, ¬ Other a := by
  obtain h | ⟨x, b, y, rfl, hx, hb⟩ := other_cases rest
  · exact ⟨c :: rest, [], (append_nil _).symm, ⟨cons_ne_nil _ _, forall_mem_cons.2 ⟨hc, h⟩⟩, by simp⟩
  · refine ⟨c :: x, b :: y, rfl, ⟨cons_ne_nil _ _, forall_mem_cons.2 ⟨hc, hx⟩⟩, ?_⟩
    intro a ha
    cases ha
    exact hb

theorem go_type (hw : Word w) : go .FIND_TYPE d p (w ++ rest) =
    go .TYPE { d with type := { d.type with s := some p } } (p + w.length) rest := go_start (k := .type) hw

theorem go_name (hw : Word w) :
    go .FIND_PARAM d p (w ++ rest) = go .PARAM (d.new_param p) (p + w.length) rest := go_start (k := .name) hw

theorem go_body (hw : Word w) :
    go .FIND_VAL d p (w ++ rest) = go .VAL (d.start_body p) (p + w.length) rest := go_start (k := .body) hw

theorem turn_val_blank {sv : State} (hc : Blank c) : turn ⟨.FIND_VAL, sv, d⟩ p c = .ok ⟨.FIND_VAL, sv, d⟩ := by
  rw [turn, show class_of c = .blank from hc]

theorem go_blanks (hw : ∀ c ∈ w, Blank c) : go .FIND_VAL d p (w ++ rest) = go .FIND_VAL d (p + w.length) rest :=
  run_skip fun c hc _ => turn_val_blank (hw c hc)

theorem go_val_quote : go .FIND_VAL d p (QUOTE :: rest) = go .FIND_QUOTED_VAL d (p + 1) rest :=
  (run_ok rfl).trans (run_saved (by decide))

theorem turn_val_error {sv : State} (hblank : ¬ Blank c) (hquote : c ≠ QUOTE) (hother : ¬ Other c) :
    turn ⟨.FIND_VAL, sv, d⟩ p c = .error PARSE_ERROR := by
  rw [turn]
  cases hcl : class_of c with
  | blank => exact absurd hcl hblank
  | other => exact absurd hcl hother
  | quote => exact absurd (char_of_class hcl rfl) hquote
  | _ => rfl

theorem blank_cases (s : Str) :
    (∀ c ∈ s, Blank c) ∨ ∃ x c y, s = x ++ c :: y ∧ (∀ a ∈ x, Blank a) ∧ ¬ Blank c := by
  simpa using cut_cases (fun c => decide (Blank c)) s

theorem val_or_failed : (∃ w c y, rest = w ++ c :: y ∧ (∀ a ∈ w, Blank a) ∧ (c = QUOTE ∨ Other c)) ∨
    Failed (go .FIND_VAL d p rest) := by
  obtain h | ⟨x, c, y, rfl, hx, hc⟩ := blank_cases rest
  · refine .inr ?_
    rw [Failed, ← append_nil rest, go_blanks h]
    rfl
  by_cases hval : c = QUOTE ∨ Other c
  · exact .inl ⟨x, c, y, rfl, hx, hval⟩
  · refine .inr ?_
    rw [Failed, go_blanks hx]
    exact run_error (turn_val_error hc (fun h => hval (.inl h)) fun h => hval (.inr h))

theorem go_loose_end (hg : Loose g) : go .END_VAL d p g = .ok d := by
  rw [← append_nil g]
  exact (go_loose (k := .body) hg).trans rfl

theorem go_loose_semicolon (hg : Loose g) :
    go .END_VAL d p (g ++ SEMICOLON :: rest) = go .FIND_PARAM d (p + g.length + 1) rest :=
  (go_loose (k := .body) hg).trans ((run_ok rfl).trans (run_saved (by decide)))

theorem loose_next_or_failed : Loose rest ∨ (∃ g y, rest = g ++ SEMICOLON :: y ∧ Loose g) ∨
    Failed (go .END_VAL d p rest) := by
  obtain ⟨g, y, rfl, hg, hy⟩ | hfail := loose_or_failed .body d p rest
  swap
  · exact .inr (.inr hfail)
  cases y with
  | nil =>
    rw [append_nil]
    exact .inl hg
  | cons c y =>
    by_cases hsemi : c = SEMICOLON
    · obtain rfl := hsemi
      exact .inr (.inl ⟨g, y, rfl, hg⟩)
    · refine .inr (.inr ?_)
      have hgo := @go_loose .body d p g (c :: y) hg
      rw [Failed, show State.END_VAL = Kind.body.ended from rfl, hgo]
      exact run_error (turn_stop (hy c rfl) hsemi (by simp)).2

end Words

section Values

variable {d : Disposition} {p : ℕ} {rest : Str} {v : Value}

/-- What a value makes of the disposition, from `p` on. -/
def Value.fin (v : Value) (d : Disposition) (p : ℕ) : Disposition :=
  let q := p + v.before.length
  if v.is_quoted then (d.start_body (q + 1)).fin_quoted (q + 1 + v.body.length)
  else (d.start_body q).fin_body (q + v.body.length)

theorem go_value_end (hv : v.Passed) : go .FIND_VAL d p v.text = .ok (v.fin d p) := by
  obtain ⟨hbefore, hbody, hbehind⟩ := hv
  rw [Value.text, go_blanks hbefore, Value.fin]
  cases hq : v.is_quoted with
  | true =>
    rw [hq, if_pos rfl] at hbody hbehind
    rw [if_pos rfl, if_pos rfl, go_val_quote, go_quoted hbody.1 hbody.2, go_loose_end hbehind]
  | false =>
    rw [hq, if_neg Bool.false_ne_true] at hbody hbehind
    rw [if_neg Bool.false_ne_true, if_neg Bool.false_ne_true, go_body hbody]
    exact go_end (k := .body) hbehind

theorem go_value_next (hv : v.Passed) : go .FIND_VAL d p (v.text ++ SEMICOLON :: rest) =
    go .FIND_PARAM (v.fin d p) (p + v.text.length + 1) rest := by
  obtain ⟨hbefore, hbody, hbehind⟩ := hv
  rw [Value.text, append_assoc, go_blanks hbefore, Value.fin]
  cases hq : v.is_quoted with
  | true =>
    rw [hq, if_pos rfl] at hbody hbehind
    rw [if_pos rfl, if_pos rfl, cons_append, append_assoc, cons_append, go_val_quote,
      go_quoted hbody.1 hbody.2, go_loose_semicolon hbehind]
    congr 1
    simp only [length_append, length_cons]
    omega
  | false =>
    rw [hq, if_neg Bool.false_ne_true] at hbody hbehind
    rw [if_neg Bool.false_ne_true, if_neg Bool.false_ne_true, append_assoc, go_body hbody]
    refine (go_semicolon (k := .body) hbehind (by simp)).trans ?_
    congr 1
    simp only [length_append]
    omega

/-- A text behind a `=` is a value, or begins with one that a `;` follows, or is refused. -/
theorem value_or_failed : (∃ v : Value, rest = v.text ∧ v.Passed) ∨
    (∃ (v : Value) (y : Str), rest = v.text ++ SEMICOLON :: y ∧ v.Passed) ∨
    Failed (go .FIND_VAL d p rest) := by
  obtain ⟨w, c, y, rfl, hw, rfl | hc⟩ | hfail := @val_or_failed d p rest
  · rw [go_blanks hw, go_val_quote]
    obtain ⟨t, z, rfl, ht, hne⟩ | hfail := @find_quoted_or_failed d (p + w.length + 1) y
    swap
    · exact .inr (.inr hfail)
    rw [go_quoted ht hne]
    obtain hz | ⟨g, z, rfl, hg⟩ | hfail := @loose_next_or_failed _ _ z
    · exact .inl ⟨⟨w, true, t, z⟩, rfl, hw, ⟨ht, hne⟩, hz⟩
    · exact .inr (.inl ⟨⟨w, true, t, g⟩, z, by simp [Value.text], hw, ⟨ht, hne⟩, hg⟩)
    · exact .inr (.inr hfail)
  · obtain ⟨t, z, heq, ht, hz⟩ := @word_cut c y hc
    rw [heq, go_blanks hw, go_body ht]
    obtain hg | ⟨g, z, rfl, hg, -⟩ | ⟨h, -⟩ | hfail :=
      next_or_failed .body (d.start_body (p + w.length)) (p + w.length + t.length) hz
    · exact .inl ⟨⟨w, false, t, z⟩, rfl, hw, ht, hg⟩
    · exact .inr (.inl ⟨⟨w, false, t, g⟩, z, by simp [Value.text], hw, ht, hg⟩)
    · exact absurd h (by simp)
    · exact .inr (.inr hfail)
  · exact .inr (.inr hfail)

end Values

section Items

variable {ty : Slice} {ps : List DispositionParam} {p : ℕ} {rest : Str} {x : Item} {xs : List Item} {last : Prop}

theorem fin_item (x : Item) (ty : Slice) (ps : List DispositionParam) (p : ℕ) :
    let q := p + x.before.length
    let d := ((⟨ty, ps⟩ : Disposition).new_param q).fin_name (q + x.name.length)
    (x.value = none → d = ⟨ty, ps ++ [x.param p]⟩) ∧
      ∀ v ∈ x.value, v.fin d (q + x.name.length + x.behind.length + 1) = ⟨ty, ps ++ [x.param p]⟩ := by
  constructor
  · intro hnone
    simp [Disposition.new_param, Disposition.fin_name, modifyLast_concat, Item.param, hnone, Slice.upto]
  · intro v hv
    rw [mem_def] at hv
    cases hq : v.is_quoted with
    | true =>
      simp [Value.fin, Disposition.new_param, Disposition.fin_name, Disposition.start_body,
        Disposition.fin_quoted, modifyLast_concat, Item.param, hv, Slice.upto, hq, Value.slice, Slice.zero]
    | false =>
      simp [Value.fin, Disposition.new_param, Disposition.fin_name, Disposition.start_body,
        Disposition.fin_body, modifyLast_concat, Item.param, hv, Slice.upto, hq, Value.slice, Slice.zero]

theorem go_item_end (h : x.Passed last) : go .FIND_PARAM ⟨ty, ps⟩ p x.text = .ok ⟨ty, ps ++ [x.param p]⟩ := by
  obtain ⟨hbefore, hname, hbehind, hvalue, -⟩ := h
  have hfin := fin_item x ty ps p
  rw [Item.text, go_before hbefore (.inr rfl), go_name hname, Item.rest]
  cases hv : x.value with
  | none =>
    refine (go_end (k := .name) hbehind).trans ?_
    exact congrArg Except.ok (hfin.1 hv)
  | some v =>
    rw [go_equal hbehind, go_value_end (hvalue v hv), hfin.2 v hv]

theorem go_item_next (h : x.Passed last) (hlast : ¬ last) :
    go .FIND_PARAM ⟨ty, ps⟩ p (x.text ++ SEMICOLON :: rest) =
      go .FIND_PARAM ⟨ty, ps ++ [x.param p]⟩ (p + x.text.length + 1) rest := by
  obtain ⟨hbefore, hname, hbehind, hvalue, hnext⟩ := h
  have hfin := fin_item x ty ps p
  rw [Item.text, append_assoc, go_before hbefore (.inr rfl), append_assoc, go_name hname, Item.rest]
  cases hv : x.value with
  | none =>
    have hnil := (hnext hv).resolve_right hlast
    refine (go_semicolon (k := .name) hbehind fun _ => hnil).trans ?_
    rw [show Kind.name.fin = Disposition.fin_name from rfl, hfin.1 hv]
    congr 1
    simp only [length_append]
    omega
  | some v =>
    rw [append_assoc, cons_append, go_equal hbehind, go_value_next (hvalue v hv), hfin.2 v hv]
    congr 1
    simp only [length_append, length_cons]
    omega

theorem items_text_cons (x : Item) (xs : List Item) :
    items_text (x :: xs) = SEMICOLON :: (x.text ++ items_text xs) := rfl

theorem go_items (h : ItemsPassed (x :: xs)) : go .FIND_PARAM ⟨ty, ps⟩ p (x.text ++ items_text xs) =
    .ok ⟨ty, ps ++ x.param p :: params_at (p + x.text.length) xs⟩ := by
  induction xs generalizing x ps p with
  | nil =>
    rw [items_text, flatMap_nil, append_nil, go_item_end h.1]
    rfl
  | cons y xs ih =>
    rw [items_text_cons, go_item_next h.1 (cons_ne_nil _ _), ih h.2, append_assoc]
    rfl

/-- A text behind a `;` consists of passed items, or is refused. -/
theorem items_or_failed {d : Disposition} :
    (∃ x xs, rest = x.text ++ items_text xs ∧ ItemsPassed (x :: xs)) ∨ Failed (go .FIND_PARAM d p rest) := by
  obtain ⟨n, hn⟩ : ∃ n, rest.length < n := ⟨_, Nat.lt_succ_self _⟩
  induction n generalizing rest p d with
  | zero => exact absurd hn (Nat.not_lt_zero _)
  | succ n ih =>
    obtain ⟨g, c, y, rfl, hg, hc⟩ | hfail := @before_or_failed .FIND_PARAM d p rest (.inr rfl)
    swap
    · exact .inr hfail
    obtain ⟨w, z, heq, hw, hz⟩ := @word_cut c y hc
    rw [heq] at hn ⊢
    rw [go_before hg (.inr rfl), go_name hw]
    simp only [length_append] at hn
    obtain hbehind | ⟨b, y, rfl, hb, hnil⟩ | ⟨-, b, y, rfl, hb⟩ | hfail :=
      next_or_failed .name (d.new_param (p + g.length)) (p + g.length + w.length) hz
    · refine .inl ⟨⟨g, w, z, none⟩, [], ?_, ⟨hg, hw, hbehind, by simp, fun _ => .inr rfl⟩, trivial⟩
      simp [Item.text, Item.rest, items_text]
    · obtain rfl := hnil rfl
      have hgo := @go_semicolon .name (d.new_param (p + g.length)) (p + g.length + w.length) [] y hb fun _ => rfl
      rw [show State.PARAM = Kind.name.reading from rfl, hgo]
      rw [nil_append, length_cons] at hn
      obtain ⟨x, xs, rfl, hxs⟩ | hfail := @ih _ y _ (by omega)
      · refine .inl ⟨⟨g, w, [], none⟩, x :: xs, ?_, ⟨hg, hw, .nil, by simp, fun _ => .inl rfl⟩, hxs⟩
        simp [Item.text, Item.rest, items_text_cons]
      · exact .inr hfail
    · rw [go_equal hb]
      obtain ⟨v, rfl, hv⟩ | ⟨v, y, rfl, hv⟩ | hfail :=
        @value_or_failed ((d.new_param (p + g.length)).fin_name (p + g.length + w.length))
          (p + g.length + w.length + b.length + 1) y
      · refine .inl ⟨⟨g, w, b, some v⟩, [], ?_, ⟨hg, hw, hb, by simpa using hv, by simp⟩, trivial⟩
        simp [Item.text, Item.rest, items_text]
      · rw [go_value_next hv]
        simp only [length_append, length_cons] at hn
        obtain ⟨x, xs, rfl, hxs⟩ | hfail := @ih _ y _ (by omega)
        · refine .inl ⟨⟨g, w, b, some v⟩, x :: xs, ?_, ⟨hg, hw, hb, by simpa using hv, by simp⟩, hxs⟩
          simp [Item.text, Item.rest, items_text_cons]
        · exact .inr hfail
      · exact .inr hfail
    · exact .inr hfail

end Items

section Layouts

theorem parse_disposition_eq (s : Str) : parse_disposition s = go .FIND_TYPE ⟨.zero, []⟩ 0 s := by
  rw [parse_disposition, go, run, zero_add]

/-- **A passed layout is read as it is written.** -/
theorem passed_parse {l : Layout} (h : l.Passed) : parse_disposition l.text = .ok l.disposition := by
  obtain ⟨hbefore, htype, hbehind, hitems⟩ := h
  rw [parse_disposition_eq, Layout.text, go_before hbefore (.inl rfl), go_type htype, Layout.disposition]
  cases hxs : l.items with
  | nil =>
    rw [items_text, flatMap_nil, append_nil]
    refine (go_end (k := .type) hbehind).trans ?_
    simp [Kind.fin, Disposition.fin_type, Slice.upto, params_at]
  | cons x xs =>
    rw [hxs] at hitems
    rw [items_text_cons]
    refine (go_semicolon (k := .type) hbehind (by simp)).trans ?_
    rw [go_items hitems]
    simp [Kind.fin, Disposition.fin_type, Slice.upto, params_at]

/-- **A text is that of a passed layout, or is refused.** -/
theorem passed_or_failed (s : Str) : (∃ l : Layout, l.Passed ∧ l.text = s) ∨ Failed (parse_disposition s) := by
  rw [parse_disposition_eq]
  obtain ⟨g, c, y, rfl, hg, hc⟩ | hfail := @before_or_failed .FIND_TYPE ⟨.zero, []⟩ 0 s (.inl rfl)
  swap
  · exact .inr hfail
  obtain ⟨w, z, heq, hw, hz⟩ := @word_cut c y hc
  rw [heq, go_before hg (.inl rfl), go_type hw]
  obtain hbehind | ⟨b, y, rfl, hb, -⟩ | ⟨h, -⟩ | hfail :=
    next_or_failed .type ⟨⟨some (0 + g.length), 0⟩, []⟩ (0 + g.length + w.length) hz
  · refine .inl ⟨⟨g, w, z, []⟩, ⟨hg, hw, hbehind, trivial⟩, ?_⟩
    simp [Layout.text, items_text]
  · have hgo := @go_semicolon .type ⟨⟨some (0 + g.length), 0⟩, []⟩ (0 + g.length + w.length) b y hb (by simp)
    obtain ⟨x, xs, rfl, hxs⟩ | hfail :=
      @items_or_failed (0 + g.length + w.length + b.length + 1) y
        (Kind.type.fin ⟨⟨some (0 + g.length), 0⟩, []⟩ (0 + g.length + w.length))
    · refine .inl ⟨⟨g, w, b, x :: xs⟩, ⟨hg, hw, hb, hxs⟩, ?_⟩
      simp [Layout.text, items_text_cons]
    · exact .inr (hgo.trans hfail)
  · exact absurd h (by simp)
  · exact .inr hfail

end Layouts

section Strict

variable {k : Kind} {g rest : Str} {v : Value} {x : Item} {xs : List Item}

theorem White.char (h : White g) : ∀ c ∈ g, Blank c ∨ c = LF ∨ c = CR := by
  induction h with
  | nil => simp
  | blank c g hc _ ih => exact forall_mem_cons.2 ⟨.inl hc, ih⟩
  | fold b c g hb hc _ ih =>
    refine forall_mem_append.2 ⟨?_, forall_mem_cons.2 ⟨.inl hc, ih⟩⟩
    obtain rfl | rfl | rfl := hb <;> simp

theorem White.cases (h : White g) :
    (∀ c ∈ g, Blank c) ∨ ∃ w c y, g = w ++ c :: y ∧ (∀ a ∈ w, Blank a) ∧ (c = LF ∨ c = CR) := by
  obtain hall | ⟨w, c, y, rfl, hw, hc⟩ := blank_cases g
  · exact .inl hall
  · exact .inr ⟨w, c, y, rfl, hw, (h.char c (by simp)).resolve_left hc⟩

theorem break_of {b : Str} (val : Bool) (hb : b = [LF] ∨ b = [CR] ∨ b = [CR, LF]) : Break val b := by
  obtain rfl | rfl | rfl := hb
  · exact .lf [] (by simp)
  · exact .cr [] (by simp)
  · exact .crlf CR [] [] (.inl rfl) (by simp) (by simp)

theorem White.before (h : White g) : Before g := by
  induction h with
  | nil => exact .nil
  | blank c g hc _ ih => exact .blank c g hc ih
  | fold b c g hb hc _ ih => exact .fold b c g (break_of false hb) hc ih

theorem White.behind (k : Kind) (h : White g) :
    Behind k.val g ∨ ∀ d p rest, Failed (go k.reading d p (g ++ rest)) := by
  have hloose : ∀ {w : Str}, (∀ c ∈ w, Blank c) → Loose w := fun hw c hc => .inl (hw c hc)
  have hfail : ∀ {w y : Str} {c : UInt8}, Behind k.val w → w ≠ [] → (c = LF ∨ c = CR) →
      ∀ d p rest, Failed (go k.reading d p (w ++ c :: y ++ rest)) := by
    intro w y c hw hne hc d p rest
    rw [Failed, append_assoc, go_behind hw hne]
    exact run_error (turn_ended_break hc)
  cases h with
  | nil => exact .inl .nil
  | blank c g hc hg =>
    obtain hall | ⟨w, b, y, rfl, hw, hb⟩ := hg.cases
    · exact .inl (.blank c g hc (hloose hall))
    · exact .inr (hfail (w := c :: w) (.blank c w hc (hloose hw)) (cons_ne_nil _ _) hb)
  | fold b c g hb hc hg =>
    obtain hall | ⟨w, b', y, rfl, hw, hb'⟩ := hg.cases
    · exact .inl (.fold b c g (break_of k.val hb) hc (hloose hall))
    · refine .inr fun d p rest => ?_
      have hw' := hfail (y := y) (.fold b c w (break_of k.val hb) hc (hloose hw)) (by simp) hb' d p rest
      rwa [append_assoc b, cons_append] at hw'

theorem Value.Strict.passed (h : v.Strict) : v.Passed ∨ ∀ d p rest, Failed (go .FIND_VAL d p (v.text ++ rest)) := by
  obtain ⟨hbefore, hbody, hbehind⟩ := h
  obtain hblank | ⟨w, c, y, heq, hw, hc⟩ := hbefore.cases
  swap
  · refine .inr fun d p rest => ?_
    rw [Failed, Value.text, heq, append_assoc, append_assoc, go_blanks hw]
    refine run_error (turn_val_error ?_ ?_ ?_)
    all_goals obtain rfl | rfl := hc <;> decide
  cases hq : v.is_quoted with
  | true =>
    rw [hq, if_pos rfl] at hbody
    by_cases hne : v.body = []
    · refine .inr fun d p rest => ?_
      rw [Failed, Value.text, hq, if_pos rfl, hne, append_assoc, go_blanks hblank, cons_append, go_val_quote]
      exact run_error rfl
    obtain hloose | ⟨w, c, y, heq, hw, hc⟩ := hbehind.cases
    · refine .inl ⟨hblank, ?_, ?_⟩
      · rw [hq, if_pos rfl]
        exact ⟨hbody, hne⟩
      · rw [hq, if_pos rfl]
        exact fun c hc => .inl (hloose c hc)
    · refine .inr fun d p rest => ?_
      have hgo := fun d p => @go_loose .body d p w (c :: y ++ rest) fun c hc => .inl (hw c hc)
      rw [Failed, Value.text, hq, if_pos rfl, heq, append_assoc, go_blanks hblank, cons_append,
        go_val_quote, append_assoc, cons_append, go_quoted hbody hne, append_assoc]
      exact (hgo _ _).trans (run_error (turn_ended_break (k := .body) hc))
  | false =>
    rw [hq, if_neg Bool.false_ne_true] at hbody
    obtain hpass | hfail := hbehind.behind .body
    · refine .inl ⟨hblank, ?_, ?_⟩
      · rwa [hq, if_neg Bool.false_ne_true]
      · rwa [hq, if_neg Bool.false_ne_true]
    · refine .inr fun d p rest => ?_
      rw [Failed, Value.text, hq, if_neg Bool.false_ne_true, append_assoc, go_blanks hblank,
        append_assoc, go_body hbody]
      exact hfail _ _ rest

theorem Item.Strict.passed (h : x.Strict) (xs : List Item) :
    x.Passed (xs = []) ∨ ∀ d p, Failed (go .FIND_PARAM d p (x.text ++ items_text xs)) := by
  obtain ⟨hbefore, hname, hbehind, hvalue⟩ := h
  obtain hpass | hfail := hbehind.behind .name
  swap
  · refine .inr fun d p => ?_
    rw [Failed, Item.text, append_assoc, go_before hbefore.before (.inr rfl), append_assoc,
      go_name hname, Item.rest]
    cases x.value with
    | none => exact hfail _ _ _
    | some v =>
      rw [append_assoc]
      exact hfail _ _ _
  cases hv : x.value with
  | none =>
    by_cases hnext : x.behind = [] ∨ xs = []
    · exact .inl ⟨hbefore.before, hname, hpass, by simp [hv], fun _ => hnext⟩
    · rw [not_or] at hnext
      refine .inr fun d p => ?_
      obtain ⟨y, ys, rfl⟩ := exists_cons_of_ne_nil hnext.2
      have hgo := fun d p => @go_behind .name d p x.behind (items_text (y :: ys)) hpass hnext.1
      rw [Failed, Item.text, append_assoc, go_before hbefore.before (.inr rfl), append_assoc,
        go_name hname, Item.rest, hv]
      exact (hgo _ _).trans (run_error turn_ended_semicolon)
  | some v =>
    obtain hval | hfail := (hvalue v hv).passed
    · refine .inl ⟨hbefore.before, hname, hpass, fun w hw => ?_, fun hnone => ?_⟩
      · obtain rfl := some.inj (hv.symm.trans hw)
        exact hval
      · exact absurd (hv.symm.trans hnone) (by simp)
    · refine .inr fun d p => ?_
      rw [Failed, Item.text, append_assoc, go_before hbefore.before (.inr rfl), append_assoc,
        go_name hname, Item.rest, hv]
      rw [append_assoc, cons_append, go_equal hpass]
      exact hfail _ _ _

theorem items_strict (hx : x.Strict) (hxs : ∀ y ∈ xs, y.Strict) : ItemsPassed (x :: xs) ∨
    ∀ ty ps p, Failed (go .FIND_PARAM ⟨ty, ps⟩ p (x.text ++ items_text xs)) := by
  induction xs generalizing x with
  | nil =>
    obtain hpass | hfail := hx.passed []
    · exact .inl ⟨hpass, trivial⟩
    · exact .inr fun _ _ => hfail _
  | cons y xs ih =>
    obtain hpass | hfail := hx.passed (y :: xs)
    swap
    · exact .inr fun _ _ => hfail _
    obtain ⟨hy, hxs⟩ := forall_mem_cons.1 hxs
    obtain hrest | hfail := ih hy hxs
    · exact .inl ⟨hpass, hrest⟩
    · refine .inr fun ty ps p => ?_
      rw [Failed, items_text_cons, go_item_next hpass (cons_ne_nil _ _)]
      exact hfail _ _ _

/-- **A strict layout is passed, or refused.** -/
theorem strict_passed {l : Layout} (h : l.Strict) : l.Passed ∨ Failed (parse_disposition l.text) := by
  obtain ⟨hbefore, htype, hbehind, hitems⟩ := h
  obtain hpass | hfail := hbehind.behind .type
  swap
  · refine .inr ?_
    rw [Failed, parse_disposition_eq, Layout.text, go_before hbefore.before (.inl rfl), go_type htype]
    exact hfail _ _ _
  cases hxs : l.items with
  | nil => exact .inl ⟨hbefore.before, htype, hpass, by rw [hxs]; trivial⟩
  | cons x xs =>
    rw [hxs] at hitems
    obtain ⟨hx, hrest⟩ := forall_mem_cons.1 hitems
    obtain hitems | hfail := items_strict hx hrest
    · exact .inl ⟨hbefore.before, htype, hpass, by rwa [hxs]⟩
    · refine .inr ?_
      rw [Failed, parse_disposition_eq, Layout.text, go_before hbefore.before (.inl rfl), go_type htype, hxs,
        items_text_cons]
      exact (go_semicolon (k := .type) hpass (by simp)).trans (hfail _ _ _)

/-- A text is treated as the grammar says exactly when it is regular. -/
theorem parse_disposition_spec (s : Str) : Meets s ↔ Regular s := by
  constructor
  · intro h
    refine ⟨?_, ?_⟩
    · rintro l hl rfl
      refine (strict_passed hl).resolve_right fun hfail => ?_
      exact absurd ((h.strict l hl rfl).symm.trans hfail) (by simp)
    · rintro l hl rfl
      by_contra hnone
      exact absurd ((passed_parse hl).symm.trans (h.other hnone)) (by simp)
  · intro h
    refine ⟨?_, fun hnone => ?_⟩
    · rintro l hl rfl
      exact passed_parse (h.strict l hl rfl)
    · refine (passed_or_failed s).resolve_left ?_
      rintro ⟨l, hl, heq⟩
      exact hnone (h.passed l hl heq)

/-- `a;b=""` -/
def empty_body : Layout := ⟨[], [chr 'a'], [], [⟨[], [chr 'b'], [], some ⟨[], true, [], []⟩⟩]⟩

/-- An empty quoted text is refused, and a word behind the type is dropped. -/
theorem empty_body_refused : ¬ Meets empty_body.text ∧ parse_disposition ("a b;c".toList.map chr) =
      .ok ⟨⟨some 0, 1⟩, [⟨⟨some 4, 1⟩, .zero, false⟩]⟩ := by
  refine ⟨fun h => ?_, by decide⟩
  have hword : ∀ c : UInt8, Other c → Word [c] := fun c hc => ⟨cons_ne_nil _ _, by simpa using hc⟩
  have hstrict : empty_body.Strict := by
    refine ⟨.nil, hword _ (by decide), .nil, fun x hx => ?_⟩
    obtain rfl := mem_singleton.1 hx
    refine ⟨.nil, hword _ (by decide), .nil, fun v hv => ?_⟩
    obtain rfl := some.inj hv
    exact ⟨.nil, trivial, .nil⟩
  have hfail : parse_disposition empty_body.text = .error PARSE_ERROR := by decide
  exact absurd ((h.strict empty_body hstrict rfl).symm.trans hfail) (by simp)

end Strict

end OpenSips.Disp
