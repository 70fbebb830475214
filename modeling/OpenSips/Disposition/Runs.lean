import OpenSips.Disposition.Layout
import OpenSips.Lib.Cut

/-!
# OpenSips.Disposition.Runs — the machine on what stands between the elements

Each part of a layout takes the machine from one state to the next; where a text does not go on like that, the
machine ends with an error.
-/

namespace OpenSips.Disp

open Lib List Option

/-- What the machine makes of the text from `p` on. -/
def run (u : Vars) (p : ℕ) (rest : Str) : Except ℤ Disposition :=
  scan turn u p rest >>= fun u => at_end u (p + rest.length)

/-- The same from a state that does not look at the saved one. -/
def go (st : State) (d : Disposition) (p : ℕ) (rest : Str) : Except ℤ Disposition := run ⟨st, st, d⟩ p rest

abbrev Failed (r : Except ℤ Disposition) : Prop := r = .error PARSE_ERROR

def Folding (st : State) : Prop := st = .F_LF ∨ st = .F_CR ∨ st = .F_CRLF

instance : DecidablePred Folding := fun _ => inferInstanceAs (Decidable (_ ∨ _))

section Classes

/-- The character of a class that has only one. -/
def CharClass.char : CharClass → Option UInt8
  | .nl => some LF
  | .cr => some CR
  | .semicolon => some SEMICOLON
  | .equal => some EQUAL
  | .quote => some QUOTE
  | _ => none

theorem char_of_class {c a : UInt8} {k : CharClass} (h : class_of c = k) (ha : k.char = some a) : c = a := by
  unfold class_of at h
  split_ifs at h with h1 h2 h3 h4 h5 h6 h7
  all_goals subst h
  · cases ha
  · exact h2.trans (some.inj ha)
  · exact h3.trans (some.inj ha)
  · cases ha
  · exact h5.trans (some.inj ha)
  · exact h6.trans (some.inj ha)
  · exact h7.trans (some.inj ha)
  all_goals cases ha

end Classes

section Run

variable {u : Vars} {st sv : State} {d : Disposition} {p : ℕ} {c : UInt8} {x rest : Str}

theorem run_nil (u : Vars) (p : ℕ) : run u p [] = at_end u p := rfl

theorem run_cons (u : Vars) (p : ℕ) (c : UInt8) (rest : Str) :
    run u p (c :: rest) = turn u p c >>= fun u' => run u' (p + 1) rest := by
  rw [run, scan, length_cons, ← Nat.add_assoc, Nat.add_right_comm]
  cases turn u p c with
  | error e => rfl
  | ok u' => rfl

theorem run_ok {u' : Vars} (h : turn u p c = .ok u') : run u p (c :: rest) = run u' (p + 1) rest := by
  rw [run_cons, h]
  rfl

theorem run_error (h : turn u p c = .error PARSE_ERROR) : Failed (run u p (c :: rest)) := by
  rw [Failed, run_cons, h]
  rfl

theorem run_skip (h : ∀ c ∈ x, ∀ p, turn u p c = .ok u) : run u p (x ++ rest) = run u (p + x.length) rest := by
  induction x generalizing p with
  | nil => rfl
  | cons c x ih =>
    rw [cons_append, run_ok (h c mem_cons_self p), ih fun d hd => h d (mem_cons_of_mem _ hd),
      length_cons, Nat.add_right_comm, Nat.add_assoc]

theorem turn_saved (sv sv' : State) (hst : ¬ Folding st) : turn ⟨st, sv, d⟩ p c = turn ⟨st, sv', d⟩ p c ∨
    ∃ st' d', ¬ Folding st' ∧ turn ⟨st, sv, d⟩ p c = .ok ⟨st', sv, d'⟩ ∧
      turn ⟨st, sv', d⟩ p c = .ok ⟨st', sv', d'⟩ := by
  cases st with
  | F_LF | F_CR | F_CRLF => exact absurd (by simp [Folding]) hst
  | _ =>
    simp only [turn, quoted_char]
    cases class_of c <;> simp [Folding]

theorem run_saved' (sv sv' : State) (hst : ¬ Folding st) : run ⟨st, sv, d⟩ p rest = run ⟨st, sv', d⟩ p rest := by
  induction rest generalizing st d p with
  | nil =>
    rw [run_nil, run_nil, at_end, at_end]
  | cons c rest ih =>
    obtain heq | ⟨st', d', hst', h, h'⟩ := turn_saved (d := d) (p := p) (c := c) sv sv' hst
    · rw [run_cons, run_cons, heq]
    · rw [run_ok h, run_ok h']
      exact ih hst'

theorem run_saved (hst : ¬ Folding st) : run ⟨st, sv, d⟩ p rest = go st d p rest := run_saved' sv st hst

end Run

section Fold

variable {st sv : State} {d : Disposition} {p : ℕ} {c : UInt8} {b g t rest : Str} {val : Bool}

def enter (val : Bool) (c : UInt8) : State := if val = false ∧ c = LF then .F_LF else .F_CR

def Tail (st : State) (t : Str) : Prop :=
  (∀ c ∈ t, Other c) ∨ st = .F_CR ∧ ∃ j j', (∀ c ∈ j, Other c) ∧ (∀ c ∈ j', Other c) ∧ t = j ++ LF :: j'

theorem enter_folding (val : Bool) (c : UInt8) : Folding (enter val c) := by
  rw [enter]
  by_cases h : val = false ∧ c = LF
  · rw [if_pos h]
    exact .inl rfl
  · rw [if_neg h]
    exact .inr (.inl rfl)

theorem Break.tail (h : Break val b) : ∃ c t, b = c :: t ∧ (c = LF ∨ c = CR) ∧ Tail (enter val c) t := by
  cases h with
  | lf j hj => exact ⟨LF, j, rfl, .inl rfl, .inl hj⟩
  | cr j hj => exact ⟨CR, j, rfl, .inr rfl, .inl hj⟩
  | crlf c j j' hc hj hj' =>
    refine ⟨c, j ++ LF :: j', rfl, ?_, .inr ⟨?_, j, j', hj, hj', rfl⟩⟩
    · exact hc.elim .inr fun h => .inl h.2
    · rw [enter, if_neg]
      rintro ⟨hval, rfl⟩
      obtain h | h := hc
      · exact absurd h (by decide)
      · rw [hval] at h
        exact absurd h.1 (by decide)

theorem Tail.break (hc : c = LF ∨ c = CR) (h : Tail (enter val c) t) : Break val (c :: t) := by
  obtain h | ⟨hst, j, j', hj, hj', rfl⟩ := h
  · obtain rfl | rfl := hc
    · exact .lf t h
    · exact .cr t h
  · refine .crlf c j j' ?_ hj hj'
    obtain rfl | rfl := hc
    · refine .inr ⟨?_, rfl⟩
      cases val with
      | true => rfl
      | false => exact absurd hst (by decide)
    · exact .inl rfl

theorem turn_folding_other (hst : Folding st) (hc : Other c) :
    turn ⟨st, sv, d⟩ p c = .ok ⟨st, sv, d⟩ := by
  rw [turn, show class_of c = .other from hc]
  obtain rfl | rfl | rfl := hst <;> rfl

theorem turn_folding_blank (hst : Folding st) (hc : Blank c) :
    turn ⟨st, sv, d⟩ p c = .ok ⟨sv, sv, d⟩ := by
  rw [turn, show class_of c = .blank from hc]
  obtain rfl | rfl | rfl := hst <;> rfl

theorem turn_folding_lf : turn ⟨.F_CR, sv, d⟩ p LF = .ok ⟨.F_CRLF, sv, d⟩ := rfl

theorem run_tail (h : Tail st t) (hst : Folding st) (hc : Blank c) :
    run ⟨st, sv, d⟩ p (t ++ c :: rest) = go sv d (p + t.length + 1) rest := by
  obtain h | ⟨rfl, j, j', hj, hj', rfl⟩ := h
  · rw [run_skip fun c hc p => turn_folding_other hst (h c hc), run_ok (turn_folding_blank hst hc)]
    rfl
  · have hst' : Folding .F_CRLF := .inr (.inr rfl)
    rw [append_assoc, cons_append, run_skip fun c hc p => turn_folding_other hst (hj c hc),
      run_ok turn_folding_lf, run_skip fun c hc p => turn_folding_other hst' (hj' c hc),
      run_ok (turn_folding_blank hst' hc), length_append, length_cons]
    rw [show p + (j.length + (j'.length + 1)) + 1 = p + j.length + 1 + j'.length + 1 by omega]
    rfl

theorem turn_folding_error (hst : Folding st) (hblank : ¬ Blank c) (hother : ¬ Other c)
    (hlf : st = .F_CR → class_of c ≠ .nl) : turn ⟨st, sv, d⟩ p c = .error PARSE_ERROR := by
  simp only [Blank, Other] at hblank hother
  rw [turn]
  obtain rfl | rfl | rfl := hst <;> cases hcl : class_of c <;> simp_all [quoted_char]

theorem at_end_folding (hst : Folding st) : at_end ⟨st, sv, d⟩ p = .error PARSE_ERROR := by
  obtain rfl | rfl | rfl := hst <;> rfl

theorem other_cases (s : Str) :
    (∀ c ∈ s, Other c) ∨ ∃ x c y, s = x ++ c :: y ∧ (∀ a ∈ x, Other a) ∧ ¬ Other c := by
  simpa using cut_cases (fun c => decide (Other c)) s

theorem crlf_or_failed : (∃ t c rest', rest = t ++ c :: rest' ∧ (∀ a ∈ t, Other a) ∧ Blank c) ∨
    Failed (run ⟨.F_CRLF, sv, d⟩ p rest) := by
  have hst : Folding .F_CRLF := .inr (.inr rfl)
  obtain h | ⟨x, c, y, rfl, hx, hc⟩ := other_cases rest
  · refine .inr ?_
    rw [Failed, ← append_nil rest, run_skip fun c hc p => turn_folding_other hst (h c hc), run_nil,
      at_end_folding hst]
  · by_cases hblank : Blank c
    · exact .inl ⟨x, c, y, rfl, hx, hblank⟩
    · refine .inr ?_
      rw [Failed, run_skip fun c hc p => turn_folding_other hst (hx c hc)]
      exact run_error (turn_folding_error hst hblank hc (by simp))

theorem tail_or_failed (hst : Folding st) : (∃ t c rest', rest = t ++ c :: rest' ∧ Tail st t ∧ Blank c) ∨
    Failed (run ⟨st, sv, d⟩ p rest) := by
  obtain h | ⟨x, c, y, rfl, hx, hc⟩ := other_cases rest
  · refine .inr ?_
    rw [Failed, ← append_nil rest, run_skip fun c hc p => turn_folding_other hst (h c hc), run_nil,
      at_end_folding hst]
  by_cases hblank : Blank c
  · exact .inl ⟨x, c, y, rfl, .inl hx, hblank⟩
  rw [run_skip fun c hc p => turn_folding_other hst (hx c hc)]
  by_cases hlf : st = .F_CR ∧ class_of c = .nl
  · obtain ⟨rfl, hnl⟩ := hlf
    obtain rfl := char_of_class hnl rfl
    rw [run_ok turn_folding_lf]
    obtain ⟨t, c, rest', rfl, ht, hc⟩ | hfail := @crlf_or_failed sv d (p + x.length + 1) y
    · exact .inl ⟨x ++ LF :: t, c, rest', by simp, .inr ⟨rfl, x, t, hx, ht, rfl⟩, hc⟩
    · exact .inr hfail
  · exact .inr (run_error (turn_folding_error hst hblank hc fun h hnl => hlf ⟨h, hnl⟩))

end Fold

section Before

variable {st : State} {d : Disposition} {p : ℕ} {c : UInt8} {g rest : Str}

def Finding (st : State) : Prop := st = .FIND_TYPE ∨ st = .FIND_PARAM

theorem turn_finding_blank (hst : Finding st) (hc : Blank c) : turn ⟨st, st, d⟩ p c = .ok ⟨st, st, d⟩ := by
  rw [turn, show class_of c = .blank from hc]
  obtain rfl | rfl := hst <;> rfl

theorem turn_finding_break (hst : Finding st) (hc : c = LF ∨ c = CR) :
    turn ⟨st, st, d⟩ p c = .ok ⟨enter false c, st, d⟩ := by
  obtain rfl | rfl := hst <;> obtain rfl | rfl := hc <;> rfl

theorem go_before (h : Before g) (hst : Finding st) : go st d p (g ++ rest) = go st d (p + g.length) rest := by
  induction h generalizing p with
  | nil => rfl
  | blank c g hc _ ih =>
    rw [cons_append, go, run_ok (turn_finding_blank hst hc)]
    refine ih.trans ?_
    rw [length_cons, add_assoc, add_comm 1]
  | fold b c g hb hc _ ih =>
    obtain ⟨c', t, rfl, hc', ht⟩ := hb.tail
    rw [append_assoc, cons_append, cons_append, go, run_ok (turn_finding_break hst hc'),
      run_tail ht (enter_folding false c') hc, ih]
    simp only [length_append, length_cons]
    congr 1
    omega

theorem turn_finding_error (hst : Finding st) (hblank : ¬ Blank c) (hother : ¬ Other c)
    (hbreak : ¬ (c = LF ∨ c = CR)) : turn ⟨st, st, d⟩ p c = .error PARSE_ERROR := by
  have hnl : class_of c ≠ .nl := fun h => hbreak (.inl (char_of_class h rfl))
  have hcr : class_of c ≠ .cr := fun h => hbreak (.inr (char_of_class h rfl))
  simp only [Blank, Other] at hblank hother
  rw [turn]
  obtain rfl | rfl := hst <;> cases hcl : class_of c <;> simp_all [quoted_char]

theorem before_or_failed (hst : Finding st) :
    (∃ g c rest', rest = g ++ c :: rest' ∧ Before g ∧ Other c) ∨ Failed (go st d p rest) := by
  obtain ⟨n, hn⟩ : ∃ n, rest.length < n := ⟨_, Nat.lt_succ_self _⟩
  induction n generalizing rest p with
  | zero => exact absurd hn (Nat.not_lt_zero _)
  | succ n ih =>
    cases rest with
    | nil =>
      refine .inr ?_
      obtain rfl | rfl := hst <;> rfl
    | cons c rest =>
      rw [length_cons] at hn
      by_cases hother : Other c
      · exact .inl ⟨[], c, rest, rfl, .nil, hother⟩
      by_cases hblank : Blank c
      · rw [go, run_ok (turn_finding_blank hst hblank)]
        obtain ⟨g, c', rest', rfl, hg, hc'⟩ | hfail := @ih (p + 1) rest (by omega)
        · exact .inl ⟨c :: g, c', rest', rfl, .blank c g hblank hg, hc'⟩
        · exact .inr hfail
      by_cases hbreak : c = LF ∨ c = CR
      · rw [go, run_ok (turn_finding_break hst hbreak)]
        obtain ⟨t, b, y, rfl, ht, hb⟩ | hfail :=
          @tail_or_failed (enter false c) st d (p + 1) rest (enter_folding false c)
        · rw [run_tail ht (enter_folding false c) hb]
          rw [length_append, length_cons] at hn
          obtain ⟨g, c', rest', rfl, hg, hc'⟩ | hfail := @ih (p + 1 + t.length + 1) y (by omega)
          · refine .inl ⟨(c :: t) ++ b :: g, c', rest', by simp, ?_, hc'⟩
            exact .fold (c :: t) b g (ht.break hbreak) hb hg
          · exact .inr hfail
        · exact .inr hfail
      · exact .inr (run_error (turn_finding_error hst hblank hother hbreak))

end Before

section Behind

inductive Kind where
  | type | name | body
  deriving DecidableEq

def Kind.reading : Kind → State
  | .type => .TYPE
  | .name => .PARAM
  | .body => .VAL

def Kind.finding : Kind → State
  | .type => .FIND_TYPE
  | .name => .FIND_PARAM
  | .body => .FIND_VAL

def Kind.ended : Kind → State
  | .type => .END_TYPE
  | .name => .END_PARAM
  | .body => .END_VAL

/-- The first character of the token at `p`. -/
def Kind.start : Kind → Disposition → ℕ → Disposition
  | .type, d, p => { d with type := { d.type with s := some p } }
  | .name, d, p => d.new_param p
  | .body, d, p => d.start_body p

def Kind.fin : Kind → Disposition → ℕ → Disposition
  | .type => Disposition.fin_type
  | .name => Disposition.fin_name
  | .body => Disposition.fin_body

def Kind.val : Kind → Bool
  | .body => true
  | _ => false

variable {k : Kind} {sv : State} {d : Disposition} {p : ℕ} {c : UInt8} {w g rest : Str}

theorem Kind.reading_not_folding (k : Kind) : ¬ Folding k.reading := by cases k <;> decide

theorem Kind.ended_not_folding (k : Kind) : ¬ Folding k.ended := by cases k <;> decide

theorem turn_reading_other (hc : Other c) : turn ⟨k.reading, sv, d⟩ p c = .ok ⟨k.reading, sv, d⟩ := by
  rw [turn, show class_of c = .other from hc]
  cases k <;> rfl

theorem turn_reading_blank (hc : Blank c) : turn ⟨k.reading, sv, d⟩ p c = .ok ⟨k.ended, sv, k.fin d p⟩ := by
  rw [turn, show class_of c = .blank from hc]
  cases k <;> rfl

theorem turn_reading_break (hc : c = LF ∨ c = CR) :
    turn ⟨k.reading, sv, d⟩ p c = .ok ⟨enter k.val c, k.ended, k.fin d p⟩ := by
  obtain rfl | rfl := hc <;> cases k <;> rfl

theorem turn_ended_loose (hc : Blank c ∨ Other c) : turn ⟨k.ended, sv, d⟩ p c = .ok ⟨k.ended, sv, d⟩ := by
  obtain hc | hc := hc
  · rw [turn, show class_of c = .blank from hc]
    cases k <;> rfl
  · rw [turn, show class_of c = .other from hc]
    cases k <;> rfl

theorem turn_ended_break (hc : c = LF ∨ c = CR) : turn ⟨k.ended, sv, d⟩ p c = .error PARSE_ERROR := by
  obtain rfl | rfl := hc <;> cases k <;> rfl

theorem go_word (hw : ∀ c ∈ w, Other c) :
    go k.reading d p (w ++ rest) = go k.reading d (p + w.length) rest :=
  run_skip fun c hc _ => turn_reading_other (hw c hc)

theorem go_start (hw : Word w) :
    go k.finding d p (w ++ rest) = go k.reading (k.start d p) (p + w.length) rest := by
  obtain ⟨hne, hw⟩ := hw
  cases w with
  | nil => exact absurd rfl hne
  | cons c w =>
    obtain ⟨hc, hw⟩ := forall_mem_cons.1 hw
    have hturn : turn ⟨k.finding, k.finding, d⟩ p c = .ok ⟨k.reading, k.finding, k.start d p⟩ := by
      rw [turn, show class_of c = .other from hc]
      cases k <;> rfl
    rw [cons_append, go, run_ok hturn, run_saved k.reading_not_folding, length_cons, ← Nat.add_assoc,
      Nat.add_right_comm]
    exact go_word hw

theorem go_loose (hg : Loose g) : go k.ended d p (g ++ rest) = go k.ended d (p + g.length) rest :=
  run_skip fun c hc _ => turn_ended_loose (hg c hc)

theorem go_behind (h : Behind k.val g) (hne : g ≠ []) :
    go k.reading d p (g ++ rest) = go k.ended (k.fin d p) (p + g.length) rest := by
  cases h with
  | nil => exact absurd rfl hne
  | blank c g hc hg =>
    rw [cons_append, go, run_ok (turn_reading_blank hc), run_saved k.ended_not_folding, go_loose hg,
      length_cons, add_assoc, add_comm 1]
  | fold b c g hb hc hg =>
    obtain ⟨c', t, rfl, hc', ht⟩ := hb.tail
    rw [append_assoc, cons_append, cons_append, go, run_ok (turn_reading_break hc'),
      run_tail ht (enter_folding k.val c') hc, go_loose hg]
    simp only [length_append, length_cons]
    congr 1
    omega

structure Stop (c : UInt8) : Prop where
  blank : ¬ Blank c
  other : ¬ Other c
  line_break : ¬ (c = LF ∨ c = CR)

theorem loose_or_failed (k : Kind) (d : Disposition) (p : ℕ) (rest : Str) :
    (∃ g y, rest = g ++ y ∧ Loose g ∧ ∀ c ∈ y.head?, Stop c) ∨ Failed (go k.ended d p rest) := by
  have hcut := cut_cases (fun c => decide (Blank c ∨ Other c)) rest
  simp only [decide_eq_true_eq, decide_eq_false_iff_not] at hcut
  obtain h | ⟨x, c, y, rfl, hx, hc⟩ := hcut
  · exact .inl ⟨rest, [], (append_nil rest).symm, h, by simp⟩
  by_cases hbreak : c = LF ∨ c = CR
  · refine .inr ?_
    rw [Failed, go_loose hx]
    exact run_error (turn_ended_break hbreak)
  · refine .inl ⟨x, c :: y, rfl, hx, fun a ha => ?_⟩
    cases ha
    exact ⟨fun h => hc (.inl h), fun h => hc (.inr h), hbreak⟩

theorem behind_or_failed (k : Kind) (d : Disposition) (p : ℕ) (hrest : ∀ c ∈ rest.head?, ¬ Other c) :
    (∃ g y, rest = g ++ y ∧ Behind k.val g ∧ ∀ c ∈ y.head?, Stop c) ∨ Failed (go k.reading d p rest) := by
  cases rest with
  | nil => exact .inl ⟨[], [], rfl, .nil, by simp⟩
  | cons c rest =>
    have hother := hrest c rfl
    by_cases hblank : Blank c
    · rw [go, run_ok (turn_reading_blank hblank), run_saved k.ended_not_folding]
      obtain ⟨g, y, rfl, hg, hy⟩ | hfail := loose_or_failed k (k.fin d p) (p + 1) rest
      · exact .inl ⟨c :: g, y, rfl, .blank c g hblank hg, hy⟩
      · exact .inr hfail
    by_cases hbreak : c = LF ∨ c = CR
    · rw [go, run_ok (turn_reading_break hbreak)]
      obtain ⟨t, b, y, rfl, ht, hb⟩ | hfail :=
        @tail_or_failed (enter k.val c) k.ended (k.fin d p) (p + 1) rest (enter_folding k.val c)
      · rw [run_tail ht (enter_folding k.val c) hb]
        obtain ⟨g, z, rfl, hg, hz⟩ | hfail := loose_or_failed k (k.fin d p) (p + 1 + t.length + 1) y
        · exact .inl ⟨(c :: t) ++ b :: g, z, by simp, .fold (c :: t) b g (ht.break hbreak) hb hg, hz⟩
        · exact .inr hfail
      · exact .inr hfail
    · refine .inl ⟨[], c :: rest, rfl, .nil, fun a ha => ?_⟩
      cases ha
      exact ⟨hblank, hother, hbreak⟩

end Behind

section Next

variable {k : Kind} {sv : State} {d : Disposition} {p : ℕ} {c : UInt8} {g y rest : Str}

theorem go_end (h : Behind k.val g) : go k.reading d p g = .ok (k.fin d p) := by
  by_cases hne : g = []
  · rw [hne, go, run_nil]
    cases k <;> rfl
  · rw [← append_nil g, go_behind h hne, go, run_nil]
    cases k <;> rfl

/-- A `;` ends the type, a token behind a `=`, and a name that it follows at once. -/
theorem go_semicolon (h : Behind k.val g) (hname : k = .name → g = []) :
    go k.reading d p (g ++ SEMICOLON :: rest) = go .FIND_PARAM (k.fin d p) (p + g.length + 1) rest := by
  have hst : ¬ Folding .FIND_PARAM := by decide
  by_cases hne : g = []
  · rw [hne, nil_append, go]
    cases k <;> exact (run_ok rfl).trans (run_saved hst)
  · rw [go_behind h hne, go]
    cases k with
    | name => exact absurd (hname rfl) hne
    | type => exact (run_ok rfl).trans (run_saved hst)
    | body => exact (run_ok rfl).trans (run_saved hst)

theorem go_equal (h : Behind false g) :
    go .PARAM d p (g ++ EQUAL :: rest) = go .FIND_VAL (d.fin_name p) (p + g.length + 1) rest := by
  have hst : ¬ Folding .FIND_VAL := by decide
  by_cases hne : g = []
  · rw [hne, nil_append, go]
    exact (run_ok rfl).trans (run_saved hst)
  · have hbehind := @go_behind .name d p g (EQUAL :: rest) h hne
    rw [show State.PARAM = Kind.name.reading from rfl, hbehind, go]
    exact (run_ok rfl).trans (run_saved hst)

theorem turn_stop (hc : Stop c) (hsemi : c ≠ SEMICOLON) (hequal : k = .name → c ≠ EQUAL) :
    turn ⟨k.reading, sv, d⟩ p c = .error PARSE_ERROR ∧ turn ⟨k.ended, sv, d⟩ p c = .error PARSE_ERROR := by
  obtain ⟨hblank, hother, hbreak⟩ := hc
  simp only [Blank, Other] at hblank hother
  rw [turn, turn]
  cases hcl : class_of c with
  | blank => exact absurd hcl hblank
  | other => exact absurd hcl hother
  | nl => exact absurd (.inl (char_of_class hcl rfl)) hbreak
  | cr => exact absurd (.inr (char_of_class hcl rfl)) hbreak
  | semicolon => exact absurd (char_of_class hcl rfl) hsemi
  | equal =>
    cases k with
    | name => exact absurd (char_of_class hcl rfl) (hequal rfl)
    | type => exact ⟨rfl, rfl⟩
    | body => exact ⟨rfl, rfl⟩
  | nul => exact ⟨rfl, rfl⟩
  | quote => cases k <;> exact ⟨rfl, rfl⟩
  | backslash => cases k <;> exact ⟨rfl, rfl⟩
  | special => cases k <;> exact ⟨rfl, rfl⟩

theorem turn_ended_semicolon : turn ⟨.END_PARAM, sv, d⟩ p SEMICOLON = .error PARSE_ERROR := rfl

theorem next_or_failed (k : Kind) (d : Disposition) (p : ℕ) (hrest : ∀ c ∈ rest.head?, ¬ Other c) :
    Behind k.val rest ∨
    (∃ g y, rest = g ++ SEMICOLON :: y ∧ Behind k.val g ∧ (k = .name → g = [])) ∨
    (k = .name ∧ ∃ g y, rest = g ++ EQUAL :: y ∧ Behind false g) ∨
    Failed (go k.reading d p rest) := by
  obtain ⟨g, y, rfl, hg, hy⟩ | hfail := behind_or_failed k d p hrest
  swap
  · exact .inr (.inr (.inr hfail))
  cases y with
  | nil =>
    rw [append_nil]
    exact .inl hg
  | cons c y =>
    have hstop := hy c rfl
    by_cases hequal : k = .name ∧ c = EQUAL
    · obtain ⟨rfl, rfl⟩ := hequal
      exact .inr (.inr (.inl ⟨rfl, g, y, rfl, hg⟩))
    by_cases hsemi : c = SEMICOLON
    · obtain rfl := hsemi
      by_cases hname : k = .name ∧ g ≠ []
      · obtain ⟨rfl, hne⟩ := hname
        refine .inr (.inr (.inr ?_))
        rw [Failed, go_behind hg hne]
        exact run_error turn_ended_semicolon
      · refine .inr (.inl ⟨g, y, rfl, hg, fun hk => ?_⟩)
        by_contra hne
        exact hname ⟨hk, hne⟩
    · have herr := fun sv d p => @turn_stop k sv d p c hstop hsemi fun hk h => hequal ⟨hk, h⟩
      refine .inr (.inr (.inr ?_))
      by_cases hne : g = []
      · rw [hne]
        exact run_error (herr _ _ _).1
      · rw [Failed, go_behind hg hne]
        exact run_error (herr _ _ _).2

end Next

end OpenSips.Disp
