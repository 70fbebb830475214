import OpenSips.Parser.Iterate

/-!
# OpenSips.Parser.Atomic — calls of `parse_headers` that fail

A call that fails leaves `unparsed` where it was, whatever it has appended; the next call parses the
same lines again.
-/

namespace OpenSips.Parser

open Lib SipMsg List Option
open Contacts (Advance next_hdr_text)

/-- A header field without its links and without addresses. -/
def HdrField.text (x : HdrField) : HdrField := { x.core with parsed := [] }

section Lines

variable {P : Parsers} {past : UInt8} {buf : Str} {pos e e' : ℕ} {xs ys : List HdrField}

/-- The header at `pos`, and where the next one starts. -/
def line_at (P : Parsers) (past : UInt8) (buf : Str) (pos : ℕ) : Option (HdrField × ℕ) :=
  (next_hdr { P with avail := fun _ => true } past buf 0 pos).map fun r => (r.1.text, r.2.1)

/-- The headers from one position to another, one behind the other. -/
inductive Lines (P : Parsers) (past : UInt8) (buf : Str) : ℕ → List HdrField → ℕ → Prop where
  | nil (pos : ℕ) : Lines P past buf pos [] pos
  | cons {pos rest e : ℕ} {x : HdrField} {xs : List HdrField} (eq : line_at P past buf pos = some (x, rest))
      (tail : Lines P past buf rest xs e) : Lines P past buf pos (x :: xs) e

theorem line_at_of {f rest n : ℕ} {x : HdrField} (eq : next_hdr P past buf f pos = some (x, rest, n)) :
    line_at P past buf pos = some (x.text, rest) := by
  rw [line_at, next_hdr_text eq]
  rfl

theorem line_at_lt {rest : ℕ} {x : HdrField} (eq : line_at P past buf pos = some (x, rest)) : pos < rest := by
  obtain ⟨⟨y, k, n⟩, hn, hr⟩ := map_eq_some_iff.1 eq
  obtain ⟨-, rfl⟩ := Prod.mk.inj hr
  exact (next_hdr_spec hn).1

theorem Lines.append (h : Lines P past buf pos xs e) (h' : Lines P past buf e ys e') :
    Lines P past buf pos (xs ++ ys) e' := by
  induction h with
  | nil pos => exact h'
  | cons eq _ ih => exact .cons eq (ih h')

theorem Lines.le (h : Lines P past buf pos xs e) : pos + xs.length ≤ e := by
  induction h with
  | nil pos => exact Nat.le_refl _
  | cons eq _ ih =>
    have := line_at_lt eq
    rw [length_cons]
    omega

theorem Lines.unique (h : Lines P past buf pos xs e) (h' : Lines P past buf pos xs e') : e = e' := by
  induction h with
  | nil pos =>
    cases h'
    rfl
  | cons eq _ ih =>
    cases h' with
    | cons eq' tail' =>
      rw [eq] at eq'
      obtain ⟨-, rfl⟩ := Prod.mk.inj (some.inj eq')
      exact ih tail'

theorem line_at_name {rest : ℕ} {x : HdrField} (eq : line_at P past buf pos = some (x, rest)) :
    x.name.s = .msg pos := by
  obtain ⟨⟨y, k, n⟩, hn, hr⟩ := map_eq_some_iff.1 eq
  obtain ⟨rfl, -⟩ := Prod.mk.inj hr
  obtain ⟨t, name_len, skipped, k', -, -, -, rfl⟩ := next_hdr_some hn
  rfl

/-- **No line is there twice.** -/
theorem Lines.once (h : Lines P past buf pos xs e) : (xs.map fun x => x.name.s).Nodup ∧
    ∀ x ∈ xs, ∃ p, pos ≤ p ∧ p < e ∧ x.name.s = .msg p := by
  induction h with
  | nil pos => exact ⟨nodup_nil, fun x hx => absurd hx not_mem_nil⟩
  | @cons pos rest e x xs eq tail ih =>
    have hlt := line_at_lt eq
    have hle := tail.le
    refine ⟨nodup_cons.2 ⟨fun hm => ?_, ih.1⟩, fun y hy => ?_⟩
    · obtain ⟨y, hy, hname⟩ := List.mem_map.1 hm
      obtain ⟨p, hp, -, hyp⟩ := ih.2 y hy
      have hsame : x.name.s = .msg p := (hname.symm.trans hyp : _)
      rw [line_at_name eq] at hsame
      cases hsame
      omega
    · rcases mem_cons.1 hy with rfl | hy
      · exact ⟨pos, Nat.le_refl _, by omega, line_at_name eq⟩
      · obtain ⟨p, hp, hp', hyp⟩ := ih.2 y hy
        exact ⟨p, by omega, hp', hyp⟩

end Lines

section Unique

variable {nxt prv : ℕ → ℕ} {m : SipMsg} {L L' : List ℕ}

theorem chain_unique {a : ℕ} (h : Chain nxt prv a L 0) (h' : Chain nxt prv a L' 0) (h0 : 0 ∉ L)
    (h0' : 0 ∉ L') : L = L' := by
  induction L generalizing a L' with
  | nil =>
    cases L' with
    | nil => rfl
    | cons y ys => exact absurd (h.1.symm.trans h'.1 ▸ mem_cons_self) h0'
  | cons x xs ih =>
    cases L' with
    | nil => exact absurd (h'.1.symm.trans h.1 ▸ mem_cons_self) h0
    | cons y ys =>
      obtain rfl : x = y := h.1.symm.trans h'.1
      rw [ih h.2.2 h'.2.2 (fun hm => h0 (mem_cons_of_mem _ hm)) (fun hm => h0' (mem_cons_of_mem _ hm))]

theorem WellFormed.unique (h : WellFormed m L) (h' : WellFormed m L') : L = L' :=
  chain_unique h.list h'.list (fun hm => (h.ids 0 hm).1 rfl) (fun hm => (h'.ids 0 hm).1 rfl)

end Unique

section Calls

variable {P : Parsers} {past : UInt8} {m m1 m' : SipMsg} {L N : List ℕ} {pos e tmp : ℕ} {ret : ℤ}

def texts (m : SipMsg) (L : List ℕ) : List HdrField := L.map fun h => (m.field h).text

/-- **What a call leaves** that starts at `tmp` with the headers `L`: it has appended the lines up to `e`
as the headers `N`, and `unparsed` is behind them if it has not failed. -/
structure Passed (P : Parsers) (past : UInt8) (m : SipMsg) (L : List ℕ) (tmp : ℕ) (m' : SipMsg) (ret : ℤ)
    (N : List ℕ) (e : ℕ) : Prop where
  advance : Advance m L m' N
  lines : Lines P past m.buf tmp (texts m' N) e
  answer : ret = -1 ∨ 0 ≤ ret
  failed : ret = -1 → m'.unparsed = m.unparsed ∧ (N = [] ↔ next_hdr P past m.buf m.fresh tmp = none)
  stored : 0 ≤ ret → m'.unparsed = some e

/-- It has come to the end of the headers at `e`, or the last flag is as it was. -/
def Told (P : Parsers) (past : UInt8) (m m' : SipMsg) (ret : ℤ) (e : ℕ) : Prop :=
  ret = 0 ∧ m'.parsed_flag = BitVec.allOnes 64 ∧ AtEoh P past m.buf e ∨
    m'.parsed_flag.getLsbD 63 = m.parsed_flag.getLsbD 63

theorem texts_advance (h : Advance m L m' N) : texts m' L = texts m L :=
  map_congr_left fun k hk => by
    rw [HdrField.text, HdrField.text, h.core k hk]

theorem flagOf_last (x : HdrField) : flagOf x 63 = false := by
  have hlt : ∀ t : HdrType, t.ctorIdx < 63 := fun t => by cases t <;> decide
  rw [flagOf, decide_eq_false_iff_not]
  exact fun h => absurd h.2.symm (Nat.ne_of_lt (hlt _))

theorem Passed.stop (hl : Listed m L) {f : ℕ} (hf : m.fresh ≤ f) (g : BitVec 64) (u : Option ℕ)
    (hret : ret = -1 ∧ u = m.unparsed ∧ next_hdr P past m.buf m.fresh tmp = none ∨ 0 ≤ ret ∧ u = some tmp) :
    Passed P past m L tmp { m with fresh := f, parsed_flag := g, unparsed := u } ret [] tmp where
  advance := .refl hl hf g u
  lines := .nil _
  answer := hret.imp And.left And.left
  failed h := by
    rcases hret with ⟨-, hu, hn⟩ | ⟨hge, -⟩
    · exact ⟨hu, iff_of_true rfl hn⟩
    · omega
  stored h := by
    rcases hret with ⟨hneg, -, -⟩ | ⟨-, hu⟩
    · omega
    · exact hu

/-- **The loop of `parse_headers`** appends lines. -/
theorem loop_passed (flags : BitVec 64) {fuel : ℕ} (hl : Listed m L) (hfuel : m.buf.length - tmp < fuel) :
    ∃ m' ret N e, parse_headers_loop P past flags fuel m tmp = some (m', ret) ∧
      Passed P past m L tmp m' ret N e ∧ Told P past m m' ret e := by
  induction fuel generalizing m L tmp with
  | zero => omega
  | succ fuel ih =>
    by_cases hgo : tmp < m.buf.length ∧ flags &&& m.parsed_flag ≠ flags
    · rcases loop_turn P past flags fuel hl hgo with
        ⟨x, rest, n, m1, hnext, eloop, hl', hfr, hsm, hun, hcore, hx, hfl⟩ | ⟨hat, hst, eloop⟩ |
        ⟨hst, eloop⟩ | ⟨hnone, eloop⟩ | ⟨hh, eloop⟩
      · -- one more header
        have ha : Advance m L m1 [m.fresh] := ⟨hl', hsm, hcore⟩
        have hbuf : m1.buf = m.buf := hsm.1
        have hlt := (next_hdr_spec hnext).1
        have hfuel' : m1.buf.length - rest < fuel := by
          rw [hbuf]
          omega
        obtain ⟨m2, ret, N, e, hloop, hp, htold⟩ := ih hl' hfuel'
        refine ⟨m2, ret, m.fresh :: N, e, eloop.trans hloop, ?_⟩
        have htext : (m2.field m.fresh).text = x.text := by
          rw [HdrField.text, HdrField.text, hp.advance.core m.fresh (by simp), hx, (next_hdr_spec hnext).2.2.2.2]
        refine ⟨⟨ha.trans hp.advance, ?_, hp.answer, fun h => ⟨(hp.failed h).1.trans hun, ?_⟩, hp.stored⟩, ?_⟩
        · rw [texts, map_cons, htext]
          have hlines := hp.lines
          rw [hbuf] at hlines
          exact .cons (line_at_of hnext) hlines
        · rw [hnext]
          exact iff_of_false (cons_ne_nil _ _) (some_ne_none _)
        · rw [Told, hbuf] at htold
          refine htold.imp id fun h => ?_
          rw [h, hfl 63 (by decide), flagOf_last, Bool.or_false]
      · exact ⟨_, _, _, _, eloop, .stop hl (Nat.le_succ _) _ _ (.inr ⟨Int.le_refl 0, rfl⟩),
          .inl ⟨rfl, rfl, hat⟩⟩
      · exact ⟨_, _, _, _, eloop, .stop hl (Nat.le_succ _) _ _ (.inl ⟨rfl, rfl, hst _⟩), .inr rfl⟩
      · exact ⟨_, _, _, _, eloop, .stop hl (Nat.le_refl _) _ _ (.inl ⟨rfl, rfl, hnone⟩), .inr rfl⟩
      · exact ⟨_, _, _, _, eloop, .stop hl (Nat.le_refl _) _ _ (.inr ⟨by decide, rfl⟩), .inr rfl⟩
    · rw [parse_headers_loop, if_pos hgo]
      exact ⟨_, _, _, _, rfl, .stop hl (Nat.le_refl _) _ _ (.inr ⟨Int.le_refl 0, rfl⟩), .inr rfl⟩

theorem advance_flags {g g' : BitVec 64} (h : Advance { m with parsed_flag := g } L m1 N) :
    Advance m L { m1 with parsed_flag := g' } N :=
  ⟨h.listed.mono (Nat.le_refl _) g' m1.unparsed, h.same, h.core⟩

variable (P past) in
/-- **A call of `parse_headers`.** -/
theorem call_passed (flags : BitVec 64) (next : Bool) (hl : Listed m L) (hu : m.unparsed = some tmp) :
    ∃ m' ret N e, parse_headers P past m flags next = some (m', ret) ∧
      Passed P past m L tmp m' ret N e ∧ (next = false → Told P past m m' ret e) := by
  obtain ⟨g, hg⟩ : ∃ g, g = if next then m.parsed_flag &&& ~~~flags else m.parsed_flag := ⟨_, rfl⟩
  have hm1 : (if next then { m with parsed_flag := m.parsed_flag &&& ~~~flags } else m) =
      { m with parsed_flag := g } := by
    rw [hg]
    cases next <;> rfl
  have hl1 : Listed { m with parsed_flag := g } L := hl.mono (Nat.le_refl _) g m.unparsed
  obtain ⟨m2, ret, N, e, hloop, hp, htold⟩ := loop_passed flags hl1
    (show m.buf.length - tmp < m.buf.length + 1 by omega)
  rw [parse_headers_eq hu, hm1]
  have hloop' : parse_headers_loop P past flags (({ m with parsed_flag := g } : SipMsg).buf.length + 1)
      { m with parsed_flag := g } tmp = some (m2, ret) := hloop
  rw [hloop', bind_some]
  obtain ⟨g', hg'⟩ : ∃ g', g' = if ret < 0 then m2.parsed_flag ||| (if next then m.parsed_flag else 0)
      else m2.parsed_flag := ⟨_, rfl⟩
  have hm2 : (if ret < 0 then { m2 with parsed_flag := m2.parsed_flag |||
      if next then m.parsed_flag else 0 } else m2) = { m2 with parsed_flag := g' } := by
    rw [hg']
    split_ifs <;> rfl
  refine ⟨_, ret, N, e, congrArg (fun x => some (x, ret)) hm2,
    ⟨advance_flags hp.advance, hp.lines, hp.answer, hp.failed, hp.stored⟩, fun hn => ?_⟩
  obtain rfl := hn
  have h1 : g = m.parsed_flag := hg
  have h2 : g' = m2.parsed_flag := by
    rw [hg', if_neg Bool.false_ne_true, show (0 : BitVec 64) = 0#64 from rfl, BitVec.or_zero, ite_self]
  rw [h2]
  rw [h1] at htold
  exact htold

end Calls

section Atomic

variable {P : Parsers} {past : UInt8} {m m' : SipMsg} {L : List ℕ} {pos : ℕ}

/-- **The headers listed are the lines from `pos` to `unparsed`**, each once and in order. -/
structure Atomic (P : Parsers) (past : UInt8) (pos : ℕ) (m : SipMsg) (L : List ℕ) : Prop where
  listed : Listed m L
  lines : ∃ e, m.unparsed = some e ∧ Lines P past m.buf pos (texts m L) e

/-- No header that can be appended stands at `unparsed`. -/
def NoHeader (P : Parsers) (past : UInt8) (m : SipMsg) : Prop :=
  ∀ tmp, m.unparsed = some tmp → next_hdr P past m.buf m.fresh tmp = none

/-- The arguments of a call. -/
structure Request where
  flags : BitVec 64
  next : Bool

def exec (P : Parsers) (past : UInt8) (m : SipMsg) (op : Request) : Option (SipMsg × ℤ) :=
  parse_headers P past m op.flags op.next

def FailsFirst (P : Parsers) (past : UInt8) (m : SipMsg) (op : Request) : Prop :=
  (exec P past m op).map Prod.snd = some (-1) → NoHeader P past m

abbrev Reached (P : Parsers) (past : UInt8) (ok : SipMsg → Request → Prop) (m0 m : SipMsg) : Prop :=
  Run (exec P past) (fun m _ op => ok m op) (fun _ _ _ _ => ()) (m0, ()) m ()

theorem start_listed (buf : Str) (fl : MsgStart) (pos : ℕ) : Listed (start buf fl pos) [] :=
  (start_resumable plain 0 buf fl pos).parsing.listed

theorem start_atomic (P : Parsers) (past : UInt8) (buf : Str) (fl : MsgStart) (pos : ℕ) :
    Atomic P past pos (start buf fl pos) [] :=
  ⟨start_listed buf fl pos, pos, rfl, .nil pos⟩

theorem Atomic.call {op : Request} {ret : ℤ} (h : Atomic P past pos m L) (hf : FailsFirst P past m op)
    (eq : exec P past m op = some (m', ret)) : ∃ L', Atomic P past pos m' L' := by
  obtain ⟨tmp, hu, hlines⟩ := h.lines
  obtain ⟨m1, r, N, e, heq, hp, -⟩ := call_passed P past op.flags op.next h.listed hu
  obtain ⟨rfl, rfl⟩ := Prod.mk.inj (some.inj (heq.symm.trans eq))
  refine ⟨L ++ N, hp.advance.listed, ?_⟩
  have happ : texts m1 (L ++ N) = texts m L ++ texts m1 N := by
    rw [texts, map_append]
    exact congrArg (· ++ texts m1 N) (texts_advance hp.advance)
  rw [happ, hp.advance.same.1]
  rcases hp.answer with rfl | hret
  · obtain ⟨hun, hnil⟩ := hp.failed rfl
    have hno : FailsFirst P past m op := hf
    rw [FailsFirst, eq] at hno
    rw [hnil.2 (hno rfl tmp hu)]
    exact ⟨tmp, hun.trans hu, (append_nil (texts m L)).symm ▸ hlines⟩
  · exact ⟨e, hp.stored hret, hlines.append hp.lines⟩

/-- **A call that fails keeps it only if it fails at its first header.** -/
theorem Atomic.fails {op : Request} (h : Atomic P past pos m L) (eq : exec P past m op = some (m', -1)) :
    (∃ L', Atomic P past pos m' L') ↔ NoHeader P past m := by
  refine ⟨fun ⟨L', h'⟩ tmp hu => ?_, fun hn => h.call (fun _ => hn) eq⟩
  obtain ⟨t, ht, hlines⟩ := h.lines
  obtain rfl : tmp = t := some.inj (hu.symm.trans ht)
  obtain ⟨m1, r, N, e, heq, hp, -⟩ := call_passed P past op.flags op.next h.listed hu
  obtain ⟨rfl, rfl⟩ := Prod.mk.inj (some.inj (heq.symm.trans eq))
  obtain ⟨hun, hnil⟩ := hp.failed rfl
  refine hnil.1 ?_
  -- the lines listed would end at `unparsed`
  obtain rfl := h'.listed.wf.unique hp.advance.listed.wf
  obtain ⟨e', he', hlines'⟩ := h'.lines
  rw [hun, hu] at he'
  cases he'
  have happ : texts m1 (L ++ N) = texts m L ++ texts m1 N := by
    rw [texts, map_append]
    exact congrArg (· ++ texts m1 N) (texts_advance hp.advance)
  rw [happ, hp.advance.same.1] at hlines'
  have hend := hlines'.unique (hlines.append hp.lines)
  have hle := hp.lines.le
  rw [texts, length_map] at hle
  exact length_eq_zero_iff.1 (by omega)

theorem reached_listed {ok : SipMsg → Request → Prop} {m0 : SipMsg} {L0 : List ℕ} {tmp : ℕ}
    (h0 : Listed m0 L0) (hu0 : m0.unparsed = some tmp) (h : Reached P past ok m0 m) :
    (∃ L, Listed m L) ∧ ∀ op, ∃ m' ret, exec P past m op = some (m', ret) := by
  have hI : (∃ L, Listed m L) ∧ ∃ tmp, m.unparsed = some tmp := by
    refine h.invariant (I := fun m _ => (∃ L, Listed m L) ∧ ∃ tmp, m.unparsed = some tmp)
      ⟨⟨L0, h0⟩, tmp, hu0⟩ fun s _ op s' r hI _ eq => ?_
    obtain ⟨⟨L, hl⟩, tmp, hu⟩ := hI
    obtain ⟨m1, ret, N, e, heq, hp, -⟩ := call_passed P past op.flags op.next hl hu
    obtain ⟨rfl, rfl⟩ := Prod.mk.inj (some.inj (heq.symm.trans eq))
    refine ⟨⟨_, hp.advance.listed⟩, ?_⟩
    rcases hp.answer with rfl | hret
    · exact ⟨tmp, (hp.failed rfl).1.trans hu⟩
    · exact ⟨e, hp.stored hret⟩
  obtain ⟨⟨L, hl⟩, tmp, hu⟩ := hI
  refine ⟨⟨L, hl⟩, fun op => ?_⟩
  obtain ⟨m1, ret, -, -, heq, -⟩ := call_passed P past op.flags op.next hl hu
  exact ⟨m1, ret, heq⟩

/-- **Headers are listed once** in every run of calls in which none fails behind a header that it has
appended; one that does so breaks it; and hooks and siblings are in order in every run. -/
theorem parse_headers_atomic (P : Parsers) (past : UInt8) (buf : Str) (fl : MsgStart) (pos : ℕ) :
    (∀ m, Reached P past (FailsFirst P past) (start buf fl pos) m → ∃ L, Atomic P past pos m L) ∧
    (∀ m L op m', Atomic P past pos m L → exec P past m op = some (m', -1) →
      ((∃ L', Atomic P past pos m' L') ↔ NoHeader P past m)) ∧
    ∀ m, Reached P past (fun _ _ => True) (start buf fl pos) m →
      (∃ L, Listed m L) ∧ ∀ op, ∃ m' ret, exec P past m op = some (m', ret) := by
  refine ⟨fun m h => ?_, fun m L op m' h eq => h.fails eq, fun m h =>
    reached_listed (start_listed buf fl pos) rfl h⟩
  refine h.invariant (I := fun m _ => ∃ L, Atomic P past pos m L) ⟨[], start_atomic P past buf fl pos⟩
    fun s _ op s' r hI hf eq => ?_
  obtain ⟨L, hL⟩ := hI
  exact hL.call hf eq

/-- `To:a`, and a line without a colon. -/
def bad_line : Str := [84, 111, 58, 97, 13, 10, 98, 13, 10, 99]

/-- `To:a`, and the empty line. -/
def good_line : Str := [84, 111, 58, 97, 13, 10, 13, 10]

theorem parse_headers_atomic_to : ∃ m, exec plain 0 (start good_line ⟨true, 0, 0, 0⟩ 0) ⟨HDR_T2F .EOH, false⟩ =
    some (m, 0) ∧ (∃ L, Atomic plain 0 0 m L) ∧ ∃ L, Listed m L := by
  obtain ⟨hruns, -, hall⟩ := parse_headers_atomic plain 0 good_line ⟨true, 0, 0, 0⟩ 0
  have hret : (exec plain 0 (start good_line ⟨true, 0, 0, 0⟩ 0) ⟨HDR_T2F .EOH, false⟩).map Prod.snd = some 0 := by
    rfl
  obtain ⟨⟨m, r⟩, heq, rfl⟩ := map_eq_some_iff.1 hret
  refine ⟨m, heq, hruns m (.step .init (fun h => ?_) heq), (hall m (.step .init trivial heq)).1⟩
  rw [hret] at h
  exact absurd h (by decide)

/-- **The header in front of a bad one is listed twice** by two calls that fail. -/
theorem parse_headers_twice : ∃ m m', exec plain 0 (start bad_line ⟨true, 0, 0, 0⟩ 0) ⟨HDR_T2F .EOH, false⟩ =
      some (m, -1) ∧ exec plain 0 m ⟨HDR_T2F .EOH, false⟩ = some (m', -1) ∧
    (m'.field m'.headers).name.s = .msg 0 ∧ (m'.field m'.headers).next ≠ 0 ∧
    (m'.field (m'.field m'.headers).next).name.s = .msg 0 ∧ m'.unparsed = some 0 ∧
    ¬ ∃ L, Atomic plain 0 0 m L := by
  have hboth : ((exec plain 0 (start bad_line ⟨true, 0, 0, 0⟩ 0) ⟨HDR_T2F .EOH, false⟩).bind fun r =>
      (exec plain 0 r.1 ⟨HDR_T2F .EOH, false⟩).map fun r' =>
        (r.2, r'.2, (r'.1.field r'.1.headers).name.s, (r'.1.field r'.1.headers).next,
          (r'.1.field (r'.1.field r'.1.headers).next).name.s, r'.1.unparsed)) =
      some (-1, -1, .msg 0, 4, .msg 0, some 0) := by
    rfl
  obtain ⟨⟨m, r⟩, heq, hmap⟩ := bind_eq_some_iff.1 hboth
  obtain ⟨⟨m', r'⟩, heq', hall⟩ := map_eq_some_iff.1 hmap
  simp only [Prod.mk.injEq] at hall
  obtain ⟨rfl, rfl, h1, h2, h3, h4⟩ := hall
  refine ⟨m, m', heq, heq', h1, by rw [h2]; decide, by rw [← h3], h4, ?_⟩
  rw [(start_atomic plain 0 bad_line ⟨true, 0, 0, 0⟩ 0).fails heq]
  intro hno
  have hsome : (next_hdr plain 0 bad_line 1 0).isSome = true := by
    rfl
  have hnone : next_hdr plain 0 bad_line 1 0 = none := hno 0 rfl
  rw [hnone] at hsome
  exact absurd hsome (by decide)

end Atomic

end OpenSips.Parser
