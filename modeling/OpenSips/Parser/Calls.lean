import OpenSips.Parser.Lazy

/-!
# OpenSips.Parser.Calls — several calls of `parse_headers` against one

A call that succeeds leaves a message from which the next one goes on; whatever the flags and
`next`, the headers listed are the first ones that a single call for all headers lists.
-/

namespace OpenSips.Parser

open Lib SipMsg List Option Function

variable {P : Parsers} {past : UInt8} {m m' me : SipMsg} {L Le : List ℕ} {s e : ℕ × ℕ}

/-- A message whose first line has been parsed, up to `pos`. -/
def start (buf : Str) (fl : MsgStart) (pos : ℕ) : SipMsg :=
  { SipMsg.init buf with first_line := fl, unparsed := some pos }

/-- A call of `parse_headers`: its flags, `next`, and whether it returned with all flags set. -/
structure Call where
  flags : BitVec 64
  next : Bool
  found : Bool

inductive Calls (P : Parsers) (past : UInt8) (m0 : SipMsg) : List Call → SipMsg → Prop where
  | nil : Calls P past m0 [] m0
  | call {cs : List Call} {m m' : SipMsg} {flags : BitVec 64} {next : Bool} {ret : ℤ}
      (run : Calls P past m0 cs m) (eq : parse_headers P past m flags next = some (m', ret))
      (ok : 0 ≤ ret) :
      Calls P past m0 (cs ++ [⟨flags, next, flags &&& m'.parsed_flag = flags⟩]) m'

/-- What the flags say after the calls `cs`: everything at the end of the headers; else only listed
types, and all of them if no call with `next` came back empty-handed. -/
def FlagsTell (P : Parsers) (past : UInt8) (cs : List Call) (m : SipMsg) (L : List ℕ)
    (pos : ℕ) : Prop :=
  (m.parsed_flag = BitVec.allOnes 64 ∧ AtEoh P past m.buf pos) ∨
    (∀ i ≠ 2, m.parsed_flag.getLsbD i = true → ∃ h ∈ L, flagOf (m.field h) i = true) ∧
    ((∀ c ∈ cs, c.next = false ∨ c.found = true) →
      ∀ h ∈ L, ∀ i ≠ 2, flagOf (m.field h) i = true → m.parsed_flag.getLsbD i = true)

/-- **A message between two calls.** -/
structure Resumable (P : Parsers) (past : UInt8) (s : ℕ × ℕ) (cs : List Call) (m : SipMsg)
    (L : List ℕ) (e : ℕ × ℕ) : Prop where
  parsing : Parsing P past s m L e
  unparsed : m.unparsed = some e.2
  fresh : m.fresh = e.1 ∨ Stuck P past m.buf e.2
  tell : FlagsTell P past cs m L e.2

theorem start_resumable (P : Parsers) (past : UInt8) (buf : Str) (fl : MsgStart) (pos : ℕ) :
    Resumable P past (1, pos) [] (start buf fl pos) [] (1, pos) where
  parsing :=
    { wf := ⟨⟨rfl, rfl⟩, fun h => ⟨fun hm => absurd hm not_mem_nil, fun hl => absurd rfl hl⟩,
        nodup_nil, fun h hm => absurd hm not_mem_nil,
        ⟨fun _ _ => rfl, fun _ _ => ⟨rfl, rfl⟩⟩⟩
      scanned := .nil _
      via1 := rfl
      via2 := rfl
      fresh_pos := Nat.one_pos
      objs := fun o => ⟨fun h => absurd h Bool.false_ne_true,
        fun ⟨h, hm, _⟩ => absurd hm not_mem_nil⟩ }
  unparsed := rfl
  fresh := .inl rfl
  tell := by
    refine .inr ⟨fun i _ hi => ?_, fun _ h hm => absurd hm not_mem_nil⟩
    have : (start buf fl pos).parsed_flag.getLsbD i = false := BitVec.getLsbD_zero
    rw [this] at hi
    exact absurd hi (by decide)

theorem parse_headers_eq {flags : BitVec 64} {next : Bool} {tmp : ℕ} (h : m.unparsed = some tmp) :
    parse_headers P past m flags next = (parse_headers_loop P past flags
        ((if next then { m with parsed_flag := m.parsed_flag &&& ~~~flags } else m).buf.length + 1)
        (if next then { m with parsed_flag := m.parsed_flag &&& ~~~flags } else m) tmp).bind
        fun r => some (if r.2 < 0 then { r.1 with
          parsed_flag := r.1.parsed_flag ||| if next then m.parsed_flag else 0 } else r.1, r.2) := by
  rw [parse_headers, h]
  rfl

/-- **A successful call** goes on where the last one stopped. -/
theorem Resumable.call {cs : List Call} {flags : BitVec 64} {next : Bool} {ret : ℤ}
    (hr : Resumable P past s cs m L e) (eq : parse_headers P past m flags next = some (m', ret))
    (ok : 0 ≤ ret) :
    ∃ L' e', Resumable P past s (cs ++ [⟨flags, next, flags &&& m'.parsed_flag = flags⟩]) m' L' e' ∧
      Untouched m m' := by
  obtain ⟨m1, hm1⟩ : ∃ m1, m1 =
      (if next then { m with parsed_flag := m.parsed_flag &&& ~~~flags } else m) := ⟨_, rfl⟩
  have hp1 : Parsing P past s m1 L e := by
    rw [hm1]
    cases next with
    | false => exact hr.parsing
    | true => exact hr.parsing.mono (Nat.le_refl _) _ m.unparsed
  have hbuf1 : m1.buf = m.buf := by
    rw [hm1]
    cases next <;> rfl
  have hfield1 : ∀ k, m1.field k = m.field k := by
    intro k
    rw [hm1]
    cases next <;> rfl
  have hsame1 : Untouched m m1 := by
    rw [hm1]
    cases next <;> exact ⟨rfl, rfl, rfl, rfl, rfl⟩
  have hfr1 : m1.fresh = e.1 ∨ Stuck P past m1.buf e.2 := by
    have : m1.fresh = m.fresh := by
      rw [hm1]
      cases next <;> rfl
    rw [this, hbuf1]
    exact hr.fresh
  have hpf1 : ∀ i, m1.parsed_flag.getLsbD i = true →
      m.parsed_flag.getLsbD i = true ∧ (next = true → flags.getLsbD i = false) := by
    intro i
    rw [hm1]
    cases next with
    | false => exact fun h => ⟨h, fun h => absurd h (by decide)⟩
    | true =>
      intro h
      rw [if_pos rfl, BitVec.getLsbD_and, BitVec.getLsbD_not] at h
      simp only [Bool.and_eq_true, Bool.not_eq_true', decide_eq_true_eq] at h
      exact ⟨h.1, fun _ => h.2.2⟩
  obtain ⟨m2, ret2, L', e', eloop, ho⟩ :=
    parse_headers_loop_spec flags hp1 hfr1 (by omega : _ < m1.buf.length + 1)
  rw [parse_headers_eq hr.unparsed, ← hm1, eloop, bind_some] at eq
  cases eq
  rw [if_neg (by omega)]
  obtain ⟨hun, hfr⟩ := ho.resume ok
  refine ⟨L', e', ⟨ho.parsing, hun, hfr, ?_⟩, ?_⟩
  · have hkeep : ∀ h ∈ L, ∀ i, flagOf (m2.field h) i = flagOf (m.field h) i := by
      intro h hm i
      rw [flagOf_congr (y := m.field h)]
      rw [ho.types h hm, hfield1]
    rcases hr.tell with ⟨hall, hat⟩ | ⟨hsound, hcomp⟩
    · -- the end of the headers was reached before
      rw [← hbuf1] at hat
      obtain ⟨hb, hu, hcase⟩ := loop_at_eoh hat eloop ok
      rw [hun] at hu
      have hpos : e'.2 = e.2 := some.inj hu
      rw [hpos]
      refine .inl ⟨?_, by rwa [hb]⟩
      rcases hcase with ⟨h1, h2⟩ | h
      · rw [h2]
        rw [hm1] at h1 ⊢
        cases next with
        | false => exact hall
        | true =>
          rw [if_pos rfl, hall, BitVec.allOnes_and] at h1 ⊢
          rw [BitVec.and_not_self] at h1
          rw [← h1]
          rfl
      · exact h
    · rcases ho.flags ok with h | h
      · exact .inl h
      · refine .inr ⟨fun i hi hb => ?_, fun hcs k hk i hi hkf => ?_⟩
        · rcases (h i hi).1 hb with h | ⟨k, hk, -, hkf⟩
          · obtain ⟨k, hk, hkf⟩ := hsound i hi (hpf1 i h).1
            exact ⟨k, ho.mono.subset hk, by rwa [hkeep k hk]⟩
          · exact ⟨k, hk, hkf⟩
        · rw [h i hi]
          by_cases hkL : k ∈ L
          · rw [hkeep k hkL] at hkf
            have hold := hcomp (fun c hc => hcs c (mem_append_left _ hc)) k hkL i hi hkf
            rcases hcs _ (mem_append_right _ (mem_singleton.2 rfl)) with hn | hfound
            · left
              rw [hm1]
              dsimp only at hn
              rw [hn]
              exact hold
            · -- the flags cleared by this call are set again
              dsimp only at hfound
              rw [decide_eq_true_iff] at hfound
              rw [← h i hi]
              by_cases hfi : flags.getLsbD i
              · rw [← hfound, BitVec.getLsbD_and, Bool.and_eq_true] at hfi
                exact hfi.2
              · rw [h i hi]
                left
                rw [hm1]
                cases next with
                | false => exact hold
                | true =>
                  rw [if_pos rfl, BitVec.getLsbD_and, BitVec.getLsbD_not, hold]
                  simp only [Bool.not_eq_true] at hfi
                  have hi64 : i < 64 := BitVec.lt_of_getLsbD hold
                  rw [hfi, decide_eq_true hi64]
                  rfl
          · exact .inr ⟨k, hk, hkL, hkf⟩
  · obtain ⟨s1, s2, s3, s4, s5⟩ := hsame1
    obtain ⟨t1, t2, t3, t4, t5⟩ := ho.same
    exact ⟨t1.trans s1, t2.trans s2, t3.trans s3, t4.trans s4, t5.trans s5⟩

theorem Calls.resumable {buf : Str} {fl : MsgStart} {pos : ℕ} {cs : List Call}
    (hc : Calls P past (start buf fl pos) cs m) :
    ∃ L e, Resumable P past (1, pos) cs m L e ∧ m.buf = buf := by
  induction hc with
  | nil => exact ⟨[], (1, pos), start_resumable P past buf fl pos, rfl⟩
  | call _ eq ok ih =>
    obtain ⟨L, e, hr, hb⟩ := ih
    obtain ⟨L', e', hr', hu⟩ := hr.call eq ok
    exact ⟨L', e', hr', hu.1.trans hb⟩

theorem Flagged.at_eoh {buf : Str} {fl : MsgStart} {pos tmp : ℕ}
    (hf : Flagged P past (start buf fl pos) L me Le tmp)
    (hall : me.parsed_flag = BitVec.allOnes 64) : AtEoh P past me.buf tmp := by
  rcases hf with h | h
  · exact h.2
  · have hbit : me.parsed_flag.getLsbD 63 = true := by
      rw [hall]
      rfl
    rcases (h 63 (by decide)).1 hbit with h0 | ⟨k, -, -, hk⟩
    · have hz : (start buf fl pos).parsed_flag.getLsbD 63 = false := BitVec.getLsbD_zero
      rw [hz] at h0
      exact absurd h0 Bool.false_ne_true
    · rw [flagOf, decide_eq_true_iff] at hk
      have hlt : ∀ t : HdrType, t.ctorIdx < 63 := fun t => by cases t <;> decide
      have := hlt (me.field k).type
      omega

/-- **The single call for all headers** lists headers until none can be appended. -/
theorem eager_spec (P : Parsers) (past : UInt8) (buf : Str) (fl : MsgStart) (pos : ℕ) :
    ∃ me ret Le e, parse_headers P past (start buf fl pos) (HDR_T2F .EOH) false = some (me, ret) ∧
      Parsing P past (1, pos) me Le e ∧ me.buf = buf ∧ next_hdr P past buf e.1 e.2 = none := by
  have hs := start_resumable P past buf fl pos
  obtain ⟨me, ret, Le, e, eloop, ho⟩ :=
    parse_headers_loop_spec (HDR_T2F .EOH) hs.parsing hs.fresh
      (by omega : _ < (start buf fl pos).buf.length + 1)
  have hbuf : me.buf = buf := ho.same.1
  have hdone : next_hdr P past buf e.1 e.2 = none := by
    rcases ho.done with h | ⟨hret, hall⟩
    · exact h
    · have hat : AtEoh P past me.buf e.2 := by
        refine (ho.flags hret).at_eoh ?_
        rwa [HDR_T2F, if_pos rfl, BitVec.allOnes_and] at hall
      rw [hbuf] at hat
      refine stuck_of_bad (f := 0) ?_ _
      rw [hat.2.2 0]
      rfl
  refine ⟨if ret < 0 then { me with parsed_flag := me.parsed_flag ||| 0 } else me, ret, Le, e, ?_,
    ?_, ?_, hdone⟩
  · have hcall : parse_headers P past (start buf fl pos) (HDR_T2F .EOH) false =
        (parse_headers_loop P past (HDR_T2F .EOH) (buf.length + 1) (start buf fl pos) pos).bind
          fun r => some (if r.2 < 0 then { r.1 with parsed_flag := r.1.parsed_flag ||| 0 }
            else r.1, r.2) := rfl
    have eloop' : parse_headers_loop P past (HDR_T2F .EOH) (buf.length + 1) (start buf fl pos) pos =
        some (me, ret) := eloop
    rw [hcall, eloop', bind_some]
  · by_cases hneg : ret < 0
    · rw [if_pos hneg]
      exact ho.parsing.mono (Nat.le_refl _) _ me.unparsed
    · rw [if_neg hneg]
      exact ho.parsing
  · by_cases hneg : ret < 0
    · rw [if_pos hneg]
      exact hbuf
    · rw [if_neg hneg]
      exact hbuf

/-- A message `m` with the headers `L` is the beginning of `me` with the headers `Le`: the same
header fields, hooks and Via bodies as far as they are in `L`. -/
structure Beginning (m : SipMsg) (L : List ℕ) (me : SipMsg) (Le : List ℕ) : Prop where
  list : L <+: Le
  fields : ∀ h ∈ L, (m.field h).core = (me.field h).core
  hooks : ∀ t : HdrType, t.hookKind = .single ∨ t.hookKind = .siblings →
    m.hook t = if me.hook t ∈ L then me.hook t else 0
  vias : vias m L <+: vias me Le
  via1 : m.via1 = (Parser.vias m L).headD 0 ∧ me.via1 = (Parser.vias me Le).headD 0
  via2 : m.via2 = ((Parser.vias m L).drop 1).headD 0 ∧ me.via2 = ((Parser.vias me Le).drop 1).headD 0

theorem WellFormed.hook_eq (hw : WellFormed m L) {t : HdrType}
    (ht : t.hookKind = .single ∨ t.hookKind = .siblings) : m.hook t = (m.ofType t L).headD 0 := by
  rcases ht with ht | ht
  · exact hw.hooked.single t ht
  · exact (hw.hooked.siblings t ht).hook_eq

theorem Parsing.beginning {e' : ℕ × ℕ} (h1 : Parsing P past s m L e)
    (h2 : Parsing P past s me Le e') (hb : me.buf = m.buf)
    (hend : next_hdr P past m.buf e'.1 e'.2 = none) : Beginning m L me Le := by
  have hsc := h2.scanned
  rw [hb] at hsc
  have hpre := h1.scanned.initial hsc hend
  have hlist : L <+: Le := by
    have := hpre.map Prod.fst
    simpa [comp_def] using this
  obtain ⟨M, rfl⟩ := hlist
  have hfields : ∀ h ∈ L, (m.field h).core = (me.field h).core := by
    intro h hm
    obtain ⟨k, hk, e⟩ := List.mem_map.1 (hpre.subset (List.mem_map.2 ⟨h, hm, rfl⟩))
    have e1 : k = h := congrArg Prod.fst e
    subst e1
    exact (congrArg Prod.snd e).symm
  have htype : ∀ t, me.ofType t L = m.ofType t L := fun t => ofType_congr fun k hk => by
    have := congrArg HdrField.type (hfields k hk)
    exact this.symm
  have hcut : ∀ t, me.ofType t (L ++ M) = m.ofType t L ++ me.ofType t M := fun t => by
    rw [ofType, filter_append]
    exact congrArg (· ++ me.ofType t M) (htype t)
  refine ⟨prefix_append L M, hfields, fun t ht => ?_, ?_, ⟨h1.via1, h2.via1⟩, ⟨h1.via2, h2.via2⟩⟩
  · have hd := h2.wf.nodup
    rw [h1.wf.hook_eq ht, h2.wf.hook_eq ht, hcut]
    cases hS : m.ofType t L with
    | nil =>
      rw [nil_append, headD_nil, if_neg]
      intro hm
      cases hM : me.ofType t M with
      | nil =>
        rw [hM] at hm
        exact (h1.wf.ids _ hm).1 rfl
      | cons k ks =>
        rw [hM] at hm
        have hk : k ∈ me.ofType t M := by
          rw [hM]
          exact mem_cons_self ..
        exact (nodup_append.1 hd).2.2 k hm k (mem_ofType.1 hk).1 rfl
    | cons k ks =>
      have hk : k ∈ m.ofType t L := by
        rw [hS]
        exact mem_cons_self ..
      exact (if_pos (mem_ofType.1 hk).1).symm
  · refine ⟨vias me M, ?_⟩
    have : vias me (L ++ M) = vias me L ++ vias me M := by
      rw [vias, ofType, filter_append, flatMap_append]
      rfl
    rw [this, vias_congr fun k hk => (hfields k hk).symm]

theorem ctorIdx_inj {t u : HdrType} (h : t.ctorIdx = u.ctorIdx) : t = u := by
  rw [← HdrType.ofNat_ctorIdx t, h, HdrType.ofNat_ctorIdx]

/-- **Lazy parsing agrees with eager parsing.** -/
theorem lazy_parsing {buf : Str} {fl : MsgStart} {pos : ℕ} {cs : List Call}
    (hc : Calls P past (start buf fl pos) cs m) :
    ∃ L me ret Le f stop, parse_headers P past (start buf fl pos) (HDR_T2F .EOH) false = some (me, ret) ∧
      WellFormed m L ∧ WellFormed me Le ∧ Beginning m L me Le ∧
      Scanned P past buf (1, pos) (L.map fun h => (h, (m.field h).core)) (f, stop) ∧
      m.unparsed = some stop ∧
      ((m.parsed_flag = BitVec.allOnes 64 ∧ AtEoh P past buf stop) ∨
        (∀ t : HdrType, t ≠ .VIA2 → m.parsed_flag.getLsbD t.ctorIdx = true →
          ∃ h ∈ L, (m.field h).type = t) ∧
        ((∀ c ∈ cs, c.next = false ∨ c.found = true) → ∀ h ∈ L, (m.field h).type.hookKind ≠ .none →
            m.parsed_flag.getLsbD (m.field h).type.ctorIdx = true)) := by
  obtain ⟨L, e, hr, hbuf⟩ := hc.resumable
  obtain ⟨me, ret, Le, e', heq, hp, hbuf', hend⟩ := eager_spec P past buf fl pos
  refine ⟨L, me, ret, Le, e.1, e.2, heq, hr.parsing.wf, hp.wf,
    hr.parsing.beginning hp (hbuf'.trans hbuf.symm) (by rwa [hbuf]), ?_, hr.unparsed, ?_⟩
  · rw [← hbuf]
    exact hr.parsing.scanned
  · rcases hr.tell with h | ⟨h1, h2⟩
    · left
      rwa [hbuf] at h
    · refine .inr ⟨fun t ht hbit => ?_, fun hcs h hm hk => ?_⟩
      · have hne : t.ctorIdx ≠ 2 := fun e => ht (ctorIdx_inj e)
        obtain ⟨h, hm, hfl⟩ := h1 _ hne hbit
        rw [flagOf, decide_eq_true_iff] at hfl
        exact ⟨h, hm, ctorIdx_inj hfl.2.symm⟩
      · have hne : (m.field h).type.ctorIdx ≠ 2 := fun e =>
          (hr.parsing.scanned_mem hm).1 (congrArg HdrType.hookKind (ctorIdx_inj (u := .VIA2) e))
        refine h2 hcs h hm _ hne ?_
        rw [flagOf, decide_eq_true_iff]
        exact ⟨hk, rfl⟩

/-- The message `A\r\nTo:b\r\n\r\n`, of which only To is asked for. -/
theorem lazy_parsing_to : ∃ m L me ret Le,
      parse_headers plain 0 (start [65, 13, 10, 84, 111, 58, 98, 13, 10, 13, 10] ⟨false, 3, 0, 0⟩ 3)
        (HDR_T2F .TO) false = some (m, 0) ∧
      parse_headers plain 0 (start [65, 13, 10, 84, 111, 58, 98, 13, 10, 13, 10] ⟨false, 3, 0, 0⟩ 3)
        (HDR_T2F .EOH) false = some (me, ret) ∧ Beginning m L me Le := by
  obtain ⟨m, hm⟩ : ∃ m, parse_headers plain 0
      (start [65, 13, 10, 84, 111, 58, 98, 13, 10, 13, 10] ⟨false, 3, 0, 0⟩ 3)
      (HDR_T2F .TO) false = some (m, 0) := ⟨_, rfl⟩
  obtain ⟨L, me, ret, Le, -, -, he, -, -, hb, -⟩ := lazy_parsing (Calls.call .nil hm (Int.le_refl 0))
  exact ⟨m, L, me, ret, Le, hm, he, hb⟩

/-- In the message `A\r\n\r\n` without headers the end of the headers sets the flag of every type. -/
theorem flags_at_end :
    ¬ ∀ (P : Parsers) (past : UInt8) (buf : Str) (fl : MsgStart) (pos : ℕ) (cs : List Call)
      (m : SipMsg) (L : List ℕ), Calls P past (start buf fl pos) cs m → WellFormed m L →
      ∀ t : HdrType, m.parsed_flag.getLsbD t.ctorIdx = true ↔ ∃ h ∈ L, (m.field h).type = t := by
  intro h
  obtain ⟨m, hm, hto, hlive⟩ : ∃ m, parse_headers plain 0
      (start [65, 13, 10, 13, 10] ⟨false, 3, 0, 0⟩ 3) (HDR_T2F .EOH) false = some (m, 0) ∧
      m.parsed_flag.getLsbD HdrType.TO.ctorIdx = true ∧ ∀ k, m.hdr k = none := by
    refine ⟨_, rfl, by decide, fun k => ?_⟩
    show Function.update (Function.update (fun _ => none) 1 _) 1 none k = none
    rw [update_idem, update_apply, ite_self]
  have hc : Calls plain 0 (start [65, 13, 10, 13, 10] ⟨false, 3, 0, 0⟩ 3) _ m :=
    Calls.call .nil hm (Int.le_refl 0)
  obtain ⟨L, e, hr, -⟩ := hc.resumable
  obtain ⟨k, hk, -⟩ := (h plain 0 _ _ 3 _ m L hc hr.parsing.wf .TO).1 hto
  exact (hr.parsing.wf.live k).1 hk (hlive k)

end OpenSips.Parser
