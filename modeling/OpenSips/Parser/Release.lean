import OpenSips.Parser.Atomic

/-!
# OpenSips.Parser.Release — the end of a message (`free_sip_msg`)

Whatever calls of `parse_headers` a message has seen, also those that failed, each header and each object of
a parsed form is released once.
-/

namespace OpenSips.Parser

open Lib SipMsg List Function Option

variable {P : Parsers} {past : UInt8} {m m' : SipMsg} {L : List ℕ} {os : List ℕ}

theorem freeObjs_spec (hnd : os.Nodup) (hl : ∀ o ∈ os, m.obj o = true) :
    ∃ obj, m.freeObjs os = some { m with obj := obj } ∧ ∀ o, obj o = (m.obj o && decide (o ∉ os)) := by
  induction os generalizing m with
  | nil => exact ⟨m.obj, rfl, fun o => by simp⟩
  | cons a os ih =>
    obtain ⟨ha, hnd⟩ := nodup_cons.1 hnd
    have hne : ∀ o ∈ os, o ≠ a := fun o ho e => ha (e ▸ ho)
    obtain ⟨obj, e, hobj⟩ := @ih { m with obj := update m.obj a false } hnd fun o ho => by
      rw [← hl o (mem_cons_of_mem _ ho)]
      exact update_of_ne (hne o ho) _ _
    refine ⟨obj, ?_, fun o => ?_⟩
    · rw [freeObjs, if_pos (hl a mem_cons_self), e]
    · rw [hobj]
      show (update m.obj a false o && _) = _
      rw [update_apply]
      by_cases ho : o = a <;> simp [ho]

/-- What a header that was only parsed has of its own: the objects of its parsed form, which its type
releases. -/
def Plain (x : HdrField) : Prop :=
  x.flags = HdrField.zero.flags ∧ (x.type.frees_parsed = false → x.parsed = [])

theorem next_hdr_plain {f pos rest n : ℕ} {x : HdrField} {buf : Str}
    (eq : next_hdr P past buf f pos = some (x, rest, n)) : Plain x := by
  obtain ⟨t, name_len, skipped, k, -, hb, -, rfl⟩ := next_hdr_some eq
  refine ⟨rfl, fun ht => ?_⟩
  have hn : n = 0 := by
    cases t <;> first
      | exact Bool.noConfusion (ht : true = false)
      | cases hb
      | obtain ⟨k, -, e⟩ := map_eq_some_iff.1 hb
        exact (Prod.mk.inj e).1.symm
  rw [hn]
  rfl

/-- **Whose the objects are**: those of one header lie between its address and the next one's. -/
structure Owned (m : SipMsg) (L : List ℕ) : Prop where
  listed : Listed m L
  apart : L.Pairwise fun k j => ∀ o ∈ (m.field k).parsed, o < j
  below : ∀ k ∈ L, ∀ o ∈ (m.field k).parsed, o < m.fresh
  plain : ∀ k ∈ L, Plain (m.field k)

theorem Owned.nodup (h : Owned m L) : (L.flatMap fun k => (m.field k).parsed).Nodup := by
  refine nodup_flatMap.2 ⟨fun k hk => ?_, h.apart.imp_of_mem fun {k j} _ hj hkj o ho ho' => ?_⟩
  · obtain ⟨-, n, e, -⟩ := h.listed.content k hk
    rw [e]
    exact nodup_range'
  · obtain ⟨-, n, e, -⟩ := h.listed.content j hj
    have := hkj o ho
    have := (mem_range'_1.1 (show o ∈ List.range' (j + 1) n from e ▸ ho')).1
    omega

/-- One more header. -/
theorem Owned.append {x : HdrField} {rest n tmp : ℕ} (h : Owned m L)
    (hx : next_hdr P past m.buf m.fresh tmp = some (x, rest, n)) (hl : Listed m' (L ++ [m.fresh]))
    (hf : m'.fresh = m.fresh + 1 + n) (hc : ∀ k ∈ L, (m'.field k).core = (m.field k).core)
    (hcx : (m'.field m.fresh).core = x) : Owned m' (L ++ [m.fresh]) := by
  have hpar : ∀ k ∈ L, (m'.field k).parsed = (m.field k).parsed := fun k hk =>
    (congrArg HdrField.parsed (hc k hk) :)
  have hnew : (m'.field m.fresh).parsed = List.range' (m.fresh + 1) n :=
    (congrArg HdrField.parsed hcx :).trans (next_hdr_spec hx).2.2.1
  refine ⟨hl, pairwise_append.2 ⟨h.apart.imp_of_mem fun hk _ hkj => ?_, pairwise_singleton _ _, ?_⟩, ?_, ?_⟩
  · rwa [hpar _ hk]
  · intro k hk j hj o ho
    rw [hpar k hk] at ho
    rw [mem_singleton.1 hj]
    exact h.below k hk o ho
  · intro k hk o ho
    rcases mem_append.1 hk with hk | hk
    · rw [hpar k hk] at ho
      have := h.below k hk o ho
      omega
    · rw [mem_singleton.1 hk, hnew, mem_range'_1] at ho
      omega
  · intro k hk
    rcases mem_append.1 hk with hk | hk
    · have hp := h.plain k hk
      exact ⟨(congrArg HdrField.flags (hc k hk)).trans hp.1, fun ht =>
        (hpar k hk).trans (hp.2 ((congrArg (fun x => x.type.frees_parsed) (hc k hk)).symm.trans ht))⟩
    · rw [mem_singleton.1 hk]
      have hp := next_hdr_plain hx
      exact ⟨(congrArg HdrField.flags hcx).trans hp.1, fun ht => (congrArg HdrField.parsed hcx).trans
        (hp.2 ((congrArg (fun x => x.type.frees_parsed) hcx).symm.trans ht))⟩

theorem Owned.mono (h : Owned m L) {f : ℕ} (hf : m.fresh ≤ f) (g : BitVec 64) (u : Option ℕ) :
    Owned { m with fresh := f, parsed_flag := g, unparsed := u } L :=
  ⟨h.listed.mono hf g u, h.apart, fun k hk o ho => Nat.lt_of_lt_of_le (h.below k hk o ho) hf, h.plain⟩

/-- **The loop of `parse_headers`**, whatever it returns. -/
theorem loop_owned {flags : BitVec 64} {fuel tmp : ℕ} {ret : ℤ} (h : Owned m L)
    (e : parse_headers_loop P past flags fuel m tmp = some (m', ret)) : ∃ L', Owned m' L' := by
  induction fuel generalizing m L tmp with
  | zero => cases e
  | succ fuel ih =>
    by_cases hgo : tmp < m.buf.length ∧ flags &&& m.parsed_flag ≠ flags
    · rcases loop_turn P past flags fuel h.listed hgo with
        ⟨x, rest, n, m1, hx, eloop, hl, hfr, -, -, hc, hcx, -⟩ | ⟨-, -, eloop⟩ | ⟨-, eloop⟩ | ⟨-, eloop⟩ |
        ⟨-, eloop⟩
      all_goals rw [eloop] at e
      · exact ih (h.append hx hl hfr hc hcx) e
      all_goals cases e
      · exact ⟨L, h.mono (Nat.le_succ _) _ _⟩
      · exact ⟨L, h.mono (Nat.le_succ _) _ _⟩
      · exact ⟨L, h⟩
      · exact ⟨L, h.mono (Nat.le_refl _) _ _⟩
    · rw [parse_headers_loop, if_pos hgo] at e
      cases e
      exact ⟨L, h.mono (Nat.le_refl _) _ _⟩

theorem Owned.call {op : Request} {ret : ℤ} {tmp : ℕ} (h : Owned m L) (hu : m.unparsed = some tmp)
    (e : exec P past m op = some (m', ret)) : ∃ L', Owned m' L' := by
  rw [exec, parse_headers_eq hu] at e
  obtain ⟨⟨m1, r⟩, e1, e⟩ := bind_eq_some_iff.1 e
  have h1 : ∃ L', Owned m1 L' := by
    cases hn : op.next <;> rw [hn] at e1
    · exact loop_owned h e1
    · exact loop_owned (h.mono (Nat.le_refl _) _ m.unparsed) e1
  obtain ⟨L', h1⟩ := h1
  cases e
  refine ⟨L', ?_⟩
  split_ifs
  · exact h1.mono (Nat.le_refl _) _ m1.unparsed
  · exact h1.mono (Nat.le_refl _) _ m1.unparsed
  · exact h1

theorem reached_owned {buf : Str} {fl : MsgStart} {pos : ℕ}
    (h : Reached P past (fun _ _ => True) (start buf fl pos) m) :
    (∃ L, Owned m L) ∧ m.unparsed ≠ none ∧ Untouched (start buf fl pos) m := by
  refine h.invariant (I := fun m _ => (∃ L, Owned m L) ∧ m.unparsed ≠ none ∧ Untouched (start buf fl pos) m)
    ⟨⟨[], start_listed buf fl pos, .nil, nofun, nofun⟩, some_ne_none _, rfl, rfl, rfl, rfl, rfl⟩
    fun s _ op s' r hI _ e => ?_
  obtain ⟨⟨L, hL⟩, hu, t1, t2, t3, t4, t5⟩ := hI
  obtain ⟨tmp, hu⟩ := ne_none_iff_exists'.1 hu
  obtain ⟨m1, ret, N, e', heq, hp, -⟩ := call_passed P past op.flags op.next hL.listed hu
  obtain ⟨rfl, rfl⟩ := Prod.mk.inj (some.inj (heq.symm.trans e))
  obtain ⟨s1, s2, s3, s4, s5⟩ := hp.advance.same
  refine ⟨hL.call hu e, ?_, s1.trans t1, s2.trans t2, s3.trans t3, s4.trans t4, s5.trans t5⟩
  rcases hp.answer with hr | hr
  · rw [(hp.failed hr).1, hu]
    exact some_ne_none _
  · rw [hp.stored hr]
    exact some_ne_none _

/-! ### The list as the loops over it see it -/

/-- From `a` on the headers `hs` follow each other, with these contents up to their links. -/
def Follow (m : SipMsg) : ℕ → List (ℕ × HdrField) → Prop
  | a, [] => a = 0
  | a, (h, x) :: hs => a = h ∧ h ≠ 0 ∧ ∃ y, m.hdr h = some y ∧ y.core = x ∧ Follow m y.next hs

variable {a fuel : ℕ} {hs : List (ℕ × HdrField)}

theorem Follow.congr (hf : Follow m a hs) (hk : ∀ h ∈ hs.map Prod.fst, ∀ y, m.hdr h = some y →
    ∃ y', m'.hdr h = some y' ∧ y'.core = y.core ∧ y'.next = y.next) : Follow m' a hs := by
  induction hs generalizing a with
  | nil => exact hf
  | cons p hs ih =>
    obtain ⟨ha, h0, y, hy, hx, hrest⟩ := hf
    obtain ⟨y', hy', hc, hn⟩ := hk p.1 mem_cons_self y hy
    exact ⟨ha, h0, y', hy', hc.trans hx, ih (hn ▸ hrest) fun h hh => hk h (mem_cons_of_mem _ hh)⟩

theorem chain_follow (hc : Chain m.nxt m.prv a L 0) (hL : ∀ h ∈ L, h ≠ 0 ∧ m.Live h) :
    Follow m (m.nxt a) (L.map fun h => (h, (m.field h).core)) := by
  induction L generalizing a with
  | nil => exact hc.1
  | cons h L ih =>
    obtain ⟨h0, hl⟩ := hL h mem_cons_self
    have hrest := ih hc.2.2 fun k hk => hL k (mem_cons_of_mem _ hk)
    rw [nxt, if_neg h0] at hrest
    exact ⟨hc.1, h0, m.field h, hl.hdr_eq, rfl, hrest⟩

theorem WellFormed.follow (hw : WellFormed m L) :
    Follow m m.headers (L.map fun h => (h, (m.field h).core)) :=
  chain_follow hw.list fun h hh => ⟨(hw.ids h hh).1, (hw.live h).1 hh⟩

theorem clean_spec {h : ℕ} {y : HdrField} (hy : m.hdr h = some y) (hp : Plain y) (hnd : y.parsed.Nodup)
    (hl : ∀ o ∈ y.parsed, m.obj o = true) :
    ∃ obj, clean_hdr_field m h = some { m with obj := obj } ∧ ∀ o, obj o = (m.obj o && decide (o ∉ y.parsed)) := by
  rw [clean_hdr_field, hy, bind_eq_bind, bind_some]
  cases ht : y.type.frees_parsed with
  | true => exact freeObjs_spec hnd hl
  | false => exact ⟨m.obj, rfl, fun o => by simp [hp.2 ht]⟩

/-- **The loop of `free_hdr_field_lst`.** -/
theorem free_list_spec (hf : Follow m a hs) (hfuel : hs.length < fuel) (hnd : (hs.map Prod.fst).Nodup)
    (hp : ∀ p ∈ hs, Plain p.2) (ho : (hs.flatMap fun p => p.2.parsed).Nodup)
    (hl : ∀ o ∈ hs.flatMap fun p => p.2.parsed, m.obj o = true) :
    ∃ hdr obj, free_hdr_field_lst fuel m a = some { m with hdr := hdr, obj := obj } ∧
      (∀ k, hdr k = none ∨ hdr k = m.hdr k ∧ k ∉ hs.map Prod.fst) ∧
      ∀ o, obj o = false ∨ obj o = m.obj o ∧ o ∉ hs.flatMap fun p => p.2.parsed := by
  induction hs generalizing m a fuel with
  | nil =>
    obtain ⟨fuel, rfl⟩ := Nat.exists_eq_add_one_of_ne_zero (Nat.ne_zero_of_lt hfuel)
    exact ⟨m.hdr, m.obj, if_pos hf, fun k => .inr ⟨rfl, not_mem_nil⟩, fun o => .inr ⟨rfl, not_mem_nil⟩⟩
  | cons p hs ih =>
    obtain ⟨h, x⟩ := p
    obtain ⟨fuel, rfl⟩ := Nat.exists_eq_add_one_of_ne_zero (Nat.ne_zero_of_lt hfuel)
    obtain ⟨rfl, h0, y, hy, hx, hrest⟩ := hf
    obtain ⟨ha, hnd⟩ := nodup_cons.1 hnd
    rw [flatMap_cons] at ho hl
    obtain ⟨ho1, ho2, hdis⟩ := nodup_append.1 ho
    have hpar : y.parsed = x.parsed := (congrArg HdrField.parsed hx :)
    have hpy : Plain y := by
      have := hp _ mem_cons_self
      rw [← hx] at this
      exact this
    obtain ⟨obj1, e1, hobj1⟩ := clean_spec hy hpy (hpar ▸ ho1) fun o hm => hl o (mem_append_left _ (hpar ▸ hm))
    have hkeep : ∀ k ∈ hs.map Prod.fst, update m.hdr a none k = m.hdr k := fun k hk =>
      update_of_ne (fun e => ha (by rwa [← e])) _ _
    obtain ⟨hdr, obj, e, hh, hobj⟩ := @ih { m with obj := obj1, hdr := update m.hdr a none } _ fuel
      (hrest.congr fun k hk y hy => ⟨y, (hkeep k hk).trans hy, rfl, rfl⟩) (Nat.lt_of_succ_lt_succ hfuel) hnd
      (fun p hm => hp p (mem_cons_of_mem _ hm)) ho2 fun o hm => by
        show obj1 o = true
        rw [hobj1, hl o (mem_append_right _ hm), Bool.true_and, decide_eq_true_iff, hpar]
        exact fun hm' => hdis o hm' o hm rfl
    refine ⟨hdr, obj, ?_, fun k => ?_, fun o => ?_⟩
    · rw [free_hdr_field_lst, if_neg h0, hy, bind_eq_bind, bind_some, e1]
      simp only [bind_eq_bind, bind_some, hpy.1, HdrField.zero]
      exact e
    · rcases hh k with hk | ⟨hk, hn⟩
      · exact .inl hk
      · by_cases he : k = a
        · exact .inl (hk.trans (he ▸ update_self ..))
        · exact .inr ⟨hk.trans (update_of_ne he _ _), fun hm => (mem_cons.1 hm).elim he hn⟩
    · rcases hobj o with hk | ⟨hk, hn⟩
      · exact .inl hk
      · have hk : obj o = (m.obj o && decide (o ∉ y.parsed)) := hk.trans (hobj1 o)
        by_cases he : o ∈ y.parsed
        · exact .inl (by simp [hk, he])
        · exact .inr ⟨by simp [hk, he], fun hm => (mem_append.1 hm).elim (fun h => he (hpar ▸ h)) hn⟩

end OpenSips.Parser
