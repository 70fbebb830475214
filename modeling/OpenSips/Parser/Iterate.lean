import OpenSips.Parser.Contacts

/-!
# OpenSips.Parser.Iterate — every contact once, while `hdr` is not taken over

A call leaves the other messages alone, and each message keeps what its text says: the contacts
returned so far are those of the Contact header fields up to the one that `prev` is in.
-/

namespace OpenSips.Contacts

open Lib OpenSips.Parser SipMsg List Option Function

section Text

variable {P : Parsers} {past : UInt8} {buf : Str} {f pos rest n : ℕ} {x : HdrField}

theorem next_hdr_text (eq : next_hdr P past buf f pos = some (x, rest, n)) :
    next_hdr { P with avail := fun _ => true } past buf 0 pos =
      some ({ x with parsed := List.range' 1 n }, rest, n) := by
  rw [next_hdr] at eq ⊢
  by_cases hc : pos < buf.length ∧ have_header past true (buf.drop pos) ∧ P.avail f
  · rw [if_pos hc] at eq
    rw [if_pos ⟨hc.1, hc.2.1, rfl⟩]
    dsimp only at eq ⊢
    have hg : get_hdr_field { P with avail := fun _ => true } buf (0 + 1) pos =
        ({ (get_hdr_field P buf (f + 1) pos).1 with
          parsed := List.range' 1 (get_hdr_field P buf (f + 1) pos).2.2 },
          (get_hdr_field P buf (f + 1) pos).2) := get_hdr_field_addr P buf 1 (f + 1) pos
    rw [hg]
    by_cases hk : (get_hdr_field P buf (f + 1) pos).1.type.hookKind = .bad
    · rw [if_pos hk] at eq
      exact absurd eq (by simp)
    · rw [if_neg hk] at eq ⊢
      have := some.inj eq
      rw [this]
  · rw [if_neg hc] at eq
    exact absurd eq (by simp)

theorem contact_lines_fuel {fuel fuel' : ℕ} (h : buf.length - pos < fuel) (h' : buf.length - pos < fuel') :
    contact_lines P past buf fuel pos = contact_lines P past buf fuel' pos := by
  induction fuel generalizing pos fuel' with
  | zero => omega
  | succ fuel ih =>
    obtain ⟨fuel', rfl⟩ : ∃ k, fuel' = k + 1 := ⟨fuel' - 1, by omega⟩
    rw [contact_lines, contact_lines]
    cases hn : next_hdr { P with avail := fun _ => true } past buf 0 pos with
    | none => rfl
    | some r =>
      obtain ⟨x, rest, n⟩ := r
      have hlt := (next_hdr_spec hn).1
      have hlen : pos < buf.length := by
        by_contra hge
        rw [next_hdr, if_neg fun h => hge h.1] at hn
        exact absurd hn (by simp)
      exact congrArg _ (ih (by omega) (by omega))

theorem contact_hdrs_next (eq : next_hdr P past buf f pos = some (x, rest, n)) :
    contact_hdrs P past buf pos =
      (if x.type = .CONTACT then [x.body] else []) ++ contact_hdrs P past buf rest := by
  have hlt := (next_hdr_spec eq).1
  have hlen : pos < buf.length := by
    by_contra hge
    rw [next_hdr, if_neg fun h => hge h.1] at eq
    exact absurd eq (by simp)
  rw [contact_hdrs, contact_lines, next_hdr_text eq]
  dsimp only
  rw [contact_hdrs, contact_lines_fuel (by omega : _ < buf.length) (by omega : _ < buf.length + 1)]

theorem contact_hdrs_stop (h : next_hdr { P with avail := fun _ => true } past buf 0 pos = none) :
    contact_hdrs P past buf pos = [] := by
  rw [contact_hdrs, contact_lines, h]

theorem body_end_le (s : Str) (h : body_end s = some n) : n ≤ s.length := by
  induction s generalizing n with
  | nil => exact absurd h (by simp [body_end])
  | cons c s ih =>
    unfold body_end at h
    by_cases hc : c = LF
    · rw [if_pos hc] at h
      cases s with
      | nil =>
        cases h
        exact Nat.le_refl 1
      | cons d t =>
        dsimp only at h
        by_cases hd : isSP d
        · rw [if_pos hd] at h
          obtain ⟨k, hk, rfl⟩ := map_eq_some_iff.1 h
          exact Nat.succ_le_succ (ih hk)
        · rw [if_neg hd] at h
          cases h
          exact Nat.succ_le_succ (Nat.zero_le _)
    · rw [if_neg hc] at h
      obtain ⟨k, hk, rfl⟩ := map_eq_some_iff.1 h
      exact Nat.succ_le_succ (ih hk)

theorem trim_r_le (s : Str) (off n : ℕ) : trim_r s off n ≤ n := by
  induction n with
  | zero => exact Nat.le_refl 0
  | succ n ih =>
    rw [trim_r]
    split_ifs
    · exact Nat.le_succ_of_le ih
    · exact Nat.le_refl _

theorem body_end_last : ∀ {s : Str} {n : ℕ}, body_end s = some n → 0 < n ∧ s[n - 1]? = some LF := by
  intro s
  induction s with
  | nil => exact fun h => by cases h
  | cons c s ih =>
    intro n h
    have hstep : ∀ {k : ℕ}, body_end s = some k → 0 < k + 1 ∧ (c :: s)[k + 1 - 1]? = some LF := by
      intro k hk
      obtain ⟨hpos, hlast⟩ := ih hk
      obtain ⟨j, rfl⟩ := Nat.exists_eq_add_one_of_ne_zero (Nat.ne_of_gt hpos)
      exact ⟨Nat.succ_pos _, hlast⟩
    unfold body_end at h
    split_ifs at h with hc
    · subst hc
      cases s with
      | nil =>
        cases h
        exact ⟨Nat.one_pos, rfl⟩
      | cons d t =>
        dsimp only at h
        split_ifs at h with hd
        · obtain ⟨k, hk, rfl⟩ := map_eq_some_iff.1 h
          exact hstep hk
        · cases h
          exact ⟨Nat.one_pos, rfl⟩
    · obtain ⟨k, hk, rfl⟩ := map_eq_some_iff.1 h
      exact hstep hk

theorem trim_r_behind (s : Str) (off : ℕ) : ∀ n, trim_r s off n < n →
    (s.drop (off + trim_r s off n)).headD 0 = 0 ∨ (s.drop (off + trim_r s off n)).headD 0 = CR ∨
      (s.drop (off + trim_r s off n)).headD 0 = LF := by
  intro n
  induction n with
  | zero => exact fun h => absurd h (Nat.not_lt_zero _)
  | succ n ih =>
    rw [trim_r]
    split_ifs with hc
    · intro h
      rcases Nat.lt_or_ge (trim_r s off n) n with hlt | hge
      · exact ih hlt
      · rw [Nat.le_antisymm (Nat.lt_succ_iff.1 h) hge]
        exact hc
    · exact fun h => absurd h (Nat.lt_irrefl _)

theorem trim_r_lt {s : Str} {off n : ℕ} (h : body_end (s.drop off) = some n) :
    trim_r s off n < n ∧ off + n ≤ s.length := by
  obtain ⟨hpos, hlast⟩ := body_end_last h
  obtain ⟨j, rfl⟩ := Nat.exists_eq_add_one_of_ne_zero (Nat.ne_of_gt hpos)
  obtain ⟨hj, -⟩ := List.getElem?_eq_some_iff.1 hlast
  rw [length_drop] at hj
  refine ⟨?_, by omega⟩
  have hc : (s.drop (off + j)).headD 0 = LF := by
    rw [getElem?_drop] at hlast
    rw [headD_eq_head?_getD, head?_drop]
    exact congrArg (Option.getD · 0) hlast
  rw [trim_r, hc, if_pos (.inr (.inr rfl))]
  exact Nat.lt_succ_of_le (trim_r_le s off j)

/-- **What `get_hdr_field` delivers** when it does not parse the body: a body in the buffer, and a line end or a
NUL behind it. -/
theorem body_delivered (hk : (get_hdr_field P buf f pos).1.type.hookKind ≠ .bad)
    (hbody : ∀ tmp, parse_body P buf (get_hdr_field P buf f pos).1.type tmp =
      (body_end (buf.drop tmp)).map fun n => (0, n)) :
    ∃ tmp k : ℕ, (get_hdr_field P buf f pos).1.body = ⟨.msg tmp, k⟩ ∧ tmp + k < buf.length ∧
      ∃ c, buf[tmp + k]? = some c ∧ (c = 0 ∨ c = CR ∨ c = LF) := by
  obtain ⟨t, name_len, skipped, objs, n, -, -, hb, hg⟩ := get_hdr_field_good hk
  rw [hg] at hbody ⊢
  rw [hbody] at hb
  obtain ⟨n', hn, hpair⟩ := map_eq_some_iff.1 hb
  obtain ⟨-, rfl⟩ := Prod.mk.inj hpair
  obtain ⟨hlt, hle⟩ := trim_r_lt hn
  have hin : body_start buf pos name_len skipped + trim_r buf (body_start buf pos name_len skipped) n' < buf.length := by
    omega
  refine ⟨_, _, rfl, hin, buf[_], getElem?_eq_getElem hin, ?_⟩
  have hc := trim_r_behind buf (body_start buf pos name_len skipped) n' hlt
  rwa [headD_eq_head?_getD, head?_drop, getElem?_eq_getElem hin] at hc

theorem contact_text (eq : next_hdr P past buf f pos = some (x, rest, n)) (ht : x.type = .CONTACT) :
    ∃ off s, x.body.s = .msg off ∧ cut (buf.drop off) 0 x.body.len = some s := by
  obtain ⟨t, name_len, skipped, k, -, hb, -, rfl⟩ := next_hdr_some eq
  dsimp only at ht ⊢
  rw [ht] at hb
  have hb : (body_end (buf.drop (body_start buf pos name_len skipped))).map (fun n => (0, n)) = some (n, k) := hb
  obtain ⟨j, hj, he⟩ := map_eq_some_iff.1 hb
  cases he
  have h1 := body_end_le _ hj
  have h2 := trim_r_le buf (body_start buf pos name_len skipped) k
  refine ⟨_, _, rfl, if_pos ⟨Int.le_refl _, by omega, by omega⟩⟩

end Text

def seen (m : SipMsg) : Bool := m.parsed_flag.getLsbD HdrType.CONTACT.ctorIdx

theorem asked_iff (m : SipMsg) :
    HDR_T2F .CONTACT &&& m.parsed_flag ≠ HDR_T2F .CONTACT ↔ seen m = false := by
  have h : HDR_T2F .CONTACT = BitVec.twoPow 64 HdrType.CONTACT.ctorIdx := rfl
  rw [h, BitVec.twoPow_and, seen]
  by_cases hb : m.parsed_flag.getLsbD HdrType.CONTACT.ctorIdx
  · simp [hb]
  · simp only [hb]
    decide

section Headers

variable {P : Parsers} {past : UInt8} {m m1 m' : SipMsg} {L N M : List ℕ} {pos rest n : ℕ}

structure Advance (m : SipMsg) (L : List ℕ) (m' : SipMsg) (N : List ℕ) : Prop where
  listed : Listed m' (L ++ N)
  same : Untouched m m'
  core : ∀ k ∈ L, (m'.field k).core = (m.field k).core

theorem Advance.trans (h : Advance m L m1 N) (h' : Advance m1 (L ++ N) m' M) :
    Advance m L m' (N ++ M) where
  listed := by
    rw [← append_assoc]
    exact h'.listed
  same := by
    obtain ⟨s1, s2, s3, s4, s5⟩ := h.same
    obtain ⟨t1, t2, t3, t4, t5⟩ := h'.same
    exact ⟨t1.trans s1, t2.trans s2, t3.trans s3, t4.trans s4, t5.trans s5⟩
  core k hk := (h'.core k (mem_append_left _ hk)).trans (h.core k hk)

/-- What a call for Contact comes back with that starts at `pos`: the next Contact header field behind
others, the end of the text, or an error in front of it; `u` is where it would start again. -/
inductive Sought (P : Parsers) (past : UInt8) (u : Option ℕ) (m' : SipMsg) (pos : ℕ) :
    ℤ → List ℕ → Prop where
  | found {N : List ℕ} {h e : ℕ} (unparsed : m'.unparsed = some e) (others : m'.ofType .CONTACT N = [])
      (type : (m'.field h).type = .CONTACT)
      (next : contact_hdrs P past m'.buf pos = (m'.field h).body :: contact_hdrs P past m'.buf e)
      (text : body_text m'.buf (m'.field h).body ≠ none) : Sought P past u m' pos 0 (N ++ [h])
  | missed {ret : ℤ} {N : List ℕ} {e : ℕ} (ok : 0 ≤ ret) (unparsed : m'.unparsed = some e)
      (others : m'.ofType .CONTACT N = []) (none : contact_hdrs P past m'.buf pos = [])
      (stays : contact_hdrs P past m'.buf e = []) : Sought P past u m' pos ret N
  | failed {N : List ℕ} (unparsed : m'.unparsed = u) (others : m'.ofType .CONTACT N = [])
      (unseen : seen m' = false) : Sought P past u m' pos (-1) N

theorem Sought.cons {u : Option ℕ} {ret : ℤ} {k : ℕ} (h : Sought P past u m' rest ret N)
    (hk : (m'.field k).type ≠ .CONTACT)
    (hp : contact_hdrs P past m'.buf pos = contact_hdrs P past m'.buf rest) :
    Sought P past u m' pos ret (k :: N) := by
  have hcons : ∀ M, m'.ofType .CONTACT M = [] → m'.ofType .CONTACT (k :: M) = [] := fun M hM => by
    rw [ofType, filter_cons, if_neg (by simpa using hk)]
    exact hM
  cases h with
  | found h1 h2 h3 h4 h5 => exact .found h1 (hcons _ h2) h3 (hp.trans h4) h5
  | missed h1 h2 h3 h4 h5 => exact .missed h1 h2 (hcons _ h3) (hp.trans h4) h5
  | failed h1 h2 h3 => exact .failed h1 (hcons _ h2) h3

theorem Advance.refl (hl : Listed m L) {f : ℕ} (hf : m.fresh ≤ f) (g : BitVec 64) (u : Option ℕ) :
    Advance m L { m with fresh := f, parsed_flag := g, unparsed := u } [] where
  listed := by
    rw [append_nil]
    exact hl.mono hf g u
  same := ⟨rfl, rfl, rfl, rfl, rfl⟩
  core _ _ := rfl

theorem contact_hdrs_eoh {buf : Str} (h : AtEoh P past buf pos) : contact_hdrs P past buf pos = [] := by
  have hbad : (get_hdr_field { P with avail := fun _ => true } buf 0 pos).1.type.hookKind = .bad := by
    have := h.2.2 0
    exact (congrArg HdrType.hookKind this : _ = HookKind.bad)
  exact contact_hdrs_stop (stuck_of_bad hbad 0)

/-- **A call for Contact** from `pos` on. -/
theorem contact_loop_spec {fuel : ℕ} (hl : Listed m L) (hs : seen m = false)
    (hfuel : m.buf.length - pos < fuel) :
    ∃ m' ret N, parse_headers_loop P past (HDR_T2F .CONTACT) fuel m pos = some (m', ret) ∧
      Advance m L m' N ∧ Sought P past m.unparsed m' pos ret N := by
  induction fuel generalizing m L pos with
  | zero => omega
  | succ fuel ih =>
    by_cases hlen : pos < m.buf.length
    · rcases loop_turn P past (HDR_T2F .CONTACT) fuel hl ⟨hlen, (asked_iff m).2 hs⟩ with
        ⟨x, rest, n, m1, hnext, eloop, hl', hfr, hsm, hun, hcore, hx, hfl⟩ | ⟨hat, hst, eloop⟩ |
        ⟨hst, eloop⟩ | ⟨hnone, eloop⟩ | ⟨hh, eloop⟩
      · have ha : Advance m L m1 [m.fresh] := ⟨hl', hsm, hcore⟩
        have hbuf : m1.buf = m.buf := hsm.1
        have hlt := (next_hdr_spec hnext).1
        have htype : (m1.field m.fresh).type = x.type := by
          have := congrArg HdrField.type hx
          exact this
        have hbody : (m1.field m.fresh).body = x.body := by
          have := congrArg HdrField.body hx
          exact this
        have hbit := hfl HdrType.CONTACT.ctorIdx (by decide)
        have hhdrs := contact_hdrs_next hnext
        by_cases ht : x.type = .CONTACT
        · -- the field looked for: the loop stops behind it
          have hs1 : seen m1 = true := by
            have hflag : flagOf x HdrType.CONTACT.ctorIdx = true := by
              rw [flagOf, ht]
              decide
            rw [seen, hbit, hflag, Bool.or_true]
          obtain ⟨fuel, rfl⟩ : ∃ k, fuel = k + 1 := ⟨fuel - 1, by omega⟩
          have hstop : parse_headers_loop P past (HDR_T2F .CONTACT) (fuel + 1) m1 rest =
              some ({ m1 with unparsed := some rest }, 0) := by
            rw [parse_headers_loop, if_pos]
            rintro ⟨-, hne⟩
            rw [(asked_iff m1).1 hne] at hs1
            exact absurd hs1 Bool.false_ne_true
          refine ⟨_, _, _, eloop.trans hstop,
            ha.trans (.refl hl' (Nat.le_refl _) m1.parsed_flag (some rest)), ?_⟩
          refine .found (N := []) rfl rfl (htype.trans ht) ?_ ?_
          · show contact_hdrs P past m1.buf pos = (m1.field m.fresh).body :: contact_hdrs P past m1.buf rest
            rw [hbuf, hhdrs, if_pos ht, hbody]
            rfl
          · show body_text m1.buf (m1.field m.fresh).body ≠ none
            obtain ⟨off, s, hoff, htext⟩ := contact_text hnext ht
            rw [hbuf, hbody, body_text, hoff]
            dsimp only
            rw [htext]
            exact some_ne_none s
        · -- another field
          have hs1 : seen m1 = false := by
            have hflag : flagOf x HdrType.CONTACT.ctorIdx = false := by
              rw [flagOf, decide_eq_false_iff_not]
              exact fun h => ht (ctorIdx_inj h.2).symm
            rw [seen, hbit, hflag, Bool.or_false]
            exact hs
          have hfuel' : m1.buf.length - rest < fuel := by
            rw [hbuf]
            omega
          obtain ⟨m2, ret, N, hloop, ha2, hso⟩ := ih hl' hs1 hfuel'
          refine ⟨m2, ret, _, eloop.trans hloop, ha.trans ha2, ?_⟩
          rw [hun] at hso
          refine hso.cons ?_ ?_
          · have := congrArg HdrField.type (ha2.core m.fresh (by simp))
            have this : (m2.field m.fresh).type = (m1.field m.fresh).type := this
            rw [this, htype]
            exact ht
          · rw [ha2.same.1, hbuf, hhdrs, if_neg ht, nil_append]
      · have hno := contact_hdrs_eoh hat
        exact ⟨_, _, _, eloop, .refl hl (Nat.le_succ _) _ _, .missed (Int.le_refl 0) rfl rfl hno hno⟩
      · exact ⟨_, _, _, eloop, .refl hl (Nat.le_succ _) _ _, .failed rfl rfl hs⟩
      · exact ⟨_, _, _, eloop, .refl hl (Nat.le_refl _) _ _, .failed rfl rfl hs⟩
      · have hno : contact_hdrs P past m.buf pos = [] :=
          contact_hdrs_stop (by rw [next_hdr, if_neg fun h => hh h.2.1])
        exact ⟨_, _, _, eloop, .refl hl (Nat.le_refl _) _ _, .missed (by decide) rfl rfl hno hno⟩
    · have hno : contact_hdrs P past m.buf pos = [] :=
        contact_hdrs_stop (by rw [next_hdr, if_neg fun h => hlen h.1])
      rw [parse_headers_loop, if_pos fun h => hlen h.1]
      exact ⟨_, _, _, rfl, .refl hl (Nat.le_refl _) _ _, .missed (Int.le_refl 0) rfl rfl hno hno⟩

end Headers

variable {ι C : Type} {S : Setting ι C} {i : ι} {buf : Str} {pos : ℕ} {m : Message C} {L N : List ℕ}

/-- **What is known of a message**: the Contact header fields listed and those still in the text are
all there are; the flag is set behind the first of them or at the end only. -/
structure Known (S : Setting ι C) (i : ι) (buf : Str) (pos : ℕ) (m : Message C) (L : List ℕ) : Prop where
  listed : Listed m.msg L
  buf_eq : m.msg.buf = buf
  resume : ∃ e, m.msg.unparsed = some e ∧
    (m.msg.ofType .CONTACT L).map (fun h => (m.msg.field h).body) ++
      contact_hdrs (S.parsers i) (S.past i) buf e = contact_hdrs (S.parsers i) (S.past i) buf pos ∧
    (seen m.msg = true → m.msg.ofType .CONTACT L ≠ [] ∨ contact_hdrs (S.parsers i) (S.past i) buf e = [])
  text : ∀ h ∈ m.msg.ofType .CONTACT L, body_text buf (m.msg.field h).body ≠ none
  bodies : ∀ h b, m.body h = some b → m.msg.Live h ∧ body_of S buf (m.msg.field h).body = some b

/-- What `parse_headers` finds: the next Contact header field, no further one, or a bad header. -/
inductive More (S : Setting ι C) (i : ι) (buf : Str) (pos : ℕ) (m' : SipMsg) (L : List ℕ) :
    ℤ → List ℕ → Prop where
  | found {N : List ℕ} {h : ℕ} (others : m'.ofType .CONTACT N = [])
      (type : (m'.field h).type = .CONTACT) : More S i buf pos m' L 0 (N ++ [h])
  | missed {ret : ℤ} {N : List ℕ} (ok : 0 ≤ ret) (others : m'.ofType .CONTACT N = [])
      (all : (m'.ofType .CONTACT L).map (fun h => (m'.field h).body) =
        contact_hdrs (S.parsers i) (S.past i) buf pos) : More S i buf pos m' L ret N
  | failed {N : List ℕ} (others : m'.ofType .CONTACT N = []) : More S i buf pos m' L (-1) N

theorem Advance.ofType {m m' : SipMsg} (h : Advance m L m' N) (t : HdrType) :
    m'.ofType t L = m.ofType t L := ofType_congr fun k hk => by
  have := congrArg HdrField.type (h.core k hk)
  exact this

theorem Advance.body {m m' : SipMsg} (h : Advance m L m' N) {k : ℕ} (hk : k ∈ L) :
    (m'.field k).body = (m.field k).body := by
  have := congrArg HdrField.body (h.core k hk)
  exact this

theorem ofType_append (m : SipMsg) (t : HdrType) (L N : List ℕ) :
    m.ofType t (L ++ N) = m.ofType t L ++ m.ofType t N := filter_append ..

theorem ofType_found {m : SipMsg} {h : ℕ} (others : m.ofType .CONTACT N = [])
    (type : (m.field h).type = .CONTACT) : m.ofType .CONTACT (N ++ [h]) = [h] := by
  rw [ofType_append, others, nil_append, ofType, filter_cons, if_pos (by simpa using type)]
  rfl

theorem Known.extend {m' : SipMsg} {e e' : ℕ} (hk : Known S i buf pos m L) (ha : Advance m.msg L m' N)
    (hun : m'.unparsed = some e')
    (hold : (m.msg.ofType .CONTACT L).map (fun h => (m.msg.field h).body) ++
      contact_hdrs (S.parsers i) (S.past i) buf e = contact_hdrs (S.parsers i) (S.past i) buf pos)
    (hnew : contact_hdrs (S.parsers i) (S.past i) buf e =
      (m'.ofType .CONTACT N).map (fun h => (m'.field h).body) ++ contact_hdrs (S.parsers i) (S.past i) buf e')
    (htext : ∀ h ∈ m'.ofType .CONTACT N, body_text buf (m'.field h).body ≠ none)
    (hseen : seen m' = true → m'.ofType .CONTACT (L ++ N) ≠ [] ∨
      contact_hdrs (S.parsers i) (S.past i) buf e' = []) :
    Known S i buf pos { m with msg := m' } (L ++ N) where
  listed := ha.listed
  buf_eq := ha.same.1.trans hk.buf_eq
  resume := by
    refine ⟨e', hun, ?_, hseen⟩
    have hmap : (m.msg.ofType .CONTACT L).map (fun h => (m'.field h).body) =
        (m.msg.ofType .CONTACT L).map fun h => (m.msg.field h).body :=
      map_congr_left fun k hk => ha.body (mem_ofType.1 hk).1
    rw [ofType_append, ha.ofType, map_append, hmap, append_assoc, ← hnew, hold]
  text h hh := by
    rw [ofType_append, ha.ofType] at hh
    rcases mem_append.1 hh with hh | hh
    · rw [ha.body (mem_ofType.1 hh).1]
      exact hk.text h hh
    · exact htext h hh
  bodies h b hb := by
    obtain ⟨hlive, hbody⟩ := hk.bodies h b hb
    have hL := (hk.listed.wf.live h).2 hlive
    refine ⟨(ha.listed.wf.live h).1 (mem_append_left _ hL), ?_⟩
    rw [ha.body hL]
    exact hbody

/-- **More headers are parsed**, and the message is still known. -/
theorem Known.more (hk : Known S i buf pos m L) {next : Bool}
    (hn : next = true ∨ m.msg.ofType .CONTACT L = []) :
    ∃ m' ret N, parse_headers (S.parsers i) (S.past i) m.msg (HDR_T2F .CONTACT) next = some (m', ret) ∧
      Known S i buf pos { m with msg := m' } (L ++ N) ∧ Advance m.msg L m' N ∧
      More S i buf pos m' L ret N := by
  obtain ⟨e, hun, htext, hseen⟩ := hk.resume
  obtain ⟨m1, hm1⟩ : ∃ m1, m1 = (if next then
    { m.msg with parsed_flag := m.msg.parsed_flag &&& ~~~ HDR_T2F .CONTACT } else m.msg) := ⟨_, rfl⟩
  have hl1 : Listed m1 L := by
    rw [hm1]
    cases next with
    | false => exact hk.listed
    | true => exact hk.listed.mono (Nat.le_refl _) _ m.msg.unparsed
  rw [parse_headers_eq hun, ← hm1]
  have hfuel : m1.buf.length - e < m1.buf.length + 1 := by omega
  by_cases hs1 : seen m1 = true
  · -- the flag says that there is none
    have hm : m1 = m.msg ∧ m.msg.ofType .CONTACT L = [] := by
      rw [hm1] at hs1 ⊢
      cases next with
      | false => exact ⟨rfl, hn.resolve_left (by decide)⟩
      | true =>
        have hz : seen { m.msg with parsed_flag := m.msg.parsed_flag &&& ~~~ HDR_T2F .CONTACT } = false := by
          rw [seen, BitVec.getLsbD_and, BitVec.getLsbD_not]
          have : (HDR_T2F .CONTACT).getLsbD HdrType.CONTACT.ctorIdx = true := by decide
          rw [this, Bool.not_true, Bool.and_false, Bool.and_false]
        rw [if_pos rfl, hz] at hs1
        exact absurd hs1 Bool.false_ne_true
    obtain ⟨rfl, hnil⟩ := hm
    have hnone := (hseen hs1).resolve_left (not_not.2 hnil)
    have hstop : parse_headers_loop (S.parsers i) (S.past i) (HDR_T2F .CONTACT) (m.msg.buf.length + 1)
        m.msg e = some ({ m.msg with unparsed := some e }, 0) := by
      rw [parse_headers_loop, if_pos]
      rintro ⟨-, hne⟩
      rw [(asked_iff m.msg).1 hne] at hs1
      exact absurd hs1 Bool.false_ne_true
    have ha : Advance m.msg L { m.msg with unparsed := some e } [] :=
      .refl hk.listed (Nat.le_refl _) m.msg.parsed_flag (some e)
    have hall : (m.msg.ofType .CONTACT L).map (fun h => (m.msg.field h).body) =
        contact_hdrs (S.parsers i) (S.past i) buf pos := by
      rw [← htext, hnil, hnone]
      rfl
    rw [hstop, bind_some, if_neg (Int.lt_irrefl 0)]
    exact ⟨_, _, [], rfl, hk.extend ha rfl htext rfl (fun _ h => absurd h not_mem_nil)
      (fun _ => .inr hnone), ha, .missed (Int.le_refl 0) rfl hall⟩
  · rw [Bool.not_eq_true] at hs1
    obtain ⟨m2, ret, N, eloop, ha2, hso⟩ := contact_loop_spec (P := S.parsers i) hl1 hs1 hfuel
    have hbuf1 : m1.buf = m.msg.buf ∧ m1.unparsed = m.msg.unparsed := by
      rw [hm1]
      cases next <;> exact ⟨rfl, rfl⟩
    have ha : Advance m.msg L m2 N := by
      rw [hm1] at ha2
      cases next <;> exact ⟨ha2.listed, ha2.same, ha2.core⟩
    have hbuf2 : m2.buf = buf := ha.same.1.trans hk.buf_eq
    rw [eloop, bind_some]
    cases hso with
    | @found N h e' h1 h2 h3 h4 h5 =>
      rw [hbuf2] at h4 h5
      have hfound := ofType_found h2 h3
      rw [if_neg (Int.lt_irrefl 0)]
      refine ⟨_, _, _, rfl, hk.extend ha h1 htext (by rw [hfound]; exact h4) ?_ ?_, ha, .found h2 h3⟩
      · intro k hk
        rw [hfound, mem_singleton] at hk
        rw [hk]
        exact h5
      · intro _
        left
        rw [ofType_append, hfound]
        simp
    | @missed _ _ e' h1 h2 h3 h4 h5 =>
      rw [hbuf2] at h4 h5
      rw [if_neg (by omega)]
      refine ⟨_, _, _, rfl, hk.extend ha h2 htext (by rw [h3, h4, h5]; rfl) ?_ (fun _ => .inr h5), ha,
        .missed h1 h3 ?_⟩
      · intro k hk
        rw [h3] at hk
        exact absurd hk not_mem_nil
      · rw [h4, append_nil] at htext
        rw [ha.ofType, ← htext]
        exact map_congr_left fun k hk => ha.body (mem_ofType.1 hk).1
    | failed h1 h2 h3 =>
      rw [if_pos (show (-1 : ℤ) < 0 by decide)]
      obtain ⟨g, hg⟩ : ∃ g, g = m2.parsed_flag ||| if next then m.msg.parsed_flag else 0 := ⟨_, rfl⟩
      rw [← hg]
      have ha' : Advance m.msg L { m2 with parsed_flag := g } N :=
        ⟨ha.listed.mono (Nat.le_refl _) g m2.unparsed, ha.same, ha.core⟩
      have hun2 : m2.unparsed = some e := h1.trans (hbuf1.2.trans hun)
      refine ⟨_, _, _, rfl, hk.extend ha' hun2 htext ?_ ?_ ?_, ha', .failed h2⟩
      · have h2 : ({ m2 with parsed_flag := g } : SipMsg).ofType .CONTACT N = [] := h2
        rw [h2]
        rfl
      · intro k hk
        have h2 : ({ m2 with parsed_flag := g } : SipMsg).ofType .CONTACT N = [] := h2
        rw [h2] at hk
        exact absurd hk not_mem_nil
      · intro hs2
        have hold : seen m.msg = true := by
          rw [seen, hg, BitVec.getLsbD_or] at hs2
          rw [seen] at h3
          rw [h3, Bool.false_or] at hs2
          cases next with
          | false => exact absurd hs2 (by simp)
          | true => exact hs2
        rcases hseen hold with h | h
        · left
          rw [ofType_append, ha'.ofType]
          exact append_ne_nil_of_left_ne_nil h _
        · exact .inr h

section Fields

variable {m : SipMsg}

theorem next_eq {A B : List ℕ} {h : ℕ} (hl : Listed m L) (hL : L = A ++ h :: B) :
    m.hdr h = some (m.field h) ∧ (m.field h).next = B.headD 0 := by
  have hm : h ∈ L := by
    rw [hL]
    exact mem_append_right _ mem_cons_self
  refine ⟨((hl.wf.live h).1 hm).hdr_eq, ?_⟩
  have hchain : Chain m.nxt m.prv 0 ((A ++ [h]) ++ B) 0 := by
    have := hl.wf.list
    rw [hL] at this
    rw [append_assoc]
    exact this
  have hmid := (Chain.mid (A ++ [h]) hchain).1
  have hlast : (A ++ [h]).getLastD 0 = h := by
    rw [getLastD_concat]
  rw [hlast, nxt, if_neg (hl.wf.ids h hm).1] at hmid
  exact hmid

/-- **The loop to the next Contact header field** of those behind. -/
theorem next_contact_hdr_spec {A B : List ℕ} {fuel : ℕ} (hl : Listed m L) (hL : L = A ++ B)
    (hfuel : B.length < fuel) :
    next_contact_hdr m fuel (B.headD 0) = some ((m.ofType .CONTACT B).headD 0) := by
  induction B generalizing A fuel with
  | nil =>
    obtain ⟨fuel, rfl⟩ : ∃ k, fuel = k + 1 := ⟨fuel - 1, by omega⟩
    rw [next_contact_hdr, headD_nil, if_pos rfl]
    rfl
  | cons h B ih =>
    obtain ⟨fuel, rfl⟩ : ∃ k, fuel = k + 1 := ⟨fuel - 1, by omega⟩
    obtain ⟨hget, hnext⟩ := next_eq hl hL
    have hm : h ∈ L := by
      rw [hL]
      exact mem_append_right _ mem_cons_self
    rw [next_contact_hdr, headD_cons, if_neg (hl.wf.ids h hm).1, hget, bind_eq_bind, bind_some]
    by_cases ht : (m.field h).type = .CONTACT
    · rw [if_pos ht, ofType, filter_cons, if_pos (by simpa using ht)]
      rfl
    · have hlen : B.length < fuel := by
        rw [length_cons] at hfuel
        omega
      rw [if_neg ht, hnext, ih (A := A ++ [h]) (by rw [hL, append_assoc]; rfl) hlen, ofType, ofType,
        filter_cons, if_neg (by simpa using ht)]

theorem last_contact {A : List ℕ} {h : ℕ} (hl : Listed m L) (hA : m.ofType .CONTACT L = A ++ [h]) :
    m.hdr m.last_header = some (m.field m.last_header) ∧
      ((m.field m.last_header).type = .CONTACT → m.last_header = h) := by
  have hne : L ≠ [] := by
    rintro rfl
    exact absurd hA (by simp [ofType])
  obtain ⟨I, l, rfl⟩ : ∃ I l, L = I ++ [l] := ⟨_, _, (dropLast_append_getLast hne).symm⟩
  have hlast : m.last_header = l := by
    rw [last_header_eq hl.wf.list, getLastD_concat]
  rw [hlast]
  refine ⟨((hl.wf.live l).1 (by simp)).hdr_eq, fun ht => ?_⟩
  rw [ofType_concat, if_pos ht] at hA
  exact singleton_inj.1 (append_inj' hA rfl).2

end Fields

section Positions

/-- The contacts of the header fields `A`. -/
def passed (S : Setting ι C) (buf : Str) (m : SipMsg) (A : List ℕ) : List C :=
  A.flatMap fun h => contacts_of S buf (m.field h).body

theorem Known.all_eq (hk : Known S i buf pos m L) : ∃ later, contact_hdrs (S.parsers i) (S.past i) buf pos =
      (m.msg.ofType .CONTACT L).map (fun h => (m.msg.field h).body) ++ later ∧
    all_contacts S i buf pos = passed S buf m.msg (m.msg.ofType .CONTACT L) ++
      later.flatMap (contacts_of S buf) := by
  obtain ⟨e, -, htext, -⟩ := hk.resume
  refine ⟨_, htext.symm, ?_⟩
  rw [all_contacts, ← htext, flatMap_append, flatMap_map, passed]

theorem contacts_of_body {s : Slice} {b : ContactBody C} (h : body_of S buf s = some b) :
    contacts_of S buf s = b.contacts := by
  rw [contacts_of, h]
  rfl

theorem Known.star {A R : List ℕ} {h : ℕ} {b : ContactBody C} (hk : Known S i buf pos m L)
    (hs : StarLast S i buf pos) (hA : m.msg.ofType .CONTACT L = A ++ h :: R)
    (hb : body_of S buf (m.msg.field h).body = some b) (hnil : b.contacts = []) :
    passed S buf m.msg A = all_contacts S i buf pos := by
  obtain ⟨later, htext, hall⟩ := hk.all_eq
  rw [StarLast, htext, hA, map_append, map_cons, append_assoc, cons_append, pairwise_append] at hs
  have hrest := (pairwise_cons.1 hs.2.1).1
  have hempty : ∀ s ∈ R.map (fun h => (m.msg.field h).body) ++ later, contacts_of S buf s = [] :=
    fun s hm => hrest s hm (by rw [hb, any_some, hnil]; rfl)
  have hR : passed S buf m.msg R = [] := flatMap_eq_nil_iff.2 fun k hk =>
    hempty _ (mem_append_left _ (List.mem_map.2 ⟨k, hk, rfl⟩))
  have hlater : later.flatMap (contacts_of S buf) = [] := flatMap_eq_nil_iff.2 fun s hs =>
    hempty s (mem_append_right _ hs)
  have hh : contacts_of S buf (m.msg.field h).body = [] := (contacts_of_body hb).trans hnil
  have hcut : passed S buf m.msg (A ++ h :: R) = passed S buf m.msg A ++
      (contacts_of S buf (m.msg.field h).body ++ passed S buf m.msg R) := by
    rw [passed, flatMap_append, flatMap_cons]
    rfl
  rw [hall, hA, hcut, hh, hR, hlater, append_nil, append_nil, append_nil]

/-- **Where an iteration is**: behind the contacts of the header fields in front of the one that the
contact returned last is in, and behind those up to it. -/
structure Reached (S : Setting ι C) (i : ι) (buf : Str) (pos : ℕ) (m : Message C) (L : List ℕ)
    (it : Iteration ι C) : Prop where
  done : it.done = true → it.got = all_contacts S i buf pos
  first : it.prev = none → it.got <+: all_contacts S i buf pos
  prev : ∀ p, it.prev = some p → p.msg = i ∧ ∃ A R b, m.msg.ofType .CONTACT L = A ++ p.hdr :: R ∧
    m.body p.hdr = some b ∧ p.idx < b.contacts.length ∧
    it.got = passed S buf m.msg A ++ b.contacts.take (p.idx + 1)

theorem Reached.initial {it : Iteration ι C} (h : Reached S i buf pos m L it) (hk : Known S i buf pos m L) :
    it.got <+: all_contacts S i buf pos := by
  cases hp : it.prev with
  | none => exact h.first hp
  | some p =>
    obtain ⟨-, A, R, b, hA, hb, -, hgot⟩ := h.prev p hp
    obtain ⟨later, -, hall⟩ := hk.all_eq
    have hbody := contacts_of_body (hk.bodies p.hdr b hb).2
    have hcut : passed S buf m.msg (A ++ p.hdr :: R) = passed S buf m.msg A ++
        (b.contacts ++ passed S buf m.msg R) := by
      rw [passed, flatMap_append, flatMap_cons, hbody]
      rfl
    rw [hall, hA, hcut, hgot, append_assoc, append_assoc, prefix_append_right_inj]
    exact (List.take_prefix _ _).trans (prefix_append _ _)

/-- A message whose header fields are the same and of which more may be parsed. -/
structure Filled (m m' : Message C) : Prop where
  msg : m'.msg = m.msg
  body : ∀ h b, m.body h = some b → m'.body h = some b

theorem Filled.passed_eq {m m' : Message C} (h : Filled m m') (A : List ℕ) :
    passed S buf m'.msg A = passed S buf m.msg A := by
  rw [h.msg]

/-- What a call comes back with, when the contacts `base` were returned before. -/
inductive Returned (S : Setting ι C) (i : ι) (buf : Str) (pos : ℕ) (m : Message C) (L : List ℕ)
    (base : List C) : ℤ → Option (ContactPtr ι) → Prop where
  | failed : Returned S i buf pos m L base (-1) none
  | ended {ret : ℤ} (ok : 0 ≤ ret) (all : base = all_contacts S i buf pos) :
      Returned S i buf pos m L base ret none
  | contact {A R : List ℕ} {h k : ℕ} {b : ContactBody C} (split : m.msg.ofType .CONTACT L = A ++ h :: R)
      (parsed : m.body h = some b) (lt : k < b.contacts.length)
      (eq : base = passed S buf m.msg A ++ b.contacts.take k) :
      Returned S i buf pos m L base 0 (some ⟨i, h, k⟩)

/-- A message of which more is parsed: more Contact header fields, or what is in them. -/
structure Grown (m : Message C) (L : List ℕ) (m' : Message C) (L' : List ℕ) : Prop where
  list : ∃ N, m'.msg.ofType .CONTACT L' = m.msg.ofType .CONTACT L ++ N
  field : ∀ k ∈ m.msg.ofType .CONTACT L, (m'.msg.field k).body = (m.msg.field k).body
  body : ∀ h b, m.body h = some b → m'.body h = some b

theorem Filled.grown {m' : Message C} (h : Filled m m') : Grown m L m' L where
  list := ⟨[], by rw [h.msg, append_nil]⟩
  field k _ := by rw [h.msg]
  body := h.body

theorem Advance.grown {m' : SipMsg} (h : Advance m.msg L m' N) :
    Grown m L { m with msg := m' } (L ++ N) where
  list := ⟨m'.ofType .CONTACT N, by rw [ofType_append, h.ofType]⟩
  field k hk := h.body (mem_ofType.1 hk).1
  body _ _ hb := hb

theorem Grown.trans {m' m'' : Message C} {L' L'' : List ℕ} (h : Grown m L m' L') (h' : Grown m' L' m'' L'') :
    Grown m L m'' L'' where
  list := by
    obtain ⟨N, hN⟩ := h.list
    obtain ⟨N', hN'⟩ := h'.list
    exact ⟨N ++ N', by rw [hN', hN, append_assoc]⟩
  field k hk := by
    obtain ⟨N, hN⟩ := h.list
    rw [h'.field k (by rw [hN]; exact mem_append_left _ hk), h.field k hk]
  body k b hb := h'.body k b (h.body k b hb)

theorem Grown.passed_eq {m' : Message C} {L' A : List ℕ} (h : Grown m L m' L')
    (hA : ∀ k ∈ A, k ∈ m.msg.ofType .CONTACT L) : passed S buf m'.msg A = passed S buf m.msg A :=
  flatMap_congr fun k hk => by rw [h.field k (hA k hk)]

theorem Reached.grow {m' : Message C} {L' : List ℕ} {it : Iteration ι C} (h : Reached S i buf pos m L it)
    (hg : Grown m L m' L') : Reached S i buf pos m' L' it where
  done := h.done
  first := h.first
  prev p hp := by
    obtain ⟨hi, A, R, b, hA, hb, hlt, hgot⟩ := h.prev p hp
    obtain ⟨N, hN⟩ := hg.list
    refine ⟨hi, A, R ++ N, b, ?_, hg.body p.hdr b hb, hlt, ?_⟩
    · rw [hN, hA, append_assoc]
      rfl
    · rw [hgot, hg.passed_eq fun k hk => by rw [hA]; exact mem_append_left _ hk]

theorem ofType_split {m : SipMsg} {t : HdrType} {A R : List ℕ} {h : ℕ} (hA : m.ofType t L = A ++ h :: R) :
    ∃ L1 L2, L = L1 ++ h :: L2 ∧ m.ofType t L1 = A ∧ m.ofType t L2 = R := by
  rw [ofType] at hA
  obtain ⟨L1, L', rfl, h1, h'⟩ := filter_eq_append_iff.1 hA
  obtain ⟨I, L2, rfl, hI, hh, h2⟩ := filter_eq_cons_iff.1 h'
  refine ⟨L1 ++ I, L2, by rw [append_assoc], ?_, h2⟩
  rw [ofType, filter_append, h1, filter_eq_nil_iff.2 hI, append_nil]

end Positions

section Calls

variable [DecidableEq ι] {st : State ι C}

/-- The state with another message `i`. -/
def State.put (st : State ι C) (hdr : Option (ι × ℕ)) (i : ι) (m : Message C) : State ι C :=
  { hdr := hdr, msgs := Function.update st.msgs i m }

theorem State.put_self (st : State ι C) (hdr : Option (ι × ℕ)) (i : ι) :
    st.put hdr i (st.msgs i) = { st with hdr := hdr } := by
  rw [put, update_eq_self]

theorem State.put_msgs (st : State ι C) (hdr : Option (ι × ℕ)) (i : ι) (m : Message C) :
    (st.put hdr i m).msgs i = m := update_self ..

theorem State.put_put (st : State ι C) (hdr hdr' : Option (ι × ℕ)) (i : ι) (m m' : Message C) :
    (st.put hdr i m).put hdr' i m' = st.put hdr' i m' := by
  rw [put, put, put, update_idem]

theorem argument_text {m : SipMsg} {s : Slice} {t : Str} (h : body_text m.buf s = some t) :
    (m.argument s.s).bind (cut · 0 s.len) = some t := by
  rw [body_text] at h
  split at h
  · next off hs =>
    rw [hs, argument]
    · exact h
    · simp
  · exact absurd h (by simp)

/-- **A Contact header field is parsed** when it is not yet. -/
theorem parse_contact_spec (st : State ι C) {h : ℕ} (hk : Known S i buf pos (st.msgs i) L)
    (hh : h ∈ (st.msgs i).msg.ofType .CONTACT L) (mem : Bool) :
    ∃ m' ret, parse_contact S st (i, h) mem = some (st.put st.hdr i m', ret) ∧
      Filled (st.msgs i) m' ∧ Known S i buf pos m' L ∧
      (ret < 0 ∨ ret = 0 ∧ ∃ b, m'.body h = some b) := by
  have hlive := (hk.listed.wf.live h).1 (mem_ofType.1 hh).1
  rw [parse_contact]
  rw [hlive.hdr_eq, bind_eq_bind, bind_some]
  cases hb : (st.msgs i).body h with
  | some b =>
    exact ⟨_, 0, by rw [st.put_self], ⟨rfl, fun _ _ h => h⟩, hk, .inr ⟨rfl, b, hb⟩⟩
  | none =>
    by_cases hmem : mem
    · obtain ⟨t, ht⟩ := ne_none_iff_exists'.1 (hk.text h hh)
      have harg := argument_text (m := (st.msgs i).msg) (by rw [hk.buf_eq]; exact ht)
      rw [if_neg (not_not.2 hmem), harg]
      simp only [bind_eq_bind, bind_some]
      cases hp : contactParser S t with
      | none =>
        exact ⟨_, -2, by rw [st.put_self], ⟨rfl, fun _ _ h => h⟩, hk, .inl (by decide)⟩
      | some b =>
        refine ⟨{ st.msgs i with body := Function.update (st.msgs i).body h (some b) }, 0, rfl,
          ⟨rfl, fun k c hc => ?_⟩, ⟨hk.listed, hk.buf_eq, hk.resume, hk.text, fun k c hc => ?_⟩,
          .inr ⟨rfl, b, update_self ..⟩⟩
        · have hne : k ≠ h := fun he => by
            rw [he, hb] at hc
            exact absurd hc (by simp)
          exact (update_of_ne hne ..).trans hc
        · by_cases hkh : k = h
          · subst hkh
            have hc : Function.update (st.msgs i).body k (some b) k = some c := hc
            rw [update_self] at hc
            rw [← some.inj hc]
            exact ⟨hlive, by rw [body_of, ht, bind_some, hp]⟩
          · exact hk.bodies k c ((update_of_ne hkh ..).symm.trans hc)
    · rw [if_pos hmem]
      exact ⟨_, -1, by rw [st.put_self], ⟨rfl, fun _ _ h => h⟩, hk, .inl (by decide)⟩

/-- **A Contact header field is entered.** -/
theorem enter_hdr_spec (st : State ι C) {A R : List ℕ} {h : ℕ} (hk : Known S i buf pos (st.msgs i) L)
    (hs : StarLast S i buf pos) (hA : (st.msgs i).msg.ofType .CONTACT L = A ++ h :: R) (mem : Bool) :
    ∃ m' ret c, enter_hdr S st (i, h) mem = some (st.put (some (i, h)) i m', ret, c) ∧
      Filled (st.msgs i) m' ∧ Known S i buf pos m' L ∧
      Returned S i buf pos m' L (passed S buf (st.msgs i).msg A) ret c := by
  have hmem : h ∈ (st.msgs i).msg.ofType .CONTACT L := by
    rw [hA]
    exact mem_append_right _ mem_cons_self
  obtain ⟨m', ret, heq, hf, hk', hret⟩ := parse_contact_spec { st with hdr := some (i, h) } hk hmem mem
  rw [enter_hdr, heq, bind_eq_bind, bind_some]
  dsimp only
  rcases hret with hneg | ⟨rfl, b, hb⟩
  · rw [if_pos hneg]
    exact ⟨m', -1, none, rfl, hf, hk', .failed⟩
  · have hA' : m'.msg.ofType .CONTACT L = A ++ h :: R := by
      rw [hf.msg]
      exact hA
    rw [if_neg (Int.lt_irrefl 0)]
    have hget : ((State.put { st with hdr := some (i, h) } (some (i, h)) i m').msgs i).body h = some b := by
      rw [State.put_msgs]
      exact hb
    rw [hget, bind_eq_bind, bind_some]
    refine ⟨m', 0, _, rfl, hf, hk', ?_⟩
    by_cases hnil : b.contacts = []
    · rw [if_pos hnil, ← hf.passed_eq]
      exact .ended (Int.le_refl 0) (hk'.star hs hA' (hk'.bodies h b hb).2 hnil)
    · rw [if_neg hnil, ← hf.passed_eq]
      refine .contact hA' hb (length_pos_iff.2 hnil) ?_
      rw [take_zero, append_nil]

/-- `parse_headers` on one of the messages. -/
theorem parse_more_spec (st : State ι C) (hk : Known S i buf pos (st.msgs i) L) {next : Bool}
    (hn : next = true ∨ (st.msgs i).msg.ofType .CONTACT L = []) :
    ∃ m' ret N, parse_more S st i next = some (st.put st.hdr i { st.msgs i with msg := m' }, ret) ∧
      Known S i buf pos { st.msgs i with msg := m' } (L ++ N) ∧ Advance (st.msgs i).msg L m' N ∧
      More S i buf pos m' L ret N := by
  obtain ⟨m', ret, N, heq, hk', ha, hm⟩ := hk.more hn
  exact ⟨m', ret, N, by rw [parse_more, heq]; rfl, hk', ha, hm⟩

/-- **A first call.** -/
theorem first_call_spec (hk : Known S i buf pos (st.msgs i) L) (hs : StarLast S i buf pos) (mem : Bool) :
    ∃ m' L' hdr ret c, contact_iterator S st i none mem = some (st.put hdr i m', ret, c) ∧
      Known S i buf pos m' L' ∧ Grown (st.msgs i) L m' L' ∧ Returned S i buf pos m' L' [] ret c := by
  have hhook := hk.listed.wf.hook_eq (t := .CONTACT) (.inr rfl)
  have hne0 : ∀ h ∈ (st.msgs i).msg.ofType .CONTACT L, h ≠ 0 := fun h hh =>
    (hk.listed.wf.ids h (mem_ofType.1 hh).1).1
  rw [contact_iterator]
  dsimp only
  rw [hhook]
  cases hS : (st.msgs i).msg.ofType .CONTACT L with
  | cons h R =>
    rw [headD_cons, if_neg (hne0 h (by rw [hS]; exact mem_cons_self))]
    obtain ⟨m', ret, c, heq, hf, hk', hr⟩ := enter_hdr_spec st hk hs (A := []) hS mem
    exact ⟨m', L, _, ret, c, heq, hk', hf.grown, hr⟩
  | nil =>
    obtain ⟨m', ret, N, heq, hk', ha, hm⟩ := parse_more_spec st hk (.inr hS)
    have hhook' := hk'.listed.wf.hook_eq (t := .CONTACT) (.inr rfl)
    have hof : m'.ofType .CONTACT (L ++ N) = m'.ofType .CONTACT N := by
      rw [ofType_append, ha.ofType, hS, nil_append]
    rw [headD_nil, if_pos rfl, heq, bind_eq_bind, bind_some]
    dsimp only
    rw [State.put_msgs]
    dsimp only at hhook' ⊢
    rw [hhook', hof]
    cases hm with
    | @found N h others type =>
      have hfound := ofType_found others type
      have hh : h ≠ 0 := (hk'.listed.wf.ids h (by simp)).1
      rw [if_neg (by decide), hfound, headD_cons, if_neg hh]
      obtain ⟨m2, ret, c, heq2, hf, hk2, hr⟩ := enter_hdr_spec
        (st.put st.hdr i { st.msgs i with msg := m' }) (by rw [State.put_msgs]; exact hk') hs (A := []) (R := [])
        (by rw [State.put_msgs]; exact hof.trans hfound) mem
      rw [State.put_msgs] at hf
      rw [State.put_put] at heq2
      exact ⟨m2, _, _, ret, c, heq2, hk2, ha.grown.trans hf.grown, hr⟩
    | missed ok others all =>
      rw [if_neg (by omega), others, headD_nil, if_pos rfl]
      refine ⟨{ st.msgs i with msg := m' }, L ++ N, none, 1, none, rfl, hk', ha.grown, .ended (by decide) ?_⟩
      rw [all_contacts, ← all, ha.ofType, hS]
      rfl
    | failed others =>
      rw [if_pos rfl]
      exact ⟨{ st.msgs i with msg := m' }, L ++ N, none, -1, none, rfl, hk', ha.grown, .failed⟩

variable {it : Iteration ι C}

/-- **A call with the contact returned last**, while `hdr` is the field that the contact is in. -/
theorem next_call_spec {p : ContactPtr ι} (hk : Known S i buf pos (st.msgs i) L)
    (hs : StarLast S i buf pos) (hr : Reached S i buf pos (st.msgs i) L it) (hp : it.prev = some p)
    (mem : Bool) (hown : Own st ⟨i, some p, mem⟩) :
    ∃ m' L' hdr ret c, contact_iterator S st i (some p) mem = some (st.put hdr i m', ret, c) ∧
      Known S i buf pos m' L' ∧ Grown (st.msgs i) L m' L' ∧ Returned S i buf pos m' L' it.got ret c := by
  obtain ⟨hi, A, R, b, hA, hb, hlt, hgot⟩ := hr.prev p hp
  obtain ⟨i', h, k⟩ := p
  obtain rfl : i' = i := hi
  dsimp only at hA hb hlt hgot
  rw [contact_iterator]
  dsimp only
  rw [hb, bind_eq_bind, bind_some]
  by_cases hmore : k + 1 < b.contacts.length
  · rw [if_pos hmore]
    exact ⟨st.msgs i', L, st.hdr, 0, _, by rw [st.put_self], hk, ⟨⟨[], by rw [append_nil]⟩,
      fun _ _ => rfl, fun _ _ h => h⟩, .contact hA hb hmore hgot⟩
  · have hall : it.got = passed S buf (st.msgs i').msg (A ++ [h]) := by
      rw [hgot, take_of_length_le (by omega), passed, passed, flatMap_append,
        flatMap_singleton, contacts_of_body (hk.bodies h b hb).2]
    obtain ⟨L1, L2, hL, h1, h2⟩ := ofType_split hA
    obtain ⟨hget, hnext⟩ := next_eq hk.listed hL
    have hlen : L2.length < (st.msgs i').msg.fresh + 1 := by
      have := length_le_fresh hk.listed.wf.nodup fun k hk' => (hk.listed.wf.ids k hk').2
      rw [hL, length_append, length_cons] at this
      omega
    have hfind := next_contact_hdr_spec (A := L1 ++ [h]) hk.listed (by rw [hL, append_assoc]; rfl) hlen
    have hhdr : st.hdr = some (i', h) := hown _ rfl b hb (Nat.le_of_not_lt hmore)
    rw [if_neg hmore, hhdr]
    simp only [bind_eq_bind, bind_some]
    rw [hget, bind_some, hnext, hfind, bind_some, h2]
    have hcut : ∀ B, A ++ h :: B = (A ++ [h]) ++ B := fun B => by
      rw [append_assoc]
      rfl
    cases R with
    | cons r R =>
      have hr0 : r ≠ 0 := (hk.listed.wf.ids r (mem_ofType.1 (by
        rw [hA]
        exact mem_append_right _ (mem_cons_of_mem _ mem_cons_self))).1).1
      rw [hcut] at hA
      obtain ⟨m', ret, c, heq, hf, hk', hret⟩ := enter_hdr_spec st hk hs hA mem
      rw [headD_cons, if_pos hr0, hall]
      exact ⟨m', L, _, ret, c, heq, hk', hf.grown, hret⟩
    | nil =>
      obtain ⟨m', ret, N, heq, hk', ha, hm⟩ := parse_more_spec { st with hdr := none } hk (.inl rfl)
      have hof : m'.ofType .CONTACT (L ++ N) = (A ++ [h]) ++ m'.ofType .CONTACT N := by
        rw [ofType_append, ha.ofType, hA]
      have hpass : passed S buf m' (A ++ [h]) = passed S buf (st.msgs i').msg (A ++ [h]) :=
        ha.grown.passed_eq fun k hk => by rwa [hA]
      rw [headD_nil, if_neg (not_not.2 rfl), heq, bind_some]
      dsimp only
      rw [State.put_msgs]
      dsimp only
      cases hm with
      | @found N h' others type =>
        have hlast : m'.last_header = h' := by
          rw [last_header_eq hk'.listed.wf.list, ← append_assoc, getLastD_concat]
        have hmem : h' ∈ L ++ (N ++ [h']) := by simp
        have hne : (i', h') ≠ (i', h) := fun he => by
          have hh : h ∈ L := by
            rw [hL]
            simp
          have := (nodup_append.1 hk'.listed.wf.nodup).2.2 h hh h' (by simp)
          exact this (congrArg Prod.snd he).symm
        rw [if_neg (by decide), hlast, ((hk'.listed.wf.live h').1 hmem).hdr_eq, bind_some, if_pos ⟨type, hne⟩]
        obtain ⟨m2, ret, c, heq2, hf, hk2, hr2⟩ := enter_hdr_spec
          (State.put { st with hdr := none } none i' { st.msgs i' with msg := m' })
          (by rw [State.put_msgs]; exact hk') hs (R := [])
          (by rw [State.put_msgs]; exact hof.trans (by rw [ofType_found others type])) mem
        rw [State.put_msgs] at hf hr2
        rw [State.put_put] at heq2
        rw [hall, ← hpass]
        exact ⟨m2, _, _, ret, c, heq2, hk2, ha.grown.trans hf.grown, hr2⟩
      | missed ok others all =>
        rw [others, append_nil] at hof
        obtain ⟨hget', hsame⟩ := last_contact hk'.listed hof
        have hstop : ¬ ((m'.field m'.last_header).type = .CONTACT ∧ (i', m'.last_header) ≠ (i', h)) :=
          fun ⟨ht, hne⟩ => hne (by rw [hsame ht])
        rw [if_neg (by omega), hget', bind_some, if_neg hstop]
        refine ⟨{ st.msgs i' with msg := m' }, L ++ N, none, 1, none, rfl, hk', ha.grown, .ended (by decide) ?_⟩
        rw [all_contacts, ← all, ha.ofType, hA, flatMap_map, hall, ← hpass]
        rfl
      | failed others =>
        rw [if_pos rfl]
        exact ⟨{ st.msgs i' with msg := m' }, L ++ N, none, -1, none, rfl, hk', ha.grown, .failed⟩

variable {op : Call ι}

theorem contact_iterator_spec (hk : Known S op.msg buf pos (st.msgs op.msg) L)
    (hs : StarLast S op.msg buf pos) (hr : Reached S op.msg buf pos (st.msgs op.msg) L it)
    (hc : op.prev = none ∨ op.prev = it.prev) (hown : Own st op) :
    ∃ m' L' hdr ret c, contact_iterator S st op.msg op.prev op.mem = some (st.put hdr op.msg m', ret, c) ∧
      Known S op.msg buf pos m' L' ∧ Grown (st.msgs op.msg) L m' L' ∧
      Returned S op.msg buf pos m' L' (if op.prev.isNone then [] else it.got) ret c := by
  obtain ⟨i, prev, mem⟩ := op
  cases prev with
  | none => exact first_call_spec hk hs mem
  | some p => exact next_call_spec hk hs hr (hc.resolve_left (by simp)).symm mem hown

/-- **One call**, as the caller sees it. -/
theorem exec_spec (hk : Known S op.msg buf pos (st.msgs op.msg) L)
    (hs : StarLast S op.msg buf pos) (hr : Reached S op.msg buf pos (st.msgs op.msg) L it)
    (hc : op.prev = none ∨ op.prev = it.prev) (hown : Own st op) :
    ∃ m' L' hdr r, exec S st op = some (st.put hdr op.msg m', r) ∧ Known S op.msg buf pos m' L' ∧
      Reached S op.msg buf pos m' L' (it.next op r) := by
  obtain ⟨m', L', hdr, ret, c, heq, hk', hg, hret⟩ := contact_iterator_spec hk hs hr hc hown
  rw [exec, heq, bind_eq_bind, bind_some]
  obtain ⟨base, hbase⟩ : ∃ base, base = (if op.prev.isNone then [] else it.got) := ⟨_, rfl⟩
  rw [← hbase] at hret
  cases hret with
  | failed =>
    refine ⟨m', L', hdr, _, rfl, hk', ?_⟩
    rw [Iteration.next, if_pos (show (-1 : ℤ) < 0 by decide), ← hbase]
    refine ⟨fun h => absurd h Bool.false_ne_true, fun h => ?_, fun p hp => ?_⟩
    · have h : op.prev = none := h
      rw [hbase, h]
      exact nil_prefix
    · have hp : op.prev = some p := hp
      rw [hbase, hp]
      exact (hr.grow hg).prev p (by rw [← hp, hc.resolve_left (by simp [hp])])
  | ended ok all =>
    refine ⟨m', L', hdr, _, rfl, hk', ?_⟩
    rw [Iteration.next, if_neg (Int.not_lt.2 ok), ← hbase]
    refine ⟨fun _ => all, fun _ => ?_, fun p hp => absurd hp (by simp)⟩
    exact all ▸ prefix_rfl
  | @contact A R h k b split parsed lt eq =>
    dsimp only
    rw [State.put_msgs, parsed, bind_eq_bind, bind_some, getElem?_eq_getElem lt, bind_eq_bind, bind_some]
    refine ⟨m', L', hdr, _, rfl, hk', ?_⟩
    rw [Iteration.next, if_neg (Int.lt_irrefl 0), ← hbase]
    refine ⟨fun h => absurd h Bool.false_ne_true, fun h => absurd h (by simp), fun p hp => ?_⟩
    cases hp
    refine ⟨rfl, A, R, b, split, parsed, lt, ?_⟩
    dsimp only
    rw [eq, append_assoc, take_succ_eq_append_getElem lt]

/-- **The invariant of a run**: each message is known, and each iteration is somewhere in it. -/
def Inv (S : Setting ι C) (buf : ι → Str) (pos : ι → ℕ) (st : State ι C) (its : ι → Iteration ι C) : Prop :=
  ∀ i, ∃ L, Known S i (buf i) (pos i) (st.msgs i) L ∧ Reached S i (buf i) (pos i) (st.msgs i) L (its i)

theorem Inv.step {its : ι → Iteration ι C} {buf : ι → Str} {pos : ι → ℕ}
    (h : Inv S buf pos st its) (hs : ∀ i, StarLast S i (buf i) (pos i)) (hc : Continued its op)
    (hown : Own st op) :
    ∃ st' r, exec S st op = some (st', r) ∧ Inv S buf pos st' (note its op r) := by
  obtain ⟨L, hk, hr⟩ := h op.msg
  obtain ⟨m', L', hdr, r, heq, hk', hr'⟩ := exec_spec hk (hs op.msg) hr hc hown
  refine ⟨_, r, heq, fun i => ?_⟩
  by_cases hi : i = op.msg
  · subst hi
    exact ⟨L', by rw [State.put_msgs]; exact hk', by
      rw [State.put_msgs, note, update_self]
      exact hr'⟩
  · obtain ⟨L, hk, hr⟩ := h i
    have hsame : (st.put hdr op.msg m').msgs i = st.msgs i := update_of_ne hi ..
    refine ⟨L, by rw [hsame]; exact hk, ?_⟩
    rw [hsame, note, update_of_ne hi]
    exact hr

end Calls

section Start

theorem scanned_contacts {P : Parsers} {past : UInt8} {s e : ℕ × ℕ} {hs : List (ℕ × HdrField)}
    (h : Scanned P past buf s hs e) :
    ((hs.filter fun q => q.2.type = .CONTACT).map fun q => q.2.body) ++ contact_hdrs P past buf e.2 =
        contact_hdrs P past buf s.2 ∧
      ∀ q ∈ hs, q.2.type = .CONTACT → body_text buf q.2.body ≠ none := by
  induction h with
  | nil s => exact ⟨rfl, fun q hq => absurd hq not_mem_nil⟩
  | @cons f pos n rest x hs e eq tail ih =>
    obtain ⟨h1, h2⟩ := ih
    dsimp only at h1 ⊢
    constructor
    · rw [contact_hdrs_next eq, ← h1, filter_cons]
      by_cases ht : x.type = .CONTACT
      · rw [if_pos (by simpa using ht), if_pos ht]
        rfl
      · rw [if_neg (by simpa using ht), if_neg ht]
        rfl
    · intro q hq ht
      rcases mem_cons.1 hq with rfl | hq
      · obtain ⟨off, t, hoff, htext⟩ := contact_text eq ht
        dsimp only
        rw [body_text, hoff]
        dsimp only
        rw [htext]
        exact some_ne_none t
      · exact h2 q hq ht

theorem Received.known (h : Received S i buf pos m) : ∃ L, Known S i buf pos m L := by
  obtain ⟨fl, cs, hc⟩ := h.calls
  obtain ⟨L, e, hr, hbuf⟩ := hc.resumable
  have hp := hr.parsing
  have hsc := hp.scanned
  rw [hbuf] at hsc
  obtain ⟨htext, hbody⟩ := scanned_contacts hsc
  refine ⟨L, hp.listed, hbuf, ⟨e.2, hr.unparsed, ?_, fun hseen => ?_⟩, fun k hk => ?_, ?_⟩
  · rw [← htext, List.filter_map, List.map_map]
    rfl
  · rcases hr.tell with ⟨-, hat⟩ | ⟨hsound, -⟩
    · rw [hbuf] at hat
      exact .inr (contact_hdrs_eoh hat)
    · obtain ⟨k, hk, hfl⟩ := hsound _ (by decide) hseen
      rw [flagOf, decide_eq_true_iff] at hfl
      exact .inl (ne_nil_of_mem (mem_ofType.2 ⟨hk, (ctorIdx_inj hfl.2).symm⟩))
  · obtain ⟨hkL, ht⟩ := mem_ofType.1 hk
    exact hbody (k, (m.msg.field k).core) (List.mem_map.2 ⟨k, hkL, rfl⟩) ht
  · exact h.bodies

end Start

def no_calls (ι C : Type) : ι → Iteration ι C := fun _ => ⟨none, [], false⟩

/-- What the iterations are to be: the contacts returned for a message are the first ones of its Contact
header fields, and all of them when a call has returned `NULL` for a contact. -/
def PerMessage (S : Setting ι C) (buf : ι → Str) (pos : ι → ℕ) (its : ι → Iteration ι C) : Prop :=
  ∀ i, (its i).got <+: all_contacts S i (buf i) (pos i) ∧
    ((its i).done = true → (its i).got = all_contacts S i (buf i) (pos i))

/-- **Every contact once and in order**, for each message whatever is done with the others, in a run in
which `hdr` is not taken over and `*` stands last. -/
theorem contacts_per_message [DecidableEq ι] {st0 st : State ι C} {its : ι → Iteration ι C}
    {buf : ι → Str} {pos : ι → ℕ} (h0 : ∀ i, Received S i (buf i) (pos i) (st0.msgs i))
    (hs : ∀ i, StarLast S i (buf i) (pos i))
    (h : Run (exec S) (fun st its op => Continued its op ∧ Own st op) (fun _ its => note its)
      (st0, no_calls ι C) st its) :
    PerMessage S buf pos its ∧
      ∀ op, Continued its op → Own st op → ∃ st' r, exec S st op = some (st', r) := by
  have hinit : Inv S buf pos st0 (no_calls ι C) := fun i => by
    obtain ⟨L, hk⟩ := (h0 i).known
    exact ⟨L, hk, fun h => absurd h Bool.false_ne_true, fun _ => nil_prefix,
      fun p hp => absurd hp (by simp [no_calls])⟩
  obtain ⟨hI, htotal⟩ := Run.total (I := fun st its => Inv S buf pos st its) (Q := fun _ _ _ _ _ => True)
    hinit (fun st its op hI hop => by
      obtain ⟨st', r, he, hI'⟩ := hI.step hs hop.1 hop.2
      exact ⟨st', r, he, hI', trivial⟩) h
  refine ⟨fun i => ?_, fun op hc hown => ?_⟩
  · obtain ⟨L, hk, hr⟩ := hI i
    exact ⟨hr.initial hk, hr.done⟩
  · obtain ⟨st', r, he, -⟩ := htotal op ⟨hc, hown⟩
    exact ⟨st', r, he⟩

/-- Contact header fields by their short name, each with one contact. -/
def short : Setting Bool Str where
  parsers := fun _ => { plain with
    parse_hname := fun s pos => (upTo 58 (s.drop pos)).map fun n =>
      (if (s.drop pos).take n = [chr 'm'] then .CONTACT else .OTHER, n, 0) }
  past := fun _ => 0
  parse_contacts := fun s => some (s, [])

def before (texts : Bool → Str) : State Bool Str where
  hdr := none
  msgs := fun i => ⟨start (texts i) ⟨false, 2, 0, 0⟩ 2, fun _ => none⟩

theorem before_received (texts : Bool → Str) (i : Bool) :
    Received short i (texts i) 2 ((before texts).msgs i) where
  calls := ⟨_, [], .nil⟩
  bodies _ _ hb := absurd hb (by simp [before])

/-- A first call, and one with the first contact of the header field `h`. -/
def first (i : Bool) : Call Bool := ⟨i, none, true⟩

def further (i : Bool) (h : ℕ) : Call Bool := ⟨i, some ⟨i, h, 0⟩, true⟩

/-- The header fields `m:a` and, in one of two messages, `m:b`. -/
def texts (i : Bool) : Str :=
  if i then [13, 10, 109, 58, 97, 13, 10, 109, 58, 98, 13, 10, 13, 10] else [13, 10, 109, 58, 97, 13, 10, 13, 10]

theorem reach (allowed : State Bool Str → (Bool → Iteration Bool Str) → Call Bool → Prop)
    [∀ st its op, Decidable (allowed st its op)] (init : State Bool Str)
    (p : State Bool Str × (Bool → Iteration Bool Str) → Bool) (ops : List (Call Bool))
    (h : (steps (exec short) allowed (fun _ its => note its) (init, no_calls Bool Str) ops).any p = true) :
    ∃ st its, Run (exec short) allowed (fun _ its => note its) (init, no_calls Bool Str) st its ∧
      p (st, its) = true := by
  obtain ⟨⟨st, its⟩, heq, hp⟩ := (Option.any_eq_true _ _).1 h
  exact ⟨st, its, .of_steps heq, hp⟩

theorem contacts_per_message_two : ∃ st its, PerMessage short texts (fun _ => 2) its ∧
    (its true).got = [[97], [98]] ∧ (its true).done = true ∧
    ∃ st' r, exec short st (first true) = some (st', r) := by
  obtain ⟨st, its, hrun, hp⟩ := reach (fun st its op => Continued its op ∧ Own st op)
      (before texts) (fun q => (q.2 true).got = [[97], [98]] ∧ (q.2 true).done = true)
    [first false, first true, further true 1, further true 2] (by decide)
  obtain ⟨hgot, hdone⟩ := of_decide_eq_true hp
  have hs : ∀ i, StarLast short i (texts i) 2 := by
    intro i
    rw [StarLast]
    revert i
    decide
  obtain ⟨hper, htotal⟩ := contacts_per_message (before_received texts) hs hrun
  exact ⟨st, its, hper, hgot, hdone, htotal (first true) (.inl rfl) fun p hp => absurd hp (by simp [first])⟩

/-- The header fields `m:*` and `m:b`. -/
def stars (_ : Bool) : Str := [13, 10, 109, 58, 42, 13, 10, 109, 58, 98, 13, 10, 13, 10]

/-- Two messages with one contact each: the contact of the first is returned twice, or `NULL` is followed
behind the end; and the contact behind `*` is not returned. -/
theorem contacts_mixed : (∀ i, Received short i (texts i) 2 ((before texts).msgs i)) ∧
    (∃ st its, Run (exec short) (fun _ its op => Continued its op) (fun _ its => note its)
      (before texts, no_calls Bool Str) st its ∧ ¬ PerMessage short texts (fun _ => 2) its) ∧
    (∃ st its op, Run (exec short) (fun _ its op => Continued its op) (fun _ its => note its)
      (before texts, no_calls Bool Str) st its ∧ Continued its op ∧ exec short st op = none) ∧
    ∃ st its, Run (exec short) (fun st its op => Continued its op ∧ Own st op) (fun _ its => note its)
      (before stars, no_calls Bool Str) st its ∧ ¬ PerMessage short stars (fun _ => 2) its := by
  refine ⟨before_received texts, ?_, ?_, ?_⟩
  · obtain ⟨st, its, hrun, hp⟩ := reach (fun _ its op => Continued its op)
      (before texts) (fun q => (q.2 false).got = [[97], [97]])
      [first false, first true, further false 1] (by decide)
    refine ⟨st, its, hrun, fun h => ?_⟩
    have hpre := (h false).1
    have hall : all_contacts short false (texts false) 2 = [[97]] := by decide
    rw [of_decide_eq_true hp, hall] at hpre
    exact absurd hpre (by decide)
  · obtain ⟨st, its, hrun, hp⟩ := reach (fun _ its op => Continued its op)
      (before texts) (fun q => Continued q.2 (further true 1) ∧ exec short q.1 (further true 1) = none)
      [first true, first false, further false 1] (by decide)
    obtain ⟨hc, hnone⟩ := of_decide_eq_true hp
    exact ⟨st, its, _, hrun, hc, hnone⟩
  · obtain ⟨st, its, hrun, hp⟩ := reach (fun st its op => Continued its op ∧ Own st op)
      (before stars) (fun q => (q.2 true).got = [] ∧ (q.2 true).done = true)
      [first true] (by decide)
    obtain ⟨hgot, hdone⟩ := of_decide_eq_true hp
    refine ⟨st, its, hrun, fun h => ?_⟩
    have hall : all_contacts short true (stars true) 2 = [[98]] := by decide
    have := (h true).2 hdone
    rw [hgot, hall] at this
    exact absurd this (by decide)

end OpenSips.Contacts
