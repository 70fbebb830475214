import OpenSips.Parser.Headers
import OpenSips.Parser.Shape

/-!
# OpenSips.Parser.Lazy — parsing the headers in several calls

Which headers a message has does not depend on the flags: `next_hdr` is the header a call that goes
on appends, and the calls only differ in how far they go.
-/

namespace OpenSips.Parser

open Lib SipMsg List Option Function

variable {m m' : SipMsg} {L : List ℕ} {h : ℕ}

theorem last_header_eq (hr : Ring m.nxt m.prv 0 L) : m.last_header = L.getLastD 0 := by
  have := (Chain.mid L (by rw [append_nil]; exact hr)).2
  rwa [headD_nil, prv, if_pos rfl] at this

theorem headers_eq (hr : Ring m.nxt m.prv 0 L) : m.headers = L.headD 0 := by
  have := (Chain.mid [] hr).1
  rwa [getLastD_nil, nxt, if_pos rfl] at this

/-- **Adding a header at the end of the list.** -/
theorem append_spec (hr : Ring m.nxt m.prv 0 L) (hnd : L.Nodup)
    (ha : ∀ k ∈ L, k ≠ 0 ∧ m.Live k) (h0 : h ≠ 0) (hl : m.Live h) (hL : h ∉ L)
    (hn : (m.field h).next = 0) (hp : (m.field h).prev = 0) :
    ∃ m', append_hdr m h = some m' ∧ ListFrame m m' ∧ Ring m'.nxt m'.prv 0 (L ++ [h]) := by
  have hne0 : (0 : ℕ) ∉ L := fun hm => (ha 0 hm).1 rfl
  have hlast := last_header_eq hr
  cases hL' : L with
  | nil =>
    rw [hL', getLastD_nil] at hlast
    refine ⟨_, by rw [append_hdr, if_pos hlast], .of_ends m h h, ?_, ?_, ?_, ?_⟩
    · rw [nxt, if_pos rfl]
    · rw [prv, if_neg h0]
      exact hp
    · rw [nxt, if_neg h0]
      exact hn
    · rw [prv, if_pos rfl]
  | cons y ys =>
    rw [← hL']
    obtain ⟨z, hz⟩ : ∃ z, z = L.getLastD 0 := ⟨_, rfl⟩
    have hzL : z ∈ L := by
      rw [hz, hL', getLastD_cons]
      exact getLastD_mem_cons
    have hzh : z ≠ h := fun e => hL (e ▸ hzL)
    rw [← hz] at hlast
    have hl' : (m.set z { m.field z with next := h }).Live h := live_set.2 (.inr hl)
    have f1 : ListFrame m (m.set z { m.field z with next := h }) := .of_set (ha z hzL).2 rfl
    have f2 : ListFrame m ((m.set z { m.field z with next := h }).set h { m.field h with prev := z }) := by
      refine f1.trans (.of_set hl' ?_)
      rw [field_set_ne _ _ hzh.symm]
      rfl
    have hfz : ∀ k, k ≠ h → ((m.set z { m.field z with next := h }).set h
        { m.field h with prev := z }).field k = if k = z then { m.field z with next := h } else m.field k := by
      intro k hk
      rw [field_set_ne _ _ hk, field_set]
    refine ⟨_, ?_, f2.trans (.of_ends _ m.headers h), ?_⟩
    · rw [append_hdr, if_neg (by rw [hlast]; exact (ha z hzL).1), hlast,
        (ha z hzL).2.upd_bind, hl'.upd_bind, field_set_ne _ _ hzh.symm]
      rfl
    · have hc : Ring m.nxt m.prv 0 (L ++ []) := by rwa [append_nil]
      refine Chain.insert hc (by rwa [append_nil]) (by rwa [append_nil]) (by rwa [append_nil]) ?_ ?_ ?_ ?_ ?_ ?_
      · rw [← hz, nxt, if_neg (ha z hzL).1]
        exact congrArg HdrField.next ((hfz z hzh).trans (if_pos rfl))
      · rw [nxt, if_neg h0]
        exact (congrArg HdrField.next (field_set_self _ h { m.field h with prev := z })).trans hn
      · rw [← hz, prv, if_neg h0]
        exact congrArg HdrField.prev (field_set_self _ h { m.field h with prev := z })
      · rw [headD_nil, prv, if_pos rfl]
      · intro k hk hne
        rw [append_nil, mem_cons] at hk
        rw [← hz] at hne
        rw [nxt, nxt]
        by_cases hk0 : k = 0
        · rw [if_pos hk0, if_pos hk0]
        · have hkL := hk.resolve_left hk0
          rw [if_neg hk0, if_neg hk0]
          have := (hfz k fun e => hL (e ▸ hkL)).trans (if_neg hne)
          exact congrArg HdrField.next this
      · intro k hk hne
        rw [append_nil] at hk
        have hkL := hk.resolve_right hne
        rw [prv, prv, if_neg (ha k hkL).1, if_neg (ha k hkL).1]
        have := hfz k fun e => hL (e ▸ hkL)
        by_cases hkz : k = z
        · rw [if_pos hkz] at this
          have hprev := congrArg HdrField.prev this
          rw [hkz] at hprev ⊢
          exact hprev
        · rw [if_neg hkz] at this
          exact congrArg HdrField.prev this

theorem core_of_unlinked {x : HdrField} (h1 : x.next = 0) (h2 : x.prev = 0)
    (h3 : x.next_sibling = 0) (h4 : x.prev_sibling = 0) : x.core = x := by
  cases x
  subst h1 h2 h3 h4
  rfl

/-- Where the body of the line at `pos` starts. -/
def body_start (buf : Str) (pos name_len skipped : ℕ) : ℕ :=
  let p := pos + name_len + 1 + skipped
  p + eat_lws_end (buf.drop p)

section Field

variable {P : Parsers} {past : UInt8} {buf : Str} {f pos : ℕ}

/-- What `get_hdr_field` makes of a line it accepts. -/
theorem get_hdr_field_good (hk : (get_hdr_field P buf f pos).1.type.hookKind ≠ .bad) :
    ∃ t name_len skipped objs n, P.parse_hname buf pos = some (t, name_len, skipped) ∧
      body_start buf pos name_len skipped < buf.length ∧
      parse_body P buf t (body_start buf pos name_len skipped) = some (objs, n) ∧
      get_hdr_field P buf f pos = ({ HdrField.zero with
            type := t
            name := ⟨.msg pos, name_len⟩
            body := ⟨.msg (body_start buf pos name_len skipped),
              trim_r buf (body_start buf pos name_len skipped) n⟩
            len := short ((body_start buf pos name_len skipped + n - pos : ℕ) : ℤ)
            parsed := List.range' f objs }, body_start buf pos name_len skipped + n, objs) := by
  unfold get_hdr_field at hk ⊢
  cases hb : buf.drop pos with
  | nil =>
    rw [hb] at hk
    exact absurd rfl hk
  | cons c s =>
    rw [hb] at hk
    dsimp only at hk ⊢
    by_cases hc : c = LF ∨ c = CR
    · rw [if_pos hc] at hk
      exact absurd rfl hk
    · rw [if_neg hc] at hk ⊢
      cases hn : P.parse_hname buf pos with
      | none =>
        rw [hn] at hk
        exact absurd rfl hk
      | some r =>
        obtain ⟨t, name_len, skipped⟩ := r
        rw [hn] at hk
        dsimp only at hk ⊢
        have htmp : pos + name_len + 1 + skipped + eat_lws_end (buf.drop (pos + name_len + 1 + skipped)) =
              body_start buf pos name_len skipped := rfl
        rw [htmp] at hk ⊢
        by_cases hlen : buf.length ≤ body_start buf pos name_len skipped
        · rw [if_pos hlen] at hk
          exact absurd rfl hk
        · rw [if_neg hlen] at hk ⊢
          cases hp : parse_body P buf t (body_start buf pos name_len skipped) with
          | none =>
            rw [hp] at hk
            exact absurd rfl hk
          | some r =>
            obtain ⟨objs, n⟩ := r
            exact ⟨t, name_len, skipped, objs, n, rfl, Nat.lt_of_not_le hlen, hp, rfl⟩

theorem body_start_gt (buf : Str) (pos name_len skipped : ℕ) :
    pos + name_len < body_start buf pos name_len skipped := by
  unfold body_start
  dsimp only
  omega

theorem parse_body_via {objs n tmp : ℕ} (hp : parse_body P buf .VIA tmp = some (objs, n)) :
    0 < objs := by
  rw [parse_body] at hp
  cases hv : P.parse_via buf tmp with
  | none =>
    rw [hv] at hp
    exact absurd hp (by simp)
  | some r =>
    rw [hv, map_some] at hp
    cases hp
    exact Nat.succ_pos _

theorem get_hdr_field_bad (hk : (get_hdr_field P buf f pos).1.type.hookKind = .bad) :
    (get_hdr_field P buf f pos).2 = (pos, 0) := by
  unfold get_hdr_field at hk ⊢
  cases hb : buf.drop pos with
  | nil => rfl
  | cons c s =>
    rw [hb] at hk
    dsimp only at hk ⊢
    by_cases hc : c = LF ∨ c = CR
    · rw [if_pos hc]
    · rw [if_neg hc] at hk ⊢
      cases hn : P.parse_hname buf pos with
      | none => rfl
      | some r =>
        obtain ⟨t, name_len, skipped⟩ := r
        rw [hn] at hk
        dsimp only at hk ⊢
        by_cases hlen : buf.length ≤ pos + name_len + 1 + skipped +
            eat_lws_end (buf.drop (pos + name_len + 1 + skipped))
        · rw [if_pos hlen]
        · rw [if_neg hlen] at hk ⊢
          cases hp : parse_body P buf t (pos + name_len + 1 + skipped +
              eat_lws_end (buf.drop (pos + name_len + 1 + skipped))) with
          | none => rfl
          | some r =>
            rw [hp] at hk
            dsimp only at hk
            cases t <;> first | exact absurd hk (by decide) | exact absurd hp (by simp [parse_body])

theorem get_hdr_field_addr (P : Parsers) (buf : Str) (f f' pos : ℕ) :
    get_hdr_field P buf f pos = ({ (get_hdr_field P buf f' pos).1 with
      parsed := List.range' f (get_hdr_field P buf f' pos).2.2 }, (get_hdr_field P buf f' pos).2) := by
  unfold get_hdr_field
  cases buf.drop pos with
  | nil => rfl
  | cons c s =>
    dsimp only
    by_cases hc : c = LF ∨ c = CR
    · rw [if_pos hc, if_pos hc]
      rfl
    · rw [if_neg hc, if_neg hc]
      cases P.parse_hname buf pos with
      | none => rfl
      | some r =>
        obtain ⟨t, name_len, skipped⟩ := r
        dsimp only
        by_cases hlen : buf.length ≤ pos + name_len + 1 + skipped +
            eat_lws_end (buf.drop (pos + name_len + 1 + skipped))
        · rw [if_pos hlen, if_pos hlen]
          rfl
        · rw [if_neg hlen, if_neg hlen]
          cases parse_body P buf t (pos + name_len + 1 + skipped +
              eat_lws_end (buf.drop (pos + name_len + 1 + skipped))) with
          | none => rfl
          | some r =>
            obtain ⟨objs, n⟩ := r
            dsimp only

theorem get_hdr_field_type (P : Parsers) (buf : Str) (f f' pos : ℕ) :
    (get_hdr_field P buf f pos).1.type = (get_hdr_field P buf f' pos).1.type := by
  rw [get_hdr_field_addr P buf f f' pos]

end Field

/-- The header that the loop of `parse_headers` appends at `pos` with the addresses from `fresh` on,
where the next one starts, and the number of its objects. -/
def next_hdr (P : Parsers) (past : UInt8) (buf : Str) (fresh : ℕ) (pos : ℕ) :
    Option (HdrField × ℕ × ℕ) :=
  if pos < buf.length ∧ have_header past true (buf.drop pos) ∧ P.avail fresh then
    let r := get_hdr_field P buf (fresh + 1) pos
    if r.1.type.hookKind = .bad then none else some r
  else none

/-- The headers appended one behind the other, with the struct each is in: from an allocation
state and a position to those behind the last. -/
inductive Scanned (P : Parsers) (past : UInt8) (buf : Str) :
    ℕ × ℕ → List (ℕ × HdrField) → ℕ × ℕ → Prop where
  | nil (s : ℕ × ℕ) : Scanned P past buf s [] s
  | cons {f pos n rest : ℕ} {x : HdrField} {hs : List (ℕ × HdrField)} {e : ℕ × ℕ}
      (eq : next_hdr P past buf f pos = some (x, rest, n))
      (tail : Scanned P past buf (f + 1 + n, rest) hs e) :
      Scanned P past buf (f, pos) ((f, x) :: hs) e

section Scan

variable {P : Parsers} {past : UInt8} {buf : Str} {s e e' : ℕ × ℕ} {hs hs' : List (ℕ × HdrField)}

theorem Scanned.snoc {n rest : ℕ} {x : HdrField} (hsc : Scanned P past buf s hs e)
    (eq : next_hdr P past buf e.1 e.2 = some (x, rest, n)) :
    Scanned P past buf s (hs ++ [(e.1, x)]) (e.1 + 1 + n, rest) := by
  induction hsc with
  | nil s => exact .cons eq (.nil _)
  | cons eq' _ ih => exact .cons eq' (ih eq)

theorem Scanned.initial (h1 : Scanned P past buf s hs e) (h2 : Scanned P past buf s hs' e')
    (hend : next_hdr P past buf e'.1 e'.2 = none) : hs <+: hs' := by
  induction h1 generalizing hs' with
  | nil s => exact nil_prefix
  | cons eq _ ih =>
    cases h2 with
    | nil =>
      rw [eq] at hend
      exact absurd hend (by simp)
    | cons eq2 t2 =>
      rw [eq] at eq2
      cases eq2
      exact cons_prefix_cons.2 ⟨rfl, ih t2⟩

/-- What is appended is what was parsed: a name of type `t`, a body of `k` bytes and `n` objects. -/
theorem next_hdr_some {f pos rest n : ℕ} {x : HdrField} (eq : next_hdr P past buf f pos = some (x, rest, n)) :
    ∃ t name_len skipped k, t.hookKind ≠ .bad ∧
      parse_body P buf t (body_start buf pos name_len skipped) = some (n, k) ∧
      rest = body_start buf pos name_len skipped + k ∧
      x = { HdrField.zero with
        type := t
        name := ⟨.msg pos, name_len⟩
        body := ⟨.msg (body_start buf pos name_len skipped), trim_r buf (body_start buf pos name_len skipped) k⟩
        len := short ((rest - pos : ℕ) : ℤ)
        parsed := List.range' (f + 1) n } := by
  rw [next_hdr] at eq
  split_ifs at eq with hc
  dsimp only at eq
  split_ifs at eq with hk
  obtain ⟨t, name_len, skipped, objs, k, -, -, hb, hg⟩ := get_hdr_field_good hk
  rw [hg] at eq hk
  cases eq
  exact ⟨t, name_len, skipped, k, hk, hb, rfl, rfl⟩

theorem next_hdr_spec {f pos rest n : ℕ} {x : HdrField} (eq : next_hdr P past buf f pos = some (x, rest, n)) :
    pos < rest ∧ x.type.hookKind ≠ .bad ∧ x.parsed = List.range' (f + 1) n ∧
      (x.type = .VIA → 0 < n) ∧ x.core = x := by
  obtain ⟨t, name_len, skipped, k, hk, hb, rfl, rfl⟩ := next_hdr_some eq
  have := body_start_gt buf pos name_len skipped
  refine ⟨by omega, hk, rfl, fun ht => ?_, core_of_unlinked rfl rfl rfl rfl⟩
  dsimp only at ht
  rw [ht] at hb
  exact parse_body_via hb

theorem Scanned.mem {f : ℕ} {x : HdrField} (hsc : Scanned P past buf s hs e)
    (hm : (f, x) ∈ hs) : x.type.hookKind ≠ .bad ∧
      ∃ n, x.parsed = List.range' (f + 1) n ∧ (x.type = .VIA → 0 < n) := by
  induction hsc with
  | nil s => exact absurd hm (not_mem_nil)
  | cons eq _ ih =>
    rcases mem_cons.1 hm with h | h
    · cases h
      obtain ⟨-, hk, hp, hv, -⟩ := next_hdr_spec eq
      exact ⟨hk, _, hp, hv⟩
    · exact ih h

end Scan

def vias (m : SipMsg) (L : List ℕ) : List ℕ :=
  (m.ofType .VIA L).flatMap fun h => (m.field h).parsed

/-- **A message being parsed**: its list is well formed, the headers are the ones scanned from `s`
to `e`, and `via1` and `via2` are the first Via bodies. -/
structure Parsing (P : Parsers) (past : UInt8) (s : ℕ × ℕ) (m : SipMsg) (L : List ℕ)
    (e : ℕ × ℕ) : Prop where
  wf : WellFormed m L
  scanned : Scanned P past m.buf s (L.map fun h => (h, (m.field h).core)) e
  via1 : m.via1 = (vias m L).headD 0
  via2 : m.via2 = ((vias m L).drop 1).headD 0
  fresh_pos : 0 < m.fresh
  objs : ∀ o, m.obj o = true ↔ ∃ h ∈ L, o ∈ (m.field h).parsed

def Untouched (m m' : SipMsg) : Prop :=
  m'.buf = m.buf ∧ m'.first_line = m.first_line ∧ m'.new_len = m.new_len ∧
    m'.new_uri = m.new_uri ∧ m'.blk = m.blk

/-- The bits of `parsed_flag` set for a header; that of `VIA2` depends on the Vias before. -/
def flagOf (x : HdrField) (i : ℕ) : Bool := x.type.hookKind ≠ .none ∧ i = x.type.ctorIdx

theorem getLsbD_T2F {t : HdrType} (ht : t.hookKind ≠ .bad) (i : ℕ) :
    (HDR_T2F t).getLsbD i = decide (i = t.ctorIdx) := by
  have h1 : t ≠ .EOH := by
    rintro rfl
    exact ht rfl
  have h2 : t.ctorIdx < 64 := by cases t <;> decide
  rw [HDR_T2F, if_neg h1, BitVec.getLsbD_twoPow]
  by_cases hi : i = t.ctorIdx
  · simp [hi, h2]
  · simp [hi, Ne.symm hi]

/-- **`note_via`** for a first, second or later Via header, when the hook is set already. -/
theorem note_via_spec {V objs : List ℕ} (h1 : m.via1 = V.headD 0)
    (h2 : m.via2 = (V.drop 1).headD 0) (hV : ∀ o ∈ V, o ≠ 0) (ho : objs ≠ [])
    (hh : V = [] → m.hook .VIA = h) :
    ∃ flag, note_via m h objs = some { m with
        via1 := (V ++ objs).headD 0, via2 := ((V ++ objs).drop 1).headD 0, parsed_flag := flag } ∧
      ∀ i ≠ 2, flag.getLsbD i = m.parsed_flag.getLsbD i := by
  have hflag : ∀ i ≠ 2, (m.parsed_flag ||| HDR_T2F .VIA2).getLsbD i = m.parsed_flag.getLsbD i := by
    intro i hi
    rw [BitVec.getLsbD_or, HDR_T2F, if_neg (by decide), BitVec.getLsbD_twoPow]
    have : ¬ HdrType.VIA2.ctorIdx = i := fun e => hi e.symm
    rw [decide_eq_false this, Bool.and_false, Bool.or_false]
  rcases V with - | ⟨v, - | ⟨w, V⟩⟩
  · obtain ⟨o, os, rfl⟩ := exists_cons_of_ne_nil ho
    have hset : m.setHook .VIA h = m := by
      rw [SipMsg.setHook, ← hh rfl, update_eq_self]
    rw [headD_nil] at h1
    unfold note_via
    rw [if_pos h1]
    rw [hset]
    cases os with
    | nil =>
      refine ⟨m.parsed_flag, ?_, fun _ _ => rfl⟩
      rw [drop_nil, headD_nil] at h2
      rw [← h2]
      rfl
    | cons w ws => exact ⟨_, rfl, hflag⟩
  · have hv : m.via1 ≠ 0 := by
      rw [h1]
      exact hV v (by simp)
    have hw : m.via2 = 0 := h2
    refine ⟨m.parsed_flag ||| HDR_T2F .VIA2, ?_, hflag⟩
    have e1 : ([v] ++ objs).headD 0 = m.via1 := h1.symm
    unfold note_via
    rw [if_neg hv, if_pos hw, e1]
    rfl
  · have hv : m.via1 ≠ 0 := by
      rw [h1]
      exact hV v (by simp)
    have hw : m.via2 ≠ 0 := by
      rw [h2]
      exact hV w (by simp)
    refine ⟨m.parsed_flag, ?_, fun _ _ => rfl⟩
    unfold note_via
    rw [if_neg hv, if_neg hw]
    have e1 : (v :: w :: V ++ objs).headD 0 = m.via1 := h1.symm
    have e2 : ((v :: w :: V ++ objs).drop 1).headD 0 = m.via2 := h2.symm
    rw [e1, e2]

theorem ofType_concat (m : SipMsg) (t : HdrType) (L : List ℕ) (h : ℕ) :
    m.ofType t (L ++ [h]) = m.ofType t L ++ if (m.field h).type = t then [h] else [] := by
  rw [ofType, ofType, filter_append]
  by_cases ht : (m.field h).type = t
  · simp [ht]
  · simp [ht]

theorem vias_concat (m : SipMsg) (L : List ℕ) (h : ℕ) : vias m (L ++ [h]) =
      vias m L ++ if (m.field h).type = .VIA then (m.field h).parsed else [] := by
  rw [vias, ofType_concat, flatMap_append, vias]
  by_cases ht : (m.field h).type = .VIA
  · rw [if_pos ht, if_pos ht, flatMap_singleton]
  · rw [if_neg ht, if_neg ht, flatMap_nil]

theorem vias_congr (hf : ∀ k ∈ L, (m'.field k).core = (m.field k).core) : vias m' L = vias m L := by
  have hT : m'.ofType .VIA L = m.ofType .VIA L := ofType_congr fun k hk => by
    have := congrArg HdrField.type (hf k hk)
    exact this
  rw [vias, vias, hT]
  refine flatMap_congr fun k hk => ?_
  have := congrArg HdrField.parsed (hf k (mem_ofType.1 hk).1)
  exact this

/-- **The switch of `parse_headers`** for a good header. -/
theorem note_hdr_spec (hk : Hooked m L) (ha : ∀ k ∈ L, k ≠ 0 ∧ k < m.fresh ∧ m.Live k)
    (hnd : L.Nodup) (h0 : h ≠ 0) (hl : m.Live h) (hL : h ∉ L) (hc : (m.field h).core = m.field h)
    (hbad : (m.field h).type.hookKind ≠ .bad)
    (hvia : ∀ k ∈ L ++ [h], (m.field k).type = .VIA → (m.field k).parsed ≠ [])
    (hV : ∀ o ∈ vias m L, o ≠ 0) (h1 : m.via1 = (vias m L).headD 0)
    (h2 : m.via2 = ((vias m L).drop 1).headD 0) :
    ∃ m', note_hdr m h (m.field h) = some m' ∧ SameHdrs HdrField.strip m m' ∧
      (∃ hdr hook flag v1 v2, m' = { m with
        hdr := hdr, hook := hook, parsed_flag := flag, via1 := v1, via2 := v2 }) ∧
      Hooked m' (L ++ [h]) ∧ m'.via1 = (vias m (L ++ [h])).headD 0 ∧
      m'.via2 = ((vias m (L ++ [h])).drop 1).headD 0 ∧
      ∀ i ≠ 2, m'.parsed_flag.getLsbD i = (m.parsed_flag.getLsbD i || flagOf (m.field h) i) := by
  obtain ⟨m2, e2, f2, hk2⟩ := link_hook_spec (L ++ [h]) hk ha hnd h0 hl hL
    (by rw [← hc]; rfl) (by rw [← hc]; rfl) hbad
    (by rw [ofType_concat, if_pos rfl])
    (fun u hu => by rw [ofType_concat, if_neg (Ne.symm hu), append_nil])
  obtain ⟨hs2, hdr2, hook2, rfl⟩ := f2
  obtain ⟨t, ht⟩ : ∃ t, t = (m.field h).type := ⟨_, rfl⟩
  -- the flag of the type
  obtain ⟨flag, hflag, hbits⟩ : ∃ flag : BitVec 64,
      (if (m.field h).type.hookKind = .none then { m with hdr := hdr2, hook := hook2 } else
        { m with hdr := hdr2, hook := hook2, parsed_flag := m.parsed_flag ||| HDR_T2F (m.field h).type }) =
          { m with hdr := hdr2, hook := hook2, parsed_flag := flag } ∧
      ∀ i, flag.getLsbD i = (m.parsed_flag.getLsbD i || flagOf (m.field h) i) := by
    by_cases hn : (m.field h).type.hookKind = .none
    · refine ⟨m.parsed_flag, by rw [if_pos hn], fun i => ?_⟩
      simp [flagOf, hn]
    · refine ⟨_, by rw [if_neg hn], fun i => ?_⟩
      rw [BitVec.getLsbD_or, getLsbD_T2F hbad]
      simp [flagOf, hn]
  by_cases hv : (m.field h).type = .VIA
  · have hvne := hvia h (by simp) hv
    have hnil : vias m L = [] → hook2 .VIA = h := by
      intro hnil
      have hno : m.ofType .VIA L = [] := by
        by_contra hne
        obtain ⟨k, hk⟩ := exists_mem_of_ne_nil _ hne
        have hk' := mem_ofType.1 hk
        refine hvia k (mem_append_left _ hk'.1) hk'.2 ?_
        exact flatMap_eq_nil_iff.1 hnil k hk
      have hhook := (hk2.siblings .VIA rfl).hook_eq
      have hsame : ({ m with hdr := hdr2, hook := hook2 } : SipMsg).ofType .VIA (L ++ [h]) =
          m.ofType .VIA (L ++ [h]) :=
        SibFrame.ofType_eq ⟨hs2, hdr2, hook2, rfl⟩ .VIA (L ++ [h])
      rw [hsame, ofType_concat, hno, if_pos hv] at hhook
      exact hhook
    obtain ⟨flag', e', hb'⟩ := note_via_spec (m := { m with
      hdr := hdr2, hook := hook2, parsed_flag := flag }) (h := h) h1 h2 hV hvne hnil
    have hvias : vias m (L ++ [h]) = vias m L ++ (m.field h).parsed := by
      rw [vias_concat, if_pos hv]
    refine ⟨{ m with hdr := hdr2, hook := hook2, parsed_flag := flag',
                     via1 := (vias m L ++ (m.field h).parsed).headD 0,
                     via2 := ((vias m L ++ (m.field h).parsed).drop 1).headD 0 },
      ?_, hs2, ⟨hdr2, hook2, flag', _, _, rfl⟩, ⟨hk2.single, hk2.siblings⟩, ?_, ?_, ?_⟩
    · rw [note_hdr, e2, bind_eq_bind, bind_some, if_pos hv]
      rw [hflag, e']
    · rw [hvias]
    · rw [hvias]
    · intro i hi
      rw [← hbits]
      exact hb' i hi
  · have hvias : vias m (L ++ [h]) = vias m L := by
      rw [vias_concat, if_neg hv, append_nil]
    refine ⟨{ m with hdr := hdr2, hook := hook2, parsed_flag := flag }, ?_, hs2,
      ⟨hdr2, hook2, flag, m.via1, m.via2, rfl⟩, ⟨hk2.single, hk2.siblings⟩, ?_, ?_,
      fun i _ => hbits i⟩
    · rw [note_hdr, e2, bind_eq_bind, bind_some, if_neg hv]
      rw [hflag]
    · rw [hvias]
      exact h1
    · rw [hvias]
      exact h2

section Parsing

variable {P : Parsers} {past : UInt8} {s e : ℕ × ℕ} {x : HdrField} {rest n : ℕ}

theorem Parsing.scanned_mem (hp : Parsing P past s m L e) {k : ℕ} (hk : k ∈ L) :
    (m.field k).type.hookKind ≠ .bad ∧
      ∃ n, (m.field k).parsed = List.range' (k + 1) n ∧ ((m.field k).type = .VIA → 0 < n) := by
  have hm : (k, (m.field k).core) ∈ L.map fun h => (h, (m.field h).core) :=
    List.mem_map.2 ⟨k, hk, rfl⟩
  have := hp.scanned.mem hm
  exact this

theorem parsed_ne_nil {k n : ℕ} (h : (m.field k).parsed = List.range' (k + 1) n) (hn : 0 < n) :
    (m.field k).parsed ≠ [] := by
  rw [h]
  intro h0
  have := congrArg List.length h0
  rw [length_range', length_nil] at this
  omega

/-- What a list of headers that only grew by parsing is, wherever they were scanned. -/
structure Listed (m : SipMsg) (L : List ℕ) : Prop where
  wf : WellFormed m L
  content : ∀ k ∈ L, (m.field k).type.hookKind ≠ .bad ∧
    ∃ n, (m.field k).parsed = List.range' (k + 1) n ∧ ((m.field k).type = .VIA → 0 < n)
  via1 : m.via1 = (vias m L).headD 0
  via2 : m.via2 = ((vias m L).drop 1).headD 0
  fresh_pos : 0 < m.fresh
  objs : ∀ o, m.obj o = true ↔ ∃ h ∈ L, o ∈ (m.field h).parsed

theorem Parsing.listed (hp : Parsing P past s m L e) : Listed m L :=
  ⟨hp.wf, fun _ hk => hp.scanned_mem hk, hp.via1, hp.via2, hp.fresh_pos, hp.objs⟩

/-- **One turn of the loop** appends the next header. -/
theorem Listed.append {pos : ℕ} (hp : Listed m L) (eq : next_hdr P past m.buf m.fresh pos = some (x, rest, n)) :
    ∃ m1 m', note_hdr ((m.newHdr x).newObjs n) m.fresh x = some m1 ∧
      append_hdr m1 m.fresh = some m' ∧ Listed m' (L ++ [m.fresh]) ∧ m'.fresh = m.fresh + 1 + n ∧
      Untouched m m' ∧ m'.unparsed = m.unparsed ∧
      (∀ k ∈ L, (m'.field k).core = (m.field k).core) ∧ (m'.field m.fresh).core = x ∧
      ∀ i ≠ 2, m'.parsed_flag.getLsbD i = (m.parsed_flag.getLsbD i || flagOf x i) := by
  obtain ⟨hlt, hbad, hpar, hviax, hcore⟩ := next_hdr_spec eq
  obtain ⟨h, hh⟩ : ∃ h, h = m.fresh := ⟨_, rfl⟩
  obtain ⟨m0, hm0⟩ : ∃ m0, m0 = (m.newHdr x).newObjs n := ⟨_, rfl⟩
  have hwf := hp.wf
  have hL : h ∉ L := fun hm => by
    have := (hwf.ids h hm).2
    omega
  have hne : ∀ k ∈ L, k ≠ h := fun k hk e => hL (e ▸ hk)
  have hfield : ∀ k, m0.field k = if k = h then x else m.field k := by
    intro k
    rw [hm0, hh]
    exact field_set m m.fresh x k
  have hfL : ∀ k ∈ L, m0.field k = m.field k := fun k hk => by rw [hfield, if_neg (hne k hk)]
  have hfh : m0.field h = x := by rw [hfield, if_pos rfl]
  have hlive : ∀ k, m0.Live k ↔ k = h ∨ m.Live k := by
    intro k
    rw [hm0, hh]
    exact live_set
  have hfresh : m0.fresh = h + 1 + n := by rw [hm0, hh]; rfl
  have halive : ∀ k ∈ L, k ≠ 0 ∧ k < m0.fresh ∧ m0.Live k := by
    intro k hk
    have := hwf.ids k hk
    exact ⟨this.1, by omega, (hlive k).2 (.inr ((hwf.live k).1 hk))⟩
  have h0 : h ≠ 0 := by
    have := hp.fresh_pos
    omega
  have hhook0 : Hooked m0 L := hwf.hooked.congr (by rw [hm0]; rfl) fun k hk => by rw [hfL k hk]
  have hring0 : Ring m0.nxt m0.prv 0 L := by
    refine Chain.congr hwf.list (fun y hy => ?_) fun y hy => ?_
    · by_cases hy0 : y = 0
      · rw [nxt, nxt, if_pos hy0, if_pos hy0, hm0]
        rfl
      · rw [nxt, nxt, if_neg hy0, if_neg hy0, hfL y ((mem_cons.1 hy).resolve_left hy0)]
    · by_cases hy0 : y = 0
      · rw [prv, prv, if_pos hy0, if_pos hy0, hm0]
        rfl
      · rw [prv, prv, if_neg hy0, if_neg hy0, hfL y (hy.resolve_right hy0)]
  have hvias0 : vias m0 L = vias m L := vias_congr fun k hk => by rw [hfL k hk]
  have hviaL : ∀ k ∈ L, (m0.field k).type = .VIA → (m0.field k).parsed ≠ [] := by
    intro k hk
    rw [hfL k hk]
    intro hv
    obtain ⟨-, j, hj, hjv⟩ := hp.content k hk
    exact parsed_ne_nil hj (hjv hv)
  have hviah : x.type = .VIA → x.parsed ≠ [] := by
    intro hv
    rw [hpar]
    intro hnil
    have := congrArg List.length hnil
    rw [length_range', length_nil] at this
    have := hviax hv
    omega
  have hV0 : ∀ o ∈ vias m0 L, o ≠ 0 := by
    intro o ho
    rw [hvias0, vias] at ho
    obtain ⟨k, hk, ho⟩ := mem_flatMap.1 ho
    obtain ⟨-, j, hj, -⟩ := hp.content k (mem_ofType.1 hk).1
    rw [hj, mem_range'_1] at ho
    omega
  -- the switch
  obtain ⟨m1, e1, hs1, ⟨hdr1, hook1, flag1, v1, v2, hm1⟩, hk1, hv1, hv2, hfl⟩ :=
    note_hdr_spec (m := m0) (h := h) hhook0 halive hwf.nodup h0 ((hlive h).2 (.inl rfl)) hL
      (by rw [hfh]; exact hcore) (by rw [hfh]; exact hbad)
      (fun k hk => by
        rcases mem_append.1 hk with hk | hk
        · exact hviaL k hk
        · rw [mem_singleton.1 hk, hfh]
          exact hviah)
      hV0 (by rw [hvias0, ← hp.via1, hm0]; rfl) (by rw [hvias0, ← hp.via2, hm0]; rfl)
  rw [hfh] at e1 hfl
  have hring1 : Ring m1.nxt m1.prv 0 L := by
    have hn : m1.nxt = m0.nxt := by
      funext k
      have := congrArg HdrField.next (hs1.field_eq k)
      rw [nxt, nxt, hm1] at *
      by_cases hk0 : k = 0
      · rw [if_pos hk0, if_pos hk0]
      · rw [if_neg hk0, if_neg hk0]
        exact this
    have hpr : m1.prv = m0.prv := by
      funext k
      have := congrArg HdrField.prev (hs1.field_eq k)
      rw [prv, prv, hm1] at *
      by_cases hk0 : k = 0
      · rw [if_pos hk0, if_pos hk0]
      · rw [if_neg hk0, if_neg hk0]
        exact this
    rwa [hn, hpr]
  have hcore1 : ∀ k, (m1.field k).core = (m0.field k).core := fun k =>
    congrArg HdrField.unlist (hs1.field_eq k)
  have hun : (m1.field h).next = 0 ∧ (m1.field h).prev = 0 := by
    have := hs1.field_eq h
    rw [hfh] at this
    constructor
    · have := congrArg HdrField.next this
      rw [← hcore] at this
      exact this
    · have := congrArg HdrField.prev this
      rw [← hcore] at this
      exact this
  -- the list
  obtain ⟨m', e', hl', hring'⟩ := append_spec hring1 hwf.nodup
    (fun k hk => ⟨(halive k hk).1, (hs1.live_iff k).2 (halive k hk).2.2⟩) h0
    ((hs1.live_iff h).2 ((hlive h).2 (.inl rfl))) hL hun.1 hun.2
  have hlf := hl'
  obtain ⟨hsl, hdr2, fst2, lst2, hm'⟩ := hl'
  have hcore' : ∀ k, (m'.field k).core = (m0.field k).core := fun k => (hlf.core_eq k).trans (hcore1 k)
  have htype' : ∀ k, (m'.field k).type = (m0.field k).type := fun k => by
    have := congrArg HdrField.type (hcore' k)
    exact this
  have hparsed' : ∀ k, (m'.field k).parsed = (m0.field k).parsed := fun k => by
    have := congrArg HdrField.parsed (hcore' k)
    exact this
  have hfr' : m'.fresh = h + 1 + n := by
    rw [hm', hm1]
    exact hfresh
  have hbuf : m'.buf = m.buf := by rw [hm', hm1, hm0]; rfl
  have hvias' : vias m' (L ++ [h]) = vias m0 (L ++ [h]) := vias_congr fun k _ => hcore' k
  rw [← hh]
  refine ⟨m1, m', by rw [← hm0]; exact e1, e', ?_, hfr', ?_, by rw [hm', hm1, hm0]; rfl, ?_, ?_, ?_⟩
  · refine ⟨⟨hring', ?_, ?_, ?_, ?_⟩, ?_, ?_, ?_, ?_, ?_⟩
    · intro k
      rw [hlf.live_iff, hs1.live_iff, hlive, mem_append, mem_singleton, hwf.live k]
      exact or_comm
    · refine nodup_append.2 ⟨hwf.nodup, nodup_singleton h, ?_⟩
      intro a ha b hb
      rw [mem_singleton.1 hb]
      exact hne a ha
    · intro k hk
      rcases mem_append.1 hk with hk | hk
      · have := hwf.ids k hk
        exact ⟨this.1, by omega⟩
      · rw [mem_singleton.1 hk]
        exact ⟨h0, by omega⟩
    · exact hk1.congr hlf.hook_eq fun k _ => hlf.unlist_eq k
    · intro k hk
      rw [htype', hparsed']
      rcases mem_append.1 hk with hk | hk
      · rw [hfL k hk]
        exact hp.content k hk
      · rw [mem_singleton.1 hk, hfh]
        exact ⟨hbad, n, by rw [hh]; exact hpar, hviax⟩
    · rw [hvias', ← hv1, hm']
    · rw [hvias', ← hv2, hm']
    · omega
    · intro o
      have hobj : m'.obj o = m0.obj o := by rw [hm', hm1]
      have hobj0 : m0.obj o = (m.obj o || (decide (h + 1 ≤ o) && decide (o < h + 1 + n))) := by
        rw [hm0, hh]
        rfl
      rw [hobj, hobj0, Bool.or_eq_true, Bool.and_eq_true, decide_eq_true_iff, decide_eq_true_iff, hp.objs o]
      constructor
      · rintro (⟨k, hk, ho⟩ | ⟨h1, h2⟩)
        · exact ⟨k, mem_append_left _ hk, by rwa [hparsed', hfL k hk]⟩
        · refine ⟨h, by simp, ?_⟩
          rw [hparsed', hfh, hpar, ← hh, mem_range'_1]
          exact ⟨h1, h2⟩
      · rintro ⟨k, hk, ho⟩
        rw [hparsed'] at ho
        rcases mem_append.1 hk with hk | hk
        · rw [hfL k hk] at ho
          exact .inl ⟨k, hk, ho⟩
        · rw [mem_singleton.1 hk, hfh, hpar, ← hh, mem_range'_1] at ho
          exact .inr ho
  · refine ⟨hbuf, ?_, ?_, ?_, ?_⟩
    all_goals
      rw [hm', hm1, hm0]
      rfl
  · intro k hk
    rw [hcore', hfL k hk]
  · rw [hcore', hfh, hcore]
  · intro i hi
    have : m'.parsed_flag = m1.parsed_flag := by rw [hm']
    rw [this, hfl i hi, hm0]
    rfl

theorem Parsing.extend (hp : Parsing P past s m L e) (hf : m.fresh = e.1)
    (eq : next_hdr P past m.buf m.fresh e.2 = some (x, rest, n)) (hl : Listed m' (L ++ [m.fresh]))
    (hfr : m'.fresh = m.fresh + 1 + n) (hu : Untouched m m')
    (hL : ∀ k ∈ L, (m'.field k).core = (m.field k).core) (hx : (m'.field m.fresh).core = x) :
    Parsing P past s m' (L ++ [m.fresh]) (m'.fresh, rest) := by
  refine ⟨hl.wf, ?_, hl.via1, hl.via2, hl.fresh_pos, hl.objs⟩
  have hmap : (L ++ [m.fresh]).map (fun k => (k, (m'.field k).core)) =
      L.map (fun k => (k, (m.field k).core)) ++ [(e.1, x)] := by
    rw [map_append, map_singleton, hx, hf]
    congr 1
    exact map_congr_left fun k hk => by rw [hL k hk]
  rw [hmap, hfr, hf, hu.1]
  exact hp.scanned.snoc (by rw [← hf]; exact eq)

theorem Listed.mono (hp : Listed m L) {f : ℕ} (hf : m.fresh ≤ f) (g : BitVec 64) (u : Option ℕ) :
    Listed { m with fresh := f, parsed_flag := g, unparsed := u } L where
  wf := ⟨hp.wf.list, hp.wf.live, hp.wf.nodup,
    fun k hk => ⟨(hp.wf.ids k hk).1, Nat.lt_of_lt_of_le (hp.wf.ids k hk).2 hf⟩,
    ⟨hp.wf.hooked.single, hp.wf.hooked.siblings⟩⟩
  content := hp.content
  via1 := hp.via1
  via2 := hp.via2
  fresh_pos := Nat.lt_of_lt_of_le hp.fresh_pos hf
  objs := hp.objs

theorem Parsing.mono (hp : Parsing P past s m L e) {f : ℕ} (hf : m.fresh ≤ f) (g : BitVec 64) (u : Option ℕ) :
    Parsing P past s { m with fresh := f, parsed_flag := g, unparsed := u } L e :=
  have hl := hp.listed.mono hf g u
  ⟨hl.wf, hp.scanned, hl.via1, hl.via2, hl.fresh_pos, hl.objs⟩

theorem WellFormed.give_back (hw : WellFormed m L) (x : HdrField) :
    ((m.newHdr x).newObjs 0).freeHdr m.fresh = { m with fresh := m.fresh + 1 } := by
  have hnone : m.hdr m.fresh = none := by
    by_contra hne
    exact Nat.lt_irrefl _ (hw.ids _ ((hw.live _).2 hne)).2
  have hhdr : Function.update (Function.update m.hdr m.fresh (some x)) m.fresh none = m.hdr := by
    rw [update_idem, ← hnone, update_eq_self]
  have hobj : (fun o => m.obj o || (decide (m.fresh + 1 ≤ o) && decide (o < m.fresh + 1 + 0))) = m.obj := by
    funext o
    have : ¬ (m.fresh + 1 ≤ o ∧ o < m.fresh + 1) := by omega
    rw [← Bool.decide_and, Nat.add_zero, decide_eq_false this, Bool.or_false]
  have hstate : ((m.newHdr x).newObjs 0).freeHdr m.fresh = { m with
      hdr := Function.update (Function.update m.hdr m.fresh (some x)) m.fresh none
      obj := fun o => m.obj o || (decide (m.fresh + 1 ≤ o) && decide (o < m.fresh + 1 + 0))
      fresh := m.fresh + 1 } := rfl
  rw [hstate, hhdr, hobj]

/-- The end of the headers is at `pos`. -/
def AtEoh (P : Parsers) (past : UInt8) (buf : Str) (pos : ℕ) : Prop :=
  pos < buf.length ∧ have_header past true (buf.drop pos) ∧
    ∀ f, (get_hdr_field P buf f pos).1.type = .EOH

/-- No call appends a header at `pos`. -/
def Stuck (P : Parsers) (past : UInt8) (buf : Str) (pos : ℕ) : Prop :=
  ∀ f, next_hdr P past buf f pos = none

theorem stuck_of_bad {buf : Str} {f pos : ℕ}
    (hbad : (get_hdr_field P buf f pos).1.type.hookKind = .bad) : Stuck P past buf pos := by
  intro f'
  rw [next_hdr]
  dsimp only
  rw [get_hdr_field_type P buf (f' + 1) f, if_pos hbad]
  exact ite_self _

/-- The flags after a loop that started with the flags of `m` and the headers `L`. -/
def Flagged (P : Parsers) (past : UInt8) (m : SipMsg) (L : List ℕ) (m' : SipMsg) (L' : List ℕ)
    (pos : ℕ) : Prop :=
  (m'.parsed_flag = BitVec.allOnes 64 ∧ AtEoh P past m'.buf pos) ∨
    ∀ i ≠ 2, m'.parsed_flag.getLsbD i = true ↔
      m.parsed_flag.getLsbD i = true ∨ ∃ h ∈ L', h ∉ L ∧ flagOf (m'.field h) i = true

theorem flagOf_congr {x y : HdrField} (h : x.type = y.type) : flagOf x = flagOf y := by
  funext i
  rw [flagOf, flagOf, h]

/-- What a call of `parse_headers` leaves: the message parsed further, up to where nothing can be
appended or all that was asked for is found. -/
structure Outcome (P : Parsers) (past : UInt8) (s : ℕ × ℕ) (flags : BitVec 64) (m : SipMsg)
    (L : List ℕ) (m' : SipMsg) (ret : ℤ) (L' : List ℕ) (e' : ℕ × ℕ) : Prop where
  parsing : Parsing P past s m' L' e'
  same : Untouched m m'
  mono : L <+: L'
  types : ∀ k ∈ L, (m'.field k).type = (m.field k).type
  resume : 0 ≤ ret → m'.unparsed = some e'.2 ∧ (m'.fresh = e'.1 ∨ Stuck P past m'.buf e'.2)
  done : next_hdr P past m.buf e'.1 e'.2 = none ∨ 0 ≤ ret ∧ flags &&& m'.parsed_flag = flags
  flags : 0 ≤ ret → Flagged P past m L m' L' e'.2

/-- What a turn of the loop can do that looks at the line at `tmp`: append a header and go on, or
stop at the empty line, at a bad header, out of memory, or at a header that is not complete. -/
theorem loop_turn (P : Parsers) (past : UInt8) (flags : BitVec 64) (fuel : ℕ) {tmp : ℕ} (hl : Listed m L)
    (hgo : tmp < m.buf.length ∧ flags &&& m.parsed_flag ≠ flags) :
    (∃ x rest n m', next_hdr P past m.buf m.fresh tmp = some (x, rest, n) ∧
        parse_headers_loop P past flags (fuel + 1) m tmp = parse_headers_loop P past flags fuel m' rest ∧
        Listed m' (L ++ [m.fresh]) ∧ m'.fresh = m.fresh + 1 + n ∧ Untouched m m' ∧
        m'.unparsed = m.unparsed ∧ (∀ k ∈ L, (m'.field k).core = (m.field k).core) ∧
        (m'.field m.fresh).core = x ∧
        ∀ i ≠ 2, m'.parsed_flag.getLsbD i = (m.parsed_flag.getLsbD i || flagOf x i)) ∨
      (AtEoh P past m.buf tmp ∧ Stuck P past m.buf tmp ∧
        parse_headers_loop P past flags (fuel + 1) m tmp =
          some ({ m with fresh := m.fresh + 1, parsed_flag := BitVec.allOnes 64,
                         unparsed := some tmp }, 0)) ∨
      (Stuck P past m.buf tmp ∧ parse_headers_loop P past flags (fuel + 1) m tmp =
        some ({ m with fresh := m.fresh + 1 }, -1)) ∨
      (next_hdr P past m.buf m.fresh tmp = none ∧
        parse_headers_loop P past flags (fuel + 1) m tmp = some (m, -1)) ∨
      ¬ have_header past true (m.buf.drop tmp) ∧ parse_headers_loop P past flags (fuel + 1) m tmp =
          some ({ m with unparsed := some tmp }, 1) := by
  rw [parse_headers_loop, if_neg (not_not.2 hgo)]
  by_cases hh : have_header past true (m.buf.drop tmp)
  · rw [if_neg (not_not.2 hh)]
    by_cases hav : P.avail m.fresh
    · rw [if_neg (not_not.2 hav)]
      dsimp only
      by_cases hbad : (get_hdr_field P m.buf (m.fresh + 1) tmp).1.type.hookKind = .bad
      · have hz := congrArg Prod.snd (get_hdr_field_bad hbad)
        dsimp only at hz
        have hgb := hl.wf.give_back (get_hdr_field P m.buf (m.fresh + 1) tmp).1
        by_cases heoh : (get_hdr_field P m.buf (m.fresh + 1) tmp).1.type = .EOH
        · -- the empty line
          have hones : ∀ g : BitVec 64, g ||| HDR_T2F .EOH = BitVec.allOnes 64 := by
            intro g
            rw [HDR_T2F, if_pos rfl, BitVec.or_allOnes]
          rw [if_pos heoh, hz, hgb, hones]
          exact .inr (.inl ⟨⟨hgo.1, hh, fun f =>
            (get_hdr_field_type P m.buf f (m.fresh + 1) tmp).trans heoh⟩, stuck_of_bad hbad, rfl⟩)
        · -- a bad header
          rw [if_neg heoh, if_pos hbad, hz, hgb]
          exact .inr (.inr (.inl ⟨stuck_of_bad hbad, rfl⟩))
      · -- one more header
        have heoh : (get_hdr_field P m.buf (m.fresh + 1) tmp).1.type ≠ .EOH := fun he =>
          hbad (by rw [he]; rfl)
        rw [if_neg heoh, if_neg hbad]
        have hnext : next_hdr P past m.buf m.fresh tmp =
            some (get_hdr_field P m.buf (m.fresh + 1) tmp) := by
          rw [next_hdr, if_pos ⟨hgo.1, hh, hav⟩]
          dsimp only
          rw [if_neg hbad]
        obtain ⟨x, hx⟩ : ∃ x, x = get_hdr_field P m.buf (m.fresh + 1) tmp := ⟨_, rfl⟩
        rw [← hx] at hnext ⊢
        obtain ⟨m1, m', e1, e2, hl', hfr, hsm, hun, hty, htx, hfl⟩ := hl.append hnext
        refine .inl ⟨x.1, x.2.1, x.2.2, m', hnext, ?_, hl', hfr, hsm, hun, hty, htx, hfl⟩
        rw [e1, bind_eq_bind, bind_some, e2, bind_some]
    · -- out of memory
      rw [if_pos hav]
      exact .inr (.inr (.inr (.inl
        ⟨by rw [next_hdr, if_neg fun h => hav h.2.2], rfl⟩)))
  · -- the header is not complete
    rw [if_pos hh]
    exact .inr (.inr (.inr (.inr ⟨hh, rfl⟩)))

/-- **The loop of `parse_headers`.** -/
theorem parse_headers_loop_spec (flags : BitVec 64) {fuel : ℕ} (hp : Parsing P past s m L e)
    (hf : m.fresh = e.1 ∨ Stuck P past m.buf e.2) (hfuel : m.buf.length - e.2 < fuel) :
    ∃ m' ret L' e', parse_headers_loop P past flags fuel m e.2 = some (m', ret) ∧
      Outcome P past s flags m L m' ret L' e' := by
  induction fuel generalizing m L e with
  | zero => omega
  | succ fuel ih =>
    have hsame : Untouched m m := ⟨rfl, rfl, rfl, rfl, rfl⟩
    have hkeep : ∀ {m' : SipMsg}, m'.parsed_flag = m.parsed_flag → Flagged P past m L m' L e.2 := by
      intro m' hpf
      refine .inr fun i _ => ?_
      rw [hpf]
      constructor
      · exact .inl
      · rintro (h | ⟨k, hk, hn, -⟩)
        · exact h
        · exact absurd hk hn
    by_cases hgo : e.2 < m.buf.length ∧ flags &&& m.parsed_flag ≠ flags
    · rcases loop_turn P past flags fuel hp.listed hgo with
        ⟨x, rest, n, m', hnext, eloop, hl', hfr, hsm, -, hcore, hx, hfl⟩ | ⟨hat, hst, eloop⟩ |
        ⟨hst, eloop⟩ | ⟨hnone, eloop⟩ | ⟨hh, eloop⟩
      · -- one more header
        have hfe : m.fresh = e.1 := by
          rcases hf with h | h
          · exact h
          · rw [h] at hnext
            exact absurd hnext (by simp)
        have hp' := hp.extend hfe hnext hl' hfr hsm hcore hx
        have hlt : e.2 < rest := (next_hdr_spec hnext).1
        have hbuf : m'.buf = m.buf := hsm.1
        have hty : ∀ k ∈ L, (m'.field k).type = (m.field k).type := fun k hk => by
          have := congrArg HdrField.type (hcore k hk)
          exact this
        have htx : (m'.field m.fresh).type = x.type := by
          have := congrArg HdrField.type hx
          exact this
        obtain ⟨m2, ret, L2, e', hloop, ho⟩ := ih (m := m') (e := (m'.fresh, rest)) hp'
          (.inl rfl) (by rw [hbuf]; dsimp only; omega)
        refine ⟨m2, ret, L2, e', eloop.trans hloop, ?_⟩
        obtain ⟨s1, s2, s3, s4, s5⟩ := hsm
        obtain ⟨t1, t2, t3, t4, t5⟩ := ho.same
        have hfresh : m.fresh ∉ L := fun hm => Nat.lt_irrefl _ (hp.wf.ids _ hm).2
        refine ⟨ho.parsing, ⟨t1.trans s1, t2.trans s2, t3.trans s3, t4.trans s4,
          t5.trans s5⟩, (prefix_append L _).trans ho.mono, ?_, ho.resume, ?_, ?_⟩
        · intro k hk
          rw [ho.types k (mem_append_left _ hk), hty k hk]
        · rw [← hbuf]
          exact ho.done
        · intro hret
          rcases ho.flags hret with h | h
          · exact .inl h
          · refine .inr fun i hi => ?_
            rw [h i hi, hfl i hi, Bool.or_eq_true]
            have hfx : flagOf (m2.field m.fresh) i = flagOf x i := by
              rw [flagOf_congr]
              rw [ho.types m.fresh (by simp), htx]
            constructor
            · rintro ((h | h) | ⟨k, hk, hn, hkf⟩)
              · exact .inl h
              · exact .inr ⟨m.fresh, ho.mono.subset (by simp), hfresh, by rwa [hfx]⟩
              · exact .inr ⟨k, hk, fun hm => hn (mem_append_left _ hm), hkf⟩
            · rintro (h | ⟨k, hk, hn, hkf⟩)
              · exact .inl (.inl h)
              · by_cases hke : k = m.fresh
                · rw [hke, hfx] at hkf
                  exact .inl (.inr hkf)
                · refine .inr ⟨k, hk, ?_, hkf⟩
                  rw [mem_append, mem_singleton]
                  rintro (h | h)
                  · exact hn h
                  · exact hke h
      · refine ⟨_, _, L, e, eloop, hp.mono (Nat.le_succ _) _ _, hsame, prefix_rfl,
          fun _ _ => rfl, fun _ => ⟨rfl, .inr hst⟩, .inl (hst _), fun _ => .inl ⟨rfl, hat⟩⟩
      · exact ⟨_, _, L, e, eloop, hp.mono (Nat.le_succ _) _ _, hsame, prefix_rfl,
          fun _ _ => rfl, fun h => absurd h (by decide), .inl (hst _), fun h => absurd h (by decide)⟩
      · refine ⟨_, _, L, e, eloop, hp, hsame, prefix_rfl, fun _ _ => rfl,
          fun h => absurd h (by decide), .inl ?_, fun h => absurd h (by decide)⟩
        rcases hf with hfe | hst
        · rw [← hfe, hnone]
        · exact hst _
      · have hst : Stuck P past m.buf e.2 := fun f => by
          rw [next_hdr, if_neg fun h => hh h.2.1]
        exact ⟨_, _, L, e, eloop, hp.mono (Nat.le_refl _) m.parsed_flag (some e.2), hsame,
          prefix_rfl, fun _ _ => rfl, fun _ => ⟨rfl, .inr hst⟩, .inl (hst _),
          fun _ => hkeep rfl⟩
    · rw [parse_headers_loop, if_pos hgo]
      refine ⟨_, _, L, e, rfl, ⟨hp.mono (Nat.le_refl _) m.parsed_flag (some e.2), hsame, prefix_rfl,
        fun _ _ => rfl, fun _ => ⟨rfl, hf⟩, ?_, fun _ => hkeep rfl⟩⟩
      by_cases hlen : e.2 < m.buf.length
      · exact .inr ⟨Int.le_refl _, not_not.1 fun h => hgo ⟨hlen, h⟩⟩
      · exact .inl (by rw [next_hdr, if_neg fun h => hlen h.1])

theorem loop_at_eoh {flags : BitVec 64} {fuel tmp : ℕ} {m' : SipMsg} {ret : ℤ} (h : AtEoh P past m.buf tmp)
    (eq : parse_headers_loop P past flags (fuel + 1) m tmp = some (m', ret)) (hret : 0 ≤ ret) :
    m'.buf = m.buf ∧ m'.unparsed = some tmp ∧
      (flags &&& m.parsed_flag = flags ∧ m'.parsed_flag = m.parsed_flag ∨
        m'.parsed_flag = BitVec.allOnes 64) := by
  rw [parse_headers_loop] at eq
  by_cases hgo : tmp < m.buf.length ∧ flags &&& m.parsed_flag ≠ flags
  · rw [if_neg (not_not.2 hgo), if_neg (not_not.2 h.2.1)] at eq
    by_cases hav : P.avail m.fresh
    · rw [if_neg (not_not.2 hav)] at eq
      dsimp only at eq
      rw [if_pos (h.2.2 _)] at eq
      cases eq
      refine ⟨rfl, rfl, .inr ?_⟩
      rw [HDR_T2F, if_pos rfl, BitVec.or_allOnes]
    · rw [if_pos hav] at eq
      cases eq
      exact absurd hret (by decide)
  · rw [if_pos hgo] at eq
    cases eq
    exact ⟨rfl, rfl, .inl ⟨not_not.1 fun hne => hgo ⟨h.1, hne⟩, rfl⟩⟩

end Parsing

end OpenSips.Parser
