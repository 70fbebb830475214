import OpenSips.Parser.Quoting
import OpenSips.Parser.Slices

/-!
# OpenSips.Parser.Rr — Route and Record-Route bodies (`parse_rr.c`)

An entry is a name-addr with parameters.  The length that is noted for it ends behind its first parameter.
-/

namespace OpenSips.ParseRr

open Lib ParseParam List Option

/-- `name_addr_t` -/
structure NameAddr where
  name : Span
  uri : Span
  len : ℕ
  deriving DecidableEq

/-- `rr_t`; `r2` is never set. -/
structure Rr where
  nameaddr : NameAddr
  params : List Param
  len : ℕ
  deriving DecidableEq

section Source

-- the byte behind the body
variable (past : UInt8)

/-- `parse_nameaddr`, with the slices of the body. -/
def parse_nameaddr (c : Cursor) : Option NameAddr :=
  match Quoting.parse_nameaddr c.s with
  | .ok a => some ⟨⟨c.pos + a.name.1, a.name.2⟩, ⟨c.pos + a.uri.1, a.uri.2⟩, a.len⟩
  | .error _ => none

def first_len (a : NameAddr) : List Param → ℕ
  | [] => a.len
  | t :: _ => t.name.pos + t.len - a.name.pos

/-- A turn of the loop of `do_parse_rr_body`: an entry, and the white space behind it. -/
def parse_entry (c : Cursor) : Option (Rr × Cursor) :=
  match parse_nameaddr c with
  | none => none
  | some a =>
    let c := trim_leading (c.skip a.len)
    if c.s.head? = some SEMICOLON then
      let c := trim_leading (c.skip 1)
      if c.s = [] then none
      else (parse_params_at past .CLASS_ANY c).map fun (c, params, _) =>
        (⟨a, params, first_len a params⟩, trim_leading c)
    else some (⟨a, [], a.len⟩, c)

def rr_loop : ℕ → Cursor → List Rr → Option (List Rr)
  | 0, _, _ => none
  | fuel + 1, c, head =>
    match parse_entry past c with
    | none => none
    | some (r, c) =>
      if c.s = [] then some (head ++ [r])
      else if c.s.head? ≠ some COMMA then none
      else
        let c := trim_leading (c.skip 1)
        if c.s = [] then none else rr_loop fuel c (head ++ [r])

/-- `do_parse_rr_body`; `none` is -1. -/
def do_parse_rr_body (s : Str) : Option (List Rr) :=
  if s = [] then none else rr_loop past (s.length + 1) (trim_leading ⟨0, s⟩) []

end Source

/-- Where the last parameter ends, or the name-addr. -/
def Rr.full (r : Rr) : ℕ :=
  match r.params.getLast? with
  | none => r.nameaddr.len
  | some t => t.name.pos + t.len - r.nameaddr.name.pos

/-- The slices of an entry are in the text, the first parameter behind the name-addr and the others behind the first
one. -/
structure Entry (s : Str) (r : Rr) : Prop where
  name : r.nameaddr.name.len ≤ r.nameaddr.len
  uri : r.nameaddr.name.pos ≤ r.nameaddr.uri.pos ∧
    r.nameaddr.uri.pos + r.nameaddr.uri.len ≤ r.nameaddr.name.pos + r.nameaddr.len
  brackets : 2 ≤ r.nameaddr.len
  ends : r.nameaddr.name.pos + r.nameaddr.len ≤ s.length
  len : r.len = first_len r.nameaddr r.params
  params : ∀ t more, r.params = t :: more → r.nameaddr.name.pos + r.nameaddr.len ≤ t.name.pos ∧ t.Within s.length ∧
    ∀ u ∈ more, t.name.pos + t.len < u.name.pos ∧ u.Within s.length

section Slices

variable {past : UInt8} {s : Str} {c c' : Cursor} {a : NameAddr} {r : Rr} {rs head : List Rr}

theorem find_lt {q : Str} {d : UInt8} {k : ℕ} (hd : d ≠ Quoting.QUOTE) (h : Quoting.find_not_quoted q d = some k) :
    k < q.length :=
  (List.getElem?_eq_some_iff.1 (Quoting.find_not_quoted_iff hd |>.mp h).1).1

theorem nameaddr_of (h : parse_nameaddr c = some a) : a.name.pos = c.pos ∧ a.name.len ≤ a.len ∧
    (a.name.pos ≤ a.uri.pos ∧ a.uri.pos + a.uri.len ≤ a.name.pos + a.len) ∧ 2 ≤ a.len ∧ a.len ≤ c.s.length := by
  rw [parse_nameaddr, Quoting.parse_nameaddr] at h
  cases hk : Quoting.find_not_quoted c.s (chr '<') with
  | none =>
    rw [hk] at h
    cases h
  | some k =>
    rw [hk] at h
    dsimp only at h
    cases hj : Quoting.find_not_quoted (c.s.drop (k + 1)) (chr '>') with
    | none =>
      rw [hj] at h
      cases h
    | some j =>
      rw [hj] at h
      cases h
      have hkl := find_lt (by decide) hk
      have hjl := find_lt (by decide) hj
      rw [length_drop] at hjl
      dsimp only
      omega

theorem entry_of (hc : c.Of s) (h : parse_entry past c = some (r, c')) :
    c'.Of s ∧ r.nameaddr.name.pos = c.pos ∧ c.pos + 2 ≤ c'.pos ∧ Entry s r := by
  rw [parse_entry] at h
  cases ha : parse_nameaddr c with
  | none =>
    rw [ha] at h
    cases h
  | some a =>
    obtain ⟨hpos, hname, huri, htwo, hlen⟩ := nameaddr_of ha
    have hends := hc.length
    obtain ⟨hc1, hle⟩ := (hc.skip hlen).trim
    have hstart : c.pos + a.len ≤ (trim_leading (c.skip a.len)).pos := hle
    rw [ha] at h
    dsimp only at h
    split_ifs at h with hsemi hend
    · obtain ⟨hc2, hle2⟩ := (hc1.next hsemi).trim
      obtain ⟨⟨c3, ps, hooks⟩, hps, heq⟩ := map_eq_some_iff.1 h
      dsimp only at heq
      obtain ⟨rfl, rfl⟩ := Prod.mk.inj heq
      obtain ⟨hc3, t, more, rfl, hfirst, hwithin, hmore⟩ := params_at_of hc2 hps
      have hskip : (trim_leading (c.skip a.len)).pos + 1 ≤ t.name.pos := by
        rw [hfirst]
        exact hle2
      have hsize := hwithin.ends
      have hc4 := hc3.trim.2
      refine ⟨hc3.trim.1, hpos, by omega, ⟨hname, huri, htwo, ?_, rfl, ?_⟩⟩
      · dsimp only
        omega
      · intro t' more' heq'
        obtain ⟨rfl, rfl⟩ := cons.inj heq'
        refine ⟨?_, hwithin.mono hc3.inside, fun u hu => ⟨(hmore u hu).1, (hmore u hu).2.mono hc3.inside⟩⟩
        dsimp only
        omega
    · cases h
      refine ⟨hc1, hpos, by omega, ⟨hname, huri, htwo, ?_, rfl, fun t more heq => by cases heq⟩⟩
      dsimp only
      omega

theorem loop_entries : ∀ {fuel c head}, c.Of s → (∀ r ∈ head, Entry s r) → rr_loop past fuel c head = some rs →
    rs ≠ [] ∧ ∀ r ∈ rs, Entry s r
  | 0, _, _, _, _, h => by cases h
  | fuel + 1, c, head, hc, hhead, h => by
    rw [rr_loop] at h
    cases he : parse_entry past c with
    | none =>
      rw [he] at h
      cases h
    | some q =>
      obtain ⟨r, c1⟩ := q
      obtain ⟨hc1, -, -, hr⟩ := entry_of hc he
      have hall : ∀ u ∈ head ++ [r], Entry s u := by
        intro u hu
        rcases mem_append.1 hu with hu | hu
        · exact hhead u hu
        · rwa [mem_singleton.1 hu]
      rw [he] at h
      dsimp only at h
      split_ifs at h with h1 h2 h3
      · cases h
        exact ⟨append_ne_nil_of_right_ne_nil head (cons_ne_nil r []), hall⟩
      · exact loop_entries (hc1.next (not_not.1 h2)).trim.1 hall h

/-- **The entries of a body** have their slices in it. -/
theorem body_entries (h : do_parse_rr_body past s = some rs) : rs ≠ [] ∧ ∀ r ∈ rs, Entry s r := by
  rw [do_parse_rr_body] at h
  split_ifs at h
  exact loop_entries (Cursor.Of.start s).trim.1 (fun r hr => absurd hr not_mem_nil) h

theorem len_full (h : Entry s r) : r.len ≤ r.full ∧ (r.len = r.full ↔ r.params.length ≤ 1) := by
  rw [h.len, Rr.full]
  match hp : r.params with
  | [] => exact ⟨le_rfl, iff_of_true rfl (Nat.zero_le 1)⟩
  | [t] => exact ⟨le_rfl, iff_of_true rfl (Nat.le_refl 1)⟩
  | t :: u :: more =>
    obtain ⟨hfirst, -, hmore⟩ := h.params t (u :: more) hp
    obtain ⟨v, hv⟩ : ∃ v, v = (u :: more).getLast (cons_ne_nil u more) := ⟨_, rfl⟩
    have hlt := (hmore v (hv ▸ getLast_mem (cons_ne_nil u more))).1
    have hlast : (t :: u :: more).getLast? = some v := by
      rw [getLast?_eq_some_getLast (cons_ne_nil t _), getLast_cons (cons_ne_nil u more), hv]
    have hne : ¬ (t :: u :: more).length ≤ 1 := by
      rw [length_cons, length_cons]
      omega
    rw [hlast, first_len]
    dsimp only
    refine ⟨by omega, iff_of_false (by omega) hne⟩

theorem full_inside (h : Entry s r) : 2 ≤ r.len ∧ r.nameaddr.name.pos + r.full ≤ s.length := by
  have hends := h.ends
  have htwo := h.brackets
  rw [h.len, Rr.full]
  match hp : r.params with
  | [] =>
    rw [first_len, getLast?_nil]
    dsimp only
    omega
  | t :: more =>
    obtain ⟨hfirst, hwithin, hmore⟩ := h.params t more hp
    have hlast : ∀ v ∈ (t :: more).getLast?, t.name.pos ≤ v.name.pos ∧ v.Within s.length := by
      intro v hv
      rcases mem_cons.1 (mem_of_mem_getLast? hv) with rfl | hv
      · exact ⟨le_rfl, hwithin⟩
      · obtain ⟨hlt, hv⟩ := hmore v hv
        exact ⟨by omega, hv⟩
    obtain ⟨v, hv⟩ : ∃ v, (t :: more).getLast? = some v := ⟨_, getLast?_eq_some_getLast (cons_ne_nil t more)⟩
    obtain ⟨hle, hv'⟩ := hlast v hv
    have hve := hv'.ends
    rw [hv, first_len]
    dsimp only
    omega

end Slices

end OpenSips.ParseRr
