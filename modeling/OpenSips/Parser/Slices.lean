import OpenSips.Parser.Param

/-!
# OpenSips.Parser.Slices — where the slices of the parameters are

Whatever the text, `parse_params` moves its cursor forward in it, and the slices of a parameter are in the part the
parameter takes.  The other parameters are behind the first one, with a `;` between.
-/

namespace OpenSips.ParseParam

open Lib List Option

/-- The cursor is in the text. -/
structure Cursor.Of (c : Cursor) (s : Str) : Prop where
  inside : c.pos ≤ s.length
  rest : c.s = s.drop c.pos

/-- The parameter ends at `e`, or before, and its slices are in it. -/
structure Param.Within (t : Param) (e : ℕ) : Prop where
  name : t.name.len ≤ t.len
  ends : t.name.pos + t.len ≤ e
  body : ∀ b ∈ t.body, t.name.pos ≤ b.pos ∧ b.pos + b.len ≤ t.name.pos + t.len

section Cursors

variable {s : Str} {c c' : Cursor} {b : Span} {n : ℕ}

theorem Cursor.Of.length (h : c.Of s) : c.s.length + c.pos = s.length := by
  rw [h.rest, length_drop, Nat.sub_add_cancel h.inside]

theorem Cursor.Of.skip (h : c.Of s) (hn : n ≤ c.s.length) : (c.skip n).Of s := by
  have hlen := h.length
  refine ⟨?_, ?_⟩
  · show c.pos + n ≤ s.length
    omega
  · show c.s.drop n = s.drop (c.pos + n)
    rw [h.rest, drop_drop]

theorem Cursor.Of.trim (h : c.Of s) : (trim_leading c).Of s ∧ c.pos ≤ (trim_leading c).pos :=
  ⟨h.skip ((List.takeWhile_prefix blank).length_le), Nat.le_add_right c.pos _⟩

theorem Cursor.Of.next (h : c.Of s) {d : UInt8} (hd : c.s.head? = some d) : (c.skip 1).Of s := by
  apply h.skip
  obtain ⟨z, hz⟩ := head?_eq_some_iff.1 hd
  rw [hz, length_cons]
  exact Nat.succ_pos _

theorem Cursor.Of.start (s : Str) : (⟨0, s⟩ : Cursor).Of s := ⟨Nat.zero_le _, rfl⟩

theorem quoted_of (h : c.Of s) (hq : c.s.head? = some QUOTE) (hr : parse_quoted_param c = some (b, c')) :
    c'.Of s ∧ c.pos ≤ b.pos ∧ b.pos + b.len ≤ c'.pos := by
  rw [parse_quoted_param] at hr
  split_ifs at hr
  obtain ⟨n, hn, heq⟩ := map_eq_some_iff.1 hr
  obtain ⟨rfl, rfl⟩ := Prod.mk.inj heq
  have hlt : n < (c.skip 1).s.length := (findIdx?_eq_some_iff_findIdx_eq.1 hn).1
  refine ⟨(h.next hq).skip hlt, Nat.le_succ c.pos, ?_⟩
  show c.pos + 1 + n ≤ c.pos + 1 + (n + 1)
  omega

theorem token_of (h : c.Of s) (hr : parse_token_param c = some (b, c')) :
    c'.Of s ∧ c.pos ≤ b.pos ∧ b.pos + b.len ≤ c'.pos := by
  unfold parse_token_param at hr
  dsimp only at hr
  split_ifs at hr
  cases hr
  exact ⟨h.skip ((List.takeWhile_prefix token_char).length_le), le_rfl, le_rfl⟩

theorem body_of (h : c.Of s) (hr : parse_param_body c = some (b, c')) :
    c'.Of s ∧ c.pos ≤ b.pos ∧ b.pos + b.len ≤ c'.pos := by
  rw [parse_param_body] at hr
  split_ifs at hr with hq
  · exact quoted_of h hq hr
  · exact token_of h hr

end Cursors

section Loop

variable {past : UInt8} {cls : PClass} {s : Str} {c c' : Cursor} {t : Param} {ps ps' : List Param} {h h' : Hooks}

theorem param_of (hc : c.Of s) (hr : parse_param past cls c = some (t, c')) :
    c'.Of s ∧ t.name.pos = c.pos ∧ t.Within c'.pos := by
  have hname : (c.skip (c.s.takeWhile name_char).length).Of s := hc.skip ((List.takeWhile_prefix name_char).length_le)
  obtain ⟨htrim, hle⟩ := hname.trim
  have hpos : c.pos + (c.s.takeWhile name_char).length ≤
      (trim_leading (c.skip (c.s.takeWhile name_char).length)).pos := hle
  unfold parse_param parse_param_name at hr
  dsimp only at hr
  split_ifs at hr with heq hend
  · obtain ⟨hvalue, hle'⟩ := (htrim.next heq).trim
    obtain ⟨⟨b, c1⟩, hb, hmap⟩ := map_eq_some_iff.1 hr
    obtain ⟨rfl, rfl⟩ := Prod.mk.inj hmap
    obtain ⟨hc1, hfirst, hlast⟩ := body_of hvalue hb
    have hskip : (trim_leading (c.skip (c.s.takeWhile name_char).length)).pos + 1 ≤ b.pos := hle'.trans hfirst
    refine ⟨hc1.trim.1, rfl, ⟨?_, ?_, ?_⟩⟩
    · dsimp only
      omega
    · have hle1 := hc1.trim.2
      dsimp only
      omega
    · intro b' hb'
      cases hb'
      dsimp only
      omega
  · cases hr
    exact ⟨htrim, rfl, le_rfl, hpos, fun b hb => by cases hb⟩

theorem Param.Within.mono {e e' : ℕ} (h : t.Within e) (he : e ≤ e') : t.Within e' :=
  ⟨h.name, h.ends.trans he, h.body⟩

/-- **The slices of the parameters**: the first one starts at the cursor, the others are behind it. -/
theorem loop_of : ∀ {fuel c ps h}, c.Of s → parse_params_loop past cls fuel c ps h = some (c', ps', h') →
    c'.Of s ∧ ∃ t more, ps' = ps ++ t :: more ∧ t.name.pos = c.pos ∧ t.Within c'.pos ∧
      ∀ u ∈ more, t.name.pos + t.len < u.name.pos ∧ u.Within c'.pos
  | 0, _, _, _, _, hr => by cases hr
  | fuel + 1, c, ps, h, hc, hr => by
    rw [parse_params_loop] at hr
    cases ht : parse_param past cls c with
    | none =>
      rw [ht] at hr
      cases hr
    | some q =>
      obtain ⟨t, c1⟩ := q
      obtain ⟨hc1, hpos, hwithin⟩ := param_of hc ht
      rw [ht] at hr
      dsimp only at hr
      have hlast : some (c1, ps ++ [t], note h t ps.length) = some (c', ps', h') → c'.Of s ∧
          ∃ t more, ps' = ps ++ t :: more ∧ t.name.pos = c.pos ∧ t.Within c'.pos ∧
            ∀ u ∈ more, t.name.pos + t.len < u.name.pos ∧ u.Within c'.pos := by
        intro heq
        obtain ⟨rfl, hps⟩ := Prod.mk.inj (some.inj heq)
        obtain ⟨rfl, -⟩ := Prod.mk.inj hps
        exact ⟨hc1, t, [], rfl, hpos, hwithin, fun u hu => absurd hu not_mem_nil⟩
      split at hr
      · exact hlast hr
      · next d z hd =>
        split_ifs at hr
        · exact hlast hr
        · obtain ⟨hnext, hle⟩ := (hc1.next (hd ▸ head?_cons)).trim
          obtain ⟨hc', t', more, rfl, hpos', hwithin', hmore⟩ := loop_of hnext hr
          have hsep : c1.pos + 1 ≤ t'.name.pos := by
            rw [hpos']
            exact hle
          have hend := hwithin'.ends
          have hmine := hwithin.ends
          refine ⟨hc', t, t' :: more, by rw [append_assoc]; rfl, hpos, hwithin.mono (by omega), ?_⟩
          intro u hu
          rcases mem_cons.1 hu with rfl | hu
          · exact ⟨by omega, hwithin'⟩
          · obtain ⟨hlt, hu⟩ := hmore u hu
            exact ⟨by omega, hu⟩

theorem params_at_of (hc : c.Of s) (hr : parse_params_at past cls c = some (c', ps', h')) :
    c'.Of s ∧ ∃ t more, ps' = t :: more ∧ t.name.pos = c.pos ∧ t.Within c'.pos ∧
      ∀ u ∈ more, t.name.pos + t.len < u.name.pos ∧ u.Within c'.pos := loop_of hc hr

end Loop

end OpenSips.ParseParam
