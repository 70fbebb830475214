import OpenSips.Parser.Headers
import OpenSips.Via.Objects
import OpenSips.To.Objects

/-!
# OpenSips.Parser.HdrObjects — the objects behind `hdr->parsed`

`get_hdr_field` again, with the objects it allocates: they are named by their numbers, the one for the
body first.  `parse_via` and `parse_to` are the machines of the other modules.
-/

namespace OpenSips.HdrObjects

open OpenSips.Parser Via To List Option

/-- `hdr->parsed`; the `integer` of a Content-Length is no object. -/
inductive Parsed where
  | null
  | via (vb : List ViaBody)
  | cseq (cseq_b : ℕ)
  | to (to_b : ℕ) (body : ToBody)
  | integer

/-- What `get_hdr_field` leaves: the type of the header and its parsed form, how many objects were
allocated and which of them were freed. -/
structure Result where
  type : HdrType
  parsed : Parsed
  allocs : ℕ
  freed : List ℕ

/-- The labels `error_bad_hdr` and `error`. -/
def error (allocs : ℕ) (freed : List ℕ) : Result := ⟨.ERROR, .null, allocs, freed⟩

/-- What `get_hdr_field` meets at `buf`: the empty line, no header, or a body at `tmp`. -/
inductive Head where
  | eoh
  | bad
  | field (t : HdrType) (tmp : ℕ)

variable (P : Parsers) (mem : Str) (end_ : ℕ)

/-- Up to the switch.  `none` is a read behind the memory. -/
def head (buf : ℕ) : Option Head :=
  match mem.drop buf with
  | [] => none
  | c :: _ =>
    if c = LF ∨ c = CR then some .eoh
    else
      match P.parse_hname (mem.take end_) buf with
      | none => some .bad
      | some (t, name_len, skipped) =>
        let p := buf + name_len + 1 + skipped
        let tmp := p + eat_lws_end ((mem.take end_).drop p)
        some (if end_ ≤ tmp then .bad else .field t tmp)

def parse_body (t : HdrType) (tmp : ℕ) : Option Result :=
  match t with
  | .VIA =>
    if ¬ P.avail 0 then some (error 0 [])
    else
      let avail := fun k => P.avail (k + 1)
      let (n, freed) := ledger mem end_ avail (Via.start tmp) tmp (mem.drop tmp)
      (parse_via mem avail tmp end_).map fun
        -- the body is left to `free_via_list`, in a comment
        | .parse_error _ => error (n + 1) freed
        | .accepted bodies _ => ⟨.VIA, .via bodies, n + 1, []⟩
  | .CSEQ =>
    if ¬ P.avail 0 then some (error 0 [])
    else
      match P.parse_cseq (mem.take end_) tmp with
      -- the body is left to `pkg_free`, in a comment
      | none => some (error 1 [])
      | some _ => some ⟨.CSEQ, .cseq 0, 1, []⟩
  | .TO =>
    if ¬ P.avail 0 then some (error 0 [])
    else
      (parse_to mem P.avail 1 tmp end_).map fun (u, _) =>
        if u.to_b.error then error u.allocs (u.freed ++ [0])
        else ⟨.TO, .to 0 u.to_b, u.allocs, u.freed⟩
  | .CONTENTLENGTH =>
    match P.parse_content_length (mem.take end_) tmp with
    | none => some (error 0 [])
    | some _ => some ⟨.CONTENTLENGTH, .integer, 0, []⟩
  | .ERROR | .EOH | .VIA2 => some (error 0 [])
  | t =>
    match body_end ((mem.take end_).drop tmp) with
    | none => some (error 0 [])
    | some _ => some ⟨t, .null, 0, []⟩

def get_hdr_field (buf : ℕ) : Option Result :=
  match head P mem end_ buf with
  | none => none
  | some .eoh => some ⟨.EOH, .null, 0, []⟩
  | some .bad => some (error 0 [])
  | some (.field t tmp) => parse_body P mem end_ t tmp

section Owned

/-- The objects reachable from `hdr->parsed` are the `n` that were allocated. -/
def Parsed.Owns : Parsed → ℕ → Prop
  | .null, n | .integer, n => n = 0
  | .via vb, n => Via.objects vb = n
  | .cseq cseq_b, n => [cseq_b] = List.range n
  | .to to_b body, n => to_b :: body.param_lst.map ToParam.addr = List.range n

/-- An error has freed every object once, and none can be reached; else each can be reached once. -/
def Result.Owned (r : Result) : Prop :=
  if r.type = .ERROR then r.parsed = .null ∧ r.freed.Perm (List.range r.allocs)
  else r.freed = [] ∧ r.parsed.Owns r.allocs

/-- `parse_via` and `parse_cseq` find no error, and `parse_to_param` does not meet the end of the header
where no parameter may end. -/
def Sound (t : HdrType) (tmp : ℕ) : Prop :=
  match t with
  | .VIA => ∃ bodies q, parse_via mem (fun k => P.avail (k + 1)) tmp end_ = some (.accepted bodies q)
  | .CSEQ => (P.parse_cseq (mem.take end_) tmp).isSome
  | .TO => (to_loop mem P.avail 1 tmp end_).Settled
  | _ => True

variable {P mem end_} {r : Result} {tmp : ℕ}

theorem owned_error {allocs : ℕ} {freed : List ℕ} :
    (error allocs freed).Owned ↔ freed.Perm (List.range allocs) := by
  rw [Result.Owned, if_pos (show (error allocs freed).type = .ERROR from rfl)]
  exact ⟨fun h => h.2, fun h => ⟨rfl, h⟩⟩

theorem owned_bad : (error 0 []).Owned := owned_error.2 (List.Perm.refl _)

theorem not_owned_error {allocs : ℕ} {freed : List ℕ} {a : ℕ} (ha : a < allocs) (hf : a ∉ freed) :
    ¬ (error allocs freed).Owned := by
  rw [owned_error]
  exact fun h => hf (h.mem_iff.2 (mem_range.2 ha))

theorem owned_none {t : HdrType} (ht : t ≠ .ERROR) : (Result.mk t .null 0 []).Owned := by
  rw [Result.Owned, if_neg ht]
  exact ⟨rfl, rfl⟩

theorem parse_body_via (h0 : P.avail 0 = true) (h : parse_body P mem end_ .VIA tmp = some r) :
    r.Owned ↔ Sound P mem end_ .VIA tmp := by
  obtain ⟨haccepted, hfreed⟩ := parse_via_counted mem (fun k => P.avail (k + 1)) tmp end_
  rw [parse_body, if_neg (not_not.2 h0)] at h
  obtain ⟨stop, hstop, rfl⟩ := map_eq_some_iff.1 h
  cases stop with
  | accepted bodies q =>
    refine iff_of_true ?_ ⟨bodies, q, hstop⟩
    rw [Result.Owned, if_neg (show HdrType.VIA ≠ .ERROR by decide)]
    exact ⟨rfl, haccepted bodies q hstop⟩
  | parse_error q =>
    refine iff_of_false (not_owned_error (Nat.succ_pos _) hfreed) ?_
    rintro ⟨bodies, q', hs⟩
    rw [hstop] at hs
    cases hs

theorem parse_body_cseq (h0 : P.avail 0 = true) (h : parse_body P mem end_ .CSEQ tmp = some r) :
    r.Owned ↔ Sound P mem end_ .CSEQ tmp := by
  rw [parse_body, if_neg (not_not.2 h0)] at h
  rw [Sound]
  cases hc : P.parse_cseq (mem.take end_) tmp with
  | none =>
    rw [hc] at h
    cases h
    exact iff_of_false (not_owned_error one_pos not_mem_nil) Bool.false_ne_true
  | some n =>
    rw [hc] at h
    cases h
    refine iff_of_true ?_ rfl
    rw [Result.Owned, if_neg (show HdrType.CSEQ ≠ .ERROR by decide)]
    exact ⟨rfl, rfl⟩

theorem parse_body_to (h0 : P.avail 0 = true) (h : parse_body P mem end_ .TO tmp = some r) :
    r.Owned ↔ Sound P mem end_ .TO tmp := by
  rw [parse_body, if_neg (not_not.2 h0)] at h
  obtain ⟨⟨u, q⟩, hto, hr⟩ := map_eq_some_iff.1 h
  obtain ⟨hle, hkept⟩ := run_spec (to_loop_spec mem P.avail tmp end_) hto
  have hrange : List.range u.allocs = 0 :: List.range' 1 (u.allocs - 1) := by
    rw [range_eq_range']
    obtain ⟨k, hk⟩ := Nat.exists_eq_add_of_le' hle
    rw [hk, range'_succ, Nat.add_sub_cancel]
  rw [Sound, ← hkept]
  cases he : u.to_b.error with
  | true =>
    dsimp only at hr
    rw [he, if_pos rfl] at hr
    rw [← hr, kept_error he, owned_error, hrange]
    constructor
    · exact fun ho => ((perm_append_singleton 0 u.freed).symm.trans ho).cons_inv
    · exact fun hk => (perm_append_singleton 0 u.freed).trans (hk.cons 0)
  | false =>
    dsimp only at hr
    rw [he, if_neg Bool.false_ne_true] at hr
    rw [← hr, kept_ok he, Result.Owned, if_neg (show HdrType.TO ≠ .ERROR by decide)]
    show (u.freed = [] ∧ 0 :: u.to_b.param_lst.map ToParam.addr = List.range u.allocs) ↔ _
    rw [hrange, cons_inj_right]

theorem parse_body_plain {t : HdrType} (ht : P.avail 0 = true → t ≠ .VIA ∧ t ≠ .CSEQ ∧ t ≠ .TO)
    (h : parse_body P mem end_ t tmp = some r) : r.Owned := by
  have hbad : some (error 0 []) = some r → r.Owned := by
    intro hr
    cases hr
    exact owned_bad
  have hmem : ∀ {x : Option Result}, (P.avail 0 = true → False) →
      (if ¬ P.avail 0 = true then some (error 0 []) else x) = some r → r.Owned := by
    intro x h0 hr
    rw [if_pos h0] at hr
    exact hbad hr
  unfold parse_body at h
  split at h
  · exact hmem (fun h0 => (ht h0).1 rfl) h
  · exact hmem (fun h0 => (ht h0).2.1 rfl) h
  · exact hmem (fun h0 => (ht h0).2.2 rfl) h
  · split at h
    · exact hbad h
    · cases h
      exact ⟨rfl, rfl⟩
  · exact hbad h
  · exact hbad h
  · exact hbad h
  · rename_i he _ _
    split at h
    · exact hbad h
    · cases h
      exact owned_none he

theorem parse_body_owned {t : HdrType} (h : parse_body P mem end_ t tmp = some r) :
    r.Owned ↔ (P.avail 0 = true → Sound P mem end_ t tmp) := by
  by_cases h0 : P.avail 0 = true
  · have hplain : t ≠ .VIA → t ≠ .CSEQ → t ≠ .TO → Sound P mem end_ t tmp := by
      intro h1 h2 h3
      cases t <;> trivial
    rw [imp_iff_right h0]
    by_cases h1 : t = .VIA
    · subst h1
      exact parse_body_via h0 h
    by_cases h2 : t = .CSEQ
    · subst h2
      exact parse_body_cseq h0 h
    by_cases h3 : t = .TO
    · subst h3
      exact parse_body_to h0 h
    exact iff_of_true (parse_body_plain (fun _ => ⟨h1, h2, h3⟩) h) (hplain h1 h2 h3)
  · exact iff_of_true (parse_body_plain (fun h0' => absurd h0' h0) h) fun h0' => absurd h0' h0

/-- **The objects of a header field.** -/
theorem get_hdr_field_owned {buf : ℕ} (h : get_hdr_field P mem end_ buf = some r) :
    r.Owned ↔ ∀ t tmp, head P mem end_ buf = some (.field t tmp) → P.avail 0 = true →
      Sound P mem end_ t tmp := by
  unfold get_hdr_field at h
  cases hh : head P mem end_ buf with
  | none =>
    rw [hh] at h
    cases h
  | some x =>
    rw [hh] at h
    cases x with
    | eoh =>
      obtain rfl := some.inj h
      exact iff_of_true (owned_none (by decide)) fun t tmp e => by cases e
    | bad =>
      obtain rfl := some.inj h
      exact iff_of_true owned_bad fun t tmp e => by cases e
    | field t tmp =>
      rw [parse_body_owned h]
      constructor
      · intro hs t' tmp' e
        obtain ⟨rfl, rfl⟩ := Head.field.inj (some.inj e)
        exact hs
      · exact fun hs => hs t tmp rfl

def to_parsers : Parsers where
  parse_first_line _ _ := none
  parse_hname _ _ := some (.TO, 2, 1)
  parse_via _ _ := none
  parse_cseq _ _ := none
  parse_to _ _ := none
  parse_content_length _ _ := none
  parse_name_only _ _ := (.OTHER, 0)
  avail _ := true

/-- The lines `To: a;b` and `To: a;`, each with its CRLF. -/
def to_line : Str := [84, 111, 58, 32, 97, 59, 98, 13, 10]

def to_line_open : Str := [84, 111, 58, 32, 97, 59, 13, 10]

theorem get_hdr_field_owned_to : ∃ r, get_hdr_field to_parsers to_line 9 0 = some r ∧
    (r.Owned ↔ ∀ t tmp, head to_parsers to_line 9 0 = some (.field t tmp) →
      to_parsers.avail 0 = true → Sound to_parsers to_line 9 t tmp) := by
  cases hr : get_hdr_field to_parsers to_line 9 0 with
  | none => exact absurd (congrArg Option.isSome hr) (by decide)
  | some r => exact ⟨r, rfl, get_hdr_field_owned hr⟩

/-- The parameter that the `;` starts is lost. -/
theorem to_param_lost : ∃ r, get_hdr_field to_parsers to_line_open 8 0 = some r ∧ r.type = .ERROR ∧
    ¬ r.Owned := by
  cases hr : get_hdr_field to_parsers to_line_open 8 0 with
  | none => exact absurd (congrArg Option.isSome hr) (by decide)
  | some r =>
    have hrun : (get_hdr_field to_parsers to_line_open 8 0).map (fun r => (r.type, r.allocs, r.freed)) =
        some (.ERROR, 2, [0]) := by decide
    rw [hr, map_some] at hrun
    obtain ⟨h1, h2⟩ := Prod.mk.inj (some.inj hrun)
    obtain ⟨h2, h3⟩ := Prod.mk.inj h2
    refine ⟨r, rfl, h1, ?_⟩
    rw [Result.Owned, if_pos h1, h2, h3]
    exact fun h => absurd h.2 (by decide)

end Owned

end OpenSips.HdrObjects
