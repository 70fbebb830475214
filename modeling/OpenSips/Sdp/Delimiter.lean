import OpenSips.Sdp.Rtpmap
import OpenSips.Mi.Model

/-!
# OpenSips.Sdp.Delimiter — the lines between the parts of a body (`core/parser/sdp/sdp_helpr_funcs.c`)

The scan looks at a `--`, and when no delimiter stands there it goes on behind as many bytes as a delimiter has.  The
boundary is compared with what is behind the `--`, in front of the limit or not.
-/

namespace OpenSips.Sdp

open Lib List Option
open FirstLine (LF CR)
open Mi (cstr)

/-- A text with the byte in front of it and what is behind it; positions count from its beginning. -/
structure Text where
  front : UInt8
  mem : Str

def delimiterhead : Str := "--".toList.map chr

/-- `strncmp(s1, s2, n) == 0`, where NULs are behind both. -/
def strneq (s1 s2 : Str) (n : ℕ) : Bool := cstr (s1.take n) = cstr (s2.take n)

section Source

variable (t : Text) (limit : ℕ) (delimiter : Str)

/-- Whether a line begins: `cp[-1]` is one of two characters. -/
def Text.line_start (cp : ℕ) : Prop := (t.front :: t.mem)[cp]? = some LF ∨ (t.front :: t.mem)[cp]? = some CR

instance (cp : ℕ) : Decidable (t.line_start cp) := inferInstanceAs (Decidable (_ ∨ _))

/-- The loops of `find_sdp_line_delimiter`. -/
def find_loop : ℕ → ℕ → Option ℕ
  | 0, _ => none
  | fuel + 1, cp =>
    if limit ≤ cp then none
    else
      match ser_memmem ((t.mem.take limit).drop cp) delimiterhead with
      | none => none
      | some i =>
        let cp1 := cp + i
        if strneq (t.mem.drop (cp1 + 2)) delimiter delimiter.length = true then
          if t.line_start cp1 then some cp1
          else if limit - cp1 < 2 + delimiter.length then none
          else find_loop fuel (cp1 + 2 + delimiter.length)
        else find_loop fuel (cp1 + 2 + delimiter.length)

/-- Each turn goes on by two bytes at least. -/
def find_sdp_line_delimiter (p : ℕ) : Option ℕ := find_loop t limit delimiter (limit + 1) p

def find_next_sdp_line_delimiter (p defptr : ℕ) : ℕ :=
  if limit ≤ p ∨ limit - p < 3 then defptr else (find_sdp_line_delimiter t limit delimiter (p + 2)).getD defptr

/-- The delimiters that the loop of `parse_mixed_content` comes to. -/
def mixed_loop : ℕ → ℕ → List ℕ
  | 0, _ => []
  | fuel + 1, d1p =>
    if limit ≤ d1p then []
    else d1p :: mixed_loop fuel (find_next_sdp_line_delimiter t limit delimiter d1p limit)

def mixed_delimiters (p : ℕ) : List ℕ :=
  match find_sdp_line_delimiter t limit delimiter p with
  | none => []
  | some d1p => mixed_loop t limit delimiter (limit + 1) d1p

end Source

section Lines

variable (t : Text) (limit : ℕ) (delimiter : Str)

/-- A `--` in front of the limit. -/
def Head (q : ℕ) : Prop := delimiterhead <+: (t.mem.take limit).drop q

/-- A line that begins with `--` and the boundary, in front of the limit. -/
def Delimits (p : ℕ) : Prop := t.line_start p ∧ delimiterhead ++ delimiter <+: (t.mem.take limit).drop p

instance : DecidablePred (Delimits t limit delimiter) := fun _ => inferInstanceAs (Decidable (_ ∧ _))

def Taken (q : ℕ) : Prop :=
  strneq (t.mem.drop (q + 2)) delimiter delimiter.length = true ∧ t.line_start q

/-- The search gives the first delimiter line, or nothing when there is none. -/
def Finds (start : ℕ) : Prop := ∀ p, find_sdp_line_delimiter t limit delimiter start = some p ↔
  FirstFrom (Delimits t limit delimiter) start p

/-- The scan: the first `--`, then the first one that is `2 + len` bytes behind, and so on. -/
abbrev Scanned (start q : ℕ) : Prop := Looked (Head t limit) (2 + delimiter.length) start q

/-- The first delimiter line is scanned, and nothing that is scanned is taken for one in front of the first one. -/
structure Undisturbed (start : ℕ) : Prop where
  scanned : ∀ p, FirstFrom (Delimits t limit delimiter) start p → Scanned t limit delimiter start p
  taken : ∀ q, Scanned t limit delimiter start q → Taken t delimiter q →
    Delimits t limit delimiter q ∨ ∃ p, start ≤ p ∧ p < q ∧ Delimits t limit delimiter p

end Lines

section Scan

variable {t : Text} {limit c q p i fuel : ℕ} {delimiter : Str}

theorem Head.lt (h : Head t limit q) : q + 2 ≤ limit := by
  have hle := h.length_le
  rw [length_drop, length_take] at hle
  have h2 : delimiterhead.length = 2 := rfl
  omega

theorem block_prefix : (t.mem.take limit).drop p <+: t.mem.drop p := by
  rw [drop_take]
  exact take_prefix _ _

/-- The block of the search, `k` bytes on. -/
theorem head_drop (k : ℕ) : delimiterhead.isPrefixOf (((t.mem.take limit).drop c).drop k) = true ↔
    Head t limit (c + k) := by
  rw [List.isPrefixOf_iff_prefix, drop_drop]
  rfl

theorem Head.in_block (h : Head t limit (c + i)) : i < ((t.mem.take limit).drop c).length := by
  have hle := h.length_le
  have h2 : delimiterhead.length = 2 := rfl
  rw [length_drop] at hle ⊢
  omega

/-- The search for a `--`. -/
theorem head_found : ser_memmem ((t.mem.take limit).drop c) delimiterhead = some i ↔
    FirstFrom (Head t limit) c (c + i) := by
  rw [ser_memmem, if_neg (by decide), first_eq_some]
  constructor
  · rintro ⟨-, hp, hbefore⟩
    refine ⟨Nat.le_add_right c i, (head_drop i).1 hp, fun j hcj hj hhead => ?_⟩
    obtain ⟨k, rfl⟩ := Nat.exists_eq_add_of_le hcj
    exact Bool.eq_false_iff.1 (hbefore k (Nat.lt_of_add_lt_add_left hj)) ((head_drop k).2 hhead)
  · intro h
    refine ⟨h.holds.in_block, (head_drop i).2 h.holds, fun k hk => Bool.eq_false_iff.2 fun hp => ?_⟩
    exact h.before (c + k) (Nat.le_add_right c k) (Nat.add_lt_add_left hk c) ((head_drop k).1 hp)

theorem head_missing (h : ser_memmem ((t.mem.take limit).drop c) delimiterhead = none) (hq : c ≤ q) :
    ¬ Head t limit q := by
  rw [ser_memmem, if_neg (by decide), first_eq_none] at h
  obtain ⟨k, rfl⟩ := Nat.exists_eq_add_of_le hq
  exact fun hhead => Bool.eq_false_iff.1 (h k hhead.in_block) ((head_drop k).2 hhead)

theorem find_loop_iff (hfuel : limit < c + fuel) : find_loop t limit delimiter fuel c = some p ↔
    Scanned t limit delimiter c p ∧ Taken t delimiter p ∧
      ∀ q < p, Scanned t limit delimiter c q → ¬ Taken t delimiter q := by
  induction fuel generalizing c with
  | zero =>
    have hnone : ∀ q, ¬ Scanned t limit delimiter c q :=
      fun q => not_looked fun j hj hhead => absurd hhead.lt (by omega)
    exact ⟨fun h => absurd h (by simp [find_loop]), fun h => absurd h.1 (hnone p)⟩
  | succ fuel ih =>
    rw [find_loop]
    by_cases hlimit : limit ≤ c
    · have hnone : ∀ q, ¬ Scanned t limit delimiter c q :=
        fun q => not_looked fun j hj hhead => absurd hhead.lt (by omega)
      rw [if_pos hlimit]
      exact ⟨fun h => absurd h (by simp), fun h => absurd h.1 (hnone p)⟩
    rw [if_neg hlimit]
    cases hi : ser_memmem ((t.mem.take limit).drop c) delimiterhead with
    | none =>
      have hnone : ∀ q, ¬ Scanned t limit delimiter c q := fun q => not_looked fun j hj => head_missing hi hj
      exact ⟨fun h => absurd h (by simp), fun h => absurd h.1 (hnone p)⟩
    | some i =>
      have hfirst := head_found.1 hi
      have hscan : ∀ q, Scanned t limit delimiter c q ↔
          q = c + i ∨ Scanned t limit delimiter (c + i + (2 + delimiter.length)) q := fun q => looked_iff hfirst
      have hrest : find_loop t limit delimiter fuel (c + i + 2 + delimiter.length) = some p ↔
          Scanned t limit delimiter (c + i + (2 + delimiter.length)) p ∧ Taken t delimiter p ∧
            ∀ q < p, Scanned t limit delimiter (c + i + (2 + delimiter.length)) q → ¬ Taken t delimiter q := by
        rw [add_assoc (c + i)]
        exact ih (by omega)
      dsimp only
      by_cases htaken : Taken t delimiter (c + i)
      · rw [if_pos htaken.1, if_pos htaken.2]
        constructor
        · intro h
          cases h
          refine ⟨.here hfirst, htaken, fun q hq hs => ?_⟩
          obtain rfl | hs := (hscan q).1 hs
          · exact absurd hq (lt_irrefl _)
          · exact absurd hs.le (by omega)
        · rintro ⟨hs, -, hbefore⟩
          obtain rfl | hs := (hscan p).1 hs
          · rfl
          · have hlt : c + i < p := lt_of_lt_of_le (by omega) hs.le
            exact absurd htaken (hbefore (c + i) hlt (.here hfirst))
      · have hskip : (if strneq (t.mem.drop (c + i + 2)) delimiter delimiter.length = true then
            if t.line_start (c + i) then some (c + i)
            else if limit - (c + i) < 2 + delimiter.length then none
            else find_loop t limit delimiter fuel (c + i + 2 + delimiter.length)
          else find_loop t limit delimiter fuel (c + i + 2 + delimiter.length)) = some p ↔
            find_loop t limit delimiter fuel (c + i + 2 + delimiter.length) = some p := by
          by_cases hmatch : strneq (t.mem.drop (c + i + 2)) delimiter delimiter.length = true
          · rw [if_pos hmatch, if_neg fun hstart => htaken ⟨hmatch, hstart⟩]
            by_cases hshort : limit - (c + i) < 2 + delimiter.length
            · rw [if_pos hshort, hrest]
              exact ⟨fun h => absurd h (by simp),
                fun h => absurd h.1 (not_looked fun j hj hhead => absurd hhead.lt (by omega))⟩
            · rw [if_neg hshort]
          · rw [if_neg hmatch]
        rw [hskip, hrest]
        constructor
        · rintro ⟨hs, ht, hbefore⟩
          refine ⟨(hscan p).2 (.inr hs), ht, fun q hq hsq => ?_⟩
          obtain rfl | hsq := (hscan q).1 hsq
          · exact htaken
          · exact hbefore q hq hsq
        · rintro ⟨hs, ht, hbefore⟩
          obtain rfl | hs := (hscan p).1 hs
          · exact absurd ht htaken
          · exact ⟨hs, ht, fun q hq hsq => hbefore q hq ((hscan q).2 (.inr hsq))⟩

end Scan

section Search

variable {t : Text} {limit start p d : ℕ} {delimiter : Str}

theorem Delimits.head (h : Delimits t limit delimiter p) : Head t limit p := (prefix_append _ _).trans h.2

theorem Delimits.taken (h : Delimits t limit delimiter p) : Taken t delimiter p := by
  refine ⟨?_, h.1⟩
  obtain ⟨r, hr⟩ := h.2.trans block_prefix
  have hdrop : t.mem.drop (p + 2) = delimiter ++ r := by
    rw [← drop_drop, ← hr]
    rfl
  rw [hdrop, strneq, take_left, take_length]
  exact decide_eq_true rfl

theorem finds_iff (start : ℕ) : Finds t limit delimiter start ↔ Undisturbed t limit delimiter start := by
  have hfind : ∀ p, find_sdp_line_delimiter t limit delimiter start = some p ↔
      Scanned t limit delimiter start p ∧ Taken t delimiter p ∧
        ∀ q < p, Scanned t limit delimiter start q → ¬ Taken t delimiter q := fun p => find_loop_iff (by omega)
  constructor
  · refine fun h => ⟨fun p hp => ((hfind p).1 ((h p).2 hp)).1, fun q hs ht => ?_⟩
    -- the first one that is taken is the one that is found
    obtain ⟨p, hp, hpq⟩ := exists_firstFrom (P := fun q => Scanned t limit delimiter start q ∧ Taken t delimiter q)
      hs.le ⟨hs, ht⟩
    have hfound := (h p).1 ((hfind p).2 ⟨hp.holds.1, hp.holds.2, fun q hq hsq htq =>
      hp.before q hsq.le hq ⟨hsq, htq⟩⟩)
    obtain rfl | hlt := eq_or_lt_of_le hpq
    · exact .inl hfound.holds
    · exact .inr ⟨p, hfound.le, hlt, hfound.holds⟩
  · intro h p
    -- nothing is taken in front of the first delimiter line
    have hfirst : ∀ p, FirstFrom (Delimits t limit delimiter) start p →
        ∀ q < p, Scanned t limit delimiter start q → ¬ Taken t delimiter q := by
      intro p hp q hq hs ht
      obtain hd | ⟨j, hj, hjq, hd⟩ := h.taken q hs ht
      · exact hp.before q hs.le hq hd
      · exact hp.before j hj (hjq.trans hq) hd
    rw [hfind]
    constructor
    · rintro ⟨hs, ht, hbefore⟩
      have hex : ∃ j, start ≤ j ∧ j ≤ p ∧ Delimits t limit delimiter j := by
        obtain hd | ⟨j, hj, hjp, hd⟩ := h.taken p hs ht
        · exact ⟨p, hs.le, Nat.le_refl p, hd⟩
        · exact ⟨j, hj, le_of_lt hjp, hd⟩
      obtain ⟨j, hj, hjp, hd⟩ := hex
      obtain ⟨k, hk, hkj⟩ := exists_firstFrom hj hd
      obtain rfl | hlt := eq_or_lt_of_le (hkj.trans hjp)
      · exact hk
      · exact absurd hk.holds.taken (hbefore k hlt (h.scanned k hk))
    · exact fun hp => ⟨h.scanned p hp, hp.holds.taken, hfirst p hp⟩

end Search

section Enumeration

variable {t : Text} {limit c p d fuel : ℕ} {delimiter : Str} {ds : List ℕ}

/-- The delimiter lines from `c` on, in order. -/
def delimiter_lines (t : Text) (limit : ℕ) (delimiter : Str) (c : ℕ) : List ℕ :=
  (List.range' c (limit - c)).filter fun p => decide (Delimits t limit delimiter p)

theorem Delimits.lt (h : Delimits t limit delimiter p) : p + 2 ≤ limit := h.head.lt

/-- In front of the second character of a delimiter stands a `-`. -/
theorem Delimits.not_next (h : Delimits t limit delimiter p) : ¬ Delimits t limit delimiter (p + 1) := by
  obtain ⟨r, hr⟩ := h.head.trans block_prefix
  have hdash : (t.front :: t.mem)[p + 1]? = some (chr '-') := by
    have hat := congrArg (fun s => s[0]?) hr
    rw [getElem?_drop] at hat
    exact hat.symm
  intro h'
  obtain hstart | hstart := h'.1
  · exact absurd (hdash.symm.trans hstart) (by decide)
  · exact absurd (hdash.symm.trans hstart) (by decide)

theorem mem_delimiter_lines : p ∈ delimiter_lines t limit delimiter c ↔ c ≤ p ∧ Delimits t limit delimiter p := by
  rw [delimiter_lines, mem_filter, mem_range'_1, decide_eq_true_eq]
  exact ⟨fun h => ⟨h.1.1, h.2⟩, fun h => ⟨⟨h.1, by have := h.2.lt; omega⟩, h.2⟩⟩

theorem delimiter_lines_skip (h : ¬ Delimits t limit delimiter c) :
    delimiter_lines t limit delimiter c = delimiter_lines t limit delimiter (c + 1) := by
  rw [delimiter_lines, delimiter_lines]
  obtain hlt | hle := lt_or_ge c limit
  swap
  · rw [Nat.sub_eq_zero_of_le hle, Nat.sub_eq_zero_of_le (Nat.le_succ_of_le hle)]
    rfl
  · rw [show limit - c = limit - (c + 1) + 1 by omega, range'_succ,
      filter_cons_of_neg (by rwa [decide_eq_true_eq])]

theorem delimiter_lines_cons (h : FirstFrom (Delimits t limit delimiter) c d) :
    delimiter_lines t limit delimiter c = d :: delimiter_lines t limit delimiter (d + 2) := by
  obtain ⟨n, rfl⟩ := Nat.exists_eq_add_of_le h.le
  induction n generalizing c with
  | zero =>
    have hlt := h.holds.lt
    rw [add_zero] at h ⊢
    rw [← delimiter_lines_skip h.holds.not_next, delimiter_lines, show limit - c = limit - (c + 1) + 1 by omega,
      range'_succ, filter_cons_of_pos (by rw [decide_eq_true_eq]; exact h.holds)]
    rfl
  | succ n ih =>
    have hstep : FirstFrom (Delimits t limit delimiter) (c + 1) (c + 1 + n) := by
      rw [show c + 1 + n = c + (n + 1) by omega]
      exact ⟨by omega, h.holds, fun j hj hjn => h.before j (by omega) hjn⟩
    rw [delimiter_lines_skip (h.before c (Nat.le_refl c) (by omega)), ih hstep,
      show c + 1 + n = c + (n + 1) by omega]

theorem delimiter_lines_eq_cons : d :: ds = delimiter_lines t limit delimiter c ↔
    FirstFrom (Delimits t limit delimiter) c d ∧ ds = delimiter_lines t limit delimiter (d + 2) := by
  constructor
  · intro h
    obtain ⟨hle, hd⟩ := mem_delimiter_lines.1 (h ▸ mem_cons_self)
    obtain ⟨k, hk, -⟩ := exists_firstFrom hle hd
    obtain ⟨rfl, rfl⟩ := cons.inj (h.trans (delimiter_lines_cons hk))
    exact ⟨hk, rfl⟩
  · rintro ⟨h, rfl⟩
    exact (delimiter_lines_cons h).symm

theorem find_lt (h : find_sdp_line_delimiter t limit delimiter c = some d) : c ≤ d ∧ d + 2 ≤ limit := by
  have hs := ((find_loop_iff (by omega)).1 h).1
  exact ⟨hs.le, hs.holds.lt⟩

theorem find_none (h : limit ≤ c + 1) : find_sdp_line_delimiter t limit delimiter c = none := by
  cases hd : find_sdp_line_delimiter t limit delimiter c with
  | none => rfl
  | some d =>
    have hlt := find_lt hd
    omega

theorem mixed_loop_limit (fuel : ℕ) : mixed_loop t limit delimiter fuel limit = [] := by
  cases fuel with
  | zero => rfl
  | succ fuel => exact if_pos (Nat.le_refl limit)

theorem mixed_loop_next (hd : d + 2 ≤ limit) : mixed_loop t limit delimiter (fuel + 1) d =
    d :: match find_sdp_line_delimiter t limit delimiter (d + 2) with
      | none => []
      | some d' => mixed_loop t limit delimiter fuel d' := by
  rw [mixed_loop, if_neg (by omega), find_next_sdp_line_delimiter]
  by_cases hshort : limit ≤ d ∨ limit - d < 3
  · rw [if_pos hshort, find_none (by omega), mixed_loop_limit]
  · rw [if_neg hshort]
    cases find_sdp_line_delimiter t limit delimiter (d + 2) with
    | none => rw [getD_none, mixed_loop_limit]
    | some d' => rfl

theorem none_iff (h : find_sdp_line_delimiter t limit delimiter c = none) :
    [] = delimiter_lines t limit delimiter c ↔
    Finds t limit delimiter c ∧ ∀ p, c ≤ p → Delimits t limit delimiter p → Finds t limit delimiter (p + 2) := by
  constructor
  · intro hnil
    have hno : ∀ p, c ≤ p → ¬ Delimits t limit delimiter p := by
      intro p hp hdel
      have hmem := mem_delimiter_lines.2 ⟨hp, hdel⟩
      rw [← hnil] at hmem
      exact absurd hmem not_mem_nil
    refine ⟨fun p => ?_, fun p hp hdel => absurd hdel (hno p hp)⟩
    rw [h]
    exact ⟨fun heq => absurd heq (by simp), fun hp => absurd hp.holds (hno p hp.le)⟩
  · rintro ⟨hfinds, -⟩
    refine (eq_nil_iff_forall_not_mem.2 fun p hp => ?_).symm
    obtain ⟨hle, hdel⟩ := mem_delimiter_lines.1 hp
    obtain ⟨k, hk, -⟩ := exists_firstFrom hle hdel
    exact absurd (h.symm.trans ((hfinds k).2 hk)) (by simp)

theorem mixed_loop_iff (hfuel : limit < c + fuel) : (match find_sdp_line_delimiter t limit delimiter c with
      | none => []
      | some d => mixed_loop t limit delimiter fuel d) = delimiter_lines t limit delimiter c ↔
    Finds t limit delimiter c ∧ ∀ p, c ≤ p → Delimits t limit delimiter p → Finds t limit delimiter (p + 2) := by
  induction fuel generalizing c with
  | zero =>
    have hnone : find_sdp_line_delimiter t limit delimiter c = none := find_none (by omega)
    rw [hnone]
    exact none_iff hnone
  | succ fuel ih =>
    cases hd : find_sdp_line_delimiter t limit delimiter c with
    | none => exact none_iff hd
    | some d =>
      obtain ⟨hcd, hlt⟩ := find_lt hd
      have hfinds : Finds t limit delimiter c ↔ FirstFrom (Delimits t limit delimiter) c d := by
        refine ⟨fun h => (h d).1 hd, fun h p => ?_⟩
        rw [hd, some.injEq]
        exact ⟨fun heq => heq ▸ h, fun hp => h.unique hp⟩
      dsimp only
      rw [mixed_loop_next hlt, delimiter_lines_eq_cons, ih (by omega), hfinds]
      refine and_congr_right fun hfirst => ⟨fun h p hp hdel => ?_, fun h => ?_⟩
      · -- no delimiter line stands between `d` and `d + 2`
        obtain hpd | rfl | hdp := Nat.lt_trichotomy p d
        · exact absurd hdel (hfirst.before p hp hpd)
        · exact h.1
        · obtain rfl | hlt' := Nat.eq_or_lt_of_le hdp
          · exact absurd hdel hfirst.holds.not_next
          · exact h.2 p hlt' hdel
      · exact ⟨h d hcd hfirst.holds, fun p hp hdel => h p (by omega) hdel⟩

/-- A search gives the first delimiter line exactly when nothing disturbs it, and the loop comes to every delimiter
line once exactly when nothing disturbs the first search and those behind each delimiter line. -/
theorem find_sdp_line_delimiter_spec (t : Text) (limit start : ℕ) (delimiter : Str) :
    (Finds t limit delimiter start ↔ Undisturbed t limit delimiter start) ∧
    (mixed_delimiters t limit delimiter start = delimiter_lines t limit delimiter start ↔
      Undisturbed t limit delimiter start ∧
        ∀ p, start ≤ p → Delimits t limit delimiter p → Undisturbed t limit delimiter (p + 2)) := by
  refine ⟨finds_iff start, ?_⟩
  have hloop := @mixed_loop_iff t limit start (limit + 1) delimiter (by omega)
  simp only [finds_iff] at hloop
  exact hloop

def dashes : Text := ⟨LF, "--\r\n--bound".toList.map chr⟩

/-- The delimiter is hopped over. -/
theorem dashes_hopped : find_sdp_line_delimiter dashes 11 ("bound".toList.map chr) 0 = none ∧
    ¬ Finds dashes 11 ("bound".toList.map chr) 0 := by
  have hnone : find_sdp_line_delimiter dashes 11 ("bound".toList.map chr) 0 = none := by decide
  refine ⟨hnone, fun h => ?_⟩
  have hbefore : ∀ j < 4, ¬ Delimits dashes 11 ("bound".toList.map chr) j := by decide
  have hfirst : FirstFrom (Delimits dashes 11 ("bound".toList.map chr)) 0 4 :=
    ⟨Nat.zero_le 4, by decide, fun j _ hj => hbefore j hj⟩
  exact absurd (hnone.symm.trans ((h 4).2 hfirst)) (by simp)

end Enumeration

end OpenSips.Sdp
