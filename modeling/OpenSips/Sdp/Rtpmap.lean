import OpenSips.Lib.First
import OpenSips.Parser.FirstLine
import OpenSips.Parser.Numbers
import Mathlib.Data.List.DropRight

/-!
# OpenSips.Sdp.Rtpmap — the pieces of an `a=rtpmap:` line (`core/parser/sdp/sdp_helpr_funcs.c`)

What is left of the line is counted down by differences of pointers, and a search that finds nothing gives NULL.
-/

namespace OpenSips.Sdp

open Lib List Option
open FirstLine
open Numbers (int)

/-- The text that `body` points to.  Behind it is a NUL or the end of a line, which nothing that it is compared with
has. -/
structure Body where
  addr : ℕ
  s : Str
  len_lt : s.length < 2 ^ 31

/-- A `str`: an address and a length. -/
structure Piece where
  s : ℕ
  len : ℤ
  deriving DecidableEq

structure Rtpmap where
  payload : Piece
  encoding : Piece
  clockrate : Piece
  params : Piece
  deriving DecidableEq

section Source

/-- `ser_memmem`: how far behind `b1` it finds `b2`. -/
def ser_memmem (b1 b2 : Str) : Option ℕ := if b2 = [] then none else first (fun s => b2.isPrefixOf s) b1

/-- How far `eat_line` goes: behind the `\n`, unless nothing is there, and behind a `\r` next to it. -/
def eat_line (s : Str) : ℕ :=
  let nl := (s.takeWhile (· != LF)).length
  if nl = s.length then nl
  else
    let nl := if nl + 1 < s.length then nl + 1 else nl
    if nl + 1 < s.length ∧ s[nl]? = some CR then nl + 1 else nl

/-- What `trim_len` takes from the end. -/
def trimmed (c : UInt8) : Bool := c == 0 || c == CR || c == LF || c == SPACE || c == TAB

/-- `trim_len`: how much it takes from the beginning, and what it leaves. -/
def trim_len (s : Str) : ℕ × Str :=
  let t := s.rdropWhile trimmed
  ((t.takeWhile isSP).length, t.dropWhile isSP)

def RTPMAP : Str := "a=rtpmap:".toList.map chr

/-- The `/` in the text at `cp`, as a pointer. -/
def find_slash (cp : ℕ) (y : Str) : ℕ :=
  if cp = NULL then NULL else ((ser_memmem y [chr '/']).map (cp + ·)).getD NULL

/-- `extract_rtpmap` behind the white space: `y` is left of the line, and `cp` points to it. -/
def extract_encoding (cp : ℕ) (y : Str) : Option (Piece × Piece × Piece) :=
  let cp1 := find_slash cp y
  let len := int (y.length - ((cp1 : ℤ) - cp))
  if len ≤ 0 ∨ cp = cp1 then none
  else
    -- the second search begins at the `/`
    let cp2 := find_slash cp1 (y.drop (cp1 - cp))
    let len' := int (len - ((cp2 : ℤ) - cp1))
    if len' ≤ 0 then none
    else
      some (⟨cp, int ((cp1 : ℤ) - cp)⟩, ⟨cp1 + 1, int (len' - 1)⟩,
        if cp1 = cp2 then ⟨NULL, 0⟩ else ⟨cp2 + 1, int ((cp2 : ℤ) - cp1)⟩)

/-- `extract_rtpmap`; `none` is -1. -/
def extract_rtpmap (body : Body) : Option Rtpmap :=
  if ¬ same_case (body.s.take RTPMAP.length) RTPMAP then none
  else
    let text := body.s.drop RTPMAP.length
    let (lead, x) := trim_len (text.take (eat_line text))
    let payload := body.addr + RTPMAP.length + lead
    let n := eat_token_end x
    if n = 0 then none
    else
      let k := eat_space_end (x.drop n)
      if x.length - n - k = 0 ∨ k = 0 then none
      else (extract_encoding (payload + n + k) ((x.drop n).drop k)).map fun (encoding, clockrate, params) =>
        ⟨⟨payload, n⟩, encoding, clockrate, params⟩

end Source

section Form

/-- `PT SP encoding/clock[/params]` -/
structure Map where
  payload : Str
  encoding : Str
  clock : Str
  params : Option Str

def Solid (w : Str) : Prop := w ≠ [] ∧ ∀ c ∈ w, isToken c = true ∧ c ≠ 0

structure Map.Formed (m : Map) : Prop where
  payload : Solid m.payload
  encoding : Solid m.encoding ∧ chr '/' ∉ m.encoding
  clock : Solid m.clock ∧ chr '/' ∉ m.clock
  params : ∀ p ∈ m.params, Solid p

def Map.text (m : Map) : Str :=
  RTPMAP ++ (m.payload ++ chr ' ' :: (m.encoding ++ chr '/' :: (m.clock ++ m.params.elim [] (chr '/' :: ·))))

/-- The pieces of the line at `addr`. -/
def Map.pieces (m : Map) (addr : ℕ) : Rtpmap :=
  let payload := addr + RTPMAP.length
  let encoding := payload + m.payload.length + 1
  let clockrate := encoding + m.encoding.length + 1
  ⟨⟨payload, m.payload.length⟩, ⟨encoding, m.encoding.length⟩, ⟨clockrate, m.clock.length⟩,
    m.params.elim ⟨NULL, 0⟩ fun p => ⟨clockrate + m.clock.length + 1, p.length⟩⟩

namespace Body

variable (body : Body)

def Line (l : Str) : Prop := ∃ rest, body.s = l ++ rest ∧ (rest = [] ∨ [LF] <+: rest ∨ [CR, LF] <+: rest)

/-- Everything in front of the `\n`. -/
def line : Str := body.s.takeWhile (· != LF)

/-- What is behind the payload. -/
def behind : Str := ((body.line.drop RTPMAP.length).dropWhile isSP).dropWhile isToken

def Inside (sl : Piece) : Prop :=
  sl.len = 0 ∨ body.addr ≤ sl.s ∧ 0 ≤ sl.len ∧ sl.s + sl.len ≤ body.addr + body.line.length

/-- A line of the form gives its pieces, a line without a `/` behind the payload gives none, and no piece is outside. -/
structure Decomposed : Prop where
  formed : ∀ m : Map, m.Formed → body.Line m.text → extract_rtpmap body = some (m.pieces body.addr)
  other : chr '/' ∉ body.behind → extract_rtpmap body = none
  inside : ∀ r, extract_rtpmap body = some r →
    body.Inside r.payload ∧ body.Inside r.encoding ∧ body.Inside r.clockrate ∧ body.Inside r.params

/-- The parts of the line: white space, the payload, white space, and the text up to the white space at the end. -/
structure Parts (name lead pt blanks y trail : Str) : Prop where
  eq : body.line = name ++ (lead ++ (pt ++ (blanks ++ (y ++ trail))))
  same : same_case name RTPMAP
  leads : ∀ c ∈ lead, isSP c = true
  token : pt ≠ [] ∧ ∀ c ∈ pt, isToken c = true
  spaces : blanks ≠ [] ∧ ∀ c ∈ blanks, isSP c = true
  begins : ∃ c y', y = c :: y' ∧ isSP c = false
  ends : ∃ c y', y = y' ++ [c] ∧ trimmed c = false
  trails : ∀ c ∈ trail, trimmed c = true

/-- Where the text behind the payload has no `/`, its address and its length make an `int` that is not positive; and
a line of the form has no params. -/
structure Regular : Prop where
  formed : ∀ m : Map, m.Formed → body.Line m.text → m.params = none
  other : ∀ name lead pt blanks y trail, body.Parts name lead pt blanks y trail → chr '/' ∉ y →
    int (body.addr + (name ++ (lead ++ (pt ++ (blanks ++ y)))).length) ≤ 0

end Body

end Form

section Found

variable {y e z : Str} {cp : ℕ}

theorem slash_found (he : chr '/' ∉ e) : ser_memmem (e ++ chr '/' :: z) [chr '/'] = some e.length := by
  rw [ser_memmem, if_neg (by simp), first_eq_some]
  refine ⟨by rw [length_append, length_cons]; omega, ?_, ?_⟩
  · rw [drop_left]
    exact isPrefixOf_iff_prefix.2 ⟨z, rfl⟩
  · intro j hj
    rw [drop_append_of_le_length (le_of_lt hj), drop_eq_getElem_cons hj]
    refine Bool.eq_false_iff.2 fun h => he ?_
    obtain ⟨r, hr⟩ := isPrefixOf_iff_prefix.1 h
    exact (cons.inj hr).1 ▸ getElem_mem hj

theorem slash_missing (hy : chr '/' ∉ y) : ser_memmem y [chr '/'] = none := by
  rw [ser_memmem, if_neg (by simp), first_eq_none]
  intro j hj
  rw [drop_eq_getElem_cons hj]
  refine Bool.eq_false_iff.2 fun h => hy ?_
  obtain ⟨r, hr⟩ := isPrefixOf_iff_prefix.1 h
  exact (cons.inj hr).1 ▸ getElem_mem hj

theorem int_of_lt {n : ℤ} (h0 : 0 ≤ n) (h : n < 2 ^ 31) : int n = n := by
  rw [int, Int.bmod_def]
  split <;> omega

/-- The encoding is what is in front of the first `/`, and all that is behind it is the clock rate. -/
theorem extract_encoding_found (hcp : cp ≠ NULL) (he : chr '/' ∉ e)
    (hlen : (e ++ chr '/' :: z).length < 2 ^ 31) : extract_encoding cp (e ++ chr '/' :: z) = if e = [] then none
      else some (⟨cp, e.length⟩, ⟨cp + e.length + 1, z.length⟩, ⟨NULL, 0⟩) := by
  have hlen' : (e ++ chr '/' :: z).length = e.length + z.length + 1 := by
    rw [length_append, length_cons]
    omega
  have h1 : find_slash cp (e ++ chr '/' :: z) = cp + e.length := by
    rw [find_slash, if_neg hcp, slash_found he]
    rfl
  have hcp1 : cp + e.length ≠ NULL := fun h => hcp (Nat.eq_zero_of_add_eq_zero_right h)
  have h2 : find_slash (cp + e.length) (chr '/' :: z) = cp + e.length := by
    rw [find_slash, if_neg hcp1, ← nil_append (chr '/' :: z), slash_found (e := []) (by simp)]
    rfl
  have hdrop : (e ++ chr '/' :: z).drop (cp + e.length - cp) = chr '/' :: z := by
    rw [Nat.add_sub_cancel_left, drop_left]
  have hint1 : int ((e ++ chr '/' :: z).length - (((cp + e.length : ℕ) : ℤ) - cp)) = z.length + 1 := by
    rw [int_of_lt (by omega) (by omega)]
    omega
  rw [extract_encoding, h1, hint1, hdrop, h2]
  dsimp only
  have hint2 : int ((z.length + 1 : ℤ) - (((cp + e.length : ℕ) : ℤ) - (cp + e.length : ℕ))) = z.length + 1 := by
    rw [int_of_lt (by omega) (by omega)]
    omega
  have hint3 : int ((z.length + 1 : ℤ) - 1) = z.length := by
    rw [int_of_lt (by omega) (by omega)]
    omega
  have hint4 : int (((cp + e.length : ℕ) : ℤ) - cp) = e.length := by
    rw [int_of_lt (by omega) (by omega)]
    omega
  rw [hint2, hint3, hint4, if_pos rfl]
  by_cases hnil : e = []
  · subst hnil
    rw [if_pos rfl]
    exact if_pos (.inr rfl)
  · have hpos := length_pos_iff.2 hnil
    rw [if_neg hnil, if_neg (by omega), if_neg (by omega)]

/-- Without a `/` NULL is subtracted, and the sign of what comes out decides. -/
theorem extract_encoding_missing (hcp : cp ≠ NULL) (hy : chr '/' ∉ y) : extract_encoding cp y =
    if int (cp + y.length) ≤ 0 then none
    else some (⟨cp, int (-cp)⟩, ⟨1, int (int (cp + y.length) - 1)⟩, ⟨NULL, 0⟩) := by
  have h1 : find_slash cp y = NULL := by
    rw [find_slash, if_neg hcp, slash_missing hy]
    rfl
  have h2 : ∀ y, find_slash NULL y = NULL := fun y => if_pos rfl
  have hint1 : (y.length : ℤ) - (((NULL : ℕ) : ℤ) - cp) = cp + y.length := by
    rw [show ((NULL : ℕ) : ℤ) = 0 from rfl]
    omega
  have hint2 : ∀ n : ℤ, int (int n - (((NULL : ℕ) : ℤ) - (NULL : ℕ))) = int n := by
    intro n
    rw [Int.sub_self, Int.sub_zero, int, int, Int.bmod_bmod]
  have hint3 : ((NULL : ℕ) : ℤ) - cp = -cp := Int.zero_sub _
  rw [extract_encoding, h1, h2, hint1]
  dsimp only
  rw [if_pos rfl, hint2, hint3]
  by_cases hle : int (cp + y.length) ≤ 0
  · rw [if_pos hle, if_pos (.inl hle), if_pos hle]
  · rw [if_neg hle, if_neg (not_or.2 ⟨hle, hcp⟩), if_neg hle]
    rfl

end Found

section Trimmed

variable {l x lead trail s : Str}

theorem rdropWhile_append (hx : ∃ c x', x = x' ++ [c] ∧ trimmed c = false) (ht : ∀ c ∈ trail, trimmed c = true) :
    (lead ++ (x ++ trail)).rdropWhile trimmed = lead ++ x := by
  induction trail using List.reverseRecOn with
  | nil =>
    obtain ⟨c, x', rfl, hc⟩ := hx
    rw [append_nil, ← append_assoc, rdropWhile_concat_neg _ _ _ (Bool.eq_false_iff.1 hc)]
  | append_singleton trail c ih =>
    rw [← append_assoc, ← append_assoc, rdropWhile_concat_pos _ _ _ (ht c (by simp)), append_assoc]
    exact ih fun a ha => ht a (mem_append_left _ ha)

theorem rdropWhile_trail (ht : ∀ c ∈ trail, trimmed c = true) :
    (l ++ trail).rdropWhile trimmed = l.rdropWhile trimmed := by
  induction trail using List.reverseRecOn with
  | nil => rw [append_nil]
  | append_singleton trail c ih =>
    rw [← append_assoc, rdropWhile_concat_pos _ _ _ (ht c (by simp))]
    exact ih fun a ha => ht a (mem_append_left _ ha)

/-- `eat_line` goes to the `\n`, and what it has behind that is trimmed. -/
theorem take_eat_line (s : Str) : ∃ trail, s.take (eat_line s) = s.takeWhile (· != LF) ++ trail ∧
    ∀ c ∈ trail, trimmed c = true := by
  obtain hall | ⟨l, c, r, rfl, hall, hc⟩ := cut_cases (· != LF) s
  · have hself : s.takeWhile (· != LF) = s := takeWhile_eq_self_iff.2 hall
    refine ⟨[], ?_, fun c hc => absurd hc (by simp)⟩
    rw [eat_line, hself, if_pos rfl, take_length, append_nil]
  obtain rfl : c = LF := by simpa using hc
  obtain ⟨hl, -⟩ := (cut_cons (y := r) hall hc).takeWhile_eq
  have hne : l.length ≠ (l ++ LF :: r).length := by
    rw [length_append, length_cons]
    omega
  rw [eat_line, hl, if_neg hne]
  cases r with
  | nil =>
    refine ⟨[], ?_, fun c hc => absurd hc (by simp)⟩
    rw [if_neg (by simp), if_neg (by simp), take_left, append_nil]
  | cons a r =>
    have hlt : l.length + 1 < (l ++ LF :: a :: r).length := by
      rw [length_append, length_cons, length_cons]
      omega
    rw [if_pos hlt]
    have htake : ∀ n, (l ++ LF :: a :: r).take (l.length + n) = l ++ (LF :: a :: r).take n := fun n =>
      take_length_add_append n
    dsimp only
    split
    · next h =>
      have ha : a = CR := by
        have h2 := h.2
        rw [getElem?_append_right (Nat.le_succ _), Nat.succ_eq_add_one, Nat.add_sub_cancel_left] at h2
        exact some.inj h2
      refine ⟨[LF, a], htake 2, fun c hc => ?_⟩
      rcases mem_pair.1 hc with rfl | rfl
      · rfl
      · rw [ha]
        rfl
    · refine ⟨[LF], htake 1, fun c hc => ?_⟩
      obtain rfl := mem_singleton.1 hc
      rfl

theorem trim_eat_line (s : Str) : trim_len (s.take (eat_line s)) = trim_len (s.takeWhile (· != LF)) := by
  obtain ⟨trail, heq, htrail⟩ := take_eat_line s
  rw [heq, trim_len, trim_len, rdropWhile_trail htrail]

theorem trim_parts (l : Str) : ∃ lead trail, l = lead ++ ((trim_len l).2 ++ trail) ∧ (trim_len l).1 = lead.length ∧
    (∀ c ∈ lead, isSP c = true) ∧ (∀ c ∈ trail, trimmed c = true) ∧
    ((trim_len l).2 ≠ [] → ∃ c x', (trim_len l).2 = x' ++ [c] ∧ trimmed c = false) := by
  obtain ⟨heq, hall, -⟩ := cut_takeWhile isSP (l.rdropWhile trimmed)
  refine ⟨(l.rdropWhile trimmed).takeWhile isSP, l.rtakeWhile trimmed, ?_, rfl, hall,
    fun c hc => mem_rtakeWhile_imp hc, fun hne => ?_⟩
  · rw [← append_assoc, trim_len]
    rw [takeWhile_append_dropWhile]
    exact rdropWhile_append_rtakeWhile.symm
  · have hne' : l.rdropWhile trimmed ≠ [] := fun h => hne (by rw [trim_len, h]; rfl)
    have hlast := rdropWhile_last_not trimmed l hne'
    obtain h | ⟨x', c, hx⟩ := eq_nil_or_concat (trim_len l).2
    · exact absurd h hne
    rw [concat_eq_append] at hx
    refine ⟨c, x', hx, Bool.eq_false_iff.2 fun hc => hlast ?_⟩
    have hc' : (l.rdropWhile trimmed).getLast? = some c := by
      rw [heq, show (l.rdropWhile trimmed).dropWhile isSP = x' ++ [c] from hx, ← append_assoc, getLast?_concat]
    rw [getLast?_eq_some_getLast hne'] at hc'
    exact some.inj hc' ▸ hc

end Trimmed

section Shapes

variable {body : Body} {name lead pt blanks y trail : Str}

theorem name_length (h : same_case name RTPMAP) : name.length = RTPMAP.length := by
  have hlen := congrArg List.length h
  rwa [length_map, length_map] at hlen

theorem name_line (h : same_case name RTPMAP) : ∀ c ∈ name, (c != LF) = true := by
  intro c hc
  have hmem : tolower c ∈ RTPMAP.map tolower := h ▸ List.mem_map_of_mem hc
  refine bne_iff_ne.2 ?_
  rintro rfl
  exact absurd hmem (by decide)

theorem named_line (h : same_case (body.s.take RTPMAP.length) RTPMAP) :
    body.line = body.s.take RTPMAP.length ++ (body.s.drop RTPMAP.length).takeWhile (· != LF) := by
  rw [Body.line, ← takeWhile_append_of_pos (name_line h), take_append_drop]

theorem isSP_not_token {c : UInt8} (h : isSP c = true) : isToken c = false := by
  obtain rfl | rfl : c = SPACE ∨ c = TAB := by simpa [isSP] using h
  · rfl
  · rfl

theorem token_not_SP {c : UInt8} (h : isToken c = true) : isSP c = false := by
  by_contra hsp
  rw [isSP_not_token (eq_true_of_ne_false hsp)] at h
  exact Bool.false_ne_true h

namespace Body.Parts

variable (h : body.Parts name lead pt blanks y trail)

include h

theorem take_name : body.s.take RTPMAP.length = name := by
  have hpre : body.line <+: body.s := takeWhile_prefix _
  rw [h.eq] at hpre
  obtain ⟨r, hr⟩ := hpre
  rw [← hr, append_assoc, ← name_length h.same, take_left]

theorem rest_line : (body.s.drop RTPMAP.length).takeWhile (· != LF) =
    lead ++ (pt ++ (blanks ++ (y ++ trail))) := by
  have hline := named_line (h.take_name.symm ▸ h.same)
  rw [h.take_name, h.eq] at hline
  exact (append_cancel_left hline).symm

theorem cut_token (r : Str) : Cut isToken (pt ++ (blanks ++ r)) pt (blanks ++ r) := by
  refine ⟨rfl, h.token.2, fun c hc => ?_⟩
  obtain ⟨b, bs, hb⟩ := exists_cons_of_ne_nil h.spaces.1
  rw [hb] at hc
  obtain rfl := some.inj hc
  exact isSP_not_token (h.spaces.2 b (hb ▸ mem_cons_self))

theorem cut_lead (r : Str) : Cut isSP (lead ++ (pt ++ r)) lead (pt ++ r) := by
  refine ⟨rfl, h.leads, fun c hc => ?_⟩
  obtain ⟨b, bs, hb⟩ := exists_cons_of_ne_nil h.token.1
  rw [hb] at hc
  obtain rfl := some.inj hc
  exact token_not_SP (h.token.2 b (hb ▸ mem_cons_self))

theorem cut_spaces (r : Str) : Cut isSP (blanks ++ (y ++ r)) blanks (y ++ r) := by
  refine ⟨rfl, h.spaces.2, fun c hc => ?_⟩
  obtain ⟨b, y', rfl, hb⟩ := h.begins
  cases hc
  exact hb

theorem trimmed_line : trim_len ((body.s.drop RTPMAP.length).take (eat_line (body.s.drop RTPMAP.length))) =
    (lead.length, pt ++ (blanks ++ y)) := by
  have hend : ∃ c x', pt ++ (blanks ++ y) = x' ++ [c] ∧ trimmed c = false := by
    obtain ⟨c, y', rfl, hc⟩ := h.ends
    exact ⟨c, pt ++ (blanks ++ y'), by rw [append_assoc, append_assoc], hc⟩
  have happ : lead ++ (pt ++ (blanks ++ (y ++ trail))) = lead ++ (pt ++ (blanks ++ y) ++ trail) := by
    rw [append_assoc, append_assoc]
  obtain ⟨h1, h2⟩ := (h.cut_lead (blanks ++ y)).takeWhile_eq
  rw [trim_eat_line, h.rest_line, happ, trim_len, rdropWhile_append hend h.trails, h1, h2]

theorem extract : extract_rtpmap body =
    (extract_encoding (body.addr + (name ++ (lead ++ (pt ++ blanks))).length) y).map
      fun (encoding, clockrate, params) =>
        ⟨⟨body.addr + RTPMAP.length + lead.length, pt.length⟩, encoding, clockrate, params⟩ := by
  have hn := (eat_token_end_of (h.cut_token y)).1
  have hk := (eat_space_end_of (h.cut_spaces [])).1
  rw [append_nil] at hk
  rw [extract_rtpmap, if_neg (not_not.2 (h.take_name.symm ▸ h.same))]
  dsimp only
  rw [h.trimmed_line]
  dsimp only
  have hpt := length_pos_iff.2 h.token.1
  have hblanks := length_pos_iff.2 h.spaces.1
  have hy : 0 < y.length := by
    obtain ⟨c, y', rfl, -⟩ := h.begins
    exact Nat.succ_pos _
  have haddr : body.addr + RTPMAP.length + lead.length + pt.length + blanks.length =
      body.addr + (name ++ (lead ++ (pt ++ blanks))).length := by
    rw [length_append, length_append, length_append, name_length h.same]
    omega
  rw [hn, drop_left, hk, drop_left, haddr, if_neg (by omega), if_neg]
  rw [length_append, length_append]
  omega

theorem behind_eq : body.behind = blanks ++ (y ++ trail) := by
  obtain ⟨-, h1⟩ := (h.cut_lead (blanks ++ (y ++ trail))).takeWhile_eq
  obtain ⟨-, h2⟩ := (h.cut_token (y ++ trail)).takeWhile_eq
  rw [Body.behind, h.eq, ← name_length h.same, drop_left, h1, h2]

theorem slash_behind : chr '/' ∈ body.behind ↔ chr '/' ∈ y := by
  rw [h.behind_eq, mem_append, mem_append]
  constructor
  · rintro (hin | hin | hin)
    · exact absurd (h.spaces.2 _ hin) (by decide)
    · exact hin
    · exact absurd (h.trails _ hin) (by decide)
  · exact fun hin => .inr (.inl hin)

end Body.Parts

theorem extract_none_or_parts (body : Body) : extract_rtpmap body = none ∨
    ∃ name lead pt blanks y trail, body.Parts name lead pt blanks y trail := by
  rw [extract_rtpmap]
  by_cases hname : same_case (body.s.take RTPMAP.length) RTPMAP
  swap
  · exact .inl (if_pos hname)
  obtain ⟨lead, trail, heq, -, hlead, htrail, hlast⟩ := trim_parts ((body.s.drop RTPMAP.length).takeWhile (· != LF))
  rw [if_neg (not_not.2 hname)]
  dsimp only
  rw [trim_eat_line]
  generalize trim_len ((body.s.drop RTPMAP.length).takeWhile (· != LF)) = t at heq hlast
  obtain ⟨n, x⟩ := t
  dsimp only at heq hlast ⊢
  have hpt := cut_takeWhile isToken x
  have hn := (eat_token_end_of hpt).1
  generalize x.takeWhile isToken = pt, x.dropWhile isToken = r at hpt hn
  have hblanks := cut_takeWhile isSP r
  have hk := (eat_space_end_of hblanks).1
  generalize r.takeWhile isSP = blanks, r.dropWhile isSP = y at hblanks hk
  obtain rfl := hblanks.eq
  obtain rfl := hpt.eq
  rw [hn, drop_left, hk, drop_left]
  by_cases hpt0 : pt.length = 0
  · exact .inl (if_pos hpt0)
  rw [if_neg hpt0]
  by_cases hrest : (pt ++ (blanks ++ y)).length - pt.length - blanks.length = 0 ∨ blanks.length = 0
  · exact .inl (if_pos hrest)
  obtain ⟨hy0, hblanks0⟩ := not_or.1 hrest
  have hy : y ≠ [] := by
    rintro rfl
    rw [length_append, length_append] at hy0
    exact hy0 (by simp)
  have hpt' : pt ≠ [] := fun h => hpt0 (congrArg List.length h)
  refine .inr ⟨_, lead, pt, blanks, y, trail, ?_, hname, hlead, ⟨hpt', hpt.all⟩, ⟨?_, hblanks.all⟩, ?_, ?_, htrail⟩
  · rw [named_line hname, heq, append_assoc, append_assoc]
  · exact fun h => hblanks0 (congrArg List.length h)
  · obtain ⟨c, y', rfl⟩ := exists_cons_of_ne_nil hy
    exact ⟨c, y', rfl, hblanks.stop c rfl⟩
  · obtain ⟨c, x', hx, hc⟩ := hlast (append_ne_nil_of_left_ne_nil hpt' _)
    obtain h | ⟨y', b, rfl⟩ := eq_nil_or_concat y
    · exact absurd h hy
    rw [concat_eq_append, ← append_assoc, ← append_assoc] at hx
    obtain ⟨-, hb⟩ := append_inj' hx rfl
    exact ⟨b, y', concat_eq_append, (cons.inj hb).1 ▸ hc⟩

end Shapes

section Lines

variable {m : Map} {w : Str}

/-- What is behind the white space in a line of the form. -/
def Map.tail (m : Map) : Str := m.encoding ++ chr '/' :: (m.clock ++ m.params.elim [] (chr '/' :: ·))

namespace Map.Formed

variable (h : m.Formed)

include h

theorem tail_solid : ∀ c ∈ m.tail, isToken c = true ∧ c ≠ 0 := by
  intro c hc
  obtain hc | hc := mem_append.1 hc
  · exact h.encoding.1.2 c hc
  obtain rfl | hc := mem_cons.1 hc
  · exact ⟨by decide, by decide⟩
  obtain hc | hc := mem_append.1 hc
  · exact h.clock.1.2 c hc
  cases hp : m.params with
  | none =>
    rw [hp] at hc
    exact absurd hc (by simp)
  | some p =>
    rw [hp] at hc
    obtain rfl | hc := mem_cons.1 hc
    · exact ⟨by decide, by decide⟩
    · exact (h.params p hp).2 c hc

theorem text_line : ∀ c ∈ m.text, (c != LF) = true := by
  have htoken : ∀ {c : UInt8}, isToken c = true → (c != LF) = true := by
    intro c hc
    refine bne_iff_ne.2 ?_
    rintro rfl
    exact absurd hc (by decide)
  intro c hc
  obtain hc | hc := mem_append.1 hc
  · exact name_line rfl c hc
  obtain hc | hc := mem_append.1 hc
  · exact htoken (h.payload.2 c hc).1
  obtain rfl | hc := mem_cons.1 hc
  · decide
  · exact htoken (h.tail_solid c hc).1

/-- The parts of such a line; behind it there may be a `\r`. -/
theorem parts {body : Body} (hl : body.Line m.text) :
    ∃ trail, body.Parts RTPMAP [] m.payload [SPACE] m.tail trail := by
  have hline : ∃ trail, body.line = m.text ++ trail ∧ ∀ c ∈ trail, trimmed c = true := by
    obtain ⟨rest, hs, hrest⟩ := hl
    rw [Body.line, hs, takeWhile_append_of_pos h.text_line]
    rcases hrest with rfl | ⟨r, rfl⟩ | ⟨r, rfl⟩
    · exact ⟨[], rfl, fun c hc => absurd hc (by simp)⟩
    · exact ⟨[], rfl, fun c hc => absurd hc (by simp)⟩
    · refine ⟨[CR], rfl, fun c hc => ?_⟩
      obtain rfl := mem_singleton.1 hc
      rfl
  obtain ⟨trail, heq, htrail⟩ := hline
  refine ⟨trail, ?_, rfl, by simp, ⟨h.payload.1, fun c hc => (h.payload.2 c hc).1⟩, ⟨by simp, ?_⟩, ?_, ?_, htrail⟩
  · rw [heq, Map.text, Map.tail, append_assoc, append_assoc]
    rfl
  · intro c hc
    obtain rfl := mem_singleton.1 hc
    rfl
  · obtain ⟨c, w, hc⟩ := exists_cons_of_ne_nil h.encoding.1.1
    refine ⟨c, w ++ chr '/' :: (m.clock ++ m.params.elim [] (chr '/' :: ·)), by rw [Map.tail, hc, cons_append], ?_⟩
    exact token_not_SP (h.encoding.1.2 c (hc ▸ mem_cons_self)).1
  · obtain hnil | ⟨w, c, hw⟩ := eq_nil_or_concat m.tail
    · exact absurd hnil (by simp [Map.tail])
    rw [concat_eq_append] at hw
    refine ⟨c, w, hw, ?_⟩
    obtain ⟨htoken, h0⟩ := h.tail_solid c (by rw [hw]; simp)
    rw [isToken, Bool.and_eq_true, Bool.and_eq_true, Bool.and_eq_true] at htoken
    obtain ⟨⟨⟨h1, h2⟩, h3⟩, h4⟩ := htoken
    simp_all [trimmed]

end Map.Formed

/-- A text with a `/` has a first one. -/
theorem slash_split (h : chr '/' ∈ w) : ∃ e z, w = e ++ chr '/' :: z ∧ chr '/' ∉ e := by
  obtain hall | ⟨e, c, z, rfl, hall, hc⟩ := cut_cases (· != chr '/') w
  · exact absurd (hall _ h) (by decide)
  · obtain rfl : c = chr '/' := by simpa using hc
    exact ⟨e, z, rfl, fun hin => absurd (hall _ hin) (by decide)⟩

end Lines

section Exact

variable {body : Body} {name lead pt blanks y trail : Str} {m : Map}

theorem Body.Parts.length_eq (h : body.Parts name lead pt blanks y trail) : body.line.length =
    RTPMAP.length + lead.length + pt.length + blanks.length + y.length + trail.length := by
  rw [h.eq, length_append, length_append, length_append, length_append, length_append, name_length h.same]
  omega

theorem Body.Parts.address_eq (h : body.Parts name lead pt blanks y trail) :
    body.addr + (name ++ (lead ++ (pt ++ blanks))).length =
      body.addr + (RTPMAP.length + lead.length + pt.length + blanks.length) := by
  rw [length_append, length_append, length_append, name_length h.same]
  omega

theorem Body.Parts.y_lt (h : body.Parts name lead pt blanks y trail) : y.length < 2 ^ 31 := by
  have hle : body.line.length ≤ body.s.length := (List.takeWhile_prefix _).length_le
  have hlt := body.len_lt
  have hlen := h.length_eq
  omega

theorem Body.Parts.address_ne (h : body.Parts name lead pt blanks y trail) :
    body.addr + (name ++ (lead ++ (pt ++ blanks))).length ≠ NULL := by
  have h9 : RTPMAP.length = 9 := rfl
  rw [h.address_eq, h9]
  exact ne_of_gt (by change 0 < _; omega)

/-- A line with a `/` behind the payload. -/
theorem Body.Parts.found {e z : Str} (h : body.Parts name lead pt blanks (e ++ chr '/' :: z) trail)
    (he : chr '/' ∉ e) : extract_rtpmap body = if e = [] then none else
      some ⟨⟨body.addr + RTPMAP.length + lead.length, pt.length⟩,
        ⟨body.addr + (name ++ (lead ++ (pt ++ blanks))).length, e.length⟩,
        ⟨body.addr + (name ++ (lead ++ (pt ++ blanks))).length + e.length + 1, z.length⟩, ⟨NULL, 0⟩⟩ := by
  rw [h.extract, extract_encoding_found h.address_ne he h.y_lt]
  by_cases hnil : e = []
  · rw [if_pos hnil, if_pos hnil]
    rfl
  · rw [if_neg hnil, if_neg hnil]
    rfl

theorem Body.Parts.missing (h : body.Parts name lead pt blanks y trail) (hy : chr '/' ∉ y) :
    extract_rtpmap body = none ↔ int (body.addr + (name ++ (lead ++ (pt ++ (blanks ++ y)))).length) ≤ 0 := by
  have hsum : ((body.addr + (name ++ (lead ++ (pt ++ blanks))).length : ℕ) : ℤ) + y.length =
      body.addr + (name ++ (lead ++ (pt ++ (blanks ++ y)))).length := by
    simp only [length_append]
    omega
  rw [h.extract, extract_encoding_missing h.address_ne hy, hsum, map_eq_none_iff]
  by_cases hle : int (body.addr + (name ++ (lead ++ (pt ++ (blanks ++ y)))).length) ≤ 0
  · rw [if_pos hle]
    exact ⟨fun _ => hle, fun _ => rfl⟩
  · rw [if_neg hle]
    exact ⟨fun h => absurd h (by simp), fun h => absurd h hle⟩

theorem formed_pieces (h : m.Formed) (hl : body.Line m.text) :
    extract_rtpmap body = some (m.pieces body.addr) ↔ m.params = none := by
  obtain ⟨trail, hparts⟩ := h.parts hl
  have hfound := hparts.found h.encoding.2
  rw [if_neg h.encoding.1.1] at hfound
  have haddr : body.addr + (RTPMAP ++ ([] ++ (m.payload ++ [SPACE]))).length =
      body.addr + RTPMAP.length + m.payload.length + 1 := by
    rw [hparts.address_eq, length_nil, length_singleton]
    omega
  rw [hfound, haddr, Map.pieces]
  cases m.params with
  | none =>
    refine ⟨fun _ => rfl, fun _ => ?_⟩
    rw [elim_none, elim_none, append_nil]
    rfl
  | some p =>
    refine ⟨fun heq => ?_, fun heq => absurd heq (by simp)⟩
    have hlen := congrArg (fun r => r.clockrate.len) (some.inj heq)
    dsimp only [elim_some] at hlen
    rw [length_append, length_cons] at hlen
    omega

/-- The slices of a line with a `/` are in it. -/
theorem Body.Parts.inside {e z : Str} (h : body.Parts name lead pt blanks (e ++ chr '/' :: z) trail) :
    body.Inside ⟨body.addr + RTPMAP.length + lead.length, pt.length⟩ ∧
    body.Inside ⟨body.addr + (name ++ (lead ++ (pt ++ blanks))).length, e.length⟩ ∧
    body.Inside ⟨body.addr + (name ++ (lead ++ (pt ++ blanks))).length + e.length + 1, z.length⟩ := by
  have hlen := h.length_eq
  rw [length_append, length_cons] at hlen
  rw [h.address_eq]
  refine ⟨.inr ⟨?_, ?_, ?_⟩, .inr ⟨?_, ?_, ?_⟩, .inr ⟨?_, ?_, ?_⟩⟩ <;> dsimp only <;> omega

/-- A line is taken apart as the form says exactly when it is regular. -/
theorem extract_rtpmap_spec (body : Body) : body.Decomposed ↔ body.Regular := by
  constructor
  · refine fun h => ⟨fun m hm hl => (formed_pieces hm hl).1 (h.formed m hm hl), ?_⟩
    intro name lead pt blanks y trail hp hy
    exact (hp.missing hy).1 (h.other fun hin => hy (hp.slash_behind.1 hin))
  · refine fun h => ⟨fun m hm hl => (formed_pieces hm hl).2 (h.formed m hm hl), ?_, ?_⟩
    · intro hslash
      obtain hnone | ⟨name, lead, pt, blanks, y, trail, hp⟩ := extract_none_or_parts body
      · exact hnone
      · have hy : chr '/' ∉ y := fun hin => hslash (hp.slash_behind.2 hin)
        exact (hp.missing hy).2 (h.other name lead pt blanks y trail hp hy)
    · intro r hr
      obtain hnone | ⟨name, lead, pt, blanks, y, trail, hp⟩ := extract_none_or_parts body
      · exact absurd (hnone.symm.trans hr) (by simp)
      by_cases hy : chr '/' ∈ y
      · obtain ⟨e, z, rfl, he⟩ := slash_split hy
        rw [hp.found he] at hr
        by_cases hnil : e = []
        · rw [if_pos hnil] at hr
          exact absurd hr (by simp)
        · rw [if_neg hnil] at hr
          obtain rfl := some.inj hr
          obtain ⟨h1, h2, h3⟩ := hp.inside
          exact ⟨h1, h2, h3, .inl rfl⟩
      · have hnone := (hp.missing hy).2 (h.other name lead pt blanks y trail hp hy)
        exact absurd (hnone.symm.trans hr) (by simp)

/-- `a=rtpmap:96 L/8/1`, with one channel. -/
def with_params : Body := ⟨4096, "a=rtpmap:96 L/8/1".toList.map chr, by decide⟩

def with_params_map : Map := ⟨['9', '6'].map chr, [chr 'L'], [chr '8'], some [chr '1']⟩

/-- Its clock rate has the channels. -/
theorem with_params_clock : extract_rtpmap with_params =
    some ⟨⟨4105, 2⟩, ⟨4108, 1⟩, ⟨4110, 3⟩, ⟨NULL, 0⟩⟩ ∧ ¬ with_params.Decomposed := by
  have heq : extract_rtpmap with_params = some ⟨⟨4105, 2⟩, ⟨4108, 1⟩, ⟨4110, 3⟩, ⟨NULL, 0⟩⟩ := by decide
  have hsolid : ∀ w ∈ ["96", "L", "8", "1"].map fun w : String => w.toList.map chr, Solid w := by
    unfold Solid
    decide +kernel
  refine ⟨heq, fun h => ?_⟩
  have hformed : with_params_map.Formed := by
    refine ⟨hsolid _ (by decide), ⟨hsolid _ (by decide), by decide⟩, ⟨hsolid _ (by decide), by decide⟩, fun p hp => ?_⟩
    obtain rfl := some.inj hp
    exact hsolid _ (by decide)
  have hpieces := h.formed _ hformed ⟨[], by decide, .inl rfl⟩
  exact absurd (heq.symm.trans hpieces) (by decide)

end Exact

end OpenSips.Sdp
