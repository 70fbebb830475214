import OpenSips.Parser.FirstLine
import Mathlib.Data.List.Find
import Mathlib.Data.FinEnum

/-!
# OpenSips.Parser.Methods — the methods that are recognised (`parse_methods.c`)

`parse_method` compares letters; its tests of the second letter of INFO and INVITE, and of the last one
of REFER, are not what the others are.
-/

namespace OpenSips.FirstLine

open Lib List Option

/-- The methods and their names. -/
def names : List (Str × ℕ) :=
  [("ACK".toList.map chr, METHOD_ACK), ("BYE".toList.map chr, METHOD_BYE),
    ("CANCEL".toList.map chr, METHOD_CANCEL), ("INFO".toList.map chr, METHOD_INFO),
    ("INVITE".toList.map chr, METHOD_INVITE), ("MESSAGE".toList.map chr, METHOD_MESSAGE),
    ("NOTIFY".toList.map chr, METHOD_NOTIFY), ("OPTIONS".toList.map chr, METHOD_OPTIONS),
    ("PRACK".toList.map chr, METHOD_PRACK), ("PUBLISH".toList.map chr, METHOD_PUBLISH),
    ("REFER".toList.map chr, METHOD_REFER), ("REGISTER".toList.map chr, METHOD_REGISTER),
    ("SUBSCRIBE".toList.map chr, METHOD_SUBSCRIBE), ("UPDATE".toList.map chr, METHOD_UPDATE)]

def method_of (t : Str) : ℕ :=
  match names.find? fun m => decide (same_case t m.1) with
  | some m => m.2
  | none => METHOD_OTHER

/-- `i`, any character, `fo` or `vite`, and what follows. -/
def Skips (t v : Str) : Prop := ∃ i c u, t = i :: c :: (u ++ v) ∧ same_case [i] ("I".toList.map chr) ∧
  (same_case u ("FO".toList.map chr) ∨ same_case u ("VITE".toList.map chr))

/-- The texts that are taken for another method: INFO or INVITE with any second character but `n`, and
REFER with a small letter at its end. -/
def Misread (t : Str) : Prop :=
  (Skips t [] ∧ ¬ same_case t ("INFO".toList.map chr) ∧ ¬ same_case t ("INVITE".toList.map chr)) ∨
    same_case t ("REFER".toList.map chr) ∧ t[4]? ≠ some (chr 'R')

/-- The text has characters of `method_char` only, where they are tested. -/
def Readable (t : Str) : Prop :=
  (∀ c ∈ t, method_char c = true) ∨ ∃ v, Skips t v ∧ ∀ c ∈ v, method_char c = true

section Names

variable {t t' u v : Str} {m n i : ℕ}

theorem has_congr (h : same_case t t') (i : ℕ) (text : String) : has t i text = has t' i text := by
  rw [has, has, map_take, map_drop, map_take, map_drop, h]

/-- `text` behind `i` characters. -/
theorem has_iff {text : String} : has t i text = true ↔
    ∃ x y, t.drop i = x ++ y ∧ x.map tolower = text.toList.map chr := by
  rw [has, beq_iff_eq]
  constructor
  · exact fun h => ⟨_, _, (take_append_drop _ _).symm, h⟩
  · rintro ⟨x, y, hd, hx⟩
    have hlen : x.length = text.length := by
      have := congrArg List.length hx
      rwa [length_map, length_map, String.length_toList] at this
    rw [hd, ← hlen, take_left, hx]

theorem has_join {a b : String} (h : has t 0 a = true) (h' : has t a.length b = true) :
    a.length + b.length ≤ t.length ∧
      (t.take (a.length + b.length)).map tolower = a.toList.map chr ++ b.toList.map chr := by
  rw [has, beq_iff_eq, drop_zero] at h
  rw [has, beq_iff_eq] at h'
  have hlen := congrArg List.length h'
  rw [length_map, length_take, length_map, String.length_toList, length_drop] at hlen
  have hlen0 := congrArg List.length h
  rw [length_map, length_take, length_map, String.length_toList] at hlen0
  refine ⟨by omega, ?_⟩
  rw [take_add, map_append, h, h']

theorem known_names : ∀ N ∈ names, known_method N.1 = some (N.2, N.1.length) := by decide

theorem names_inj : ∀ N ∈ names, ∀ N' ∈ names, same_case N.1 N'.1 → N = N' := by decide

theorem method_of_name {N : Str × ℕ} (hN : N ∈ names) (h : same_case t N.1) : method_of t = N.2 := by
  rw [method_of]
  cases hf : names.find? fun m => decide (same_case t m.1) with
  | none => exact absurd (decide_eq_true h) (by simpa using find?_eq_none.1 hf N hN)
  | some m =>
    have hm : same_case t m.1 := of_decide_eq_true (by simpa using find?_some hf)
    rw [names_inj m (mem_of_find?_eq_some hf) N hN (hm.symm.trans h)]

theorem method_of_other (h : ∀ N ∈ names, ¬ same_case t N.1) : method_of t = METHOD_OTHER := by
  rw [method_of, find?_eq_none.2 fun N hN => by simpa using h N hN]

theorem names_fe : ∀ N ∈ names, has N.1 2 "fe" = true → N.1 = "REFER".toList.map chr := by decide

/-- **The names are known**, REFER with a capital letter at its end. -/
theorem known_of_name {N : Str × ℕ} (hN : N ∈ names) (h : same_case t N.1)
    (hr : N.1 = "REFER".toList.map chr → t[4]? = some (chr 'R')) :
    known_method t = some (N.2, t.length) := by
  have hfe : (has N.1 2 "fe" && t[4]? == some (chr 'R')) = (has N.1 2 "fe" && N.1[4]? == some (chr 'R')) := by
    by_cases hh : has N.1 2 "fe" = true
    · have hN' := names_fe N hN hh
      rw [hr hN', hN']
      rfl
    · rw [Bool.eq_false_iff.2 hh]
      rfl
  have heq : known_method t = known_method N.1 := by
    unfold known_method
    simp only [has_congr h, hfe]
  rw [heq, known_names N hN, h.length_eq]

/-- A text that `known_method` takes. -/
inductive Known (t : Str) (m n : ℕ) : Prop where
  | name (N : Str × ℕ) (hN : N ∈ names) (hm : N.2 = m) (hn : N.1.length = n)
      (h : same_case (t.take n) N.1)
  | skips (v : Str) (h : Skips t v) (hn : n + v.length = t.length)

def Sound (t : Str) (o : Option (ℕ × ℕ)) : Prop := ∀ m n, o = some (m, n) → n ≤ t.length ∧ Known t m n

theorem sound_none : Sound t none := fun _ _ h => by cases h

theorem Sound.ite {c : Prop} [Decidable c] {o o' : Option (ℕ × ℕ)} (h : c → Sound t o) (h' : Sound t o') :
    Sound t (if c then o else o') := by
  by_cases hc : c
  · rw [if_pos hc]
    exact h hc
  · rw [if_neg hc]
    exact h'

theorem sound_name {a b : String} (name : String) {k n m : ℕ} (hk : a.length = k) (hn : name.length = n)
    (hN : (name.toList.map chr, m) ∈ names) (h : has t 0 a = true)
    (hname : a.toList.map chr ++ b.toList.map chr = (name.toList.map chr).map tolower) {o : Option (ℕ × ℕ)}
    (ho : Sound t o) : Sound t (if has t k b = true then some (m, n) else o) := by
  subst hk
  refine .ite (fun h' m' n' e => ?_) ho
  cases e
  have hlen := congrArg List.length hname
  have hname' : (name.toList.map chr).length = n := by
    rw [length_map, String.length_toList, hn]
  rw [length_append, length_map, length_map, length_map, hname', String.length_toList,
    String.length_toList] at hlen
  obtain ⟨hle, htake⟩ := has_join h h'
  rw [hlen] at hle htake
  exact ⟨hle, .name (name.toList.map chr, m) hN rfl hname' (htake.trans hname)⟩

theorem sound_skips {b : String} (n m : ℕ) (hn : n = 2 + b.length) (h : has t 0 "i" = true)
    (hb : b.toList.map chr = ("FO".toList.map chr).map tolower ∨
      b.toList.map chr = ("VITE".toList.map chr).map tolower) {o : Option (ℕ × ℕ)} (ho : Sound t o) :
    Sound t (if has t 2 b = true then some (m, n) else o) := by
  refine .ite (fun h' m' n' e => ?_) ho
  cases e
  obtain ⟨u, v, hd, hu⟩ := has_iff.1 h'
  obtain ⟨x, y, hxy, hx⟩ := has_iff.1 h
  have hulen := congrArg List.length hu
  rw [length_map, length_map, String.length_toList] at hulen
  have hne : u ≠ [] := by
    rintro rfl
    rcases hb with hb | hb
    · rw [map_nil, hb] at hu
      exact absurd hu (by decide)
    · rw [map_nil, hb] at hu
      exact absurd hu (by decide)
  match t, hd, hxy with
  | [], hd, _ => exact absurd (append_eq_nil_iff.1 hd.symm).1 hne
  | [c], hd, _ => exact absurd (append_eq_nil_iff.1 hd.symm).1 hne
  | i :: c :: t, hd, hxy =>
    obtain rfl : t = u ++ v := hd
    have hi : same_case [i] ("I".toList.map chr) := by
      cases x with
      | nil => exact absurd hx (by decide)
      | cons a x =>
        obtain ⟨rfl, -⟩ := cons.inj hxy
        have := (cons.inj hx).1
        show [tolower i] = _
        rw [this]
        decide
    refine ⟨?_, .skips v ⟨i, c, u, rfl, hi, ?_⟩ ?_⟩
    · rw [length_cons, length_cons, length_append]
      omega
    · exact hb.imp (fun hb => hu.trans hb) fun hb => hu.trans hb
    · rw [length_cons, length_cons, length_append]
      omega

/-- **What `known_method` takes.** -/
theorem known_sound (t : Str) : Sound t (known_method t) := by
  unfold known_method
  refine .ite (fun h => sound_name "ACK" rfl rfl (by decide) h (by decide) sound_none) ?_
  refine .ite (fun h => sound_name "BYE" rfl rfl (by decide) h (by decide) sound_none) ?_
  refine .ite (fun h => sound_name "CANCEL" rfl rfl (by decide) h (by decide) sound_none) ?_
  refine .ite (fun h => sound_skips 4 METHOD_INFO rfl h (Or.inl (by decide))
    (sound_skips 6 METHOD_INVITE rfl h (Or.inr (by decide)) sound_none)) ?_
  refine .ite (fun h => sound_name "MESSAGE" rfl rfl (by decide) h (by decide) sound_none) ?_
  refine .ite (fun h => sound_name "NOTIFY" rfl rfl (by decide) h (by decide) sound_none) ?_
  refine .ite (fun h => sound_name "OPTIONS" rfl rfl (by decide) h (by decide) sound_none) ?_
  refine .ite (fun h => sound_name "PRACK" rfl rfl (by decide) h (by decide)
    (sound_name "PUBLISH" rfl rfl (by decide) h (by decide) sound_none)) ?_
  refine .ite (fun h => ?_) ?_
  · refine .ite (fun he => ?_) sound_none
    obtain ⟨hle, hre⟩ := has_join h he
    have hjoin : has t 0 "re" = true := by
      rw [has, beq_iff_eq, drop_zero]
      exact hre
    refine .ite (fun hfe => ?_) (sound_name "REGISTER" rfl rfl (by decide) hjoin (by decide) sound_none)
    obtain ⟨hfe, hR⟩ := (Bool.and_eq_true ..).mp hfe
    obtain ⟨hle4, htake⟩ := has_join hjoin hfe
    intro m n e
    cases e
    obtain ⟨hlt, hget⟩ := List.getElem?_eq_some_iff.mp (beq_iff_eq.mp hR)
    refine ⟨hlt, .name ("REFER".toList.map chr, METHOD_REFER) (by decide) rfl rfl ?_⟩
    have h5 : t.take 5 = t.take 4 ++ [chr 'R'] := by
      rw [← hget, take_append_getElem]
    have h4 : (t.take 4).map tolower = "re".toList.map chr ++ "fe".toList.map chr := htake
    show (t.take 5).map tolower = _
    rw [h5, map_append, h4]
    decide
  refine .ite (fun h => sound_name "SUBSCRIBE" rfl rfl (by decide) h (by decide) sound_none) ?_
  exact .ite (fun h => sound_name "UPDATE" rfl rfl (by decide) h (by decide) sound_none) sound_none

theorem i_first : ∀ N ∈ names, (N.1.map tolower).head? = some (chr 'i') →
    N.1 = "INFO".toList.map chr ∨ N.1 = "INVITE".toList.map chr := by decide

/-- The name of a text that `Skips` says something of. -/
theorem Skips.name {N : Str × ℕ} (h : Skips t v) (hN : N ∈ names) (hs : same_case t N.1) :
    N.1 = "INFO".toList.map chr ∨ N.1 = "INVITE".toList.map chr := by
  obtain ⟨i, c, u, rfl, hi, -⟩ := h
  refine i_first N hN ?_
  have hi' : tolower i = chr 'i' := (cons.inj hi).1
  rw [← hs, map_cons, head?_cons, hi']

/-- **They are taken for INFO or INVITE.** -/
theorem Skips.known (h : Skips t v) : ∃ m n, known_method t = some (m, n) ∧ n + v.length = t.length ∧
    (m = METHOD_INFO ∧ n = 4 ∨ m = METHOD_INVITE ∧ n = 6) := by
  obtain ⟨i, c, u, rfl, hi, hu⟩ := h
  have hi' : tolower i = chr 'i' := (cons.inj hi).1
  have hfirst : ∀ text : String, text.length = 1 →
      has (i :: c :: (u ++ v)) 0 text = (text.toList.map chr == [chr 'i']) := by
    intro text hlen
    rw [has, hlen, drop_zero, take_succ_cons, take_zero, map_cons, hi', map_nil]
    exact Bool.beq_comm
  have hbehind : ∀ text : String, text.length ≤ u.length →
      has (i :: c :: (u ++ v)) 2 text = ((u.take text.length).map tolower == text.toList.map chr) := by
    intro text hlen
    rw [has]
    show ((List.take text.length (u ++ v)).map tolower == _) = _
    rw [take_append_of_le_length hlen]
  have hknown : known_method (i :: c :: (u ++ v)) =
      if has (i :: c :: (u ++ v)) 2 "fo" then some (METHOD_INFO, 4)
      else if has (i :: c :: (u ++ v)) 2 "vite" then some (METHOD_INVITE, 6) else none := by
    rw [known_method, hfirst "a" rfl, hfirst "b" rfl, hfirst "c" rfl, hfirst "i" rfl]
    rfl
  have hlen := fun x (hx : same_case u x) => hx.length_eq
  rcases hu with hu | hu
  · have hl := hu.length_eq
    have h2 : u.length = 2 := hl
    have hfo : has (i :: c :: (u ++ v)) 2 "fo" = true := by
      rw [hbehind "fo" (by rw [h2]; decide), show "fo".length = u.length from h2.symm, take_length, hu]
      decide
    refine ⟨METHOD_INFO, 4, by rw [hknown, if_pos hfo], ?_, .inl ⟨rfl, rfl⟩⟩
    rw [length_cons, length_cons, length_append, h2]
    omega
  · have hl := hu.length_eq
    have h4 : u.length = 4 := hl
    have hfo : ¬ has (i :: c :: (u ++ v)) 2 "fo" = true := by
      rw [hbehind "fo" (by rw [h4]; decide), map_take, hu]
      decide
    have hvite : has (i :: c :: (u ++ v)) 2 "vite" = true := by
      rw [hbehind "vite" (by rw [h4]; decide), show "vite".length = u.length from h4.symm, take_length, hu]
      decide
    refine ⟨METHOD_INVITE, 6, by rw [hknown, if_neg hfo, if_pos hvite], ?_, .inr ⟨rfl, rfl⟩⟩
    rw [length_cons, length_cons, length_append, h4]
    omega

end Names

section Token

variable {t u v : Str} {m n k : ℕ} {c : UInt8}

def Token (t : Str) : Prop := t ≠ [] ∧ ∀ c ∈ t, token_char c = true

theorem forall_char {p : UInt8 → Prop} (h : ∀ i < 16, ∀ j < 16, p (UInt8.ofNat (16 * i + j))) (c : UInt8) : p c := by
  have hc := h (c.toNat / 16) (Nat.div_lt_of_lt_mul c.toNat_lt) (c.toNat % 16) (Nat.mod_lt _ (by decide))
  rwa [Nat.div_add_mod, UInt8.ofNat_toNat] at hc

def isLetter (c : UInt8) : Bool := chr 'a' ≤ c && c ≤ chr 'z'

theorem token_not_end (c : UInt8) : token_char c = true → ends_method c = false :=
  forall_char (p := fun c => token_char c = true → ends_method c = false) (by decide) c

theorem method_char_token (c : UInt8) : method_char c = true → token_char c = true :=
  forall_char (p := fun c => method_char c = true → token_char c = true) (by decide) c

theorem method_char_tolower (c : UInt8) : method_char (tolower c) = method_char c :=
  forall_char (p := fun c => method_char (tolower c) = method_char c) (by decide) c

/-- The loop at `unknown` reads a token to its end, or not at all. -/
theorem unknown_loop_token (n : ℕ) (h : ∀ c ∈ t, token_char c = true) : unknown_loop n t =
    if ∀ c ∈ t, method_char c = true then some (n + t.length) else none := by
  induction t generalizing n with
  | nil => simp [unknown_loop]
  | cons c t ih =>
    have hc := token_not_end c (h c mem_cons_self)
    rw [unknown_loop, if_neg (Bool.eq_false_iff.1 hc)]
    by_cases hm : method_char c = true
    · rw [if_pos hm, ih _ fun d hd => h d (mem_cons_of_mem c hd), length_cons,
        add_right_comm, add_assoc]
      simp only [forall_mem_cons, hm, true_and]
    · rw [if_neg hm, if_neg fun hall => hm (hall c mem_cons_self)]

theorem name_chars {N : Str × ℕ} (hN : N ∈ names) (h : same_case t N.1) : ∀ c ∈ t, method_char c = true := by
  have hall : ∀ N ∈ names, (N.1.map tolower).all method_char = true := by decide
  intro c hc
  rw [← method_char_tolower]
  exact List.all_eq_true.1 (hall N hN) _ (h ▸ List.mem_map_of_mem hc)

theorem parse_known (h : known_method t = some (m, t.length)) : parse_method t = some (t.length, m) := by
  rw [parse_method, h]
  dsimp only
  rw [getElem?_eq_none (le_rfl)]

theorem parse_longer (h : known_method t = some (m, n)) (ht : ∀ c ∈ t, token_char c = true)
    (hn : n < t.length) : parse_method t =
      if ∀ c ∈ t.drop n, method_char c = true then some (t.length, METHOD_OTHER) else none := by
  have hc := token_not_end _ (ht _ (getElem_mem hn))
  rw [parse_method, h]
  dsimp only
  rw [getElem?_eq_getElem hn]
  dsimp only
  rw [if_neg (Bool.eq_false_iff.1 hc), unknown_loop_token n fun c hc => ht c (mem_of_mem_drop hc), length_drop]
  by_cases hall : ∀ c ∈ t.drop n, method_char c = true
  · rw [if_pos hall, if_pos hall, map_some, Nat.add_sub_cancel' (le_of_lt hn)]
  · rw [if_neg hall, if_neg hall]
    rfl

theorem parse_unknown (h : known_method t = none) (ht : ∀ c ∈ t, token_char c = true) : parse_method t =
    if ∀ c ∈ t, method_char c = true then some (t.length, METHOD_OTHER) else none := by
  rw [parse_method, h]
  dsimp only
  rw [drop_zero, unknown_loop_token 0 ht, zero_add]
  by_cases hall : ∀ c ∈ t, method_char c = true
  · rw [if_pos hall, if_pos hall]
    rfl
  · rw [if_neg hall, if_neg hall]
    rfl

theorem Skips.drop (h : Skips t v) (hn : n + v.length = t.length) : t.drop n = v := by
  obtain ⟨i, c, u, rfl, -⟩ := h
  rw [length_cons, length_cons, length_append] at hn
  obtain rfl : n = u.length + 1 + 1 := by omega
  rw [drop_succ_cons, drop_succ_cons, drop_left]

theorem refer_unknown (h : same_case t ("REFER".toList.map chr)) (hR : t[4]? ≠ some (chr 'R')) :
    known_method t = none := by
  have hR' : (t[4]? == some (chr 'R')) = false := beq_false_of_ne hR
  unfold known_method
  simp only [has_congr h, hR']
  decide

theorem known_or_misread {N : Str × ℕ} (hN : N ∈ names) (h : same_case t N.1) :
    known_method t = some (N.2, t.length) ∨ known_method t = none ∧ Misread t := by
  by_cases hr : N.1 = "REFER".toList.map chr → t[4]? = some (chr 'R')
  · exact .inl (known_of_name hN h hr)
  · obtain ⟨hN', hR⟩ := Classical.not_imp.1 hr
    rw [hN'] at h
    exact .inr ⟨refer_unknown h hR, .inr ⟨h, hR⟩⟩

theorem misread_refer (h : Misread t) (hk : known_method t = some (m, n)) : Skips t [] ∧
    ¬ same_case t ("INFO".toList.map chr) ∧ ¬ same_case t ("INVITE".toList.map chr) := by
  rcases h with h | ⟨h, hR⟩
  · exact h
  · rw [refer_unknown h hR] at hk
    cases hk

theorem meets_none (ht : Token t) (hk : known_method t = none) :
    parse_method t = some (t.length, method_of t) ↔ Readable t ∧ ¬ Misread t := by
  have hskips : ∀ v, ¬ Skips t v := fun v h => by
    obtain ⟨m, n, hmn, -⟩ := h.known
    rw [hk] at hmn
    cases hmn
  rw [parse_unknown hk ht.2]
  constructor
  · intro h
    split_ifs at h with hall
    have hother : METHOD_OTHER = method_of t := (Prod.mk.inj (some.inj h)).2
    refine ⟨.inl hall, fun hmis => ?_⟩
    rcases hmis with ⟨h', -⟩ | ⟨h', -⟩
    · exact hskips [] h'
    · rw [method_of_name (N := ("REFER".toList.map chr, METHOD_REFER)) (by decide) h'] at hother
      exact absurd hother (by decide)
  · rintro ⟨hread, hmis⟩
    have hall : ∀ c ∈ t, method_char c = true := by
      rcases hread with h | ⟨v, h, -⟩
      · exact h
      · exact absurd h (hskips v)
    rw [if_pos hall, method_of_other]
    intro N hN hs
    rcases known_or_misread hN hs with h | h
    · rw [hk] at h
      cases h
    · exact hmis h.2

theorem meets_whole (hk : known_method t = some (m, t.length)) :
    parse_method t = some (t.length, method_of t) ↔ Readable t ∧ ¬ Misread t := by
  rw [parse_known hk, some.injEq, Prod.mk.injEq, eq_self_iff_true, true_and]
  obtain ⟨-, hknown⟩ := known_sound t m t.length hk
  cases hknown with
  | name N hN hm hn h =>
    rw [take_length] at h
    refine iff_of_true ((method_of_name hN h).trans hm).symm ⟨.inl (name_chars hN h), fun hmis => ?_⟩
    obtain ⟨hskips, h1, h2⟩ := misread_refer hmis hk
    rcases hskips.name hN h with h' | h'
    · exact h1 (h' ▸ h)
    · exact h2 (h' ▸ h)
  | skips v h hv =>
    obtain rfl : v = [] := length_eq_zero_iff.1 (by omega)
    by_cases hname : ∃ N ∈ names, same_case t N.1
    · obtain ⟨N, hN, hs⟩ := hname
      rcases known_or_misread hN hs with h' | ⟨h', -⟩
      · rw [hk] at h'
        have hm := (Prod.mk.inj (some.inj h')).1
        refine iff_of_true (hm.trans (method_of_name hN hs).symm) ⟨.inl (name_chars hN hs), fun hmis => ?_⟩
        obtain ⟨-, h1, h2⟩ := misread_refer hmis hk
        rcases h.name hN hs with hi | hi
        · exact h1 (hi ▸ hs)
        · exact h2 (hi ▸ hs)
      · rw [hk] at h'
        cases h'
    · have hno : ∀ N ∈ names, ¬ same_case t N.1 := fun N hN hs => hname ⟨N, hN, hs⟩
      rw [method_of_other hno]
      refine iff_of_false (fun hm => ?_) fun hmis => hmis.2 (.inl ⟨h, ?_, ?_⟩)
      · obtain ⟨m', n', hk', -, hcases⟩ := h.known
        rw [hk] at hk'
        cases hk'
        rcases hcases with ⟨h', -⟩ | ⟨h', -⟩
        · rw [hm] at h'
          exact absurd h' (by decide)
        · rw [hm] at h'
          exact absurd h' (by decide)
      · exact fun hs => hno ("INFO".toList.map chr, METHOD_INFO) (by decide) hs
      · exact fun hs => hno ("INVITE".toList.map chr, METHOD_INVITE) (by decide) hs

theorem meets_longer (ht : Token t) (hk : known_method t = some (m, n)) (hn : n < t.length) :
    parse_method t = some (t.length, method_of t) ↔ Readable t ∧ ¬ Misread t := by
  have hno : ∀ N ∈ names, ¬ same_case t N.1 := by
    intro N hN hs
    rcases known_or_misread hN hs with h | ⟨h, -⟩
    · rw [hk] at h
      exact absurd (Prod.mk.inj (some.inj h)).2 (ne_of_lt hn)
    · rw [hk] at h
      cases h
  have hsame : ∀ v, Skips t v → t.drop n = v := by
    intro v h
    obtain ⟨m', n', hk', hv, -⟩ := h.known
    rw [hk] at hk'
    cases hk'
    exact h.drop hv
  have hmis : ¬ Misread t := by
    intro h
    have hnil := congrArg List.length (hsame [] (misread_refer h hk).1)
    rw [length_drop, length_nil] at hnil
    omega
  rw [parse_longer hk ht.2 hn, method_of_other hno]
  constructor
  · intro h
    split_ifs at h with hall
    refine ⟨?_, hmis⟩
    obtain ⟨-, hknown⟩ := known_sound t m n hk
    cases hknown with
    | name N hN hm hlen h =>
      refine .inl fun c hc => ?_
      rw [← take_append_drop n t] at hc
      rcases mem_append.1 hc with hc | hc
      · exact name_chars hN h c hc
      · exact hall c hc
    | skips v h hv => exact .inr ⟨v, h, h.drop hv ▸ hall⟩
  · rintro ⟨hread, -⟩
    refine if_pos ?_
    rcases hread with h | ⟨v, h, hv⟩
    · exact fun c hc => h c (mem_of_mem_drop hc)
    · rw [hsame v h]
      exact hv

/-- **A token has the value of the method that it names**, but for those that are misread and those with
characters that are not taken. -/
theorem parse_method_meets (ht : Token t) :
    parse_method t = some (t.length, method_of t) ↔ Readable t ∧ ¬ Misread t := by
  cases hk : known_method t with
  | none => exact meets_none ht hk
  | some x =>
    obtain ⟨m, n⟩ := x
    obtain ⟨hle, -⟩ := known_sound t m n hk
    rcases Nat.lt_or_eq_of_le hle with hn | rfl
    · exact meets_longer ht hk hn
    · exact meets_whole hk

end Token

end OpenSips.FirstLine
