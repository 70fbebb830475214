import OpenSips.Parser.FirstLine
import Mathlib.Data.List.Find

/-!
# OpenSips.Parser.Arrival — the first line of a message that is still being read

Each step of `parse_first_line` that has not reached the end of the buffer does the same when more of the
message has arrived.
-/

namespace OpenSips.FirstLine

open Lib List

/-- Once `f` does not ask for more, more changes nothing. -/
def Settled {β : Type} (f : Str → Except Failure β) (s : Str) : Prop :=
  f s ≠ .error .too_short → ∀ x, f (s ++ x) = f s

section Steps

variable {s x : Str} {n third : ℕ} {p : UInt8 → Bool}

theorem takeWhile_settled (h : s.drop (s.takeWhile p).length ≠ []) (x : Str) :
    (s ++ x).takeWhile p = s.takeWhile p := by
  have hcut := cut_takeWhile p s
  rw [drop_takeWhile] at h
  have hcut' : Cut p (s ++ x) (s.takeWhile p) (s.dropWhile p ++ x) := by
    refine ⟨?_, hcut.all, fun c hc => hcut.stop c ?_⟩
    · rw [← append_assoc, ← hcut.eq]
    · cases hd : s.dropWhile p with
      | nil => exact absurd hd h
      | cons a y =>
        rw [hd] at hc
        exact hc
  exact hcut'.takeWhile_eq.1

theorem drop_settled (h : s.drop n ≠ []) (x : Str) : (s ++ x).drop n = s.drop n ++ x := by
  refine drop_append_of_le_length (le_of_lt ?_)
  by_contra hn
  exact h (drop_eq_nil_iff.2 (not_lt.1 hn))

theorem Settled.map {β γ : Type} {f : Str → Except Failure β} (h : Settled f s) (g : β → γ) :
    Settled (fun s => (f s).map g) s := by
  intro hs x
  dsimp only at hs ⊢
  rw [h (fun he => hs (by rw [he]; rfl)) x]

theorem line_end_settled (nl : ℕ) (s : Str) : Settled (line_end nl) s := by
  intro h x
  match s with
  | [] => exact absurd rfl h
  | [c] =>
    by_cases hc : c = CR
    · exact absurd (by rw [line_end, if_pos hc]) h
    · simp [line_end, hc]
  | c :: d :: s => rfl

theorem eat_token_end_settled (h : s.drop (eat_token_end s) ≠ []) (x : Str) :
    eat_token_end (s ++ x) = eat_token_end s := congrArg List.length (takeWhile_settled h x)

theorem eat_space_end_settled (h : s.drop (eat_space_end s) ≠ []) (x : Str) :
    eat_space_end (s ++ x) = eat_space_end s := congrArg List.length (takeWhile_settled h x)

theorem eat_token2_end_settled {delim : UInt8} (h : s.drop (eat_token2_end delim s) ≠ []) (x : Str) :
    eat_token2_end delim (s ++ x) = eat_token2_end delim s := congrArg List.length (takeWhile_settled h x)

theorem request_end_settled (hs : s ≠ []) : Settled (request_end third) s := by
  intro h x
  unfold request_end at h ⊢
  dsimp only at h ⊢
  have hd : s.drop (eat_token_end s) ≠ [] := by
    intro hd
    refine h ?_
    rw [hd, drop_nil, if_neg]
    · rfl
    · intro h0
      rw [h0] at hd
      exact hs hd
  rw [eat_token_end_settled hd, drop_settled hd]
  by_cases h0 : eat_token_end s = 0
  · rw [if_pos h0, if_pos h0]
  · rw [if_neg h0] at h
    have hk : (s.drop (eat_token_end s)).drop (eat_space_end (s.drop (eat_token_end s))) ≠ [] := by
      intro hk
      rw [hk] at h
      exact h rfl
    rw [if_neg h0, if_neg h0, eat_space_end_settled hk, drop_settled hk]
    exact (line_end_settled _ _).map _ h x

theorem reply_end_settled (status : Str) : Settled (reply_end status third) s := by
  intro h x
  unfold reply_end at h ⊢
  split at h
  · dsimp only at h ⊢
    split_ifs at h ⊢ with hd
    · have hn : s.drop (eat_token2_end CR s) ≠ [] := by
        intro hn
        rw [hn] at h
        exact h rfl
      rw [eat_token2_end_settled hn, drop_settled hn]
      exact (line_end_settled _ _).map _ h x
    · rfl
  · rfl

theorem starts_with_settled {word : Str} (h : word.length < s.length) (x : Str) :
    starts_with (s ++ x) word = starts_with s word := by
  unfold starts_with
  rw [take_append_of_le_length (le_of_lt h), getElem?_append_left h]

theorem first_token_settled (h : 16 < s.length) : Settled first_token s := by
  intro ht x
  have hfast : ∀ m ∈ fast_methods, m.1.length < 16 := by decide
  have hfind : (fast_methods.find? fun m => starts_with (s ++ x) m.1) =
      fast_methods.find? fun m => starts_with s m.1 := by
    refine find?_congr fun m hm => ?_
    exact starts_with_settled (lt_trans (hfast m hm) h) x
  unfold first_token at ht ⊢
  rw [starts_with_settled (lt_trans (by decide) h), hfind]
  split_ifs at ht ⊢ with hsip
  · rfl
  cases hf : fast_methods.find? fun m => starts_with s m.1 with
  | some m => rfl
  | none =>
    rw [hf] at ht
    dsimp only at ht ⊢
    by_cases hd : s.drop (eat_token_end s) = []
    · -- the token reaches the end: it is not empty, and more is wanted
      have hlen : s.length ≤ eat_token_end s := drop_eq_nil_iff.1 hd
      have h0 : ¬ eat_token_end s = 0 := by omega
      rw [if_neg h0, getElem?_eq_none hlen] at ht
      exact absurd rfl ht
    · have hlt : eat_token_end s < s.length := by
        by_contra hn
        exact hd (drop_eq_nil_iff.2 (not_lt.1 hn))
      rw [eat_token_end_settled hd, getElem?_append_left hlt, take_append_of_le_length (le_of_lt hlt)]

end Steps

section Line

variable {b t x : Str} {fl : MsgStart}

/-- **What `parse_first_line` makes of a buffer is what it makes of a longer one**, unless it asks for
more. -/
theorem parse_first_line_settled (b : Str) : Settled parse_first_line b := by
  intro h x
  unfold parse_first_line at h ⊢
  split_ifs at h with hlen
  · exact absurd rfl h
  have hlen' : 16 < b.length := not_le.1 hlen
  have hlong : ¬ (b ++ x).length ≤ 16 := by
    rw [length_append]
    omega
  rw [if_neg hlong, if_neg hlen]
  have ht : first_token b ≠ .error .too_short := by
    intro ht
    rw [ht] at h
    exact h rfl
  rw [first_token_settled hlen' ht x]
  cases hf : first_token b with
  | error f => rfl
  | ok res =>
    obtain ⟨type, n, value⟩ := res
    rw [hf] at h
    dsimp only at h ⊢
    have hu : (b.drop (n + 1)).drop (eat_token_end (b.drop (n + 1))) ≠ [] := fun hu => h (if_pos hu)
    have hs : b.drop (n + 1) ≠ [] := fun hs => hu (by rw [hs, drop_nil])
    rw [if_neg hu] at h
    rw [drop_settled hs, eat_token_end_settled hu, drop_settled hu]
    obtain ⟨s', hs'⟩ : ∃ s', s' = (b.drop (n + 1)).drop (eat_token_end (b.drop (n + 1))) := ⟨_, rfl⟩
    rw [← hs'] at h hu ⊢
    have hw : s'.drop (eat_space_end s') ≠ [] := by
      intro hw
      by_cases h0 : eat_space_end s' = 0
      · rw [h0] at hw
        exact hu hw
      · rw [if_neg h0, if_pos hw] at h
        exact h rfl
    have happend : ∀ y : Str, y ≠ [] → y ++ x ≠ [] := fun y hy hnil =>
      hy (append_eq_nil_iff.1 hnil).1
    rw [eat_space_end_settled hw, drop_settled hw, if_neg hu, if_neg (happend _ hu), if_neg hw,
      if_neg (happend _ hw)]
    by_cases h0 : eat_space_end s' = 0
    · rw [if_pos h0, if_pos h0]
    rw [if_neg h0, if_neg hw] at h
    rw [if_neg h0, if_neg h0]
    have hlt : eat_token_end (b.drop (n + 1)) ≤ (b.drop (n + 1)).length := by
      by_contra hn
      exact hu (hs' ▸ drop_eq_nil_iff.2 (le_of_lt (not_le.1 hn)))
    rw [take_append_of_le_length hlt]
    cases type with
    | SIP_REPLY => exact (reply_end_settled _).map _ h x
    | SIP_REQUEST => exact (request_end_settled hw).map _ h x

theorem parse_first_line_len (h : parse_first_line b = .ok fl) : fl.len ≤ b.length := by
  cases htype : fl.type with
  | SIP_REQUEST =>
    obtain ⟨-, -, t, u, w, v, k, e, r, hline, -, hfields⟩ := parse_request h htype
    rw [hfields.len, hline.text]
    simp only [length_append, length_cons]
    omega
  | SIP_REPLY =>
    obtain ⟨-, t, u, w, v, e, r, hline, hfields⟩ := parse_reply h htype
    rw [hfields.len, hline.text]
    simp only [length_append, length_cons]
    omega

/-- **The first line of a buffer is the first line of every longer one, and more is wanted until all of
it is there.** -/
theorem first_line_stable (h : parse_first_line b = .ok fl) :
    (∀ t, t <+: b → t.length < fl.len → parse_first_line t = .error .too_short) ∧
      ∀ x, parse_first_line (b ++ x) = .ok fl := by
  constructor
  · rintro t ⟨x, rfl⟩ hlt
    by_contra ht
    have hsame := parse_first_line_settled t ht x
    rw [h] at hsame
    exact absurd (parse_first_line_len hsame.symm) (not_le.2 hlt)
  · intro x
    rw [parse_first_line_settled b (by rw [h]; simp) x, h]

/-- `ACK sip:a SIP/2.0` and its CRLF. -/
def ack_line : Str := [65, 67, 75, 32, 115, 105, 112, 58, 97, 32, 83, 73, 80, 47, 50, 46, 48, 13, 10]

theorem first_line_stable_ack : ∃ fl, parse_first_line ack_line = .ok fl ∧
    (∀ t, t <+: ack_line → t.length < fl.len → parse_first_line t = .error .too_short) ∧
      ∀ x, parse_first_line (ack_line ++ x) = .ok fl := by
  cases h : parse_first_line ack_line with
  | error f =>
    have hok : (parse_first_line ack_line).isOk = true := by decide
    rw [h] at hok
    exact absurd hok Bool.false_ne_true
  | ok fl => exact ⟨fl, rfl, first_line_stable h⟩

end Line

end OpenSips.FirstLine
