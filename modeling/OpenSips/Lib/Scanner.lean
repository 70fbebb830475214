import Mathlib.Data.List.Induction

/-!
# OpenSips.Lib.Scanner — machines that read a list, and words they spell

`scan` runs a step over a list with the position of each element and stops at the first error.
A transition function spells words when its states stand for what was read so far: the states that
have a word are then those the word leads to.
-/

namespace OpenSips.Lib

open List Option

variable {σ τ α β ε : Type*}

section Scan

variable {step : σ → ℕ → α → Except ε σ}

/-- One step for each element, at position `p` and behind. -/
def scan (step : σ → ℕ → α → Except ε σ) : σ → ℕ → List α → Except ε σ
  | s, _, [] => .ok s
  | s, p, c :: cs => do
    let s' ← step s p c
    scan step s' (p + 1) cs

def Outcome (P : σ → Prop) (Q : ε → Prop) : Except ε σ → Prop
  | .ok s => P s
  | .error e => Q e

variable {Q : ε → Prop} {s : σ}

theorem Outcome.ok {P : σ → Prop} (h : P s) : Outcome P Q (.ok s) := h

theorem Outcome.ite {P : σ → Prop} {c : Prop} [Decidable c] {r r' : Except ε σ}
    (h : c → Outcome P Q r) (h' : ¬ c → Outcome P Q r') : Outcome P Q (if c then r else r') := by
  by_cases hc : c
  · rw [if_pos hc]
    exact h hc
  · rw [if_neg hc]
    exact h' hc

theorem Outcome.imp {P P' : σ → Prop} {Q Q' : ε → Prop} {r : Except ε σ} (h : Outcome P Q r)
    (hP : ∀ s, P s → P' s) (hQ : ∀ e, Q e → Q' e) : Outcome P' Q' r := by
  cases r with
  | ok s => exact hP s h
  | error e => exact hQ e h

theorem Outcome.bind {υ υ' : Type _} {P : υ → Prop} {P' : υ' → Prop}
    {r : Except ε υ} {f : υ → Except ε υ'} (h : Outcome P Q r) (hf : ∀ s, P s → Outcome P' Q (f s)) :
    Outcome P' Q (r >>= f) := by
  cases r with
  | ok s => exact hf s h
  | error e => exact h

variable {buf : List α} {I : ℕ → σ → Prop} {p : ℕ}

/-- **The rule for a scan**: what every step keeps holds at the end, and what every error has holds
of the error. -/
theorem scan_outcome
    (hstep : ∀ p s c, buf[p]? = some c → I p s → Outcome (I (p + 1)) Q (step s p c)) (hp : p ≤ buf.length) (h0 : I p s) :
    Outcome (I buf.length) Q (scan step s p (buf.drop p)) := by
  obtain ⟨ys, hys⟩ : ∃ ys, ys = buf.drop p := ⟨_, rfl⟩
  rw [← hys]
  induction ys generalizing p s with
  | nil =>
    have hlen : buf.length ≤ p := drop_eq_nil_iff.1 hys.symm
    rw [Nat.le_antisymm hlen hp]
    exact h0
  | cons c ys ih =>
    have hc : buf[p]? = some c := by
      rw [← head?_drop, ← hys, head?_cons]
    have hlt : p < buf.length := (List.getElem?_eq_some_iff.1 hc).1
    refine Outcome.bind (hstep p s c hc h0) fun s1 h1 => ih hlt h1 ?_
    rw [← drop_drop, ← hys, drop_one, tail_cons]

/-- **What every step keeps holds at the end.** -/
theorem scan_invariant
    (hstep : ∀ p s c s', buf[p]? = some c → I p s → step s p c = .ok s' → I (p + 1) s') {s s' : σ} (hp : p ≤ buf.length) (h0 : I p s)
    (h : scan step s p (buf.drop p) = .ok s') : I buf.length s' := by
  have hstep' : ∀ p s c, buf[p]? = some c → I p s → Outcome (I (p + 1)) (fun _ => True) (step s p c) := by
    intro p s c hc hI
    cases hs : step s p c with
    | ok s1 => exact hstep p s c s1 hc hI hs
    | error e => trivial
  have hout := scan_outcome hstep' hp h0
  rw [h] at hout
  exact hout

theorem scan_append (s : σ) (p : ℕ) (xs ys : List α) : scan step s p (xs ++ ys) =
    scan step s p xs >>= fun s' => scan step s' (p + xs.length) ys := by
  induction xs generalizing s p with
  | nil => rfl
  | cons c xs ih =>
    show (step s p c >>= fun s' => scan step s' (p + 1) (xs ++ ys)) =
      (step s p c >>= fun s' => scan step s' (p + 1) xs) >>= _
    cases step s p c with
    | error e => rfl
    | ok s1 =>
      refine (ih s1 (p + 1)).trans ?_
      rw [length_cons, Nat.add_right_comm]
      rfl

/-- **What every step keeps of the elements read so far holds of them all.** -/
theorem scan_prefix {I : List α → σ → Prop} {p0 : ℕ}
    (hstep : ∀ t s c s', I t s → step s (p0 + t.length) c = .ok s' → I (t ++ [c]) s')
    (t : List α) {s s' : σ} (h0 : I [] s) (h : scan step s p0 t = .ok s') : I t s' := by
  induction t using List.reverseRecOn generalizing s' with
  | nil =>
    cases h
    exact h0
  | append_singleton t c ih =>
    rw [scan_append] at h
    cases ht : scan step s p0 t with
    | error e =>
      rw [ht] at h
      cases h
    | ok s1 =>
      rw [ht] at h
      refine hstep t s1 c s' (ih ht) ?_
      change (step s1 (p0 + t.length) c >>= fun s' => Except.ok s') = .ok s' at h
      cases hs : step s1 (p0 + t.length) c with
      | error e =>
        rw [hs] at h
        cases h
      | ok s2 =>
        rw [hs] at h
        exact h

theorem scan_progress {I : σ → Prop} {cs : List α}
    (hstep : ∀ s p, ∀ c ∈ cs, I s → ∃ s', step s p c = .ok s' ∧ I s') (h : I s) :
    ∃ s', scan step s p cs = .ok s' ∧ I s' := by
  induction cs generalizing s p with
  | nil => exact ⟨s, rfl, h⟩
  | cons c cs ih =>
    obtain ⟨s1, h1, hI⟩ := hstep s p c mem_cons_self h
    obtain ⟨s', hs', hI'⟩ := ih (p := p + 1) (fun s p d hd => hstep s p d (mem_cons_of_mem _ hd)) hI
    refine ⟨s', ?_, hI'⟩
    show (step s p c >>= fun s' => scan step s' (p + 1) cs) = _
    rw [h1]
    exact hs'

theorem scan_concat {s s1 s2 : σ} {xs ys : List α} (h : scan step s p xs = .ok s1)
    (h' : scan step s1 (p + xs.length) ys = .ok s2) : scan step s p (xs ++ ys) = .ok s2 := by
  rw [scan_append, h]
  exact h'

theorem scan_take (hstep : ∀ p s c s', buf[p]? = some c → I p s → step s p c = .ok s' → I (p + 1) s')
    {s s' : σ} {n : ℕ} (hn : n ≤ buf.length) (h0 : I 0 s) (h : scan step s 0 (buf.take n) = .ok s') :
    I n s' := by
  have hlen : (buf.take n).length = n := length_take_of_le hn
  have h' : scan step s 0 ((buf.take n).drop 0) = .ok s' := h
  have hinv := scan_invariant (I := I) (fun p s c s' hc => hstep p s c s' ?_) (Nat.zero_le _) h0 h'
  · rwa [hlen] at hinv
  · have hp : p < n := hlen ▸ (List.getElem?_eq_some_iff.1 hc).1
    rwa [getElem?_take_of_lt hp] at hc

theorem scan_take_succ {n : ℕ} {c : α} (h : buf[n]? = some c) :
    scan step s 0 (buf.take (n + 1)) = scan step s 0 (buf.take n) >>= fun s' => step s' n c := by
  have hn : n ≤ buf.length := Nat.le_of_lt (List.getElem?_eq_some_iff.1 h).1
  rw [take_add_one, h, toList_some, scan_append, length_take_of_le hn, Nat.zero_add]
  cases scan step s 0 (buf.take n) with
  | error e => rfl
  | ok v =>
    show (step v n c >>= fun s' => .ok s') = step v n c
    cases step v n c <;> rfl

theorem scan_error_iff {cs : List α} {e : ε} : scan step s p cs = .error e ↔
    ∃ i c v, cs[i]? = some c ∧ scan step s p (cs.take i) = .ok v ∧ step v (p + i) c = .error e := by
  induction cs generalizing s p with
  | nil =>
    constructor
    · exact fun h => absurd h (by simp [scan])
    · rintro ⟨i, c, v, h, -⟩
      exact absurd h (by simp)
  | cons d cs ih =>
    have hcons : scan step s p (d :: cs) = step s p d >>= fun s' => scan step s' (p + 1) cs := rfl
    rw [hcons]
    constructor
    · intro h
      cases hd : step s p d with
      | error e' =>
        rw [hd] at h
        exact ⟨0, d, s, rfl, rfl, hd.trans h⟩
      | ok s1 =>
        rw [hd] at h
        obtain ⟨i, c, v, hc, hv, he⟩ := ih.1 h
        refine ⟨i + 1, c, v, hc, ?_, ?_⟩
        · show (step s p d >>= fun s' => scan step s' (p + 1) (cs.take i)) = _
          rw [hd]
          exact hv
        · rw [← he]
          congr 1
          omega
    · rintro ⟨i, c, v, hc, hv, he⟩
      cases i with
      | zero =>
        obtain rfl := some.inj hc
        obtain rfl := Except.ok.inj hv
        rw [Nat.add_zero] at he
        rw [he]
        rfl
      | succ i =>
        change (step s p d >>= fun s' => scan step s' (p + 1) (cs.take i)) = _ at hv
        cases hd : step s p d with
        | error e' =>
          rw [hd] at hv
          exact absurd hv (by simp [bind, Except.bind])
        | ok s1 =>
          rw [hd] at hv
          refine ih.2 ⟨i, c, v, hc, hv, ?_⟩
          rw [← he]
          congr 1
          omega

end Scan

section Words

variable {next : σ → α → σ} {word : σ → Option (List β)} {letter : α → β} {start : σ}

theorem word_read (h0 : word start = some []) {q : List α}
    (hback : ∀ c ∈ q, ∀ s w, word (next s c) = some w → ∃ v, word s = some v ∧ w = v ++ [letter c])
    {w : List β} (h : word (q.foldl next start) = some w) : w = q.map letter := by
  induction q using List.reverseRecOn generalizing w with
  | nil =>
    rw [foldl_nil, h0] at h
    exact (some.inj h).symm
  | append_singleton q c ih =>
    rw [foldl_append, foldl_cons, foldl_nil] at h
    obtain ⟨v, hv, rfl⟩ := hback c (by simp) _ w h
    rw [ih (fun d hd => hback d (mem_append_left _ hd)) hv, map_append, map_cons, map_nil]

variable (letter) in
theorem read_word (h0 : ∀ t, word t = some [] → t = start)
    (hprev : ∀ t v x, word t = some (v ++ [x]) → ∃ s, word s = some v ∧ ∀ c, letter c = x → next s c = t)
    {q : List α} {t : σ} (h : word t = some (q.map letter)) : q.foldl next start = t := by
  induction q using List.reverseRecOn generalizing t with
  | nil => exact (h0 t h).symm
  | append_singleton q c ih =>
    rw [map_append, map_cons, map_nil] at h
    obtain ⟨s, hs, hn⟩ := hprev t _ _ h
    rw [foldl_append, foldl_cons, foldl_nil, ih hs]
    exact hn c rfl

end Words

end OpenSips.Lib
