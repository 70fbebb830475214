import Mathlib.Data.List.Basic
import Mathlib.Order.Basic

/-!
# OpenSips.Lib.Framing — a buffer that is judged by how it ends

Reads append to a buffer of `cap` elements.  When no more is there to be read, or when it is full, the
buffer is handed on if it is `valid`, which depends on its end only.  A stream of frames is then taken
apart as it was put together exactly when the reads pause at the end of every frame; otherwise a frame
is lost.
-/

namespace OpenSips.Lib.Framing

open List Option

variable {α : Type*}

/-- What a read gives: data, or that there is no more for now. -/
inductive Chunk (α : Type*) where
  | got (b : List α)
  | again

variable {valid : List α → Bool} {cap : ℕ}

/-- The buffers that are handed on; no read gives nothing, or more than there is space for. -/
def gather (valid : List α → Bool) (cap : ℕ) : List α → List (Chunk α) → Option (List (List α))
  | _, [] => some []
  | buf, .again :: rest =>
    if valid buf then (gather valid cap [] rest).map (buf :: ·) else gather valid cap buf rest
  | buf, .got b :: rest =>
    if b = [] ∨ cap < (buf ++ b).length then none
    else if (buf ++ b).length = cap then
      if valid (buf ++ b) then (gather valid cap [] rest).map ((buf ++ b) :: ·)
      else gather valid cap [] rest
    else gather valid cap (buf ++ b) rest

/-- The data of some reads. -/
def data : List (Chunk α) → List α
  | [] => []
  | .again :: rest => data rest
  | .got b :: rest => b ++ data rest

/-- How many places in `d`, read behind `buf`, end something valid. -/
def ends (valid : List α → Bool) : List α → List α → ℕ
  | _, [] => 0
  | buf, x :: d => (if valid (buf ++ [x]) then 1 else 0) + ends valid (buf ++ [x]) d

/-- A frame is valid at its end and nowhere before it, whatever stands in front of it. -/
structure Frame (valid : List α → Bool) (c : List α) : Prop where
  ne_nil : c ≠ []
  ends : ∀ x p s, c = p ++ s → p ≠ [] → (valid (x ++ p) ↔ s = [])

theorem ends_append (buf d d' : List α) :
    ends valid buf (d ++ d') = ends valid buf d + ends valid (buf ++ d) d' := by
  induction d generalizing buf with
  | nil => rw [nil_append, append_nil, ends, Nat.zero_add]
  | cons x d ih =>
    rw [cons_append, ends, ih, ends, append_assoc, singleton_append, Nat.add_assoc]

theorem ends_of_none {buf d : List α} (h : ∀ p s, d = p ++ s → p ≠ [] → valid (buf ++ p) = false) :
    ends valid buf d = 0 := by
  induction d generalizing buf with
  | nil => rfl
  | cons x d ih =>
    have hx : valid (buf ++ [x]) = false := h [x] d rfl (cons_ne_nil _ _)
    rw [ends, hx, if_neg Bool.false_ne_true, Nat.zero_add]
    refine ih fun p s hd hp => ?_
    rw [append_assoc]
    exact h ([x] ++ p) s (by rw [hd]; rfl) (cons_ne_nil _ _)

theorem valid_le_ends {buf d : List α} (hd : d ≠ []) :
    (if valid (buf ++ d) then 1 else 0) ≤ ends valid buf d := by
  obtain ⟨d, x, rfl⟩ := eq_nil_or_concat d |>.resolve_left hd
  rw [concat_eq_append, ends_append, ends, ends, Nat.add_zero, append_assoc]
  exact Nat.le_add_left _ _

theorem ends_frame {c : List α} (hc : Frame valid c) (buf : List α) : ends valid buf c = 1 := by
  obtain ⟨d, x, rfl⟩ := eq_nil_or_concat c |>.resolve_left hc.ne_nil
  rw [concat_eq_append] at hc ⊢
  have hlast : valid (buf ++ d ++ [x]) = true := by
    rw [append_assoc]
    exact (hc.ends buf (d ++ [x]) [] (append_nil _).symm (by simp)).2 rfl
  have hfirst : ends valid buf d = 0 := by
    refine ends_of_none fun p s hd hp => Bool.eq_false_iff.2 fun hv => ?_
    have hs := (hc.ends buf p (s ++ [x]) (by rw [hd, append_assoc]) hp).1 hv
    exact absurd hs (by simp)
  rw [ends_append, hfirst, ends, ends, hlast]
  rfl

theorem ends_frames {cs : List (List α)} (hcs : ∀ c ∈ cs, Frame valid c) (buf : List α) :
    ends valid buf cs.flatten = cs.length := by
  induction cs generalizing buf with
  | nil => rfl
  | cons c cs ih =>
    rw [List.flatten_cons, ends_append, ends_frame (hcs c mem_cons_self),
      ih (fun c hc => hcs c (mem_cons_of_mem _ hc)), length_cons, Nat.add_comm]

theorem data_append (chunks : List (List α)) (rest : List (Chunk α)) :
    data (chunks.map .got ++ rest) = chunks.flatten ++ data rest := by
  induction chunks with
  | nil => rfl
  | cons b chunks ih =>
    rw [map_cons, cons_append, data, ih, List.flatten_cons, append_assoc]

theorem gather_cut {buf buf' b b' : List α} (hb : b ≠ []) (hb' : b' ≠ [])
    (h : buf ++ b = buf' ++ b') (rest : List (Chunk α)) :
    gather valid cap buf (.got b :: rest) = gather valid cap buf' (.got b' :: rest) := by
  rw [gather, gather, h]
  simp only [hb, hb', false_or]

section Bounds

variable (h0 : valid [] = false) (hmono : ∀ x p, valid p → valid (x ++ p))

include hmono

theorem ends_mono (x buf d : List α) : ends valid buf d ≤ ends valid (x ++ buf) d := by
  induction d generalizing buf with
  | nil => exact Nat.le_refl _
  | cons y d ih =>
    rw [ends, ends, append_assoc]
    refine Nat.add_le_add ?_ (ih _)
    by_cases hv : valid (buf ++ [y])
    · exact Nat.le_of_eq (by rw [if_pos hv, if_pos (hmono x _ hv)])
    · rw [if_neg hv]
      exact Nat.zero_le _

include h0

theorem got_le {buf b : List α} {reads : List (Chunk α)} {out : List (List α)}
    (hle : ∀ buf out, gather valid cap buf reads = some out →
      out.length ≤ (if valid buf then 1 else 0) + ends valid buf (data reads))
    (h : gather valid cap buf (.got b :: reads) = some out) :
    out.length ≤ ends valid buf (b ++ data reads) := by
  rw [gather] at h
  rw [ends_append]
  have hempty : ∀ out, gather valid cap [] reads = some out →
      out.length ≤ ends valid (buf ++ b) (data reads) := by
    intro out h
    have hout := hle [] out h
    rw [h0, if_neg Bool.false_ne_true, Nat.zero_add] at hout
    have hm := ends_mono hmono (buf ++ b) [] (data reads)
    rw [append_nil] at hm
    exact Nat.le_trans hout hm
  by_cases hbad : b = [] ∨ cap < (buf ++ b).length
  · rw [if_pos hbad] at h
    cases h
  rw [if_neg hbad] at h
  have hlast := @valid_le_ends _ valid buf _ fun hb => hbad (.inl hb)
  by_cases hfull : (buf ++ b).length = cap
  · rw [if_pos hfull] at h
    by_cases hv : valid (buf ++ b)
    · rw [if_pos hv] at h hlast
      obtain ⟨out', h', rfl⟩ := map_eq_some_iff.1 h
      have hout := hempty out' h'
      rw [length_cons]
      omega
    · rw [if_neg hv] at h
      exact Nat.le_trans (hempty out h) (Nat.le_add_left _ _)
  · rw [if_neg hfull] at h
    exact Nat.le_trans (hle _ out h) (Nat.add_le_add_right hlast _)

/-- **No more buffers are handed on than there are ends**, that of the buffer included. -/
theorem gather_le {buf : List α} {reads : List (Chunk α)} {out : List (List α)}
    (h : gather valid cap buf reads = some out) :
    out.length ≤ (if valid buf then 1 else 0) + ends valid buf (data reads) := by
  induction reads generalizing buf out with
  | nil =>
    cases h
    exact Nat.zero_le _
  | cons r reads ih =>
    cases r with
    | again =>
      rw [gather] at h
      by_cases hv : valid buf
      · rw [if_pos hv] at h ⊢
        obtain ⟨out', h', rfl⟩ := map_eq_some_iff.1 h
        have hout := ih h'
        have hm := ends_mono hmono buf [] (data reads)
        rw [append_nil] at hm
        rw [h0, if_neg Bool.false_ne_true, Nat.zero_add] at hout
        rw [length_cons, data]
        omega
      · rw [if_neg hv] at h
        exact ih h
    | got b =>
      exact Nat.le_trans (got_le h0 hmono (fun buf out h => ih h) h) (Nat.le_add_left _ _)

/-- **A frame whose end the reads pass over is lost.** -/
theorem passed_lt {c p : List α} {chunks : List (List α)} {rest : List (Chunk α)} {out : List (List α)}
    (hc : valid c) (hcap : c.length < cap) (hp : p.length < c.length)
    (hpass : ∃ x s, p ++ chunks.flatten = c ++ x :: s)
    (h : gather valid cap p (chunks.map .got ++ rest) = some out) :
    out.length + 1 ≤ ends valid p (chunks.flatten ++ data rest) := by
  induction chunks generalizing p out with
  | nil =>
    obtain ⟨x, s, hs⟩ := hpass
    have hlen := congrArg List.length hs
    simp only [flatten_nil, length_append, length_nil, length_cons] at hlen
    omega
  | cons b chunks ih =>
    rw [List.flatten_cons, append_assoc]
    rw [List.flatten_cons, ← append_assoc] at hpass
    rw [map_cons, cons_append] at h
    have hb : ¬ (b = [] ∨ cap < (p ++ b).length) := by
      intro hbad
      rw [gather, if_pos hbad] at h
      cases h
    obtain ⟨x, s, hs⟩ := hpass
    rcases Nat.lt_or_ge (p ++ b).length c.length with hlt | hge
    · -- the end of the frame is not reached
      rw [gather, if_neg hb, if_neg (Nat.ne_of_lt (Nat.lt_trans hlt hcap))] at h
      rw [ends_append]
      exact Nat.le_trans (ih hlt ⟨x, s, hs⟩ h) (Nat.le_add_left _ _)
    · obtain ⟨d, hd⟩ : ∃ d, p ++ b = c ++ d :=
        (append_eq_append_iff.1 hs).elim (fun ⟨a, ha, _⟩ => ⟨[], by
            have ha' : a = [] := by
              have := congrArg List.length ha
              rw [length_append] at this
              exact length_eq_zero_iff.1 (by omega)
            rw [ha, ha', append_nil, append_nil]⟩)
          (fun ⟨a, ha, _⟩ => ⟨a, ha⟩)
      obtain ⟨q, hq, hq'⟩ : ∃ q, c = p ++ q ∧ b = q ++ d := by
        rcases append_eq_append_iff.1 hd with ⟨a, ha, hb'⟩ | ⟨a, ha, hb'⟩
        · exact ⟨a, ha, hb'⟩
        · have hlen := congrArg List.length ha
          rw [length_append] at hlen
          omega
      have hqn : q ≠ [] := by
        rintro rfl
        rw [hq, append_nil] at hp
        exact Nat.lt_irrefl _ hp
      have hone : 1 ≤ ends valid p q := by
        have hlast := @valid_le_ends _ valid p _ hqn
        rwa [← hq, if_pos hc] at hlast
      -- what follows is read as behind the frame
      have hout : out.length ≤ ends valid c (d ++ (chunks.flatten ++ data rest)) := by
        rw [← data_append]
        by_cases hdn : d = []
        · subst hdn
          rw [append_nil] at hd
          rw [gather, if_neg hb, hd, if_neg (Nat.ne_of_lt hcap)] at h
          cases chunks with
          | nil =>
            have hlen := congrArg List.length hs
            rw [flatten_nil, append_nil, hd, length_append, length_cons] at hlen
            omega
          | cons b' chunks =>
            show out.length ≤ ends valid c (b' ++ data (chunks.map .got ++ rest))
            exact got_le h0 hmono (fun _ _ h => gather_le h0 hmono h) h
        · rw [gather_cut (fun hbn => hb (.inl hbn)) hdn hd] at h
          exact got_le h0 hmono (fun _ _ h => gather_le h0 hmono h) h
      rw [hq', append_assoc, ends_append, ← hq]
      omega

end Bounds

section Frames

/-- The reads that give some bursts: between one and the next there is nothing more to be read. -/
def reads (bursts : List (List (List α))) (last : List (List α)) : List (Chunk α) :=
  bursts.flatMap (fun chunks => chunks.map .got ++ [.again]) ++ last.map .got

def Aligned (bursts : List (List (List α))) (cs : List (List α)) : Prop :=
  ∀ k ≤ cs.length, ∃ j ≤ bursts.length, (bursts.take j).flatten.flatten = (cs.take k).flatten

/-- The same behind the start `p` of the first frame. -/
def AlignedFrom (p : List α) (bursts : List (List (List α))) (cs : List (List α)) : Prop :=
  ∀ k, 0 < k → k ≤ cs.length →
    ∃ j ≤ bursts.length, p ++ (bursts.take j).flatten.flatten = (cs.take k).flatten

theorem aligned_iff (bursts : List (List (List α))) (cs : List (List α)) :
    Aligned bursts cs ↔ AlignedFrom [] bursts cs := by
  refine ⟨fun h k _ hk => h k hk, fun h k hk => ?_⟩
  rcases Nat.eq_zero_or_pos k with rfl | hpos
  · exact ⟨0, Nat.zero_le _, rfl⟩
  · exact h k hpos hk

variable {c p : List α} {chunks : List (List α)} {rest : List (Chunk α)} {out cs : List (List α)}

theorem gather_inside (hcap : c.length < cap) (hp : ∃ s, p ++ chunks.flatten ++ s = c)
    (h : gather valid cap p (chunks.map .got ++ rest) = some out) :
    gather valid cap (p ++ chunks.flatten) rest = some out := by
  induction chunks generalizing p with
  | nil => rwa [flatten_nil, append_nil]
  | cons b chunks ih =>
    rw [List.flatten_cons, ← append_assoc] at hp ⊢
    obtain ⟨s, hs⟩ := hp
    have hlen := congrArg List.length hs
    rw [length_append, length_append] at hlen
    rw [map_cons, cons_append, gather] at h
    by_cases hbad : b = [] ∨ cap < (p ++ b).length
    · rw [if_pos hbad] at h
      cases h
    · rw [if_neg hbad, if_neg (by omega)] at h
      exact ih ⟨s, hs⟩ h

theorem Frame.inside (h0 : valid [] = false) (hc : Frame valid c) {s : List α} (hs : s ≠ [])
    (hp : c = p ++ s) : valid p = false := by
  by_cases hn : p = []
  · rw [hn, h0]
  · refine Bool.eq_false_iff.2 fun hv => hs ?_
    exact (hc.ends [] p s hp hn).1 hv

theorem reads_cons (bursts : List (List (List α))) (last : List (List α)) :
    reads (chunks :: bursts) last = chunks.map .got ++ .again :: reads bursts last := by
  rw [reads, flatMap_cons, append_assoc, append_assoc]
  rfl

theorem data_reads (bursts : List (List (List α))) (last : List (List α)) :
    data (reads bursts last) = bursts.flatten.flatten ++ last.flatten := by
  induction bursts with
  | nil =>
    have h := data_append last []
    rw [append_nil] at h
    show data (last.map .got) = last.flatten
    rw [h, data, append_nil]
  | cons chunks bursts ih =>
    rw [reads_cons, data_append, data, ih, List.flatten_cons, flatten_append, append_assoc]

/-- The start of the first frame that was read so far: more is to come, unless there is no frame. -/
def Begun (p : List α) : List (List α) → Prop
  | [] => p = []
  | c :: _ => ∃ s, s ≠ [] ∧ c = p ++ s

theorem begun_nil (hcs : ∀ c ∈ cs, Frame valid c) : Begun [] cs := by
  cases cs with
  | nil => rfl
  | cons c cs => exact ⟨c, (hcs c mem_cons_self).ne_nil, rfl⟩

theorem Begun.length_lt (h : Begun p (c :: cs)) : p.length < c.length := by
  obtain ⟨s, hs, rfl⟩ := h
  rw [length_append]
  exact Nat.lt_add_of_pos_right (length_pos_of_ne_nil hs)

variable {bursts : List (List (List α))}

theorem alignedFrom_ends (hb : Begun p (c :: cs)) (hc : p ++ chunks.flatten = c) :
    AlignedFrom p (chunks :: bursts) (c :: cs) ↔ AlignedFrom [] bursts cs := by
  have hlen := hb.length_lt
  constructor
  · intro h k hpos hk
    obtain ⟨j, hj, he⟩ := h (k + 1) (Nat.succ_pos k) (Nat.succ_le_succ hk)
    cases j with
    | zero =>
      have := congrArg List.length he
      simp only [take_zero, flatten_nil, append_nil, take_succ_cons, List.flatten_cons, length_append] at this
      omega
    | succ j =>
      refine ⟨j, Nat.le_of_succ_le_succ hj, ?_⟩
      rw [take_succ_cons, List.flatten_cons, flatten_append, ← append_assoc, hc,
        take_succ_cons, List.flatten_cons] at he
      exact append_cancel_left he
  · intro h k hpos hk
    obtain ⟨k, rfl⟩ := Nat.exists_eq_succ_of_ne_zero (Nat.ne_of_gt hpos)
    rcases Nat.eq_zero_or_pos k with rfl | hk0
    · refine ⟨1, Nat.succ_le_succ (Nat.zero_le _), ?_⟩
      simp only [take_succ_cons, take_zero, List.flatten_cons, flatten_nil, append_nil, hc]
    · obtain ⟨j, hj, he⟩ := h k hk0 (Nat.le_of_succ_le_succ hk)
      refine ⟨j + 1, Nat.succ_le_succ hj, ?_⟩
      rw [take_succ_cons, List.flatten_cons, flatten_append, ← append_assoc, hc,
        take_succ_cons, List.flatten_cons, ← he, nil_append]

theorem alignedFrom_inside (hb : Begun p (c :: cs)) : AlignedFrom p (chunks :: bursts) (c :: cs) ↔
      AlignedFrom (p ++ chunks.flatten) bursts (c :: cs) := by
  have hlen := hb.length_lt
  constructor
  · intro h k hpos hk
    obtain ⟨j, hj, he⟩ := h k hpos hk
    cases j with
    | zero =>
      obtain ⟨k, rfl⟩ := Nat.exists_eq_succ_of_ne_zero (Nat.ne_of_gt hpos)
      have := congrArg List.length he
      simp only [take_zero, flatten_nil, append_nil, take_succ_cons, List.flatten_cons, length_append] at this
      omega
    | succ j =>
      refine ⟨j, Nat.le_of_succ_le_succ hj, ?_⟩
      rwa [take_succ_cons, List.flatten_cons, flatten_append, ← append_assoc] at he
  · intro h k hpos hk
    obtain ⟨j, hj, he⟩ := h k hpos hk
    refine ⟨j + 1, Nat.succ_le_succ hj, ?_⟩
    rwa [take_succ_cons, List.flatten_cons, flatten_append, ← append_assoc]

theorem not_alignedFrom_past (hb : Begun p (c :: cs)) (hlt : c.length < (p ++ chunks.flatten).length) :
    ¬ AlignedFrom p (chunks :: bursts) (c :: cs) := by
  intro h
  have hp := hb.length_lt
  obtain ⟨j, _, he⟩ := h 1 Nat.one_pos (Nat.succ_le_succ (Nat.zero_le _))
  have hlen := congrArg List.length he
  cases j with
  | zero =>
    simp only [take_zero, flatten_nil, append_nil, take_succ_cons, List.flatten_cons] at hlen
    omega
  | succ j =>
    simp only [take_succ_cons, take_zero, List.flatten_cons, flatten_append,
      flatten_nil, append_nil, length_append] at hlen hlt
    omega

theorem ends_begun {d : List α} (hcs : ∀ c ∈ cs, Frame valid c) (hd : p ++ d = cs.flatten) :
    ends valid p d ≤ cs.length := by
  have h := ends_frames hcs []
  rw [← hd, ends_append] at h
  exact h ▸ Nat.le_add_left _ _

variable (h0 : valid [] = false) (hmono : ∀ x p, valid p → valid (x ++ p))

include h0 hmono

theorem passed_short (hcs : ∀ e ∈ c :: cs, Frame valid e ∧ e.length < cap) (hb : Begun p (c :: cs))
    (hd : p ++ (chunks.flatten ++ data rest) = (c :: cs).flatten)
    (hlt : c.length < (p ++ chunks.flatten).length)
    (h : gather valid cap p (chunks.map .got ++ rest) = some out) :
    out.length < (c :: cs).length := by
  have hc := hcs c mem_cons_self
  have hpass : ∃ x s, p ++ chunks.flatten = c ++ x :: s := by
    rw [List.flatten_cons, ← append_assoc] at hd
    obtain ⟨a, ha, _⟩ | ⟨a, ha, _⟩ := append_eq_append_iff.1 hd
    · have hlen := congrArg List.length ha
      rw [length_append] at hlen
      omega
    · cases a with
      | nil =>
        rw [ha, append_nil] at hlt
        exact absurd hlt (Nat.lt_irrefl _)
      | cons x s => exact ⟨x, s, ha⟩
  have hv : valid c = true := (hc.1.ends [] c [] (append_nil _).symm hc.1.ne_nil).2 rfl
  have hless := passed_lt h0 hmono hv hc.2 hb.length_lt hpass h
  exact Nat.lt_of_lt_of_le hless (ends_begun (fun e he => (hcs e he).1) hd)

theorem gather_none {reads : List (Chunk α)} (hd : p ++ data reads = [])
    (h : gather valid cap p reads = some out) : out = [] := by
  have hle := gather_le h0 hmono h
  obtain ⟨rfl, hnil⟩ := append_eq_nil_iff.1 hd
  rw [hnil, h0] at hle
  exact length_eq_zero_iff.1 (Nat.le_zero.1 hle)

omit h0 hmono in
theorem inside_of_le {d : List α} (hd : p ++ (chunks.flatten ++ d) = (c :: cs).flatten)
    (hle : (p ++ chunks.flatten).length ≤ c.length) : ∃ s, p ++ chunks.flatten ++ s = c := by
  rw [List.flatten_cons, ← append_assoc] at hd
  obtain ⟨a, ha, _⟩ | ⟨a, ha, _⟩ := append_eq_append_iff.1 hd
  · exact ⟨a, ha.symm⟩
  · have hlen := congrArg List.length ha
    rw [@length_append _ c] at hlen
    have hnil : a = [] := length_eq_zero_iff.1 (by omega)
    exact ⟨[], by rw [ha, hnil, append_nil, append_nil]⟩

omit h0 hmono in
theorem not_alignedFrom_nil (hb : Begun p (c :: cs)) : ¬ AlignedFrom p [] (c :: cs) := by
  intro ha
  have hp := hb.length_lt
  obtain ⟨j, _, he⟩ := ha 1 Nat.one_pos (Nat.succ_le_succ (Nat.zero_le _))
  have hlen := congrArg List.length he
  simp only [take_nil, flatten_nil, append_nil, take_succ_cons, take_zero, List.flatten_cons] at hlen
  omega

omit h0 hmono in
theorem alignedFrom_none {bursts : List (List (List α))} : AlignedFrom p bursts [] :=
  fun _ hpos hk => absurd hk (Nat.not_le.2 hpos)

section

variable (hcs : ∀ e ∈ cs, Frame valid e ∧ e.length < cap)
include hcs

theorem gather_last (hb : Begun p cs) (hd : p ++ chunks.flatten = cs.flatten)
    (h : gather valid cap p (chunks.map .got) = some out) :
    (AlignedFrom p [] cs ∧ out = cs) ∨ (¬ AlignedFrom p [] cs ∧ out.length < cs.length) := by
  have hmap : chunks.map Chunk.got = chunks.map .got ++ [] := (append_nil _).symm
  rw [hmap] at h
  cases cs with
  | nil =>
    have hout := gather_none h0 hmono (by rw [data_append, data, append_nil, hd]; rfl) h
    exact .inl ⟨alignedFrom_none, hout⟩
  | cons c cs =>
    refine .inr ⟨not_alignedFrom_nil hb, ?_⟩
    rw [← append_nil chunks.flatten] at hd
    rcases Nat.lt_or_ge c.length (p ++ chunks.flatten).length with hlt | hge
    · exact passed_short h0 hmono hcs hb (by rw [data, hd]) hlt h
    · have hin := gather_inside (hcs c mem_cons_self).2 (inside_of_le hd hge) h
      cases hin
      exact Nat.succ_pos _

/-- What is left of the frames is handed on as it was put together when the reads pause at the end of
every frame, and otherwise one is lost.  Each burst is inside of the first frame, ends with it or goes
past it. -/
theorem gather_from {last : List (List α)} (hb : Begun p cs) (hd : p ++ data (reads bursts last) = cs.flatten)
    (h : gather valid cap p (reads bursts last) = some out) :
    (AlignedFrom p bursts cs ∧ out = cs) ∨ (¬ AlignedFrom p bursts cs ∧ out.length < cs.length) := by
  induction bursts generalizing p out cs with
  | nil =>
    rw [data_reads] at hd
    exact gather_last h0 hmono hcs hb hd h
  | cons chunks bursts ih =>
    cases cs with
    | nil => exact .inl ⟨alignedFrom_none, gather_none h0 hmono hd h⟩
    | cons c cs =>
      have hc := hcs c mem_cons_self
      rw [reads_cons] at h hd
      rw [data_append] at hd
      rcases Nat.lt_or_ge c.length (p ++ chunks.flatten).length with hlt | hge
      · exact .inr ⟨not_alignedFrom_past hb hlt, passed_short h0 hmono hcs hb hd hlt h⟩
      · obtain ⟨s, hs⟩ := inside_of_le hd hge
        rw [← append_assoc] at hd
        have hin := gather_inside hc.2 ⟨s, hs⟩ h
        rw [gather] at hin
        by_cases hnil : s = []
        · -- the frame is handed on, and the next one begins
          subst hnil
          rw [append_nil] at hs
          have hv : valid c = true := (hc.1.ends [] c [] (append_nil _).symm hc.1.ne_nil).2 rfl
          rw [hs, if_pos hv] at hin
          obtain ⟨out', hout', rfl⟩ := map_eq_some_iff.1 hin
          rw [hs, List.flatten_cons] at hd
          have hcs' : ∀ e ∈ cs, Frame valid e ∧ e.length < cap :=
            fun e he => hcs e (mem_cons_of_mem _ he)
          rw [alignedFrom_ends hb hs, cons_inj_right, length_cons, length_cons, Nat.succ_lt_succ_iff]
          exact ih hcs' (begun_nil fun e he => (hcs' e he).1) (append_cancel_left hd) hout'
        · have hv : valid (p ++ chunks.flatten) = false := hc.1.inside h0 hnil hs.symm
          rw [hv, if_neg Bool.false_ne_true] at hin
          rw [alignedFrom_inside hb]
          exact ih hcs ⟨s, hnil, hs.symm⟩ hd hin

/-- **Frames are taken apart as they were put together when the reads pause at the end of every frame,
and otherwise fewer are handed on.** -/
theorem gather_frames {last : List (List α)} (hd : data (reads bursts last) = cs.flatten)
    (h : gather valid cap [] (reads bursts last) = some out) :
    (Aligned bursts cs ∧ out = cs) ∨ (¬ Aligned bursts cs ∧ out.length < cs.length) := by
  rw [aligned_iff]
  exact gather_from h0 hmono hcs (begun_nil fun e he => (hcs e he).1) hd h

end

end Frames

end OpenSips.Lib.Framing
