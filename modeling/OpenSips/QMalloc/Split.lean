import OpenSips.QMalloc.Carve

/-!
# OpenSips.QMalloc.Split — `split_frag` and joining neighbours

Both rewrite headers and footers of fragments that are on no list; `split_frag` then puts the rest
on its list.
-/

namespace OpenSips.QMalloc

open List

variable {b : Build} {q q' q'' : QmBlock} {L : ℕ → List ℕ}

structure SameArena (q q' : QmBlock) : Prop where
  qm : q'.qm = q.qm
  size : q'.size = q.size
  first_frag : q'.first_frag = q.first_frag
  last_frag_end : q'.last_frag_end = q.last_frag_end

theorem SameArena.refl (q : QmBlock) : SameArena q q := ⟨rfl, rfl, rfl, rfl⟩

theorem SameArena.trans (h : SameArena q q') (h' : SameArena q' q'') : SameArena q q'' :=
  ⟨h'.1.trans h.1, h'.2.trans h.2, h'.3.trans h.3, h'.4.trans h.4⟩

theorem SameCtl.arena (h : SameCtl q q') : SameArena q q' := ⟨h.1, h.2, h.6, h.7⟩

theorem insert_frozen {A B : List Frag} {f : Frag} (hC : Core b q (A ++ f :: B) L)
    (hm : ∀ a, ¬ LinkWord b q (A ++ { f with free := true } :: B) a → q'.mem a = q.mem a) :
    Frozen b q q' (A ++ B) :=
  ((hC.toBase.flag true).frozen hm).mono fun _ hg => mem_middle.2 (.inr hg)

/-! ### Splitting -/

/-- `split_frag` splits when the residue is big enough. -/
def Splits (b : Build) (size new_size : ℕ) : Prop :=
  size - new_size > FRAG_OVERHEAD b + QM_MALLOC_OPTIMIZE ∨ size - new_size ≥ FRAG_OVERHEAD b + new_size

instance (size new_size : ℕ) : Decidable (Splits b size new_size) :=
  inferInstanceAs (Decidable (_ ∨ _))

/-- The block after the writes of `split_frag`, the residue not yet on its list. -/
def carved (b : Build) (q : QmBlock) (f size new : ℕ) : QmBlock :=
  let e := f + (sizeof_frag b + new)
  let n := f + span b new
  let rest := size - new - FRAG_OVERHEAD b
  let q := (((q.store f new).store (e + end_size b) new).store n rest).store
    (n + (sizeof_frag b + rest + end_size b)) rest
  mark b { q with real_used := wrap (q.real_used + FRAG_OVERHEAD b) } n e

theorem split_frag_eq {f new : ℕ} : split_frag b q f new = if Splits b (q.mem f) new then
      (qm_insert_free b (carved b q f (q.mem f) new) (f + span b new)).map fun q => (q, true)
    else some (q, false) := by
  obtain ⟨o1, o2, -⟩ := offsets b
  have e1 : f + sizeof_frag b + new = f + (sizeof_frag b + new) := by omega
  have e2 : ∀ r, f + span b new + sizeof_frag b + r + end_size b =
      f + span b new + (sizeof_frag b + r + end_size b) := fun r => by omega
  have e3 : f + (sizeof_frag b + new) + sizeof_frag_end b = f + span b new := by
    unfold span; omega
  unfold split_frag
  by_cases hs : Splits b (q.mem f) new
  · rw [if_pos hs]
    unfold Splits at hs
    rw [if_pos hs]
    simp only [FRAG_END, store_mem, if_true, e1, e2, e3]
    unfold carved
    cases qm_insert_free b _ (f + span b new) <;> rfl
  · rw [if_neg hs]
    exact if_neg hs

theorem carved_ctl (f size new : ℕ) : SameArena q (carved b q f size new) ∧
    (carved b q f size new).no = q.no ∧ (carved b q f size new).used = q.used ∧
    (carved b q f size new).max_real_used = q.max_real_used ∧
    (carved b q f size new).real_used = wrap (q.real_used + FRAG_OVERHEAD b) := by
  unfold carved mark
  cases b.dbg <;> exact ⟨⟨rfl, rfl, rfl, rfl⟩, rfl, rfl, rfl, rfl⟩

/-- What `split_frag` leaves of a fragment: `f'` in its place, and at most one free residue. -/
structure Cut (b : Build) (f f' : Frag) (T : List Frag) (new : ℕ) : Prop where
  addr : f'.addr = f.addr
  live : f'.free = false
  le : new ≤ f'.size
  rest : (T = [] ∧ f' = { f with free := false }) ∨ (new + FRAG_OVERHEAD b ≤ f.size ∧ f'.size = new ∧
      T = [⟨f.addr + span b new, f.size - new - FRAG_OVERHEAD b, true⟩])

theorem Cut.size {f f' : Frag} {T : List Frag} {new : ℕ} (h : Cut b f f' T new) :
    f.size = f'.size + (T.map fun g => g.size + FRAG_OVERHEAD b).sum := by
  rcases h.rest with ⟨rfl, h2⟩ | ⟨h1, h2, rfl⟩
  · rw [h2]; rfl
  · simp only [map_cons, map_nil, sum_cons, sum_nil, h2]
    omega

theorem Cut.free {f f' : Frag} {T : List Frag} {new : ℕ} (h : Cut b f f' T new) :
    ∀ g ∈ T, g.free = true := by
  rcases h.rest with ⟨rfl, -⟩ | ⟨-, -, rfl⟩ <;> simp

/-- The words of a fragment that a split keeps: all but its size, up to its end. -/
def KeepsData (b : Build) (q q' : QmBlock) (f : Frag) : Prop :=
  ∀ j, 0 < j → j < sizeof_frag b + f.size → q'.mem (f.addr + j) = q.mem (f.addr + j)

section Carved

variable {A B : List Frag} {f : Frag} {a size new rest : ℕ}

section

variable (hr : size - new - FRAG_OVERHEAD b = rest)
include hr

/-- The words `carved` writes, for a residue of size `rest`. -/
theorem carved_mem (x : ℕ) : (carved b q a size new).mem x =
      if b.dbg = true ∧ x = a + (sizeof_frag b + new) + 8 then END_CHECK_PATTERN2
      else if b.dbg = true ∧ x = a + (sizeof_frag b + new) then END_CHECK_PATTERN1
      else if b.dbg = true ∧ x = a + span b new + 40 then ST_CHECK_PATTERN
      else if x = a + span b new + (sizeof_frag b + rest + end_size b) then rest
      else if x = a + span b new then rest
      else if x = a + (sizeof_frag b + new) + end_size b then new
      else if x = a then new else q.mem x := by
  subst hr
  rw [carved, mark_mem]
  simp only [store_mem]

theorem carved_same {x : ℕ} (h : x < a ∨ (a < x ∧ x < a + (sizeof_frag b + new)) ∨
      (a + span b new + (sizeof_frag b + rest) ≤ x ∧ x < a + span b new + (sizeof_frag b + rest) + end_size b) ∨
      a + span b new + span b rest ≤ x) :
    (carved b q a size new).mem x = q.mem x := by
  obtain ⟨o1, o2, o3, o4, -, o6⟩ := offsets b
  rw [carved_mem hr]
  have hn : span b new = sizeof_frag b + new + sizeof_frag_end b := rfl
  have hs : span b rest = sizeof_frag b + rest + sizeof_frag_end b := rfl
  rw [if_neg, if_neg, if_neg, if_neg, if_neg, if_neg, if_neg] <;> try omega
  rintro ⟨hb, e⟩
  have := o6 hb
  omega

theorem carved_left (hd : ROUNDTO b ∣ new) (hc : b.dbg = true → q.mem (a + 40) = ST_CHECK_PATTERN) :
    Intact b (carved b q a size new) ⟨a, new, false⟩ := by
  obtain ⟨o1, o2, o3, o4, -, o6⟩ := offsets b
  have hn : span b new = sizeof_frag b + new + sizeof_frag_end b := rfl
  refine ⟨?_, ?_, hd, fun hb => ⟨?_, ?_, ?_⟩⟩ <;> dsimp only
  · rw [carved_mem hr]
    split_ifs <;> omega
  · rw [carved_mem hr]
    split_ifs <;> first | omega | (have h6 := o6 (‹b.dbg = true ∧ _›).1; omega)
  · rw [carved_same hr (.inr (.inl (by have := o6 hb; omega))), hc hb]
  · rw [carved_mem hr, if_neg (by omega), if_pos ⟨hb, by omega⟩]
  · rw [carved_mem hr, if_pos ⟨hb, by omega⟩]

theorem carved_right (hd : ROUNDTO b ∣ rest)
    (hc : b.dbg = true → q.mem (a + span b new + (sizeof_frag b + rest)) = END_CHECK_PATTERN1 ∧
      q.mem (a + span b new + (sizeof_frag b + rest + 8)) = END_CHECK_PATTERN2) :
    Intact b (carved b q a size new) ⟨a + span b new, rest, false⟩ := by
  obtain ⟨o1, o2, o3, o4, -, o6⟩ := offsets b
  have hn : span b new = sizeof_frag b + new + sizeof_frag_end b := rfl
  refine ⟨?_, ?_, hd, fun hb => ?_⟩ <;> dsimp only
  · rw [carved_mem hr]
    split_ifs <;> omega
  · rw [carved_mem hr]
    split_ifs <;> first | omega | (have h6 := o6 (‹b.dbg = true ∧ _›).1; omega)
  · obtain ⟨c1, c2⟩ := hc hb
    obtain ⟨o6, o7⟩ := o6 hb
    refine ⟨?_, ?_, ?_⟩
    · rw [carved_mem hr, if_neg (by omega), if_neg (by omega), if_pos ⟨hb, rfl⟩]
    · rw [carved_same hr (.inr (.inr (.inl (by omega)))), c1]
    · rw [carved_same hr (.inr (.inr (.inl (by omega)))), c2]

end

theorem carved_core (hC : Core b q (A ++ f :: B) L) (hf : f.free = false)
    (hd : ROUNDTO b ∣ new) (hs : new + FRAG_OVERHEAD b ≤ f.size)
    (hrest : f.size - new - FRAG_OVERHEAD b = rest) :
    Core b (carved b q f.addr f.size new)
      (A ++ [⟨f.addr, new, false⟩] ++ ⟨f.addr + span b new, rest, false⟩ :: B) L ∧
    Frozen b q (carved b q f.addr f.size new) (A ++ B) := by
  obtain ⟨-, -, -, -, o5, -⟩ := offsets b
  obtain ⟨t1, t2⟩ := tiled_cut hC.tiled
  obtain ⟨-, -, i3, i4⟩ := hC.intact f (by simp)
  obtain ⟨⟨c1, -, c3, c4⟩, c5, -⟩ := carved_ctl (b := b) (q := q) f.addr f.size new
  have hdr : ROUNDTO b ∣ rest := by
    rw [← hrest, Nat.sub_sub]
    exact Nat.dvd_sub i3 (Nat.dvd_add hd (ROUNDTO_dvd_overhead b))
  have hC' : Core b q (A ++ [f] ++ B) L := by simpa using hC
  have hsz : f.addr + span b f.size = f.addr + span b new + span b rest := by
    unfold span
    omega
  have he : f.addr + span b new + (sizeof_frag b + rest) = f.addr + (sizeof_frag b + f.size) := by
    unfold span at hsz ⊢
    omega
  have key := hC'.refill [⟨f.addr, new, false⟩, ⟨f.addr + span b new, rest, false⟩]
    (by simpa using hf) t1 t2 ⟨rfl, rfl, hsz.symm⟩
    (fun g hg => ?_) (fun x hx => carved_same hrest (by omega)) c1 c3 c4 c5
  · simpa using key
  · rcases mem_pair.1 hg with rfl | rfl
    · exact ⟨rfl, carved_left hrest hd fun hb => (i4 hb).1⟩
    · refine ⟨rfl, carved_right hrest hdr fun hb => ?_⟩
      obtain ⟨-, k1, k2⟩ := i4 hb
      exact ⟨by rw [he, k1], by rw [← add_assoc, he, add_assoc, k2]⟩

end Carved

/-- What `split_frag` does besides: the other fragments, the data of this one, the accounting. -/
structure SplitPost (b : Build) (q q' : QmBlock) (f f' : Frag) (T G : List Frag) (new : ℕ) :
    Prop where
  cut : Cut b f f' T new
  splits : T = [] ↔ ¬ Splits b f.size new
  frozen : Frozen b q q' G
  data : KeepsData b q q' f'
  arena : SameArena q q'
  used : q'.used = q.used
  max : q'.max_real_used = q.max_real_used
  real : q'.real_used = if T = [] then q.real_used else wrap (q.real_used + FRAG_OVERHEAD b)

theorem split_spec {A B : List Frag} {f : Frag} {new : ℕ} (hC : Core b q (A ++ f :: B) L)
    (hf : f.free = false) (hd : ROUNDTO b ∣ new) (hle : new ≤ f.size) :
    ∃ q' f' T L', split_frag b q f.addr new = some (q', decide (Splits b f.size new)) ∧
      Core b q' (A ++ f' :: (T ++ B)) L' ∧ SplitPost b q q' f f' T (A ++ B) new := by
  have hi := (hC.intact f (by simp)).head
  by_cases hs : Splits b f.size new
  · have hov : new + FRAG_OVERHEAD b ≤ f.size := by
      unfold Splits at hs
      omega
    obtain ⟨rest, hrest⟩ : ∃ r, f.size - new - FRAG_OVERHEAD b = r := ⟨_, rfl⟩
    obtain ⟨hC1, hfr⟩ := carved_core hC hf hd hov hrest
    obtain ⟨c1, c2, c3, c4, c5⟩ := carved_ctl (b := b) (q := q) f.addr f.size new
    obtain ⟨q', L', hq', hC2, hctl, hm⟩ := insert_spec hC1 rfl
    have hfr2 := insert_frozen hC1 hm
    refine ⟨q', ⟨f.addr, new, false⟩, [⟨f.addr + span b new, rest, true⟩], L', ?_, ?_, ?_⟩
    · rw [split_frag_eq, hi, if_pos hs, hq', decide_eq_true hs]
      rfl
    · simpa using hC2
    · refine ⟨⟨rfl, rfl, le_rfl, .inr ⟨hov, rfl, by rw [hrest]⟩⟩, by simp [hs], ?_, ?_,
        c1.trans hctl.arena, by rw [hctl.used, c3], by rw [hctl.max_real_used, c4], ?_⟩
      · refine hfr.trans (hfr2.mono fun g hg => ?_)
        simp only [mem_append] at hg ⊢
        tauto
      · intro j hj hj'
        rw [hfr2 ⟨f.addr, new, false⟩ (by simp) rfl j (by unfold span; omega)]
        exact carved_same hrest (.inr (.inl (by dsimp only at hj' ⊢; omega)))
      · rw [hctl.real_used, c5, if_neg (by simp)]
  · refine ⟨q, f, [], L, ?_, hC, ⟨rfl, hf, hle, .inl ⟨rfl, ?_⟩⟩, by simp [hs], Frozen.refl _,
      fun _ _ _ => rfl, SameArena.refl q, rfl, rfl, rfl⟩
    · rw [split_frag_eq, hi, if_neg hs, decide_eq_false hs]
    · rw [← hf]

/-! ### Joining -/

def resized (b : Build) (q : QmBlock) (f size : ℕ) : QmBlock :=
  (q.store f size).store (f + (sizeof_frag b + size + end_size b)) size

theorem resized_eq (f size : ℕ) : resized b q f size =
    (q.store f size).store (FRAG_END b (q.store f size) f + end_size b) ((q.store f size).mem f) := by
  rw [resized, FRAG_END, store_mem, if_pos rfl]
  congr 1
  omega

theorem resized_mem {f size x : ℕ} (h1 : x ≠ f) (h2 : x ≠ f + (sizeof_frag b + size + end_size b)) :
    (resized b q f size).mem x = q.mem x := by
  rw [resized, store_mem, store_mem, if_neg h2, if_neg h1]

theorem tiled_ends {F : List Frag} {m m' : ℕ} (h : Tiled b m F m') (hne : F ≠ []) :
    (∃ f ∈ F, f.addr = m) ∧ ∃ g ∈ F, g.addr + span b g.size = m' := by
  induction F generalizing m with
  | nil => exact absurd rfl hne
  | cons f F ih =>
    obtain ⟨h1, h2⟩ := h
    refine ⟨⟨f, by simp, h1⟩, ?_⟩
    rcases eq_or_ne F [] with rfl | hF
    · exact ⟨f, by simp, by rw [h1]; exact h2⟩
    · obtain ⟨g, hg, e⟩ := (ih h2 hF).2
      exact ⟨g, mem_cons_of_mem _ hg, e⟩

/-- **Neighbours on no list become one fragment.** -/
theorem Core.join {A F B : List Frag} {m m' s : ℕ} (hC : Core b q (A ++ F ++ B) L)
    (hF : ∀ f ∈ F, f.free = false) (hne : F ≠ []) (hA : Tiled b q.first_frag A m)
    (hT : Tiled b m F m') (hs : m + span b s = m') (hd : ROUNDTO b ∣ s) :
    Core b (resized b q m s) (A ++ ⟨m, s, false⟩ :: B) L ∧ Frozen b q (resized b q m s) (A ++ B) := by
  obtain ⟨o1, o2, o3, o4, -, o6⟩ := offsets b
  have hsp : span b s = sizeof_frag b + s + sizeof_frag_end b := rfl
  have hmem : ∀ x, x < m ∨ m' ≤ x → (resized b q m s).mem x = q.mem x := fun x hx =>
    resized_mem (by omega) (by omega)
  have key := hC.refill [⟨m, s, false⟩] hF hA hT ⟨rfl, hs⟩ (fun g hg => ?_) hmem rfl rfl rfl rfl
  · simpa using key
  · obtain rfl := mem_singleton.1 hg
    obtain ⟨⟨f, hf, ef⟩, l, hl, el⟩ := tiled_ends hT hne
    refine ⟨rfl, ?_, ?_, hd, fun hb => ?_⟩
    · dsimp only
      rw [resized, store_mem, if_neg (by omega), store_mem, if_pos rfl]
    · dsimp only
      rw [resized, store_mem, if_pos rfl]
    · obtain ⟨c1, -, -⟩ := (hC.intact f (by simp [hf])).checks hb
      obtain ⟨-, c2, c3⟩ := (hC.intact l (by simp [hl])).checks hb
      obtain ⟨o6, o7⟩ := o6 hb
      have e1 : l.addr + (sizeof_frag b + l.size) = m + (sizeof_frag b + s) := by
        unfold span at el hs
        omega
      rw [ef] at c1
      rw [e1] at c2
      rw [← add_assoc, e1, add_assoc] at c3
      dsimp only
      exact ⟨by rw [resized_mem (by omega) (by omega), c1],
        by rw [resized_mem (by omega) (by omega), c2],
        by rw [resized_mem (by omega) (by omega), c3]⟩

end OpenSips.QMalloc
