import OpenSips.QMalloc.Links

/-!
# OpenSips.QMalloc.Carve — cutting and joining fragments

What happens to fragments that are on no list stays inside the memory they cover (`Core.refill`):
splitting one, joining neighbours, marking one as live, copying into one.
-/

namespace OpenSips.QMalloc

open Lib List

variable {b : Build} {q q' q'' : QmBlock} {L : ℕ → List ℕ}

/-- The fragments of `G` that are on no list were not written at all. -/
def Frozen (b : Build) (q q' : QmBlock) (G : List Frag) : Prop :=
  ∀ g ∈ G, g.free = false → ∀ j < span b g.size, q'.mem (g.addr + j) = q.mem (g.addr + j)

theorem Frozen.refl (G : List Frag) : Frozen b q q G := fun _ _ _ _ _ => rfl

theorem Frozen.trans {G : List Frag} (h : Frozen b q q' G) (h' : Frozen b q' q'' G) :
    Frozen b q q'' G := fun g hg hf j hj => (h' g hg hf j hj).trans (h g hg hf j hj)

theorem Frozen.mono {G G' : List Frag} (h : Frozen b q q' G) (hs : ∀ g ∈ G', g ∈ G) :
    Frozen b q q' G' := fun g hg => h g (hs g hg)

theorem Base.notLink {frs : List Frag} (hB : Base b q frs) {g : Frag} (hg : g ∈ frs)
    (hf : g.free = false) {j : ℕ} (hj : j < span b g.size) : ¬ LinkWord b q frs (g.addr + j) := by
  have hgn : Node b q frs g.addr g.size false := by rw [← hf]; exact .frag hg
  rintro ⟨x, s, hx, e | e⟩
  · refine hB.ne hgn hx hj (LinkOff.lt (.inl rfl)) ?_ e
    rintro rfl
    rcases hB.apart hgn hx with ⟨-, -, h⟩ | h | h
    · cases h
    · have := span_pos (b := b) g.size; omega
    · have := span_pos (b := b) s; omega
  · refine hB.ne hgn hx hj (LinkOff.lt (.inr rfl)) ?_ e
    rintro rfl
    rcases hB.apart hgn hx with ⟨-, -, h⟩ | h | h
    · cases h
    · have := span_pos (b := b) g.size; omega
    · have := span_pos (b := b) s; omega

theorem Base.frozen {frs : List Frag} (hB : Base b q frs)
    (hm : ∀ a, ¬ LinkWord b q frs a → q'.mem a = q.mem a) : Frozen b q q' frs :=
  fun _ hg hf _ hj => hm _ (hB.notLink hg hf hj)

/-- The `is_free` word of a free fragment is a pointer. -/
theorem Core.next_ne_zero {frs : List Frag} (hC : Core b q frs L) {f : Frag} (hf : f ∈ frs)
    (hfree : f.free = true) : q.mem (f.addr + 8) ≠ 0 := by
  have hlt := hC.toBase.size_lt hf
  have hH : GET_HASH b f.size < QM_HASH_SIZE b := GET_HASH_lt b (by omega)
  obtain ⟨xs, ys, hL⟩ := append_of_mem ((hC.mem_iff _ hH f.addr).2 ⟨f, hf, rfl, hfree, rfl⟩)
  have hring := hC.ring _ hH
  have hys : ys ⊆ L (GET_HASH b f.size) := by
    rw [hL]
    exact fun z hz => mem_append_right _ (mem_cons_of_mem _ hz)
  rw [hL, ← singleton_append, ← append_assoc] at hring
  have hnx := hring.mid.1
  rw [getLastD_concat] at hnx
  have hpos : ∀ {x s u}, Node b q frs x s u → x ≠ 0 := by
    intro x s u hx
    cases hx with
    | head hh => unfold free_hash; omega
    | @frag g hg =>
      have h1 := hC.toBase.head_le hH hg
      have h2 := span_pos (b := b) 0
      omega
  rw [show q.mem (f.addr + 8) = nxt_free q f.addr from rfl, hnx]
  exact hpos (hC.head_node hH hys)

/-- **Rewriting the memory of fragments on no list.** -/
theorem Core.refill {A F B : List Frag} (F' : List Frag) {m m' : ℕ} (hC : Core b q (A ++ F ++ B) L)
    (hF : ∀ f ∈ F, f.free = false) (hA : Tiled b q.first_frag A m) (hT : Tiled b m F m')
    (hT' : Tiled b m F' m') (hF' : ∀ f ∈ F', f.free = false ∧ Intact b q' f)
    (hm : ∀ a, a < m ∨ m' ≤ a → q'.mem a = q.mem a) (hq : q'.qm = q.qm)
    (hfi : q'.first_frag = q.first_frag) (hla : q'.last_frag_end = q.last_frag_end)
    (hno : q'.no = q.no) : Core b q' (A ++ F' ++ B) L ∧ Frozen b q q' (A ++ B) := by
  have hB0 := hC.tiled
  rw [append_assoc] at hB0
  obtain ⟨m1, t1, t2⟩ := tiled_append.1 hB0
  have huniq : ∀ {a e e' : ℕ} {fs : List Frag}, Tiled b a fs e → Tiled b a fs e' → e = e' := by
    intro a e e' fs
    induction fs generalizing a with
    | nil => intro h h'; exact h.symm.trans h'
    | cons f fs ih => intro h h'; exact ih h.2 h'.2
  obtain rfl := huniq hA t1
  obtain ⟨m2, t3, t4⟩ := tiled_append.1 t2
  obtain rfl := huniq hT t3
  have hmm := tiled_le hT
  have hcl := tiled_le hA
  have eh : ∀ h, free_hash b q' h = free_hash b q h := fun h => by rw [free_hash, free_hash, hq]
  -- what lies outside the rewritten memory
  have keepA : ∀ g ∈ A, ∀ j < span b g.size, q'.mem (g.addr + j) = q.mem (g.addr + j) :=
    fun g hg j hj => hm _ (.inl (by have := (tiled_mem hA hg).2; omega))
  have keepB : ∀ g ∈ B, ∀ j < span b g.size, q'.mem (g.addr + j) = q.mem (g.addr + j) :=
    fun g hg j hj => hm _ (.inr (by have := (tiled_mem t4 hg).1; omega))
  have keepAB : ∀ g ∈ A ++ B, ∀ j < span b g.size, q'.mem (g.addr + j) = q.mem (g.addr + j) :=
    fun g hg => (mem_append.1 hg).elim (keepA g) (keepB g)
  have keepH : ∀ h < QM_HASH_SIZE b, ∀ j < span b 0,
      q'.mem (free_hash b q h + j) = q.mem (free_hash b q h + j) := fun h hh j hj =>
    hm _ (.inl (by
      have h1 := head_apart (b := b) (q := q) hh
      have h2 := hC.ctl
      omega))
  obtain ⟨o1, o2, o3, o4, -, o6⟩ := offsets b
  have intactAB : ∀ g ∈ A ++ B, Intact b q' g := by
    intro g hg
    have hgi : g ∈ A ++ F ++ B := by
      simp only [mem_append] at hg ⊢
      tauto
    obtain ⟨i1, i2, i3, i4⟩ := hC.intact g hgi
    have hk := keepAB g hg
    refine ⟨?_, ?_, i3, fun hd => ?_⟩
    · have := hk 0 (by unfold span; omega)
      rw [add_zero] at this
      rw [this, i1]
    · rw [hk _ (by unfold span; omega), i2]
    · obtain ⟨c1, c2, c3⟩ := i4 hd
      have := o6 hd
      exact ⟨by rw [hk _ (by unfold span; omega), c1], by rw [hk _ (by unfold span; omega), c2],
        by rw [hk _ (by unfold span; omega), c3]⟩
  have free_old : ∀ g ∈ A ++ F ++ B, g.free = true → g ∈ A ++ B := by
    intro g hg hf
    simp only [mem_append] at hg ⊢
    rcases hg with (hg | hg) | hg
    · exact .inl hg
    · rw [hF g hg] at hf; cases hf
    · exact .inr hg
  have free_new : ∀ g ∈ A ++ F' ++ B, g.free = true → g ∈ A ++ B := by
    intro g hg hf
    simp only [mem_append] at hg ⊢
    rcases hg with (hg | hg) | hg
    · exact .inl hg
    · rw [(hF' g hg).1] at hf; cases hf
    · exact .inr hg
  have keepN : ∀ {x s j}, Node b q (A ++ F ++ B) x s true → j < span b s → q'.mem (x + j) = q.mem (x + j) := by
    intro x s j hx hj
    generalize hu : true = u at hx
    cases hx with
    | head hh => exact keepH _ hh j hj
    | frag hg => exact keepAB _ (free_old _ hg hu.symm) j hj
  have keep0 : ∀ {h x}, h < QM_HASH_SIZE b → x ∈ L h → q'.mem x = q.mem x := by
    intro h x hh hx
    have := keepN (j := 0) (hC.node hh hx) (by unfold span; omega)
    simpa using this
  refine ⟨⟨⟨?_, by rw [eh, hfi]; exact hC.ctl, by rw [hla]; exact hC.top, fun g hg => ?_,
    fun h hh => ?_⟩, ⟨fun h hh => ?_, fun h hh x => ?_, hC.nodup, fun h hh => ?_,
    by rw [hno]; exact hC.no⟩⟩, fun g hg _ j hj => keepAB g hg j hj⟩
  · rw [hfi, hla, append_assoc]
    exact tiled_append.2 ⟨_, hA, tiled_append.2 ⟨_, hT', t4⟩⟩
  · by_cases hgF : g ∈ F'
    · exact (hF' g hgF).2
    · refine intactAB g ?_
      simp only [mem_append] at hg ⊢
      tauto
  · have := keepH h hh 0 (by unfold span; omega)
    rw [add_zero] at this
    rw [eh, this, hC.zero h hh]
  · exact hC.keep_ring hq hh fun y s j hy hj _ => keepN hy hj
  · rw [hC.mem_iff h hh]
    constructor
    · rintro ⟨g, hg, e, hf, hgh⟩
      have := free_old g hg hf
      refine ⟨g, ?_, e, hf, hgh⟩
      simp only [mem_append] at this ⊢
      tauto
    · rintro ⟨g, hg, e, hf, hgh⟩
      have := free_new g hg hf
      refine ⟨g, ?_, e, hf, hgh⟩
      simp only [mem_append] at this ⊢
      tauto
  · exact (hC.sorted h hh).imp_of_mem fun {x y} hx hy hxy => by rwa [keep0 hh hx, keep0 hh hy]

theorem tiled_cut {A B : List Frag} {f : Frag} {a e : ℕ} (h : Tiled b a (A ++ f :: B) e) :
    Tiled b a A f.addr ∧ Tiled b f.addr [f] (f.addr + span b f.size) := by
  obtain ⟨m, h1, h2, -⟩ := tiled_append.1 h
  subst h2
  exact ⟨h1, rfl, rfl⟩

theorem Core.rewrite {A B : List Frag} {f : Frag} (hC : Core b q (A ++ f :: B) L)
    (hf : f.free = false) (hi : Intact b q' f)
    (hm : ∀ a, a < f.addr ∨ f.addr + span b f.size ≤ a → q'.mem a = q.mem a) (hq : q'.qm = q.qm)
    (hfi : q'.first_frag = q.first_frag) (hla : q'.last_frag_end = q.last_frag_end)
    (hno : q'.no = q.no) : Core b q' (A ++ f :: B) L ∧ Frozen b q q' (A ++ B) := by
  obtain ⟨t1, t2⟩ := tiled_cut hC.tiled
  have hC' : Core b q (A ++ [f] ++ B) L := by simpa using hC
  have := hC'.refill [f] (by simpa using hf) t1 t2 t2 (by simpa using ⟨hf, hi⟩) hm hq hfi
    hla hno
  simpa using this

/-! ### Writes at known addresses -/

@[simp] theorem store_mem (a v x : ℕ) :
    (q.store a v).mem x = if x = a then v else q.mem x := Function.update_apply _ _ _ _

theorem mark_mem (f e x : ℕ) : (mark b q f e).mem x = if b.dbg = true ∧ x = e + 8 then END_CHECK_PATTERN2
    else if b.dbg = true ∧ x = e then END_CHECK_PATTERN1
    else if b.dbg = true ∧ x = f + 40 then ST_CHECK_PATTERN else q.mem x := by
  unfold mark
  cases b.dbg <;> simp

theorem mark_ctl (f e : ℕ) : SameCtl q (mark b q f e) ∧ (mark b q f e).no = q.no := by
  unfold mark
  split_ifs
  · exact ⟨⟨rfl, rfl, rfl, rfl, rfl, rfl, rfl⟩, rfl⟩
  · exact ⟨SameCtl.refl q, rfl⟩

end OpenSips.QMalloc
