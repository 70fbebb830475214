import OpenSips.QMalloc.Malloc

/-!
# OpenSips.QMalloc.Free — `qm_free`

A freed fragment first takes its free neighbours off their lists.  Then the fragments lie side by
side on no list, and one header and one footer make them one.
-/

namespace OpenSips.QMalloc

open List Option

variable {b : Build} {q q' q'' : QmBlock} {frs frs' : List Frag} {L : ℕ → List ℕ}

/-! ### Neighbours -/

theorem tiled_after {A B : List Frag} {f : Frag} {a e : ℕ} (h : Tiled b a (A ++ f :: B) e) :
    (B = [] ∧ f.addr + span b f.size = e) ∨ ∃ g B', B = g :: B' ∧ g.addr = f.addr + span b f.size := by
  obtain ⟨m, -, h2, h3⟩ := tiled_append.1 h
  cases B with
  | nil => exact .inl ⟨rfl, by rw [h2]; exact h3⟩
  | cons g B' => exact .inr ⟨g, B', rfl, by rw [h2]; exact h3.1⟩

theorem Base.frag_next (hB : Base b q frs) {f : Frag} (hf : f ∈ frs) :
    FRAG_NEXT b q f.addr = f.addr + span b f.size := by
  rw [FRAG_NEXT, (hB.intact f hf).head]
  unfold span
  omega

theorem Base.frag_prev {A B : List Frag} {f g : Frag} (hB : Base b q (A ++ g :: f :: B)) :
    FRAG_PREV b q f.addr = g.addr := by
  obtain ⟨o1, o2, -⟩ := offsets b
  obtain ⟨m, -, h2, h3, -⟩ := tiled_append.1 hB.tiled
  have h := h3.trans (congrArg (· + span b g.size) h2.symm)
  have e : PREV_FRAG_END b f.addr = g.addr + (sizeof_frag b + g.size) := by
    rw [PREV_FRAG_END, h]
    unfold span
    omega
  rw [FRAG_PREV, e, add_assoc, (hB.intact g (by simp)).foot]
  omega

theorem Base.lt_last (hB : Base b q frs) {f : Frag} (hf : f ∈ frs) :
    f.addr + sizeof_frag b + f.size ≤ q.last_frag_end := by
  have := (tiled_mem hB.tiled hf).2
  unfold span at this
  omega

/-! ### Taking neighbours off their lists -/

theorem joinFrag_spec {A B : List Frag} {g : Frag} (hC : Core b q (A ++ g :: B) L)
    (hg : g.free = true) (size : ℕ) :
    ∃ q' L', joinFrag b q g.addr size = (q', size + g.size + FRAG_OVERHEAD b) ∧
      Core b q' (A ++ { g with free := false } :: B) L' ∧ Frozen b q q' (A ++ B) ∧
      SameArena q q' ∧ q'.used = q.used ∧ q'.real_used = wsub q.real_used (FRAG_OVERHEAD b) := by
  obtain ⟨hC1, c, hm⟩ := detach_spec hC hg
  have hfr := (hC.toBase.frozen hm).mono fun f hf => mem_middle.2 (.inr hf)
  have hsz : (qm_detach_free b q g.addr).mem g.addr = g.size :=
    (hC1.intact { g with free := false } (by simp)).head
  refine ⟨{ decNo (qm_detach_free b q g.addr) (GET_HASH b g.size) with
    real_used := wsub q.real_used (FRAG_OVERHEAD b) }, _, ?_, hC1.recount rfl rfl rfl rfl rfl, hfr,
    ⟨c.1, c.2, c.6, c.7⟩, c.used, rfl⟩
  unfold joinFrag
  dsimp only
  rw [hsz, c.real_used]
  rfl

/-- What the neighbours leave: the fragments `F` lie side by side on no list. -/
structure Gathered (b : Build) (q q' : QmBlock) (A B A' F B' : List Frag) (L' : ℕ → List ℕ)
    (a size : ℕ) : Prop where
  core : Core b q' (A' ++ F ++ B') L'
  off : ∀ g ∈ F, g.free = false
  ne : F ≠ []
  left : Tiled b q.first_frag A' a
  tiled : Tiled b a F (a + span b size)
  dvd : ROUNDTO b ∣ size
  frozen : Frozen b q q' (A' ++ B')
  arena : SameArena q q'
  used : q'.used = q.used
  real : (q'.real_used : Word) + FRAG_OVERHEAD b * F.length = q.real_used + FRAG_OVERHEAD b
  real_lt : q.real_used < 2 ^ 64 → q'.real_used < 2 ^ 64
  livesA : lives A' = lives A
  livesB : lives B' = lives B
  count : A'.length + F.length + B'.length = A.length + 1 + B.length

section Gather

variable {A B : List Frag} {f : Frag}

theorem gathered_self (hC : Core b q (A ++ f :: B) L) (hf : f.free = false) :
    Gathered b q q A B A [f] B L f.addr f.size := by
  obtain ⟨t1, t2⟩ := tiled_cut hC.tiled
  exact ⟨by simpa using hC, by simpa using hf, by simp, t1, t2, (hC.intact f (by simp)).dvd,
    Frozen.refl _, SameArena.refl q, rfl, by simp, id, rfl, rfl, by simp⟩

theorem joinNext_spec (hC : Core b q (A ++ f :: B) L) (hf : f.free = false)
    (hm : ∀ g ∈ A ++ B, g.free = false → q.mem (g.addr + 8) = 0) :
    ∃ q' F B' L' size, joinNext b q f.addr f.size = some (q', size) ∧
      Gathered b q q' A B A F B' L' f.addr size := by
  have hfm : f ∈ A ++ f :: B := by simp
  unfold joinNext
  dsimp only
  rw [hC.toBase.frag_next hfm]
  rcases tiled_after hC.tiled with ⟨rfl, he⟩ | ⟨g, B', rfl, hg⟩
  · refine ⟨q, [f], [], L, f.size, if_neg fun h => ?_, gathered_self hC hf⟩
    omega
  rw [← hg]
  have hgm : g ∈ A ++ f :: g :: B' := by simp
  cases hfree : g.free with
  | false =>
    refine ⟨q, [f], g :: B', L, f.size, if_neg fun h => ?_, gathered_self hC hf⟩
    exact h.2 (hm g (by simp) hfree)
  | true =>
    have hC0 : Core b q ((A ++ [f]) ++ g :: B') L := by simpa using hC
    obtain ⟨q', L', hj, hC', hfr, ha, hu, hr⟩ := joinFrag_spec hC0 hfree f.size
    have hlt := hC.toBase.lt_last hgm
    have h0 := (offsets b).1
    refine ⟨q', [f, { g with free := false }], B', L', f.size + g.size + FRAG_OVERHEAD b, ?_, ?_⟩
    · rw [if_pos ⟨by omega, hC.next_ne_zero hgm hfree⟩, hC.toBase.debug hgm]
      exact congrArg some hj
    · obtain ⟨t1, t2, -⟩ := tiled_cut hC.tiled
      refine ⟨by simpa using hC', by simpa using hf, by simp, t1, ⟨rfl, hg, ?_⟩, ?_,
        hfr.mono fun x hx => ?_, ha, hu, ?_, fun _ => by rw [hr]; exact wsub_lt _ _, rfl,
        (lives_cons_free hfree).symm, ?_⟩
      · show _ = _
        unfold span FRAG_OVERHEAD
        dsimp only
        omega
      · exact Nat.dvd_add (Nat.dvd_add (hC.intact f hfm).dvd (hC.intact g hgm).dvd)
          (ROUNDTO_dvd_overhead b)
      · simp only [mem_append] at hx ⊢
        tauto
      · rw [hr, cast_wsub]
        simp only [length_cons, length_nil]
        push_cast
        ring
      · simp only [length_cons, length_nil]
        omega

theorem joinPrev_spec {F B' : List Frag} {q1 : QmBlock} {a size : ℕ} (h : Gathered b q q1 A B A F B' L a size)
    (hm : ∀ g ∈ A, g.free = false → q.mem (g.addr + 8) = 0) :
    ∃ q' a' F' A' L' size', joinPrev b q1 a size = some (q', a', size') ∧
      Gathered b q q' A B A' F' B' L' a' size' := by
  obtain ⟨f0, F, rfl⟩ := exists_cons_of_ne_nil h.ne
  have haddr : f0.addr = a := h.tiled.1
  have hC0 : Core b q1 (A ++ f0 :: (F ++ B')) L := by simpa using h.core
  unfold joinPrev
  rcases tiled_before hC0.tiled with ⟨-, he⟩ | ⟨A', g, rfl, hg⟩
  · refine ⟨q1, a, _, A, L, size, if_neg fun hlt => ?_, h⟩
    omega
  have hC1 : Core b q1 (A' ++ g :: f0 :: (F ++ B')) L := by simpa using hC0
  have hgm : g ∈ A' ++ g :: f0 :: (F ++ B') := by simp
  have hsp := span_pos (b := b) g.size
  have hlt : a > q1.first_frag := by
    have := (tiled_mem hC1.tiled hgm).1
    omega
  have hprev : FRAG_PREV b q1 a = g.addr := by
    rw [← haddr]
    exact hC1.toBase.frag_prev
  rw [if_pos hlt, hprev]
  dsimp only
  rw [hC1.toBase.debug hgm]
  simp only [bind_eq_bind, bind_some]
  cases hfree : g.free with
  | false =>
    refine ⟨q1, a, _, A' ++ [g], L, size, if_neg fun hne => hne ?_, h⟩
    rw [h.frozen g (by simp) hfree 8 (by omega), hm g (by simp) hfree]
  | true =>
    obtain ⟨q', L', hj, hC', hfr, ha, hu, hr⟩ := joinFrag_spec hC1 hfree size
    refine ⟨q', g.addr, { g with free := false } :: f0 :: F, A', L', size + g.size + FRAG_OVERHEAD b, ?_, ?_⟩
    · rw [if_pos (hC1.next_ne_zero hgm hfree), hj]
      rfl
    · refine ⟨by simpa using hC', ?_, by simp, ?_, ⟨rfl, ?_⟩, ?_, ?_,
        h.arena.trans ha, hu.trans h.used, ?_, fun _ => by rw [hr]; exact wsub_lt _ _, ?_, h.livesB,
        ?_⟩
      · intro x hx
        rcases mem_cons.1 hx with rfl | hx
        · rfl
        · exact h.off x hx
      · rw [← h.arena.first_frag]
        exact (tiled_cut hC1.tiled).1
      · have e1 : g.addr + span b g.size = a := hg.trans haddr
        have e2 : g.addr + span b (size + g.size + FRAG_OVERHEAD b) = a + span b size := by
          rw [← e1]
          unfold span FRAG_OVERHEAD
          omega
        rw [e1, e2]
        exact h.tiled
      · exact Nat.dvd_add (Nat.dvd_add h.dvd (hC1.intact g hgm).dvd) (ROUNDTO_dvd_overhead b)
      · refine (h.frozen.mono fun x hx => ?_).trans (hfr.mono fun x hx => ?_)
        · simp only [mem_append] at hx ⊢
          tauto
        · simp only [mem_append, mem_cons] at hx ⊢
          tauto
      · have := h.real
        rw [hr, cast_wsub]
        simp only [length_cons] at this ⊢
        push_cast at this ⊢
        linear_combination this
      · rw [← h.livesA, lives_append, lives_cons_free hfree]
        exact (append_nil _).symm
      · have := h.count
        simp only [length_append, length_cons, length_nil] at this ⊢
        omega

end Gather

/-! ### Freeing -/

/-- The accounting of `qm_free`. -/
def released (q : QmBlock) (size : ℕ) : QmBlock :=
  { q with used := wsub q.used size, real_used := wsub q.real_used size }

/-- The checks of `qm_free` and `qm_realloc` pass for a live pointer. -/
theorem Inv.checks (hI : Inv b q frs L) {f : Frag} (hf : f ∈ frs) (hu : f.free = false) :
    inBlock b q (f.addr + sizeof_frag b) = some () ∧ f.addr + sizeof_frag b ≠ 0 ∧
      f.addr + sizeof_frag b - sizeof_frag b = f.addr ∧ qm_debug_frag b q f.addr = some () ∧
      notFree b q f.addr = some () := by
  have h1 := hI.toBase.lt_last hf
  have h2 := (tiled_mem hI.tiled hf).1
  obtain ⟨o1, -⟩ := offsets b
  refine ⟨?_, by omega, by omega, hI.toBase.debug hf, ?_⟩
  · unfold inBlock
    split_ifs
    · exact if_pos (by omega)
    · rfl
  · unfold notFree
    split_ifs
    · exact if_pos (hI.marked f hf hu)
    · rfl

theorem released_booked {A B A' B' : List Frag} {f g : Frag} {n : ℕ} {q2 : QmBlock}
    (hf : f.free = false) (hg : g.free = true) (hA : lives A' = lives A) (hB : lives B' = lives B)
    (hn : A'.length + n + B'.length = A.length + 1 + B.length)
    (hu : q'.used = wsub q.used f.size)
    (hr : (q'.real_used : Word) + FRAG_OVERHEAD b * n = (wsub q.real_used f.size : ℕ) + FRAG_OVERHEAD b)
    (hl : q'.real_used < 2 ^ 64) (h2 : q2.used = q'.used) (h2' : q2.real_used = q'.real_used) :
    Booked b q (A ++ f :: B) q2 (A' ++ g :: B') := by
  have h3 : bytes (lives (A ++ f :: B)) = bytes (lives A) + (f.size + bytes (lives B)) := by
    rw [lives_append, lives_cons hf, bytes_append, bytes_cons]
  have h4 : bytes (lives (A' ++ g :: B')) = bytes (lives A) + bytes (lives B) := by
    rw [lives_append, lives_cons_free hg, bytes_append, hA, hB]
  refine ⟨?_, ?_, fun _ => by rw [h2, hu]; exact wsub_lt _ _, fun _ => by rw [h2']; exact hl⟩
  · rw [h3, h4, h2, hu, cast_wsub]
    push_cast
    ring
  · have h5 : ((A'.length : Word) + n + B'.length) = A.length + 1 + B.length := by
      exact_mod_cast congrArg (Nat.cast (R := Word)) hn
    rw [h3, h4, h2']
    rw [cast_wsub] at hr
    simp only [length_append, length_cons]
    push_cast
    linear_combination hr - (FRAG_OVERHEAD b : Word) * h5

theorem Base.resized_self (hB : Base b q frs) {f : Frag} (hf : f ∈ frs) :
    resized b q f.addr f.size = q := by
  obtain ⟨i1, i2, -⟩ := hB.intact f hf
  rw [resized, store_self i1, store_self i2]

/-- **`qm_free`** of a live pointer takes its fragment, and only it, from the live ones. -/
theorem free_spec (hI : Inv b q frs L) {f : Frag} (hf : f ∈ frs) (hu : f.free = false) :
    ∃ q' frs' L', qm_free b q (f.addr + sizeof_frag b) = some q' ∧ Inv b q' frs' L' ∧
      Effect b q frs q' frs' [f] [] ∧ Booked b q frs q' frs' := by
  obtain ⟨k1, k2, k3, k4, k5⟩ := hI.checks hf hu
  obtain ⟨A, B, rfl⟩ := append_of_mem hf
  have hm : ∀ g ∈ A ++ B, g.free = false → q.mem (g.addr + 8) = 0 :=
    fun g hg => hI.marked g (mem_middle.2 (.inr hg))
  have hC1 : Core b (released q f.size) (A ++ f :: B) L :=
    hI.toCore.recount rfl rfl rfl rfl rfl
  -- what is left to do once the neighbours are gathered
  have finish : ∀ {A' F B' L' q1 a size}, Gathered b (released q f.size) q1 A B A' F B' L' a size →
      ∃ q' frs' L', qm_insert_free b (resized b q1 a size) a = some q' ∧ Inv b q' frs' L' ∧
        Effect b q (A ++ f :: B) q' frs' [f] [] ∧ Booked b q (A ++ f :: B) q' frs' := by
    intro A' F B' L' q1 a size h
    obtain ⟨hC2, hfr2⟩ := h.core.join h.off h.ne (by rw [h.arena.first_frag]; exact h.left) h.tiled
      rfl h.dvd
    obtain ⟨q2, L2, hq2, hC3, hc, hw⟩ := insert_spec hC2 rfl
    have hfr : Frozen b q q2 (A' ++ B') := (h.frozen.trans hfr2).trans (insert_frozen hC2 hw)
    have hl : lives (A' ++ B') = lives (A ++ B) := by
      rw [lives_append, h.livesA, h.livesB, lives_append]
    refine ⟨q2, A' ++ ⟨a, size, true⟩ :: B', L2, hq2, ⟨hC3, fun g hg hgu => ?_⟩,
      ⟨?_, lives (A ++ B), ?_, ?_, ?_⟩, ?_⟩
    · have hg' : g ∈ A' ++ B' := by
        rcases mem_middle.1 hg with rfl | hg
        · cases hgu
        · exact hg
      have hgl : g ∈ A ++ B := by
        have : g ∈ lives (A ++ B) := hl ▸ mem_lives.2 ⟨hg', hgu⟩
        exact (mem_lives.1 this).1
      have := span_pos (b := b) g.size
      rw [hfr g hg' hgu 8 (by omega), hm g hgl hgu]
    · have h1 : SameArena q (released q f.size) := ⟨rfl, rfl, rfl, rfl⟩
      have h2 : SameArena q1 (resized b q1 a size) := ⟨rfl, rfl, rfl, rfl⟩
      exact ((h1.trans h.arena).trans h2).trans hc.arena
    · rw [lives_append, lives_cons hu, lives_append]
      exact perm_middle
    · rw [lives_append, lives_cons_free rfl, ← lives_append, hl]
      exact List.Perm.refl _
    · intro g hg hgu
      rw [← hl] at hg
      exact hfr g (mem_lives.1 hg).1 hgu
    · exact released_booked hu rfl h.livesA h.livesB h.count h.used h.real
        (h.real_lt (wsub_lt _ _)) hc.used hc.real_used
  unfold qm_free
  rw [k1]
  simp only [bind_eq_bind, bind_some]
  rw [if_neg k2, k3, k4, k5]
  simp only [bind_some]
  rw [(hI.intact f hf).head, show ({ q with
    used := wsub q.used f.size, real_used := wsub q.real_used f.size } : QmBlock) = released q f.size from rfl]
  by_cases hj : b.join = true
  · rw [if_pos hj]
    obtain ⟨q1, F1, B1, L1, s1, e1, h1⟩ := joinNext_spec hC1 hu hm
    obtain ⟨q2, a2, F2, A2, L2, s2, e2, h2⟩ :=
      joinPrev_spec h1 fun g hg => hm g (mem_append_left _ hg)
    rw [e1]
    simp only [bind_some, e2]
    rw [← resized_eq]
    exact finish h2
  · rw [if_neg hj]
    have := finish (gathered_self hC1 hu)
    rwa [hC1.toBase.resized_self hf] at this

end OpenSips.QMalloc
