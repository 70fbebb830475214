import OpenSips.QMalloc.Free

/-!
# OpenSips.QMalloc.Realloc — `qm_realloc`

Shrinking splits, growing joins with a free successor or moves.  Each keeps the invariant and the
contents; growing books what it takes.  Shrinking does not (`shrink_spec`): on a successful split
it charges the overhead of the new fragment but does not release its bytes.
-/

namespace OpenSips.QMalloc

open List Option

variable {b : Build} {q q' q'' : QmBlock} {frs frs' : List Frag} {L : ℕ → List ℕ}

/-- The first `n` bytes of `f'` are those that `f` had. -/
def Contents (b : Build) (q q' : QmBlock) (f f' : Frag) (n : ℕ) : Prop :=
  ∀ j < n, q'.mem (f'.addr + sizeof_frag b + j) = q.mem (f.addr + sizeof_frag b + j)

theorem KeepsData.contents {f f' : Frag} (h : KeepsData b q q' f') (ha : f'.addr = f.addr) :
    Contents b q q' f f' f'.size := fun j hj => by
  obtain ⟨o1, -⟩ := offsets b
  rw [add_assoc, h _ (by omega) (by omega), ha, add_assoc]

variable {A B : List Frag} {f : Frag}

/-- `split_frag` on a live fragment. -/
theorem split_live {new : ℕ} (hI : Inv b q (A ++ f :: B) L)
    (hu : f.free = false) (hd : ROUNDTO b ∣ new) (hle : new ≤ f.size) :
    ∃ q' f' T L', split_frag b q f.addr new = some (q', decide (Splits b f.size new)) ∧
      Inv b q' (A ++ f' :: (T ++ B)) L' ∧ SplitPost b q q' f f' T (A ++ B) new := by
  obtain ⟨q', f', T, L', hq', hC', hp⟩ := split_spec hI.toCore hu hd hle
  refine ⟨q', f', T, L', hq', ⟨hC', fun g hg hgu => ?_⟩, hp⟩
  obtain ⟨o1, -⟩ := offsets b
  rcases mem_middle.1 hg with rfl | hg
  · rw [hp.data 8 (by omega) (by omega), hp.cut.addr, hI.marked f (by simp) hu]
  · refine hp.frozen.marked (fun g hg => hI.marked g (mem_middle.2 (.inr hg))) g ?_ hgu
    simp only [mem_append] at hg ⊢
    rcases hg with hg | hg | hg
    · exact .inl hg
    · rw [hp.cut.free g hg] at hgu
      cases hgu
    · exact .inr hg

theorem effect_replace {A B A' B' : List Frag} {f f' : Frag} (ha : SameArena q q')
    (hf : f.free = false) (hf' : f'.free = false) (hA : lives A' = lives A) (hB : lives B' = lives B)
    (hfr : Frozen b q q' (lives (A ++ B))) :
    Effect b q (A ++ f :: B) q' (A' ++ f' :: B') [f] [f'] := by
  refine ⟨ha, lives (A ++ B), ?_, ?_, hfr⟩
  · rw [lives_append, lives_cons hf, lives_append]
    exact perm_middle
  · rw [lives_append, lives_cons hf', lives_append, hA, hB]
    exact perm_middle

theorem Frozen.lives {G : List Frag} (h : Frozen b q q' G) : Frozen b q q' (lives G) :=
  h.mono fun _ hg => (mem_lives.1 hg).1

/-! ### Shrinking -/

variable {size : ℕ}

/-- **`realloc_shrink`**: structure and contents are right; the accounting is that of `split_frag`
alone when the split succeeds. -/
theorem shrink_spec (hI : Inv b q (A ++ f :: B) L)
    (hu : f.free = false) (hd : ROUNDTO b ∣ size) (hle : size ≤ f.size) :
    ∃ q' f' T L', realloc_shrink b q f.addr size = some q' ∧ Inv b q' (A ++ f' :: (T ++ B)) L' ∧
      f'.addr = f.addr ∧ size ≤ f'.size ∧
      Effect b q (A ++ f :: B) q' (A ++ f' :: (T ++ B)) [f] [f'] ∧
      Contents b q q' f f' (min f.size f'.size) ∧
      (Splits b f.size size → f'.size = size ∧ q'.used = q.used) ∧
      (¬ Splits b f.size size → T = [] ∧ f'.size = f.size ∧
        (q'.real_used : Word) = q.real_used + FRAG_OVERHEAD b) := by
  obtain ⟨q1, f', T, L', hq1, hI1, hp⟩ := split_live hI hu hd hle
  have hmem : ∀ q' : QmBlock, q'.mem = q1.mem → SameArena q1 q' → Effect b q (A ++ f :: B) q'
      (A ++ f' :: (T ++ B)) [f] [f'] ∧ Contents b q q' f f' (min f.size f'.size) := by
    intro q' hm ha
    refine ⟨effect_replace (hp.arena.trans ha) hu hp.cut.live rfl ?_ fun g hg hgu j hj => ?_, fun j hj => ?_⟩
    · rw [lives_append, lives_free hp.cut.free, nil_append]
    · rw [hm]
      exact hp.frozen.lives g hg hgu j hj
    · rw [hm]
      exact hp.data.contents hp.cut.addr j (by omega)
  unfold realloc_shrink
  simp only [hq1, bind_eq_bind, bind_some]
  by_cases hs : Splits b f.size size
  · obtain ⟨h1, h2⟩ := hmem q1 rfl (SameArena.refl q1)
    refine ⟨q1, f', T, L', if_pos (decide_eq_true hs), hI1, hp.cut.addr, hp.cut.le, h1, h2,
      fun _ => ⟨?_, hp.used⟩, fun h => absurd hs h⟩
    rcases hp.cut.rest with ⟨hT, -⟩ | ⟨-, h, -⟩
    · exact absurd hs (hp.splits.1 hT)
    · exact h
  · obtain ⟨q2, hq2⟩ : ∃ q2 : QmBlock, q2 = { q1 with
      real_used := wsub q1.real_used (wsub (wsub (q.mem f.addr) (q1.mem f.addr)) (FRAG_OVERHEAD b))
      used := wsub q1.used (wsub (q.mem f.addr) (q1.mem f.addr)) } := ⟨_, rfl⟩
    have ha : SameArena q1 q2 := by rw [hq2]; exact ⟨rfl, rfl, rfl, rfl⟩
    have hm : q2.mem = q1.mem := by rw [hq2]
    obtain ⟨h1, h2⟩ := hmem q2 hm ha
    have hT : T = [] := hp.splits.2 hs
    have hsz : f'.size = f.size := by rw [hp.cut.size, hT]; rfl
    refine ⟨q2, f', T, L', ?_, hI1.recount hm ha.qm ha.first_frag ha.last_frag_end (by rw [hq2]),
      hp.cut.addr, hp.cut.le, h1, h2, fun h => absurd h hs, fun _ => ⟨hT, hsz, ?_⟩⟩
    · rw [if_neg (by rw [decide_eq_false hs]; decide), hq2]
      rfl
    · have hi : q1.mem f.addr = q.mem f.addr := by
        rw [← hp.cut.addr, (hI1.intact f' (by simp)).head, hsz, hp.cut.addr, (hI.intact f (by simp)).head]
      rw [hq2, hi]
      rw [cast_wsub, cast_wsub, cast_wsub, hp.real_cast, hT]
      simp

/-! ### Growing in place -/

def grown (q : QmBlock) (f orig_size : ℕ) : QmBlock :=
  { q with
    real_used := wrap (q.real_used + (q.mem f - orig_size))
    used := wrap (q.used + (q.mem f - orig_size)) }

theorem realloc_join_eq {f n fs ns size : ℕ} (hf : q.mem f = fs)
    (hf' : (qm_detach_free b q n).mem f = fs) (hn : (qm_detach_free b q n).mem n = ns) :
    realloc_join b q f n size = (if fs + (ns + FRAG_OVERHEAD b) > size then
        (split_frag b (resized b (joinFrag b q n 0).1 f (fs + (ns + FRAG_OVERHEAD b))) f size).map
          Prod.fst
      else some (resized b (joinFrag b q n 0).1 f (fs + (ns + FRAG_OVERHEAD b)))).map
        fun q => grown q f fs := by
  subst hn hf'
  obtain ⟨q2, h2⟩ : ∃ q2, q2 = resized b (joinFrag b q n 0).1 f
    ((qm_detach_free b q n).mem f + ((qm_detach_free b q n).mem n + FRAG_OVERHEAD b)) := ⟨_, rfl⟩
  have h3 : realloc_join b q f n size =
      if q2.mem f > size then ((split_frag b q2 f size).bind fun r => some r.1).bind
        fun q3 => some (grown q3 f (q.mem f))
      else some (grown q2 f (q.mem f)) := by
    rw [h2, resized_eq]
    rfl
  have h4 : q2.mem f = (qm_detach_free b q n).mem f + ((qm_detach_free b q n).mem n + FRAG_OVERHEAD b) := by
    have h0 := (offsets b).1
    rw [h2, resized, store_mem, if_neg (by omega), store_mem, if_pos rfl]
  rw [h3, h4, hf, ← h2]
  split_ifs
  · cases split_frag b q2 f size <;> rfl
  · rfl

theorem joined_spec {f n : Frag} (hI : Inv b q (A ++ f :: n :: B) L)
    (hu : f.free = false) (hn : n.free = true) :
    ∃ q2 L2, resized b (joinFrag b q n.addr 0).1 f.addr (f.size + (n.size + FRAG_OVERHEAD b)) = q2 ∧
      Inv b q2 (A ++ ⟨f.addr, f.size + (n.size + FRAG_OVERHEAD b), false⟩ :: B) L2 ∧
      Frozen b q q2 (A ++ B) ∧ KeepsData b q q2 f ∧ SameArena q q2 ∧ q2.used = q.used ∧
      q2.real_used = wsub q.real_used (FRAG_OVERHEAD b) := by
  have hC0 : Core b q ((A ++ [f]) ++ n :: B) L := by simpa using hI.toCore
  obtain ⟨q1, L1, hj, hC1, hfr1, ha, hused, hreal⟩ := joinFrag_spec hC0 hn 0
  rw [hj]
  obtain ⟨tot, htot⟩ : ∃ t, t = f.size + (n.size + FRAG_OVERHEAD b) := ⟨_, rfl⟩
  have hnext : n.addr = f.addr + span b f.size := by
    rcases tiled_after hI.tiled with ⟨h, -⟩ | ⟨g, B', h, e⟩
    · cases h
    · rw [(cons.inj h).1, e]
  obtain ⟨t1, -⟩ := tiled_cut hI.tiled
  have hsz : span b f.size + span b n.size = span b tot := by
    rw [htot]
    unfold span FRAG_OVERHEAD
    omega
  obtain ⟨hC2, hfr2⟩ := Core.join (A := A) (F := [f, { n with free := false }]) (B := B)
    (m := f.addr) (s := tot) (by simpa using hC1) (by simpa using hu) (by simp)
    (by rw [ha.first_frag]; exact t1)
    ⟨rfl, hnext, by show _ + _ + _ = _; rw [add_assoc, hsz]⟩ rfl (by
      rw [htot]
      exact Nat.dvd_add (hI.intact f (by simp)).dvd
        (Nat.dvd_add (hI.intact n (by simp)).dvd (ROUNDTO_dvd_overhead b)))
  obtain ⟨o1, o2, o3, o4, o5, -⟩ := offsets b
  have hkeep : KeepsData b q (resized b q1 f.addr tot) f := fun j hj hj' => by
    rw [resized_mem (by omega) (by omega), hfr1 f (by simp) hu j (by unfold span; omega)]
  have hfr : Frozen b q (resized b q1 f.addr tot) (A ++ B) := (hfr1.mono fun g hg => by
      simp only [mem_append] at hg ⊢
      tauto).trans hfr2
  rw [← htot]
  refine ⟨_, L1, rfl, ⟨hC2, fun g hg hgu => ?_⟩, hfr, hkeep, ⟨ha.1, ha.2, ha.3, ha.4⟩, hused, hreal⟩
  rcases mem_middle.1 hg with rfl | hg
  · rw [hkeep 8 (by omega) (by omega), hI.marked f (by simp) hu]
  · refine hfr.marked (fun g hg => hI.marked g ?_) g hg hgu
    simp only [mem_append, mem_cons] at hg ⊢
    tauto

theorem grown_booked {A B T : List Frag} {f n f' : Frag} (hu : f.free = false)
    (hn : n.free = true) (hu' : f'.free = false) (hT : ∀ g ∈ T, g.free = true)
    (hle : f.size ≤ f'.size) (hq : q'.mem f'.addr = f'.size) (hused : q'.used = q.used)
    (hreal : (q'.real_used : Word) + FRAG_OVERHEAD b = q.real_used + FRAG_OVERHEAD b * T.length) :
    Booked b q (A ++ f :: n :: B) (grown q' f'.addr f.size) (A ++ f' :: (T ++ B)) := by
  have h1 : bytes (lives (A ++ f :: n :: B)) = bytes (lives A) + (f.size + bytes (lives B)) := by
    rw [lives_append, lives_cons hu, lives_cons_free hn, bytes_append, bytes_cons]
  have h2 : bytes (lives (A ++ f' :: (T ++ B))) = bytes (lives A) + (f'.size + bytes (lives B)) := by
    rw [lives_append, lives_cons hu', lives_append, lives_free hT, bytes_append, bytes_cons, nil_append]
  refine ⟨?_, ?_, fun _ => wrap_lt _, fun _ => wrap_lt _⟩
  · rw [h1, h2, grown, cast_wrap, hq, hused, Nat.cast_add, Nat.cast_sub hle]
    push_cast
    ring
  · rw [h1, h2, grown, cast_wrap, hq, Nat.cast_add, Nat.cast_sub hle]
    simp only [length_append, length_cons]
    push_cast
    linear_combination hreal

/-- **`realloc_join`** grows a live fragment into its free successor. -/
theorem join_spec {f n : Frag} (hI : Inv b q (A ++ f :: n :: B) L)
    (hu : f.free = false) (hn : n.free = true) (hd : ROUNDTO b ∣ size) (hlt : f.size < size)
    (hroom : size ≤ f.size + (n.size + FRAG_OVERHEAD b)) :
    ∃ q' f' T L', realloc_join b q f.addr n.addr size = some q' ∧
      Inv b q' (A ++ f' :: (T ++ B)) L' ∧ f'.addr = f.addr ∧ size ≤ f'.size ∧
      Effect b q (A ++ f :: n :: B) q' (A ++ f' :: (T ++ B)) [f] [f'] ∧
      Contents b q q' f f' (min f.size f'.size) ∧
      Booked b q (A ++ f :: n :: B) q' (A ++ f' :: (T ++ B)) := by
  obtain ⟨q2, L2, hq2, hI2, hfr, hkeep, ha, hused, hreal⟩ := joined_spec hI hu hn
  have hC0 : Core b q ((A ++ [f]) ++ n :: B) L := by simpa using hI.toCore
  obtain ⟨hC1, -, hm⟩ := detach_spec hC0 hn
  have hi : q.mem f.addr = f.size := (hI.intact f (by simp)).head
  have hf1 : (qm_detach_free b q n.addr).mem f.addr = f.size := (hC1.intact f (by simp)).head
  have hn1 : (qm_detach_free b q n.addr).mem n.addr = n.size :=
    (hC1.intact { n with free := false } (by simp)).head
  rw [realloc_join_eq hi hf1 hn1, hq2]
  -- the split that follows if the joined fragment is too large
  obtain ⟨q3, f', T, L3, hq3, hI3, hp⟩ : ∃ q3 f' T L3, (if f.size + (n.size + FRAG_OVERHEAD b) > size then
        (split_frag b q2 f.addr size).map Prod.fst else some q2) = some q3 ∧
      Inv b q3 (A ++ f' :: (T ++ B)) L3 ∧ SplitPost b q2 q3
        ⟨f.addr, f.size + (n.size + FRAG_OVERHEAD b), false⟩ f' T (A ++ B) size := by
    by_cases hgt : f.size + (n.size + FRAG_OVERHEAD b) > size
    · obtain ⟨q3, f', T, L3, hq3, hI3, hp⟩ := split_live hI2 rfl hd hgt.le
      exact ⟨q3, f', T, L3, by rw [if_pos hgt, hq3]; rfl, hI3, hp⟩
    · refine ⟨q2, _, [], L2, if_neg hgt, hI2, ⟨rfl, rfl, hroom, .inl ⟨rfl, rfl⟩⟩, ?_,
        Frozen.refl _, fun _ _ _ => rfl, SameArena.refl q2, rfl, rfl, rfl⟩
      have h0 := (offsets b)
      refine iff_of_true rfl ?_
      unfold Splits
      dsimp only
      omega
  have haddr : f'.addr = f.addr := hp.cut.addr
  have hle : f.size ≤ f'.size := hlt.le.trans hp.cut.le
  rw [hq3]
  refine ⟨grown q3 f.addr f.size, f', T, L3, rfl, hI3.recount rfl rfl rfl rfl rfl, haddr,
    hp.cut.le, ?_, fun j hj => ?_, ?_⟩
  · refine effect_replace (ha.trans ⟨hp.arena.1, hp.arena.2, hp.arena.3, hp.arena.4⟩) hu
      hp.cut.live rfl ?_ ?_
    · rw [lives_append, lives_free hp.cut.free, nil_append, lives_cons_free hn]
    · have : Frozen b q (grown q3 f.addr f.size) (A ++ B) := hfr.trans hp.frozen
      refine this.lives.mono fun g hg => ?_
      rwa [lives_append, lives_cons_free hn, ← lives_append] at hg
  · obtain ⟨o1, -⟩ := offsets b
    show q3.mem _ = _
    rw [add_assoc, hp.data _ (by omega) (by omega), haddr, hkeep _ (by omega) (by omega), add_assoc]
  · rw [← haddr]
    refine grown_booked hu hn hp.cut.live hp.cut.free hle (hI3.intact f' (by simp)).head
      (hp.used.trans hused) ?_
    rw [hp.real_cast, hreal, cast_wsub]
    ring

/-! ### Moving -/

theorem memcpy_mem {dst src n x : ℕ} (h : x < dst ∨ dst + n ≤ x) :
    (memcpy q dst src n).mem x = q.mem x := if_neg (by omega)

theorem copy_spec (src : ℕ) {n : ℕ} (hI : Inv b q (A ++ f :: B) L) (hu : f.free = false) (hn : n ≤ f.size) :
    Inv b (memcpy q (f.addr + sizeof_frag b) src n) (A ++ f :: B) L ∧
      Frozen b q (memcpy q (f.addr + sizeof_frag b) src n) (A ++ B) := by
  obtain ⟨o1, o2, o3, o4, -, o6⟩ := offsets b
  obtain ⟨i1, i2, i3, i4⟩ := hI.intact f (by simp)
  have hi : Intact b (memcpy q (f.addr + sizeof_frag b) src n) f := by
    refine ⟨by rw [memcpy_mem (by omega), i1], by rw [memcpy_mem (by omega), i2], i3, fun hb => ?_⟩
    obtain ⟨c1, c2, c3⟩ := i4 hb
    have := o6 hb
    exact ⟨by rw [memcpy_mem (by omega), c1], by rw [memcpy_mem (by omega), c2],
      by rw [memcpy_mem (by omega), c3]⟩
  obtain ⟨hC, hfr⟩ := hI.toCore.rewrite hu hi
    (fun a ha => memcpy_mem (by unfold span at ha; omega)) rfl rfl rfl rfl
  refine ⟨⟨hC, fun g hg hgu => ?_⟩, hfr⟩
  rcases mem_middle.1 hg with rfl | hg
  · rw [memcpy_mem (by omega), hI.marked g (by simp) hu]
  · exact hfr.marked (fun g hg => hI.marked g (mem_middle.2 (.inr hg))) g hg hgu

theorem lives_nodup {a e : ℕ} (h : Tiled b a frs e) : (lives frs).Nodup :=
  (Nodup.of_map _ (tiled_nodup h)).filter _

/-- **`realloc_move`** fails and changes nothing, or moves the contents to a new fragment. -/
theorem move_spec (hI : Inv b q frs L) (hf : f ∈ frs) (hu : f.free = false) (size : ℕ)
    (hle : f.size ≤ ROUNDUP b size) :
    (realloc_move b q (f.addr + sizeof_frag b) f.addr size = some (q, 0) ∧
      (wsub q.size q.real_used < ROUNDUP b size ∨ ∀ f ∈ frees frs, f.size < ROUNDUP b size)) ∨
    ∃ q' frs' L' f', realloc_move b q (f.addr + sizeof_frag b) f.addr size =
        some (q', f'.addr + sizeof_frag b) ∧ Inv b q' frs' L' ∧
      Effect b q frs q' frs' [f] [f'] ∧ Booked b q frs q' frs' ∧ ROUNDUP b size ≤ f'.size ∧
      Contents b q q' f f' (min f.size f'.size) := by
  obtain ⟨o1, -⟩ := offsets b
  have hi := (hI.intact f hf).head
  unfold realloc_move
  rcases malloc_spec hI size with ⟨hm, hno⟩ | ⟨q1, frs1, L1, f', hm, hI1, ⟨ha1, R1, p1, p2, fr1⟩, hb1, hsz⟩
  · refine .inl ⟨?_, hno⟩
    simp only [hm, bind_eq_bind, bind_some]
    exact if_neg (by decide)
  right
  rw [nil_append] at p1
  rw [singleton_append] at p2
  have hf1 : f ∈ R1 := p1.subset (mem_lives.2 ⟨hf, hu⟩)
  have hnd : f' ∉ R1 := (nodup_cons.1 (p2.nodup_iff.1 (lives_nodup hI1.tiled))).1
  obtain ⟨hf'1, hu'⟩ := mem_lives.1 (p2.symm.subset (mem_cons_self ..))
  obtain ⟨hff, -⟩ := mem_lives.1 (p2.symm.subset (mem_cons_of_mem _ hf1))
  obtain ⟨A, B, rfl⟩ := append_of_mem hf'1
  obtain ⟨hI2, fr2⟩ := copy_spec (f.addr + sizeof_frag b) hI1 hu' (hle.trans hsz)
  obtain ⟨q3, frs3, L3, hq3, hI3, ⟨ha3, R3, p3, p4, fr3⟩, hb3⟩ := free_spec hI2 hff hu
  rw [singleton_append] at p3
  rw [nil_append] at p4
  obtain ⟨R, hR⟩ : ∃ R, R1.Perm (f :: R) := by
    obtain ⟨X, Y, rfl⟩ := append_of_mem hf1
    exact ⟨X ++ Y, perm_middle⟩
  have hR3 : R3.Perm (f' :: R) := (p3.symm.trans ((p2.trans (hR.cons f')).trans (Perm.swap f f' R))).cons_inv
  -- the fragments that are neither old nor new were not written
  have hfr : Frozen b q q3 R := by
    refine ((fr1.mono fun g hg => hR.symm.subset (mem_cons_of_mem _ hg)).trans (fr2.mono fun g hg => ?_)).trans
      (fr3.mono fun g hg => hR3.symm.subset (mem_cons_of_mem _ hg))
    have hg1 : g ∈ R1 := hR.symm.subset (mem_cons_of_mem _ hg)
    rcases mem_middle.1 (mem_lives.1 (p2.symm.subset (mem_cons_of_mem _ hg1))).1 with e | h
    · exact absurd (e ▸ hg1) hnd
    · exact h
  have ha2 : SameArena q1 (memcpy q1 (f'.addr + sizeof_frag b) (f.addr + sizeof_frag b) f.size) :=
    ⟨rfl, rfl, rfl, rfl⟩
  have hb2 : Booked b q1 (A ++ f' :: B)
      (memcpy q1 (f'.addr + sizeof_frag b) (f.addr + sizeof_frag b) f.size) (A ++ f' :: B) :=
    ⟨rfl, rfl, id, id⟩
  refine ⟨q3, frs3, L3, f', ?_, hI3, ⟨ha1.trans (ha2.trans ha3), R, p1.trans hR, p4.trans hR3, hfr⟩,
    hb1.trans (hb2.trans hb3), hsz, fun j hj => ?_⟩
  · simp only [hm, bind_eq_bind, bind_some]
    rw [if_pos (by omega), hi, hq3]
    rfl
  · have h1 := fr3 f' (hR3.symm.subset (mem_cons_self ..)) hu' (sizeof_frag b + j)
      (by unfold span; omega)
    have h2 := fr1 f hf1 hu (sizeof_frag b + j) (by unfold span; omega)
    rw [add_assoc, h1, ← add_assoc, memcpy]
    dsimp only
    rw [if_pos (by omega), add_assoc, add_assoc, Nat.add_sub_add_left, Nat.add_sub_cancel_left, add_assoc, h2]

/-! ### The cases together -/

theorem Booked.refl (b : Build) (q : QmBlock) (frs : List Frag) : Booked b q frs q frs := ⟨rfl, rfl, id, id⟩

/-- `qm_realloc` of a live pointer, once the checks are passed. -/
theorem qm_realloc_eq (hI : Inv b q frs L) (hf : f ∈ frs) (hu : f.free = false) (hs : size ≠ 0) :
    qm_realloc b q (f.addr + sizeof_frag b) size = if f.size > ROUNDUP b size then
        (realloc_shrink b q f.addr (ROUNDUP b size)).map fun q => (q, f.addr + sizeof_frag b)
      else if f.size < ROUNDUP b size then
        if f.addr + span b f.size < q.last_frag_end ∧ q.mem (f.addr + span b f.size + 8) ≠ 0 ∧
            q.mem (f.addr + span b f.size) + FRAG_OVERHEAD b ≥ ROUNDUP b size - f.size then
          (realloc_join b q f.addr (f.addr + span b f.size) (ROUNDUP b size)).map
            fun q => (q, f.addr + sizeof_frag b)
        else realloc_move b q (f.addr + sizeof_frag b) f.addr (ROUNDUP b size)
      else some (q, f.addr + sizeof_frag b) := by
  obtain ⟨k1, k2, k3, k4, k5⟩ := hI.checks hf hu
  have hi := (hI.intact f hf).head
  have hnext := hI.toBase.frag_next hf
  unfold qm_realloc
  rw [if_pos k2, k1]
  simp only [bind_eq_bind, bind_some]
  rw [if_neg hs, if_neg k2, k3, k4, k5, hi, hnext]
  simp only [bind_some]
  split_ifs
  · cases realloc_shrink b q f.addr (ROUNDUP b size) <;> rfl
  · cases realloc_join b q f.addr (f.addr + span b f.size) (ROUNDUP b size) <;> rfl
  · rfl
  · rfl

/-- **`qm_realloc`** of a live pointer to a size that is not 0. -/
theorem realloc_spec (hI : Inv b q frs L) (hf : f ∈ frs) (hu : f.free = false) (hs : size ≠ 0) :
    (qm_realloc b q (f.addr + sizeof_frag b) size = some (q, 0) ∧ f.size < ROUNDUP b size ∧
      (wsub q.size q.real_used < ROUNDUP b size ∨ ∀ f ∈ frees frs, f.size < ROUNDUP b size)) ∨
    ∃ q' frs' L' f', qm_realloc b q (f.addr + sizeof_frag b) size =
        some (q', f'.addr + sizeof_frag b) ∧ Inv b q' frs' L' ∧
      Effect b q frs q' frs' [f] [f'] ∧ ROUNDUP b size ≤ f'.size ∧
      Contents b q q' f f' (min f.size f'.size) ∧
      (¬ ROUNDUP b size < f.size → Booked b q frs q' frs') := by
  rw [qm_realloc_eq hI hf hu hs]
  have hd := ROUNDTO_dvd_ROUNDUP b size
  have hrr := ROUNDUP_ROUNDUP b size
  obtain ⟨r, hr⟩ : ∃ r, ROUNDUP b size = r := ⟨_, rfl⟩
  rw [hr] at hd hrr ⊢
  rcases lt_trichotomy r f.size with hlt | heq | hgt
  · obtain ⟨A, B, rfl⟩ := append_of_mem hf
    obtain ⟨q', f', T, L', hq', hI', haddr, hle, he, hc, -, -⟩ := shrink_spec hI hu hd hlt.le
    refine .inr ⟨q', _, L', f', ?_, hI', he, hle, hc, fun h => absurd hlt h⟩
    rw [if_pos hlt, hq', haddr]
    rfl
  · obtain ⟨A, B, rfl⟩ := append_of_mem hf
    refine .inr ⟨q, _, L, f, ?_, hI, effect_replace (SameArena.refl q) hu hu rfl rfl
      (Frozen.refl _), heq.le, fun _ _ => rfl, fun _ => Booked.refl b q _⟩
    rw [if_neg (by omega), if_neg (by omega)]
  rw [if_neg (by omega), if_pos hgt]
  by_cases hj : f.addr + span b f.size < q.last_frag_end ∧ q.mem (f.addr + span b f.size + 8) ≠ 0 ∧
      q.mem (f.addr + span b f.size) + FRAG_OVERHEAD b ≥ r - f.size
  · obtain ⟨j1, j2, j3⟩ := hj
    obtain ⟨A, B, rfl⟩ := append_of_mem hf
    rcases tiled_after hI.tiled with ⟨-, he⟩ | ⟨n, B', rfl, hn⟩
    · omega
    have hfree : n.free = true := by
      by_contra h
      rw [Bool.not_eq_true] at h
      exact j2 (hn ▸ hI.marked n (by simp) h)
    rw [← hn, (hI.intact n (by simp)).head] at j3
    obtain ⟨q', f', T, L', hq', hI', haddr, hle, he, hc, hb⟩ :=
      join_spec hI hu hfree hd hgt (by omega)
    refine .inr ⟨q', _, L', f', ?_, hI', he, hle, hc, fun _ => hb⟩
    rw [if_pos ⟨j1, j2, by rwa [← hn, (hI.intact n (by simp)).head]⟩, ← hn, hq', haddr]
    rfl
  · rw [if_neg hj]
    have hm := move_spec hI hf hu r (by omega)
    rw [hrr] at hm
    rcases hm with ⟨hm, hno⟩ | ⟨q', frs', L', f', hm, hI', he, hb, hsz, hc⟩
    · exact .inl ⟨hm, hgt, hno⟩
    · exact .inr ⟨q', frs', L', f', hm, hI', he, hsz, hc, fun _ => hb⟩

end OpenSips.QMalloc
