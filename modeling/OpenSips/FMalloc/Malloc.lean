import OpenSips.FMalloc.Carve
import OpenSips.QMalloc.Account

/-!
# OpenSips.FMalloc.Malloc — `fm_malloc`

A fragment on no list has `prev = NULL`; this is what tells free neighbours from live ones, both while
the defragmentation merges runs of them and between calls (`Inv`).  `fm_malloc` takes a free fragment
that is large enough, or merges until one is.
-/

namespace OpenSips.FMalloc

open Lib List Option
open QMalloc (Frag bytes lives lives_append lives_cons lives_cons_free lives_free mem_lives wrap
  wsub)

variable {b : Build} {q q' q'' : FmBlock} {frs frs' A B : List Frag} {L : ℕ → List ℕ} {f g : Frag}

/-- The invariant of a block: besides, `prev` is `NULL` in a fragment on no list. -/
structure Inv (b : Build) (q : FmBlock) (frs : List Frag) (L : ℕ → List ℕ) : Prop extends
  Core b q frs L where
  marked : ∀ f ∈ frs, f.free = false → q.mem (prev f.addr) = 0

theorem Frozen.marked {G : List Frag} (h : Frozen b q q' G)
    (hm : ∀ f ∈ G, f.free = false → q.mem (prev f.addr) = 0) :
    ∀ f ∈ G, f.free = false → q'.mem (prev f.addr) = 0 := fun f hf hu => by
  have := span_pos (b := b) f
  exact (h f hf hu 16 (by omega)).trans (hm f hf hu)

theorem Frozen.lives {G : List Frag} (h : Frozen b q q' G) : Frozen b q q' (lives G) :=
  h.mono fun _ hg => (mem_lives.1 hg).1

theorem Core.recount (hC : Core b q frs L) (hm : q'.mem = q.mem) (hno : q'.no = q.no)
    (ha : SameArena q q') : Core b q' frs L := by
  obtain ⟨mem, qm, size, ls, ll, used, real, max, first, last, no⟩ := q
  obtain ⟨mem', qm', size', ls', ll', used', real', max', first', last', no'⟩ := q'
  obtain ⟨h1, h2, h3, h4⟩ := ha
  dsimp only at hm hno h1 h2 h3 h4
  subst hm hno h1 h2 h3 h4
  obtain ⟨⟨h1, h2, h3, h4, h5, h6⟩, h7, h8, h9⟩ := hC
  exact ⟨⟨h1, h2, h3, h4, h5, h6⟩, h7, h8, h9⟩

theorem Inv.recount (hI : Inv b q frs L) (hm : q'.mem = q.mem) (hno : q'.no = q.no)
    (ha : SameArena q q') : Inv b q' frs L :=
  ⟨hI.toCore.recount hm hno ha, fun f hf hu => by rw [hm]; exact hI.marked f hf hu⟩

theorem peak_counts (q : FmBlock) : SameCounts q (peak b q) := by
  unfold peak
  split_ifs <;> exact ⟨rfl, rfl, rfl⟩

theorem mark_counts (q : FmBlock) (f : ℕ) (c : Caller) : SameCounts q (mark b q f c) := by
  unfold mark
  split_ifs <;> exact ⟨rfl, rfl, rfl⟩

theorem peak_ctl (q : FmBlock) : (peak b q).mem = q.mem ∧ (peak b q).no = q.no ∧ SameArena q (peak b q) := by
  unfold peak
  split_ifs <;> exact ⟨rfl, rfl, rfl, rfl, rfl, rfl⟩

/-! ### One list or one join -/

theorem Inv.remove (hI : Inv b q (A ++ f :: B) L) (hf : f.free = true) :
    ∃ L', Inv b (fm_remove_free b q f.addr) (A ++ { f with free := false } :: B) L' ∧
      SameArena q (fm_remove_free b q f.addr) ∧ Frozen b q (fm_remove_free b q f.addr) (A ++ B) := by
  obtain ⟨L', hC, hp, ha, hfr⟩ := remove_spec hI.toCore hf
  refine ⟨L', ⟨hC, fun g hg hu => ?_⟩, ha, hfr⟩
  rcases mem_middle.1 hg with rfl | hg
  · exact hp
  · exact hfr.marked (fun g hg => hI.marked g (mem_middle.2 (.inr hg))) g hg hu

theorem Inv.insert (hI : Inv b q (A ++ f :: B) L) (hf : f.free = false) :
    ∃ q' L', fm_insert_free b q f.addr = some q' ∧ Inv b q' (A ++ { f with free := true } :: B) L' ∧
      SameArena q q' ∧ Frozen b q q' (A ++ B) := by
  obtain ⟨q', L', hq', hC, ha, hfr⟩ := insert_spec hI.toCore hf
  refine ⟨q', L', hq', ⟨hC, fun g hg hu => ?_⟩, ha, hfr⟩
  rcases mem_middle.1 hg with rfl | hg
  · cases hu
  · exact hfr.marked (fun g hg => hI.marked g (mem_middle.2 (.inr hg))) g hg hu

theorem KeepsData.mark (h : KeepsData b q q' f) : q'.mem (prev f.addr) = q.mem (prev f.addr) := by
  have := span_pos (b := b) f
  exact h 16 (by decide) (by omega)

theorem Inv.join (hI : Inv b q (A ++ f :: g :: B) L) (hf : f.free = false) (hg : g.free = true) :
    ∃ f' L', Inv b (joinFrag b q f.addr g.addr) (A ++ f' :: B) L' ∧
      f'.size = f.size + (g.size + FRAG_OVERHEAD b) ∧
      JoinPost b q (joinFrag b q f.addr g.addr) f f' (A ++ B) := by
  obtain ⟨f', L', hC, hs, hp⟩ := join_spec hI.toCore hf hg
  refine ⟨f', L', ⟨hC, fun x hx hu => ?_⟩, hs, hp⟩
  rcases mem_middle.1 hx with rfl | hx
  · rw [hp.addr, hp.data.mark]
    exact hI.marked f (mem_middle.2 (.inl rfl)) hf
  · refine hp.frozen.marked (fun y hy => hI.marked y ?_) x hx hu
    exact mem_middle.2 (.inr ((mem_append.1 hy).elim (mem_append_left _)
      fun h => mem_append_right _ (mem_cons_of_mem _ h)))

theorem Inv.split {new : ℕ} (c : Caller) (hI : Inv b q (A ++ f :: B) L) (hf : f.free = false)
    (hd : 8 ∣ new) (hle : new ≤ f.size) : ∃ q' f' T L', fm_split_frag b q f.addr new c = some q' ∧
      Inv b q' (A ++ f' :: (T ++ B)) L' ∧ SplitPost b q q' f f' T (A ++ B) new ∧
      Moves b (q, A ++ f :: B) (q', A ++ f' :: (T ++ B)) := by
  obtain ⟨q', f', T, L', hq', hC, hp, hmv⟩ := split_spec c hI.toCore hf hd hle
  refine ⟨q', f', T, L', hq', ⟨hC, fun x hx hu => ?_⟩, hp, hmv⟩
  rcases mem_middle.1 hx with rfl | hx
  · rw [hp.data.mark, hp.addr]
    exact hI.marked f (mem_middle.2 (.inl rfl)) hf
  · refine hp.frozen.marked (fun y hy => hI.marked y (mem_middle.2 (.inr hy))) x ?_ hu
    rcases mem_append.1 hx with hx | hx
    · exact mem_append_left _ hx
    · rcases mem_append.1 hx with hx | hx
      · exact absurd (hp.rest x hx) (by rw [hu]; decide)
      · exact mem_append_right _ hx

theorem Inv.fill (hI : Inv b q (A ++ f :: B) L) (hf : f.free = false)
    (hm : ∀ a, a < f.addr + 24 ∨ f.addr + span b f ≤ a → q'.mem a = q.mem a) (ha : SameArena q q')
    (hno : q'.no = q.no) : Inv b q' (A ++ f :: B) L ∧ Frozen b q q' (A ++ B) := by
  have hs := span_pos (b := b) f
  obtain ⟨hC, hfr⟩ := hI.toCore.rewrite hf (fun a h => hm a (by omega)) ha hno
  refine ⟨⟨hC, fun x hx hu => ?_⟩, hfr⟩
  rcases mem_middle.1 hx with rfl | hx
  · rw [hm _ (.inl (by unfold prev; omega))]
    exact hI.marked x (mem_middle.2 (.inl rfl)) hu
  · exact hfr.marked (fun y hy => hI.marked y (mem_middle.2 (.inr hy))) x hx hu

/-! ### Neighbours -/

theorem Base.frag_next (hB : Base b q (A ++ f :: B)) : FRAG_NEXT b q f.addr = f.addr + span b f := by
  rw [FRAG_NEXT, hB.head f (mem_middle.2 (.inl rfl)), add_assoc]
  rfl

theorem Inv.next (hI : Inv b q (A ++ f :: B) L) {n : ℕ} (hn : n = f.addr + span b f)
    (hlt : n < q.last_frag) (hp : q.mem (prev n) ≠ 0) :
    ∃ g B', B = g :: B' ∧ g.addr = n ∧ g.free = true := by
  obtain ⟨-, -, h⟩ := hI.toBase.cut
  cases B with
  | nil =>
    have : f.addr + span b f = q.last_frag + sizeof_frag b := h
    omega
  | cons g B =>
    have hg : g.addr = n := hn ▸ h.1
    refine ⟨g, B, rfl, hg, ?_⟩
    by_contra hu
    refine hp (hg ▸ hI.marked g ?_ (by simpa using hu))
    exact mem_append_right _ (mem_cons_of_mem _ mem_cons_self)

def Loose (last : ℕ) (f : Frag) : Prop := f.free = true ∧ f.addr < last

theorem Inv.next_loose (hI : Inv b q (A ++ f :: g :: B) L) (hg : Loose q.last_frag g) :
    f.addr + span b f < q.last_frag ∧ q.mem (prev (f.addr + span b f)) ≠ 0 := by
  rw [← hI.toBase.next_addr]
  refine ⟨hg.2, hI.toCore.prev_ne_zero ?_ hg.1⟩
  exact mem_append_right _ (mem_cons_of_mem _ mem_cons_self)

/-- The size that a run of adjacent fragments has when merged. -/
def merged (b : Build) (R : List Frag) : ℕ := bytes R + FRAG_OVERHEAD b * (R.length - 1)

theorem merged_cons (f : Frag) (R : List Frag) :
    merged b (f :: R) = f.size + (bytes R + FRAG_OVERHEAD b * R.length) := by
  rw [merged, QMalloc.bytes_cons, length_cons, Nat.add_sub_cancel, add_assoc]

theorem merged_infix {R S : List Frag} (h : R <:+: S) : merged b R ≤ merged b S := by
  obtain ⟨X, Y, rfl⟩ := h
  have hl : R.length - 1 ≤ (X ++ R ++ Y).length - 1 := by
    simp only [length_append]
    omega
  have hb : bytes R ≤ bytes (X ++ R ++ Y) := by
    rw [QMalloc.bytes_append, QMalloc.bytes_append]
    omega
  exact Nat.add_le_add hb (Nat.mul_le_mul_left _ hl)

/-- A run that cannot begin in `B` lies in front of it or inside of it. -/
theorem infix_append_of_stop {P : Frag → Prop} {N R : List Frag} (h : R <:+: N ++ B)
    (hR : ∀ f ∈ R, P f) (hB : ∀ f ∈ B.head?, ¬ P f) : R <:+: N ∨ R <:+: B := by
  induction N with
  | nil => exact .inr h
  | cons a N ih =>
    rcases infix_cons_iff.1 h with hp | hi
    · left
      refine IsPrefix.isInfix ?_
      rcases prefix_or_prefix_of_prefix hp (prefix_append (a :: N) B) with h1 | ⟨Y, rfl⟩
      · exact h1
      · -- otherwise the run holds the head of `B`
        have hp' : Y <+: B := (prefix_append_right_inj (a :: N)).1 hp
        cases Y with
        | nil => rw [append_nil]
        | cons y Y =>
          obtain ⟨Z, rfl⟩ := hp'
          exact absurd (hR y (by simp)) (hB y (by simp))
    · exact (ih hi).imp (fun h => h.trans (suffix_cons a N).isInfix) id

/-- Joins behind `f` stop at `B'`. -/
structure Merged (b : Build) (q q' : FmBlock) (A : List Frag) (f f' : Frag) (B B' : List Frag) : Prop where
  post : JoinPost b q q' f f' (A ++ B')
  taken : ∃ M, B = M ++ B' ∧ ∀ g ∈ M, g.free = true

theorem Merged.cons {f₁ f' : Frag} {B' : List Frag} (hg : g.free = true)
    (h : JoinPost b q q' f f₁ (A ++ B)) (h' : Merged b q' q'' A f₁ f' B B') :
    Merged b q q'' A f f' (g :: B) B' := by
  obtain ⟨M, hM, hfree⟩ := h'.taken
  refine ⟨h.trans h'.post fun x hx => ?_, g :: M, by rw [hM, cons_append], fun x hx => ?_⟩
  · rw [hM]
    exact (mem_append.1 hx).elim (mem_append_left _) fun h =>
      mem_append_right _ (mem_append_right _ h)
  · rcases mem_cons.1 hx with rfl | hx
    · exact hg
    · exact hfree x hx

theorem Merged.sub {f' : Frag} {B' : List Frag} (h : Merged b q q' A f f' B B') :
    (∀ g ∈ B', g ∈ B) ∧ lives B' = lives B ∧ B'.length ≤ B.length := by
  obtain ⟨M, rfl, hfree⟩ := h.taken
  refine ⟨fun g hg => mem_append_right _ hg, ?_, ?_⟩
  · rw [lives_append, lives_free hfree, nil_append]
  · rw [length_append]
    omega

/-- **The inner loop of the defragmentation**: `f` takes the loose fragments `g :: M`. -/
theorem mergeLoop_spec (size : ℕ) {fuel : ℕ} (hI : Inv b q (A ++ f :: g :: B) L) (hf : f.free = false)
    (hg : g.free = true) (hfuel : B.length < fuel) :
    ∃ q' n s f' M B' L', mergeLoop b q size f.addr fuel g.addr = some (q', n, s) ∧
      Inv b q' (A ++ f' :: B') L' ∧ JoinPost b q q' f f' (A ++ B') ∧
      Moves b (q, A ++ f :: g :: B) (q', A ++ f' :: B') ∧
      (B = M ++ B' ∧ (∀ x ∈ M, Loose q.last_frag x) ∧ f'.size = merged b (f :: g :: M)) ∧
      (s = true → size < f'.size) ∧
      (s = false → f'.size ≤ size ∧ n = f'.addr + span b f' ∧ ∀ x ∈ B'.head?, ¬ Loose q.last_frag x) := by
  induction fuel generalizing q f g B L with
  | zero => exact absurd hfuel (Nat.not_lt_zero _)
  | succ fuel ih =>
    obtain ⟨f₁, L₁, hI₁, hs, hp⟩ := hI.join hf hg
    have hmv : Move b (q, A ++ f :: g :: B) (joinFrag b q f.addr g.addr, A ++ f₁ :: B) :=
      Move.join hI.toCore hf hg hp.live hs
    rw [mergeLoop]
    obtain ⟨q₁, hq₁⟩ : ∃ q₁, q₁ = joinFrag b q f.addr g.addr := ⟨_, rfl⟩
    rw [← hq₁] at hI₁ hp hmv ⊢
    have hsize : q₁.mem f.addr = f₁.size := by
      rw [← hp.addr]
      exact hI₁.head f₁ (mem_middle.2 (.inl rfl))
    have hnext : FRAG_NEXT b q₁ f.addr = f₁.addr + span b f₁ := by
      rw [← hp.addr]
      exact hI₁.toBase.frag_next
    have hone : f₁.size = merged b (f :: [g]) := by
      rw [merged_cons, hs, QMalloc.bytes_cons, QMalloc.bytes_nil, length_singleton]
      omega
    rw [hsize, hnext]
    by_cases hbig : f₁.size > size
    · rw [if_pos hbig]
      exact ⟨q₁, _, _, f₁, [], B, L₁, rfl, hI₁, hp, .single hmv, ⟨rfl, by simp, hone⟩,
        fun _ => hbig, fun h => (nomatch h)⟩
    rw [if_neg hbig]
    by_cases hn : f₁.addr + span b f₁ < q₁.last_frag ∧ q₁.mem (prev (f₁.addr + span b f₁)) ≠ 0
    · obtain ⟨k, B₁, rfl, hk, hkf⟩ := hI₁.next rfl hn.1 hn.2
      rw [if_pos hn, ← hk, ← hp.addr]
      obtain ⟨q₂, n, s, f', M, B', L', he, hI', hp', hmv', ⟨hM, hloose, hsz⟩, h1, h2⟩ :=
        ih hI₁ hp.live hkf (Nat.lt_of_succ_lt_succ hfuel)
      have hlast := hp.arena.last_frag
      rw [hlast] at hloose h2
      have hkl : Loose q.last_frag k := ⟨hkf, by rw [hk, ← hlast]; exact hn.1⟩
      refine ⟨q₂, n, s, f', k :: M, B', L', he, hI', hp.trans hp' fun x hx => ?_, .head hmv hmv',
        ⟨by rw [hM, cons_append], ?_, ?_⟩, h1, h2⟩
      · rcases mem_append.1 hx with hx | hx
        · exact mem_append_left _ hx
        · refine mem_append_right _ (mem_cons_of_mem _ ?_)
          rw [hM]
          exact mem_append_right _ hx
      · intro x hx
        rcases mem_cons.1 hx with rfl | hx
        · exact hkl
        · exact hloose x hx
      · rw [hsz, merged_cons, merged_cons, hs]
        simp only [QMalloc.bytes_cons, length_cons, Nat.mul_add, mul_one]
        omega
    · rw [if_neg hn]
      refine ⟨q₁, _, _, f₁, [], B, L₁, rfl, hI₁, hp, .single hmv, ⟨rfl, by simp, hone⟩,
        fun h => (nomatch h), fun _ => ⟨by omega, rfl, fun x hx hl => hn ?_⟩⟩
      obtain ⟨B, rfl⟩ : ∃ B₁, B = x :: B₁ := by
        cases B with
        | nil => cases hx
        | cons y B =>
          cases hx
          exact ⟨B, rfl⟩
      rw [← hp.arena.last_frag] at hl
      exact hI₁.next_loose hl

/-- What the defragmentation from `frs` on achieved. -/
structure Defragged (b : Build) (q : FmBlock) (frs : List Frag) (size : ℕ) (q' : FmBlock)
    (r : Option ℕ) (frs' : List Frag) : Prop where
  arena : SameArena q q'
  frozen : Frozen b q q' (lives frs)
  result : (r = none ∧ lives frs' = lives frs) ∨
    ∃ f, r = some f.addr ∧ size < f.size ∧ f.free = false ∧ (lives frs').Perm (f :: lives frs)

theorem Defragged.after {size : ℕ} {r : Option ℕ} {frs₁ : List Frag} (ha : SameArena q q')
    (hfr : Frozen b q q' (lives frs)) (hl : lives frs₁ = lives frs)
    (h : Defragged b q' frs₁ size q'' r frs') : Defragged b q frs size q'' r frs' := by
  refine ⟨ha.trans h.arena, hfr.trans (hl ▸ h.frozen), ?_⟩
  rw [← hl]
  exact h.result

/-- A run of at least two loose neighbours that merges to more than `size`. -/
def Solvable (b : Build) (last : ℕ) (frs : List Frag) (size : ℕ) : Prop :=
  ∃ R, R <:+: frs ∧ (∀ f ∈ R, Loose last f) ∧ 2 ≤ R.length ∧ size < merged b R

theorem Solvable.mono {last size : ℕ} {S T : List Frag} (h : Solvable b last S size)
    (hs : S <:+ T) : Solvable b last T size := by
  obtain ⟨R, h1, h2⟩ := h
  exact ⟨R, h1.trans hs.isInfix, h2⟩

theorem Solvable.tail {last size : ℕ} (h : Solvable b last (f :: B) size)
    (hn : ¬ (Loose last f ∧ ∃ g ∈ B.head?, Loose last g)) : Solvable b last B size := by
  obtain ⟨R, hR, hl, h2, hs⟩ := h
  rcases infix_cons_iff.1 hR with hp | hi
  · exfalso
    match R, h2 with
    | x :: y :: R, _ =>
      obtain ⟨Z, hZ⟩ := hp
      simp only [cons_append, cons.injEq] at hZ
      obtain ⟨rfl, rfl⟩ := hZ
      exact hn ⟨hl x (by simp), y, by simp, hl y (by simp)⟩
  · exact ⟨R, hi, hl, h2, hs⟩

/-- **The defragmentation** merges runs of loose neighbours, until one is larger than `size`. -/
theorem defragLoop_spec (size : ℕ) {fuel a : ℕ} (hI : Inv b q (A ++ B) L) (ha : Frags b q.first_frag A a)
    (hfuel : B.length < fuel) : ∃ q' r frs' L', defragLoop b q size fuel a = some (q', r) ∧
      Inv b q' frs' L' ∧ Defragged b q (A ++ B) size q' r frs' ∧
      Moves b (q, A ++ B) (q', frs') ∧ (r ≠ none ↔ Solvable b q.last_frag B size) := by
  induction fuel generalizing q A B L a with
  | zero => exact absurd hfuel (Nat.not_lt_zero _)
  | succ fuel ih =>
    rw [defragLoop]
    by_cases hlt : a < q.last_frag
    · obtain ⟨m, t1, t2⟩ := tiled_append.1 hI.tiled
      obtain rfl := ha.unique t1
      cases B with
      | nil =>
        have : a = q.last_frag + sizeof_frag b := t2
        omega
      | cons f B =>
        obtain rfl : f.addr = a := t2.1
        have hnext := hI.toBase.frag_next
        rw [if_pos hlt]
        rw [hnext]
        by_cases hn : f.addr + span b f < q.last_frag ∧ q.mem (prev (f.addr + span b f)) ≠ 0 ∧
            q.mem (prev f.addr) ≠ 0
        · obtain ⟨g, B, rfl, hg, hgf⟩ := hI.next rfl hn.1 hn.2.1
          have hf : f.free = true := by
            by_contra hu
            exact hn.2.2 (hI.marked f (mem_middle.2 (.inl rfl)) (by simpa using hu))
          have hgl : Loose q.last_frag g := ⟨hgf, by rw [hg]; exact hn.1⟩
          obtain ⟨L₁, hI₁, ha₁, hfr₁⟩ := hI.remove hf
          have hmv₁ := Move.remove hI.toCore hf
          have hlen : B.length < steps q := by
            have := hI.toBase.length_lt
            simp only [length_append, length_cons] at this
            omega
          obtain ⟨q₂, n, s, f', M, B', L₂, he, hI₂, hp, hmv₂, ⟨rfl, hloose, hsz⟩, h1, h2⟩ :=
            mergeLoop_spec size hI₁ rfl hgf hlen
          rw [ha₁.last_frag] at hloose h2
          have hrun : ∀ x ∈ f :: g :: M, Loose q.last_frag x := by
            intro x hx
            rcases mem_cons.1 hx with rfl | hx
            · exact ⟨hf, hlt⟩
            · rcases mem_cons.1 hx with rfl | hx
              · exact hgl
              · exact hloose x hx
          have hsz' : f'.size = merged b (f :: g :: M) := by
            rw [hsz, merged_cons, merged_cons]
          have hMfree : ∀ x ∈ g :: M, x.free = true := fun x hx => (hrun x (by simp [hx])).1
          have ha₂ := ha₁.trans hp.arena
          have hmv := Relation.ReflTransGen.head hmv₁ hmv₂
          have hl₂ : lives (A ++ B') = lives (A ++ f :: g :: (M ++ B')) := by
            rw [lives_append, lives_append, lives_cons_free hf, ← cons_append, lives_append,
              lives_free hMfree, nil_append]
          have hfr₂ : Frozen b q q₂ (A ++ B') := by
            refine (hfr₁.mono fun x hx => ?_).trans hp.frozen
            simp only [mem_append, mem_cons] at hx ⊢
            tauto
          dsimp only at he
          rw [if_pos hn, ← hg, he]
          simp only [bind_eq_bind, bind_some]
          cases s with
          | true =>
            refine ⟨q₂, some f.addr, A ++ f' :: B', L₂, rfl, hI₂, ⟨ha₂, hl₂ ▸ hfr₂.lives, .inr ?_⟩,
              hmv, iff_of_true (by simp) ⟨f :: g :: M, ?_, hrun, by simp, hsz' ▸ h1 rfl⟩⟩
            · refine ⟨f', congrArg some hp.addr.symm, h1 rfl, hp.live, ?_⟩
              rw [← hl₂, lives_append, lives_cons hp.live, lives_append]
              exact perm_middle
            · exact (prefix_append (f :: g :: M) B').isInfix
          | false =>
            obtain ⟨hle, hn', hstop⟩ := h2 rfl
            obtain ⟨q₃, L₃, hq₃, hI₃, ha₃, hfr₃⟩ := hI₂.insert hp.live
            have hmv₃ := hmv.tail (Move.insert hI₂.toCore hp.live hq₃)
            rw [hp.addr] at hq₃
            have hl₃ : lives (A ++ { f' with free := true } :: B') = lives (A ++ f :: g :: (M ++ B')) := by
              rw [lives_append, lives_cons_free rfl, ← lives_append, hl₂]
            have hfr : Frozen b q q₃ (lives (A ++ f :: g :: (M ++ B'))) :=
              hl₂ ▸ (hfr₂.trans hfr₃).lives
            have hI₃' : Inv b q₃ ((A ++ [{ f' with free := true }]) ++ B') L₃ := by
              rwa [append_assoc]
            have ht : Frags b q₃.first_frag (A ++ [{ f' with free := true }]) n := by
              rw [ha₃.first_frag, ha₂.first_frag]
              refine tiled_append.2 ⟨f.addr, ha, hp.addr, ?_⟩
              rw [← hp.addr, hn']
              rfl
            obtain ⟨q', r, frs', L', he', hI', hd, hmv', hr⟩ := ih hI₃' ht (by
              simp only [length_cons, length_append] at hfuel
              omega)
            rw [ha₃.last_frag, ha₂.last_frag] at hr
            rw [append_assoc] at hmv'
            refine ⟨q', r, frs', L', ?_, hI', Defragged.after (ha₂.trans ha₃) hfr ?_ hd,
              hmv₃.trans hmv', hr.trans ⟨fun h => ?_, fun h => ?_⟩⟩
            · rw [if_neg (by decide), hq₃, bind_some, he']
            · rw [append_assoc]
              exact hl₃
            · exact h.mono ⟨f :: g :: M, by simp⟩
            · obtain ⟨R, hR, hl, hlen2, hs⟩ := h
              rcases infix_append_of_stop (N := f :: g :: M) hR hl hstop with hin | hin
              · have := merged_infix (b := b) hin
                omega
              · exact ⟨R, hin, hl, hlen2, hs⟩
        · rw [if_neg hn]
          have hI' : Inv b q ((A ++ [f]) ++ B) L := by rwa [append_assoc]
          obtain ⟨q', r, frs', L', he', hI', hd, hmv, hr⟩ := ih hI'
            (tiled_append.2 ⟨f.addr, ha, rfl, rfl⟩) (Nat.lt_of_succ_lt_succ hfuel)
          rw [append_assoc] at hd hmv
          refine ⟨q', r, frs', L', he', hI', hd, hmv, hr.trans ⟨fun h => ?_, fun h => h.tail ?_⟩⟩
          · exact h.mono (suffix_cons f B)
          · rintro ⟨hfl, g, hg, hgl⟩
            obtain ⟨B, rfl⟩ : ∃ B₁, B = g :: B₁ := by
              cases B with
              | nil => cases hg
              | cons y B =>
                cases hg
                exact ⟨B, rfl⟩
            obtain ⟨h1, h2⟩ := hI.next_loose hgl
            exact hn ⟨h1, h2, hI.toCore.prev_ne_zero (mem_middle.2 (.inl rfl)) hfl.1⟩
    · rw [if_neg hlt]
      refine ⟨q, none, A ++ B, L, rfl, hI, ⟨SameArena.refl q, Frozen.refl _, .inl ⟨rfl, rfl⟩⟩, .refl,
        iff_of_false (by simp) ?_⟩
      rintro ⟨R, hR, hl, hlen, -⟩
      obtain ⟨m, t1, t2⟩ := tiled_append.1 hI.tiled
      obtain rfl := ha.unique t1
      cases R with
      | nil => simp at hlen
      | cons x R =>
        have h1 := (t2.mem (hR.subset mem_cons_self)).1
        have h2 := (hl x mem_cons_self).2
        omega

/-! ### The search -/

theorem bucketLoop_spec {size fuel a : ℕ} {l : List ℕ} (h : CellList nxt_free prev q.mem a l)
    (h0 : ∀ x ∈ l, x ≠ 0) (hf : l.length < fuel) :
    bucketLoop q size fuel (q.mem a) = some (l.find? fun x => decide (q.mem x ≥ size)) := by
  induction l generalizing a fuel with
  | nil =>
    obtain ⟨fuel, rfl⟩ := Nat.exists_eq_add_one_of_ne_zero (Nat.ne_zero_of_lt hf)
    exact if_pos h
  | cons x l ih =>
    obtain ⟨fuel, rfl⟩ := Nat.exists_eq_add_one_of_ne_zero (Nat.ne_zero_of_lt hf)
    obtain ⟨h1, -, h3⟩ := h
    rw [bucketLoop, h1, if_neg (h0 x mem_cons_self), find?_cons]
    by_cases hs : q.mem x ≥ size
    · rw [if_pos hs, decide_eq_true hs]
    · rw [if_neg hs, decide_eq_false hs]
      exact ih h3 (fun y hy => h0 y (mem_cons_of_mem _ hy)) (Nat.lt_of_succ_lt_succ hf)

/-- The search ends; what it finds is free and large enough, and it overlooks nothing in its buckets. -/
theorem findLoop_spec (hC : Core b q frs L) (size : ℕ) {n hash : ℕ} (hn : hash + n ≤ F_HASH_SIZE) :
    ∃ r, findLoop b q size n hash = some r ∧ (∀ x ∈ r, ∃ f ∈ frs, f.addr = x ∧ f.free = true ∧ size ≤ f.size) ∧
      (r = none → ∀ f ∈ frs, f.free = true → hash ≤ GET_HASH f.size → GET_HASH f.size < hash + n →
        f.size < size) := by
  induction n generalizing hash with
  | zero => exact ⟨none, rfl, fun x hx => (nomatch hx), fun _ f _ _ h1 h2 => by omega⟩
  | succ n ih =>
    have hh : hash < F_HASH_SIZE := by omega
    rw [findLoop, bucketLoop_spec (hC.list hash hh) (fun x hx => hC.toFiled.ne_zero hC.toBase hh hx)
      ((hC.toFiled.length_le hh).trans_lt hC.toBase.length_lt)]
    simp only [bind_eq_bind, bind_some]
    cases hfind : (L hash).find? fun x => decide (q.mem x ≥ size) with
    | none =>
      obtain ⟨r, hr, h1, h2⟩ := ih (by omega : hash + 1 + n ≤ F_HASH_SIZE)
      refine ⟨r, hr, h1, fun hnone f hf hfree hlo hhi => ?_⟩
      by_cases he : GET_HASH f.size = hash
      · have hmem := (hC.mem_iff hash hh f.addr).2 ⟨f, hf, rfl, hfree, he⟩
        have := find?_eq_none.1 hfind f.addr hmem
        rw [hC.head f hf] at this
        simpa using this
      · exact h2 hnone f hf hfree (by omega) (by omega)
    | some y =>
      refine ⟨some y, rfl, fun x hx => ?_, fun h => (nomatch h)⟩
      cases hx
      obtain ⟨f, hf, rfl, hfree, -⟩ := (hC.mem_iff hash hh y).1 (mem_of_find?_eq_some hfind)
      have hs := find?_some hfind
      rw [hC.head f hf] at hs
      exact ⟨f, hf, rfl, hfree, of_decide_eq_true hs⟩

/-! ### Allocation -/

/-- What a call does to the live fragments: `gone` go, `made` come, no other is written. -/
structure Effect (b : Build) (q : FmBlock) (frs : List Frag) (q' : FmBlock) (frs' : List Frag)
    (gone made : List Frag) : Prop where
  arena : SameArena q q'
  rest : ∃ R, (lives frs).Perm (gone ++ R) ∧ (lives frs').Perm (made ++ R) ∧ Frozen b q q' R

theorem Effect.refl (b : Build) (q : FmBlock) (frs : List Frag) : Effect b q frs q frs [] [] :=
  ⟨SameArena.refl q, lives frs, List.Perm.refl _, List.Perm.refl _, Frozen.refl _⟩

theorem Effect.recount {gone made : List Frag} (h : Effect b q frs q' frs' gone made)
    (hm : q''.mem = q'.mem) (ha : SameArena q' q'') : Effect b q frs q'' frs' gone made := by
  obtain ⟨R, h1, h2, h3⟩ := h.rest
  refine ⟨h.arena.trans ha, R, h1, h2, fun g hg hu j hj => ?_⟩
  rw [hm]
  exact h3 g hg hu j hj

theorem Inv.mark (hI : Inv b q (A ++ f :: B) L) (hf : f.free = false) (c : Caller) :
    Inv b (mark b q f.addr c) (A ++ f :: B) L ∧ Frozen b q (mark b q f.addr c) (A ++ B) := by
  obtain ⟨ha, hno⟩ := mark_ctl (b := b) q f.addr c
  refine hI.fill hf (fun a h => mark_mem c ?_) ha hno
  unfold span at h
  omega

/-- What `fm_malloc` can serve: a free fragment holds `size`, or some loose neighbours merge to more. -/
def Serves (b : Build) (q : FmBlock) (frs : List Frag) (size : ℕ) : Prop :=
  (∃ f ∈ frs, f.free = true ∧ size ≤ f.size) ∨ Solvable b q.last_frag frs size

/-- **`fm_malloc`** returns a new live fragment, or `NULL`. -/
theorem malloc_spec (hI : Inv b q frs L) (size : ℕ) (c : Caller) :
    ∃ q' frs' L', Inv b q' frs' L' ∧ Moves b (q, frs) (q', frs') ∧
      ((fm_malloc b q size c = some (q', 0) ∧ Effect b q frs q' frs' [] [] ∧ ¬ Serves b q frs (ROUNDUP size)) ∨
        ∃ f, fm_malloc b q size c = some (q', f.addr + sizeof_frag b) ∧
          Effect b q frs q' frs' [] [f] ∧ ROUNDUP size ≤ f.size ∧ Serves b q frs (ROUNDUP size)) := by
  have hh : GET_HASH (ROUNDUP size) + (F_HASH_SIZE - GET_HASH (ROUNDUP size)) = F_HASH_SIZE := by
    have := GET_HASH_lt (ROUNDUP_lt size)
    omega
  obtain ⟨r, hr, hfound, hnone⟩ := findLoop_spec hI.toCore (ROUNDUP size) hh.le
  unfold fm_malloc
  simp only [hr, bind_eq_bind, bind_some]
  cases r with
  | some x =>
    obtain ⟨f, hf, rfl, hfree, hle⟩ := hfound x rfl
    have hserves : Serves b q frs (ROUNDUP size) := .inl ⟨f, hf, hfree, hle⟩
    obtain ⟨A, B, rfl⟩ := append_of_mem hf
    obtain ⟨L₁, hI₁, ha₁, hfr₁⟩ := hI.remove hfree
    have hmv₁ := Move.remove hI.toCore hfree
    obtain ⟨q₂, f', T, L₂, hq₂, hI₂, hp, hmv₂⟩ := hI₁.split c rfl (dvd_ROUNDUP size) hle
    obtain ⟨hI₃, hfr₃⟩ := hI₂.mark hp.live c
    obtain ⟨hm, hno, ha⟩ := peak_ctl (b := b) (mark b q₂ f'.addr c)
    have hfr : Frozen b q (mark b q₂ f'.addr c) (A ++ B) := (hfr₁.trans hp.frozen).trans
      (hfr₃.mono fun x hx => (mem_append.1 hx).elim (mem_append_left _)
        fun h => mem_append_right _ (mem_append_right _ h))
    have hmv := ((Relation.ReflTransGen.head hmv₁ hmv₂).tail (.touch (mark_counts q₂ f'.addr c))).tail
      (.touch (peak_counts (b := b) (mark b q₂ f'.addr c)))
    refine ⟨_, _, L₂, hI₃.recount hm hno ha, hmv, .inr ⟨f', ?_, ?_, hp.le, hserves⟩⟩
    · dsimp only at hq₂ ⊢
      rw [hq₂, bind_some, hp.addr]
      rfl
    · refine Effect.recount ⟨(ha₁.trans hp.arena).trans (mark_ctl _ _ _).1, lives (A ++ B), ?_, ?_,
        hfr.lives⟩ hm ha
      · rw [lives_append, lives_cons_free hfree, ← lives_append]
        exact List.Perm.refl _
      · rw [lives_append, lives_cons hp.live, lives_append, lives_free hp.rest, lives_append]
        exact perm_middle
  | none =>
    have hsmall : ∀ f ∈ frs, f.free = true → f.size < ROUNDUP size := by
      intro f hf hfree
      by_contra hge
      have hsz : f.size < 2 ^ 64 := by
        have := hI.toBase.size_lt hf
        unfold span at this
        omega
      have hmono := GET_HASH_mono (not_lt.1 hge) hsz
      exact hge (hnone rfl f hf hfree hmono (by rw [hh]; exact GET_HASH_lt hsz))
    obtain ⟨q', r, frs', L', he, hI', hd, hmv, hr⟩ := defragLoop_spec (ROUNDUP size) (A := []) hI rfl
      hI.toBase.length_lt
    rw [nil_append] at hd hmv
    rw [he]
    rcases hd.result with ⟨rfl, hl⟩ | ⟨f, rfl, hlt, -, hp⟩
    · refine ⟨q', frs', L', hI', hmv, .inl ⟨rfl, ⟨hd.arena, lives frs, List.Perm.refl _,
        hl ▸ List.Perm.refl _, hd.frozen⟩, ?_⟩⟩
      rintro (⟨f, hf, hfree, hle⟩ | hs)
      · exact absurd hle (not_le.2 (hsmall f hf hfree))
      · exact hr.2 hs rfl
    · obtain ⟨hm, hno, ha⟩ := peak_ctl (b := b) q'
      exact ⟨_, frs', L', hI'.recount hm hno ha, hmv.tail (.touch (peak_counts q')), .inr ⟨f, rfl,
        Effect.recount ⟨hd.arena, lives frs, List.Perm.refl _, hp, hd.frozen⟩ hm ha, hlt.le,
        .inr (hr.1 (by simp))⟩⟩

end OpenSips.FMalloc
