import OpenSips.FMalloc.Malloc

/-!
# OpenSips.FMalloc.Realloc — `fm_free` and `fm_realloc`

A freed fragment takes the free ones behind it and goes on the list of the sum.  `fm_realloc` cuts a
fragment, lets it take the one behind, or moves its contents.
-/

namespace OpenSips.FMalloc

open Lib List Option
open QMalloc (Frag lives lives_append lives_cons lives_cons_free lives_free mem_lives wrap wsub)

variable {b : Build} {q q' q'' : FmBlock} {frs frs' A B : List Frag} {L : ℕ → List ℕ} {f g : Frag}

/-! ### Freeing -/

theorem Merged.refl (hf : f.free = false) : Merged b q q A f f B B :=
  ⟨JoinPost.refl hf _, [], rfl, fun _ h => absurd h not_mem_nil⟩

/-- **The joins of `fm_free`.** -/
theorem joinLoop_spec {fuel : ℕ} (hI : Inv b q (A ++ f :: B) L) (hf : f.free = false)
    (hfuel : B.length < fuel) : ∃ q' f' B' L', joinLoop b q f.addr fuel = some q' ∧
      Inv b q' (A ++ f' :: B') L' ∧ Merged b q q' A f f' B B' ∧
      Moves b (q, A ++ f :: B) (q', A ++ f' :: B') := by
  induction fuel generalizing q f B L with
  | zero => exact absurd hfuel (Nat.not_lt_zero _)
  | succ fuel ih =>
    rw [joinLoop]
    by_cases hlim : q.large_limit < q.large_space
    · exact ⟨q, f, B, L, if_pos hlim, hI, Merged.refl hf, .refl⟩
    rw [if_neg hlim]
    rw [hI.toBase.frag_next]
    by_cases hn : f.addr + span b f < q.last_frag ∧ q.mem (prev (f.addr + span b f)) ≠ 0
    · obtain ⟨g, B, rfl, hg, hgf⟩ := hI.next rfl hn.1 hn.2
      obtain ⟨f₁, L₁, hI₁, hs, hp⟩ := hI.join hf hgf
      have hmv : Move b (q, A ++ f :: g :: B) (joinFrag b q f.addr g.addr, A ++ f₁ :: B) :=
        Move.join hI.toCore hf hgf hp.live hs
      rw [if_pos hn, ← hg]
      obtain ⟨q₁, hq₁⟩ : ∃ q₁, q₁ = joinFrag b q f.addr g.addr := ⟨_, rfl⟩
      rw [← hq₁] at hI₁ hp hmv ⊢
      rw [← hp.addr]
      obtain ⟨q', f', B', L', he, hI', hm, hmv'⟩ := ih hI₁ hp.live (Nat.lt_of_succ_lt_succ hfuel)
      exact ⟨q', f', B', L', he, hI', hm.cons hgf hp, .head hmv hmv'⟩
    · rw [if_neg hn]
      exact ⟨q, f, B, L, rfl, hI, Merged.refl hf, .refl⟩

/-- **`fm_free`** of a live fragment. -/
theorem free_spec (hI : Inv b q frs L) (hf : f ∈ frs) (hu : f.free = false) (c : Caller)
    (hc : inBlock b q (f.addr + sizeof_frag b) = some ()) :
    ∃ q' frs' L', fm_free b q (f.addr + sizeof_frag b) c = some q' ∧ Inv b q' frs' L' ∧
      Effect b q frs q' frs' [f] [] ∧ Moves b (q, frs) (q', frs') := by
  obtain ⟨A, B, rfl⟩ := append_of_mem hf
  have h24 := (sizeof_frag_bounds b).1
  obtain ⟨q₁, hq₁⟩ : ∃ q₁, q₁ = if b.dbg then tag q f.addr c else q := ⟨_, rfl⟩
  obtain ⟨hm₁, ⟨ha₁, hno₁⟩, hcnt⟩ : (∀ a, a < f.addr + 24 ∨ f.addr + span b f ≤ a → q₁.mem a = q.mem a) ∧
      (SameArena q q₁ ∧ q₁.no = q.no) ∧ SameCounts q q₁ := by
    rw [hq₁]
    split_ifs with hb
    · refine ⟨fun a h => tag_mem c ?_, tag_ctl q f.addr c, rfl, rfl, rfl⟩
      have := (sizeof_frag_bounds b).2.1 hb
      unfold span at h
      omega
    · exact ⟨fun _ _ => rfl, ⟨SameArena.refl q, rfl⟩, rfl, rfl, rfl⟩
  obtain ⟨hI₁, hfr₁⟩ := hI.fill hu hm₁ ha₁ hno₁
  have hlen : B.length < steps q₁ := by
    have := hI₁.toBase.length_lt
    simp only [length_append, length_cons] at this
    omega
  obtain ⟨q₂, f', B', L₂, hq₂, hI₂, hm, hmv⟩ := joinLoop_spec hI₁ hu hlen
  obtain ⟨q₃, L₃, hq₃, hI₃, ha₃, hfr₃⟩ := hI₂.insert hm.post.live
  have hmv₃ := (Relation.ReflTransGen.head (.touch hcnt) hmv).tail (Move.insert hI₂.toCore hm.post.live hq₃)
  obtain ⟨hsub, hlives, -⟩ := hm.sub
  have hfr : Frozen b q q₃ (A ++ B') := ((hfr₁.mono fun x hx =>
    (mem_append.1 hx).elim (mem_append_left _) fun h =>
      mem_append_right _ (hsub x h)).trans hm.post.frozen).trans hfr₃
  refine ⟨q₃, _, L₃, ?_, hI₃, ⟨ha₁.trans (hm.post.arena.trans ha₃), lives (A ++ B'), ?_, ?_, hfr.lives⟩, hmv₃⟩
  · unfold fm_free
    simp only [hc, bind_eq_bind, bind_some]
    rw [if_neg (by omega), Nat.add_sub_cancel, ← hq₁, hq₂, bind_some, ← hm.post.addr, hq₃]
  · rw [lives_append, lives_cons hu, lives_append, hlives]
    exact perm_middle
  · rw [lives_append, lives_cons_free rfl, lives_append]
    exact List.Perm.refl _

/-! ### Resizing -/

/-- The first `n` payload bytes of `f'` are those `f` had. -/
def Contents (b : Build) (q q' : FmBlock) (f f' : Frag) (n : ℕ) : Prop :=
  ∀ j < n, q'.mem (f'.addr + sizeof_frag b + j) = q.mem (f.addr + sizeof_frag b + j)

variable {f' : Frag}

theorem effect_replace {A' B' : List Frag} (ha : SameArena q q') (hf : f.free = false)
    (hf' : f'.free = false) (hA : lives A' = lives A) (hB : lives B' = lives B)
    (hfr : Frozen b q q' (lives (A ++ B))) : Effect b q (A ++ f :: B) q' (A' ++ f' :: B') [f] [f'] := by
  refine ⟨ha, lives (A ++ B), ?_, ?_, hfr⟩
  · rw [lives_append, lives_cons hf, lives_append]
    exact perm_middle
  · rw [lives_append, lives_cons hf', lives_append, hA, hB]
    exact perm_middle

/-- What a call on the live fragment `f` did that returned the fragment `f'`. -/
structure Resized (b : Build) (q : FmBlock) (frs : List Frag) (f : Frag) (q' : FmBlock)
    (frs' : List Frag) (f' : Frag) (size : ℕ) : Prop where
  effect : Effect b q frs q' frs' [f] [f']
  le : size ≤ f'.size
  contents : Contents b q q' f f' (min f.size f'.size)

variable {size : ℕ}

theorem Resized.recount (h : Resized b q frs f q' frs' f' size)
    (hm : q''.mem = q'.mem) (ha : SameArena q' q'') : Resized b q frs f q'' frs' f' size := by
  refine ⟨h.effect.recount hm ha, h.le, fun j hj => ?_⟩
  rw [hm]
  exact h.contents j hj

theorem SplitPost.resized {T : List Frag} {new : ℕ} (hf : f.free = false)
    (h : SplitPost b q q' f f' T (A ++ B) new) :
    Resized b q (A ++ f :: B) f q' (A ++ f' :: (T ++ B)) f' new := by
  refine ⟨effect_replace h.arena hf h.live rfl ?_ h.frozen.lives, h.le, fun j hj => ?_⟩
  · rw [lives_append, lives_free h.rest, nil_append]
  · have := (sizeof_frag_bounds b).1
    rw [h.addr, add_assoc, ← h.addr]
    exact h.data _ (by omega) (by unfold span; omega)

theorem grow_spec (c : Caller) (hI : Inv b q (A ++ f :: g :: B) L) (hf : f.free = false)
    (hg : g.free = true) (hd : 8 ∣ size)
    (hroom : size ≤ f.size + (g.size + FRAG_OVERHEAD b)) :
    ∃ q' f' T L', (if (joinFrag b q f.addr g.addr).mem f.addr > size then
        fm_split_frag b (joinFrag b q f.addr g.addr) f.addr size c
      else some (joinFrag b q f.addr g.addr)) = some q' ∧ Inv b q' (A ++ f' :: (T ++ B)) L' ∧
      f'.addr = f.addr ∧ Resized b q (A ++ f :: g :: B) f q' (A ++ f' :: (T ++ B)) f' size ∧
      Moves b (q, A ++ f :: g :: B) (q', A ++ f' :: (T ++ B)) := by
  obtain ⟨f₁, L₁, hI₁, hs, hp⟩ := hI.join hf hg
  have hmv : Move b (q, A ++ f :: g :: B) (joinFrag b q f.addr g.addr, A ++ f₁ :: B) :=
    Move.join hI.toCore hf hg hp.live hs
  obtain ⟨q₁, hq₁⟩ : ∃ q₁, q₁ = joinFrag b q f.addr g.addr := ⟨_, rfl⟩
  rw [← hq₁] at hI₁ hp hmv ⊢
  have hsize : q₁.mem f.addr = f₁.size := by
    rw [← hp.addr]
    exact hI₁.head f₁ (mem_middle.2 (.inl rfl))
  obtain ⟨q₂, f', T, L₂, hq₂, hI₂, hp₂, hmv₂⟩ : ∃ q₂ f' T L₂,
      (if f₁.size > size then fm_split_frag b q₁ f.addr size c else some q₁) = some q₂ ∧
      Inv b q₂ (A ++ f' :: (T ++ B)) L₂ ∧ SplitPost b q₁ q₂ f₁ f' T (A ++ B) size ∧
      Moves b (q₁, A ++ f₁ :: B) (q₂, A ++ f' :: (T ++ B)) := by
    by_cases hgt : f₁.size > size
    · rw [if_pos hgt, ← hp.addr]
      exact hI₁.split c hp.live hd hgt.le
    · exact ⟨q₁, f₁, [], L₁, if_neg hgt, hI₁, ⟨rfl, hp.live, by omega, le_rfl,
        fun _ h => absurd h not_mem_nil, Frozen.refl _, fun _ _ _ => rfl, SameArena.refl q₁⟩, .refl⟩
  have haddr := hp₂.addr.trans hp.addr
  have hle := hp₂.le
  rw [hsize]
  refine ⟨q₂, f', T, L₂, hq₂, hI₂, haddr, ⟨effect_replace (hp.arena.trans hp₂.arena) hf hp₂.live rfl ?_
    ?_, hle, fun j hj => ?_⟩, .head hmv hmv₂⟩
  · rw [lives_append, lives_free hp₂.rest, lives_cons_free hg, nil_append]
  · refine ((hp.frozen.trans hp₂.frozen).lives).mono fun x hx => ?_
    rwa [lives_append, lives_cons_free hg, ← lives_append] at hx
  · have h24 := (sizeof_frag_bounds b).1
    have h1 := hp₂.data (sizeof_frag b + j) (by omega) (by unfold span; omega)
    have h2 := hp.data (sizeof_frag b + j) (by omega) (by unfold span; omega)
    rw [haddr] at h1
    rw [haddr, add_assoc, h1, h2]

theorem memcpy_mem {dst src n x : ℕ} (h : x < dst ∨ dst + n ≤ x) :
    (memcpy q dst src n).mem x = q.mem x := if_neg (by omega)

theorem lives_nodup (hB : Base b q frs) : (lives frs).Nodup :=
  (Nodup.of_map _ (hB.tiled.nodup fun x _ => (by decide : 0 < 24).trans_le (span_pos x))).filter _

/-- The moving branch of `fm_realloc`. -/
def moved (b : Build) (q : FmBlock) (p orig_size size : ℕ) (c : Caller) : Option (FmBlock × ℕ) := do
  let (q, ptr) ← fm_malloc b q size c
  if ptr ≠ 0 then
    let q := memcpy q ptr p orig_size
    let q ← fm_free b q p c
    return (peak b q, ptr)
  else return (peak b q, ptr)

theorem moved_spec (hI : Inv b q frs L) (hf : f ∈ frs) (hu : f.free = false) (c : Caller)
    (hle : f.size ≤ ROUNDUP size) (hc : inBlock b q (f.addr + sizeof_frag b) = some ()) :
    ∃ q' frs' L', Inv b q' frs' L' ∧ Moves b (q, frs) (q', frs') ∧
      ((moved b q (f.addr + sizeof_frag b) f.size size c = some (q', 0) ∧ Effect b q frs q' frs' [] []) ∨
        ∃ f', moved b q (f.addr + sizeof_frag b) f.size size c = some (q', f'.addr + sizeof_frag b) ∧
          Resized b q frs f q' frs' f' (ROUNDUP size)) := by
  unfold moved
  obtain ⟨q₁, frs₁, L₁, hI₁, hmv₁, ⟨hm, he, -⟩ | ⟨f', hm, he, hsz, -⟩⟩ := malloc_spec hI size c
  · obtain ⟨p1, p2, p3⟩ := peak_ctl (b := b) q₁
    refine ⟨_, frs₁, L₁, hI₁.recount p1 p2 p3, hmv₁.tail (.touch (peak_counts q₁)), .inl ⟨?_, he.recount p1 p3⟩⟩
    rw [hm]
    rfl
  have h24 := (sizeof_frag_bounds b).1
  obtain ⟨R₁, p1, p2, fr1⟩ := he.rest
  rw [nil_append] at p1
  rw [singleton_append] at p2
  have hf₁ : f ∈ R₁ := p1.subset (mem_lives.2 ⟨hf, hu⟩)
  have hnd : f' ∉ R₁ := (nodup_cons.1 (p2.nodup_iff.1 (lives_nodup hI₁.toBase))).1
  obtain ⟨hf'₁, hu'⟩ := mem_lives.1 (p2.symm.subset mem_cons_self)
  obtain ⟨hff, -⟩ := mem_lives.1 (p2.symm.subset (mem_cons_of_mem _ hf₁))
  obtain ⟨A, B, rfl⟩ := append_of_mem hf'₁
  obtain ⟨q₂, hq₂⟩ : ∃ q₂, q₂ = memcpy q₁ (f'.addr + sizeof_frag b) (f.addr + sizeof_frag b) f.size := ⟨_, rfl⟩
  have ha₂ : SameArena q₁ q₂ := hq₂ ▸ ⟨rfl, rfl, rfl, rfl⟩
  obtain ⟨hI₂, fr2⟩ := hI₁.fill hu' (fun a h => by
    rw [hq₂]
    refine memcpy_mem ?_
    unfold span at h
    omega) ha₂ (hq₂ ▸ rfl)
  have hc₂ : inBlock b q₂ (f.addr + sizeof_frag b) = some () := by
    rw [← hc]
    unfold inBlock
    rw [(he.arena.trans ha₂).first_frag, (he.arena.trans ha₂).last_frag]
  have hcnt₂ : SameCounts q₁ q₂ := hq₂ ▸ ⟨rfl, rfl, rfl⟩
  obtain ⟨q₃, frs₃, L₃, hq₃, hI₃, he₃, hmv₃⟩ := free_spec hI₂ hff hu c hc₂
  obtain ⟨R₃, p3, p4, fr3⟩ := he₃.rest
  rw [singleton_append] at p3
  rw [nil_append] at p4
  obtain ⟨R, hR⟩ : ∃ R, R₁.Perm (f :: R) := by
    obtain ⟨X, Y, rfl⟩ := append_of_mem hf₁
    exact ⟨X ++ Y, perm_middle⟩
  have hR₃ : R₃.Perm (f' :: R) := (p3.symm.trans ((p2.trans (hR.cons f')).trans (Perm.swap f f' R))).cons_inv
  -- the fragments that are neither old nor new were not written
  have hfr : Frozen b q q₃ R := by
    refine ((fr1.mono fun g hg => hR.symm.subset (mem_cons_of_mem _ hg)).trans
      (fr2.mono fun g hg => ?_)).trans (fr3.mono fun g hg => hR₃.symm.subset (mem_cons_of_mem _ hg))
    have hg₁ : g ∈ R₁ := hR.symm.subset (mem_cons_of_mem _ hg)
    rcases mem_middle.1 (mem_lives.1 (p2.symm.subset (mem_cons_of_mem _ hg₁))).1 with e | h
    · exact absurd (e ▸ hg₁) hnd
    · exact h
  obtain ⟨k1, k2, k3⟩ := peak_ctl (b := b) q₃
  refine ⟨_, frs₃, L₃, hI₃.recount k1 k2 k3,
    ((hmv₁.tail (.touch hcnt₂)).trans hmv₃).tail (.touch (peak_counts q₃)), .inr ⟨f', ?_,
    Resized.recount ⟨⟨?_, R, p1.trans hR, p4.trans hR₃, hfr⟩, hsz, fun j hj => ?_⟩ k1 k3⟩⟩
  · rw [hm]
    simp only [bind_eq_bind, bind_some]
    rw [if_pos (by omega), ← hq₂, hq₃]
    rfl
  · exact he.arena.trans (ha₂.trans he₃.arena)
  · have h1 := fr3 f' (hR₃.symm.subset mem_cons_self) hu' (sizeof_frag b + j) (by unfold span; omega)
    have h2 := fr1 f hf₁ hu (sizeof_frag b + j) (by unfold span; omega)
    rw [add_assoc, h1, ← add_assoc, hq₂, memcpy]
    dsimp only
    rw [if_pos (by omega), Nat.add_sub_cancel_left, add_assoc, h2]

/-- `fm_realloc` of a live pointer to a size that is not 0. -/
theorem fm_realloc_eq {f size : ℕ} (c : Caller) (hs : size ≠ 0)
    (hc : inBlock b q (f + sizeof_frag b) = some ()) : fm_realloc b q (f + sizeof_frag b) size c =
      if q.mem f > ROUNDUP size then
        (fm_split_frag b q f (ROUNDUP size) c).map fun q => (peak b q, f + sizeof_frag b)
      else if q.mem f < ROUNDUP size then
        if FRAG_NEXT b q f < q.last_frag ∧ q.mem (prev (FRAG_NEXT b q f)) ≠ 0 ∧
            q.mem (FRAG_NEXT b q f) + FRAG_OVERHEAD b ≥ ROUNDUP size - q.mem f then
          (if (joinFrag b q f (FRAG_NEXT b q f)).mem f > ROUNDUP size then
            fm_split_frag b (joinFrag b q f (FRAG_NEXT b q f)) f (ROUNDUP size) c
          else some (joinFrag b q f (FRAG_NEXT b q f))).map fun q => (peak b q, f + sizeof_frag b)
        else moved b q (f + sizeof_frag b) (q.mem f) (ROUNDUP size) c
      else some (peak b q, f + sizeof_frag b) := by
  have hp : f + sizeof_frag b ≠ 0 := by
    have := (sizeof_frag_bounds b).1
    omega
  unfold fm_realloc
  rw [if_pos hp, hc]
  simp only [bind_eq_bind, bind_some]
  rw [if_neg hs, if_neg hp, Nat.add_sub_cancel]
  split_ifs
  · cases fm_split_frag b q f (ROUNDUP size) c <;> rfl
  · cases fm_split_frag b (joinFrag b q f (FRAG_NEXT b q f)) f (ROUNDUP size) c <;> rfl
  · rfl
  · rfl
  · rfl

/-- **`fm_realloc`** of a live pointer to a size that is not 0. -/
theorem realloc_spec (hI : Inv b q frs L) (hf : f ∈ frs) (hu : f.free = false) (c : Caller)
    (hs : size ≠ 0) (hc : inBlock b q (f.addr + sizeof_frag b) = some ()) :
    ∃ q' frs' L', Inv b q' frs' L' ∧ Moves b (q, frs) (q', frs') ∧
      ((fm_realloc b q (f.addr + sizeof_frag b) size c = some (q', 0) ∧ Effect b q frs q' frs' [] []) ∨
        ∃ f', fm_realloc b q (f.addr + sizeof_frag b) size c = some (q', f'.addr + sizeof_frag b) ∧
          Resized b q frs f q' frs' f' (ROUNDUP size)) := by
  have hsize := hI.head f hf
  have hd := dvd_ROUNDUP size
  rw [fm_realloc_eq c hs hc, hsize]
  rcases lt_trichotomy (ROUNDUP size) f.size with hlt | heq | hgt
  · obtain ⟨A, B, rfl⟩ := append_of_mem hf
    obtain ⟨q₁, f', T, L₁, hq₁, hI₁, hp, hmv⟩ := hI.split c hu hd hlt.le
    obtain ⟨p1, p2, p3⟩ := peak_ctl (b := b) q₁
    refine ⟨_, _, L₁, hI₁.recount p1 p2 p3, hmv.tail (.touch (peak_counts q₁)), .inr ⟨f', ?_, (hp.resized hu).recount p1 p3⟩⟩
    rw [if_pos hlt, hq₁, hp.addr]
    rfl
  · obtain ⟨A, B, rfl⟩ := append_of_mem hf
    obtain ⟨p1, p2, p3⟩ := peak_ctl (b := b) q
    refine ⟨_, _, L, hI.recount p1 p2 p3, .single (.touch (peak_counts q)), .inr ⟨f, ?_, Resized.recount ⟨effect_replace
      (SameArena.refl q) hu hu rfl rfl (Frozen.refl _), heq.le, fun _ _ => rfl⟩ p1 p3⟩⟩
    rw [if_neg (by omega), if_neg (by omega)]
  rw [if_neg (by omega), if_pos hgt]
  by_cases hj : FRAG_NEXT b q f.addr < q.last_frag ∧ q.mem (prev (FRAG_NEXT b q f.addr)) ≠ 0 ∧
      q.mem (FRAG_NEXT b q f.addr) + FRAG_OVERHEAD b ≥ ROUNDUP size - f.size
  · rw [if_pos hj]
    obtain ⟨A, B, rfl⟩ := append_of_mem hf
    have hnext := hI.toBase.frag_next
    obtain ⟨g, B, rfl, hg, hgf⟩ := hI.next hnext hj.1 hj.2.1
    rw [← hg] at hj ⊢
    have hgs := hI.head g (mem_append_right _ (mem_cons_of_mem _ mem_cons_self))
    obtain ⟨q₁, f', T, L₁, hq₁, hI₁, haddr, hr, hmv⟩ := grow_spec c hI hu hgf hd (by omega)
    obtain ⟨p1, p2, p3⟩ := peak_ctl (b := b) q₁
    refine ⟨_, _, L₁, hI₁.recount p1 p2 p3, hmv.tail (.touch (peak_counts q₁)), .inr ⟨f', ?_, hr.recount p1 p3⟩⟩
    rw [hq₁, haddr]
    rfl
  · rw [if_neg hj]
    have hm := moved_spec hI hf hu c (by rw [ROUNDUP_ROUNDUP]; exact hgt.le) hc
    rwa [ROUNDUP_ROUNDUP] at hm

end OpenSips.FMalloc
