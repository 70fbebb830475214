import OpenSips.FMalloc.Links

/-!
# OpenSips.FMalloc.Carve — cutting and joining fragments

What happens to fragments that are on no list stays inside the memory they cover (`Core.refill`):
`fm_split_frag` cuts one and puts the rest on its list, `joinFrag` adds the one behind, a debug build
tags headers, and `memcpy` fills a payload.
-/

namespace OpenSips.FMalloc

open Lib List
open QMalloc (Frag wrap wsub)

variable {b : Build} {q q' q'' : FmBlock} {frs A B : List Frag} {L : ℕ → List ℕ} {f g : Frag}

def KeepsData (b : Build) (q q' : FmBlock) (f : Frag) : Prop :=
  ∀ j, 0 < j → j < span b f → q'.mem (f.addr + j) = q.mem (f.addr + j)

/-- **Rewriting the memory of fragments on no list.** -/
theorem Core.refill {F : List Frag} (F' : List Frag) {m m' : ℕ} (hC : Core b q (A ++ (F ++ B)) L)
    (hF : ∀ f ∈ F, f.free = false) (hA : Frags b q.first_frag A m) (hT : Frags b m F m')
    (hT' : Frags b m F' m') (hF' : ∀ f ∈ F', f.free = false ∧ 8 ∣ f.size ∧ q'.mem f.addr = f.size)
    (hm : ∀ a, a < m ∨ m' ≤ a → q'.mem a = q.mem a) (ha : SameArena q q') (hno : q'.no = q.no) :
    Core b q' (A ++ (F' ++ B)) L ∧ Frozen b q q' (A ++ B) := by
  obtain ⟨m1, t1, t2⟩ := tiled_append.1 hC.tiled
  obtain rfl := hA.unique t1
  obtain ⟨m2, t3, t4⟩ := tiled_append.1 t2
  obtain rfl := hT.unique t3
  -- what lies outside the rewritten memory
  have keep : ∀ g ∈ A ++ B, ∀ j < span b g, q'.mem (g.addr + j) = q.mem (g.addr + j) := fun g hg j hj => by
    refine hm _ ?_
    rcases mem_append.1 hg with hg | hg
    · have := (hA.mem hg).2
      omega
    · have := (t4.mem hg).1
      omega
  have old : ∀ {g}, g ∈ A ++ B → g ∈ A ++ (F ++ B) := fun hg =>
    (mem_append.1 hg).elim (mem_append_left _) fun h =>
      mem_append_right _ (mem_append_right _ h)
  have outer : ∀ {G : List Frag}, (∀ g ∈ G, g.free = false) → ∀ g, g.free = true →
      (g ∈ A ++ (G ++ B) ↔ g ∈ A ++ B) := fun {G} hG g hu => by
    have hn : g ∉ G := fun hg => absurd (hG g hg) (by rw [hu]; decide)
    simp only [mem_append, hn, false_or]
  have hexists : ∀ h x, (∃ f ∈ A ++ (F' ++ B), f.addr = x ∧ f.free = true ∧ GET_HASH f.size = h) ↔
      ∃ f ∈ A ++ (F ++ B), f.addr = x ∧ f.free = true ∧ GET_HASH f.size = h := fun h x => by
    constructor
    · rintro ⟨g, hg, e, hu, hash⟩
      exact ⟨g, (outer hF g hu).2 ((outer (fun f hf => (hF' f hf).1) g hu).1 hg), e, hu, hash⟩
    · rintro ⟨g, hg, e, hu, hash⟩
      exact ⟨g, (outer (fun f hf => (hF' f hf).1) g hu).2 ((outer hF g hu).1 hg), e, hu, hash⟩
  have hall : ∀ {P : Frag → Prop}, (∀ g ∈ A ++ B, P g) → (∀ g ∈ F', P g) → ∀ g ∈ A ++ (F' ++ B), P g :=
    fun h1 h2 g hg => by
      rcases mem_append.1 hg with hg | hg
      · exact h1 g (mem_append_left _ hg)
      · rcases mem_append.1 hg with hg | hg
        · exact h2 g hg
        · exact h1 g (mem_append_right _ hg)
  refine ⟨⟨⟨?_, ?_, ?_, ?_, hall (fun g hg => hC.dvd g (old hg)) fun g hg => (hF' g hg).2.1,
    hall (fun g hg => ?_) fun g hg => (hF' g hg).2.2⟩, ⟨fun h hh x => ?_, hC.nodup⟩, fun h hh => ?_,
    fun h hh => ?_⟩, fun g hg _ => keep g hg⟩
  · rw [ha.first_frag, ha.last_frag]
    exact tiled_append.2 ⟨_, hA, tiled_append.2 ⟨_, hT', t4⟩⟩
  · rw [ha.free_hash, ha.first_frag]
    exact hC.ctl
  · rw [ha.last_frag]
    exact hC.top
  · rw [ha.first_frag]
    exact hC.aligned
  · have hs := span_pos (b := b) g
    exact (keep g hg 0 (by omega)).trans (hC.head g (old hg))
  · rw [hexists]
    exact hC.mem_iff h hh x
  · rw [ha.free_hash]
    refine (hC.list h hh).congr fun c hc => ?_
    rcases hC.toFiled.cell hh hc with rfl | ⟨g, hg, hu, -, hc⟩
    · refine hm _ (.inl ?_)
      have h1 := hC.ctl
      have h2 := hA.le
      unfold free_hash at h1 ⊢
      omega
    · have hs := span_pos (b := b) g
      have hk := keep g ((outer hF g hu).1 hg)
      rcases hc with rfl | rfl
      · exact hk 16 (by omega)
      · exact hk 8 (by omega)
  · rw [hno]
    exact hC.no h hh

theorem Base.cut (hB : Base b q (A ++ f :: B)) : Frags b q.first_frag A f.addr ∧
    Frags b f.addr [f] (f.addr + span b f) ∧ Frags b (f.addr + span b f) B (q.last_frag + sizeof_frag b) := by
  obtain ⟨m, h1, h2, h3⟩ := tiled_append.1 hB.tiled
  subst h2
  exact ⟨h1, ⟨rfl, rfl⟩, h3⟩

theorem Core.rewrite (hC : Core b q (A ++ f :: B) L) (hf : f.free = false)
    (hm : ∀ a, a ≤ f.addr ∨ f.addr + span b f ≤ a → q'.mem a = q.mem a) (ha : SameArena q q')
    (hno : q'.no = q.no) : Core b q' (A ++ f :: B) L ∧ Frozen b q q' (A ++ B) := by
  obtain ⟨t1, t2, -⟩ := hC.toBase.cut
  have hfm : f ∈ A ++ f :: B := mem_middle.2 (.inl rfl)
  refine Core.refill (F := [f]) [f] hC (fun g hg => mem_singleton.1 hg ▸ hf) t1 t2 t2
    (fun g hg => ?_) (fun a h => hm a (h.imp le_of_lt id)) ha hno
  obtain rfl := mem_singleton.1 hg
  exact ⟨hf, hC.dvd g hfm, (hm _ (.inl le_rfl)).trans (hC.head g hfm)⟩

@[simp] theorem store_mem (q : FmBlock) (a v x : ℕ) :
    (q.store a v).mem x = if x = a then v else q.mem x := Function.update_apply _ _ _ _

/-! ### Headers of a debug build -/

/-- `file`, `func`, `line` and `check` in a debug build. -/
def mark (b : Build) (q : FmBlock) (f : ℕ) (c : Caller) : FmBlock :=
  if b.dbg then (tag q f c).store (check f) ST_CHECK_PATTERN else q

theorem tag_ctl (q : FmBlock) (f : ℕ) (c : Caller) : SameArena q (tag q f c) ∧ (tag q f c).no = q.no :=
  ⟨⟨rfl, rfl, rfl, rfl⟩, rfl⟩

theorem tag_mem {f x : ℕ} (c : Caller) (h : x < f + 24 ∨ f + 56 ≤ x) : (tag q f c).mem x = q.mem x := by
  unfold tag
  rw [store_mem, store_mem, store_mem, if_neg (by omega), if_neg (by omega), if_neg (by omega)]

theorem mark_ctl (q : FmBlock) (f : ℕ) (c : Caller) :
    SameArena q (mark b q f c) ∧ (mark b q f c).no = q.no := by
  unfold mark
  split_ifs
  · exact ⟨⟨rfl, rfl, rfl, rfl⟩, rfl⟩
  · exact ⟨SameArena.refl q, rfl⟩

theorem mark_mem {f x : ℕ} (c : Caller) (h : x < f + 24 ∨ f + sizeof_frag b ≤ x) :
    (mark b q f c).mem x = q.mem x := by
  unfold mark
  split_ifs with hb
  · have := (sizeof_frag_bounds b).2.1 hb
    rw [store_mem, check, if_neg (by omega), tag_mem c (by omega)]
  · rfl

/-! ### Splitting -/

/-- `fm_split_frag` splits when the residue is big enough. -/
def Splits (b : Build) (size new : ℕ) : Prop :=
  size - new > FRAG_OVERHEAD b + F_MALLOC_OPTIMIZE ∨ size - new ≥ FRAG_OVERHEAD b + new

instance (size new : ℕ) : Decidable (Splits b size new) := inferInstanceAs (Decidable (_ ∨ _))

/-- The block after the writes of `fm_split_frag`, the residue not yet on its list. -/
def carved (b : Build) (q : FmBlock) (f size new : ℕ) (c : Caller) : FmBlock :=
  let n := f + (sizeof_frag b + new)
  let q := (q.store f new).store n (size - new - FRAG_OVERHEAD b)
  let q := if b.counts then { q with real_used := wrap (q.real_used + FRAG_OVERHEAD b) } else q
  mark b q n ⟨c.file, b.text, c.line⟩

theorem fm_split_frag_eq (f new : ℕ) (c : Caller) : fm_split_frag b q f new c = if Splits b (q.mem f) new then
      fm_insert_free b (carved b q f (q.mem f) new c) (f + (sizeof_frag b + new))
    else some q := by
  unfold fm_split_frag Splits carved mark FRAG_NEXT
  dsimp only
  rw [store_mem, if_pos rfl, add_assoc]
  rfl

theorem carved_ctl (f size new : ℕ) (c : Caller) : SameArena q (carved b q f size new c) ∧
    (carved b q f size new c).no = q.no := by
  unfold carved
  obtain ⟨h1, h2⟩ := mark_ctl (b := b) (if b.counts = true then
      { (q.store f new).store (f + (sizeof_frag b + new)) (size - new - FRAG_OVERHEAD b) with
        real_used := wrap (((q.store f new).store (f + (sizeof_frag b + new))
          (size - new - FRAG_OVERHEAD b)).real_used + FRAG_OVERHEAD b) }
    else (q.store f new).store (f + (sizeof_frag b + new)) (size - new - FRAG_OVERHEAD b))
    (f + (sizeof_frag b + new)) ⟨c.file, b.text, c.line⟩
  refine ⟨SameArena.trans ?_ h1, h2.trans ?_⟩
  · split_ifs <;> exact ⟨rfl, rfl, rfl, rfl⟩
  · split_ifs <;> rfl

theorem carved_mem (f size new : ℕ) (c : Caller) {x : ℕ}
    (h : x < f + (sizeof_frag b + new) + 24 ∨ f + (sizeof_frag b + new) + sizeof_frag b ≤ x) :
    (carved b q f size new c).mem x = if x = f + (sizeof_frag b + new) then size - new - FRAG_OVERHEAD b
      else if x = f then new else q.mem x := by
  unfold carved
  rw [mark_mem _ h, ← store_mem, ← store_mem]
  split_ifs <;> rfl

/-! ### Moves

What a call does, it does in moves: `fm_remove_free`, `fm_insert_free`, the writes of `fm_split_frag`,
a join, and writes that no counter sees. -/

/-- The block lies where it lay, and its counters are what they were. -/
structure SameCounts (q q' : FmBlock) : Prop where
  used : q'.used = q.used
  real_used : q'.real_used = q.real_used
  size : q'.size = q.size

inductive Move (b : Build) : FmBlock × List Frag → FmBlock × List Frag → Prop
  | remove {q : FmBlock} {A B : List Frag} {L : ℕ → List ℕ} {f : Frag}
      (hC : Core b q (A ++ f :: B) L) (hf : f.free = true) :
      Move b (q, A ++ f :: B) (fm_remove_free b q f.addr, A ++ { f with free := false } :: B)
  | insert {q q' : FmBlock} {A B : List Frag} {L : ℕ → List ℕ} {f : Frag}
      (hC : Core b q (A ++ f :: B) L) (hf : f.free = false)
      (h : fm_insert_free b q f.addr = some q') :
      Move b (q, A ++ f :: B) (q', A ++ { f with free := true } :: B)
  | carve {q : FmBlock} {A B : List Frag} {L : ℕ → List ℕ} {f : Frag} {new : ℕ} (c : Caller)
      (hC : Core b q (A ++ f :: B) L) (hf : f.free = false) (hs : Splits b f.size new) :
      Move b (q, A ++ f :: B) (carved b q f.addr f.size new c, A ++ ⟨f.addr, new, false⟩ ::
        ⟨f.addr + (sizeof_frag b + new), f.size - new - FRAG_OVERHEAD b, false⟩ :: B)
  | join {q : FmBlock} {A B : List Frag} {L : ℕ → List ℕ} {f g f' : Frag}
      (hC : Core b q (A ++ f :: g :: B) L) (hf : f.free = false) (hg : g.free = true)
      (hf' : f'.free = false) (hs : f'.size = f.size + (g.size + FRAG_OVERHEAD b)) :
      Move b (q, A ++ f :: g :: B) (joinFrag b q f.addr g.addr, A ++ f' :: B)
  | touch {q q' : FmBlock} {frs : List Frag} (h : SameCounts q q') : Move b (q, frs) (q', frs)

abbrev Moves (b : Build) : FmBlock × List Frag → FmBlock × List Frag → Prop :=
  Relation.ReflTransGen (Move b)

/-- What `fm_split_frag` leaves of `f`: `f'` in its place, and at most one free residue. -/
structure SplitPost (b : Build) (q q' : FmBlock) (f f' : Frag) (T G : List Frag) (new : ℕ) : Prop where
  addr : f'.addr = f.addr
  live : f'.free = false
  le : new ≤ f'.size
  le_old : f'.size ≤ f.size
  rest : ∀ g ∈ T, g.free = true
  frozen : Frozen b q q' G
  data : KeepsData b q q' f'
  arena : SameArena q q'

/-- **`fm_split_frag`** cuts a fragment that is on no list. -/
theorem split_spec {new : ℕ} (c : Caller) (hC : Core b q (A ++ f :: B) L) (hf : f.free = false)
    (hd : 8 ∣ new) (hle : new ≤ f.size) : ∃ q' f' T L', fm_split_frag b q f.addr new c = some q' ∧
      Core b q' (A ++ f' :: (T ++ B)) L' ∧ SplitPost b q q' f f' T (A ++ B) new ∧
      Moves b (q, A ++ f :: B) (q', A ++ f' :: (T ++ B)) := by
  have hfm : f ∈ A ++ f :: B := mem_middle.2 (.inl rfl)
  have hsize := hC.head f hfm
  rw [fm_split_frag_eq, hsize]
  by_cases hs : Splits b f.size new
  · have hov : new + sizeof_frag b ≤ f.size := by
      unfold Splits FRAG_OVERHEAD at hs
      omega
    obtain ⟨rest, hrest⟩ : ∃ r, r = f.size - new - FRAG_OVERHEAD b := ⟨_, rfl⟩
    have hov' : new + (sizeof_frag b + rest) = f.size := by
      unfold FRAG_OVERHEAD at hrest
      omega
    obtain ⟨ha, hno⟩ := carved_ctl (b := b) (q := q) f.addr f.size new c
    have hmem := @carved_mem b q f.addr f.size new c
    rw [← hrest] at hmem
    have h24 := (sizeof_frag_bounds b).1
    obtain ⟨t1, t2, -⟩ := hC.toBase.cut
    have hspan : span b f = sizeof_frag b + f.size := rfl
    have hnew : ∀ g ∈ [(⟨f.addr, new, false⟩ : Frag), ⟨f.addr + (sizeof_frag b + new), rest, false⟩],
        g.free = false ∧ 8 ∣ g.size ∧ (carved b q f.addr f.size new c).mem g.addr = g.size := fun g hg => by
      rcases mem_pair.1 hg with rfl | rfl
      · refine ⟨rfl, hd, ?_⟩
        dsimp only
        rw [hmem (by omega), if_neg (by omega), if_pos rfl]
      · refine ⟨rfl, ?_, ?_⟩
        · have h1 := hC.dvd f hfm
          have h2 := dvd_sizeof_frag b
          dsimp only
          omega
        · dsimp only
          rw [hmem (by omega), if_pos rfl]
    have htiled : Frags b f.addr [⟨f.addr, new, false⟩, ⟨f.addr + (sizeof_frag b + new), rest, false⟩]
        (f.addr + span b f) := by
      refine ⟨rfl, rfl, ?_⟩
      show f.addr + (sizeof_frag b + new) + (sizeof_frag b + rest) = f.addr + (sizeof_frag b + f.size)
      omega
    obtain ⟨hC1, hfr1⟩ := Core.refill (F := [f]) _ hC
      (fun g hg => mem_singleton.1 hg ▸ hf) t1 t2 htiled hnew
      (fun a h => by rw [hmem (by omega), if_neg (by omega), if_neg (by omega)]) ha hno
    have hC2 : Core b (carved b q f.addr f.size new c)
        ((A ++ [⟨f.addr, new, false⟩]) ++ ⟨f.addr + (sizeof_frag b + new), rest, false⟩ :: B) L := by
      rwa [append_assoc]
    obtain ⟨q', L', hq', hC', ha', hfr'⟩ := insert_spec hC2 rfl
    have hcarve : Move b (q, A ++ f :: B) (carved b q f.addr f.size new c,
        (A ++ [⟨f.addr, new, false⟩]) ++ ⟨f.addr + (sizeof_frag b + new), rest, false⟩ :: B) := by
      rw [append_assoc, singleton_append, hrest]
      exact Move.carve c hC hf hs
    have hmoves := (Relation.ReflTransGen.single hcarve).tail (Move.insert hC2 rfl hq')
    rw [append_assoc] at hC' hmoves
    refine ⟨q', ⟨f.addr, new, false⟩, [⟨f.addr + (sizeof_frag b + new), rest, true⟩], L',
      by rw [if_pos hs, hq'], hC', ⟨rfl, rfl, le_rfl, by omega, fun g hg => ?_, ?_, fun j hj hj' => ?_,
      ha.trans ha'⟩, hmoves⟩
    · rw [mem_singleton.1 hg]
    · refine hfr1.trans (hfr'.mono fun g hg => ?_)
      rw [append_assoc]
      exact mem_middle.2 (.inr hg)
    · have hself : (⟨f.addr, new, false⟩ : Frag) ∈ A ++ [⟨f.addr, new, false⟩] ++ B := by
        rw [append_assoc]
        exact mem_middle.2 (.inl rfl)
      unfold span at hj'
      rw [hfr' _ hself rfl j hj']
      dsimp only at hj' ⊢
      rw [hmem (by omega), if_neg (by omega), if_neg (by omega)]
  · exact ⟨q, f, [], L, if_neg hs, hC, ⟨rfl, hf, hle, le_rfl, fun g hg => absurd hg not_mem_nil,
      Frozen.refl _, fun _ _ _ => rfl, SameArena.refl q⟩, .refl⟩

/-! ### Joining -/

/-- What joining leaves: `f'` in the place of `f` and of free fragments behind it. -/
structure JoinPost (b : Build) (q q' : FmBlock) (f f' : Frag) (G : List Frag) : Prop where
  addr : f'.addr = f.addr
  live : f'.free = false
  le : f.size ≤ f'.size
  frozen : Frozen b q q' G
  data : KeepsData b q q' f
  arena : SameArena q q'

theorem JoinPost.refl (hf : f.free = false) (G : List Frag) : JoinPost b q q f f G :=
  ⟨rfl, hf, le_rfl, Frozen.refl G, fun _ _ _ => rfl, SameArena.refl q⟩

theorem JoinPost.trans {f' f'' : Frag} {G G' : List Frag} (h : JoinPost b q q' f f' G)
    (h' : JoinPost b q' q'' f' f'' G') (hs : ∀ g ∈ G', g ∈ G) : JoinPost b q q'' f f'' G' := by
  refine ⟨h'.addr.trans h.addr, h'.live, h.le.trans h'.le, (h.frozen.mono hs).trans h'.frozen,
    fun j hj hj' => ?_, h.arena.trans h'.arena⟩
  have := h'.data j hj (hj'.trans_le (Nat.add_le_add_left h.le _))
  rw [h.addr] at this
  rw [this, h.data j hj hj']

theorem Base.next_addr (hB : Base b q (A ++ f :: g :: B)) : g.addr = f.addr + span b f :=
  hB.cut.2.2.1

/-- **`joinFrag`** adds the free fragment behind one that is on no list. -/
theorem join_spec (hC : Core b q (A ++ f :: g :: B) L) (hf : f.free = false) (hg : g.free = true) :
    ∃ f' L', Core b (joinFrag b q f.addr g.addr) (A ++ f' :: B) L' ∧
      f'.size = f.size + (g.size + FRAG_OVERHEAD b) ∧
      JoinPost b q (joinFrag b q f.addr g.addr) f f' (A ++ B) := by
  have hC0 : Core b q ((A ++ [f]) ++ g :: B) L := by rwa [append_assoc]
  obtain ⟨L1, hC1, -, ha1, hfr1⟩ := remove_spec hC0 hg
  rw [append_assoc] at hC1
  obtain ⟨q1, hq1⟩ : ∃ q1, q1 = fm_remove_free b q g.addr := ⟨_, rfl⟩
  rw [← hq1] at hC1 ha1 hfr1
  have hs : q1.mem f.addr + (q1.mem g.addr + FRAG_OVERHEAD b) = f.size + (g.size + FRAG_OVERHEAD b) := by
    rw [hC1.head f (mem_middle.2 (.inl rfl)),
      hC1.head { g with free := false } (mem_append_right _ (mem_cons_of_mem _ mem_cons_self))]
  obtain ⟨tot, htot⟩ : ∃ t, t = f.size + (g.size + FRAG_OVERHEAD b) := ⟨_, rfl⟩
  obtain ⟨q2, hq2, hmem2, hno2, ha2⟩ : ∃ q2, joinFrag b q f.addr g.addr = q2 ∧
      q2.mem = (q1.store f.addr tot).mem ∧ q2.no = q1.no ∧ SameArena q1 q2 := by
    refine ⟨_, rfl, ?_⟩
    unfold joinFrag
    rw [← hq1, htot, ← hs]
    split_ifs <;> exact ⟨rfl, rfl, rfl, rfl, rfl, rfl⟩
  rw [hq2]
  have hnext := hC.toBase.next_addr
  have h24 := (sizeof_frag_bounds b).1
  have hspan : span b f + span b g = sizeof_frag b + tot := by
    unfold span FRAG_OVERHEAD at *
    omega
  obtain ⟨t1, -, -⟩ := hC.toBase.cut
  rw [← ha1.first_frag] at t1
  have hoff : ∀ x ∈ [f, { g with free := false }], x.free = false := fun x hx => by
    rcases mem_pair.1 hx with rfl | rfl
    · exact hf
    · rfl
  have htiled : Frags b f.addr [⟨f.addr, tot, false⟩] (f.addr + span b f + span b g) := by
    refine ⟨rfl, ?_⟩
    show f.addr + (sizeof_frag b + tot) = f.addr + span b f + span b g
    omega
  have hnew : ∀ x ∈ [(⟨f.addr, tot, false⟩ : Frag)],
      x.free = false ∧ 8 ∣ x.size ∧ q2.mem x.addr = x.size := fun x hx => by
    rw [mem_singleton.1 hx]
    refine ⟨rfl, ?_, by rw [hmem2, store_mem, if_pos rfl]⟩
    rw [htot]
    exact Nat.dvd_add (hC.dvd f (mem_middle.2 (.inl rfl))) (Nat.dvd_add
      (hC0.dvd g (mem_middle.2 (.inl rfl))) (dvd_sizeof_frag b))
  have hsame : ∀ a, a ≠ f.addr → q2.mem a = q1.mem a := fun a h => by
    rw [hmem2, store_mem, if_neg h]
  obtain ⟨hC2, hfr2⟩ := Core.refill (F := [f, { g with free := false }]) _ hC1 hoff t1
    ⟨rfl, hnext, rfl⟩ htiled hnew
    (fun a h => hsame a (by have := span_pos (b := b) f; omega)) ha2 hno2
  refine ⟨_, L1, hC2, htot, rfl, rfl, by dsimp only; omega, ?_, fun j hj hj' => ?_, ha1.trans ha2⟩
  · refine (hfr1.mono fun x hx => ?_).trans hfr2
    rw [append_assoc]
    exact mem_middle.2 (.inr hx)
  · rw [hsame _ (by omega)]
    refine hfr1 f ?_ hf j hj'
    rw [append_assoc]
    exact mem_middle.2 (.inl rfl)

end OpenSips.FMalloc
