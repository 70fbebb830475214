import OpenSips.QMalloc.Frags

/-!
# OpenSips.QMalloc.Links — `qm_detach_free` and `qm_insert_free`

Both write link words of three nodes.  Detaching takes one fragment out of its bucket's ring;
inserting puts it before the first fragment of the bucket that is not smaller.
-/

namespace OpenSips.QMalloc

open Lib List Option Function

variable {b : Build} {q q' : QmBlock} {frs : List Frag} {L : ℕ → List ℕ}

/-- Nothing of the control block changed but the counters of the buckets. -/
structure SameCtl (q q' : QmBlock) : Prop where
  qm : q'.qm = q.qm
  size : q'.size = q.size
  used : q'.used = q.used
  real_used : q'.real_used = q.real_used
  max_real_used : q'.max_real_used = q.max_real_used
  first_frag : q'.first_frag = q.first_frag
  last_frag_end : q'.last_frag_end = q.last_frag_end

theorem SameCtl.refl (q : QmBlock) : SameCtl q q := ⟨rfl, rfl, rfl, rfl, rfl, rfl, rfl⟩

theorem SameCtl.trans {q'' : QmBlock} (h : SameCtl q q') (h' : SameCtl q' q'') : SameCtl q q'' :=
  ⟨h'.1.trans h.1, h'.2.trans h.2, h'.3.trans h.3, h'.4.trans h.4, h'.5.trans h.5, h'.6.trans h.6,
    h'.7.trans h.7⟩

/-! ### One write -/

variable {u : Bool}

theorem node_congr (hq : q'.qm = q.qm) {x s : ℕ} : Node b q' frs x s u ↔ Node b q frs x s u := by
  have e : ∀ h, free_hash b q' h = free_hash b q h := fun h => by rw [free_hash, free_hash, hq]
  constructor
  · rintro (hh | hf)
    · rw [e]; exact .head hh
    · exact .frag hf
  · rintro (hh | hf)
    · rw [← e]; exact .head hh
    · exact .frag hf

@[simp] theorem node_store {a v x s : ℕ} : Node b (q.store a v) frs x s u ↔ Node b q frs x s u :=
  node_congr (show (q.store a v).qm = q.qm from rfl)

/-- The link offsets of a node of size `s`. -/
def LinkOff (b : Build) (s i : ℕ) : Prop := i = 8 ∨ i = sizeof_frag b + s + end_prev b

theorem LinkOff.lt {s i : ℕ} (h : LinkOff b s i) : i < span b s := by
  obtain ⟨h1, h2, h3, h4, -⟩ := offsets b
  unfold span
  rcases h with rfl | rfl <;> omega

theorem Base.store_read (hB : Base b q frs) {x y s t i j v : ℕ} {u w : Bool}
    (hx : Node b q frs x s u) (hy : Node b q frs y t w) (hi : i < span b s) (hj : j < span b t) :
    (q.store (x + i) v).mem (y + j) = if y = x ∧ j = i then v else q.mem (y + j) := by
  rw [QmBlock.store]
  split_ifs with h
  · obtain ⟨rfl, rfl⟩ := h
    simp
  · refine update_of_ne (hB.ne hy hx hj hi fun hyx hji => h ⟨hyx, hji⟩) _ _

/-- What a write to a link word leaves alone is all that `Base` talks about. -/
theorem Base.frame (hB : Base b q frs) (hq : q'.qm = q.qm) (hf : q'.first_frag = q.first_frag)
    (hl : q'.last_frag_end = q.last_frag_end)
    (hm : ∀ x s u j, Node b q frs x s u → j < span b s → ¬ LinkOff b s j →
      q'.mem (x + j) = q.mem (x + j)) : Base b q' frs := by
  obtain ⟨o1, o2, o3, o4, o5, o6⟩ := offsets b
  have e : ∀ h, free_hash b q' h = free_hash b q h := fun h => by rw [free_hash, free_hash, hq]
  have h0 : ∀ s, ¬ LinkOff b s 0 := fun s h => by
    rcases h with h | h <;> omega
  refine ⟨by rw [hf, hl]; exact hB.tiled, by rw [e, hf]; exact hB.ctl, by rw [hl]; exact hB.top,
    fun f hf => ?_, fun h hh => ?_⟩
  · obtain ⟨i1, i2, i3, i4⟩ := hB.intact f hf
    refine ⟨?_, ?_, i3, fun hd => ?_⟩
    · have := hm _ _ _ 0 (.frag hf) (by unfold span; omega) (h0 _)
      rw [add_zero] at this
      rw [this, i1]
    · rw [hm _ _ _ _ (.frag hf) (by unfold span; omega) ?_, i2]
      rintro (h | h) <;> omega
    · obtain ⟨c1, c2, c3⟩ := i4 hd
      obtain ⟨o6, o7⟩ := o6 hd
      refine ⟨?_, ?_, ?_⟩
      · rw [hm _ _ _ _ (.frag hf) (by unfold span; omega) ?_, c1]
        rintro (h | h) <;> omega
      · rw [hm _ _ _ _ (.frag hf) (by unfold span; omega) ?_, c2]
        rintro (h | h) <;> omega
      · rw [hm _ _ _ _ (.frag hf) (by unfold span; omega) ?_, c3]
        rintro (h | h) <;> omega
  · have := hm _ _ _ 0 (.head hh) (by unfold span; omega) (h0 _)
    rw [add_zero] at this
    rw [e, this, hB.zero h hh]

theorem Base.store_link (hB : Base b q frs) {x s i : ℕ} (hx : Node b q frs x s u)
    (hi : LinkOff b s i) (v : ℕ) : Base b (q.store (x + i) v) frs := by
  refine hB.frame rfl rfl rfl fun y t w j hy hj hl => ?_
  rw [hB.store_read hx hy hi.lt hj, if_neg]
  rintro ⟨rfl, rfl⟩
  rcases hB.apart hx hy with ⟨-, rfl, -⟩ | h | h
  · exact hl hi
  · have := span_pos (b := b) s
    omega
  · have := span_pos (b := b) t
    omega

/-- The address of `FRAG_END(f)->prev_free`. -/
theorem Base.end_addr (hB : Base b q frs) {x s : ℕ} (hx : Node b q frs x s u) :
    FRAG_END b q x + end_prev b = x + (sizeof_frag b + s + end_prev b) := by
  rw [FRAG_END, hB.node_size hx]
  omega

/-! ### Fragments and flags -/

variable {A B : List Frag}

theorem mem_middle {f g : Frag} : g ∈ A ++ f :: B ↔ g = f ∨ g ∈ A ++ B := by
  simp only [mem_append, mem_cons]
  tauto

variable {f : Frag}

/-- `Base` does not look at flags. -/
theorem Base.flag (hB : Base b q (A ++ f :: B)) (u : Bool) :
    Base b q (A ++ { f with free := u } :: B) := by
  refine ⟨tiled_flag u hB.tiled, hB.ctl, hB.top, fun g hg => ?_, hB.zero⟩
  rcases mem_middle.1 hg with rfl | hg
  · obtain ⟨i1, i2, i3, i4⟩ := hB.intact f (by simp)
    exact ⟨i1, i2, i3, i4⟩
  · exact hB.intact g (mem_middle.2 (.inr hg))

theorem Base.other_addr (hB : Base b q (A ++ f :: B)) {g : Frag} (hg : g ∈ A ++ B) : g.addr ≠ f.addr := by
  have hn := tiled_nodup hB.tiled
  rw [map_append, map_cons, nodup_middle, nodup_cons] at hn
  rw [← map_append] at hn
  intro e
  exact hn.1 (e ▸ List.mem_map_of_mem hg)

section Lists

variable (hC : Core b q frs L)
include hC

theorem Core.node {h x : ℕ} (hh : h < QM_HASH_SIZE b) (hx : x ∈ L h) :
    Node b q frs x (q.mem x) true := by
  obtain ⟨f, hf, rfl, hfree, -⟩ := (hC.mem_iff h hh x).1 hx
  rw [(hC.intact f hf).head, ← hfree]
  exact .frag hf

theorem Core.head_notMem {h k : ℕ} (hh : h < QM_HASH_SIZE b) (hk : k < QM_HASH_SIZE b) :
    free_hash b q k ∉ L h := by
  intro hx
  obtain ⟨f, hf, e, -⟩ := (hC.mem_iff h hh _).1 hx
  have h1 := hC.toBase.head_le hk hf
  have h2 := span_pos (b := b) 0
  omega

theorem Core.disjoint {h k x : ℕ} (hh : h < QM_HASH_SIZE b) (hk : k < QM_HASH_SIZE b)
    (hxh : x ∈ L h) (hxk : x ∈ L k) : h = k := by
  obtain ⟨f, hf, rfl, -, e1⟩ := (hC.mem_iff h hh x).1 hxh
  obtain ⟨g, hg, e, -, e2⟩ := (hC.mem_iff k hk _).1 hxk
  rw [← e1, ← e2, tiled_inj hC.tiled hg hf e]

variable {h : ℕ}

theorem Core.length_lt (hh : h < QM_HASH_SIZE b) : (L h).length < steps q := by
  have hsub : L h ⊆ frs.map Frag.addr := by
    intro x hx
    obtain ⟨f, hf, rfl, -⟩ := (hC.mem_iff h hh x).1 hx
    exact List.mem_map_of_mem hf
  have h1 := ((hC.nodup h hh).subperm hsub).length_le
  rw [length_map] at h1
  have h2 := tiled_length hC.tiled
  have h3 := hC.ctl
  obtain ⟨o1, o2, -⟩ := offsets b
  have h4 : sizeof_frag_end b ≤ q.first_frag := by
    have : sizeof_frag_end b ≤ 48 := by rcases consts b with h | h <;> omega
    unfold free_hash at h3
    omega
  unfold steps
  omega

theorem Core.last_node (hh : h < QM_HASH_SIZE b) {xs : List ℕ} (hxs : xs ⊆ L h) :
    Node b q frs (xs.getLastD (free_hash b q h)) (q.mem (xs.getLastD (free_hash b q h))) true := by
  have hm : xs.getLastD (free_hash b q h) ∈ free_hash b q h :: xs := getLastD_mem_cons
  rcases mem_cons.1 hm with e | hx
  · rw [e, hC.zero h hh]; exact .head hh
  · exact hC.node hh (hxs hx)

theorem Core.head_node (hh : h < QM_HASH_SIZE b) {ys : List ℕ} (hys : ys ⊆ L h) :
    Node b q frs (ys.headD (free_hash b q h)) (q.mem (ys.headD (free_hash b q h))) true := by
  cases ys with
  | nil => rw [headD_nil, hC.zero h hh]; exact .head hh
  | cons y ys => exact hC.node hh (hys (mem_cons_self ..))

theorem Core.keep_ring (hq : q'.qm = q.qm) {k : ℕ} (hk : k < QM_HASH_SIZE b)
    (hm : ∀ y s j, Node b q frs y s true → j < span b s → (y ∈ L k ∨ y = free_hash b q k) →
      q'.mem (y + j) = q.mem (y + j)) :
    Ring (nxt_free q') (prev_free b q') (free_hash b q' k) (L k) := by
  have e : free_hash b q' k = free_hash b q k := by rw [free_hash, free_hash, hq]
  obtain ⟨o1, o2, o3, o4, -⟩ := offsets b
  have keep : ∀ y, y ∈ L k ∨ y = free_hash b q k → ∃ s, Node b q frs y s true ∧
      ∀ j, j < span b s → q'.mem (y + j) = q.mem (y + j) := by
    rintro y (hy | rfl)
    · exact ⟨_, hC.node hk hy, fun j hj => hm _ _ j (hC.node hk hy) hj (.inl hy)⟩
    · exact ⟨0, .head hk, fun j hj => hm _ _ j (.head hk) hj (.inr rfl)⟩
  rw [e]
  refine (hC.ring k hk).congr (fun y hy => ?_) fun y hy => ?_
  · obtain ⟨s, -, hs⟩ := keep y ((mem_cons.1 hy).symm)
    exact hs 8 (by unfold span; omega)
  · obtain ⟨s, hn, hs⟩ := keep y hy
    have h0 := hs 0 (by unfold span; omega)
    rw [add_zero, hC.node_size hn] at h0
    rw [prev_node hC.toBase hn, prev_free, FRAG_END, h0, ← hs _ (by unfold span; omega)]
    congr 1
    omega

end Lists

/-- **Changing one bucket.**  Fragment `f` of bucket `h` goes on or off its list, which is `l` now:
the other buckets are untouched. -/
theorem Core.relist (hC : Core b q (A ++ f :: B) L) {h : ℕ}
    (hh : GET_HASH b f.size = h) (u : Bool) {l : List ℕ} (hB : Base b q' (A ++ f :: B))
    (hq : q'.qm = q.qm)
    (hm : ∀ y s j, Node b q (A ++ f :: B) y s true → j < span b s → y ∉ L h →
      y ≠ free_hash b q h → y ≠ f.addr → q'.mem (y + j) = q.mem (y + j))
    (hring : Ring (nxt_free q') (prev_free b q') (free_hash b q h) l)
    (hl : ∀ x, x ∈ l ↔ (x = f.addr ∧ u = true) ∨ (x ≠ f.addr ∧ x ∈ L h)) (hnd : l.Nodup)
    (hs : l.Pairwise fun x y => q'.mem x ≤ q'.mem y) (hno : q'.no h = l.length)
    (hno' : ∀ k, k ≠ h → q'.no k = q.no k) :
    Core b q' (A ++ { f with free := u } :: B) (Function.update L h l) := by
  have hfm : f ∈ A ++ f :: B := by simp
  have hH : h < QM_HASH_SIZE b := by
    have := hC.toBase.size_lt hfm
    rw [← hh]
    exact GET_HASH_lt b (by omega)
  have hsz : ∀ {k x}, k < QM_HASH_SIZE b → x ∈ L k → q'.mem x = q.mem x := fun hk hx =>
    hB.node_size ((node_congr hq).2 (hC.node hk hx))
  have hfk : ∀ {k}, k < QM_HASH_SIZE b → k ≠ h → f.addr ∉ L k := by
    intro k hk hkh hx
    obtain ⟨g, hg, e, -, hgk⟩ := (hC.mem_iff k hk _).1 hx
    rw [tiled_inj hC.tiled hg hfm e, hh] at hgk
    exact hkh hgk.symm
  refine ⟨hB.flag u, ⟨fun k hk => ?_, fun k hk x => ?_, fun k hk => ?_, fun k hk => ?_,
    fun k hk => ?_⟩⟩ <;> by_cases hkh : k = h
  · rw [hkh, update_self, show free_hash b q' h = free_hash b q h by
      rw [free_hash, free_hash, hq]]
    exact hring
  · rw [update_of_ne hkh]
    refine hC.keep_ring hq hk fun y s j hy hj hyk => hm y s j hy hj ?_ ?_ ?_
    · intro hyh
      rcases hyk with hyk | rfl
      · exact hkh (hC.disjoint hk hH hyk hyh)
      · exact hC.head_notMem hH hk hyh
    · rintro rfl
      rcases hyk with hyk | e
      · exact hC.head_notMem hk hH hyk
      · exact hkh (head_inj e.symm)
    · rintro rfl
      rcases hyk with hyk | e
      · exact hfk hk hkh hyk
      · have h1 := hC.toBase.head_le hk hfm
        have h2 := span_pos (b := b) 0
        omega
  · rw [hkh, update_self, hl, hC.mem_iff h hH]
    constructor
    · rintro (⟨rfl, hu⟩ | ⟨hne, g, hg, rfl, h2⟩)
      · exact ⟨{ f with free := u }, by simp, rfl, hu, hh⟩
      · rcases mem_middle.1 hg with rfl | hg
        · exact absurd rfl hne
        · exact ⟨g, mem_middle.2 (.inr hg), rfl, h2⟩
    · rintro ⟨g, hg, rfl, h2⟩
      rcases mem_middle.1 hg with rfl | hg
      · exact .inl ⟨rfl, h2.1⟩
      · exact .inr ⟨hC.toBase.other_addr hg, g, mem_middle.2 (.inr hg), rfl, h2⟩
  · rw [update_of_ne hkh, hC.mem_iff k hk]
    constructor
    · rintro ⟨g, hg, h1, h2, h3⟩
      rcases mem_middle.1 hg with rfl | hg
      · exact absurd (h3.symm.trans hh) hkh
      · exact ⟨g, mem_middle.2 (.inr hg), h1, h2, h3⟩
    · rintro ⟨g, hg, h1, h2, h3⟩
      rcases mem_middle.1 hg with rfl | hg
      · exact absurd (h3.symm.trans hh) hkh
      · exact ⟨g, mem_middle.2 (.inr hg), h1, h2, h3⟩
  · rw [hkh, update_self]; exact hnd
  · rw [update_of_ne hkh]; exact hC.nodup k hk
  · rw [hkh, update_self]; exact hs
  · rw [update_of_ne hkh]
    exact (hC.sorted k hk).imp_of_mem fun {x y} hx hy hxy => by rwa [hsz hk hx, hsz hk hy]
  · rw [hkh, update_self]; exact hno
  · rw [update_of_ne hkh, hno' k hkh]; exact hC.no k hk

theorem headD_notMem {ys : List ℕ} {y e : ℕ} (he : y ≠ e) (hy : y ∉ ys) : y ≠ ys.headD e := by
  cases ys with
  | nil => exact he
  | cons z zs => exact fun h => hy (by rw [h]; exact mem_cons_self ..)

theorem getLastD_notMem {xs : List ℕ} {y a : ℕ} (ha : y ≠ a) (hy : y ∉ xs) : y ≠ xs.getLastD a := by
  intro h
  have hm : xs.getLastD a ∈ a :: xs := getLastD_mem_cons
  rcases mem_cons.1 hm with e | hx
  · exact ha (h.trans e)
  · exact hy (h ▸ hx)

/-! ### Detaching -/

/-- The writes of `qm_detach_free` seen from the nodes: `next` of `p` and `prev` of `n`. -/
theorem detach_read (hB : Base b q frs) {x p n sp sn : ℕ} {u v : Bool} (hp : Node b q frs p sp u)
    (hn : Node b q frs n sn v) (h1 : prev_free b q x = p) (h2 : nxt_free q x = n) :
    (qm_detach_free b q x).qm = q.qm ∧
    (∀ y t j w, Node b q frs y t w → j < span b t → (qm_detach_free b q x).mem (y + j) =
      if y = n ∧ j = sizeof_frag b + t + end_prev b then p
      else if y = p ∧ j = 8 then n else q.mem (y + j)) := by
  have l8 : LinkOff b sp 8 := .inl rfl
  have lp : LinkOff b sn (sizeof_frag b + sn + end_prev b) := .inr rfl
  have hB1 := hB.store_link hp l8 n
  have hn1 : Node b (q.store (p + 8) n) frs n sn v := node_store.2 hn
  have e : qm_detach_free b q x = (q.store (p + 8) n).store (n + (sizeof_frag b + sn + end_prev b)) p := by
    rw [qm_detach_free, h1, h2]
    rw [hB1.end_addr hn1]
  refine ⟨by rw [e]; rfl, fun y t j w hy hj => ?_⟩
  rw [e, hB1.store_read hn1 (node_store.2 hy) lp.lt hj, hB.store_read hp hy l8.lt hj]
  by_cases hyn : y = n
  · have : t = sn := by
      rw [← hB.node_size hy, ← hB.node_size hn, hyn]
    subst this
    rfl
  · simp only [hyn, false_and, if_false]

/-- **`qm_detach_free` takes the fragment out of its bucket.** -/
theorem detach_spec (hC : Core b q (A ++ f :: B) L) (hf : f.free = true) :
    Core b (decNo (qm_detach_free b q f.addr) (GET_HASH b f.size)) (A ++ { f with free := false } :: B)
      (Function.update L (GET_HASH b f.size) ((L (GET_HASH b f.size)).erase f.addr)) ∧
    SameCtl q (qm_detach_free b q f.addr) ∧
    ∀ a, ¬ LinkWord b q (A ++ f :: B) a → (qm_detach_free b q f.addr).mem a = q.mem a := by
  set h := GET_HASH b f.size with hh
  have hfm : f ∈ A ++ f :: B := by simp
  have hlt : f.size < 2 ^ 64 := by have := hC.toBase.size_lt hfm; omega
  have hH : h < QM_HASH_SIZE b := GET_HASH_lt b hlt
  obtain ⟨xs, ys, hL⟩ := append_of_mem ((hC.mem_iff h hH f.addr).2 ⟨f, hfm, rfl, hf, rfl⟩)
  have hring := hC.ring h hH
  rw [hL] at hring
  have hnd := hC.nodup h hH
  rw [hL] at hnd
  have hheadL := hC.head_notMem hH hH
  rw [hL] at hheadL
  have hxs : xs ⊆ L h := by rw [hL]; exact subset_append_left _ _
  have hys : ys ⊆ L h := by
    rw [hL]
    exact fun z hz => mem_append_right _ (mem_cons_of_mem _ hz)
  -- the neighbours
  obtain ⟨p, hp⟩ : ∃ p, p = xs.getLastD (free_hash b q h) := ⟨_, rfl⟩
  obtain ⟨n, hn⟩ : ∃ n, n = ys.headD (free_hash b q h) := ⟨_, rfl⟩
  have hpn := hC.last_node hH hxs
  have hnn := hC.head_node hH hys
  rw [← hp] at hpn
  rw [← hn] at hnn
  have hprev : prev_free b q f.addr = p := hring.mid.2.trans hp.symm
  have hnext : nxt_free q f.addr = n := by
    have hr2 : Chain (nxt_free q) (prev_free b q) (free_hash b q h) ((xs ++ [f.addr]) ++ ys)
        (free_hash b q h) := by
      rw [append_assoc]
      exact hring
    have := hr2.mid.1
    rwa [getLastD_concat, ← hn] at this
  obtain ⟨hqm, hread⟩ := detach_read hC.toBase hpn hnn hprev hnext
  set q1 := qm_detach_free b q f.addr with hq1
  have ctl : SameCtl q q1 := ⟨rfl, rfl, rfl, rfl, rfl, rfl, rfl⟩
  have hB1 : Base b q1 (A ++ f :: B) := by
    refine hC.toBase.frame rfl rfl rfl fun x s u j hx hj hl => ?_
    rw [hread x s j u hx hj, if_neg fun e => hl (.inr e.2), if_neg fun e => hl (.inl e.2)]
  have hn1 : ∀ {x s u}, Node b q1 (A ++ f :: B) x s u ↔ Node b q (A ++ f :: B) x s u :=
    node_congr hqm
  obtain ⟨o1, o2, o3, o4, -⟩ := offsets b
  have nxt1 : ∀ {y t w}, Node b q (A ++ f :: B) y t w → nxt_free q1 y = if y = p then n else nxt_free q y := by
    intro y t w hy
    rw [nxt_free, hread y t 8 w hy (by unfold span; omega), if_neg fun e => by omega]
    simp only [and_true, nxt_free]
  have prv1 : ∀ {y t w}, Node b q (A ++ f :: B) y t w →
      prev_free b q1 y = if y = n then p else prev_free b q y := by
    intro y t w hy
    rw [prev_node hB1 (hn1.2 hy), prev_node hC.toBase hy, hread y t _ w hy (by unfold span; omega)]
    simp only [and_true]
    split_ifs with e1 e2
    · rfl
    · omega
    · rfl
  have hringh : Ring (nxt_free q1) (prev_free b q1) (free_hash b q h) (xs ++ ys) := by
    have hnode : ∀ y, y ∈ xs ++ ys ∨ y = free_hash b q h → ∃ t, Node b q (A ++ f :: B) y t true := by
      rintro y (hy | rfl)
      · refine ⟨_, hC.node hH ?_⟩
        rcases mem_append.1 hy with hy | hy
        · exact hxs hy
        · exact hys hy
      · exact ⟨0, .head hH⟩
    refine hring.remove hnd hheadL hheadL ?_ ?_ (fun y hy hne => ?_) fun y hy hne => ?_
    · rw [← hp, ← hn, nxt1 hpn, if_pos rfl]
    · rw [← hp, ← hn, prv1 hnn, if_pos rfl]
    · obtain ⟨t, ht⟩ := hnode y ((mem_cons.1 hy).symm)
      rw [nxt1 ht, hp, if_neg hne]
    · obtain ⟨t, ht⟩ := hnode y hy
      rw [prv1 ht, hn, if_neg hne]
  have hfxy : f.addr ∉ xs ++ ys := (nodup_cons.1 (nodup_middle.1 hnd)).1
  have herase : (L h).erase f.addr = xs ++ ys := by
    rw [hL, erase_append_right _ fun hx => hfxy (mem_append_left _ hx), erase_cons_head]
  have hsub : List.Sublist (xs ++ ys) (L h) := by
    rw [hL]
    exact Sublist.append_left (sublist_cons_self _ _) _
  have hsz : ∀ {x}, x ∈ L h → q1.mem x = q.mem x := fun hx =>
    hB1.node_size (hn1.2 (hC.node hH hx))
  have hB2 : Base b (decNo q1 h) (A ++ f :: B) := hB1.frame rfl rfl rfl fun _ _ _ _ _ _ _ => rfl
  refine ⟨?_, ctl, fun a ha => ?_⟩
  · rw [herase]
    refine hC.relist hh.symm false hB2 rfl (fun y s j hy hj hyL hyh _ => ?_) hringh (fun x => ?_)
      ((hC.nodup h hH).sublist hsub) ?_ ?_ fun k hk => update_of_ne hk _ _
    · have hyn : y ≠ n := fun e => headD_notMem hyh (fun hx => hyL (hys hx)) (e.trans hn)
      have hyp : y ≠ p := fun e => getLastD_notMem hyh (fun hx => hyL (hxs hx)) (e.trans hp)
      exact (hread y s j true hy hj).trans (by rw [if_neg fun e => hyn e.1, if_neg fun e => hyp e.1])
    · rw [hL]
      simp only [mem_append, mem_cons] at hfxy ⊢
      constructor
      · intro hx
        refine .inr ⟨?_, by tauto⟩
        rintro rfl
        exact hfxy hx
      · tauto
    · refine ((hC.sorted h hH).imp_of_mem fun {x y} hx hy hxy => ?_).sublist hsub
      exact (hsz hx).trans_le (hxy.trans (hsz hy).ge)
    · show Function.update q1.no h (q1.no h - 1) h = _
      rw [update_self, show q1.no = q.no from rfl, hC.no h hH, hL]
      simp
  · have hpa : a ≠ p + 8 := fun e => ha ⟨p, _, hpn, .inl e⟩
    have hna : a ≠ n + (sizeof_frag b + q.mem n + end_prev b) := fun e => ha ⟨n, _, hnn, .inr e⟩
    have hB1' := hC.toBase.store_link hpn (.inl rfl) n
    rw [hq1, qm_detach_free, hprev, hnext, hB1'.end_addr (node_store.2 hnn)]
    exact (update_of_ne hna _ _).trans (update_of_ne hpa _ _)

/-! ### Walking a bucket -/

/-- `bucketLoop` finds the first fragment of a chain that is large enough. -/
theorem bucketLoop_spec {head size a : ℕ} {rest : List ℕ} {prv : ℕ → ℕ}
    (hc : Chain (nxt_free q) prv a rest head) (hn : head ∉ rest) {fuel : ℕ}
    (hf : rest.length < fuel) :
    bucketLoop q head size fuel (rest.headD head) = some (rest.find? fun x => decide (size ≤ q.mem x)) := by
  induction rest generalizing a fuel with
  | nil =>
    obtain ⟨fuel, rfl⟩ : ∃ k, fuel = k + 1 := ⟨fuel - 1, by simp at hf; omega⟩
    rw [headD_nil, bucketLoop, if_pos rfl]
    rfl
  | cons x xs ih =>
    obtain ⟨fuel, rfl⟩ : ∃ k, fuel = k + 1 := ⟨fuel - 1, by simp at hf; omega⟩
    obtain ⟨hx, hn'⟩ := not_or.1 (mem_cons.not.1 hn)
    rw [headD_cons, bucketLoop, if_neg (Ne.symm hx), find?_cons]
    by_cases h : size ≤ q.mem x
    · rw [if_pos h, decide_eq_true h]
    · rw [if_neg h, decide_eq_false h]
      have hnx : nxt_free q x = xs.headD head := by
        have hmid : Chain (nxt_free q) prv x ([] ++ xs) head := hc.2.2
        exact hmid.mid.1
      rw [hnx]
      exact ih hc.2.2 hn' (by simpa using hf)

theorem insertLoop_eq (head size fuel f : ℕ) :
    insertLoop q head size fuel f = (bucketLoop q head size fuel f).map fun o => o.getD head := by
  induction fuel generalizing f with
  | zero => rfl
  | succ fuel ih =>
    rw [insertLoop, bucketLoop]
    split_ifs with h1 h2
    · rw [h1]; rfl
    · rfl
    · exact ih _

theorem find_cut (p : ℕ → Bool) (rest : List ℕ) (e : ℕ) : ∃ xs ys, rest = xs ++ ys ∧
    (rest.find? p).getD e = ys.headD e ∧ (∀ x ∈ xs, p x = false) ∧ ∀ y ∈ ys.head?, p y = true := by
  induction rest with
  | nil => exact ⟨[], [], rfl, rfl, by simp, by simp⟩
  | cons x rest ih =>
    cases hx : p x with
    | true => exact ⟨[], x :: rest, rfl, by simp [hx], by simp, by simpa using hx⟩
    | false =>
      obtain ⟨xs, ys, e1, e2, e3, e4⟩ := ih
      refine ⟨x :: xs, ys, by rw [e1]; rfl, by rw [find?_cons, hx]; exact e2, ?_, e4⟩
      intro y hy
      rcases mem_cons.1 hy with rfl | hy
      · exact hx
      · exact e3 y hy

/-! ### Inserting -/

/-- The four writes of `qm_insert_free`, seen from the nodes. -/
theorem insert_read (hB : Base b q frs) {x p n sx sp sn : ℕ} {u v w : Bool}
    (hx : Node b q frs x sx u) (hp : Node b q frs p sp v) (hn : Node b q frs n sn w) :
    ∃ q', q' = (let q := q.store (p + 8) x
        let q := q.store (FRAG_END b q x + end_prev b) p
        let q := q.store (x + 8) n
        q.store (FRAG_END b q n + end_prev b) x) ∧ Base b q' frs ∧
      (∀ y t j z, Node b q frs y t z → j < span b t → q'.mem (y + j) =
        if y = n ∧ j = sizeof_frag b + t + end_prev b then x
        else if y = x ∧ j = 8 then n
        else if y = x ∧ j = sizeof_frag b + t + end_prev b then p
        else if y = p ∧ j = 8 then x else q.mem (y + j)) ∧
      ∀ a, a ≠ p + 8 → a ≠ x + (sizeof_frag b + sx + end_prev b) → a ≠ x + 8 →
        a ≠ n + (sizeof_frag b + sn + end_prev b) → q'.mem a = q.mem a := by
  have l8 : ∀ s, LinkOff b s 8 := fun s => .inl rfl
  have lp : ∀ s, LinkOff b s (sizeof_frag b + s + end_prev b) := fun s => .inr rfl
  have hB1 := hB.store_link hp (l8 _) x
  set q1 := q.store (p + 8) x with hq1
  have nd1 : ∀ {y t z}, Node b q frs y t z → Node b q1 frs y t z := node_store.2
  have hB2 := hB1.store_link (nd1 hx) (lp _) p
  set q2 := q1.store (x + (sizeof_frag b + sx + end_prev b)) p with hq2
  have nd2 : ∀ {y t z}, Node b q frs y t z → Node b q2 frs y t z := fun h => node_store.2 (nd1 h)
  have hB3 := hB2.store_link (nd2 hx) (l8 _) n
  set q3 := q2.store (x + 8) n with hq3
  have nd3 : ∀ {y t z}, Node b q frs y t z → Node b q3 frs y t z := fun h => node_store.2 (nd2 h)
  have hB4 := hB3.store_link (nd3 hn) (lp _) x
  refine ⟨q3.store (n + (sizeof_frag b + sn + end_prev b)) x, ?_, hB4, ?_, ?_⟩
  · dsimp only
    rw [hB1.end_addr (nd1 hx), ← hq2, ← hq3, hB3.end_addr (nd3 hn)]
  · intro y t j z hy hj
    rw [hB3.store_read (nd3 hn) (nd3 hy) (lp _).lt hj, hB2.store_read (nd2 hx) (nd2 hy) (l8 _).lt hj,
      hB1.store_read (nd1 hx) (nd1 hy) (lp _).lt hj, hB.store_read hp hy (l8 _).lt hj]
    have hsz : ∀ {m sm z'}, Node b q frs m sm z' → y = m → t = sm := fun hm e => by
      rw [← hB.node_size hy, ← hB.node_size hm, e]
    have e1 : (y = n ∧ j = sizeof_frag b + sn + end_prev b) ↔ (y = n ∧ j = sizeof_frag b + t + end_prev b) :=
      and_congr_right fun e => by rw [hsz hn e]
    have e2 : (y = x ∧ j = sizeof_frag b + sx + end_prev b) ↔ (y = x ∧ j = sizeof_frag b + t + end_prev b) :=
      and_congr_right fun e => by rw [hsz hx e]
    simp only [e1, e2]
  · intro a h1 h2 h3 h4
    exact (update_of_ne h4 _ _).trans ((update_of_ne h3 _ _).trans
      ((update_of_ne h2 _ _).trans (update_of_ne h1 _ _)))

/-- **`qm_insert_free` puts a fragment on the list of its bucket, in the order of sizes.** -/
theorem insert_spec (hC : Core b q (A ++ f :: B) L) (hf : f.free = false) :
    ∃ q' L', qm_insert_free b q f.addr = some q' ∧
      Core b q' (A ++ { f with free := true } :: B) L' ∧ SameCtl q q' ∧
      ∀ a, ¬ LinkWord b q (A ++ { f with free := true } :: B) a → q'.mem a = q.mem a := by
  obtain ⟨h, hh⟩ : ∃ h, GET_HASH b f.size = h := ⟨_, rfl⟩
  have hfm : f ∈ A ++ f :: B := by simp
  have hH : h < QM_HASH_SIZE b := by
    have := hC.toBase.size_lt hfm
    rw [← hh]
    exact GET_HASH_lt b (by omega)
  have hring := hC.ring h hH
  have hheadL := hC.head_notMem hH hH
  have hfL : f.addr ∉ L h := by
    intro hx
    obtain ⟨g, hg, e, hgf, -⟩ := (hC.mem_iff h hH _).1 hx
    rw [tiled_inj hC.tiled hg hfm e, hf] at hgf
    cases hgf
  -- the walk
  obtain ⟨xs, ys, hL, hcut, hxs, hys⟩ :=
    find_cut (fun x => decide (f.size ≤ q.mem x)) (L h) (free_hash b q h)
  have hwalk : insertLoop q (free_hash b q h) f.size (steps q) (nxt_free q (free_hash b q h)) =
      some (ys.headD (free_hash b q h)) := by
    have h0 : nxt_free q (free_hash b q h) = (L h).headD (free_hash b q h) := by
      have hmid : Chain (nxt_free q) (prev_free b q) (free_hash b q h) ([] ++ L h) (free_hash b q h) := hring
      exact hmid.mid.1
    rw [h0, insertLoop_eq, bucketLoop_spec hring hheadL (hC.length_lt hH), map_some, hcut]
  rw [hL] at hring hheadL hfL
  have hnd := hC.nodup h hH
  rw [hL] at hnd
  have hxL : xs ⊆ L h := by rw [hL]; exact subset_append_left _ _
  have hyL : ys ⊆ L h := by rw [hL]; exact subset_append_right _ _
  obtain ⟨p, hp⟩ : ∃ p, p = xs.getLastD (free_hash b q h) := ⟨_, rfl⟩
  obtain ⟨n, hn⟩ : ∃ n, n = ys.headD (free_hash b q h) := ⟨_, rfl⟩
  have hpn := hC.last_node hH hxL
  have hnn := hC.head_node hH hyL
  rw [← hp] at hpn
  rw [← hn] at hnn hwalk
  have hprev : prev_free b q n = p := by rw [hn, hp]; exact hring.mid.2
  have hfn : Node b q (A ++ f :: B) f.addr f.size f.free := .frag hfm
  obtain ⟨q1, hq1, hB1, hread, hout⟩ := insert_read hC.toBase hfn hpn hnn
  have hfp : f.addr ≠ p := fun e => getLastD_notMem (a := free_hash b q h)
    (fun e => by have := hC.toBase.head_le hH hfm; have := span_pos (b := b) 0; omega)
    (fun hx => hfL (mem_append_left _ hx)) (e.trans hp)
  have hfnn : f.addr ≠ n := fun e => headD_notMem (e := free_hash b q h)
    (fun e => by have := hC.toBase.head_le hH hfm; have := span_pos (b := b) 0; omega)
    (fun hx => hfL (mem_append_right _ hx)) (e.trans hn)
  have hqm : q1.qm = q.qm := by rw [hq1]; rfl
  have hno1 : q1.no = q.no := by rw [hq1]; rfl
  have hn1 : ∀ {x s u}, Node b q1 (A ++ f :: B) x s u ↔ Node b q (A ++ f :: B) x s u :=
    node_congr hqm
  obtain ⟨o1, o2, o3, o4, -⟩ := offsets b
  have nxt1 : ∀ {y t z}, Node b q (A ++ f :: B) y t z → nxt_free q1 y =
      if y = f.addr then n else if y = p then f.addr else nxt_free q y := by
    intro y t z hy
    rw [nxt_free, hread y t 8 z hy (by unfold span; omega), if_neg fun e => by omega]
    simp only [and_true]
    rw [if_neg (c := y = f.addr ∧ 8 = _) fun e => by omega]
    rfl
  have prv1 : ∀ {y t z}, Node b q (A ++ f :: B) y t z → prev_free b q1 y =
      if y = n then f.addr else if y = f.addr then p else prev_free b q y := by
    intro y t z hy
    rw [prev_node hB1 (hn1.2 hy), prev_node hC.toBase hy, hread y t _ z hy (by unfold span; omega)]
    simp only [and_true]
    split_ifs <;> first | rfl | omega
  have hringh : Ring (nxt_free q1) (prev_free b q1) (free_hash b q h) (xs ++ f.addr :: ys) := by
    have hnode : ∀ y, y ∈ xs ++ ys ∨ y = free_hash b q h → y ≠ f.addr ∧
        ∃ t, Node b q (A ++ f :: B) y t true := by
      rintro y (hy | rfl)
      · exact ⟨by rintro rfl; exact hfL hy, _, hC.node hH (by rw [hL]; exact hy)⟩
      · refine ⟨fun e => ?_, 0, .head hH⟩
        have h1 := hC.toBase.head_le hH hfm
        have h2 := span_pos (b := b) 0
        omega
    refine hring.insert hnd hheadL hheadL ?_ ?_ ?_ ?_ (fun y hy hne => ?_) fun y hy hne => ?_
    · rw [← hp, nxt1 hpn, if_neg hfp.symm, if_pos rfl]
    · rw [← hn, nxt1 hfn, if_pos rfl]
    · rw [← hp, prv1 hfn, if_neg hfnn, if_pos rfl]
    · rw [← hn, prv1 hnn, if_pos rfl]
    · obtain ⟨hyf, t, ht⟩ := hnode y ((mem_cons.1 hy).symm)
      rw [nxt1 ht, if_neg hyf, hp, if_neg hne]
    · obtain ⟨hyf, t, ht⟩ := hnode y hy
      rw [prv1 ht, hn, if_neg hne, if_neg hyf]
  have hsz : ∀ {x}, x ∈ L h → q1.mem x = q.mem x := fun hx =>
    hB1.node_size (hn1.2 (hC.node hH hx))
  have hszf : q1.mem f.addr = f.size := hB1.node_size (hn1.2 hfn)
  set q2 : QmBlock := { q1 with no := Function.update q1.no h (q1.no h + 1) } with hq2
  have hB2 : Base b q2 (A ++ f :: B) := hB1.frame rfl rfl rfl fun _ _ _ _ _ _ _ => rfl
  have ctl : SameCtl q q2 := by
    rw [hq2, hq1]
    exact ⟨rfl, rfl, rfl, rfl, rfl, rfl, rfl⟩
  refine ⟨q2, Function.update L h (xs ++ f.addr :: ys), ?_, ?_, ctl, fun a ha => ?_⟩
  · simp only [qm_insert_free, (hC.intact f hfm).head, hh, hwalk, hprev, bind_eq_bind, bind_some]
    rw [hq2, hq1]
    rfl
  · refine hC.relist hh true hB2 hqm (fun y s j hy hj hyL' hyh hyf => ?_) hringh (fun x => ?_) ?_
      ?_ ?_ fun k hk => ?_
    · have hyn : y ≠ n := fun e => headD_notMem hyh (fun hx => hyL' (hyL hx)) (e.trans hn)
      have hyp : y ≠ p := fun e => getLastD_notMem hyh (fun hx => hyL' (hxL hx)) (e.trans hp)
      refine (hread y s j true hy hj).trans ?_
      rw [if_neg fun e => hyn e.1, if_neg fun e => hyf e.1, if_neg fun e => hyf e.1, if_neg fun e => hyp e.1]
    · rw [hL]
      simp only [mem_append, mem_cons] at hfL ⊢
      constructor
      · rintro (hx | rfl | hx)
        · exact .inr ⟨by rintro rfl; exact hfL (.inl hx), .inl hx⟩
        · exact .inl ⟨rfl, trivial⟩
        · exact .inr ⟨by rintro rfl; exact hfL (.inr hx), .inr hx⟩
      · tauto
    · exact nodup_middle.2 (nodup_cons.2 ⟨hfL, hnd⟩)
    · have hs := (hC.sorted h hH).imp_of_mem
        (S := fun x y => q1.mem x ≤ q1.mem y) fun {x y} hx hy hxy => by rwa [hsz hx, hsz hy]
      rw [hL, pairwise_append] at hs
      obtain ⟨s1, s2, s3⟩ := hs
      refine pairwise_append.2 ⟨s1, pairwise_cons.2 ⟨fun y hy => ?_, s2⟩, fun x hx y hy => ?_⟩
      · show q1.mem f.addr ≤ q1.mem y
        rw [hszf]
        cases ys with
        | nil => simp at hy
        | cons z zs =>
          have hz : f.size ≤ q1.mem z := by
            rw [hsz (hyL (mem_cons_self ..))]
            simpa using hys z (by simp)
          rcases mem_cons.1 hy with rfl | hy
          · exact hz
          · exact hz.trans ((pairwise_cons.1 s2).1 y hy)
      · rcases mem_cons.1 hy with rfl | hy
        · show q1.mem x ≤ q1.mem f.addr
          rw [hszf, hsz (hxL hx)]
          have := hxs x hx
          simp only [decide_eq_false_iff_not] at this
          omega
        · exact s3 x hx y hy
    · show Function.update q1.no h (q1.no h + 1) h = _
      rw [update_self, hno1, hC.no h hH, hL]
      simp only [length_append, length_cons]
      omega
    · show Function.update q1.no h (q1.no h + 1) k = _
      rw [update_of_ne hk, hno1]
  · have hnode : ∀ {x s}, Node b q (A ++ f :: B) x s true →
        Node b q (A ++ { f with free := true } :: B) x s true := by
      intro x s hx
      generalize hu : true = u at hx
      cases hx with
      | head hk => exact .head hk
      | @frag g hg =>
        rcases mem_middle.1 hg with rfl | hg
        · rw [hf] at hu; cases hu
        · exact .frag (mem_middle.2 (.inr hg))
    have hfn' : Node b q (A ++ { f with free := true } :: B) f.addr f.size true :=
      .frag (f := { f with free := true }) (by simp)
    refine hout a (fun e => ha ⟨p, _, hnode hpn, .inl e⟩) (fun e => ha ⟨_, _, hfn', .inr e⟩)
      (fun e => ha ⟨_, _, hfn', .inl e⟩) fun e => ha ⟨n, _, hnode hnn, .inr e⟩

end OpenSips.QMalloc
