import OpenSips.FMalloc.Runs

/-!
# OpenSips.FMalloc.Account — `used` and `real_used`

The counters are kept modulo `2 ^ 64`.  Each move charges what it changes, so that `used` and the bytes of
the free fragments stay the size of the block; `real_used` was set `init_overhead` higher at the start,
and a split charges the new header to both.
-/

namespace OpenSips.FMalloc

open List Option

open QMalloc (Frag Mem Region Word bytes frees cast_wrap cast_wsub wrap wrap_lt wsub wsub_lt
  bytes_append bytes_cons)

variable {b : Build} {q q' q0 : FmBlock} {frs A B : List Frag} {L : ℕ → List ℕ} {live : List ℕ} {f : Frag}

theorem bytes_frees_free (hf : f.free = true) :
    bytes (frees (A ++ f :: B)) = f.size + bytes (frees (A ++ B)) := by
  simp only [frees, filter_append, filter_cons, hf, if_true, bytes_append, bytes_cons]
  omega

theorem bytes_frees_live (hf : f.free = false) :
    bytes (frees (A ++ f :: B)) = bytes (frees (A ++ B)) := by
  simp only [frees, filter_append, filter_cons, hf, Bool.false_eq_true, if_false]

/-! ### What the operations charge -/

section Counters

variable (hc : b.counts = true)
include hc

theorem fm_remove_free_counts (q : FmBlock) (n : ℕ) : (fm_remove_free b q n).used =
      wrap (q.used + (fm_remove_free b q n).mem n) ∧
    (fm_remove_free b q n).real_used = wrap (q.real_used + (fm_remove_free b q n).mem n) ∧
    (fm_remove_free b q n).size = q.size := by
  unfold fm_remove_free free_minus
  simp only [hc, if_true]
  split_ifs <;> exact ⟨rfl, rfl, rfl⟩

theorem fm_insert_free_counts {frag : ℕ} (h : fm_insert_free b q frag = some q') :
    q'.used = wsub q.used (q'.mem frag) ∧ q'.real_used = wsub q.real_used (q'.mem frag) ∧ q'.size = q.size := by
  unfold fm_insert_free at h
  simp only [bind_eq_bind, bind_eq_some_iff] at h
  obtain ⟨c, -, h⟩ := h
  cases h
  unfold free_plus
  simp only [hc, if_true]
  split_ifs <;> exact ⟨rfl, rfl, rfl⟩

theorem carved_counts (q : FmBlock) (f size new : ℕ) (c : Caller) : (carved b q f size new c).used = q.used ∧
    (carved b q f size new c).real_used = wrap (q.real_used + FRAG_OVERHEAD b) ∧
    (carved b q f size new c).size = q.size := by
  unfold carved
  dsimp only
  rw [if_pos hc]
  obtain ⟨h1, h2, h3⟩ := mark_counts (b := b) { (q.store f new).store (f + (sizeof_frag b + new))
    (size - new - FRAG_OVERHEAD b) with
      real_used := wrap (q.real_used + FRAG_OVERHEAD b) } (f + (sizeof_frag b + new)) ⟨c.file, b.text, c.line⟩
  exact ⟨h1, h2, h3⟩

theorem joinFrag_counts (q : FmBlock) (f n : ℕ) :
    (joinFrag b q f n).used = wrap (q.used + (fm_remove_free b q n).mem n) ∧
    (joinFrag b q f n).real_used = wsub (wrap (q.real_used + (fm_remove_free b q n).mem n)) (FRAG_OVERHEAD b) ∧
    (joinFrag b q f n).size = q.size := by
  obtain ⟨h1, h2, h3⟩ := fm_remove_free_counts hc q n
  unfold joinFrag
  rw [if_pos hc]
  exact ⟨h1, congrArg (wsub · _) h2, h3⟩

end Counters

/-! ### What the counters say -/

/-- The counters of a block and its free fragments; the fragments and `init_overhead` make up the block. -/
structure Account (b : Build) (q : FmBlock) (frs : List Frag) : Prop where
  ne : frs ≠ []
  wide : init_overhead b + bytes frs + FRAG_OVERHEAD b * frs.length = q.size + FRAG_OVERHEAD b
  size_lt : q.size < 2 ^ 64
  used : (q.used : Word) + bytes (frees frs) = q.size
  real : (q.real_used : Word) + bytes (frees frs) + FRAG_OVERHEAD b =
    q.size + init_overhead b + FRAG_OVERHEAD b * frs.length
  used_lt : q.used < 2 ^ 64
  real_lt : q.real_used < 2 ^ 64

/-- `d` bytes are no longer free, and `e` bytes of headers are new. -/
theorem Account.change {frs' : List Frag} (ha : Account b q frs) (d e : Word) (hne : frs' ≠ [])
    (hsize : q'.size = q.size)
    (hwide : bytes frs' + FRAG_OVERHEAD b * frs'.length = bytes frs + FRAG_OVERHEAD b * frs.length)
    (hfree : (bytes (frees frs) : Word) = bytes (frees frs') + d)
    (hlength : (FRAG_OVERHEAD b * frs'.length : Word) = FRAG_OVERHEAD b * frs.length + e)
    (hused : (q'.used : Word) = q.used + d) (hreal : (q'.real_used : Word) = q.real_used + d + e)
    (used_lt : q'.used < 2 ^ 64) (real_lt : q'.real_used < 2 ^ 64) : Account b q' frs' where
  ne := hne
  wide := by
    have := ha.wide
    omega
  size_lt := hsize ▸ ha.size_lt
  used := by
    rw [hused, hsize]
    linear_combination ha.used - hfree
  real := by
    rw [hreal, hsize]
    linear_combination ha.real - hfree - hlength
  used_lt := used_lt
  real_lt := real_lt

/-- **One move.** -/
theorem Account.move (hc : b.counts = true) {x y : FmBlock × List Frag} (h : Move b x y)
    (ha : Account b x.1 x.2) : Account b y.1 y.2 := by
  induction h with
  | @remove q A B L f hC hf =>
    obtain ⟨L', hC', -⟩ := remove_spec hC hf
    have hm := hC'.head { f with free := false } (mem_middle.2 (.inl rfl))
    obtain ⟨h1, h2, h3⟩ := fm_remove_free_counts hc q f.addr
    dsimp only at hm
    rw [hm] at h1 h2
    refine ha.change f.size 0 (by simp) h3 (by simp) ?_ (by simp) ?_ ?_ (h1 ▸ wrap_lt _) (h2 ▸ wrap_lt _)
    · rw [bytes_frees_free hf, bytes_frees_live rfl]
      push_cast
      ring
    · rw [h1, cast_wrap, Nat.cast_add]
    · rw [h2, cast_wrap, Nat.cast_add, add_zero]
  | @insert q q' A B L f hC hf h =>
    obtain ⟨q2, L', h', hC', -⟩ := insert_spec hC hf
    obtain rfl := some.inj (h.symm.trans h')
    have hm := hC'.head { f with free := true } (mem_middle.2 (.inl rfl))
    obtain ⟨h1, h2, h3⟩ := fm_insert_free_counts hc h
    dsimp only at hm
    rw [hm] at h1 h2
    refine ha.change (-f.size) 0 (by simp) h3 (by simp) ?_ (by simp) ?_ ?_ (h1 ▸ wsub_lt _ _) (h2 ▸ wsub_lt _ _)
    · rw [bytes_frees_live hf, bytes_frees_free rfl]
      push_cast
      ring
    · rw [h1, cast_wsub, sub_eq_add_neg]
    · rw [h2, cast_wsub, sub_eq_add_neg, add_zero]
  | @carve q A B L f new c hC hf hsp =>
    obtain ⟨h1, h2, h3⟩ := carved_counts hc q f.addr f.size new c
    have hov : new + FRAG_OVERHEAD b ≤ f.size := by
      unfold Splits at hsp
      omega
    refine ha.change 0 (FRAG_OVERHEAD b) (by simp) h3 ?_ ?_ ?_ ?_ ?_ (h1 ▸ ha.used_lt) (h2 ▸ wrap_lt _)
    · simp only [bytes_append, bytes_cons, length_append, length_cons, mul_add, mul_one]
      omega
    · rw [bytes_frees_live hf, bytes_frees_live rfl, bytes_frees_live rfl, add_zero]
    · simp only [length_append, length_cons]
      push_cast
      ring
    · rw [h1, add_zero]
    · rw [h2, cast_wrap, Nat.cast_add, add_zero]
  | @join q A B L f g f' hC hf hg hf' hsz =>
    have hC0 : Core b q ((A ++ [f]) ++ g :: B) L := by rwa [append_assoc]
    obtain ⟨L', hC', -⟩ := remove_spec hC0 hg
    have hm := hC'.head { g with free := false } (mem_middle.2 (.inl rfl))
    obtain ⟨h1, h2, h3⟩ := joinFrag_counts hc q f.addr g.addr
    dsimp only at hm
    rw [hm] at h1 h2
    refine ha.change g.size (-FRAG_OVERHEAD b) (by simp) h3 ?_ ?_ ?_ ?_ ?_ (h1 ▸ wrap_lt _) (h2 ▸ wsub_lt _ _)
    · simp only [bytes_append, bytes_cons, length_append, length_cons, mul_add, mul_one, hsz]
      omega
    · rw [bytes_frees_live hf, bytes_frees_free hg, bytes_frees_live hf']
      push_cast
      ring
    · simp only [length_append, length_cons]
      push_cast
      ring
    · rw [h1, cast_wrap, Nat.cast_add]
    · rw [h2, cast_wsub, cast_wrap, Nat.cast_add, sub_eq_add_neg]
  | touch h =>
    obtain ⟨h1, h2, h3⟩ := h
    exact ha.change 0 0 ha.ne h3 rfl (add_zero _).symm (add_zero _).symm (by rw [h1, add_zero])
      (by rw [h2, add_zero, add_zero]) (h1 ▸ ha.used_lt) (h2 ▸ ha.real_lt)

/-- **Some moves.** -/
theorem Account.moves (hc : b.counts = true) {x y : FmBlock × List Frag} (h : Moves b x y)
    (ha : Account b x.1 x.2) : Account b y.1 y.2 := by
  induction h with
  | refl => exact ha
  | tail _ hm ih => exact ih.move hc hm

theorem blank_account (hc : b.counts = true) (mem : Mem) (start : ℕ) {size : ℕ} (hsize : size < 2 ^ 64)
    (hf : f.free = false) (hs : size = init_overhead b + f.size) :
    Account b (blank b mem start size) [f] := by
  obtain ⟨h1, h2, h3⟩ : (blank b mem start size).used = size ∧
      (blank b mem start size).real_used = wrap (size + init_overhead b) ∧
      (blank b mem start size).size = size := by
    unfold blank
    dsimp only
    rw [if_pos hc]
    cases b.dbg <;> (split_ifs <;> exact ⟨rfl, rfl, rfl⟩)
  have hb : bytes (frees [f]) = 0 := by
    rw [frees, filter_cons, hf]
    rfl
  refine ⟨cons_ne_nil _ _, ?_, by rw [h3]; exact hsize, ?_, ?_, by rw [h1]; exact hsize, h2 ▸ wrap_lt _⟩
  · rw [h3, hs, bytes_cons, QMalloc.bytes_nil, length_singleton]
    omega
  · rw [h1, h3, hb, Nat.cast_zero, add_zero]
  · rw [h2, h3, hb, cast_wrap, length_singleton]
    push_cast
    ring

/-- **The counters in every state that a run reaches.** -/
theorem reachable_account {mem : Mem} {region : Region} (hc : b.counts = true)
    (hi : fm_malloc_init b mem region = some (some q0)) (hr : Reachable b q0 q live) :
    Account b q (fragments b q) := by
  obtain ⟨f, L0, hI0, hf, -, hsize, start, hmv0⟩ := init_inv hi
  obtain ⟨frs, L, hI, -, -, hmv⟩ := reachable_inv hI0 hf hr
  have hlt : block_size region < 2 ^ 64 := by
    have h1 := region.fits
    have h2 : ∀ s, ROUNDDOWN s ≤ s := fun s => Nat.div_mul_le_self _ _
    have h3 := h2 (region.size - wsub (ROUNDUP region.address) region.address)
    unfold block_size
    omega
  have h0 := blank_account hc mem start hlt (f := { f with free := false }) rfl hsize
  rw [hI.fragments]
  exact (h0.move hc hmv0).moves hc hmv

section Exact

variable (h : Account b q frs)
include h

theorem Account.overhead_le :
    bytes (frees frs) + init_overhead b + FRAG_OVERHEAD b * (frs.length - 1) ≤ q.size := by
  have h1 := h.wide
  have h2 := QMalloc.bytes_split frs
  obtain ⟨n, hlen⟩ := Nat.exists_eq_add_one_of_ne_zero (length_pos_iff.2 h.ne).ne'
  rw [hlen, mul_add, mul_one] at h1
  rw [hlen, Nat.add_sub_cancel]
  omega

/-- **`used` never underflows**: it is what is not free. -/
theorem Account.used_eq : q.used + bytes (frees frs) = q.size := by
  have h1 := h.overhead_le
  have h2 := h.size_lt
  have h3 : q.used = q.size - bytes (frees frs) := by
    refine QMalloc.word_inj h.used_lt (by omega) ?_
    rw [Nat.cast_sub (by omega)]
    linear_combination h.used
  omega

/-- **`real_used`** counts every header twice, modulo `2 ^ 64`. -/
theorem Account.real_eq : (q.real_used : Word) =
    (q.used + init_overhead b + FRAG_OVERHEAD b * (frs.length - 1) : ℕ) := by
  obtain ⟨n, hlen⟩ := Nat.exists_eq_add_one_of_ne_zero (length_pos_iff.2 h.ne).ne'
  have hr := h.real
  rw [hlen] at hr ⊢
  rw [Nat.add_sub_cancel]
  push_cast at hr ⊢
  linear_combination hr - h.used

/-- **The free memory by the counters is not that of the free fragments.** -/
theorem Account.free_ne : wsub q.size q.real_used ≠ bytes (frees frs) := by
  intro he
  have h1 := h.overhead_le
  have h2 := h.used_eq
  have h3 := h.size_lt
  have h4 : 0 < init_overhead b := by
    have := (sizeof_frag_bounds b).1
    unfold init_overhead
    omega
  have h5 : ((init_overhead b + FRAG_OVERHEAD b * (frs.length - 1) : ℕ) : Word) = (0 : ℕ) := by
    have h6 := congrArg (fun n : ℕ => (n : Word)) he
    have h7 := congrArg (fun n : ℕ => (n : Word)) h2
    rw [cast_wsub, h.real_eq] at h6
    push_cast at h6 h7 ⊢
    linear_combination -h6 - h7
  have := QMalloc.word_inj (by omega) (by omega) h5
  omega

end Exact

end OpenSips.FMalloc
