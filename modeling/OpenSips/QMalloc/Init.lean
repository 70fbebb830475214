import OpenSips.QMalloc.Realloc

/-!
# OpenSips.QMalloc.Init — `qm_malloc_init`

A block starts as empty lists and one fragment, which is then put on its list.
-/

namespace OpenSips.QMalloc

open Lib List

variable {b : Build} {q : QmBlock}

theorem QM_HASH_SIZE_eq : QM_HASH_SIZE b = if b.dbg then 2099 else 1075 := by
  unfold QM_HASH_SIZE ROUNDTO
  cases b.dbg <;> rfl

theorem sizeof_block_le : sizeof_block b ≤ 2 ^ 20 := by
  rw [sizeof_block, sizeof_lnk, QM_HASH_SIZE_eq]
  rcases consts b with ⟨h, -, -, -, -, -, h5⟩ | ⟨h, -, -, -, -, -, h5⟩ <;> rw [h5, h] <;> decide

theorem ctl_le : sizeof_block b ≤ ROUNDUP b (sizeof_block b) ∧ ROUNDUP b (sizeof_block b) < 2 ^ 21 := by
  have h := sizeof_block_le (b := b)
  have h2 : ROUNDTO b ≤ 16 := by rcases consts b with ⟨-, h, -⟩ | ⟨-, h, -⟩ <;> omega
  obtain ⟨h3, h4⟩ := ROUNDUP_bounds b (s := sizeof_block b) (by omega)
  exact ⟨h3, by omega⟩

/-! ### The list heads -/

/-- What `initHeads` leaves below bucket `n`, and that it writes nothing above. -/
structure Heads (b : Build) (q q' : QmBlock) (n : ℕ) : Prop where
  arena : SameArena q q'
  used : q'.used = q.used
  real : q'.real_used = q.real_used
  no : q'.no = q.no
  size : ∀ h < n, q'.mem (free_hash b q h) = 0
  next : ∀ h < n, q'.mem (free_hash b q h + 8) = free_hash b q h
  prev : ∀ h < n, q'.mem (free_hash b q h + (sizeof_frag b + end_prev b)) = free_hash b q h
  above : ∀ x, free_hash b q n ≤ x → q'.mem x = q.mem x

theorem initHeads_ctl (q : QmBlock) (n : ℕ) : SameArena q (initHeads b q n) ∧
    (initHeads b q n).used = q.used ∧ (initHeads b q n).real_used = q.real_used ∧
    (initHeads b q n).no = q.no := by
  induction n with
  | zero => exact ⟨SameArena.refl q, rfl, rfl, rfl⟩
  | succ n ih => exact ⟨ih.1.trans ⟨rfl, rfl, rfl, rfl⟩, ih.2⟩

theorem initHeads_mem (q : QmBlock) (n x : ℕ) : (initHeads b q (n + 1)).mem x =
    if x = free_hash b q n + sizeof_frag b + end_size b then 0
    else if x = free_hash b q n then 0
    else if x = free_hash b q n + sizeof_frag b + end_prev b then free_hash b q n
    else if x = free_hash b q n + 8 then free_hash b q n else (initHeads b q n).mem x := by
  have e : free_hash b (initHeads b q n) n = free_hash b q n := by
    rw [free_hash, free_hash, (initHeads_ctl q n).1.qm]
  rw [← e, ← store_mem, ← store_mem, ← store_mem, ← store_mem]
  rfl

theorem initHeads_head (q : QmBlock) (n : ℕ) : ∀ h < n, (initHeads b q n).mem (free_hash b q h) = 0 ∧
    (initHeads b q n).mem (free_hash b q h + 8) = free_hash b q h ∧
    (initHeads b q n).mem (free_hash b q h + (sizeof_frag b + end_prev b)) = free_hash b q h := by
  obtain ⟨o1, o2, o3, o4, -⟩ := offsets b
  have hs : span b 0 = sizeof_frag b + 0 + sizeof_frag_end b := rfl
  induction n with
  | zero => exact fun h hh => absurd hh (Nat.not_lt_zero h)
  | succ n ih =>
    intro h hh
    simp only [initHeads_mem]
    rcases Nat.lt_succ_iff_lt_or_eq.1 hh with hlt | rfl
    · have hap := head_apart (b := b) (q := q) hlt
      obtain ⟨h1, h2, h3⟩ := ih h hlt
      refine ⟨?_, ?_, ?_⟩
      · rw [if_neg (by omega), if_neg (by omega), if_neg (by omega), if_neg (by omega), h1]
      · rw [if_neg (by omega), if_neg (by omega), if_neg (by omega), if_neg (by omega), h2]
      · rw [if_neg (by omega), if_neg (by omega), if_neg (by omega), if_neg (by omega), h3]
    · refine ⟨?_, ?_, ?_⟩
      · split_ifs <;> first | rfl | omega
      · split_ifs <;> first | rfl | omega
      · split_ifs <;> first | rfl | omega

theorem initHeads_above (q : QmBlock) (n : ℕ) {x : ℕ} (hx : free_hash b q n ≤ x) :
    (initHeads b q n).mem x = q.mem x := by
  obtain ⟨o1, o2, o3, o4, -⟩ := offsets b
  have hs : span b 0 = sizeof_frag b + 0 + sizeof_frag_end b := rfl
  induction n with
  | zero => rfl
  | succ n ih =>
    have hap := head_apart (b := b) (q := q) (Nat.lt_add_one n)
    rw [initHeads_mem, if_neg (by omega), if_neg (by omega), if_neg (by omega), if_neg (by omega),
      ih (by omega)]

theorem initHeads_spec (q : QmBlock) (n : ℕ) : Heads b q (initHeads b q n) n :=
  have hw := initHeads_head (b := b) q n
  have ⟨c1, c2, c3, c4⟩ := initHeads_ctl (b := b) q n
  ⟨c1, c2, c3, c4, fun h hh => (hw h hh).1, fun h hh => (hw h hh).2.1, fun h hh => (hw h hh).2.2,
    fun _ => initHeads_above q n⟩

theorem Heads.core {q' : QmBlock} (h : Heads b q q' (QM_HASH_SIZE b)) (size : ℕ)
    (hfirst : free_hash b q (QM_HASH_SIZE b) ≤ q.first_frag)
    (hlast : q.first_frag + span b size = q.last_frag_end + sizeof_frag_end b)
    (htop : q.last_frag_end + sizeof_frag_end b ≤ 2 ^ 64) (hno : ∀ h, q.no h = 0)
    (hi : Intact b q ⟨q.first_frag, size, false⟩) :
    Core b q' [⟨q.first_frag, size, false⟩] fun _ => [] := by
  obtain ⟨o1, o2, o3, o4, -, o6⟩ := offsets b
  obtain ⟨a1, -, a3, a4⟩ := h.arena
  have e : ∀ k, free_hash b q' k = free_hash b q k := fun k => by rw [free_hash, free_hash, a1]
  have hk : ∀ j, q'.mem (q.first_frag + j) = q.mem (q.first_frag + j) := fun j =>
    h.above _ (by omega)
  obtain ⟨i1, i2, i3, i4⟩ := hi
  dsimp only at i1 i2 i3 i4
  refine ⟨⟨?_, by rw [e, a3]; exact hfirst, by rw [a4]; exact htop, fun f hf => ?_, fun k hk => ?_⟩,
    ⟨fun k hk => ?_, fun k hk x => ?_, fun _ _ => nodup_nil, fun _ _ => Pairwise.nil,
      fun k _ => by rw [h.no, hno]; rfl⟩⟩
  · rw [a3, a4]
    exact ⟨rfl, hlast⟩
  · obtain rfl := mem_singleton.1 hf
    exact ⟨by have := hk 0; rw [add_zero] at this; rw [this, i1], by rw [hk, i2], i3,
      fun hb => ⟨by rw [hk, (i4 hb).1], by rw [hk, (i4 hb).2.1], by rw [hk, (i4 hb).2.2]⟩⟩
  · rw [e, h.size k hk]
  · rw [e]
    refine ⟨h.next k hk, ?_⟩
    rw [prev_free, FRAG_END, h.size k hk, add_zero, add_assoc]
    exact h.prev k hk
  · constructor
    · intro hx
      cases hx
    · rintro ⟨f, hf, -, hu, -⟩
      rw [mem_singleton.1 hf] at hu
      cases hu

/-! ### The block set up -/

def blank (b : Build) (mem : Mem) (start size : ℕ) : QmBlock :=
  let first := start + ROUNDUP b (sizeof_block b)
  let last := start + size - sizeof_frag_end b
  let free := size - (ROUNDUP b (sizeof_block b) + FRAG_OVERHEAD b)
  let q : QmBlock := ⟨fun a => if start ≤ a ∧ a < start + sizeof_block b then 0 else mem a, start,
    size, 0, ROUNDUP b (sizeof_block b) + FRAG_OVERHEAD b,
    ROUNDUP b (sizeof_block b) + FRAG_OVERHEAD b, first, last, fun _ => 0⟩
  mark b ((q.store first free).store (last + end_size b) free) first last

theorem blank_ctl (mem : Mem) (start size : ℕ) : (blank b mem start size).qm = start ∧
    (blank b mem start size).size = size ∧ (blank b mem start size).used = 0 ∧
    (blank b mem start size).real_used = ROUNDUP b (sizeof_block b) + FRAG_OVERHEAD b ∧
    (blank b mem start size).first_frag = start + ROUNDUP b (sizeof_block b) ∧
    (blank b mem start size).last_frag_end = start + size - sizeof_frag_end b ∧
    (blank b mem start size).no = fun _ => 0 := by
  unfold blank mark
  cases b.dbg <;> exact ⟨rfl, rfl, rfl, rfl, rfl, rfl, rfl⟩

theorem blank_intact (mem : Mem) (start : ℕ) {size free : ℕ}
    (hfree : size = ROUNDUP b (sizeof_block b) + FRAG_OVERHEAD b + free) (hd : ROUNDTO b ∣ size) :
    Intact b (blank b mem start size) ⟨start + ROUNDUP b (sizeof_block b), free, false⟩ := by
  obtain ⟨o1, o2, o3, o4, o5, o6⟩ := offsets b
  have hlast : start + size - sizeof_frag_end b =
      start + ROUNDUP b (sizeof_block b) + (sizeof_frag b + free) := by omega
  have hsz : size - (ROUNDUP b (sizeof_block b) + FRAG_OVERHEAD b) = free := by omega
  have hdf : ROUNDTO b ∣ free := by
    refine (Nat.dvd_add_right ?_).1 (hfree ▸ hd)
    exact Nat.dvd_add (ROUNDTO_dvd_ROUNDUP b _) (ROUNDTO_dvd_overhead b)
  have hm : ∀ x, start + ROUNDUP b (sizeof_block b) ≤ x → (blank b mem start size).mem x = _ :=
    fun x _ => mark_mem _ _ x
  generalize start + ROUNDUP b (sizeof_block b) = first at *
  rw [hlast, hsz] at hm
  simp only [store_mem] at hm
  refine ⟨?_, ?_, hdf, fun hb => ⟨?_, ?_, ?_⟩⟩ <;> dsimp only <;> rw [hm _ (by omega)]
  · split_ifs <;> first | rfl | omega
  · split_ifs <;> first | rfl | omega | (have h6 := o6 (‹b.dbg = true ∧ _›).1; omega)
  · obtain ⟨o6, o7⟩ := o6 hb
    rw [if_neg (by omega), if_neg (by omega), if_pos ⟨hb, rfl⟩]
  · rw [if_neg (by omega), if_pos ⟨hb, rfl⟩]
  · rw [if_pos ⟨hb, by omega⟩]

theorem blank_insert (mem : Mem) (start : ℕ) {size free : ℕ}
    (hfree : size = ROUNDUP b (sizeof_block b) + FRAG_OVERHEAD b + free) (hd : ROUNDTO b ∣ size)
    (htop : start + size < 2 ^ 64) :
    ∃ q f L, qm_insert_free b (initHeads b (blank b mem start size) (QM_HASH_SIZE b))
        (start + ROUNDUP b (sizeof_block b)) = some q ∧ Inv b q [f] L ∧ f.free = true ∧
      f.size = free ∧ Account b q [f] := by
  obtain ⟨o1, o2, o3, o4, o5, -⟩ := offsets b
  obtain ⟨c1, c2, c3, c4, c5, c6, c7⟩ := blank_ctl (b := b) mem start size
  have hle := ctl_le (b := b)
  have hlast : start + size - sizeof_frag_end b + sizeof_frag_end b = start + size := by omega
  have hi := blank_intact (b := b) mem start hfree hd
  have hs := initHeads_spec (b := b) (blank b mem start size) (QM_HASH_SIZE b)
  rw [← c5] at hi ⊢
  have hC := hs.core free (by
      have e : free_hash b (blank b mem start size) (QM_HASH_SIZE b) = start + sizeof_block b := by
        rw [free_hash, c1, sizeof_block, add_assoc]
      rw [e, c5]
      omega)
    (by rw [c5, c6, hlast]; unfold span; omega) (by rw [c6, hlast]; omega)
    (fun h => by rw [c7]) hi
  obtain ⟨q, L, hq, hC', hc, -⟩ := insert_spec (A := []) (B := []) hC rfl
  refine ⟨q, _, L, hq, ⟨hC', fun f hf hu => ?_⟩, rfl, rfl, ?_⟩
  · rw [mem_singleton.1 hf] at hu
    cases hu
  · obtain ⟨a1, a2, a3, a4⟩ := hs.arena.trans hc.arena
    have hu : q.used = 0 := by rw [hc.used, hs.used, c3]
    have hr : q.real_used = ROUNDUP b (sizeof_block b) + FRAG_OVERHEAD b := by
      rw [hc.real_used, hs.real, c4]
    refine ⟨?_, ?_, by rw [hu]; decide, by rw [hr]; omega, ?_, by rw [a2, c2]; omega⟩
    · rw [hu, lives_cons_free rfl]
      rfl
    · rw [hr, a1, a3, c1, c5, Nat.add_sub_cancel_left, lives_cons_free rfl]
      simp [lives]
    · rw [a1, a2, a4, c1, c2, c6, hlast]

/-- The bytes of a region that a block may need for itself. -/
def init_overhead (b : Build) : ℕ := ROUNDUP b (sizeof_block b) + FRAG_OVERHEAD b + 32

/-- **`qm_malloc_init`** refuses a region that is too small, or sets up a block of one free
fragment. -/
theorem init_spec (mem : Mem) (region : Region) :
    (qm_malloc_init b mem region = some none ∧ region.size < init_overhead b) ∨
    ∃ q f L, qm_malloc_init b mem region = some (some q) ∧ Inv b q [f] L ∧ f.free = true ∧
      Account b q [f] ∧ region.size ≤ f.size + init_overhead b := by
  obtain ⟨address, size, fits⟩ := region
  obtain ⟨o1, o2, o3, o4, o5, -⟩ := offsets b
  have hto : ROUNDTO b ≤ 16 := by rcases consts b with ⟨-, h, -⟩ | ⟨-, h, -⟩ <;> omega
  unfold qm_malloc_init init_overhead
  dsimp only
  by_cases h1 : size < wsub (ROUNDUP b address) address
  · refine .inl ⟨if_pos h1, ?_⟩
    by_contra hbig
    obtain ⟨s1, s2⟩ := ROUNDUP_bounds b (s := address) (by omega)
    rw [wsub_eq (by omega) s1] at h1
    omega
  rw [if_neg h1]
  by_cases h2 : size - wsub (ROUNDUP b address) address < MIN_FRAG_SIZE b + FRAG_OVERHEAD b
  · refine .inl ⟨if_pos h2, ?_⟩
    by_contra hbig
    obtain ⟨s1, s2⟩ := ROUNDUP_bounds b (s := address) (by omega)
    have hle := ctl_le (b := b)
    rw [wsub_eq (by omega) s1, MIN_FRAG_SIZE] at h2
    have h48 : 48 ≤ sizeof_block b := by unfold sizeof_block; omega
    omega
  rw [if_neg h2]
  obtain ⟨s1, s2⟩ := ROUNDUP_bounds b (s := address) (by omega)
  rw [wsub_eq (by omega) s1] at h1 h2 ⊢
  obtain ⟨size', hsize'⟩ : ∃ s, s = ROUNDDOWN b (size - (ROUNDUP b address - address)) := ⟨_, rfl⟩
  have hle := ROUNDDOWN_le b (size - (ROUNDUP b address - address))
  have hgt := lt_ROUNDDOWN b (size - (ROUNDUP b address - address))
  have hd := ROUNDTO_dvd_ROUNDDOWN b (size - (ROUNDUP b address - address))
  rw [← hsize'] at hle hgt hd ⊢
  by_cases h3 : size' < ROUNDUP b (sizeof_block b) + FRAG_OVERHEAD b
  · exact .inl ⟨if_pos h3, by omega⟩
  rw [if_neg h3]
  obtain ⟨free, hfree⟩ : ∃ free, size' = ROUNDUP b (sizeof_block b) + FRAG_OVERHEAD b + free :=
    ⟨size' - (ROUNDUP b (sizeof_block b) + FRAG_OVERHEAD b), by omega⟩
  obtain ⟨q, f, L, hq, hI, hf, hsz, ha⟩ :=
    blank_insert (b := b) mem (ROUNDUP b address) hfree hd (by omega)
  refine .inr ⟨q, f, L, ?_, hI, hf, ha, by omega⟩
  have h4 : (qm_insert_free b (initHeads b (blank b mem (ROUNDUP b address) size') (QM_HASH_SIZE b))
      (ROUNDUP b address + ROUNDUP b (sizeof_block b))).bind (fun q => some (some q)) =
      some (some q) := by
    rw [hq]
    rfl
  exact h4

end OpenSips.QMalloc
