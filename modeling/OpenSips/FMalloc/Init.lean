import OpenSips.FMalloc.Realloc

/-!
# OpenSips.FMalloc.Init — `fm_malloc_init`

A block starts with empty lists and one fragment, which is then put on its list.  `init_overhead` counts
one header for two, that of `first_frag` and that of `last_frag`: the fragment reaches the end of the
region, over the header of `last_frag`.
-/

namespace OpenSips.FMalloc

open Lib List Function
open QMalloc (Frag Mem Region wrap wsub wsub_eq)

variable {b : Build} {q : FmBlock}

/-- What `fm_malloc_init` takes from a region for itself. -/
def init_overhead (b : Build) : ℕ := ROUNDUP (sizeof_block b) + sizeof_frag b

def block_size (region : Region) : ℕ :=
  ROUNDDOWN (region.size - wsub (ROUNDUP region.address) region.address)

theorem ROUNDUP_block (b : Build) : ROUNDUP (sizeof_block b) = sizeof_block b := by
  rcases sizeof_block_bounds b with h | h <;> rw [h] <;> decide

def blank (b : Build) (mem : Mem) (start size : ℕ) : FmBlock :=
  let mem : Mem := fun a => if start ≤ a ∧ a < start + sizeof_block b then 0 else mem a
  let first := start + ROUNDUP (sizeof_block b)
  let last := start + size - sizeof_frag b
  let q : FmBlock := ⟨mem, start, size, 0, 0, 0, 0, 0, first, last, fun _ => 0⟩
  let q := if b.counts then { q with
      used := size, real_used := wrap (size + init_overhead b), max_real_used := init_overhead b }
    else q
  let q := (((q.store first (size - init_overhead b)).store last 0).store (prev last) 0).store
    (prev first) 0
  let q := if b.dbg then
      (q.store (check first) ST_CHECK_PATTERN).store (check last) END_CHECK_PATTERN1 else q
  let q := { q with large_space := 0, large_limit := q.size / 100 * F_MALLOC_DEFRAG_PERCENT }
  if q.large_limit < F_MALLOC_DEFRAG_LIMIT then { q with large_limit := F_MALLOC_DEFRAG_LIMIT } else q

theorem blank_ctl (mem : Mem) (start size : ℕ) : (blank b mem start size).qm = start ∧
    (blank b mem start size).first_frag = start + ROUNDUP (sizeof_block b) ∧
    (blank b mem start size).last_frag = start + size - sizeof_frag b ∧
    (blank b mem start size).no = fun _ => 0 := by
  unfold blank
  dsimp only
  cases b.counts <;> cases b.dbg <;> (split_ifs <;> exact ⟨rfl, rfl, rfl, rfl⟩)

theorem blank_words (mem : Mem) (start size : ℕ) : (blank b mem start size).mem =
    let first := start + ROUNDUP (sizeof_block b)
    let last := start + size - sizeof_frag b
    let m : Mem := fun a => if start ≤ a ∧ a < start + sizeof_block b then 0 else mem a
    let m := Function.update (Function.update (Function.update (Function.update m first
      (size - init_overhead b)) last 0) (prev last) 0) (prev first) 0
    if b.dbg then Function.update (Function.update m (check first) ST_CHECK_PATTERN) (check last)
      END_CHECK_PATTERN1 else m := by
  unfold blank
  dsimp only
  cases b.counts <;> cases b.dbg <;> (split_ifs <;> rfl)

/-- What is below the first fragment was cleared; its size is in its header. -/
theorem blank_mem (mem : Mem) (start size x : ℕ) (hle : init_overhead b ≤ size)
    (hx : x ≤ start + ROUNDUP (sizeof_block b)) : (blank b mem start size).mem x =
      if x = start + ROUNDUP (sizeof_block b) then size - init_overhead b
      else if start ≤ x then 0 else mem x := by
  have hr := ROUNDUP_block b
  unfold init_overhead at *
  obtain ⟨first, hfirst⟩ : ∃ a, a = start + ROUNDUP (sizeof_block b) := ⟨_, rfl⟩
  obtain ⟨last, hlast⟩ : ∃ a, a = start + size - sizeof_frag b := ⟨_, rfl⟩
  have hq : (blank b mem start size).mem x =
      if x = prev first then 0 else if x = prev last then 0 else if x = last then 0
      else if x = first then size - (ROUNDUP (sizeof_block b) + sizeof_frag b)
      else if start ≤ x ∧ x < start + sizeof_block b then 0 else mem x := by
    have h1 : x ≠ check first := by unfold check; omega
    have h2 : x ≠ check last := by unfold check; omega
    have hm := congrFun (blank_words (b := b) mem start size) x
    rw [← hfirst, ← hlast] at hm
    rw [hm, ite_apply, update_of_ne h2, update_of_ne h1, ite_self]
    simp only [update_apply]
    rfl
  rw [hq, ← hfirst]
  unfold prev
  split_ifs <;> omega

/-- **A block that is large enough starts as one free fragment**, which ends where the region does. -/
theorem blank_insert (mem : Mem) (start : ℕ) {size : ℕ} (hd : 8 ∣ start) (hd' : 8 ∣ size)
    (hle : init_overhead b ≤ size) (htop : start + size < 2 ^ 64) :
    ∃ q f L, fm_insert_free b (blank b mem start size) (start + ROUNDUP (sizeof_block b)) = some q ∧
      Inv b q [f] L ∧ f.free = true ∧ f.addr = q.first_frag ∧ f.size = size - init_overhead b ∧
      Move b (blank b mem start size, [{ f with free := false }]) (q, [f]) := by
  obtain ⟨c1, c2, c3, c4⟩ := blank_ctl (b := b) mem start size
  have hr := ROUNDUP_block b
  have hmem := fun x => blank_mem (b := b) mem start size x hle
  obtain ⟨f, hf⟩ : ∃ f : Frag, f = ⟨start + ROUNDUP (sizeof_block b), size - init_overhead b, false⟩ := ⟨_, rfl⟩
  have hov : init_overhead b = ROUNDUP (sizeof_block b) + sizeof_frag b := rfl
  have hhash : ∀ h, free_hash b (blank b mem start size) h = start + free_hash_off b + h * 16 := fun h => by
    rw [free_hash, c1]
  have hblock : sizeof_block b = free_hash_off b + F_HASH_SIZE * 16 := rfl
  have hC : Core b (blank b mem start size) ([] ++ f :: []) fun _ => [] := by
    refine ⟨⟨⟨?_, ?_⟩, ?_, ?_, ?_, fun g hg => ?_, fun g hg => ?_⟩, ⟨fun h hh x => ?_,
      fun _ _ => nodup_nil⟩, fun h hh => ?_, fun h _ => by rw [c4]; rfl⟩
    · rw [c2, hf]
    · show _ + (sizeof_frag b + f.size) = _
      rw [c2, c3, hf]
      dsimp only
      omega
    · rw [hhash, c2]
      omega
    · rw [c3]
      omega
    · rw [c2, hr]
      rcases sizeof_block_bounds b with h | h <;> omega
    · rw [mem_singleton.1 hg, hf]
      have := dvd_sizeof_frag b
      rcases sizeof_block_bounds b with h | h <;> (dsimp only; omega)
    · rw [mem_singleton.1 hg, hf]
      dsimp only
      rw [hmem _ le_rfl, if_pos rfl]
    · refine iff_of_false not_mem_nil ?_
      rintro ⟨g, hg, -, hu, -⟩
      rw [mem_singleton.1 hg, hf] at hu
      cases hu
    · show (blank b mem start size).mem _ = 0
      rw [hhash, hmem _ (by omega), if_neg (by omega), if_pos (by omega)]
  obtain ⟨q, L, hq, hC', ha, -⟩ := insert_spec hC (by rw [hf])
  have hmv := Move.insert hC (by rw [hf]) hq
  refine ⟨q, { f with free := true }, L, by rw [← hq, hf], ⟨hC', fun g hg hu => ?_⟩, rfl, ?_, ?_, ?_⟩
  · rw [mem_singleton.1 hg] at hu
    cases hu
  · rw [ha.first_frag, c2, hf]
  · rw [hf]
  · rw [hf] at hmv ⊢
    exact hmv

/-- **`fm_malloc_init`** refuses a region that is too small, or sets up a block of one free fragment. -/
theorem init_spec (mem : Mem) (region : Region) :
    (fm_malloc_init b mem region = some none ∧ block_size region < init_overhead b) ∨
    ∃ q f L, fm_malloc_init b mem region = some (some q) ∧ Inv b q [f] L ∧ f.free = true ∧
      f.addr = q.first_frag ∧ block_size region = init_overhead b + f.size ∧
      ∃ start, Move b (blank b mem start (block_size region), [{ f with free := false }]) (q, [f]) := by
  obtain ⟨address, size, fits⟩ := region
  have hov : init_overhead b = ROUNDUP (sizeof_block b) + sizeof_frag b := rfl
  have hr := ROUNDUP_block b
  have h24 := sizeof_frag_bounds b
  have hblk : 33624 ≤ sizeof_block b := by rcases sizeof_block_bounds b with h | h <;> omega
  have hto : ROUNDTO = 8 := rfl
  have hmin : MIN_FRAG_SIZE = 8 := rfl
  have hfo : FRAG_OVERHEAD b = sizeof_frag b := rfl
  have hround : ∀ s, ROUNDDOWN s ≤ s ∧ s < ROUNDDOWN s + 8 ∧ 8 ∣ ROUNDDOWN s := fun s => by
    unfold ROUNDDOWN ROUNDTO
    omega
  unfold fm_malloc_init block_size
  dsimp only
  obtain ⟨pad, hpad⟩ : ∃ p, p = wsub (ROUNDUP address) address := ⟨_, rfl⟩
  have hfit : address + 8 ≤ 2 ^ 64 → pad = ROUNDUP address - address ∧ address ≤ ROUNDUP address ∧
      ROUNDUP address < address + 8 := fun h => by
    obtain ⟨s1, s2⟩ := ROUNDUP_bounds (s := address) h
    exact ⟨hpad.trans (wsub_eq (by omega) s1), s1, s2⟩
  rw [← hpad]
  by_cases h1 : size < pad
  · refine .inl ⟨if_pos h1, ?_⟩
    have := hround (size - pad)
    omega
  rw [if_neg h1]
  by_cases h2 : size - pad < MIN_FRAG_SIZE + FRAG_OVERHEAD b
  · refine .inl ⟨if_pos h2, ?_⟩
    have := hround (size - pad)
    omega
  rw [if_neg h2]
  obtain ⟨s1, s2, s3⟩ := hround (size - pad)
  obtain ⟨size', hsize'⟩ : ∃ s, s = ROUNDDOWN (size - pad) := ⟨_, rfl⟩
  obtain ⟨p1, p2, p3⟩ := hfit (by omega)
  rw [← hsize'] at s1 s2 s3 ⊢
  by_cases h3 : size' < ROUNDUP (sizeof_block b) + sizeof_frag b
  · exact .inl ⟨if_pos h3, by omega⟩
  rw [if_neg h3]
  obtain ⟨q, f, L, hq, hI, hf, hfa, hfs, hmv⟩ :=
    blank_insert (b := b) mem (ROUNDUP address) (dvd_ROUNDUP address) s3 (by omega) (by omega)
  refine .inr ⟨q, f, L, ?_, hI, hf, hfa, by omega, _, hmv⟩
  have h4 : (fm_insert_free b (blank b mem (ROUNDUP address) size')
      (ROUNDUP address + ROUNDUP (sizeof_block b))).bind (fun q => some (some q)) = some (some q) := by
    rw [hq]
    rfl
  exact h4

end OpenSips.FMalloc
