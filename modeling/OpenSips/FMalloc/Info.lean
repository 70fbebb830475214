import OpenSips.FMalloc.Account

/-!
# OpenSips.FMalloc.Info — `fm_info`

A build with counters reports them, one without walks the lists: the small buckets by their number of
fragments, since all of these have one size, the others fragment by fragment.
-/

namespace OpenSips.FMalloc

open Lib List Option
open QMalloc (Frag Mem Region Word bytes frees cast_wrap cast_wsub mem_frees wrap wrap_lt wsub)

/-- `struct mem_info`. -/
structure MemInfo where
  total_size : ℕ
  free : ℕ
  used : ℕ
  real_used : ℕ
  max_used : ℕ
  min_frag : ℕ
  total_frags : ℕ

def UN_HASH (h : ℕ) : ℕ :=
  if h ≤ F_MALLOC_OPTIMIZE / ROUNDTO then h * ROUNDTO
  else wrap (2 ^ (h - F_MALLOC_OPTIMIZE / ROUNDTO + F_MALLOC_OPTIMIZE_FACTOR - 1))

section Walk

variable (b : Build) (q : FmBlock)

/-- `total_frags` over `n` buckets from `r` on. -/
def fragLoop : ℕ → ℕ → ℕ → ℕ
  | 0, _, total => total
  | n + 1, r, total => fragLoop n (r + 1) (wrap (total + q.no r))

/-- `free` and `total_frags` over `n` small buckets from `r` on. -/
def smallLoop : ℕ → ℕ → ℕ × ℕ → ℕ × ℕ
  | 0, _, acc => acc
  | n + 1, r, (free, total) =>
    smallLoop n (r + 1) (wrap (free + wrap (q.no r * UN_HASH r)), wrap (total + q.no r))

/-- `free` over a list. -/
def listLoop : ℕ → ℕ → ℕ → Option ℕ
  | 0, _, _ => none
  | fuel + 1, f, free =>
    if f = 0 then some free else listLoop fuel (q.mem (nxt_free f)) (wrap (free + q.mem f))

/-- `free` and `total_frags` over `n` big buckets from `r` on. -/
def bigLoop : ℕ → ℕ → ℕ × ℕ → Option (ℕ × ℕ)
  | 0, _, acc => some acc
  | n + 1, r, (free, total) => do
    let total := wrap (total + q.no r)
    let free ← listLoop q (steps q) (q.mem (free_hash b q r)) free
    bigLoop n (r + 1) (free, total)

def counted : MemInfo :=
  { total_size := q.size
    free := wsub q.size q.real_used
    used := q.used
    real_used := q.real_used
    max_used := q.max_real_used
    min_frag := MIN_FRAG_SIZE
    total_frags := fragLoop q F_HASH_SIZE 0 0 }

/-- The report of the walk; it does not know `used` and `max_used`. -/
def computed : Option MemInfo := do
  let small := F_MALLOC_OPTIMIZE / ROUNDTO + 1
  let (free, total) ← bigLoop b q (F_HASH_SIZE - small) small (smallLoop q small 0 (0, 0))
  return {
    total_size := q.size
    free := free
    used := 0
    real_used := wsub q.size free
    max_used := 0
    min_frag := MIN_FRAG_SIZE
    total_frags := total }

def fm_info : Option MemInfo := if b.counts then some (counted q) else computed b q

end Walk

variable {b : Build} {q q0 : FmBlock} {frs : List Frag} {L : ℕ → List ℕ} {live : List ℕ} {f : Frag}

/-! ### What the walk finds -/

/-- The fragments of `n` buckets from `r` on. -/
def buckets (L : ℕ → List ℕ) (r n : ℕ) : List ℕ := (List.range' r n).flatMap L

theorem buckets_succ (L : ℕ → List ℕ) (r n : ℕ) : buckets L r (n + 1) = L r ++ buckets L (r + 1) n := by
  rw [buckets, range'_succ, flatMap_cons]
  rfl

theorem buckets_append (L : ℕ → List ℕ) (m n : ℕ) :
    buckets L 0 m ++ buckets L m n = buckets L 0 (m + n) := by
  unfold buckets
  rw [← flatMap_append]
  congr 1
  simpa using range'_append_1 (s := 0) (m := m) (n := n)

/-- **The lists hold the free fragments**, each once. -/
theorem Core.buckets_perm (hC : Core b q frs L) :
    (buckets L 0 F_HASH_SIZE).Perm ((frees frs).map Frag.addr) := by
  have hmem : ∀ h, h ∈ List.range' 0 F_HASH_SIZE ↔ h < F_HASH_SIZE := fun h => by
    rw [mem_range'_1]
    omega
  refine (perm_ext_iff_of_nodup ?_ ?_).2 fun x => ?_
  · rw [buckets, nodup_flatMap]
    refine ⟨fun h hh => hC.nodup h ((hmem h).1 hh), ?_⟩
    refine (nodup_range' : (List.range' 0 F_HASH_SIZE).Nodup).imp_of_mem fun {h k} hh hk hne x hx hx' => hne ?_
    obtain ⟨f, hf, rfl, -, rfl⟩ := (hC.mem_iff h ((hmem h).1 hh) x).1 hx
    obtain ⟨g, hg, e, -, rfl⟩ := (hC.mem_iff k ((hmem k).1 hk) _).1 hx'
    rw [hC.toBase.inj hg hf e]
  · refine (hC.tiled.nodup fun x _ => (by decide : 0 < 24).trans_le (span_pos x)).sublist ?_
    exact filter_sublist.map _
  · rw [buckets, mem_flatMap, List.mem_map]
    constructor
    · rintro ⟨h, hh, hx⟩
      obtain ⟨f, hf, rfl, hfree, -⟩ := (hC.mem_iff h ((hmem h).1 hh) x).1 hx
      exact ⟨f, mem_frees.2 ⟨hf, hfree⟩, rfl⟩
    · rintro ⟨f, hf, rfl⟩
      obtain ⟨hf, hfree⟩ := mem_frees.1 hf
      exact ⟨_, (hmem _).2 (hC.hash_lt hf), (hC.mem_iff _ (hC.hash_lt hf) _).2 ⟨f, hf, rfl, hfree, rfl⟩⟩

theorem Core.buckets_bytes (hC : Core b q frs L) :
    ((buckets L 0 F_HASH_SIZE).map q.mem).sum = bytes (frees frs) := by
  rw [(hC.buckets_perm.map q.mem).sum_eq, List.map_map, bytes]
  refine congrArg List.sum (map_congr_left fun f hf => ?_)
  exact hC.head f (mem_frees.1 hf).1

theorem small_buckets : F_MALLOC_OPTIMIZE / ROUNDTO = 2048 := by decide

theorem Core.small_size (hC : Core b q frs L) {r x : ℕ} (hr : r ≤ F_MALLOC_OPTIMIZE / ROUNDTO)
    (hx : x ∈ L r) : q.mem x = UN_HASH r := by
  have hsmall := small_buckets
  have hlt : r < F_HASH_SIZE := by
    rw [F_HASH_SIZE_eq]
    omega
  obtain ⟨f, hf, rfl, -, rfl⟩ := (hC.mem_iff r hlt x).1 hx
  have hd := hC.dvd f hf
  have hsz := hC.toBase.size_lt hf
  have hop : F_MALLOC_OPTIMIZE = 16384 := by decide
  have hfa : F_MALLOC_OPTIMIZE_FACTOR = 14 := rfl
  have hto : ROUNDTO = 8 := rfl
  rw [hC.head f hf, UN_HASH, if_pos hr]
  unfold span at hsz
  unfold GET_HASH at hr ⊢
  by_cases hs : f.size ≤ F_MALLOC_OPTIMIZE
  · rw [if_pos hs, hto]
    omega
  · rw [if_neg hs, hsmall, hfa, QMalloc.big_hash_idx_eq (by omega) (by omega)] at hr
    have h4 : 14 ≤ f.size.log2 := (Nat.le_log2 (by omega)).2 (by omega)
    omega

theorem smallLoop_spec (hC : Core b q frs L) {n r : ℕ} (hn : r + n ≤ F_MALLOC_OPTIMIZE / ROUNDTO + 1)
    (acc : ℕ × ℕ) : ((smallLoop q n r acc).1 : Word) = acc.1 + ((buckets L r n).map q.mem).sum ∧
      ((smallLoop q n r acc).2 : Word) = acc.2 + (buckets L r n).length := by
  induction n generalizing r acc with
  | zero => simp [smallLoop, buckets]
  | succ n ih =>
    obtain ⟨free, total⟩ := acc
    have hlt : r < F_HASH_SIZE := by
      have := small_buckets
      rw [F_HASH_SIZE_eq]
      omega
    have hsum : ((L r).map q.mem).sum = (L r).length * UN_HASH r := by
      rw [← (length_map q.mem : ((L r).map q.mem).length = (L r).length)]
      refine sum_eq_card_nsmul _ _ fun y hy => ?_
      obtain ⟨x, hx, rfl⟩ := List.mem_map.1 hy
      exact hC.small_size (by omega) hx
    obtain ⟨h1, h2⟩ := ih (r := r + 1) (by omega) (wrap (free + wrap (q.no r * UN_HASH r)), wrap (total + q.no r))
    rw [smallLoop, h1, h2, buckets_succ, map_append, sum_append, hsum, length_append,
      cast_wrap, cast_wrap, hC.no r hlt]
    push_cast
    rw [cast_wrap]
    push_cast
    exact ⟨by ring, by ring⟩

theorem listLoop_spec {fuel a : ℕ} {l : List ℕ} (h : CellList nxt_free prev q.mem a l)
    (h0 : ∀ x ∈ l, x ≠ 0) (hf : l.length < fuel) (free : ℕ) :
    ∃ r, listLoop q fuel (q.mem a) free = some r ∧ (r : Word) = free + (l.map q.mem).sum ∧
      (free < 2 ^ 64 → r < 2 ^ 64) := by
  induction l generalizing a fuel free with
  | nil =>
    obtain ⟨fuel, rfl⟩ := Nat.exists_eq_add_one_of_ne_zero (Nat.ne_zero_of_lt hf)
    exact ⟨free, if_pos h, by simp, id⟩
  | cons x l ih =>
    obtain ⟨fuel, rfl⟩ := Nat.exists_eq_add_one_of_ne_zero (Nat.ne_zero_of_lt hf)
    obtain ⟨h1, -, h3⟩ := h
    obtain ⟨r, hr, hsum, hlt⟩ := ih h3
      (fun y hy => h0 y (mem_cons_of_mem _ hy)) (Nat.lt_of_succ_lt_succ hf) (wrap (free + q.mem x))
    refine ⟨r, ?_, ?_, fun _ => hlt (wrap_lt _)⟩
    · rw [listLoop, h1, if_neg (h0 x mem_cons_self), hr]
    · rw [hsum, cast_wrap, map_cons, sum_cons]
      push_cast
      ring

theorem bigLoop_spec (hC : Core b q frs L) {n r : ℕ} (hn : r + n ≤ F_HASH_SIZE) (acc : ℕ × ℕ) :
    ∃ acc', bigLoop b q n r acc = some acc' ∧ (acc'.1 : Word) = acc.1 + ((buckets L r n).map q.mem).sum ∧
      (acc'.2 : Word) = acc.2 + (buckets L r n).length ∧
      (acc.1 < 2 ^ 64 → acc'.1 < 2 ^ 64) ∧ (acc.2 < 2 ^ 64 → acc'.2 < 2 ^ 64) := by
  induction n generalizing r acc with
  | zero => exact ⟨acc, rfl, by simp [buckets], by simp [buckets], id, id⟩
  | succ n ih =>
    obtain ⟨free, total⟩ := acc
    have hr : r < F_HASH_SIZE := by omega
    obtain ⟨free', hf, hsum, hlt⟩ := listLoop_spec (hC.list r hr)
      (fun x hx => hC.toFiled.ne_zero hC.toBase hr hx)
      ((hC.toFiled.length_le hr).trans_lt hC.toBase.length_lt) free
    obtain ⟨acc', ha, h1, h2, h3, h4⟩ := ih (r := r + 1) (by omega) (free', wrap (total + q.no r))
    refine ⟨acc', ?_, ?_, ?_, fun h => h3 (hlt h), fun _ => h4 (wrap_lt _)⟩
    · rw [bigLoop]
      simp only [hf, bind_eq_bind, bind_some]
      exact ha
    · rw [h1, buckets_succ, map_append, sum_append, hsum]
      push_cast
      ring
    · rw [h2, buckets_succ, length_append, cast_wrap, hC.no r hr]
      push_cast
      ring

theorem frags_bytes {a e : ℕ} (h : Frags b a frs e) : a + bytes frs ≤ e := by
  induction frs generalizing a with
  | nil => exact h.le
  | cons f frs ih =>
    have := ih h.2
    rw [QMalloc.bytes_cons]
    unfold span at this
    omega

/-- **The walk** finds the bytes and the number of the free fragments. -/
theorem computed_spec (hC : Core b q frs L) : computed b q = some
    { total_size := q.size
      free := bytes (frees frs)
      used := 0
      real_used := wsub q.size (bytes (frees frs))
      max_used := 0
      min_frag := MIN_FRAG_SIZE
      total_frags := (frees frs).length } := by
  have hsmall := small_buckets
  have hsize := F_HASH_SIZE_eq
  obtain ⟨s1, s2⟩ := smallLoop_spec hC (r := 0) (n := F_MALLOC_OPTIMIZE / ROUNDTO + 1) (by omega) (0, 0)
  obtain ⟨⟨free, total⟩, hb, b1, b2, b3, b4⟩ := bigLoop_spec hC (r := F_MALLOC_OPTIMIZE / ROUNDTO + 1)
    (n := F_HASH_SIZE - (F_MALLOC_OPTIMIZE / ROUNDTO + 1)) (by omega)
    (smallLoop q (F_MALLOC_OPTIMIZE / ROUNDTO + 1) 0 (0, 0))
  have hall := buckets_append L (F_MALLOC_OPTIMIZE / ROUNDTO + 1) (F_HASH_SIZE - (F_MALLOC_OPTIMIZE / ROUNDTO + 1))
  rw [Nat.add_sub_cancel' (by omega)] at hall
  have hlt : ∀ n r (acc : ℕ × ℕ), acc.1 < 2 ^ 64 → acc.2 < 2 ^ 64 →
      (smallLoop q n r acc).1 < 2 ^ 64 ∧ (smallLoop q n r acc).2 < 2 ^ 64 := by
    intro n
    induction n with
    | zero => exact fun r acc h1 h2 => ⟨h1, h2⟩
    | succ n ih => exact fun r acc h1 h2 => ih _ _ (wrap_lt _) (wrap_lt _)
  obtain ⟨l1, l2⟩ := hlt (F_MALLOC_OPTIMIZE / ROUNDTO + 1) 0 (0, 0) (by decide) (by decide)
  have htop := hC.top
  have hbytes : bytes (frees frs) < 2 ^ 64 := by
    have h1 := QMalloc.bytes_split frs
    have h2 := frags_bytes hC.tiled
    omega
  have hlen : (frees frs).length < 2 ^ 64 := by
    have h1 : (frees frs).length ≤ frs.length := length_filter_le _ _
    have h2 := hC.toBase.length_lt
    unfold steps at h2
    omega
  have hfree : free = bytes (frees frs) := by
    refine QMalloc.word_inj (b3 l1) hbytes ?_
    rw [b1, s1, ← hC.buckets_bytes, ← hall, map_append, sum_append]
    push_cast
    ring
  have htotal : total = (frees frs).length := by
    refine QMalloc.word_inj (b4 l2) hlen ?_
    rw [b2, s2, ← (length_map Frag.addr : ((frees frs).map Frag.addr).length = (frees frs).length), ← hC.buckets_perm.length_eq, ← hall,
      length_append]
    push_cast
    ring
  unfold computed
  simp only [hb, bind_eq_bind, bind_some, hfree, htotal]
  rfl

/-! ### What `fm_info` reports -/

/-- What `fm_info` must report: the free memory, by counters that did not underflow, and what the walk
reports.  `used` and `max_used` are no figures of the walk. -/
structure Reports (b : Build) (q : FmBlock) (info : MemInfo) : Prop where
  free : info.free = bytes (frees (fragments b q))
  no_underflow : b.counts = true → q.used ≤ q.size ∧ q.used ≤ q.real_used
  same : ∃ walk, computed b q = some walk ∧ info.free = walk.free ∧ info.real_used = walk.real_used ∧
    info.total_frags = walk.total_frags

/-- **The accounting.**  In every state that a run reaches, `used` and the free bytes are the size of the
block, and `real_used` is `used` with `init_overhead` and the headers once more; so `fm_info` reports what
it must if and only if the build keeps no counters. -/
theorem fm_info_reports {mem : Mem} {region : Region}
    (hi : fm_malloc_init b mem region = some (some q0)) (hr : Reachable b q0 q live) :
    (b.counts = true → q.used + bytes (frees (fragments b q)) = q.size ∧ (q.size < 2 ^ 63 → q.real_used =
      q.used + init_overhead b + FRAG_OVERHEAD b * ((fragments b q).length - 1))) ∧
    ((∃ info, fm_info b q = some info ∧ Reports b q info) ↔ b.counts = false) := by
  obtain ⟨f, L0, hI0, hf, -⟩ := init_inv hi
  obtain ⟨frs, L, hI, -⟩ := reachable_inv hI0 hf hr
  have hfrs := hI.fragments
  have hwalk := computed_spec hI.toCore
  rw [← hfrs] at hwalk
  refine ⟨fun hc => ?_, ?_⟩
  · have ha := reachable_account hc hi hr
    refine ⟨ha.used_eq, fun hsize => ?_⟩
    have h1 := ha.used_eq
    have h2 := ha.overhead_le
    exact QMalloc.word_inj ha.real_lt (by omega) ha.real_eq
  · cases hc : b.counts with
    | true =>
      refine iff_of_false ?_ (by decide)
      rintro ⟨info, hinfo, hrep⟩
      rw [fm_info, if_pos hc] at hinfo
      obtain rfl := some.inj hinfo
      exact (reachable_account hc hi hr).free_ne hrep.free
    | false =>
      refine iff_of_true ?_ rfl
      rw [fm_info, hc, if_neg (by decide), hwalk]
      refine ⟨_, rfl, rfl, ?_, _, hwalk, rfl, rfl, rfl⟩
      rw [hc]
      exact fun h => nomatch h

theorem fm_info_reports_fresh : ∃ q0 info,
    fm_malloc_init plainBuild (fun _ => 0) arena = some (some q0) ∧ fm_info plainBuild q0 = some info ∧
      info.free = bytes (frees (fragments plainBuild q0)) := by
  obtain ⟨q0, h0⟩ : ∃ q0, fm_malloc_init plainBuild (fun _ => 0) arena = some (some q0) :=
    init_large (fun _ => 0) (by decide)
  obtain ⟨info, hinfo, hrep⟩ := (fm_info_reports h0 .init).2.2 rfl
  exact ⟨q0, info, h0, hinfo, hrep.free⟩

def statBuild : Build := ⟨false, true, 0⟩

/-- In a fresh arena of four mebibytes, `init_overhead` is missing from the free memory. -/
theorem fm_info_misses_overhead : ∃ q0 info,
    fm_malloc_init statBuild (fun _ => 0) arena = some (some q0) ∧ fm_info statBuild q0 = some info ∧
      info.free = 4126960 ∧ bytes (frees (fragments statBuild q0)) = 4160632 := by
  have hrun : ((fm_malloc_init statBuild (fun _ => 0) arena).bind fun o => o.bind fun q0 =>
      (fm_info statBuild q0).map fun info => (info.free, bytes (frees (fragments statBuild q0)))) =
      some (4126960, 4160632) := by
    decide +kernel
  simp only [bind_eq_some_iff, map_eq_some_iff, Prod.mk.injEq] at hrun
  obtain ⟨o, h0, q0, rfl, info, h1, h2, h3⟩ := hrun
  exact ⟨q0, info, h0, h1, h2, h3⟩

end OpenSips.FMalloc
