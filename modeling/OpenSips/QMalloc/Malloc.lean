import OpenSips.QMalloc.Account

/-!
# OpenSips.QMalloc.Malloc — `qm_find_free` and `qm_malloc`

The search is complete: since `GET_HASH` is monotone, a fragment that is large enough is in the
bucket of the request or above it.  The fragment found leaves its list, is split, and is booked.
-/

namespace OpenSips.QMalloc

open Lib List Option

variable {b : Build} {q q' q'' : QmBlock} {frs frs' frs'' : List Frag} {L : ℕ → List ℕ}

/-- The invariant of a block: besides, the `is_free` word of a live fragment is 0. -/
structure Inv (b : Build) (q : QmBlock) (frs : List Frag) (L : ℕ → List ℕ) : Prop extends
  Core b q frs L where
  marked : ∀ f ∈ frs, f.free = false → q.mem (f.addr + 8) = 0

theorem Core.recount (hC : Core b q frs L) (hm : q'.mem = q.mem) (hq : q'.qm = q.qm)
    (hfi : q'.first_frag = q.first_frag) (hla : q'.last_frag_end = q.last_frag_end)
    (hno : q'.no = q.no) : Core b q' frs L := by
  obtain ⟨mem, qm, size, used, real, max, first, last, no⟩ := q
  obtain ⟨mem', qm', size', used', real', max', first', last', no'⟩ := q'
  dsimp only at hm hq hfi hla hno
  subst hm hq hfi hla hno
  obtain ⟨⟨h1, h2, h3, h4, h5⟩, ⟨h6, h7, h8, h9, h10⟩⟩ := hC
  exact ⟨⟨h1, h2, h3, fun f hf => ⟨(h4 f hf).head, (h4 f hf).foot, (h4 f hf).dvd, (h4 f hf).checks⟩,
    h5⟩, ⟨h6, h7, h8, h9, h10⟩⟩

theorem Inv.recount (hI : Inv b q frs L) (hm : q'.mem = q.mem) (hq : q'.qm = q.qm)
    (hfi : q'.first_frag = q.first_frag) (hla : q'.last_frag_end = q.last_frag_end)
    (hno : q'.no = q.no) : Inv b q' frs L :=
  ⟨hI.toCore.recount hm hq hfi hla hno, fun f hf hu => by rw [hm]; exact hI.marked f hf hu⟩

theorem Frozen.marked {G : List Frag} (h : Frozen b q q' G)
    (hm : ∀ f ∈ G, f.free = false → q.mem (f.addr + 8) = 0) :
    ∀ f ∈ G, f.free = false → q'.mem (f.addr + 8) = 0 := fun f hf hu => by
  have := span_pos (b := b) f.size
  rw [h f hf hu 8 (by omega), hm f hf hu]

/-- What an operation does to the live fragments: `gone` go, `made` come, no other is written. -/
structure Effect (b : Build) (q : QmBlock) (frs : List Frag) (q' : QmBlock) (frs' : List Frag)
    (gone made : List Frag) : Prop where
  arena : SameArena q q'
  rest : ∃ R, (lives frs).Perm (gone ++ R) ∧ (lives frs').Perm (made ++ R) ∧ Frozen b q q' R

theorem SplitPost.real_cast {f f' : Frag} {T G : List Frag} {new : ℕ} (h : SplitPost b q q' f f' T G new) :
    (q'.real_used : Word) = q.real_used + FRAG_OVERHEAD b * T.length := by
  rw [h.real]
  rcases h.cut.rest with ⟨rfl, -⟩ | ⟨-, -, rfl⟩
  · simp
  · rw [if_neg (by simp), cast_wrap]
    push_cast
    simp

theorem SplitPost.real_lt {f f' : Frag} {T G : List Frag} {new : ℕ}
    (h : SplitPost b q q' f f' T G new) (hl : q.real_used < 2 ^ 64) : q'.real_used < 2 ^ 64 := by
  rw [h.real]
  split_ifs
  · exact hl
  · exact wrap_lt _

/-! ### Checks of a debug build -/

variable {A B : List Frag} {f : Frag}

theorem tiled_before {a e : ℕ} (h : Tiled b a (A ++ f :: B) e) :
    (A = [] ∧ f.addr = a) ∨ ∃ A' g, A = A' ++ [g] ∧ g.addr + span b g.size = f.addr := by
  rcases eq_nil_or_concat A with rfl | ⟨A', g, rfl⟩
  · exact .inl ⟨rfl, h.1⟩
  · refine .inr ⟨A', g, by simp, ?_⟩
    rw [concat_eq_append, append_assoc] at h
    obtain ⟨m, -, h2, h3, -⟩ := tiled_append.1 h
    rw [h2, ← h3]

/-- The fragments of a block pass `qm_debug_frag`. -/
theorem Base.debug (hB : Base b q frs) (hf : f ∈ frs) : qm_debug_frag b q f.addr = some () := by
  unfold qm_debug_frag
  by_cases hb : b.dbg = true
  · obtain ⟨A, B, rfl⟩ := append_of_mem hf
    obtain ⟨i1, -, -, i4⟩ := hB.intact f hf
    obtain ⟨c1, c2, c3⟩ := i4 hb
    have e1 : FRAG_END b q f.addr = f.addr + (sizeof_frag b + f.size) := by
      rw [FRAG_END, i1]
      omega
    rw [if_pos hb]
    refine if_pos ⟨decide_eq_true c1, ?_, fun hgt => ?_⟩
    · rw [endOk, e1, c2, add_assoc, c3]
      decide
    · rcases tiled_before hB.tiled with ⟨-, h⟩ | ⟨A', g, rfl, h⟩
      · omega
      · obtain ⟨-, k2, k3⟩ := (hB.intact g (by simp)).checks hb
        have e2 : PREV_FRAG_END b f.addr = g.addr + (sizeof_frag b + g.size) := by
          rw [PREV_FRAG_END, ← h]
          unfold span
          omega
        rw [endOk, e2, k2, add_assoc, k3]
        decide
  · rw [if_neg hb]

/-! ### The search -/

theorem findLoop_spec (hC : Core b q frs L) (size : ℕ) {n hash : ℕ}
    (hn : hash + n = QM_HASH_SIZE b) : ∃ r, findLoop b q size n hash = some r ∧
      (r = none → ∀ h, hash ≤ h → h < QM_HASH_SIZE b → ∀ x ∈ L h, q.mem x < size) ∧
      ∀ x h, r = some (x, h) → h < QM_HASH_SIZE b ∧ x ∈ L h ∧ size ≤ q.mem x := by
  induction n generalizing hash with
  | zero => exact ⟨none, rfl, fun _ h h1 h2 => by omega, fun x h e => by cases e⟩
  | succ n ih =>
    have hH : hash < QM_HASH_SIZE b := by omega
    obtain ⟨r, hr, h1, h2⟩ := ih (by omega : hash + 1 + n = _)
    have hring := hC.ring hash hH
    have hhead : nxt_free q (free_hash b q hash) = (L hash).headD (free_hash b q hash) := by
      have hmid : Chain (nxt_free q) (prev_free b q) (free_hash b q hash) ([] ++ L hash)
          (free_hash b q hash) := hring
      exact hmid.mid.1
    have hbk : bucketLoop q (free_hash b q hash) size (steps q) (nxt_free q (free_hash b q hash)) =
        some ((L hash).find? fun x => decide (size ≤ q.mem x)) := by
      rw [hhead]
      exact bucketLoop_spec hring (hC.head_notMem hH hH) (hC.length_lt hH)
    rw [findLoop]
    simp only [hbk, bind_eq_bind, bind_some]
    cases hfind : (L hash).find? fun x => decide (size ≤ q.mem x) with
    | none =>
      refine ⟨r, hr, fun hrn h hle hlt x hx => ?_, h2⟩
      rcases lt_or_ge hash h with hlt' | hge
      · exact h1 hrn h hlt' hlt x hx
      · obtain rfl : h = hash := by omega
        have := find?_eq_none.1 hfind x hx
        simpa using this
    | some y =>
      refine ⟨some (y, hash), rfl, fun e => (some_ne_none _ e).elim, ?_⟩
      rintro x h ⟨⟩
      exact ⟨hH, mem_of_find?_eq_some hfind, by simpa using find?_some hfind⟩

/-- **`qm_find_free` finds a fragment unless there is none.** -/
theorem find_free_spec (hC : Core b q frs L) {size : ℕ} (hs : size < 2 ^ 64) :
    (qm_find_free b q size = some none ∧ ∀ f ∈ frees frs, f.size < size) ∨
    ∃ A f B, frs = A ++ f :: B ∧ f.free = true ∧ size ≤ f.size ∧
      qm_find_free b q size = some (some (f.addr, GET_HASH b f.size)) := by
  obtain ⟨r, hr, h1, h2⟩ := findLoop_spec hC size (Nat.add_sub_cancel' (GET_HASH_lt b hs).le)
  rw [qm_find_free, hr]
  cases r with
  | none =>
    refine .inl ⟨rfl, fun f hf => ?_⟩
    obtain ⟨hf, hfree⟩ := mem_frees.1 hf
    by_contra hge
    have hlt : f.size < 2 ^ 64 := by have := hC.toBase.size_lt hf; omega
    have hH := GET_HASH_lt b hlt
    have := h1 rfl _ (GET_HASH_mono b (by omega) hlt) hH f.addr ((hC.mem_iff _ hH _).2 ⟨f, hf, rfl, hfree, rfl⟩)
    rw [(hC.intact f hf).head] at this
    omega
  | some r =>
    obtain ⟨x, h⟩ := r
    obtain ⟨hH, hx, hle⟩ := h2 x h rfl
    obtain ⟨f, hf, rfl, hfree, rfl⟩ := (hC.mem_iff h hH x).1 hx
    obtain ⟨A, B, rfl⟩ := append_of_mem hf
    rw [(hC.intact f hf).head] at hle
    exact .inr ⟨A, f, B, rfl, hfree, hle, rfl⟩

/-! ### Allocation -/

/-- The block after `qm_malloc` took a fragment off its list and marked it as used. -/
def taken (b : Build) (q : QmBlock) (f hash : ℕ) : QmBlock :=
  decNo ((qm_detach_free b q f).store (f + 8) 0) hash

/-- The accounting of `qm_malloc`. -/
def charged (q : QmBlock) (f : ℕ) : QmBlock :=
  { q with
    real_used := wrap (q.real_used + q.mem f)
    used := wrap (q.used + q.mem f)
    max_real_used := max q.max_real_used (wrap (q.real_used + q.mem f)) }

theorem store_self {a v : ℕ} (h : q.mem a = v) : q.store a v = q := by
  rw [QmBlock.store, ← h, Function.update_eq_self]

theorem Core.store_mark (hC : Core b q (A ++ f :: B) L) (hf : f.free = false) (v : ℕ) :
    Core b (q.store (f.addr + 8) v) (A ++ f :: B) L ∧ Frozen b q (q.store (f.addr + 8) v) (A ++ B) := by
  obtain ⟨o1, o2, o3, o4, -, o6⟩ := offsets b
  obtain ⟨i1, i2, i3, i4⟩ := hC.intact f (by simp)
  refine hC.rewrite hf ⟨?_, ?_, i3, fun hb => ?_⟩ (fun a ha => ?_) rfl rfl rfl rfl
  · rw [store_mem, if_neg (by omega), i1]
  · rw [store_mem, if_neg (by omega), i2]
  · obtain ⟨c1, c2, c3⟩ := i4 hb
    have := o6 hb
    exact ⟨by rw [store_mem, if_neg (by omega), c1], by rw [store_mem, if_neg (by omega), c2],
      by rw [store_mem, if_neg (by omega), c3]⟩
  · have := span_pos (b := b) f.size
    rw [store_mem, if_neg (by omega)]

theorem taken_spec (hC : Core b q (A ++ f :: B) L) (hf : f.free = true) :
    ∃ L', Core b (taken b q f.addr (GET_HASH b f.size)) (A ++ { f with free := false } :: B) L' ∧
      Frozen b q (taken b q f.addr (GET_HASH b f.size)) (A ++ B) ∧
      (taken b q f.addr (GET_HASH b f.size)).mem (f.addr + 8) = 0 ∧
      SameCtl q (taken b q f.addr (GET_HASH b f.size)) := by
  obtain ⟨hC1, c, hm⟩ := detach_spec hC hf
  have hfr := (hC.toBase.frozen hm).mono fun g hg => mem_middle.2 (.inr hg)
  obtain ⟨hC2, hfr2⟩ := hC1.store_mark rfl 0
  refine ⟨_, hC2, hfr.trans hfr2, ?_, ⟨c.1, c.2, c.3, c.4, c.5, c.6, c.7⟩⟩
  rw [taken, decNo, store_mem, if_pos rfl]

theorem qm_malloc_found {size f hash : ℕ} {ok : Bool} (hlt : ¬ ROUNDUP b size > wsub q.size q.real_used)
    (hr : qm_find_free b q (ROUNDUP b size) = some (some (f, hash)))
    (hd : qm_debug_frag b q f = some ())
    (hs : split_frag b (taken b q f hash) f (ROUNDUP b size) = some (q', ok))
    (hc : b.dbg = true → q'.mem (f + 40) = ST_CHECK_PATTERN) :
    qm_malloc b q size = some (charged q' f, f + sizeof_frag b) := by
  have hmark : (if b.dbg = true then (charged q' f).store (f + 40) ST_CHECK_PATTERN
      else charged q' f) = charged q' f := by
    split_ifs with hb
    · exact store_self (hc hb)
    · rfl
  unfold qm_malloc
  rw [if_neg hlt, hr]
  simp only [bind_eq_bind, bind_some, hd]
  rw [show decNo ((qm_detach_free b q f).store (f + 8) 0) hash = taken b q f hash from rfl, hs]
  simp only [bind_some]
  rw [show ∀ q'' : QmBlock, { q'' with
    real_used := wrap (q''.real_used + q''.mem f), used := wrap (q''.used + q''.mem f)
    max_real_used := max q''.max_real_used (wrap (q''.real_used + q''.mem f)) } = charged q'' f from
      fun _ => rfl, hmark]
  rfl

theorem charged_booked {A B T : List Frag} {f f' : Frag} (hf : f.free = true)
    (hq : q'.mem f'.addr = f'.size) (hlive : f'.free = false) (hfree : ∀ g ∈ T, g.free = true)
    (hu : q'.used = q.used) (hr : (q'.real_used : Word) = q.real_used + FRAG_OVERHEAD b * T.length) :
    Booked b q (A ++ f :: B) (charged q' f'.addr) (A ++ f' :: (T ++ B)) := by
  have h1 : bytes (lives (A ++ f :: B)) = bytes (lives A) + bytes (lives B) := by
    rw [lives_append, lives_cons_free hf, bytes_append]
  have h2 : bytes (lives (A ++ f' :: (T ++ B))) = bytes (lives A) + (f'.size + bytes (lives B)) := by
    rw [lives_append, lives_cons hlive, lives_append, lives_free hfree, bytes_append, bytes_cons, nil_append]
  refine ⟨?_, ?_, fun _ => wrap_lt _, fun _ => wrap_lt _⟩
  · rw [h1, h2, charged, cast_wrap, hq, hu]
    push_cast
    ring
  · rw [h1, h2, charged, cast_wrap, hq, Nat.cast_add, hr]
    simp only [length_append, length_cons]
    push_cast
    ring

/-- **`qm_malloc`** either finds nothing or makes one live fragment. -/
theorem malloc_spec (hI : Inv b q frs L) (size : ℕ) :
    (qm_malloc b q size = some (q, 0) ∧ (wsub q.size q.real_used < ROUNDUP b size ∨
      ∀ f ∈ frees frs, f.size < ROUNDUP b size)) ∨
    ∃ q' frs' L' f', qm_malloc b q size = some (q', f'.addr + sizeof_frag b) ∧ Inv b q' frs' L' ∧
      Effect b q frs q' frs' [] [f'] ∧ Booked b q frs q' frs' ∧ ROUNDUP b size ≤ f'.size := by
  by_cases hlt : ROUNDUP b size > wsub q.size q.real_used
  · refine .inl ⟨?_, .inl hlt⟩
    unfold qm_malloc
    exact if_pos hlt
  rcases find_free_spec hI.toCore (ROUNDUP_lt b size) with ⟨hr, hno⟩ | ⟨A, f, B, rfl, hf, hle, hr⟩
  · refine .inl ⟨?_, .inr hno⟩
    unfold qm_malloc
    rw [if_neg hlt, hr]
    rfl
  obtain ⟨L1, hC1, hfr1, hm1, c1⟩ := taken_spec hI.toCore hf
  obtain ⟨q2, f', T, L2, hq2, hC2, hp⟩ :=
    split_spec hC1 rfl (ROUNDTO_dvd_ROUNDUP b size) hle
  have haddr : f'.addr = f.addr := hp.cut.addr
  have hi' := hC2.intact f' (by simp)
  have hm := qm_malloc_found hlt hr (hI.toBase.debug (by simp)) hq2 fun hb => by
    rw [← haddr]
    exact (hi'.checks hb).1
  rw [← haddr] at hm
  have hfr : Frozen b q (charged q2 f'.addr) (A ++ B) := hfr1.trans hp.frozen
  refine .inr ⟨_, _, L2, f', hm, ⟨hC2.recount rfl rfl rfl rfl rfl, fun g hg hu => ?_⟩,
    ⟨c1.arena.trans ⟨hp.arena.1, hp.arena.2, hp.arena.3, hp.arena.4⟩, lives (A ++ B), ?_, ?_, ?_⟩,
    charged_booked hf hi'.head hp.cut.live hp.cut.free (hp.used.trans c1.used) ?_, hp.cut.le⟩
  · show q2.mem (g.addr + 8) = 0
    obtain ⟨o1, -⟩ := offsets b
    rcases mem_middle.1 hg with rfl | hg
    · rw [hp.data 8 (by omega) (by omega), haddr, hm1]
    · have hAB : g ∈ A ++ B := by
        simp only [mem_append] at hg ⊢
        rcases hg with hg | hg | hg
        · exact .inl hg
        · rw [hp.cut.free g hg] at hu
          cases hu
        · exact .inr hg
      exact hfr.marked (fun g hg => hI.marked g (mem_middle.2 (.inr hg))) g hAB hu
  · rw [lives_append, lives_cons_free hf, ← lives_append]
    exact List.Perm.refl _
  · rw [lives_append, lives_cons hp.cut.live, lives_append, lives_free hp.cut.free, lives_append]
    exact perm_middle
  · exact hfr.mono fun g hg => (mem_lives.1 hg).1
  · rw [hp.real_cast, c1.real_used]

end OpenSips.QMalloc
