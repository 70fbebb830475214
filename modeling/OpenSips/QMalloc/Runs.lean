import OpenSips.QMalloc.Init
import OpenSips.Lib.Machine

/-!
# OpenSips.QMalloc.Runs — what holds after every sequence of calls

A run starts from `qm_malloc_init` and calls `qm_malloc`, `qm_free` and `qm_realloc`; beside it the
client keeps the list of the pointers it owns.  The structure of the arena holds in every run.  The
accounting holds in the runs that never shrink: `realloc_shrink` takes the failure of `split_frag`
for its success.
-/

namespace OpenSips.QMalloc

open Lib List Option

inductive Op where
  | malloc (size : ℕ)
  | free (p : ℕ)
  | realloc (p size : ℕ)

section Run

variable (b : Build)

def exec (q : QmBlock) : Op → Option (QmBlock × ℕ)
  | .malloc size => qm_malloc b q size
  | .free p => (qm_free b q p).map fun q => (q, 0)
  | .realloc p size => qm_realloc b q p size

def Allowed (live : List ℕ) : Op → Prop
  | .malloc _ => True
  | .free p => p ∈ live
  | .realloc p _ => p = 0 ∨ p ∈ live

/-- The pointers a client owns after a call that returned `r`. -/
def owned (live : List ℕ) : Op → ℕ → List ℕ
  | .malloc _, r => if r = 0 then live else r :: live
  | .free p, _ => live.erase p
  | .realloc p size, r =>
    if r = 0 then if size = 0 then live.erase p else live else r :: live.erase p

/-- A `qm_realloc` to less than the fragment holds. -/
def Shrinks (q : QmBlock) : Op → Prop
  | .realloc p size => p ≠ 0 ∧ size ≠ 0 ∧ ROUNDUP b size < q.mem (p - sizeof_frag b)
  | _ => False

/-- The blocks that runs from `q0` reach, with the pointers owned. -/
abbrev Reachable (q0 : QmBlock) : QmBlock → List ℕ → Prop :=
  Run (exec b) (fun _ live op => Allowed live op) (fun _ live op r => owned live op r) (q0, [])

abbrev Growing (q0 : QmBlock) : QmBlock → List ℕ → Prop :=
  Run (exec b) (fun q live op => Allowed live op ∧ ¬ Shrinks b q op)
    (fun _ live op r => owned live op r) (q0, [])

/-- The pointers of the live fragments. -/
def pointers (frs : List Frag) : List ℕ := (lives frs).map fun f => f.addr + sizeof_frag b

/-- **A well-formed arena**: the fragments tile it, and exactly those the client does not own are
on a list, which is the one of their size. -/
structure WellFormed (q : QmBlock) (live : List ℕ) (frs : List Frag) (L : ℕ → List ℕ) : Prop where
  tiled : Tiled b q.first_frag frs (q.last_frag_end + sizeof_frag_end b)
  sizes : ∀ f ∈ frs, q.mem f.addr = f.size ∧ q.mem (FRAG_END b q f.addr + end_size b) = q.mem f.addr
  live_iff : ∀ f ∈ frs, f.free = false ↔ f.addr + sizeof_frag b ∈ live
  owned : ∀ p ∈ live, ∃ f ∈ frs, p = f.addr + sizeof_frag b
  nodup : live.Nodup
  on_list : ∀ f ∈ frs, f.addr + sizeof_frag b ∉ live → ∀ h < QM_HASH_SIZE b,
    f.addr ∈ L h ↔ h = GET_HASH b f.size
  off_list : ∀ f ∈ frs, f.addr + sizeof_frag b ∈ live → ∀ h < QM_HASH_SIZE b, f.addr ∉ L h
  hash_lt : ∀ f ∈ frs, GET_HASH b f.size < QM_HASH_SIZE b
  list : ∀ h < QM_HASH_SIZE b, Ring (nxt_free q) (prev_free b q) (free_hash b q h) (L h)
  once : ∀ h < QM_HASH_SIZE b, (L h).Nodup ∧ ∀ x ∈ L h, ∃ f ∈ frs, x = f.addr
  sorted : ∀ h < QM_HASH_SIZE b, (L h).Pairwise fun x y => q.mem x ≤ q.mem y
  no : ∀ h < QM_HASH_SIZE b, q.no h = (L h).length
  apart : frs.Pairwise fun f g => f.addr + span b f.size ≤ g.addr
  above : ∀ f ∈ frs, q.qm + sizeof_block b ≤ f.addr

/-- **The books are right**: `used` and `size - real_used` are what the fragments hold. -/
def Balanced (q : QmBlock) (live : List ℕ) : Prop :=
  ∃ frs L, WellFormed b q live frs L ∧ q.used = bytes (lives frs) ∧
    wsub q.size q.real_used = bytes (frees frs)

end Run

variable {b : Build} {q q' q0 : QmBlock} {frs frs' : List Frag} {L : ℕ → List ℕ} {live : List ℕ}

theorem ptr_ne_zero (f : Frag) : f.addr + sizeof_frag b ≠ 0 := by
  have := (offsets b).1
  omega

theorem owned_malloc {p : ℕ} (hp : p ≠ 0) (size : ℕ) : owned live (.malloc size) p = p :: live := by
  rw [owned, if_neg hp]

theorem mem_pointers {p : ℕ} : p ∈ pointers b frs ↔ ∃ f ∈ frs, f.free = false ∧ f.addr + sizeof_frag b = p := by
  simp only [pointers, List.mem_map, mem_lives, and_assoc]

theorem pointers_perm {R : List Frag} (h : (lives frs).Perm R) :
    (pointers b frs).Perm (R.map fun f => f.addr + sizeof_frag b) := h.map _

theorem Inv.wellFormed (hI : Inv b q frs L) (hp : (pointers b frs).Perm live) :
    WellFormed b q live frs L := by
  have hiff : ∀ f ∈ frs, f.free = false ↔ f.addr + sizeof_frag b ∈ live := by
    intro f hf
    rw [← hp.mem_iff, mem_pointers]
    constructor
    · intro hu
      exact ⟨f, hf, hu, rfl⟩
    · rintro ⟨g, hg, hu, e⟩
      rwa [← tiled_inj hI.tiled hg hf (by omega)]
  have hfree : ∀ f ∈ frs, f.addr + sizeof_frag b ∉ live → f.free = true := by
    intro f hf hn
    by_contra h
    exact hn ((hiff f hf).1 (by simpa using h))
  have hH : ∀ f ∈ frs, GET_HASH b f.size < QM_HASH_SIZE b := fun f hf =>
    GET_HASH_lt b (by have := hI.toBase.size_lt hf; omega)
  refine ⟨hI.tiled, fun f hf => ?_, hiff, fun p hpl => ?_, ?_, fun f hf hn h hh => ?_,
    fun f hf hl h hh hx => ?_, hH, hI.ring, fun h hh => ⟨hI.nodup h hh, fun x hx => ?_⟩, hI.sorted,
    hI.no, tiled_pairwise hI.tiled, fun f hf => ?_⟩
  · obtain ⟨i1, i2, -, -⟩ := hI.intact f hf
    refine ⟨i1, ?_⟩
    rw [FRAG_END, i1, ← i2]
    congr 1
    omega
  · obtain ⟨f, hf, -, e⟩ := mem_pointers.1 (hp.symm.subset hpl)
    exact ⟨f, hf, e.symm⟩
  · rw [← hp.nodup_iff]
    refine Nodup.map_on (fun f hf g hg e => ?_) (lives_nodup hI.tiled)
    exact tiled_inj hI.tiled (mem_lives.1 hf).1 (mem_lives.1 hg).1 (by omega)
  · rw [hI.mem_iff h hh]
    constructor
    · rintro ⟨g, hg, e, -, rfl⟩
      rw [tiled_inj hI.tiled hg hf e]
    · rintro rfl
      exact ⟨f, hf, rfl, hfree f hf hn, rfl⟩
  · obtain ⟨g, hg, e, hu, -⟩ := (hI.mem_iff h hh _).1 hx
    rw [tiled_inj hI.tiled hg hf e, (hiff f hf).2 hl] at hu
    cases hu
  · obtain ⟨f, hf, e, -⟩ := (hI.mem_iff h hh x).1 hx
    exact ⟨f, hf, e.symm⟩
  · have h1 := (tiled_mem hI.tiled hf).1
    have h2 := hI.ctl
    rw [free_hash, add_assoc] at h2
    exact h2.trans h1

theorem tiled_unique {fs gs : List Frag} {a e : ℕ} (h : Tiled b a fs e) (h' : Tiled b a gs e)
    (hs : ∀ f ∈ fs, q.mem f.addr = f.size ∧ (f.free = false ↔ f.addr + sizeof_frag b ∈ live))
    (hs' : ∀ f ∈ gs, q.mem f.addr = f.size ∧ (f.free = false ↔ f.addr + sizeof_frag b ∈ live)) :
    fs = gs := by
  induction fs generalizing a gs with
  | nil =>
    cases gs with
    | nil => rfl
    | cons g gs =>
      have h1 : a = e := h
      have h2 := (tiled_mem h' (mem_cons_self ..)).2
      have h3 := span_pos (b := b) g.size
      have h4 : g.addr = a := h'.1
      omega
  | cons f fs ih =>
    cases gs with
    | nil =>
      have h1 : a = e := h'
      have h2 := (tiled_mem h (mem_cons_self ..)).2
      have h3 := span_pos (b := b) f.size
      have h4 : f.addr = a := h.1
      omega
    | cons g gs =>
      obtain ⟨h1, h2⟩ := h
      obtain ⟨h3, h4⟩ := h'
      obtain ⟨m1, l1⟩ := hs f (mem_cons_self ..)
      obtain ⟨m2, l2⟩ := hs' g (mem_cons_self ..)
      have haddr : f.addr = g.addr := h1.trans h3.symm
      have hsize : f.size = g.size := by rw [← m1, ← m2, haddr]
      have hfree : f.free = g.free := by
        rw [haddr, ← l2] at l1
        cases hf : f.free <;> cases hg : g.free <;> simp_all
      have hfg : f = g := by
        cases f
        cases g
        simp_all
      rw [hfg, ih h2 (by rwa [hsize]) (fun x hx => hs x (mem_cons_of_mem _ hx))
        fun x hx => hs' x (mem_cons_of_mem _ hx)]

theorem WellFormed.unique {L' : ℕ → List ℕ} (h : WellFormed b q live frs L)
    (h' : WellFormed b q live frs' L') : frs = frs' :=
  tiled_unique h.tiled h'.tiled (fun f hf => ⟨(h.sizes f hf).1, h.live_iff f hf⟩)
    fun f hf => ⟨(h'.sizes f hf).1, h'.live_iff f hf⟩

theorem Inv.balanced (hI : Inv b q frs L) (hp : (pointers b frs).Perm live)
    (ha : Account b q frs) : Balanced b q live :=
  ⟨frs, L, hI.wellFormed hp, ha.used_eq hI.toBase, ha.avail hI.toBase⟩

/-! ### One call -/

theorem pointers_replace {R made : List Frag} {f : Frag}
    (h : (lives frs).Perm ([f] ++ R)) (h' : (lives frs').Perm (made ++ R))
    (hp : (pointers b frs).Perm live) :
    (pointers b frs').Perm ((made.map fun f => f.addr + sizeof_frag b) ++
      live.erase (f.addr + sizeof_frag b)) := by
  have h1 : (live.erase (f.addr + sizeof_frag b)).Perm (R.map fun f => f.addr + sizeof_frag b) := by
    have := (hp.symm.trans (pointers_perm h)).erase (f.addr + sizeof_frag b)
    rwa [singleton_append, map_cons, erase_cons_head] at this
  have h2 := pointers_perm (b := b) h'
  rw [map_append] at h2
  exact h2.trans (h1.symm.append_left _)

theorem qm_realloc_null (size : ℕ) :
    qm_realloc b q 0 size = if size = 0 then some (q, 0) else qm_malloc b q size := by
  unfold qm_realloc
  by_cases h : size = 0
  · rw [if_pos h]
    simp [h]
  · rw [if_neg h]
    simp [h]

theorem qm_realloc_zero {p : ℕ} (hp : p ≠ 0) (hc : inBlock b q p = some ()) :
    qm_realloc b q p 0 = (qm_free b q p).map fun q => (q, 0) := by
  unfold qm_realloc
  rw [if_pos hp, hc]
  simp only [bind_eq_bind, bind_some, if_true]
  rw [if_pos hp]
  cases qm_free b q p <;> rfl

/-- **One call** keeps the structure, and the books unless it shrinks. -/
theorem step_spec (hI : Inv b q frs L) (hp : (pointers b frs).Perm live) {op : Op}
    (ok : Allowed live op) : ∃ q' r frs' L', exec b q op = some (q', r) ∧ Inv b q' frs' L' ∧
      (pointers b frs').Perm (owned live op r) ∧ SameArena q q' ∧
      (¬ Shrinks b q op → Booked b q frs q' frs') := by
  have malloc : ∀ size, ∃ q' r frs' L', qm_malloc b q size = some (q', r) ∧ Inv b q' frs' L' ∧
      (pointers b frs').Perm (if r = 0 then live else r :: live) ∧ SameArena q q' ∧
      Booked b q frs q' frs' := by
    intro size
    rcases malloc_spec hI size with ⟨hm, -⟩ | ⟨q', frs', L', f', hm, hI', ⟨ha, R, p1, p2, -⟩, hb, -⟩
    · exact ⟨q, 0, frs, L, hm, hI, by rwa [if_pos rfl], SameArena.refl q, Booked.refl b q frs⟩
    · refine ⟨q', _, frs', L', hm, hI', ?_, ha, hb⟩
      rw [if_neg (ptr_ne_zero f')]
      exact (pointers_perm p2).trans (Perm.cons _ ((pointers_perm p1).symm.trans hp))
  have free : ∀ p ∈ live, ∃ q' frs' L', qm_free b q p = some q' ∧ Inv b q' frs' L' ∧
      (pointers b frs').Perm (live.erase p) ∧ SameArena q q' ∧ Booked b q frs q' frs' := by
    intro p hpl
    obtain ⟨f, hf, hu, rfl⟩ := mem_pointers.1 (hp.symm.subset hpl)
    obtain ⟨q', frs', L', hm, hI', ⟨ha, R, p1, p2, -⟩, hb⟩ := free_spec hI hf hu
    exact ⟨q', frs', L', hm, hI', pointers_replace p1 p2 hp, ha, hb⟩
  cases op with
  | malloc size =>
    obtain ⟨q', r, frs', L', hm, hI', hp', ha, hb⟩ := malloc size
    exact ⟨q', r, frs', L', hm, hI', hp', ha, fun _ => hb⟩
  | free p =>
    obtain ⟨q', frs', L', hm, hI', hp', ha, hb⟩ := free p ok
    exact ⟨q', 0, frs', L', by rw [exec, hm]; rfl, hI', hp', ha, fun _ => hb⟩
  | realloc p size =>
    have hzero : (0 : ℕ) ∉ live := fun h => by
      obtain ⟨f, -, -, e⟩ := mem_pointers.1 (hp.symm.subset h)
      exact ptr_ne_zero f e
    by_cases h0 : p = 0
    · subst h0
      have he : live.erase 0 = live := erase_of_not_mem hzero
      by_cases hs : size = 0
      · refine ⟨q, 0, frs, L, ?_, hI, ?_, SameArena.refl q, fun _ => Booked.refl b q frs⟩
        · rw [exec, qm_realloc_null, if_pos hs]
        · rwa [owned, if_pos rfl, if_pos hs, he]
      · obtain ⟨q', r, frs', L', hm, hI', hp', ha, hb⟩ := malloc size
        refine ⟨q', r, frs', L', ?_, hI', ?_, ha, fun _ => hb⟩
        · rw [exec, qm_realloc_null, if_neg hs, hm]
        · rwa [owned, if_neg hs, he]
    have hpl : p ∈ live := ok.resolve_left h0
    by_cases hs : size = 0
    · obtain ⟨q', frs', L', hm, hI', hp', ha, hb⟩ := free p hpl
      obtain ⟨f, hf, hu, rfl⟩ := mem_pointers.1 (hp.symm.subset hpl)
      refine ⟨q', 0, frs', L', ?_, hI', ?_, ha, fun _ => hb⟩
      · rw [exec, hs, qm_realloc_zero h0 (hI.checks hf hu).1, hm]
        rfl
      · rwa [owned, if_pos rfl, if_pos hs]
    · obtain ⟨f, hf, hu, rfl⟩ := mem_pointers.1 (hp.symm.subset hpl)
      rcases realloc_spec hI hf hu hs with ⟨hm, -⟩ | ⟨q', frs', L', f', hm, hI', ⟨ha, R, p1, p2, -⟩, -, -, hb⟩
      · refine ⟨q, 0, frs, L, hm, hI, ?_, SameArena.refl q, fun _ => Booked.refl b q frs⟩
        rwa [owned, if_pos rfl, if_neg hs]
      · refine ⟨q', _, frs', L', hm, hI', ?_, ha, fun hn => hb fun hlt => hn ⟨h0, hs, ?_⟩⟩
        · rw [owned, if_neg (ptr_ne_zero f')]
          exact pointers_replace p1 p2 hp
        · rwa [Nat.add_sub_cancel, (hI.intact f hf).head]

/-- The size a call asks for. -/
def requested : Op → Option ℕ
  | .malloc size => some size
  | .free _ => none
  | .realloc _ size => some size

/-- **A pointer that a call returns** is that of a fragment of the rounded size. -/
theorem step_backed (hI : Inv b q frs L) (hp : (pointers b frs).Perm live) {op : Op}
    (ok : Allowed live op) {size r : ℕ} (hs : requested op = some size)
    (he : exec b q op = some (q', r)) (hr : r ≠ 0) :
    ∃ f : Frag, q'.mem f.addr = f.size ∧ r = f.addr + sizeof_frag b ∧ ROUNDUP b size ≤ f.size ∧
      f.size + 32 ≤ 2 ^ 64 := by
  have found : ∀ {frs' : List Frag} {L' : ℕ → List ℕ} {f : Frag} {gone : List Frag},
      Inv b q' frs' L' → Effect b q frs q' frs' gone [f] → r = f.addr + sizeof_frag b →
      ROUNDUP b size ≤ f.size → ∃ f : Frag, q'.mem f.addr = f.size ∧ r = f.addr + sizeof_frag b ∧
        ROUNDUP b size ≤ f.size ∧ f.size + 32 ≤ 2 ^ 64 := by
    rintro frs' L' f gone hI' ⟨-, R, -, p2, -⟩ hrf hle
    have hf := (mem_lives.1 (p2.symm.subset mem_cons_self)).1
    exact ⟨f, (hI'.intact f hf).head, hrf, hle, hI'.toBase.size_lt hf⟩
  have malloc : qm_malloc b q size = some (q', r) → ∃ f : Frag, q'.mem f.addr = f.size ∧
      r = f.addr + sizeof_frag b ∧ ROUNDUP b size ≤ f.size ∧ f.size + 32 ≤ 2 ^ 64 := by
    intro hm
    rcases malloc_spec hI size with ⟨hm', -⟩ | ⟨q1, frs1, L1, f1, hm', hI1, hE, -, hle⟩
    · rw [hm] at hm'
      cases hm'
      exact absurd rfl hr
    · rw [hm] at hm'
      obtain ⟨rfl, hrf⟩ := Prod.mk.inj (some.inj hm')
      exact found hI1 hE hrf hle
  cases op with
  | malloc s =>
    cases hs
    exact malloc he
  | free p => cases hs
  | realloc p s =>
    cases hs
    by_cases h0 : p = 0
    · subst h0
      rw [exec, qm_realloc_null] at he
      split_ifs at he
      · cases he
        exact absurd rfl hr
      · exact malloc he
    · obtain ⟨f, hf, hu, rfl⟩ := mem_pointers.1 (hp.symm.subset (ok.resolve_left h0))
      by_cases hz : size = 0
      · rw [exec, hz, qm_realloc_zero h0 (hI.checks hf hu).1] at he
        obtain ⟨q1, -, e⟩ := map_eq_some_iff.1 he
        cases e
        exact absurd rfl hr
      · rw [exec] at he
        rcases realloc_spec hI hf hu hz with ⟨hm, -⟩ | ⟨q1, frs1, L1, f1, hm, hI1, hE, hle, -, -⟩
        · rw [he] at hm
          cases hm
          exact absurd rfl hr
        · rw [he] at hm
          obtain ⟨rfl, hrf⟩ := Prod.mk.inj (some.inj hm)
          exact found hI1 hE hrf hle

theorem bytes_frees_eq {A B T : List Frag} {f f' : Frag} (hu : f.free = false)
    (hu' : f'.free = false) (hT : T = []) :
    bytes (frees (A ++ f' :: (T ++ B))) = bytes (frees (A ++ f :: B)) := by
  rw [hT, nil_append]
  unfold frees
  rw [filter_append, filter_append, filter_cons, filter_cons,
    if_neg (by rw [hu']; decide), if_neg (by rw [hu]; decide)]

/-- **A call that shrinks a fragment spoils books that are right.** -/
theorem shrink_spoils (hI : Inv b q frs L) (hp : (pointers b frs).Perm live)
    (ha : Account b q frs) {op : Op} (ok : Allowed live op) (hs : Shrinks b q op) {r : ℕ}
    (he : exec b q op = some (q', r)) : ¬ Balanced b q' (owned live op r) := by
  cases op with
  | malloc => exact hs.elim
  | free => exact hs.elim
  | realloc p size =>
    obtain ⟨h0, h1, hlt⟩ := hs
    obtain ⟨f, hf, hu, rfl⟩ := mem_pointers.1 (hp.symm.subset (ok.resolve_left h0))
    rw [Nat.add_sub_cancel, (hI.intact f hf).head] at hlt
    obtain ⟨A, B, rfl⟩ := append_of_mem hf
    obtain ⟨q3, f', T, L3, hq3, hI3, haddr, -, ⟨har, R, p1, p2, -⟩, -, hsp, hns⟩ :=
      shrink_spec hI hu (ROUNDTO_dvd_ROUNDUP b size) hlt.le
    rw [exec, qm_realloc_eq hI hf hu h1, if_pos hlt, hq3] at he
    cases he
    have hp3 := pointers_replace p1 p2 hp
    rw [map_cons, map_nil, singleton_append, haddr] at hp3
    rintro ⟨frs2, L2, hw, hused, hfree⟩
    rw [owned, if_neg h0] at hw
    obtain rfl := hw.unique (hI3.wellFormed hp3)
    by_cases hsplit : Splits b f.size (ROUNDUP b size)
    · -- the bytes cut off are still booked
      obtain ⟨hsz, hu3⟩ := hsp hsplit
      rw [hu3, ha.used_eq hI.toBase, bytes_perm p1, bytes_perm p2, bytes_append, bytes_append,
        bytes_cons, bytes_cons, hsz] at hused
      omega
    · -- an overhead is booked that no fragment has
      obtain ⟨hT, hsz, hr3⟩ := hns hsplit
      have hu' : f'.free = false := (mem_lives.1 (p2.symm.subset (mem_cons_self ..))).2
      rw [bytes_frees_eq hu hu' hT, ← ha.avail hI.toBase, har.size] at hfree
      have hw := congrArg (Nat.cast (R := Word)) hfree
      rw [cast_wsub, cast_wsub, hr3] at hw
      have h0 : ((FRAG_OVERHEAD b : ℕ) : Word) = (0 : ℕ) := by
        push_cast
        linear_combination -hw
      have hov : 32 ≤ FRAG_OVERHEAD b ∧ FRAG_OVERHEAD b < 2 ^ 64 := by
        rcases consts b with ⟨-, -, -, -, -, -, h⟩ | ⟨-, -, -, -, -, -, h⟩ <;> omega
      have := word_inj hov.2 (by decide) h0
      omega

/-! ### Every run -/

/-- **Every run keeps the structure.** -/
theorem reachable_inv {mem : Mem} {region : Region}
    (hi : qm_malloc_init b mem region = some (some q0)) (hr : Reachable b q0 q live) :
    ∃ frs L, Inv b q frs L ∧ (pointers b frs).Perm live := by
  rcases init_spec (b := b) mem region with ⟨h, -⟩ | ⟨q1, f, L1, h, hI1, hf, -, -⟩
  · rw [h] at hi
    cases hi
  obtain rfl : q1 = q0 := by
    rw [h] at hi
    exact some.inj (some.inj hi)
  have h0 : ∃ frs L, Inv b q1 frs L ∧ (pointers b frs).Perm [] :=
    ⟨[f], L1, hI1, by rw [pointers, lives_cons_free hf]; exact List.Perm.refl _⟩
  refine hr.invariant (I := fun q live => ∃ frs L, Inv b q frs L ∧ (pointers b frs).Perm live) h0 ?_
  rintro q live op q' r ⟨frs, L, hI, hp⟩ ok he
  obtain ⟨q2, r2, frs', L', he', hI', hp', -⟩ := step_spec hI hp ok
  rw [he] at he'
  cases he'
  exact ⟨frs', L', hI', hp'⟩

/-- **The structure of the arena after every sequence of calls**, none of which faults. -/
theorem qm_wellFormed {mem : Mem} {region : Region}
    (hi : qm_malloc_init b mem region = some (some q0)) (hr : Reachable b q0 q live) :
    (∃ frs L, WellFormed b q live frs L) ∧ ∀ op, Allowed live op → exec b q op ≠ none := by
  obtain ⟨frs, L, hI, hp⟩ := reachable_inv hi hr
  refine ⟨⟨frs, L, hI.wellFormed hp⟩, fun op ok hn => ?_⟩
  obtain ⟨q', r, frs', L', he, -⟩ := step_spec hI hp ok
  rw [hn] at he
  cases he

theorem first_malloc (mem : Mem) {region : Region} {size : ℕ}
    (hsz : init_overhead b + ROUNDUP b size ≤ region.size) :
    ∃ q0 q frs L f, qm_malloc_init b mem region = some (some q0) ∧
      qm_malloc b q0 size = some (q, f.addr + sizeof_frag b) ∧ Inv b q frs L ∧ Account b q frs ∧
      (pointers b frs).Perm [f.addr + sizeof_frag b] ∧ f ∈ frs ∧ ROUNDUP b size ≤ f.size := by
  rcases init_spec (b := b) mem region with ⟨-, h⟩ | ⟨q0, g, L1, h0, hI, hg, ha, hbig⟩
  · omega
  have hav : bytes (frees [g]) = g.size := by
    rw [frees, filter_cons, if_pos hg]
    rfl
  rcases malloc_spec hI size with ⟨-, hno | hno⟩ | ⟨q, frs, L, f, hm, hI', ⟨har, R, p1, p2, -⟩, hb, hle⟩
  · rw [ha.avail hI.toBase, hav] at hno
    omega
  · have := hno g (mem_frees.2 ⟨mem_singleton_self _, hg⟩)
    omega
  · have hR : R = [] := by
      have : (lives [g]).Perm R := p1
      rw [lives_cons_free hg] at this
      exact this.symm.eq_nil
    rw [hR] at p2
    exact ⟨q0, q, frs, L, f, h0, hm, hI', ha.booked hb har, pointers_perm p2,
      (mem_lives.1 (p2.symm.subset (mem_cons_self ..))).1, hle⟩

def debugBuild : Build := ⟨true, true⟩
theorem arena_fits : 4096 + 2 ^ 22 < 2 ^ 64 := by decide

def arena : Region := ⟨4096, 2 ^ 22, arena_fits⟩

theorem arena_room : init_overhead debugBuild + ROUNDUP debugBuild 100000 ≤ arena.size := by
  have h1 := (ctl_le (b := debugBuild)).2
  have h2 : FRAG_OVERHEAD debugBuild = 96 := rfl
  have h3 : ROUNDUP debugBuild 100000 = 100000 := by decide
  have h4 : arena.size = 2 ^ 22 := rfl
  rw [init_overhead, h2, h3, h4]
  omega

theorem qm_wellFormed_malloc : ∃ q0 q p, qm_malloc_init debugBuild (fun _ => 0) arena =
    some (some q0) ∧ qm_malloc debugBuild q0 100000 = some (q, p) ∧
    ∃ frs L, WellFormed debugBuild q [p] frs L := by
  obtain ⟨q0, q, -, -, f, h0, hm, -⟩ := first_malloc (fun _ => 0) arena_room
  refine ⟨q0, q, _, h0, hm, ?_⟩
  have ok : Allowed [] (.malloc 100000) := trivial
  rw [← owned_malloc (ptr_ne_zero f) 100000]
  exact (qm_wellFormed h0 (Run.step .init ok hm)).1

/-- A failing `qm_malloc` finds no fragment in a block whose books are right. -/
theorem malloc_fails (hI : Inv b q frs L) (ha : Account b q frs) {size : ℕ}
    (h : qm_malloc b q size = some (q', 0)) : ∀ f ∈ frees frs, f.size < ROUNDUP b size := by
  intro f hf
  rcases malloc_spec hI size with ⟨-, hav | hno⟩ | ⟨q1, frs1, L1, f1, hm, -⟩
  · rw [ha.avail hI.toBase] at hav
    exact (size_le_bytes hf).trans_lt hav
  · exact hno f hf
  · rw [h] at hm
    have := (Prod.mk.inj (some.inj hm)).2
    have := (offsets b).1
    omega

/-- **The accounting after every sequence of calls that never shrinks a fragment.** -/
theorem qm_accounting {mem : Mem} {region : Region}
    (hi : qm_malloc_init b mem region = some (some q0)) (hr : Growing b q0 q live) :
    Balanced b q live ∧
    (∀ size q', qm_malloc b q size = some (q', 0) → ∀ frs L, WellFormed b q live frs L →
      ∀ f ∈ frees frs, f.size < ROUNDUP b size) ∧
    ∀ op q' r, Allowed live op → exec b q op = some (q', r) →
      (Balanced b q' (owned live op r) ↔ ¬ Shrinks b q op) := by
  rcases init_spec (b := b) mem region with ⟨h, -⟩ | ⟨q1, f, L1, h, hI1, hf, ha1, -⟩
  · rw [h] at hi
    cases hi
  obtain rfl : q1 = q0 := by
    rw [h] at hi
    exact some.inj (some.inj hi)
  obtain ⟨frs, L, hI, hp, ha⟩ := hr.invariant
    (I := fun q live => ∃ frs L, Inv b q frs L ∧ (pointers b frs).Perm live ∧ Account b q frs)
    ⟨[f], L1, hI1, by rw [pointers, lives_cons_free hf]; exact List.Perm.refl _, ha1⟩
    (fun q live op q' r ⟨frs, L, hI, hp, ha⟩ ok eq => by
      obtain ⟨q2, r2, frs2, L2, he, hI2, hp2, har, hb⟩ := step_spec hI hp ok.1
      rw [eq] at he
      obtain ⟨rfl, rfl⟩ := Prod.mk.inj (some.inj he)
      exact ⟨frs2, L2, hI2, hp2, ha.booked (hb ok.2) har⟩)
  refine ⟨hI.balanced hp ha, fun size q' h frs' L' hw => ?_, fun op q' r ok he =>
    ⟨fun hb hs => shrink_spoils hI hp ha ok hs he hb, fun hn => ?_⟩⟩
  · obtain rfl := hw.unique (hI.wellFormed hp)
    exact malloc_fails hI ha h
  · obtain ⟨q2, r2, frs2, L2, he2, hI2, hp2, har, hb⟩ := step_spec hI hp ok
    rw [he] at he2
    obtain ⟨rfl, rfl⟩ := Prod.mk.inj (some.inj he2)
    exact hI2.balanced hp2 (ha.booked (hb hn) har)

theorem qm_accounting_malloc : ∃ q0 q p, qm_malloc_init debugBuild (fun _ => 0) arena =
    some (some q0) ∧ qm_malloc debugBuild q0 100000 = some (q, p) ∧ Balanced debugBuild q [p] := by
  obtain ⟨q0, q, -, -, f, h0, hm, -⟩ := first_malloc (fun _ => 0) arena_room
  refine ⟨q0, q, _, h0, hm, ?_⟩
  have ok : Allowed [] (.malloc 100000) ∧ ¬ Shrinks debugBuild q0 (.malloc 100000) := ⟨trivial, id⟩
  rw [← owned_malloc (ptr_ne_zero f) 100000]
  exact (qm_accounting h0 (Run.step .init ok hm)).1

/-- Shrinking an allocation of 100000 bytes to 16 leaves the books wrong. -/
theorem qm_accounting_spoiled : ∃ q0 q1 q2 p, qm_malloc_init debugBuild (fun _ => 0) arena =
    some (some q0) ∧ qm_malloc debugBuild q0 100000 = some (q1, p) ∧
    qm_realloc debugBuild q1 p 16 = some (q2, p) ∧ Reachable debugBuild q0 q2 [p] ∧
    ¬ Balanced debugBuild q2 [p] := by
  obtain ⟨q0, q1, frs, L, f, h0, hm, hI, ha, hp, hf, hle⟩ := first_malloc (fun _ => 0) arena_room
  have hp0 : f.addr + sizeof_frag debugBuild ≠ 0 := ptr_ne_zero f
  have ok : Allowed [f.addr + sizeof_frag debugBuild]
      (.realloc (f.addr + sizeof_frag debugBuild) 16) := .inr (mem_singleton_self _)
  have h16 : ROUNDUP debugBuild 16 < f.size := by
    refine lt_of_lt_of_le ?_ hle
    decide
  have hu : f.free = false := by
    obtain ⟨g, hg, hgu, e⟩ := mem_pointers.1 (hp.symm.subset (mem_singleton_self _))
    rwa [← tiled_inj hI.tiled hg hf (by omega)]
  have hs : Shrinks debugBuild q1 (.realloc (f.addr + sizeof_frag debugBuild) 16) := by
    refine ⟨hp0, by decide, ?_⟩
    rwa [Nat.add_sub_cancel, (hI.intact f hf).head]
  obtain ⟨q2, r, -, -, he, -⟩ := step_spec hI hp ok
  have hr : r = f.addr + sizeof_frag debugBuild := by
    have he' := he
    rw [exec, qm_realloc_eq hI hf hu (by decide), if_pos h16] at he'
    obtain ⟨q3, -, e⟩ := map_eq_some_iff.1 he'
    exact (Prod.mk.inj e).2.symm
  subst hr
  have hlive : owned [f.addr + sizeof_frag debugBuild]
      (.realloc (f.addr + sizeof_frag debugBuild) 16) (f.addr + sizeof_frag debugBuild) =
      [f.addr + sizeof_frag debugBuild] := by
    rw [owned, if_neg hp0, erase_cons_head]
  refine ⟨q0, q1, q2, _, h0, hm, he, ?_, ?_⟩
  · have h1 : Reachable debugBuild q0 q1 [f.addr + sizeof_frag debugBuild] := by
      have ok : Allowed [] (.malloc 100000) := trivial
      rw [← owned_malloc hp0 100000]
      exact Run.step .init ok hm
    have h2 := Run.step h1 ok he
    rwa [hlive] at h2
  · have h3 := shrink_spoils hI hp ha ok hs he
    rwa [hlive] at h3

end OpenSips.QMalloc
