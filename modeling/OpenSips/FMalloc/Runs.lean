import OpenSips.FMalloc.Init
import OpenSips.Lib.Machine

/-!
# OpenSips.FMalloc.Runs — what holds after every sequence of calls

A run starts from `fm_malloc_init` and calls `fm_malloc`, `fm_free` and `fm_realloc`; beside it the client
keeps the list of the pointers it owns.  The fragments tile what is between `first_frag` and the end of
the header of `last_frag`; `last_frag` itself is one of them in no run, but for a block without room.
-/

namespace OpenSips.FMalloc

open Lib List Option
open QMalloc (Frag Mem Region lives lives_append lives_cons lives_cons_free lives_free mem_lives)

inductive Op where
  | malloc (size : ℕ) (c : Caller)
  | free (p : ℕ) (c : Caller)
  | realloc (p size : ℕ) (c : Caller)

section Run

variable (b : Build)

def exec (q : FmBlock) : Op → Option (FmBlock × ℕ)
  | .malloc size c => fm_malloc b q size c
  | .free p c => (fm_free b q p c).map fun q => (q, 0)
  | .realloc p size c => fm_realloc b q p size c

def Allowed (live : List ℕ) : Op → Prop
  | .malloc _ _ => True
  | .free p _ => p ∈ live
  | .realloc p _ _ => p = 0 ∨ p ∈ live

/-- The pointers a client owns after a call that returned `r`. -/
def owned (live : List ℕ) : Op → ℕ → List ℕ
  | .malloc _ _, r => if r = 0 then live else r :: live
  | .free p _, _ => live.erase p
  | .realloc p size _, r =>
    if r = 0 then if size = 0 then live.erase p else live else r :: live.erase p

/-- The call of a debug build that aborts: it takes a live pointer behind `last_frag` for a bad one. -/
def Aborts (q : FmBlock) : Op → Prop
  | .malloc _ _ => False
  | .free p _ => b.dbg = true ∧ q.last_frag < p
  | .realloc p _ _ => b.dbg = true ∧ q.last_frag < p

/-- The blocks that runs from `q0` reach, with the pointers owned. -/
abbrev Reachable (q0 : FmBlock) : FmBlock → List ℕ → Prop :=
  Run (exec b) (fun _ live op => Allowed live op) (fun _ live op r => owned live op r) (q0, [])

/-- The pointers of the live fragments. -/
def pointers (frs : List Frag) : List ℕ := (lives frs).map fun f => f.addr + sizeof_frag b

/-- **A well-formed arena**: the fragments tile it, `prev` is `NULL` in exactly those the client owns, and
the others are on the list of their size. -/
structure WellFormed (q : FmBlock) (live : List ℕ) (frs : List Frag) (L : ℕ → List ℕ) : Prop where
  tiled : Frags b q.first_frag frs (q.last_frag + sizeof_frag b)
  sizes : ∀ f ∈ frs, q.mem f.addr = f.size
  in_use : ∀ f ∈ frs, q.mem (prev f.addr) = 0 ↔ f.addr + sizeof_frag b ∈ live
  owned : ∀ p ∈ live, ∃ f ∈ frs, p = f.addr + sizeof_frag b
  nodup : live.Nodup
  on_list : ∀ f ∈ frs, q.mem (prev f.addr) ≠ 0 → ∀ h < F_HASH_SIZE, f.addr ∈ L h ↔ h = GET_HASH f.size
  off_list : ∀ f ∈ frs, q.mem (prev f.addr) = 0 → ∀ h < F_HASH_SIZE, f.addr ∉ L h
  hash_lt : ∀ f ∈ frs, GET_HASH f.size < F_HASH_SIZE
  list : ∀ h < F_HASH_SIZE, CellList nxt_free prev q.mem (free_hash b q h) (L h)
  once : ∀ h < F_HASH_SIZE, (L h).Nodup ∧ ∀ x ∈ L h, ∃ f ∈ frs, x = f.addr
  no : ∀ h < F_HASH_SIZE, q.no h = (L h).length
  apart : ∀ f ∈ frs, ∀ g ∈ frs, f = g ∨ f.addr + span b f ≤ g.addr ∨ g.addr + span b g ≤ f.addr
  above : ∀ f ∈ frs, q.qm + sizeof_block b ≤ f.addr

/-- `last_frag` is a fragment of its own, behind all others. -/
def EndsAtLast (q : FmBlock) (frs : List Frag) : Prop := ∃ f ∈ frs, f.addr = q.last_frag

def Bare (region : Region) : Prop := block_size region = init_overhead b

end Run

variable {b : Build} {q q' q0 : FmBlock} {frs frs' : List Frag} {L : ℕ → List ℕ} {live : List ℕ} {f : Frag}

theorem ptr_ne_zero (f : Frag) : f.addr + sizeof_frag b ≠ 0 := by
  have := (sizeof_frag_bounds b).1
  omega

theorem mem_pointers {p : ℕ} : p ∈ pointers b frs ↔ ∃ f ∈ frs, f.free = false ∧ f.addr + sizeof_frag b = p := by
  simp only [pointers, List.mem_map, mem_lives, and_assoc]

theorem Inv.mark_iff (hI : Inv b q frs L) (hf : f ∈ frs) : q.mem (prev f.addr) = 0 ↔ f.free = false := by
  constructor
  · intro h
    by_contra hu
    exact hI.toCore.prev_ne_zero hf (by simpa using hu) h
  · exact hI.marked f hf

/-- The fragments from `f` on, as the arena shows them: a fragment with a mark is free. -/
def fragmentsFrom (b : Build) (q : FmBlock) : ℕ → ℕ → List Frag
  | 0, _ => []
  | fuel + 1, f =>
    if f < q.last_frag + sizeof_frag b then
      ⟨f, q.mem f, decide (q.mem (prev f) ≠ 0)⟩ :: fragmentsFrom b q fuel (FRAG_NEXT b q f)
    else []

/-- The fragments of a block. -/
def fragments (b : Build) (q : FmBlock) : List Frag := fragmentsFrom b q (steps q) q.first_frag

theorem fragmentsFrom_eq (hI : Inv b q frs L) {B : List Frag} (hB : ∀ f ∈ B, f ∈ frs) {a fuel : ℕ}
    (ht : Frags b a B (q.last_frag + sizeof_frag b)) (hfuel : B.length ≤ fuel) :
    fragmentsFrom b q fuel a = B := by
  induction B generalizing a fuel with
  | nil =>
    obtain rfl : a = q.last_frag + sizeof_frag b := ht
    cases fuel with
    | zero => rfl
    | succ fuel => exact if_neg (lt_irrefl _)
  | cons f B ih =>
    obtain ⟨rfl, ht⟩ := ht
    obtain ⟨fuel, rfl⟩ := Nat.exists_eq_add_one_of_ne_zero (Nat.ne_zero_of_lt hfuel)
    have hf := hB f mem_cons_self
    have hlt : f.addr < q.last_frag + sizeof_frag b := by
      have h1 := ht.le
      have h2 := span_pos (b := b) f
      omega
    have hfree : decide (q.mem (prev f.addr) ≠ 0) = f.free := by
      have h := hI.mark_iff hf
      cases hu : f.free <;> simp_all
    have hnext : FRAG_NEXT b q f.addr = f.addr + span b f := by
      rw [FRAG_NEXT, hI.head f hf, add_assoc]
      rfl
    rw [fragmentsFrom, if_pos hlt, hfree, hI.head f hf, hnext,
      ih (fun g hg => hB g (mem_cons_of_mem _ hg)) ht (Nat.le_of_succ_le_succ hfuel)]

/-- **The invariant is about the fragments that the arena shows.** -/
theorem Inv.fragments (hI : Inv b q frs L) : fragments b q = frs :=
  fragmentsFrom_eq hI (fun _ h => h) hI.tiled hI.toBase.length_lt.le

theorem Inv.wellFormed (hI : Inv b q frs L) (hp : (pointers b frs).Perm live) :
    WellFormed b q live frs L := by
  have hlive : ∀ f ∈ frs, f.free = false ↔ f.addr + sizeof_frag b ∈ live := fun f hf => by
    rw [← hp.mem_iff, mem_pointers]
    constructor
    · intro hu
      exact ⟨f, hf, hu, rfl⟩
    · rintro ⟨g, hg, hu, e⟩
      rwa [← hI.toBase.inj hg hf (by omega)]
  refine ⟨hI.tiled, hI.head, fun f hf => (hI.mark_iff hf).trans (hlive f hf), fun p hpl => ?_, ?_,
    fun f hf hu h hh => ?_, fun f hf hu h hh hx => ?_, fun f hf => hI.toBase.hash_lt hf, hI.list,
    fun h hh => ⟨hI.nodup h hh, fun x hx => ?_⟩, hI.no, fun f hf g hg => hI.toBase.apart hf hg, fun f hf => ?_⟩
  · obtain ⟨f, hf, -, e⟩ := mem_pointers.1 (hp.symm.subset hpl)
    exact ⟨f, hf, e.symm⟩
  · rw [← hp.nodup_iff]
    refine Nodup.map_on (fun f hf g hg e => ?_) (lives_nodup hI.toBase)
    exact hI.toBase.inj (mem_lives.1 hf).1 (mem_lives.1 hg).1 (by omega)
  · rw [hI.mem_iff h hh]
    constructor
    · rintro ⟨g, hg, e, -, rfl⟩
      rw [hI.toBase.inj hg hf e]
    · rintro rfl
      refine ⟨f, hf, rfl, ?_, rfl⟩
      by_contra hn
      exact hu ((hI.mark_iff hf).2 (by simpa using hn))
  · obtain ⟨g, hg, e, hfree, -⟩ := (hI.mem_iff h hh _).1 hx
    rw [hI.toBase.inj hg hf e, (hI.mark_iff hf).1 hu] at hfree
    cases hfree
  · obtain ⟨f, hf, e, -⟩ := (hI.mem_iff h hh x).1 hx
    exact ⟨f, hf, e.symm⟩
  · have h1 := (hI.tiled.mem hf).1
    have h2 := hI.ctl
    unfold free_hash at h2
    unfold sizeof_block
    omega

/-! ### One call -/

theorem Effect.pointers {made : List Frag} (h : Effect b q frs q' frs' [] made)
    (hp : (FMalloc.pointers b frs).Perm live) :
    (FMalloc.pointers b frs').Perm ((made.map fun f => f.addr + sizeof_frag b) ++ live) := by
  obtain ⟨R, h1, h2, -⟩ := h.rest
  have h3 : (FMalloc.pointers b frs').Perm _ := h2.map _
  rw [map_append] at h3
  exact h3.trans (((h1.map _).symm.trans hp).append_left _)

theorem Effect.pointers_erase {made : List Frag} (h : Effect b q frs q' frs' [f] made)
    (hp : (FMalloc.pointers b frs).Perm live) : (FMalloc.pointers b frs').Perm
      ((made.map fun f => f.addr + sizeof_frag b) ++ live.erase (f.addr + sizeof_frag b)) := by
  obtain ⟨R, h1, h2, -⟩ := h.rest
  have h3 : (FMalloc.pointers b frs').Perm _ := h2.map _
  have h4 := ((h1.map fun f : Frag => f.addr + sizeof_frag b).symm.trans hp).erase (f.addr + sizeof_frag b)
  rw [singleton_append, map_cons, erase_cons_head] at h4
  rw [map_append] at h3
  exact h3.trans (h4.append_left _)

theorem inBlock_live (hI : Inv b q frs L) (hf : f ∈ frs) : inBlock b q (f.addr + sizeof_frag b) =
    if b.dbg = true ∧ q.last_frag < f.addr + sizeof_frag b then none else some () := by
  have h1 := (hI.tiled.mem hf).1
  unfold inBlock
  cases b.dbg with
  | false => rfl
  | true =>
    by_cases hgt : q.last_frag < f.addr + sizeof_frag b
    · rw [if_pos rfl, if_pos ⟨rfl, hgt⟩]
      exact if_neg fun h => h (.inl hgt)
    · rw [if_pos rfl, if_neg fun h => hgt h.2]
      exact if_pos fun h => h.elim hgt (by omega)

theorem fm_free_abort {p : ℕ} (c : Caller) (h : inBlock b q p = none) : fm_free b q p c = none := by
  unfold fm_free
  rw [h]
  rfl

theorem fm_realloc_abort {p size : ℕ} (c : Caller) (hp : p ≠ 0) (h : inBlock b q p = none) :
    fm_realloc b q p size c = none := by
  unfold fm_realloc
  rw [if_pos hp, h]
  rfl

theorem fm_realloc_null (size : ℕ) (c : Caller) :
    fm_realloc b q 0 size c = if size = 0 then some (q, 0) else fm_malloc b q size c := by
  unfold fm_realloc
  by_cases h : size = 0
  · rw [if_pos h]
    simp [h]
  · rw [if_neg h]
    simp [h]

theorem fm_realloc_zero {p : ℕ} (c : Caller) (hp : p ≠ 0) (hc : inBlock b q p = some ()) :
    fm_realloc b q p 0 c = (fm_free b q p c).map fun q => (q, 0) := by
  unfold fm_realloc
  rw [if_pos hp, hc]
  simp only [bind_eq_bind, bind_some, if_true]
  rw [if_pos hp]
  cases fm_free b q p c <;> rfl

/-- The size a call asks for. -/
def requested : Op → Option ℕ
  | .malloc size _ => some size
  | .free _ _ => none
  | .realloc _ size _ => some size

/-- What a pointer returned for `size` points at. -/
def Backed (b : Build) (frs : List Frag) (size r : ℕ) : Prop :=
  r ≠ 0 → ∃ f ∈ frs, r = f.addr + sizeof_frag b ∧ ROUNDUP size ≤ f.size

theorem Effect.mem_made {gone : List Frag} {f : Frag} (h : Effect b q frs q' frs' gone [f]) :
    f ∈ frs' := by
  obtain ⟨R, -, h2, -⟩ := h.rest
  exact (mem_lives.1 (h2.symm.subset mem_cons_self)).1

/-- **One call** aborts, or keeps the structure; it is a sequence of moves, and a pointer it returns is
that of a fragment of the rounded size. -/
theorem step_spec (hI : Inv b q frs L) (hp : (pointers b frs).Perm live) {op : Op} (ok : Allowed live op) :
    (Aborts b q op ∧ exec b q op = none) ∨ (¬ Aborts b q op ∧ ∃ q' r frs' L', exec b q op = some (q', r) ∧
      Inv b q' frs' L' ∧ (pointers b frs').Perm (owned live op r) ∧ SameArena q q' ∧
      Moves b (q, frs) (q', frs') ∧ ∀ size, requested op = some size → Backed b frs' size r) := by
  have hzero : (0 : ℕ) ∉ live := fun h => by
    obtain ⟨f, -, -, e⟩ := mem_pointers.1 (hp.symm.subset h)
    exact ptr_ne_zero f e
  have malloc : ∀ size c, ∃ q' r frs' L', fm_malloc b q size c = some (q', r) ∧ Inv b q' frs' L' ∧
      (pointers b frs').Perm (if r = 0 then live else r :: live) ∧ SameArena q q' ∧
      Moves b (q, frs) (q', frs') ∧ Backed b frs' size r := fun size c => by
    obtain ⟨q', frs', L', hI', hmv, ⟨hm, he, -⟩ | ⟨f, hm, he, hle, -⟩⟩ := malloc_spec hI size c
    · exact ⟨q', 0, frs', L', hm, hI', he.pointers hp, he.arena, hmv, fun h => absurd rfl h⟩
    · refine ⟨q', _, frs', L', hm, hI', ?_, he.arena, hmv, fun _ => ⟨f, he.mem_made, rfl, hle⟩⟩
      rw [if_neg (ptr_ne_zero f)]
      exact he.pointers hp
  have free : ∀ p ∈ live, ∀ c, (b.dbg = true ∧ q.last_frag < p ∧ inBlock b q p = none) ∨
      (¬ (b.dbg = true ∧ q.last_frag < p) ∧ inBlock b q p = some () ∧
      ∃ q' frs' L', fm_free b q p c = some q' ∧ Inv b q' frs' L' ∧
        (pointers b frs').Perm (live.erase p) ∧ SameArena q q' ∧ Moves b (q, frs) (q', frs')) :=
    fun p hpl c => by
    obtain ⟨f, hf, hu, rfl⟩ := mem_pointers.1 (hp.symm.subset hpl)
    have hc := inBlock_live hI hf
    by_cases ha : b.dbg = true ∧ q.last_frag < f.addr + sizeof_frag b
    · rw [if_pos ha] at hc
      exact .inl ⟨ha.1, ha.2, hc⟩
    · rw [if_neg ha] at hc
      obtain ⟨q', frs', L', hq', hI', he, hmv⟩ := free_spec hI hf hu c hc
      exact .inr ⟨ha, hc, q', frs', L', hq', hI', he.pointers_erase hp, he.arena, hmv⟩
  cases op with
  | malloc size c =>
    obtain ⟨q', r, frs', L', hm, hI', hp', ha, hmv, hb⟩ := malloc size c
    refine .inr ⟨id, q', r, frs', L', hm, hI', hp', ha, hmv, fun s hs => ?_⟩
    cases hs
    exact hb
  | free p c =>
    rcases free p ok c with ⟨h1, h2, hc⟩ | ⟨hn, -, q', frs', L', hm, hI', hp', ha, hmv⟩
    · exact .inl ⟨⟨h1, h2⟩, by rw [exec, fm_free_abort c hc]; rfl⟩
    · exact .inr ⟨hn, q', 0, frs', L', by rw [exec, hm]; rfl, hI', hp', ha, hmv, fun _ hs => nomatch hs⟩
  | realloc p size c =>
    by_cases h0 : p = 0
    · subst h0
      have he : live.erase 0 = live := erase_of_not_mem hzero
      have hn : ¬ Aborts b q (.realloc 0 size c) := fun h => absurd h.2 (Nat.not_lt_zero _)
      refine .inr ⟨hn, ?_⟩
      by_cases hs : size = 0
      · refine ⟨q, 0, frs, L, ?_, hI, ?_, SameArena.refl q, .refl, fun _ _ h => absurd rfl h⟩
        · rw [exec, fm_realloc_null, if_pos hs]
        · rwa [owned, if_pos rfl, if_pos hs, he]
      · obtain ⟨q', r, frs', L', hm, hI', hp', ha, hmv, hb⟩ := malloc size c
        refine ⟨q', r, frs', L', ?_, hI', ?_, ha, hmv, fun s hs => ?_⟩
        · rw [exec, fm_realloc_null, if_neg hs, hm]
        · rwa [owned, if_neg hs, he]
        · cases hs
          exact hb
    have hpl : p ∈ live := ok.resolve_left h0
    rcases free p hpl c with ⟨h1, h2, hc⟩ | ⟨hn, hc, q', frs', L', hm, hI', hp', ha, hmv⟩
    · exact .inl ⟨⟨h1, h2⟩, fm_realloc_abort c h0 hc⟩
    refine .inr ⟨hn, ?_⟩
    by_cases hs : size = 0
    · refine ⟨q', 0, frs', L', ?_, hI', ?_, ha, hmv, fun _ _ h => absurd rfl h⟩
      · rw [exec, hs, fm_realloc_zero c h0 hc, hm]
        rfl
      · rwa [owned, if_pos rfl, if_pos hs]
    · obtain ⟨f, hf, hu, rfl⟩ := mem_pointers.1 (hp.symm.subset hpl)
      obtain ⟨q', frs', L', hI', hmv, ⟨hm, he⟩ | ⟨f', hm, hr⟩⟩ := realloc_spec hI hf hu c hs hc
      · refine ⟨q', 0, frs', L', hm, hI', ?_, he.arena, hmv, fun _ _ h => absurd rfl h⟩
        rw [owned, if_pos rfl, if_neg hs]
        exact he.pointers hp
      · refine ⟨q', _, frs', L', hm, hI', ?_, hr.effect.arena, hmv, fun s hs => ?_⟩
        · rw [owned, if_neg (ptr_ne_zero f')]
          exact hr.effect.pointers_erase hp
        · cases hs
          exact fun _ => ⟨f', hr.effect.mem_made, rfl, hr.le⟩

/-! ### Every run -/

theorem SameArena.endsAtLast (h : SameArena q q') (hB : Base b q' frs)
    (he : q.first_frag = q.last_frag) : EndsAtLast q' frs := by
  have hf : q'.first_frag = q'.last_frag := by rw [h.first_frag, h.last_frag, he]
  have ht := hB.tiled
  cases frs with
  | nil =>
    have h24 := (sizeof_frag_bounds b).1
    have : q'.first_frag = q'.last_frag + sizeof_frag b := ht
    omega
  | cons f frs => exact ⟨f, mem_cons_self, ht.1.trans hf⟩

theorem WellFormed.first (hW : WellFormed b q live frs L)
    (hf : q.first_frag + sizeof_frag b + q.mem q.first_frag = q.last_frag + sizeof_frag b) :
    ∀ f ∈ frs, f.addr = q.first_frag := by
  have ht := hW.tiled
  have hs := hW.sizes
  cases frs with
  | nil => exact fun f h => absurd h not_mem_nil
  | cons g frs =>
    obtain ⟨hg, ht⟩ := ht
    have hg' : q.mem g.addr = g.size := hs g mem_cons_self
    rw [hg] at hg'
    have he : q.first_frag + span b g = q.last_frag + sizeof_frag b := by
      unfold span
      omega
    intro f hfm
    rcases mem_cons.1 hfm with rfl | hfm
    · exact hg
    · have h1 := ht.mem hfm
      have h2 := span_pos (b := b) f
      omega

theorem init_inv {mem : Mem} {region : Region} (hi : fm_malloc_init b mem region = some (some q0)) :
    ∃ f L, Inv b q0 [f] L ∧ f.free = true ∧ f.addr = q0.first_frag ∧
      block_size region = init_overhead b + f.size ∧
      ∃ start, Move b (blank b mem start (block_size region), [{ f with free := false }]) (q0, [f]) := by
  rcases init_spec (b := b) mem region with ⟨h, -⟩ | ⟨q, f, L, h, hI, hf, hfa, hfs, hmv⟩
  · rw [h] at hi
    cases hi
  · rw [h] at hi
    obtain rfl := some.inj (some.inj hi)
    exact ⟨f, L, hI, hf, hfa, hfs, hmv⟩

/-- **What every run keeps**: the structure, and it is a sequence of moves. -/
theorem reachable_inv {L₀ : ℕ → List ℕ} (hI0 : Inv b q0 [f] L₀) (hf : f.free = true)
    (hr : Reachable b q0 q live) : ∃ frs L, Inv b q frs L ∧ (pointers b frs).Perm live ∧
      SameArena q0 q ∧ Moves b (q0, [f]) (q, frs) := by
  refine hr.invariant (I := fun q live => ∃ frs L, Inv b q frs L ∧ (pointers b frs).Perm live ∧
    SameArena q0 q ∧ Moves b (q0, [f]) (q, frs)) ?_ ?_
  · refine ⟨[f], L₀, hI0, ?_, SameArena.refl q0, .refl⟩
    rw [pointers, lives_cons_free hf]
    exact List.Perm.refl _
  · rintro q live op q' r ⟨frs, L, hI, hp, ha, hmv⟩ ok he
    rcases step_spec hI hp ok with ⟨-, hn⟩ | ⟨-, q2, r2, frs', L', he', hI', hp', ha', hmv', -⟩
    · rw [hn] at he
      cases he
    · rw [he] at he'
      cases he'
      exact ⟨frs', L', hI', hp', ha.trans ha', hmv.trans hmv'⟩

/-- **The structure of the arena after every sequence of calls**, of which only a free or a realloc behind
`last_frag` aborts a debug build; and `last_frag` is a fragment of its own in all of them only if the
block has no room. -/
theorem fm_structure {mem : Mem} {region : Region} (hi : fm_malloc_init b mem region = some (some q0)) :
    (∀ q live, Reachable b q0 q live → (∃ frs L, WellFormed b q live frs L) ∧
      ∀ op, Allowed live op → (exec b q op = none ↔ Aborts b q op)) ∧
    ((∀ q live, Reachable b q0 q live → ∃ frs L, WellFormed b q live frs L ∧ EndsAtLast q frs) ↔
      Bare b region) := by
  obtain ⟨f, L1, hI1, hf, hfa, hfs, -⟩ := init_inv hi
  have hsize := hI1.head f mem_cons_self
  have hlast : q0.first_frag + span b f = q0.last_frag + sizeof_frag b := by
    obtain ⟨e, h⟩ := hI1.tiled
    exact h
  have hinv : ∀ q live, Reachable b q0 q live →
      (∃ frs L, Inv b q frs L ∧ (pointers b frs).Perm live) ∧ SameArena q0 q := fun q live hr => by
    obtain ⟨frs, L, hI, hp, ha, -⟩ := reachable_inv hI1 hf hr
    exact ⟨⟨frs, L, hI, hp⟩, ha⟩
  refine ⟨fun q live hr => ?_, fun hall => ?_, fun hbare q live hr => ?_⟩
  · obtain ⟨⟨frs, L, hI, hp⟩, -⟩ := hinv q live hr
    refine ⟨⟨frs, L, hI.wellFormed hp⟩, fun op ok => ?_⟩
    rcases step_spec hI hp ok with ⟨h1, h2⟩ | ⟨h1, q2, r2, frs', L', he, -⟩
    · exact iff_of_true h2 h1
    · exact iff_of_false (by rw [he]; exact some_ne_none _) h1
  · obtain ⟨frs, L, hW, g, hg, hgl⟩ := hall q0 [] Run.init
    have hfirst := hW.first (by rw [← hfa, hsize, add_assoc, hfa]; exact hlast) g hg
    unfold Bare
    unfold span at hlast
    omega
  · obtain ⟨⟨frs, L, hI, hp⟩, ha⟩ := hinv q live hr
    refine ⟨frs, L, hI.wellFormed hp, ha.endsAtLast hI.toBase ?_⟩
    unfold Bare at hbare
    unfold span at hlast
    omega

/-- A build without debugging, a region that holds nothing but the control structures, and one of four
mebibytes. -/
def plainBuild : Build := ⟨false, false, 0⟩
def bareRegion : Region := ⟨4096, 33648, by decide⟩
def arena : Region := ⟨4096, 2 ^ 22, by decide⟩

theorem init_large {region : Region} (mem : Mem) (h : init_overhead b ≤ block_size region) :
    ∃ q0, fm_malloc_init b mem region = some (some q0) := by
  rcases init_spec (b := b) mem region with ⟨-, hn⟩ | ⟨q, f, L, hq, -⟩
  · omega
  · exact ⟨q, hq⟩

theorem fm_structure_bare : ∃ q0, fm_malloc_init plainBuild (fun _ => 0) bareRegion = some (some q0) ∧
    ∀ q live, Reachable plainBuild q0 q live →
      ∃ frs L, WellFormed plainBuild q live frs L ∧ EndsAtLast q frs := by
  obtain ⟨q0, h0⟩ : ∃ q0, fm_malloc_init plainBuild (fun _ => 0) bareRegion = some (some q0) :=
    init_large (fun _ => 0) (by decide)
  exact ⟨q0, h0, (fm_structure h0).2.2 (by unfold Bare; decide)⟩

/-- In an arena of four mebibytes, `last_frag` lies inside the first fragment from the start. -/
theorem last_frag_inside : ∃ q0, fm_malloc_init plainBuild (fun _ => 0) arena = some (some q0) ∧
    Reachable plainBuild q0 q0 [] ∧ ¬ ∃ frs L, WellFormed plainBuild q0 [] frs L ∧ EndsAtLast q0 frs := by
  rcases init_spec (b := plainBuild) (fun _ => 0) arena with ⟨-, h⟩ | ⟨q0, f, L1, h0, hI, hf, hfa, hfs, -⟩
  · exact absurd h (by decide)
  refine ⟨q0, h0, Run.init, ?_⟩
  rintro ⟨frs, L, hW, g, hg, hgl⟩
  have hsize := hI.head f mem_cons_self
  have hlast : q0.first_frag + span plainBuild f = q0.last_frag + sizeof_frag plainBuild := by
    obtain ⟨e, h⟩ := hI.tiled
    exact h
  have hfirst := hW.first (by rw [← hfa, hsize, add_assoc, hfa]; exact hlast) g hg
  have hne : block_size arena ≠ init_overhead plainBuild := by decide
  unfold span at hlast
  omega

end OpenSips.FMalloc
