import OpenSips.FMalloc.Runs
import Mathlib.Data.List.TakeWhile

/-!
# OpenSips.FMalloc.Defrag — when `fm_malloc` returns `NULL`

The search finds every free fragment that is large enough.  The defragmentation merges what lies below
`last_frag`, and takes a run only if it became larger than the size: one that merges to the size itself
goes back on its list.
-/

namespace OpenSips.FMalloc

open List Option

open QMalloc (Frag Mem Region)

variable {b : Build} {q q0 : FmBlock} {frs R : List Frag} {L : ℕ → List ℕ} {live : List ℕ} {f : Frag}
  {size : ℕ}

def MaximalRun (frs R : List Frag) : Prop :=
  R ≠ [] ∧ (∀ f ∈ R, f.free = true) ∧ ∃ A B, frs = A ++ R ++ B ∧
    (∀ f ∈ A.getLast?, f.free = false) ∧ ∀ f ∈ B.head?, f.free = false

/-- What `fm_malloc` must do: it ends, and returns `NULL` only if no run has room for the rounded size. -/
def FailsOnlyWhenItMust (b : Build) (q : FmBlock) (size : ℕ) (c : Caller) : Prop :=
  ∃ q' r, fm_malloc b q size c = some (q', r) ∧
    (r = 0 → ∀ R, MaximalRun (fragments b q) R → merged b R < ROUNDUP size)

/-- A run has room for `size`, but what the defragmentation takes of it is not larger. -/
structure Tight (b : Build) (q : FmBlock) (size : ℕ) (R : List Frag) : Prop where
  run : MaximalRun (fragments b q) R
  room : size ≤ merged b R
  le : merged b (R.takeWhile fun f => f.addr < q.last_frag) ≤ size

/-- Away from `last_frag`, a tight run is an exact fit. -/
theorem Tight.exact (h : Tight b q size R) (hR : ∀ f ∈ R, f.addr < q.last_frag) : merged b R = size := by
  have hall : R.takeWhile (fun f => decide (f.addr < q.last_frag)) = R := by
    rw [takeWhile_eq_self_iff]
    exact fun f hf => decide_eq_true (hR f hf)
  have hle := h.le
  rw [hall] at hle
  exact le_antisymm hle h.room

/-- A run of free fragments below `last_frag` that is larger than `size` serves it. -/
theorem serves_of_run (hR : R <:+: frs) (hl : ∀ f ∈ R, Loose q.last_frag f) (h : size < merged b R) :
    Serves b q frs size := by
  match R, hR, hl, h with
  | [], _, _, h => exact absurd h (Nat.not_lt_zero _)
  | [f], hR, hl, h =>
    have hf := hl f mem_cons_self
    refine .inl ⟨f, hR.subset mem_cons_self, hf.1, ?_⟩
    rw [merged_cons, QMalloc.bytes_nil, length_nil] at h
    omega
  | f :: g :: R, hR, hl, h => exact .inr ⟨f :: g :: R, hR, hl, by simp, h⟩

/-- **What cannot be served is tight** if it has room at all. -/
theorem tight_of_not_serves (hn : ¬ Serves b q (fragments b q) size)
    (hR : MaximalRun (fragments b q) R) (hs : size ≤ merged b R) : Tight b q size R := by
  refine ⟨hR, hs, ?_⟩
  by_contra hlt
  obtain ⟨-, hfree, A, B, hfrs, -, -⟩ := hR
  apply hn
  refine serves_of_run (R := R.takeWhile fun f => f.addr < q.last_frag) ?_ ?_ (not_le.1 hlt)
  · refine (List.takeWhile_prefix _).isInfix.trans ?_
    rw [hfrs]
    exact infix_append A R B
  · intro f hf
    have hlt := @mem_takeWhile_imp _ (fun f : Frag => decide (f.addr < q.last_frag)) _ _ hf
    exact ⟨hfree f ((List.takeWhile_prefix _).subset hf), of_decide_eq_true hlt⟩

/-- **When `fm_malloc` fails.**  In every state that a run reaches, and for every size, `fm_malloc` fails
only when it must if and only if no run is tight while nothing else serves the rounded size. -/
theorem malloc_fails_only_when_it_must {mem : Mem} {region : Region}
    (hi : fm_malloc_init b mem region = some (some q0)) (hr : Reachable b q0 q live) (size : ℕ)
    (c : Caller) : FailsOnlyWhenItMust b q size c ↔
      ((∃ R, Tight b q (ROUNDUP size) R) → Serves b q (fragments b q) (ROUNDUP size)) := by
  obtain ⟨f, L0, hI0, hf, -⟩ := init_inv hi
  obtain ⟨frs, L, hI, -⟩ := reachable_inv hI0 hf hr
  have hfrs := hI.fragments
  obtain ⟨q', frs', L', -, -, ⟨hm, -, hn⟩ | ⟨g, hm, -, -, hs⟩⟩ := malloc_spec hI size c
  · rw [← hfrs] at hn
    constructor
    · rintro ⟨q2, r, hm2, hmust⟩ ⟨R, hR⟩
      rw [hm] at hm2
      obtain ⟨rfl, rfl⟩ := Prod.mk.inj (some.inj hm2)
      exact absurd hR.room (not_le.2 (hmust rfl R hR.run))
    · intro htight
      refine ⟨q', 0, hm, fun _ R hR => ?_⟩
      by_contra hge
      exact hn (htight ⟨R, tight_of_not_serves hn hR (not_lt.1 hge)⟩)
  · rw [← hfrs] at hs
    exact iff_of_true ⟨q', _, hm, fun h0 => absurd h0 (ptr_ne_zero g)⟩ fun _ => hs

theorem malloc_fails_only_when_it_must_100 :
    ∃ q0, fm_malloc_init plainBuild (fun _ => 0) arena = some (some q0) ∧
      FailsOnlyWhenItMust plainBuild q0 100 ⟨0, 0, 0⟩ := by
  obtain ⟨q0, h0⟩ : ∃ q0, fm_malloc_init plainBuild (fun _ => 0) arena = some (some q0) :=
    init_large (fun _ => 0) (by decide)
  refine ⟨q0, h0, (malloc_fails_only_when_it_must h0 .init 100 ⟨0, 0, 0⟩).2 fun _ => ?_⟩
  obtain ⟨f, L, hI, hf, -, hsize, -⟩ := init_inv h0
  rw [hI.fragments]
  refine .inl ⟨f, mem_cons_self, hf, ?_⟩
  have h1 : block_size arena = 4194304 := by decide
  have h2 : init_overhead plainBuild = 33648 := by decide
  have h3 : ROUNDUP 100 = 104 := by decide
  omega

deriving instance DecidableEq for OpenSips.QMalloc.Frag

theorem freed_arena : ∃ q0 q, fm_malloc_init plainBuild (fun _ => 0) arena = some (some q0) ∧
    Reachable plainBuild q0 q [] ∧
    fragments plainBuild q = [⟨37720, 2097152, true⟩, ⟨2134896, 2063480, true⟩] ∧
    ∃ q', fm_malloc plainBuild q 4160656 ⟨0, 0, 0⟩ = some (q', 0) := by
  have hrun : ((fm_malloc_init plainBuild (fun _ => 0) arena).bind fun o => o.bind fun q0 =>
      (fm_malloc plainBuild q0 2097152 ⟨0, 0, 0⟩).bind fun r =>
      (fm_free plainBuild r.1 r.2 ⟨0, 0, 0⟩).map fun q => (r.2, fragments plainBuild q,
        (fm_malloc plainBuild q 4160656 ⟨0, 0, 0⟩).map Prod.snd)) =
      some (37744, [⟨37720, 2097152, true⟩, ⟨2134896, 2063480, true⟩], some 0) := by
    decide +kernel
  simp only [bind_eq_some_iff, map_eq_some_iff, Prod.mk.injEq] at hrun
  obtain ⟨o, h0, q0, rfl, ⟨q1, p⟩, h1, q, h2, rfl, hfrs, ⟨q', r⟩, h3, rfl⟩ := hrun
  have ok : Allowed [] (.malloc 2097152 ⟨0, 0, 0⟩) := trivial
  have hmalloc : exec plainBuild q0 (.malloc 2097152 ⟨0, 0, 0⟩) = some (q1, 37744) := h1
  have hinit : Reachable plainBuild q0 q0 [] := .init
  have hr1 : Reachable plainBuild q0 q1 [37744] := hinit.step ok hmalloc
  have hfree : exec plainBuild q1 (.free 37744 ⟨0, 0, 0⟩) = some (q, 0) := by
    rw [exec, h2]
    rfl
  exact ⟨q0, q, h0, hr1.step (mem_singleton.2 rfl) hfree, hfrs, q', h3⟩

/-- The two fragments merge to what is asked for, and `fm_malloc` returns `NULL`. -/
theorem malloc_overlooks_exact_fit : ∃ q0 q q' R,
    fm_malloc_init plainBuild (fun _ => 0) arena = some (some q0) ∧ Reachable plainBuild q0 q [] ∧
      fm_malloc plainBuild q 4160656 ⟨0, 0, 0⟩ = some (q', 0) ∧ MaximalRun (fragments plainBuild q) R ∧
      merged plainBuild R = ROUNDUP 4160656 := by
  obtain ⟨q0, q, h0, hr, hfrs, q', hm⟩ := freed_arena
  obtain ⟨R, hR⟩ : ∃ R, R = [(⟨37720, 2097152, true⟩ : Frag), ⟨2134896, 2063480, true⟩] := ⟨_, rfl⟩
  refine ⟨q0, q, q', R, h0, hr, hm, ⟨?_, ?_, [], [], ?_, by simp, by simp⟩, ?_⟩ <;> rw [hR]
  · exact cons_ne_nil _ _
  · simp
  · rw [hfrs]
    rfl
  · decide

end OpenSips.FMalloc
