import OpenSips.FMalloc.Runs
import OpenSips.QMalloc.Runs

/-!
# OpenSips.FMalloc.Sizes — how large an allocation is

`ROUNDUP` adds before it masks, so a size of the last `ROUNDTO - 1` values of an `unsigned long` is
rounded to 0.  Both allocators then hand out whatever they have, and no fragment is that large.
-/

namespace OpenSips.FMalloc

open QMalloc (Frag Mem Region)

/-- The usable size of an allocation: the `size` word of the fragment in front of the pointer. -/
def usable (b : Build) (q : FmBlock) (p : ℕ) : ℕ := q.mem (p - sizeof_frag b)

/-- The same for `q_malloc.c`. -/
def qm_usable (b : QMalloc.Build) (q : QMalloc.QmBlock) (p : ℕ) : ℕ := q.mem (p - QMalloc.sizeof_frag b)

/-- `f_malloc.c`: one allocation in a reached state. -/
theorem fm_usable_iff {b : Build} {mem : Mem} {region : Region} {q0 q q' : FmBlock} {live : List ℕ}
    (hi : fm_malloc_init b mem region = some (some q0)) (hr : Reachable b q0 q live) {op : Op}
    (ok : Allowed live op) {size r : ℕ} (hs : requested op = some size)
    (he : exec b q op = some (q', r)) (hr0 : r ≠ 0) :
    size ≤ usable b q' r ↔ size + ROUNDTO ≤ 2 ^ 64 := by
  obtain ⟨f, L1, hI1, hf, -⟩ := init_inv hi
  obtain ⟨frs, L, hI, hp, -, -⟩ := reachable_inv hI1 hf hr
  rcases step_spec hI hp ok with ⟨-, hn⟩ | ⟨-, q2, r2, frs', L', he', hI', -, -, -, hb⟩
  · rw [hn] at he
    cases he
  rw [he] at he'
  obtain ⟨rfl, rfl⟩ := Prod.mk.inj (Option.some.inj he')
  obtain ⟨g, hg, rfl, hle⟩ := hb size hs hr0
  have hu : usable b q' (g.addr + sizeof_frag b) = g.size := by
    rw [usable, Nat.add_sub_cancel, hI'.head g hg]
  have hlt := hI'.toBase.size_lt hg
  have h24 := (sizeof_frag_bounds b).1
  unfold span at hlt
  rw [hu]
  constructor
  · intro h
    unfold ROUNDTO
    omega
  · intro h
    exact (ROUNDUP_bounds h).1.trans hle

/-- `q_malloc.c`: one allocation in a reached state. -/
theorem qm_usable_iff {b : QMalloc.Build} {mem : Mem} {region : Region} {q0 q q' : QMalloc.QmBlock}
    {live : List ℕ} (hi : QMalloc.qm_malloc_init b mem region = some (some q0))
    (hr : QMalloc.Reachable b q0 q live) {op : QMalloc.Op} (ok : QMalloc.Allowed live op) {size r : ℕ}
    (hs : QMalloc.requested op = some size)
    (he : QMalloc.exec b q op = some (q', r)) (hr0 : r ≠ 0) :
    size ≤ qm_usable b q' r ↔ size + QMalloc.ROUNDTO b ≤ 2 ^ 64 := by
  obtain ⟨frs, L, hI, hp⟩ := QMalloc.reachable_inv hi hr
  obtain ⟨g, hg, rfl, hle, hlt⟩ := QMalloc.step_backed hI hp ok hs he hr0
  have hu : qm_usable b q' (g.addr + QMalloc.sizeof_frag b) = g.size := by
    rw [qm_usable, Nat.add_sub_cancel, hg]
  rw [hu]
  constructor
  · intro h
    rcases QMalloc.consts b with ⟨-, h2, -⟩ | ⟨-, h2, -⟩ <;> omega
  · intro h
    exact (QMalloc.ROUNDUP_bounds b h).1.trans hle

/-- **How large an allocation is.**  In every state that a run reaches, a pointer that an allocation or a
reallocation of either allocator returns has at least the size asked for if and only if rounding that
size up does not wrap. -/
theorem allocation_covers (size : ℕ) :
    (∀ (b : Build) (mem : Mem) (region : Region) (q0 q q' : FmBlock) (live : List ℕ) (op : Op) (r : ℕ),
      fm_malloc_init b mem region = some (some q0) → Reachable b q0 q live → Allowed live op →
      requested op = some size → exec b q op = some (q', r) → r ≠ 0 →
      (size ≤ usable b q' r ↔ size + ROUNDTO ≤ 2 ^ 64)) ∧
    ∀ (b : QMalloc.Build) (mem : Mem) (region : Region) (q0 q q' : QMalloc.QmBlock) (live : List ℕ)
      (op : QMalloc.Op) (r : ℕ), QMalloc.qm_malloc_init b mem region = some (some q0) →
      QMalloc.Reachable b q0 q live → QMalloc.Allowed live op → QMalloc.requested op = some size →
      QMalloc.exec b q op = some (q', r) → r ≠ 0 →
      (size ≤ qm_usable b q' r ↔ size + QMalloc.ROUNDTO b ≤ 2 ^ 64) :=
  ⟨fun _ _ _ _ _ _ _ _ _ hi hr ok hs he hr0 => fm_usable_iff hi hr ok hs he hr0,
    fun _ _ _ _ _ _ _ _ _ hi hr ok hs he hr0 => qm_usable_iff hi hr ok hs he hr0⟩

theorem allocation_covers_100000 : ∃ q0 q p,
    QMalloc.qm_malloc_init QMalloc.debugBuild (fun _ => 0) QMalloc.arena = some (some q0) ∧
    QMalloc.qm_malloc QMalloc.debugBuild q0 100000 = some (q, p) ∧
    100000 ≤ qm_usable QMalloc.debugBuild q p := by
  obtain ⟨q0, q, -, -, f, h0, hm, -⟩ := QMalloc.first_malloc (fun _ => 0) QMalloc.arena_room
  refine ⟨q0, q, _, h0, hm, ?_⟩
  exact ((allocation_covers 100000).2 _ _ _ q0 q0 q [] (.malloc 100000) _ h0 .init trivial rfl hm
    (QMalloc.ptr_ne_zero f)).2 (by decide)

/-- `(unsigned long) -1` is rounded to 0: the first allocation of an arena of four mebibytes succeeds. -/
theorem allocation_wraps : ∃ q0 q p,
    QMalloc.qm_malloc_init QMalloc.debugBuild (fun _ => 0) QMalloc.arena = some (some q0) ∧
    QMalloc.qm_malloc QMalloc.debugBuild q0 (2 ^ 64 - 1) = some (q, p) ∧ p ≠ 0 ∧
    qm_usable QMalloc.debugBuild q p < 2 ^ 64 - 1 := by
  have hround : QMalloc.ROUNDUP QMalloc.debugBuild (2 ^ 64 - 1) = 0 := by decide
  have hroom : QMalloc.init_overhead QMalloc.debugBuild +
      QMalloc.ROUNDUP QMalloc.debugBuild (2 ^ 64 - 1) ≤ QMalloc.arena.size := by
    have := QMalloc.arena_room
    omega
  obtain ⟨q0, q, -, -, f, h0, hm, -⟩ := QMalloc.first_malloc (fun _ => 0) hroom
  refine ⟨q0, q, _, h0, hm, QMalloc.ptr_ne_zero f, ?_⟩
  have hr : QMalloc.Reachable QMalloc.debugBuild q0 q0 [] := .init
  have ok : QMalloc.Allowed [] (.malloc (2 ^ 64 - 1)) := trivial
  have hiff := qm_usable_iff h0 hr ok rfl hm (QMalloc.ptr_ne_zero f)
  by_contra hn
  have hc := hiff.1 (not_lt.1 hn)
  revert hc
  decide

end OpenSips.FMalloc
