import OpenSips.QMalloc.Layout
import OpenSips.Lib.Ring
import Mathlib.Data.List.Perm.Subperm

/-!
# OpenSips.QMalloc.Frags — what an arena holds

`Base q frs`: the fragments `frs` tile the arena, each with its size in header and footer.
`Lists q frs L`: bucket `h` is a ring of the free fragments that `GET_HASH` sends there, sorted by
size.  List heads and fragments are disjoint pieces of memory (`node_ne`), so a write to one field
of one of them is a write to nothing else.
-/

namespace OpenSips.QMalloc

open Lib List

/-- A fragment: where it starts, its usable size, and whether it is on a free list. -/
structure Frag where
  addr : ℕ
  size : ℕ
  free : Bool

variable (b : Build)

/-- The bytes of a fragment of size `s` with header and footer. -/
def span (s : ℕ) : ℕ := sizeof_frag b + s + sizeof_frag_end b

/-- The fragments lie one after the other from `a` to `e`. -/
def Tiled : ℕ → List Frag → ℕ → Prop
  | a, [], e => a = e
  | a, f :: fs, e => f.addr = a ∧ Tiled (a + span b f.size) fs e

section Tiled

variable {b} {a e : ℕ} {fs gs : List Frag}

theorem tiled_append : Tiled b a (fs ++ gs) e ↔ ∃ m, Tiled b a fs m ∧ Tiled b m gs e := by
  induction fs generalizing a with
  | nil => simp [Tiled]
  | cons f fs ih =>
    rw [cons_append, Tiled, ih]
    simp only [Tiled]
    constructor
    · rintro ⟨h1, m, h2, h3⟩
      exact ⟨m, ⟨h1, h2⟩, h3⟩
    · rintro ⟨m, ⟨h1, h2⟩, h3⟩
      exact ⟨h1, m, h2, h3⟩

theorem tiled_le (h : Tiled b a fs e) : a ≤ e := by
  induction fs generalizing a with
  | nil => exact h.le
  | cons f fs ih => exact (Nat.le_add_right _ _).trans (ih h.2)

theorem tiled_mem (h : Tiled b a fs e) {f : Frag} (hf : f ∈ fs) :
    a ≤ f.addr ∧ f.addr + span b f.size ≤ e := by
  induction fs generalizing a with
  | nil => simp at hf
  | cons g fs ih =>
    obtain ⟨h1, h2⟩ := h
    rcases mem_cons.1 hf with rfl | hf
    · exact ⟨h1.ge, h1 ▸ tiled_le h2⟩
    · obtain ⟨h3, h4⟩ := ih h2 hf
      exact ⟨by omega, h4⟩

theorem tiled_pairwise (h : Tiled b a fs e) :
    fs.Pairwise fun f g => f.addr + span b f.size ≤ g.addr := by
  induction fs generalizing a with
  | nil => exact Pairwise.nil
  | cons f fs ih =>
    obtain ⟨h1, h2⟩ := h
    refine pairwise_cons.2 ⟨fun g hg => ?_, ih h2⟩
    rw [h1]
    exact (tiled_mem h2 hg).1

theorem span_pos (s : ℕ) : 32 ≤ span b s := by
  obtain ⟨h1, h2, -⟩ := offsets b
  unfold span
  omega

theorem tiled_apart (h : Tiled b a fs e) {f g : Frag} (hf : f ∈ fs) (hg : g ∈ fs) :
    f = g ∨ f.addr + span b f.size ≤ g.addr ∨ g.addr + span b g.size ≤ f.addr := by
  induction fs generalizing a with
  | nil => simp at hf
  | cons k fs ih =>
    obtain ⟨h1, h2⟩ := h
    rcases mem_cons.1 hf with hfk | hf' <;> rcases mem_cons.1 hg with hgk | hg'
    · exact .inl (hfk.trans hgk.symm)
    · exact .inr (.inl (by rw [hfk, h1]; exact (tiled_mem h2 hg').1))
    · exact .inr (.inr (by rw [hgk, h1]; exact (tiled_mem h2 hf').1))
    · exact ih h2 hf' hg'

theorem tiled_length (h : Tiled b a fs e) : a + 32 * fs.length ≤ e := by
  induction fs generalizing a with
  | nil => exact h.le
  | cons f fs ih =>
    have h3 := span_pos (b := b) f.size
    have := ih h.2
    simp only [length_cons]
    omega

theorem tiled_nodup (h : Tiled b a fs e) : (fs.map Frag.addr).Nodup := by
  rw [List.Nodup, pairwise_map]
  refine (tiled_pairwise h).imp fun {f g} hfg => ?_
  have := span_pos (b := b) f.size
  omega

theorem tiled_inj (h : Tiled b a fs e) {f g : Frag} (hf : f ∈ fs) (hg : g ∈ fs)
    (hfg : f.addr = g.addr) : f = g := by
  have h1 := span_pos (b := b) f.size
  have h2 := span_pos (b := b) g.size
  rcases tiled_apart h hf hg with h | h | h
  · exact h
  · omega
  · omega

theorem tiled_flag {f : Frag} (u : Bool) (h : Tiled b a (fs ++ f :: gs) e) :
    Tiled b a (fs ++ { f with free := u } :: gs) e := by
  obtain ⟨m, h1, h2⟩ := tiled_append.1 h
  exact tiled_append.2 ⟨m, h1, h2⟩

end Tiled

/-! ### Nodes: fragments and list heads -/

/-- A piece of memory laid out as a fragment: at `x`, of size `s`; the flag says whether its links
are in use. -/
inductive Node (q : QmBlock) (frs : List Frag) : ℕ → ℕ → Bool → Prop where
  | head {h : ℕ} (hh : h < QM_HASH_SIZE b) : Node q frs (free_hash b q h) 0 true
  | frag {f : Frag} (hf : f ∈ frs) : Node q frs f.addr f.size f.free

/-- A fragment is laid out: its size in header and footer, and the check words of a debug build. -/
structure Intact (q : QmBlock) (f : Frag) : Prop where
  head : q.mem f.addr = f.size
  foot : q.mem (f.addr + (sizeof_frag b + f.size + end_size b)) = f.size
  dvd : ROUNDTO b ∣ f.size
  checks : b.dbg = true → q.mem (f.addr + 40) = ST_CHECK_PATTERN ∧
    q.mem (f.addr + (sizeof_frag b + f.size)) = END_CHECK_PATTERN1 ∧
    q.mem (f.addr + (sizeof_frag b + f.size + 8)) = END_CHECK_PATTERN2

/-- The fragments tile the arena, each laid out, above the list heads. -/
structure Base (q : QmBlock) (frs : List Frag) : Prop where
  tiled : Tiled b q.first_frag frs (q.last_frag_end + sizeof_frag_end b)
  ctl : free_hash b q (QM_HASH_SIZE b) ≤ q.first_frag
  top : q.last_frag_end + sizeof_frag_end b ≤ 2 ^ 64
  intact : ∀ f ∈ frs, Intact b q f
  zero : ∀ h < QM_HASH_SIZE b, q.mem (free_hash b q h) = 0

section Nodes

variable {b} {q : QmBlock} {frs : List Frag}

theorem head_apart {h k : ℕ} (hk : h < k) : free_hash b q h + span b 0 ≤ free_hash b q k := by
  have h1 : (h + 1) * sizeof_lnk b ≤ k * sizeof_lnk b := Nat.mul_le_mul_right _ hk
  rw [Nat.add_mul, one_mul] at h1
  have h2 : sizeof_lnk b = span b 0 + 8 := by simp [sizeof_lnk, span, FRAG_OVERHEAD]
  unfold free_hash
  omega

theorem head_inj {h k : ℕ} (e : free_hash b q h = free_hash b q k) : h = k := by
  have h0 := span_pos (b := b) 0
  rcases lt_trichotomy h k with hlt | heq | hlt
  · have := head_apart (q := q) (b := b) hlt
    omega
  · exact heq
  · have := head_apart (q := q) (b := b) hlt
    omega

section

variable (hB : Base b q frs)
include hB

theorem Base.head_le {h : ℕ} (hh : h < QM_HASH_SIZE b) {f : Frag}
    (hf : f ∈ frs) : free_hash b q h + span b 0 ≤ f.addr :=
  (head_apart hh).trans (hB.ctl.trans (tiled_mem hB.tiled hf).1)

theorem Base.apart {x y s t : ℕ} {u v : Bool} (hx : Node b q frs x s u) (hy : Node b q frs y t v) :
    (x = y ∧ s = t ∧ u = v) ∨ x + span b s ≤ y ∨ y + span b t ≤ x := by
  cases hx with
  | @head h hh =>
    cases hy with
    | @head k hk =>
      rcases lt_trichotomy h k with hlt | rfl | hlt
      · exact .inr (.inl (head_apart hlt))
      · exact .inl ⟨rfl, rfl, rfl⟩
      · exact .inr (.inr (head_apart hlt))
    | frag hf => exact .inr (.inl (hB.head_le hh hf))
  | @frag f hf =>
    cases hy with
    | head hk => exact .inr (.inr (hB.head_le hk hf))
    | @frag g hg =>
      rcases tiled_apart hB.tiled hf hg with rfl | h | h
      · exact .inl ⟨rfl, rfl, rfl⟩
      · exact .inr (.inl h)
      · exact .inr (.inr h)

/-- **Fields do not alias**: different offsets, or different nodes, are different addresses. -/
theorem Base.ne {x y s t i j : ℕ} {u v : Bool} (hx : Node b q frs x s u)
    (hy : Node b q frs y t v) (hi : i < span b s) (hj : j < span b t) (hij : x = y → i ≠ j) :
    x + i ≠ y + j := by
  rcases hB.apart hx hy with ⟨h, -⟩ | h | h
  · have := hij h
    omega
  · omega
  · omega

theorem Base.node_size {x s : ℕ} {u : Bool} (hx : Node b q frs x s u) : q.mem x = s := by
  cases hx with
  | head hh => exact hB.zero _ hh
  | frag hf => exact (hB.intact _ hf).head

theorem prev_node {x s : ℕ} {u : Bool} (hx : Node b q frs x s u) :
    prev_free b q x = q.mem (x + (sizeof_frag b + s + end_prev b)) := by
  rw [prev_free, FRAG_END, hB.node_size hx]
  congr 1
  omega

theorem Base.size_lt {f : Frag} (hf : f ∈ frs) : f.size + 32 ≤ 2 ^ 64 := by
  have h1 := (tiled_mem hB.tiled hf).2
  have h2 := hB.top
  obtain ⟨h3, h4, -⟩ := offsets b
  unfold span at h1
  omega

end

end Nodes

/-- The free lists: bucket `h` is the ring of the free fragments that hash there. -/
structure Lists (q : QmBlock) (frs : List Frag) (L : ℕ → List ℕ) : Prop where
  ring : ∀ h < QM_HASH_SIZE b, Ring (nxt_free q) (prev_free b q) (free_hash b q h) (L h)
  mem_iff : ∀ h < QM_HASH_SIZE b, ∀ x,
    x ∈ L h ↔ ∃ f ∈ frs, f.addr = x ∧ f.free = true ∧ GET_HASH b f.size = h
  nodup : ∀ h < QM_HASH_SIZE b, (L h).Nodup
  sorted : ∀ h < QM_HASH_SIZE b, (L h).Pairwise fun x y => q.mem x ≤ q.mem y
  no : ∀ h < QM_HASH_SIZE b, q.no h = (L h).length

/-- The structural invariant of a block. -/
structure Core (q : QmBlock) (frs : List Frag) (L : ℕ → List ℕ) : Prop extends
  Base b q frs, Lists b q frs L

def LinkWord (q : QmBlock) (frs : List Frag) (a : ℕ) : Prop :=
  ∃ x s, Node b q frs x s true ∧ (a = x + 8 ∨ a = x + (sizeof_frag b + s + end_prev b))

end OpenSips.QMalloc
