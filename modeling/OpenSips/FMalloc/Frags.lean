import OpenSips.FMalloc.Model
import OpenSips.QMalloc.Frags
import OpenSips.Lib.Tiling

/-!
# OpenSips.FMalloc.Frags — what an arena holds

`Base q frs`: the fragments `frs` tile the arena, each with its size in its header.  `Filed frs L`: the
buckets `L` hold the free ones, each where `GET_HASH` sends it.  `Core` adds that the memory links the
buckets.  The cells of a bucket are its head and two words of each of its fragments, so buckets share
none, and a fragment on no list has none (`Core.off_cells`).
-/

namespace OpenSips.FMalloc

open Lib List
open QMalloc (Frag big_hash_idx big_hash_idx_eq log2_mono wrap)

/-! ### Sizes and buckets -/

theorem sizeof_frag_bounds (b : Build) : 24 ≤ sizeof_frag b ∧ (b.dbg = true → sizeof_frag b = 56) ∧
    sizeof_frag b ≤ 56 := by
  unfold sizeof_frag
  cases b.dbg <;> decide

theorem dvd_sizeof_frag (b : Build) : 8 ∣ sizeof_frag b := by
  unfold sizeof_frag
  cases b.dbg <;> decide

theorem F_HASH_SIZE_eq : F_HASH_SIZE = 2099 := rfl

theorem sizeof_block_bounds (b : Build) : sizeof_block b = 33624 ∨ sizeof_block b = 33648 := by
  unfold sizeof_block free_hash_off
  cases b.counts
  · exact .inl rfl
  · exact .inr rfl

theorem dvd_ROUNDUP (s : ℕ) : 8 ∣ ROUNDUP s := Nat.dvd_mul_left _ _

theorem ROUNDUP_lt (s : ℕ) : ROUNDUP s < 2 ^ 64 := (Nat.div_mul_le_self _ _).trans_lt (Nat.mod_lt _ (by decide))

/-- Rounding is exact unless the addition wraps. -/
theorem ROUNDUP_bounds {s : ℕ} (h : s + ROUNDTO ≤ 2 ^ 64) : s ≤ ROUNDUP s ∧ ROUNDUP s < s + ROUNDTO := by
  unfold ROUNDUP ROUNDDOWN wrap ROUNDTO at *
  omega

theorem ROUNDUP_ROUNDUP (s : ℕ) : ROUNDUP (ROUNDUP s) = ROUNDUP s := by
  obtain ⟨k, hk⟩ := dvd_ROUNDUP s
  have hlt := ROUNDUP_lt s
  rw [hk] at hlt ⊢
  unfold ROUNDUP ROUNDDOWN wrap ROUNDTO
  omega

theorem GET_HASH_mono {s t : ℕ} (h : s ≤ t) (ht : t < 2 ^ 64) : GET_HASH s ≤ GET_HASH t := by
  have hop : F_MALLOC_OPTIMIZE = 2 ^ 14 := rfl
  have hfa : F_MALLOC_OPTIMIZE_FACTOR = 14 := rfl
  have hto : ROUNDTO = 8 := rfl
  unfold GET_HASH
  rw [hop, hfa, hto]
  split_ifs with h1 h2 h2
  · omega
  · rw [big_hash_idx_eq (by omega) ht]
    have h4 : 14 ≤ t.log2 := (Nat.le_log2 (by omega)).2 (by omega)
    omega
  · omega
  · rw [big_hash_idx_eq (by omega) ht, big_hash_idx_eq (by omega) (by omega)]
    have := log2_mono (by omega) h
    omega

theorem GET_HASH_lt {s : ℕ} (hs : s < 2 ^ 64) : GET_HASH s < F_HASH_SIZE := by
  have hop : F_MALLOC_OPTIMIZE = 2 ^ 14 := rfl
  have hfa : F_MALLOC_OPTIMIZE_FACTOR = 14 := rfl
  have hto : ROUNDTO = 8 := rfl
  unfold GET_HASH
  rw [hop, hfa, hto, F_HASH_SIZE_eq]
  split_ifs with h1
  · omega
  · rw [big_hash_idx_eq (by omega) hs]
    have : s.log2 < 64 := (Nat.log2_lt (by omega)).2 hs
    omega

/-! ### Fragments -/

variable (b : Build)

def span (f : Frag) : ℕ := sizeof_frag b + f.size

/-- The fragments fill what is between `a` and `e`. -/
abbrev Frags (a : ℕ) (frs : List Frag) (e : ℕ) : Prop := Tiled Frag.addr (span b) a frs e

/-- The fragments tile the arena, above the heads of the lists; each has its size in its header. -/
structure Base (q : FmBlock) (frs : List Frag) : Prop where
  tiled : Frags b q.first_frag frs (q.last_frag + sizeof_frag b)
  ctl : free_hash b q F_HASH_SIZE ≤ q.first_frag
  top : q.last_frag + sizeof_frag b < 2 ^ 64
  aligned : 8 ∣ q.first_frag
  dvd : ∀ f ∈ frs, 8 ∣ f.size
  head : ∀ f ∈ frs, q.mem f.addr = f.size

/-- Each free fragment is once in the bucket of its size, and nothing else is in a bucket. -/
structure Filed (frs : List Frag) (L : ℕ → List ℕ) : Prop where
  mem_iff : ∀ h < F_HASH_SIZE, ∀ x, x ∈ L h ↔ ∃ f ∈ frs, f.addr = x ∧ f.free = true ∧ GET_HASH f.size = h
  nodup : ∀ h < F_HASH_SIZE, (L h).Nodup

/-- The structure of a block: the buckets are linked, and counted. -/
structure Core (q : FmBlock) (frs : List Frag) (L : ℕ → List ℕ) : Prop extends
  Base b q frs, Filed frs L where
  list : ∀ h < F_HASH_SIZE, CellList nxt_free prev q.mem (free_hash b q h) (L h)
  no : ∀ h < F_HASH_SIZE, q.no h = (L h).length

section Cells

variable {b} {q : FmBlock} {frs : List Frag} {L : ℕ → List ℕ} {f g : Frag}

theorem span_pos (f : Frag) : 24 ≤ span b f := (sizeof_frag_bounds b).1.trans (Nat.le_add_right _ _)

section

variable (hB : Base b q frs)
include hB

theorem Base.apart (hf : f ∈ frs) (hg : g ∈ frs) :
    f = g ∨ f.addr + span b f ≤ g.addr ∨ g.addr + span b g ≤ f.addr := hB.tiled.apart hf hg

theorem Base.inj (hf : f ∈ frs) (hg : g ∈ frs) (h : f.addr = g.addr) : f = g :=
  hB.tiled.inj (fun x _ => (by decide : 0 < 24).trans_le (span_pos x)) hf hg h

variable {h : ℕ}

theorem Base.above (hf : f ∈ frs) (hh : h < F_HASH_SIZE) : free_hash b q h + 16 ≤ f.addr := by
  have h1 := (hB.tiled.mem hf).1
  have h2 := hB.ctl
  unfold free_hash at h2 ⊢
  omega

theorem Base.pos (hf : f ∈ frs) : f.addr ≠ 0 := by
  have := hB.above hf (h := 0) (by decide)
  omega

theorem Base.size_lt (hf : f ∈ frs) : f.addr + span b f < 2 ^ 64 := (hB.tiled.mem hf).2.trans_lt hB.top

theorem Base.hash_lt (hf : f ∈ frs) : GET_HASH f.size < F_HASH_SIZE := by
  have h1 := hB.size_lt hf
  unfold span at h1
  exact GET_HASH_lt (by omega)

theorem Base.length_lt : frs.length < steps q := by
  have h1 := hB.tiled.length_le fun x _ => (by decide : 0 < 24).trans_le (span_pos x)
  have h2 := hB.ctl
  have h3 := sizeof_frag_bounds b
  have h4 : free_hash b q F_HASH_SIZE = q.qm + free_hash_off b + 2099 * 16 := rfl
  unfold steps
  omega

end

theorem Filed.length_le (hF : Filed frs L) (hh : h < F_HASH_SIZE) : (L h).length ≤ frs.length := by
  rw [← length_map (f := Frag.addr)]
  refine ((hF.nodup h hh).subperm fun x hx => ?_).length_le
  obtain ⟨f, hf, e, -⟩ := (hF.mem_iff h hh x).1 hx
  exact List.mem_map.2 ⟨f, hf, e⟩

theorem Filed.cell (hF : Filed frs L) {h c : ℕ} (hh : h < F_HASH_SIZE)
    (hc : c ∈ cells nxt_free prev (free_hash b q h) (L h)) : c = free_hash b q h ∨
      ∃ f ∈ frs, f.free = true ∧ GET_HASH f.size = h ∧ (c = f.addr + 16 ∨ c = f.addr + 8) := by
  rcases mem_cells.1 hc with rfl | ⟨x, hx, hc⟩
  · exact .inl rfl
  · obtain ⟨f, hf, rfl, hfree, hash⟩ := (hF.mem_iff h hh x).1 hx
    exact .inr ⟨f, hf, hfree, hash, hc⟩

/-- **A fragment on no list has no cell**, and no cell is at another place of a fragment. -/
theorem Base.off_cells (hB : Base b q frs) (hF : Filed frs L) (hg : g ∈ frs) {j h : ℕ}
    (hj : j < span b g) (hj' : g.free = false ∨ (j ≠ 8 ∧ j ≠ 16)) (hh : h < F_HASH_SIZE) :
    g.addr + j ∉ cells nxt_free prev (free_hash b q h) (L h) := by
  intro hc
  rcases hF.cell hh hc with hc | ⟨f, hf, hfree, -, hc⟩
  · have := hB.above hg hh
    omega
  · have hs := span_pos (b := b) f
    rcases hB.apart hg hf with rfl | hlt | hlt
    · rcases hj' with hj' | hj'
      · rw [hfree] at hj'
        cases hj'
      · omega
    · omega
    · omega

/-- **Buckets share no cell.** -/
theorem Base.cells_disjoint (hB : Base b q frs) (hF : Filed frs L) {h k c : ℕ} (hh : h < F_HASH_SIZE)
    (hk : k < F_HASH_SIZE) (hhk : h ≠ k) (hc : c ∈ cells nxt_free prev (free_hash b q h) (L h)) :
    c ∉ cells nxt_free prev (free_hash b q k) (L k) := by
  rcases hF.cell hh hc with rfl | ⟨f, hf, hfree, hash, hc⟩
  · intro hc'
    rcases hF.cell hk hc' with e | ⟨g, hg, -, -, hc'⟩
    · unfold free_hash at e
      omega
    · have := hB.above hg hh
      omega
  · intro hc'
    rcases hF.cell hk hc' with e | ⟨g, hg, -, hash', hc'⟩
    · have := hB.above hf hk
      omega
    · have hs := span_pos (b := b) f
      have hs' := span_pos (b := b) g
      rcases hB.apart hf hg with rfl | hlt | hlt
      · exact hhk (hash.symm.trans hash')
      · omega
      · omega

theorem Base.cells_nodup (hB : Base b q frs) (hF : Filed frs L) (hh : h < F_HASH_SIZE) :
    (cells nxt_free prev (free_hash b q h) (L h)).Nodup := by
  have hapart : ∀ x ∈ L h, ∀ y ∈ L h, x = y ∨ x + 24 ≤ y ∨ y + 24 ≤ x := fun x hx y hy => by
    obtain ⟨f, hf, rfl, -⟩ := (hF.mem_iff h hh x).1 hx
    obtain ⟨g, hg, rfl, -⟩ := (hF.mem_iff h hh y).1 hy
    have hs := span_pos (b := b) f
    have hs' := span_pos (b := b) g
    rcases hB.apart hf hg with rfl | hlt | hlt
    · exact .inl rfl
    · exact .inr (.inl (by omega))
    · exact .inr (.inr (by omega))
  refine OpenSips.Lib.cells_nodup (hF.nodup h hh) (fun x hx => ?_) (fun x _ => ?_) fun x hx y hy hne => ?_
  · obtain ⟨f, hf, rfl, -⟩ := (hF.mem_iff h hh x).1 hx
    have := hB.above hf hh
    unfold prev nxt_free
    omega
  · unfold prev nxt_free
    omega
  · have := hapart x hx y hy
    unfold prev nxt_free
    omega

theorem Filed.ne_zero (hF : Filed frs L) (hB : Base b q frs) {h x : ℕ} (hh : h < F_HASH_SIZE)
    (hx : x ∈ L h) : x ≠ 0 := by
  obtain ⟨f, hf, rfl, -⟩ := (hF.mem_iff h hh x).1 hx
  exact hB.pos hf

/-- The cell that has a free fragment is not `NULL`. -/
theorem Core.prev_ne_zero (hC : Core b q frs L) (hf : f ∈ frs) (hfree : f.free = true) :
    q.mem (prev f.addr) ≠ 0 := by
  have hh := hC.hash_lt hf
  obtain ⟨A, B, hL⟩ := append_of_mem ((hC.mem_iff _ hh f.addr).2 ⟨f, hf, rfl, hfree, rfl⟩)
  have hlist := hC.list _ hh
  have hcell : lastCell nxt_free (free_hash b q (GET_HASH f.size)) A ∈
      cells nxt_free prev (free_hash b q (GET_HASH f.size)) (L (GET_HASH f.size)) := by
    rw [hL, cells_append]
    exact mem_append_left _ lastCell_mem
  rw [hL] at hlist
  rw [hlist.middle.1]
  rcases hC.toFiled.cell hh hcell with e | ⟨g, hg, -, -, e⟩
  · have h64 : 40 ≤ free_hash_off b := by
      unfold free_hash_off
      split_ifs <;> decide
    rw [e, free_hash]
    omega
  · have := hC.pos hg
    omega

end Cells

end OpenSips.FMalloc
